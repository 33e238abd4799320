/-!
# Numbers of 64 bits

Block numbers, counts of votes and percentages are 64-bit words. Where a result may not fit, it is
held at the greatest word, or there is none.
-/

namespace SignerVoting

namespace Word

/-- The greatest word. -/
def greatest : UInt64 := UInt64.ofNat (UInt64.size - 1)

/-- The sum, or the greatest word if that is less. -/
def addCapped (a b : UInt64) : UInt64 :=
  if a.toNat + b.toNat < UInt64.size then a + b else greatest

/-- The product, or the greatest word if that is less. -/
def mulCapped (a b : UInt64) : UInt64 :=
  if a.toNat * b.toNat < UInt64.size then a * b else greatest

/-- The word after a word, if there is one. -/
def next? (a : UInt64) : Option UInt64 :=
  if a = greatest then none else some (a + 1)

theorem toNat_greatest : greatest.toNat = UInt64.size - 1 := rfl

theorem toNat_addCapped (a b : UInt64) :
    (addCapped a b).toNat = min (a.toNat + b.toNat) (UInt64.size - 1) := by
  unfold addCapped
  split
  · rename_i h
    rw [UInt64.toNat_add, Nat.mod_eq_of_lt h, Nat.min_eq_left (Nat.le_sub_one_of_lt h)]
  · rename_i h
    rw [toNat_greatest, Nat.min_eq_right (Nat.le_trans (Nat.sub_le _ _) (Nat.le_of_not_lt h))]

theorem toNat_mulCapped (a b : UInt64) :
    (mulCapped a b).toNat = min (a.toNat * b.toNat) (UInt64.size - 1) := by
  unfold mulCapped
  split
  · rename_i h
    rw [UInt64.toNat_mul, Nat.mod_eq_of_lt h, Nat.min_eq_left (Nat.le_sub_one_of_lt h)]
  · rename_i h
    rw [toNat_greatest, Nat.min_eq_right (Nat.le_trans (Nat.sub_le _ _) (Nat.le_of_not_lt h))]

theorem toNat_add_one {a : UInt64} (h : a.toNat + 1 < UInt64.size) :
    (a + 1).toNat = a.toNat + 1 := by
  rw [UInt64.toNat_add, UInt64.toNat_one, Nat.mod_eq_of_lt h]

theorem toNat_sub_one {a : UInt64} (h : 1 < a.toNat) : (a - 1).toNat = a.toNat - 1 := by
  have h1 : 1 ≤ a := UInt64.le_iff_toNat_le.2 (Nat.le_of_lt h)
  rw [UInt64.toNat_sub_of_le a 1 h1, UInt64.toNat_one]

/-- A word that is one more than another as a number is so as a word. -/
theorem eq_add_one {a b : UInt64} (h : b.toNat = a.toNat + 1) : b = a + 1 := by
  apply UInt64.toNat_inj.1
  rw [toNat_add_one (h ▸ b.toNat_lt), h]

theorem next?_eq_some_iff {a b : UInt64} : next? a = some b ↔ b.toNat = a.toNat + 1 := by
  unfold next?
  split
  · -- The greatest word has no next one.
    rename_i h
    have hb : b.toNat < UInt64.size := b.toNat_lt
    rw [h, toNat_greatest]
    simp only [reduceCtorEq, false_iff]
    omega
  · rename_i h
    refine ⟨fun hab => ?_, fun hab => congrArg some (eq_add_one hab).symm⟩
    have hne : a.toNat ≠ UInt64.size - 1 := fun h' => h (UInt64.toNat_inj.1 h')
    have ha : a.toNat < UInt64.size := a.toNat_lt
    rw [← Option.some.inj hab, UInt64.toNat_add, UInt64.toNat_one, Nat.mod_eq_of_lt]
    exact Nat.lt_of_le_of_ne ha fun h' => hne (Nat.eq_sub_of_add_eq h')

/-- The word after a word, or the greatest one if there is none. -/
theorem toNat_getD_next? (a : UInt64) :
    ((next? a).getD greatest).toNat = min (a.toNat + 1) (UInt64.size - 1) := by
  rcases h : next? a with _ | b
  · -- Only the greatest word has no next one.
    have hlast : a = greatest := by
      unfold next? at h
      split at h
      · assumption
      · cases h
    rw [hlast, Option.getD_none, toNat_greatest]
    omega
  · have hb : b.toNat = a.toNat + 1 := next?_eq_some_iff.1 h
    have hlt : b.toNat < UInt64.size := b.toNat_lt
    rw [Option.getD_some, hb]
    omega

end Word

end SignerVoting
