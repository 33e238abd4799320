import SignerVoting.Snapshot

/-!
# The required majority

The required majority is one more than the percentage of the signers that the percentage in force
says, rounded down. It is not held to the number of signers. Below one hundred percent that many
signers exist (`requiredMajority_le_size`). At one hundred it takes one more than there are
(`requiredMajority_eq_size_add_one`), unless there are so many signers that the product does not fit
into a word.

Signers are counted in a word. Where their number fits into one, more signers and a higher
percentage require no smaller majority (`requiredMajority_le`).
-/

namespace SignerVoting

namespace Snapshot

variable {s t : Snapshot}

theorem toNat_requiredMajority (s : Snapshot) :
    s.requiredMajority.toNat =
      min (s.signerCount.toNat * s.quorumPercent.toNat) (UInt64.size - 1) / 100 + 1 := by
  have hcapped := (Word.mulCapped s.signerCount s.quorumPercent).toNat_lt
  rw [requiredMajority, UInt64.toNat_add, UInt64.toNat_div, ← Word.toNat_mulCapped]
  simp only [UInt64.toNat_one, UInt64.reduceToNat]
  omega

/-! ## The number of signers -/

theorem toNat_signerCount_of_lt (h : s.signers.size < UInt64.size) :
    s.signerCount.toNat = s.signers.size :=
  UInt64.toNat_ofNat_of_lt' h

theorem toNat_signerCount_le (s : Snapshot) : s.signerCount.toNat ≤ s.signers.size := by
  rw [signerCount, UInt64.toNat_ofNat']
  exact Nat.mod_le _ _

/-! ## How many votes are enough -/

/-- Where the product fits into a word, the required majority is one more than the percentage of the
    signers, rounded down. -/
theorem toNat_requiredMajority_of_lt
    (hproduct : s.signers.size * s.quorumPercent.toNat < UInt64.size) :
    s.requiredMajority.toNat = s.signers.size * s.quorumPercent.toNat / 100 + 1 := by
  have hcount : s.signerCount.toNat * s.quorumPercent.toNat =
      s.signers.size * s.quorumPercent.toNat := by
    rcases Nat.eq_zero_or_pos s.quorumPercent.toNat with hzero | hpos
    · rw [hzero, Nat.mul_zero, Nat.mul_zero]
    · rw [toNat_signerCount_of_lt (Nat.lt_of_le_of_lt (Nat.le_mul_of_pos_right _ hpos) hproduct)]
  rw [toNat_requiredMajority, hcount, Nat.min_eq_left (Nat.le_sub_one_of_lt hproduct)]

/-- Below one hundred percent there are enough signers. -/
theorem requiredMajority_le_size (hp : s.quorumPercent < 100) (hpos : 0 < s.signers.size) :
    s.requiredMajority.toNat ≤ s.signers.size := by
  have hp' : s.quorumPercent.toNat ≤ 99 := Nat.le_of_lt_succ (UInt64.lt_iff_toNat_lt.1 hp)
  have hcount := s.toNat_signerCount_le
  have hproduct := Nat.mul_le_mul hcount hp'
  rw [toNat_requiredMajority]
  omega

/-- No more votes are needed than the greatest product requires. -/
theorem requiredMajority_le_size_of_saturated (hsize : UInt64.size ≤ 100 * s.signers.size) :
    s.requiredMajority.toNat ≤ s.signers.size := by
  have hword : 0 < UInt64.size := by decide
  rw [toNat_requiredMajority]
  omega

/-- At one hundred percent there is one signer too few. -/
theorem requiredMajority_eq_size_add_one (hp : s.quorumPercent = 100)
    (hsize : 100 * s.signers.size < UInt64.size) :
    s.requiredMajority.toNat = s.signers.size + 1 := by
  rw [toNat_requiredMajority, hp, toNat_signerCount_of_lt (by omega)]
  simp only [UInt64.reduceToNat]
  omega

/-- One signer is enough below one hundred percent, and not from there on. -/
theorem requiredMajority_eq_one_iff (hsize : s.signers.size = 1) :
    s.requiredMajority.toNat = 1 ↔ s.quorumPercent < 100 := by
  have hword : 100 < UInt64.size := by decide
  rw [toNat_requiredMajority, toNat_signerCount_of_lt (by omega), hsize, UInt64.lt_iff_toNat_lt]
  simp only [UInt64.reduceToNat]
  omega

/-- More signers and a higher percentage require no smaller majority. -/
theorem requiredMajority_le (hsize : s.signers.size ≤ t.signers.size)
    (hfits : t.signers.size < UInt64.size) (hp : s.quorumPercent ≤ t.quorumPercent) :
    s.requiredMajority.toNat ≤ t.requiredMajority.toNat := by
  have hproduct := Nat.mul_le_mul hsize (UInt64.le_iff_toNat_le.1 hp)
  rw [toNat_requiredMajority, toNat_requiredMajority, toNat_signerCount_of_lt hfits,
    toNat_signerCount_of_lt (Nat.lt_of_le_of_lt hsize hfits)]
  omega

end Snapshot

end SignerVoting
