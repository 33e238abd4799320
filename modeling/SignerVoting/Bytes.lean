/-!
# Byte strings

Byte strings of any length are lists of bytes; those whose length the format fixes are vectors. An
integer is written into a fixed number of bytes from the low end (`littleEndian`) or from the high
end (`bigEndian`), and read back as the number the bytes stand for in base 256.

Main facts:

* `ofString_inj`, `fromUTF8?_ofString`: a text is determined by its bytes, and read back from them;
* `ofLittleEndian_littleEndian`, `ofBigEndian_bigEndian`: what is written into `k` bytes is read
  back modulo `256 ^ k`;
* `littleEndian_ofLittleEndian`: bytes are the digits of the number they stand for.
-/

namespace SignerVoting

/-- A 32-byte hash. -/
abbrev Digest := Vector UInt8 32

/-- The eight bytes of a header in which its vote is marked. -/
abbrev Nonce := Vector UInt8 8

namespace Bytes

/-- The bytes as a vector, if they have the length asked for. -/
def toVector? (n : Nat) (bytes : List UInt8) : Option (Vector UInt8 n) :=
  if h : bytes.length = n then some ⟨bytes.toArray, by simpa using h⟩ else none

theorem toVector?_eq_some_iff {n : Nat} {bytes : List UInt8} {v : Vector UInt8 n} :
    toVector? n bytes = some v ↔ bytes = v.toList := by
  unfold toVector?
  split
  · rw [Option.some_inj]
    refine ⟨fun h => h ▸ rfl, fun h => ?_⟩
    apply Vector.toList_inj.1
    rw [← h]
    rfl
  · rename_i h
    simp only [reduceCtorEq, false_iff]
    rintro rfl
    exact h (by simp)

@[simp] theorem toVector?_toList {n : Nat} (v : Vector UInt8 n) :
    toVector? n v.toList = some v := toVector?_eq_some_iff.2 rfl

/-! ## Order -/

/-- Byte strings are in the order of the first byte in which they differ. -/
theorem compareLex_eq_lt_iff {l m : List UInt8} :
    List.compareLex compare l m = .lt ↔ l < m := by
  induction l generalizing m with
  | nil => cases m <;> simp [List.compareLex]
  | cons b l ih =>
    cases m with
    | nil => simp [List.compareLex]
    | cons c m =>
      rw [List.compareLex, List.cons_lt_cons_iff, ← ih, ← Std.compare_eq_lt]
      cases h : compare b c with
      | lt => simp
      | eq => simp [Std.LawfulEqCmp.eq_of_compare h]
      | gt =>
        have hne : b ≠ c := by
          rintro rfl
          simp at h
        simp [hne]

/-! ## Texts -/

/-- The bytes of a text, in UTF-8. -/
def ofString (s : String) : List UInt8 := s.toUTF8.data.toList

theorem ofString_ofList (cs : List Char) :
    ofString (String.ofList cs) = cs.flatMap String.utf8EncodeChar := by
  simp [ofString, List.utf8Encode]

theorem utf8EncodeChar_of_lt {c : Char} (h : c.toNat < 128) :
    String.utf8EncodeChar c = [c.toUInt8] := by
  have hc : c.val.toNat ≤ 127 := Nat.le_of_lt_succ h
  unfold String.utf8EncodeChar
  rw [if_pos hc]
  rfl

/-- The characters of ASCII are one byte each. -/
theorem ofString_ofList_of_lt {cs : List Char} (h : ∀ c ∈ cs, c.toNat < 128) :
    ofString (String.ofList cs) = cs.map Char.toUInt8 := by
  rw [ofString_ofList]
  induction cs with
  | nil => rfl
  | cons c cs ih =>
    rw [List.flatMap_cons, utf8EncodeChar_of_lt (h c (by simp)), ih fun d hd => h d (by simp [hd])]
    rfl

/-- A text is read back from its bytes. -/
theorem fromUTF8?_ofString (s : String) : String.fromUTF8? ⟨(ofString s).toArray⟩ = some s := by
  have hs : (⟨(ofString s).toArray⟩ : ByteArray) = s.toUTF8 := by simp [ofString]
  rw [hs, String.fromUTF8?]
  simp only [String.toUTF8_eq_toByteArray, Option.dite_none_right_eq_some, Option.some.injEq]
  exact ⟨s.isValidUTF8, rfl⟩

theorem ofString_inj {s t : String} : ofString s = ofString t ↔ s = t := by
  refine ⟨fun h => ?_, fun h => h ▸ rfl⟩
  have hs := fromUTF8?_ofString s
  rw [h, fromUTF8?_ofString] at hs
  exact (Option.some_inj.1 hs).symm

/-! ## Integers -/

/-- The `k` low base-256 digits of a number, the lowest first. -/
def littleEndian : Nat → Nat → List UInt8
  | 0, _ => []
  | k + 1, n => UInt8.ofNat n :: littleEndian k (n / 256)

/-- The number that has the bytes as its base-256 digits, the lowest first. -/
def ofLittleEndian : List UInt8 → Nat
  | [] => 0
  | b :: rest => b.toNat + 256 * ofLittleEndian rest

/-- The `k` low base-256 digits of a number, the highest first. -/
def bigEndian (k n : Nat) : List UInt8 := (littleEndian k n).reverse

/-- The number that has the bytes as its base-256 digits, the highest first. -/
def ofBigEndian (bytes : List UInt8) : Nat := ofLittleEndian bytes.reverse

@[simp] theorem length_littleEndian (k n : Nat) : (littleEndian k n).length = k := by
  induction k generalizing n with
  | zero => rfl
  | succ k ih => simp [littleEndian, ih]

@[simp] theorem length_bigEndian (k n : Nat) : (bigEndian k n).length = k := by
  simp [bigEndian]

theorem ofLittleEndian_littleEndian (k n : Nat) :
    ofLittleEndian (littleEndian k n) = n % Nat.pow 256 k := by
  induction k generalizing n with
  | zero => simp [littleEndian, ofLittleEndian, Nat.mod_one]
  | succ k ih =>
    have hb : (UInt8.ofNat n).toNat = n % 256 := rfl
    have hk : Nat.pow 256 (k + 1) = 256 * Nat.pow 256 k := Nat.pow_succ'
    rw [littleEndian, ofLittleEndian, ih, hb, hk, Nat.mod_mul]

theorem littleEndian_ofLittleEndian (bytes : List UInt8) :
    littleEndian bytes.length (ofLittleEndian bytes) = bytes := by
  induction bytes with
  | nil => rfl
  | cons b rest ih =>
    have hb : b.toNat < 256 := b.toNat_lt
    have hdiv : (b.toNat + 256 * ofLittleEndian rest) / 256 = ofLittleEndian rest := by omega
    have hlow : UInt8.ofNat (b.toNat + 256 * ofLittleEndian rest) = b := by
      apply UInt8.toNat_inj.1
      simp only [UInt8.toNat_ofNat']
      omega
    simp only [List.length_cons, littleEndian, ofLittleEndian, hdiv, hlow, ih]

theorem ofBigEndian_bigEndian (k n : Nat) : ofBigEndian (bigEndian k n) = n % Nat.pow 256 k := by
  simp [ofBigEndian, bigEndian, ofLittleEndian_littleEndian]

/-! ## Groups -/

/-- The bytes in consecutive groups of `n`, the last one shorter if they do not divide evenly. The
    argument before the bytes bounds the number of groups. -/
def groupsWithin (n : Nat) : Nat → List UInt8 → List (List UInt8)
  | 0, _ => []
  | _ + 1, [] => []
  | k + 1, bytes => bytes.take n :: groupsWithin n k (bytes.drop n)

/-- The bytes in consecutive groups of `n`, the last one shorter if they do not divide evenly. -/
def groups (n : Nat) (bytes : List UInt8) : List (List UInt8) :=
  groupsWithin n bytes.length bytes

end Bytes

end SignerVoting
