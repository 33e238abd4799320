import SignerVoting.Address

/-!
# Readings of an account

The twenty bytes of an account are compared to take turns, written as a text to be stored, and taken
as a number to carry a percentage. The three say the same: an account is before another one in turn
if its number is smaller, and also if its text is. For byte strings of one length both follow from
the first byte in which they differ, since what comes after it weighs less than one unit of it, and
since its two digits are in the order of their values.

* `Bytes.lt_iff_ofBigEndian_lt`: bytes of one length are in the order of their numbers;
* `Hex.lt_iff_digits_lt`: bytes are in the order of their digits;
* `Address.readings_agree`: the order, the number and the text of accounts, and the numbers that
  accounts carry.
-/

namespace SignerVoting

/-! ## Numbers -/

namespace Bytes

theorem ofLittleEndian_append (low high : List UInt8) :
    ofLittleEndian (low ++ high) =
      ofLittleEndian low + Nat.pow 256 low.length * ofLittleEndian high := by
  induction low with
  | nil => simp [ofLittleEndian]
  | cons b low ih =>
    have hpow : Nat.pow 256 (b :: low).length = 256 * Nat.pow 256 low.length := Nat.pow_succ'
    rw [List.cons_append, ofLittleEndian, ofLittleEndian, ih, hpow, Nat.mul_add, Nat.mul_assoc,
      Nat.add_assoc]

theorem ofLittleEndian_lt (bytes : List UInt8) :
    ofLittleEndian bytes < Nat.pow 256 bytes.length := by
  induction bytes with
  | nil => exact Nat.one_pos
  | cons b rest ih =>
    have hb : b.toNat < 256 := b.toNat_lt
    have hpow : Nat.pow 256 (b :: rest).length = 256 * Nat.pow 256 rest.length := Nat.pow_succ'
    rw [ofLittleEndian, hpow]
    omega

theorem ofBigEndian_lt (bytes : List UInt8) : ofBigEndian bytes < Nat.pow 256 bytes.length := by
  have h := ofLittleEndian_lt bytes.reverse
  rwa [List.length_reverse] at h

/-- The bytes on the right are the remainder, those on the left the quotient. -/
theorem ofBigEndian_append (high low : List UInt8) :
    ofBigEndian (high ++ low) =
      ofBigEndian low + Nat.pow 256 low.length * ofBigEndian high := by
  rw [ofBigEndian, List.reverse_append, ofLittleEndian_append, List.length_reverse]
  rfl

theorem ofBigEndian_cons (b : UInt8) (rest : List UInt8) :
    ofBigEndian (b :: rest) = ofBigEndian rest + Nat.pow 256 rest.length * b.toNat := by
  have h := ofBigEndian_append [b] rest
  rwa [List.singleton_append] at h

/-- A number has one writing of a given length. -/
theorem ofBigEndian_inj {l m : List UInt8} (hlength : l.length = m.length) :
    ofBigEndian l = ofBigEndian m ↔ l = m := by
  refine ⟨fun h => ?_, fun h => h ▸ rfl⟩
  have hl := littleEndian_ofLittleEndian l.reverse
  have hm := littleEndian_ofLittleEndian m.reverse
  rw [List.length_reverse] at hl hm
  refine List.reverse_inj.1 ?_
  rw [← hl, ← hm, ← hlength]
  exact congrArg (littleEndian l.length) h

/-- Byte strings of one length are in the order of the numbers they stand for. -/
theorem lt_iff_ofBigEndian_lt {l m : List UInt8} (hlength : l.length = m.length) :
    l < m ↔ ofBigEndian l < ofBigEndian m := by
  induction l generalizing m with
  | nil =>
    obtain rfl := List.length_eq_zero_iff.1 hlength.symm
    simp
  | cons b l ih =>
    obtain ⟨c, m, rfl⟩ := List.exists_cons_of_length_eq_add_one hlength.symm
    have hrest : l.length = m.length := Nat.succ.inj hlength
    have hl := ofBigEndian_lt l
    have hm := ofBigEndian_lt m
    rw [List.cons_lt_cons_iff, ih hrest, ofBigEndian_cons, ofBigEndian_cons, UInt8.lt_iff_toNat_lt,
      ← UInt8.toNat_inj, hrest]
    rw [hrest] at hl
    -- What comes after the first bytes is less than one unit of them.
    rcases Nat.lt_trichotomy b.toNat c.toNat with hlt | heq | hgt
    · have := Nat.mul_le_mul_left (Nat.pow 256 m.length) (Nat.succ_le_of_lt hlt)
      rw [Nat.mul_succ] at this
      omega
    · simp [heq]
    · have := Nat.mul_le_mul_left (Nat.pow 256 m.length) (Nat.succ_le_of_lt hgt)
      rw [Nat.mul_succ] at this
      omega

end Bytes

/-! ## Digits -/

namespace Hex

/-- Digits are in the order of their values. -/
theorem toUInt8_digitChar_lt_iff : ∀ h < 16, ∀ l < 16,
    ((Nat.digitChar h).toUInt8 < (Nat.digitChar l).toUInt8 ↔ h < l) ∧
      ((Nat.digitChar h).toUInt8 = (Nat.digitChar l).toUInt8 ↔ h = l) := by
  decide

/-- Byte strings are in the order of the texts of their digits. -/
theorem lt_iff_digits_lt {l m : List UInt8} :
    l < m ↔ (digits l).map Char.toUInt8 < (digits m).map Char.toUInt8 := by
  induction l generalizing m with
  | nil => cases m <;> simp [digits]
  | cons b l ih =>
    cases m with
    | nil => exact iff_of_false (List.not_lt_nil _) (List.not_lt_nil _)
    | cons c m =>
      have hb : b.toNat < 256 := b.toNat_lt
      have hc : c.toNat < 256 := c.toNat_lt
      obtain ⟨hhigh, hhigh'⟩ := toUInt8_digitChar_lt_iff (b.toNat / 16) (by omega) (c.toNat / 16)
        (by omega)
      obtain ⟨hlow, hlow'⟩ := toUInt8_digitChar_lt_iff (b.toNat % 16) (by omega) (c.toNat % 16)
        (by omega)
      have hlt : b < c ↔ b.toNat / 16 < c.toNat / 16 ∨
          b.toNat / 16 = c.toNat / 16 ∧ b.toNat % 16 < c.toNat % 16 := by
        rw [UInt8.lt_iff_toNat_lt]
        omega
      have heq : b = c ↔ b.toNat / 16 = c.toNat / 16 ∧ b.toNat % 16 = c.toNat % 16 := by
        rw [← UInt8.toNat_inj]
        omega
      rw [List.cons_lt_cons_iff, hlt, heq]
      simp only [digits, List.map_cons, List.cons_lt_cons_iff, hhigh, hhigh', hlow, hlow', ← ih,
        and_or_left, and_assoc, or_assoc]

end Hex

/-! ## Accounts -/

namespace Address

theorem lt_iff_toNat_lt {a b : Address} : a < b ↔ a.toNat < b.toNat := by
  rw [lt_iff, Bytes.lt_iff_ofBigEndian_lt (by simp)]
  rfl

theorem lt_iff_text_lt {a b : Address} :
    a < b ↔ Bytes.ofString a.text < Bytes.ofString b.text := by
  rw [lt_iff, Hex.lt_iff_digits_lt, ofString_text, ofString_text]
  simp [chars]

theorem toNat_inj {a b : Address} : a.toNat = b.toNat ↔ a = b := by
  refine ⟨fun h => ?_, fun h => h ▸ rfl⟩
  have hbytes := (Bytes.ofBigEndian_inj (by simp)).1 h
  cases a
  cases b
  exact congrArg Address.mk (Vector.toList_inj.1 hbytes)

theorem toNat_lt (a : Address) : a.toNat < Nat.pow 256 20 := by
  have h := Bytes.ofBigEndian_lt a.bytes.toList
  rwa [Vector.length_toList] at h

/-- The last eight bytes as a number. -/
theorem toNat_low64 (a : Address) :
    a.low64.toNat = Bytes.ofBigEndian (a.bytes.toList.drop 12) := by
  have h := Bytes.ofBigEndian_lt (a.bytes.toList.drop 12)
  have hlength : (a.bytes.toList.drop 12).length = 8 := by simp
  rw [hlength] at h
  exact Nat.mod_eq_of_lt h

/-- The number in the last eight bytes is what is left of the number of all bytes. -/
theorem toNat_low64_eq_mod (a : Address) : a.low64.toNat = a.toNat % UInt64.size := by
  have hsplit := Bytes.ofBigEndian_append (a.bytes.toList.take 12) (a.bytes.toList.drop 12)
  have hlength : (a.bytes.toList.drop 12).length = 8 := by simp
  have hlow := a.low64.toNat_lt
  rw [List.take_append_drop, hlength, ← toNat_low64] at hsplit
  have hsize : Nat.pow 256 8 = UInt64.size := rfl
  rw [toNat, hsplit, hsize, Nat.add_mul_mod_self_left]
  exact (Nat.mod_eq_of_lt hlow).symm

theorem low64_eq_iff {a b : Address} :
    a.low64 = b.low64 ↔ a.bytes.toList.drop 12 = b.bytes.toList.drop 12 := by
  rw [← UInt64.toNat_inj, toNat_low64, toNat_low64, Bytes.ofBigEndian_inj (by simp)]

theorem toNat_ofLow64 (value : UInt64) : (ofLow64 value).toNat = value.toNat := by
  have hbytes : (ofLow64 value).bytes.toList =
      List.replicate 12 0 ++ Bytes.bigEndian 8 value.toNat := by
    simp [ofLow64, Vector.toList]
  have hzeros : Bytes.ofBigEndian (List.replicate 12 0) = 0 := rfl
  rw [toNat, hbytes, Bytes.ofBigEndian_append, hzeros, Nat.mul_zero, Nat.add_zero,
    Bytes.ofBigEndian_bigEndian]
  exact Nat.mod_eq_of_lt value.toNat_lt

theorem ofLow64_lt_iff {v w : UInt64} : ofLow64 v < ofLow64 w ↔ v < w := by
  rw [lt_iff_toNat_lt, toNat_ofLow64, toNat_ofLow64, UInt64.lt_iff_toNat_lt]

/-- The accounts made from a number are those with nothing before the last eight bytes. -/
theorem exists_ofLow64_eq_iff {a : Address} : (∃ v, ofLow64 v = a) ↔ a.toNat < UInt64.size := by
  refine ⟨?_, fun h => ⟨a.low64, toNat_inj.1 ?_⟩⟩
  · rintro ⟨v, rfl⟩
    rw [toNat_ofLow64]
    exact v.toNat_lt
  · rw [toNat_ofLow64, toNat_low64_eq_mod, Nat.mod_eq_of_lt h]

/-- The three readings of an account agree: accounts are in the order of their numbers and in that
    of the bytes of their texts. The number carried by an account is its number modulo `2 ^ 64`, so
    that accounts carry the same number just if they have the same last eight bytes. Each number of
    64 bits is carried by the account made from it; these accounts are in the order of the numbers,
    and are those with a number below `2 ^ 64`. -/
theorem readings_agree :
    (∀ a b : Address, (a < b ↔ a.toNat < b.toNat) ∧
      (a < b ↔ Bytes.ofString a.text < Bytes.ofString b.text)) ∧
    (∀ a : Address, a.toNat < Nat.pow 2 160 ∧ a.low64.toNat = a.toNat % Nat.pow 2 64) ∧
    (∀ a b : Address, a.low64 = b.low64 ↔ a.bytes.toList.drop 12 = b.bytes.toList.drop 12) ∧
    (∀ v : UInt64, (ofLow64 v).low64 = v) ∧
    (∀ v w : UInt64, v < w ↔ ofLow64 v < ofLow64 w) ∧
    ∀ a : Address, (∃ v, ofLow64 v = a) ↔ a.toNat < Nat.pow 2 64 :=
  ⟨fun _ _ => ⟨lt_iff_toNat_lt, lt_iff_text_lt⟩, fun a => ⟨a.toNat_lt, a.toNat_low64_eq_mod⟩,
    fun _ _ => low64_eq_iff, low64_ofLow64, fun _ _ => ofLow64_lt_iff.symm,
    fun _ => exists_ofLow64_eq_iff⟩

end Address

end SignerVoting
