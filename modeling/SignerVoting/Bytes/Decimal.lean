import SignerVoting.Bytes

/-!
# Decimal numbers

A number is written with no more digits than it needs, and only that form is read: digits alone,
none of them a leading zero.

Main fact: `value?_digits`, what is written is read back.
-/

namespace SignerVoting

namespace Decimal

/-- The digits of a number. -/
def digits (n : Nat) : List UInt8 := (Nat.toDigits 10 n).map Char.toUInt8

/-- Whether a byte is a decimal digit. -/
def isDigit (b : UInt8) : Bool := 48 ≤ b && b ≤ 57

/-- The number that a digit at the end of `n` makes. -/
def extend (n : Nat) (b : UInt8) : Nat := 10 * n + (b.toNat - 48)

/-- The number written by the digits, if they are its digits. -/
def value? (text : List UInt8) : Option Nat :=
  match text with
  | [] => none
  | first :: rest =>
    if text.all isDigit ∧ (first ≠ 48 ∨ rest = []) then some (text.foldl extend 0) else none

/-! ## Digits -/

theorem toUInt8_digitChar : ∀ n < 10, (Nat.digitChar n).toUInt8 = UInt8.ofNat (48 + n) := by decide

theorem digits_of_lt {n : Nat} (h : n < 10) : digits n = [UInt8.ofNat (48 + n)] := by
  rw [digits, Nat.toDigits_eq_if (by decide), if_pos h, List.map_singleton, toUInt8_digitChar n h]

/-- The last digit of a number comes after those of its tenth. -/
theorem digits_of_le {n : Nat} (h : 10 ≤ n) :
    digits n = digits (n / 10) ++ [UInt8.ofNat (48 + n % 10)] := by
  rw [digits, Nat.toDigits_eq_if (by decide), if_neg (Nat.not_lt.2 h), List.map_append,
    List.map_singleton, toUInt8_digitChar _ (Nat.mod_lt n (by decide)), digits]

theorem toNat_digit {n : Nat} (h : n < 10) : (UInt8.ofNat (48 + n)).toNat = 48 + n := by
  rw [UInt8.toNat_ofNat', Nat.mod_eq_of_lt (by omega)]

theorem isDigit_digit {n : Nat} (h : n < 10) : isDigit (UInt8.ofNat (48 + n)) = true := by
  rw [isDigit, Bool.and_eq_true, decide_eq_true_eq, decide_eq_true_eq, UInt8.le_iff_toNat_le,
    UInt8.le_iff_toNat_le, toNat_digit h]
  simp only [UInt8.reduceToNat]
  omega

theorem all_isDigit_digits (n : Nat) : (digits n).all isDigit = true := by
  induction n using Nat.strongRecOn with
  | ind n ih =>
    rcases Nat.lt_or_ge n 10 with h | h
    · rw [digits_of_lt h, List.all_cons, isDigit_digit h]
      rfl
    · rw [digits_of_le h, List.all_append, ih (n / 10) (by omega), List.all_cons,
        isDigit_digit (Nat.mod_lt n (by decide))]
      rfl

theorem digit_ne_zero {n : Nat} (hpos : 0 < n) (h : n < 10) : UInt8.ofNat (48 + n) ≠ 48 := by
  intro hzero
  have hdigit := toNat_digit h
  rw [hzero] at hdigit
  simp only [UInt8.reduceToNat] at hdigit
  omega

/-- No number but zero starts with a zero. -/
theorem digits_of_pos {n : Nat} (h : 0 < n) :
    ∃ first rest, digits n = UInt8.ofNat (48 + first) :: rest ∧ 0 < first ∧ first < 10 := by
  induction n using Nat.strongRecOn with
  | ind n ih =>
    rcases Nat.lt_or_ge n 10 with hn | hn
    · exact ⟨n, [], digits_of_lt hn, h, hn⟩
    · obtain ⟨first, rest, hdigits, hfirst⟩ := ih (n / 10) (by omega) (by omega)
      exact ⟨first, _, by rw [digits_of_le hn, hdigits, List.cons_append], hfirst⟩

theorem foldl_extend_digits (n : Nat) : (digits n).foldl extend 0 = n := by
  induction n using Nat.strongRecOn with
  | ind n ih =>
    rcases Nat.lt_or_ge n 10 with h | h
    · rw [digits_of_lt h, List.foldl_cons, List.foldl_nil, extend, toNat_digit h]
      omega
    · rw [digits_of_le h, List.foldl_append, ih (n / 10) (by omega), List.foldl_cons,
        List.foldl_nil, extend, toNat_digit (Nat.mod_lt n (by decide))]
      omega

/-- What is written is read back. -/
theorem value?_digits (n : Nat) : value? (digits n) = some n := by
  have hall := all_isDigit_digits n
  have hvalue := foldl_extend_digits n
  rcases Nat.eq_zero_or_pos n with rfl | h
  · rfl
  · obtain ⟨first, rest, hdigits, hpos, hfirst⟩ := digits_of_pos h
    rw [hdigits] at hall hvalue ⊢
    rw [value?, if_pos ⟨hall, .inl (digit_ne_zero hpos hfirst)⟩, hvalue]

end Decimal

end SignerVoting
