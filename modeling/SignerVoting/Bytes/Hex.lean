import SignerVoting.Bytes

/-!
# Hexadecimal text

Two digits a byte, the high half first. Writing uses the lower case; reading takes either case and
refuses a text at its first fault, an odd number of digits before anything else.

Main fact: `decode_digits`, what is written is read back.
-/

namespace SignerVoting

namespace Bytes

/-- A byte in single quotes, taken as the character of that number: what has no visible form of its
    own is written as an escape. -/
def quoted (b : UInt8) : String :=
  "'" ++ body ++ "'"
where
  /-- The character between the quotes. -/
  body : String :=
    if b = 0 then "\\0"
    else if b = 9 then "\\t"
    else if b = 10 then "\\n"
    else if b = 13 then "\\r"
    else if b = 39 then "\\'"
    else if b = 92 then "\\\\"
    else if b < 32 ∨ (127 ≤ b ∧ b ≤ 160) ∨ b = 173 then
      "\\u\x7b" ++ String.ofList (Nat.toDigits 16 b.toNat) ++ "\x7d"
    else String.singleton (Char.ofNat b.toNat)

end Bytes

namespace Hex

/-- Why a text is no hexadecimal text. -/
inductive DecodeError
  /-- The digits do not pair up. -/
  | oddLength
  /-- The byte at this position is no digit. -/
  | invalidDigit (byte : UInt8) (position : Nat)
  deriving DecidableEq

/-- The fault in words. -/
def DecodeError.message : DecodeError → String
  | oddLength => "Odd number of digits"
  | invalidDigit byte position =>
    "Invalid character " ++ Bytes.quoted byte ++ " at position " ++ toString position

/-- The digits of a byte string. -/
def digits : List UInt8 → List Char
  | [] => []
  | b :: rest => Nat.digitChar (b.toNat / 16) :: Nat.digitChar (b.toNat % 16) :: digits rest

/-- The text of a byte string. -/
def encode (bytes : List UInt8) : String := String.ofList (digits bytes)

/-- The value of a digit, of either case. -/
def digitValue? (b : UInt8) : Option Nat :=
  if 48 ≤ b ∧ b ≤ 57 then some (b.toNat - 48)
  else if 97 ≤ b ∧ b ≤ 102 then some (b.toNat - 87)
  else if 65 ≤ b ∧ b ≤ 70 then some (b.toNat - 55)
  else none

/-- Whether a byte is a digit, of either case. -/
def isDigit (b : UInt8) : Bool := (digitValue? b).isSome

/-- The value of the digit found at a position. -/
def digitAt (position : Nat) (b : UInt8) : Except DecodeError Nat :=
  match digitValue? b with
  | some value => .ok value
  | none => .error (.invalidDigit b position)

/-- The bytes written by a text whose first byte stands at `position`. -/
def decodeFrom (position : Nat) : List UInt8 → Except DecodeError (List UInt8)
  | [] => .ok []
  | [_] => .error .oddLength
  | high :: low :: rest => do
    let h ← digitAt position high
    let l ← digitAt (position + 1) low
    let bytes ← decodeFrom (position + 2) rest
    return UInt8.ofNat (16 * h + l) :: bytes

/-- The bytes written by a text: the digits have to pair up, and then all have to be digits. -/
def decode (text : List UInt8) : Except DecodeError (List UInt8) :=
  if text.length % 2 = 1 then .error .oddLength else decodeFrom 0 text

@[simp] theorem length_digits (bytes : List UInt8) : (digits bytes).length = 2 * bytes.length := by
  induction bytes with
  | nil => rfl
  | cons b rest ih =>
    simp only [digits, List.length_cons, ih]
    omega

/-- A digit that is written is read back as its value. -/
theorem digitValue?_digitChar : ∀ n < 16, digitValue? (Nat.digitChar n).toUInt8 = some n := by
  decide

theorem toNat_digitChar_lt : ∀ n < 16, (Nat.digitChar n).toNat < 128 := by decide

/-- Digits are characters of ASCII. -/
theorem toNat_lt_of_mem_digits {c : Char} {bytes : List UInt8} (h : c ∈ digits bytes) :
    c.toNat < 128 := by
  induction bytes with
  | nil => simp [digits] at h
  | cons b rest ih =>
    have hb : b.toNat < 256 := b.toNat_lt
    simp only [digits, List.mem_cons] at h
    rcases h with rfl | rfl | h
    · exact toNat_digitChar_lt _ (by omega)
    · exact toNat_digitChar_lt _ (by omega)
    · exact ih h

theorem decodeFrom_digits (position : Nat) (bytes : List UInt8) :
    decodeFrom position ((digits bytes).map Char.toUInt8) = .ok bytes := by
  induction bytes generalizing position with
  | nil => rfl
  | cons b rest ih =>
    have hb : b.toNat < 256 := b.toNat_lt
    have hjoin : UInt8.ofNat (16 * (b.toNat / 16) + b.toNat % 16) = b := by
      rw [Nat.div_add_mod, UInt8.ofNat_toNat]
    simp only [digits, List.map_cons, decodeFrom, digitAt,
      digitValue?_digitChar _ (show b.toNat / 16 < 16 by omega),
      digitValue?_digitChar _ (show b.toNat % 16 < 16 by omega), ih]
    simp only [bind, Except.bind, pure, Except.pure, hjoin]

/-- What is written is read back. -/
theorem decode_digits (bytes : List UInt8) :
    decode ((digits bytes).map Char.toUInt8) = .ok bytes := by
  rw [decode, if_neg (by simp), decodeFrom_digits]

end Hex

end SignerVoting
