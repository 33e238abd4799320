import SignerVoting.Bytes.Hex

/-!
# Accounts

An account is named by twenty bytes. The bytes have three readings: an order, byte by byte from the
left, which turns are taken in; a text, `0x` and forty lower-case hexadecimal digits; and a number,
of which the low 64 bits carry a proposed percentage.

* `lt_iff`: one account is before another if its bytes are;
* `ofText_text`: the text of an account names it, so that different accounts have different texts
  (`text_inj`);
* `low64_ofLow64`: the account made from a number carries it.
-/

namespace SignerVoting

/-- The identifier of an account that may seal blocks, or is proposed to. -/
structure Address where
  bytes : Vector UInt8 20
  deriving DecidableEq

/-- Why bytes or a text name no account. -/
inductive AddressError
  /-- There are not twenty bytes but so many. -/
  | wrongLength (found : Nat)
  /-- The text is not hexadecimal. -/
  | notHex (fault : Hex.DecodeError)
  deriving DecidableEq

/-- The fault in words. -/
def AddressError.message : AddressError → String
  | wrongLength found => "Invalid address length: expected 20 bytes, got " ++ toString found
  | notHex fault => "Invalid hex: " ++ fault.message

namespace Address

/-- Byte-wise order. -/
instance : Ord Address := ⟨compareOn Address.bytes⟩

instance : Std.TransOrd Address := inferInstanceAs (Std.TransCmp (compareOn Address.bytes))

instance : Std.LawfulEqOrd Address where
  eq_of_compare {a b} h := by
    cases a
    cases b
    exact congrArg Address.mk (Std.LawfulEqOrd.eq_of_compare h)

instance : LT Address := ltOfOrd

theorem lt_iff {a b : Address} : a < b ↔ a.bytes.toList < b.bytes.toList := by
  rw [← Bytes.compareLex_eq_lt_iff, ← Vector.compareLex_eq_compareLex_toList]
  rfl

/-- The account of which all bytes are zero. -/
def zero : Address := ⟨Vector.replicate 20 0⟩

instance : Inhabited Address := ⟨zero⟩

/-- The account named by exactly twenty bytes. -/
def ofBytes (bytes : List UInt8) : Except AddressError Address :=
  match Bytes.toVector? 20 bytes with
  | some raw => .ok ⟨raw⟩
  | none => .error (.wrongLength bytes.length)

/-! ## Text -/

/-- The characters of the text of an account. -/
def chars (a : Address) : List Char := '0' :: 'x' :: Hex.digits a.bytes.toList

/-- The text of an account: `0x` and forty lower-case digits. -/
def text (a : Address) : String := String.ofList a.chars

instance : ToString Address := ⟨text⟩

/-- The bytes of a text without the mark `0x` it may start with. -/
def unmarked : List UInt8 → List UInt8
  | 0x30 :: 0x78 :: rest => rest
  | text => text

/-- The account named by a text, with or without the mark `0x`. -/
def ofText (text : String) : Except AddressError Address :=
  match Hex.decode (unmarked (Bytes.ofString text)) with
  | .ok bytes => ofBytes bytes
  | .error fault => .error (.notHex fault)

theorem ofBytes_toList (a : Address) : ofBytes a.bytes.toList = .ok a := by
  simp [ofBytes]

/-- The text of an account is one of ASCII. -/
theorem ofString_text (a : Address) : Bytes.ofString a.text = a.chars.map Char.toUInt8 := by
  apply Bytes.ofString_ofList_of_lt
  intro c h
  simp only [chars, List.mem_cons] at h
  rcases h with rfl | rfl | h
  · decide
  · decide
  · exact Hex.toNat_lt_of_mem_digits h

/-- The text of an account names it. -/
theorem ofText_text (a : Address) : ofText a.text = .ok a := by
  have h : unmarked (a.chars.map Char.toUInt8) = (Hex.digits a.bytes.toList).map Char.toUInt8 := rfl
  rw [ofText, ofString_text, h, Hex.decode_digits]
  exact a.ofBytes_toList

theorem text_inj {a b : Address} : a.text = b.text ↔ a = b := by
  refine ⟨fun h => ?_, fun h => h ▸ rfl⟩
  have ha := ofText_text a
  rw [h, ofText_text] at ha
  exact (Except.ok.inj ha).symm

/-! ## Number -/

/-- The number of which the bytes are the base-256 digits, the highest first. -/
def toNat (a : Address) : Nat := Bytes.ofBigEndian a.bytes.toList

/-- The number in the last eight bytes. -/
def low64 (a : Address) : UInt64 := UInt64.ofNat (Bytes.ofBigEndian (a.bytes.toList.drop 12))

/-- The account with a number in its last eight bytes and zeros before them. -/
def ofLow64 (value : UInt64) : Address :=
  ⟨⟨(List.replicate 12 0 ++ Bytes.bigEndian 8 value.toNat).toArray, by simp⟩⟩

theorem low64_ofLow64 (value : UInt64) : (ofLow64 value).low64 = value := by
  have h : (ofLow64 value).bytes.toList.drop 12 = Bytes.bigEndian 8 value.toNat := by
    simp [ofLow64, Vector.toList]
  rw [low64, h, Bytes.ofBigEndian_bigEndian]
  exact UInt64.toNat_inj.1 (by simp)

end Address

end SignerVoting
