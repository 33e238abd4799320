import SignerVoting.Address
import SignerVoting.Bytes.Decimal
import SignerVoting.Json

/-!
# What JSON values mean

Each reader takes a value of one form and refuses every other: a number below a bound, a text, a
list, a mapping, a record. A record is an object whose members are found by their names, or an
array of its fields in their order. Members of other names are passed over.
-/

namespace SignerVoting

namespace Json

/-! ## Texts -/

/-- A part of the text of a string. -/
inductive Piece
  /-- A byte that stands for itself, or a short escape. -/
  | byte (b : UInt8)
  /-- A 16-bit unit, written by its number. -/
  | unit (n : Nat)

/-- The value of four hexadecimal digits. -/
def unitValue? (a b c d : UInt8) : Option Nat := do
  let a ← Hex.digitValue? a
  let b ← Hex.digitValue? b
  let c ← Hex.digitValue? c
  let d ← Hex.digitValue? d
  return 4096 * a + 256 * b + 16 * c + d

/-- The byte that a short escape stands for. -/
def escaped? (b : UInt8) : Option UInt8 :=
  if b = '"'.toUInt8 ∨ b = '\\'.toUInt8 ∨ b = '/'.toUInt8 then some b
  else if b = 'b'.toUInt8 then some 8
  else if b = 'f'.toUInt8 then some 12
  else if b = 'n'.toUInt8 then some 10
  else if b = 'r'.toUInt8 then some 13
  else if b = 't'.toUInt8 then some 9
  else none

/-- The parts of the text of a string. -/
def pieces? : List UInt8 → Option (List Piece)
  | [] => some []
  | [b] => if b = '\\'.toUInt8 then none else some [.byte b]
  | b :: e :: rest =>
    if b ≠ '\\'.toUInt8 then (pieces? (e :: rest)).map (.byte b :: ·)
    else if e ≠ 'u'.toUInt8 then do
      let c ← escaped? e
      (pieces? rest).map (.byte c :: ·)
    else
      match rest with
      | a :: b :: c :: d :: rest => do
        let n ← unitValue? a b c d
        (pieces? rest).map (.unit n :: ·)
      | _ => none

/-- The bytes of the parts. Units of a pair stand together, the high one first. -/
def join? : List Piece → Option (List UInt8)
  | [] => some []
  | .byte b :: rest => (join? rest).map (b :: ·)
  | .unit n :: rest =>
    if n < 0xd800 ∨ 0xe000 ≤ n then
      (join? rest).map (String.utf8EncodeChar (Char.ofNat n) ++ ·)
    else if 0xdc00 ≤ n then none
    else
      match rest with
      | .unit low :: rest =>
        if 0xdc00 ≤ low ∧ low < 0xe000 then
          let c := Char.ofNat (0x10000 + 1024 * (n - 0xd800) + (low - 0xdc00))
          (join? rest).map (String.utf8EncodeChar c ++ ·)
        else none
      | _ => none

/-- The text that stands between the quotes of a string, if it is one. -/
def unquote? (text : List UInt8) : Option String := do
  let pieces ← pieces? text
  let bytes ← join? pieces
  String.fromUTF8? ⟨bytes.toArray⟩

/-- A text. -/
def text? : Json → Option String
  | string text => unquote? text
  | _ => none

/-- The account named by a text. -/
def address? (v : Json) : Option Address := do
  let text ← v.text?
  (Address.ofText text).toOption

/-- A hash written in hexadecimal. -/
def digest? (v : Json) : Option Digest := do
  let text ← v.text?
  let bytes ← (Hex.decode (Bytes.ofString text)).toOption
  Bytes.toVector? 32 bytes

/-! ## Numbers -/

/-- The number of 64 bits that a text writes. -/
def wordOfText? (text : List UInt8) : Option UInt64 := do
  let n ← Decimal.value? text
  if n < UInt64.size then some (UInt64.ofNat n) else none

/-- A number of 64 bits. -/
def word? : Json → Option UInt64
  | number text => wordOfText? text
  | _ => none

/-- A number of 8 bits. -/
def byte? : Json → Option UInt8
  | number text => do
    let n ← Decimal.value? text
    if n < 256 then some (UInt8.ofNat n) else none
  | _ => none

/-- A truth value. -/
def flag? : Json → Option Bool
  | boolean value => some value
  | _ => none

/-! ## Lists, mappings and records -/

/-- The items of an array. -/
def list? {α : Type} (item? : Json → Option α) : Json → Option (List α)
  | array items => items.mapM item?
  | _ => none

/-- So many bytes, as an array of numbers. -/
def bytes? (n : Nat) (v : Json) : Option (Vector UInt8 n) := do
  let bytes ← v.list? byte?
  Bytes.toVector? n bytes

/-- The entries of an object, by the text of the name and by the value. -/
def entries? {κ ν : Type} (key? : List UInt8 → Option κ) (value? : Json → Option ν) :
    Json → Option (List (κ × ν))
  | object members =>
    members.mapM fun (name, value) => do
      let k ← key? name
      let v ← value? value
      return (k, v)
  | _ => none

/-- The fields that were found of a record. -/
abbrev Record := List (String × Json)

/-- The fields of these names: from an object, in which none of them comes twice, or from an array
    of no more items than there are names. -/
def record? (names : List String) : Json → Option Record
  | array items => if items.length ≤ names.length then some (names.zip items) else none
  | object members => do
    let named ← members.mapM fun (name, value) => do
      let text ← unquote? name
      return (text, value)
    let known := named.filter fun (name, _) => names.contains name
    if (known.map Prod.fst).Nodup then some known else none
  | _ => none

/-- A field that has to be there. -/
def Record.required {α : Type} (r : Record) (name : String) (read? : Json → Option α) :
    Option α := do
  let v ← r.lookup name
  read? v

/-- A field that has a value when it is not there. -/
def Record.optional {α : Type} (r : Record) (name : String) (default : α)
    (read? : Json → Option α) : Option α :=
  match r.lookup name with
  | some v => read? v
  | none => some default

/-! ## Values with a meaning -/

/-- A number. -/
def ofNat (n : Nat) : Json := number (Decimal.digits n)

/-- A text that holds no quote, no backslash and no control character. -/
def ofText (text : String) : Json := string (Bytes.ofString text)

/-- An account, by its text. -/
def ofAddress (a : Address) : Json := ofText a.text

/-- Bytes, as an array of numbers. -/
def ofBytes (bytes : List UInt8) : Json := array (bytes.map fun b => ofNat b.toNat)

/-- An object with members of these names, which hold nothing that needs an escape. -/
def ofMembers (members : List (String × Json)) : Json :=
  object (members.map fun (name, value) => (Bytes.ofString name, value))

end Json

end SignerVoting
