import SignerVoting.Toml.Scan

/-!
# TOML numbers and points of time

An integer is decimal with a sign, or has the mark `0x`, `0o` or `0b` and no sign, and fits in 64
bits. A float has a fraction or an exponent, and is not greater than every 64-bit float. A point of
time is a date, a time of day, or both with or without an offset.
-/

namespace SignerVoting

namespace Toml

namespace Scan

/-- A plus or a minus sign, or none. Whether it is a minus. -/
def sign : Scan Bool := do
  match ← peek? with
  | some '+' => do
    discard next
    return false
  | some '-' => do
    discard next
    return true
  | _ => return false

/-- The digits of a decimal number, of which the first is no zero unless it is the only one. -/
def decimalDigits : Scan (List Char) := do
  match ← peek? with
  | some '0' => return [← next]
  | _ => digits Char.isDigit

/-- The integer with these digits, if it fits in 64 bits. -/
def within64 (negative : Bool) (n : Nat) : Scan Int :=
  if negative then if n ≤ Nat.pow 2 63 then return -(n : Int) else failure
  else if n < Nat.pow 2 63 then return (n : Int) else failure

/-- An integer with the mark of its base. -/
def marked (mark : List Char) (base : Nat) (fits : Char → Bool) (value : Char → Nat) :
    Scan Int := do
  exactly mark
  within64 false (valueIn base value (← digits fits))

/-- An integer. -/
def integer : Scan Int :=
  marked ['0', 'x'] 16 isHexDigit hexValue <|>
    marked ['0', 'o'] 8 (fun c => '0' ≤ c && c ≤ '7') decimalValue <|>
    marked ['0', 'b'] 2 (fun c => c = '0' || c = '1') decimalValue <|>
    do
      let negative ← sign
      within64 negative (valueIn 10 decimalValue (← decimalDigits))

/-! ## Floats -/

/-- A decimal fraction: the number of these digits, which do not start with a zero, with the point
    moved by so many places to the left. -/
structure Float10 where
  negative : Bool
  digits : List Char
  places : Int

/-- Whether the number is so great that the nearest 64-bit float is positive infinity. The least
    such number is an integer of 309 digits, so that digits beyond these do not matter. -/
def Float10.overflows (f : Float10) : Bool :=
  let least := Nat.pow 2 1024 - Nat.pow 2 970
  let length : Int := f.digits.length - f.places
  if f.negative || f.digits = [] then false
  else if length ≠ 309 then 309 < length
  else least ≤ valueIn 10 decimalValue (f.digits.take 309) * Nat.pow 10 (309 - f.digits.length)

/-- The exponent of a float. -/
def exponent : Scan Int := do
  exactly ['e'] <|> exactly ['E']
  let negative ← sign
  let n := valueIn 10 decimalValue (← digits Char.isDigit)
  return if negative then -(n : Int) else n

/-- The digits of a float after the point. -/
def fraction : Scan (List Char) := do
  exactly ['.']
  digits Char.isDigit

/-- A float with digits. -/
def decimalFloat : Scan Float10 := do
  let negative ← sign
  let whole ← decimalDigits
  let (decimals, power) ←
    (do
      let decimals ← fraction
      let power ← exponent <|> pure 0
      pure (decimals, power)) <|>
    (do pure ([], ← exponent))
  let f : Float10 :=
    { negative, digits := (whole ++ decimals).dropWhile (· = '0')
      places := decimals.length - power }
  if f.overflows then failure else return f

/-- Infinity or what is no number, with or without a sign. -/
def specialFloat : Scan Unit := do
  discard sign
  exactly ['i', 'n', 'f'] <|> exactly ['n', 'a', 'n']

/-- A float. -/
def float : Scan Unit := discard decimalFloat <|> specialFloat

/-! ## Points of time -/

/-- A number of exactly so many digits between two bounds. -/
def bounded (count low high : Nat) : Scan Nat := do
  let s ← get
  let digits := s.take count
  let n := valueIn 10 decimalValue digits
  if digits.length = count ∧ digits.all Char.isDigit ∧ low ≤ n ∧ n ≤ high then
    set (s.drop count)
    return n
  else failure

/-- A date. Each of its numbers has to be in range by itself: every month may have 31 days. -/
def date : Scan Unit := do
  discard (bounded 4 0 9999)
  exactly ['-']
  discard (bounded 2 1 12)
  exactly ['-']
  discard (bounded 2 1 31)

/-- A time of day, with or without a fraction of a second. -/
def time : Scan Unit := do
  discard (bounded 2 0 23)
  exactly [':']
  discard (bounded 2 0 59)
  exactly [':']
  discard (bounded 2 0 60)
  match ← peek? with
  | some '.' => do
    discard next
    match ← takeWhile Char.isDigit with
    | [] => failure
    | _ => return
  | _ => return

/-- The distance of a local time from universal time. -/
def offset : Scan Unit := do
  match ← next with
  | 'Z' | 'z' => return
  | '+' | '-' => do
    discard (bounded 2 0 23)
    exactly [':']
    discard (bounded 2 0 59)
  | _ => failure

/-- A point of time. -/
def moment : Scan Unit :=
  (do
    date
    (do
      exactly ['T'] <|> exactly ['t'] <|> exactly [' ']
      time
      offset <|> pure ()) <|> pure ()) <|>
  time

end Scan

end Toml

end SignerVoting
