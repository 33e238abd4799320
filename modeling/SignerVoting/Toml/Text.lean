import SignerVoting.Toml.Scan

/-!
# TOML texts

A text stands between quotes. Between double quotes a backslash starts an escape; between single
quotes every character stands for itself. Between three quotes of either kind a text may hold line
ends.
-/

namespace SignerVoting

namespace Toml

namespace Scan

/-- The character of which so many digits give the number. -/
def numbered (count : Nat) : Scan Char := do
  let s ← get
  let digits := s.take count
  let n := valueIn 16 hexValue digits
  if digits.length = count ∧ digits.all isHexDigit ∧ n.isValidChar then
    set (s.drop count)
    return Char.ofNat n
  else failure

/-- What stands after the backslash of an escape. -/
def escape : Scan Char := do
  match ← next with
  | 'b' => return '\x08'
  | 't' => return '\t'
  | 'n' => return '\n'
  | 'f' => return '\x0c'
  | 'r' => return '\r'
  | '"' => return '"'
  | '\\' => return '\\'
  | 'u' => numbered 4
  | 'U' => numbered 8
  | _ => failure

/-- A text between double quotes. -/
def basicText : Scan String := do
  exactly ['"']
  let chars ← all do
    match ← next with
    | '"' => return none
    | '\\' => return some (← escape)
    | c => if isPlain c then return some c else failure
  return String.ofList chars

/-- A text between single quotes. -/
def literalText : Scan String := do
  exactly ['\'']
  let chars ← takeWhile fun c => isPlain c && c ≠ '\''
  exactly ['\'']
  return String.ofList chars

/-- What follows blanks and line ends. -/
def afterLines : List Char → List Char
  | [] => []
  | '\n' :: rest | '\r' :: '\n' :: rest => afterLines rest
  | c :: rest => if isBlank c then afterLines rest else c :: rest

/-- The end of a line after a backslash, with the blanks and line ends that follow. -/
def continuation : Scan Unit := do
  blanks
  lineFeed
  modify afterLines

/-- Quotes in a text between three of them: up to two stand for themselves, and three end the text,
    before which one or two may stand for themselves. The end is told by the second component. -/
def quotes (quote : Char) : Scan (List Char × Bool) := do
  let s ← get
  let count := min 5 (s.takeWhile (· = quote)).length
  set (s.drop count)
  if count < 3 then return (List.replicate count quote, false)
  else return (List.replicate (count - 3) quote, true)

/-- The characters of a text up to its end, of which `item` reads some and tells whether they are
    the last. -/
def upToEnd (item : Scan (List Char × Bool)) : Nat → Scan (List Char)
  | 0 => failure
  | bound + 1 => do
    let (chars, last) ← item
    if last then return chars else return chars ++ (← upToEnd item bound)

/-- A text between three double quotes. A line end right after them is left out. -/
def basicLines : Scan String := do
  exactly ['"', '"', '"']
  lineFeed <|> pure ()
  let item : Scan (List Char × Bool) := do
    match ← peek? with
    | none => failure
    | some '"' => quotes '"'
    | some '\\' =>
      discard next
      (do continuation; return ([], false)) <|> (do return ([← escape], false))
    | some c =>
      if isPlain c then return ([← next], false)
      else do
        lineFeed
        return (['\n'], false)
  let chars ← upToEnd item ((← get).length + 1)
  return String.ofList chars

/-- A text between three single quotes. A line end right after them is left out. -/
def literalLines : Scan String := do
  exactly ['\'', '\'', '\'']
  lineFeed <|> pure ()
  let item : Scan (List Char × Bool) := do
    match ← peek? with
    | none => failure
    | some '\'' => quotes '\''
    | some c =>
      if isPlain c then return ([← next], false)
      else do
        lineFeed
        return (['\n'], false)
  let chars ← upToEnd item ((← get).length + 1)
  return String.ofList chars

/-- A text of any kind. -/
def text : Scan String := do
  let s ← get
  if ['"', '"', '"'].isPrefixOf s then basicLines
  else if ['\'', '\'', '\''].isPrefixOf s then literalLines
  else if s.head? = some '"' then basicText
  else literalText

end Scan

end Toml

end SignerVoting
