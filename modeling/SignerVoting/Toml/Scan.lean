/-!
# Reading TOML character by character

A scan takes what it reads from the front of a text, or refuses the text. Lines end with a line
feed, which a carriage return may stand before, or with the text.
-/

namespace SignerVoting

namespace Toml

/-- A reader of the characters at the front of a text. -/
abbrev Scan := StateT (List Char) Option

namespace Scan

/-- The next character, which stays. -/
def peek? : Scan (Option Char) := return (← get).head?

/-- The next character. -/
def next : Scan Char := do
  match ← get with
  | [] => failure
  | c :: rest =>
    set rest
    return c

/-- Exactly this text. -/
def exactly (text : List Char) : Scan Unit := do
  let s ← get
  if text.isPrefixOf s then set (s.drop text.length) else failure

/-- The characters at the front that fit. -/
def takeWhile (fits : Char → Bool) : Scan (List Char) := do
  let s ← get
  set (s.dropWhile fits)
  return s.takeWhile fits

/-! ## Digits -/

/-- The value of a decimal digit. -/
def decimalValue (c : Char) : Nat := c.toNat - '0'.toNat

/-- Whether a character is a hexadecimal digit. -/
def isHexDigit (c : Char) : Bool :=
  c.isDigit || ('a' ≤ c && c ≤ 'f') || ('A' ≤ c && c ≤ 'F')

/-- The value of a hexadecimal digit. -/
def hexValue (c : Char) : Nat :=
  if c.isDigit then decimalValue c
  else if 'a' ≤ c then c.toNat - 'a'.toNat + 10
  else c.toNat - 'A'.toNat + 10

/-- The number of which these are the digits. -/
def valueIn (base : Nat) (value : Char → Nat) (digits : List Char) : Nat :=
  digits.foldl (fun n c => base * n + value c) 0

/-- The digits that fit, between which single underscores may stand. They are left out. -/
def digitsFrom (fits : Char → Bool) : List Char → List Char × List Char
  | [] => ([], [])
  | [c] => if fits c then ([c], []) else ([], [c])
  | c :: d :: rest =>
    if fits c then
      let (digits, rest) := digitsFrom fits (d :: rest)
      (c :: digits, rest)
    else if c = '_' ∧ fits d then digitsFrom fits (d :: rest)
    else ([], c :: d :: rest)

/-- One digit or more, between which single underscores may stand. -/
def digits (fits : Char → Bool) : Scan (List Char) := do
  let s ← get
  match s.head? with
  | some c =>
    if fits c then
      let (digits, rest) := digitsFrom fits s
      set rest
      return digits
    else failure
  | none => failure

/-! ## Repetition -/

/-- As many items as there are, at most so many. There are no more when `item` says so. -/
def many {α : Type} (item : Scan (Option α)) : Nat → Scan (List α)
  | 0 => failure
  | bound + 1 => do
    match ← item with
    | some a => return a :: (← many item bound)
    | none => return []

/-- As many items as there are. Each has to take a character. -/
def all {α : Type} (item : Scan (Option α)) : Scan (List α) := do
  many item ((← get).length + 1)

/-! ## Blanks, line ends and comments -/

/-- Whether a character may stand between the parts of a line. -/
def isBlank (c : Char) : Bool := c = ' ' || c = '\t'

/-- Whether a character may stand in a comment. -/
def isPlain (c : Char) : Bool := c = '\t' || (' ' ≤ c && c ≤ '~') || '\x80' ≤ c

/-- Blanks, or none. -/
def blanks : Scan Unit := discard (takeWhile isBlank)

/-- A line end. -/
def lineFeed : Scan Unit := exactly ['\n'] <|> exactly ['\r', '\n']

/-- A comment, without the line end. -/
def comment : Scan Unit := do
  exactly ['#']
  discard (takeWhile isPlain)

/-- A line end or the end of the text. -/
def lineEnd : Scan Unit := do
  match ← peek? with
  | none => return
  | some _ => lineFeed

/-- The rest of a line on which nothing more stands. -/
def restOfLine : Scan Unit := do
  blanks
  comment <|> pure ()
  lineEnd

/-- What follows blanks, line ends and comments. A comment goes on to the end of its line. -/
def afterSpace (inComment : Bool) : List Char → List Char
  | [] => []
  | '\n' :: rest | '\r' :: '\n' :: rest => afterSpace false rest
  | c :: rest =>
    if inComment ∧ isPlain c then afterSpace true rest
    else if !inComment ∧ isBlank c then afterSpace false rest
    else if !inComment ∧ c = '#' then afterSpace true rest
    else c :: rest

/-- Blanks, line ends and comments, or nothing. -/
def space : Scan Unit := modify (afterSpace false)

end Scan

end Toml

end SignerVoting
