import SignerVoting.Bytes.Hex

/-!
# JSON tokens

A JSON text is read byte by byte into tokens. What stands between two tokens is blank: spaces,
tabs and line ends. Numbers and strings are kept as they are written; what they mean is asked later,
and only of those that matter.
-/

namespace SignerVoting

namespace Json

/-- The smallest parts of a JSON text. -/
inductive Token
  | openArray
  | closeArray
  | openObject
  | closeObject
  | comma
  | colon
  | null
  | boolean (value : Bool)
  /-- A number, by its text. -/
  | number (text : List UInt8)
  /-- A string, by the text between its quotes. -/
  | string (text : List UInt8)
  deriving DecidableEq

/-- The bytes of a token. -/
def Token.bytes : Token → List UInt8
  | openArray => ['['.toUInt8]
  | closeArray => [']'.toUInt8]
  | openObject => ['\x7b'.toUInt8]
  | closeObject => ['\x7d'.toUInt8]
  | comma => [','.toUInt8]
  | colon => [':'.toUInt8]
  | null => ['n', 'u', 'l', 'l'].map Char.toUInt8
  | boolean true => ['t', 'r', 'u', 'e'].map Char.toUInt8
  | boolean false => ['f', 'a', 'l', 's', 'e'].map Char.toUInt8
  | number text => text
  | string text => '"'.toUInt8 :: (text ++ ['"'.toUInt8])

/-- Whether a byte may stand between tokens. -/
def isBlank (b : UInt8) : Bool := b = 32 || b = 9 || b = 10 || b = 13

/-! ## Numbers -/

/-- How far a number has been read. -/
inductive NumberPart
  /-- After the minus sign. -/
  | minus
  /-- After a zero, which no further digit follows. -/
  | zero
  /-- Among the digits before the point. -/
  | whole
  /-- After the point. -/
  | point
  /-- Among the digits after the point. -/
  | fraction
  /-- After the letter that opens the exponent. -/
  | mark
  /-- After the sign of the exponent. -/
  | sign
  /-- Among the digits of the exponent. -/
  | exponent
  deriving DecidableEq

namespace NumberPart

/-- Whether a number may end here. -/
def complete : NumberPart → Bool
  | zero | whole | fraction | exponent => true
  | minus | point | mark | sign => false

/-- The digits before the point, or a minus sign before them, can start with this byte. -/
def first? (b : UInt8) : Option NumberPart :=
  if b = '-'.toUInt8 then some minus
  else if b = '0'.toUInt8 then some zero
  else if '1'.toUInt8 ≤ b ∧ b ≤ '9'.toUInt8 then some whole
  else none

/-- How far the number has been read after one byte more, if it belongs to it. -/
def next? (part : NumberPart) (b : UInt8) : Option NumberPart :=
  let digit := '0'.toUInt8 ≤ b ∧ b ≤ '9'.toUInt8
  let opensExponent := b = 'e'.toUInt8 ∨ b = 'E'.toUInt8
  match part with
  | minus => if b = '-'.toUInt8 then none else first? b
  | zero =>
    if b = '.'.toUInt8 then some point else if opensExponent then some mark else none
  | whole =>
    if digit then some whole
    else if b = '.'.toUInt8 then some point
    else if opensExponent then some mark
    else none
  | point => if digit then some fraction else none
  | fraction => if digit then some fraction else if opensExponent then some mark else none
  | mark =>
    if digit then some exponent
    else if b = '+'.toUInt8 ∨ b = '-'.toUInt8 then some sign
    else none
  | sign => if digit then some exponent else none
  | exponent => if digit then some exponent else none

end NumberPart

/-! ## Reading -/

/-- What has been read of the token at hand. Texts are kept with the latest byte first. -/
inductive Lexeme
  /-- Nothing: the next byte starts a token or is blank. -/
  | blank
  /-- The start of a word, of which these bytes are to come. -/
  | word (left : List UInt8) (token : Token)
  /-- The start of a number. -/
  | number (part : NumberPart) (read : List UInt8)
  /-- The start of a string, the opening quote left out. -/
  | string (read : List UInt8)
  /-- A string up to a backslash. -/
  | escape (read : List UInt8)
  /-- A string up to `\u` and some of its digits, of which so many are to come. -/
  | unit (left : Nat) (read : List UInt8)

namespace Lexeme

/-- The byte begins a token, perhaps all of it, or is blank. The tokens `done` are those before,
    the latest first. -/
def begin? (done : List Token) (b : UInt8) : Option (Lexeme × List Token) :=
  if isBlank b then some (blank, done)
  else if b = '"'.toUInt8 then some (string [], done)
  else if b = ','.toUInt8 then some (blank, .comma :: done)
  else if b = ':'.toUInt8 then some (blank, .colon :: done)
  else if b = '['.toUInt8 then some (blank, .openArray :: done)
  else if b = ']'.toUInt8 then some (blank, .closeArray :: done)
  else if b = '\x7b'.toUInt8 then some (blank, .openObject :: done)
  else if b = '\x7d'.toUInt8 then some (blank, .closeObject :: done)
  else if b = 'n'.toUInt8 then some (word (['u', 'l', 'l'].map Char.toUInt8) .null, done)
  else if b = 't'.toUInt8 then
    some (word (['r', 'u', 'e'].map Char.toUInt8) (.boolean true), done)
  else if b = 'f'.toUInt8 then
    some (word (['a', 'l', 's', 'e'].map Char.toUInt8) (.boolean false), done)
  else (NumberPart.first? b).map fun part => (number part [b], done)

/-- Whether the byte after a backslash is one of those that make an escape by themselves. -/
def isShortEscape (b : UInt8) : Bool :=
  (['"', '\\', '/', 'b', 'f', 'n', 'r', 't'].map Char.toUInt8).contains b

/-- What has been read after one byte more. -/
def step? (done : List Token) (b : UInt8) : Lexeme → Option (Lexeme × List Token)
  | blank => begin? done b
  | word left token =>
    match left with
    | [] => none
    | [last] => if b = last then some (blank, token :: done) else none
    | next :: left => if b = next then some (word left token, done) else none
  | number part read =>
    match part.next? b with
    | some part => some (number part (b :: read), done)
    | none => if part.complete then begin? (.number read.reverse :: done) b else none
  | string read =>
    if b = '"'.toUInt8 then some (blank, .string read.reverse :: done)
    else if b = '\\'.toUInt8 then some (escape (b :: read), done)
    else if b < 32 then none
    else some (string (b :: read), done)
  | escape read =>
    if isShortEscape b then some (string (b :: read), done)
    else if b = 'u'.toUInt8 then some (unit 3 (b :: read), done)
    else none
  | unit left read =>
    if Hex.isDigit b then
      match left with
      | 0 => some (string (b :: read), done)
      | left + 1 => some (unit left (b :: read), done)
    else none

/-- The tokens of a text that ends here, the latest first. -/
def finish? (done : List Token) : Lexeme → Option (List Token)
  | blank => some done
  | number part read => if part.complete then some (.number read.reverse :: done) else none
  | _ => none

end Lexeme

/-- The tokens of a text, the latest first, when some have been read already. -/
def lexFrom (state : Lexeme) (done : List Token) : List UInt8 → Option (List Token)
  | [] => state.finish? done
  | b :: rest =>
    match state.step? done b with
    | some (state, done) => lexFrom state done rest
    | none => none

/-- The tokens of a text. -/
def tokens? (text : List UInt8) : Option (List Token) := (lexFrom .blank [] text).map List.reverse

end Json

end SignerVoting
