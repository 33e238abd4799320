import SignerVoting.Toml.Scalar
import SignerVoting.Toml.Table
import SignerVoting.Toml.Text

/-!
# TOML documents

A document is read into its statements, one a line, and the statements are put together to a table.
-/

namespace SignerVoting

namespace Toml

namespace Scan

/-! ## Keys -/

/-- A key without a point. -/
def simpleKey : Scan String := do
  match ← peek? with
  | some '"' => basicText
  | some '\'' => literalText
  | _ =>
    match ← takeWhile fun c => c.isAlphanum || c = '-' || c = '_' with
    | [] => failure
    | chars => return String.ofList chars

/-- At most so many keys, with points between them and blanks around them. -/
def keys : Nat → Scan (List String)
  | 0 => failure
  | bound + 1 => do
    blanks
    let key ← simpleKey
    blanks
    match ← peek? with
    | some '.' => do
      discard next
      return key :: (← keys bound)
    | _ => return [key]

/-- How many keys a place may have, and how many arrays and tables a value may be inside of. -/
def depthLimit : Nat := 127

/-- A path and the key at its end. -/
def place : Scan (List String × String) := do
  let all ← keys depthLimit
  match all.getLast? with
  | some key => return (all.dropLast, key)
  | none => failure

/-! ## Values -/

/-- A value that holds no others. -/
def scalar : Scan Value := do
  match ← peek? with
  | some '"' | some '\'' => return .text (← text)
  | some 't' => do
    exactly ['t', 'r', 'u', 'e']
    return .boolean true
  | some 'f' => do
    exactly ['f', 'a', 'l', 's', 'e']
    return .boolean false
  | _ =>
    (do moment; return .moment) <|> (do float; return .float) <|> (return .integer (← integer))

/-- The items of an array, after its opening bracket. -/
def items (value : Scan Value) : Nat → Scan (List Value)
  | 0 => failure
  | bound + 1 => do
    space
    match ← peek? with
    | some ']' => do
      discard next
      return []
    | _ => do
      let item ← value
      space
      match ← next with
      | ',' => return item :: (← items value bound)
      | ']' => return [item]
      | _ => failure

/-- A place and its value. -/
def assignment (value : Scan Value) : Scan (List String × String × Value) := do
  let (path, key) ← place
  exactly ['=']
  blanks
  return (path, key, ← value)

/-- The members of a table in braces, from one of them on. -/
def members (value : Scan Value) (t : Table) : Nat → Scan Table
  | 0 => failure
  | bound + 1 => do
    let (path, key, v) ← assignment value
    blanks
    let t ← (t.assign? .braces path key v : Option Table)
    match ← next with
    | ',' => members value t bound
    | '}' => return t
    | _ => failure

/-- A table in braces, after the opening one. -/
def inlineTable (value : Scan Value) : Scan Members := do
  blanks
  match ← peek? with
  | some '}' => do
    discard next
    return []
  | _ => return (← members value (.inline, []) (← get).length).2

/-- A value in which so many arrays and tables may be inside of each other. -/
def value : Nat → Scan Value
  | 0 => scalar
  | depth + 1 => do
    match ← peek? with
    | some '[' => do
      discard next
      return .array (← items (value depth) ((← get).length + 1))
    | some '{' => do
      discard next
      return .table .inline (← inlineTable (value depth))
    | _ => scalar

/-! ## Statements -/

/-- The head of a table, or of one more table of a list. -/
def head : Scan Statement := do
  exactly ['[']
  match ← peek? with
  | some '[' => do
    discard next
    let (path, key) ← place
    exactly [']', ']']
    return .listed path key
  | _ => do
    let (path, key) ← place
    exactly [']']
    return .table path key

/-- A line: a statement, or none. Nothing is left when there are no more lines. -/
def line : Scan (Option (Option Statement)) := do
  blanks
  match ← peek? with
  | none => return none
  | some '[' => do
    let statement ← head
    restOfLine
    return some (some statement)
  | some c =>
    if c = '#' ∨ c = '\n' ∨ c = '\r' then do
      restOfLine
      return some none
    else do
      let (path, key, v) ← assignment (value depthLimit)
      restOfLine
      return some (some (.assign path key v))

/-- The statements of a text. -/
def statements : Scan (List Statement) := return (← all line).filterMap id

end Scan

/-- The members of the document of a text. A byte order mark before it is passed over. -/
def parse? (text : String) : Option Members := do
  let chars :=
    match text.toList with
    | '\ufeff' :: rest => rest
    | chars => chars
  let (statements, _) ← Scan.statements.run chars
  Document.ofStatements? statements

end Toml

end SignerVoting
