/-!
# TOML values and tables

The statements of a document fill places, each named by a path of keys. A place is filled once. A
table says how it came to be, since that decides who may still add to it: one that only a longer
path mentioned can still be given a head, one made by points between keys is open to such keys
alone, and one in braces is complete when the outermost braces around it are closed; before that,
points between keys may add to it.
-/

namespace SignerVoting

namespace Toml

/-- How a table came to be. -/
inductive Origin
  /-- It was written in braces, or made inside of them. -/
  | inline
  /-- It has a head, or is the document. -/
  | headed
  /-- The head of another table mentioned it. -/
  | mentioned
  /-- Points between the keys of a line made it. -/
  | dotted
  deriving DecidableEq

/-- A value. Floats and points of time are told apart from the rest and not looked into. -/
inductive Value
  | integer (n : Int)
  | float
  | boolean (b : Bool)
  | text (s : String)
  | moment
  | array (items : List Value)
  | table (origin : Origin) (members : List (String × Value))
  /-- A list of tables with heads, the latest first. -/
  | tables (elements : List (List (String × Value)))

/-- The members of a table. -/
abbrev Members := List (String × Value)

/-- A table, by how it came to be and its members. -/
abbrev Table := Origin × Members

namespace Members

/-- The members with a value under a key, in the place of one it already has. -/
def replace (key : String) (value : Value) : Members → Members
  | [] => [(key, value)]
  | (k, v) :: rest => if k = key then (k, value) :: rest else (k, v) :: replace key value rest

end Members

/-- Where a path is written. -/
inductive Way
  /-- In the head of a table. -/
  | head
  /-- Before the value of a line, with points between the keys. -/
  | line
  /-- In braces, before a value, with points between the keys. -/
  | braces
  deriving DecidableEq

namespace Way

/-- How the tables came to be that a path makes. -/
def makes : Way → Origin
  | head => .mentioned
  | line => .dotted
  | braces => .inline

/-- Whether a path may lead through a table that is there already. Outside of braces, those in
    braces are complete, and points between keys do not lead through a head. -/
def passes : Way → Origin → Bool
  | head, origin => origin ≠ .inline
  | line, origin => origin = .mentioned || origin = .dotted
  | braces, origin => origin = .inline

end Way

namespace Table

/-- Changes the table at the end of a path, making those that are missing. From a list of tables the
    path goes into the latest. -/
def at? (way : Way) (change : Table → Option Table) : List String → Table → Option Table
  | [], t => change t
  | key :: path, (origin, members) => do
    let value ←
      match members.lookup key with
      | none => do
        let (o, ms) ← at? way change path (way.makes, [])
        some (Value.table o ms)
      | some (.table o ms) =>
        if way.passes o then do
          let (o, ms) ← at? way change path (o, ms)
          some (Value.table o ms)
        else none
      | some (.tables (latest :: earlier)) => do
        let (_, ms) ← at? way change path (.headed, latest)
        some (Value.tables (ms :: earlier))
      | some _ => none
    return (origin, members.replace key value)

/-- A table with a value under a new key. -/
def add? (key : String) (value : Value) (t : Table) : Option Table :=
  if (t.2.lookup key).isSome then none else some (t.1, t.2 ++ [(key, value)])

/-- A table with a value at a path and a key, with points between them. A path ends only at a table
    of the kind that it makes. -/
def assign? (way : Way) (path : List String) (key : String) (value : Value) :
    Table → Option Table :=
  at? way (fun t => if path ≠ [] ∧ t.1 ≠ way.makes then none else t.add? key value) path

/-- A table in which the one under the key has been given a head. -/
def openTable? (key : String) (t : Table) : Option Table :=
  match t.2.lookup key with
  | none => some (t.1, t.2 ++ [(key, .table .headed [])])
  | some (.table .mentioned ms) => some (t.1, t.2.replace key (.table .headed ms))
  | some _ => none

/-- A table in which the list under the key has one more table. -/
def openListed? (key : String) (t : Table) : Option Table :=
  match t.2.lookup key with
  | none => some (t.1, t.2 ++ [(key, .tables [[]])])
  | some (.tables elements) => some (t.1, t.2.replace key (.tables ([] :: elements)))
  | some _ => none

end Table

/-- A line of a document that says something. -/
inductive Statement
  /-- A value at a place of the table at hand. -/
  | assign (path : List String) (key : String) (value : Value)
  /-- The head of a table. -/
  | table (path : List String) (key : String)
  /-- The head of one more table of a list. -/
  | listed (path : List String) (key : String)

/-- What has been read of a document: its table, and the path of the table at hand. -/
structure Document where
  table : Table := (.headed, [])
  path : List String := []

namespace Document

/-- The document after one more statement. -/
def add? (d : Document) : Statement → Option Document
  | .assign path key value => do
    let table ← Table.at? .head (Table.assign? .line path key value) d.path d.table
    return { d with table }
  | .table path key => do
    let table ← Table.at? .head (Table.openTable? key) path d.table
    return { table, path := path ++ [key] }
  | .listed path key => do
    let table ← Table.at? .head (Table.openListed? key) path d.table
    return { table, path := path ++ [key] }

/-- The members of the document with these statements. -/
def ofStatements? (statements : List Statement) : Option Members := do
  let d ← statements.foldlM add? ({} : Document)
  return d.table.2

end Document

end Toml

end SignerVoting
