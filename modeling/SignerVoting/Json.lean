import SignerVoting.Json.Token

/-!
# JSON values

A value is a tree over the tokens. It is put together by a machine that reads one token after the
other and holds the arrays and objects it is inside of on a stack, so that the depth of a text has
no bound. The members of an object keep their order, and a name may come more than once.

Main fact: `ofTokens?_tokens`, a value is read back from its tokens.
-/

namespace SignerVoting

/-- A JSON value, its numbers and strings by their texts. -/
inductive Json
  | null
  | boolean (value : Bool)
  | number (text : List UInt8)
  | string (text : List UInt8)
  | array (items : List Json)
  | object (members : List (List UInt8 × Json))

namespace Json

/-! ## Writing -/

mutual

/-- The tokens of a value. -/
def tokens : Json → List Token
  | null => [.null]
  | boolean value => [.boolean value]
  | number text => [.number text]
  | string text => [.string text]
  | array items => .openArray :: (itemTokens items ++ [.closeArray])
  | object members => .openObject :: (memberTokens members ++ [.closeObject])

/-- The tokens of the items of an array, without the brackets. -/
def itemTokens : List Json → List Token
  | [] => []
  | [item] => item.tokens
  | item :: items => item.tokens ++ .comma :: itemTokens items

/-- The tokens of the members of an object, without the braces. -/
def memberTokens : List (List UInt8 × Json) → List Token
  | [] => []
  | [(name, value)] => .string name :: .colon :: value.tokens
  | (name, value) :: members =>
    .string name :: .colon :: (value.tokens ++ .comma :: memberTokens members)

end

/-- The text of a value, without blanks. -/
def render (v : Json) : List UInt8 := v.tokens.flatMap Token.bytes

/-! ## Reading -/

/-- An array or an object that has been begun. What it holds so far has the latest first. -/
inductive Frame
  /-- An array, with an item to come. -/
  | array (items : List Json)
  /-- An object, with the value of the member of that name to come. -/
  | object (members : List (List UInt8 × Json)) (name : List UInt8)

/-- What is to come next. -/
inductive Due
  /-- A value; in an array just opened, perhaps its end. -/
  | value (opened : Bool)
  /-- The name of a member; in an object just opened, perhaps its end. -/
  | name (opened : Bool) (members : List (List UInt8 × Json))
  /-- The colon after the name of a member. -/
  | colon (members : List (List UInt8 × Json)) (name : List UInt8)
  /-- What follows a whole value. -/
  | after (v : Json)

/-- The machine: what it is inside of, the innermost first, and what is to come. -/
structure Machine where
  frames : List Frame
  due : Due

namespace Machine

/-- One token of a value. -/
def beginValue? (frames : List Frame) : Token → Option Machine
  | .openArray => some ⟨.array [] :: frames, .value true⟩
  | .openObject => some ⟨frames, .name true []⟩
  | .null => some ⟨frames, .after .null⟩
  | .boolean value => some ⟨frames, .after (.boolean value)⟩
  | .number text => some ⟨frames, .after (.number text)⟩
  | .string text => some ⟨frames, .after (.string text)⟩
  | .closeArray | .closeObject | .comma | .colon => none

/-- One token after a whole value. -/
def goOn? (v : Json) : List Frame → Token → Option Machine
  | .array items :: frames, .comma => some ⟨.array (v :: items) :: frames, .value false⟩
  | .array items :: frames, .closeArray => some ⟨frames, .after (.array (v :: items).reverse)⟩
  | .object members name :: frames, .comma => some ⟨frames, .name false ((name, v) :: members)⟩
  | .object members name :: frames, .closeObject =>
    some ⟨frames, .after (.object ((name, v) :: members).reverse)⟩
  | _, _ => none

/-- The machine after one token more. -/
def step? (m : Machine) (token : Token) : Option Machine :=
  match m.due, token with
  | .value true, .closeArray =>
    match m.frames with
    | .array [] :: frames => some ⟨frames, .after (.array [])⟩
    | _ => none
  | .value _, token => beginValue? m.frames token
  | .name true [], .closeObject => some ⟨m.frames, .after (.object [])⟩
  | .name _ members, .string name => some ⟨m.frames, .colon members name⟩
  | .name _ _, _ => none
  | .colon members name, .colon => some ⟨.object members name :: m.frames, .value false⟩
  | .colon _ _, _ => none
  | .after v, token => goOn? v m.frames token

/-- The machine after the tokens. -/
def run? (m : Machine) : List Token → Option Machine
  | [] => some m
  | token :: rest =>
    match m.step? token with
    | some m => run? m rest
    | none => none

/-- The value, if all that was begun has ended. -/
def finish? (m : Machine) : Option Json :=
  match m.frames, m.due with
  | [], .after v => some v
  | _, _ => none

end Machine

/-- The value of which these are the tokens. -/
def ofTokens? (tokens : List Token) : Option Json := do
  let m ← Machine.run? ⟨[], .value false⟩ tokens
  m.finish?

/-- The value written by a text. -/
def parse? (text : List UInt8) : Option Json := do
  let tokens ← tokens? text
  ofTokens? tokens

/-! ## Reading what was written -/

mutual

/-- The machine takes a whole value from the front of the tokens. -/
theorem run?_tokens (v : Json) (frames : List Frame) (opened : Bool) (rest : List Token) :
    Machine.run? ⟨frames, .value opened⟩ (v.tokens ++ rest) =
      Machine.run? ⟨frames, .after v⟩ rest := by
  match v with
  | .null => cases opened <;> rfl
  | .boolean _ => cases opened <;> rfl
  | .number _ => cases opened <;> rfl
  | .string _ => cases opened <;> rfl
  | .array [] => cases opened <;> rfl
  | .array (item :: items) =>
    have h := run?_itemTokens frames item items [] true rest
    cases opened <;> simpa [tokens, Machine.run?, Machine.step?, Machine.beginValue?] using h
  | .object [] => cases opened <;> rfl
  | .object ((name, value) :: members) =>
    have h := run?_memberTokens frames name value members [] true rest
    cases opened <;> simpa [tokens, Machine.run?, Machine.step?, Machine.beginValue?] using h
termination_by sizeOf v

theorem run?_itemTokens (frames : List Frame) (item : Json) (items done : List Json)
    (opened : Bool) (rest : List Token) :
    Machine.run? ⟨.array done :: frames, .value opened⟩
        (itemTokens (item :: items) ++ .closeArray :: rest) =
      Machine.run? ⟨frames, .after (.array (done.reverse ++ item :: items))⟩ rest := by
  match items with
  | [] =>
    rw [itemTokens, run?_tokens]
    simp [Machine.run?, Machine.step?, Machine.goOn?]
  | next :: items =>
    have h := run?_itemTokens frames next items (item :: done) false rest
    rw [itemTokens, List.append_assoc, run?_tokens]
    · simpa [Machine.run?, Machine.step?, Machine.goOn?] using h
    · simp
termination_by sizeOf item + sizeOf items + 1

theorem run?_memberTokens (frames : List Frame) (name : List UInt8) (value : Json)
    (members done : List (List UInt8 × Json)) (opened : Bool) (rest : List Token) :
    Machine.run? ⟨frames, .name opened done⟩
        (memberTokens ((name, value) :: members) ++ .closeObject :: rest) =
      Machine.run? ⟨frames, .after (.object (done.reverse ++ (name, value) :: members))⟩ rest := by
  match members with
  | [] =>
    have h := run?_tokens value (.object done name :: frames) false (.closeObject :: rest)
    cases opened <;> simpa [memberTokens, Machine.run?, Machine.step?, Machine.goOn?] using h
  | (next, v) :: members =>
    have hv := run?_tokens value (.object done name :: frames) false
      (.comma :: (memberTokens ((next, v) :: members) ++ .closeObject :: rest))
    have h := run?_memberTokens frames next v members ((name, value) :: done) false rest
    cases opened <;> simpa [memberTokens, Machine.run?, Machine.step?, Machine.goOn?, hv] using h
termination_by sizeOf value + sizeOf members + 1

end

/-- A value is read back from its tokens. -/
theorem ofTokens?_tokens (v : Json) : ofTokens? v.tokens = some v := by
  have h := run?_tokens v [] false []
  rw [List.append_nil] at h
  simp [ofTokens?, h, Machine.run?, Machine.finish?]

end Json

end SignerVoting
