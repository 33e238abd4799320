import Mathlib.Data.List.Chain
import Mathlib.Tactic.IntervalCases
import SignerVoting.Bytes.Decimal
import SignerVoting.Json

/-!
# The syntax of JSON texts

A value is *valid* if its numbers and strings are written as JSON has it: `IsNumber` and
`IsQuotable` say how, without the lexer. A text *lays out* tokens if it is made of them in their
order, with blanks before them, between them and after them. The lexer takes each token of such a
text from its front. Only a number has no end of its own; in a value it is followed by a comma, by a
closing bracket or by nothing (`isChain_tokens`), and neither these nor blanks go on with it.

* `parse?_of_layout`: a valid value is read from every text that lays out its tokens.
-/

namespace SignerVoting

namespace Json

/-! ## Numbers and strings -/

/-- The part of a number before the point. -/
inductive IsWhole : List UInt8 → Prop
  | zero : IsWhole ['0'.toUInt8]
  | digits {first : UInt8} {rest : List UInt8} (hfirst : '1'.toUInt8 ≤ first ∧ first ≤ '9'.toUInt8)
      (hrest : rest.all Decimal.isDigit = true) : IsWhole (first :: rest)

/-- The part of a number after the point, with the point, if there is one. -/
inductive IsFraction : List UInt8 → Prop
  | none : IsFraction []
  | digits {first : UInt8} {rest : List UInt8}
      (hdigits : (first :: rest).all Decimal.isDigit = true) :
      IsFraction ('.'.toUInt8 :: first :: rest)

/-- The exponent of a number, if there is one. -/
inductive IsExponent : List UInt8 → Prop
  | none : IsExponent []
  | digits {mark first : UInt8} {sign rest : List UInt8}
      (hmark : mark = 'e'.toUInt8 ∨ mark = 'E'.toUInt8)
      (hsign : sign = [] ∨ sign = ['+'.toUInt8] ∨ sign = ['-'.toUInt8])
      (hdigits : (first :: rest).all Decimal.isDigit = true) :
      IsExponent (mark :: (sign ++ first :: rest))

/-- A number as JSON writes it. -/
inductive IsNumber : List UInt8 → Prop
  | positive {whole fraction exponent : List UInt8} : IsWhole whole → IsFraction fraction →
      IsExponent exponent → IsNumber (whole ++ (fraction ++ exponent))
  | negative {whole fraction exponent : List UInt8} : IsWhole whole → IsFraction fraction →
      IsExponent exponent → IsNumber ('-'.toUInt8 :: (whole ++ (fraction ++ exponent)))

/-- What may stand between the quotes of a string: bytes for themselves, and escapes. -/
inductive IsQuotable : List UInt8 → Prop
  | nil : IsQuotable []
  | byte {b : UInt8} {rest : List UInt8} (hcontrol : 32 ≤ b) (hquote : b ≠ '"'.toUInt8)
      (hbackslash : b ≠ '\\'.toUInt8) : IsQuotable rest → IsQuotable (b :: rest)
  | escape {b : UInt8} {rest : List UInt8} (hb : Lexeme.isShortEscape b = true) :
      IsQuotable rest → IsQuotable ('\\'.toUInt8 :: b :: rest)
  | unit {a b c d : UInt8} {rest : List UInt8} (ha : Hex.isDigit a = true)
      (hb : Hex.isDigit b = true) (hc : Hex.isDigit c = true) (hd : Hex.isDigit d = true) :
      IsQuotable rest → IsQuotable ('\\'.toUInt8 :: 'u'.toUInt8 :: a :: b :: c :: d :: rest)

/-! ## Tokens -/

namespace Token

/-- A token that is written as JSON has it. -/
def IsValid : Token → Prop
  | number text => IsNumber text
  | string text => IsQuotable text
  | _ => True

/-- The tokens that end a number before them. -/
def isDelimiter : Token → Bool
  | comma | closeArray | closeObject => true
  | _ => false

/-- Whether a token can stand directly after another. -/
def Precedes (t next : Token) : Prop := ∀ text, t = number text → next.isDelimiter = true

theorem isChain_cons {t : Token} {rest : List Token} (ht : ∀ text, t ≠ number text)
    (hrest : rest.IsChain Precedes) : (t :: rest).IsChain Precedes :=
  List.isChain_cons.2 ⟨fun _ _ text h => absurd h (ht text), hrest⟩

theorem isDelimiter_iff {t : Token} :
    t.isDelimiter = true ↔ t = comma ∨ t = closeArray ∨ t = closeObject := by
  cases t <;> simp [isDelimiter]

end Token

/-- A text of the tokens, in their order, with blanks between them, before them and after them. -/
inductive Layout : List Token → List UInt8 → Prop
  | nil {blanks : List UInt8} (hblanks : ∀ b ∈ blanks, isBlank b = true) : Layout [] blanks
  | cons {blanks text : List UInt8} {token : Token} {tokens : List Token}
      (hblanks : ∀ b ∈ blanks, isBlank b = true) (htext : Layout tokens text) :
      Layout (token :: tokens) (blanks ++ (token.bytes ++ text))

/-- Without blanks. -/
theorem layout_flatMap (tokens : List Token) : Layout tokens (tokens.flatMap Token.bytes) := by
  induction tokens with
  | nil => exact .nil nofun
  | cons t tokens ih =>
    have hblanks : ∀ b ∈ ([] : List UInt8), isBlank b = true := nofun
    exact .cons hblanks ih

/-! ## Lexing numbers -/

namespace NumberPart

/-- How far a number has been read after more bytes, if they all belong to it. -/
def run? (part : NumberPart) (text : List UInt8) : Option NumberPart :=
  text.foldlM next? part

variable {part next : NumberPart} {b : UInt8} {text : List UInt8}

theorem run?_cons (hb : part.next? b = some next) : part.run? (b :: text) = next.run? text := by
  rw [run?, List.foldlM_cons, hb]
  rfl

theorem isDigit_iff : Decimal.isDigit b = true ↔ '0'.toUInt8 ≤ b ∧ b ≤ '9'.toUInt8 := by
  rw [Decimal.isDigit, Bool.and_eq_true, decide_eq_true_eq, decide_eq_true_eq]
  rfl

theorem run?_digits (hpart : part = whole ∨ part = fraction ∨ part = exponent)
    (htext : text.all Decimal.isDigit = true) : part.run? text = some part := by
  induction text with
  | nil => rfl
  | cons b text ih =>
    rw [List.all_cons, Bool.and_eq_true, isDigit_iff] at htext
    have hb : part.next? b = some part := by
      rcases hpart with rfl | rfl | rfl <;> exact if_pos htext.1
    rw [run?_cons hb, ih htext.2]

/-- The digits before the point, after the sign that a number may have. -/
theorem exists_run?_whole (htext : IsWhole text) :
    ∃ b tail part, text = b :: tail ∧ b ≠ '-'.toUInt8 ∧ first? b = some part ∧
      part.run? tail = some part ∧ (part = zero ∨ part = whole) := by
  cases htext with
  | zero => exact ⟨_, [], zero, rfl, by decide, rfl, rfl, .inl rfl⟩
  | @digits first rest hfirst hrest =>
    have hne : ∀ b, b < '1'.toUInt8 → first ≠ b := fun b hb heq =>
      absurd hfirst.1 (UInt8.not_le.2 (heq ▸ hb))
    refine ⟨first, rest, whole, rfl, hne _ (by decide), ?_, run?_digits (.inl rfl) hrest, .inr rfl⟩
    rw [first?, if_neg (hne _ (by decide)), if_neg (hne _ (by decide)), if_pos hfirst]

theorem exists_run?_fraction (htext : IsFraction text) (hpart : part = zero ∨ part = whole) :
    ∃ last, part.run? text = some last ∧ (last = zero ∨ last = whole ∨ last = fraction) := by
  cases htext with
  | none => exact ⟨part, rfl, hpart.imp_right .inl⟩
  | digits hdigits =>
    rw [List.all_cons, Bool.and_eq_true, isDigit_iff] at hdigits
    have hpoint : part.next? '.'.toUInt8 = some point := by rcases hpart with rfl | rfl <;> rfl
    have hfirst : point.next? _ = some fraction := if_pos hdigits.1
    refine ⟨fraction, ?_, .inr (.inr rfl)⟩
    rw [run?_cons hpoint, run?_cons hfirst, run?_digits (.inr (.inl rfl)) hdigits.2]

theorem exists_run?_exponent (htext : IsExponent text)
    (hpart : part = zero ∨ part = whole ∨ part = fraction) :
    ∃ last, part.run? text = some last ∧ last.complete = true := by
  cases htext with
  | none => exact ⟨part, rfl, by rcases hpart with rfl | rfl | rfl <;> rfl⟩
  | @digits m first s rest hmark hsign hdigits =>
    rw [List.all_cons, Bool.and_eq_true, isDigit_iff] at hdigits
    have hm : part.next? m = some mark := by
      rcases hpart with rfl | rfl | rfl <;> rcases hmark with rfl | rfl <;> rfl
    have hrest : exponent.run? rest = some exponent := run?_digits (.inr (.inr rfl)) hdigits.2
    have hfirst : ∀ part, part = mark ∨ part = sign → part.next? first = some exponent := by
      rintro _ (rfl | rfl) <;> exact if_pos hdigits.1
    have hplus : mark.next? '+'.toUInt8 = some sign := rfl
    have hminus : mark.next? '-'.toUInt8 = some sign := rfl
    refine ⟨exponent, ?_, rfl⟩
    rw [run?_cons hm]
    rcases hsign with rfl | rfl | rfl
    · rw [List.nil_append, run?_cons (hfirst _ (.inl rfl)), hrest]
    · rw [List.singleton_append, run?_cons hplus, run?_cons (hfirst _ (.inr rfl)), hrest]
    · rw [List.singleton_append, run?_cons hminus, run?_cons (hfirst _ (.inr rfl)), hrest]

theorem run?_append (more : List UInt8) (h : part.run? text = some next) :
    part.run? (text ++ more) = next.run? more := by
  have happend : part.run? (text ++ more) = part.run? text >>= fun next => next.run? more :=
    List.foldlM_append
  rw [happend, h]
  rfl

/-- The parts of a number come in their order, and it may end after the last of them. -/
theorem exists_run?_number (htext : IsNumber text) :
    ∃ b tail part last, text = b :: tail ∧ first? b = some part ∧ part.run? tail = some last ∧
      last.complete = true := by
  have hparts : ∀ {whole fraction exponent : List UInt8}, IsWhole whole → IsFraction fraction →
      IsExponent exponent → ∃ b tail part last, whole ++ (fraction ++ exponent) = b :: tail ∧
        b ≠ '-'.toUInt8 ∧ first? b = some part ∧ part.run? tail = some last ∧
        last.complete = true := by
    intro whole fraction exponent hwhole hfraction hexponent
    obtain ⟨b, tail, part, rfl, hb, hfirst, htail, hpart⟩ := exists_run?_whole hwhole
    obtain ⟨middle, hmiddle, hpart'⟩ := exists_run?_fraction hfraction hpart
    obtain ⟨last, hlast, hcomplete⟩ := exists_run?_exponent hexponent hpart'
    refine ⟨b, tail ++ (fraction ++ exponent), part, last, rfl, hb, hfirst, ?_, hcomplete⟩
    rw [run?_append _ htail, run?_append _ hmiddle, hlast]
  cases htext with
  | positive hwhole hfraction hexponent =>
    obtain ⟨b, tail, part, last, hbytes, -, hfirst, htail, hcomplete⟩ :=
      hparts hwhole hfraction hexponent
    exact ⟨b, tail, part, last, hbytes, hfirst, htail, hcomplete⟩
  | negative hwhole hfraction hexponent =>
    obtain ⟨b, tail, part, last, hbytes, hb, hfirst, htail, hcomplete⟩ :=
      hparts hwhole hfraction hexponent
    refine ⟨_, b :: tail, minus, last, congrArg _ hbytes, rfl, ?_, hcomplete⟩
    have hnext : minus.next? b = some part := (if_neg hb).trans hfirst
    rw [run?_cons hnext, htail]

end NumberPart

/-! ## Lexing -/

section Lexing

variable {done : List Token} {read text rest : List UInt8}

theorem lexFrom_cons {state next : Lexeme} {after : List Token} {b : UInt8}
    (h : state.step? done b = some (next, after)) :
    lexFrom state done (b :: rest) = lexFrom next after rest := by
  rw [lexFrom, h]

theorem lexFrom_blanks {blanks : List UInt8} (hblanks : ∀ b ∈ blanks, isBlank b = true) :
    lexFrom .blank done (blanks ++ rest) = lexFrom .blank done rest := by
  induction blanks with
  | nil => rfl
  | cons b blanks ih =>
    rw [List.forall_mem_cons] at hblanks
    have hb : Lexeme.blank.step? done b = some (.blank, done) := if_pos hblanks.1
    rw [List.cons_append, lexFrom_cons hb, ih hblanks.2]

theorem lexFrom_string (htext : IsQuotable text) :
    lexFrom (.string read) done (text ++ '"'.toUInt8 :: rest) =
      lexFrom .blank (.string (read.reverse ++ text) :: done) rest := by
  have hbackslash : ∀ read, (Lexeme.string read).step? done '\\'.toUInt8 =
      some (.escape ('\\'.toUInt8 :: read), done) := fun _ => rfl
  induction htext generalizing read with
  | nil =>
    rw [List.nil_append, List.append_nil]
    exact lexFrom_cons rfl
  | @byte b text hcontrol hquote hb _ ih =>
    have hstep : (Lexeme.string read).step? done b = some (.string (b :: read), done) := by
      rw [Lexeme.step?, if_neg hquote, if_neg hb, if_neg (UInt8.not_lt.2 hcontrol)]
    rw [List.cons_append, lexFrom_cons hstep, ih]
    simp
  | @escape b text hb _ ih =>
    have hescape : ∀ read, (Lexeme.escape read).step? done b = some (.string (b :: read), done) :=
      fun _ => if_pos hb
    rw [List.cons_append, List.cons_append, lexFrom_cons (hbackslash _), lexFrom_cons (hescape _),
      ih]
    simp
  | @unit a b c d text ha hb hc hd _ ih =>
    have hu : ∀ read, (Lexeme.escape read).step? done 'u'.toUInt8 =
        some (.unit 3 ('u'.toUInt8 :: read), done) := fun _ => rfl
    have hdigit : ∀ left read x, Hex.isDigit x = true →
        (Lexeme.unit (left + 1) read).step? done x = some (.unit left (x :: read), done) :=
      fun _ _ _ hx => if_pos hx
    have hlast : ∀ read, (Lexeme.unit 0 read).step? done d = some (.string (d :: read), done) :=
      fun _ => if_pos hd
    simp only [List.cons_append]
    rw [lexFrom_cons (hbackslash _), lexFrom_cons (hu _), lexFrom_cons (hdigit 2 _ _ ha),
      lexFrom_cons (hdigit 1 _ _ hb), lexFrom_cons (hdigit 0 _ _ hc), lexFrom_cons (hlast _), ih]
    simp

theorem lexFrom_run {part last : NumberPart} (h : part.run? text = some last) :
    lexFrom (.number part read) done (text ++ rest) =
      lexFrom (.number last (text.reverse ++ read)) done rest := by
  induction text generalizing part read with
  | nil =>
    obtain rfl := Option.some.inj h
    rfl
  | cons b text ih =>
    rw [NumberPart.run?, List.foldlM_cons] at h
    obtain ⟨next, hnext, htext⟩ := Option.bind_eq_some_iff.1 h
    have hb : (Lexeme.number part read).step? done b = some (.number next (b :: read), done) := by
      rw [Lexeme.step?, hnext]
    rw [List.cons_append, lexFrom_cons hb, ih htext]
    simp

/-- A number ends where the next byte does not go on with it. -/
theorem lexFrom_number_end {part : NumberPart} (hcomplete : part.complete = true)
    (hrest : ∀ b ∈ rest.head?, part.next? b = none) :
    lexFrom (.number part read) done rest = lexFrom .blank (.number read.reverse :: done) rest := by
  cases rest with
  | nil => rw [lexFrom, Lexeme.finish?, if_pos hcomplete]; rfl
  | cons b rest =>
    rw [lexFrom, Lexeme.step?, hrest b rfl]
    simp only [if_pos hcomplete]
    rfl

/-- A text that goes on with no number. -/
def EndsNumber (rest : List UInt8) : Prop :=
  ∀ b ∈ rest.head?, ∀ part : NumberPart, part.next? b = none

theorem step?_first? {b : UInt8} {part : NumberPart} (h : NumberPart.first? b = some part) :
    Lexeme.blank.step? done b = some (.number part [b], done) := by
  have hrange : b = '-'.toUInt8 ∨ 48 ≤ b.toNat ∧ b.toNat ≤ 57 := by
    unfold NumberPart.first? at h
    split at h
    · exact .inl ‹_›
    split at h
    · rename_i hzero
      exact .inr (by rw [hzero]; decide)
    split at h
    · rename_i hdigit
      exact .inr ⟨Nat.le_trans (by decide) hdigit.1, hdigit.2⟩
    · cases h
  have hbegin : Lexeme.blank.step? done b =
      (NumberPart.first? b).map fun part => (.number part [b], done) := by
    rcases hrange with rfl | ⟨hlow, hhigh⟩
    · rfl
    · have hb : b = UInt8.ofNat b.toNat := UInt8.ofNat_toNat.symm
      rw [hb]
      generalize b.toNat = n at hlow hhigh
      interval_cases n <;> rfl
  rw [hbegin, h]
  rfl

/-- A number is taken whole. -/
theorem lexFrom_number (htext : IsNumber text) (hrest : EndsNumber rest) :
    lexFrom .blank done (text ++ rest) = lexFrom .blank (.number text :: done) rest := by
  obtain ⟨b, tail, part, last, rfl, hfirst, htail, hcomplete⟩ :=
    NumberPart.exists_run?_number htext
  rw [List.cons_append, lexFrom_cons (step?_first? hfirst), lexFrom_run htail,
    lexFrom_number_end hcomplete fun b hb => hrest b hb last]
  simp

/-- The lexer takes a valid token from the front of a text. -/
theorem lexFrom_bytes {t : Token} (ht : t.IsValid)
    (hrest : ∀ digits, t = .number digits → EndsNumber rest) :
    lexFrom .blank done (t.bytes ++ rest) = lexFrom .blank (t :: done) rest := by
  cases t with
  | number digits => exact lexFrom_number ht (hrest _ rfl)
  | string text =>
    have h : lexFrom (.string []) done (text ++ '"'.toUInt8 :: rest) =
        lexFrom .blank (.string text :: done) rest := lexFrom_string ht
    rw [Token.bytes, List.cons_append, List.append_assoc]
    exact h
  | boolean value => cases value <;> rfl
  | _ => rfl

/-- No number goes on with a blank, a comma or a closing bracket. -/
theorem next?_eq_none {b : UInt8} {part : NumberPart}
    (hb : isBlank b = true ∨ b = ','.toUInt8 ∨ b = ']'.toUInt8 ∨ b = '\x7d'.toUInt8) :
    part.next? b = none := by
  simp only [isBlank, Bool.or_eq_true, decide_eq_true_eq] at hb
  rcases hb with (((rfl | rfl) | rfl) | rfl) | rfl | rfl | rfl <;> cases part <;> rfl

theorem endsNumber_of_layout {tokens : List Token} (h : Layout tokens text)
    (htokens : ∀ t ∈ tokens.head?, t.isDelimiter = true) : EndsNumber text := by
  intro b hb part
  cases h with
  | nil hblanks => exact next?_eq_none (.inl (hblanks b (List.mem_of_mem_head? hb)))
  | @cons blanks text t tokens hblanks htext =>
    cases blanks with
    | cons blank blanks =>
      obtain rfl := Option.some.inj hb
      exact next?_eq_none (.inl (hblanks _ List.mem_cons_self))
    | nil =>
      rcases Token.isDelimiter_iff.1 (htokens t rfl) with rfl | rfl | rfl <;>
        obtain rfl := Option.some.inj hb
      · exact next?_eq_none (.inr (.inl rfl))
      · exact next?_eq_none (.inr (.inr (.inl rfl)))
      · exact next?_eq_none (.inr (.inr (.inr rfl)))

/-- Valid tokens that can stand one after the other are read from a text that lays them out. -/
theorem lexFrom_layout {tokens : List Token} (hvalid : ∀ t ∈ tokens, t.IsValid)
    (hchain : tokens.IsChain Token.Precedes) (htext : Layout tokens text) :
    lexFrom .blank done text = some (tokens.reverse ++ done) := by
  induction htext generalizing done with
  | @nil blanks hblanks =>
    rw [← List.append_nil blanks, lexFrom_blanks hblanks]
    rfl
  | @cons blanks text t tokens hblanks htext ih =>
    rw [List.isChain_cons] at hchain
    rw [List.forall_mem_cons] at hvalid
    rw [lexFrom_blanks hblanks, lexFrom_bytes hvalid.1, ih hvalid.2 hchain.2]
    · simp
    · -- Only after a number does it matter how the rest begins.
      rintro digits rfl
      exact endsNumber_of_layout htext fun next hnext => hchain.1 next hnext digits rfl

end Lexing

/-! ## Values -/

mutual

/-- After a value stands nothing that would go on with a number at its end. -/
theorem isChain_tokens (v : Json) {rest : List Token} (hrest : rest.IsChain Token.Precedes)
    (hhead : ∀ t ∈ rest.head?, t.isDelimiter = true) :
    (v.tokens ++ rest).IsChain Token.Precedes := by
  match v with
  | .null | .boolean _ | .string _ => exact Token.isChain_cons nofun hrest
  | .number _ => exact List.isChain_cons.2 ⟨fun t ht _ _ => hhead t ht, hrest⟩
  | .array items =>
    have hclose := Token.isChain_cons (t := .closeArray) nofun hrest
    have hitems := isChain_itemTokens items hclose (by simp [Token.isDelimiter])
    rw [tokens, List.cons_append, List.append_assoc]
    exact Token.isChain_cons nofun hitems
  | .object members =>
    have hclose := Token.isChain_cons (t := .closeObject) nofun hrest
    have hmembers := isChain_memberTokens members hclose (by simp [Token.isDelimiter])
    rw [tokens, List.cons_append, List.append_assoc]
    exact Token.isChain_cons nofun hmembers
termination_by sizeOf v

theorem isChain_itemTokens (items : List Json) {rest : List Token}
    (hrest : rest.IsChain Token.Precedes) (hhead : ∀ t ∈ rest.head?, t.isDelimiter = true) :
    (itemTokens items ++ rest).IsChain Token.Precedes := by
  match items with
  | [] => exact hrest
  | [item] => exact isChain_tokens item hrest hhead
  | item :: next :: items =>
    have hcomma :=
      Token.isChain_cons (t := .comma) nofun (isChain_itemTokens (next :: items) hrest hhead)
    rw [itemTokens, List.append_assoc]
    · exact isChain_tokens item hcomma (by simp [Token.isDelimiter])
    · simp
termination_by sizeOf items

theorem isChain_memberTokens (members : List (List UInt8 × Json)) {rest : List Token}
    (hrest : rest.IsChain Token.Precedes) (hhead : ∀ t ∈ rest.head?, t.isDelimiter = true) :
    (memberTokens members ++ rest).IsChain Token.Precedes := by
  match members with
  | [] => exact hrest
  | [(name, value)] =>
    have hvalue := isChain_tokens value hrest hhead
    exact Token.isChain_cons nofun (Token.isChain_cons nofun hvalue)
  | (name, value) :: next :: members =>
    have hcomma :=
      Token.isChain_cons (t := .comma) nofun (isChain_memberTokens (next :: members) hrest hhead)
    have hvalue := isChain_tokens value hcomma (by simp [Token.isDelimiter])
    rw [memberTokens, List.cons_append, List.cons_append, List.append_assoc]
    · exact Token.isChain_cons nofun (Token.isChain_cons nofun hvalue)
    · simp
termination_by sizeOf members

end

/-- A value of which every token is valid. -/
def IsValid (v : Json) : Prop := ∀ t ∈ v.tokens, t.IsValid

/-- A valid value is read from every text that lays out its tokens. -/
theorem parse?_of_layout {v : Json} {text : List UInt8} (hvalid : v.IsValid)
    (htext : Layout v.tokens text) : parse? text = some v := by
  have hchain := isChain_tokens v .nil (by simp)
  rw [List.append_nil] at hchain
  simp [parse?, tokens?, lexFrom_layout hvalid hchain htext, ofTokens?_tokens]

/-! ## Tokens of arrays and objects -/

section Tokens

variable {P : Token → Prop}

theorem forall_mem_itemTokens_iff (hcomma : P .comma) {items : List Json} :
    (∀ t ∈ itemTokens items, P t) ↔ ∀ v ∈ items, ∀ t ∈ v.tokens, P t := by
  induction items with
  | nil => simp [itemTokens]
  | cons item items ih =>
    rw [List.forall_mem_cons, ← ih]
    cases items with
    | nil => simp [itemTokens]
    | cons next items =>
      rw [itemTokens, List.forall_mem_append, List.forall_mem_cons]
      · exact and_congr_right fun _ => and_iff_right hcomma
      · simp

theorem forall_mem_memberTokens_iff (hcomma : P .comma) (hcolon : P .colon)
    {members : List (List UInt8 × Json)} :
    (∀ t ∈ memberTokens members, P t) ↔
      ∀ member ∈ members, P (.string member.1) ∧ ∀ t ∈ member.2.tokens, P t := by
  induction members with
  | nil => simp [memberTokens]
  | cons member members ih =>
    obtain ⟨name, value⟩ := member
    rw [List.forall_mem_cons, ← ih]
    cases members with
    | nil => simp [memberTokens, hcolon]
    | cons next members =>
      rw [memberTokens, List.forall_mem_cons, List.forall_mem_cons, List.forall_mem_append,
        List.forall_mem_cons]
      · simp only [hcolon, hcomma, true_and, and_assoc]
      · simp

theorem forall_mem_tokens_array_iff (hopen : P .openArray) (hclose : P .closeArray)
    (hcomma : P .comma) {items : List Json} :
    (∀ t ∈ (array items).tokens, P t) ↔ ∀ v ∈ items, ∀ t ∈ v.tokens, P t := by
  rw [tokens, List.forall_mem_cons, List.forall_mem_append, forall_mem_itemTokens_iff hcomma]
  simp [hopen, hclose]

theorem forall_mem_tokens_object_iff (hopen : P .openObject) (hclose : P .closeObject)
    (hcomma : P .comma) (hcolon : P .colon) {members : List (List UInt8 × Json)} :
    (∀ t ∈ (object members).tokens, P t) ↔
      ∀ member ∈ members, P (.string member.1) ∧ ∀ t ∈ member.2.tokens, P t := by
  rw [tokens, List.forall_mem_cons, List.forall_mem_append,
    forall_mem_memberTokens_iff hcomma hcolon]
  simp [hopen, hclose]

end Tokens

theorem isValid_array_iff {items : List Json} : (array items).IsValid ↔ ∀ v ∈ items, v.IsValid :=
  forall_mem_tokens_array_iff trivial trivial trivial

theorem isValid_object_iff {members : List (List UInt8 × Json)} :
    (object members).IsValid ↔ ∀ member ∈ members, IsQuotable member.1 ∧ member.2.IsValid :=
  forall_mem_tokens_object_iff trivial trivial trivial trivial

end Json

end SignerVoting
