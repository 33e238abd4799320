import SignerVoting.Proofs.Syntax
import SignerVoting.Snapshot.Document

/-!
# Writers and readers

What a writer makes is valid, so that its text has one reading, and the reader beside it takes the
value for what it was made from.

* `parse?_render`: a valid value is read back from its text;
* `unquote?_ofString`, `word?_ofNat`, `address?_ofAddress`, `digest?_ofText`: texts, numbers,
  accounts and hashes are read back;
* `list?_map`, `entries?_map`, `record?_ofMembers`: so are lists, mappings and records, in the order
  in which they were written (`record?_object_iff` says which objects are read as records);
* `Vote.ofJson?_toJson` and its like: so are votes, scores and cooldowns.
-/

namespace SignerVoting

/-! ## Plain texts -/

namespace Json

/-- A valid value is read back from its text. -/
theorem parse?_render {v : Json} (h : v.IsValid) : parse? v.render = some v :=
  parse?_of_layout h (layout_flatMap v.tokens)

/-- A text of which each byte stands for itself between quotes. -/
def IsPlain (text : List UInt8) : Prop :=
  ∀ b ∈ text, 32 ≤ b ∧ b ≠ '"'.toUInt8 ∧ b ≠ '\\'.toUInt8

instance (text : List UInt8) : Decidable (IsPlain text) :=
  List.decidableBAll (fun b => 32 ≤ b ∧ b ≠ '"'.toUInt8 ∧ b ≠ '\\'.toUInt8) text

theorem isQuotable_of_isPlain {text : List UInt8} (h : IsPlain text) : IsQuotable text := by
  induction text with
  | nil => exact .nil
  | cons b text ih =>
    obtain ⟨hcontrol, hquote, hbackslash⟩ := h b List.mem_cons_self
    exact .byte hcontrol hquote hbackslash (ih fun c hc => h c (List.mem_cons_of_mem _ hc))

/-- A number is written by its digits. -/
theorem isNumber_digits (n : Nat) : IsNumber (Decimal.digits n) := by
  have hwhole : IsWhole (Decimal.digits n) := by
    rcases Nat.eq_zero_or_pos n with rfl | hpos
    · exact .zero
    · obtain ⟨first, rest, hdigits, hfirst, hlast⟩ := Decimal.digits_of_pos hpos
      have hall := Decimal.all_isDigit_digits n
      rw [hdigits, List.all_cons, Bool.and_eq_true] at hall
      rw [hdigits]
      refine .digits ⟨?_, ?_⟩ hall.2 <;>
        rw [UInt8.le_iff_toNat_le, Decimal.toNat_digit hlast]
      · exact Nat.add_le_add_left hfirst 48
      · exact Nat.add_le_add_left (Nat.le_of_lt_succ hlast) 48
  have h := IsNumber.positive hwhole .none .none
  rwa [List.append_nil, List.append_nil] at h

theorem pieces?_of_isPlain {text : List UInt8} (h : IsPlain text) :
    pieces? text = some (text.map .byte) := by
  induction text with
  | nil => rfl
  | cons b text ih =>
    have hb : b ≠ '\\'.toUInt8 := (h b List.mem_cons_self).2.2
    have hrest := ih fun c hc => h c (List.mem_cons_of_mem _ hc)
    cases text with
    | nil => exact if_neg hb
    | cons c text =>
      unfold pieces?
      rw [if_pos hb, hrest]
      rfl

theorem join?_map_byte (text : List UInt8) : join? (text.map .byte) = some text := by
  induction text with
  | nil => rfl
  | cons b text ih => rw [List.map_cons, join?, ih]; rfl

/-- A text that needs no escape is read back. -/
theorem unquote?_ofString {text : String} (h : IsPlain (Bytes.ofString text)) :
    unquote? (Bytes.ofString text) = some text := by
  simp [unquote?, pieces?_of_isPlain h, join?_map_byte, Bytes.fromUTF8?_ofString]

theorem isPlain_digits (n : Nat) : IsPlain (Decimal.digits n) := by
  intro b hb
  have hdigit := List.all_eq_true.1 (Decimal.all_isDigit_digits n) b hb
  refine ⟨?_, ?_, ?_⟩
  · rw [Decimal.isDigit, Bool.and_eq_true, decide_eq_true_eq] at hdigit
    exact UInt8.le_trans (by decide) hdigit.1
  · rintro rfl
    exact absurd hdigit (by decide)
  · rintro rfl
    exact absurd hdigit (by decide)

theorem isPlain_hexDigits (bytes : List UInt8) :
    IsPlain ((Hex.digits bytes).map Char.toUInt8) := by
  have hdigit : ∀ n < 16, IsPlain [(Nat.digitChar n).toUInt8] := by decide
  induction bytes with
  | nil => nofun
  | cons b bytes ih =>
    have hb : b.toNat < 256 := b.toNat_lt
    have hhigh := hdigit (b.toNat / 16) (by omega)
    have hlow := hdigit (b.toNat % 16) (by omega)
    rw [IsPlain, List.forall_mem_singleton] at hhigh hlow
    rw [Hex.digits, List.map_cons, List.map_cons, IsPlain, List.forall_mem_cons,
      List.forall_mem_cons]
    exact ⟨hhigh, hlow, ih⟩

theorem isPlain_text (a : Address) : IsPlain (Bytes.ofString a.text) := by
  have hmark : IsPlain ['0'.toUInt8, 'x'.toUInt8] := by decide
  rw [Address.ofString_text, Address.chars, List.map_cons, List.map_cons]
  exact List.forall_mem_append.2 ⟨hmark, isPlain_hexDigits _⟩

/-- The hexadecimal text of bytes is one of ASCII. -/
theorem ofString_encode (bytes : List UInt8) :
    Bytes.ofString (Hex.encode bytes) = (Hex.digits bytes).map Char.toUInt8 :=
  Bytes.ofString_ofList_of_lt fun _ => Hex.toNat_lt_of_mem_digits

theorem isPlain_encode (bytes : List UInt8) : IsPlain (Bytes.ofString (Hex.encode bytes)) := by
  rw [ofString_encode]
  exact isPlain_hexDigits bytes

/-! ## Numbers, accounts and hashes -/

@[simp] theorem isValid_boolean (value : Bool) : (boolean value).IsValid := by
  simp [IsValid, tokens, Token.IsValid]

@[simp] theorem isValid_ofNat (n : Nat) : (ofNat n).IsValid := by
  simpa [IsValid, ofNat, tokens, Token.IsValid] using isNumber_digits n

theorem isValid_ofText {text : String} (h : IsPlain (Bytes.ofString text)) :
    (ofText text).IsValid := by
  simpa [IsValid, ofText, tokens, Token.IsValid] using isQuotable_of_isPlain h

@[simp] theorem isValid_ofAddress (a : Address) : (ofAddress a).IsValid :=
  isValid_ofText (isPlain_text a)

@[simp] theorem flag?_boolean (value : Bool) : (boolean value).flag? = some value := rfl

@[simp] theorem wordOfText?_digits (n : UInt64) :
    wordOfText? (Decimal.digits n.toNat) = some n := by
  simp [wordOfText?, Decimal.value?_digits, n.toNat_lt]

@[simp] theorem word?_ofNat (n : UInt64) : (ofNat n.toNat).word? = some n := wordOfText?_digits n

theorem text?_ofText {text : String} (h : IsPlain (Bytes.ofString text)) :
    (ofText text).text? = some text := unquote?_ofString h

@[simp] theorem address?_ofAddress (a : Address) : (ofAddress a).address? = some a := by
  simp [address?, ofAddress, text?_ofText (isPlain_text a), Address.ofText_text, Except.toOption]

@[simp] theorem digest?_ofText (hash : Digest) :
    (ofText (Hex.encode hash.toList)).digest? = some hash := by
  simp [digest?, text?_ofText (isPlain_encode _), ofString_encode, Hex.decode_digits,
    Except.toOption]

/-! ## Lists, mappings and records -/

section Containers

variable {α β κ ν : Type}

/-- Items are read if each of them is, and then as what each of them is read as. -/
theorem mapM_eq_some_iff {read : α → Option β} {as : List α} {bs : List β} :
    as.mapM read = some bs ↔ (∀ a ∈ as, (read a).isSome = true) ∧ as.filterMap read = bs := by
  induction as generalizing bs with
  | nil => simp
  | cons a as ih =>
    cases ha : read a with
    | none => simp [List.mapM_cons, ha]
    | some b => simp [List.mapM_cons, ha, Option.bind_eq_some_iff, ih, and_assoc]

/-- Reading item by item takes back what was written item by item. -/
theorem mapM_map {write : α → β} {read : β → Option α} {as : List α}
    (h : ∀ a ∈ as, read (write a) = some a) : (as.map write).mapM read = some as := by
  induction as with
  | nil => rfl
  | cons a as ih =>
    rw [List.forall_mem_cons] at h
    simp [List.mapM_cons, h.1, ih h.2]

theorem isValid_map {write : α → Json} (h : ∀ a, (write a).IsValid) (as : List α) :
    (array (as.map write)).IsValid := by
  refine isValid_array_iff.2 fun v hv => ?_
  obtain ⟨a, _, rfl⟩ := List.mem_map.1 hv
  exact h a

/-- A list is read back, in its order. -/
theorem list?_map {write : α → Json} {read : Json → Option α}
    (h : ∀ a, read (write a) = some a) (as : List α) :
    (array (as.map write)).list? read = some as := mapM_map fun a _ => h a

theorem isValid_map_entries {name : κ → List UInt8} {write : ν → Json}
    (hname : ∀ k, IsPlain (name k)) (h : ∀ v, (write v).IsValid) (entries : List (κ × ν)) :
    (object (entries.map fun (k, v) => (name k, write v))).IsValid := by
  refine isValid_object_iff.2 fun member hmember => ?_
  obtain ⟨⟨k, v⟩, _, rfl⟩ := List.mem_map.1 hmember
  exact ⟨isQuotable_of_isPlain (hname k), h v⟩

/-- A mapping is read back, its entries in their order. -/
theorem entries?_map {name : κ → List UInt8} {write : ν → Json} {key? : List UInt8 → Option κ}
    {read : Json → Option ν} (hname : ∀ k, key? (name k) = some k)
    (hread : ∀ v, read (write v) = some v) (entries : List (κ × ν)) :
    (object (entries.map fun (k, v) => (name k, write v))).entries? key? read = some entries :=
  mapM_map fun (k, v) _ => by simp [hname, hread]

/-- A name that is a text: one of UTF-8, in which surrogates come in pairs. -/
def IsText (name : List UInt8) : Prop := (unquote? name).isSome = true

/-- What a member is in a record with these names. -/
def field? (names : List String) (member : List UInt8 × Json) : Option (String × Json) := do
  let text ← unquote? member.1
  if text ∈ names then some (text, member.2) else none

section Members

variable {names : List String} {name : List UInt8} {text : String} {x : Json} {r : Record}
  {members : List (List UInt8 × Json)}

theorem isText_ofString (h : IsPlain (Bytes.ofString text)) : IsText (Bytes.ofString text) := by
  rw [IsText, unquote?_ofString h]
  rfl

theorem field?_of_unquote? (hname : unquote? name = some text) (hmem : text ∈ names) :
    field? names (name, x) = some (text, x) := by
  rw [field?, hname]
  exact if_pos hmem

/-- An object is read as a record if all its names are texts and no field comes twice. -/
theorem record?_object_iff :
    (object members).record? names = some r ↔
      (∀ member ∈ members, IsText member.1) ∧ members.filterMap (field? names) = r ∧
        (r.map Prod.fst).Nodup := by
  -- The reader names all members before it looks which of them are fields; `field?` does both.
  have hknown : ∀ member : List UInt8 × Json,
      Option.filter (fun field : String × Json => names.contains field.1)
        ((unquote? member.1).bind fun text => some (text, member.2)) = field? names member := by
    intro member
    rw [field?]
    cases unquote? member.1 with
    | none => rfl
    | some text => simp [Option.filter]
  have hnamed : ∀ member : List UInt8 × Json,
      ((unquote? member.1).bind fun text => some (text, member.2)).isSome =
        (unquote? member.1).isSome := fun member => by cases unquote? member.1 <;> rfl
  simp only [record?, Option.bind_eq_bind, Option.bind_eq_some_iff, mapM_eq_some_iff, hnamed,
    Option.ite_none_right_eq_some, Option.some.injEq, IsText, Option.pure_def]
  constructor
  · rintro ⟨_, ⟨htexts, rfl⟩, hnodup, rfl⟩
    simp only [List.filter_filterMap, hknown] at hnodup ⊢
    exact ⟨htexts, trivial, hnodup⟩
  · rintro ⟨htexts, rfl, hnodup⟩
    refine ⟨_, ⟨htexts, rfl⟩, ?_⟩
    simp only [List.filter_filterMap, hknown]
    exact ⟨hnodup, trivial⟩

theorem record?_eq_none {member : List UInt8 × Json} (hmember : member ∈ members)
    (hname : ¬IsText member.1) : (object members).record? names = none :=
  Option.eq_none_iff_forall_ne_some.2 fun _ hr =>
    hname ((record?_object_iff.1 hr).1 member hmember)

end Members

/-- A record is read back, its fields in their order. -/
theorem record?_ofMembers {names : List String} {members : List (String × Json)}
    (hnames : members.map Prod.fst = names) (hnodup : names.Nodup)
    (hplain : ∀ name ∈ names, IsPlain (Bytes.ofString name)) :
    (ofMembers members).record? names = some members := by
  subst hnames
  have hmem : ∀ member ∈ members, member.1 ∈ members.map Prod.fst := fun _ =>
    List.mem_map_of_mem
  refine record?_object_iff.2 ⟨fun member hmember => ?_, ?_, hnodup⟩
  · obtain ⟨⟨name, value⟩, hfield, rfl⟩ := List.mem_map.1 hmember
    exact isText_ofString (hplain name (hmem (name, value) hfield))
  · have hfield : ∀ member ∈ members,
        field? (members.map Prod.fst) (Bytes.ofString member.1, member.2) = some member :=
      fun member hmember =>
        field?_of_unquote? (unquote?_ofString (hplain _ (hmem _ hmember))) (hmem _ hmember)
    rw [List.filterMap_map]
    exact (List.filterMap_congr hfield).trans List.filterMap_some

theorem isValid_ofMembers (names : List String) {members : List (String × Json)}
    (hnames : members.map Prod.fst = names)
    (hplain : ∀ name ∈ names, IsPlain (Bytes.ofString name))
    (hvalid : ∀ member ∈ members, member.2.IsValid) : (ofMembers members).IsValid := by
  subst hnames
  refine isValid_object_iff.2 fun member hmember => ?_
  obtain ⟨⟨name, value⟩, hmem, rfl⟩ := List.mem_map.1 hmember
  exact ⟨isQuotable_of_isPlain (hplain name (List.mem_map_of_mem hmem)), hvalid (name, value) hmem⟩

theorem Record.optional_eq (r : Record) (name : String) (default : α) (read : Json → Option α) :
    r.optional name default read = (r.lookup name).elim (some default) read := by
  rw [optional]
  cases r.lookup name <;> rfl

end Containers

end Json

open Json

/-! ## Votes and scores -/

namespace Vote

@[simp] theorem isValid_toJson (v : Vote) : v.toJson.IsValid :=
  isValid_ofMembers fieldNames rfl (by decide) (by simp)

/-- A vote is read back. -/
@[simp] theorem ofJson?_toJson (v : Vote) : ofJson? v.toJson = some v := by
  have hrecord : v.toJson.record? fieldNames = some _ :=
    record?_ofMembers rfl (by decide) (by decide)
  simp [ofJson?, hrecord, Record.required, List.lookup_cons]

end Vote

namespace QuorumVote

@[simp] theorem isValid_toJson (v : QuorumVote) : v.toJson.IsValid :=
  isValid_ofMembers fieldNames rfl (by decide) (by simp)

/-- A vote is read back. -/
@[simp] theorem ofJson?_toJson (v : QuorumVote) : ofJson? v.toJson = some v := by
  have hrecord : v.toJson.record? fieldNames = some _ :=
    record?_ofMembers rfl (by decide) (by decide)
  simp [ofJson?, hrecord, Record.required, List.lookup_cons]

end QuorumVote

namespace Tally

@[simp] theorem isValid_toJson (t : Tally) : t.toJson.IsValid :=
  isValid_ofMembers fieldNames rfl (by decide) (by simp)

/-- A score is read back. -/
@[simp] theorem ofJson?_toJson (t : Tally) : ofJson? t.toJson = some t := by
  have hrecord : t.toJson.record? fieldNames = some _ :=
    record?_ofMembers rfl (by decide) (by decide)
  simp [ofJson?, hrecord, Record.required, List.lookup_cons]

end Tally

namespace QuorumTally

@[simp] theorem isValid_toJson (t : QuorumTally) : t.toJson.IsValid :=
  isValid_ofMembers fieldNames rfl (by decide) (by simp)

/-- A score is read back. -/
@[simp] theorem ofJson?_toJson (t : QuorumTally) : ofJson? t.toJson = some t := by
  have hrecord : t.toJson.record? fieldNames = some _ :=
    record?_ofMembers rfl (by decide) (by decide)
  simp [ofJson?, hrecord, Record.required, List.lookup_cons]

end QuorumTally

namespace QuorumCooldown

@[simp] theorem isValid_toJson (c : QuorumCooldown) : c.toJson.IsValid :=
  isValid_ofMembers fieldNames rfl (by decide) (by simp)

/-- A cooldown is read back. -/
@[simp] theorem ofJson?_toJson (c : QuorumCooldown) : ofJson? c.toJson = some c := by
  have hrecord : c.toJson.record? fieldNames = some _ :=
    record?_ofMembers rfl (by decide) (by decide)
  simp [ofJson?, hrecord, Record.required]

end QuorumCooldown

end SignerVoting
