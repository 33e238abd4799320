import Mathlib.Logic.Relation
import SignerVoting.Proofs.Edits
import SignerVoting.Proofs.Persistence

/-!
# Other texts of a snapshot

The text of a stored snapshot may have been written by another version, or been edited since. Its
members may come in any order, and with blanks between the tokens; the signers too, and more than
once; what is empty or has its default may be missing; and the records in it may have members that
are none of their fields. An `Edit` is one such difference. It leaves the snapshot that is read
(`Edit.readFrom`), and so does any number of them: the snapshot is loaded from all of these texts
(`load_rewritten`), as long as the names that were added are texts.
-/

namespace SignerVoting

open Json

/-! ## Records -/

theorem Vote.readsRecord : ReadsRecord fieldNames ofJson? :=
  ⟨_, fun _ => rfl, fun _ _ h => by simp only [Record.required, h]⟩

theorem QuorumVote.readsRecord : ReadsRecord fieldNames ofJson? :=
  ⟨_, fun _ => rfl, fun _ _ h => by simp only [Record.required, h]⟩

theorem Tally.readsRecord : ReadsRecord fieldNames ofJson? :=
  ⟨_, fun _ => rfl, fun _ _ h => by simp only [Record.required, h]⟩

theorem QuorumTally.readsRecord : ReadsRecord fieldNames ofJson? :=
  ⟨_, fun _ => rfl, fun _ _ h => by simp only [Record.required, h]⟩

theorem QuorumCooldown.readsRecord : ReadsRecord fieldNames ofJson? :=
  ⟨_, fun _ => rfl, fun _ _ h => by simp only [Record.required, h]⟩

namespace Snapshot

/-! ## Edits of a field -/

/-- One edit of what is held as a field. -/
def Field.Edit (added : List UInt8 → Prop) : Field → Json → Json → Prop
  | number | hash | quorumPercent => fun _ _ => False
  | signers => SetEdit
  | recents => EntriesEdit fun _ _ => False
  | votes => ItemsEdit (RecordEdit added Vote.fieldNames)
  | tally => EntriesEdit (RecordEdit added Tally.fieldNames)
  | quorumVotes => ItemsEdit (RecordEdit added QuorumVote.fieldNames)
  | quorumTally => EntriesEdit (RecordEdit added QuorumTally.fieldNames)
  | quorumCooldowns => EntriesEdit (RecordEdit added QuorumCooldown.fieldNames)

/-- What a field has if it may be missing. -/
def Field.default? : Field → Option Json
  | number | hash | signers => none
  | recents | tally | quorumTally | quorumCooldowns => some (.object [])
  | votes | quorumVotes => some (.array [])
  | quorumPercent => some (.ofNat defaultQuorumPercent.toNat)

namespace Field

variable {s : Snapshot} {f g : Field} {added : List UInt8 → Prop} {x y : Json}

theorem name_mem (f : Field) : f.name ∈ fieldNames := by
  cases f <;> decide

theorem eq_of_name_eq (h : f.name = g.name) : f = g := by
  cases f <;> cases g <;> first | rfl | exact absurd h (by decide)

theorem isValid_of_edit (h : f.Edit added x y) (hx : x.IsValid) : y.IsValid := by
  cases f with
  | number | hash | quorumPercent => exact h.elim
  | signers => exact SetEdit.isValid h hx
  | recents => exact EntriesEdit.isValid (fun _ _ h => h.elim) h hx
  | votes | quorumVotes => exact ItemsEdit.isValid (fun _ _ => RecordEdit.isValid) h hx
  | tally | quorumTally | quorumCooldowns =>
    exact EntriesEdit.isValid (fun _ _ => RecordEdit.isValid) h hx

/-- An edited field is read as it was. -/
theorem reads_of_edit (hadded : ∀ name, added name → IsText name) (h : f.Edit added x y)
    (hx : f.Reads s (some x)) : f.Reads s (some y) := by
  cases f with
  | number | hash | quorumPercent => exact h.elim
  | signers => exact SetEdit.exists_list? h hx
  | recents => exact EntriesEdit.exists_entries? (fun _ _ _ h => h.elim) h hx
  | votes => exact ItemsEdit.list?_eq (Vote.readsRecord.read_of_edit hadded) h hx
  | tally => exact EntriesEdit.exists_entries? (Tally.readsRecord.read_of_edit hadded) h hx
  | quorumVotes => exact ItemsEdit.list?_eq (QuorumVote.readsRecord.read_of_edit hadded) h hx
  | quorumTally =>
    exact EntriesEdit.exists_entries? (QuorumTally.readsRecord.read_of_edit hadded) h hx
  | quorumCooldowns =>
    exact EntriesEdit.exists_entries? (QuorumCooldown.readsRecord.read_of_edit hadded) h hx

/-- A field that is missing is read as if it had its default. -/
theorem reads_none (h : f.default? = some x) (hx : f.Reads s (some x)) : f.Reads s none := by
  cases f with
  | number | hash | signers => cases h
  | quorumPercent =>
    obtain rfl := Option.some.inj h
    exact (word?_ofNat defaultQuorumPercent).symm.trans hx
  | _ =>
    -- An empty mapping and an empty list are read as what stands for a missing one.
    obtain rfl := Option.some.inj h
    exact hx

end Field

/-! ## Edits of a snapshot -/

/-- One edit of a stored snapshot: of the record as such, of one of its fields, or that a field is
    left out that has its default. -/
inductive Edit (added : List UInt8 → Prop) : Json → Json → Prop
  | record {v w : Json} (h : RecordEdit added fieldNames v w) : Edit added v w
  | field {before after : List (List UInt8 × Json)} {name : List UInt8} {x y : Json} (f : Field)
      (hname : unquote? name = some f.name) (h : f.Edit added x y) :
      Edit added (.object (before ++ (name, x) :: after)) (.object (before ++ (name, y) :: after))
  | drop {before after : List (List UInt8 × Json)} {name : List UInt8} {x : Json} (f : Field)
      (hname : unquote? name = some f.name) (h : f.default? = some x) :
      Edit added (.object (before ++ (name, x) :: after)) (.object (before ++ after))

variable {s : Snapshot} {added : List UInt8 → Prop} {v w : Json}

theorem Edit.isValid (h : Edit added v w) (hv : v.IsValid) : w.IsValid := by
  cases h with
  | record h => exact h.isValid hv
  | field f _ h =>
    obtain ⟨⟨hname, hx⟩, hrest⟩ := isValid_insert_iff.1 hv
    exact isValid_insert_iff.2 ⟨⟨hname, Field.isValid_of_edit h hx⟩, hrest⟩
  | drop => exact (isValid_insert_iff.1 hv).2

theorem readFrom_iff :
    s.ReadFrom v ↔ HoldsFields fieldNames Field.name (fun f held => f.Reads s held) v := Iff.rfl

/-- An edit leaves the snapshot that is read, if the names that are added are texts. -/
theorem Edit.readFrom (hadded : ∀ name, added name → IsText name) (h : Edit added v w)
    (hv : s.ReadFrom v) : s.ReadFrom w := by
  have hinj : Field.name.Injective := fun _ _ => Field.eq_of_name_eq
  rw [readFrom_iff] at hv ⊢
  cases h with
  | record h => exact hv.edit hadded h
  | @field _ _ _ _ y f hname h =>
    exact hv.set hinj f.name_mem hname (some y) (Field.reads_of_edit hadded h)
  | drop f hname h => exact hv.set hinj f.name_mem hname none (Field.reads_none h)

/-- A text that lays out the document of a snapshot after any number of edits. -/
def Rewritten (added : List UInt8 → Prop) (s : Snapshot) (text : List UInt8) : Prop :=
  ∃ order v, Relation.ReflTransGen (Edit added) (s.document order) v ∧ Layout v.tokens text

/-- Any number of edits leave a valid value from which the snapshot is read. -/
theorem readFrom_of_edits (hadded : ∀ name, added name → IsText name) {order : s.Arrangement}
    (h : Relation.ReflTransGen (Edit added) (s.document order) v) :
    v.IsValid ∧ s.ReadFrom v := by
  induction h with
  | refl => exact ⟨isValid_document, readFrom_document⟩
  | tail _ hedit ih => exact ⟨hedit.isValid ih.1, hedit.readFrom hadded ih.2⟩

/-- A snapshot is loaded from every text of it to which only members were added whose names are
    texts and none of the fields. -/
theorem load_rewritten {text : List UInt8} (h : s.Rewritten IsText text) (memory : MemoryStore)
    (hheld : memory.get? (storeKey s.hash) = some text) (config : Config) :
    (load config s.hash).run.run memory = (.ok { s with config }, memory) := by
  obtain ⟨order, v, hedits, htext⟩ := h
  obtain ⟨hvalid, hread⟩ := readFrom_of_edits (fun _ hname => hname) hedits
  have hdecode : decode? config text = some { s with config } := by
    rw [decode?, parse?_of_layout hvalid htext]
    exact ofJson?_of_readFrom hread
  rw [run_load, hheld, ofStored, hdecode]
  simp

/-- A member called `config` comes in, the second signer comes first and last, what was recent is
    left out, and a blank stands before it all. -/
theorem load_rewritten_extended :
    let s := ofSigners {} 7 (.replicate 32 1) [.ofLow64 1, .ofLow64 2]
    let v : Json := .ofMembers
      [("config", .object []),
        ("number", .ofNat 7),
        ("hash", .ofText (Hex.encode (.replicate 32 1))),
        ("signers", .array ([2, 1, 2].map fun n => .ofAddress (.ofLow64 n))),
        ("votes", .array []),
        ("tally", .object []),
        ("quorumPercent", .ofNat 50),
        ("quorumVotes", .array []),
        ("quorumTally", .object []),
        ("quorumCooldowns", .object [])]
    let text := ' '.toUInt8 :: v.render
    let config : Config := { quorumPercent := 60 }
    let memory := MemoryStore.empty.insert (storeKey s.hash) text
    s.Rewritten IsText text ∧
      (load config s.hash).run.run memory = (.ok { s with config }, memory) := by
  intro s v text config memory
  have hsigners : [Address.ofLow64 1, .ofLow64 2].Perm s.signers.toList := by decide +kernel
  let order : s.Arrangement :=
    { signers := [.ofLow64 1, .ofLow64 2], recents := [], tally := [], quorumTally := []
      quorumCooldowns := [], signers_perm := hsigners, recents_perm := .refl _
      tally_perm := .refl _, quorumTally_perm := .refl _, quorumCooldowns_perm := .refl _ }
  let member : String × Json → List UInt8 × Json := Prod.map Bytes.ofString id
  let front := (s.fields order).take 2 |>.map member
  let signers := member ("signers", .array ([1, 2].map fun n => .ofAddress (.ofLow64 n)))
  let repeated := member ("signers", .array ([2, 1, 2].map fun n => .ofAddress (.ofLow64 n)))
  let back := (s.fields order).drop 4 |>.map member
  have hrecents : Edit IsText
      (.object ((front ++ [signers]) ++ member ("recents", .object []) :: back))
      (.object ((front ++ [signers]) ++ back)) :=
    .drop .recents (unquote?_ofString (by decide)) rfl
  have hrepeated : Edit IsText (.object (front ++ signers :: back))
      (.object (front ++ repeated :: back)) :=
    .field .signers (unquote?_ofString (by decide)) (.items (by simp))
  have hconfig : Edit IsText (.object ([] ++ (front ++ repeated :: back)))
      (.object ([] ++ member ("config", .object []) :: (front ++ repeated :: back))) := by
    have hplain : IsPlain (Bytes.ofString "config") := by decide
    exact .record (.add (isQuotable_of_isPlain hplain) (isForeign_ofString hplain (by decide))
      (isText_ofString hplain) (isValid_object_iff.2 nofun))
  have hblank : ∀ b ∈ [' '.toUInt8], isBlank b = true := List.forall_mem_singleton.2 rfl
  have hrewritten : s.Rewritten IsText text :=
    ⟨order, v, .tail (.tail (.single hrecents) hrepeated) hconfig,
      .cons hblank (layout_flatMap _)⟩
  refine ⟨hrewritten, load_rewritten hrewritten memory ?_ config⟩
  rw [MemoryStore.get?_insert, if_pos rfl]

/-- Between the quotes of a name may stand half of a pair of surrogates. Then it is the name of no
    field, but its member is not passed over either. -/
theorem not_forall_load_rewritten :
    ¬ ∀ (s : Snapshot) (text : List UInt8) (memory : MemoryStore) (config : Config),
      s.Rewritten (fun name => ∃ t, name = Bytes.ofString t) text →
        memory.get? (storeKey s.hash) = some text →
        (load config s.hash).run.run memory = (.ok { s with config }, memory) := by
  intro h
  let s := ofSigners {} 7 (.replicate 32 1) [.ofLow64 1, .ofLow64 2]
  let added : List UInt8 → Prop := fun name => ∃ t, name = Bytes.ofString t
  let name : List UInt8 := ['\\', 'u', 'd', '8', '0', '0'].map Char.toUInt8
  let members := (s.fields (.sorted s)).map (Prod.map Bytes.ofString id)
  let v : Json := .object ((name, .ofNat 0) :: members)
  have hunquote : unquote? name = none := by decide +kernel
  have hname : IsQuotable name := .unit (by decide) (by decide) (by decide) (by decide) .nil
  have hforeign : IsForeign fieldNames name := fun text htext => by
    rw [hunquote] at htext
    cases htext
  have hadded : added name := ⟨"\\ud800", by decide +kernel⟩
  have hedit : Edit added (.object ([] ++ members))
      (.object ([] ++ (name, .ofNat 0) :: members)) :=
    .record (.add hname hforeign hadded (isValid_ofNat 0))
  have hrecord : v.record? fieldNames = none :=
    record?_eq_none List.mem_cons_self (by simp [IsText, hunquote])
  have hdocument : (s.document (.sorted s)).IsValid := isValid_document
  have hvalid : v.IsValid := hedit.isValid hdocument
  have hdecode : decode? {} v.render = none := by
    rw [decode?, parse?_render hvalid, Option.bind_eq_bind, Option.bind_some, ofJson?, hrecord]
    rfl
  have hload := h s v.render (MemoryStore.empty.insert (storeKey s.hash) v.render) {}
    ⟨.sorted s, v, .single hedit, layout_flatMap _⟩ (by rw [MemoryStore.get?_insert, if_pos rfl])
  rw [run_load, MemoryStore.get?_insert, if_pos rfl, ofStored, hdecode] at hload
  cases hload

end Snapshot

end SignerVoting
