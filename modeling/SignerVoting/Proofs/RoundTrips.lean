import Mathlib.Logic.Relation
import SignerVoting.Config.Document
import SignerVoting.Header.Document
import SignerVoting.Proofs.Edits

/-!
# Texts of headers and of configurations

A header is read back from its text, whatever its bytes and numbers are, and so keeps its hashes. So
is a configuration, from its own text and from others: of the members of its record those may be
left out that have their defaults, and others may be there as well, as long as their names are texts
and none of the fields. An `Edit` is one such difference, and any number of them leave the
configuration that is read (`Config.decode?_rewritten`).
-/

namespace SignerVoting

open Json

/-! ## Bytes -/

namespace Json

@[simp] theorem isValid_ofBytes (bytes : List UInt8) : (ofBytes bytes).IsValid := by
  have hbyte : ∀ b : UInt8, (ofNat b.toNat).IsValid := fun b => isValid_ofNat b.toNat
  exact isValid_map hbyte bytes

@[simp] theorem byte?_ofNat (b : UInt8) : (ofNat b.toNat).byte? = some b := by
  simp [byte?, ofNat, Decimal.value?_digits, b.toNat_lt]

@[simp] theorem list?_ofBytes (bytes : List UInt8) : (ofBytes bytes).list? byte? = some bytes :=
  list?_map byte?_ofNat bytes

@[simp] theorem bytes?_ofBytes {n : Nat} (v : Vector UInt8 n) :
    (ofBytes v.toList).bytes? n = some v := by
  simp [bytes?]

end Json

/-! ## Headers -/

namespace Header

theorem isValid_toJson (h : Header) : h.toJson.IsValid :=
  isValid_ofMembers fieldNames rfl (by decide) (by simp)

theorem ofJson?_toJson (h : Header) : ofJson? h.toJson = some h := by
  have hrecord : h.toJson.record? fieldNames = some _ :=
    record?_ofMembers rfl (by decide) (by decide)
  simp [ofJson?, hrecord, Record.required, List.lookup_cons]

/-- A header is read back from its text. -/
theorem decode?_encode (h : Header) : decode? h.encode = some h := by
  rw [decode?, encode, parse?_render h.isValid_toJson]
  exact h.ofJson?_toJson

end Header

/-! ## Configurations -/

namespace Config

/-- The fields of a configuration. -/
inductive Field
  | epoch
  | checkpointInterval
  | snapshotsInMemory
  | signersRemembered
  | quorumPercent
  | signers

namespace Field

/-- The name under which a field is written. -/
def name : Field → String
  | epoch => "epoch"
  | checkpointInterval => "checkpoint_interval"
  | snapshotsInMemory => "inmemory_snapshots"
  | signersRemembered => "signature_cache_size"
  | quorumPercent => "quorum_percent"
  | signers => "signers"

/-- What is held as a field is read as what the configuration has there, and a missing field as its
    default. -/
def Reads (c : Config) : Field → Option Json → Prop
  | epoch, held => held.elim (some ({} : Config).epoch) word? = some c.epoch
  | checkpointInterval, held =>
    held.elim (some ({} : Config).checkpointInterval) word? = some c.checkpointInterval
  | snapshotsInMemory, held =>
    held.elim (some ({} : Config).snapshotsInMemory) word? = some c.snapshotsInMemory
  | signersRemembered, held =>
    held.elim (some ({} : Config).signersRemembered) word? = some c.signersRemembered
  | quorumPercent, held =>
    held.elim (some ({} : Config).quorumPercent) word? = some c.quorumPercent
  | signers, held => held.elim (some ({} : Config).signers) (list? address?) = some c.signers

theorem name_mem (f : Field) : f.name ∈ fieldNames := by
  cases f <;> decide

theorem name_injective : name.Injective := by
  intro f g h
  cases f <;> cases g <;> first | rfl | exact absurd h (by decide)

/-- A field that has its default may as well be missing. -/
theorem reads_none {c : Config} {f : Field} {x : Json} (hdefault : f.Reads {} (some x))
    (hx : f.Reads c (some x)) : f.Reads c none := by
  cases f <;> exact hdefault.symm.trans hx

end Field

/-- A record of which every field is read as what the configuration has there. -/
def ReadFrom (c : Config) : Json → Prop := HoldsFields fieldNames Field.name fun f => f.Reads c

variable {c : Config} {added : List UInt8 → Prop} {v w : Json}

theorem isValid_toJson (c : Config) : c.toJson.IsValid :=
  isValid_ofMembers fieldNames rfl (by decide) (by simp [isValid_map])

theorem readFrom_toJson (c : Config) : c.ReadFrom c.toJson := by
  refine ⟨_, record?_ofMembers rfl (by decide) (by decide), fun f => ?_⟩
  cases f with
  | signers => exact list?_map address?_ofAddress _
  | _ => exact word?_ofNat _

/-- The fields make up the configuration. -/
theorem ofJson?_of_readFrom (h : c.ReadFrom v) : ofJson? v = some c := by
  obtain ⟨r, hrecord, hfields⟩ := h
  have hepoch := (r.optional_eq ..).trans (hfields .epoch)
  have hinterval := (r.optional_eq ..).trans (hfields .checkpointInterval)
  have hsnapshots := (r.optional_eq ..).trans (hfields .snapshotsInMemory)
  have hremembered := (r.optional_eq ..).trans (hfields .signersRemembered)
  have hpercent := (r.optional_eq ..).trans (hfields .quorumPercent)
  have hsigners := (r.optional_eq ..).trans (hfields .signers)
  simp only [Field.name] at hepoch hinterval hsnapshots hremembered hpercent hsigners
  simp only [ofJson?, hrecord, hepoch, hinterval, hsnapshots, hremembered, hpercent, hsigners,
    Option.bind_eq_bind, Option.bind_some, Option.pure_def]

/-! ## Edits of a configuration -/

/-- One edit of a configuration that is written: of the record as such, or that a field is left out
    that has its default. -/
inductive Edit (added : List UInt8 → Prop) : Json → Json → Prop
  | record {v w : Json} (h : RecordEdit added fieldNames v w) : Edit added v w
  | drop {before after : List (List UInt8 × Json)} {name : List UInt8} {x : Json} (f : Field)
      (hname : unquote? name = some f.name) (h : f.Reads {} (some x)) :
      Edit added (.object (before ++ (name, x) :: after)) (.object (before ++ after))

theorem Edit.isValid (h : Edit added v w) (hv : v.IsValid) : w.IsValid := by
  cases h with
  | record h => exact h.isValid hv
  | drop => exact (isValid_insert_iff.1 hv).2

/-- An edit leaves the configuration that is read, if the names that are added are texts. -/
theorem Edit.readFrom (hadded : ∀ name, added name → IsText name) (h : Edit added v w)
    (hv : c.ReadFrom v) : c.ReadFrom w := by
  cases h with
  | record h => exact HoldsFields.edit hadded h hv
  | drop f hname h =>
    exact HoldsFields.set Field.name_injective f.name_mem hname none (Field.reads_none h) hv

/-- A text that lays out the record of a configuration after any number of edits. -/
def Rewritten (added : List UInt8 → Prop) (c : Config) (text : List UInt8) : Prop :=
  ∃ v, Relation.ReflTransGen (Edit added) c.toJson v ∧ Layout v.tokens text

/-- Any number of edits leave a valid value from which the configuration is read. -/
theorem readFrom_of_edits (hadded : ∀ name, added name → IsText name)
    (h : Relation.ReflTransGen (Edit added) c.toJson v) : v.IsValid ∧ c.ReadFrom v := by
  induction h with
  | refl => exact ⟨c.isValid_toJson, c.readFrom_toJson⟩
  | tail _ hedit ih => exact ⟨hedit.isValid ih.1, hedit.readFrom hadded ih.2⟩

/-- A configuration is read from every text of it. -/
theorem decode?_rewritten {text : List UInt8} (h : c.Rewritten IsText text) :
    decode? text = some c := by
  obtain ⟨v, hedits, htext⟩ := h
  obtain ⟨hvalid, hread⟩ := readFrom_of_edits (fun _ hname => hname) hedits
  rw [decode?, parse?_of_layout hvalid htext]
  exact ofJson?_of_readFrom hread

theorem rewritten_encode (c : Config) : c.Rewritten added c.encode :=
  ⟨c.toJson, .refl, layout_flatMap _⟩

end Config

/-! ## Both -/

/-- A header is read back from its text, with both of its hashes. A configuration is read back from
    its text, and from every text of it from which members were left out that have their defaults,
    and to which members were added whose names are texts and none of the fields. -/
theorem texts_read_back :
    (∀ h : Header, ∃ read, Header.decode? h.encode = some read ∧ read = h ∧
      read.hash = h.hash ∧ read.sealHash = h.sealHash) ∧
    ∀ c : Config, Config.decode? c.encode = some c ∧
      ∀ text, c.Rewritten IsText text → Config.decode? text = some c :=
  ⟨fun h => ⟨h, h.decode?_encode, rfl, rfl, rfl⟩, fun c =>
    ⟨Config.decode?_rewritten c.rewritten_encode, fun _ => Config.decode?_rewritten⟩⟩

/-- A configuration with an epoch and a list of signers of its own, one of them twice: a member
    called `comment` comes in, what has its default is left out, and a blank stands before it
    all. -/
theorem texts_read_back_sparse :
    let c : Config := { epoch := 7, signers := [.ofLow64 2, .ofLow64 1, .ofLow64 2] }
    let v : Json := .ofMembers
      [("comment", .null),
        ("epoch", .ofNat 7),
        ("signers", .array ([2, 1, 2].map fun n => .ofAddress (.ofLow64 n)))]
    let text := ' '.toUInt8 :: v.render
    c.Rewritten IsText text ∧ Config.decode? text = some c := by
  intro c v text
  let member : String × Json → List UInt8 × Json := Prod.map Bytes.ofString id
  let epoch := member ("epoch", .ofNat 7)
  let interval := member ("checkpoint_interval", .ofNat 1024)
  let snapshots := member ("inmemory_snapshots", .ofNat 128)
  let remembered := member ("signature_cache_size", .ofNat 4096)
  let percent := member ("quorum_percent", .ofNat 50)
  let signers := member ("signers", .array ([2, 1, 2].map fun n => .ofAddress (.ofLow64 n)))
  have hinterval : Config.Edit IsText
      (.object ([epoch] ++ interval :: [snapshots, remembered, percent, signers]))
      (.object ([epoch] ++ [snapshots, remembered, percent, signers])) :=
    .drop .checkpointInterval (unquote?_ofString (by decide)) (word?_ofNat 1024)
  have hsnapshots : Config.Edit IsText
      (.object ([epoch] ++ snapshots :: [remembered, percent, signers]))
      (.object ([epoch] ++ [remembered, percent, signers])) :=
    .drop .snapshotsInMemory (unquote?_ofString (by decide)) (word?_ofNat 128)
  have hremembered : Config.Edit IsText (.object ([epoch] ++ remembered :: [percent, signers]))
      (.object ([epoch] ++ [percent, signers])) :=
    .drop .signersRemembered (unquote?_ofString (by decide)) (word?_ofNat 4096)
  have hpercent : Config.Edit IsText (.object ([epoch] ++ percent :: [signers]))
      (.object ([epoch] ++ [signers])) :=
    .drop .quorumPercent (unquote?_ofString (by decide)) (word?_ofNat 50)
  have hcomment : Config.Edit IsText (.object ([] ++ [epoch, signers]))
      (.object ([] ++ member ("comment", .null) :: [epoch, signers])) := by
    have hplain : IsPlain (Bytes.ofString "comment") := by decide
    exact .record (.add (isQuotable_of_isPlain hplain) (isForeign_ofString hplain (by decide))
      (isText_ofString hplain) (List.forall_mem_singleton.2 trivial))
  have hblank : ∀ b ∈ [' '.toUInt8], isBlank b = true := List.forall_mem_singleton.2 rfl
  have hrewritten : c.Rewritten IsText text :=
    ⟨v, .tail (.tail (.tail (.tail (.single hinterval) hsnapshots) hremembered) hpercent) hcomment,
      .cons hblank (layout_flatMap _)⟩
  exact ⟨hrewritten, (texts_read_back.2 c).2 text hrewritten⟩

/-- Between the quotes of a name may stand half of a pair of surrogates. Then it is the name of no
    field, but its member is not passed over either. -/
theorem not_forall_rewritten_read_back :
    ¬ ∀ (c : Config) (text : List UInt8),
      c.Rewritten (fun name => ∃ t, name = Bytes.ofString t) text →
        Config.decode? text = some c := by
  intro h
  let c : Config := { signers := [.ofLow64 1] }
  let added : List UInt8 → Prop := fun name => ∃ t, name = Bytes.ofString t
  let name : List UInt8 := ['\\', 'u', 'd', '8', '0', '0'].map Char.toUInt8
  obtain ⟨members, hmembers⟩ : ∃ members, c.toJson = .object members := ⟨_, rfl⟩
  let v : Json := .object ((name, .ofNat 0) :: members)
  have hunquote : unquote? name = none := by decide +kernel
  have hname : IsQuotable name := .unit (by decide) (by decide) (by decide) (by decide) .nil
  have hforeign : IsForeign Config.fieldNames name := fun text htext => by
    rw [hunquote] at htext
    cases htext
  have hadded : added name := ⟨"\\ud800", by decide +kernel⟩
  have hedit : Config.Edit added (.object ([] ++ members))
      (.object ([] ++ (name, .ofNat 0) :: members)) :=
    .record (.add hname hforeign hadded (isValid_ofNat 0))
  have hvalid : v.IsValid := hedit.isValid (hmembers ▸ c.isValid_toJson)
  have hrecord : v.record? Config.fieldNames = none :=
    record?_eq_none List.mem_cons_self (by simp [IsText, hunquote])
  have hdecode := h c v.render ⟨v, hmembers ▸ .single hedit, layout_flatMap _⟩
  rw [Config.decode?, parse?_render hvalid, Option.bind_eq_bind, Option.bind_some, Config.ofJson?,
    hrecord] at hdecode
  cases hdecode

end SignerVoting
