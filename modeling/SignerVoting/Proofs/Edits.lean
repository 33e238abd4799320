import SignerVoting.Proofs.Documents

/-!
# Edits of JSON values

The same content can be written as different values. A record is found by the names of its members
(`RecordEdit`), a mapping by those of its entries (`EntriesEdit`), and a set is its items, in any
order and number (`SetEdit`). Each kind of edit keeps a value valid, and keeps what is read from it:
the fields of a record, the entries of a mapping up to their order, the items of a set.

The names that may be added to a record are a parameter. A reader takes the name of every member for
a text, so that it needs `IsText` of them all, those that it passes over as well.
-/

namespace SignerVoting

namespace Json

/-! ## Reading item by item -/

section Items

variable {α β : Type} {read : α → Option β} {as as' : List α} {bs : List β}

theorem exists_mapM_of_perm (h : as'.Perm as) (hread : as.mapM read = some bs) :
    ∃ bs', as'.mapM read = some bs' ∧ bs'.Perm bs := by
  obtain ⟨hall, rfl⟩ := mapM_eq_some_iff.1 hread
  exact ⟨_, mapM_eq_some_iff.2 ⟨fun a ha => hall a (h.mem_iff.1 ha), rfl⟩, h.filterMap read⟩

theorem exists_mapM_of_mem_iff (h : ∀ a, a ∈ as' ↔ a ∈ as) (hread : as.mapM read = some bs) :
    ∃ bs', as'.mapM read = some bs' ∧ ∀ b, b ∈ bs' ↔ b ∈ bs := by
  obtain ⟨hall, rfl⟩ := mapM_eq_some_iff.1 hread
  refine ⟨_, mapM_eq_some_iff.2 ⟨fun a ha => hall a ((h a).1 ha), rfl⟩, fun b => ?_⟩
  simp [List.mem_filterMap, h]

/-- An item may be replaced by one that is read as the same. -/
theorem mapM_replace {before after : List α} {x y : α}
    (h : ∀ b, read x = some b → read y = some b)
    (hread : (before ++ x :: after).mapM read = some bs) :
    (before ++ y :: after).mapM read = some bs := by
  obtain ⟨b, hb⟩ := Option.isSome_iff_exists.1 ((mapM_eq_some_iff.1 hread).1 x (by simp))
  rw [← hread]
  simp [List.mapM_append, List.mapM_cons, hb, h b hb]

end Items

/-! ## Records -/

/-- A name that is none of these. -/
def IsForeign (names : List String) (name : List UInt8) : Prop :=
  ∀ text, unquote? name = some text → text ∉ names

/-- One edit of a record: its members come in another order, or a member comes in that is none of
    its fields, or such a member gets another value. -/
inductive RecordEdit (added : List UInt8 → Prop) (names : List String) : Json → Json → Prop
  | reorder {members members' : List (List UInt8 × Json)} (h : members'.Perm members) :
      RecordEdit added names (object members) (object members')
  | add {before after : List (List UInt8 × Json)} {name : List UInt8} {value : Json}
      (hname : IsQuotable name) (hforeign : IsForeign names name) (hadded : added name)
      (hvalue : value.IsValid) :
      RecordEdit added names (object (before ++ after)) (object (before ++ (name, value) :: after))
  | alter {before after : List (List UInt8 × Json)} {name : List UInt8} {x y : Json}
      (hforeign : IsForeign names name) (hvalue : y.IsValid) :
      RecordEdit added names (object (before ++ (name, x) :: after))
        (object (before ++ (name, y) :: after))

section Records

variable {names : List String} {added : List UInt8 → Prop} {v w : Json} {r r' : Record}
  {before after : List (List UInt8 × Json)} {name : List UInt8} {x y : Json} {text : String}

theorem isForeign_ofString (h : IsPlain (Bytes.ofString text)) (hmem : text ∉ names) :
    IsForeign names (Bytes.ofString text) := by
  intro read hread
  rw [unquote?_ofString h] at hread
  exact Option.some.inj hread ▸ hmem

theorem forall_mem_insert_iff {α : Type} {P : α → Prop} {as bs : List α} {a : α} :
    (∀ b ∈ as ++ a :: bs, P b) ↔ P a ∧ ∀ b ∈ as ++ bs, P b := by
  simp only [List.forall_mem_append, List.forall_mem_cons]
  tauto

theorem isValid_insert_iff :
    (object (before ++ (name, x) :: after)).IsValid ↔
      (IsQuotable name ∧ x.IsValid) ∧ (object (before ++ after)).IsValid := by
  rw [isValid_object_iff, isValid_object_iff, forall_mem_insert_iff]

theorem isValid_object_of_perm {members members' : List (List UInt8 × Json)}
    (h : members'.Perm members) (hvalid : (object members).IsValid) : (object members').IsValid :=
  isValid_object_iff.2 fun member hmember =>
    isValid_object_iff.1 hvalid member (h.mem_iff.1 hmember)

theorem RecordEdit.isValid (h : RecordEdit added names v w) (hv : v.IsValid) : w.IsValid := by
  cases h with
  | reorder h => exact isValid_object_of_perm h hv
  | add hname _ _ hvalue => exact isValid_insert_iff.2 ⟨⟨hname, hvalue⟩, hv⟩
  | alter _ hvalue =>
    obtain ⟨⟨hname, -⟩, hrest⟩ := isValid_insert_iff.1 hv
    exact isValid_insert_iff.2 ⟨⟨hname, hvalue⟩, hrest⟩

theorem field?_of_isForeign (h : IsForeign names name) : field? names (name, x) = none := by
  rw [field?]
  cases htext : unquote? name with
  | none => rfl
  | some text => exact if_neg (h text htext)

theorem lookup_eq_none (h : text ∉ r.map Prod.fst) : r.lookup text = none :=
  List.lookup_eq_none_iff.2 fun field hfield => bne_iff_ne.2 fun heq =>
    h (List.mem_map.2 ⟨field, hfield, heq.symm⟩)

theorem lookup_eq_some_iff_mem (hnodup : (r.map Prod.fst).Nodup) :
    r.lookup text = some x ↔ (text, x) ∈ r := by
  induction r with
  | nil => simp
  | cons member r ih =>
    obtain ⟨key, value⟩ := member
    rw [List.map_cons, List.nodup_cons] at hnodup
    rw [List.lookup_cons, List.mem_cons, ← ih hnodup.2]
    by_cases hkey : text = key
    · subst hkey
      simp [lookup_eq_none hnodup.1, eq_comm]
    · simp [hkey, beq_eq_false_iff_ne.2 hkey]

/-- In what order its fields come does not matter to a record. -/
theorem lookup_eq_of_perm (hnodup : (r.map Prod.fst).Nodup) (h : r'.Perm r) :
    r'.lookup text = r.lookup text := by
  have hnodup' : (r'.map Prod.fst).Nodup := (h.map _).nodup_iff.2 hnodup
  refine Option.ext fun x => ?_
  rw [lookup_eq_some_iff_mem hnodup', lookup_eq_some_iff_mem hnodup, h.mem_iff]

/-- A member that is none of the fields is passed over. -/
theorem record?_insert_of_isForeign (hname : IsText name) (hforeign : IsForeign names name) :
    (object (before ++ (name, x) :: after)).record? names =
      (object (before ++ after)).record? names := by
  refine Option.ext fun r => ?_
  rw [record?_object_iff, record?_object_iff, forall_mem_insert_iff, List.filterMap_append,
    List.filterMap_cons_none (field?_of_isForeign hforeign), ← List.filterMap_append,
    and_iff_right hname]

/-- An edit leaves every field as it is, if the names that are added are texts. -/
theorem RecordEdit.exists_record? (hadded : ∀ name, added name → IsText name)
    (h : RecordEdit added names v w) (hr : v.record? names = some r) :
    ∃ r', w.record? names = some r' ∧ ∀ text, r'.lookup text = r.lookup text := by
  cases h with
  | reorder h =>
    obtain ⟨htexts, rfl, hnodup⟩ := record?_object_iff.1 hr
    have hfields := h.filterMap (field? names)
    have hnodup' := (hfields.map Prod.fst).nodup_iff.2 hnodup
    exact ⟨_, record?_object_iff.2 ⟨fun member hmember => htexts member (h.mem_iff.1 hmember), rfl,
      hnodup'⟩, fun _ => lookup_eq_of_perm hnodup hfields⟩
  | add _ hforeign hname _ =>
    exact ⟨r, (record?_insert_of_isForeign (hadded _ hname) hforeign).trans hr, fun _ => rfl⟩
  | @alter before after name x y hforeign _ =>
    have hname : IsText name := (record?_object_iff.1 hr).1 (name, x) (by simp)
    rw [record?_insert_of_isForeign hname hforeign] at hr
    exact ⟨r, (record?_insert_of_isForeign hname hforeign).trans hr, fun _ => rfl⟩

/-- A field may be given another value, or none. -/
theorem exists_record?_set (hname : unquote? name = some text) (hmem : text ∈ names)
    (hr : (object (before ++ (name, x) :: after)).record? names = some r) (held : Option Json) :
    ∃ r', (object (before ++ (held.toList.map (Prod.mk name) ++ after))).record? names = some r' ∧
      r'.lookup text = held ∧ ∀ other, other ≠ text → r'.lookup other = r.lookup other := by
  obtain ⟨htexts, rfl, hnodup⟩ := record?_object_iff.1 hr
  rw [forall_mem_insert_iff] at htexts
  rw [List.filterMap_append, List.filterMap_cons_some (field?_of_unquote? hname hmem)] at hnodup ⊢
  -- No field comes twice, so this one stands at its place alone, and setting it moves no other.
  have hmiddle := hnodup
  rw [(List.perm_middle.map Prod.fst).nodup_iff, List.map_cons, List.nodup_cons, List.map_append,
    List.mem_append, not_or] at hmiddle
  obtain ⟨⟨hbefore, hafter⟩, hrest⟩ := hmiddle
  refine ⟨_, record?_object_iff.2 ⟨?_, rfl, ?_⟩, ?_, fun other hother => ?_⟩
  · cases held with
    | none => exact htexts.2
    | some y => exact forall_mem_insert_iff.2 htexts
  · cases held with
    | none => simpa using hrest
    | some y => simpa [field?_of_unquote? hname hmem] using hnodup
  · cases held <;>
      simp [field?_of_unquote? hname hmem, List.lookup_append, lookup_eq_none hbefore,
        lookup_eq_none hafter]
  · have hne : (other == text) = false := beq_eq_false_iff_ne.2 hother
    cases held <;> simp [field?_of_unquote? hname hmem, List.lookup_append, List.lookup_cons, hne]

/-- A reader that looks at nothing but the fields of a record, whatever their order. -/
def ReadsRecord {α : Type} (names : List String) (read : Json → Option α) : Prop :=
  ∃ build : Record → Option α, (∀ v, read v = (v.record? names).bind build) ∧
    ∀ r r', (∀ text, r'.lookup text = r.lookup text) → build r' = build r

theorem ReadsRecord.read_of_edit {α : Type} {read : Json → Option α}
    (hread : ReadsRecord names read) (hadded : ∀ name, added name → IsText name) (v w : Json)
    (a : α) (h : RecordEdit added names v w) (hv : read v = some a) : read w = some a := by
  obtain ⟨build, hbuild, hlookups⟩ := hread
  rw [hbuild] at hv
  obtain ⟨r, hr, hv⟩ := Option.bind_eq_some_iff.1 hv
  obtain ⟨r', hr', hlookup⟩ := h.exists_record? hadded hr
  rw [hbuild, hr', Option.bind_some, hlookups r r' hlookup, hv]

/-- A record of which each field, found under its name, holds what it should, or is missing where it
    may be. -/
def HoldsFields {ι : Type} (names : List String) (name : ι → String)
    (holds : ι → Option Json → Prop) (v : Json) : Prop :=
  ∃ r, v.record? names = some r ∧ ∀ f, holds f (r.lookup (name f))

section Fields

variable {ι : Type} {nameOf : ι → String} {holds : ι → Option Json → Prop} {f : ι}

theorem HoldsFields.edit (hadded : ∀ name, added name → IsText name)
    (h : RecordEdit added names v w) (hv : HoldsFields names nameOf holds v) :
    HoldsFields names nameOf holds w := by
  obtain ⟨r, hr, hfields⟩ := hv
  obtain ⟨r', hr', hlookup⟩ := h.exists_record? hadded hr
  refine ⟨r', hr', fun f => ?_⟩
  rw [hlookup]
  exact hfields f

/-- What is held as a field may be replaced by what may be held there as well, if no other field has
    the same name. -/
theorem HoldsFields.set (hinj : nameOf.Injective) (hmem : nameOf f ∈ names)
    (hname : unquote? name = some (nameOf f)) (held : Option Json)
    (hheld : holds f (some x) → holds f held)
    (hv : HoldsFields names nameOf holds (object (before ++ (name, x) :: after))) :
    HoldsFields names nameOf holds
      (object (before ++ (held.toList.map (Prod.mk name) ++ after))) := by
  obtain ⟨r, hr, hfields⟩ := hv
  -- Setting the field to what it is already shows what the record has under its name.
  have hx : r.lookup (nameOf f) = some x := by
    obtain ⟨r', hr', hlookup, -⟩ := exists_record?_set hname hmem hr (some x)
    obtain rfl := Option.some.inj (hr.symm.trans hr')
    exact hlookup
  obtain ⟨r', hr', hlookup, hothers⟩ := exists_record?_set hname hmem hr held
  refine ⟨r', hr', fun g => ?_⟩
  by_cases hfield : nameOf g = nameOf f
  · obtain rfl := hinj hfield
    rw [hlookup]
    exact hheld (hx ▸ hfields g)
  · rw [hothers _ hfield]
    exact hfields g

end Fields

end Records

/-! ## Mappings, lists and sets -/

/-- One edit of a mapping: its entries come in another order, or the value of one is edited. -/
inductive EntriesEdit (edit : Json → Json → Prop) : Json → Json → Prop
  | reorder {members members' : List (List UInt8 × Json)} (h : members'.Perm members) :
      EntriesEdit edit (object members) (object members')
  | value {before after : List (List UInt8 × Json)} {name : List UInt8} {x y : Json}
      (h : edit x y) :
      EntriesEdit edit (object (before ++ (name, x) :: after))
        (object (before ++ (name, y) :: after))

/-- One edit of a list: that of one of its items. -/
inductive ItemsEdit (edit : Json → Json → Prop) : Json → Json → Prop
  | item {before after : List Json} {x y : Json} (h : edit x y) :
      ItemsEdit edit (array (before ++ x :: after)) (array (before ++ y :: after))

/-- An edit of a set: its items come in another order, and each as often as one likes. -/
inductive SetEdit : Json → Json → Prop
  | items {items items' : List Json} (h : ∀ v, v ∈ items' ↔ v ∈ items) :
      SetEdit (array items) (array items')

section Collections

variable {α κ ν : Type} {edit : Json → Json → Prop} {v w : Json}

theorem EntriesEdit.isValid (hedit : ∀ x y, edit x y → x.IsValid → y.IsValid)
    (h : EntriesEdit edit v w) (hv : v.IsValid) : w.IsValid := by
  cases h with
  | reorder h => exact isValid_object_of_perm h hv
  | value h =>
    obtain ⟨⟨hname, hx⟩, hrest⟩ := isValid_insert_iff.1 hv
    exact isValid_insert_iff.2 ⟨⟨hname, hedit _ _ h hx⟩, hrest⟩

theorem ItemsEdit.isValid (hedit : ∀ x y, edit x y → x.IsValid → y.IsValid)
    (h : ItemsEdit edit v w) (hv : v.IsValid) : w.IsValid := by
  cases h with
  | item h =>
    rw [isValid_array_iff, forall_mem_insert_iff] at hv ⊢
    exact ⟨hedit _ _ h hv.1, hv.2⟩

theorem SetEdit.isValid (h : SetEdit v w) (hv : v.IsValid) : w.IsValid := by
  cases h with
  | items h =>
    rw [isValid_array_iff] at hv ⊢
    exact fun v hv' => hv v ((h v).1 hv')

/-- The same entries are read, in some order. -/
theorem EntriesEdit.exists_entries? {key? : List UInt8 → Option κ} {read : Json → Option ν}
    {held : List (κ × ν)} (hedit : ∀ x y a, edit x y → read x = some a → read y = some a)
    (h : EntriesEdit edit v w)
    (hv : ∃ entries, v.entries? key? read = some entries ∧ entries.Perm held) :
    ∃ entries, w.entries? key? read = some entries ∧ entries.Perm held := by
  obtain ⟨entries, hentries, hheld⟩ := hv
  cases h with
  | reorder h =>
    obtain ⟨entries', hentries', hperm⟩ := exists_mapM_of_perm h hentries
    exact ⟨entries', hentries', hperm.trans hheld⟩
  | value h =>
    refine ⟨entries, mapM_replace (fun entry hentry => ?_) hentries, hheld⟩
    simp only [Option.bind_eq_bind, Option.bind_eq_some_iff] at hentry ⊢
    obtain ⟨k, hk, a, ha, hentry⟩ := hentry
    exact ⟨k, hk, a, hedit _ _ a h ha, hentry⟩

/-- The same items are read, in their order. -/
theorem ItemsEdit.list?_eq {read : Json → Option α} {as : List α}
    (hedit : ∀ x y a, edit x y → read x = some a → read y = some a)
    (h : ItemsEdit edit v w) (hv : v.list? read = some as) : w.list? read = some as := by
  cases h with
  | item h => exact mapM_replace (fun a => hedit _ _ a h) hv

/-- The same items are read, in some order and number. -/
theorem SetEdit.exists_list? {read : Json → Option α} {held : α → Prop} (h : SetEdit v w)
    (hv : ∃ as, v.list? read = some as ∧ ∀ a, a ∈ as ↔ held a) :
    ∃ as, w.list? read = some as ∧ ∀ a, a ∈ as ↔ held a := by
  obtain ⟨as, has, hheld⟩ := hv
  cases h with
  | items h =>
    obtain ⟨as', has', hmem⟩ := exists_mapM_of_mem_iff h has
    exact ⟨as', has', fun a => (hmem a).trans (hheld a)⟩

end Collections

end Json

end SignerVoting
