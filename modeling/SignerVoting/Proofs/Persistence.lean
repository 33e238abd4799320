import SignerVoting.Proofs.Documents
import SignerVoting.Snapshot.Storage

/-!
# Persistence

In whatever order its sets and mappings are written, the text of a snapshot has one reading, the
snapshot without its configuration (`decode?_encode`), and so a snapshot that has been stored is the
one found under its hash, while what is found under another hash stays (`load_store`).
-/

namespace SignerVoting

/-! ## Contents in any order -/

section Contents

variable {κ ν : Type} [Ord κ] [Std.TransOrd κ] [Std.LawfulEqOrd κ] [BEq κ] [LawfulBEq κ]

/-- A set is put together from its elements, in whatever order and however often they come. -/
theorem ofList_eq_of_mem_iff {t : Std.ExtTreeSet κ} {elements : List κ}
    (h : ∀ k, k ∈ elements ↔ k ∈ t) : .ofList elements = t := by
  apply Std.ExtTreeSet.ext_mem
  intro k
  rw [Std.ExtTreeSet.mem_ofList, List.contains_iff_mem, h]

/-- A mapping is put together from its entries, in whatever order they come. -/
theorem ofList_eq_of_perm_entries {t : Std.ExtTreeMap κ ν} {entries : List (κ × ν)}
    (h : entries.Perm t.toList) : .ofList entries = t := by
  have hmem : ∀ k v, (k, v) ∈ entries ↔ t[k]? = some v := fun k v => by
    rw [h.mem_iff, Std.ExtTreeMap.mem_toList_iff_getElem?_eq_some]
  have hdistinct : entries.Pairwise fun a b => ¬compare a.1 b.1 = .eq :=
    (h.pairwise_iff fun hab hba => hab (Std.OrientedCmp.eq_symm hba)).2
      Std.ExtTreeMap.distinct_keys_toList
  apply Std.ExtTreeMap.ext_getElem?
  intro k
  cases hk : t[k]? with
  | some v =>
    exact Std.ExtTreeMap.getElem?_ofList_of_mem Std.ReflCmp.compare_self hdistinct ((hmem k v).2 hk)
  | none =>
    apply Std.ExtTreeMap.getElem?_ofList_of_contains_eq_false
    refine Bool.eq_false_iff.2 fun hcontains => ?_
    obtain ⟨⟨_, v⟩, hv, rfl⟩ := List.mem_map.1 (List.contains_iff_mem.1 hcontains)
    exact absurd ((hmem _ v).1 hv) (by simp [hk])

end Contents

namespace Snapshot

/-! ## Texts -/

variable {s : Snapshot} {config : Config} {order : s.Arrangement}

theorem addressOfName?_text (a : Address) : addressOfName? (Bytes.ofString a.text) = some a :=
  Json.address?_ofAddress a

theorem isValid_byNumber {ν : Type} {write : ν → Json} (h : ∀ v, (write v).IsValid)
    (entries : List (UInt64 × ν)) : (byNumber write entries).IsValid :=
  Json.isValid_map_entries (fun n : UInt64 => Json.isPlain_digits n.toNat) h entries

theorem isValid_byAddress {ν : Type} {write : ν → Json} (h : ∀ v, (write v).IsValid)
    (entries : List (Address × ν)) : (byAddress write entries).IsValid :=
  Json.isValid_map_entries Json.isPlain_text h entries

theorem isValid_document : (s.document order).IsValid := by
  refine Json.isValid_ofMembers fieldNames rfl (by decide) ?_
  simp [fields, Json.isValid_map, isValid_byNumber, isValid_byAddress,
    Json.isValid_ofText (Json.isPlain_encode _)]

theorem entries?_byNumber {ν : Type} {write : ν → Json} {read : Json → Option ν}
    (h : ∀ v, read (write v) = some v) (entries : List (UInt64 × ν)) :
    (byNumber write entries).entries? Json.wordOfText? read = some entries :=
  Json.entries?_map Json.wordOfText?_digits h entries

theorem entries?_byAddress {ν : Type} {write : ν → Json} {read : Json → Option ν}
    (h : ∀ v, read (write v) = some v) (entries : List (Address × ν)) :
    (byAddress write entries).entries? addressOfName? read = some entries :=
  Json.entries?_map addressOfName?_text h entries

/-! ## Fields -/

/-- The fields of a stored snapshot. -/
inductive Field
  | number
  | hash
  | signers
  | recents
  | votes
  | tally
  | quorumPercent
  | quorumVotes
  | quorumTally
  | quorumCooldowns

/-- The name under which a field is stored. -/
def Field.name : Field → String
  | number => "number"
  | hash => "hash"
  | signers => "signers"
  | recents => "recents"
  | votes => "votes"
  | tally => "tally"
  | quorumPercent => "quorumPercent"
  | quorumVotes => "quorumVotes"
  | quorumTally => "quorumTally"
  | quorumCooldowns => "quorumCooldowns"

/-- What is held as a field, if anything is, is read as what the snapshot has there. -/
def Field.Reads (s : Snapshot) (held : Option Json) : Field → Prop
  | number => held.bind Json.word? = some s.number
  | hash => held.bind Json.digest? = some s.hash
  | signers => ∃ signers, held.bind (Json.list? Json.address?) = some signers ∧
      ∀ a, a ∈ signers ↔ a ∈ s.signers
  | recents => ∃ recents,
      held.elim (some []) (Json.entries? Json.wordOfText? Json.address?) = some recents ∧
      recents.Perm s.recents.toList
  | votes => held.elim (some []) (Json.list? Vote.ofJson?) = some s.votes
  | tally => ∃ tally,
      held.elim (some []) (Json.entries? addressOfName? Tally.ofJson?) = some tally ∧
      tally.Perm s.tally.toList
  | quorumPercent => held.elim (some defaultQuorumPercent) Json.word? = some s.quorumPercent
  | quorumVotes => held.elim (some []) (Json.list? QuorumVote.ofJson?) = some s.quorumVotes
  | quorumTally => ∃ tally,
      held.elim (some []) (Json.entries? Json.wordOfText? QuorumTally.ofJson?) = some tally ∧
      tally.Perm s.quorumTally.toList
  | quorumCooldowns => ∃ cooldowns,
      held.elim (some []) (Json.entries? Json.wordOfText? QuorumCooldown.ofJson?) =
        some cooldowns ∧
      cooldowns.Perm s.quorumCooldowns.toList

/-- A record of which every field is read as what the snapshot has there. -/
def ReadFrom (s : Snapshot) (v : Json) : Prop :=
  ∃ r, v.record? fieldNames = some r ∧ ∀ f : Field, f.Reads s (r.lookup f.name)

theorem readFrom_document : s.ReadFrom (s.document order) := by
  refine ⟨s.fields order, Json.record?_ofMembers rfl (by decide) (by decide), fun f => ?_⟩
  cases f with
  | number => exact Json.word?_ofNat _
  | hash => exact Json.digest?_ofText _
  | signers =>
    refine ⟨_, Json.list?_map Json.address?_ofAddress _, fun a => ?_⟩
    rw [order.signers_perm.mem_iff, Std.ExtTreeSet.mem_toList]
  | recents => exact ⟨_, entries?_byNumber Json.address?_ofAddress _, order.recents_perm⟩
  | votes => exact Json.list?_map Vote.ofJson?_toJson _
  | tally => exact ⟨_, entries?_byAddress Tally.ofJson?_toJson _, order.tally_perm⟩
  | quorumPercent => exact Json.word?_ofNat _
  | quorumVotes => exact Json.list?_map QuorumVote.ofJson?_toJson _
  | quorumTally => exact ⟨_, entries?_byNumber QuorumTally.ofJson?_toJson _, order.quorumTally_perm⟩
  | quorumCooldowns =>
    exact ⟨_, entries?_byNumber QuorumCooldown.ofJson?_toJson _, order.quorumCooldowns_perm⟩

/-- The fields make up the snapshot. -/
theorem ofJson?_of_readFrom {v : Json} (h : s.ReadFrom v) :
    ofJson? config v = some { s with config } := by
  obtain ⟨r, hrecord, hfields⟩ := h
  obtain ⟨signers, hsigners, hmem⟩ := hfields .signers
  obtain ⟨recents, hrecents, hrecentsPerm⟩ := hfields .recents
  obtain ⟨tally, htally, htallyPerm⟩ := hfields .tally
  obtain ⟨quorumTally, hquorumTally, hquorumTallyPerm⟩ := hfields .quorumTally
  obtain ⟨cooldowns, hcooldowns, hcooldownsPerm⟩ := hfields .quorumCooldowns
  -- What is read of the record is what is read of the value under the name, or of its absence.
  have hnumber : r.required "number" Json.word? = some s.number := hfields .number
  have hhash : r.required "hash" Json.digest? = some s.hash := hfields .hash
  replace hsigners : r.required "signers" (Json.list? Json.address?) = some signers := hsigners
  replace hrecents : r.optional "recents" [] (Json.entries? Json.wordOfText? Json.address?) =
      some recents := (r.optional_eq ..).trans hrecents
  have hvotes : r.optional "votes" [] (Json.list? Vote.ofJson?) = some s.votes :=
    (r.optional_eq ..).trans (hfields .votes)
  replace htally : r.optional "tally" [] (Json.entries? addressOfName? Tally.ofJson?) =
      some tally := (r.optional_eq ..).trans htally
  have hpercent : r.optional "quorumPercent" defaultQuorumPercent Json.word? =
      some s.quorumPercent := (r.optional_eq ..).trans (hfields .quorumPercent)
  have hquorumVotes : r.optional "quorumVotes" [] (Json.list? QuorumVote.ofJson?) =
      some s.quorumVotes := (r.optional_eq ..).trans (hfields .quorumVotes)
  replace hquorumTally : r.optional "quorumTally" []
      (Json.entries? Json.wordOfText? QuorumTally.ofJson?) = some quorumTally :=
    (r.optional_eq ..).trans hquorumTally
  replace hcooldowns : r.optional "quorumCooldowns" []
      (Json.entries? Json.wordOfText? QuorumCooldown.ofJson?) = some cooldowns :=
    (r.optional_eq ..).trans hcooldowns
  rw [ofJson?, hrecord, Option.bind_eq_bind, Option.bind_some, hnumber, hhash, hsigners, hrecents,
    hvotes, htally, hpercent, hquorumVotes, hquorumTally, hcooldowns]
  simp only [Option.bind_eq_bind, Option.bind_some, ofList_eq_of_mem_iff hmem,
    ofList_eq_of_perm_entries hrecentsPerm, ofList_eq_of_perm_entries htallyPerm,
    ofList_eq_of_perm_entries hquorumTallyPerm, ofList_eq_of_perm_entries hcooldownsPerm]
  rfl

/-! ## Reading back -/

/-- In whatever order it was written, a snapshot is read back but for its configuration. -/
theorem decode?_encode (config : Config) (order : s.Arrangement) :
    decode? config (s.encode order) = some { s with config } := by
  rw [decode?, encode, Json.parse?_render isValid_document]
  exact ofJson?_of_readFrom readFrom_document

theorem config_of_ofJson? {v : Json} (h : ofJson? config v = some s) : s.config = config := by
  rw [ofJson?] at h
  -- The record and its ten fields are read, and the configuration is that given.
  iterate 11 obtain ⟨_, -, h⟩ := Option.bind_eq_some_iff.1 h
  obtain rfl := Option.some.inj h
  rfl

/-! ## Stores -/

/-- What is found under the key of a block is a snapshot of it, with the configuration asked for. -/
theorem label_of_ofStored {block : Digest} {held : Option (List UInt8)}
    (h : ofStored config block held = .ok s) : s.hash = block ∧ s.config = config := by
  rcases held with _ | text
  · cases h
  rw [ofStored] at h
  rcases hread : decode? config text with _ | t
  · rw [hread] at h
    cases h
  rw [hread] at h
  dsimp only at h
  split at h
  · rename_i hhash
    obtain rfl := Except.ok.inj h
    obtain ⟨v, -, hv⟩ := Option.bind_eq_some_iff.1 hread
    exact ⟨hhash, config_of_ofJson? hv⟩
  · cases h

/-- The text of a snapshot is found as the snapshot. -/
theorem ofStored_encode (config : Config) (order : s.Arrangement) :
    ofStored config s.hash (some (s.encode order)) = .ok { s with config } := by
  simp [ofStored, decode?_encode]

/-- Different blocks have different keys. -/
theorem storeKey_inj {a b : Digest} : storeKey a = storeKey b ↔ a = b := by
  rw [storeKey, storeKey, List.append_cancel_left_eq, Vector.toList_inj]

theorem run_storeIn (s : Snapshot) (order : s.Arrangement) (memory : MemoryStore) :
    (s.storeIn order).run.run memory =
      (.ok (), memory.insert (storeKey s.hash) (s.encode order)) := rfl

/-- A load looks at what is held under the key of the block, and changes nothing. -/
theorem run_load (config : Config) (block : Digest) (memory : MemoryStore) :
    (load config block).run.run memory =
      (ofStored config block (memory.get? (storeKey block)), memory) := rfl

/-- A load finds the snapshot whose text is held under its hash. -/
theorem load_insert_self (memory : MemoryStore) (config : Config) (order : s.Arrangement) :
    (load config s.hash).run.run (memory.insert (storeKey s.hash) (s.encode order)) =
      (.ok { s with config }, memory.insert (storeKey s.hash) (s.encode order)) := by
  rw [run_load, MemoryStore.get?_insert, if_pos rfl, ofStored_encode]

/-- A load does not see what is held under the hash of another block. -/
theorem load_insert_of_ne {block other : Digest} (hne : block ≠ other) (memory : MemoryStore)
    (config : Config) (text : List UInt8) :
    ((load config block).run.run (memory.insert (storeKey other) text)).1 =
      ((load config block).run.run memory).1 := by
  have hkey : storeKey other ≠ storeKey block := fun h => hne (storeKey_inj.1 h).symm
  rw [run_load, run_load, MemoryStore.get?_insert, if_neg hkey]

/-- A snapshot that has been stored, in whatever order its sets and mappings were written, is
    loaded under its hash with the configuration asked for. Loads of other blocks find what they
    found before. -/
theorem load_store (s : Snapshot) (memory : MemoryStore) (config : Config) :
    (s.store : ExceptT Failure (StateM MemoryStore) Unit) = s.storeIn (.sorted s) ∧
      ∀ order : s.Arrangement, ∃ after, (s.storeIn order).run.run memory = (.ok (), after) ∧
        (load config s.hash).run.run after = (.ok { s with config }, after) ∧
        ∀ block, block ≠ s.hash →
          ((load config block).run.run after).1 = ((load config block).run.run memory).1 := by
  refine ⟨rfl, fun order => ⟨_, run_storeIn s order memory, ?_, ?_⟩⟩
  · exact load_insert_self memory config order
  · exact fun block hne => load_insert_of_ne hne memory config _

/-- Two signers, written the second one first, into a store that holds something else under the
    hash of another block. -/
theorem load_store_reversed :
    let s := ofSigners {} 7 (Vector.replicate 32 1) [.ofLow64 1, .ofLow64 2]
    let other : Digest := Vector.replicate 32 2
    let memory := MemoryStore.empty.insert (storeKey other) [0]
    let config : Config := { epoch := 5 }
    ∃ order : s.Arrangement, order.signers = [.ofLow64 2, .ofLow64 1] ∧
      ∃ after, (s.storeIn order).run.run memory = (.ok (), after) ∧
        (load config s.hash).run.run after = (.ok { s with config }, after) ∧
        ((load config other).run.run after).1 = .error (.undecodable .unreadable) := by
  intro s other memory config
  have hsigners : [Address.ofLow64 2, .ofLow64 1].Perm s.signers.toList := by decide +kernel
  let order : s.Arrangement :=
    { Arrangement.sorted s with signers := [.ofLow64 2, .ofLow64 1], signers_perm := hsigners }
  obtain ⟨after, hstore, hload, hother⟩ := (load_store s memory config).2 order
  have hheld : ((load config other).run.run memory).1 = .error (.undecodable .unreadable) := by
    rw [run_load, MemoryStore.get?_insert, if_pos rfl]
    rfl
  exact ⟨order, rfl, after, hstore, hload, (hother other (by decide)).trans hheld⟩

end Snapshot

end SignerVoting
