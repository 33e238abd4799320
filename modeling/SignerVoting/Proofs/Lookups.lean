import SignerVoting.Proofs.Checkpoints

/-!
# Look-ups

A keeper over a store that was empty is a map from blocks to snapshots: what it answers of a block
is the snapshot last made of it, by a first snapshot or by a replay (`lastMade?`), whether it finds
it in memory or in the store. It may have lost that snapshot, but not if it falls on a checkpoint
(`answer_snapshot_of_made`).

This takes that hashes tell blocks apart (`TellsApart`). Then a snapshot made again of the same
block has the same number, so that the store, to which only checkpoints are written, holds no
snapshot of which another one was made since (`Faithful`).
-/

namespace SignerVoting

namespace Keeper

variable {k after : Keeper MemoryStore} {config : Config} {past : List Snapshot} {block : Digest}
  {s t : Snapshot} {calls : List Call} {c : Call} {r : Except Failure Snapshot}

/-! ## What calls make -/

/-- The snapshot that a call with this answer makes, if it does not look one up. -/
def Call.makes : Call → Except Failure Snapshot → List Snapshot
  | genesis _ _, answer => answer.toOption.toList
  | advance _ _ _ _, answer => answer.toOption.toList
  | resume _, _ => []
  | snapshot _, _ => []

/-- The snapshots that calls make, in their order. -/
def made (k : Keeper MemoryStore) (calls : List Call) : List Snapshot :=
  (k.trace calls).flatMap fun e => e.1.makes e.2

theorem made_concat (k : Keeper MemoryStore) (calls : List Call) (c : Call) :
    k.made (calls ++ [c]) = k.made calls ++ c.makes ((k.after calls).perform c).1 := by
  simp [made]

/-- The last of some snapshots that is one of this block. -/
def lastOf? (past : List Snapshot) (block : Digest) : Option Snapshot :=
  (past.filter fun s => s.hash = block).getLast?

/-- The snapshot last made of a block. -/
def lastMade? (k : Keeper MemoryStore) (calls : List Call) (block : Digest) : Option Snapshot :=
  lastOf? (k.made calls) block

@[simp]
theorem lastOf?_concat_hash (past : List Snapshot) (t : Snapshot) :
    lastOf? (past ++ [t]) t.hash = some t := by simp [lastOf?]

theorem lastOf?_concat_of_ne (past : List Snapshot) (hne : block ≠ t.hash) :
    lastOf? (past ++ [t]) block = lastOf? past block := by simp [lastOf?, hne.symm]

/-- A snapshot that is the last one of its block can be made once more. -/
theorem lastOf?_concat_self (h : lastOf? past s.hash = some s) :
    lastOf? (past ++ [s]) = lastOf? past := by
  funext block
  by_cases hblock : block = s.hash
  · rw [hblock, lastOf?_concat_hash, h]
  · exact lastOf?_concat_of_ne past hblock

theorem mem_of_lastOf? (h : lastOf? past block = some s) : s ∈ past ∧ s.hash = block := by
  have hmem := List.mem_of_getLast? h
  simpa using hmem

/-! ## How blocks are named -/

/-- The headers that a call is about. -/
def Call.headers : Call → List Header
  | advance _ _ headers _ => headers
  | _ => []

/-- Whether the hashes in calls tell blocks apart: headers with the same hash are the same, and no
    first block has the hash of a header. -/
structure TellsApart (calls : List Call) : Prop where
  header_eq : ∀ h ∈ calls.flatMap Call.headers, ∀ h' ∈ calls.flatMap Call.headers,
    h.hash = h'.hash → h = h'
  hash_ne : ∀ block arrange, .genesis block arrange ∈ calls →
    ∀ h ∈ calls.flatMap Call.headers, h.hash ≠ block

/-- A snapshot with the hash and the number of a block that calls are about. -/
inductive Named (calls : List Call) (s : Snapshot) : Prop
  | genesis {arrange : Snapshot.Arranging} (hcall : .genesis s.hash arrange ∈ calls)
      (hnumber : s.number = 0)
  | header {h : Header} (hcall : h ∈ calls.flatMap Call.headers) (hhash : s.hash = h.hash)
      (hnumber : s.number = h.number)

theorem TellsApart.of_concat (h : TellsApart (calls ++ [c])) : TellsApart calls where
  header_eq h₁ hh₁ h₂ hh₂ := h.header_eq h₁ (by simp_all) h₂ (by simp_all)
  hash_ne block arrange hblock h' hh' :=
    h.hash_ne block arrange (List.mem_append_left _ hblock) h' (by simp_all)

theorem TellsApart.number_eq (h : TellsApart calls) (hs : Named calls s) (ht : Named calls t)
    (hhash : s.hash = t.hash) : s.number = t.number := by
  cases hs with
  | genesis hs hs0 =>
    cases ht with
    | genesis ht ht0 => rw [hs0, ht0]
    | header ht hthash _ => exact absurd (hthash.symm.trans hhash.symm) (h.hash_ne _ _ hs _ ht)
  | header hs hshash hsnumber =>
    cases ht with
    | genesis ht _ => exact absurd (hshash.symm.trans hhash) (h.hash_ne _ _ ht _ hs)
    | header ht hthash htnumber =>
      obtain rfl := h.header_eq _ hs _ ht (by rw [← hshash, hhash, hthash])
      rw [hsnumber, htnumber]

theorem Named.concat (hs : Named calls s) (c : Call) : Named (calls ++ [c]) s := by
  cases hs with
  | genesis hs hnumber => exact .genesis (List.mem_append_left _ hs) hnumber
  | header hs hhash hnumber => exact .header (by simp_all) hhash hnumber

/-! ## Keepers as maps -/

/-- Whether a keeper knows of each block the last snapshot made, or none. Those that fall on
    checkpoints it has stored. -/
structure Faithful (k : Keeper MemoryStore) (past : List Snapshot) : Prop where
  memory : ∀ {block s}, k.memory.find? block = some s → lastOf? past block = some s
  current : ∀ {s}, k.current = some s → lastOf? past s.hash = some s
  stored : ∀ {block s}, lastOf? past block = some s →
    s.number % k.config.checkpointInterval = 0 → k.stored block = .ok s
  not_stored : ∀ {block},
    (∀ s, lastOf? past block = some s → s.number % k.config.checkpointInterval ≠ 0) →
      k.stored block = .error (.snapshotNotFound block)

theorem Faithful.last_of_known (hk : k.Faithful past) (h : k.known block = .ok s) :
    lastOf? past block = some s := by
  rcases known_eq_ok_iff.1 h with hfind | ⟨-, hstored⟩
  · exact hk.memory hfind
  · -- The store has the last snapshot, or nothing.
    by_cases hlast : ∃ t, lastOf? past block = some t ∧ t.number % k.config.checkpointInterval = 0
    · obtain ⟨t, ht, hnumber⟩ := hlast
      rwa [Except.ok.inj (hstored.symm.trans (hk.stored ht hnumber))]
    · have hnone := hk.not_stored fun t ht hnumber => hlast ⟨t, ht, hnumber⟩
      cases hstored.symm.trans hnone

/-- What falls on a checkpoint is in memory or in the store. -/
theorem Faithful.known_of_last (hk : k.Faithful past) (hlast : lastOf? past block = some s)
    (hcheckpoint : s.number % k.config.checkpointInterval = 0) : k.known block = .ok s := by
  rw [known]
  rcases hfind : k.memory.find? block with _ | u
  · exact hk.stored hlast hcheckpoint
  · rw [Option.some.inj ((hk.memory hfind).symm.trans hlast)]

theorem Faithful.known_of_none (hk : k.Faithful past) (hnone : lastOf? past block = none) :
    k.known block = .error (.snapshotNotFound block) := by
  rw [known]
  rcases hfind : k.memory.find? block with _ | u
  · refine hk.not_stored fun s hs => ?_
    cases hnone.symm.trans hs
  · cases hnone.symm.trans (hk.memory hfind)

theorem Faithful.congr {past' : List Snapshot} (hk : k.Faithful past)
    (h : lastOf? past' = lastOf? past) : k.Faithful past' where
  memory := h ▸ hk.memory
  current := h ▸ hk.current
  stored := h ▸ hk.stored
  not_stored := h ▸ hk.not_stored

theorem Faithful.remember (hk : k.Faithful past) (h : lastOf? past block = some s) :
    (k.remember block s).Faithful past where
  memory hfind := by
    obtain ⟨rfl, rfl⟩ | ⟨-, hfind⟩ := Lru.eq_or_find?_of_find?_insert hfind
    · exact h
    · exact hk.memory hfind
  current := hk.current
  stored := hk.stored
  not_stored := hk.not_stored

/-- The last snapshot made of its block can be made live. -/
theorem Faithful.hold (hk : k.Faithful past) (h : lastOf? past s.hash = some s) :
    (k.hold s).Faithful past where
  memory := (hk.remember h).memory
  current hs := by
    obtain rfl := Option.some.inj hs
    exact h
  stored := hk.stored
  not_stored := hk.not_stored

/-- A new snapshot takes the place in memory of what was made of its block. -/
theorem Faithful.memory_concat (hk : k.Faithful past)
    (hfind : (k.memory.insert t.hash t).find? block = some s) :
    lastOf? (past ++ [t]) block = some s := by
  obtain ⟨rfl, rfl⟩ | ⟨hne, hfind⟩ := Lru.eq_or_find?_of_find?_insert hfind
  · exact lastOf?_concat_hash past s
  · rw [lastOf?_concat_of_ne past hne]
    exact hk.memory hfind

/-- A new snapshot on a checkpoint is written and made live. -/
theorem Faithful.write_hold {order : t.Arrangement} (hk : k.Faithful past)
    (hconfig : t.config = k.config) (hcheckpoint : t.number % k.config.checkpointInterval = 0) :
    ((k.write t order).hold t).Faithful (past ++ [t]) where
  memory := hk.memory_concat
  current hs := by
    obtain rfl := Option.some.inj hs
    exact lastOf?_concat_hash past t
  stored {block s} hlast hnumber := by
    refine (stored_write hconfig block).trans ?_
    split
    · rename_i hblock
      rw [hblock, lastOf?_concat_hash] at hlast
      rw [Option.some.inj hlast]
    · rename_i hblock
      rw [lastOf?_concat_of_ne past hblock] at hlast
      exact hk.stored hlast hnumber
  not_stored {block} hlast := by
    refine (stored_write hconfig block).trans ?_
    split
    · rename_i hblock
      rw [hblock] at hlast
      exact absurd hcheckpoint (hlast t (lastOf?_concat_hash past t))
    · rename_i hblock
      rw [lastOf?_concat_of_ne past hblock] at hlast
      exact hk.not_stored hlast

/-- A new snapshot that does not fall on a checkpoint is only made live. What was made of the same
    block has its number, and so is not in the store either. -/
theorem Faithful.make_hold (hk : k.Faithful past)
    (hcheckpoint : t.number % k.config.checkpointInterval ≠ 0)
    (hnumber : ∀ s ∈ past, s.hash = t.hash → s.number = t.number) :
    (k.hold t).Faithful (past ++ [t]) where
  memory := hk.memory_concat
  current hs := by
    obtain rfl := Option.some.inj hs
    exact lastOf?_concat_hash past t
  stored {block s} hlast hs := by
    by_cases hblock : block = t.hash
    · rw [hblock, lastOf?_concat_hash] at hlast
      obtain rfl := Option.some.inj hlast
      exact absurd hs hcheckpoint
    · rw [lastOf?_concat_of_ne past hblock] at hlast
      exact hk.stored hlast hs
  not_stored {block} hlast := by
    refine hk.not_stored fun s hs => ?_
    by_cases hblock : block = t.hash
    · obtain ⟨hmem, hhash⟩ := mem_of_lastOf? hs
      rw [hnumber s hmem (hhash.trans hblock)]
      exact hcheckpoint
    · exact hlast s ((lastOf?_concat_of_ne past hblock).trans hs)

/-- A snapshot that is live already is not made anew. -/
theorem Faithful.hold_current (hk : k.Faithful past) (hs : k.current = some s) :
    (k.hold s).Faithful (past ++ [s]) :=
  (hk.hold (hk.current hs)).congr (lastOf?_concat_self (hk.current hs))

theorem Faithful.served (hk : k.Faithful past) (hsound : k.Sound) (h : Served k c r after)
    (hnumber : ∀ s ∈ past, ∀ t ∈ c.makes r, s.hash = t.hash → s.number = t.number) :
    after.Faithful (past ++ c.makes r) := by
  cases h with
  | refused c e =>
    have hnone : c.makes (.error e) = [] := by cases c <;> rfl
    rwa [hnone, List.append_nil]
  | genesis block arrange => exact hk.write_hold rfl UInt64.zero_mod
  | snapshot h =>
    rw [Call.makes, List.append_nil]
    exact hk.remember (hk.last_of_known h)
  | resume h =>
    have hlast := hk.last_of_known h
    have hhash := (mem_of_lastOf? hlast).2
    rw [Call.makes, List.append_nil]
    exact (hk.remember hlast).hold (by rw [hhash, hlast])
  | @advance _ _ _ _ s t hs ht =>
    -- A multiple of the interval is a checkpoint unless the number has stayed.
    by_cases hmultiple : t.number % k.config.checkpointInterval = 0
    · split
      · have hconfig := Snapshot.config_of_applyWithAbort ht
        exact hk.write_hold (hconfig.trans (hsound.current hs).config_eq) hmultiple
      · rename_i hcheckpoint
        have hsame : t.number = s.number := by simpa [isCheckpoint, hmultiple] using hcheckpoint
        obtain rfl := Snapshot.eq_of_applyWithAbort_of_number_eq ht hsame
        exact hk.hold_current hs
    · have hcheckpoint : ¬isCheckpoint k.config s.number t = true := by
        simp [isCheckpoint, hmultiple]
      rw [if_neg hcheckpoint]
      exact hk.make_hold hmultiple fun s hs => hnumber s hs t List.mem_cons_self

/-- What calls make are snapshots of their blocks. -/
theorem Faithful.named (hk : k.Faithful past) (hpast : ∀ s ∈ past, Named calls s)
    (h : Served k c r after) (ht : t ∈ c.makes r) : Named (calls ++ [c]) t := by
  cases h with
  | refused c e => cases c <;> cases ht
  | genesis block arrange =>
    obtain rfl := List.mem_singleton.1 ht
    exact .genesis (List.mem_append_right _ List.mem_cons_self) rfl
  | snapshot h => cases ht
  | resume h => cases ht
  | @advance recover abort headers arrange s t' hs happly =>
    obtain rfl := List.mem_singleton.1 ht
    have happly := Snapshot.apply_eq_ok_of_applyWithAbort happly
    by_cases hne : headers = []
    · -- Nothing is replayed, and the live snapshot was made before.
      subst hne
      obtain rfl := Except.ok.inj happly
      exact (hpast _ (mem_of_lastOf? (hk.current hs)).1).concat _
    · obtain ⟨hnumber, hhash⟩ := Snapshot.label_of_apply hne happly
      have hlast : headers.getLast hne ∈
          (calls ++ [Call.advance recover abort headers arrange]).flatMap Call.headers := by
        simp [Call.headers]
      exact .header hlast hhash hnumber

/-- Whatever a keeper is called for, it is a map. -/
theorem faithful_after (h : create config .empty = .ok k) (hcalls : TellsApart calls) :
    (k.after calls).Faithful (k.made calls) ∧ ∀ s ∈ k.made calls, Named calls s := by
  induction calls using List.reverseRecOn with
  | nil =>
    obtain ⟨-, rfl⟩ := create_eq_ok_iff.1 h
    refine ⟨⟨fun h => (nomatch h), fun h => (nomatch h), fun h => (nomatch h), fun _ => ?_⟩,
      fun _ h => (nomatch h)⟩
    simp [stored, after, MemoryStore.empty, MemoryStore.get?, Snapshot.ofStored]
  | append_singleton calls c ih =>
    obtain ⟨hfaithful, hnamed⟩ := ih hcalls.of_concat
    have hserved := served (k.after calls) c
    have hnew : ∀ s ∈ k.made calls ++ c.makes ((k.after calls).perform c).1,
        Named (calls ++ [c]) s := by
      intro s hs
      rcases List.mem_append.1 hs with hs | hs
      · exact (hnamed s hs).concat c
      · exact hfaithful.named hnamed hserved hs
    rw [after_concat, made_concat]
    refine ⟨hfaithful.served (sound_after h calls) hserved fun s hs t ht => ?_, hnew⟩
    exact hcalls.number_eq (hnew s (List.mem_append_left _ hs))
      (hnew t (List.mem_append_right _ ht))

/-- What is answered of a block is the snapshot last made of it; if that falls on a checkpoint it is
    answered, and if there is none, none is found. -/
theorem answer_snapshot_of_made (h : create config .empty = .ok k) (calls : List Call)
    (hcalls : TellsApart calls) (block : Digest) :
    (∀ s, ((k.after calls).perform (.snapshot block)).1 = .ok s →
        k.lastMade? calls block = some s) ∧
      (∀ s, k.lastMade? calls block = some s → s.number % config.checkpointInterval = 0 →
        ((k.after calls).perform (.snapshot block)).1 = .ok s) ∧
      (k.lastMade? calls block = none →
        ((k.after calls).perform (.snapshot block)).1 = .error (.snapshotNotFound block)) := by
  have hfaithful := (faithful_after h hcalls).1
  have hconfig : (k.after calls).config = config := config_after h calls
  rw [answer_snapshot]
  refine ⟨fun s hs => hfaithful.last_of_known hs, fun s hs hcheckpoint => ?_,
    fun hnone => hfaithful.known_of_none hnone⟩
  exact hfaithful.known_of_last hs (by rw [hconfig, hcheckpoint])

/-- The first snapshot has left the memory, and is found in the store. -/
theorem answer_snapshot_of_made_evicted :
    let config : Config := { snapshotsInMemory := 1, signers := [.ofLow64 1, .ofLow64 2] }
    let k : Keeper MemoryStore := ⟨config, .empty, .empty 1, none⟩
    let block : Digest := .replicate 32 7
    let h : Header := .declaring (.ofLow64 1) 1 .authorize (.ofLow64 3)
    let calls : List Call :=
      [.genesis block, .advance Snapshot.declared (fun _ => false) [h]]
    (k.after calls).memory.find? block = none ∧
      ∃ s, k.lastMade? calls block = some s ∧ s.number = 0 ∧
        ((k.after calls).perform (.snapshot block)).1 = .ok s := by
  intro config k block h calls
  have hk : create config .empty = .ok k := create_eq_ok_iff.2 ⟨by decide, rfl⟩
  have hheaders : calls.flatMap Call.headers = [h] := rfl
  obtain ⟨hne, hmade, hevicted⟩ : h.hash ≠ block ∧
      (k.lastMade? calls block).any (·.number = 0) = true ∧
      (k.after calls).memory.find? block = none := by decide +kernel
  have hcalls : TellsApart calls := by
    constructor
    · rw [hheaders]
      simp
    · rw [hheaders]
      intro b arrange hb
      obtain rfl : b = block := by
        rcases List.mem_cons.1 hb with heq | hb
        · exact (Call.genesis.inj heq).1
        · cases List.mem_singleton.1 hb
      simpa using hne
  obtain ⟨s, hs, hnumber⟩ : ∃ s, k.lastMade? calls block = some s ∧ s.number = 0 := by
    simpa [Option.any_eq_true] using hmade
  obtain ⟨-, hfound, -⟩ := answer_snapshot_of_made hk calls hcalls block
  exact ⟨hevicted, s, hs, hnumber, hfound s hs (by rw [hnumber]; decide)⟩

end Keeper

end SignerVoting
