import SignerVoting.Proofs.Calls
import SignerVoting.Proofs.Recency
import SignerVoting.Proofs.Runs

/-!
# Checkpoints

A keeper over a store in memory *backs* a snapshot if the store has it, provided that it falls on a
checkpoint (`Backs`). Every keeper that has answered calls backs its live snapshot and all that it
has in memory (`sound_after`). So nothing is lost when it is replaced by another one at a
checkpoint: the new keeper resumes the live snapshot from the store, and from then on the two make
the same of all headers (`restart_at_checkpoint`), since a replay depends on what is in memory only
through the live snapshot, and on what is stored not at all (`Alike`). The orders in which they
write may differ, and so may the texts in their stores, but not what is read from them.
-/

namespace SignerVoting

namespace Snapshot

variable {s t : Snapshot} {recover : Header → Except Failure Address} {abort : Nat → Bool}
  {headers : List Header}

/-- A replay keeps the configuration. -/
theorem config_of_applyWithAbort (ht : s.applyWithAbort recover abort headers = .ok t) :
    t.config = s.config := by
  obtain ⟨blocks, hr, -⟩ := apply_eq_ok_iff_run.1 (apply_eq_ok_of_applyWithAbort ht)
  exact hr.config_eq

/-- A replay that leaves the number leaves everything. -/
theorem eq_of_applyWithAbort_of_number_eq (ht : s.applyWithAbort recover abort headers = .ok t)
    (hnumber : t.number = s.number) : t = s := by
  have happly := apply_eq_ok_of_applyWithAbort ht
  by_cases hne : headers = []
  · subst hne
    exact (Except.ok.inj happly).symm
  · have hlt := number_lt_of_apply hne happly
    rw [hnumber] at hlt
    exact absurd hlt (UInt64.lt_irrefl _)

end Snapshot

namespace Keeper

variable {k l after : Keeper MemoryStore} {config : Config} {store : MemoryStore} {block : Digest}
  {s t : Snapshot} {order order' : t.Arrangement} {c d : Call} {r : Except Failure Snapshot}

/-! ## What is kept -/

/-- Whether a snapshot has the configuration of a keeper, and is in its store if it falls on a
    checkpoint. -/
structure Backs (k : Keeper MemoryStore) (s : Snapshot) : Prop where
  config_eq : s.config = k.config
  stored_eq : s.number % k.config.checkpointInterval = 0 → k.stored s.hash = .ok s

/-- Whether a keeper backs all that it has at hand. -/
structure Sound (k : Keeper MemoryStore) : Prop where
  memory : ∀ {block s}, k.memory.find? block = some s → s.hash = block ∧ k.Backs s
  current : ∀ {s}, k.current = some s → k.Backs s
  /-- Another snapshot can be in memory under the hash of the live one, if it is the one stored. -/
  live : ∀ {s t}, k.current = some s → k.memory.find? s.hash = some t →
    t = s ∨ k.stored s.hash = .ok t

@[simp]
theorem backs_remember : (k.remember block t).Backs s ↔ k.Backs s :=
  ⟨fun h => ⟨h.config_eq, h.stored_eq⟩, fun h => ⟨h.config_eq, h.stored_eq⟩⟩

@[simp]
theorem backs_hold : (k.hold t).Backs s ↔ k.Backs s :=
  ⟨fun h => ⟨h.config_eq, h.stored_eq⟩, fun h => ⟨h.config_eq, h.stored_eq⟩⟩

theorem backs_of_stored (h : k.stored block = .ok s) : s.hash = block ∧ k.Backs s := by
  obtain ⟨rfl, hconfig⟩ := Snapshot.label_of_ofStored h
  exact ⟨rfl, hconfig, fun _ => h⟩

/-- What is written is backed, -/
theorem backs_write_self (hconfig : t.config = k.config) : (k.write t order).Backs t :=
  ⟨hconfig, fun _ => by rw [stored_write hconfig, if_pos rfl]⟩

/-- and so is what was, under another hash. -/
theorem Backs.write (hs : k.Backs s) (hconfig : t.config = k.config) (hne : s.hash ≠ t.hash) :
    (k.write t order).Backs s :=
  ⟨hs.config_eq, fun hnumber => by rw [stored_write hconfig, if_neg hne, hs.stored_eq hnumber]⟩

theorem Sound.of_known (hk : k.Sound) (h : k.known block = .ok s) : s.hash = block ∧ k.Backs s := by
  rcases known_eq_ok_iff.1 h with hfind | ⟨-, hstored⟩
  · exact hk.memory hfind
  · exact backs_of_stored hstored

theorem Sound.remember (hk : k.Sound) (h : k.known block = .ok s) : (k.remember block s).Sound where
  memory hfind := by
    rw [backs_remember]
    obtain ⟨rfl, rfl⟩ | ⟨-, hfind⟩ := Lru.eq_or_find?_of_find?_insert hfind
    · exact hk.of_known h
    · exact hk.memory hfind
  current hs := backs_remember.2 (hk.current hs)
  live hs hfind := by
    obtain ⟨rfl, rfl⟩ | ⟨-, hfind⟩ := Lru.eq_or_find?_of_find?_insert hfind
    · rcases known_eq_ok_iff.1 h with hbefore | ⟨-, hstored⟩
      · exact hk.live hs hbefore
      · exact .inr hstored
    · exact hk.live hs hfind

/-- A backed snapshot can be made live. It takes the place of what is in memory under its hash. -/
theorem sound_hold (ht : k.Backs t) (hmemory : ∀ {block s}, block ≠ t.hash →
    k.memory.find? block = some s → s.hash = block ∧ k.Backs s) : (k.hold t).Sound where
  memory hfind := by
    rw [backs_hold]
    obtain ⟨rfl, rfl⟩ | ⟨hne, hfind⟩ := Lru.eq_or_find?_of_find?_insert hfind
    · exact ⟨rfl, ht⟩
    · exact hmemory hne hfind
  current hs := by
    obtain rfl := Option.some.inj hs
    exact backs_hold.2 ht
  live hs hfind := by
    obtain rfl := Option.some.inj hs
    obtain ⟨-, rfl⟩ | ⟨hne, -⟩ := Lru.eq_or_find?_of_find?_insert hfind
    · exact .inl rfl
    · exact absurd rfl hne

/-- What is written can be made live. -/
theorem Sound.write_hold (hk : k.Sound) (hconfig : t.config = k.config) :
    ((k.write t order).hold t).Sound := by
  refine sound_hold (backs_write_self hconfig) fun {block s} hne hfind => ?_
  obtain ⟨rfl, hs⟩ := hk.memory hfind
  exact ⟨rfl, hs.write hconfig hne⟩

/-- A snapshot after a replay is backed without being written, unless it falls on a checkpoint. -/
theorem Sound.backs_of_advance (hk : k.Sound) (hs : k.current = some s)
    {recover : Header → Except Failure Address} {abort : Nat → Bool} {headers : List Header}
    (ht : s.applyWithAbort recover abort headers = .ok t)
    (hcheckpoint : ¬isCheckpoint k.config s.number t = true) : k.Backs t := by
  refine ⟨(Snapshot.config_of_applyWithAbort ht).trans (hk.current hs).config_eq, fun hnumber => ?_⟩
  -- On a multiple, only a number that stays is no checkpoint, and then nothing was replayed.
  have hsame : t.number = s.number := by simpa [isCheckpoint, hnumber] using hcheckpoint
  obtain rfl := Snapshot.eq_of_applyWithAbort_of_number_eq ht hsame
  exact (hk.current hs).stored_eq hnumber

theorem Sound.served (hk : k.Sound) (h : Served k c r after) : after.Sound := by
  cases h with
  | refused c e => exact hk
  | genesis block arrange => exact hk.write_hold rfl
  | snapshot h => exact hk.remember h
  | resume h =>
    have hremember := hk.remember h
    exact sound_hold (backs_remember.2 (hk.of_known h).2) fun _ hfind => hremember.memory hfind
  | advance hs ht =>
    split
    · exact hk.write_hold ((Snapshot.config_of_applyWithAbort ht).trans (hk.current hs).config_eq)
    · rename_i hcheckpoint
      exact sound_hold (hk.backs_of_advance hs ht hcheckpoint) fun _ hfind => hk.memory hfind

theorem sound_create (h : create config store = .ok k) : k.Sound := by
  obtain ⟨-, rfl⟩ := create_eq_ok_iff.1 h
  exact ⟨fun hfind => (nomatch hfind), fun hs => (nomatch hs), fun hs => (nomatch hs)⟩

/-- Whatever a keeper is called for, it backs all that it has at hand. -/
theorem sound_after (h : create config store = .ok k) (calls : List Call) :
    (k.after calls).Sound :=
  invariant (sound_create h) (fun hk hserved => hk.served hserved) calls

theorem config_served (h : Served k c r after) : after.config = k.config := by
  cases h with
  | advance hs ht => split <;> rfl
  | refused c e => rfl
  | genesis block arrange => rfl
  | snapshot h => rfl
  | resume h => rfl

/-- The configuration stays. -/
theorem config_after (h : create config store = .ok k) (calls : List Call) :
    (k.after calls).config = config := by
  obtain ⟨-, rfl⟩ := create_eq_ok_iff.1 h
  exact invariant (p := fun k => k.config = config) rfl
    (fun hk hserved => (config_served hserved).trans hk) calls

/-! ## What a store holds -/

/-- Whether all that a store holds are snapshots under the keys of their blocks. -/
def Readable (k : Keeper MemoryStore) : Prop :=
  ∀ key, (k.store.get? key).isSome → ∃ block s, key = Snapshot.storeKey block ∧
    k.stored block = .ok s

theorem Readable.write (hk : k.Readable) (hconfig : t.config = k.config) :
    (k.write t order).Readable := by
  intro key hkey
  by_cases hself : key = Snapshot.storeKey t.hash
  · exact ⟨t.hash, t, hself, by rw [stored_write hconfig, if_pos rfl]⟩
  · have hheld : (k.store.get? key).isSome := by
      rwa [get?_store_write, if_neg (Ne.symm hself)] at hkey
    obtain ⟨block, s, rfl, hs⟩ := hk key hheld
    refine ⟨block, s, rfl, ?_⟩
    rw [stored_write hconfig, if_neg fun hblock => hself (congrArg Snapshot.storeKey hblock), hs]

theorem Readable.served (hk : k.Readable) (hsound : k.Sound) (h : Served k c r after) :
    after.Readable := by
  cases h with
  | refused c e => exact hk
  | genesis block arrange => exact hk.write rfl
  | snapshot h => exact hk
  | resume h => exact hk
  | advance hs ht =>
    split
    · exact hk.write ((Snapshot.config_of_applyWithAbort ht).trans (hsound.current hs).config_eq)
    · exact hk

theorem readable_after (h : create config .empty = .ok k) (calls : List Call) :
    (k.after calls).Readable := by
  have hempty : k.Readable := by
    obtain ⟨-, rfl⟩ := create_eq_ok_iff.1 h
    intro key hkey
    simp [MemoryStore.empty, MemoryStore.get?] at hkey
  refine (invariant (p := fun k => k.Readable ∧ k.Sound) ⟨hempty, sound_create h⟩ ?_ calls).1
  rintro k c r after ⟨hk, hsound⟩ hserved
  exact ⟨hk.served hsound hserved, hsound.served hserved⟩

/-! ## Restarts -/

/-- Whether two keepers have the same live snapshot, and stores that hold texts under the same keys
    and of each block the same snapshot. -/
structure Alike (k l : Keeper MemoryStore) : Prop where
  config_eq : k.config = l.config
  current_eq : k.current = l.current
  isSome_get? : ∀ key, (k.store.get? key).isSome = (l.store.get? key).isSome
  stored_eq : ∀ block, k.stored block = l.stored block

/-- Whether two calls are for the same replay, each with orders of its own for what is written. -/
inductive Call.SameReplay : Call → Call → Prop
  | advance (recover : Header → Except Failure Address) (abort : Nat → Bool)
      (headers : List Header) (here there : Snapshot.Arranging) :
      SameReplay (.advance recover abort headers here) (.advance recover abort headers there)

/-- What is live or in memory makes no difference to what is stored. -/
theorem Alike.hold (h : k.Alike l) (s : Snapshot) : (k.hold s).Alike (l.hold s) :=
  ⟨h.config_eq, rfl, h.isSome_get?, h.stored_eq⟩

/-- A snapshot may be written to each store in an order of its own. -/
theorem Alike.write (h : k.Alike l) (hconfig : t.config = k.config) :
    (k.write t order).Alike (l.write t order') where
  config_eq := h.config_eq
  current_eq := h.current_eq
  isSome_get? key := by
    rw [get?_store_write, get?_store_write]
    split
    · rfl
    · exact h.isSome_get? key
  stored_eq block := by
    rw [stored_write hconfig, stored_write (hconfig.trans h.config_eq), h.stored_eq]

/-- A replay depends on what is in memory only through the live snapshot. -/
theorem Alike.perform (h : k.Alike l) (hk : k.Sound) (hc : c.SameReplay d) :
    (k.perform c).1 = (l.perform d).1 ∧ (k.perform c).2.Alike (l.perform d).2 := by
  obtain ⟨recover, abort, headers, here, there⟩ := hc
  rw [perform_advance, perform_advance, ← h.current_eq, ← h.config_eq]
  rcases hs : k.current with _ | s
  · exact ⟨rfl, h⟩
  dsimp only
  rcases ht : s.applyWithAbort recover abort headers with e | t
  · exact ⟨rfl, h⟩
  dsimp only
  split
  · have hconfig := (Snapshot.config_of_applyWithAbort ht).trans (hk.current hs).config_eq
    exact ⟨rfl, (h.write hconfig).hold t⟩
  · exact ⟨rfl, h.hold t⟩

theorem Alike.answers (h : k.Alike l) (hk : k.Sound) {calls calls' : List Call}
    (hcalls : List.Forall₂ Call.SameReplay calls calls') :
    k.answers calls = l.answers calls' ∧ (k.after calls).Alike (l.after calls') := by
  induction hcalls generalizing k l with
  | nil => exact ⟨rfl, h⟩
  | cons hc _ ih =>
    obtain ⟨hanswer, hafter⟩ := h.perform hk hc
    obtain ⟨hanswers, hend⟩ := ih hafter (hk.served (served k _))
    exact ⟨congrArg₂ List.cons hanswer hanswers, hend⟩

/-- Whether two stores hold texts under the same keys, which are those of blocks of which both
    load the same snapshot. -/
structure SameSnapshots (config : Config) (a b : MemoryStore) : Prop where
  isSome_get? : ∀ key, (a.get? key).isSome = (b.get? key).isSome
  load : ∀ key, (a.get? key).isSome → ∃ block s, key = Snapshot.storeKey block ∧
    ((Snapshot.load config block).run.run a).1 = .ok s ∧
      ((Snapshot.load config block).run.run b).1 = .ok s

theorem Alike.sameSnapshots (h : k.Alike l) (hl : l.Readable) :
    SameSnapshots l.config k.store l.store where
  isSome_get? := h.isSome_get?
  load key hkey := by
    rw [h.isSome_get?] at hkey
    obtain ⟨block, s, rfl, hs⟩ := hl key hkey
    have hhere := (h.stored_eq block).trans hs
    rw [stored, h.config_eq] at hhere
    exact ⟨block, s, rfl, hhere, hs⟩

/-- When the live snapshot falls on a checkpoint, another keeper over the same store resumes it, and
    from then on the two answer all replays alike and store the same snapshots, each of them in
    orders of its own. -/
theorem restart_at_checkpoint (h : create config .empty = .ok k) (calls : List Call) {s : Snapshot}
    (hs : (k.after calls).current = some s)
    (hcheckpoint : s.number % config.checkpointInterval = 0) :
    ∃ fresh, create config (k.after calls).store = .ok fresh ∧
      (fresh.perform (.resume s.hash)).1 = .ok s ∧
      (fresh.perform (.resume s.hash)).2.current = some s ∧
      ∀ further further' : List Call, List.Forall₂ Call.SameReplay further' further →
        (fresh.perform (.resume s.hash)).2.answers further' = (k.after calls).answers further ∧
        SameSnapshots config ((fresh.perform (.resume s.hash)).2.after further').store
          ((k.after calls).after further).store := by
  have hconfig : (k.after calls).config = config := config_after h calls
  have hstored : (k.after calls).stored s.hash = .ok s :=
    ((sound_after h calls).current hs).stored_eq (by rw [hconfig, hcheckpoint])
  -- The new keeper has nothing in memory, and so it asks the store.
  let memory : Lru Digest Snapshot := .empty config.snapshotsInMemory.toNat
  let fresh : Keeper MemoryStore := ⟨config, (k.after calls).store, memory, none⟩
  have hfresh : create config (k.after calls).store = .ok fresh :=
    create_eq_ok_iff.2 ⟨(create_eq_ok_iff.1 h).1, rfl⟩
  have hstores (block : Digest) : fresh.stored block = (k.after calls).stored block := by
    rw [stored, stored, hconfig]
  have hknown : fresh.known s.hash = .ok s := (hstores s.hash).trans hstored
  have hresume : fresh.perform (.resume s.hash) = (.ok s, (fresh.remember s.hash s).hold s) := by
    rw [perform_resume, perform_snapshot_eq, hknown]
  have hsound : ((fresh.remember s.hash s).hold s).Sound :=
    (sound_create hfresh).served (.resume hknown)
  have halike : ((fresh.remember s.hash s).hold s).Alike (k.after calls) :=
    ⟨hconfig.symm, hs.symm, fun _ => rfl, hstores⟩
  refine ⟨fresh, hfresh, ?_⟩
  rw [hresume]
  refine ⟨rfl, rfl, fun further further' hfurther => ?_⟩
  obtain ⟨hanswers, hend⟩ := halike.answers hsound hfurther
  have hsame := hend.sameSnapshots (after_append k calls further ▸ readable_after h _)
  rw [← after_append, config_after h, after_append] at hsame
  exact ⟨hanswers, hsame⟩

/-- A keeper is replaced at block 2, when a vote is pending which passes at block 3. The new one
    writes the signers after block 4 in the reverse order. -/
theorem restart_at_checkpoint_pending :
    let config : Config :=
      { checkpointInterval := 2, snapshotsInMemory := 1, signers := [.ofLow64 1, .ofLow64 2] }
    let k : Keeper MemoryStore := ⟨config, .empty, .empty 1, none⟩
    let reversed : Snapshot.Arranging := fun s =>
      { Snapshot.Arrangement.sorted s with
        signers := s.signers.toList.reverse
        signers_perm := List.reverse_perm _ }
    let block (arrange : Snapshot.Arranging) (signer number : UInt64) : Call :=
      .advance Snapshot.declared (fun _ => false)
        [.declaring (.ofLow64 signer) number .authorize (.ofLow64 3)] arrange
    let blocks (arrange : Snapshot.Arranging) : List Call :=
      [block arrange 2 3, block arrange 2 3, block arrange 1 4]
    let calls : List Call :=
      [.genesis (.replicate 32 7), block Snapshot.Arrangement.sorted 2 1,
        block Snapshot.Arrangement.sorted 1 2]
    ∃ s, (k.after calls).current = some s ∧ s.number = 2 ∧
      ∃ fresh, create config (k.after calls).store = .ok fresh ∧
        (fresh.perform (.resume s.hash)).1 = .ok s ∧
        (fresh.perform (.resume s.hash)).2.answers (blocks reversed) =
          (k.after calls).answers (blocks Snapshot.Arrangement.sorted) ∧
        SameSnapshots config ((fresh.perform (.resume s.hash)).2.after (blocks reversed)).store
          ((k.after calls).after (blocks Snapshot.Arrangement.sorted)).store := by
  intro config k reversed block blocks calls
  have hk : create config .empty = .ok k := create_eq_ok_iff.2 ⟨by decide, rfl⟩
  obtain ⟨s, hs, hnumber⟩ : ∃ s, (k.after calls).current = some s ∧ s.number = 2 := by
    have hany : (k.after calls).current.any (·.number = 2) = true := by decide +kernel
    simpa [Option.any_eq_true] using hany
  obtain ⟨fresh, hfresh, hresume, -, halike⟩ :=
    restart_at_checkpoint hk calls hs (by rw [hnumber]; decide)
  have hblocks : List.Forall₂ Call.SameReplay (blocks reversed)
      (blocks Snapshot.Arrangement.sorted) :=
    .cons (.advance ..) (.cons (.advance ..) (.cons (.advance ..) .nil))
  exact ⟨s, hs, hnumber, fresh, hfresh, hresume, halike _ _ hblocks⟩

end Keeper

end SignerVoting
