import SignerVoting.Proofs.Checkpoints

/-!
# Eviction

What a keeper has in memory are the snapshots that it answered last, each under its hash
(`memory_after`). The live snapshot has no place of its own: it is lost to look-ups once snapshots
of too many other blocks were answered since it was, unless the store has it
(`answer_snapshot_of_current`).
-/

namespace SignerVoting

namespace Keeper

variable {k after : Keeper MemoryStore} {config : Config} {store : MemoryStore} {s : Snapshot}
  {c : Call} {r : Except Failure Snapshot}

/-- What is answered is put in memory. -/
theorem memory_served (hk : k.Sound) (h : Served k c r after) :
    after.memory = (r.toOption.toList.map fun s => (s.hash, s)).foldl
      (fun memory use => memory.insert use.1 use.2) k.memory := by
  cases h with
  | refused c e => rfl
  | genesis block arrange => rfl
  | snapshot h =>
    obtain ⟨rfl, -⟩ := hk.of_known h
    rfl
  | resume h =>
    obtain ⟨rfl, -⟩ := hk.of_known h
    exact Lru.insert_insert_self ..
  | advance hs ht => split <;> rfl

/-- The memory was used for what was answered. -/
theorem memory_after (h : create config store = .ok k) (calls : List Call) :
    (k.after calls).memory = .ofUses config.snapshotsInMemory.toNat
      ((k.answered calls).map fun s => (s.hash, s)) := by
  induction calls using List.reverseRecOn with
  | nil =>
    obtain ⟨-, rfl⟩ := create_eq_ok_iff.1 h
    rfl
  | append_singleton calls c ih =>
    rw [after_concat, answered_concat, List.map_append, Lru.ofUses, List.foldl_append,
      memory_served (sound_after h calls) (served _ c), ih, Lru.ofUses]

/-- Whether a snapshot is the last one answered of its block, and since then snapshots of fewer than
    `n` other blocks were answered. -/
def AnsweredLately (n : Nat) (answers : List Snapshot) (s : Snapshot) : Prop :=
  ∃ before since, answers = before ++ s :: since ∧ (∀ t ∈ since, t.hash ≠ s.hash) ∧
    (since.map Snapshot.hash).dedup.length < n

/-- These are the snapshots in memory. -/
theorem answeredLately_iff (h : create config store = .ok k) (calls : List Call) (s : Snapshot) :
    AnsweredLately config.snapshotsInMemory.toNat (k.answered calls) s ↔
      (k.after calls).memory.find? s.hash = some s := by
  rw [memory_after h, Lru.find?_ofUses_eq_some_iff]
  constructor
  · rintro ⟨before, since, hanswers, hsince, hroom⟩
    rw [hanswers]
    refine ⟨before.map fun s => (s.hash, s), since.map fun s => (s.hash, s), by simp, ?_, ?_⟩
    · simpa [eq_comm] using hsince
    · simpa [Function.comp_def] using hroom
  · rintro ⟨before, since, huses, hsince, hroom⟩
    obtain ⟨before, rest, hanswers, rfl, hrest⟩ := List.map_eq_append_iff.1 huses
    obtain ⟨t, since, rfl, ht, rfl⟩ := List.map_eq_cons_iff.1 hrest
    obtain rfl : t = s := congrArg Prod.snd ht
    refine ⟨before, since, hanswers, ?_, ?_⟩
    · simpa [eq_comm] using hsince
    · simpa [Function.comp_def] using hroom

/-- The live snapshot is found if it was answered lately, or the store has it, and not otherwise.
    The store has it if it falls on a checkpoint. -/
theorem answer_snapshot_of_current (h : create config store = .ok k) (calls : List Call)
    (hs : (k.after calls).current = some s) :
    (((k.after calls).perform (.snapshot s.hash)).1 = .ok s ↔
        AnsweredLately config.snapshotsInMemory.toNat (k.answered calls) s ∨
          ((Snapshot.load config s.hash).run.run (k.after calls).store).1 = .ok s) ∧
      (s.number % config.checkpointInterval = 0 →
        ((Snapshot.load config s.hash).run.run (k.after calls).store).1 = .ok s) := by
  have hsound := sound_after h calls
  have hload : ((Snapshot.load config s.hash).run.run (k.after calls).store).1 =
      (k.after calls).stored s.hash := by
    rw [← config_after h calls, load_eq_stored]
  rw [answer_snapshot, answeredLately_iff h, hload, known_eq_ok_iff]
  refine ⟨⟨fun hknown => hknown.imp_right And.right, ?_⟩, fun hcheckpoint => ?_⟩
  · rintro (hfind | hstored)
    · exact .inl hfind
    · rcases hfind : (k.after calls).memory.find? s.hash with _ | t
      · exact .inr ⟨rfl, hstored⟩
      · -- What is in memory under the hash of the live snapshot is that one, or the stored one.
        rcases hsound.live hs hfind with rfl | hsame
        · exact .inl rfl
        · exact .inl (congrArg some (Except.ok.inj (hsame.symm.trans hstored)))
  · exact (hsound.current hs).stored_eq (by rw [config_after h, hcheckpoint])

/-- A live snapshot that has left the memory is found in the store, as it falls on a checkpoint. -/
theorem answer_snapshot_of_current_checkpoint :
    let config : Config :=
      { checkpointInterval := 2, snapshotsInMemory := 1, signers := [.ofLow64 1, .ofLow64 2] }
    let k : Keeper MemoryStore := ⟨config, .empty, .empty 1, none⟩
    let start : Digest := .replicate 32 7
    let block (number : UInt64) : Header :=
      .declaring (.ofLow64 number) number .authorize (.ofLow64 3)
    let calls : List Call := [.genesis start,
      .advance Snapshot.declared (fun _ => false) [block 1, block 2], .snapshot start]
    ∃ s, (k.after calls).current = some s ∧ s.number = 2 ∧
      (k.after calls).memory.find? s.hash = none ∧
      ((k.after calls).perform (.snapshot s.hash)).1 = .ok s := by
  intro config k start block calls
  have hk : create config .empty = .ok k := create_eq_ok_iff.2 ⟨by decide, rfl⟩
  have hlive : (k.after calls).current.any (fun s =>
      s.number = 2 ∧ (k.after calls).memory.find? s.hash = none) = true := by decide +kernel
  obtain ⟨s, hs, hp⟩ := (Option.any_eq_true ..).1 hlive
  obtain ⟨hnumber, hevicted⟩ := of_decide_eq_true hp
  obtain ⟨hfound, hstored⟩ := answer_snapshot_of_current hk calls hs
  exact ⟨s, hs, hnumber, hevicted, hfound.2 (.inr (hstored (by rw [hnumber]; decide)))⟩

/-- A live snapshot can be lost to look-ups. -/
theorem not_forall_answer_snapshot_of_current :
    ¬∀ (config : Config) (store : MemoryStore) (k : Keeper MemoryStore) (calls : List Call)
      (s : Snapshot), create config store = .ok k → (k.after calls).current = some s →
        ((k.after calls).perform (.snapshot s.hash)).1 = .ok s := by
  intro hall
  let config : Config :=
    { checkpointInterval := 2, snapshotsInMemory := 1, signers := [.ofLow64 1, .ofLow64 2] }
  let k : Keeper MemoryStore := ⟨config, .empty, .empty 1, none⟩
  let start : Digest := .replicate 32 7
  let calls : List Call := [.genesis start, .advance Snapshot.declared (fun _ => false)
    [.declaring (.ofLow64 1) 1 .authorize (.ofLow64 3)], .snapshot start]
  have hk : create config .empty = .ok k := create_eq_ok_iff.2 ⟨by decide, rfl⟩
  have hlost : (k.after calls).current.any (fun s =>
    ((k.after calls).perform (.snapshot s.hash)).1 ≠ .ok s) = true := by decide +kernel
  obtain ⟨s, hs, hne⟩ := (Option.any_eq_true ..).1 hlost
  exact of_decide_eq_true hne (hall config .empty k calls s hk hs)

end Keeper

end SignerVoting
