import SignerVoting.Proofs.Calls
import SignerVoting.Proofs.Reachable

/-!
# Calls that fail

A call that fails leaves the keeper as it was: the live snapshot, the memory with its order, and
what the store holds, however the store refuses requests, as long as reading leaves it alone, and so
does a write that is refused (`Contents`).

There is one exception. A snapshot on a checkpoint is live before it is written, and if the write is
refused (`CheckpointRefused`), it stays so: then keeper and memory are those that the same call
leaves over a store that takes it.

* `refused_snapshot`, `refused_resume`, `refused_genesis`, `refused_advance`: each call on its own;
* `live_of_checkpointRefused`: a replay makes its snapshot live whatever the store answers;
* `unchanged_of_error`: all calls.
-/

namespace SignerVoting

/-- What a store holds, from a point of view from which reading leaves it alone, and so does a write
    that is refused. -/
structure Contents (σ : Type) [KeyValueStore σ] where
  held : σ → List UInt8 → Option (List UInt8)
  held_get : ∀ key store, held ((KeyValueStore.get key).run.run store).2 = held store
  held_put : ∀ key value store e, ((KeyValueStore.put key value).run.run store).1 = .error e →
    held ((KeyValueStore.put key value).run.run store).2 = held store

/-- What a store holds that can be told to refuse. -/
def FallibleStore.contents : Contents FallibleStore where
  held store := store.memory.get?
  held_get := by
    rintro key ⟨memory, refusesGet, refusesPut⟩
    cases refusesGet <;> rfl
  held_put := by
    rintro key value ⟨memory, refusesGet, refusesPut⟩ e h
    cases refusesPut with
    | false => cases h
    | true => rfl

namespace Keeper

section Atomicity

variable {σ : Type} [KeyValueStore σ] (view : Contents σ) {k : Keeper σ} {block : Digest}
  {recover : Header → Except Failure Address} {abort : Nat → Bool} {headers : List Header}
  {arrange : Snapshot.Arranging} {e : Failure}

/-- Whether a keeper is as it was but for its store, which holds what it held. -/
def Unchanged (k after : Keeper σ) : Prop :=
  after = k.onto after.store ∧ view.held after.store = view.held k.store

/-- Whether a call makes a snapshot live of which the store then refuses the write. -/
def CheckpointRefused (k : Keeper σ) : Call → Prop
  | .advance recover abort headers arrange =>
    ∃ s t e, k.current = some s ∧ s.applyWithAbort recover abort headers = .ok t ∧
      isCheckpoint k.config s.number t = true ∧
        ((t.storeIn (arrange t)).run.run k.store).1 = .error e
  | _ => False

/-- A load leaves alone what the store holds. -/
theorem held_load (config : Config) (block : Digest) (store : σ) :
    view.held ((Snapshot.load config block).run.run store).2 = view.held store := by
  have hget := view.held_get (Snapshot.storeKey block) store
  rw [Snapshot.load, ExceptT.run_bind, StateT.run_bind]
  revert hget
  rcases (KeyValueStore.get (Snapshot.storeKey block)).run.run store with ⟨_ | _, _⟩ <;> exact id

/-- So does a write that is refused. -/
theorem held_storeIn (s : Snapshot) (order : s.Arrangement) (store : σ)
    (h : ((s.storeIn order).run.run store).1 = .error e) :
    view.held ((s.storeIn order).run.run store).2 = view.held store :=
  view.held_put _ _ store e h

theorem refused_snapshot (h : (k.perform (.snapshot block)).1 = .error e) :
    Unchanged view k (k.perform (.snapshot block)).2 := by
  have hload := held_load view k.config block k.store
  revert h
  rw [perform_snapshot]
  -- What is in memory is answered, so that the look-up has come to the store.
  rcases k.memory.find? block with _ | s
  · revert hload
    rcases (Snapshot.load k.config block).run.run k.store with ⟨e | s, store⟩
    · exact fun hload _ => ⟨rfl, hload⟩
    · exact fun _ h => nomatch h
  · exact fun h => nomatch h

theorem refused_resume (h : (k.perform (.resume block)).1 = .error e) :
    Unchanged view k (k.perform (.resume block)).2 := by
  have hsnapshot : (k.perform (.snapshot block)).1 = .error e →
    Unchanged view k (k.perform (.snapshot block)).2 := refused_snapshot view
  revert h hsnapshot
  rw [perform_resume]
  rcases k.perform (.snapshot block) with ⟨e | s, after⟩
  · exact fun h hsnapshot => hsnapshot h
  · exact fun h => nomatch h

theorem refused_genesis (h : (k.perform (.genesis block arrange)).1 = .error e) :
    Unchanged view k (k.perform (.genesis block arrange)).2 := by
  have hstore e := held_storeIn view (k.first block) (arrange _) k.store (e := e)
  revert h hstore
  rw [perform_genesis]
  rcases ((k.first block).storeIn (arrange _)).run.run k.store with ⟨e | _, store⟩
  · exact fun _ hstore => ⟨rfl, hstore e rfl⟩
  · exact fun h => nomatch h

theorem CheckpointRefused.exists_replay {c : Call} (h : k.CheckpointRefused c) :
    ∃ recover abort headers arrange s t, c = .advance recover abort headers arrange ∧
      k.current = some s ∧ s.applyWithAbort recover abort headers = .ok t := by
  cases c with
  | advance recover abort headers arrange =>
    obtain ⟨s, t, -, hs, ht, -, -⟩ := h
    exact ⟨recover, abort, headers, arrange, s, t, rfl, hs, ht⟩
  | genesis block arrange => cases h
  | resume block => cases h
  | snapshot block => cases h

/-- After a replay that succeeds its snapshot is live, whatever the store answers. -/
theorem perform_advance_of_ok {s t : Snapshot} (hs : k.current = some s)
    (ht : s.applyWithAbort recover abort headers = .ok t) :
    ∃ store, (k.perform (.advance recover abort headers arrange)).2 = (k.hold t).onto store := by
  rw [perform_advance, hs]
  dsimp only
  rw [ht]
  dsimp only
  split
  · rcases (t.storeIn (arrange t)).run.run k.store with ⟨e | _, store⟩ <;> exact ⟨store, rfl⟩
  · exact ⟨k.store, rfl⟩

theorem held_advance (h : (k.perform (.advance recover abort headers arrange)).1 = .error e) :
    view.held (k.perform (.advance recover abort headers arrange)).2.store = view.held k.store := by
  revert h
  rw [perform_advance]
  rcases k.current with _ | s
  · exact fun _ => rfl
  dsimp only
  rcases s.applyWithAbort recover abort headers with e | t
  · exact fun _ => rfl
  dsimp only
  split
  · have hstore e := held_storeIn view t (arrange t) k.store (e := e)
    revert hstore
    rcases (t.storeIn (arrange t)).run.run k.store with ⟨e | _, store⟩
    · exact fun hstore _ => hstore e rfl
    · exact fun _ h => nomatch h
  · exact fun h => nomatch h

theorem refused_advance (h : (k.perform (.advance recover abort headers arrange)).1 = .error e)
    (hrefused : ¬k.CheckpointRefused (.advance recover abort headers arrange)) :
    (k.perform (.advance recover abort headers arrange)).2 = k := by
  revert h
  rw [perform_advance]
  -- Without a live snapshot, and when the replay fails, nothing is done at all.
  rcases hs : k.current with _ | s
  · exact fun _ => rfl
  dsimp only
  rcases ht : s.applyWithAbort recover abort headers with e | t
  · exact fun _ => rfl
  dsimp only
  split
  · rename_i hcheckpoint
    rcases hstore : (t.storeIn (arrange t)).run.run k.store with ⟨e | _, store⟩
    · exact absurd ⟨s, t, e, hs, ht, hcheckpoint, congrArg Prod.fst hstore⟩ hrefused
    · exact fun h => nomatch h
  · exact fun h => nomatch h

/-! ## All calls -/

/-- Whatever fails, the store holds what it held. -/
theorem held_of_error {c : Call} (h : (k.perform c).1 = .error e) :
    view.held (k.perform c).2.store = view.held k.store := by
  cases c with
  | genesis block arrange => exact (refused_genesis view h).2
  | resume block => exact (refused_resume view h).2
  | snapshot block => exact (refused_snapshot view h).2
  | advance recover abort headers arrange => exact held_advance view h

/-- Unless a checkpoint is refused, the rest is as it was. -/
theorem onto_of_error (view : Contents σ) {c : Call} (h : (k.perform c).1 = .error e)
    (hrefused : ¬k.CheckpointRefused c) : ∃ store, (k.perform c).2 = k.onto store := by
  cases c with
  | genesis block arrange => exact ⟨_, (refused_genesis view h).1⟩
  | resume block => exact ⟨_, (refused_resume view h).1⟩
  | snapshot block => exact ⟨_, (refused_snapshot view h).1⟩
  | advance recover abort headers arrange => exact ⟨k.store, refused_advance h hrefused⟩

/-- When a checkpoint is refused, keeper and memory are as over any other store. -/
theorem live_of_checkpointRefused {c : Call} (h : k.CheckpointRefused c) {τ : Type}
    [KeyValueStore τ] (store : τ) :
    (k.perform c).2.current = ((k.onto store).perform c).2.current ∧
      (k.perform c).2.memory = ((k.onto store).perform c).2.memory := by
  obtain ⟨recover, abort, headers, arrange, s, t, rfl, hs, ht⟩ := h.exists_replay
  obtain ⟨here, hhere⟩ := perform_advance_of_ok hs ht
  obtain ⟨there, hthere⟩ := perform_advance_of_ok (k := k.onto store) hs ht
  rw [hhere, hthere]
  exact ⟨rfl, rfl⟩

/-- A store in memory refuses no checkpoint. -/
theorem exists_answer_onto {c : Call} (h : k.CheckpointRefused c) (memory : MemoryStore) :
    ∃ t, ((k.onto memory).perform c).1 = .ok t := by
  obtain ⟨recover, abort, headers, arrange, s, t, rfl, hs, ht⟩ := h.exists_replay
  have hs' : (k.onto memory).current = some s := hs
  refine ⟨t, ?_⟩
  rw [perform_advance, hs']
  dsimp only
  rw [ht]
  dsimp only
  split <;> rfl

/-- A call that fails leaves the live snapshot, the memory in its order and what the store holds as
    they were. But if it came to a checkpoint that the store refused, the live snapshot and the
    memory are those that the call leaves over a store that does not. -/
theorem unchanged_of_error (view : Contents σ) (k : Keeper σ) (c : Call) {e : Failure}
    (h : (k.perform c).1 = .error e) :
    view.held (k.perform c).2.store = view.held k.store ∧
    (¬k.CheckpointRefused c →
      (k.perform c).2.current = k.current ∧ (k.perform c).2.memory = k.memory) ∧
    (k.CheckpointRefused c →
      (∀ memory : MemoryStore, ∃ t, ((k.onto memory).perform c).1 = .ok t) ∧
      ∀ (τ : Type) [KeyValueStore τ] (store : τ) (t : Snapshot),
        ((k.onto store).perform c).1 = .ok t →
          (k.perform c).2.current = ((k.onto store).perform c).2.current ∧
          (k.perform c).2.memory = ((k.onto store).perform c).2.memory) := by
  refine ⟨held_of_error view h, fun hrefused => ?_, fun hrefused => ?_⟩
  · obtain ⟨store, hstore⟩ := onto_of_error view h hrefused
    rw [hstore]
    exact ⟨rfl, rfl⟩
  · exact ⟨exists_answer_onto hrefused, fun τ _ store t _ =>
      live_of_checkpointRefused hrefused store⟩

/-- A snapshot whose checkpoint is refused is live all the same. -/
theorem unchanged_of_error_checkpoint :
    let config : Config := { checkpointInterval := 1, signers := [.ofLow64 1] }
    let store : FallibleStore := { memory := .empty, refusesPut := true }
    let s := Snapshot.ofSigners config 0 (Vector.replicate 32 7) config.signers
    let k : Keeper FallibleStore :=
      { config, store, memory := (Lru.empty 2).insert s.hash s, current := some s }
    let c : Call := .advance Snapshot.declared (fun _ => false)
      [.declaring (.ofLow64 1) 1 .authorize (.ofLow64 2)]
    (k.perform c).1 = .error (.persistence "put refused") ∧ k.CheckpointRefused c ∧
      (k.perform c).2.current ≠ k.current ∧
      (k.perform c).2.current = ((k.onto MemoryStore.empty).perform c).2.current ∧
      (k.perform c).2.memory = ((k.onto MemoryStore.empty).perform c).2.memory := by
  intro config store s k c
  have h : (k.perform c).1 = .error (.persistence "put refused") := by decide +kernel
  obtain ⟨t, ht, hcheckpoint⟩ := exists_eq_ok_of_any
    (x := s.applyWithAbort Snapshot.declared (fun _ => false)
      [.declaring (.ofLow64 1) 1 .authorize (.ofLow64 2)])
    (p := fun t => isCheckpoint config s.number t) (by decide +kernel)
  have hrefused : k.CheckpointRefused c := ⟨s, t, _, rfl, ht, hcheckpoint, rfl⟩
  obtain ⟨-, -, hlive⟩ := unchanged_of_error FallibleStore.contents k c h
  obtain ⟨hanswer, hsame⟩ := hlive hrefused
  obtain ⟨answer, hok⟩ := hanswer .empty
  exact ⟨h, hrefused, by decide +kernel, hsame MemoryStore .empty answer hok⟩

end Atomicity

end Keeper

end SignerVoting
