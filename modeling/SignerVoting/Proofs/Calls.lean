import Mathlib.Data.List.Induction
import SignerVoting.Keeper
import SignerVoting.Proofs.Persistence

/-!
# Calls of keepers

A keeper answers one *call* after the other (`Call`, `perform`). Whatever its store, a call comes to
a request to the store and to a few changes of the keeper: a snapshot is put in memory (`remember`),
or made live (`hold`). A call that writes a snapshot may write its sets and mappings in any order,
so that what holds of all calls holds whatever these orders are.

* `perform_genesis`, `perform_resume`, `perform_snapshot`, `perform_advance`: what each call does;
* `served`: over a store in memory a call is refused and changes nothing, or it answers a snapshot
  that it has found (`known`) or made.
-/

namespace SignerVoting

namespace Keeper

/-- What a keeper can be called for. Where a snapshot is written, `arrange` chooses the order. -/
inductive Call
  /-- To begin a chain with the configured signers. -/
  | genesis (block : Digest) (arrange : Snapshot.Arranging := Snapshot.Arrangement.sorted)
  /-- To make the snapshot of a block live. -/
  | resume (block : Digest)
  /-- To look up the snapshot of a block. -/
  | snapshot (block : Digest)
  /-- To replay headers on the live snapshot. `abort` tells, before each header, whether to stop. A
      replay asks for the signer of a header once, and no two headers have one number, so that a
      function covers a way of finding signers which remembers things. -/
  | advance (recover : Header → Except Failure Address) (abort : Nat → Bool) (headers : List Header)
      (arrange : Snapshot.Arranging := Snapshot.Arrangement.sorted)

section Requests

variable {σ τ : Type}

/-- The answer to a request, and the keeper after it. -/
def serve {α : Type} (k : Keeper σ) (request : Request σ Id α) : Except Failure α × Keeper σ :=
  request.run.run k

/-- The snapshot of a first block, with the configured signers. -/
def first (k : Keeper σ) (block : Digest) : Snapshot :=
  .ofSigners k.config 0 block k.config.signers

/-- The keeper with a snapshot in memory, as the one last used. -/
def remember (k : Keeper σ) (block : Digest) (s : Snapshot) : Keeper σ :=
  { k with memory := k.memory.insert block s }

/-- The keeper with a snapshot live. -/
def hold (k : Keeper σ) (s : Snapshot) : Keeper σ := { k.remember s.hash s with current := some s }

/-- The keeper with another store. -/
def onto (k : Keeper σ) (store : τ) : Keeper τ where
  config := k.config
  store := store
  memory := k.memory
  current := k.current

@[simp]
theorem store_hold (k : Keeper σ) (s : Snapshot) : (k.hold s).store = k.store := rfl

theorem serve_bind {α β : Type} (k : Keeper σ) (request : Request σ Id α)
    (next : α → Request σ Id β) :
    k.serve (request >>= next) =
      match k.serve request with
      | (.ok a, after) => after.serve (next a)
      | (.error e, after) => (.error e, after) := by
  rw [serve, ExceptT.run_bind, StateT.run_bind]
  change (k.serve request >>= _ : Id _) = _
  rcases k.serve request with ⟨e | a, after⟩ <;> rfl

theorem serve_getThe_bind {α : Type} (k : Keeper σ) (next : Keeper σ → Request σ Id α) :
    k.serve (getThe (Keeper σ) >>= next) = k.serve (next k) := rfl

theorem serve_onStore {α : Type} (k : Keeper σ) (request : ExceptT Failure (StateM σ) α) :
    k.serve (onStore request) =
      ((request.run.run k.store).1, k.onto (request.run.run k.store).2) := rfl

end Requests

section Stores

variable {σ : Type} [KeyValueStore σ]

/-- The request that a call makes. -/
def Call.request : Call → Request σ Id Snapshot
  | genesis block arrange => Keeper.genesis block arrange
  | resume block => Keeper.resume block
  | snapshot block => Keeper.snapshot block
  | advance recover abort headers arrange => Keeper.advance recover abort headers arrange

/-- The answer to a call, and the keeper after it. -/
def perform (k : Keeper σ) (c : Call) : Except Failure Snapshot × Keeper σ := k.serve c.request

/-! ## Calls over any store -/

theorem perform_genesis (k : Keeper σ) (block : Digest) (arrange : Snapshot.Arranging) :
    k.perform (.genesis block arrange) =
      match ((k.first block).storeIn (arrange _)).run.run k.store with
      | (.ok _, store) => (.ok (k.first block), (k.onto store).hold (k.first block))
      | (.error e, store) => (.error e, k.onto store) := by
  change k.serve (onStore ((k.first block).storeIn (arrange _)) >>= fun _ =>
    install (k.first block)) = _
  rw [serve_bind, serve_onStore]
  rcases ((k.first block).storeIn (arrange _)).run.run k.store with ⟨e | _, store⟩ <;> rfl

theorem perform_snapshot (k : Keeper σ) (block : Digest) :
    k.perform (.snapshot block) =
      match k.memory.find? block with
      | some s => (.ok s, k.remember block s)
      | none =>
        match (Snapshot.load k.config block).run.run k.store with
        | (.ok s, store) => (.ok s, (k.onto store).remember block s)
        | (.error e, store) => (.error e, k.onto store) := by
  rw [perform, Call.request, Keeper.snapshot, serve_getThe_bind, Lru.access]
  rcases k.memory.find? block with _ | s
  · dsimp only
    rw [serve_bind, serve_onStore]
    rcases (Snapshot.load k.config block).run.run k.store with ⟨e | s, store⟩ <;> rfl
  · rfl

/-- What is looked up is made live. -/
theorem perform_resume (k : Keeper σ) (block : Digest) :
    k.perform (.resume block) =
      match k.perform (.snapshot block) with
      | (.ok s, after) => (.ok s, after.hold s)
      | (.error e, after) => (.error e, after) := by
  have hsnapshot : k.serve (Keeper.snapshot block) = k.perform (.snapshot block) := rfl
  change k.serve (Keeper.snapshot block >>= install) = _
  rw [serve_bind, hsnapshot]
  rcases k.perform (.snapshot block) with ⟨e | s, after⟩ <;> rfl

/-- The snapshot of the last header is live before it is written. -/
theorem perform_advance (k : Keeper σ) (recover : Header → Except Failure Address)
    (abort : Nat → Bool) (headers : List Header) (arrange : Snapshot.Arranging) :
    k.perform (.advance recover abort headers arrange) =
      match k.current with
      | none => (.error .noSnapshot, k)
      | some s =>
        match s.applyWithAbort recover abort headers with
        | .error e => (.error e, k)
        | .ok t =>
          if isCheckpoint k.config s.number t then
            match (t.storeIn (arrange t)).run.run k.store with
            | (.ok _, store) => (.ok t, (k.hold t).onto store)
            | (.error e, store) => (.error e, (k.hold t).onto store)
          else (.ok t, k.hold t) := by
  rw [perform, Call.request, Keeper.advance, serve_getThe_bind]
  rcases k.current with _ | s
  · rfl
  have hreplay : k.serve (do
      let result ← (Snapshot.replay (m := Id) recover abort s headers).run
      let t ← ExceptT.mk (pure result)
      discard (install t)
      if isCheckpoint k.config s.number t then onStore (t.storeIn (arrange t))
      return t) =
    k.serve (do
      let t ← ExceptT.mk (pure (s.applyWithAbort recover abort headers))
      discard (install t)
      if isCheckpoint k.config s.number t then onStore (t.storeIn (arrange t))
      return t) := rfl
  refine hreplay.trans ?_
  -- A replay does not ask the keeper, so that only its result matters.
  dsimp only
  rcases s.applyWithAbort recover abort headers with e | t
  · rfl
  change (k.hold t).serve (if isCheckpoint k.config s.number t then
    onStore (t.storeIn (arrange t)) >>= fun _ => pure t else pure t) = _
  dsimp only
  split
  · rw [serve_bind, serve_onStore, store_hold]
    rcases (t.storeIn (arrange t)).run.run k.store with ⟨e | _, store⟩ <;> rfl
  · rfl

/-! ## One call after the other -/

/-- The keeper after these calls. -/
def after (k : Keeper σ) (calls : List Call) : Keeper σ :=
  calls.foldl (fun k c => (k.perform c).2) k

/-- The calls with their answers. -/
def trace (k : Keeper σ) : List Call → List (Call × Except Failure Snapshot)
  | [] => []
  | c :: calls => (c, (k.perform c).1) :: (k.perform c).2.trace calls

theorem after_append (k : Keeper σ) (calls more : List Call) :
    k.after (calls ++ more) = (k.after calls).after more := List.foldl_append

@[simp]
theorem after_concat (k : Keeper σ) (calls : List Call) (c : Call) :
    k.after (calls ++ [c]) = ((k.after calls).perform c).2 := after_append k calls [c]

@[simp]
theorem trace_concat (k : Keeper σ) (calls : List Call) (c : Call) :
    k.trace (calls ++ [c]) = k.trace calls ++ [(c, ((k.after calls).perform c).1)] := by
  induction calls generalizing k with
  | nil => rfl
  | cons d calls ih =>
    rw [List.cons_append, trace, ih, trace, List.cons_append]
    rfl

/-- The answers to calls, in their order. -/
def answers (k : Keeper σ) (calls : List Call) : List (Except Failure Snapshot) :=
  (k.trace calls).map Prod.snd

/-- The snapshots answered, in their order. -/
def answered (k : Keeper σ) (calls : List Call) : List Snapshot :=
  (k.trace calls).filterMap fun e => e.2.toOption

theorem answered_concat (k : Keeper σ) (calls : List Call) (c : Call) :
    k.answered (calls ++ [c]) =
      k.answered calls ++ ((k.after calls).perform c).1.toOption.toList := by
  rw [answered, trace_concat, List.filterMap_append, answered]
  cases ((k.after calls).perform c).1 <;> rfl

end Stores

/-! ## Calls over a store in memory -/

section InMemory

variable {k : Keeper MemoryStore} {config : Config} {store : MemoryStore} {block : Digest}
  {s t : Snapshot}

theorem create_eq_ok_iff :
    create config store = .ok k ↔
      config.fault? = none ∧
        k = ⟨config, store, .empty config.snapshotsInMemory.toNat, none⟩ := by
  rw [create]
  rcases config.fault? with _ | fault
  · simp [eq_comm]
  · simp

/-- What the store knows of a block. -/
def stored (k : Keeper MemoryStore) (block : Digest) : Except Failure Snapshot :=
  Snapshot.ofStored k.config block (k.store.get? (Snapshot.storeKey block))

/-- What is known of a block, from memory or else from the store. -/
def known (k : Keeper MemoryStore) (block : Digest) : Except Failure Snapshot :=
  match k.memory.find? block with
  | some s => .ok s
  | none => k.stored block

theorem known_eq_ok_iff :
    k.known block = .ok s ↔
      k.memory.find? block = some s ∨ k.memory.find? block = none ∧ k.stored block = .ok s := by
  rw [known]
  rcases k.memory.find? block with _ | t <;> simp

/-- The keeper with a snapshot in its store, its sets and mappings written in the order given. -/
def write (k : Keeper MemoryStore) (s : Snapshot) (order : s.Arrangement) : Keeper MemoryStore :=
  k.onto (k.store.insert (Snapshot.storeKey s.hash) (s.encode order))

theorem get?_store_write {order : t.Arrangement} (key : List UInt8) :
    (k.write t order).store.get? key =
      if Snapshot.storeKey t.hash = key then some (t.encode order) else k.store.get? key :=
  MemoryStore.get?_insert ..

/-- In whatever order it was written, a snapshot is the one stored under its hash, and what is
    stored under another one stays. -/
theorem stored_write {order : t.Arrangement} (hconfig : t.config = k.config) (block : Digest) :
    (k.write t order).stored block = if block = t.hash then .ok t else k.stored block := by
  have hkept : (k.write t order).config = k.config := rfl
  rw [stored, get?_store_write, hkept]
  split
  · rename_i hkey
    obtain rfl := Snapshot.storeKey_inj.1 hkey
    rw [if_pos rfl, Snapshot.ofStored_encode, ← hconfig]
  · rename_i hkey
    rw [if_neg fun hblock => hkey (congrArg Snapshot.storeKey hblock.symm)]
    rfl

theorem load_eq_stored (k : Keeper MemoryStore) (block : Digest) :
    (Snapshot.load k.config block).run.run k.store = (k.stored block, k.store) := rfl

/-- What a look-up answers, and what it leaves. -/
theorem perform_snapshot_eq (k : Keeper MemoryStore) (block : Digest) :
    k.perform (.snapshot block) =
      match k.known block with
      | .ok s => (.ok s, k.remember block s)
      | .error e => (.error e, k) := by
  rw [perform_snapshot, known, load_eq_stored]
  rcases k.memory.find? block with _ | s
  · dsimp only
    rcases k.stored block with e | s <;> rfl
  · rfl

theorem answer_snapshot (k : Keeper MemoryStore) (block : Digest) :
    (k.perform (.snapshot block)).1 = k.known block := by
  rw [perform_snapshot_eq]
  rcases k.known block with e | s <;> rfl

/-- The answers of a keeper, and what it is after them. -/
inductive Served (k : Keeper MemoryStore) :
    Call → Except Failure Snapshot → Keeper MemoryStore → Prop
  /-- A call that is refused changes nothing. -/
  | refused (c : Call) (e : Failure) : Served k c (.error e) k
  /-- A first snapshot is written and live. -/
  | genesis (block : Digest) (arrange : Snapshot.Arranging) :
      Served k (.genesis block arrange) (.ok (k.first block))
        ((k.write (k.first block) (arrange _)).hold (k.first block))
  /-- What is looked up is in memory. -/
  | snapshot {block : Digest} {s : Snapshot} (h : k.known block = .ok s) :
      Served k (.snapshot block) (.ok s) (k.remember block s)
  /-- What is looked up can be live as well. -/
  | resume {block : Digest} {s : Snapshot} (h : k.known block = .ok s) :
      Served k (.resume block) (.ok s) ((k.remember block s).hold s)
  /-- The snapshot of the last header is live, and written if it falls on a checkpoint. -/
  | advance {recover : Header → Except Failure Address} {abort : Nat → Bool}
      {headers : List Header} {arrange : Snapshot.Arranging} {s t : Snapshot}
      (hs : k.current = some s) (ht : s.applyWithAbort recover abort headers = .ok t) :
      Served k (.advance recover abort headers arrange) (.ok t)
        ((if isCheckpoint k.config s.number t then k.write t (arrange t) else k).hold t)

/-- A call does nothing else. -/
theorem served (k : Keeper MemoryStore) (c : Call) :
    Served k c (k.perform c).1 (k.perform c).2 := by
  cases c with
  | genesis block arrange =>
    rw [perform_genesis]
    exact .genesis block arrange
  | snapshot block =>
    rw [perform_snapshot_eq]
    rcases h : k.known block with e | s
    · exact .refused _ e
    · exact .snapshot h
  | resume block =>
    rw [perform_resume, perform_snapshot_eq]
    rcases h : k.known block with e | s
    · exact .refused _ e
    · exact .resume h
  | advance recover abort headers arrange =>
    rw [perform_advance]
    rcases hs : k.current with _ | s
    · exact .refused _ .noSnapshot
    dsimp only
    rcases ht : s.applyWithAbort recover abort headers with e | t
    · exact .refused _ e
    have hadvance : Served k (.advance recover abort headers arrange) _ _ := .advance hs ht
    dsimp only
    split
    · rename_i hcheckpoint
      rw [if_pos hcheckpoint] at hadvance
      exact hadvance
    · rename_i hcheckpoint
      rw [if_neg hcheckpoint] at hadvance
      exact hadvance

/-- What no call ends holds after all of them. -/
theorem invariant {p : Keeper MemoryStore → Prop} (hk : p k)
    (hserved : ∀ {k c r after}, p k → Served k c r after → p after) (calls : List Call) :
    p (k.after calls) := by
  induction calls using List.reverseRecOn with
  | nil => exact hk
  | append_singleton calls c ih =>
    rw [after_concat]
    exact hserved ih (served _ c)

end InMemory

end Keeper

end SignerVoting
