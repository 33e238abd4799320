import SignerVoting.Snapshot.Replay
import SignerVoting.Snapshot.Storage

/-!
# Keepers

A keeper holds the live snapshot of a chain, remembers a bounded number of snapshots, and writes
every snapshot that falls on a checkpoint to its store. A request that fails leaves the keeper as it
was, except that a snapshot which could not be written is live all the same.

The requests that write are given the orders in which they write sets and mappings, and take the
sorted ones if they are not.
-/

namespace SignerVoting

/-- The live snapshot of a chain, with what it can be restored from. -/
structure Keeper (σ : Type) where
  config : Config
  store : σ
  /-- The snapshots in memory, by the hash of the block. -/
  memory : Lru Digest Snapshot
  /-- The live snapshot. -/
  current : Option Snapshot

namespace Keeper

/-- A keeper without a live snapshot, if the configuration has no fault. -/
def create {σ : Type} (config : Config) (store : σ) : Except Failure (Keeper σ) :=
  match config.fault? with
  | some fault => .error (.invalidConfig fault)
  | none =>
    .ok { config, store, memory := .empty config.snapshotsInMemory.toNat, current := none }

/-- A request to a keeper. -/
abbrev Request (σ : Type) (m : Type → Type) (α : Type) := ExceptT Failure (StateT (Keeper σ) m) α

section Requests

variable {σ : Type} {m : Type → Type} [KeyValueStore σ] [Monad m]

/-- A request to the store. -/
def onStore {α : Type} (request : ExceptT Failure (StateM σ) α) : Request σ m α := do
  let k ← getThe (Keeper σ)
  let (result, store) := request.run.run k.store
  set { k with store }
  ExceptT.mk (pure result)

/-- Makes a snapshot live. -/
def install (s : Snapshot) : Request σ m Snapshot := do
  modifyThe (Keeper σ) fun k => { k with memory := k.memory.insert s.hash s, current := some s }
  return s

/-- The snapshot of the first block, stored and live. -/
def genesis (block : Digest) (arrange : Snapshot.Arranging := Snapshot.Arrangement.sorted) :
    Request σ m Snapshot := do
  let k ← getThe (Keeper σ)
  let s := Snapshot.ofSigners k.config 0 block k.config.signers
  onStore (s.storeIn (arrange s))
  install s

/-- The snapshot of a block, from memory or else from the store. -/
def snapshot (block : Digest) : Request σ m Snapshot := do
  let k ← getThe (Keeper σ)
  let (known, memory) := k.memory.access block
  match known with
  | some s =>
    set { k with memory }
    return s
  | none =>
    let s ← onStore (Snapshot.load k.config block)
    modifyThe (Keeper σ) fun k => { k with memory := k.memory.insert block s }
    return s

/-- The snapshot of a block, now live. -/
def resume (block : Digest) : Request σ m Snapshot := do
  let s ← snapshot block
  install s

/-- Whether a snapshot is to be stored when it follows a block of that number. -/
def isCheckpoint (config : Config) (previous : UInt64) (s : Snapshot) : Bool :=
  s.number ≠ previous ∧ s.number % config.checkpointInterval = 0

/-- The snapshot after the headers, live, and stored if it falls on a checkpoint. -/
def advance (resolve : Resolver m) (abort : Nat → Bool) (headers : List Header)
    (arrange : Snapshot.Arranging := Snapshot.Arrangement.sorted) : Request σ m Snapshot := do
  let k ← getThe (Keeper σ)
  match k.current with
  | none => throw .noSnapshot
  | some current =>
    let result ← (current.replay resolve abort headers).run
    let s ← ExceptT.mk (pure result)
    discard (install s)
    if isCheckpoint k.config current.number s then onStore (s.storeIn (arrange s))
    return s

end Requests

end Keeper

end SignerVoting
