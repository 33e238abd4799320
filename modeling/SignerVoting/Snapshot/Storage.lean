import SignerVoting.Snapshot.Document
import SignerVoting.Store

/-!
# Stored snapshots

A snapshot is held in a store under a key made from the hash of its block.
-/

namespace SignerVoting

namespace Snapshot

/-- The key of the snapshot of a block. -/
def storeKey (block : Digest) : List UInt8 := Bytes.ofString "poa-snapshot-" ++ block.toList

/-- The snapshot of a block, from what is held under its key. -/
def ofStored (config : Config) (block : Digest) : Option (List UInt8) → Except Failure Snapshot
  | none => .error (.snapshotNotFound block)
  | some text =>
    match decode? config text with
    | none => .error (.undecodable .unreadable)
    | some s =>
      if s.hash = block then .ok s else .error (.undecodable (.otherBlock s.hash block))

section Storage

variable {σ : Type} [KeyValueStore σ]

/-- The stored snapshot of a block, with a configuration. -/
def load (config : Config) (block : Digest) : ExceptT Failure (StateM σ) Snapshot := do
  let held ← KeyValueStore.get (storeKey block)
  ExceptT.mk (pure (ofStored config block held))

/-- Stores the snapshot, its sets and mappings written in the order given. -/
def storeIn (s : Snapshot) (order : s.Arrangement) : ExceptT Failure (StateM σ) Unit :=
  KeyValueStore.put (storeKey s.hash) (s.encode order)

/-- Stores the snapshot, its sets and mappings written in their sorted order. -/
def store (s : Snapshot) : ExceptT Failure (StateM σ) Unit := s.storeIn (.sorted s)

end Storage

end Snapshot

end SignerVoting
