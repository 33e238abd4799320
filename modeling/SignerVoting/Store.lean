import Std.Data.ExtTreeMap
import SignerVoting.Failure

/-!
# Stores

A store holds byte strings under keys. It may refuse to read or to write; a write that is refused
leaves everything as it was.
-/

namespace SignerVoting

/-- What holds byte strings under keys. -/
class KeyValueStore (σ : Type) where
  /-- What is held under a key. -/
  get (key : List UInt8) : ExceptT Failure (StateM σ) (Option (List UInt8))
  /-- Holds a value under a key from now on. -/
  put (key value : List UInt8) : ExceptT Failure (StateM σ) Unit

/-- A store in memory, which refuses nothing. -/
structure MemoryStore where
  entries : Std.ExtTreeMap (List UInt8) (List UInt8)

namespace MemoryStore

/-- A store that holds nothing. -/
def empty : MemoryStore := ⟨∅⟩

/-- The number of entries. -/
def size (s : MemoryStore) : Nat := s.entries.size

/-- What is held under a key. -/
def get? (s : MemoryStore) (key : List UInt8) : Option (List UInt8) := s.entries[key]?

/-- The store with a value under a key. -/
def insert (s : MemoryStore) (key value : List UInt8) : MemoryStore :=
  ⟨s.entries.insert key value⟩

theorem get?_insert (s : MemoryStore) (k v key : List UInt8) :
    (s.insert k v).get? key = if k = key then some v else s.get? key := by
  simp [insert, get?, Std.ExtTreeMap.getElem?_insert, Std.LawfulEqCmp.compare_eq_iff_eq]

instance : KeyValueStore MemoryStore where
  get key := return (← getThe MemoryStore).get? key
  put key value := modifyThe MemoryStore fun s => s.insert key value

end MemoryStore

/-- A store in memory that can be told to refuse. -/
structure FallibleStore where
  memory : MemoryStore
  refusesGet : Bool := false
  refusesPut : Bool := false

namespace FallibleStore

instance : KeyValueStore FallibleStore where
  get key := do
    let s ← getThe FallibleStore
    if s.refusesGet then throw (.persistence "get refused")
    return s.memory.get? key
  put key value := do
    let s ← getThe FallibleStore
    if s.refusesPut then throw (.persistence "put refused")
    set { s with memory := s.memory.insert key value }

end FallibleStore

end SignerVoting
