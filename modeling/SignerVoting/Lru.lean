/-!
# Bounded memories

A memory of a bounded number of entries. Writing an entry and finding it both make it the most
recent one, and when there is no room, the entry longest out of use is forgotten, so that the bound
is kept (`size_insert_le`).
-/

namespace SignerVoting

/-- At most `capacity` entries, the most recent first. -/
structure Lru (κ ν : Type) where
  capacity : Nat
  entries : List (κ × ν)

namespace Lru

variable {κ ν : Type} [DecidableEq κ]

/-- A memory without entries. -/
def empty (capacity : Nat) : Lru κ ν := ⟨capacity, []⟩

/-- The number of entries. -/
def size (l : Lru κ ν) : Nat := l.entries.length

/-- The value under a key. -/
def find? (l : Lru κ ν) (k : κ) : Option ν := l.entries.lookup k

/-- Makes this the most recent entry, in the place of one with the same key. -/
def insert (l : Lru κ ν) (k : κ) (v : ν) : Lru κ ν :=
  { l with entries := ((k, v) :: l.entries.filter fun e => e.1 ≠ k).take l.capacity }

/-- The value under a key, and the memory with that entry the most recent. -/
def access (l : Lru κ ν) (k : κ) : Option ν × Lru κ ν :=
  match l.find? k with
  | some v => (some v, l.insert k v)
  | none => (none, l)

theorem size_insert_le (l : Lru κ ν) (k : κ) (v : ν) : (l.insert k v).size ≤ l.capacity := by
  simp only [insert, size, List.length_take]
  exact Nat.min_le_left _ _

end Lru

end SignerVoting
