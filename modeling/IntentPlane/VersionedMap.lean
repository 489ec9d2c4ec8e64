import IntentPlane.Table

/-!
# Versioned maps

A map whose entries carry the version they were written at. One clock serves all keys and every
write takes its next tick, so a version is never given out twice, and a write that asks for the
version it read fails after any other write to the key.
-/

namespace IntentPlane

structure Versioned (β : Type) where
  value : β
  version : Nat
  deriving DecidableEq

structure VersionedMap (κ β : Type) where
  clock : Nat
  table : Table κ (Versioned β)

namespace VersionedMap

variable {κ β : Type} [DecidableEq κ]

def empty : VersionedMap κ β := ⟨0, .empty⟩

def get? (m : VersionedMap κ β) (k : κ) : Option (Versioned β) := m.table.get? k

/-- Writes a value at the next tick. -/
def put (m : VersionedMap κ β) (k : κ) (b : β) : VersionedMap κ β :=
  ⟨m.clock + 1, m.table.insert k ⟨b, m.clock + 1⟩⟩

/-- The entry at a key, which is written first if there is none. -/
def ensure (m : VersionedMap κ β) (k : κ) (b : β) : Versioned β × VersionedMap κ β :=
  match m.get? k with
  | some read => (read, m)
  | none => (⟨b, m.clock + 1⟩, m.put k b)

/-- Writes a value if the entry is still at the version given, and says whether it was. -/
def replace (m : VersionedMap κ β) (k : κ) (version : Nat) (b : β) : Bool × VersionedMap κ β :=
  if (m.get? k).any (·.version = version) then (true, m.put k b) else (false, m)

def remove (m : VersionedMap κ β) (k : κ) : Option β × VersionedMap κ β :=
  ((m.get? k).map (·.value), { m with table := m.table.erase k })

def keys (m : VersionedMap κ β) : List κ := m.table.keys

def entries (m : VersionedMap κ β) : List (κ × β) := m.table.entries.map fun (k, v) => (k, v.value)

end VersionedMap

end IntentPlane
