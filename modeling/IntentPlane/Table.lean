/-!
# Tables

Finite maps as lists of entries, in the order in which their keys were first inserted.
-/

namespace IntentPlane

namespace Table

variable {κ β : Type} [DecidableEq κ]

/-- The value of the first entry with the key. -/
def findEntry (k : κ) : List (κ × β) → Option β
  | [] => none
  | (l, b) :: rest => if l = k then some b else findEntry k rest

/-- Sets the value of the first entry with the key, or adds an entry. -/
def setEntry (k : κ) (b : β) : List (κ × β) → List (κ × β)
  | [] => [(k, b)]
  | (l, c) :: rest => if l = k then (k, b) :: rest else (l, c) :: setEntry k b rest

theorem findEntry_setEntry (k l : κ) (b : β) (es : List (κ × β)) :
    findEntry l (setEntry k b es) = if k = l then some b else findEntry l es := by
  induction es with
  | nil => simp [setEntry, findEntry]
  | cons e es ih => grind [setEntry, findEntry]

theorem findEntry_filter_ne (k l : κ) (es : List (κ × β)) :
    findEntry l (es.filter fun e => e.1 ≠ k) = if k = l then none else findEntry l es := by
  induction es with
  | nil => simp [findEntry]
  | cons e es ih => grind [findEntry]

theorem keys_setEntry (k : κ) (b : β) (es : List (κ × β)) :
    (setEntry k b es).map (·.1) =
      if k ∈ es.map (·.1) then es.map (·.1) else es.map (·.1) ++ [k] := by
  induction es with
  | nil => rfl
  | cons e es ih => grind [setEntry]

theorem nodup_setEntry (k : κ) (b : β) {es : List (κ × β)} (h : (es.map (·.1)).Nodup) :
    ((setEntry k b es).map (·.1)).Nodup := by
  rw [keys_setEntry]
  split
  · exact h
  · rename_i hk
    exact List.nodup_append.2 ⟨h, by simp, fun a ha b hb => by grind⟩

theorem findEntry_eq_some {k : κ} {b : β} {es : List (κ × β)} (h : (es.map (·.1)).Nodup) :
    findEntry k es = some b ↔ (k, b) ∈ es := by
  induction es with
  | nil => simp [findEntry]
  | cons e es ih => grind [findEntry]

end Table

/-- A finite map. No key has two entries. -/
structure Table (κ β : Type) where
  entries : List (κ × β)
  nodup : (entries.map (·.1)).Nodup

namespace Table

variable {κ β : Type} [DecidableEq κ]

def empty : Table κ β := ⟨[], .nil⟩

def get? (t : Table κ β) (k : κ) : Option β := findEntry k t.entries

def contains (t : Table κ β) (k : κ) : Bool := (t.get? k).isSome

def insert (t : Table κ β) (k : κ) (b : β) : Table κ β :=
  ⟨setEntry k b t.entries, nodup_setEntry k b t.nodup⟩

def erase (t : Table κ β) (k : κ) : Table κ β :=
  ⟨t.entries.filter fun e => e.1 ≠ k, t.nodup.sublist (List.filter_sublist.map _)⟩

def keys (t : Table κ β) : List κ := t.entries.map (·.1)

def values (t : Table κ β) : List β := t.entries.map (·.2)

def size (t : Table κ β) : Nat := t.entries.length

@[simp] theorem get?_empty (k : κ) : (empty : Table κ β).get? k = none := rfl

theorem get?_insert (t : Table κ β) (k l : κ) (b : β) :
    (t.insert k b).get? l = if k = l then some b else t.get? l :=
  findEntry_setEntry k l b t.entries

theorem get?_erase (t : Table κ β) (k l : κ) :
    (t.erase k).get? l = if k = l then none else t.get? l :=
  findEntry_filter_ne k l t.entries

theorem mem_entries {t : Table κ β} {k : κ} {b : β} : (k, b) ∈ t.entries ↔ t.get? k = some b :=
  (findEntry_eq_some t.nodup).symm

theorem mem_values {t : Table κ β} {b : β} : b ∈ t.values ↔ ∃ k, t.get? k = some b := by
  simp [values, ← mem_entries]

end Table

end IntentPlane
