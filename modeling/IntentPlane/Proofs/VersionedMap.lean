import IntentPlane.VersionedMap

/-!
# Looking up versioned maps

What each operation on a versioned map does to the entries and, versions left out, to the values.
-/

namespace IntentPlane

variable {κ β : Type} [DecidableEq κ]

theorem Table.erase_of_get?_none {t : Table κ β} {k : κ} (h : t.get? k = none) :
    t.erase k = t := by
  have hkept : t.entries.filter (fun e => e.1 ≠ k) = t.entries := by
    apply List.filter_eq_self.mpr
    intro e he
    apply decide_eq_true
    intro hkey
    have hget : t.get? k = some e.2 := hkey ▸ Table.mem_entries.mp he
    cases h.symm.trans hget
  obtain ⟨entries, nodup⟩ := t
  simpa only [erase, Table.mk.injEq] using hkept

namespace VersionedMap

/-- The value at a key, without its version. -/
def value? (m : VersionedMap κ β) (k : κ) : Option β := (m.get? k).map (·.value)

@[simp] theorem get?_empty (k : κ) : (empty : VersionedMap κ β).get? k = none := rfl

@[simp] theorem value?_empty (k : κ) : (empty : VersionedMap κ β).value? k = none := rfl

theorem get?_put (m : VersionedMap κ β) (k l : κ) (b : β) :
    (m.put k b).get? l = if k = l then some ⟨b, m.clock + 1⟩ else m.get? l :=
  Table.get?_insert ..

theorem get?_remove (m : VersionedMap κ β) (k l : κ) :
    (m.remove k).2.get? l = if k = l then none else m.get? l :=
  Table.get?_erase ..

theorem get?_ensure (m : VersionedMap κ β) (k l : κ) (b : β) :
    (m.ensure k b).2.get? l = if k = l then some (m.ensure k b).1 else m.get? l := by
  unfold ensure
  split
  · grind
  · rw [get?_put]

@[simp] theorem value?_put (m : VersionedMap κ β) (k l : κ) (b : β) :
    (m.put k b).value? l = if k = l then some b else m.value? l := by
  rw [value?, get?_put]
  split <;> simp [value?]

@[simp] theorem value?_remove (m : VersionedMap κ β) (k l : κ) :
    (m.remove k).2.value? l = if k = l then none else m.value? l := by
  rw [value?, get?_remove]
  split <;> simp [value?]

theorem ensure_value (m : VersionedMap κ β) (k : κ) (b : β) :
    (m.ensure k b).1.value = (m.value? k).getD b := by
  unfold ensure value?
  split <;> rename_i h <;> simp [h]

@[simp] theorem value?_ensure (m : VersionedMap κ β) (k l : κ) (b : β) :
    (m.ensure k b).2.value? l = if k = l then some ((m.value? k).getD b) else m.value? l := by
  rw [value?, get?_ensure]
  split
  · simp [ensure_value]
  · rfl

theorem ensure_of_get? {m : VersionedMap κ β} {k : κ} {v : Versioned β} (h : m.get? k = some v)
    (b : β) : m.ensure k b = (v, m) := by simp [ensure, h]

theorem ensure_of_get?_none {m : VersionedMap κ β} {k : κ} (h : m.get? k = none) (b : β) :
    m.ensure k b = (⟨b, m.clock + 1⟩, m.put k b) := by simp [ensure, h]

/-- A write at the version that is stored succeeds. -/
theorem replace_current {m : VersionedMap κ β} {k : κ} {v : Versioned β} (h : m.get? k = some v)
    (b : β) : m.replace k v.version b = (true, m.put k b) := by simp [replace, h]

theorem replace_failed {m : VersionedMap κ β} {k : κ} {version : Nat} {b : β}
    (h : (m.replace k version b).1 = false) : m.replace k version b = (false, m) := by
  unfold replace at h ⊢
  split at h
  · cases h
  next hstale => rw [if_neg hstale]

theorem replace_succeeded {m : VersionedMap κ β} {k : κ} {version : Nat} {b : β}
    (h : (m.replace k version b).1 = true) : m.replace k version b = (true, m.put k b) := by
  unfold replace at h ⊢
  split at h
  next hcurrent => rw [if_pos hcurrent]
  · cases h

/-- A conditional write succeeds just if the version is the one stored. -/
theorem replace_iff {m : VersionedMap κ β} {k : κ} {version : Nat} {b : β} :
    (m.replace k version b).1 = true ↔ ∃ v, m.get? k = some v ∧ v.version = version := by
  unfold replace
  cases m.get? k with
  | none => simp
  | some v => by_cases hversion : v.version = version <;> simp [hversion]

theorem remove_of_get?_none {m : VersionedMap κ β} {k : κ} (h : m.get? k = none) :
    m.remove k = (none, m) := by
  have htable : m.table.erase k = m.table := Table.erase_of_get?_none h
  rw [remove, h, htable]
  rfl

theorem mem_entries {m : VersionedMap κ β} {k : κ} {b : β} :
    (k, b) ∈ m.entries ↔ m.value? k = some b := by
  simp only [entries, List.mem_map, Prod.mk.injEq, value?, Option.map_eq_some_iff, get?]
  constructor
  · rintro ⟨⟨l, v⟩, h, rfl, rfl⟩
    exact ⟨v, Table.mem_entries.mp h, rfl⟩
  · rintro ⟨v, h, rfl⟩
    exact ⟨(k, v), Table.mem_entries.mpr h, rfl, rfl⟩

end VersionedMap

end IntentPlane
