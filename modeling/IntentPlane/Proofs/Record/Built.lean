import IntentPlane.Proofs.Record
import Mathlib.Data.Finset.Card
import Mathlib.Data.List.Induction

/-!
# Records that entries build

A record built from a sequence of entries is a map that keeps the order in which keys came first
(`collects_ofEntries`): each key once, with the last entry given for it. What an entry does to a
record it does in its own place (`getElem?_upsert`). The records without duplicates are those that
entries build (`nodup_keys_iff`).
-/

namespace IntentPlane.ServiceRecord

/-- A record is the map that a sequence of entries stands for, in the order of the sequence. -/
structure Collects (r : ServiceRecord) (es : List KeyStatus) : Prop where
  nodup : r.keys.Nodup
  mem_keys : ∀ {k}, k ∈ r.keys ↔ ∃ e ∈ es, e.key = k
  /-- Keys are in the order in which they came first. -/
  ordered : r.keys.Pairwise fun k l =>
    (es.map KeyStatus.key).idxOf k < (es.map KeyStatus.key).idxOf l
  /-- Of the entries with a key the last one counts. -/
  last : ∀ e ∈ r.entries, (es.filter (·.key = e.key)).getLast? = some e
  get? : ∀ k, r.get? k = (es.filter (·.key = k)).getLast?
  contains : ∀ k, r.contains k = true ↔ ∃ e ∈ es, e.key = k
  length : r.entries.length = (es.map KeyStatus.key).toFinset.card

variable {r : ServiceRecord} {e f : KeyStatus} {es fs : List KeyStatus} {k : IntentKey} {i : Nat}

/-! ## One entry -/

/-- Each entry stays in its place, and only one with the key given may change. -/
theorem getElem?_upsert (r : ServiceRecord) (e : KeyStatus) (h : r.entries[i]? = some f) :
    ∃ g, (r.upsert e).entries[i]? = some g ∧ g.key = f.key ∧ (f.key ≠ e.key → g = f) := by
  obtain ⟨es⟩ := r
  change ∃ g, (upsertEntry e es)[i]? = some g ∧ g.key = f.key ∧ (f.key ≠ e.key → g = f)
  change es[i]? = some f at h
  induction es generalizing i with
  | nil => cases h
  | cons d es ih =>
    rw [upsertEntry]
    cases i with
    | zero =>
      cases h
      split
      · rename_i hkey
        exact ⟨e, rfl, hkey.symm, fun hne => absurd hkey hne⟩
      · exact ⟨f, rfl, rfl, fun _ => rfl⟩
    | succ i =>
      split
      · exact ⟨f, h, rfl, fun _ => rfl⟩
      · exact ih h

/-- An entry with a new key comes last. -/
theorem entries_upsert_new (h : e.key ∉ r.keys) : (r.upsert e).entries = r.entries ++ [e] := by
  obtain ⟨es⟩ := r
  change upsertEntry e es = es ++ [e]
  change e.key ∉ es.map (·.key) at h
  induction es with
  | nil => rfl
  | cons d es ih =>
    rw [List.map_cons, List.mem_cons, not_or] at h
    rw [upsertEntry, if_neg (Ne.symm h.1), ih h.2, List.cons_append]

/-- An entry takes the place of the first one with its key. Others with the key stay. -/
theorem filter_upsert_self (r : ServiceRecord) (e : KeyStatus) :
    (r.upsert e).entries.filter (·.key = e.key) =
      e :: (r.entries.filter (·.key = e.key)).tail := by
  obtain ⟨es⟩ := r
  change (upsertEntry e es).filter (·.key = e.key) = e :: (es.filter (·.key = e.key)).tail
  induction es with
  | nil => simp [upsertEntry]
  | cons d es ih =>
    rw [upsertEntry]
    split
    · rename_i hkey
      simp [hkey]
    · rename_i hkey
      simpa [hkey] using ih

theorem filter_upsert_ne (r : ServiceRecord) (e : KeyStatus) :
    (r.upsert e).entries.filter (·.key ≠ e.key) = r.entries.filter (·.key ≠ e.key) := by
  obtain ⟨es⟩ := r
  change (upsertEntry e es).filter (·.key ≠ e.key) = es.filter (·.key ≠ e.key)
  induction es with
  | nil => simp [upsertEntry]
  | cons d es ih =>
    rw [upsertEntry]
    split
    · rename_i hkey
      simp [hkey]
    · rename_i hkey
      simpa [hkey] using ih

theorem nodup_keys_upsert (h : r.keys.Nodup) (e : KeyStatus) : (r.upsert e).keys.Nodup := by
  rw [keys_upsert]
  split
  · exact h
  · rename_i hnew
    refine List.nodup_append.mpr ⟨h, List.nodup_singleton _, fun k hk l hl => ?_⟩
    exact List.mem_singleton.mp hl ▸ ne_of_mem_of_not_mem hk hnew

/-! ## Any number of entries -/

theorem ofEntries_append (es : List KeyStatus) (e : KeyStatus) :
    ofEntries (es ++ [e]) = (ofEntries es).upsert e := by
  rw [ofEntries, List.foldl_append]
  rfl

theorem nodup_keys_ofEntries (es : List KeyStatus) : (ofEntries es).keys.Nodup := by
  induction es using List.reverseRecOn with
  | nil => exact List.nodup_nil
  | append_singleton es e ih => exact ofEntries_append es e ▸ nodup_keys_upsert ih e

/-- The keys of a record are those of the entries, each where it came first. -/
theorem keys_ofEntries (es : List KeyStatus) :
    (ofEntries es).keys = (es.map (·.key)).eraseDups := by
  induction es using List.reverseRecOn with
  | nil => rfl
  | append_singleton es e ih =>
    have hmem : e.key ∈ (ofEntries es).keys ↔ e.key ∈ es.map (·.key) := by
      rw [ih, List.mem_eraseDups]
    rw [ofEntries_append, keys_upsert, List.map_append, List.eraseDups_append, ← ih]
    generalize es.map (·.key) = ks at hmem
    split
    · rename_i hold
      simp [List.cons_removeAll, hmem.mp hold]
    · rename_i hnew
      simp [List.cons_removeAll, List.eraseDups_cons, mt hmem.mpr hnew]

theorem mem_keys_ofEntries : k ∈ (ofEntries es).keys ↔ k ∈ es.map (·.key) := by
  rw [keys_ofEntries, List.mem_eraseDups]

/-- Keys are in the order in which they came first. -/
theorem pairwise_keys_ofEntries (es : List KeyStatus) : (ofEntries es).keys.Pairwise
    fun k l => (es.map (·.key)).idxOf k < (es.map (·.key)).idxOf l := by
  induction es using List.reverseRecOn with
  | nil => exact .nil
  | append_singleton es e ih =>
    have hstay {k : IntentKey} (hk : k ∈ (ofEntries es).keys) :
        ((es ++ [e]).map (·.key)).idxOf k = (es.map (·.key)).idxOf k := by
      rw [List.map_append, List.idxOf_append_of_mem (mem_keys_ofEntries.mp hk)]
    have hold : (ofEntries es).keys.Pairwise fun k l =>
        ((es ++ [e]).map (·.key)).idxOf k < ((es ++ [e]).map (·.key)).idxOf l :=
      ih.imp_of_mem fun hk hl h => by rwa [hstay hk, hstay hl]
    rw [ofEntries_append, keys_upsert]
    split
    · exact hold
    · rename_i hnew
      refine List.pairwise_append.mpr ⟨hold, List.pairwise_singleton .., fun k hk l hl => ?_⟩
      obtain rfl := List.mem_singleton.mp hl
      have hlast : ((es ++ [e]).map (·.key)).idxOf e.key = (es.map (·.key)).length := by
        rw [List.map_append, List.idxOf_append_of_notMem (mt mem_keys_ofEntries.mpr hnew)]
        simp
      rw [hstay hk, hlast]
      exact List.idxOf_lt_length_of_mem (mem_keys_ofEntries.mp hk)

/-- Of the entries with a key the last one counts. -/
theorem get?_ofEntries (es : List KeyStatus) (k : IntentKey) :
    (ofEntries es).get? k = (es.filter (·.key = k)).getLast? := by
  induction es using List.reverseRecOn with
  | nil => rfl
  | append_singleton es e ih =>
    rw [ofEntries_append, get?_upsert, ih, List.filter_append]
    split
    · rename_i hkey
      simp [hkey]
    · rename_i hkey
      simp [hkey]

theorem length_ofEntries (es : List KeyStatus) :
    (ofEntries es).entries.length = (es.map (·.key)).toFinset.card := by
  have hkeys : (ofEntries es).keys.toFinset = (es.map (·.key)).toFinset := by
    ext k
    rw [List.mem_toFinset, List.mem_toFinset, mem_keys_ofEntries]
  rw [← hkeys, List.toFinset_card_of_nodup (nodup_keys_ofEntries es), keys, List.length_map]

theorem collects_ofEntries (es : List KeyStatus) : (ofEntries es).Collects es where
  nodup := nodup_keys_ofEntries es
  mem_keys {k} := by rw [mem_keys_ofEntries, List.mem_map]
  ordered := pairwise_keys_ofEntries es
  last e he := by
    rw [← get?_ofEntries]
    exact (get?_eq_some_iff (nodup_keys_ofEntries es)).mpr ⟨he, rfl⟩
  get? := get?_ofEntries es
  contains k := by rw [contains_iff, mem_keys_ofEntries, List.mem_map]
  length := length_ofEntries es

/-- Sequences build the same record if keys come first in the same order and have the same last
entries. -/
theorem ofEntries_congr (hkeys : (es.map (·.key)).eraseDups = (fs.map (·.key)).eraseDups)
    (hlast : ∀ k, (es.filter (·.key = k)).getLast? = (fs.filter (·.key = k)).getLast?) :
    ofEntries es = ofEntries fs := by
  refine ext_get? (nodup_keys_ofEntries fs) ?_ fun k => ?_
  · rw [keys_ofEntries, keys_ofEntries, hkeys]
  · rw [get?_ofEntries, get?_ofEntries, hlast]

theorem ofEntries_of_nodup (h : (es.map (·.key)).Nodup) : (ofEntries es).entries = es := by
  induction es using List.reverseRecOn with
  | nil => rfl
  | append_singleton es e ih =>
    rw [List.map_append, List.nodup_append] at h
    have hnew : e.key ∉ (ofEntries es).keys := fun hmem =>
      h.2.2 _ (mem_keys_ofEntries.mp hmem) _ (.head _) rfl
    rw [ofEntries_append, entries_upsert_new hnew, ih h.1]

/-- Records without duplicates are those that entries build. -/
theorem nodup_keys_iff : r.keys.Nodup ↔ ∃ es, r = ofEntries es := by
  constructor
  · intro h
    refine ⟨r.entries, ?_⟩
    have hentries := ofEntries_of_nodup h
    cases r
    exact congrArg mk hentries.symm
  · rintro ⟨es, rfl⟩
    exact nodup_keys_ofEntries es

theorem nodup_keys_iff_length : r.keys.Nodup ↔
    ∀ k, (r.entries.filter (·.key = k)).length ≤ 1 := by
  have hcount (k : IntentKey) : r.keys.count k = (r.entries.filter (·.key = k)).length := by
    rw [keys, List.count_eq_countP, List.countP_map, List.countP_eq_length_filter]
    congr 2
  simp only [List.nodup_iff_count_le_one, hcount]

/-- In a record without duplicates, and in no other, each entry takes the place of all there is
under its key. -/
theorem nodup_keys_iff_upsert : r.keys.Nodup ↔
    ∀ e, (r.upsert e).entries.filter (·.key = e.key) = [e] := by
  have htail (es : List KeyStatus) : es.tail = [] ↔ es.length ≤ 1 := by
    cases es with
    | nil => simp
    | cons e es => simp [List.length_eq_zero_iff]
  simp only [filter_upsert_self, List.cons.injEq, true_and, htail, nodup_keys_iff_length]
  exact ⟨fun h e => h e.key, fun h k => h (.fresh k .installReq)⟩

end IntentPlane.ServiceRecord
