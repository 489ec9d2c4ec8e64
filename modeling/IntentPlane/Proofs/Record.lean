import IntentPlane.Status.Record
import Mathlib.Data.List.Nodup

/-!
# Looking up service records

What an entry put into a record does to look-ups and to the keys of the record.
-/

namespace IntentPlane.ServiceRecord

variable {r : ServiceRecord} {e f : KeyStatus} {k : IntentKey}

@[simp] theorem get?_empty (k : IntentKey) : empty.get? k = none := rfl

theorem get?_upsert (r : ServiceRecord) (e : KeyStatus) (k : IntentKey) :
    (r.upsert e).get? k = if e.key = k then some e else r.get? k := by
  obtain ⟨es⟩ := r
  simp only [get?, upsert]
  induction es with
  | nil => grind [upsertEntry]
  | cons f es ih => grind [upsertEntry]

@[simp] theorem get?_upsert_self (r : ServiceRecord) (e : KeyStatus) :
    (r.upsert e).get? e.key = some e := by simp [get?_upsert]

theorem key_of_get? (h : r.get? k = some e) : e.key = k := by
  simpa using List.find?_some h

theorem contains_iff : r.contains k = true ↔ k ∈ r.keys := by
  simp [contains, get?, keys]

theorem contains_of_get? (h : r.get? k = some e) : r.contains k = true := by simp [contains, h]

theorem exists_of_contains (h : r.contains k = true) : ∃ e, r.get? k = some e :=
  Option.isSome_iff_exists.mp h

theorem keys_upsert (r : ServiceRecord) (e : KeyStatus) :
    (r.upsert e).keys = if e.key ∈ r.keys then r.keys else r.keys ++ [e.key] := by
  obtain ⟨es⟩ := r
  simp only [keys, upsert]
  induction es with
  | nil => simp [upsertEntry]
  | cons f es ih => grind [upsertEntry]

theorem get?_map {f : KeyStatus → KeyStatus} (hf : ∀ e, (f e).key = e.key) (r : ServiceRecord)
    (k : IntentKey) : get? ⟨r.entries.map f⟩ k = (r.get? k).map f := by
  have hkey : (fun e : KeyStatus => decide (e.key = k)) ∘ f = fun e => decide (e.key = k) := by
    funext e
    rw [Function.comp_apply, hf]
  rw [get?, List.find?_map, hkey, get?]

theorem get?_eq_some_iff (h : r.keys.Nodup) : r.get? k = some e ↔ e ∈ r.entries ∧ e.key = k := by
  constructor
  · exact fun he => ⟨List.mem_of_find?_eq_some he, key_of_get? he⟩
  · rintro ⟨hmem, rfl⟩
    obtain ⟨f, hf⟩ := exists_of_contains (contains_iff.mpr (List.mem_map_of_mem hmem))
    rw [hf, List.inj_on_of_nodup_map h (List.mem_of_find?_eq_some hf) hmem (key_of_get? hf)]

/-- A record without duplicates is told by its keys and what is found under them. -/
theorem entries_eq_map {q : ServiceRecord} {f : KeyStatus → KeyStatus} (h : r.keys.Nodup)
    (hkeys : q.keys = r.keys) (hf : ∀ e ∈ r.entries, q.get? e.key = some (f e)) :
    q.entries = r.entries.map f := by
  have hlength : q.entries.length = r.entries.length := by
    simpa [keys] using congrArg List.length hkeys
  refine List.ext_getElem (by simpa using hlength) fun i hi hi' => ?_
  have hr : i < r.entries.length := hlength ▸ hi
  have hkey : q.entries[i].key = r.entries[i].key := by
    have hkey := congrArg (fun ks => ks[i]?) hkeys
    simpa [keys, hi, hr] using hkey
  have hfound : q.get? r.entries[i].key = some q.entries[i] :=
    (get?_eq_some_iff (hkeys ▸ h)).mpr ⟨List.getElem_mem hi, hkey⟩
  rw [List.getElem_map]
  exact Option.some.inj (hfound.symm.trans (hf _ (List.getElem_mem hr)))

theorem ext_get? {q : ServiceRecord} (h : r.keys.Nodup) (hkeys : q.keys = r.keys)
    (hget : ∀ k, q.get? k = r.get? k) : q = r := by
  have hentries := entries_eq_map h hkeys (f := id) fun e he =>
    (hget e.key).trans ((get?_eq_some_iff h).mpr ⟨he, rfl⟩)
  rw [List.map_id] at hentries
  cases q
  cases r
  exact congrArg mk hentries

/-- An entry whose key is recorded takes the place of the one recorded. -/
theorem entries_upsert (h : r.keys.Nodup) (he : e.key ∈ r.keys) :
    (r.upsert e).entries = r.entries.map fun f => if f.key = e.key then e else f := by
  refine entries_eq_map h ((keys_upsert r e).trans (if_pos he)) fun f hf => ?_
  rw [get?_upsert, (get?_eq_some_iff h).mpr ⟨hf, rfl⟩]
  by_cases hkey : e.key = f.key
  · rw [if_pos hkey, if_pos hkey.symm]
  · rw [if_neg hkey, if_neg fun hkey' => hkey hkey'.symm]

theorem upsert_upsert (r : ServiceRecord) (e : KeyStatus) : (r.upsert e).upsert e = r.upsert e := by
  obtain ⟨es⟩ := r
  refine congrArg mk ?_
  change upsertEntry e (upsertEntry e es) = upsertEntry e es
  induction es with
  | nil => grind [upsertEntry]
  | cons g es ih => grind [upsertEntry]

/-- An entry that takes the place of another may do so later. -/
theorem upsert_comm (hne : e.key ≠ f.key) (he : e.key ∈ r.keys) :
    (r.upsert f).upsert e = (r.upsert e).upsert f := by
  obtain ⟨es⟩ := r
  refine congrArg mk ?_
  change upsertEntry e (upsertEntry f es) = upsertEntry f (upsertEntry e es)
  change e.key ∈ es.map (·.key) at he
  induction es with
  | nil => cases he
  | cons g es ih => grind [upsertEntry]

theorem mem_keys_upsert (h : k ∈ r.keys) : k ∈ (r.upsert e).keys := by
  rw [keys_upsert]
  split
  · exact h
  · exact List.mem_append_left _ h

theorem key_mem_keys_upsert (r : ServiceRecord) (e : KeyStatus) : e.key ∈ (r.upsert e).keys := by
  rw [keys_upsert]
  split
  · assumption
  · exact List.mem_append_right _ (.head _)

end IntentPlane.ServiceRecord
