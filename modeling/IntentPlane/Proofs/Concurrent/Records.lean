import IntentPlane.Proofs.Concurrent.Linearization
import IntentPlane.Proofs.Record.Built

/-!
# Keys of stored records

However calls run over a store, no record in it holds a key twice if none does that is put there as
a whole (`distinct_run`): a run is a sequence of calls, and every call keeps that
(`distinct_atomic`).
-/

namespace IntentPlane

/-- No record holds a key twice. -/
def Distinct (m : Contents) : Prop := ∀ s r, m s = some r → r.keys.Nodup

variable {m m' : Contents} {c : StoreCall}

theorem Distinct.insert {r : ServiceRecord} (h : Distinct m) (hr : r.keys.Nodup) (s : ServiceId) :
    Distinct (Function.update m s (some r)) := by
  intro t q ht
  rw [Function.update_apply] at ht
  split at ht
  · exact Option.some.inj ht ▸ hr
  · exact h t q ht

theorem Distinct.erase (h : Distinct m) (s : ServiceId) :
    Distinct (Function.update m s none) := by
  intro t q ht
  rw [Function.update_apply] at ht
  split at ht
  · cases ht
  · exact h t q ht

theorem Distinct.nodup_getD (h : Distinct m) (s : ServiceId) :
    ((m s).getD .empty).keys.Nodup := by
  cases hs : m s with
  | none => exact List.nodup_nil
  | some r => exact h s r hs

/-- Every call keeps the keys of records distinct. -/
theorem distinct_atomic (h : Distinct m) (hput : ∀ s r, c = .put s r → r.keys.Nodup) :
    Distinct (c.atomic m).2 := by
  cases c with
  | updateKey s e => exact h.insert (ServiceRecord.nodup_keys_upsert (h.nodup_getD s) e) s
  | updateKeyIfPresent s e =>
    rw [StoreCall.atomic]
    split
    · exact h
    · rename_i r hr
      exact h.insert (ServiceRecord.nodup_keys_upsert (h s r hr) e) s
  | updateLinks s k links => exact h.insert (ServiceRecord.nodup_keys_upsert (h.nodup_getD s) _) s
  | put s r => exact h.insert (hput s r rfl) s
  | getKeys s => exact h.insert (h.nodup_getD s) s
  | findKeys => exact h
  | removeService s => exact h.erase s

variable {ι : Type} {calls : ι → StoreCall}

theorem Replays.distinct {es : List (Event calls)} (h : Replays m es m') (hm : Distinct m)
    (hput : ∀ i s r, calls i = .put s r → r.keys.Nodup) : Distinct m' := by
  have hempty : ServiceRecord.empty.keys.Nodup := List.nodup_nil
  induction h with
  | nil => exact hm
  | touched _ _ _ ih => exact ih (hm.insert hempty _)
  | @performed i result m _ _ _ m₁ hatomic _ _ _ ih =>
    have hnext := distinct_atomic hm (hput i)
    rw [hatomic] at hnext
    exact ih hnext

/-- Whatever a run of calls has stored holds no key twice. -/
theorem distinct_run [DecidableEq ι] (retries : UInt32)
    (hput : ∀ i s r, calls i = .put s r → r.keys.Nodup) (schedule : List ι) :
    Distinct ((Pool.start retries calls).run schedule).world.record :=
  (Pool.sound_start.replays schedule).distinct nofun hput

/-- A record is a map in the order of insertion. Any sequence of entries builds the map it stands
for, and the order in which keys come first and the last entry of each are all that counts. An entry
leaves those under other keys as they are, in their places. Once such records are put in a store, no
record holds a key twice, whatever calls run over it. -/
theorem record_is_ordered_map :
    (∀ es, (ServiceRecord.ofEntries es).Collects es) ∧
      (∀ (r : ServiceRecord) (e f : KeyStatus) (i : Nat), r.entries[i]? = some f →
        ∃ g, (r.upsert e).entries[i]? = some g ∧ g.key = f.key ∧ (f.key ≠ e.key → g = f)) ∧
      (∀ es fs : List KeyStatus,
        (es.map KeyStatus.key).eraseDups = (fs.map KeyStatus.key).eraseDups →
        (∀ k, (es.filter (·.key = k)).getLast? = (fs.filter (·.key = k)).getLast?) →
        ServiceRecord.ofEntries es = ServiceRecord.ofEntries fs) ∧
      ∀ (ι : Type) [DecidableEq ι] (retries : UInt32) (calls : ι → StoreCall) (schedule : List ι),
        (∀ i s r, calls i = .put s r → ∃ es, r = .ofEntries es) →
        ∀ s r, ((Pool.start retries calls).run schedule).world.record s = some r →
          r.keys.Nodup := by
  refine ⟨ServiceRecord.collects_ofEntries, fun r e f i h => r.getElem?_upsert e h,
    fun es fs hkeys hlast => ServiceRecord.ofEntries_congr hkeys hlast,
    fun ι _ retries calls schedule hput => distinct_run retries (fun i s r h => ?_) schedule⟩
  exact ServiceRecord.nodup_keys_iff.mpr (hput i s r h)

theorem record_is_ordered_map_repeated :
    let a : KeyStatus := .fresh ⟨⟨1, "paths"⟩, "a"⟩ .installReq
    let b : KeyStatus := .fresh ⟨⟨1, "paths"⟩, "b"⟩ .installReq
    let failed := a.withStatus .failed
    let s : ServiceId := ⟨"backup", by decide⟩
    let calls : Bool → StoreCall := fun first =>
      if first then .put s (.ofEntries [a, b, failed]) else .updateKey s (b.withStatus .installed)
    (∃ g, ((ServiceRecord.ofEntries [a, b]).upsert failed).entries[1]? = some g ∧
        g.key = b.key ∧ (b.key ≠ failed.key → g = b)) ∧
      ServiceRecord.ofEntries [a, b, failed] = .ofEntries [failed, b] ∧
      ∃ r, ((Pool.start 3 calls).run [true, false, false]).world.record s = some r ∧
        r.keys.Nodup := by
  intro a b failed s calls
  obtain ⟨-, hplace, hcongr, hstored⟩ := record_is_ordered_map
  refine ⟨hplace (.ofEntries [a, b]) failed b 1 rfl, hcongr _ _ rfl fun k => ?_, _, rfl,
    hstored Bool 3 calls [true, false, false] (fun i t r h => ?_) s _ rfl⟩
  · by_cases ha : k = a.key
    · subst ha
      decide
    · have ha' : ¬ a.key = k := fun h => ha h.symm
      have hfailed : ¬ failed.key = k := ha'
      simp [ha', hfailed]
  · cases i with
    | true => exact ⟨_, (StoreCall.put.inj h).2.symm⟩
    | false => cases h

end IntentPlane
