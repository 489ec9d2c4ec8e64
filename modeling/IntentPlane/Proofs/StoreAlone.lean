import IntentPlane.Proofs.Scene
import IntentPlane.Status.Store

/-!
# The status store without rivals

What the operations of the status store come to when nobody else writes: an update with at least one
attempt succeeds at the first.
-/

namespace IntentPlane.StatusStore

variable {τ : Type} (o : Surroundings τ) (x : Scene τ) {s : ServiceId}

theorem run_getKeys :
    (getKeys s).run o.answer x = ((x.record s).getD .empty, x.ensure s) := by
  change ((x.records.ensure s .empty).1.value, x.ensure s) = _
  rw [VersionedMap.ensure_value]
  rfl

theorem run_findKeys : (findKeys s).run o.answer x = (x.record s, x) := rfl

theorem run_findService (k : IntentKey) :
    (findService k).run o.answer x =
      (((o.listing x.records.entries).find? fun (_, record) => record.contains k).map (·.1), x) :=
  rfl

theorem findService_eq_some {k : IntentKey}
    (h : (findService k).run o.answer x = (some s, x)) :
    ∃ r, x.record s = some r ∧ r.contains k = true := by
  rw [run_findService, Prod.mk.injEq, Option.map_eq_some_iff] at h
  obtain ⟨⟨⟨t, r⟩, hfind, rfl⟩, -⟩ := h
  have hmem := (o.listing_perm _).mem_iff.mp (List.mem_of_find?_eq_some hfind)
  have hkey : r.contains k = true := by simpa using List.find?_some hfind
  exact ⟨r, VersionedMap.mem_entries.mp hmem, hkey⟩

theorem findService_eq_none {k : IntentKey} :
    ((findService k).run o.answer x).1 = none ↔
      ∀ t r, x.record t = some r → r.contains k = false := by
  rw [run_findService, Option.map_eq_none_iff, List.find?_eq_none]
  constructor
  · intro h t r hr
    have hmem := (o.listing_perm _).mem_iff.mpr (VersionedMap.mem_entries.mpr hr)
    simpa using h _ hmem
  · rintro h ⟨t, r⟩ hmem
    have hr := VersionedMap.mem_entries.mp ((o.listing_perm _).mem_iff.mp hmem)
    simpa using h t r hr

variable {retries : UInt32} {change : ServiceRecord → ServiceRecord}

theorem run_attempt_create (failure : StoreError) (left : Nat) :
    (attempt failure .create s change (left + 1)).run o.answer x =
      (.ok (some (change ((x.record s).getD .empty))),
        x.write s (change ((x.record s).getD .empty))) := by
  have hget : (x.ensure s).records.get? s = some (x.records.ensure s .empty).1 := by
    simp [Scene.ensure, VersionedMap.get?_ensure]
  have hval : (x.records.ensure s .empty).1.value = (x.record s).getD .empty :=
    VersionedMap.ensure_value ..
  simp only [attempt, read, map_eq_pure_bind, bind_assoc, Program.run_bind, Program.pure_bind,
    Program.ensureRecord, Program.run, Surroundings.answer]
  rw [hval]
  simp only [Program.replaceRecord, Program.run, Surroundings.answer,
    VersionedMap.replace_current hget, if_true]
  rfl

theorem run_attempt_leave (failure : StoreError) (left : Nat) :
    (attempt failure .leave s change (left + 1)).run o.answer x =
      match x.record s with
      | none => (.ok none, x)
      | some r => (.ok (some (change r)), x.write s (change r)) := by
  simp only [attempt, read, Program.run_bind, Program.readRecord, Program.run, Surroundings.answer]
  cases hget : x.records.get? s with
  | none => simp [Scene.record, VersionedMap.value?, hget]; rfl
  | some v =>
    simp only [Scene.record, VersionedMap.value?, hget, Option.map_some, Program.run_bind,
      Program.replaceRecord, Program.run, Surroundings.answer, VersionedMap.replace_current hget,
      Scene.write, VersionedMap.ensure_of_get? hget, if_true]
    rfl

theorem exists_toNat_eq_succ (h : retries ≠ 0) : ∃ n, retries.toNat = n + 1 := by
  apply Nat.exists_eq_succ_of_ne_zero
  intro hzero
  exact h (UInt32.toNat_inj.mp hzero)

/-- With at least one attempt, an update that creates records writes. -/
theorem run_modify_create (h : retries ≠ 0) :
    (modify retries .create s change).run o.answer x =
      (.ok (some (change ((x.record s).getD .empty))),
        x.write s (change ((x.record s).getD .empty))) := by
  obtain ⟨n, hn⟩ := exists_toNat_eq_succ h
  rw [modify, hn, run_attempt_create]

theorem run_modify_leave (h : retries ≠ 0) :
    (modify retries .leave s change).run o.answer x =
      match x.record s with
      | none => (.ok none, x)
      | some r => (.ok (some (change r)), x.write s (change r)) := by
  obtain ⟨n, hn⟩ := exists_toNat_eq_succ h
  rw [modify, hn, run_attempt_leave]

theorem run_updateKey (h : retries ≠ 0) (e : KeyStatus) :
    (updateKey retries s e).run o.answer x =
      (.ok (((x.record s).getD .empty).upsert e), x.upsert s e) := by
  rw [updateKey, Program.run_bind, run_modify_create o x h]
  rfl

theorem run_updateKeyIfPresent (h : retries ≠ 0) (e : KeyStatus) {r : ServiceRecord}
    (hr : x.record s = some r) :
    (updateKeyIfPresent retries s e).run o.answer x =
      (.ok (some (r.upsert e)), x.upsert s e) := by
  rw [updateKeyIfPresent, run_modify_leave o x h, Scene.upsert, hr]
  rfl

end IntentPlane.StatusStore
