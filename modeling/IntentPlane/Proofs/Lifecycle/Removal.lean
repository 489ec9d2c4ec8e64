import IntentPlane.Proofs.Lifecycle.Withdrawal
import IntentPlane.Proofs.Services.Separation

/-!
# Removing the intents of a service

Deleting a service withdraws all its intents, and updating it all but those that are planned.
`Cleared` says what such withdrawals leave of a world in which index, framework and records agree:
it depends on that world and on the intents kept, and on nothing else. So it does not matter which
further keys are withdrawn to no effect (`cleared_of_withdrawnAll`).
-/

namespace IntentPlane

variable {app : ApplicationId} {D : Deployment} {d : Decomposition} {u v w : World}
  {x y z : Scene Facilities} {s : ServiceId} {k : IntentKey} {kept ks others : List IntentKey}
  {e : Enumeration} {outcome : Outcome} {ws : List Outcome}

/-! ## Reached worlds -/

/-- Operations lead to a world from the empty one. -/
def Deployment.Reaches (D : Deployment) (w : World) : Prop := ∃ ops, D.after ops .empty = w

theorem Deployment.orderly_perform (D : Deployment) (h : w.scene.Orderly D.app) (op : Operation) :
    (D.perform op w).scene.Orderly D.app := by
  cases op with
  | decompose demand =>
    rw [perform, decompose, Program.runIn, ← World.answerIn_inserted, ← w.world_scene,
      Program.run_world]
    exact ((D.decomposition demand).spares (.inMemory .inserted) demand.previous
      demand.validation h).1
  | event order limit intent status =>
    rw [perform, ← w.world_scene, Program.run_world]
    exact (StatusEvents.spares (.inMemory order) D.retries limit intent status h).1
  | recover order limit events =>
    obtain ⟨g, es, hrun, -⟩ := D.recover_cases order limit events w
    rw [hrun]
    exact h
  | refuse | compute | register => exact h

namespace Deployment.Reaches

theorem coherent (h : D.Reaches w) : Coherent D.app w := by
  obtain ⟨ops, rfl⟩ := h
  exact Coherent.empty.after ops

theorem orderly (h : D.Reaches w) : w.scene.Orderly D.app := by
  obtain ⟨ops, rfl⟩ := h
  suffices ∀ w : World, w.scene.Orderly D.app → (D.after ops w).scene.Orderly D.app from
    this .empty nofun
  induction ops with
  | nil => exact fun _ h => h
  | cons op ops ih => exact fun w h => ih _ (D.orderly_perform h op)

theorem decompose (h : D.Reaches w) {demand : Demand} {result : Except DecomposeError Report}
    (hrun : D.decompose demand w = (result, u)) : D.Reaches u := by
  obtain ⟨ops, rfl⟩ := h
  refine ⟨ops ++ [.decompose demand], ?_⟩
  rw [after, List.foldl_append]
  exact congrArg Prod.snd hrun

end Deployment.Reaches

/-- Nothing is held or indexed under a key of a service that is not in its record. -/
theorem Coherent.absent (h : Coherent app w) (hk : k.BelongsTo app s) (hnone : w.entry s k = none) :
    w.framework.get? k = none ∧ w.indexed k = none := by
  have hheld : w.framework.get? k = none := by
    by_contra hheld
    obtain ⟨t, ht⟩ := (h k).owned hheld
    obtain ⟨f, hf⟩ := Option.ne_none_iff_exists'.mp ht
    obtain rfl : s = t := hk.unique ((h k).named t f hf)
    exact ht hnone
  exact ⟨hheld, by rw [(h k).indexed, hheld]; rfl⟩

/-! ## Withdrawals in memory -/

/-- The status that the withdrawal of a key gives to its entry. -/
def World.withdrawalStatus (w : World) (k : IntentKey) : IntentStatus :=
  if (w.framework.get? k).isSome then .withdrawReq else .withdrawn

theorem World.withdrawalStatus_eq (w : World) (k : IntentKey) :
    w.withdrawalStatus k = .withdrawReq ∨ w.withdrawalStatus k = .withdrawn := by
  unfold withdrawalStatus
  split
  · exact .inl rfl
  · exact .inr rfl

namespace Decomposition

/-- In memory every withdrawal succeeds. -/
theorem Withdrawal.eq_withdrawn (h : Withdrawal (.inMemory e) d k x outcome y) :
    outcome = .withdrawn k := by
  cases h with
  | withdrawn => rfl
  | @failed u error hanswer hne =>
    have herror : (x.outside.framework.withdraw k).1 = .error error := congrArg Prod.fst hanswer
    cases hheld : x.outside.framework.get? k with
    | none =>
      rw [Framework.withdraw_none hheld] at herror
      cases herror
      exact absurd rfl (hne k)
    | some i =>
      rw [Framework.withdraw_some hheld] at herror
      cases herror

theorem WithdrawnAll.eq_map (h : WithdrawnAll (.inMemory e) d ks x ws z) :
    ws = ks.map .withdrawn := by
  induction h with
  | nil => rfl
  | cons hfirst _ ih => rw [hfirst.eq_withdrawn, ih, List.map_cons]

theorem WithdrawnAll.heard {τ : Type} {o : Surroundings τ} {x z : Scene τ}
    (h : WithdrawnAll o d ks x ws z) :
    ∃ es, z.calls = x.calls ++ es ∧ Heard o x.outside es z.outside := by
  induction h with
  | nil => exact ⟨[], (List.append_nil _).symm, .nil⟩
  | cons hfirst _ ih =>
    obtain ⟨es, hcalls, hes⟩ := ih
    cases hfirst with
    | withdrawn hanswer =>
      exact ⟨_ :: es, by simp [hcalls], .withdraw hanswer (by simpa using hes)⟩
    | failed hanswer => exact ⟨_ :: es, by simp [hcalls], .withdraw hanswer hes⟩

/-- Withdrawals change entries of the record and add none. -/
theorem WithdrawnAll.keys_record {τ : Type} {o : Surroundings τ} {x z : Scene τ}
    (h : WithdrawnAll o d ks x ws z) {r : ServiceRecord} (hr : x.record d.service = some r) :
    ∃ q, z.record d.service = some q ∧ q.keys = r.keys := by
  induction h generalizing r with
  | nil => exact ⟨r, hr, rfl⟩
  | @cons k x outcome y ks outcomes z hfirst _ ih =>
    suffices ∃ q, y.record d.service = some q ∧ q.keys = r.keys by
      obtain ⟨q, hq, hkeys⟩ := this
      obtain ⟨q', hq', hkeys'⟩ := ih hq
      exact ⟨q', hq', hkeys'.trans hkeys⟩
    cases hfirst with
    | failed => exact ⟨r, hr, rfl⟩
    | withdrawn => exact Scene.keys_setStatus _ _ _ _ (by simp [hr])

theorem WithdrawnAll.account_heard {τ : Type} {o : Surroundings τ} {x z : Scene τ}
    (h : WithdrawnAll o d ks x ws z) (hnodup : ks.Nodup) :
    ∃ es, d.Account x ws es z ∧ Heard o x.outside es z.outside := by
  obtain ⟨es, hcalls, hheard⟩ := h.heard
  obtain ⟨es', haccount⟩ := h.account (h.keys_eq ▸ hnodup)
  obtain rfl : es = es' := List.append_cancel_left (hcalls.symm.trans haccount.calls)
  exact ⟨es, haccount, hheard⟩

/-- What is withdrawn is gone, and its entry says whether it was held. -/
theorem WithdrawnAll.gone (h : WithdrawnAll (.inMemory e) d ks x ws z) (hnodup : ks.Nodup)
    (hk : k ∈ ks) : z.outside.framework.get? k = none ∧ z.indexed k = none ∧
      z.entry d.service k =
        (x.entry d.service k).map (·.withStatus (x.world.withdrawalStatus k)) := by
  obtain ⟨es, haccount, hheard⟩ := h.account_heard hnodup
  have hout : .withdrawn k ∈ ws := h.eq_map ▸ List.mem_map_of_mem hk
  obtain ⟨answer, status, hw, hstatus, hnone, hindexed, hentry⟩ := haccount.upheld _ hout
  have haccepted := accepted_eq_nil hnone
  refine ⟨hheard.get?_of_withdrawn haccepted (by simp [hw]), hindexed, hentry.trans ?_⟩
  have hanswer := hheard.answer_of_withdrawals haccepted hw
  rw [World.withdrawalStatus]
  change answer = if (x.world.framework.get? k).isSome = true then _ else _ at hanswer
  split at hanswer <;> rename_i hheld
  · subst hanswer
    cases hstatus
    rw [if_pos hheld]
  · subst hanswer
    cases hstatus
    rw [if_neg hheld]

/-- What is not withdrawn stays as it is. -/
theorem WithdrawnAll.spared (h : WithdrawnAll (.inMemory e) d ks x ws z) (hnodup : ks.Nodup)
    (hk : k ∉ ks) : z.outside.framework.get? k = x.outside.framework.get? k ∧
      z.indexed k = x.indexed k ∧ z.entry d.service k = x.entry d.service k := by
  obtain ⟨es, haccount, hheard⟩ := h.account_heard hnodup
  have huntouched := haccount.untouched k (h.keys_eq ▸ hk)
  exact ⟨(huntouched.framework hheard).1, huntouched.indexed, huntouched.entry d.service⟩

/-- The entries of what is withdrawn get a status, and the order of entries stays. -/
theorem WithdrawnAll.record_eq (h : WithdrawnAll (.inMemory e) d ks x ws z) (hnodup : ks.Nodup)
    {r : ServiceRecord} (hr : x.record d.service = some r) (hkeys : r.keys.Nodup) :
    z.record d.service = some ⟨r.entries.map fun f =>
      if f.key ∈ ks then f.withStatus (x.world.withdrawalStatus f.key) else f⟩ := by
  obtain ⟨q, hq, hsame⟩ := h.keys_record hr
  have hget : ∀ l, q.get? l = z.entry d.service l := fun l => by
    rw [Scene.entry, hq, Option.bind_some]
  have hentries := ServiceRecord.entries_eq_map hkeys hsame (f := fun f =>
    if f.key ∈ ks then f.withStatus (x.world.withdrawalStatus f.key) else f)
  rw [hq, ← hentries]
  intro f hf
  have hentry : x.entry d.service f.key = some f := by
    rw [Scene.entry, hr, Option.bind_some, ServiceRecord.get?_eq_some_iff hkeys]
    exact ⟨hf, rfl⟩
  rw [hget]
  by_cases hk : f.key ∈ ks
  · rw [(h.gone hnodup hk).2.2, hentry, Option.map_some, if_pos hk]
  · rw [(h.spared hnodup hk).2.2, hentry, if_neg hk]

end Decomposition

/-! ## What is left -/

/-- A world after the intents of a service are removed, but for some that are kept. -/
structure Cleared (app : ApplicationId) (s : ServiceId) (kept : List IntentKey) (w v : World) :
    Prop where
  record : v.record s = some ⟨((w.record s).getD .empty).entries.map fun f =>
    if f.key ∈ kept then f else f.withStatus (w.withdrawalStatus f.key)⟩
  others : ∀ t, t ≠ s → v.record t = w.record t
  gone : ∀ k, k.BelongsTo app s → k ∉ kept → v.framework.get? k = none ∧ v.indexed k = none
  spared : ∀ k, ¬ (k.BelongsTo app s ∧ k ∉ kept) →
    v.framework.get? k = w.framework.get? k ∧ v.indexed k = w.indexed k

/-- Two worlds with the same records, index and held intents. -/
structure World.Alike (v v' : World) : Prop where
  record : ∀ s, v.record s = v'.record s
  indexed : ∀ k, v.indexed k = v'.indexed k
  held : ∀ k, v.framework.get? k = v'.framework.get? k

theorem Cleared.alike {v' : World} (h : Cleared app s kept w v) (h' : Cleared app s kept w v') :
    v.Alike v' := by
  have hkey : ∀ k, v.framework.get? k = v'.framework.get? k ∧ v.indexed k = v'.indexed k := by
    intro k
    by_cases hk : k.BelongsTo app s ∧ k ∉ kept
    · rw [(h.gone k hk.1 hk.2).1, (h.gone k hk.1 hk.2).2, (h'.gone k hk.1 hk.2).1,
        (h'.gone k hk.1 hk.2).2]
      exact ⟨rfl, rfl⟩
    · rw [(h.spared k hk).1, (h.spared k hk).2, (h'.spared k hk).1, (h'.spared k hk).2]
      exact ⟨rfl, rfl⟩
  refine ⟨fun t => ?_, fun k => (hkey k).2, fun k => (hkey k).1⟩
  by_cases ht : t = s
  · rw [ht, h.record, h'.record]
  · rw [h.others t ht, h'.others t ht]

theorem Cleared.entry (h : Cleared app s kept w v) (k : IntentKey) :
    v.entry s k = if k ∈ kept then w.entry s k
      else (w.entry s k).map (·.withStatus (w.withdrawalStatus k)) := by
  have hentry : w.entry s k = ((w.record s).getD .empty).get? k := w.scene.entry_eq_getD s k
  have hkey : ∀ f : KeyStatus, (if f.key ∈ kept then f
      else f.withStatus (w.withdrawalStatus f.key)).key = f.key := fun f => by split <;> rfl
  rw [World.entry, h.record, Option.bind_some, ServiceRecord.get?_map hkey, ← hentry]
  cases hf : w.entry s k with
  | none => simp
  | some f =>
    obtain rfl : f.key = k := Scene.key_of_entry (x := w.scene) s k hf
    by_cases hk : f.key ∈ kept <;> simp [hk]

/-- Withdrawing what is in the record of a service, and any keys of it beside, removes its intents,
but for those kept, if nothing is held or indexed under the rest of its keys. -/
theorem cleared_of_withdrawnAll (horderly : y.Orderly d.app)
    (habsent : ∀ k, k.BelongsTo d.app d.service → y.entry d.service k = none → k ∉ others →
      y.world.framework.get? k = none ∧ y.world.indexed k = none)
    (hothers : ∀ k ∈ others, k.BelongsTo d.app d.service)
    (h : Decomposition.WithdrawnAll (.inMemory e) d
      ((d.ownedIn y others).filter fun k => k ∉ kept) (y.ensure d.service) ws z) :
    Cleared d.app d.service kept y.world z.world := by
  have hnodup : ((d.ownedIn y others).filter fun k => k ∉ kept).Nodup :=
    (Decomposition.nodup_eraseDups _).filter _
  have hmem : ∀ {k}, k ∈ (d.ownedIn y others).filter (fun k => k ∉ kept) ↔
      (y.entry d.service k ≠ none ∨ k ∈ others) ∧ k ∉ kept := by
    simp [List.mem_filter, Decomposition.mem_ownedIn]
  have hproper : ((y.record d.service).getD .empty).Proper d.app d.service :=
    .getD (horderly d.service)
  obtain ⟨es, haccount, -⟩ := h.account_heard hnodup
  constructor
  · rw [show z.world.record d.service = z.record d.service from rfl, h.record_eq hnodup
      ((Scene.record_ensure ..).trans (if_pos rfl)) hproper.nodup]
    refine congrArg some (congrArg ServiceRecord.mk (List.map_congr_left fun f hf => ?_))
    have hentry : y.entry d.service f.key ≠ none := by
      rw [Scene.entry_eq_getD, (ServiceRecord.get?_eq_some_iff hproper.nodup).mpr ⟨hf, rfl⟩]
      exact Option.some_ne_none f
    by_cases hkept : f.key ∈ kept
    · rw [if_pos hkept, if_neg fun hk => (hmem.mp hk).2 hkept]
    · rw [if_neg hkept, if_pos (hmem.mpr ⟨.inl hentry, hkept⟩)]
      rfl
  · intro t ht
    exact (haccount.records t ht).trans ((Scene.record_ensure ..).trans (if_neg ht.symm))
  · intro k hk hkept
    by_cases hout : k ∈ (d.ownedIn y others).filter fun k => k ∉ kept
    · obtain ⟨hheld, hindexed, -⟩ := h.gone hnodup hout
      exact ⟨hheld, hindexed⟩
    · -- It is not in the record, so nothing was held under it before.
      obtain ⟨hheld, hindexed, -⟩ := h.spared hnodup hout
      have hnone : y.entry d.service k = none := by
        by_contra hentry
        exact hout (hmem.mpr ⟨.inl hentry, hkept⟩)
      have hnot : k ∉ others := fun hother => hout (hmem.mpr ⟨.inr hother, hkept⟩)
      obtain ⟨hheld', hindexed'⟩ := habsent k hk hnone hnot
      exact ⟨hheld.trans hheld', hindexed.trans hindexed'⟩
  · intro k hk
    have hout : k ∉ (d.ownedIn y others).filter fun k => k ∉ kept := by
      intro hout
      obtain ⟨hown, hkept⟩ := hmem.mp hout
      exact hk ⟨hown.elim horderly.belongsTo (hothers k), hkept⟩
    obtain ⟨hheld, hindexed, -⟩ := h.spared hnodup hout
    exact ⟨hheld, hindexed⟩

end IntentPlane
