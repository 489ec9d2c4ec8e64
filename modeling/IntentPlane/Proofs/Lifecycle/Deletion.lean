import IntentPlane.Proofs.Aggregate
import IntentPlane.Proofs.Lifecycle.Removal
import IntentPlane.Proofs.Lifecycle.Update

/-!
# Deletion is complete

Deleting a service leaves nothing held or indexed under its keys, whatever request and settings come
with the demand. What was held is reported to be withdrawn later: each report but the last leaves
the service on its way out, and the last is the end of it (`Departing.answers_eq`).
-/

namespace IntentPlane

variable {D : Deployment} {w : World} {s : ServiceId} {r : ServiceRecord} {demand : Demand}

/-! ## Deleting -/

/-- A deletion withdraws what the service owns and removes its intents, if nothing is held or
indexed under other keys of it than those recorded and planned. -/
theorem Decomposition.eval_delete {d : Decomposition} {e : Enumeration} {x : Scene Facilities}
    (horderly : x.Orderly d.app)
    (habsent : ∀ k, k.BelongsTo d.app d.service → x.entry d.service k = none →
      k ∉ d.plannedKeys d.request → x.world.framework.get? k = none ∧ x.world.indexed k = none)
    (hretries : d.retries ≠ 0)
    (hdir : d.settings.bidirectional = true ∨ d.settings.unidirectional = true)
    (previous : Option ServiceRequest) :
    ∃ z, (Surroundings.inMemory e).eval (d.run previous .delete) x =
        (.ok ⟨d.service, .delete,
          (d.ownedIn x (d.plannedKeys d.request ++ d.previousKeys previous)).map .withdrawn,
          (d.legsOf d.request).2.issues⟩, z) ∧
      Cleared d.app d.service [] x.world z.world := by
  obtain ⟨ws, z, hall⟩ := d.eval_withdrawAll_ok (o := .inMemory e) (x := x.ensure d.service)
    hretries (d.ownedIn x (d.plannedKeys d.request ++ d.previousKeys previous))
  have hwithdrawn := withdrawAll_cases hall
  rw [← eval_withdrawAll] at hall
  refine ⟨z, hwithdrawn.eq_map ▸ eval_run_delete hdir hall, ?_⟩
  refine cleared_of_withdrawnAll horderly (fun k hk hnone hother => ?_) (fun k hk => ?_)
    (by simpa using hwithdrawn)
  · exact habsent k hk hnone fun hplanned => hother (List.mem_append_left _ hplanned)
  · rcases List.mem_append.mp hk with hk | hk
    · exact exists_of_mem_plannedKeys hk
    · exact exists_of_mem_previousKeys hk

theorem Deployment.delete_of_absent (demand : Demand) (horderly : w.scene.Orderly D.app)
    (habsent : ∀ k, k.BelongsTo D.app demand.service → w.entry demand.service k = none →
      k ∉ (D.decomposition demand).plannedKeys demand.request →
        w.framework.get? k = none ∧ w.indexed k = none)
    (hv : demand.validation = .delete)
    (hdir : demand.settings.bidirectional = true ∨ demand.settings.unidirectional = true) :
    ∃ v, D.decompose demand w =
        (.ok ⟨demand.service, .delete,
          ((D.decomposition demand).ownedIn w.scene
            ((D.decomposition demand).plannedKeys demand.request ++
              (D.decomposition demand).previousKeys demand.previous)).map .withdrawn,
          ((D.decomposition demand).legsOf demand.request).2.issues⟩, v) ∧
      Cleared D.app demand.service [] w v := by
  obtain ⟨z, heval, hcleared⟩ := Decomposition.eval_delete (d := D.decomposition demand)
    (e := .inserted) (x := w.scene) horderly habsent D.retries_pos hdir demand.previous
  obtain ⟨service, request, settings, previous, validation⟩ := demand
  cases hv
  exact ⟨z.world, (decompose_of_eval heval).1, hcleared⟩

theorem Deployment.Reaches.delete (hw : D.Reaches w) (hv : demand.validation = .delete)
    (hdir : demand.settings.bidirectional = true ∨ demand.settings.unidirectional = true) :
    ∃ others issues v, D.decompose demand w =
        (.ok ⟨demand.service, .delete,
          ((D.decomposition demand).ownedIn w.scene others).map .withdrawn, issues⟩, v) ∧
      Cleared D.app demand.service [] w v := by
  obtain ⟨v, hrun, hcleared⟩ := Deployment.delete_of_absent demand hw.orderly
    (fun k hk hnone _ => hw.coherent.absent hk hnone) hv hdir
  exact ⟨_, _, v, hrun, hcleared⟩

theorem filter_withdrawn {ks : List IntentKey} {k : IntentKey} (h : ks.Nodup) (hk : k ∈ ks) :
    (ks.map Outcome.withdrawn).filter (·.key = k) = [.withdrawn k] := by
  have hfilter : ks.filter (· = k) = [k] := by
    rw [List.filter_eq, List.count_eq_one_of_mem h hk]
    rfl
  rw [List.filter_map]
  exact congrArg (List.map Outcome.withdrawn) hfilter

/-! ## The reports that follow -/

/-- The framework reports a status of an intent. -/
structure StatusReport where
  order : Enumeration
  limit : UInt64
  intent : Intent
  status : IntentStatus

namespace Deployment

/-- Handles a report: the event for the service, and the world it leads to. -/
def handle (D : Deployment) (n : StatusReport) (w : World) :
    Except StoreError (Option ServiceEvent) × World :=
  (StatusEvents.handle D.retries n.limit n.intent n.status).run (World.answerIn n.order) w

/-- What comes of reports one after another. -/
def answers (D : Deployment) :
    List StatusReport → World → List (Except StoreError (Option ServiceEvent))
  | [], _ => []
  | n :: ns, w => (D.handle n w).1 :: D.answers ns (D.handle n w).2

end Deployment

/-- A service whose intents are withdrawn, or will be. -/
structure Departing (app : ApplicationId) (s : ServiceId) (w : World) (r : ServiceRecord) :
    Prop where
  orderly : w.scene.Orderly app
  record : w.record s = some r
  leaving : r.Leaving

/-- After a report, the service awaits one key less, and the event tells whether it was the last. -/
theorem Departing.handle (h : Departing D.app s w r) (n : StatusReport)
    (hn : n.status = .withdrawn) (hk : n.intent.key ∈ r.keys) :
    ∃ q, (D.handle n w).1 =
        .ok (some (if q.awaiting = [] then .withdrawalSuccess else .submitForWithdrawal)) ∧
      q.awaiting = r.awaiting.erase n.intent.key ∧
      Departing D.app s (D.handle n w).2 q := by
  obtain ⟨event, y, hrun, hhandled⟩ := StatusEvents.run_handle (.inMemory n.order) n.limit n.intent
    n.status w.scene D.retries_pos
  have hworld : D.handle n w = (.ok event, y.world) := (Deployment.run_scene hrun).1
  have horderly : y.Orderly D.app := by
    have hspares := StatusEvents.spares (.inMemory n.order) D.retries n.limit n.intent n.status
      h.orderly
    rw [hrun] at hspares
    exact hspares.1
  have hproper := h.orderly s r h.record
  obtain ⟨current, hcurrent⟩ := ServiceRecord.exists_of_contains (ServiceRecord.contains_iff.mpr hk)
  rw [hworld]
  cases hhandled with
  | unowned hnone =>
    have hentry : w.scene.entry s n.intent.key = some current :=
      Option.bind_eq_some_iff.mpr ⟨r, h.record, hcurrent⟩
    rw [hnone s] at hentry
    cases hentry
  | @recorded t r' current' next hr hcurrent' _ hnext =>
    obtain rfl : s = t :=
      (hproper.own _ hk).unique ((h.orderly t r' hr).own_of_get? hcurrent')
    obtain rfl : r = r' := Option.some.inj (h.record.symm.trans hr)
    have hkey : next.key = n.intent.key := by
      rw [hnext]
      exact (ServiceRecord.key_of_get? hcurrent' :)
    have hstatus : next.status = .withdrawn := by
      rw [hnext]
      exact hn
    rw [← hkey] at hk ⊢
    have hleaving := h.leaving.upsert hproper.nodup hk hstatus
    have hne : (r.upsert next).entries ≠ [] := by
      rw [ServiceRecord.entries_upsert hproper.nodup hk]
      intro hnil
      rw [List.map_eq_nil_iff] at hnil
      rw [ServiceRecord.keys, hnil] at hk
      cases hk
    refine ⟨r.upsert next, ?_, ServiceRecord.awaiting_upsert hproper.nodup hk hstatus, horderly, ?_,
      hleaving⟩
    · rw [hleaving.aggregate hne]
    · exact (Scene.record_upsert ..).trans (by rw [if_pos rfl, hr, Option.getD_some])
  | resubmitted _ _ hfailed => rw [hn] at hfailed; cases hfailed
  | exhausted _ _ hfailed => rw [hn] at hfailed; cases hfailed

/-- Reports for all keys that are awaited, in whatever order, leave the service on its way out but
for the last, which is the end of it. -/
theorem Departing.answers_eq (h : Departing D.app s w r) {ns : List StatusReport}
    {last : StatusReport} (hstatus : ∀ n ∈ ns ++ [last], n.status = .withdrawn)
    (hkeys : ((ns ++ [last]).map (·.intent.key)).Perm r.awaiting) :
    D.answers (ns ++ [last]) w =
      ns.map (fun _ => .ok (some .submitForWithdrawal)) ++ [.ok (some .withdrawalSuccess)] := by
  have hrecorded : ∀ k ∈ r.awaiting, k ∈ r.keys := fun _ hk => r.awaiting_sublist.subset hk
  induction ns generalizing w r with
  | nil =>
    obtain ⟨q, hanswer, hawaiting, -⟩ :=
      h.handle last (hstatus _ (.head _)) (hrecorded _ (hkeys.subset (.head _)))
    have hnone : q.awaiting = [] := by
      have hrest := hkeys.erase last.intent.key
      rw [hawaiting]
      simpa using hrest
    rw [if_pos hnone] at hanswer
    exact congrArg ([·]) hanswer
  | cons n ns ih =>
    obtain ⟨q, hanswer, hawaiting, hnext⟩ :=
      h.handle n (hstatus _ (.head _)) (hrecorded _ (hkeys.subset (.head _)))
    have hrest : ((ns ++ [last]).map (·.intent.key)).Perm q.awaiting := by
      have hrest := hkeys.erase n.intent.key
      rw [hawaiting]
      simpa using hrest
    have hsome : q.awaiting ≠ [] := by
      intro hnone
      rw [hnone] at hrest
      simp at hrest
    rw [if_neg hsome] at hanswer
    change (D.handle n w).1 :: D.answers (ns ++ [last]) (D.handle n w).2 = _
    rw [hanswer, ih hnext (fun n hn => hstatus n (.tail _ hn)) hrest
      fun _ hk => q.awaiting_sublist.subset hk]
    rfl

/-- Deletion is complete. In every world that operations lead to, a demand to delete a service is
met whatever else it asks for. Nothing is left held or indexed under the keys of the service; its
record holds the entries it had, in their order, as withdrawn or, where an intent was held, as
requested to be; and each of its keys is reported once. Any other demand to delete the service leads
to the same records, index and held intents. Reports that the intents are withdrawn, one for each
key requested and in any order, leave the service on its way out until the last ends it. -/
theorem delete_complete (hw : D.Reaches w) (hv : demand.validation = .delete)
    (hdir : demand.settings.bidirectional = true ∨ demand.settings.unidirectional = true) :
    ∃ report v, D.decompose demand w = (.ok report, v) ∧
      (∀ k, (∃ n, k = .forService D.app demand.service n) ∨ v.entry demand.service k ≠ none →
        v.framework.get? k = none ∧ v.indexed k = none) ∧
      (∃ r, v.record demand.service = some r ∧
        r.entries = ((w.record demand.service).getD .empty).entries.map (fun e =>
          e.withStatus (if (w.framework.get? e.key).isSome then .withdrawReq else .withdrawn)) ∧
        (∀ k ∈ r.keys, report.outcomes.filter (·.key = k) = [.withdrawn k]) ∧
        ∀ ns last, (∀ n ∈ ns ++ [last], n.status = .withdrawn) →
          ((ns ++ [last]).map (·.intent.key)).Perm
            ((r.entries.filter fun e => e.status = .withdrawReq).map (·.key)) →
          D.answers (ns ++ [last]) v =
            ns.map (fun _ => .ok (some .submitForWithdrawal)) ++
              [.ok (some .withdrawalSuccess)]) ∧
      ∀ other : Demand, other.service = demand.service → other.validation = .delete →
        other.settings.bidirectional = true ∨ other.settings.unidirectional = true →
        ∃ report' v', D.decompose other w = (.ok report', v') ∧ v.Alike v' := by
  obtain ⟨others, issues, v, hrun, hcleared⟩ := hw.delete hv hdir
  have horderly : v.scene.Orderly D.app := (hw.decompose hrun).orderly
  refine ⟨_, v, hrun, ?_, ⟨_, hcleared.record, ?_, ?_, ?_⟩, ?_⟩
  · rintro k (hk | hk)
    · exact hcleared.gone k hk List.not_mem_nil
    · exact hcleared.gone k (horderly.belongsTo hk) List.not_mem_nil
  · simp [World.withdrawalStatus]
  · intro k hk
    obtain ⟨g, hg, rfl⟩ := List.mem_map.mp hk
    obtain ⟨f, hf, rfl⟩ := List.mem_map.mp hg
    have hrecorded : f.key ∈ ((w.record demand.service).getD .empty).keys :=
      List.mem_map_of_mem hf
    rw [if_neg List.not_mem_nil]
    exact filter_withdrawn (Decomposition.nodup_eraseDups _)
      (List.mem_eraseDups.mpr (List.mem_append_left _ hrecorded))
  · intro ns last hstatus hkeys
    refine Departing.answers_eq ⟨horderly, hcleared.record, ?_⟩ hstatus hkeys
    intro f hf
    obtain ⟨g, -, rfl⟩ := List.mem_map.mp hf
    rw [if_neg List.not_mem_nil]
    exact World.withdrawalStatus_eq w g.key
  · intro other hservice hv' hdir'
    obtain ⟨others', issues', v', hrun', hcleared'⟩ := hw.delete hv' hdir'
    rw [hservice] at hcleared'
    exact ⟨_, v', hrun', hcleared.alike hcleared'⟩

/-! Both intents of a connection are withdrawn. -/

def connectionKey (n : Nat) : IntentKey :=
  .forService pathDeployment.app (pathDemand .create).service n

def connectionReport (n : Nat) (status : IntentStatus) : StatusReport where
  order := .inserted
  limit := 5000
  intent := ⟨connectionKey n, ⟨none, none⟩, [], 100, .connectivity ⟨"1/None"⟩ ⟨"2/None"⟩⟩
  status

/-- A connection is gone after its deletion. The report of one of its two intents leaves it on its
way out, whichever comes first, and that of the other ends it. -/
theorem connection_deleted :
    let w := pathDeployment.after connectionCreated .empty
    (∀ n ∈ [1, 2], w.framework.get? (connectionKey n) ≠ none) ∧
      ∃ report v, pathDeployment.decompose (pathDemand .delete) w = (.ok report, v) ∧
        (∀ n ∈ [1, 2], v.framework.get? (connectionKey n) = none ∧
          v.indexed (connectionKey n) = none) ∧
        ∀ m n, [m, n].Perm [1, 2] →
          pathDeployment.answers [connectionReport m .withdrawn, connectionReport n .withdrawn] v =
            [.ok (some .submitForWithdrawal), .ok (some .withdrawalSuccess)] := by
  intro w
  have hw : pathDeployment.Reaches w := ⟨connectionCreated, rfl⟩
  have hv : (pathDemand .delete).validation = .delete := rfl
  obtain ⟨report, v, hrun, hgone, ⟨r, -, hentries, -, hanswers⟩, -⟩ :=
    delete_complete hw hv (.inl rfl)
  refine ⟨by decide +kernel, report, v, hrun, fun n _ => hgone _ (.inl ⟨n, rfl⟩), ?_⟩
  intro m n horder
  have hawaited : (r.entries.filter fun e => e.status = .withdrawReq).map (·.key) =
      [1, 2].map connectionKey := by
    rw [hentries]
    decide +kernel
  refine hanswers [_] _ (by simp [connectionReport]) ?_
  rw [hawaited]
  exact horder.map connectionKey

end IntentPlane
