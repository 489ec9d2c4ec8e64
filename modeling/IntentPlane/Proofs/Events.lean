import IntentPlane.Proofs.Intent
import IntentPlane.Proofs.Search
import IntentPlane.Proofs.StoreAlone
import IntentPlane.Status.Events

/-!
# What a status event does

`Handled` says all that handling a status event can do to a scene when nobody else writes, and
`run_handle` that it goes so. An event is about one key: other keys are left alone.
-/

namespace IntentPlane.StatusEvents

variable {τ : Type}

/-- What handling a status event can do: the event for the service, and the scene it leads to. -/
inductive Handled (o : Surroundings τ) (limit : UInt64) (intent : Intent) (status : IntentStatus)
    (x : Scene τ) : Option ServiceEvent → Scene τ → Prop where
  | unowned : (∀ s, x.entry s intent.key = none) → Handled o limit intent status x none x
  | recorded {s r current next} : x.record s = some r → r.get? intent.key = some current →
      ¬ (status = .failed ∧ current.links ≠ []) →
      next = (current.withStatus status).withCalculated intent.isCalculated →
      Handled o limit intent status x (some ((r.upsert next).aggregate intent.isCalculated))
        (x.upsert s next)
  | resubmitted {s r current next a es u} : x.record s = some r →
      r.get? intent.key = some current → status = .failed →
      Search o limit intent.rebuildOver? "" current.links x.outside (.ok a) es u →
      next = ((current.withStatus a.submission.status).withLinks a.untried).withCalculated false →
      Handled o limit intent status x (some .submitForInstallation)
        (((x.hear u es).setIndex intent.key a.intent).upsert s next)
  | exhausted {s r current next reason es u} : x.record s = some r →
      r.get? intent.key = some current → status = .failed → current.links ≠ [] →
      Search o limit intent.rebuildOver? "" current.links x.outside (.error reason) es u →
      next = ((current.withLinks []).withStatus status).withCalculated intent.isCalculated →
      Handled o limit intent status x (some ((r.upsert next).aggregate intent.isCalculated))
        ((x.hear u es).upsert s next)

variable {o : Surroundings τ} {x y : Scene τ} {retries : UInt32} {limit : UInt64} {s : ServiceId}
  {intent : Intent} {status : IntentStatus} {current : KeyStatus} {r : ServiceRecord}

theorem run_record (h : retries ≠ 0) (hr : x.record s = some r) :
    (record retries s intent status current).run o.answer x =
      (.ok (some ((r.upsert ((current.withStatus status).withCalculated
          intent.isCalculated)).aggregate intent.isCalculated)),
        x.upsert s ((current.withStatus status).withCalculated intent.isCalculated)) := by
  rw [record, Program.run_bind, StatusStore.run_updateKeyIfPresent o x h _ hr]
  rfl

/-- Falling back over the links left succeeds at the first one accepted, or does nothing but ask. -/
theorem run_fallBack (limit : UInt64) (intent : Intent) (current : KeyStatus) (h : retries ≠ 0)
    (hr : x.record s = some r) :
    (∃ a es u, Search o limit intent.rebuildOver? "" current.links x.outside (.ok a) es u ∧
      (fallBack retries limit s intent current).run o.answer x =
        (.ok .resubmitted, ((x.hear u es).setIndex intent.key a.intent).upsert s
          (((current.withStatus a.submission.status).withLinks a.untried).withCalculated false))) ∨
    ∃ reason es u,
      Search o limit intent.rebuildOver? "" current.links x.outside (.error reason) es u ∧
      (fallBack retries limit s intent current).run o.answer x = (.ok .exhausted, x.hear u es) := by
  obtain ⟨result, es, u, hsearch, hrun⟩ :=
    run_submitFirst o limit intent.rebuildOver? "" current.links x
  rw [fallBack, Program.run_bind, hrun]
  cases result with
  | error reason => exact .inr ⟨reason, es, u, hsearch, rfl⟩
  | ok a =>
    have hr' : ((x.hear u es).setIndex intent.key a.intent).record s = some r := hr
    refine .inl ⟨a, es, u, hsearch, ?_⟩
    rw [Program.run_bind, Surroundings.run_indexIntent, Program.run_bind,
      StatusStore.run_updateKeyIfPresent _ _ h _ hr']
    rfl

theorem run_handle (o : Surroundings τ) (limit : UInt64) (intent : Intent) (status : IntentStatus)
    (x : Scene τ) (h : retries ≠ 0) :
    ∃ event y, (handle retries limit intent status).run o.answer x = (.ok event, y) ∧
      Handled o limit intent status x event y := by
  rw [handle, Program.run_bind]
  rcases hfind : (StatusStore.findService intent.key).run o.answer x with ⟨found, z⟩
  obtain rfl : z = x := by
    rw [StatusStore.run_findService] at hfind
    exact (congrArg Prod.snd hfind).symm
  cases found with
  | none =>
    refine ⟨none, z, rfl, .unowned ?_⟩
    intro s
    have hnone := (StatusStore.findService_eq_none o z).mp (congrArg Prod.fst hfind) s
    rw [Scene.entry]
    cases hr : z.record s with
    | none => rfl
    | some r => simpa [ServiceRecord.contains] using hnone r hr
  | some s =>
    obtain ⟨r, hr, hcontains⟩ := StatusStore.findService_eq_some o z hfind
    obtain ⟨current, hcurrent⟩ := ServiceRecord.exists_of_contains hcontains
    simp only [Program.run_bind, StatusStore.run_findKeys, hr, hcurrent, Option.getD_some]
    split
    · rename_i hfailed
      rw [Program.run_bind]
      rcases run_fallBack (o := o) limit intent current h hr with
        ⟨a, es, u, hsearch, hrun⟩ | ⟨reason, es, u, hsearch, hrun⟩
      · rw [hrun]
        exact ⟨_, _, rfl, .resubmitted hr hcurrent hfailed.1 hsearch rfl⟩
      · rw [hrun]
        exact ⟨_, _, run_record h hr,
          .exhausted hr hcurrent hfailed.1 hfailed.2 hsearch rfl⟩
    · rename_i hfailed
      exact ⟨_, _, run_record h hr, .recorded hr hcurrent hfailed rfl⟩

theorem key_of_rebuildOver? {link : CandidateLink} {i : Intent}
    (h : intent.rebuildOver? link = some i) : i.key = intent.key := Intent.key_of_ofLink? h

/-- An event leaves other keys alone. -/
theorem Handled.untouched {event : Option ServiceEvent} {k : IntentKey}
    (h : Handled o limit intent status x event y) (hk : intent.key ≠ k) :
    ∃ es, y.calls = x.calls ++ es ∧ Untouched k x es y := by
  have hnone {links t result es u} (hsearch : Search o limit intent.rebuildOver? "" links t result
      es u) : submitted k es = [] :=
    hsearch.submitted_eq_nil fun _ _ hi hkey => hk ((key_of_rebuildOver? hi).symm.trans hkey)
  have hne {r : ServiceRecord} {current : KeyStatus}
      (hcurrent : r.get? intent.key = some current) : current.key ≠ k := by
    rwa [ServiceRecord.key_of_get? hcurrent]
  cases h with
  | unowned => exact ⟨[], (List.append_nil _).symm, fun _ => rfl, rfl, rfl, rfl⟩
  | @recorded s r current next _ hcurrent _ hnext =>
    have hkey : next.key ≠ k := by
      rw [hnext]
      exact (hne hcurrent :)
    exact ⟨[], (List.append_nil _).symm, fun _ => by simp [Scene.entry_upsert, hkey], rfl, rfl, rfl⟩
  | @resubmitted s r current next a es u _ hcurrent _ hsearch hnext =>
    have hkey : next.key ≠ k := by
      rw [hnext]
      exact (hne hcurrent :)
    exact ⟨_, rfl, fun _ => by simp [Scene.entry_upsert, hkey], by simp [hk], hnone hsearch,
      hsearch.withdrawals_eq_nil⟩
  | @exhausted s r current next reason es u _ hcurrent _ _ hsearch hnext =>
    have hkey : next.key ≠ k := by
      rw [hnext]
      exact (hne hcurrent :)
    exact ⟨_, rfl, fun _ => by simp [Scene.entry_upsert, hkey], rfl, hnone hsearch,
      hsearch.withdrawals_eq_nil⟩

end IntentPlane.StatusEvents
