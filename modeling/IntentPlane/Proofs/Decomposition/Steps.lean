import IntentPlane.Decomposition.Basic
import IntentPlane.Proofs.Search
import IntentPlane.Proofs.StoreAlone

/-!
# What a decomposition does, step by step

A decomposition realizes legs and withdraws keys. `Realized` and `Withdrawal` say all that one such
step can do to a scene when the program runs alone; `RealizedAll` and `WithdrawnAll` chain them, and
`Ran` puts them together for whole runs. A run that ends with a report went so (`ran_of_eval`), and
one with a direction and at least one attempt to write does end with a report (`eval_run_ok`).
-/

namespace IntentPlane

variable {τ : Type}

namespace Scene

/-- With another status in the entry of a key, where a service has one. -/
def setStatus (x : Scene τ) (s : ServiceId) (k : IntentKey) (status : IntentStatus) : Scene τ :=
  match x.entry s k with
  | some e => x.upsert s (e.withStatus status)
  | none => x

variable (x : Scene τ) (s t : ServiceId) (k l : IntentKey) (status : IntentStatus)

@[simp] theorem indexed_setStatus : (x.setStatus s k status).indexed l = x.indexed l := by
  unfold setStatus
  split <;> rfl

@[simp] theorem outside_setStatus : (x.setStatus s k status).outside = x.outside := by
  unfold setStatus
  split <;> rfl

@[simp] theorem calls_setStatus : (x.setStatus s k status).calls = x.calls := by
  unfold setStatus
  split <;> rfl

theorem key_of_entry {x : Scene τ} {e : KeyStatus} (h : x.entry s k = some e) : e.key = k := by
  obtain ⟨r, -, hr⟩ := Option.bind_eq_some_iff.mp h
  exact ServiceRecord.key_of_get? hr

theorem entry_setStatus :
    (x.setStatus s k status).entry t l =
      if s = t ∧ k = l then (x.entry s k).map (·.withStatus status) else x.entry t l := by
  unfold setStatus
  split
  · rename_i e he
    have hk : e.key = k := key_of_entry s k he
    rw [entry_upsert, he, ← hk]
    rfl
  · rename_i he
    split
    · rename_i h
      obtain ⟨rfl, rfl⟩ := h
      simp [he]
    · rfl

theorem record_setStatus_of_ne (h : s ≠ t) : (x.setStatus s k status).record t = x.record t := by
  unfold setStatus
  split <;> simp [h]

/-- Another status adds no entry to a record. -/
theorem keys_setStatus {r : ServiceRecord} (hr : x.record s = some r) :
    ∃ q, (x.setStatus s k status).record s = some q ∧ q.keys = r.keys := by
  unfold setStatus
  split
  · rename_i e he
    have hmem : e.key ∈ r.keys := by
      rw [entry, hr, Option.bind_some] at he
      exact List.mem_map_of_mem (List.mem_of_find?_eq_some he)
    refine ⟨r.upsert (e.withStatus status), ?_, (ServiceRecord.keys_upsert ..).trans (if_pos hmem)⟩
    rw [record_upsert, if_pos rfl, hr, Option.getD_some]
  · exact ⟨r, hr, rfl⟩

end Scene

/-- Look-ups of points, one after another. -/
inductive Asked (o : Surroundings τ) : τ → List Exchange → τ → Prop where
  | nil : Asked o t [] t
  | cons : o.resolve p t = (answer, t') → Asked o t' es u →
      Asked o t (.resolve p answer :: es) u

namespace Asked

variable {o : Surroundings τ} {t u : τ} {es : List Exchange} {k : IntentKey}

theorem submitted_eq_nil (h : Asked o t es u) : submitted k es = [] := by
  induction h with
  | nil => rfl
  | cons _ _ ih => exact ih

theorem withdrawals_eq_nil (h : Asked o t es u) : withdrawals k es = [] := by
  induction h with
  | nil => rfl
  | cons _ _ ih => exact ih

end Asked

namespace Decomposition

/-! ## Steps -/

/-- The usable endpoints among those that were looked up. -/
def usable (endpoints : List Endpoint) : List Endpoint := endpoints.filter (·.isAddressable)

/-- The usable endpoints of an answer of the registry, if there are any. -/
def usable? : Except RegistryError (List Endpoint) → Option (List Endpoint)
  | .error _ => none
  | .ok endpoints => if (usable endpoints).isEmpty then none else some (usable endpoints)

/-- What realizing a leg can do: the outcome and the progress, and the scene it leads to. -/
inductive Realized (o : Surroundings τ) (d : Decomposition) (key : IntentKey) (leg : Leg)
    (p : Progress) (x : Scene τ) : Outcome × Progress → Scene τ → Prop where
  | unresolved {point answer es u} : Asked o x.outside es u →
      point = leg.source.point ∨ point = leg.destination.point →
      .resolve point answer ∈ es → usable? answer = none →
      Realized o d key leg p x (unresolved key point p) (x.hear u es)
  | submitted {srcs dsts a es u v} :
      Asked o x.outside [.resolve leg.source.point (.ok srcs),
        .resolve leg.destination.point (.ok dsts)] u →
      Search o d.settings.submitTimeoutMs (d.intent? key leg) "no usable candidate link"
        (candidates p.taken leg.bidirectional (usable srcs) (usable dsts)) u (.ok a) es v →
      Realized o d key leg p x
        (.submitted key a.submission.status,
          { p with taken := take p.taken leg.bidirectional a.link })
        (((x.hear v (.resolve leg.source.point (.ok srcs) ::
          .resolve leg.destination.point (.ok dsts) :: es)).upsert d.service
            ⟨key, a.submission.status, a.untried, false⟩).setIndex key a.intent)
  | rejected {srcs dsts reason es u v} :
      Asked o x.outside [.resolve leg.source.point (.ok srcs),
        .resolve leg.destination.point (.ok dsts)] u →
      Search o d.settings.submitTimeoutMs (d.intent? key leg) "no usable candidate link"
        (candidates p.taken leg.bidirectional (usable srcs) (usable dsts)) u (.error reason) es v →
      Realized o d key leg p x (.rejected key reason, p)
        ((x.hear v (.resolve leg.source.point (.ok srcs) ::
          .resolve leg.destination.point (.ok dsts) :: es)).upsert d.service (.fresh key .failed))

inductive RealizedAll (o : Surroundings τ) (d : Decomposition) :
    List (IntentKey × Leg) → Progress → Scene τ → List Outcome → Progress → Scene τ → Prop where
  | nil : RealizedAll o d [] p x [] p x
  | cons : Realized o d k leg p x (outcome, p') y →
      RealizedAll o d legs p' y outcomes q z →
      RealizedAll o d ((k, leg) :: legs) p x (outcome :: outcomes) q z

/-- The status of an intent after its withdrawal was answered: one that is not known to the
framework is withdrawn at once. -/
inductive WithdrawnAs : Except FrameworkError Unit → IntentStatus → Prop where
  | requested : WithdrawnAs (.ok ()) .withdrawReq
  | atOnce : WithdrawnAs (.error (.notFound k)) .withdrawn

/-- What withdrawing a key can do: the outcome, and the scene it leads to. -/
inductive Withdrawal (o : Surroundings τ) (d : Decomposition) (key : IntentKey) (x : Scene τ) :
    Outcome → Scene τ → Prop where
  | withdrawn : o.withdraw d.settings.submitTimeoutMs key x.outside = (answer, u) →
      WithdrawnAs answer status →
      Withdrawal o d key x (.withdrawn key)
        ((((x.hear u [.withdraw d.settings.submitTimeoutMs key answer]).dropIndex key).ensure
          d.service).setStatus d.service key status)
  | failed : o.withdraw d.settings.submitTimeoutMs key x.outside = (.error e, u) →
      (∀ l, e ≠ .notFound l) →
      Withdrawal o d key x (.withdrawFailed key e.message)
        (x.hear u [.withdraw d.settings.submitTimeoutMs key (.error e)])

inductive WithdrawnAll (o : Surroundings τ) (d : Decomposition) :
    List IntentKey → Scene τ → List Outcome → Scene τ → Prop where
  | nil : WithdrawnAll o d [] x [] x
  | cons : Withdrawal o d k x outcome y → WithdrawnAll o d ks y outcomes z →
      WithdrawnAll o d (k :: ks) x (outcome :: outcomes) z

/-- The keys recorded for the service, and then the others, each once. -/
def ownedIn (d : Decomposition) (x : Scene τ) (others : List IntentKey) : List IntentKey :=
  (((x.record d.service).getD .empty).keys ++ others).eraseDups

def keyedLegs (d : Decomposition) : List (IntentKey × Leg) :=
  (d.keys (d.legsOf d.request).1.length).zip (d.legsOf d.request).1

/-- The keys that the previous request would have produced. -/
def previousKeys (d : Decomposition) (previous : Option ServiceRequest) : List IntentKey :=
  (previous.map d.plannedKeys).getD []

/-- What the run of a decomposition that ends with a report did. -/
inductive Ran (o : Surroundings τ) (d : Decomposition) (previous : Option ServiceRequest)
    (x : Scene τ) : Validation → Report → Scene τ → Prop where
  | create :
      RealizedAll o d d.keyedLegs ⟨[], (d.legsOf d.request).2⟩ x outcomes q z →
      Ran o d previous x .create ⟨d.service, .create, outcomes, q.tracker.issues⟩ z
  | update :
      RealizedAll o d d.keyedLegs ⟨[], (d.legsOf d.request).2⟩ x outcomes q y →
      WithdrawnAll o d ((d.ownedIn y (d.previousKeys previous)).filter
        fun k => k ∉ d.plannedKeys d.request) (y.ensure d.service) ws z →
      Ran o d previous x .update
        ⟨d.service, .update, outcomes ++ ws, q.tracker.issues⟩ z
  | delete :
      WithdrawnAll o d (d.ownedIn x (d.plannedKeys d.request ++ d.previousKeys previous))
        (x.ensure d.service) ws z →
      Ran o d previous x .delete
        ⟨d.service, .delete, ws, (d.legsOf d.request).2.issues⟩ z

variable {o : Surroundings τ} {d : Decomposition} {key : IntentKey} {leg : Leg} {p q : Progress}
  {x y z : Scene τ}

/-! ## Keys -/

theorem mem_keys {n : Nat} : key ∈ d.keys n ↔ ∃ m, m < n ∧ key = d.key (m + 1) := by
  simp [keys, eq_comm]

theorem length_keys (n : Nat) : (d.keys n).length = n := by simp [keys]

/-! ## Realizing a leg -/

theorem usable?_eq_some {answer : Except RegistryError (List Endpoint)} {found : List Endpoint}
    (h : usable? answer = some found) :
    ∃ endpoints, answer = .ok endpoints ∧ usable endpoints = found := by
  cases answer with
  | error => cases h
  | ok endpoints =>
    refine ⟨endpoints, rfl, ?_⟩
    rw [usable?] at h
    split at h
    · cases h
    · exact Option.some.inj h

/-- Recording an entry succeeds just if there is an attempt to write at all. -/
theorem eval_record (e : KeyStatus) :
    o.eval (d.record e) x =
      if d.retries = 0 then (.error (.store (.contended d.service 0)), x)
      else (.ok (), x.upsert d.service e) := by
  split
  · rename_i h
    rw [record, Surroundings.eval_lift_bind (a := .error (.contended d.service 0)) (y := x)
      (by rw [h]; rfl)]
    rfl
  · rename_i h
    rw [record, Surroundings.eval_lift_bind (StatusStore.run_updateKey o x h e)]
    rfl

/-- An entry that was recorded is in the record. -/
theorem eq_upsert_of_record {e : KeyStatus} (h : o.eval (d.record e) x = (.ok (), y)) :
    y = x.upsert d.service e := by
  rw [eval_record] at h
  split at h
  · cases h
  · exact (congrArg Prod.snd h).symm

theorem run_resolve (point : ConnectionPoint) (x : Scene τ) :
    ∃ answer u, o.resolve point x.outside = (answer, u) ∧
      (resolve point).run o.answer x = (usable? answer, x.hear u [.resolve point answer]) := by
  rcases hr : o.resolve point x.outside with ⟨answer, u⟩
  refine ⟨answer, u, rfl, ?_⟩
  rw [resolve, Program.run_bind, Surroundings.run_resolve, hr]
  cases answer <;> rfl

/-- A leg with links to try is submitted or rejected. -/
theorem realizeOver_cases {links : List CandidateLink} {r : Outcome × Progress}
    (h : o.eval (d.realizeOver key leg links p) x = (.ok r, y)) :
    (∃ a es v, Search o d.settings.submitTimeoutMs (d.intent? key leg) "no usable candidate link"
        links x.outside (.ok a) es v ∧
      r = (.submitted key a.submission.status,
        { p with taken := take p.taken leg.bidirectional a.link }) ∧
      y = ((x.hear v es).upsert d.service
        ⟨key, a.submission.status, a.untried, false⟩).setIndex key a.intent) ∨
    ∃ reason es v, Search o d.settings.submitTimeoutMs (d.intent? key leg)
        "no usable candidate link" links x.outside (.error reason) es v ∧
      r = (.rejected key reason, p) ∧
      y = (x.hear v es).upsert d.service (.fresh key .failed) := by
  obtain ⟨result, es, v, hsearch, hrun⟩ := run_submitFirst o d.settings.submitTimeoutMs
    (d.intent? key leg) "no usable candidate link" links x
  rw [realizeOver, Surroundings.eval_lift_bind hrun] at h
  cases result with
  | ok a =>
    obtain ⟨⟨⟩, z, hrecord, h⟩ := Surroundings.eval_bind_eq_ok h
    obtain rfl := eq_upsert_of_record hrecord
    rw [Surroundings.eval_lift_bind (Surroundings.run_indexIntent ..)] at h
    obtain ⟨hr, rfl⟩ := Prod.mk.inj h
    exact .inl ⟨a, es, v, hsearch, (Except.ok.inj hr).symm, rfl⟩
  | error reason =>
    obtain ⟨⟨⟩, z, hrecord, h⟩ := Surroundings.eval_bind_eq_ok h
    obtain rfl := eq_upsert_of_record hrecord
    obtain ⟨hr, rfl⟩ := Prod.mk.inj h
    exact .inr ⟨reason, es, v, hsearch, (Except.ok.inj hr).symm, rfl⟩

theorem realize_cases {r : Outcome × Progress}
    (h : o.eval (d.realize key leg p) x = (.ok r, y)) : Realized o d key leg p x r y := by
  obtain ⟨answer, u, hsrc, hrun⟩ := run_resolve (o := o) leg.source.point x
  rw [realize, Surroundings.eval_lift_bind hrun] at h
  have hasked : Asked o x.outside [.resolve leg.source.point answer] u := .cons hsrc .nil
  cases hs : usable? answer with
  | none =>
    rw [hs] at h
    obtain ⟨hr, rfl⟩ := Prod.mk.inj h
    cases hr
    exact .unresolved hasked (.inl rfl) (.head _) hs
  | some srcs =>
    obtain ⟨answer', v, hdst, hrun⟩ := run_resolve (o := o) leg.destination.point
      (x.hear u [.resolve leg.source.point answer])
    rw [hs, Surroundings.eval_lift_bind hrun, Scene.hear_hear] at h
    have hasked : Asked o x.outside
        [.resolve leg.source.point answer, .resolve leg.destination.point answer'] v :=
      .cons hsrc (.cons hdst .nil)
    cases hd : usable? answer' with
    | none =>
      rw [hd] at h
      obtain ⟨hr, rfl⟩ := Prod.mk.inj h
      cases hr
      exact .unresolved hasked (.inr rfl) (.tail _ (.head _)) hd
    | some dsts =>
      obtain ⟨srcs, rfl, rfl⟩ := usable?_eq_some hs
      obtain ⟨dsts, rfl, rfl⟩ := usable?_eq_some hd
      rw [hd] at h
      rcases realizeOver_cases h with
        ⟨a, es, w, hsearch, rfl, rfl⟩ | ⟨reason, es, w, hsearch, rfl, rfl⟩
      · rw [Scene.hear_hear]
        exact .submitted hasked hsearch
      · rw [Scene.hear_hear]
        exact .rejected hasked hsearch

theorem eval_realizeOver_ok (h : d.retries ≠ 0) (links : List CandidateLink) :
    ∃ r y, o.eval (d.realizeOver key leg links p) x = (.ok r, y) := by
  obtain ⟨result, es, v, -, hrun⟩ := run_submitFirst o d.settings.submitTimeoutMs
    (d.intent? key leg) "no usable candidate link" links x
  rw [realizeOver, Surroundings.eval_lift_bind hrun]
  cases result with
  | ok a =>
    rw [Surroundings.eval_bind_ok ((eval_record _).trans (if_neg h)),
      Surroundings.eval_lift_bind (Surroundings.run_indexIntent ..)]
    exact ⟨_, _, rfl⟩
  | error reason =>
    rw [Surroundings.eval_bind_ok ((eval_record _).trans (if_neg h))]
    exact ⟨_, _, rfl⟩

/-- With an attempt to write, realizing a leg gives an outcome. -/
theorem eval_realize_ok (h : d.retries ≠ 0) :
    ∃ r y, o.eval (d.realize key leg p) x = (.ok r, y) := by
  obtain ⟨answer, u, -, hrun⟩ := run_resolve (o := o) leg.source.point x
  rw [realize, Surroundings.eval_lift_bind hrun]
  cases usable? answer with
  | none => exact ⟨_, _, rfl⟩
  | some srcs =>
    obtain ⟨answer', v, -, hrun⟩ := run_resolve (o := o) leg.destination.point
      (x.hear u [.resolve leg.source.point answer])
    rw [Surroundings.eval_lift_bind hrun]
    cases usable? answer' with
    | none => exact ⟨_, _, rfl⟩
    | some dsts => exact eval_realizeOver_ok h _

theorem realizeAll_cases {legs : List (IntentKey × Leg)} {outcomes : List Outcome}
    (h : o.eval (d.realizeAll legs p) x = (.ok (outcomes, q), z)) :
    RealizedAll o d legs p x outcomes q z := by
  induction legs generalizing p x outcomes with
  | nil =>
    obtain ⟨hr, rfl⟩ := Prod.mk.inj h
    cases hr
    exact .nil
  | cons leg legs ih =>
    rw [realizeAll] at h
    obtain ⟨⟨outcome, p'⟩, y, hfirst, h⟩ := Surroundings.eval_bind_eq_ok h
    obtain ⟨⟨outcomes, q'⟩, z', hrest, h⟩ := Surroundings.eval_bind_eq_ok h
    obtain ⟨hr, rfl⟩ := Prod.mk.inj h
    cases hr
    exact .cons (realize_cases hfirst) (ih hrest)

theorem eval_realizeAll_ok (h : d.retries ≠ 0) (legs : List (IntentKey × Leg)) :
    ∃ r y, o.eval (d.realizeAll legs p) x = (.ok r, y) := by
  induction legs generalizing p x with
  | nil => exact ⟨_, _, rfl⟩
  | cons leg legs ih =>
    obtain ⟨r, y, hfirst⟩ : ∃ r y, o.eval (d.realize leg.1 leg.2 p) x = (.ok r, y) :=
      eval_realize_ok h
    obtain ⟨r', z, hrest⟩ := ih (p := r.2) (x := y)
    rw [realizeAll, Surroundings.eval_bind_ok hfirst, Surroundings.eval_bind_ok hrest]
    exact ⟨_, _, rfl⟩

/-! ## Withdrawing a key -/

theorem eval_recordWithdrawal (status : IntentStatus) :
    o.eval (d.recordWithdrawal key status) x =
      if d.retries = 0 ∧ ((x.dropIndex key).entry d.service key).isSome then
        (.error (.store (.contended d.service 0)), (x.dropIndex key).ensure d.service)
      else
        (.ok (.withdrawn key),
          ((x.dropIndex key).ensure d.service).setStatus d.service key status) := by
  rw [recordWithdrawal, Surroundings.eval_lift_bind (Surroundings.run_unindexIntent ..),
    Surroundings.eval_lift_bind (StatusStore.run_getKeys ..), ← Scene.entry_eq_getD]
  have hsame := Scene.entry_ensure (x.dropIndex key) d.service d.service key
  cases he : (x.dropIndex key).entry d.service key with
  | none =>
    rw [he] at hsame
    simp [Scene.setStatus, hsame]
  | some e =>
    rw [he] at hsame
    simp only [Surroundings.eval_bind, eval_record, Scene.setStatus, hsame]
    by_cases h : d.retries = 0 <;> simp [h]

theorem withdraw_cases {outcome : Outcome} (h : o.eval (d.withdraw key) x = (.ok outcome, y)) :
    Withdrawal o d key x outcome y := by
  rw [withdraw, Surroundings.eval_lift_bind (Surroundings.run_withdraw ..)] at h
  rcases hw : o.withdraw d.settings.submitTimeoutMs key x.outside with ⟨answer, u⟩
  rw [hw] at h
  have hrecorded {status} (hstatus : WithdrawnAs answer status)
      (h : o.eval (d.recordWithdrawal key status)
        (x.hear u [.withdraw d.settings.submitTimeoutMs key answer]) = (.ok outcome, y)) :
      Withdrawal o d key x outcome y := by
    rw [eval_recordWithdrawal] at h
    split at h
    · cases h
    · obtain ⟨hr, rfl⟩ := Prod.mk.inj h
      cases hr
      exact .withdrawn hw hstatus
  match answer, h with
  | .ok (), h => exact hrecorded .requested h
  | .error (.notFound l), h => exact hrecorded .atOnce h
  | .error (.rejected ..), h | .error (.timeout _), h | .error (.unavailable _), h =>
    obtain ⟨hr, rfl⟩ := Prod.mk.inj h
    cases hr
    exact .failed hw nofun

theorem eval_withdraw_ok (h : d.retries ≠ 0) :
    ∃ outcome y, o.eval (d.withdraw key) x = (.ok outcome, y) := by
  rw [withdraw, Surroundings.eval_lift_bind (Surroundings.run_withdraw ..)]
  split
  · rw [eval_recordWithdrawal, if_neg fun hc => h hc.1]
    exact ⟨_, _, rfl⟩
  · rw [eval_recordWithdrawal, if_neg fun hc => h hc.1]
    exact ⟨_, _, rfl⟩
  · exact ⟨_, _, rfl⟩

theorem withdrawAll_cases {keys : List IntentKey} {outcomes : List Outcome}
    (h : o.eval (keys.mapM d.withdraw) x = (.ok outcomes, z)) :
    WithdrawnAll o d keys x outcomes z := by
  induction keys generalizing x outcomes with
  | nil =>
    obtain ⟨hr, rfl⟩ := Prod.mk.inj h
    cases hr
    exact .nil
  | cons key keys ih =>
    rw [List.mapM_cons] at h
    obtain ⟨outcome, y, hfirst, h⟩ := Surroundings.eval_bind_eq_ok h
    obtain ⟨outcomes, z', hrest, h⟩ := Surroundings.eval_bind_eq_ok h
    obtain ⟨hr, rfl⟩ := Prod.mk.inj h
    cases hr
    exact .cons (withdraw_cases hfirst) (ih hrest)

theorem eval_withdrawAll_ok (h : d.retries ≠ 0) (keys : List IntentKey) :
    ∃ outcomes y, o.eval (keys.mapM d.withdraw) x = (.ok outcomes, y) := by
  induction keys generalizing x with
  | nil => exact ⟨_, _, rfl⟩
  | cons key keys ih =>
    obtain ⟨outcome, y, hfirst⟩ : ∃ outcome y, o.eval (d.withdraw key) x = (.ok outcome, y) :=
      eval_withdraw_ok h
    obtain ⟨outcomes, z, hrest⟩ := ih (x := y)
    rw [List.mapM_cons, Surroundings.eval_bind_ok hfirst, Surroundings.eval_bind_ok hrest]
    exact ⟨_, _, rfl⟩

/-! ## Whole runs -/

theorem install_cases {outcomes : List Outcome} {tracker : Tracker}
    (h : o.eval d.install x = (.ok (outcomes, tracker), z)) :
    ∃ q, RealizedAll o d d.keyedLegs ⟨[], (d.legsOf d.request).2⟩ x outcomes q z ∧
      tracker = q.tracker := by
  obtain ⟨⟨outcomes, q⟩, y, hall, h⟩ := Surroundings.eval_bind_eq_ok h
  obtain ⟨hr, rfl⟩ := Prod.mk.inj h
  cases hr
  exact ⟨q, realizeAll_cases hall, rfl⟩

theorem eval_install_ok (h : d.retries ≠ 0) : ∃ r y, o.eval d.install x = (.ok r, y) := by
  obtain ⟨r, y, hall⟩ := eval_realizeAll_ok (o := o) (p := ⟨[], (d.legsOf d.request).2⟩) (x := x) h
    d.keyedLegs
  exact ⟨_, _, Surroundings.eval_bind_ok hall _⟩

theorem run_ownedKeys (others : List IntentKey) (x : Scene τ) :
    (d.ownedKeys others).run o.answer x = (d.ownedIn x others, x.ensure d.service) := by
  rw [ownedKeys, Program.run_bind, StatusStore.run_getKeys]
  rfl

theorem eval_withdrawStale (previous : Option ServiceRequest) :
    o.eval (d.withdrawStale previous) x =
      o.eval (((d.ownedIn x (d.previousKeys previous)).filter
        fun k => k ∉ d.plannedKeys d.request).mapM d.withdraw) (x.ensure d.service) :=
  Surroundings.eval_lift_bind (run_ownedKeys ..) _

theorem eval_withdrawAll (previous : Option ServiceRequest) :
    o.eval (d.withdrawAll previous) x =
      o.eval ((d.ownedIn x (d.plannedKeys d.request ++ d.previousKeys previous)).mapM d.withdraw)
        (x.ensure d.service) :=
  Surroundings.eval_lift_bind (run_ownedKeys ..) _

/-- A run that ends with a report went as `Ran` says. -/
theorem ran_of_eval {previous : Option ServiceRequest} {validation : Validation} {report : Report}
    (h : o.eval (d.run previous validation) x = (.ok report, z)) :
    Ran o d previous x validation report z := by
  rw [run] at h
  split at h
  · cases h
  · change o.eval (d.perform previous validation) x = _ at h
    cases validation with
    | create =>
      obtain ⟨⟨outcomes, tracker⟩, y, hinstall, h⟩ := Surroundings.eval_bind_eq_ok h
      obtain ⟨q, hall, rfl⟩ := install_cases hinstall
      obtain ⟨hr, rfl⟩ := Prod.mk.inj h
      cases hr
      exact .create hall
    | update =>
      obtain ⟨⟨outcomes, tracker⟩, y, hinstall, h⟩ := Surroundings.eval_bind_eq_ok h
      obtain ⟨q, hall, rfl⟩ := install_cases hinstall
      obtain ⟨withdrawals, z', hstale, h⟩ := Surroundings.eval_bind_eq_ok h
      rw [eval_withdrawStale] at hstale
      obtain ⟨hr, rfl⟩ := Prod.mk.inj h
      cases hr
      exact .update hall (withdrawAll_cases hstale)
    | delete =>
      obtain ⟨withdrawals, z', hall, h⟩ := Surroundings.eval_bind_eq_ok h
      rw [eval_withdrawAll] at hall
      obtain ⟨hr, rfl⟩ := Prod.mk.inj h
      cases hr
      exact .delete (withdrawAll_cases hall)

/-! With a direction, a run ends with the report of what it does. -/

section

variable (hdir : d.settings.bidirectional = true ∨ d.settings.unidirectional = true)
include hdir

theorem eval_run (previous : Option ServiceRequest) (validation : Validation) :
    o.eval (d.run previous validation) x = o.eval (d.perform previous validation) x := by
  have hno : ¬ (!d.settings.bidirectional && !d.settings.unidirectional) = true := by
    rcases hdir with h | h <;> simp [h]
  rw [run, if_neg hno]

theorem eval_run_create {r : List Outcome × Tracker} (hinstall : o.eval d.install x = (.ok r, y))
    (previous : Option ServiceRequest) :
    o.eval (d.run previous .create) x = (.ok ⟨d.service, .create, r.1, r.2.issues⟩, y) :=
  (eval_run hdir ..).trans (Surroundings.eval_bind_ok hinstall _)

theorem eval_run_update {previous : Option ServiceRequest} {r : List Outcome × Tracker}
    {ws : List Outcome} (hinstall : o.eval d.install x = (.ok r, y))
    (hstale : o.eval (d.withdrawStale previous) y = (.ok ws, z)) :
    o.eval (d.run previous .update) x = (.ok ⟨d.service, .update, r.1 ++ ws, r.2.issues⟩, z) :=
  (eval_run hdir ..).trans <| (Surroundings.eval_bind_ok hinstall _).trans
    (Surroundings.eval_bind_ok hstale _)

theorem eval_run_delete {previous : Option ServiceRequest} {ws : List Outcome}
    (hall : o.eval (d.withdrawAll previous) x = (.ok ws, z)) :
    o.eval (d.run previous .delete) x =
      (.ok ⟨d.service, .delete, ws, (d.legsOf d.request).2.issues⟩, z) :=
  (eval_run hdir ..).trans (Surroundings.eval_bind_ok hall _)

/-- With an attempt to write, too, a run ends with a report. -/
theorem eval_run_ok (h : d.retries ≠ 0) (previous : Option ServiceRequest)
    (validation : Validation) :
    ∃ report z, o.eval (d.run previous validation) x = (.ok report, z) := by
  cases validation with
  | create =>
    obtain ⟨r, y, hinstall⟩ := eval_install_ok (o := o) (x := x) h
    exact ⟨_, _, eval_run_create hdir hinstall previous⟩
  | update =>
    obtain ⟨r, y, hinstall⟩ := eval_install_ok (o := o) (x := x) h
    obtain ⟨ws, z, hstale⟩ := eval_withdrawAll_ok (o := o) (x := y.ensure d.service) h
      ((d.ownedIn y (d.previousKeys previous)).filter fun k => k ∉ d.plannedKeys d.request)
    rw [← eval_withdrawStale] at hstale
    exact ⟨_, _, eval_run_update hdir hinstall hstale⟩
  | delete =>
    obtain ⟨ws, z, hall⟩ := eval_withdrawAll_ok (o := o) (x := x.ensure d.service) h
      (d.ownedIn x (d.plannedKeys d.request ++ d.previousKeys previous))
    rw [← eval_withdrawAll] at hall
    exact ⟨_, _, eval_run_delete hdir hall⟩

end

/-- Without a direction, a run does nothing. -/
theorem eval_run_noDirection
    (hdir : ¬ (d.settings.bidirectional = true ∨ d.settings.unidirectional = true))
    (previous : Option ServiceRequest) (validation : Validation) :
    o.eval (d.run previous validation) x = (.error .noDirection, x) := by
  have hno : (!d.settings.bidirectional && !d.settings.unidirectional) = true := by
    simpa using hdir
  rw [run, if_pos hno]
  rfl

/-- With an attempt to write, a run does nothing or ends with a report. -/
theorem eval_run_cases (h : d.retries ≠ 0) (previous : Option ServiceRequest)
    (validation : Validation) :
    o.eval (d.run previous validation) x = (.error .noDirection, x) ∨
      ∃ report z, o.eval (d.run previous validation) x = (.ok report, z) := by
  by_cases hdir : d.settings.bidirectional = true ∨ d.settings.unidirectional = true
  · exact .inr (eval_run_ok hdir h previous validation)
  · exact .inl (eval_run_noDirection hdir previous validation)

end Decomposition

end IntentPlane
