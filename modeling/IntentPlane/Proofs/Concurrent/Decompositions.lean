import IntentPlane.Proofs.Concurrent.Accesses
import IntentPlane.Proofs.Decomposition.Account

/-!
# What decompositions do, access by access

The traces of decompositions that end with a report. A leg is submitted over its candidate links and
then recorded; a withdrawal is recorded if the service has an entry. Whatever others do meanwhile,
each of the two only deals with one key (`Confined`).
-/

namespace IntentPlane

namespace Decomposition

/-- An update that records an entry. -/
def Records (d : Decomposition) (e : KeyStatus) (ds : List Deed) : Prop :=
  ∃ r, StatusStore.Rounds (.contended d.service d.retries) .create d.service (·.upsert e)
    d.retries.toNat ds (.ok (some r))

/-- The ways to realize a leg. -/
inductive Realizes (d : Decomposition) (key : IntentKey) (leg : Leg) : List Deed → Prop where
  | unresolved : (∀ e ∈ asks, ∃ p answer, e = ⟨.resolve p, answer⟩) → Realizes d key leg asks
  | submitted : (∀ e ∈ asks, ∃ p answer, e = ⟨.resolve p, answer⟩) →
      Seeks d.settings.submitTimeoutMs (d.intent? key leg) links tries (.ok a) →
      d.Records ⟨key, a.submission.status, a.untried, false⟩ puts →
      Realizes d key leg (asks ++ (tries ++ (puts ++ [⟨.indexIntent key a.intent, ()⟩])))
  | rejected : (∀ e ∈ asks, ∃ p answer, e = ⟨.resolve p, answer⟩) →
      Seeks d.settings.submitTimeoutMs (d.intent? key leg) links tries (.error reason) →
      d.Records (.fresh key .failed) puts →
      Realizes d key leg (asks ++ (tries ++ puts))

inductive RealizesAll (d : Decomposition) : List (IntentKey × Leg) → List Deed → Prop where
  | nil : RealizesAll d [] []
  | cons : Realizes d k leg ds → RealizesAll d legs ds' →
      RealizesAll d ((k, leg) :: legs) (ds ++ ds')

/-- The ways to withdraw a key. -/
inductive Withdraws (d : Decomposition) (key : IntentKey) : List Deed → Prop where
  | failed {e : FrameworkError} : (∀ l, e ≠ .notFound l) →
      Withdraws d key [⟨.withdraw d.settings.submitTimeoutMs key, .error e⟩]
  | unrecorded {i : Option Intent} {v : Versioned ServiceRecord} : WithdrawnAs answer status →
      v.value.get? key = none →
      Withdraws d key [⟨.withdraw d.settings.submitTimeoutMs key, answer⟩,
        ⟨.unindexIntent key, i⟩, ⟨.ensureRecord d.service, v⟩]
  | recorded {i : Option Intent} {v : Versioned ServiceRecord} : WithdrawnAs answer status →
      v.value.get? key = some e → d.Records (e.withStatus status) puts →
      Withdraws d key (⟨.withdraw d.settings.submitTimeoutMs key, answer⟩ ::
        ⟨.unindexIntent key, i⟩ :: ⟨.ensureRecord d.service, v⟩ :: puts)

inductive WithdrawsAll (d : Decomposition) : List IntentKey → List Deed → Prop where
  | nil : WithdrawsAll d [] []
  | cons : Withdraws d k ds → WithdrawsAll d ks ds' → WithdrawsAll d (k :: ks) (ds ++ ds')

/-- The keys of a record and then the others, each once. -/
def owned (r : ServiceRecord) (others : List IntentKey) : List IntentKey :=
  (r.keys ++ others).eraseDups

/-- The ways of a run that ends with a report. -/
inductive Trace (d : Decomposition) (previous : Option ServiceRequest) :
    Validation → List Deed → Prop where
  | create : RealizesAll d d.keyedLegs ds → Trace d previous .create ds
  | update {v : Versioned ServiceRecord} : RealizesAll d d.keyedLegs ds →
      WithdrawsAll d ((owned v.value (d.previousKeys previous)).filter
        fun k => k ∉ d.plannedKeys d.request) ds' →
      Trace d previous .update (ds ++ ⟨.ensureRecord d.service, v⟩ :: ds')
  | delete {v : Versioned ServiceRecord} :
      WithdrawsAll d (owned v.value (d.plannedKeys d.request ++ d.previousKeys previous)) ds →
      Trace d previous .delete (⟨.ensureRecord d.service, v⟩ :: ds)

variable {d : Decomposition} {key : IntentKey} {leg : Leg} {p q : Progress} {ds : List Deed}

theorem records_of_yields {e : KeyStatus} (h : (d.record e).run.Yields ds (.ok ())) :
    d.Records e ds := by
  obtain ⟨ds₁, result, ds₂, rfl, hupdate, hend⟩ := Program.yields_lift_bind.mp h
  obtain ⟨written, hwritten, rfl⟩ := Program.yields_map.mp hupdate
  have hrounds := StatusStore.rounds_of_attempt hwritten
  rcases written with failure | _ | r
  · obtain ⟨-, hresult⟩ := Program.yields_pure.mp hend
    cases hresult
  · exact absurd rfl hrounds.ne_none
  · obtain ⟨rfl, -⟩ := Program.yields_pure.mp hend
    rw [List.append_nil]
    exact ⟨r, hrounds⟩

theorem yields_resolve {point : ConnectionPoint} {found : Option (List Endpoint)}
    (h : (resolve point).Yields ds found) : ∃ answer, ds = [⟨.resolve point, answer⟩] := by
  obtain ⟨answer, rest, rfl, hrest⟩ := Program.yields_access_bind.mp h
  cases answer with
  | error e =>
    obtain ⟨rfl, -⟩ := Program.yields_pure.mp hrest
    exact ⟨_, rfl⟩
  | ok endpoints =>
    obtain ⟨rfl, -⟩ := Program.yields_pure.mp hrest
    exact ⟨_, rfl⟩

theorem realizes_of_realizeOver {links : List CandidateLink} {r : Outcome × Progress}
    {asks : List Deed} (hasks : ∀ e ∈ asks, ∃ p answer, e = ⟨.resolve p, answer⟩)
    (h : (d.realizeOver key leg links p).run.Yields ds (.ok r)) :
    d.Realizes key leg (asks ++ ds) := by
  obtain ⟨tries, found, rest, rfl, htries, hrest⟩ := Program.yields_lift_bind.mp h
  have hseeks := seeks_of_submitFirst htries
  cases found with
  | error reason =>
    rcases Program.yields_bind_except.mp hrest with
      ⟨puts, ⟨⟩, rest, rfl, hputs, hend⟩ | ⟨e, he, -⟩
    · obtain ⟨rfl, -⟩ := Program.yields_pure.mp hend
      rw [List.append_nil]
      exact .rejected hasks hseeks (records_of_yields hputs)
    · cases he
  | ok a =>
    rcases Program.yields_bind_except.mp hrest with
      ⟨puts, ⟨⟩, rest, rfl, hputs, hindex⟩ | ⟨e, he, -⟩
    · obtain ⟨indexing, ⟨⟩, rest, rfl, hindexing, hend⟩ := Program.yields_lift_bind.mp hindex
      obtain rfl := Program.yields_access.mp hindexing
      obtain ⟨rfl, -⟩ := Program.yields_pure.mp hend
      rw [List.append_nil]
      exact .submitted hasks hseeks (records_of_yields hputs)
    · cases he

theorem realizes_of_yields {r : Outcome × Progress}
    (h : (d.realize key leg p).run.Yields ds (.ok r)) : d.Realizes key leg ds := by
  obtain ⟨ds₁, srcs, rest, rfl, hsrcs, hrest⟩ := Program.yields_lift_bind.mp h
  obtain ⟨answer, rfl⟩ := yields_resolve hsrcs
  cases srcs with
  | none =>
    obtain ⟨rfl, -⟩ := Program.yields_pure.mp hrest
    exact .unresolved (by simp)
  | some srcs =>
    obtain ⟨ds₂, dsts, rest, rfl, hdsts, hrest⟩ := Program.yields_lift_bind.mp hrest
    obtain ⟨answer', rfl⟩ := yields_resolve hdsts
    cases dsts with
    | none =>
      obtain ⟨rfl, -⟩ := Program.yields_pure.mp hrest
      exact .unresolved (by simp)
    | some dsts =>
      rw [← List.append_assoc]
      exact realizes_of_realizeOver (by simp) hrest

theorem realizesAll_of_yields {legs : List (IntentKey × Leg)} {r : List Outcome × Progress}
    (h : (d.realizeAll legs p).run.Yields ds (.ok r)) : d.RealizesAll legs ds := by
  induction legs generalizing p ds r with
  | nil =>
    obtain ⟨rfl, -⟩ := Program.yields_pure.mp h
    exact .nil
  | cons leg legs ih =>
    rcases Program.yields_bind_except.mp h with ⟨ds₁, r₁, rest, rfl, hleg, hrest⟩ | ⟨e, he, -⟩
    · rcases Program.yields_bind_except.mp hrest with
        ⟨ds₂, r₂, rest, rfl, hlegs, hend⟩ | ⟨e, he, -⟩
      · obtain ⟨rfl, -⟩ := Program.yields_pure.mp hend
        rw [List.append_nil]
        exact .cons (realizes_of_yields hleg) (ih hlegs)
      · cases he
    · cases he

theorem withdraws_of_recordWithdrawal {answer : Except FrameworkError Unit}
    {status : IntentStatus} {outcome : Outcome} (hstatus : WithdrawnAs answer status)
    (h : (d.recordWithdrawal key status).run.Yields ds (.ok outcome)) :
    d.Withdraws key (⟨.withdraw d.settings.submitTimeoutMs key, answer⟩ :: ds) := by
  obtain ⟨ds₁, i, rest, rfl, hunindex, hrest⟩ := Program.yields_lift_bind.mp h
  obtain rfl := Program.yields_access.mp hunindex
  obtain ⟨ds₂, r, rest, rfl, hkeys, hrecord⟩ := Program.yields_lift_bind.mp hrest
  obtain ⟨v, hensure, rfl⟩ := Program.yields_map.mp hkeys
  obtain rfl := Program.yields_access.mp hensure
  cases he : v.value.get? key with
  | none =>
    rw [he] at hrecord
    obtain ⟨rfl, -⟩ := Program.yields_pure.mp hrecord
    exact .unrecorded hstatus he
  | some e =>
    rw [he] at hrecord
    rcases Program.yields_bind_except.mp hrecord with
      ⟨puts, ⟨⟩, rest, rfl, hputs, hend⟩ | ⟨e, he, -⟩
    · obtain ⟨rfl, -⟩ := Program.yields_pure.mp hend
      rw [List.append_nil]
      exact .recorded hstatus he (records_of_yields hputs)
    · cases he

theorem withdraws_of_yields {outcome : Outcome}
    (h : (d.withdraw key).run.Yields ds (.ok outcome)) : d.Withdraws key ds := by
  obtain ⟨ds₁, answer, rest, rfl, hwithdraw, hrest⟩ := Program.yields_lift_bind.mp h
  obtain rfl := Program.yields_access.mp hwithdraw
  match answer, hrest with
  | .ok (), hrest => exact withdraws_of_recordWithdrawal .requested hrest
  | .error (.notFound l), hrest => exact withdraws_of_recordWithdrawal .atOnce hrest
  | .error (.rejected ..), hrest | .error (.timeout _), hrest | .error (.unavailable _), hrest =>
    obtain ⟨rfl, -⟩ := Program.yields_pure.mp hrest
    exact .failed nofun

theorem withdrawsAll_of_yields {keys : List IntentKey} {outcomes : List Outcome}
    (h : (keys.mapM d.withdraw).run.Yields ds (.ok outcomes)) : d.WithdrawsAll keys ds := by
  induction keys generalizing ds outcomes with
  | nil =>
    obtain ⟨rfl, -⟩ := Program.yields_pure.mp h
    exact .nil
  | cons key keys ih =>
    rw [List.mapM_cons] at h
    rcases Program.yields_bind_except.mp h with ⟨ds₁, r₁, rest, rfl, hkey, hrest⟩ | ⟨e, he, -⟩
    · rcases Program.yields_bind_except.mp hrest with
        ⟨ds₂, r₂, rest, rfl, hkeys, hend⟩ | ⟨e, he, -⟩
      · obtain ⟨rfl, -⟩ := Program.yields_pure.mp hend
        rw [List.append_nil]
        exact .cons (withdraws_of_yields hkey) (ih hkeys)
      · cases he
    · cases he

theorem yields_ownedKeys {others keys : List IntentKey}
    (h : (d.ownedKeys others).Yields ds keys) :
    ∃ v, ds = [⟨.ensureRecord d.service, v⟩] ∧ keys = owned v.value others := by
  obtain ⟨r, hkeys, rfl⟩ := Program.yields_map.mp h
  obtain ⟨v, hensure, rfl⟩ := Program.yields_map.mp hkeys
  exact ⟨v, Program.yields_access.mp hensure, rfl⟩

theorem realizesAll_of_install {r : List Outcome × Tracker}
    (h : d.install.run.Yields ds (.ok r)) : d.RealizesAll d.keyedLegs ds := by
  rcases Program.yields_bind_except.mp h with ⟨ds₁, r₁, rest, rfl, hlegs, hend⟩ | ⟨e, he, -⟩
  · obtain ⟨rfl, -⟩ := Program.yields_pure.mp hend
    rw [List.append_nil]
    exact realizesAll_of_yields hlegs
  · cases he

theorem trace_of_run {previous : Option ServiceRequest} {validation : Validation}
    {report : Report} (h : (d.run previous validation).run.Yields ds (.ok report)) :
    d.Trace previous validation ds := by
  rw [run] at h
  split at h
  · obtain ⟨-, hresult⟩ := Program.yields_pure.mp h
    cases hresult
  · change (d.perform previous validation).run.Yields _ _ at h
    cases validation with
    | create =>
      rcases Program.yields_bind_except.mp h with ⟨ds₁, r, rest, rfl, hinstall, hend⟩ | ⟨e, he, -⟩
      · obtain ⟨rfl, -⟩ := Program.yields_pure.mp hend
        rw [List.append_nil]
        exact .create (realizesAll_of_install hinstall)
      · cases he
    | update =>
      rcases Program.yields_bind_except.mp h with ⟨ds₁, r, rest, rfl, hinstall, hrest⟩ | ⟨e, he, -⟩
      · rcases Program.yields_bind_except.mp hrest with
          ⟨ds₂, r', rest, rfl, hstale, hend⟩ | ⟨e, he, -⟩
        · obtain ⟨rfl, -⟩ := Program.yields_pure.mp hend
          obtain ⟨ds₃, keys, ds₄, rfl, hkeys, hall⟩ := Program.yields_lift_bind.mp hstale
          obtain ⟨v, rfl, rfl⟩ := yields_ownedKeys hkeys
          rw [List.append_nil]
          exact .update (realizesAll_of_install hinstall) (withdrawsAll_of_yields hall)
        · cases he
      · cases he
    | delete =>
      rcases Program.yields_bind_except.mp h with ⟨ds₁, r, rest, rfl, hall, hend⟩ | ⟨e, he, -⟩
      · obtain ⟨rfl, -⟩ := Program.yields_pure.mp hend
        obtain ⟨ds₃, keys, ds₄, rfl, hkeys, hall⟩ := Program.yields_lift_bind.mp hall
        obtain ⟨v, rfl, rfl⟩ := yields_ownedKeys hkeys
        rw [List.append_nil]
        exact .delete (withdrawsAll_of_yields hall)
      · cases he

/-! ## What steps touch -/

theorem Records.confined {e : KeyStatus} {mine : IntentKey → Prop} (h : d.Records e ds)
    (he : mine e.key) : Confined d.service mine ds := by
  obtain ⟨r, hrounds⟩ := h
  exact .of_rounds he hrounds

theorem Realizes.confined (h : d.Realizes key leg ds) : Confined d.service (· = key) ds := by
  have hasks {asks : List Deed} (hasks : ∀ e ∈ asks, ∃ p answer, e = ⟨.resolve p, answer⟩) :
      Confined d.service (· = key) asks := by
    refine .of_forall fun e he => ?_
    obtain ⟨p, answer, rfl⟩ := hasks e he
    trivial
  cases h with
  | unresolved hresolves => exact hasks hresolves
  | submitted hresolves hseeks hputs =>
    have hrecord : Confined d.service (· = key) _ := hputs.confined rfl
    have htries : Confined d.service (· = key) _ :=
      .of_seeks (fun _ _ => key_of_intent?) hseeks
    exact (hasks hresolves).append (htries.append (hrecord.append (.cons trivial .nil)))
  | rejected hresolves hseeks hputs =>
    have htries : Confined d.service (· = key) _ :=
      .of_seeks (fun _ _ => key_of_intent?) hseeks
    exact (hasks hresolves).append (htries.append (hputs.confined rfl))

theorem RealizesAll.confined {legs : List (IntentKey × Leg)} (h : d.RealizesAll legs ds) :
    Confined d.service (· ∈ legs.map (·.1)) ds := by
  induction h with
  | nil => exact .nil
  | cons hleg _ ih =>
    refine (hleg.confined.mono ?_).append (ih.mono ?_)
    · rintro k rfl
      exact .head _
    · exact fun k hk => .tail _ hk

theorem Withdraws.confined (h : d.Withdraws key ds) : Confined d.service (· = key) ds := by
  cases h with
  | failed => exact .cons rfl .nil
  | unrecorded => exact .cons rfl (.cons trivial (.cons trivial .nil))
  | recorded _ he hputs =>
    have hkey : _ = key := ServiceRecord.key_of_get? he
    exact .cons rfl (.cons trivial (.cons trivial (hputs.confined hkey)))

theorem WithdrawsAll.confined {keys : List IntentKey} (h : d.WithdrawsAll keys ds) :
    Confined d.service (· ∈ keys) ds := by
  induction h with
  | nil => exact .nil
  | cons hkey _ ih =>
    refine (hkey.confined.mono ?_).append (ih.mono ?_)
    · rintro k rfl
      exact .head _
    · exact fun k hk => .tail _ hk

/-! ## From acceptance to record -/

/-- An intent that was accepted is recorded next, and its key is left alone from then on. -/
def RecordsAccepted (d : Decomposition) (ds : List Deed) : Prop :=
  ∀ earlier n i a later, ds = earlier ++ ⟨.submit n i, .ok a⟩ :: later →
    ∃ lost v untried rest, later = lost ++ ⟨.ensureRecord d.service, v⟩ ::
        ⟨.replaceRecord d.service v.version (v.value.upsert ⟨i.key, a.status, untried, false⟩),
          true⟩ :: rest ∧
      (∀ t version r, ⟨.replaceRecord t version r, true⟩ ∉ lost) ∧
      Confined d.service (· ≠ i.key) rest

theorem RecordsAccepted.of_not_mem (h : ∀ n i a, ⟨.submit n i, .ok a⟩ ∉ ds) :
    d.RecordsAccepted ds := by
  rintro earlier n i a later rfl
  exact absurd (by simp) (h n i a)

/-- What comes after does not matter if it is about other keys. -/
theorem RecordsAccepted.append {ds' : List Deed} (h : d.RecordsAccepted ds)
    (h' : d.RecordsAccepted ds')
    (hother : ∀ n i a, ⟨.submit n i, .ok a⟩ ∈ ds → Confined d.service (· ≠ i.key) ds') :
    d.RecordsAccepted (ds ++ ds') := by
  intro earlier n i a later hall
  rcases append_eq_append_cons hall with ⟨m, rfl, rfl⟩ | ⟨m, rfl, rfl⟩
  · obtain ⟨lost, v, untried, rest, rfl, hlost, hrest⟩ := h earlier n i a m rfl
    exact ⟨lost, v, untried, rest ++ ds', by simp, hlost, hrest.append (hother n i a (by simp))⟩
  · exact h' m n i a later rfl

theorem Records.not_submit {e : KeyStatus} (h : d.Records e ds) (n : UInt64) (i : Intent)
    (answer : Except FrameworkError Submission) : ⟨.submit n i, answer⟩ ∉ ds := by
  obtain ⟨r, hrounds⟩ := h
  exact hrounds.not_submit n i answer

theorem Realizes.recordsAccepted (h : d.Realizes key leg ds) : d.RecordsAccepted ds := by
  have hasks {asks : List Deed} (hasks : ∀ e ∈ asks, ∃ p answer, e = ⟨.resolve p, answer⟩)
      (n : UInt64) (i : Intent) (a : Submission) : ⟨.submit n i, .ok a⟩ ∉ asks := by
    intro hmem
    obtain ⟨p, answer, heq⟩ := hasks _ hmem
    cases heq
  cases h with
  | unresolved hresolves => exact .of_not_mem (hasks hresolves)
  | rejected hresolves hseeks hputs =>
    refine .of_not_mem fun n i a hmem => ?_
    simp only [List.mem_append, hasks hresolves, hputs.not_submit, or_false, false_or] at hmem
    obtain ⟨_, _, -, ⟨_, heq⟩ | ⟨_, hfound, -⟩⟩ := hseeks.mem _ hmem
    · cases heq
    · cases hfound
  | @submitted asks links tries a puts hresolves hseeks hputs =>
    obtain ⟨hlink, tries, rfl, htries⟩ := hseeks.exists_accepted
    intro earlier n i a' later hall
    -- The place is that of the last submission: nothing else was accepted.
    rcases append_eq_append_cons hall with ⟨m, rfl, -⟩ | ⟨m, rfl, hrest⟩
    · exact absurd (by simp) (hasks hresolves n i a')
    rcases append_eq_append_cons hrest with ⟨m', hm', rfl⟩ | ⟨m', rfl, hputs'⟩
    · rcases append_eq_append_cons hm' with ⟨m'', rfl, -⟩ | ⟨m'', rfl, hlast⟩
      · exact absurd (by simp) (htries n i a')
      · cases m'' with
        | cons e m'' => simp at hlast
        | nil =>
          obtain ⟨heq, rfl⟩ := List.cons.inj hlast
          cases heq
          obtain ⟨r, hrounds⟩ := hputs
          obtain ⟨lost, v, rfl, -, hlost⟩ := hrounds.exists_written
          obtain rfl : a.intent.key = key := key_of_intent? hlink
          exact ⟨lost, v, a.untried, [⟨.indexIntent a.intent.key a.intent, ()⟩],
            by simp [StatusStore.Absent.finds], hlost, .cons trivial .nil⟩
    · have hmem : (⟨.submit n i, .ok a'⟩ : Deed) ∈ puts ++ [⟨.indexIntent key a.intent, ()⟩] := by
        simp [hputs']
      simp [hputs.not_submit] at hmem

theorem RealizesAll.recordsAccepted {legs : List (IntentKey × Leg)} (h : d.RealizesAll legs ds)
    (hnodup : (legs.map (·.1)).Nodup) : d.RecordsAccepted ds := by
  induction h with
  | nil => exact .of_not_mem nofun
  | @cons k leg ds legs ds' hleg hlegs ih =>
    obtain ⟨hk, hrest⟩ := List.nodup_cons.mp hnodup
    refine hleg.recordsAccepted.append (ih hrest) fun n i a hmem => ?_
    rcases hleg.confined.mem hmem with hkey | ⟨_, _, heq⟩
    · obtain rfl : i.key = k := hkey
      refine hlegs.confined.mono fun l hl heq => ?_
      exact hk (heq ▸ hl)
    · cases heq

theorem WithdrawsAll.not_submit {keys : List IntentKey} (h : d.WithdrawsAll keys ds) (n : UInt64)
    (i : Intent) (answer : Except FrameworkError Submission) : ⟨.submit n i, answer⟩ ∉ ds := by
  induction h with
  | nil => exact nofun
  | cons hkey _ ih =>
    intro hmem
    rcases List.mem_append.mp hmem with hmem | hmem
    · cases hkey with
      | failed | unrecorded => simp at hmem
      | recorded _ _ hputs => simp [hputs.not_submit] at hmem
    · exact ih hmem

/-- Whatever is accepted of a decomposition, it records. -/
theorem Trace.recordsAccepted {previous : Option ServiceRequest} {validation : Validation}
    (h : d.Trace previous validation ds) : d.RecordsAccepted ds := by
  have hplanned : (d.keyedLegs.map (·.1)).Nodup := keys_keyedLegs (d := d) ▸ nodup_keys _
  cases h with
  | create hlegs => exact hlegs.recordsAccepted hplanned
  | @update ds ds' v hlegs hstale =>
    have hnone : d.RecordsAccepted (⟨.ensureRecord d.service, v⟩ :: ds') :=
      .of_not_mem fun n i a hmem => by simp [hstale.not_submit] at hmem
    refine (hlegs.recordsAccepted hplanned).append hnone fun n i a hmem => ?_
    rcases hlegs.confined.mem hmem with hkey | ⟨_, _, heq⟩
    · refine .cons trivial (hstale.confined.mono fun l hl heq => ?_)
      have hkey : i.key ∈ d.keyedLegs.map (·.1) := hkey
      rw [keys_keyedLegs] at hkey
      have hl := (List.mem_filter.mp hl).2
      rw [heq] at hl
      simp [hkey] at hl
    · cases heq
  | delete hall =>
    refine .of_not_mem fun n i a hmem => ?_
    simp [hall.not_submit] at hmem

end Decomposition

end IntentPlane
