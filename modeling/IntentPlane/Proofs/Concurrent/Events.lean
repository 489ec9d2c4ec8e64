import IntentPlane.Proofs.Concurrent.Accesses
import IntentPlane.Proofs.Events

/-!
# What status events do, access by access

The traces of events (`StatusEvents.Trace`), which accesses stand in them, and what they write.
-/

namespace IntentPlane

namespace StatusEvents

/-- The service found to own a key among the records listed. -/
def owner? (k : IntentKey) (listed : List (ServiceId × ServiceRecord)) : Option ServiceId :=
  (listed.find? fun (_, record) => record.contains k).map (·.1)

/-- The entry that an event begins with, as found in a record. -/
def current (intent : Intent) (status : IntentStatus) (found : ServiceRecord) : KeyStatus :=
  (found.get? intent.key).getD (.fresh intent.key status)

/-- The entry that records the status of an intent. -/
def settled (intent : Intent) (status : IntentStatus) (e : KeyStatus) : KeyStatus :=
  (e.withStatus status).withCalculated intent.isCalculated

/-- The entry that records an accepted link. -/
def resubmitted (a : Acceptance) (e : KeyStatus) : KeyStatus :=
  ((e.withStatus a.submission.status).withLinks a.untried).withCalculated false

/-- Whether an event falls back over the links left. -/
def FallsBack (status : IntentStatus) (e : KeyStatus) : Prop := status = .failed ∧ e.links ≠ []

instance : Decidable (FallsBack status e) := inferInstanceAs (Decidable (_ ∧ _))

/-- Handling an event once the service is known. -/
def applyTo (retries : UInt32) (limit : UInt64) (intent : Intent) (status : IntentStatus)
    (s : ServiceId) : Program (Except StoreError (Option ServiceEvent)) := do
  match ← StatusStore.findKeys s with
  | none => return .ok none
  | some found =>
    let current := current intent status found
    if FallsBack status current then
      match ← fallBack retries limit s intent current with
      | .error e => return .error e
      | .ok .resubmitted => return .ok (some .submitForInstallation)
      | .ok .exhausted => record retries s intent status (current.withLinks [])
    else record retries s intent status current

theorem handle_eq (retries : UInt32) (limit : UInt64) (intent : Intent) (status : IntentStatus) :
    handle retries limit intent status = (do
      match ← StatusStore.findService intent.key with
      | none => return .ok none
      | some s => applyTo retries limit intent status s) := rfl

/-- An update of an entry of a service that may be gone. -/
abbrev Puts (retries : UInt32) (s : ServiceId) (e : KeyStatus) :
    List Deed → Except StoreError (Option ServiceRecord) → Prop :=
  StatusStore.Rounds (.contended s retries) .leave s (·.upsert e) retries.toNat

/-- What an event returns after its last update. -/
def answer (intent : Intent) :
    Except StoreError (Option ServiceRecord) → Except StoreError (Option ServiceEvent) :=
  Except.map fun written => written.map (·.aggregate intent.isCalculated)

/-- The ways an event can go once it has read the record of the service. -/
inductive Goes (retries : UInt32) (limit : UInt64) (intent : Intent) (status : IntentStatus)
    (s : ServiceId) (e : KeyStatus) :
    List Deed → Except StoreError (Option ServiceEvent) → Prop where
  | recorded : ¬ FallsBack status e → Puts retries s (settled intent status e) ds result →
      Goes retries limit intent status s e ds (answer intent result)
  | exhausted : FallsBack status e →
      Seeks limit intent.rebuildOver? e.links tries (.error reason) →
      Puts retries s (settled intent status (e.withLinks [])) ds result →
      Goes retries limit intent status s e (tries ++ ds) (answer intent result)
  | resubmitted : FallsBack status e → Seeks limit intent.rebuildOver? e.links tries (.ok a) →
      Puts retries s (resubmitted a e) ds (.ok (some r)) →
      Goes retries limit intent status s e
        (tries ++ ⟨.indexIntent intent.key a.intent, ()⟩ :: ds) (.ok (some .submitForInstallation))
  /-- A link was accepted and the service was gone, so that nothing could be recorded. -/
  | stranded : FallsBack status e → Seeks limit intent.rebuildOver? e.links tries (.ok a) →
      Puts retries s (resubmitted a e) ds (.ok none) →
      Puts retries s (settled intent status (e.withLinks [])) ds' result →
      Goes retries limit intent status s e
        (tries ++ ⟨.indexIntent intent.key a.intent, ()⟩ :: ds ++ ds') (answer intent result)
  | contended {failure : StoreError} : FallsBack status e →
      Seeks limit intent.rebuildOver? e.links tries (.ok a) →
      Puts retries s (resubmitted a e) ds (.error failure) →
      Goes retries limit intent status s e
        (tries ++ ⟨.indexIntent intent.key a.intent, ()⟩ :: ds) (.error failure)

/-- The ways an event can go. -/
inductive Trace (retries : UInt32) (limit : UInt64) (intent : Intent) (status : IntentStatus) :
    List Deed → Except StoreError (Option ServiceEvent) → Prop where
  | unowned : owner? intent.key listed = none →
      Trace retries limit intent status [⟨.listRecords, listed⟩] (.ok none)
  | gone : owner? intent.key listed = some s →
      Trace retries limit intent status [⟨.listRecords, listed⟩, ⟨.readRecord s, none⟩] (.ok none)
  | found {v : Versioned ServiceRecord} : owner? intent.key listed = some s →
      Goes retries limit intent status s (current intent status v.value) ds result →
      Trace retries limit intent status
        (⟨.listRecords, listed⟩ :: ⟨.readRecord s, some v⟩ :: ds) result

variable {retries : UInt32} {intent : Intent} {status : IntentStatus} {s : ServiceId}
  {e : KeyStatus} {ds : List Deed}

theorem yields_record {result : Except StoreError (Option ServiceEvent)}
    (h : (record retries s intent status e).Yields ds result) :
    ∃ written, Puts retries s (settled intent status e) ds written ∧
      result = answer intent written := by
  obtain ⟨written, hwritten, rfl⟩ := Program.yields_map.mp h
  exact ⟨written, StatusStore.rounds_of_attempt hwritten, rfl⟩

theorem yields_fallBack {result : Except StoreError Fallback}
    (h : (fallBack retries limit s intent e).Yields ds result) :
    (∃ reason, Seeks limit intent.rebuildOver? e.links ds (.error reason) ∧
        result = .ok .exhausted) ∨
      ∃ tries a rest written, ds = tries ++ ⟨.indexIntent intent.key a.intent, ()⟩ :: rest ∧
        Seeks limit intent.rebuildOver? e.links tries (.ok a) ∧
        Puts retries s (resubmitted a e) rest written ∧
        result = written.map fun r => if r.isSome then .resubmitted else .exhausted := by
  obtain ⟨tries, reason | a, rest, rfl, htries, hrecord⟩ := Program.yields_bind.mp h
  · obtain ⟨rfl, rfl⟩ := Program.yields_pure.mp hrecord
    rw [List.append_nil]
    exact .inl ⟨reason, seeks_of_submitFirst htries, rfl⟩
  · obtain ⟨⟨⟩, rest, rfl, hrest⟩ := Program.yields_access_bind.mp hrecord
    obtain ⟨ds, written, ds', rfl, hwritten, hend⟩ := Program.yields_bind.mp hrest
    refine .inr ⟨tries, a, ds, written, ?_, seeks_of_submitFirst htries,
      StatusStore.rounds_of_attempt hwritten, ?_⟩
    all_goals
      rcases written with e | _ | r
      all_goals
        obtain ⟨rfl, rfl⟩ := Program.yields_pure.mp hend
        simp [Except.map]

theorem trace_of_handle {result : Except StoreError (Option ServiceEvent)}
    (h : (handle retries limit intent status).Yields ds result) :
    Trace retries limit intent status ds result := by
  rw [handle_eq] at h
  simp only [StatusStore.findService, Program.listRecords, bind_assoc, Program.pure_bind] at h
  obtain ⟨listed, rest, rfl, hrest⟩ := Program.yields_access_bind.mp h
  have hfind : (listed.find? fun e => e.2.contains intent.key).map (·.1) =
      owner? intent.key listed := rfl
  rw [hfind] at hrest
  cases howner : owner? intent.key listed with
  | none =>
    rw [howner] at hrest
    obtain ⟨rfl, rfl⟩ := Program.yields_pure.mp hrest
    exact .unowned howner
  | some s =>
    rw [howner] at hrest
    simp only [applyTo, StatusStore.findKeys, Program.readRecord, bind_assoc,
      Program.pure_bind] at hrest
    obtain ⟨found, rest, rfl, hgoes⟩ := Program.yields_access_bind.mp hrest
    cases found with
    | none =>
      obtain ⟨rfl, rfl⟩ := Program.yields_pure.mp hgoes
      exact .gone howner
    | some v =>
      refine .found howner ?_
      simp only [Option.map_some] at hgoes
      split at hgoes
      · rename_i hfalls
        obtain ⟨ds, fallback, ds', rfl, hfallback, hend⟩ := Program.yields_bind.mp hgoes
        rcases yields_fallBack hfallback with ⟨reason, hseeks, rfl⟩ |
          ⟨tries, a, puts, written, rfl, hseeks, hputs, rfl⟩
        · obtain ⟨written, hwritten, rfl⟩ := yields_record hend
          exact .exhausted hfalls hseeks hwritten
        · rcases written with failure | _ | r
          · obtain ⟨rfl, rfl⟩ := Program.yields_pure.mp hend
            rw [List.append_nil]
            exact .contended hfalls hseeks hputs
          · obtain ⟨written, hwritten, rfl⟩ := yields_record hend
            exact .stranded hfalls hseeks hputs hwritten
          · obtain ⟨rfl, rfl⟩ := Program.yields_pure.mp hend
            rw [List.append_nil]
            exact .resubmitted hfalls hseeks hputs
      · rename_i hfalls
        obtain ⟨written, hwritten, rfl⟩ := yields_record hgoes
        exact .recorded hfalls hwritten

/-! ## What an event does -/

/-- The accesses that an event may make. -/
inductive Does (k : IntentKey) : Access → Prop where
  | listRecords : Does k .listRecords
  | readRecord (s : ServiceId) : Does k (.readRecord s)
  | replaceRecord (s : ServiceId) (version : Nat) (r : ServiceRecord) :
      Does k (.replaceRecord s version r)
  | submit {limit : UInt64} {i : Intent} : i.key = k → Does k (.submit limit i)
  | indexIntent (i : Intent) : Does k (.indexIntent k i)

/-- An access of an event writes no record, or replaces one. -/
theorem Does.within_or_written {d : Deed} {k : IntentKey} (h : Does k d.access) :
    d.Within (fun _ => True) ∨ ∃ t version r, d = ⟨.replaceRecord t version r, true⟩ := by
  obtain ⟨access, answer⟩ := d
  cases h with
  | listRecords | readRecord | submit | indexIntent => exact .inl trivial
  | replaceRecord t version r =>
    cases answer with
    | false => exact .inl trivial
    | true => exact .inr ⟨t, version, r, rfl⟩

variable {limit : UInt64} {result : Except StoreError (Option ServiceEvent)}

theorem does_of_puts {written : Except StoreError (Option ServiceRecord)}
    (h : Puts retries s e ds written) : ∀ d ∈ ds, Does intent.key d.access := by
  intro d hd
  rcases h.access_eq d hd with ⟨hleave, -⟩ | ⟨-, hread⟩ | ⟨version, r, hreplace⟩
  · cases hleave
  · exact hread ▸ .readRecord s
  · exact hreplace ▸ .replaceRecord s version r

theorem does_of_seeks {links : List CandidateLink} {found : Except String Acceptance}
    (h : Seeks limit intent.rebuildOver? links ds found) : ∀ d ∈ ds, Does intent.key d.access := by
  intro d hd
  obtain ⟨link, i, hbuild, ⟨_, rfl⟩ | ⟨_, -, -, rfl⟩⟩ := h.mem d hd
  all_goals exact .submit (key_of_rebuildOver? hbuild)

theorem Goes.does (h : Goes retries limit intent status s e ds result) :
    ∀ d ∈ ds, Does intent.key d.access := by
  cases h with
  | recorded _ hputs => exact does_of_puts hputs
  | exhausted _ hseeks hputs =>
    exact List.forall_mem_append.mpr ⟨does_of_seeks hseeks, does_of_puts hputs⟩
  | resubmitted _ hseeks hputs | contended _ hseeks hputs =>
    rw [List.forall_mem_append, List.forall_mem_cons]
    exact ⟨does_of_seeks hseeks, .indexIntent _, does_of_puts hputs⟩
  | stranded _ hseeks hputs hputs' =>
    rw [List.forall_mem_append, List.forall_mem_append, List.forall_mem_cons]
    exact ⟨⟨does_of_seeks hseeks, .indexIntent _, does_of_puts hputs⟩, does_of_puts hputs'⟩

theorem Trace.does (h : Trace retries limit intent status ds result) :
    ∀ d ∈ ds, Does intent.key d.access := by
  cases h with
  | unowned => exact List.forall_mem_singleton.mpr .listRecords
  | gone =>
    rw [List.forall_mem_cons, List.forall_mem_singleton]
    exact ⟨.listRecords, .readRecord _⟩
  | found _ hgoes =>
    rw [List.forall_mem_cons, List.forall_mem_cons]
    exact ⟨.listRecords, .readRecord _, hgoes.does⟩

theorem key_current (found : ServiceRecord) :
    (current intent status found).key = intent.key := by
  rw [current]
  cases h : found.get? intent.key with
  | none => rfl
  | some e => exact ServiceRecord.key_of_get? h

/-- An event that does not fall back writes the status. -/
theorem Trace.get?_of_written (h : Trace retries limit intent status ds result)
    (hstatus : status ≠ .failed) {t : ServiceId} {version : Nat} {r : ServiceRecord}
    (hmem : ⟨.replaceRecord t version r, true⟩ ∈ ds) :
    ∃ e, r.get? intent.key = some e ∧ e.status = status ∧ e.calculated = intent.isCalculated := by
  cases h with
  | unowned | gone => simp at hmem
  | @found _ _ _ _ v _ hgoes =>
    cases hgoes with
    | exhausted hfalls | resubmitted hfalls | stranded hfalls | contended hfalls =>
      exact absurd hfalls.1 hstatus
    | recorded _ hputs =>
      simp only [List.mem_cons, Deed.mk.injEq, reduceCtorEq, false_and, false_or] at hmem
      obtain ⟨earlier, later, rfl⟩ := List.append_of_mem hmem
      obtain ⟨-, -, -, -, lost, u, -, -, rfl⟩ := hputs.written_inv
      refine ⟨settled intent status (current intent status v.value), ?_, rfl, rfl⟩
      rw [ServiceRecord.get?_upsert]
      exact if_pos (key_current v.value)

end StatusEvents

end IntentPlane
