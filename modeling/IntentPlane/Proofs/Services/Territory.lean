import IntentPlane.Proofs.Decomposition.Account
import IntentPlane.Proofs.Guarantee
import IntentPlane.Status.Events

/-!
# Each service on its own ground

To a service belong its record and whatever is kept under the keys named after it. A decomposition
only ever changes what belongs to its service (`Decomposition.kept_run`), and a status event only
what belongs to the service its intent is named after (`StatusEvents.kept_handle`), whether they
succeed or not. Both rely on records being proper, which they leave them: in the record of a service
there are only keys named after it, and none twice.
-/

namespace IntentPlane

/-- Whether a key is named after a service. -/
def IntentKey.BelongsTo (app : ApplicationId) (s : ServiceId) (k : IntentKey) : Prop :=
  ∃ n, k = .forService app s n

/-- A record of a service, as decompositions and status events leave it. -/
structure ServiceRecord.Proper (app : ApplicationId) (s : ServiceId) (r : ServiceRecord) :
    Prop where
  nodup : r.keys.Nodup
  own : ∀ k ∈ r.keys, k.BelongsTo app s

namespace ServiceRecord.Proper

variable {app : ApplicationId} {s : ServiceId} {r : ServiceRecord}

theorem empty : ServiceRecord.empty.Proper app s := ⟨.nil, List.forall_mem_nil _⟩

theorem getD {found : Option ServiceRecord} (h : ∀ r, found = some r → r.Proper app s) :
    (found.getD .empty).Proper app s := by
  cases found with
  | none => exact .empty
  | some r => exact h r rfl

theorem upsert (h : r.Proper app s) {e : KeyStatus} (he : e.key.BelongsTo app s) :
    (r.upsert e).Proper app s := by
  constructor
  · rw [keys_upsert]
    split
    · exact h.nodup
    · rename_i hnew
      exact List.nodup_append.mpr ⟨h.nodup, by simp,
        fun k hk l hl hkl => hnew (List.mem_singleton.mp hl ▸ hkl ▸ hk)⟩
  · intro k hk
    rw [keys_upsert] at hk
    split at hk
    · exact h.own k hk
    · rcases List.mem_append.mp hk with hk | hk
      · exact h.own k hk
      · rwa [List.mem_singleton.mp hk]

theorem own_of_get? (h : r.Proper app s) {k : IntentKey} {e : KeyStatus} (he : r.get? k = some e) :
    k.BelongsTo app s :=
  h.own k (contains_iff.mp (contains_of_get? he))

end ServiceRecord.Proper

/-- To change only what belongs to some services, and to leave their records proper. -/
def Contract.within (app : ApplicationId) (mine : ServiceId → Prop) : Contract where
  allows
    | .ensureRecord s | .removeRecord s => mine s
    | .putRecord s r | .replaceRecord s _ r => mine s ∧ r.Proper app s
    | .indexIntent k _ | .unindexIntent k | .withdraw _ k => ∃ s, mine s ∧ k.BelongsTo app s
    | .submit _ i => ∃ s, mine s ∧ i.key.BelongsTo app s
    | .readRecord _ | .listServices | .listRecords | .indexedIntent _ | .resolve _
    | .heldIntents => True
  expects
    | .readRecord s, found => ∀ v, found = some v → v.value.Proper app s
    | .ensureRecord s, found => found.value.Proper app s
    | .listRecords, found => ∀ s r, (s, r) ∈ found → r.Proper app s
    | _, _ => True

variable {app : ApplicationId} {mine : ServiceId → Prop} {s : ServiceId} {k : IntentKey}

/-! ## Single accesses -/

namespace Program

variable (hs : mine s) (hk : k.BelongsTo app s) {i : Intent}
include hs

theorem keeps_submit (hi : i.key.BelongsTo app s) (limit : UInt64) :
    (submit limit i).Keeps (.within app mine) fun _ => True :=
  .ask ⟨s, hs, hi⟩ fun _ _ => trivial

include hk

theorem keeps_indexIntent (i : Intent) :
    (indexIntent k i).Keeps (.within app mine) fun _ => True :=
  .ask ⟨s, hs, hk⟩ fun _ _ => trivial

theorem keeps_unindexIntent : (unindexIntent k).Keeps (.within app mine) fun _ => True :=
  .ask ⟨s, hs, hk⟩ fun _ _ => trivial

theorem keeps_withdraw (limit : UInt64) :
    (withdraw limit k).Keeps (.within app mine) fun _ => True :=
  .ask ⟨s, hs, hk⟩ fun _ _ => trivial

end Program

/-! ## The status store -/

namespace StatusStore

theorem keeps_read (hs : mine s) (absent : Absent) :
    (read absent s).Keeps (.within app mine) fun found =>
      ∀ v, found = some v → v.value.Proper app s := by
  cases absent with
  | create =>
    refine ⟨hs, fun found hfound v hv => ?_⟩
    cases hv
    exact hfound
  | leave => exact ⟨trivial, fun _ hfound => hfound⟩

theorem keeps_attempt (hs : mine s) {change : ServiceRecord → ServiceRecord}
    (hchange : ∀ r, r.Proper app s → (change r).Proper app s) (failure : StoreError)
    (absent : Absent) (left : Nat) :
    (attempt failure absent s change left).Keeps (.within app mine) fun _ => True := by
  induction left with
  | zero => trivial
  | succ left ih =>
    rw [attempt]
    apply (keeps_read hs absent).bind
    intro found hfound
    cases found with
    | none => trivial
    | some current =>
      refine ⟨⟨hs, hchange _ (hfound current rfl)⟩, fun written _ => ?_⟩
      cases written with
      | true => trivial
      | false => exact ih

theorem keeps_updateKey (hs : mine s) {e : KeyStatus} (he : e.key.BelongsTo app s)
    (retries : UInt32) :
    (updateKey retries s e).Keeps (.within app mine) fun _ => True :=
  (keeps_attempt hs (fun _ hr => hr.upsert he) ..).bind fun _ _ => trivial

theorem keeps_updateKeyIfPresent (hs : mine s) {e : KeyStatus} (he : e.key.BelongsTo app s)
    (retries : UInt32) :
    (updateKeyIfPresent retries s e).Keeps (.within app mine) fun _ => True :=
  keeps_attempt hs (fun _ hr => hr.upsert he) ..

theorem keeps_getKeys (hs : mine s) :
    (getKeys s).Keeps (.within app mine) fun r => r.Proper app s :=
  ⟨hs, fun _ hfound => hfound⟩

theorem keeps_findKeys (s : ServiceId) :
    (findKeys s).Keeps (.within app mine) fun found => ∀ r, found = some r → r.Proper app s := by
  refine ⟨trivial, fun found hfound r hr => ?_⟩
  obtain ⟨v, hv, rfl⟩ := Option.map_eq_some_iff.mp hr
  exact hfound v hv

/-- A service that is found for a key is one that the key is named after. -/
theorem keeps_findService (k : IntentKey) :
    (findService k).Keeps (.within app mine) fun found =>
      ∀ s, found = some s → k.BelongsTo app s := by
  refine ⟨trivial, fun records hrecords s hs => ?_⟩
  obtain ⟨⟨t, r⟩, hfind, rfl⟩ := Option.map_eq_some_iff.mp hs
  have hcontains : r.contains k = true := by simpa using List.find?_some hfind
  exact (hrecords t r (List.mem_of_find?_eq_some hfind)).own k
    (ServiceRecord.contains_iff.mp hcontains)

end StatusStore

theorem keeps_submitFirst {build? : CandidateLink → Option Intent} (hs : mine s)
    (hbuild : ∀ link i, build? link = some i → i.key.BelongsTo app s) (limit : UInt64)
    (reason : String) (links : List CandidateLink) :
    (submitFirst limit build? reason links).Keeps (.within app mine) fun _ => True := by
  induction links generalizing reason with
  | nil => trivial
  | cons link links ih =>
    rw [submitFirst]
    cases hb : build? link with
    | none => exact ih reason
    | some i =>
      apply (Program.keeps_submit hs (hbuild link i hb) limit).bind
      intro answer _
      cases answer with
      | ok => trivial
      | error e => exact ih e.message

/-! ## Decompositions -/

namespace Decomposition

variable {d : Decomposition} {leg : Leg} {p : Progress} (hd : mine d.service)
include hd

theorem kept_record {e : KeyStatus} (he : e.key.BelongsTo d.app d.service) :
    (Contract.within d.app mine).Kept (fun _ => True) (d.record e) := by
  apply Contract.Kept.bind (.lift (StatusStore.keeps_updateKey hd he d.retries))
  intro result _
  cases result with
  | ok => exact .pure trivial
  | error e => exact .throw _

omit hd in
theorem keeps_resolve (point : ConnectionPoint) :
    (resolve point).Keeps (.within app mine) fun _ => True := by
  have hask : (Program.resolve point).Keeps (.within app mine) fun _ => True :=
    .ask trivial fun _ _ => trivial
  apply hask.bind
  intro answer _
  cases answer <;> trivial

theorem kept_realizeOver (hk : k.BelongsTo d.app d.service) (links : List CandidateLink) :
    (Contract.within d.app mine).Kept (fun _ => True) (d.realizeOver k leg links p) := by
  have hbuild : ∀ link i, d.intent? k leg link = some i → i.key.BelongsTo d.app d.service :=
    fun link i hi => Intent.key_of_ofLink? hi ▸ hk
  apply Contract.Kept.bind (.lift (keeps_submitFirst hd hbuild ..))
  intro result _
  cases result with
  | ok a =>
    apply (kept_record hd (e := ⟨k, a.submission.status, a.untried, false⟩) hk).bind
    intro _ _
    apply Contract.Kept.bind (.lift (Program.keeps_indexIntent hd hk a.intent))
    exact fun _ _ => .pure trivial
  | error reason =>
    apply (kept_record hd (e := .fresh k .failed) hk).bind
    exact fun _ _ => .pure trivial

theorem kept_realize (hk : k.BelongsTo d.app d.service) :
    (Contract.within d.app mine).Kept (fun _ => True) (d.realize k leg p) := by
  apply Contract.Kept.bind (.lift (keeps_resolve leg.source.point))
  intro srcs _
  cases srcs with
  | none => exact .pure trivial
  | some srcs =>
    apply Contract.Kept.bind (.lift (keeps_resolve leg.destination.point))
    intro dsts _
    cases dsts with
    | none => exact .pure trivial
    | some dsts => exact kept_realizeOver hd hk _

theorem kept_realizeAll {legs : List (IntentKey × Leg)}
    (hlegs : ∀ leg ∈ legs, leg.1.BelongsTo d.app d.service) :
    (Contract.within d.app mine).Kept (fun _ => True) (d.realizeAll legs p) := by
  induction legs generalizing p with
  | nil => exact .pure trivial
  | cons leg legs ih =>
    apply (kept_realize hd (hlegs leg (.head _))).bind
    intro r _
    apply (ih fun leg hleg => hlegs leg (.tail _ hleg)).bind
    exact fun _ _ => .pure trivial

theorem kept_install : (Contract.within d.app mine).Kept (fun _ => True) d.install := by
  apply (kept_realizeAll hd fun leg hleg => exists_of_mem_keyedLegs hleg).bind
  exact fun _ _ => .pure trivial

/-- All that a service owns is named after it. -/
theorem keeps_ownedKeys {others : List IntentKey}
    (hothers : ∀ k ∈ others, k.BelongsTo d.app d.service) :
    (d.ownedKeys others).Keeps (.within d.app mine) fun ks =>
      ∀ k ∈ ks, k.BelongsTo d.app d.service := by
  apply (StatusStore.keeps_getKeys hd).bind
  intro r hr k hk
  rcases List.mem_append.mp (List.mem_eraseDups.mp hk) with hk | hk
  · exact hr.own k hk
  · exact hothers k hk

theorem kept_recordWithdrawal (hk : k.BelongsTo d.app d.service) (status : IntentStatus) :
    (Contract.within d.app mine).Kept (fun _ => True) (d.recordWithdrawal k status) := by
  apply Contract.Kept.bind (.lift (Program.keeps_unindexIntent hd hk))
  intro _ _
  apply Contract.Kept.bind (.lift (StatusStore.keeps_getKeys hd))
  intro r _
  cases he : r.get? k with
  | none => exact .pure trivial
  | some e =>
    have hkey : e.key = k := ServiceRecord.key_of_get? he
    apply (kept_record hd (e := e.withStatus status) (hkey ▸ hk :)).bind
    exact fun _ _ => .pure trivial

theorem kept_withdraw (hk : k.BelongsTo d.app d.service) :
    (Contract.within d.app mine).Kept (fun _ => True) (d.withdraw k) := by
  apply Contract.Kept.bind (.lift (Program.keeps_withdraw hd hk _))
  intro answer _
  split
  · exact kept_recordWithdrawal hd hk _
  · exact kept_recordWithdrawal hd hk _
  · exact .pure trivial

theorem kept_withdrawAll {ks : List IntentKey} (hks : ∀ k ∈ ks, k.BelongsTo d.app d.service) :
    (Contract.within d.app mine).Kept (fun _ => True) (ks.mapM d.withdraw) := by
  induction ks with
  | nil => exact .pure trivial
  | cons k ks ih =>
    rw [List.mapM_cons]
    apply (kept_withdraw hd (hks k (.head _))).bind
    intro _ _
    apply (ih fun k hk => hks k (.tail _ hk)).bind
    exact fun _ _ => .pure trivial

theorem kept_withdrawStale (previous : Option ServiceRequest) :
    (Contract.within d.app mine).Kept (fun _ => True) (d.withdrawStale previous) := by
  apply Contract.Kept.bind (.lift (keeps_ownedKeys hd fun _ hk => exists_of_mem_previousKeys hk))
  exact fun ks hks => kept_withdrawAll hd fun k hk => hks k (List.mem_filter.mp hk).1

theorem kept_withdrawEverything (previous : Option ServiceRequest) :
    (Contract.within d.app mine).Kept (fun _ => True) (d.withdrawAll previous) := by
  refine Contract.Kept.bind (.lift (keeps_ownedKeys hd fun k hk => ?_)) fun ks hks =>
    kept_withdrawAll hd hks
  exact (List.mem_append.mp hk).elim exists_of_mem_plannedKeys exists_of_mem_previousKeys

/-- Whether it succeeds or not, a decomposition changes only what belongs to its service. -/
theorem kept_run (previous : Option ServiceRequest) (validation : Validation) :
    (Contract.within d.app mine).Kept (fun _ => True) (d.run previous validation) := by
  rw [run]
  split
  · exact .throw _
  change (Contract.within d.app mine).Kept (fun _ => True) (d.perform previous validation)
  cases validation with
  | create => exact (kept_install hd).bind fun _ _ => .pure trivial
  | update =>
    apply (kept_install hd).bind
    intro _ _
    exact (kept_withdrawStale hd previous).bind fun _ _ => .pure trivial
  | delete => exact (kept_withdrawEverything hd previous).bind fun _ _ => .pure trivial

end Decomposition

/-! ## Status events -/

namespace StatusEvents

variable {intent : Intent} {current : KeyStatus} (hs : mine s)
  (hk : intent.key.BelongsTo app s) (hcurrent : current.key = intent.key)
include hs hk hcurrent

theorem keeps_record (retries : UInt32) (status : IntentStatus) :
    (record retries s intent status current).Keeps (.within app mine) fun _ => True := by
  apply (StatusStore.keeps_updateKeyIfPresent hs
    (e := (current.withStatus status).withCalculated intent.isCalculated) (hcurrent ▸ hk :)
    retries).bind
  exact fun _ _ => trivial

theorem keeps_fallBack (retries : UInt32) (limit : UInt64) :
    (fallBack retries limit s intent current).Keeps (.within app mine) fun _ => True := by
  have hbuild : ∀ link i, intent.rebuildOver? link = some i → i.key.BelongsTo app s :=
    fun link i hi => Intent.key_of_ofLink? hi ▸ hk
  apply (keeps_submitFirst hs hbuild limit "" current.links).bind
  intro result _
  cases result with
  | error => trivial
  | ok a =>
    apply (Program.keeps_indexIntent hs hk a.intent).bind
    intro _ _
    apply (StatusStore.keeps_updateKeyIfPresent hs
      (e := ((current.withStatus a.submission.status).withLinks a.untried).withCalculated false)
      (hcurrent ▸ hk :) retries).bind
    intro written _
    rcases written with e | ⟨_ | r⟩ <;> trivial

omit hs hk hcurrent in
/-- Handling a status event changes only what belongs to the service its intent is named after. -/
theorem keeps_handle (hmine : ∀ s, intent.key.BelongsTo app s → mine s) (retries : UInt32)
    (limit : UInt64) (status : IntentStatus) :
    (handle retries limit intent status).Keeps (.within app mine) fun _ => True := by
  have hfind : (StatusStore.findService intent.key).Keeps (.within app mine) fun found =>
      ∀ s, found = some s → intent.key.BelongsTo app s := StatusStore.keeps_findService intent.key
  apply hfind.bind
  intro found hfound
  cases found with
  | none => trivial
  | some s =>
    have hk := hfound s rfl
    have hs := hmine s hk
    apply (StatusStore.keeps_findKeys s).bind
    intro found _
    cases found with
    | none => trivial
    | some r =>
      have hcurrent : ((r.get? intent.key).getD (.fresh intent.key status)).key = intent.key := by
        cases he : r.get? intent.key with
        | none => rfl
        | some e => exact ServiceRecord.key_of_get? he
      dsimp only
      split
      · apply (keeps_fallBack hs hk hcurrent retries limit).bind
        intro result _
        rcases result with e | ⟨_ | _⟩
        · trivial
        · trivial
        · have hleft : (((r.get? intent.key).getD (.fresh intent.key status)).withLinks []).key =
              intent.key := hcurrent
          exact keeps_record hs hk hleft retries status
      · exact keeps_record hs hk hcurrent retries status

end StatusEvents

end IntentPlane
