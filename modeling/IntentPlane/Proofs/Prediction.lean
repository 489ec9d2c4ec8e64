import IntentPlane.Proofs.Aggregate
import IntentPlane.Proofs.Events
import IntentPlane.Proofs.InMemory

/-!
# Predicting the event for a service

`StatusEvents.nextEvent` tells from a snapshot which event a status would cause, and
`StatusEvents.handle` applies the status. The two build the new entry in different ways; they agree
because the event that a record amounts to depends on the keys and statuses of its entries alone
(`aggregate_upsert_congr`). A status that does not send the intent over another link causes the
event predicted, and changes the entry of its key and nothing else.
-/

namespace IntentPlane

variable {τ : Type}

namespace ServiceRecord

variable {r : ServiceRecord} {e f : KeyStatus} {calculated : Bool}

theorem statuses_upsert_congr (hkey : e.key = f.key) (hstatus : e.status = f.status) :
    (r.upsert e).entries.map (·.status) = (r.upsert f).entries.map (·.status) := by
  obtain ⟨es⟩ := r
  change (upsertEntry e es).map (·.status) = (upsertEntry f es).map (·.status)
  induction es with
  | nil => simpa [upsertEntry] using hstatus
  | cons g es ih => grind [upsertEntry]

/-- What an entry says besides its status does not count. -/
theorem aggregate_upsert_congr (hkey : e.key = f.key) (hstatus : e.status = f.status)
    (calculated : Bool) : (r.upsert e).aggregate calculated = (r.upsert f).aggregate calculated :=
  aggregate_congr
    (fun s => by rw [has_singleton, has_singleton, statuses_upsert_congr hkey hstatus]) calculated

/-- A service counts as installed if the intent at hand is calculated, some intent is installed, and
all others are installed or gone. -/
theorem aggregate_eq_installationSuccess : r.aggregate calculated = .installationSuccess ↔
    calculated = true ∧ (∃ e ∈ r.entries, e.status = .installed) ∧
      ∀ e ∈ r.entries, e.status = .installed ∨ e.status = .withdrawn ∨ e.status = .purged := by
  have hseen : r.aggregate calculated = .installationSuccess ↔ calculated = true ∧
      ∃ removed, StatusSummary.ofRecord r = ⟨removed, false, false, false, false, true⟩ := by
    rw [aggregate]
    generalize StatusSummary.ofRecord r = seen
    obtain ⟨removed, withdrawing, failed, installing, negotiating, installed⟩ := seen
    revert calculated removed withdrawing failed installing negotiating installed
    decide
  rw [hseen, StatusSummary.ofRecord_eq]
  refine and_congr_right fun _ => ?_
  simp only [StatusSummary.mk.injEq, exists_eq_left', List.any_eq_true, List.any_eq_false,
    Bool.or_eq_true, decide_eq_true_eq]
  constructor
  · rintro ⟨hwithdrawing, hfailed, hinstalling, hnegotiating, hinstalled⟩
    refine ⟨hinstalled, fun e he => ?_⟩
    have := hwithdrawing e he
    have := hfailed e he
    have := hinstalling e he
    have := hnegotiating e he
    cases hstatus : e.status <;> simp_all
  · rintro ⟨hinstalled, hrest⟩
    refine ⟨?_, ?_, ?_, ?_, hinstalled⟩ <;>
    · intro e he
      rcases hrest e he with h | h | h <;> simp [h]

end ServiceRecord

/-- No key is recorded twice, in one record or in two. -/
structure Scene.Unambiguous (x : Scene τ) : Prop where
  nodup : ∀ s r, x.record s = some r → r.keys.Nodup
  owner : ∀ s t k, x.entry s k ≠ none → x.entry t k ≠ none → s = t

namespace StatusEvents

variable {o : Surroundings τ} {x y : Scene τ} {retries : UInt32} {limit : UInt64} {s : ServiceId}
  {intent : Intent} {status : IntentStatus} {current : KeyStatus} {r : ServiceRecord}

/-- Predicting reads one record and changes nothing. -/
theorem run_nextEvent (o : Surroundings τ) (s : ServiceId) (k : IntentKey) (status : IntentStatus)
    (calculated : Bool) (x : Scene τ) :
    (nextEvent s k status calculated).run o.answer x =
      ((((x.record s).getD .empty).upsert ((((x.record s).getD .empty).get? k).getD
        (.fresh k status) |>.withStatus status)).aggregate calculated, x) := rfl

/-- The entry that a status leaves where the intent does not go on over another link. -/
def concluded (intent : Intent) (status : IntentStatus) (current : KeyStatus) : KeyStatus :=
  ⟨intent.key, status, if status = .failed then [] else current.links, intent.isCalculated⟩

@[simp] theorem key_concluded : (concluded intent status current).key = intent.key := rfl

theorem nextEvent_eq (hr : x.record s = some r) (hcurrent : r.get? intent.key = some current)
    (calculated : Bool) :
    ((nextEvent s intent.key status calculated).run o.answer x).1 =
      (r.upsert (concluded intent status current)).aggregate calculated := by
  rw [run_nextEvent, hr, Option.getD_some, hcurrent, Option.getD_some]
  have hkey : (current.withStatus status).key = (concluded intent status current).key :=
    (ServiceRecord.key_of_get? hcurrent :)
  exact ServiceRecord.aggregate_upsert_congr hkey rfl calculated

/-- An entry is concluded where it stands. -/
theorem upsert_concluded (hnodup : r.keys.Nodup) (hcurrent : r.get? intent.key = some current) :
    r.upsert (concluded intent status current) =
      ⟨r.entries.map fun e => if e.key = intent.key then concluded intent status e else e⟩ := by
  have hmem : intent.key ∈ r.keys :=
    ServiceRecord.contains_iff.mp (ServiceRecord.contains_of_get? hcurrent)
  refine congrArg ServiceRecord.mk (ServiceRecord.entries_eq_map (q := r.upsert _) hnodup
    ((ServiceRecord.keys_upsert ..).trans (if_pos hmem)) fun e he => ?_)
  have hfound : r.get? e.key = some e := (ServiceRecord.get?_eq_some_iff hnodup).mpr ⟨he, rfl⟩
  rw [ServiceRecord.get?_upsert, key_concluded]
  by_cases hkey : e.key = intent.key
  · rw [hkey, hcurrent] at hfound
    rw [if_pos hkey.symm, if_pos hkey, Option.some.inj hfound]
  · rw [if_neg fun h => hkey h.symm, if_neg hkey, hfound]

/-- Where an event of an installed service comes from. -/
theorem Handled.installed {event : Option ServiceEvent}
    (h : Handled o limit intent status x event y) (hevent : event = some .installationSuccess) :
    ∃ s r, y.record s = some r ∧ r.aggregate intent.isCalculated = .installationSuccess := by
  cases h with
  | unowned => cases hevent
  | @recorded s r current next hr =>
    refine ⟨s, r.upsert next, ?_, Option.some.inj hevent⟩
    rw [Scene.record_upsert, if_pos rfl, hr, Option.getD_some]
  | resubmitted => cases hevent
  | @exhausted s r current next reason es u hr =>
    refine ⟨s, r.upsert next, ?_, Option.some.inj hevent⟩
    rw [Scene.record_upsert, if_pos rfl, Scene.record_hear, hr, Option.getD_some]

/-- A status that is not followed by an accepted submission settles the entry of its key. -/
theorem Handled.concluded_of_refused {event : Option ServiceEvent} {es : List Exchange}
    (h : Handled o limit intent status x event y) (hx : x.Unambiguous)
    (hr : x.record s = some r) (hcurrent : r.get? intent.key = some current)
    (hcalls : y.calls = x.calls ++ es)
    (hno : status ≠ .failed ∨ current.links = [] ∨ accepted intent.key es = []) :
    event = some ((r.upsert (concluded intent status current)).aggregate intent.isCalculated) ∧
      (∀ t, y.record t = if s = t then some (r.upsert (concluded intent status current))
        else x.record t) ∧
      ∀ k, y.indexed k = x.indexed k := by
  have hentry : x.entry s intent.key = some current := by
    rw [Scene.entry, hr, Option.bind_some, hcurrent]
  -- The service that the status was handled for is the one that holds the key.
  have hsame {t q found} (hq : x.record t = some q) (hfound : q.get? intent.key = some found) :
      t = s ∧ q = r ∧ found = current := by
    have hother : x.entry t intent.key = some found := by
      rw [Scene.entry, hq, Option.bind_some, hfound]
    obtain rfl := hx.owner t s intent.key (by simp [hother]) (by simp [hentry])
    obtain rfl := Option.some.inj (hq.symm.trans hr)
    exact ⟨rfl, rfl, Option.some.inj (hfound.symm.trans hcurrent)⟩
  have hkey : current.key = intent.key := ServiceRecord.key_of_get? hcurrent
  cases h with
  | unowned hnone =>
    rw [hnone s] at hentry
    cases hentry
  | @recorded t q found next hq hfound hlinks hnext =>
    obtain ⟨rfl, rfl, rfl⟩ := hsame hq hfound
    obtain rfl : next = concluded intent status found := by
      rw [hnext, concluded, ← hkey]
      by_cases hfailed : status = .failed
      · rw [if_pos hfailed, ← not_not.mp fun hne => hlinks ⟨hfailed, hne⟩]
        rfl
      · rw [if_neg hfailed]
        rfl
    refine ⟨rfl, fun u => ?_, fun _ => rfl⟩
    rw [Scene.record_upsert, hq, Option.getD_some]
  | @resubmitted t q found next a fs u hq hfound hfailed hsearch hnext =>
    obtain ⟨rfl, rfl, rfl⟩ := hsame hq hfound
    obtain rfl : fs = es := List.append_cancel_left hcalls
    obtain ⟨tried, hlinks, hintent⟩ := hsearch.of_ok
    have haccepted := hsearch.accepted_of_ok
    rw [key_of_rebuildOver? hintent] at haccepted
    rcases hno with hno | hno | hno
    · exact absurd hfailed hno
    · simp [hno] at hlinks
    · simp [hno] at haccepted
  | @exhausted t q found next reason fs u hq hfound hfailed hlinks hsearch hnext =>
    obtain ⟨rfl, rfl, rfl⟩ := hsame hq hfound
    obtain rfl : next = concluded intent status found := by
      rw [hnext, concluded, ← hkey, if_pos hfailed]
      rfl
    refine ⟨rfl, fun u => ?_, fun _ => rfl⟩
    rw [Scene.record_upsert, Scene.record_hear, hq, Option.getD_some]
    rfl

/-- Prediction agrees with handling. In every scene where no key is recorded twice, with any
registry and framework, a status of an intent that a service owns causes the event predicted just
before, unless a link left to the intent is accepted instead; and the entry of its key, where it
stands, takes the status and no other entry, record or part of the index changes. The links of the
entry are kept, or gone once all were refused. Predicting changes nothing, and neither does a status
of an intent that no service owns. A service is reported installed only for an intent that counts as
calculated, when some intent of the service is installed and the others are installed or gone. -/
theorem event_predicted (o : Surroundings τ) (hx : x.Unambiguous) (h : retries ≠ 0)
    (limit : UInt64) (intent : Intent) (status : IntentStatus) :
    (∀ s k status calculated, ((nextEvent s k status calculated).run o.answer x).2 = x) ∧
    ∃ event y es, (handle retries limit intent status).run o.answer x = (.ok event, y) ∧
      y.calls = x.calls ++ es ∧
      (∀ s r current, x.record s = some r → r.get? intent.key = some current →
        status ≠ .failed ∨ current.links = [] ∨ accepted intent.key es = [] →
        event = some ((nextEvent s intent.key status intent.isCalculated).run o.answer x).1 ∧
        y.record s = some ⟨r.entries.map fun e =>
          if e.key = intent.key then
            ⟨intent.key, status, if status = .failed then [] else e.links, intent.isCalculated⟩
          else e⟩ ∧
        (∀ t, t ≠ s → y.record t = x.record t) ∧ ∀ k, y.indexed k = x.indexed k) ∧
      ((∀ s, x.entry s intent.key = none) → event = none ∧ y = x ∧ es = []) ∧
      (event = some .installationSuccess → intent.isCalculated = true ∧
        ∃ s r, y.record s = some r ∧ (∃ e ∈ r.entries, e.status = .installed) ∧
          ∀ e ∈ r.entries, e.status = .installed ∨ e.status = .withdrawn ∨ e.status = .purged) := by
  obtain ⟨event, y, hrun, hhandled⟩ := run_handle o limit intent status x h
  obtain ⟨es, hcalls, -⟩ := run_heard o (handle retries limit intent status) x
  rw [hrun] at hcalls
  refine ⟨fun _ _ _ _ => rfl, event, y, es, hrun, hcalls, ?_, ?_, ?_⟩
  · intro s r current hr hcurrent hno
    obtain ⟨hevent, hrecord, hindexed⟩ :=
      hhandled.concluded_of_refused hx hr hcurrent hcalls hno
    refine ⟨?_, ?_, fun t ht => (hrecord t).trans (if_neg ht.symm), hindexed⟩
    · rw [hevent, nextEvent_eq hr hcurrent]
    · rw [hrecord, if_pos rfl, upsert_concluded (hx.nodup s r hr) hcurrent]
      rfl
  · intro hnone
    cases hhandled with
    | unowned => exact ⟨rfl, rfl, List.append_right_eq_self.mp hcalls.symm⟩
    | @recorded s r current _ hr hcurrent | @resubmitted s r current _ _ _ _ hr hcurrent
    | @exhausted s r current _ _ _ _ hr hcurrent =>
      have hentry := hnone s
      rw [Scene.entry, hr, Option.bind_some, hcurrent] at hentry
      cases hentry
  · intro hevent
    obtain ⟨s, r, hr, hinstalled⟩ := hhandled.installed hevent
    obtain ⟨hcalculated, hentries⟩ := ServiceRecord.aggregate_eq_installationSuccess.mp hinstalled
    exact ⟨hcalculated, s, r, hr, hentries⟩

/-- A framework that answers nothing. -/
def silent : Surroundings Unit where
  resolve _ _ := (.ok [], ())
  submit _ i _ := (.error (.timeout i.key), ())
  withdraw _ k _ := (.error (.timeout k), ())
  heldIntents _ := ([], ())
  listing := Enumeration.inserted.records
  listing_perm := Enumeration.inserted.records_perm

/-- The first of two intents of a service has one link left. -/
def lastLink : ServiceRecord :=
  ⟨[⟨⟨⟨1, "app"⟩, "last-1"⟩, .installed, [⟨.eth "a" none ⟨"a"⟩ 1, .eth "b" none ⟨"b"⟩ 1⟩], true⟩,
    ⟨⟨⟨1, "app"⟩, "last-2"⟩, .installed, [], true⟩]⟩

def lastLinkScene : Scene Unit :=
  ⟨VersionedMap.empty.put ⟨"last", by decide⟩ lastLink, .empty, (), []⟩

def lastLinkIntent : Intent :=
  ⟨⟨⟨1, "app"⟩, "last-1"⟩, ⟨none, none⟩, [], 100, .connectivity ⟨"a/None"⟩ ⟨"c/None"⟩⟩

theorem unambiguous_lastLinkScene : lastLinkScene.Unambiguous := by
  have hrecord (s : ServiceId) (r : ServiceRecord) (hr : lastLinkScene.record s = some r) :
      s = ⟨"last", by decide⟩ ∧ r = lastLink := by
    simpa [lastLinkScene, Scene.record, eq_comm] using hr
  refine ⟨fun s r hr => ?_, fun s t k hs ht => ?_⟩
  · obtain ⟨-, rfl⟩ := hrecord s r hr
    decide
  · obtain ⟨e, he⟩ := Option.ne_none_iff_exists'.mp hs
    obtain ⟨f, hf⟩ := Option.ne_none_iff_exists'.mp ht
    obtain ⟨q, hq, -⟩ := Option.bind_eq_some_iff.mp he
    obtain ⟨r, hr, -⟩ := Option.bind_eq_some_iff.mp hf
    rw [(hrecord s q hq).1, (hrecord t r hr).1]

theorem lastLink_predicted : ∃ y,
    (handle 1 0 lastLinkIntent .failed).run silent.answer lastLinkScene =
      (.ok (some .installationFailed), y) ∧
    some .installationFailed =
      some ((nextEvent ⟨"last", by decide⟩ lastLinkIntent.key .failed true).run silent.answer
        lastLinkScene).1 ∧
    y.record ⟨"last", by decide⟩ = some ⟨[⟨⟨⟨1, "app"⟩, "last-1"⟩, .failed, [], true⟩,
      ⟨⟨⟨1, "app"⟩, "last-2"⟩, .installed, [], true⟩]⟩ := by
  obtain ⟨-, event, y, es, hrun, hcalls, hpredicted, -⟩ := event_predicted silent
    unambiguous_lastLinkScene (by decide : (1 : UInt32) ≠ 0) 0 lastLinkIntent .failed
  have hran : (handle 1 0 lastLinkIntent .failed).run silent.answer lastLinkScene =
    (.ok (some .installationFailed), _) := rfl
  cases hrun.symm.trans hran
  obtain rfl : _ = es := hcalls
  obtain ⟨hevent, hrecord, -⟩ := hpredicted ⟨"last", by decide⟩ lastLink _ rfl rfl (.inr (.inr rfl))
  exact ⟨_, hran, hevent, hrecord⟩

end StatusEvents

end IntentPlane
