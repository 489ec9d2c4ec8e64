import IntentPlane.Proofs.Concurrent.Crew
import IntentPlane.Proofs.Concurrent.Events

/-!
# Events for a service that is removed meanwhile

An event that finds its service gone returns nothing, but it may have learned of that too late: it
falls back over the links left before it writes the record. `late_event_traceless_iff` tells when it
leaves nothing behind, wherever the removal falls between its accesses.
-/

namespace IntentPlane

namespace StatusEvents

/-- An event had a link accepted, and then found the service gone. -/
structure Stranded (limit : UInt64) (k : IntentKey) (s : ServiceId) (a : Acceptance)
    (ds : List Deed) : Prop where
  accepted : ⟨.submit limit a.intent, .ok a.submission⟩ ∈ ds
  indexed : ⟨.indexIntent k a.intent, ()⟩ ∈ ds
  accepted_eq : ∀ n i b, ⟨.submit n i, .ok b⟩ ∈ ds → i = a.intent
  indexed_eq : ∀ i, ⟨.indexIntent k i, ()⟩ ∈ ds → i = a.intent
  gone : ∃ before v after, ds = before ++ ⟨.readRecord s, some v⟩ :: after ∧
    ⟨.readRecord s, none⟩ ∈ after

variable {retries : UInt32} {limit : UInt64} {intent : Intent} {status : IntentStatus}
  {s : ServiceId} {e : KeyStatus} {ds : List Deed}
  {result : Except StoreError (Option ServiceEvent)}

theorem not_mem_of_puts {written : Except StoreError (Option ServiceRecord)}
    (h : Puts retries s e ds written) :
    (∀ n i b, ⟨.submit n i, .ok b⟩ ∉ ds) ∧ ∀ k i, ⟨.indexIntent k i, ()⟩ ∉ ds := by
  refine ⟨fun n i b => h.not_submit n i (.ok b), fun k i hd => ?_⟩
  rcases h.access_eq _ hd with ⟨-, haccess⟩ | ⟨-, haccess⟩ | ⟨_, _, haccess⟩ <;> cases haccess

theorem not_mem_of_seeks {links : List CandidateLink} {found : Except String Acceptance}
    (h : Seeks limit intent.rebuildOver? links ds found) :
    (∀ n i b, ⟨.submit n i, .ok b⟩ ∈ ds → ∃ a, found = .ok a ∧ i = a.intent) ∧
      ∀ k i, ⟨.indexIntent k i, ()⟩ ∉ ds := by
  refine ⟨fun n i b hd => ?_, fun k i hd => ?_⟩
  · obtain ⟨_, _, -, ⟨_, heq⟩ | ⟨a, hfound, hi, heq⟩⟩ := h.mem _ hd
    · cases heq
    · cases heq
      exact ⟨a, hfound, hi⟩
  · obtain ⟨_, _, heq⟩ := h.submits _ hd
    cases heq

/-- An event that returns nothing had nothing accepted by the framework, or was stranded with a
link. -/
theorem Trace.of_none (h : Trace retries limit intent status ds (.ok none)) :
    ((∀ n i b, ⟨.submit n i, .ok b⟩ ∉ ds) ∧ ∀ i, ⟨.indexIntent intent.key i, ()⟩ ∉ ds) ∨
      ∃ s a, Stranded limit intent.key s a ds := by
  generalize hr : (Except.ok none : Except StoreError (Option ServiceEvent)) = result at h
  cases h with
  | unowned | gone => exact .inl ⟨by simp, by simp⟩
  | @found listed s ds result v _ hgoes =>
    cases hgoes with
    | recorded _ hputs =>
      obtain ⟨hsubmit, hindex⟩ := not_mem_of_puts hputs
      exact .inl ⟨by simpa using hsubmit, by simpa using hindex intent.key⟩
    | exhausted _ hseeks hputs =>
      obtain ⟨hsubmit, hindex⟩ := not_mem_of_puts hputs
      obtain ⟨htried, hindex'⟩ := not_mem_of_seeks hseeks
      refine .inl ⟨fun n i b hd => ?_, by simp [hindex, hindex']⟩
      simp only [List.mem_cons, List.mem_append, hsubmit, or_false] at hd
      rcases hd with heq | heq | hd
      · cases heq
      · cases heq
      · obtain ⟨a, ha, -⟩ := htried n i b hd
        cases ha
    | resubmitted | contended => cases hr
    | @stranded tries a ds result ds' _ hseeks hputs hputs' =>
      obtain ⟨hsubmit, hindex⟩ := not_mem_of_puts hputs
      obtain ⟨hsubmit', hindex'⟩ := not_mem_of_puts hputs'
      obtain ⟨htried, hindex''⟩ := not_mem_of_seeks hseeks
      refine .inr ⟨s, a, ⟨by simp [hseeks.accepted_mem], by simp, fun n i b hd => ?_,
        fun i hd => ?_, ⟨[⟨.listRecords, listed⟩], v, _, rfl, ?_⟩⟩⟩
      · simp only [List.mem_cons, List.mem_append, hsubmit, hsubmit', or_false] at hd
        rcases hd with heq | heq | hd | heq
        any_goals cases heq
        obtain ⟨b', hb, hi⟩ := htried n i b hd
        cases hb
        exact hi
      · simp only [List.mem_cons, List.mem_append, hindex, hindex', hindex'', or_false,
          false_or] at hd
        rcases hd with heq | heq | heq
        any_goals cases heq
        rfl
      · simp [hputs.missing_mem]

end StatusEvents

/-- No trace is left of a service and a key: the service has no record, the index is as it was under
the key, and nothing was accepted there. -/
structure Traceless {τ : Type} (s : ServiceId) (k : IntentKey) (x y : Scene τ) : Prop where
  record : y.record s = none
  indexed : y.indexed k = x.indexed k
  accepted : ∃ es, y.calls = x.calls ++ es ∧ accepted k es = []

/-- A service is removed before its record is read. -/
def RemovedFirst (s : ServiceId) (log : Log Task.Side) : Prop :=
  ∀ before after read, log = before ++ (.left, ⟨.readRecord s, read⟩) :: after →
    ∃ r, (.right, ⟨.removeRecord s, r⟩) ∈ before

/-- An event for an intent, and the removal of a service. -/
abbrev Task.eventAndRemoval (retries attempts : UInt32) (limit : UInt64) (intent : Intent)
    (status : IntentStatus) (s : ServiceId) : Side → Task :=
  beside (.event retries limit intent status) (.store attempts (.removeService s))

section Removal

variable {τ : Type} {o : Surroundings τ} {drift : τ → τ → Prop} {limit : UInt64}
  {k : IntentKey} {s : ServiceId} {x y : Scene τ} {log : Log Task.Side}

theorem yields_removal {ds : List Deed} {removed : Bool}
    (h : (StatusStore.removeService s).Yields ds removed) :
    ∃ r, ds = [⟨.removeRecord s, r⟩] := by
  obtain ⟨r, hr, -⟩ := Program.yields_map.mp h
  exact ⟨r, Program.yields_access.mp hr⟩

/-- In the log of an event and a removal stand the accesses of the event and the removal. -/
theorem mem_log (hleft : ∀ d ∈ log.own .left, StatusEvents.Does k d.access)
    (hright : log.own .right = [⟨.removeRecord s, r⟩]) {e : Task.Side × Deed} (he : e ∈ log) :
    e.1 = .left ∧ StatusEvents.Does k e.2.access ∨ e = (.right, ⟨.removeRecord s, r⟩) := by
  obtain ⟨side, d⟩ := e
  have hmem := Log.mem_own.mpr he
  cases side with
  | left => exact .inl ⟨rfl, hleft d hmem⟩
  | right =>
    rw [hright, List.mem_singleton] at hmem
    exact .inr (by rw [hmem])

/-- Once the service is removed, an event does not bring its record back. -/
theorem record_eq_none (hleft : ∀ d ∈ log.own .left, StatusEvents.Does k d.access)
    (hright : log.own .right = [⟨.removeRecord s, r⟩]) (h : Answered o drift x log y) :
    y.record s = none := by
  rw [← List.nil_append [_]] at hright
  obtain ⟨before, after, rfl, -, -⟩ := Log.own_split hright
  obtain ⟨z, -, -, hafter⟩ := h.scene_at
  have hremoved : (o.answer (.removeRecord s) z).2.record s = none := by
    rw [o.record_answer]
    exact Function.update_self ..
  by_contra hrecord
  obtain ⟨e, he, haccess⟩ := hafter.exists_creation hremoved hrecord
  have hmem : e ∈ before ++ (.right, ⟨.removeRecord s, r⟩) :: after := by simp [he]
  rcases mem_log hleft hright hmem with ⟨-, hdoes⟩ | rfl
  · rcases haccess with haccess | ⟨_, haccess⟩ <;> rw [haccess] at hdoes <;> cases hdoes
  · rcases haccess with haccess | ⟨_, haccess⟩ <;> cases haccess

/-- An event that is stranded read the record before it was removed. -/
theorem StatusEvents.Stranded.not_removedFirst {t : ServiceId} {a : Acceptance}
    (hstranded : Stranded limit k t a (log.own .left))
    (hleft : ∀ d ∈ log.own .left, Does k d.access)
    (hright : log.own .right = [⟨.removeRecord s, r⟩]) (h : Answered o drift x log y) :
    ¬ RemovedFirst s log := by
  intro hfirst
  obtain ⟨earlier, v, later, hds, hgone⟩ := hstranded.gone
  obtain ⟨before, after, rfl, -, rfl⟩ := Log.own_split hds
  obtain ⟨between, rest, rfl⟩ := List.append_of_mem (Log.mem_own.mp hgone)
  obtain ⟨side, r', hremoval⟩ := h.removed_between
  rcases mem_log hleft hright (e := (side, ⟨.removeRecord t, r'⟩)) (by simp [hremoval]) with
    ⟨-, hdoes⟩ | heq
  · cases hdoes
  · cases heq
    -- There is one removal, and it comes after the record was read.
    obtain ⟨r'', hbefore⟩ := hfirst before _ (some v) rfl
    simp only [Log.own_append, Log.own_cons, List.append_eq_singleton_iff, reduceCtorEq, if_false,
      List.nil_append, List.append_eq_nil_iff] at hright
    rcases hright with ⟨hnone, -⟩ | ⟨-, hnone, -⟩
    · exact List.not_mem_nil (hnone ▸ Log.mem_own.mpr hbefore)
    · exact List.not_mem_nil (hnone ▸ Log.mem_own.mpr hremoval)

/-- An intent that is all that was accepted of an event and all that it indexed is indexed in the
end. -/
theorem StatusEvents.Stranded.indexed_scene {t : ServiceId} {a : Acceptance}
    (hstranded : Stranded limit k t a (log.own .left))
    (hleft : ∀ d ∈ log.own .left, Does k d.access)
    (hright : log.own .right = [⟨.removeRecord s, r⟩]) (h : Answered o drift x log y) :
    y.indexed k = some a.intent := by
  rw [h.indexed_eq]
  refine Log.index_eq_some ⟨_, Log.mem_own.mp hstranded.indexed, rfl⟩ fun e he => ?_
  rcases mem_log hleft hright he with ⟨hside, hdoes⟩ | rfl
  · refine ⟨fun haccess => ?_, fun i haccess => ?_⟩
    · rw [haccess] at hdoes
      cases hdoes
    · obtain ⟨side, access, answer⟩ := e
      cases haccess
      cases hside
      exact hstranded.indexed_eq i (Log.mem_own.mpr he)
  · exact ⟨nofun, nofun⟩

variable {retries attempts : UInt32} {intent : Intent} {status : IntentStatus}

/-- An event that returns nothing and had nothing accepted leaves the index alone. -/
theorem indexed_eq_of_refused
    (hevent : StatusEvents.Trace retries limit intent status (log.own .left) (.ok none))
    (hright : log.own .right = [⟨.removeRecord s, r⟩]) (h : Answered o drift x log y)
    (hrefused : ∀ n i a, (.left, ⟨.submit n i, .ok a⟩) ∉ log) :
    y.indexed intent.key = x.indexed intent.key := by
  rcases hevent.of_none with ⟨-, hindex⟩ | ⟨t, a, hstranded⟩
  · rw [h.indexed_eq]
    refine Log.index_eq_self fun e he => ?_
    rcases mem_log hevent.does hright he with ⟨hside, hdoes⟩ | rfl
    · refine ⟨fun haccess => ?_, fun i haccess => ?_⟩
      · rw [haccess] at hdoes
        cases hdoes
      · obtain ⟨side, access, answer⟩ := e
        cases haccess
        cases hside
        exact hindex i (Log.mem_own.mpr he)
    · exact ⟨nofun, nofun⟩
  · exact (hrefused _ _ _ (Log.mem_own.mp hstranded.accepted)).elim

/-- What the framework accepted under the key of an event, it accepted of the event. -/
theorem accepted_eq_nil_iff
    (hleft : ∀ d ∈ log.own .left, StatusEvents.Does k d.access)
    (hright : log.own .right = [⟨.removeRecord s, r⟩]) :
    accepted k log.exchanges = [] ↔ ∀ n i a, (.left, ⟨.submit n i, .ok a⟩) ∉ log := by
  rw [List.eq_nil_iff_forall_not_mem]
  constructor
  · intro h n i a hmem
    have hdoes := hleft _ (Log.mem_own.mpr hmem)
    cases hdoes with
    | submit hk => exact h (i, a) (Log.mem_accepted.mpr ⟨hk, _, n, hmem⟩)
  · rintro h ⟨i, a⟩ hmem
    obtain ⟨-, side, n, hmem⟩ := Log.mem_accepted.mp hmem
    rcases mem_log hleft hright hmem with ⟨rfl, -⟩ | heq
    · exact h n i a hmem
    · cases heq

/-- An event that returns nothing beside the removal of its service leaves no record, wherever the
removal falls. It leaves no trace at all just if the framework accepted nothing of it. An intent
that it accepted stays in the index, and the service was removed only after the event had read the
record. -/
theorem late_event_traceless_iff {removed : Bool}
    {c : Crew τ (Task.eventAndRemoval retries attempts limit intent status s)}
    (h : Crew.Course o drift x log c) (hevent : c.threads .left = .done (.ok none))
    (hremoval : c.threads .right = .done removed) :
    c.scene.record s = none ∧
      (Traceless s intent.key x c.scene ↔ ∀ n i a, (.left, ⟨.submit n i, .ok a⟩) ∉ log) ∧
      ∀ n i a, (.left, ⟨.submit n i, .ok a⟩) ∈ log →
        c.scene.indexed intent.key = some i ∧ ¬ RemovedFirst s log := by
  have htrace := StatusEvents.trace_of_handle (h.yields hevent)
  obtain ⟨r, hright⟩ := yields_removal (h.yields hremoval)
  have hrecord := record_eq_none htrace.does hright h.answered
  refine ⟨hrecord, ⟨?_, fun hrefused => ⟨hrecord, ?_, _, h.answered.calls_eq, ?_⟩⟩, ?_⟩
  · rintro ⟨-, -, es, hcalls, hes⟩
    rw [h.answered.calls_eq, List.append_cancel_left_eq] at hcalls
    exact (accepted_eq_nil_iff htrace.does hright).mp (hcalls ▸ hes)
  · exact indexed_eq_of_refused htrace hright h.answered hrefused
  · exact (accepted_eq_nil_iff htrace.does hright).mpr hrefused
  · intro n i a hmem
    rcases htrace.of_none with ⟨hnone, -⟩ | ⟨t, b, hstranded⟩
    · exact (hnone _ _ _ (Log.mem_own.mpr hmem)).elim
    · rw [hstranded.accepted_eq n i a (Log.mem_own.mpr hmem)]
      exact ⟨hstranded.indexed_scene htrace.does hright h.answered,
        hstranded.not_removedFirst htrace.does hright h.answered⟩

end Removal

/-! A service whose intent has one link left is removed after the link was accepted. -/

def lateService : ServiceId := ⟨"late", by decide⟩

def lateIntent : Intent where
  key := .forService ⟨1, "app"⟩ lateService 1
  selector := ⟨none, none⟩
  constraints := []
  priority := 100
  payload := .connectivity ⟨"1/None"⟩ ⟨"2/None"⟩

def lateLink : CandidateLink := ⟨.eth "1" none ⟨"x"⟩ 1, .eth "3" none ⟨"z"⟩ 1⟩

def lateScene : Scene Facilities where
  records := VersionedMap.empty.put lateService ⟨[⟨lateIntent.key, .installReq, [lateLink], false⟩]⟩
  index := .empty
  outside := ⟨.empty, .empty⟩
  calls := []

def lateCrew : Crew Facilities (Task.eventAndRemoval 3 3 5000 lateIntent .failed lateService) :=
  .start _ lateScene

def lateMoves : List (Move Task.Side Facilities) :=
  [.turn .left, .turn .left, .turn .left, .turn .left, .turn .right, .turn .left, .turn .left]

/-- The intent over the link that was accepted stays with the framework and in the index. -/
theorem removed_service_left_an_intent :
    ¬ Traceless lateService lateIntent.key lateScene
      (lateCrew.run (.inMemory .inserted) lateMoves).scene := by
  have hcourse : Crew.Course (.inMemory .inserted) Eq lateScene
      (lateCrew.log (.inMemory .inserted) lateMoves)
      (lateCrew.run (.inMemory .inserted) lateMoves) :=
    ⟨lateMoves, by simp [lateMoves], rfl, rfl⟩
  have hremoval : (lateCrew.run (.inMemory .inserted) lateMoves).threads .right = .done true := rfl
  intro htraceless
  exact (late_event_traceless_iff hcourse rfl hremoval).2.1.mp htraceless _ _ _
    (.tail _ (.tail _ (.head _)))

end IntentPlane
