import IntentPlane.Proofs.Concurrent.Crew
import IntentPlane.Proofs.Concurrent.Events

/-!
# Handling an event at one go

An event reads the record of its service, submits the links left there if the intent failed, and
writes the entry back, whole. What it submits and writes is decided by the links that it read
(`StatusEvents.outcome`), so others who set them in between are not heeded, and what they wrote is
lost. `event_atomic_iff` says when it makes no difference that others came in between: just if the
links found at the write lead to the same.
-/

namespace IntentPlane

/-! ## A framework that keeps its mind -/

/-- The answer to a submission. -/
def Framework.reply (f : Framework) (i : Intent) : Except FrameworkError Submission :=
  (f.submit i).1

/-- What a framework answers to submissions does not change. -/
def SameReplies (f g : Facilities) : Prop := g.framework.reply = f.framework.reply

namespace Framework

variable (f : Framework)

theorem reply_eq (i : Intent) :
    f.reply i = if i.key ∈ f.rejected then .error (.rejected i.key "rejected by intent service")
      else .ok (if i.key ∈ f.negotiating then .negotiating else .accepted) := by
  rw [reply]
  split
  · rename_i h
    rw [submit_rejected h]
  · rename_i h
    rw [submit_taken h]

theorem reply_submit (i : Intent) : (f.submit i).2.reply = f.reply := by
  funext j
  rw [reply_eq, reply_eq]
  by_cases h : i.key ∈ f.rejected
  · rw [submit_rejected h]
    rfl
  · rw [submit_taken h]
    rfl

theorem reply_withdraw (k : IntentKey) : (f.withdraw k).2.reply = f.reply := by
  funext j
  rw [reply_eq, reply_eq, withdraw]
  split <;> rfl

end Framework

/-- Accesses leave the answers as they are. -/
theorem Surroundings.reply_answer (e : Enumeration) (access : Access) (x : Scene Facilities) :
    ((inMemory e).answer access x).2.outside.framework.reply = x.outside.framework.reply := by
  cases access with
  | submit limit i => exact x.outside.framework.reply_submit i
  | withdraw limit k => exact x.outside.framework.reply_withdraw k
  | readRecord | ensureRecord | putRecord | replaceRecord | removeRecord | listServices
  | listRecords | indexIntent | indexedIntent | unindexIntent | resolve | heldIntents => rfl

namespace Answered

variable {ι : Type} {e : Enumeration} {x y : Scene Facilities} {log : Log ι}

theorem reply_eq (h : Answered (.inMemory e) SameReplies x log y) :
    y.outside.framework.reply = x.outside.framework.reply := by
  induction h with
  | nil => rfl
  | drift hdrift _ ih => exact ih.trans hdrift
  | deed _ ih => exact ih.trans (Surroundings.reply_answer ..)

theorem reply_of_submit (h : Answered (.inMemory e) SameReplies x log y) {j : ι} {n : UInt64}
    {i : Intent} {answer : Except FrameworkError Submission}
    (hmem : (j, ⟨.submit n i, answer⟩) ∈ log) : answer = x.outside.framework.reply i := by
  obtain ⟨before, after, rfl⟩ := List.append_of_mem hmem
  obtain ⟨z, hbefore, hanswer, -⟩ := h.scene_at
  rw [← hbefore.reply_eq]
  exact hanswer

end Answered

/-! ## What an event comes to -/

/-- The calls made over candidate links if the framework keeps its mind, and what is accepted. -/
def tries (limit : UInt64) (build? : CandidateLink → Option Intent)
    (reply : Intent → Except FrameworkError Submission) :
    List CandidateLink → List Exchange × Option Acceptance
  | [] => ([], none)
  | link :: links =>
    match build? link with
    | none => tries limit build? reply links
    | some i =>
      match reply i with
      | .ok a => ([.submit limit i (.ok a)], some ⟨link, i, a, links⟩)
      | .error e =>
        let (es, accepted) := tries limit build? reply links
        (.submit limit i (.error e) :: es, accepted)

variable {limit : UInt64} {build? : CandidateLink → Option Intent}
  {reply : Intent → Except FrameworkError Submission} {links : List CandidateLink}

theorem Seeks.tries_eq {ds : List Deed} {result : Except String Acceptance}
    (h : Seeks limit build? links ds result)
    (hreply : ∀ n i answer, ⟨.submit n i, answer⟩ ∈ ds → answer = reply i) :
    tries limit build? reply links = (ds.filterMap Deed.exchange?, result.toOption) := by
  induction h with
  | exhausted => rfl
  | skip hb _ ih =>
    rw [tries, hb]
    exact ih hreply
  | refuse hb _ ih =>
    rw [tries, hb]
    simp only [← hreply _ _ _ (.head _), ih fun n i answer hmem => hreply n i answer (.tail _ hmem)]
    rfl
  | accept hb =>
    rw [tries, hb]
    simp only [← hreply _ _ _ (.head _)]
    rfl

theorem Search.tries_eq {e : Enumeration} {reason : String} {t u : Facilities}
    {result : Except String Acceptance} {es : List Exchange}
    (h : Search (.inMemory e) limit build? reason links t result es u) :
    tries limit build? t.framework.reply links = (es, result.toOption) := by
  have hreply {i : Intent} {t t' : Facilities} {answer : Except FrameworkError Submission}
      (hs : (Surroundings.inMemory e).submit limit i t = (answer, t')) :
      t.framework.reply i = answer ∧ t'.framework.reply = t.framework.reply := by
    cases hs
    exact ⟨rfl, t.framework.reply_submit i⟩
  induction h with
  | exhausted => rfl
  | skip hb _ ih =>
    rw [tries, hb]
    exact ih
  | refuse hb hs _ ih =>
    obtain ⟨hi, ht⟩ := hreply hs
    rw [ht] at ih
    rw [tries, hb]
    simp only [hi, ih]
  | accept hb hs =>
    rw [tries, hb]
    simp only [(hreply hs).1]
    rfl

/-- The links left to an entry. -/
def linksLeft (e : Option KeyStatus) : List CandidateLink := (e.map (·.links)).getD []

namespace StatusEvents

/-- What handling an event comes to, given the links that are left and a framework that keeps its
mind: the entry that is written, and the calls that are made. -/
def outcome (limit : UInt64) (intent : Intent) (status : IntentStatus)
    (reply : Intent → Except FrameworkError Submission) (links : List CandidateLink) :
    KeyStatus × List Exchange :=
  if status = .failed then
    match tries limit intent.rebuildOver? reply links with
    | (es, some a) => (⟨intent.key, a.submission.status, a.untried, false⟩, es)
    | (es, none) => (⟨intent.key, .failed, [], intent.isCalculated⟩, es)
  else (⟨intent.key, status, links, intent.isCalculated⟩, [])

/-- Handling an event at one go makes of the record of the service what is given, and makes the
calls given. -/
def AtOnce {τ : Type} (o : Surroundings τ) (retries : UInt32) (limit : UInt64) (intent : Intent)
    (status : IntentStatus) (s : ServiceId) (x : Scene τ) (r : ServiceRecord)
    (es : List Exchange) : Prop :=
  let y := ((applyTo retries limit intent status s).run o.answer x).2
  y.record s = some r ∧ y.calls = x.calls ++ es

variable {τ : Type} {retries : UInt32} {intent : Intent} {status : IntentStatus} {s : ServiceId}
  {e : KeyStatus} {es : List Exchange} {a : Acceptance}

theorem links_current (found : ServiceRecord) :
    (current intent status found).links = linksLeft (found.get? intent.key) := by
  rw [current, linksLeft]
  cases found.get? intent.key <;> rfl

theorem key_outcome (links : List CandidateLink) :
    (outcome limit intent status reply links).1.key = intent.key := by
  rw [outcome]
  split
  · split <;> rfl
  · rfl

theorem outcome_of_accepted (h : FallsBack status e) (he : e.key = intent.key)
    (htries : tries limit intent.rebuildOver? reply e.links = (es, some a)) :
    outcome limit intent status reply e.links = (resubmitted a e, es) := by
  rw [outcome, if_pos h.1, htries, ← he]
  rfl

theorem outcome_of_refused (h : FallsBack status e) (he : e.key = intent.key)
    (htries : tries limit intent.rebuildOver? reply e.links = (es, none)) :
    outcome limit intent status reply e.links = (settled intent status (e.withLinks []), es) := by
  rw [outcome, if_pos h.1, htries, ← he, ← h.1]
  rfl

theorem outcome_of_not_fallsBack (h : ¬ FallsBack status e) (he : e.key = intent.key) :
    outcome limit intent status reply e.links = (settled intent status e, []) := by
  rw [outcome, ← he]
  split
  · rename_i hfailed
    have hlinks : e.links = [] := by
      by_contra hlinks
      exact h ⟨hfailed, hlinks⟩
    rw [hlinks, tries]
    simp only [settled, KeyStatus.withStatus, KeyStatus.withCalculated, hlinks, hfailed]
  · rfl

/-- Handling an event at one go comes to its outcome. -/
theorem atOnce_iff (o : Enumeration) (x : Scene Facilities) (h : retries ≠ 0) {q r : ServiceRecord}
    (hq : x.record s = some q) :
    AtOnce (.inMemory o) retries limit intent status s x r es ↔
      q.upsert (outcome limit intent status x.outside.framework.reply
          (linksLeft (q.get? intent.key))).1 = r ∧
        (outcome limit intent status x.outside.framework.reply
          (linksLeft (q.get? intent.key))).2 = es := by
  have hkey : (current intent status q).key = intent.key := key_current q
  have hlinks : (current intent status q).links = linksLeft (q.get? intent.key) := links_current q
  rw [← hlinks, AtOnce, applyTo, Program.run_bind, StatusStore.run_findKeys, hq]
  dsimp only
  split
  · rename_i hfalls
    rw [Program.run_bind]
    rcases run_fallBack limit intent (current intent status q) h hq with
      ⟨a, es, u, hsearch, hrun⟩ | ⟨reason, es, u, hsearch, hrun⟩
    · rw [hrun, outcome_of_accepted hfalls hkey hsearch.tries_eq]
      change (Scene.upsert _ s (resubmitted a _)).record s = _ ∧ x.calls ++ es = _ ↔ _
      simp [hq]
    · have hq' : (x.hear u es).record s = some q := hq
      rw [hrun, outcome_of_refused hfalls hkey hsearch.tries_eq]
      simp [run_record h hq', hq, settled]
  · rename_i hfalls
    rw [outcome_of_not_fallsBack hfalls hkey, run_record h hq]
    simp [hq, settled]

variable {asks earlier later ds : List Deed} {t : ServiceId} {version : Nat}
  {r : ServiceRecord}

/-- The write of an update that comes after other accesses. -/
theorem written_of_puts {written : Except StoreError (Option ServiceRecord)}
    (h : Puts retries s e ds written)
    (hall : asks ++ ds = earlier ++ ⟨.replaceRecord t version r, true⟩ :: later)
    (hasks : ∀ t version r, ⟨.replaceRecord t version r, true⟩ ∉ asks) :
    t = s ∧ retries ≠ 0 ∧ written = .ok (some r) ∧
      earlier.filterMap Deed.exchange? = asks.filterMap Deed.exchange? ∧ asks ⊆ earlier ∧
      ∃ first u, earlier = first ++ [⟨.readRecord s, some u⟩] ∧ version = u.version ∧
        r = u.value.upsert e := by
  rcases append_eq_append_cons hall with ⟨m, rfl, -⟩ | ⟨m, rfl, rfl⟩
  · exact (hasks t version r (by simp)).elim
  · obtain ⟨ht, hretries, -, hwritten, lost, u, hm, hu⟩ := h.written_inv
    refine ⟨ht, ?_, hwritten, ?_, List.subset_append_left .., asks ++ lost, u, ?_, hu⟩
    · rintro rfl
      exact hretries rfl
    · have hputs : m.filterMap Deed.exchange? = [] := by
        refine List.filterMap_eq_nil_iff.mpr fun d hd => ?_
        obtain ⟨access, answer⟩ := d
        rcases h.access_eq _ (List.mem_append_left _ hd) with
          ⟨-, haccess⟩ | ⟨-, haccess⟩ | ⟨_, _, haccess⟩ <;> cases haccess <;> rfl
      rw [List.filterMap_append, hputs, List.append_nil]
    · rw [hm, List.append_assoc]
      rfl

theorem not_written_of_seeks {found : Except String Acceptance}
    (h : Seeks limit intent.rebuildOver? links ds found) (t : ServiceId) (version : Nat)
    (r : ServiceRecord) : ⟨.replaceRecord t version r, true⟩ ∉ ds := by
  intro hmem
  obtain ⟨_, _, heq⟩ := h.submits _ hmem
  cases heq

/-- An event that writes the record has made the calls of its outcome and writes the entry of it,
onto the record as it was just before. -/
theorem Goes.of_written {result : Except StoreError (Option ServiceEvent)}
    (h : Goes retries limit intent status s e
      (earlier ++ ⟨.replaceRecord t version r, true⟩ :: later) result)
    (he : e.key = intent.key)
    (hreply : ∀ n i answer, ⟨.submit n i, answer⟩ ∈ earlier → answer = reply i)
    (hkept : ⟨.readRecord s, none⟩ ∉ earlier) :
    t = s ∧ retries ≠ 0 ∧
      earlier.filterMap Deed.exchange? = (outcome limit intent status reply e.links).2 ∧
      ∃ first u, earlier = first ++ [⟨.readRecord s, some u⟩] ∧ version = u.version ∧
        r = u.value.upsert (outcome limit intent status reply e.links).1 := by
  generalize hall : earlier ++ ⟨.replaceRecord t version r, true⟩ :: later = all at h
  replace hall := hall.symm
  cases h with
  | recorded hfalls hputs =>
    obtain ⟨ht, hretries, -, hcalls, -, hread⟩ :=
      written_of_puts hputs ((List.nil_append _).trans hall) nofun
    rw [outcome_of_not_fallsBack hfalls he]
    exact ⟨ht, hretries, hcalls, hread⟩
  | exhausted hfalls hseeks hputs =>
    obtain ⟨ht, hretries, -, hcalls, hasks, hread⟩ :=
      written_of_puts hputs hall (not_written_of_seeks hseeks)
    have htries := hseeks.tries_eq fun n i answer hmem => hreply n i answer (hasks hmem)
    rw [outcome_of_refused hfalls he htries]
    exact ⟨ht, hretries, hcalls, hread⟩
  | @resubmitted tries a ds r' hfalls hseeks hputs =>
    rw [List.append_cons] at hall
    obtain ⟨ht, hretries, -, hcalls, hasks, hread⟩ :=
      written_of_puts hputs hall (by simp [not_written_of_seeks hseeks])
    have htries := hseeks.tries_eq fun n i answer hmem => hreply n i answer (hasks (by simp [hmem]))
    rw [outcome_of_accepted hfalls he htries]
    refine ⟨ht, hretries, ?_, hread⟩
    rw [hcalls, List.filterMap_append]
    exact List.append_nil _
  | @stranded tries a ds result ds' hfalls hseeks hputs hputs' =>
    -- The record was missing before the write.
    have hlost (t version r) : ⟨.replaceRecord t version r, true⟩ ∉ ds := fun hmem => by
      obtain ⟨_, _, rfl⟩ := List.append_of_mem hmem
      obtain ⟨-, -, -, hwritten, -⟩ := hputs.written_inv
      cases hwritten
    obtain ⟨-, -, -, -, hasks, -⟩ := written_of_puts hputs' hall
      (by simp [not_written_of_seeks hseeks, hlost])
    exact (hkept (hasks (by simp [hputs.missing_mem]))).elim
  | contended hfalls hseeks hputs =>
    rw [List.append_cons] at hall
    obtain ⟨-, -, hwritten, -⟩ :=
      written_of_puts hputs hall (by simp [not_written_of_seeks hseeks])
    cases hwritten

/-- What an event does after it has read the record first. -/
theorem Trace.of_read {result : Except StoreError (Option ServiceEvent)}
    {v : Versioned ServiceRecord}
    (h : Trace retries limit intent status (earlier ++ ⟨.readRecord s, some v⟩ :: later) result)
    (hfirst : ∀ t answer, ⟨.readRecord t, answer⟩ ∉ earlier) :
    Goes retries limit intent status s (current intent status v.value) later result := by
  generalize hall : earlier ++ ⟨.readRecord s, some v⟩ :: later = all at h
  match earlier, hall with
  | [], hall => cases h <;> cases hall
  | [d], hall =>
    cases h with
    | unowned | gone => cases hall
    | found _ hgoes =>
      cases hall
      exact hgoes
  | d :: e :: earlier, hall =>
    cases h with
    | unowned => cases hall
    | gone | found =>
      obtain ⟨-, hnext⟩ := List.cons.inj hall
      obtain ⟨rfl, -⟩ := List.cons.inj hnext
      exact (hfirst _ _ (.tail _ (.head _))).elim

end StatusEvents

/-- What a call that handles an event has done is the beginning of a trace of the event. -/
theorem Crew.Course.trace_of_event {τ ι : Type} [DecidableEq ι] {tasks : ι → Task}
    {o : Surroundings τ} {drift : τ → τ → Prop} {x : Scene τ} {log : Log ι} {c : Crew τ tasks}
    (h : Crew.Course o drift x log c) {i : ι} {retries : UInt32} {limit : UInt64} {intent : Intent}
    {status : IntentStatus} (hi : tasks i = .event retries limit intent status) :
    ∃ rest result, StatusEvents.Trace retries limit intent status (log.own i ++ rest) result := by
  obtain ⟨p, hleads⟩ := h.leads_of_eq hi
  obtain ⟨rest, result, hyields⟩ := hleads.exists_yields
  exact ⟨rest, result, StatusEvents.trace_of_handle hyields⟩

section Among

open StatusEvents

variable {ι : Type} [DecidableEq ι] {tasks : ι → Task} {o : Enumeration} {x : Scene Facilities}
  {i : ι} {retries : UInt32} {limit : UInt64} {intent : Intent} {status : IntentStatus}
  {c : Crew Facilities tasks} {before between : Log ι} {s : ServiceId}
  {v : Versioned ServiceRecord} {version : Nat} {r : ServiceRecord}

/-- An event that is about to write a record was looked at again just before, and the entry that it
writes and the calls that it has made are the outcome for the links that it read at first. -/
theorem writes_outcome (hx : Bounded x.records) (hi : tasks i = .event retries limit intent status)
    (h : Crew.Course (.inMemory o) SameReplies x
      (before ++ (i, ⟨.readRecord s, some v⟩) :: between) c)
    (hfirst : ∀ t answer, (i, ⟨.readRecord t, answer⟩) ∉ before)
    (hwrite : c.deed? (.inMemory o) (.turn i) = some (i, ⟨.replaceRecord s version r, true⟩))
    (hkept : ∀ j answer, (j, ⟨.removeRecord s, answer⟩) ∉ between) :
    retries ≠ 0 ∧
      (Log.own between i).filterMap Deed.exchange? = (outcome limit intent status
        x.outside.framework.reply (linksLeft (v.value.get? intent.key))).2 ∧
      ∃ q, c.scene.record s = some q ∧ r = q.upsert (outcome limit intent status
        x.outside.framework.reply (linksLeft (v.value.get? intent.key))).1 := by
  have hnext : Crew.Course (.inMemory o) SameReplies x (before ++ (i, ⟨.readRecord s, some v⟩) ::
      (between ++ (i, ⟨.replaceRecord s version r, true⟩) :: []))
      (c.step (.inMemory o) (.turn i)) := by
    have hstep : Crew.Course (.inMemory o) SameReplies x _ (c.step (.inMemory o) (.turn i)) :=
      h.step nofun
    rwa [hwrite, Option.toList_some, List.append_assoc] at hstep
  obtain ⟨rest, result, htrace⟩ := hnext.trace_of_event hi
  have hgoes : Goes retries limit intent status s (current intent status v.value)
      (Log.own between i ++ ⟨.replaceRecord s version r, true⟩ :: rest) result := by
    refine Trace.of_read ?_ fun t answer hmem => hfirst t answer (Log.mem_own.mp hmem)
    simpa using htrace
  have hsubmits (n : UInt64) (j : Intent) (answer : Except FrameworkError Submission)
      (hmem : ⟨.submit n j, answer⟩ ∈ Log.own between i) :
      answer = x.outside.framework.reply j :=
    h.answered.reply_of_submit (List.mem_append_right _ (.tail _ (Log.mem_own.mp hmem)))
  have hpresent : ⟨.readRecord s, none⟩ ∉ Log.own between i := by
    intro hmem
    obtain ⟨_, _, rfl⟩ := List.append_of_mem (Log.mem_own.mp hmem)
    obtain ⟨j, answer, hremoval⟩ := h.answered.removed_between
    exact hkept j answer (List.mem_append_left _ hremoval)
  obtain ⟨-, hretries, hcalls, first, u, hown, rfl, rfl⟩ :=
    hgoes.of_written (key_current v.value) hsubmits hpresent
  rw [links_current] at hcalls ⊢
  refine ⟨hretries, hcalls, u.value, ?_, rfl⟩
  -- The record that is written onto was read just before.
  obtain ⟨earlier, later, rfl, -, -⟩ := Log.own_split hown
  have hanswered : Answered (.inMemory o) SameReplies x
      (before ++ (i, ⟨.readRecord s, some v⟩) :: earlier ++
        (i, StatusStore.Absent.leave.finds s u) :: later) c.scene := by
    simpa [StatusStore.Absent.finds] using h.answered
  exact hanswered.record_of_replaced hx (Crew.answer_of_deed? hwrite).symm

/-- An event among other calls is about to write the record of its service, which is there all the
time. What it writes onto the record as it stands, and what it has submitted, is the outcome for the
links that it read at first. So it is as if the event was handled at one go just now, if and only if
the outcome is the same for the links that are left by now. -/
theorem event_atomic_iff (hx : Bounded x.records)
    (hi : tasks i = .event retries limit intent status)
    (h : Crew.Course (.inMemory o) SameReplies x
      (before ++ (i, ⟨.readRecord s, some v⟩) :: between) c)
    (hfirst : ∀ t answer, (i, ⟨.readRecord t, answer⟩) ∉ before)
    (hwrite : c.deed? (.inMemory o) (.turn i) = some (i, ⟨.replaceRecord s version r, true⟩))
    (hkept : ∀ j answer, (j, ⟨.removeRecord s, answer⟩) ∉ between) :
    let calls := (Log.own between i).filterMap Deed.exchange?
    let outcome := outcome limit intent status x.outside.framework.reply
    let read := outcome (linksLeft (v.value.get? intent.key))
    let now := outcome (linksLeft (c.scene.entry s intent.key))
    (∃ q, c.scene.record s = some q ∧ r = q.upsert read.1 ∧ calls = read.2) ∧
      (AtOnce (.inMemory o) retries limit intent status s c.scene r calls ↔ now = read) := by
  obtain ⟨hretries, hcalls, q, hq, rfl⟩ := writes_outcome hx hi h hfirst hwrite hkept
  intro calls outcome read now
  refine ⟨⟨q, hq, rfl, hcalls⟩, ?_⟩
  have hnow : now = outcome (linksLeft (q.get? intent.key)) := by
    simp only [now, Scene.entry, hq, Option.bind_some]
  rw [atOnce_iff o c.scene hretries hq, h.answered.reply_eq, Prod.ext_iff, hnow,
    show calls = read.2 from hcalls]
  refine and_congr_left' ⟨fun hupsert => ?_, fun hentry => by rw [hentry]⟩
  -- What is found under the key in the record tells the entry.
  have hfound := congrArg (ServiceRecord.get? · intent.key) hupsert
  simp only [ServiceRecord.get?_upsert, key_outcome, if_true, Option.some.injEq] at hfound
  exact hfound

end Among

/-! The links of an intent are set while it is reported installed. -/

def linkedService : ServiceId := ⟨"linked", by decide⟩

def linkedIntent : Intent where
  key := .forService ⟨1, "app"⟩ linkedService 1
  selector := ⟨none, none⟩
  constraints := []
  priority := 100
  payload := .connectivity ⟨"1/None"⟩ ⟨"2/None"⟩

def oldLink : CandidateLink := ⟨.eth "1" none ⟨"x"⟩ 1, .eth "2" none ⟨"y"⟩ 1⟩

def newLink : CandidateLink := ⟨.eth "1" none ⟨"x"⟩ 1, .eth "3" none ⟨"z"⟩ 1⟩

def linkedRecord (status : IntentStatus) (calculated : Bool) : ServiceRecord :=
  ⟨[⟨linkedIntent.key, status, [oldLink], calculated⟩]⟩

def linkedScene : Scene Facilities where
  records := VersionedMap.empty.put linkedService (linkedRecord .installReq false)
  index := .empty
  outside := ⟨.empty, .empty⟩
  calls := []

def linkedTasks : Task.Side → Task :=
  Task.beside (.event 3 5000 linkedIntent .installed)
    (.store 3 (.updateLinks linkedService linkedIntent.key [newLink]))

def linkedStart : Crew Facilities linkedTasks := .start _ linkedScene

/-- The event reads the record, the links are set, and the event is about to write. -/
def linkedMoves : List (Move Task.Side Facilities) :=
  [.turn .left, .turn .left, .turn .right, .turn .right, .turn .left]

/-- The event writes the links back that it read. -/
theorem links_set_meanwhile_lost :
    (linkedStart.run (.inMemory .inserted) linkedMoves).deed? (.inMemory .inserted) (.turn .left) =
        some (.left, ⟨.replaceRecord linkedService 2 (linkedRecord .installed true), true⟩) ∧
      ¬ StatusEvents.AtOnce (.inMemory .inserted) 3 5000 linkedIntent .installed linkedService
        (linkedStart.run (.inMemory .inserted) linkedMoves).scene (linkedRecord .installed true)
        [] := by
  have hbounded : Bounded linkedScene.records :=
    Bounded.evolved (m := .empty) nofun
      (evolved_answer (.putRecord linkedService _) ⟨.empty, .empty, .empty, .empty⟩)
  have hcourse : Crew.Course (.inMemory .inserted) SameReplies linkedScene
      ([(.left, ⟨.listRecords, [(linkedService, linkedRecord .installReq false)]⟩)] ++
        (.left, ⟨.readRecord linkedService, some ⟨linkedRecord .installReq false, 1⟩⟩) ::
          (linkedStart.run (.inMemory .inserted) (linkedMoves.take 2)).log (.inMemory .inserted)
            (linkedMoves.drop 2))
      (linkedStart.run (.inMemory .inserted) linkedMoves) :=
    ⟨linkedMoves, by simp [linkedMoves], rfl, rfl⟩
  have hwrite : (linkedStart.run (.inMemory .inserted) linkedMoves).deed? (.inMemory .inserted)
      (.turn .left) =
        some (.left, ⟨.replaceRecord linkedService 2 (linkedRecord .installed true), true⟩) := rfl
  have hkept (i : Task.Side) (answer : Option ServiceRecord) :
      (i, ⟨.removeRecord linkedService, answer⟩) ∉
        (linkedStart.run (.inMemory .inserted) (linkedMoves.take 2)).log (.inMemory .inserted)
          (linkedMoves.drop 2) := by
    change _ ∉ ([(.right, ⟨.ensureRecord _, _⟩), (.right, ⟨.replaceRecord .., _⟩),
      (.left, ⟨.readRecord _, _⟩)] : Log Task.Side)
    simp
  have hi : linkedTasks .left = .event 3 5000 linkedIntent .installed := rfl
  refine ⟨hwrite, fun hatOnce => ?_⟩
  have hsame := (event_atomic_iff hbounded hi hcourse (by simp) hwrite hkept).2.mp hatOnce
  have hlinks := congrArg (·.1.links) hsame
  revert hlinks
  decide

end IntentPlane
