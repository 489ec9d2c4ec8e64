import IntentPlane.Proofs.Concurrent.Atomicity
import IntentPlane.Proofs.Lifecycle.Deletion
import IntentPlane.Proofs.Lifecycle.Update

/-!
# Reports of different keys commute

What a report does is decided by what is said of its key: the entry, the intent indexed and held,
and what the framework answers. It changes nothing said of another key, and adds no key to a record.
So a sequence of reports leads to a world that can be told key by key, from the reports of each key
in their order.
-/

namespace IntentPlane

variable {D : Deployment} {v v' w : World} {k : IntentKey} {n m : StatusReport}
  {ns ms : List StatusReport}

/-! ## What a report does -/

/-- A framework in memory does not change its mind for what it hears. -/
theorem Heard.reply_eq {e : Enumeration} {f g : Facilities} {es : List Exchange}
    (h : Heard (.inMemory e) f es g) : g.framework.reply = f.framework.reply := by
  induction h with
  | nil => rfl
  | resolve ha _ ih | heldIntents ha _ ih =>
    cases ha
    exact ih
  | submit ha _ ih =>
    cases ha
    exact ih.trans (Framework.reply_submit ..)
  | withdraw ha _ ih =>
    cases ha
    exact ih.trans (Framework.reply_withdraw ..)

/-- The wait for an answer does not decide which link is accepted. -/
theorem tries_limit {build? : CandidateLink → Option Intent}
    {reply : Intent → Except FrameworkError Submission} (l l' : UInt64)
    (links : List CandidateLink) :
    (tries l build? reply links).2 = (tries l' build? reply links).2 := by
  induction links with
  | nil => rfl
  | cons link links ih =>
    cases hb : build? link with
    | none => simpa only [tries, hb] using ih
    | some i =>
      cases hr : reply i with
      | ok a => simp only [tries, hb, hr]
      | error e => simpa only [tries, hb, hr] using ih

namespace StatusEvents

/-- The link that a failed intent goes on over, if the framework accepts one of those left. -/
def fallback? (intent : Intent) (status : IntentStatus)
    (reply : Intent → Except FrameworkError Submission) (links : List CandidateLink) :
    Option Acceptance :=
  if status = .failed then (tries 0 intent.rebuildOver? reply links).2 else none

/-- The entry that is written. -/
def nextEntry (intent : Intent) (status : IntentStatus) (links : List CandidateLink) :
    Option Acceptance → KeyStatus
  | some a => ⟨intent.key, a.submission.status, a.untried, false⟩
  | none => ⟨intent.key, status, if status = .failed then [] else links, intent.isCalculated⟩

theorem key_nextEntry (intent : Intent) (status : IntentStatus) (links : List CandidateLink)
    (a? : Option Acceptance) : (nextEntry intent status links a?).key = intent.key := by
  cases a? <;> rfl

theorem fallback?_eq {e : Enumeration} {limit : UInt64} {intent : Intent} {status : IntentStatus}
    {links : List CandidateLink} {t u : Facilities} {result : Except String Acceptance}
    {es : List Exchange} (hfailed : status = .failed)
    (h : Search (.inMemory e) limit intent.rebuildOver? "" links t result es u) :
    fallback? intent status t.framework.reply links = result.toOption := by
  rw [fallback?, if_pos hfailed, tries_limit 0 limit, h.tries_eq]

end StatusEvents

open StatusEvents (fallback? nextEntry)

/-- What a report does to a world in which a service owns its key, given the link that it falls back
to. -/
structure StatusReport.Takes (n : StatusReport) (a? : Option Acceptance) (w : World) (s : ServiceId)
    (r : ServiceRecord) (e : KeyStatus) (event : ServiceEvent) (v : World) : Prop where
  record : w.record s = some r
  entry : r.get? n.intent.key = some e
  fallback : a? = fallback? n.intent n.status w.framework.reply e.links
  written : v.record s = some (r.upsert (nextEntry n.intent n.status e.links a?))
  others : ∀ t, t ≠ s → v.record t = w.record t
  indexed : ∀ k, v.indexed k =
    if n.intent.key = k then (a?.map (·.intent)).or (w.indexed k) else w.indexed k
  held : ∀ k, v.framework.get? k =
    if n.intent.key = k then (a?.map (·.intent)).or (w.framework.get? k) else w.framework.get? k
  reply : v.framework.reply = w.framework.reply
  event : event = if a?.isSome then .submitForInstallation
    else (r.upsert (nextEntry n.intent n.status e.links a?)).aggregate n.intent.isCalculated

theorem World.record_upsert {z : Scene Facilities} {s : ServiceId} {r : ServiceRecord}
    (hz : ∀ t, z.record t = w.record t) (hr : w.record s = some r) (e : KeyStatus) :
    (z.upsert s e).world.record s = some (r.upsert e) ∧
      ∀ t, t ≠ s → (z.upsert s e).world.record t = w.record t := by
  constructor
  · refine (Scene.record_upsert ..).trans ?_
    rw [if_pos rfl, hz, hr, Option.getD_some]
  · intro t ht
    exact ((Scene.record_upsert ..).trans (if_neg ht.symm)).trans (hz t)

/-- A report of a key that no service owns does nothing, and any other does what its key decides. -/
theorem Deployment.handle_cases (D : Deployment) (n : StatusReport) (w : World) :
    ((∀ s, w.entry s n.intent.key = none) ∧ D.handle n w = (.ok none, w)) ∨
      ∃ a? s r e event v, D.handle n w = (.ok (some event), v) ∧ n.Takes a? w s r e event v := by
  obtain ⟨event, y, hrun, hhandled⟩ := StatusEvents.run_handle (.inMemory n.order) n.limit n.intent
    n.status w.scene D.retries_pos
  obtain ⟨hworld, hheard⟩ := Deployment.run_scene hrun
  cases hhandled with
  | unowned hnone => exact .inl ⟨hnone, hworld⟩
  | @recorded s r current next hr hcurrent hfailed hnext =>
    have hlinks (h : n.status = .failed) : current.links = [] := by
      by_contra hlinks
      exact hfailed ⟨h, hlinks⟩
    have hentry : next = nextEntry n.intent n.status current.links none := by
      rw [hnext, nextEntry, ← ServiceRecord.key_of_get? hcurrent]
      split
      next h => rw [← hlinks h]; rfl
      next => rfl
    have hfallback : none = fallback? n.intent n.status w.framework.reply current.links := by
      rw [fallback?]
      split
      next h => rw [hlinks h]; rfl
      next => rfl
    subst hentry
    obtain ⟨hwritten, hothers⟩ := World.record_upsert (z := w.scene) (fun _ => rfl) hr
      (nextEntry n.intent n.status current.links none)
    exact .inr ⟨none, s, r, current, _, _, hworld, hr, hcurrent, hfallback, hwritten, hothers,
      fun k => by simp; rfl, fun k => by simp; rfl, rfl, rfl⟩
  | @resubmitted s r current next a es u hr hcurrent hfailed hsearch hnext =>
    change Heard _ w.scene.outside es u at hheard
    have hentry : next = nextEntry n.intent n.status current.links (some a) := by
      rw [hnext, nextEntry, ← ServiceRecord.key_of_get? hcurrent]
      rfl
    subst hentry
    obtain ⟨hwritten, hothers⟩ := World.record_upsert
      (z := (w.scene.hear u es).setIndex n.intent.key a.intent) (fun _ => rfl) hr
      (nextEntry n.intent n.status current.links (some a))
    exact .inr ⟨some a, s, r, current, _, _, hworld, hr, hcurrent,
      (StatusEvents.fallback?_eq hfailed hsearch).symm, hwritten, hothers,
      fun k => w.scene.indexed_setIndex n.intent.key k a.intent,
      hsearch.held fun _ _ => StatusEvents.key_of_rebuildOver?, hheard.reply_eq, rfl⟩
  | @exhausted s r current next reason es u hr hcurrent hfailed hlinks hsearch hnext =>
    change Heard _ w.scene.outside es u at hheard
    have hentry : next = nextEntry n.intent n.status current.links none := by
      rw [hnext, nextEntry, ← ServiceRecord.key_of_get? hcurrent, if_pos hfailed]
      rfl
    subst hentry
    obtain ⟨hwritten, hothers⟩ := World.record_upsert (z := w.scene.hear u es) (fun _ => rfl) hr
      (nextEntry n.intent n.status current.links none)
    exact .inr ⟨none, s, r, current, _, _, hworld, hr, hcurrent,
      (StatusEvents.fallback?_eq hfailed hsearch).symm, hwritten, hothers,
      fun k => by simp; rfl, hsearch.held fun _ _ => StatusEvents.key_of_rebuildOver?,
      hheard.reply_eq, rfl⟩

/-! ## Key by key -/

/-- Two worlds say the same of a key, one service at most owns it, and the framework answers the
same. -/
structure World.AgreeAt (k : IntentKey) (v v' : World) : Prop where
  entry : ∀ s, v.entry s k = v'.entry s k
  indexed : v.indexed k = v'.indexed k
  held : v.framework.get? k = v'.framework.get? k
  reply : v.framework.reply = v'.framework.reply
  sole : ∀ s t, v.entry s k ≠ none → v.entry t k ≠ none → s = t

namespace World.AgreeAt

theorem refl (hw : w.scene.Orderly D.app) (k : IntentKey) : w.AgreeAt k w :=
  ⟨fun _ => rfl, rfl, rfl, rfl, fun _ _ hs ht => (hw.belongsTo hs).unique (hw.belongsTo ht)⟩

theorem symm (h : v.AgreeAt k v') : v'.AgreeAt k v where
  entry s := (h.entry s).symm
  indexed := h.indexed.symm
  held := h.held.symm
  reply := h.reply.symm
  sole s t hs ht := h.sole s t (by rwa [h.entry]) (by rwa [h.entry])

theorem trans {u : World} (h : u.AgreeAt k v) (h' : v.AgreeAt k w) : u.AgreeAt k w where
  entry s := (h.entry s).trans (h'.entry s)
  indexed := h.indexed.trans h'.indexed
  held := h.held.trans h'.held
  reply := h.reply.trans h'.reply
  sole := h.sole

end World.AgreeAt

namespace StatusReport.Takes

variable {a? : Option Acceptance} {s : ServiceId} {r : ServiceRecord} {e : KeyStatus}
  {event : ServiceEvent}

theorem entry_before (h : n.Takes a? w s r e event v) : w.entry s n.intent.key = some e :=
  Option.bind_eq_some_iff.mpr ⟨r, h.record, h.entry⟩

theorem entry_after (h : n.Takes a? w s r e event v) (t : ServiceId) (k : IntentKey) :
    v.entry t k = if s = t ∧ n.intent.key = k then some (nextEntry n.intent n.status e.links a?)
      else w.entry t k := by
  rw [World.entry]
  by_cases ht : s = t
  · subst ht
    rw [h.written, Option.bind_some, ServiceRecord.get?_upsert, StatusEvents.key_nextEntry,
      World.entry, h.record, Option.bind_some]
    simp
  · rw [h.others t (fun hts => ht hts.symm), if_neg fun hst => ht hst.1]
    rfl

/-- What is said of another key stays. -/
theorem agreeAt_of_ne (h : n.Takes a? w s r e event v) (hk : n.intent.key ≠ k)
    (hw : w.AgreeAt k w) : v.AgreeAt k w where
  entry t := by rw [h.entry_after, if_neg fun ht => hk ht.2]
  indexed := by rw [h.indexed, if_neg hk]
  held := by rw [h.held, if_neg hk]
  reply := h.reply
  sole t t' ht ht' := by
    rw [h.entry_after, if_neg fun hst => hk hst.2] at ht ht'
    exact hw.sole t t' ht ht'

end StatusReport.Takes

namespace Deployment

/-- Handles reports one after another. -/
def handleAll (D : Deployment) (ns : List StatusReport) (w : World) : World :=
  ns.foldl (fun w n => (D.handle n w).2) w

/-- A report of another key changes nothing said of a key. -/
theorem handle_of_ne (D : Deployment) (hk : n.intent.key ≠ k) (h : v.AgreeAt k v') :
    (D.handle n v).2.AgreeAt k v' := by
  rcases D.handle_cases n v with ⟨-, hrun⟩ | ⟨a?, s, r, e, event, u, hrun, htakes⟩
  · rwa [hrun]
  · rw [hrun]
    exact (htakes.agreeAt_of_ne hk (h.trans h.symm)).trans h

/-- Where two worlds say the same of the key of a report, the report is of no service in both, or of
the same service with the same entry, and falls back to the same link. -/
theorem handle_both (D : Deployment) (hintent : n.intent = m.intent) (hstatus : n.status = m.status)
    (h : v.AgreeAt n.intent.key v') :
    (D.handle n v = (.ok none, v) ∧ D.handle m v' = (.ok none, v')) ∨
      ∃ a? s r r' e event event' u u', D.handle n v = (.ok (some event), u) ∧
        D.handle m v' = (.ok (some event'), u') ∧ n.Takes a? v s r e event u ∧
        m.Takes a? v' s r' e event' u' := by
  rcases D.handle_cases n v with ⟨hnone, hrun⟩ | ⟨a?, s, r, e, event, u, hrun, htakes⟩
  · rcases D.handle_cases m v' with ⟨-, hrun'⟩ | ⟨a?', s', r', e', event', u', -, htakes'⟩
    · exact .inl ⟨hrun, hrun'⟩
    · have hentry := htakes'.entry_before
      rw [← hintent, ← h.entry, hnone] at hentry
      cases hentry
  have hentry := htakes.entry_before
  rcases D.handle_cases m v' with ⟨hnone', -⟩ | ⟨a?', s', r', e', event', u', hrun', htakes'⟩
  · rw [h.entry, hintent, hnone'] at hentry
    cases hentry
  have hentry' := htakes'.entry_before
  rw [← hintent, ← h.entry] at hentry'
  obtain rfl : s = s' := by
    refine h.sole s s' ?_ ?_
    · rw [hentry]
      exact Option.some_ne_none e
    · rw [hentry']
      exact Option.some_ne_none e'
  obtain rfl : e = e' := Option.some.inj (hentry.symm.trans hentry')
  obtain rfl : a? = a?' := by
    rw [htakes.fallback, htakes'.fallback, hintent, hstatus, h.reply]
  exact .inr ⟨a?, s, r, r', e, event, event', u, u', hrun, hrun', htakes, htakes'⟩

/-- Where two worlds say the same of the key of a report, they do so after it. -/
theorem handle_of_eq (D : Deployment) (hintent : n.intent = m.intent)
    (hstatus : n.status = m.status) (h : v.AgreeAt n.intent.key v') :
    (D.handle n v).2.AgreeAt n.intent.key (D.handle m v').2 := by
  rcases D.handle_both hintent hstatus h with
    ⟨hrun, hrun'⟩ | ⟨a?, s, r, r', e, event, event', u, u', hrun, hrun', htakes, htakes'⟩
  · rwa [hrun, hrun']
  rw [hrun, hrun']
  have hkey : m.intent.key = n.intent.key := by rw [hintent]
  refine ⟨fun t => ?_, ?_, ?_, ?_, fun t t' ht ht' => ?_⟩
  · rw [htakes.entry_after, htakes'.entry_after, hintent, hstatus, ← hintent, h.entry]
  · rw [htakes.indexed, htakes'.indexed, if_pos rfl, if_pos hkey, h.indexed]
  · rw [htakes.held, htakes'.held, if_pos rfl, if_pos hkey, h.held]
  · rw [htakes.reply, htakes'.reply, h.reply]
  · -- An entry is written where there was one.
    have hbefore (t : ServiceId) (ht : u.entry t n.intent.key ≠ none) :
        v.entry t n.intent.key ≠ none := by
      rw [htakes.entry_after] at ht
      split at ht
      next hst =>
        rw [← hst.1, htakes.entry_before]
        exact Option.some_ne_none e
      next => exact ht
    exact h.sole t t' (hbefore t ht) (hbefore t' ht')

/-- Reports that tell the same get the same answer where worlds say the same of their key, if they
lead to worlds that are alike. -/
theorem answer_eq (D : Deployment) (hintent : n.intent = m.intent) (hstatus : n.status = m.status)
    (h : v.AgreeAt n.intent.key v') (halike : (D.handle n v).2.Alike (D.handle m v').2) :
    (D.handle n v).1 = (D.handle m v').1 := by
  rcases D.handle_both hintent hstatus h with
    ⟨hrun, hrun'⟩ | ⟨a?, s, r, r', e, event, event', u, u', hrun, hrun', htakes, htakes'⟩
  · rw [hrun, hrun']
  rw [hrun, hrun'] at halike ⊢
  have hrecord := halike.record s
  rw [htakes.written, htakes'.written] at hrecord
  rw [htakes.event, htakes'.event, Option.some.inj hrecord, hintent]

/-- What is said of a key after reports is decided by those of the key. -/
theorem agreeAt_filter (D : Deployment) (ns : List StatusReport) (h : v.AgreeAt k v') :
    (D.handleAll ns v).AgreeAt k (D.handleAll (ns.filter (·.intent.key = k)) v') := by
  induction ns generalizing v v' with
  | nil => exact h
  | cons n ns ih =>
    by_cases hk : n.intent.key = k
    · rw [List.filter_cons_of_pos (by simpa using hk)]
      subst hk
      exact ih (D.handle_of_eq rfl rfl h)
    · rw [List.filter_cons_of_neg (by simpa using hk)]
      exact ih (D.handle_of_ne hk h)

/-- Reports of one key that tell the same lead to worlds that say the same of it. -/
theorem agreeAt_of_same (D : Deployment) (hkeys : ∀ n ∈ ns, n.intent.key = k)
    (hsame : ns.map (fun n => (n.intent, n.status)) = ms.map fun m => (m.intent, m.status))
    (h : v.AgreeAt k v') : (D.handleAll ns v).AgreeAt k (D.handleAll ms v') := by
  induction ns generalizing ms v v' with
  | nil =>
    obtain rfl := List.map_eq_nil_iff.mp hsame.symm
    exact h
  | cons n ns ih =>
    cases ms with
    | nil => cases hsame
    | cons m ms =>
      obtain ⟨hfirst, hrest⟩ := List.cons.inj hsame
      obtain ⟨hintent, hstatus⟩ := Prod.mk.inj hfirst
      obtain ⟨rfl, hkeys⟩ := List.forall_mem_cons.mp hkeys
      have hnext := D.handle_of_eq hintent hstatus h
      exact (ih hkeys hrest hnext :)

/-- What is said of a key after reports is decided by what those of the key tell, in their order. -/
theorem agreeAt_handleAll (D : Deployment)
    (hsame : (ns.filter (·.intent.key = k)).map (fun n => (n.intent, n.status)) =
      (ms.filter (·.intent.key = k)).map fun m => (m.intent, m.status))
    (h : w.AgreeAt k w) : (D.handleAll ns w).AgreeAt k (D.handleAll ms w) := by
  have hkeys : ∀ n ∈ ns.filter (·.intent.key = k), n.intent.key = k := by simp
  exact ((D.agreeAt_filter ns h).trans (D.agreeAt_of_same hkeys hsame h)).trans
    (D.agreeAt_filter ms h).symm

/-! ## The whole -/

theorem keys_handle (D : Deployment) (n : StatusReport) (w : World) (s : ServiceId) :
    ((D.handle n w).2.record s).map (·.keys) = (w.record s).map (·.keys) := by
  rcases D.handle_cases n w with ⟨-, hrun⟩ | ⟨a?, t, r, e, event, v, hrun, htakes⟩
  · rw [hrun]
  · rw [hrun]
    by_cases hs : s = t
    · have hmem : n.intent.key ∈ r.keys :=
        ServiceRecord.contains_iff.mp (ServiceRecord.contains_of_get? htakes.entry)
      rw [hs, htakes.written, htakes.record, Option.map_some, Option.map_some,
        ServiceRecord.keys_upsert, StatusEvents.key_nextEntry, if_pos hmem]
    · rw [htakes.others s hs]

/-- Reports add no key to a record. -/
theorem keys_handleAll (D : Deployment) (ns : List StatusReport) (w : World) (s : ServiceId) :
    ((D.handleAll ns w).record s).map (·.keys) = (w.record s).map (·.keys) := by
  induction ns generalizing w with
  | nil => rfl
  | cons n ns ih => exact (ih _).trans (D.keys_handle n w s)

theorem handleAll_append (D : Deployment) (ns ms : List StatusReport) (w : World) :
    D.handleAll (ns ++ ms) w = D.handleAll ms (D.handleAll ns w) := List.foldl_append ..

theorem getLast?_answers (D : Deployment) (ns : List StatusReport) (n : StatusReport) (w : World) :
    (D.answers (ns ++ [n]) w).getLast? = some (D.handle n (D.handleAll ns w)).1 := by
  induction ns generalizing w with
  | nil => rfl
  | cons m ns ih =>
    change ((D.handle m w).1 :: D.answers (ns ++ [n]) (D.handle m w).2).getLast? = _
    rw [List.getLast?_cons, ih]
    rfl

end Deployment

/-- Worlds that say the same of every key, and whose records have the same keys, are alike. -/
theorem World.alike_of_agreeAt (hagree : ∀ k, v.AgreeAt k v')
    (hkeys : ∀ s, (v.record s).map (·.keys) = (v'.record s).map (·.keys))
    (hnodup : ∀ s r, v.record s = some r → r.keys.Nodup) : v.Alike v' := by
  refine ⟨fun s => ?_, fun k => (hagree k).indexed, fun k => (hagree k).held⟩
  have hs := hkeys s
  have hentry (k : IntentKey) : (v.record s).bind (·.get? k) = (v'.record s).bind (·.get? k) :=
    (hagree k).entry s
  cases hr : v.record s with
  | none =>
    rw [hr] at hs
    exact (Option.map_eq_none_iff.mp hs.symm).symm
  | some r =>
    rw [hr] at hs hentry
    obtain ⟨r', hr', hsame⟩ := Option.map_eq_some_iff.mp hs.symm
    rw [hr', ServiceRecord.ext_get? (hnodup s r hr) hsame fun k => ?_]
    have hk := hentry k
    rw [hr'] at hk
    exact hk.symm

theorem Deployment.Reaches.agreeAt (hw : D.Reaches w) (k : IntentKey) : w.AgreeAt k w :=
  .refl hw.orderly k

theorem Deployment.Reaches.alike_handleAll (hw : D.Reaches w)
    (hsame : ∀ k, (ns.filter (·.intent.key = k)).map (fun n => (n.intent, n.status)) =
      (ms.filter (·.intent.key = k)).map fun m => (m.intent, m.status)) :
    (D.handleAll ns w).Alike (D.handleAll ms w) := by
  refine World.alike_of_agreeAt (fun k => D.agreeAt_handleAll (hsame k) (hw.agreeAt k))
    (fun s => ?_) fun s r hr => ?_
  · rw [D.keys_handleAll, D.keys_handleAll]
  · have hkeys := D.keys_handleAll ns w s
    rw [hr] at hkeys
    obtain ⟨q, hq, hqr⟩ := Option.map_eq_some_iff.mp hkeys.symm
    have hnodup : q.keys.Nodup := (hw.orderly s q hq).nodup
    rwa [hqr] at hnodup

/-- Reports of different keys commute. In every world that operations lead to, sequences that tell
the same of each key in the same order lead to the same records, index and held intents, and if
their last reports tell the same, these get the same answer. -/
theorem events_commute (hw : D.Reaches w)
    (hsame : ∀ k, (ns.filter (·.intent.key = k)).map (fun n => (n.intent, n.status)) =
      (ms.filter (·.intent.key = k)).map fun m => (m.intent, m.status)) :
    (D.handleAll ns w).Alike (D.handleAll ms w) ∧
      ∀ n m, ns.getLast? = some n → ms.getLast? = some m → n.intent = m.intent →
        n.status = m.status → (D.answers ns w).getLast? = (D.answers ms w).getLast? := by
  have halike := hw.alike_handleAll hsame
  refine ⟨halike, ?_⟩
  intro n m hn hm hintent hstatus
  obtain ⟨ns, rfl⟩ := List.getLast?_eq_some_iff.mp hn
  obtain ⟨ms, rfl⟩ := List.getLast?_eq_some_iff.mp hm
  rw [D.getLast?_answers, D.getLast?_answers]
  rw [D.handleAll_append, D.handleAll_append] at halike
  -- Without their last reports the sequences still tell the same of the key of these.
  have hbefore := hsame n.intent.key
  have hkey : m.intent.key = n.intent.key := by rw [hintent]
  rw [List.filter_append, List.filter_append, List.filter_cons_of_pos (by simp),
    List.filter_cons_of_pos (by simp [hkey]), List.filter_nil, List.map_append, List.map_append,
    List.map_singleton, List.map_singleton] at hbefore
  have hagree := D.agreeAt_handleAll (List.append_inj_left' hbefore rfl) (hw.agreeAt n.intent.key)
  exact congrArg some (D.answer_eq hintent hstatus hagree halike)

/-! Both legs of a connection have a link left. One leg fails and falls back to it before the other
is installed, or after that. -/

theorem connection_reports_commute :
    let w := pathDeployment.after connectionCreated .empty
    let ns := [connectionReport 1 .failed, connectionReport 2 .installed,
      connectionReport 1 .installed]
    let ms := [connectionReport 2 .installed, connectionReport 1 .failed,
      connectionReport 1 .installed]
    (pathDeployment.handleAll ns w).Alike (pathDeployment.handleAll ms w) ∧
      (pathDeployment.answers ns w).getLast? = (pathDeployment.answers ms w).getLast? := by
  intro w ns ms
  have hw : pathDeployment.Reaches w := ⟨connectionCreated, rfl⟩
  have hsame : ∀ k, (ns.filter (·.intent.key = k)).map (fun n => (n.intent, n.status)) =
      (ms.filter (·.intent.key = k)).map fun m => (m.intent, m.status) := by
    intro k
    by_cases h₁ : connectionKey 1 = k
    · subst h₁
      decide +kernel
    · by_cases h₂ : connectionKey 2 = k
      · subst h₂
        decide +kernel
      · simp [ns, ms, connectionReport, h₁, h₂]
  obtain ⟨halike, hanswer⟩ := events_commute hw hsame
  exact ⟨halike, hanswer _ _ rfl rfl rfl rfl⟩

end IntentPlane
