import IntentPlane.Proofs.InMemory
import IntentPlane.Proofs.Recovery.Exactness
import IntentPlane.Recovery.Loop

/-!
# Batches of events

An intent that was submitted again has no path left, so no failure hits it until it is computed
anew. What a batch does to the framework is told key by key, and two batches one after the other do
what one batch of all their events does. So it does not matter where the event loop cuts the events,
and the loop loses none of them.
-/

namespace IntentPlane

/-- A program comes to its end in a world where lists come in any order, each time anew. -/
inductive Program.Ends : Program α → World → α → World → Prop where
  | done {a : α} {w : World} : Ends (.done a) w a w
  | ask {access : Access} {next : access.Answer → Program α} {w w' : World} {a : α}
      (e : Enumeration) :
      Ends (next (World.answerIn e access w).1) (World.answerIn e access w).2 a w' →
      Ends (.ask access next) w a w'

namespace Program

variable {w w' : World} {a : α} {b : β}

theorem ends_done {a' : α} : (done a).Ends w a' w' ↔ a' = a ∧ w' = w := by
  constructor
  · intro h
    cases h
    exact ⟨rfl, rfl⟩
  · rintro ⟨rfl, rfl⟩
    exact .done

theorem ends_bind {p : Program α} {f : α → Program β} :
    (p >>= f).Ends w b w' ↔ ∃ a v, p.Ends w a v ∧ (f a).Ends v b w' := by
  constructor
  · intro h
    induction p generalizing w with
    | done a => exact ⟨a, w, .done, h⟩
    | ask access next ih =>
      cases h with
      | ask e h =>
        obtain ⟨a, v, hnext, hf⟩ := ih _ h
        exact ⟨a, v, .ask e hnext, hf⟩
  · rintro ⟨a, v, h, hf⟩
    induction h with
    | done => exact hf
    | ask e _ ih => exact .ask e (ih hf)

theorem ends_access {access : Access} {answer : access.Answer} :
    (ask access done).Ends w answer w' ↔ ∃ e, (answer, w') = World.answerIn e access w := by
  constructor
  · intro h
    cases h with
    | ask e h =>
      cases h
      exact ⟨e, rfl⟩
  · rintro ⟨e, h⟩
    refine .ask e ?_
    rw [← h]
    exact .done

/-- Running alone with one order is one way to come to an end. -/
theorem ends_run (e : Enumeration) (p : Program α) (w : World) :
    p.Ends w (p.run (World.answerIn e) w).1 (p.run (World.answerIn e) w).2 := by
  induction p generalizing w with
  | done => exact .done
  | ask access next ih => exact .ask e (ih _ _)

end Program

namespace Recovery

variable {events more : List TopologyEvent} {is : List Intent} {i : Intent} {k : IntentKey}
  {limit : UInt64} {v w w' : World} {report : RecoveryReport}
  {answers : List (IntentKey × Except FrameworkError Submission)}

/-! ## What events break -/

def breaks (events : List TopologyEvent) (i : Intent) : Bool :=
  isBroken (events.filterMap (·.failure?)) i

theorem breaks_iff : breaks events i ↔ Hit events i := isBroken_iff

theorem breaks_append (events more : List TopologyEvent) (i : Intent) :
    breaks (events ++ more) i = (breaks events i || breaks more i) := by
  simp only [breaks, isBroken, List.filterMap_append, List.any_append]
  cases i.path? <;> rfl

@[simp] theorem breaks_nil (i : Intent) : breaks [] i = false := by
  simp [breaks, isBroken]

/-- Nothing breaks an intent without paths. -/
@[simp] theorem breaks_forRecomputation (events : List TopologyEvent) (i : Intent) :
    breaks events i.forRecomputation = false := by
  obtain ⟨key, selector, cs, priority, payload⟩ := i
  cases payload with
  | connectivity => rfl
  | pathAware p =>
    exact List.any_eq_false.mpr fun _ _ => by simp [PathIntent.uses, PathIntent.cleared]

/-- What is held in place of an intent after events: the same with its paths cleared, if the events
break it and its key is not rejected. -/
def mend (rejected : List IntentKey) (events : List TopologyEvent) (i : Intent) : Intent :=
  if breaks events i ∧ i.key ∉ rejected then i.forRecomputation else i

theorem mend_mend (rejected : List IntentKey) (events more : List TopologyEvent) (i : Intent) :
    mend rejected more (mend rejected events i) = mend rejected (events ++ more) i := by
  unfold mend
  rw [breaks_append]
  by_cases hi : breaks events i ∧ i.key ∉ rejected
  · simp [hi]
  · rw [if_neg hi]
    by_cases hkey : i.key ∈ rejected
    · simp [hkey]
    · have hbreaks : breaks events i = false := by simpa [hkey] using hi
      simp [hbreaks]

/-- What events do to a world once they were handled: only the framework changes, an intent that the
events break is mended, and submitted once for it unless its key is rejected. -/
structure Mended (events : List TopologyEvent) (w w' : World) : Prop where
  registry : w'.registry = w.registry
  records : w'.records = w.records
  index : w'.index = w.index
  rejected : w'.framework.rejected = w.framework.rejected
  negotiating : w'.framework.negotiating = w.framework.negotiating
  held : ∀ k, w'.framework.get? k =
    (w.framework.get? k).map (mend w.framework.rejected events)
  once : ∀ k i, w.framework.get? k = some i → breaks events i → k ∉ w.framework.rejected →
    w'.framework.submissionCount k = w.framework.submissionCount k + 1
  spared : ∀ k, (∀ i, w.framework.get? k = some i → breaks events i = false) →
    w'.framework.submissionCount k = w.framework.submissionCount k

theorem Mended.refl (w : World) : Mended [] w w where
  registry := rfl
  records := rfl
  index := rfl
  rejected := rfl
  negotiating := rfl
  held k := by
    have hmend (i : Intent) : mend w.framework.rejected [] i = i := by simp [mend]
    cases w.framework.get? k with
    | none => rfl
    | some i => rw [Option.map_some, hmend]
  once k i _ hbreaks := by simp at hbreaks
  spared _ _ := rfl

theorem Mended.held_some (h : Mended events w w') (hheld : w.framework.get? k = some i) :
    w'.framework.get? k = some (mend w.framework.rejected events i) := by
  rw [h.held, hheld, Option.map_some]

/-- What one batch does and then another is what both do together. -/
theorem Mended.trans (h : Mended events w v) (h' : Mended more v w') :
    Mended (events ++ more) w w' where
  registry := h'.registry.trans h.registry
  records := h'.records.trans h.records
  index := h'.index.trans h.index
  rejected := h'.rejected.trans h.rejected
  negotiating := h'.negotiating.trans h.negotiating
  held k := by
    rw [h'.held, h.held, h.rejected, Option.map_map]
    congr 1
    funext i
    exact mend_mend ..
  once k i hheld hbreaks hk := by
    have hkey : i.key ∉ w.framework.rejected := by rwa [Framework.key_of_get? hheld]
    have hv := h.held_some hheld
    rw [breaks_append, Bool.or_eq_true] at hbreaks
    by_cases hfirst : breaks events i = true
    · -- The first batch leaves the intent without a path when the second comes.
      rw [mend, if_pos ⟨hfirst, hkey⟩] at hv
      rw [h'.spared k fun j hj => ?_, h.once k i hheld hfirst hk]
      rw [Option.some.inj (hj.symm.trans hv), breaks_forRecomputation]
    · rw [mend, if_neg fun hbroken => hfirst hbroken.1] at hv
      rw [h'.once k i hv (hbreaks.resolve_left hfirst) (h.rejected ▸ hk), h.spared k fun j hj => ?_]
      rw [Option.some.inj (hj.symm.trans hheld)]
      simpa using hfirst
  spared k hspared := by
    have hboth (i : Intent) (hheld : w.framework.get? k = some i) :
        breaks events i = false ∧ breaks more i = false := by
      simpa [breaks_append] using hspared i hheld
    rw [h'.spared k fun j hj => ?_, h.spared k fun i hi => (hboth i hi).1]
    rw [h.held, Option.map_eq_some_iff] at hj
    obtain ⟨i, hi, rfl⟩ := hj
    rw [mend, if_neg fun hbroken => by simp [(hboth i hi).1] at hbroken]
    exact (hboth i hi).2

/-! ## What a batch does -/

/-- The framework after intents are submitted to it again. -/
def resubmitAll (f : Framework) (is : List Intent) : Framework :=
  is.foldl (fun f i => (f.submit i.forRecomputation).2) f

theorem ends_resubmitAll (h : (is.mapM (resubmit limit)).Ends w answers w') :
    w' = { w with framework := resubmitAll w.framework is } ∧
      ∀ k a, (k, .ok a) ∈ answers → k ∉ w.framework.rejected ∧ ∃ i ∈ is, i.key = k := by
  induction is generalizing w answers with
  | nil =>
    rw [List.mapM_nil] at h
    obtain ⟨rfl, rfl⟩ := Program.ends_done.mp h
    exact ⟨rfl, fun _ _ hmem => by cases hmem⟩
  | cons i is ih =>
    rw [List.mapM_cons] at h
    obtain ⟨a, v, hi, h⟩ := Program.ends_bind.mp h
    obtain ⟨rest, v', hrest, h⟩ := Program.ends_bind.mp h
    obtain ⟨rfl, rfl⟩ := Program.ends_done.mp h
    obtain ⟨answer, u, hsubmit, hi⟩ := Program.ends_bind.mp hi
    obtain ⟨rfl, rfl⟩ := Program.ends_done.mp hi
    obtain ⟨e, hanswer⟩ := Program.ends_access.mp hsubmit
    obtain ⟨rfl, rfl⟩ := Prod.mk.inj hanswer
    obtain ⟨rfl, hanswers⟩ := ih hrest
    refine ⟨rfl, fun k a hmem => ?_⟩
    rcases List.mem_cons.mp hmem with heq | hmem
    · obtain ⟨rfl, hok⟩ := Prod.mk.inj heq
      refine ⟨fun hrejected => ?_, i, .head _, rfl⟩
      change .ok a = (w.framework.submit i.forRecomputation).1 at hok
      rw [Framework.submit_rejected (by simpa using hrejected)] at hok
      cases hok
    · obtain ⟨hk, j, hj, hkey⟩ := hanswers k a hmem
      refine ⟨fun hrejected => hk ?_, j, .tail _ hj, hkey⟩
      change k ∈ (w.framework.submit i.forRecomputation).2.rejected
      rwa [Framework.rejected_submit]

section Framework

variable (f : Framework)

theorem resubmitAll_cons : resubmitAll f (i :: is) =
    resubmitAll (f.submit i.forRecomputation).2 is := rfl

@[simp] theorem rejected_resubmitAll (is : List Intent) :
    (resubmitAll f is).rejected = f.rejected := by
  induction is generalizing f with
  | nil => rfl
  | cons i is ih => rw [resubmitAll_cons, ih, Framework.rejected_submit]

@[simp] theorem negotiating_resubmitAll (is : List Intent) :
    (resubmitAll f is).negotiating = f.negotiating := by
  induction is generalizing f with
  | nil => rfl
  | cons i is ih => rw [resubmitAll_cons, ih, Framework.negotiating_submit]

variable {f}

/-- A key that nothing is submitted under is left alone. -/
theorem resubmitAll_of_notMem (h : ∀ i ∈ is, i.key ≠ k) :
    (resubmitAll f is).get? k = f.get? k ∧
      (resubmitAll f is).submissionCount k = f.submissionCount k := by
  induction is generalizing f with
  | nil => exact ⟨rfl, rfl⟩
  | cons i is ih =>
    obtain ⟨hi, his⟩ := List.forall_mem_cons.mp h
    obtain ⟨hget, hcount⟩ := ih (f := (f.submit i.forRecomputation).2) his
    rw [resubmitAll_cons, hget, hcount, Framework.get?_submit, Framework.submissionCount_submit]
    simp [hi]

/-- An intent is taken once, unless its key is rejected. -/
theorem resubmitAll_of_mem (hnodup : (is.map (·.key)).Nodup) (hi : i ∈ is) :
    (resubmitAll f is).get? i.key =
        (if i.key ∈ f.rejected then f.get? i.key else some i.forRecomputation) ∧
      (resubmitAll f is).submissionCount i.key = f.submissionCount i.key + 1 := by
  induction is generalizing f with
  | nil => cases hi
  | cons j is ih =>
    obtain ⟨hj, hnodup⟩ := List.nodup_cons.mp hnodup
    rw [resubmitAll_cons]
    rcases List.mem_cons.mp hi with rfl | hi
    · have hrest : ∀ m ∈ is, m.key ≠ i.key := fun m hm heq => hj (List.mem_map.mpr ⟨m, hm, heq⟩)
      obtain ⟨hget, hcount⟩ := resubmitAll_of_notMem (f := (f.submit i.forRecomputation).2) hrest
      rw [hget, hcount, Framework.get?_submit, Framework.submissionCount_submit]
      by_cases hrejected : i.key ∈ f.rejected <;> simp [hrejected]
    · have hne : j.key ≠ i.key := fun heq => hj (List.mem_map.mpr ⟨i, hi, heq.symm⟩)
      obtain ⟨hget, hcount⟩ := ih (f := (f.submit j.forRecomputation).2) hnodup hi
      rw [hget, hcount, Framework.get?_submit, Framework.submissionCount_submit]
      simp [hne]

end Framework

/-- A batch submits again what is broken of what is held. -/
theorem ends_handle (h : (handle limit events).Ends w report w') :
    ∃ snapshot, snapshot.Perm w.framework.held.values ∧
      w' = { w with
        framework := resubmitAll w.framework
          (affected (events.filterMap (·.failure?)) snapshot) } ∧
      ∀ k ∈ report.resubmitted, k ∉ w.framework.rejected ∧
        ∃ i ∈ affected (events.filterMap (·.failure?)) snapshot, i.key = k := by
  rw [handle] at h
  split at h
  next hnone =>
    obtain ⟨rfl, rfl⟩ := Program.ends_done.mp h
    rw [List.isEmpty_iff.mp hnone]
    have hnothing : affected [] w'.framework.held.values = [] := by
      simp [affected, isBroken, distinct, List.filter_eq_nil_iff.mpr]
    exact ⟨_, .refl _, by rw [hnothing]; rfl, fun k hk => by cases hk⟩
  next =>
    obtain ⟨snapshot, v, hlook, h⟩ := Program.ends_bind.mp h
    obtain ⟨e, hsnapshot⟩ := Program.ends_access.mp hlook
    obtain ⟨rfl, rfl⟩ := Prod.mk.inj hsnapshot
    obtain ⟨answers, u, hanswers, h⟩ := Program.ends_bind.mp h
    obtain ⟨rfl, rfl⟩ := Program.ends_done.mp h
    obtain ⟨rfl, hok⟩ := ends_resubmitAll hanswers
    refine ⟨_, e.held_perm _, rfl, fun k hk => ?_⟩
    obtain ⟨a, hmem⟩ := mem_resubmitted.mp hk
    exact hok k a hmem

/-- In a snapshot of what is held an intent is affected just if the events break it. -/
theorem mem_affected_held {snapshot : List Intent} (h : snapshot.Perm w.framework.held.values) :
    i ∈ affected (events.filterMap (·.failure?)) snapshot ↔
      w.framework.get? i.key = some i ∧ breaks events i := by
  have hmem (j : Intent) : j ∈ snapshot ↔ w.framework.get? j.key = some j := by
    rw [h.mem_iff, Framework.mem_values]
  rw [mem_affected_iff, breaks_iff]
  constructor
  · intro hfirst
    exact ⟨(hmem i).mp hfirst.mem, hfirst.hit⟩
  · rintro ⟨hheld, hhit⟩
    obtain ⟨j, hfirst, hkey⟩ := exists_firstHit ((hmem i).mpr hheld) hhit
    have hj := (hmem j).mp hfirst.mem
    rw [hkey, hheld] at hj
    exact Option.some.inj hj ▸ hfirst

/-- Under a key there is an intent that is affected, or what is held there is not broken. -/
theorem affected_or_spared (events : List TopologyEvent) {snapshot : List Intent}
    (h : snapshot.Perm w.framework.held.values) (k : IntentKey) :
    (∃ i ∈ affected (events.filterMap (·.failure?)) snapshot, i.key = k ∧
        w.framework.get? k = some i ∧ breaks events i) ∨
      (∀ i ∈ affected (events.filterMap (·.failure?)) snapshot, i.key ≠ k) ∧
        ∀ i, w.framework.get? k = some i → breaks events i = false := by
  by_cases hall : ∃ i ∈ affected (events.filterMap (·.failure?)) snapshot, i.key = k
  · obtain ⟨i, hi, rfl⟩ := hall
    obtain ⟨hheld, hbreaks⟩ := (mem_affected_held h).mp hi
    exact .inl ⟨i, hi, rfl, hheld, hbreaks⟩
  · refine .inr ⟨fun i hi heq => hall ⟨i, hi, heq⟩, fun i hheld => ?_⟩
    by_contra hbreaks
    obtain rfl := Framework.key_of_get? hheld
    exact hall ⟨i, (mem_affected_held h).mpr ⟨hheld, by simpa using hbreaks⟩, rfl⟩

/-- A batch mends what its events break. -/
theorem mended_of_ends (h : (handle limit events).Ends w report w') : Mended events w w' := by
  obtain ⟨snapshot, hsnapshot, rfl, -⟩ := ends_handle h
  have hnodup := nodup_keys_distinct (snapshot.filter (isBroken (events.filterMap (·.failure?))))
  have hkeys := affected_or_spared events hsnapshot
  refine ⟨rfl, rfl, rfl, rejected_resubmitAll .., negotiating_resubmitAll .., fun k => ?_,
    fun k i hheld hbreaks _ => ?_, fun k hspared => ?_⟩
  · rcases hkeys k with ⟨i, hi, rfl, hheld, hbreaks⟩ | ⟨hnone, hspared⟩
    · refine (resubmitAll_of_mem hnodup hi).1.trans ?_
      rw [hheld, Option.map_some, mend, hbreaks]
      by_cases hrejected : i.key ∈ w.framework.rejected <;> simp [hrejected]
    · refine (resubmitAll_of_notMem hnone).1.trans ?_
      cases hheld : w.framework.get? k with
      | none => rfl
      | some i => simp [mend, hspared i hheld]
  · obtain rfl := Framework.key_of_get? hheld
    exact (resubmitAll_of_mem hnodup ((mem_affected_held hsnapshot).mpr ⟨hheld, hbreaks⟩)).2
  · rcases hkeys k with ⟨i, -, -, hheld, hbreaks⟩ | ⟨hnone, -⟩
    · simp [hspared i hheld] at hbreaks
    · exact (resubmitAll_of_notMem hnone).2

/-- Nothing is resubmitted with success where everything broken is rejected. -/
theorem resubmitted_eq_nil (h : (handle limit events).Ends w report w')
    (hspared : ∀ k i, w.framework.get? k = some i → breaks events i → k ∈ w.framework.rejected) :
    report.resubmitted = [] := by
  obtain ⟨snapshot, hsnapshot, -, hok⟩ := ends_handle h
  refine List.eq_nil_iff_forall_not_mem.mpr fun k hk => ?_
  obtain ⟨hrejected, i, hi, rfl⟩ := hok k hk
  obtain ⟨hheld, hbreaks⟩ := (mem_affected_held hsnapshot).mp hi
  exact hrejected (hspared _ i hheld hbreaks)

end Recovery

end IntentPlane
