import IntentPlane.Proofs.Keys
import IntentPlane.Proofs.Recovery
import IntentPlane.Recovery.Pool
import Mathlib.Data.List.Perm.Basic

/-!
# Recovery submits what is broken, once a key

What the events of a batch take down is told by the events themselves, and an intent is hit if its
path or its backup crosses something that is down. Whatever the number of workers and however the
framework answers, recovery submits exactly the intents of its snapshot that are hit, the first of
each key, and its report tells how each of them was answered.
-/

namespace IntentPlane.Recovery

/-- The events report the link removed, or inactive. -/
def LinkDown (events : List TopologyEvent) (l : Link) : Prop :=
  .linkRemoved l ∈ events ∨ .linkUpdated l ∈ events ∧ l.state = .inactive

/-- The events report the device removed, or unavailable. -/
def DeviceDown (events : List TopologyEvent) (d : DeviceId) : Prop :=
  .deviceRemoved d ∈ events ∨ .deviceAvailability d false ∈ events

/-- A path over the link is broken: a link between the same points is down, in whatever state it is
reported, or a device at one of its ends. -/
def Severed (events : List TopologyEvent) (l : Link) : Prop :=
  (∃ down, LinkDown events down ∧ down.src = l.src ∧ down.dst = l.dst) ∨
    ∃ d, DeviceDown events d ∧ (l.src.device = d ∨ l.dst.device = d)

/-- The path of the intent or its backup crosses a link that is severed. -/
def Hit (events : List TopologyEvent) (i : Intent) : Prop :=
  ∃ p path, i.payload = .pathAware p ∧ (p.path = some path ∨ p.backup = some path) ∧
    ∃ l ∈ path.links, Severed events l

/-- The intent is hit, and is the first of its key in the snapshot that is. -/
def FirstHit (events : List TopologyEvent) (snapshot : List Intent) (i : Intent) : Prop :=
  ∃ before after, snapshot = before ++ i :: after ∧ Hit events i ∧
    ∀ j ∈ before, Hit events j → j.key ≠ i.key

variable {events : List TopologyEvent} {snapshot is : List Intent} {i j : Intent} {l : Link}
  {k : IntentKey} {limit : UInt64}

/-! ## What is affected -/

theorem mem_failures_link :
    .link l ∈ events.filterMap (·.failure?) ↔ LinkDown events l := by
  rw [List.mem_filterMap]
  constructor
  · rintro ⟨event, hevent, h⟩
    cases event with
    | linkRemoved =>
      cases h
      exact .inl hevent
    | linkUpdated m =>
      rw [TopologyEvent.failure?] at h
      split at h
      next hstate =>
        cases h
        exact .inr ⟨hevent, hstate⟩
      next => cases h
    | deviceAvailability _ available => cases available <;> cases h
    | linkAdded | deviceAdded | deviceRemoved => cases h
  · rintro (hevent | ⟨hevent, hstate⟩)
    · exact ⟨_, hevent, rfl⟩
    · exact ⟨_, hevent, if_pos hstate⟩

theorem mem_failures_device {d : DeviceId} :
    .device d ∈ events.filterMap (·.failure?) ↔ DeviceDown events d := by
  rw [List.mem_filterMap]
  constructor
  · rintro ⟨event, hevent, h⟩
    cases event with
    | deviceRemoved =>
      cases h
      exact .inl hevent
    | deviceAvailability _ available =>
      cases available with
      | false =>
        cases h
        exact .inr hevent
      | true => cases h
    | linkUpdated m =>
      rw [TopologyEvent.failure?] at h
      split at h <;> cases h
    | linkAdded | linkRemoved | deviceAdded => cases h
  · rintro (hevent | hevent)
    · exact ⟨_, hevent, rfl⟩
    · exact ⟨_, hevent, rfl⟩

theorem any_breaks_iff :
    (∃ failure ∈ events.filterMap (·.failure?), failure.breaks l) ↔ Severed events l := by
  constructor
  · rintro ⟨failure, hmem, hbreaks⟩
    cases failure with
    | link down =>
      refine .inl ⟨down, mem_failures_link.mp hmem, ?_⟩
      simpa [Failure.breaks, (· == ·)] using hbreaks
    | device d =>
      refine .inr ⟨d, mem_failures_device.mp hmem, ?_⟩
      simpa [Failure.breaks, Link.touches] using hbreaks
  · rintro (⟨down, hdown, hends⟩ | ⟨d, hdown, hends⟩)
    · refine ⟨.link down, mem_failures_link.mpr hdown, ?_⟩
      simpa [Failure.breaks, (· == ·)] using hends
    · refine ⟨.device d, mem_failures_device.mpr hdown, ?_⟩
      simpa [Failure.breaks, Link.touches] using hends

theorem uses_iff {p : PathIntent} {property : Link → Bool} :
    p.uses property ↔
      ∃ path, (p.path = some path ∨ p.backup = some path) ∧ ∃ l ∈ path.links, property l := by
  simp only [PathIntent.uses, List.any_cons, List.any_nil, Bool.or_false, Bool.or_eq_true,
    Option.any_eq_true, List.any_eq_true]
  grind

theorem path?_eq_some {p : PathIntent} : i.path? = some p ↔ i.payload = .pathAware p := by
  rw [Intent.path?]
  cases i.payload <;> simp

theorem isBroken_iff : isBroken (events.filterMap (·.failure?)) i ↔ Hit events i := by
  rw [isBroken, Option.any_eq_true]
  constructor
  · rintro ⟨p, hp, hbroken⟩
    obtain ⟨failure, hmem, huses⟩ := List.any_eq_true.mp hbroken
    obtain ⟨path, hpath, l, hl, hbreaks⟩ := uses_iff.mp huses
    exact ⟨p, path, path?_eq_some.mp hp, hpath, l, hl, any_breaks_iff.mp ⟨failure, hmem, hbreaks⟩⟩
  · rintro ⟨p, path, hp, hpath, l, hl, hsevered⟩
    obtain ⟨failure, hmem, hbreaks⟩ := any_breaks_iff.mpr hsevered
    refine ⟨p, path?_eq_some.mpr hp, List.any_eq_true.mpr ⟨failure, hmem, ?_⟩⟩
    exact uses_iff.mpr ⟨path, hpath, l, hl, hbreaks⟩

/-- An intent that is taken comes first in a list as its head, or later if the head is none that is
taken under its key. -/
theorem first_cons {taken : Intent → Bool} :
    (∃ before after, j :: is = before ++ i :: after ∧ taken i ∧
        ∀ m ∈ before, taken m → m.key ≠ i.key) ↔
      (i = j ∧ taken j) ∨ (taken j → j.key ≠ i.key) ∧ ∃ before after, is = before ++ i :: after ∧
        taken i ∧ ∀ m ∈ before, taken m → m.key ≠ i.key := by
  constructor
  · rintro ⟨before, after, his, hi, hbefore⟩
    cases before with
    | nil =>
      obtain ⟨rfl, -⟩ := List.cons.inj his
      exact .inl ⟨rfl, hi⟩
    | cons m before =>
      obtain ⟨rfl, rfl⟩ := List.cons.inj his
      obtain ⟨hm, hbefore⟩ := List.forall_mem_cons.mp hbefore
      exact .inr ⟨hm, before, after, rfl, hi, hbefore⟩
  · rintro (⟨rfl, hi⟩ | ⟨hj, before, after, rfl, hi, hbefore⟩)
    · exact ⟨[], is, rfl, hi, List.forall_mem_nil _⟩
    · exact ⟨j :: before, after, rfl, hi, List.forall_mem_cons.mpr ⟨hj, hbefore⟩⟩

/-- Of the intents that are taken, the first of each key is kept. -/
theorem mem_distinct_filter (taken : Intent → Bool) :
    i ∈ distinct (is.filter taken) ↔
      ∃ before after, is = before ++ i :: after ∧ taken i ∧
        ∀ m ∈ before, taken m → m.key ≠ i.key := by
  -- The head takes its key from the rest, so the induction is for all that may be taken.
  induction is generalizing taken with
  | nil => simp [distinct]
  | cons j is ih =>
    rw [first_cons]
    by_cases hj : taken j
    · rw [List.filter_cons_of_pos hj, distinct, List.eraseDupsBy_cons, List.mem_cons,
        List.filter_filter]
      change i = j ∨ i ∈ distinct _ ↔ _
      rw [ih]
      simp only [Bool.and_eq_true, decide_eq_true_eq, decide_eq_false_iff_not, hj, true_imp_iff,
        and_true]
      refine or_congr_right ⟨?_, ?_⟩
      · rintro ⟨before, after, his, ⟨hkey, hi⟩, hbefore⟩
        refine ⟨Ne.symm hkey, before, after, his, hi, fun m hm htaken heq => ?_⟩
        exact hbefore m hm ⟨heq ▸ hkey, htaken⟩ heq
      · rintro ⟨hkey, before, after, his, hi, hbefore⟩
        exact ⟨before, after, his, ⟨Ne.symm hkey, hi⟩, fun m hm htaken => hbefore m hm htaken.2⟩
    · rw [List.filter_cons_of_neg hj, ih]
      simp [hj]

theorem nodup_keys_distinct (is : List Intent) : ((distinct is).map (·.key)).Nodup := by
  match is with
  | [] => exact .nil
  | i :: is =>
    rw [distinct, List.eraseDupsBy_cons, List.map_cons, List.nodup_cons]
    refine ⟨fun h => ?_, nodup_keys_distinct _⟩
    obtain ⟨j, hj, hkey⟩ := List.mem_map.mp h
    have hne := (List.mem_filter.mp (mem_of_mem_distinct hj)).2
    exact absurd hkey (by simpa using hne)
termination_by is.length
decreasing_by exact Nat.lt_succ_of_le (List.length_filter_le _ _)

theorem mem_affected_iff :
    i ∈ affected (events.filterMap (·.failure?)) snapshot ↔ FirstHit events snapshot i := by
  simp only [affected, mem_distinct_filter, isBroken_iff, FirstHit]

/-! ## Any number of workers, any order of answers -/

/-- Nothing is lost between the intents to be submitted and the answers to them, and no more are
under way than there are workers. -/
structure Pool.Sound (workers : Nat) (is : List Intent) (p : Pool) : Prop where
  submitted : p.submitted ++ p.waiting.map Intent.forRecomputation =
    is.map Intent.forRecomputation
  answered : (p.answers.map (·.1) ++ p.underWay).Perm (p.submitted.map (·.key))
  underWay_le : p.underWay.length ≤ max 1 workers

namespace Pool

variable {workers : Nat} {p : Pool} {moves : List Move}

theorem sound_start (workers : Nat) (is : List Intent) : (start is).Sound workers is :=
  ⟨rfl, .nil, Nat.zero_le _⟩

theorem Sound.step (h : p.Sound workers is) (m : Move) : (p.step workers m).Sound workers is := by
  cases m with
  | submit =>
    change (p.submitNext workers).Sound workers is
    unfold submitNext
    split
    · exact h
    next i rest hwaiting =>
      split
      next hfree =>
        refine ⟨?_, ?_, ?_⟩
        · rw [← h.submitted, hwaiting]
          simp
        · simpa [← List.append_assoc] using h.answered.append_right [i.key]
        · rw [List.length_append]
          exact hfree
      next => exact h
  | answer n answer =>
    change (p.complete n answer).Sound workers is
    unfold complete
    split
    · exact h
    next k hk =>
      obtain ⟨hn, rfl⟩ := List.getElem?_eq_some_iff.mp hk
      refine ⟨h.submitted, .trans ?_ h.answered, ?_⟩
      · simp only [List.map_append, List.map_cons, List.map_nil, List.append_assoc,
          List.singleton_append]
        exact (List.getElem_cons_eraseIdx_perm hn).append_left _
      · exact Nat.le_trans (List.length_eraseIdx_le ..) h.underWay_le

theorem Sound.run (h : p.Sound workers is) (moves : List Move) :
    (p.run workers moves).Sound workers is := by
  induction moves generalizing p with
  | nil => exact h
  | cons m moves ih => exact ih (h.step m)

theorem run_cons (p : Pool) (m : Move) (moves : List Move) :
    p.run workers (m :: moves) = (p.step workers m).run workers moves := rfl

/-- With nothing under way a worker is free. -/
theorem step_submit {waiting : List Intent}
    {answers : List (IntentKey × Except FrameworkError Submission)} :
    step workers ⟨i :: waiting, [], is, answers⟩ .submit =
      ⟨waiting, [i.key], is ++ [i.forRecomputation], answers⟩ :=
  if_pos (Nat.lt_of_lt_of_le Nat.zero_lt_one (Nat.le_max_left ..))

theorem isDone_iff : p.isDone ↔ p.waiting = [] ∧ p.underWay = [] := by
  simp [isDone]

/-- There is always a worker, so whatever happened so far, all can be submitted and answered. -/
theorem exists_isDone (workers : Nat) (p : Pool) : ∃ more, (p.run workers more).isDone := by
  obtain ⟨waiting, underWay, submitted, answers⟩ := p
  induction waiting generalizing underWay submitted answers with
  | nil =>
    induction underWay generalizing answers with
    | nil => exact ⟨[], rfl⟩
    | cons k underWay ih =>
      obtain ⟨more, h⟩ := ih (answers ++ [(k, .ok .accepted)])
      exact ⟨.answer 0 (.ok .accepted) :: more, h⟩
  | cons i waiting ih =>
    induction underWay generalizing answers with
    | nil =>
      obtain ⟨more, h⟩ := ih [i.key] (submitted ++ [i.forRecomputation]) answers
      exact ⟨.submit :: more, by rwa [run_cons, step_submit]⟩
    | cons k underWay ih' =>
      obtain ⟨more, h⟩ := ih' (answers ++ [(k, .ok .accepted)])
      exact ⟨.answer 0 (.ok .accepted) :: more, h⟩

/-- Intents can be submitted one after another, each when the one before it is answered. -/
theorem exists_run_inOrder (workers : Nat) (is submitted : List Intent)
    (earlier answers : List (IntentKey × Except FrameworkError Submission))
    (h : answers.map (·.1) = is.map (·.key)) :
    ∃ moves, run workers ⟨is, [], submitted, earlier⟩ moves =
      ⟨[], [], submitted ++ is.map Intent.forRecomputation, earlier ++ answers⟩ := by
  induction is generalizing submitted earlier answers with
  | nil =>
    obtain rfl := List.map_eq_nil_iff.mp h
    exact ⟨[], by simp [run]⟩
  | cons i is ih =>
    cases answers with
    | nil => cases h
    | cons a answers =>
      obtain ⟨k, answer⟩ := a
      obtain ⟨rfl, hanswers⟩ := List.cons.inj h
      obtain ⟨moves, hmoves⟩ := ih (submitted ++ [i.forRecomputation])
        (earlier ++ [(i.key, answer)]) answers hanswers
      refine ⟨.submit :: .answer 0 answer :: moves, ?_⟩
      rw [run_cons, step_submit, run_cons]
      simpa [step, complete] using hmoves

end Pool

/-! ## The report -/

section Report

variable {answers : List (IntentKey × Except FrameworkError Submission)}

theorem mem_resubmitted :
    k ∈ (RecoveryReport.ofAnswers answers).resubmitted ↔ ∃ a, (k, .ok a) ∈ answers := by
  rw [RecoveryReport.ofAnswers, List.mem_mergeSort, List.mem_filterMap]
  constructor
  · rintro ⟨⟨l, error | a⟩, hmem, h⟩ <;> cases h
    exact ⟨a, hmem⟩
  · rintro ⟨a, hmem⟩
    exact ⟨_, hmem, rfl⟩

theorem mem_failed {error : FrameworkError} :
    (k, error) ∈ (RecoveryReport.ofAnswers answers).failed ↔ (k, .error error) ∈ answers := by
  rw [RecoveryReport.ofAnswers, List.mem_mergeSort, List.mem_filterMap]
  constructor
  · rintro ⟨⟨l, error | a⟩, hmem, h⟩ <;> cases h
    exact hmem
  · intro hmem
    exact ⟨_, hmem, rfl⟩

/-- Each list of the report is made of keys that were answered, each of them once. -/
theorem sublist_resubmitted
    (answers : List (IntentKey × Except FrameworkError Submission)) :
    ∃ ks, (RecoveryReport.ofAnswers answers).resubmitted.Perm ks ∧
      ks.Sublist (answers.map (·.1)) := by
  refine ⟨_, List.mergeSort_perm .., ?_⟩
  induction answers with
  | nil => exact .slnil
  | cons a answers ih =>
    obtain ⟨k, error | a⟩ := a
    · exact ih.cons k
    · exact ih.cons_cons k

theorem sublist_failed (answers : List (IntentKey × Except FrameworkError Submission)) :
    ∃ ks, ((RecoveryReport.ofAnswers answers).failed.map (·.1)).Perm ks ∧
      ks.Sublist (answers.map (·.1)) := by
  refine ⟨_, (List.mergeSort_perm ..).map _, ?_⟩
  induction answers with
  | nil => exact .slnil
  | cons a answers ih =>
    obtain ⟨k, error | a⟩ := a
    · exact ih.cons_cons k
    · exact ih.cons k

theorem mem_reported :
    k ∈ (RecoveryReport.ofAnswers answers).resubmitted ∨
      k ∈ (RecoveryReport.ofAnswers answers).failed.map (·.1) ↔ k ∈ answers.map (·.1) := by
  simp only [mem_resubmitted, List.mem_map, Prod.exists, mem_failed]
  constructor
  · rintro (⟨a, h⟩ | ⟨l, error, h, rfl⟩)
    · exact ⟨k, .ok a, h, rfl⟩
    · exact ⟨l, .error error, h, rfl⟩
  · rintro ⟨l, error | a, h, rfl⟩
    · exact .inr ⟨l, error, h, rfl⟩
    · exact .inl ⟨a, h⟩

theorem disjoint_reported (h : (answers.map (·.1)).Nodup) :
    (RecoveryReport.ofAnswers answers).resubmitted.Disjoint
      ((RecoveryReport.ofAnswers answers).failed.map (·.1)) := by
  intro k hk hk'
  obtain ⟨a, hok⟩ := mem_resubmitted.mp hk
  obtain ⟨⟨l, error⟩, hmem, rfl⟩ := List.mem_map.mp hk'
  have heq := List.inj_on_of_nodup_map h hok (mem_failed.mp hmem) rfl
  cases heq

theorem sorted_resubmitted (h : (answers.map (·.1)).Nodup) :
    (RecoveryReport.ofAnswers answers).resubmitted.Pairwise IntentKey.Before := by
  obtain ⟨ks, hperm, hsub⟩ := sublist_resubmitted answers
  refine .and ?_ (hperm.nodup_iff.mpr (h.sublist hsub))
  apply List.pairwise_mergeSort
  · exact fun _ _ _ => IntentKey.le_trans
  · exact IntentKey.le_total

theorem sorted_failed (h : (answers.map (·.1)).Nodup) :
    ((RecoveryReport.ofAnswers answers).failed.map (·.1)).Pairwise IntentKey.Before := by
  obtain ⟨ks, hperm, hsub⟩ := sublist_failed answers
  refine .and ?_ (hperm.nodup_iff.mpr (h.sublist hsub))
  rw [List.pairwise_map]
  apply List.pairwise_mergeSort
  · exact fun _ _ _ => IntentKey.le_trans
  · exact fun _ _ => IntentKey.le_total ..

end Report

/-! ## The whole -/

/-- What is submitted for a batch of events and a snapshot, how it is answered and what is reported
are as they should be. -/
structure Exact (events : List TopologyEvent) (snapshot submitted : List Intent)
    (answers : List (IntentKey × Except FrameworkError Submission)) (report : RecoveryReport) :
    Prop where
  /-- Just the first hit of each key is submitted, with its paths cleared and all else kept. -/
  submitted_iff : ∀ i, i ∈ submitted ↔ ∃ j p, FirstHit events snapshot j ∧
    j.payload = .pathAware p ∧ i = j.forRecomputation ∧
      i = { j with payload := .pathAware ⟨p.src, p.dst, none, none, false⟩ }
  once : (submitted.map (·.key)).Nodup
  answered : (answers.map (·.1)).Perm (submitted.map (·.key))
  resubmitted_iff : ∀ k, k ∈ report.resubmitted ↔ ∃ a, (k, .ok a) ∈ answers
  failed_iff : ∀ k error, (k, error) ∈ report.failed ↔ (k, .error error) ∈ answers
  resubmitted_sorted : report.resubmitted.Pairwise IntentKey.Before
  failed_sorted : (report.failed.map (·.1)).Pairwise IntentKey.Before
  disjoint : report.resubmitted.Disjoint (report.failed.map (·.1))
  complete : ∀ k, k ∈ report.resubmitted ∨ k ∈ report.failed.map (·.1) ↔
    ∃ i ∈ snapshot, Hit events i ∧ i.key = k

/-- Among the intents of a key that are hit there is a first one. -/
theorem exists_firstHit (hi : i ∈ snapshot) (h : Hit events i) :
    ∃ j, FirstHit events snapshot j ∧ j.key = i.key := by
  have hsome : (snapshot.find? fun j =>
      isBroken (events.filterMap (·.failure?)) j && decide (j.key = i.key)).isSome := by
    rw [List.find?_isSome]
    exact ⟨i, hi, by simpa using isBroken_iff.mpr h⟩
  obtain ⟨j, hj⟩ := Option.isSome_iff_exists.mp hsome
  obtain ⟨htaken, before, after, hsnapshot, hbefore⟩ := List.find?_eq_some_iff_append.mp hj
  simp only [Bool.and_eq_true, decide_eq_true_eq, isBroken_iff] at htaken
  refine ⟨j, ⟨before, after, hsnapshot, htaken.1, fun m hm hhit heq => ?_⟩, htaken.2⟩
  have hnot := hbefore m hm
  simp [isBroken_iff.mpr hhit, heq, htaken.2] at hnot

theorem FirstHit.mem (h : FirstHit events snapshot i) : i ∈ snapshot := by
  obtain ⟨before, after, rfl, -⟩ := h
  simp

theorem FirstHit.hit (h : FirstHit events snapshot i) : Hit events i := by
  obtain ⟨-, -, -, hhit, -⟩ := h
  exact hhit

theorem mem_submitted_iff :
    i ∈ (affected (events.filterMap (·.failure?)) snapshot).map Intent.forRecomputation ↔
      ∃ j p, FirstHit events snapshot j ∧ j.payload = .pathAware p ∧ i = j.forRecomputation ∧
        i = { j with payload := .pathAware ⟨p.src, p.dst, none, none, false⟩ } := by
  rw [List.mem_map]
  constructor
  · rintro ⟨j, hj, rfl⟩
    have hfirst := mem_affected_iff.mp hj
    obtain ⟨p, -, hp, -⟩ := hfirst.hit
    refine ⟨j, p, hfirst, hp, rfl, ?_⟩
    rw [Intent.forRecomputation, hp]
    rfl
  · rintro ⟨j, p, hfirst, -, rfl, -⟩
    exact ⟨j, mem_affected_iff.mpr hfirst, rfl⟩

/-- Once all is submitted and answered, all is as it should be. -/
theorem exact_of_isDone {workers : Nat} {p : Pool}
    (hsound : p.Sound workers (affected (events.filterMap (·.failure?)) snapshot))
    (hdone : p.isDone) :
    Exact events snapshot p.submitted p.answers (.ofAnswers p.answers) := by
  obtain ⟨hwaiting, hunderWay⟩ := Pool.isDone_iff.mp hdone
  have hsubmitted := hsound.submitted
  rw [hwaiting, List.map_nil, List.append_nil] at hsubmitted
  have hanswered := hsound.answered
  rw [hunderWay, List.append_nil] at hanswered
  have honce : (p.submitted.map (·.key)).Nodup := by
    simpa [hsubmitted, Function.comp_def, affected] using nodup_keys_distinct _
  have hnodup : (p.answers.map (·.1)).Nodup := hanswered.nodup_iff.mpr honce
  refine ⟨fun i => ?_, honce, hanswered, fun _ => mem_resubmitted, fun _ _ => mem_failed,
    sorted_resubmitted hnodup, sorted_failed hnodup, disjoint_reported hnodup, fun k => ?_⟩
  · rw [hsubmitted]
    exact mem_submitted_iff
  · rw [mem_reported, hanswered.mem_iff, hsubmitted, List.map_map, List.mem_map]
    simp only [mem_affected_iff, Function.comp_apply, Intent.key_forRecomputation]
    constructor
    · rintro ⟨i, hfirst, rfl⟩
      exact ⟨i, hfirst.mem, hfirst.hit, rfl⟩
    · rintro ⟨i, hi, hhit, rfl⟩
      exact exists_firstHit hi hhit

/-- Nothing is down just if no event reports a failure. -/
theorem failures_eq_nil : events.filterMap (·.failure?) = [] ↔ ∀ l, ¬ Severed events l := by
  constructor
  · intro h l hsevered
    obtain ⟨failure, hmem, -⟩ := any_breaks_iff.mpr hsevered
    rw [h] at hmem
    cases hmem
  · intro h
    refine List.eq_nil_iff_forall_not_mem.mpr fun failure hmem => ?_
    cases failure with
    | link down => exact h down (.inl ⟨down, mem_failures_link.mp hmem, rfl, rfl⟩)
    | device d =>
      exact h ⟨⟨d, 0⟩, ⟨d, 0⟩, .active⟩ (.inr ⟨d, mem_failures_device.mp hmem, .inl rfl⟩)

/-- A batch handled with the answers awaited one by one is one handled by a pool. -/
theorem handle_pooled (workers : Nat) {ds : List Deed} {report : RecoveryReport}
    (h : (handle limit events).Yields ds report) :
    (ds = [] ∧ report = .empty ∧ ∀ l, ¬ Severed events l) ∨
      (∃ l, Severed events l) ∧ ∃ snapshot moves, (pooled workers events snapshot moves).isDone ∧
        report = .ofAnswers (pooled workers events snapshot moves).answers ∧
        ds = ⟨.heldIntents, snapshot⟩ ::
          (pooled workers events snapshot moves).submitted.zipWith
            (fun i a => ⟨.submit limit i, a.2⟩) (pooled workers events snapshot moves).answers := by
  rw [handle] at h
  split at h
  next hnone =>
    obtain ⟨rfl, rfl⟩ := Program.yields_pure.mp h
    exact .inl ⟨rfl, rfl, failures_eq_nil.mp (List.isEmpty_iff.mp hnone)⟩
  next hsome =>
    obtain ⟨snapshot, rest, rfl, hrest⟩ := Program.yields_access_bind.mp h
    obtain ⟨answers, hanswers, rfl⟩ := Program.yields_map.mp hrest
    obtain ⟨hkeys, rfl⟩ := yields_resubmitAll hanswers
    obtain ⟨moves, hmoves⟩ := Pool.exists_run_inOrder workers _ [] [] answers hkeys
    refine .inr ⟨?_, snapshot, moves, ?_⟩
    · rw [List.isEmpty_iff, failures_eq_nil] at hsome
      simpa using hsome
    · rw [pooled, Pool.start, hmoves]
      exact ⟨rfl, rfl, rfl⟩

/-- However many workers there are and however the framework answers, recovery can always go on to
its end, and then it has submitted exactly what is hit, once a key, and reports how each key was
answered. Handling a batch alone is the case of answers that come one by one. -/
theorem recovery_exact (events : List TopologyEvent) :
    (∀ workers snapshot moves,
      (∃ more, ((pooled workers events snapshot moves).run workers more).isDone) ∧
        ((pooled workers events snapshot moves).isDone →
          Exact events snapshot (pooled workers events snapshot moves).submitted
            (pooled workers events snapshot moves).answers
            (.ofAnswers (pooled workers events snapshot moves).answers))) ∧
      ∀ limit ds report, (handle limit events).Yields ds report →
        (ds = [] ∧ report = .empty ∧ ∀ l, ¬ Severed events l) ∨
          (∃ l, Severed events l) ∧ ∃ snapshot submitted answers,
            ds = ⟨.heldIntents, snapshot⟩ ::
              submitted.zipWith (fun i a => ⟨.submit limit i, a.2⟩) answers ∧
            Exact events snapshot submitted answers report := by
  have hexact (workers : Nat) (snapshot : List Intent) (moves : List Pool.Move)
      (hdone : (pooled workers events snapshot moves).isDone) :
      Exact events snapshot (pooled workers events snapshot moves).submitted
        (pooled workers events snapshot moves).answers
        (.ofAnswers (pooled workers events snapshot moves).answers) :=
    exact_of_isDone ((Pool.sound_start workers _).run moves) hdone
  refine ⟨fun workers snapshot moves => ⟨Pool.exists_isDone workers _, hexact _ _ _⟩, ?_⟩
  intro limit ds report h
  refine (handle_pooled 1 h).imp_right ?_
  rintro ⟨hdown, snapshot, moves, hdone, rfl, hds⟩
  exact ⟨hdown, snapshot, _, _, hds, hexact 1 snapshot moves hdone⟩

/-! Two paths are hit, one by a link and the other by a device. The first occurs twice, and the
second is answered first. -/

def failingLink : Link := ⟨⟨⟨"x"⟩, 1⟩, ⟨⟨"y"⟩, 1⟩, .inactive⟩

def failing : List TopologyEvent :=
  [.linkUpdated failingLink, .deviceRemoved ⟨"z"⟩, .linkRemoved failingLink]

def crossing (name : String) (links : List Link) : Intent where
  key := ⟨⟨1, "app"⟩, name⟩
  selector := ⟨none, none⟩
  constraints := []
  priority := 100
  payload := .pathAware ⟨⟨⟨"x"⟩, 0⟩, ⟨⟨"y"⟩, 0⟩, some ⟨links⟩, none, true⟩

def crossed : List Intent :=
  [crossing "second" [⟨⟨⟨"y"⟩, 2⟩, ⟨⟨"z"⟩, 1⟩, .active⟩],
    crossing "first" [{ failingLink with state := .active }], crossing "first" [failingLink],
    crossing "third" [⟨⟨⟨"y"⟩, 1⟩, ⟨⟨"x"⟩, 1⟩, .active⟩]]

def crossedMoves : List Pool.Move :=
  [.submit, .submit, .answer 1 (.ok .accepted),
    .answer 0 (.error (.timeout ⟨⟨1, "app"⟩, "second"⟩))]

theorem two_paths_exact :
    Exact failing crossed (pooled 2 failing crossed crossedMoves).submitted
      (pooled 2 failing crossed crossedMoves).answers
      (.ofAnswers (pooled 2 failing crossed crossedMoves).answers) :=
  ((recovery_exact failing).1 2 crossed crossedMoves).2 (by decide +kernel)

end IntentPlane.Recovery
