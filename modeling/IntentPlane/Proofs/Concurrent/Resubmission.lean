import IntentPlane.Proofs.Concurrent.Crew
import IntentPlane.Proofs.Lifecycle.Operations
import IntentPlane.Proofs.Recovery

/-!
# Recovery among other calls

Recovery looks at what the framework holds once and then submits some of it again, one intent after
another, while others go on submitting and withdrawing. An intent that it submits is the one decided
on when it looked, not the one decided on by then. `recovery_faithful_iff` says what this comes to:
the framework holds what was decided on last, all along, just if no decision falls between a look
and a resubmission, or none that matters.
-/

namespace IntentPlane

variable {τ ι : Type}

def Task.recovers : Task → Bool
  | recover .. => true
  | _ => false

/-- What an access makes of the intent that is to be held under a key. -/
def Deed.decides (k : IntentKey) (held : Option Intent) : Deed → Option Intent
  | ⟨.submit _ i, .ok _⟩ => if i.key = k then some i else held
  | ⟨.withdraw _ l, .ok _⟩ => if l = k then none else held
  | _ => held

namespace Log

/-- What is held under a key in the end, if nothing changes by itself. -/
def held (log : Log ι) (k : IntentKey) (start : Option Intent) : Option Intent :=
  log.foldl (fun held e => e.2.decides k held) start

/-- What was decided on last under a key by others than recovery: an intent that was accepted, or a
withdrawal that succeeded. -/
def decided (log : Log ι) (tasks : ι → Task) (k : IntentKey) (start : Option Intent) :
    Option Intent :=
  held (log.filter fun e => !(tasks e.1).recovers) k start

theorem held_append (l l' : Log ι) (k : IntentKey) (start : Option Intent) :
    held (l ++ l') k start = held l' k (held l k start) := List.foldl_append

theorem decided_append (l l' : Log ι) (tasks : ι → Task) (k : IntentKey) (start : Option Intent) :
    decided (l ++ l') tasks k start = decided l' tasks k (decided l tasks k start) := by
  simp [decided, held]

/-- Recovery decides nothing. -/
theorem decided_cons_of_recovers {tasks : ι → Task} {i : ι} (h : (tasks i).recovers = true)
    (d : Deed) (l : Log ι) (k : IntentKey) (start : Option Intent) :
    decided ((i, d) :: l) tasks k start = decided l tasks k start := by
  simp [decided, h]

theorem decided_singleton {tasks : ι → Task} {i : ι} (h : (tasks i).recovers = false)
    (d : Deed) (k : IntentKey) (start : Option Intent) :
    decided [(i, d)] tasks k start = d.decides k start := by
  simp [decided, held, h]

end Log

/-- The same intents up to their paths, and whether they are calculated. -/
def Alike (i j : Option Intent) : Prop :=
  i.map Intent.forRecomputation = j.map Intent.forRecomputation

instance (i j : Option Intent) : Decidable (Alike i j) := inferInstanceAs (Decidable (_ = _))

namespace Alike

variable {i j l : Option Intent} {k : IntentKey}

theorem refl (i : Option Intent) : Alike i i := rfl

theorem symm (h : Alike i j) : Alike j i := Eq.symm h

theorem trans (h : Alike i j) (h' : Alike j l) : Alike i l := Eq.trans h h'

theorem forRecomputation (i : Intent) : Alike (some i.forRecomputation) (some i) := by
  simp [Alike]

theorem decides (h : Alike i j) (d : Deed) : Alike (d.decides k i) (d.decides k j) := by
  unfold Deed.decides
  split
  case h_3 => exact h
  all_goals
    split
    · exact .refl _
    · exact h

theorem held (h : Alike i j) (log : Log ι) : Alike (log.held k i) (log.held k j) := by
  induction log generalizing i j with
  | nil => exact h
  | cons e log ih => exact ih (h.decides e.2)

end Alike

/-! ## What the framework holds -/

/-- What the framework holds under a key. -/
abbrev Scene.held (x : Scene Facilities) (k : IntentKey) : Option Intent :=
  x.outside.framework.get? k

/-- The framework computes paths: under each key it holds the same, up to its paths. -/
def Repathed (f g : Facilities) : Prop :=
  ∀ k, Alike (g.framework.get? k) (f.framework.get? k)

theorem repathed_compute (k : IntentKey) (path backup : Option NetworkPath) (calculated : Bool)
    (f : Facilities) :
    Repathed f { f with framework := f.framework.compute k path backup calculated } := by
  intro l
  rw [Framework.compute]
  split
  · rename_i i hi
    rw [Framework.get?_insert, Intent.key_withPaths]
    split
    · rename_i hl
      rw [← hl, Framework.key_of_get? hi, hi]
      simp [Alike]
    · exact .refl _
  · exact .refl _

namespace Surroundings

variable {e : Enumeration} {x y : Scene Facilities} {log : Log ι} {k : IntentKey}

theorem held_answer (e : Enumeration) (access : Access) (x : Scene Facilities) (k : IntentKey) :
    ((inMemory e).answer access x).2.held k =
      (⟨access, ((inMemory e).answer access x).1⟩ : Deed).decides k (x.held k) := by
  cases access with
  | submit limit i =>
    simp only [Scene.held, answer, inMemory, Scene.outside_hear]
    by_cases hr : i.key ∈ x.outside.framework.rejected
    · rw [Framework.submit_rejected hr]
      rfl
    · rw [Framework.submit_taken hr, Framework.get?_take]
      rfl
  | withdraw limit l =>
    simp only [Scene.held, answer, inMemory, Scene.outside_hear, Framework.get?_withdraw]
    cases hheld : x.outside.framework.get? l with
    | some i =>
      simp only [Framework.withdraw, hheld]
      rfl
    | none =>
      rw [Framework.withdraw_none hheld]
      split
      · rename_i hl
        rw [← hl, hheld]
        rfl
      · rfl
  | readRecord | ensureRecord | putRecord | replaceRecord | removeRecord | listServices
  | listRecords | indexIntent | indexedIntent | unindexIntent | resolve | heldIntents => rfl

end Surroundings

/-- In memory, the framework holds what the log makes of it, up to paths. -/
theorem Answered.alike_held {e : Enumeration} {x y : Scene Facilities} {log : Log ι}
    (h : Answered (.inMemory e) Repathed x log y) (k : IntentKey) :
    Alike (y.held k) (log.held k (x.held k)) := by
  induction h with
  | nil => exact .refl _
  | drift hdrift _ ih => exact ih.trans ((hdrift k).held _)
  | @deed x y i access log _ ih =>
    rw [Surroundings.held_answer] at ih
    exact ih

/-! ## Recovery -/

namespace Recovery

variable {limit : UInt64} {ds : List Deed}

/-- Recovery looks at what is held once, and submits some of it again with its paths cleared. -/
inductive Trace (limit : UInt64) : List Deed → Prop where
  | idle : Trace limit []
  | busy {ds : List Deed} : (∀ d ∈ ds, ∃ j ∈ snapshot, ∃ answer,
      d = ⟨.submit limit j.forRecomputation, answer⟩) → Trace limit (⟨.heldIntents, snapshot⟩ :: ds)

theorem trace_of_handle {events : List TopologyEvent} {ds : List Deed} {report : RecoveryReport}
    (h : (handle limit events).Yields ds report) : Trace limit ds := by
  rw [handle] at h
  split at h
  · obtain ⟨rfl, -⟩ := Program.yields_pure.mp h
    exact .idle
  · obtain ⟨snapshot, rest, rfl, hrest⟩ := Program.yields_access_bind.mp h
    obtain ⟨answers, hanswers, -⟩ := Program.yields_map.mp hrest
    obtain ⟨-, rfl⟩ := yields_resubmitAll hanswers
    refine .busy fun d hd => ?_
    rw [← List.map_uncurry_zip_eq_zipWith] at hd
    obtain ⟨⟨i, a⟩, hmem, rfl⟩ := List.mem_map.mp hd
    obtain ⟨j, hj, rfl⟩ := List.mem_map.mp (List.of_mem_zip hmem).1
    exact ⟨j, mem_of_mem_affected hj, a.2, rfl⟩

/-- The beginning of a recovery is that of a shorter one. -/
theorem Trace.of_append {rest : List Deed} (h : Trace limit (ds ++ rest)) : Trace limit ds := by
  cases ds with
  | nil => exact .idle
  | cons d ds =>
    generalize hall : d :: ds ++ rest = all at h
    cases h with
    | idle => cases hall
    | busy hsubmits =>
      obtain ⟨rfl, rfl⟩ := List.cons.inj hall
      exact .busy fun d hd => hsubmits d (List.mem_append_left _ hd)

/-- What recovery did so far is the trace of a recovery. -/
theorem trace_of_leads {events : List TopologyEvent} {p : Program RecoveryReport}
    (h : (handle limit events).Leads ds p) : Trace limit ds := by
  obtain ⟨rest, report, hyields⟩ := h.exists_yields
  exact (trace_of_handle hyields).of_append

/-- Recovery looks once, before it submits. -/
theorem Trace.of_look {earlier later : List Deed} {snapshot : List Intent}
    (h : Trace limit (earlier ++ ⟨.heldIntents, snapshot⟩ :: later)) :
    ∀ d ∈ later, ∃ j ∈ snapshot, ∃ answer, d = ⟨.submit limit j.forRecomputation, answer⟩ := by
  generalize hall : earlier ++ ⟨.heldIntents, snapshot⟩ :: later = all at h
  cases h with
  | idle => simp at hall
  | busy hsubmits =>
    cases earlier with
    | nil =>
      cases hall
      exact hsubmits
    | cons d earlier =>
      obtain ⟨-, rfl⟩ := List.cons.inj hall
      obtain ⟨j, -, answer, heq⟩ := hsubmits ⟨.heldIntents, snapshot⟩ (by simp)
      cases heq

/-- What recovery submits, it has seen held when it looked. -/
theorem Trace.exists_look {i : Intent} {n : UInt64} {answer : Except FrameworkError Submission}
    {earlier : List Deed} (h : Trace limit (earlier ++ [⟨.submit n i, answer⟩])) :
    ∃ snapshot later, earlier = ⟨.heldIntents, snapshot⟩ :: later ∧
      ∃ j ∈ snapshot, i = j.forRecomputation := by
  generalize hall : earlier ++ [⟨.submit n i, answer⟩] = all at h
  cases h with
  | idle => simp at hall
  | @busy snapshot ds hsubmits =>
    cases earlier with
    | nil => cases hall
    | cons d earlier =>
      obtain ⟨rfl, rfl⟩ := List.cons.inj hall
      obtain ⟨j, hj, answer', heq⟩ := hsubmits ⟨.submit n i, answer⟩ (by simp)
      cases heq
      exact ⟨snapshot, earlier, rfl, j, hj, rfl⟩

end Recovery

/-! ## Recovery among others -/

/-- Whenever an intent of a recovery is accepted under a key, what is decided on there is still what
was decided on when recovery looked. -/
def Log.Timely (log : Log ι) (tasks : ι → Task) (k : IntentKey) (start : Option Intent) : Prop :=
  ∀ (before between after : Log ι) i snapshot limit intent a,
    log = before ++ (i, ⟨.heldIntents, snapshot⟩) ::
      (between ++ (i, ⟨.submit limit intent, .ok a⟩) :: after) →
    (tasks i).recovers = true → intent.key = k →
    Alike (Log.decided (before ++ between) tasks k start) (before.decided tasks k start)

section Among

variable [DecidableEq ι] {tasks : ι → Task} {e : Enumeration} {x y : Scene Facilities}
  {log : Log ι} {k : IntentKey}

omit [DecidableEq ι] in
/-- What recovery sees held is what is held. -/
theorem Answered.alike_seen {before after : Log ι} {i : ι} {snapshot : List Intent}
    (h : Answered (.inMemory e) Repathed x (before ++ (i, ⟨.heldIntents, snapshot⟩) :: after) y)
    {j : Intent} (hj : j ∈ snapshot) :
    Alike (some j) (before.held j.key (x.held j.key)) := by
  obtain ⟨z, hbefore, hsnapshot, -⟩ := h.scene_at
  obtain rfl : snapshot = e.held z.outside.framework.held.values := hsnapshot
  have hheld : z.held j.key = some j := Framework.mem_values.mp ((e.held_perm _).mem_iff.mp hj)
  rw [← hheld]
  exact hbefore.alike_held j.key

/-- Just before recovery has an intent accepted, it has looked and seen the intent. -/
theorem exists_look (hleads : ∀ i, (tasks i).recovers = true → ∃ n, Recovery.Trace n (log.own i))
    {before after : Log ι} {i : ι} {n : UInt64} {intent : Intent}
    {answer : Except FrameworkError Submission}
    (hlog : log = before ++ (i, ⟨.submit n intent, answer⟩) :: after)
    (hi : (tasks i).recovers = true) :
    ∃ earlier between snapshot, before = earlier ++ (i, ⟨.heldIntents, snapshot⟩) :: between ∧
      ∃ j ∈ snapshot, intent = j.forRecomputation := by
  obtain ⟨n', htrace⟩ := hleads i hi
  rw [hlog, Log.own_append, Log.own_cons, if_pos rfl, ← List.append_assoc] at htrace
  obtain ⟨snapshot, later, hown, j, hj, hintent⟩ := htrace.of_append.exists_look
  rw [← List.nil_append (_ :: later)] at hown
  obtain ⟨earlier, between, rfl, -, -⟩ := Log.own_split hown
  exact ⟨earlier, between, snapshot, rfl, j, hj, hintent⟩

/-- Recovery leaves what is held alone, but for the intents of it that are accepted. -/
theorem decides_eq_of_recovers {n : UInt64} {ds : List Deed} {d : Deed}
    (htrace : Recovery.Trace n ds) (hd : d ∈ ds) (start : Option Intent) :
    d.decides k start = start ∨ ∃ i a, d = ⟨.submit n i, .ok a⟩ ∧ i.key = k := by
  cases htrace with
  | idle => cases hd
  | busy hsubmits =>
    rcases List.mem_cons.mp hd with rfl | hd
    · exact .inl rfl
    · obtain ⟨j, -, error | a, rfl⟩ := hsubmits d hd
      · exact .inl rfl
      · by_cases hk : j.forRecomputation.key = k
        · exact .inr ⟨_, a, rfl, hk⟩
        · exact .inl (if_neg hk)

theorem timely_of_alike (hanswered : Answered (.inMemory e) Repathed x log y)
    (hleads : ∀ i, (tasks i).recovers = true → ∃ n, Recovery.Trace n (log.own i))
    (h : ∀ l : Log ι, l <+: log → Alike (l.held k (x.held k)) (l.decided tasks k (x.held k))) :
    log.Timely tasks k (x.held k) := by
  rintro before between after i snapshot n intent a rfl hi rfl
  obtain ⟨n', htrace⟩ := hleads i hi
  rw [Log.own_append, Log.own_cons, if_pos rfl] at htrace
  obtain ⟨j, hj, answer, heq⟩ := htrace.of_look ⟨.submit n intent, .ok a⟩ (by simp)
  cases heq
  rw [Intent.key_forRecomputation] at *
  have hseen := hanswered.alike_seen hj
  have hbefore := h before (List.prefix_append ..)
  have hafter := h (before ++ (i, ⟨.heldIntents, snapshot⟩) ::
    (between ++ [(i, ⟨.submit n j.forRecomputation, .ok a⟩)])) (by simp)
  have hheld : Log.held (before ++ (i, ⟨.heldIntents, snapshot⟩) ::
      (between ++ [(i, ⟨.submit n j.forRecomputation, .ok a⟩)])) j.key (x.held j.key) =
        some j.forRecomputation := by
    simp [Log.held, Deed.decides]
  have hdecided : Log.decided (before ++ (i, ⟨.heldIntents, snapshot⟩) ::
      (between ++ [(i, ⟨.submit n j.forRecomputation, .ok a⟩)])) tasks j.key (x.held j.key) =
        Log.decided (before ++ between) tasks j.key (x.held j.key) := by
    simp only [Log.decided_append, Log.decided_cons_of_recovers hi]
    rfl
  rw [hheld, hdecided] at hafter
  exact hafter.symm.trans ((Alike.forRecomputation j).trans (hseen.trans hbefore))

theorem alike_of_timely (hanswered : Answered (.inMemory e) Repathed x log y)
    (hleads : ∀ i, (tasks i).recovers = true → ∃ n, Recovery.Trace n (log.own i))
    (h : log.Timely tasks k (x.held k)) (l : Log ι) (hl : l <+: log) :
    Alike (l.held k (x.held k)) (l.decided tasks k (x.held k)) := by
  -- By induction on the length, since an intent of recovery goes back to what was held at the look.
  induction hn : l.length using Nat.strongRecOn generalizing l with
  | ind n ih =>
  rcases List.eq_nil_or_concat' l with rfl | ⟨l, ⟨i, d⟩, rfl⟩
  · exact .refl _
  obtain ⟨after, rfl⟩ := hl
  have hearlier (m : Log ι) (hm : m <+: l) :
      Alike (m.held k (x.held k)) (m.decided tasks k (x.held k)) := by
    refine ih m.length ?_ m (hm.trans ?_) rfl
    · rw [← hn, List.length_append]
      exact Nat.lt_succ_of_le hm.length_le
    · simp
  have hlast := hearlier l (List.prefix_refl l)
  rw [Log.held_append, Log.decided_append]
  by_cases hi : (tasks i).recovers = true
  · rw [Log.decided_cons_of_recovers hi]
    change Alike (d.decides k _) _
    obtain ⟨n', htrace⟩ := hleads i hi
    rcases decides_eq_of_recovers (k := k) htrace (Log.mem_own.mpr (by simp : (i, d) ∈ _))
      (Log.held l k (x.held k)) with hsame | ⟨intent, a, rfl, rfl⟩
    · rw [hsame]
      exact hlast
    · obtain ⟨before, between, snapshot, rfl, j, hj, rfl⟩ :=
        exists_look hleads (List.append_assoc ..) hi
      rw [Intent.key_forRecomputation] at *
      have hseen : Alike (some j) (Log.held before j.key (x.held j.key)) :=
        Answered.alike_seen (by simpa using hanswered) hj
      have htimely := h before between after i snapshot n' j.forRecomputation a (by simp) hi
        j.key_forRecomputation
      have hdecided : Log.decided (before ++ (i, ⟨.heldIntents, snapshot⟩) :: between) tasks j.key
          (x.held j.key) = Log.decided (before ++ between) tasks j.key (x.held j.key) := by
        rw [Log.decided_append, Log.decided_cons_of_recovers hi, Log.decided_append]
      have hheld (start : Option Intent) : Deed.decides j.key start
          ⟨.submit n' j.forRecomputation, .ok a⟩ = some j.forRecomputation :=
        if_pos j.key_forRecomputation
      rw [hheld]
      refine .trans ?_ (hdecided ▸ htimely.symm)
      exact (Alike.forRecomputation j).trans (hseen.trans (hearlier before (by simp)))
  · rw [Log.decided_singleton (by simpa using hi)]
    exact hlast.decides d

theorem Task.trace_of_recovers {t : Task} {ds : List Deed} {p : Program t.Result}
    (ht : t.recovers = true) (h : t.program.Leads ds p) : ∃ n, Recovery.Trace n ds := by
  cases t with
  | recover limit events => exact ⟨limit, Recovery.trace_of_leads h⟩
  | decompose | event | store => cases ht

variable {moves : List (Move ι Facilities)}

/-- All along a run of calls, the framework holds under a key what was decided on there last, up to
paths, just if recovery is timely: no other decision falls between its look at what is held and an
intent that it then has accepted. -/
theorem recovery_faithful_iff (e : Enumeration) (tasks : ι → Task) (x : Scene Facilities)
    (k : IntentKey) (hchange : ∀ f, .change f ∈ moves → ∀ u, Repathed u (f u)) :
    (∀ earlier, earlier <+: moves →
      Alike (((Crew.start tasks x).run (.inMemory e) earlier).scene.held k)
        (((Crew.start tasks x).log (.inMemory e) earlier).decided tasks k (x.held k))) ↔
      ((Crew.start tasks x).log (.inMemory e) moves).Timely tasks k (x.held k) := by
  have hanswered (earlier : List (Move ι Facilities)) (hearlier : earlier <+: moves) :
      Answered (.inMemory e) Repathed x ((Crew.start tasks x).log (.inMemory e) earlier)
        ((Crew.start tasks x).run (.inMemory e) earlier).scene :=
    Crew.answered (c := Crew.start tasks x) fun f hf => hchange f (hearlier.subset hf)
  have hall := hanswered moves (List.prefix_refl moves)
  have hleads (i : ι) (hi : (tasks i).recovers = true) :
      ∃ n, Recovery.Trace n (((Crew.start tasks x).log (.inMemory e) moves).own i) :=
    Task.trace_of_recovers hi (Crew.leads (Crew.start tasks x) moves i)
  constructor
  · intro h
    refine timely_of_alike hall hleads fun l hl => ?_
    obtain ⟨after, hl⟩ := hl
    obtain ⟨earlier, later, rfl, rfl, -⟩ := Crew.log_prefix hl.symm
    have hearlier : earlier <+: earlier ++ later := List.prefix_append ..
    exact ((hanswered earlier hearlier).alike_held k).symm.trans (h earlier hearlier)
  · rintro h earlier ⟨later, rfl⟩
    have hearlier : earlier <+: earlier ++ later := List.prefix_append ..
    refine ((hanswered earlier hearlier).alike_held k).trans
      (alike_of_timely hall hleads h _ ?_)
    rw [Crew.log_append]
    exact List.prefix_append ..

end Among

/-! A path is deleted while recovery is about to submit its intent again. -/

def brokenLink : Link := ⟨⟨⟨"x"⟩, 1⟩, ⟨⟨"y"⟩, 1⟩, .active⟩

def brokenPath : Decomposition where
  app := ⟨1, "app"⟩
  retries := 3
  service := ⟨"broken", by decide⟩
  request := ⟨.path ⟨0, ⟨⟨"a"⟩, []⟩, ⟨⟨"b"⟩, []⟩⟩, [], false⟩
  settings := { intentModel := .aciPp }

def brokenKey : IntentKey := brokenPath.key 1

def brokenTasks : Fin 3 → Task
  | 0 => .decompose brokenPath none .create
  | 1 => .recover 5000 [.linkRemoved brokenLink]
  | 2 => .decompose brokenPath none .delete

def brokenScene : Scene Facilities where
  records := .empty
  index := .empty
  outside := ⟨(Table.empty.insert ⟨"a"⟩ [.eth "1" none ⟨"x"⟩ 1]).insert ⟨"b"⟩
    [.eth "2" none ⟨"y"⟩ 1], .empty⟩
  calls := []

/-- The path is created and computed, and recovery looks at it. -/
def brokenBefore : List (Move (Fin 3) Facilities) :=
  List.replicate 6 (.turn 0) ++
    [.change fun f => { f with
      framework := f.framework.compute brokenKey (some ⟨[brokenLink]⟩) none true }, .turn 1]

/-- The path is deleted, and recovery goes on. -/
def brokenAfter : List (Move (Fin 3) Facilities) :=
  List.replicate 6 (.turn 2) ++ [.turn 1]

/-- The path that was deleted is held again. -/
theorem deleted_path_held_again :
    ¬ ∀ earlier, earlier <+: brokenBefore ++ brokenAfter →
      Alike (((Crew.start brokenTasks brokenScene).run (.inMemory .inserted) earlier).scene.held
          brokenKey)
        (((Crew.start brokenTasks brokenScene).log (.inMemory .inserted) earlier).decided
          brokenTasks brokenKey (brokenScene.held brokenKey)) := by
  have hchange : ∀ f, .change f ∈ brokenBefore ++ brokenAfter → ∀ u, Repathed u (f u) := by
    intro f hf u
    simp only [brokenBefore, brokenAfter, List.mem_append, List.mem_cons, List.mem_replicate,
      List.not_mem_nil, reduceCtorEq, and_false, or_false, false_or, Move.change.injEq] at hf
    subst hf
    exact repathed_compute brokenKey (some ⟨[brokenLink]⟩) none true u
  rw [recovery_faithful_iff .inserted brokenTasks brokenScene brokenKey hchange]
  intro htimely
  have halike := htimely
    ((Crew.start brokenTasks brokenScene).log (.inMemory .inserted) (brokenBefore.take 7))
    (((Crew.start brokenTasks brokenScene).run (.inMemory .inserted) brokenBefore).log
      (.inMemory .inserted) (List.replicate 6 (.turn 2)))
    [] 1 _ _ _ _ rfl rfl rfl
  revert halike
  decide +kernel

end IntentPlane
