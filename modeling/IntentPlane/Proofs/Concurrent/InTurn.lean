import IntentPlane.Proofs.Concurrent.Rivals

/-!
# Two calls over one entry, in turn or not

An event and a second call over the same entry run side by side. Both write once, so that one of
them writes last. Either it found the entry after the first write, and then all is as if the calls
were made in turn, or it knew the entry from before, and the first write is lost (`Rewritten`). In
the second case the calls come to what they come to in turn just if the loss cannot be told from the
record and from what was submitted (`in_turn_iff`). A setting of links looks at the entry once more
for each write, so that it never makes another write lost. An event may, and so may a deletion,
between its look at the record and its write.
-/

namespace IntentPlane

/-! ## One after the other -/

/-- The other of two calls. -/
def Task.Side.other : Task.Side → Task.Side
  | .left => .right
  | .right => .left

@[simp] theorem Task.Side.other_other (i : Task.Side) : i.other.other = i := by cases i <;> rfl

@[simp] theorem Task.Side.other_ne (i : Task.Side) : i.other ≠ i := by cases i <;> decide

@[simp] theorem Task.Side.ne_other (i : Task.Side) : i ≠ i.other := by cases i <;> decide

theorem Task.Side.eq_or_eq_other (i j : Task.Side) : j = i ∨ j = i.other := by
  cases i <;> cases j <;> simp [other]

/-- Two calls have rewritten the entry of a key. One wrote first, and made its entry of the one that
was there at the beginning. The other wrote onto that. It made its entry of the one from the
beginning if it knew that by then, and else of what the first one made. -/
structure Rewritten (f : Framework) (tasks : Task.Side → Task) (s : ServiceId) (k : IntentKey)
    (e : KeyStatus) (log : Log Task.Side) where
  first : Task.Side
  before : Log Task.Side
  between : Log Task.Side
  after : Log Task.Side
  found : Versioned ServiceRecord
  found' : Versioned ServiceRecord
  /-- The entry that the later call makes its own of. -/
  saw : KeyStatus
  log_eq : log = before ++ (first, ⟨.replaceRecord s found.version
      (found.value.upsert ((tasks first).makes f k e).1), true⟩) ::
    (between ++ (first.other, ⟨.replaceRecord s found'.version
      (found'.value.upsert ((tasks first.other).makes f k saw).1), true⟩) :: after)
  found_eq : found.value.get? k = some e
  found'_eq : found'.value.get? k = some ((tasks first).makes f k e).1
  known : (tasks first.other).Knows s k (before.own first.other) → saw = e
  unknown : ¬ (tasks first.other).Knows s k (before.own first.other) →
    saw = ((tasks first).makes f k e).1

section

variable {tasks : Task.Side → Task} {x y : Scene Facilities} {s : ServiceId} {k l : IntentKey}
  {e : KeyStatus} {o : Enumeration} {log before between after : Log Task.Side} {i : Task.Side}
  {f : Framework} {ds : Task.Side → List Deed}

/-- The places of the writes of two calls, that of the call `i` first. -/
structure Ordered (w : ∀ i, Rewrite f s k (tasks i) (ds i)) (i : Task.Side)
    (before between after : Log Task.Side) : Prop where
  before_own : before.own i = (w i).earlier ++ [(w i).absent.finds s (w i).found]
  later_own : Log.own (between ++ (i.other, (w i.other).write) :: after) i = (w i).later
  between_own : Log.own (before ++ (i, (w i).write) :: between) i.other =
    (w i.other).earlier ++ [(w i.other).absent.finds s (w i.other).found]
  after_own : Log.own after i.other = (w i.other).later

/-- Of two calls that rewrite an entry, one writes before the other. -/
theorem exists_ordered (w : ∀ i, Rewrite f s k (tasks i) (ds i)) (hds : ∀ i, log.own i = ds i) :
    ∃ i before between after,
      log = before ++ (i, (w i).write) :: (between ++ (i.other, (w i.other).write) :: after) ∧
        Ordered w i before between after := by
  obtain ⟨before, after, hlog, hbefore, hafter⟩ := (w .left).exists_place (hds .left)
  obtain ⟨before', after', hlog', hbefore', hafter'⟩ := (w .right).exists_place (hds .right)
  rcases append_eq_append_cons (hlog.symm.trans hlog') with ⟨m, rfl, rfl⟩ | ⟨m, rfl, hm⟩
  · exact ⟨.right, before', m, after, hlog', hbefore', hafter', hbefore, hafter⟩
  · cases m with
    | nil => cases (List.cons.inj hm).1
    | cons d m =>
      obtain ⟨rfl, rfl⟩ := List.cons.inj hm
      exact ⟨.left, before, m, after', hlog, hbefore, hafter, hbefore', hafter'⟩

namespace Ordered

variable {w : ∀ i, Rewrite f s k (tasks i) (ds i)}

/-- But for their writes, the calls spare the entry. -/
theorem spares (h : Ordered w i before between after) (j : Task.Side) :
    Upserting s (· ≠ k) [] (before.own j) ∧
      Upserting s (· ≠ k) (Log.own (before ++ [(i, (w i).write)]) j) (between.own j) ∧
      Upserting s (· ≠ k)
        (Log.own (before ++ [(i, (w i).write)] ++ between ++ [(i.other, (w i.other).write)]) j)
        (after.own j) := by
  rcases i.eq_or_eq_other j with rfl | rfl
  · have hlater := h.later_own ▸ (w j).spares_later
    simp only [Log.own_append, Log.own_cons, Task.Side.other_ne, if_false, List.nil_append]
      at hlater ⊢
    obtain ⟨hbetween, hafter⟩ := hlater.of_append
    refine ⟨h.before_own ▸ (w j).spares_found, ?_, ?_⟩
    · simpa using hbetween.after (Log.own (before ++ [(j, (w j).write)]) j)
    · simpa using hafter.after (Log.own (before ++ [(j, (w j).write)]) j)
  · have hearlier := h.between_own ▸ (w i.other).spares_found
    have hafter := h.after_own ▸ (w i.other).spares_later
    simp only [Log.own_append, Log.own_cons, Task.Side.ne_other, if_false, List.nil_append]
      at hearlier ⊢
    obtain ⟨hbefore, hbetween⟩ := hearlier.of_append
    refine ⟨hbefore, ?_, ?_⟩
    · simpa using hbetween
    · simpa using hafter.after _

/-- Up to the first write, the entry is the one from the beginning. -/
theorem entry_before {earlier later : Log Task.Side} (h : Ordered w i before between after)
    (hanswered : Answered (.inMemory o) Eq x (before ++ log) y) (hx : Bounded x.records)
    (hentry : x.entry s k = some e) (hbefore : before = earlier ++ later) :
    earlier.entry x s k = some e := by
  subst hbefore
  obtain ⟨z, hz, -⟩ := hanswered.split
  exact (hz.entry_start hx (fun j => (h.spares j).1) (not_not_intro rfl)).trans hentry

/-- The first call makes its entry of the one from the beginning. -/
theorem saw_first (h : Ordered w i before between after)
    (hanswered : Answered (.inMemory o) Eq x (before ++ (i, (w i).write) :: log) y)
    (hx : Bounded x.records) (hentry : x.entry s k = some e) : (w i).saw = e :=
  (Option.some.inj ((w i).saw_eq hanswered hx h.before_own fun _ _ =>
    h.entry_before hanswered hx hentry)).symm

/-- Between the writes, the entry is what the first call made. -/
theorem entry_between {earlier later : Log Task.Side} (h : Ordered w i before between after)
    (hanswered : Answered (.inMemory o) Eq x (before ++ [(i, (w i).write)] ++ between ++ log) y)
    (hx : Bounded x.records) (hbetween : between = earlier ++ later) :
    Log.entry (before ++ [(i, (w i).write)] ++ earlier) x s k =
      some ((tasks i).makes f k (w i).saw).1 := by
  subst hbetween
  obtain ⟨z, hz, -⟩ := hanswered.split
  exact (hz.entry_append_left hx (fun j => (h.spares j).2.1) (not_not_intro rfl)).trans
    ((w i).entry_written before x i)

/-- The second call writes onto what the first one made. -/
theorem found_second (h : Ordered w i before between after)
    (hanswered : Answered (.inMemory o) Eq x
      (before ++ [(i, (w i).write)] ++ between ++ (i.other, (w i.other).write) :: log) y)
    (hx : Bounded x.records) :
    (w i.other).found.value.get? k = some ((tasks i).makes f k (w i).saw).1 := by
  have hown : Log.own (before ++ [(i, (w i).write)] ++ between) i.other =
      (w i.other).earlier ++ [(w i.other).absent.finds s (w i.other).found] := by
    simpa using h.between_own
  exact ((w i.other).found_eq hanswered hx hown).trans
    (h.entry_between hanswered hx (List.append_nil between).symm)

/-- A second call that knows the entry at the first write makes its own of the one from the
beginning. -/
theorem saw_of_knows (h : Ordered w i before between after)
    (hanswered : Answered (.inMemory o) Eq x (before ++ log) y) (hx : Bounded x.records)
    (hentry : x.entry s k = some e) (hds : Log.own (before ++ log) i.other = ds i.other)
    (hknows : (tasks i.other).Knows s k (before.own i.other)) : (w i.other).saw = e := by
  rcases (w i.other).sees with ⟨hnever, -⟩ | ⟨first, absent, v, rest, -, hseen, hiff⟩
  · exact (hnever _ hknows).elim
  · rw [Log.own_append] at hds
    obtain ⟨m, hm⟩ := (hiff _ _ hds).mp hknows
    obtain ⟨earlier, later, rfl, -, -⟩ := Log.own_split hm
    have hbefore := h.entry_before hanswered hx hentry rfl
    rw [List.append_assoc, List.cons_append] at hanswered
    rw [hanswered.entry_of_finds, hseen] at hbefore
    exact Option.some.inj hbefore

/-- A second call that does not know the entry by then makes its own of what the first one made. -/
theorem saw_of_not_knows (h : Ordered w i before between after)
    (hanswered : Answered (.inMemory o) Eq x
      (before ++ [(i, (w i).write)] ++ between ++ (i.other, (w i.other).write) :: log) y)
    (hx : Bounded x.records)
    (hds : Log.own (before ++ [(i, (w i).write)] ++ between ++ (i.other, (w i.other).write) :: log)
      i.other = ds i.other)
    (hknows : ¬ (tasks i.other).Knows s k (before.own i.other)) :
    (w i.other).saw = ((tasks i).makes f k (w i).saw).1 := by
  rcases (w i.other).sees with ⟨-, hseen⟩ | ⟨first, absent, v, rest, hearlier, hseen, hiff⟩
  · exact Option.some.inj (hseen.symm.trans (h.found_second hanswered hx))
  · -- What it looked at stands between the two writes.
    have hown := h.between_own
    rw [hearlier] at hown
    simp only [Log.own_append, Log.own_cons, Task.Side.ne_other, if_false, List.nil_append,
      List.append_assoc, List.cons_append] at hown hds
    rcases append_eq_append_cons hown with ⟨m, hm, -⟩ | ⟨m, rfl, hm⟩
    · exact (hknows ((hiff _ _ hds).mpr ⟨m, hm⟩)).elim
    · obtain ⟨earlier, later, rfl, -, -⟩ := Log.own_split hm
      have hbetween := h.entry_between hanswered hx rfl
      rw [← List.append_assoc, List.append_assoc, List.cons_append] at hanswered
      rw [hanswered.entry_of_finds, hseen] at hbetween
      exact Option.some.inj hbetween

/-- In the end, the entry is what the second call made. -/
theorem entry_after (h : Ordered w i before between after)
    (hanswered : Answered (.inMemory o) Eq x
      (before ++ [(i, (w i).write)] ++ between ++ (i.other, (w i.other).write) :: after) y)
    (hx : Bounded x.records) :
    y.entry s k = some ((tasks i.other).makes f k (w i.other).saw).1 := by
  rw [hanswered.entry_eq]
  rw [List.append_cons] at hanswered ⊢
  rw [hanswered.entry_append hx (fun j => (h.spares j).2.2) (not_not_intro rfl),
    (w i.other).entry_written]

end Ordered

end

/-! ## In turn -/

/-- What is left when two calls are over: the record of a service, and what each of them submitted
under a key. -/
structure Upshot where
  record : Option ServiceRecord
  submitted : Task.Side → List Intent

def Crew.upshot {τ : Type} {tasks : Task.Side → Task} (c : Crew τ tasks) (log : Log Task.Side)
    (s : ServiceId) (k : IntentKey) : Upshot where
  record := c.scene.record s
  submitted i := submitted k ((log.own i).filterMap Deed.exchange?)

/-- Two calls are made in turn, each at one go. -/
def Task.inTurn {τ : Type} (tasks : Side → Task) (o : Surroundings τ) (x : Scene τ) (s : ServiceId)
    (k : IntentKey) (first : Side) : Upshot :=
  let y := ((tasks first).program.run o.answer x).2
  { record := ((tasks first.other).program.run o.answer y).2.record s
    submitted := fun i => submitted k
      (((tasks i).program.log o.answer (if i = first then x else y)).filterMap Deed.exchange?) }

theorem Log.own_map (ds : List Deed) (i j : Task.Side) :
    Log.own (ds.map (i, ·)) j = if i = j then ds else [] := by
  induction ds with
  | nil => simp
  | cons d ds ih =>
    rw [List.map_cons, Log.own_cons, ih]
    split <;> rfl

/-- A call that is brought to its end alone. -/
theorem Crew.Course.finish {τ ι : Type} [DecidableEq ι] {tasks : ι → Task} {o : Surroundings τ}
    {drift : τ → τ → Prop} {x : Scene τ} {log : Log ι} {c : Crew τ tasks} {i : ι}
    {p : Program (tasks i).Result} (h : Crew.Course o drift x log c) (hp : c.threads i = p) :
    Crew.Course o drift x (log ++ (p.log o.answer c.scene).map (i, ·))
      ⟨(p.run o.answer c.scene).2,
        Function.update c.threads i (.done (p.run o.answer c.scene).1)⟩ := by
  induction p generalizing c log with
  | done a =>
    have hc : (⟨c.scene, Function.update c.threads i (.done a)⟩ : Crew τ tasks) = c := by
      rw [← hp, Function.update_eq_self]
    simpa [Program.log, Program.run, hc] using h
  | ask access next ih =>
    have hnext : Crew.Course o drift x (log ++ (c.deed? o (.turn i)).toList)
        (c.step o (.turn i)) := h.step fun f hf => by cases hf
    simp only [Crew.deed?, Crew.step, hp, Option.toList_some] at hnext
    have hlast := ih _ hnext (Function.update_self ..)
    simpa [Program.log, Program.run] using hlast

/-- Two calls in turn are calls side by side that come in a particular order. -/
theorem Crew.exists_course_inTurn {τ : Type} (tasks : Task.Side → Task) (o : Surroundings τ)
    (drift : τ → τ → Prop) (x : Scene τ) (first : Task.Side) :
    let y := ((tasks first).program.run o.answer x).2
    ∃ c : Crew τ tasks,
      Crew.Course o drift x (((tasks first).program.log o.answer x).map (first, ·) ++
        ((tasks first.other).program.log o.answer y).map (first.other, ·)) c ∧
      c.scene = ((tasks first.other).program.run o.answer y).2 ∧
      ∀ i, c.threads i = .done ((tasks i).program.run o.answer (if i = first then x else y)).1 := by
  intro y
  have hstart : Crew.Course o drift x [] (.start tasks x) := ⟨[], nofun, rfl, rfl⟩
  have hboth := (hstart.finish (i := first) rfl).finish (i := first.other)
    (Function.update_of_ne (Task.Side.other_ne first) ..)
  rw [List.nil_append] at hboth
  refine ⟨_, hboth, rfl, fun i => ?_⟩
  rcases first.eq_or_eq_other i with rfl | rfl
  · rw [if_pos rfl]
    exact (Function.update_of_ne (Task.Side.ne_other _) ..).trans (Function.update_self ..)
  · rw [if_neg (Task.Side.other_ne first)]
    exact Function.update_self ..

theorem Log.own_of_inTurn {before after : Log Task.Side} {first : Task.Side} {d : Deed}
    {ds ds' : List Deed} (h : ds.map (first, ·) ++ ds'.map (first.other, ·) =
      before ++ (first, d) :: after) : before.own first.other = [] := by
  rcases append_eq_append_cons h with ⟨m, hm, -⟩ | ⟨m, -, hm⟩
  · have hown := Log.own_map ds first first.other
    rw [hm, Log.own_append, if_neg (Task.Side.ne_other first)] at hown
    exact (List.append_eq_nil_iff.mp hown).1
  · have hmem : (first, d) ∈ ds'.map (first.other, ·) := hm ▸ List.mem_append_right _ (.head _)
    obtain ⟨_, -, heq⟩ := List.mem_map.mp hmem
    exact (Task.Side.other_ne first (congrArg Prod.fst heq)).elim

namespace Rivals

variable {tasks : Task.Side → Task} {x : Scene Facilities} {s : ServiceId} {k : IntentKey}
  {r : ServiceRecord} {e : KeyStatus} {o : Enumeration} {log log' : Log Task.Side}
  {c c' : Crew Facilities tasks}

/-- However two calls come, they rewrite the entry one after the other. -/
theorem exists_rewritten (h : Rivals tasks x s k r e)
    (hc : Crew.Course (.inMemory o) Eq x log c) (hdone : c.Succeeded) :
    ∃ w : Rewritten x.outside.framework tasks s k e log,
      c.scene.entry s k =
          some ((tasks w.first.other).makes x.outside.framework k w.saw).1 ∧
        (c.upshot log s k).submitted w.first =
          ((tasks w.first).makes x.outside.framework k e).2 ∧
        (c.upshot log s k).submitted w.first.other =
          ((tasks w.first.other).makes x.outside.framework k w.saw).2 ∧
        ∀ i, (tasks i).Able := by
  obtain ⟨ds, hds⟩ : ∃ ds : Task.Side → List Deed, ∀ i, log.own i = ds i := ⟨_, fun _ => rfl⟩
  have hrewrite (i : Task.Side) :
      Nonempty (Rewrite x.outside.framework s k (tasks i) (ds i)) := by
    obtain ⟨result, hyields, hok⟩ := yields hc hdone i
    exact hds i ▸ (h.rewriting i).rewrite hyields hok (h.finds hc hdone i)
  have w (i : Task.Side) := (hrewrite i).some
  have hsubmitted (i : Task.Side) :
      (c.upshot log s k).submitted i = ((tasks i).makes x.outside.framework k (w i).saw).2 := by
    rw [← (w i).submits, ← hds]
    rfl
  obtain ⟨i, before, between, after, rfl, hordered⟩ := exists_ordered w hds
  have hanswered := hc.answered
  have hlog : before ++ (i, (w i).write) :: (between ++ (i.other, (w i.other).write) :: after) =
      before ++ [(i, (w i).write)] ++ between ++ (i.other, (w i.other).write) :: after := by simp
  have hown := hlog ▸ hds i.other
  have hentry := hordered.saw_first hanswered h.bounded h.entry_eq
  have hlater := hlog ▸ hanswered
  subst hentry
  exact ⟨{
    first := i
    before, between, after
    found := (w i).found
    found' := (w i.other).found
    saw := (w i.other).saw
    log_eq := rfl
    found_eq := ((w i).found_eq hanswered h.bounded hordered.before_own).trans
      (hordered.entry_before hanswered h.bounded h.entry_eq (List.append_nil before).symm)
    found'_eq := hordered.found_second hlater h.bounded
    known := hordered.saw_of_knows hanswered h.bounded h.entry_eq (hds i.other)
    unknown := hordered.saw_of_not_knows hlater h.bounded hown },
    hordered.entry_after hlater h.bounded, hsubmitted i, hsubmitted i.other,
    fun i => (w i).able⟩

/-- What two calls come to in turn. -/
theorem exists_inTurn (h : Rivals tasks x s k r e) (hable : ∀ i, (tasks i).Able) (o : Enumeration)
    (first : Task.Side) :
    let one := (tasks first).makes x.outside.framework k
    let other := (tasks first.other).makes x.outside.framework k
    ∃ (log : Log Task.Side) (c : Crew Facilities tasks), Crew.Course (.inMemory o) Eq x log c ∧
      c.Succeeded ∧ c.upshot log s k = Task.inTurn tasks (.inMemory o) x s k first ∧
      c.scene.entry s k = some (other (one e).1).1 ∧
      (c.upshot log s k).submitted first = (one e).2 ∧
      (c.upshot log s k).submitted first.other = (other (one e).1).2 := by
  intro one other
  obtain ⟨c, hc, hscene, hthreads⟩ :=
    Crew.exists_course_inTurn tasks (.inMemory o) Eq x first
  have hdone : c.Succeeded := fun i =>
    ⟨_, hthreads i, (h.rewriting i).succeeds (hable i) _ _⟩
  obtain ⟨w, hentry, hone, hother, -⟩ := h.exists_rewritten hc hdone
  refine ⟨_, c, hc, hdone, ?_, ?_⟩
  · rw [Crew.upshot, Task.inTurn, hscene]
    congr 1
    funext i
    rw [Log.own_append, Log.own_map, Log.own_map]
    rcases first.eq_or_eq_other i with rfl | rfl <;> simp
  · have hfirst : w.first = first := by
      -- Whoever comes second makes no access before one of the first.
      refine (first.eq_or_eq_other w.first).resolve_right fun hfirst => ?_
      have hlog := w.log_eq
      rw [← List.cons_append, ← List.append_assoc, hfirst, Task.Side.other_other] at hlog
      have hnone := Log.own_of_inTurn hlog
      simp at hnone
    have hlog := w.log_eq
    rw [hfirst] at hlog
    have hnone := Log.own_of_inTurn hlog
    have hsaw := w.unknown
    rw [hfirst, hnone] at hsaw
    rw [hfirst] at hentry hone hother
    rw [hsaw (Task.not_knows_nil s k _)] at hentry hother
    exact ⟨hentry, hone, hother⟩

theorem upshot_eq_iff (h : Rivals tasks x s k r e) (hc : Crew.Course (.inMemory o) Eq x log c)
    (hdone : c.Succeeded) (hc' : Crew.Course (.inMemory o) Eq x log' c') (hdone' : c'.Succeeded)
    (i : Task.Side) : c.upshot log s k = c'.upshot log' s k ↔
      c.scene.entry s k = c'.scene.entry s k ∧
        (c.upshot log s k).submitted i = (c'.upshot log' s k).submitted i ∧
        (c.upshot log s k).submitted i.other = (c'.upshot log' s k).submitted i.other := by
  rw [← h.record_eq_iff hc hdone hc' hdone']
  constructor
  · intro heq
    exact ⟨congrArg Upshot.record heq, by rw [heq], by rw [heq]⟩
  · rintro ⟨hrecord, hone, hother⟩
    rw [Crew.upshot, Crew.upshot, Upshot.mk.injEq]
    refine ⟨hrecord, funext fun j => ?_⟩
    rcases i.eq_or_eq_other j with rfl | rfl
    · exact hone
    · exact hother

end Rivals

variable {tasks : Task.Side → Task} {x : Scene Facilities} {s : ServiceId} {k : IntentKey}
  {r : ServiceRecord} {e : KeyStatus} {o : Enumeration} {log : Log Task.Side}
  {c : Crew Facilities tasks}

/-- An event and another call for the same intent, which may be a setting of links, a second event
or the deletion of the service, come to their ends side by side. Then the final record and what was
submitted are those of the two calls in turn, in one order or the other, unless the later writer
already knew the entry when the earlier one wrote. In that case they are so if and only if the later
one makes the same of the new entry as of the old, or the earlier one, had it come second, would
have submitted the same and left the entry alone. -/
theorem in_turn_iff (h : Rivals tasks x s k r e) (hc : Crew.Course (.inMemory o) Eq x log c)
    (hdone : c.Succeeded) :
    ∃ w : Rewritten x.outside.framework tasks s k e log,
      let one := (tasks w.first).makes x.outside.framework k
      let other := (tasks w.first.other).makes x.outside.framework k
      (∃ q, c.scene.record s = some q ∧ q.keys = r.keys ∧ q.get? k = some (other w.saw).1 ∧
        ∀ l, l ≠ k → q.get? l =
          (r.get? l).map ((tasks .right).leaves x.outside.framework l)) ∧
      (c.upshot log s k).submitted w.first = (one e).2 ∧
      (c.upshot log s k).submitted w.first.other = (other w.saw).2 ∧
      ((∃ i, c.upshot log s k = Task.inTurn tasks (.inMemory o) x s k i) ↔
        ((tasks w.first.other).Knows s k (w.before.own w.first.other) →
          other e = other (one e).1 ∨ one (other e).1 = ((other e).1, (one e).2))) := by
  obtain ⟨w, hentry, hone, hother, hable⟩ := h.exists_rewritten hc hdone
  refine ⟨w, ?_, hone, hother, ?_⟩
  · obtain ⟨q, hq, hkeys⟩ := h.exists_record_final hc hdone
    rw [Scene.entry, hq] at hentry
    refine ⟨q, hq, hkeys, hentry, fun l hl => ?_⟩
    have hother := h.entry_of_ne hc hdone hl
    rwa [Scene.entry, hq, Scene.entry, h.record] at hother
  -- In turn, the calls come to what the second makes of what the first made.
  have hinTurn (i : Task.Side) :
      c.upshot log s k = Task.inTurn tasks (.inMemory o) x s k i ↔
        c.scene.entry s k = some ((tasks i.other).makes x.outside.framework k
            ((tasks i).makes x.outside.framework k e).1).1 ∧
          (c.upshot log s k).submitted i = ((tasks i).makes x.outside.framework k e).2 ∧
          (c.upshot log s k).submitted i.other = ((tasks i.other).makes x.outside.framework k
            ((tasks i).makes x.outside.framework k e).1).2 := by
    obtain ⟨log', c', hc', hdone', hupshot, hentry', hone', hother'⟩ := h.exists_inTurn hable o i
    rw [← hupshot, h.upshot_eq_iff hc hdone hc' hdone' i, hentry', hone', hother']
  constructor
  · rintro ⟨i, hi⟩ hknows
    rw [hinTurn] at hi
    obtain ⟨hentry', -, hother'⟩ := hi
    rcases w.first.eq_or_eq_other i with rfl | rfl
    · rw [hentry, w.known hknows] at hentry'
      rw [hother, w.known hknows] at hother'
      exact .inl (Prod.ext (Option.some.inj hentry') hother')
    · rw [Task.Side.other_other] at hentry' hother'
      rw [hentry, w.known hknows] at hentry'
      rw [hone] at hother'
      exact .inr (Prod.ext (Option.some.inj hentry').symm hother'.symm)
  · intro hsame
    by_cases hknows : (tasks w.first.other).Knows s k (w.before.own w.first.other)
    · rcases hsame hknows with hsame | hsame
      · refine ⟨w.first, (hinTurn _).mpr ⟨?_, hone, ?_⟩⟩
        · rw [hentry, w.known hknows, hsame]
        · rw [hother, w.known hknows, hsame]
      · refine ⟨w.first.other, (hinTurn _).mpr ?_⟩
        rw [Task.Side.other_other, hsame]
        exact ⟨by rw [hentry, w.known hknows], by rw [hother, w.known hknows], hone⟩
    · refine ⟨w.first, (hinTurn _).mpr ⟨?_, hone, ?_⟩⟩
      · rw [hentry, w.unknown hknows]
      · rw [hother, w.unknown hknows]

/-! The service is deleted while its intent is reported installed. -/

def linkedDeletion : Decomposition where
  app := ⟨1, "app"⟩
  retries := 3
  service := linkedService
  request := ⟨.path ⟨0, ⟨⟨"a"⟩, []⟩, ⟨⟨"b"⟩, []⟩⟩, [], false⟩
  settings := {}

def heldScene : Scene Facilities :=
  { linkedScene with outside := ⟨.empty, Framework.empty.insert linkedIntent⟩ }

def deletionTasks : Task.Side → Task :=
  Task.beside (.event 3 5000 linkedIntent .installed) (.decompose linkedDeletion none .delete)

def deletionStart : Crew Facilities deletionTasks := .start _ heldScene

/-- The deletion withdraws the intent and finds the entry, the event writes, and the deletion writes
over that. -/
def deletionMoves : List (Move Task.Side Facilities) :=
  List.replicate 4 (.turn .right) ++ List.replicate 4 (.turn .left) ++
    List.replicate 2 (.turn .right)

theorem rivals_deletion : Rivals deletionTasks heldScene linkedService linkedIntent.key
    (linkedRecord .installReq false) ⟨linkedIntent.key, .installReq, [oldLink], false⟩ where
  event := ⟨_, _, _, _, rfl⟩
  rewriting i := by
    cases i with
    | left => exact .event rfl
    | right => exact .deletion rfl
  bounded :=
    Bounded.evolved (m := .empty) nofun
      (evolved_answer (.putRecord linkedService _) ⟨.empty, .empty, .empty, .empty⟩)
  record := rfl
  nodup := List.nodup_singleton _
  entry := rfl
  owner t ht := by
    by_contra hne
    refine ht ?_
    have hnone : heldScene.record t = none := by
      simp [Scene.record, heldScene, linkedScene, Ne.symm hne]
    rw [Scene.entry, hnone]
    rfl
  held _ _ _ := by decide

/-- The two calls come to their ends, and what the event reported of the entry is lost. In turn, an
intent that was reported first is still calculated when it is withdrawn, and one that is reported
last ends installed. -/
theorem report_lost_under_deletion :
    Rivals deletionTasks heldScene linkedService linkedIntent.key (linkedRecord .installReq false)
        ⟨linkedIntent.key, .installReq, [oldLink], false⟩ ∧
      (deletionStart.run (.inMemory .inserted) deletionMoves).Succeeded ∧
      ¬ ∃ i, (deletionStart.run (.inMemory .inserted) deletionMoves).upshot
          (deletionStart.log (.inMemory .inserted) deletionMoves) linkedService linkedIntent.key =
        Task.inTurn deletionTasks (.inMemory .inserted) heldScene linkedService linkedIntent.key
          i := by
  refine ⟨rivals_deletion, fun i => ?_, ?_⟩
  · cases i with
    | left => exact ⟨.ok _, rfl, rfl⟩
    | right => exact ⟨.ok _, rfl, rfl⟩
  · rintro ⟨i, hi⟩
    have hrecord := congrArg Upshot.record hi
    cases i <;> revert hrecord <;> decide

end IntentPlane
