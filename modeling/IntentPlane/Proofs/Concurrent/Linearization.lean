import IntentPlane.Proofs.Concurrent.Calls

/-!
# Store calls at the same time

Any number of calls run over one store, and a schedule says whose access comes next. A call takes
effect at the access at which it returns, and the history of a run lists these moments in their
order. A plain map that does the calls of the history one after another, each all at once, gives the
same results and ends with the same records.
-/

namespace IntentPlane

/-- Calls under way over one store. A client that makes several calls is several of them, with a
schedule that runs one after the other. -/
structure Pool {ι : Type} (calls : ι → StoreCall) where
  world : World
  threads : (i : ι) → Program (calls i).Result

variable {ι : Type} {calls : ι → StoreCall}

/-- What happens to the records, seen as a plain map. -/
inductive Event (calls : ι → StoreCall) where
  /-- A call that creates records writes an empty one before it changes it. -/
  | touched (i : ι)
  /-- A call takes effect by an access, and returns the result. -/
  | performed (i : ι) (access : Access) (result : (calls i).Result)

/-- A plain map goes through events: which map it starts from, and which it ends with. -/
inductive Replays : Contents → List (Event calls) → Contents → Prop where
  | nil : Replays m [] m
  | touched : (calls i).creates = true → m (calls i).service = none →
      Replays (Function.update m (calls i).service (some .empty)) es m' →
      Replays m (.touched i :: es) m'
  | performed : (calls i).atomic m = (result, m₁) → (calls i).CommitsBy result access →
      ((calls i).creates = true → m (calls i).service ≠ none) → Replays m₁ es m' →
      Replays m (.performed i access result :: es) m'

theorem Replays.append {m m₁ m' : Contents} {es fs : List (Event calls)} (h : Replays m es m₁)
    (h' : Replays m₁ fs m') : Replays m (es ++ fs) m' := by
  induction h with
  | nil => exact h'
  | touched hcreates hnone _ ih => exact .touched hcreates hnone (ih h')
  | performed hatomic hcommits hthere _ ih => exact .performed hatomic hcommits hthere (ih h')

namespace Pool

/-- All calls are about to begin, and nothing is stored. -/
def start (retries : UInt32) (calls : ι → StoreCall) : Pool calls :=
  ⟨.empty, fun i => (calls i).program retries⟩

/-- What the next access of a call means for a plain map: nothing, unless the call returns without
giving up, or its service comes into being. -/
def event? (p : Pool calls) (i : ι) : Option (Event calls) :=
  match p.threads i with
  | .done _ => none
  | .ask access next =>
    let (reply, world) := World.answer access p.world
    match next reply with
    | .done result => if (calls i).gaveUp result then none else some (.performed i access result)
    | .ask .. =>
      if p.world.record (calls i).service = none ∧ world.record (calls i).service ≠ none then
        some (.touched i)
      else none

/-- The moments `es` at which a call took effect are what its result says: none as long as it is
under way or if it gave up, and else just one. -/
def Reported (p : Pool calls) (i : ι) (es : List (Event calls)) : Prop :=
  match p.threads i with
  | .ask .. => es = []
  | .done result =>
    if (calls i).gaveUp result then es = [] else ∃ access, es = [.performed i access result]

variable {p : Pool calls} {i j : ι} {retries : UInt32}

theorem event?_done {result : (calls i).Result} (h : p.threads i = .done result) :
    p.event? i = none := by
  rw [event?, h]

/-- A call that returns without giving up takes effect just then. -/
theorem event?_of_returned {access : Access} {next : access.Answer → Program (calls i).Result}
    {result : (calls i).Result} (h : p.threads i = .ask access next)
    (hnext : next (World.answer access p.world).1 = .done result) :
    p.event? i =
      if (calls i).gaveUp result then none else some (.performed i access result) := by
  simp only [event?, h, hnext]

theorem event?_of_onward {access access' : Access}
    {next : access.Answer → Program (calls i).Result}
    {next' : access'.Answer → Program (calls i).Result} (h : p.threads i = .ask access next)
    (hnext : next (World.answer access p.world).1 = .ask access' next') :
    p.event? i =
      if p.world.record (calls i).service = none ∧
          (World.answer access p.world).2.record (calls i).service ≠ none then
        some (.touched i)
      else none := by
  simp only [event?, h, hnext]

theorem reported_of_done {result : (calls i).Result} (h : p.threads i = .done result)
    {es : List (Event calls)} : p.Reported i es ↔
      if (calls i).gaveUp result then es = [] else ∃ access, es = [.performed i access result] := by
  rw [Reported, h]

/-- Every call is at one of its stages, and no entry is younger than the clock. -/
structure Sound (retries : UInt32) (p : Pool calls) : Prop where
  bounded : Bounded p.world.records
  underway : ∀ i, Underway retries p.world.records (calls i) (p.threads i)

theorem sound_start : (start retries calls).Sound retries :=
  ⟨nofun, fun _ => underway_program ..⟩

end Pool

variable [DecidableEq ι]

def performances (i : ι) (es : List (Event calls)) : List (Event calls) :=
  es.filter fun
    | .touched _ => false
    | .performed j _ _ => decide (j = i)

theorem performances_append (i : ι) (es fs : List (Event calls)) :
    performances i (es ++ fs) = performances i es ++ performances i fs := List.filter_append ..

namespace Pool

/-- Lets a call make its next access, if it is not over. -/
def step (p : Pool calls) (i : ι) : Pool calls :=
  match p.threads i with
  | .done _ => p
  | .ask access next =>
    let (reply, world) := World.answer access p.world
    ⟨world, Function.update p.threads i (next reply)⟩

def run (p : Pool calls) (schedule : List ι) : Pool calls := schedule.foldl step p

/-- The events of a run in their order. -/
def history (p : Pool calls) : List ι → List (Event calls)
  | [] => []
  | i :: schedule => (p.event? i).toList ++ (p.step i).history schedule

variable {p : Pool calls} {i j : ι} {retries : UInt32}

theorem step_done {result : (calls i).Result} (h : p.threads i = .done result) : p.step i = p := by
  rw [step, h]

theorem threads_step_of_ne (h : j ≠ i) : (p.step j).threads i = p.threads i := by
  rw [step]
  split
  · rfl
  · exact Function.update_of_ne h.symm ..

theorem performances_event_of_ne (h : j ≠ i) : performances i (p.event? j).toList = [] := by
  rw [event?]
  split
  · rfl
  · simp only
    split
    · split
      · rfl
      · simp [performances, h]
    · split <;> rfl

/-- A call that is over stays so, and takes effect no more. -/
theorem history_done (schedule : List ι) {result : (calls i).Result}
    (h : p.threads i = .done result) :
    (p.run schedule).threads i = .done result ∧ performances i (p.history schedule) = [] := by
  induction schedule generalizing p with
  | nil => exact ⟨h, rfl⟩
  | cons j schedule ih =>
    have hthread : (p.step j).threads i = .done result := by
      by_cases hj : j = i
      · subst hj
        rwa [step_done h]
      · rwa [threads_step_of_ne hj]
    have hnone : performances i (p.event? j).toList = [] := by
      by_cases hj : j = i
      · subst hj
        rw [event?_done h]
        rfl
      · exact performances_event_of_ne hj
    obtain ⟨hrun, hrest⟩ := ih hthread
    refine ⟨hrun, ?_⟩
    rw [history, performances_append, hnone, hrest, List.append_nil]

theorem step_ask {access : Access} {next : access.Answer → Program (calls i).Result}
    (h : p.threads i = .ask access next) :
    (p.step i).world = (World.answer access p.world).2 ∧
      (p.step i).threads i = next (World.answer access p.world).1 := by
  rw [step, h]
  exact ⟨rfl, Function.update_self ..⟩

/-- Along every run, a call that is under way has its effect ahead. -/
theorem reported_run {access : Access} {next : access.Answer → Program (calls i).Result}
    (h : p.threads i = .ask access next) (schedule : List ι) :
    (p.run schedule).Reported i (performances i (p.history schedule)) := by
  induction schedule generalizing p access with
  | nil => simp [Reported, run, h, history, performances]
  | cons j schedule ih =>
    rw [history, performances_append]
    by_cases hj : j = i
    · subst hj
      have hthread := (step_ask h).2
      -- A call takes effect at its last access or, if it goes on, later in the schedule.
      cases hnext : next (World.answer access p.world).1 with
      | done result =>
        rw [hnext] at hthread
        obtain ⟨hrun, hrest⟩ := history_done schedule hthread
        rw [hrest, List.append_nil, event?_of_returned h hnext]
        refine (reported_of_done hrun).mpr ?_
        by_cases hgave : (calls j).gaveUp result = true
        · rw [if_pos hgave, if_pos hgave]
          rfl
        · rw [if_neg hgave, if_neg hgave]
          exact ⟨access, by simp [performances]⟩
      | ask access' next' =>
        rw [hnext] at hthread
        have hnone : performances j (p.event? j).toList = [] := by
          rw [event?_of_onward h hnext]
          split <;> rfl
        rw [hnone, List.nil_append]
        exact ih hthread
    · rw [performances_event_of_ne hj, List.nil_append]
      exact ih ((threads_step_of_ne hj).trans h)

/-- An access keeps the pool sound, and means for a plain map what its event says. -/
theorem Sound.step (h : p.Sound retries) (i : ι) :
    (p.step i).Sound retries ∧
      Replays p.world.record (p.event? i).toList (p.step i).world.record := by
  cases hi : p.threads i with
  | done result =>
    rw [step_done hi, event?_done hi]
    exact ⟨h, .nil⟩
  | ask access next =>
    obtain ⟨hworld, hthread⟩ := step_ask hi
    have hunderway := h.underway i
    rw [hi] at hunderway
    obtain ⟨hmoved, hnext⟩ := hunderway.step h.bounded
    have hevolved := evolved_answer access p.world
    refine ⟨⟨hworld ▸ h.bounded.evolved hevolved, ?_⟩, ?_⟩
    · intro j
      rw [hworld]
      by_cases hj : i = j
      · subst hj
        rwa [hthread]
      · rw [threads_step_of_ne hj]
        exact (h.underway j).evolved hevolved
    · rw [hworld]
      generalize hprogram : next (World.answer access p.world).1 = program at hmoved
      generalize hrecords : (World.answer access p.world).2.record = records at hmoved
      cases hmoved with
      | performed hatomic hok hcommits hthere =>
        rw [event?_of_returned hi hprogram, if_neg (by simp [hok])]
        exact .performed hatomic hcommits hthere .nil
      | gaveUp hgave =>
        rw [event?_of_returned hi hprogram, if_pos hgave]
        exact .nil
      | onward =>
        rw [event?_of_onward hi hprogram, hrecords, if_neg fun h => h.2 h.1]
        exact .nil
      | touched hcreates hnone =>
        rw [event?_of_onward hi hprogram, hrecords, if_pos ⟨hnone, by simp⟩]
        exact .touched hcreates hnone .nil

theorem Sound.replays (h : p.Sound retries) (schedule : List ι) :
    Replays p.world.record (p.history schedule) (p.run schedule).world.record := by
  induction schedule generalizing p with
  | nil => exact .nil
  | cons i schedule ih =>
    obtain ⟨hstep, hevent⟩ := h.step i
    exact hevent.append (ih hstep)

theorem history_append (p : Pool calls) (earlier later : List ι) :
    p.history (earlier ++ later) = p.history earlier ++ (p.run earlier).history later := by
  induction earlier generalizing p with
  | nil => rfl
  | cons i earlier ih => simp [history, ih, run, List.append_assoc]

end Pool

/-- Store calls that run at the same time are linearizable. The history is legal for a plain map,
which gives the results that were returned and ends with what is stored. A call that returned
without giving up took effect at one moment, at an access of its own, and other calls never. The
moments are in the order in which they came. -/
theorem linearizable (retries : UInt32) (calls : ι → StoreCall) (schedule : List ι) :
    Replays (fun _ => none) ((Pool.start retries calls).history schedule)
        ((Pool.start retries calls).run schedule).world.record ∧
      (∀ i, ((Pool.start retries calls).run schedule).Reported i
        (performances i ((Pool.start retries calls).history schedule))) ∧
      ∀ earlier, earlier <+: schedule →
        (Pool.start retries calls).history earlier <+:
          (Pool.start retries calls).history schedule := by
  refine ⟨Pool.sound_start.replays schedule, ?_, ?_⟩
  · intro i
    cases hi : (Pool.start retries calls).threads i with
    | ask access next => exact Pool.reported_run hi schedule
    | done result =>
      obtain ⟨hrun, hnone⟩ := Pool.history_done schedule hi
      rw [hnone]
      exact (Pool.reported_of_done hrun).mpr (if_pos (gaveUp_of_program hi) ▸ rfl)
  · rintro earlier ⟨later, rfl⟩
    rw [Pool.history_append]
    exact List.prefix_append ..

end IntentPlane
