import IntentPlane.Proofs.Scene

/-!
# The components in memory

Maps in memory list what they hold in an order that is not fixed. `World.answerIn` lists in any
order given, and running a program in a world is running it alone among the surroundings
`Surroundings.inMemory`, with the world's registry and framework.
-/

namespace IntentPlane

/-- The orders in which the maps in memory list what they hold. -/
structure Enumeration where
  records : List (ServiceId × ServiceRecord) → List (ServiceId × ServiceRecord)
  records_perm : ∀ es, (records es).Perm es
  held : List Intent → List Intent
  held_perm : ∀ is, (held is).Perm is

/-- Everything is listed as it was inserted. -/
def Enumeration.inserted : Enumeration := ⟨id, .refl, id, .refl⟩

namespace World

def record (w : World) (s : ServiceId) : Option ServiceRecord := w.records.value? s

def indexed (w : World) (k : IntentKey) : Option Intent := w.index.value? k

/-- The entry of a key in the record of a service. -/
def entry (w : World) (s : ServiceId) (k : IntentKey) : Option KeyStatus :=
  (w.record s).bind (·.get? k)

/-- Answers an access and lists in the orders given. -/
def answerIn (e : Enumeration) : (access : Access) → World → access.Answer × World
  | .listServices, w => ((e.records w.records.entries).map (·.1), w)
  | .listRecords, w => (e.records w.records.entries, w)
  | .heldIntents, w => (e.held w.framework.held.values, w)
  | access, w => answer access w

theorem answerIn_inserted : answerIn .inserted = answer := by
  funext access w
  cases access <;> try rfl
  simp [answerIn, answer, Enumeration.inserted, VersionedMap.entries, VersionedMap.keys, Table.keys]

end World

/-! ## The framework -/

namespace Framework

variable {f g : Framework} {i : Intent} {k l : IntentKey}

@[simp] theorem get?_count (f : Framework) (k l : IntentKey) : (f.count k).get? l = f.get? l := rfl

@[simp] theorem get?_insert (f : Framework) (i : Intent) (l : IntentKey) :
    (f.insert i).get? l = if i.key = l then some i else f.get? l := Table.get?_insert ..

theorem key_of_get? (h : f.get? k = some i) : i.key = k := f.held_key h

theorem submissionCount_count (f : Framework) (k l : IntentKey) :
    (f.count k).submissionCount l = f.submissionCount l + if k = l then 1 else 0 := by
  simp only [submissionCount, count, Table.get?_insert]
  split
  · rename_i h
    simp [h]
  · rfl

@[simp] theorem get?_take (f : Framework) (i : Intent) (l : IntentKey) :
    (f.take i).get? l = if i.key = l then some i else f.get? l := get?_insert ..

theorem submit_rejected (h : i.key ∈ f.rejected) :
    f.submit i = (.error (.rejected i.key "rejected by intent service"), f.count i.key) := if_pos h

theorem submit_taken (h : i.key ∉ f.rejected) :
    f.submit i =
      (.ok (if i.key ∈ f.negotiating then .negotiating else .accepted), (f.count i.key).take i) :=
  if_neg h

/-- A refused submission is counted and changes nothing else. -/
theorem submit_error {e : FrameworkError} (h : (f.submit i).1 = .error e) :
    (f.submit i).2 = f.count i.key := by
  by_cases hr : i.key ∈ f.rejected
  · rw [submit_rejected hr]
  · rw [submit_taken hr] at h
    cases h

/-- An intent that is not refused is held from then on. -/
theorem submit_ok {a : Submission} (h : (f.submit i).1 = .ok a) :
    (f.submit i).2 = (f.count i.key).take i := by
  by_cases hr : i.key ∈ f.rejected
  · rw [submit_rejected hr] at h
    cases h
  · rw [submit_taken hr]

/-- Every submission is counted, refused or not. -/
theorem submissionCount_submit (f : Framework) (i : Intent) (l : IntentKey) :
    (f.submit i).2.submissionCount l = f.submissionCount l + if i.key = l then 1 else 0 := by
  rw [← submissionCount_count]
  by_cases hr : i.key ∈ f.rejected
  · rw [submit_rejected hr]
  · rw [submit_taken hr]
    rfl

/-- What an accepted intent takes the place of is all that a submission changes of what is held. -/
theorem get?_submit (f : Framework) (i : Intent) (l : IntentKey) :
    (f.submit i).2.get? l = if i.key = l ∧ i.key ∉ f.rejected then some i else f.get? l := by
  by_cases hr : i.key ∈ f.rejected
  · simp [submit_rejected hr, hr]
  · simp [submit_taken hr, hr]

@[simp] theorem rejected_submit (f : Framework) (i : Intent) :
    (f.submit i).2.rejected = f.rejected := by
  by_cases hr : i.key ∈ f.rejected
  · rw [submit_rejected hr]
    rfl
  · rw [submit_taken hr]
    rfl

@[simp] theorem negotiating_submit (f : Framework) (i : Intent) :
    (f.submit i).2.negotiating = f.negotiating := by
  by_cases hr : i.key ∈ f.rejected
  · rw [submit_rejected hr]
    rfl
  · rw [submit_taken hr]
    rfl

theorem withdraw_none (h : f.get? k = none) : f.withdraw k = (.error (.notFound k), f) := by
  simp [withdraw, h]

theorem withdraw_some (h : f.get? k = some i) : (f.withdraw k).1 = .ok () := by
  simp [withdraw, h]

@[simp] theorem get?_withdraw (f : Framework) (k l : IntentKey) :
    (f.withdraw k).2.get? l = if k = l then none else f.get? l := by
  unfold withdraw
  split
  · exact Table.get?_erase ..
  · grind

@[simp] theorem submissionCount_withdraw (f : Framework) (k l : IntentKey) :
    (f.withdraw k).2.submissionCount l = f.submissionCount l := by
  unfold withdraw
  split <;> rfl

theorem mem_values : i ∈ f.held.values ↔ f.get? i.key = some i := by
  rw [Table.mem_values]
  constructor
  · rintro ⟨k, h⟩
    rwa [get?, f.held_key h]
  · exact fun h => ⟨_, h⟩

end Framework

/-! ## Running in a world -/

/-- What a world holds besides its store. -/
structure Facilities where
  registry : Table ConnectionPoint (List Endpoint)
  framework : Framework

/-- The registry and the framework in memory. Nothing there takes time. -/
def Surroundings.inMemory (e : Enumeration) : Surroundings Facilities where
  resolve p f := (.ok ((f.registry.get? p).getD []), f)
  submit _ i f := ((f.framework.submit i).1, { f with framework := (f.framework.submit i).2 })
  withdraw _ k f := ((f.framework.withdraw k).1, { f with framework := (f.framework.withdraw k).2 })
  heldIntents f := (e.held f.framework.held.values, f)
  listing := e.records
  listing_perm := e.records_perm

namespace Surroundings

variable {e : Enumeration} {f g : Facilities} {i : Intent}

theorem submit_inMemory {limit : UInt64} {a : Except FrameworkError Submission}
    (h : (inMemory e).submit limit i f = (a, g)) :
    (f.framework.submit i).1 = a ∧ g = { f with framework := (f.framework.submit i).2 } :=
  ⟨congrArg Prod.fst h, (congrArg Prod.snd h).symm⟩

end Surroundings

def World.scene (w : World) : Scene Facilities :=
  ⟨w.records, w.index, ⟨w.registry, w.framework⟩, []⟩

/-- The world a scene among facilities in memory is in, calls left out. -/
def Scene.world (x : Scene Facilities) : World :=
  ⟨x.outside.registry, x.records, x.index, x.outside.framework⟩

@[simp] theorem World.world_scene (w : World) : w.scene.world = w := rfl

theorem World.answerIn_world (e : Enumeration) (access : Access) (x : Scene Facilities) :
    World.answerIn e access x.world =
      (((Surroundings.inMemory e).answer access x).1,
        ((Surroundings.inMemory e).answer access x).2.world) := by
  cases access <;> rfl

/-- Running in a world is running alone among the facilities in memory. -/
theorem Program.run_world (e : Enumeration) (p : Program α) (x : Scene Facilities) :
    p.run (World.answerIn e) x.world =
      ((p.run (Surroundings.inMemory e).answer x).1,
        (p.run (Surroundings.inMemory e).answer x).2.world) := by
  induction p generalizing x with
  | done => rfl
  | ask access next ih =>
    simp only [Program.run, World.answerIn_world]
    exact ih _ _

end IntentPlane
