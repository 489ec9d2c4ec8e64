import IntentPlane.Proofs.Record
import IntentPlane.Proofs.VersionedMap
import IntentPlane.World

/-!
# Programs that run alone

A program that runs alone has the store to itself: nobody writes between two of its accesses. It
still cannot foresee what the registry and the framework answer, nor in which order a map lists its
entries. `Surroundings` holds these choices, and a `Scene` is the state they and the store are in.
The components in memory are one choice of surroundings (`Surroundings.inMemory`), and running in a
`World` is running among them (`run_world`).
-/

namespace IntentPlane

/-- The registry and the framework, which may keep a state of any kind, and the order in which
records are listed. -/
structure Surroundings (τ : Type) where
  resolve : ConnectionPoint → τ → Except RegistryError (List Endpoint) × τ
  submit : UInt64 → Intent → τ → Except FrameworkError Submission × τ
  withdraw : UInt64 → IntentKey → τ → Except FrameworkError Unit × τ
  heldIntents : τ → List Intent × τ
  listing : List (ServiceId × ServiceRecord) → List (ServiceId × ServiceRecord)
  listing_perm : ∀ records, (listing records).Perm records

/-- A call to the registry or the framework, and its answer. -/
inductive Exchange where
  | resolve (point : ConnectionPoint) (answer : Except RegistryError (List Endpoint))
  | submit (limit : UInt64) (intent : Intent) (answer : Except FrameworkError Submission)
  | withdraw (limit : UInt64) (key : IntentKey) (answer : Except FrameworkError Unit)
  | heldIntents (answer : List Intent)

/-- The store, the state of the surroundings and the calls made to them so far. -/
structure Scene (τ : Type) where
  records : VersionedMap ServiceId ServiceRecord
  index : VersionedMap IntentKey Intent
  outside : τ
  calls : List Exchange

variable {τ : Type}

namespace Scene

/-! ## Views -/

def record (x : Scene τ) (s : ServiceId) : Option ServiceRecord := x.records.value? s

def indexed (x : Scene τ) (k : IntentKey) : Option Intent := x.index.value? k

/-- The entry of a key in the record of a service. -/
def entry (x : Scene τ) (s : ServiceId) (k : IntentKey) : Option KeyStatus :=
  (x.record s).bind (·.get? k)

/-! ## Changes -/

/-- After calls to the surroundings, which are then in state `t`. -/
def hear (x : Scene τ) (t : τ) (es : List Exchange) : Scene τ :=
  { x with outside := t, calls := x.calls ++ es }

/-- With an empty record for a service that has none. -/
def ensure (x : Scene τ) (s : ServiceId) : Scene τ :=
  { x with records := (x.records.ensure s .empty).2 }

/-- With a record in place of what a service had. -/
def write (x : Scene τ) (s : ServiceId) (r : ServiceRecord) : Scene τ :=
  { x with records := (x.records.ensure s .empty).2.put s r }

def upsert (x : Scene τ) (s : ServiceId) (e : KeyStatus) : Scene τ :=
  x.write s (((x.record s).getD .empty).upsert e)

def setIndex (x : Scene τ) (k : IntentKey) (i : Intent) : Scene τ :=
  { x with index := x.index.put k i }

def dropIndex (x : Scene τ) (k : IntentKey) : Scene τ :=
  { x with index := (x.index.remove k).2 }

variable (x : Scene τ) (s t : ServiceId) (k l : IntentKey) (r : ServiceRecord) (e : KeyStatus)
  (i : Intent) (u : τ) (es fs : List Exchange)

theorem entry_eq_getD : x.entry s k = ((x.record s).getD .empty).get? k := by
  rw [entry]
  cases x.record s <;> rfl

@[simp] theorem record_hear : (x.hear u es).record s = x.record s := rfl
@[simp] theorem indexed_hear : (x.hear u es).indexed k = x.indexed k := rfl
@[simp] theorem entry_hear : (x.hear u es).entry s k = x.entry s k := rfl
@[simp] theorem outside_hear : (x.hear u es).outside = u := rfl
@[simp] theorem calls_hear : (x.hear u es).calls = x.calls ++ es := rfl
@[simp] theorem records_hear : (x.hear u es).records = x.records := rfl

@[simp] theorem hear_hear (v : τ) : (x.hear u es).hear v fs = x.hear v (es ++ fs) := by
  simp [hear, List.append_assoc]

@[simp] theorem hear_nil : x.hear x.outside [] = x := by simp [hear]

@[simp] theorem indexed_ensure : (x.ensure s).indexed k = x.indexed k := rfl
@[simp] theorem outside_ensure : (x.ensure s).outside = x.outside := rfl
@[simp] theorem calls_ensure : (x.ensure s).calls = x.calls := rfl

@[simp] theorem record_ensure :
    (x.ensure s).record t = if s = t then some ((x.record s).getD .empty) else x.record t :=
  VersionedMap.value?_ensure ..

@[simp] theorem entry_ensure : (x.ensure s).entry t k = x.entry t k := by
  simp only [entry, record_ensure]
  split
  · rename_i h
    subst h
    cases x.record s <;> rfl
  · rfl

@[simp] theorem indexed_write : (x.write s r).indexed k = x.indexed k := rfl
@[simp] theorem outside_write : (x.write s r).outside = x.outside := rfl
@[simp] theorem calls_write : (x.write s r).calls = x.calls := rfl

@[simp] theorem record_write :
    (x.write s r).record t = if s = t then some r else x.record t := by
  simp only [record, write, VersionedMap.value?_put, VersionedMap.value?_ensure]
  split <;> rfl

@[simp] theorem indexed_upsert : (x.upsert s e).indexed k = x.indexed k := rfl
@[simp] theorem outside_upsert : (x.upsert s e).outside = x.outside := rfl
@[simp] theorem calls_upsert : (x.upsert s e).calls = x.calls := rfl

@[simp] theorem record_upsert :
    (x.upsert s e).record t =
      if s = t then some (((x.record s).getD .empty).upsert e) else x.record t :=
  record_write ..

theorem entry_upsert :
    (x.upsert s e).entry t k = if s = t ∧ e.key = k then some e else x.entry t k := by
  simp only [entry, record_upsert]
  by_cases h : s = t
  · subst h
    rw [if_pos rfl, Option.bind_some, ServiceRecord.get?_upsert]
    cases x.record s <;> simp
  · simp [h]

@[simp] theorem record_setIndex : (x.setIndex k i).record s = x.record s := rfl
@[simp] theorem entry_setIndex : (x.setIndex k i).entry s l = x.entry s l := rfl
@[simp] theorem outside_setIndex : (x.setIndex k i).outside = x.outside := rfl
@[simp] theorem calls_setIndex : (x.setIndex k i).calls = x.calls := rfl

@[simp] theorem indexed_setIndex :
    (x.setIndex k i).indexed l = if k = l then some i else x.indexed l :=
  VersionedMap.value?_put ..

@[simp] theorem record_dropIndex : (x.dropIndex k).record s = x.record s := rfl
@[simp] theorem entry_dropIndex : (x.dropIndex k).entry s l = x.entry s l := rfl
@[simp] theorem outside_dropIndex : (x.dropIndex k).outside = x.outside := rfl
@[simp] theorem calls_dropIndex : (x.dropIndex k).calls = x.calls := rfl

@[simp] theorem indexed_dropIndex :
    (x.dropIndex k).indexed l = if k = l then none else x.indexed l :=
  VersionedMap.value?_remove ..

end Scene

/-! ## Running -/

namespace Surroundings

/-- Answers an access of a program that runs alone. -/
def answer (o : Surroundings τ) : (access : Access) → Scene τ → access.Answer × Scene τ
  | .readRecord s, x => (x.records.get? s, x)
  | .ensureRecord s, x => ((x.records.ensure s .empty).1, x.ensure s)
  | .putRecord s r, x => ((), { x with records := x.records.put s r })
  | .replaceRecord s version r, x =>
    let (written, records) := x.records.replace s version r
    (written, { x with records })
  | .removeRecord s, x =>
    let (removed, records) := x.records.remove s
    (removed, { x with records })
  | .listServices, x => ((o.listing x.records.entries).map (·.1), x)
  | .listRecords, x => (o.listing x.records.entries, x)
  | .indexIntent k i, x => ((), x.setIndex k i)
  | .indexedIntent k, x => (x.indexed k, x)
  | .unindexIntent k, x => ((x.index.remove k).1, x.dropIndex k)
  | .resolve p, x =>
    let (answer, outside) := o.resolve p x.outside
    (answer, x.hear outside [.resolve p answer])
  | .submit limit i, x =>
    let (answer, outside) := o.submit limit i x.outside
    (answer, x.hear outside [.submit limit i answer])
  | .withdraw limit k, x =>
    let (answer, outside) := o.withdraw limit k x.outside
    (answer, x.hear outside [.withdraw limit k answer])
  | .heldIntents, x =>
    let (answer, outside) := o.heldIntents x.outside
    (answer, x.hear outside [.heldIntents answer])

variable (o : Surroundings τ) (x : Scene τ)

theorem run_resolve (p : ConnectionPoint) :
    (Program.resolve p).run o.answer x =
      ((o.resolve p x.outside).1,
        x.hear (o.resolve p x.outside).2 [.resolve p (o.resolve p x.outside).1]) := rfl

theorem run_submit (limit : UInt64) (i : Intent) :
    (Program.submit limit i).run o.answer x =
      ((o.submit limit i x.outside).1,
        x.hear (o.submit limit i x.outside).2 [.submit limit i (o.submit limit i x.outside).1]) :=
  rfl

theorem run_withdraw (limit : UInt64) (k : IntentKey) :
    (Program.withdraw limit k).run o.answer x =
      ((o.withdraw limit k x.outside).1,
        x.hear (o.withdraw limit k x.outside).2
          [.withdraw limit k (o.withdraw limit k x.outside).1]) := rfl

theorem run_heldIntents :
    Program.heldIntents.run o.answer x =
      ((o.heldIntents x.outside).1,
        x.hear (o.heldIntents x.outside).2 [.heldIntents (o.heldIntents x.outside).1]) := rfl

theorem run_indexIntent (k : IntentKey) (i : Intent) :
    (Program.indexIntent k i).run o.answer x = ((), x.setIndex k i) := rfl

theorem run_unindexIntent (k : IntentKey) :
    (Program.unindexIntent k).run o.answer x = ((x.index.remove k).1, x.dropIndex k) := rfl

/-- Runs a program that may fail. -/
def eval (o : Surroundings τ) (m : ExceptT ε Program α) (x : Scene τ) : Except ε α × Scene τ :=
  m.run.run o.answer x

variable {o} {x} {y z : Scene τ}

@[simp] theorem eval_pure (a : α) : o.eval (pure a : ExceptT ε Program α) x = (.ok a, x) := rfl

@[simp] theorem eval_throw (e : ε) : o.eval (throw e : ExceptT ε Program α) x = (.error e, x) := rfl

theorem eval_lift (p : Program α) :
    o.eval (monadLift p : ExceptT ε Program α) x =
      (.ok (p.run o.answer x).1, (p.run o.answer x).2) := by
  change (p >>= fun a => pure (Except.ok a)).run o.answer x = _
  rw [Program.run_bind]
  rfl

theorem eval_bind (m : ExceptT ε Program α) (f : α → ExceptT ε Program β) :
    o.eval (m >>= f) x = match o.eval m x with
      | (.ok a, y) => o.eval (f a) y
      | (.error e, y) => (.error e, y) := by
  rw [eval, ExceptT.run_bind, Program.run_bind]
  rcases h : o.eval m x with ⟨a | e, y⟩ <;> rw [eval] at h <;> rw [h] <;> rfl

theorem eval_bind_ok {m : ExceptT ε Program α} {a : α} (h : o.eval m x = (.ok a, y))
    (f : α → ExceptT ε Program β) : o.eval (m >>= f) x = o.eval (f a) y := by
  simp [eval_bind, h]

theorem eval_lift_bind {p : Program α} {a : α} (h : p.run o.answer x = (a, y))
    (f : α → ExceptT ε Program β) :
    o.eval ((monadLift p : ExceptT ε Program α) >>= f) x = o.eval (f a) y :=
  eval_bind_ok (by rw [eval_lift, h]) f

/-- What a sequence that succeeds went through. -/
theorem eval_bind_eq_ok {m : ExceptT ε Program α} {f : α → ExceptT ε Program β} {b : β}
    (h : o.eval (m >>= f) x = (.ok b, z)) :
    ∃ a y, o.eval m x = (.ok a, y) ∧ o.eval (f a) y = (.ok b, z) := by
  rw [eval_bind] at h
  split at h
  · rename_i a y hm
    exact ⟨a, y, hm, h⟩
  · cases h

end Surroundings
end IntentPlane
