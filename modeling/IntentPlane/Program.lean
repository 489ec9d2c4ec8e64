import IntentPlane.Framework
import IntentPlane.Status.Record
import IntentPlane.VersionedMap

/-!
# Programs over shared components

The orchestrator shares its registry, its store and the intent framework with others. A program is
written in single accesses to them, each of which happens at one instant; between two accesses
anything may happen. So one text of a program serves a run alone, a run among others, and a run
against faults.
-/

namespace IntentPlane

/-- Why the registry of endpoints gave no answer. -/
inductive RegistryError where
  | unavailable (reason : String)
  deriving DecidableEq

def RegistryError.message : RegistryError → String
  | .unavailable reason => "endpoint registry unavailable: " ++ reason

/-- One access to a shared component. Submissions and withdrawals wait for at most `limit`
milliseconds. -/
inductive Access where
  | readRecord (service : ServiceId)
  | ensureRecord (service : ServiceId)
  | putRecord (service : ServiceId) (record : ServiceRecord)
  | replaceRecord (service : ServiceId) (version : Nat) (record : ServiceRecord)
  | removeRecord (service : ServiceId)
  | listServices
  | listRecords
  | indexIntent (key : IntentKey) (intent : Intent)
  | indexedIntent (key : IntentKey)
  | unindexIntent (key : IntentKey)
  | resolve (point : ConnectionPoint)
  | submit (limit : UInt64) (intent : Intent)
  | withdraw (limit : UInt64) (key : IntentKey)
  | heldIntents

/-- What an access is answered with. -/
@[reducible] def Access.Answer : Access → Type
  | readRecord _ => Option (Versioned ServiceRecord)
  | ensureRecord _ => Versioned ServiceRecord
  | putRecord .. => Unit
  | replaceRecord .. => Bool
  | removeRecord _ => Option ServiceRecord
  | listServices => List ServiceId
  | listRecords => List (ServiceId × ServiceRecord)
  | indexIntent .. => Unit
  | indexedIntent _ => Option Intent
  | unindexIntent _ => Option Intent
  | resolve _ => Except RegistryError (List Endpoint)
  | submit .. => Except FrameworkError Submission
  | withdraw .. => Except FrameworkError Unit
  | heldIntents => List Intent

/-- A program that ends with a value or makes an access and goes on with the answer. -/
inductive Program (α : Type) where
  | done (value : α)
  | ask (access : Access) (next : access.Answer → Program α)

namespace Program

def bind : Program α → (α → Program β) → Program β
  | done value, f => f value
  | ask access next, f => ask access fun answer => (next answer).bind f

instance : Monad Program where
  pure := done
  bind := bind

@[simp] theorem pure_bind (a : α) (f : α → Program β) : (pure a : Program α) >>= f = f a := rfl

@[simp] theorem ask_bind (access : Access) (next : access.Answer → Program α)
    (f : α → Program β) : ask access next >>= f = ask access fun answer => next answer >>= f := rfl

theorem bind_done (p : Program α) : p.bind done = p := by
  induction p with
  | done => rfl
  | ask access next ih => simp [bind, ih]

theorem bind_bind (p : Program α) (f : α → Program β) (g : β → Program γ) :
    (p.bind f).bind g = p.bind fun a => (f a).bind g := by
  induction p with
  | done => rfl
  | ask access next ih => simp [bind, ih]

instance : LawfulMonad Program := .mk' Program bind_done (fun _ _ => rfl) bind_bind

/-- Runs a program alone against something that answers accesses and keeps a state. -/
def run (answer : (access : Access) → σ → access.Answer × σ) : Program α → σ → α × σ
  | done value, s => (value, s)
  | ask access next, s =>
    let (reply, s) := answer access s
    (next reply).run answer s

theorem run_bind (answer : (access : Access) → σ → access.Answer × σ) (p : Program α)
    (f : α → Program β) (s : σ) :
    (p >>= f).run answer s = (f (p.run answer s).1).run answer (p.run answer s).2 := by
  induction p generalizing s with
  | done => rfl
  | ask access next ih => exact ih _ _

/-! ## Single accesses -/

def readRecord (service : ServiceId) : Program (Option (Versioned ServiceRecord)) :=
  ask (.readRecord service) done

/-- Reads the record of a service, after writing an empty one if there is none. -/
def ensureRecord (service : ServiceId) : Program (Versioned ServiceRecord) :=
  ask (.ensureRecord service) done

def putRecord (service : ServiceId) (record : ServiceRecord) : Program Unit :=
  ask (.putRecord service record) done

/-- Writes the record of a service if it is still at the version read. -/
def replaceRecord (service : ServiceId) (version : Nat) (record : ServiceRecord) : Program Bool :=
  ask (.replaceRecord service version record) done

def removeRecord (service : ServiceId) : Program (Option ServiceRecord) :=
  ask (.removeRecord service) done

def listServices : Program (List ServiceId) := ask .listServices done

def listRecords : Program (List (ServiceId × ServiceRecord)) := ask .listRecords done

def indexIntent (key : IntentKey) (intent : Intent) : Program Unit :=
  ask (.indexIntent key intent) done

def indexedIntent (key : IntentKey) : Program (Option Intent) := ask (.indexedIntent key) done

def unindexIntent (key : IntentKey) : Program (Option Intent) := ask (.unindexIntent key) done

def resolve (point : ConnectionPoint) : Program (Except RegistryError (List Endpoint)) :=
  ask (.resolve point) done

def submit (limit : UInt64) (intent : Intent) : Program (Except FrameworkError Submission) :=
  ask (.submit limit intent) done

def withdraw (limit : UInt64) (key : IntentKey) : Program (Except FrameworkError Unit) :=
  ask (.withdraw limit key) done

def heldIntents : Program (List Intent) := ask .heldIntents done

end Program

end IntentPlane
