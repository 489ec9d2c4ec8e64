import IntentPlane.Program

/-!
# The status store

Reading and writing service records. A record is changed by reading it and writing the changed
record back on condition that nobody wrote in between; an update that loses this race reads again,
and gives up after a number of attempts.
-/

namespace IntentPlane

/-- Why a record could not be updated: others won every one of the attempts. -/
inductive StoreError where
  | contended (service : ServiceId) (attempts : UInt32)
  deriving DecidableEq

def StoreError.message : StoreError → String
  | .contended service attempts =>
    "store update for service " ++ service.text ++ " failed after " ++ toString attempts.toNat ++
      " attempts"

namespace StatusStore

/-- What an update does about a service without a record. -/
inductive Absent where
  | create
  | leave
  deriving DecidableEq

def read (absent : Absent) (service : ServiceId) : Program (Option (Versioned ServiceRecord)) :=
  match absent with
  | .create => some <$> .ensureRecord service
  | .leave => .readRecord service

/-- Updates a record in up to `left` attempts. The record as written is returned, or none if there
was none to change. -/
def attempt (failure : StoreError) (absent : Absent) (service : ServiceId)
    (change : ServiceRecord → ServiceRecord) :
    (left : Nat) → Program (Except StoreError (Option ServiceRecord))
  | 0 => return .error failure
  | left + 1 => do
    match ← read absent service with
    | none => return .ok none
    | some current =>
      let next := change current.value
      if ← .replaceRecord service current.version next then return .ok (some next)
      else attempt failure absent service change left

def modify (retries : UInt32) (absent : Absent) (service : ServiceId)
    (change : ServiceRecord → ServiceRecord) :
    Program (Except StoreError (Option ServiceRecord)) :=
  attempt (.contended service retries) absent service change retries.toNat

def updateKey (retries : UInt32) (service : ServiceId) (entry : KeyStatus) :
    Program (Except StoreError ServiceRecord) := do
  return (← modify retries .create service (·.upsert entry)).map (·.getD .empty)

/-- Puts an entry into the record of a service, if the service still has one. -/
def updateKeyIfPresent (retries : UInt32) (service : ServiceId) (entry : KeyStatus) :
    Program (Except StoreError (Option ServiceRecord)) :=
  modify retries .leave service (·.upsert entry)

/-- Sets the candidate links of an intent and keeps its status. -/
def updateLinks (retries : UInt32) (service : ServiceId) (key : IntentKey)
    (links : List CandidateLink) : Program (Except StoreError ServiceRecord) := do
  return (← modify retries .create service (·.setLinks key links)).map (·.getD .empty)

/-- The record of a service; an unknown service gets an empty one. -/
def getKeys (service : ServiceId) : Program ServiceRecord := do
  return (← .ensureRecord service).value

def findKeys (service : ServiceId) : Program (Option ServiceRecord) := do
  return (← .readRecord service).map (·.value)

/-- Forgets a service, and says whether it had a record. -/
def removeService (service : ServiceId) : Program Bool := do
  return (← .removeRecord service).isSome

/-- The service whose record holds a key. -/
def findService (key : IntentKey) : Program (Option ServiceId) := do
  return ((← .listRecords).find? fun (_, record) => record.contains key).map (·.1)

end StatusStore

end IntentPlane
