import IntentPlane.Status.Aggregate
import IntentPlane.Status.Store
import IntentPlane.Submitting

/-!
# Status events

The framework reports each change of an intent's status. The report is folded into the record of the
service that owns the intent, and the record decides on the event for the service. An intent that
failed goes on over the links not tried yet.
-/

namespace IntentPlane.StatusEvents

/-- The event that a status would cause, without anything being written. -/
def nextEvent (service : ServiceId) (key : IntentKey) (status : IntentStatus) (calculated : Bool) :
    Program ServiceEvent := do
  let record := (← StatusStore.findKeys service).getD .empty
  let entry := ((record.get? key).getD (.fresh key status)).withStatus status
  return (record.upsert entry).aggregate calculated

/-- What came of trying the links left to a failed intent. -/
inductive Fallback where
  /-- A link was accepted and recorded. -/
  | resubmitted
  /-- No link was accepted, or the service was gone when one was to be recorded. -/
  | exhausted

/-- Submits a failed intent over the links left, and records the first that is accepted. -/
def fallBack (retries : UInt32) (limit : UInt64) (service : ServiceId) (intent : Intent)
    (current : KeyStatus) : Program (Except StoreError Fallback) := do
  match ← submitFirst limit intent.rebuildOver? "" current.links with
  | .error _ => return .ok .exhausted
  | .ok accepted =>
    .indexIntent intent.key accepted.intent
    let next := ((current.withStatus accepted.submission.status).withLinks accepted.untried)
      |>.withCalculated false
    match ← StatusStore.updateKeyIfPresent retries service next with
    | .error e => return .error e
    | .ok none => return .ok .exhausted
    | .ok (some _) => return .ok .resubmitted

/-- Records the status of an intent, and gives the event it causes if the service is still known. -/
def record (retries : UInt32) (service : ServiceId) (intent : Intent) (status : IntentStatus)
    (current : KeyStatus) : Program (Except StoreError (Option ServiceEvent)) := do
  let next := (current.withStatus status).withCalculated intent.isCalculated
  return (← StatusStore.updateKeyIfPresent retries service next).map fun written =>
    written.map fun record => record.aggregate intent.isCalculated

/-- Applies a status that the framework reports. There is no event for an intent that no service
owns. -/
def handle (retries : UInt32) (limit : UInt64) (intent : Intent) (status : IntentStatus) :
    Program (Except StoreError (Option ServiceEvent)) := do
  match ← StatusStore.findService intent.key with
  | none => return .ok none
  | some service =>
    match ← StatusStore.findKeys service with
    | none => return .ok none
    | some found =>
      let current := (found.get? intent.key).getD (.fresh intent.key status)
      if status = .failed ∧ current.links ≠ [] then
        match ← fallBack retries limit service intent current with
        | .error e => return .error e
        | .ok .resubmitted => return .ok (some .submitForInstallation)
        | .ok .exhausted => record retries service intent status (current.withLinks [])
      else record retries service intent status current

end IntentPlane.StatusEvents
