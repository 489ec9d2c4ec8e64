import IntentPlane.Status.Record

/-!
# Service events

The statuses in a service record amount to one event for the lifecycle of the service.
-/

namespace IntentPlane

inductive ServiceEvent where
  | installationSuccess
  | installationFailed
  | withdrawalSuccess
  | submitForInstallation
  | submitForWithdrawal
  | negotiation
  | noChange
  deriving DecidableEq

namespace ServiceEvent

def name : ServiceEvent → String
  | installationSuccess => "installation_success"
  | installationFailed => "installation_failed"
  | withdrawalSuccess => "withdrawal_success"
  | submitForInstallation => "submit_for_installation"
  | submitForWithdrawal => "submit_for_withdrawal"
  | negotiation => "negotiation"
  | noChange => "no_change"

def ofName? : String → Option ServiceEvent
  | "installation_success" => some installationSuccess
  | "installation_failed" => some installationFailed
  | "withdrawal_success" => some withdrawalSuccess
  | "submit_for_installation" => some submitForInstallation
  | "submit_for_withdrawal" => some submitForWithdrawal
  | "negotiation" => some negotiation
  | "no_change" => some noChange
  | _ => none

instance : Wire ServiceEvent := ⟨fun e => .str e.name, fun d j => (d.name? j).bind ofName?⟩

end ServiceEvent

/-- What the statuses of a record were found to include. -/
structure StatusSummary where
  removed : Bool
  withdrawing : Bool
  failed : Bool
  installing : Bool
  negotiating : Bool
  installed : Bool
  deriving DecidableEq

namespace StatusSummary

def empty : StatusSummary := ⟨false, false, false, false, false, false⟩

def add (s : StatusSummary) : IntentStatus → StatusSummary
  | .withdrawn | .purged => { s with removed := true }
  | .withdrawReq => { s with withdrawing := true }
  | .failed | .corrupt => { s with failed := true }
  | .installReq | .installationAnchored => { s with installing := true }
  | .negotiationReq => { s with negotiating := true }
  | .installed => { s with installed := true }

def ofRecord (r : ServiceRecord) : StatusSummary :=
  r.entries.foldl (fun s e => s.add e.status) empty

/-- Whether something is removed and nothing is anything else. -/
def onlyRemoved (s : StatusSummary) : Bool :=
  s.removed && !(s.withdrawing || s.failed || s.installing || s.negotiating || s.installed)

end StatusSummary

namespace ServiceRecord

/-- The event that a record amounts to: the first of the rules that applies. Removed intents beside
others count for nothing. -/
def aggregate (r : ServiceRecord) (calculated : Bool) : ServiceEvent :=
  let seen := StatusSummary.ofRecord r
  if seen.onlyRemoved then .withdrawalSuccess
  else if seen.withdrawing then .submitForWithdrawal
  else if seen.failed then (if seen.negotiating then .negotiation else .installationFailed)
  else if seen.installing then .submitForInstallation
  else if seen.negotiating then .negotiation
  else if seen.installed && calculated then .installationSuccess
  else .noChange

end ServiceRecord

end IntentPlane
