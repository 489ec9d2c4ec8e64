import IntentPlane.Status.Record

/-!
# Decomposition reports
-/

namespace IntentPlane

open Json (field)

/-- What a decomposition is asked for: a first installation, a change to a new request, or the
withdrawal of everything. -/
inductive Validation where
  | create
  | update
  | delete
  deriving DecidableEq

namespace Validation

def name : Validation → String
  | create => "create"
  | update => "update"
  | delete => "delete"

def ofName? : String → Option Validation
  | "create" => some create
  | "update" => some update
  | "delete" => some delete
  | _ => none

instance : Wire Validation := ⟨fun v => .str v.name, fun d j => (d.name? j).bind ofName?⟩

end Validation

inductive Outcome where
  /-- Some link was accepted; the status is recorded. -/
  | submitted (key : IntentKey) (status : IntentStatus)
  /-- Every link was refused, the last one for the reason; recorded as failed. -/
  | rejected (key : IntentKey) (reason : String)
  /-- Nothing usable stands behind a connection point; nothing is recorded. -/
  | endpointNotFound (key : IntentKey) (point : ConnectionPoint)
  | withdrawn (key : IntentKey)
  | withdrawFailed (key : IntentKey) (reason : String)
  deriving DecidableEq

namespace Outcome

def key : Outcome → IntentKey
  | submitted k _ | rejected k _ | endpointNotFound k _ | withdrawn k | withdrawFailed k _ => k

def isSubmitted : Outcome → Bool
  | submitted .. => true
  | _ => false

def isWithdrawn : Outcome → Bool
  | withdrawn _ => true
  | _ => false

def isFailure : Outcome → Bool
  | rejected .. | endpointNotFound .. | withdrawFailed .. => true
  | submitted .. | withdrawn _ => false

def encode : Outcome → Json
  | submitted k status =>
    .obj [("outcome", .str "submitted"), ("key", toJson k), ("status", toJson status)]
  | rejected k reason =>
    .obj [("outcome", .str "rejected"), ("key", toJson k), ("reason", toJson reason)]
  | endpointNotFound k point =>
    .obj [("outcome", .str "endpoint_not_found"), ("key", toJson k), ("point", toJson point)]
  | withdrawn k => .obj [("outcome", .str "withdrawn"), ("key", toJson k)]
  | withdrawFailed k reason =>
    .obj [("outcome", .str "withdraw_failed"), ("key", toJson k), ("reason", toJson reason)]

def decode? : Json → Option Outcome := Json.tagged? "outcome" fun
  | "submitted" => do return submitted (← field "key") (← field "status")
  | "rejected" => do return rejected (← field "key") (← field "reason")
  | "endpoint_not_found" => do return endpointNotFound (← field "key") (← field "point")
  | "withdrawn" => do return withdrawn (← field "key")
  | "withdraw_failed" => do return withdrawFailed (← field "key") (← field "reason")
  | _ => failure

instance : Wire Outcome := ⟨encode, fun _ => decode?⟩

end Outcome

/-- What a decomposition did, intent by intent, and the issues found on the way. -/
structure Report where
  service : ServiceId
  validation : Validation
  outcomes : List Outcome
  issues : List String
  deriving DecidableEq

namespace Report

def submittedKeys (r : Report) : List IntentKey := (r.outcomes.filter (·.isSubmitted)).map (·.key)

def withdrawnKeys (r : Report) : List IntentKey := (r.outcomes.filter (·.isWithdrawn)).map (·.key)

def failures (r : Report) : List Outcome := r.outcomes.filter (·.isFailure)

def hasFailures (r : Report) : Bool := r.outcomes.any (·.isFailure)

instance : Wire Report where
  toJson r := .obj [("service_id", toJson r.service), ("validation", toJson r.validation),
    ("outcomes", toJson r.outcomes), ("issues", toJson r.issues)]
  ofJson? := Json.record? do
    return ⟨← field "service_id", ← field "validation", ← field "outcomes", ← field "issues"⟩

end Report

end IntentPlane
