import IntentPlane.Constraint.Selection
import IntentPlane.Decomposition.Report
import IntentPlane.Request.Expansion
import IntentPlane.Settings.Basic
import IntentPlane.Status.Store
import IntentPlane.Submitting

/-!
# Decomposing service requests

A request is expanded into legs. For each leg the candidate links between the endpoints of its two
points are tried in order, and what came of it is recorded. Trouble with one intent does not stop
the others; only a store that cannot be written does.
-/

namespace IntentPlane

/-- Why a decomposition did not run to its end. -/
inductive DecomposeError where
  | noDirection
  | store (error : StoreError)
  deriving DecidableEq

def DecomposeError.message : DecomposeError → String
  | .noDirection => "no directionality mode enabled: set bidirectional or unidirectional"
  | .store e => e.message

/-- What stays the same during one decomposition. -/
structure Decomposition where
  app : ApplicationId
  retries : UInt32
  service : ServiceId
  request : ServiceRequest
  settings : DecompositionSettings

/-- What the legs of a run hand on: the endpoints taken so far, and the tracker. -/
structure Progress where
  taken : List Endpoint
  tracker : Tracker

namespace Decomposition

def key (d : Decomposition) (n : Nat) : IntentKey := .forService d.app d.service n

/-- The keys of the first `count` intents of the service. -/
def keys (d : Decomposition) (count : Nat) : List IntentKey :=
  (List.range count).map fun n => d.key (n + 1)

def legsOf (d : Decomposition) (r : ServiceRequest) : List Leg × Tracker :=
  r.action.legs d.settings.bidirectional .empty

/-- The keys that a request would produce under the settings. -/
def plannedKeys (d : Decomposition) (r : ServiceRequest) : List IntentKey :=
  d.keys (d.legsOf r).1.length

/-! ## Realizing a leg -/

/-- The addressable endpoints behind a point, if there are any. -/
def resolve (point : ConnectionPoint) : Program (Option (List Endpoint)) := do
  match ← .resolve point with
  | .error _ => return none
  | .ok endpoints =>
    let usable := endpoints.filter (·.isAddressable)
    return if usable.isEmpty then none else some usable

/-- Whether an end of a link was taken by an earlier leg. The source counts only where the leg
carries traffic both ways. -/
def isTaken (taken : List Endpoint) (bidirectional : Bool) (link : CandidateLink) : Bool :=
  link.dst ∈ taken || (bidirectional && link.src ∈ taken)

/-- The links between two sets of endpoints, those with taken ends last. -/
def candidates (taken : List Endpoint) (bidirectional : Bool) (srcs dsts : List Endpoint) :
    List CandidateLink :=
  let all := CandidateLink.product srcs dsts
  all.filter (fun l => !isTaken taken bidirectional l) ++ all.filter (isTaken taken bidirectional)

def take (taken : List Endpoint) (bidirectional : Bool) (link : CandidateLink) : List Endpoint :=
  let taken := taken.insert link.dst
  if bidirectional then taken.insert link.src else taken

def constraints (d : Decomposition) (leg : Leg) : List Constraint :=
  let levels := ⟨d.settings.bandwidthLevel.toNat, d.settings.delayLevel.toNat,
    d.settings.securityLevel.toNat⟩
  let selected := Constraint.select leg.source.constraints leg.destination.constraints
    d.request.constraints levels
  if d.request.negotiable then selected ++ [.negotiable] else selected

def intent? (d : Decomposition) (key : IntentKey) (leg : Leg) (link : CandidateLink) :
    Option Intent :=
  Intent.ofLink? key link d.settings.intentModel (d.constraints leg) d.settings.intentPriority

/-- Records an entry, or gives up the run. -/
def record (d : Decomposition) (entry : KeyStatus) : ExceptT DecomposeError Program Unit := do
  match ← StatusStore.updateKey d.retries d.service entry with
  | .ok _ => return
  | .error e => throw (.store e)

/-- What comes of a leg with a point that stands for nothing usable. -/
def unresolved (key : IntentKey) (point : ConnectionPoint) (p : Progress) : Outcome × Progress :=
  let issue := key.name ++ ": no endpoint for " ++ point.name
  (.endpointNotFound key point, { p with tracker := p.tracker.recordIssue issue })

/-- Submits a leg over the first link that is accepted, and records it. -/
def realizeOver (d : Decomposition) (key : IntentKey) (leg : Leg) (links : List CandidateLink)
    (p : Progress) : ExceptT DecomposeError Program (Outcome × Progress) := do
  match ← submitFirst d.settings.submitTimeoutMs (d.intent? key leg) "no usable candidate link"
      links with
  | .ok accepted =>
    let status := accepted.submission.status
    d.record ⟨key, status, accepted.untried, false⟩
    Program.indexIntent key accepted.intent
    return (.submitted key status,
      { p with taken := take p.taken leg.bidirectional accepted.link })
  | .error reason =>
    d.record (.fresh key .failed)
    return (.rejected key reason, p)

def realize (d : Decomposition) (key : IntentKey) (leg : Leg) (p : Progress) :
    ExceptT DecomposeError Program (Outcome × Progress) := do
  match ← resolve leg.source.point with
  | none => return unresolved key leg.source.point p
  | some srcs =>
    match ← resolve leg.destination.point with
    | none => return unresolved key leg.destination.point p
    | some dsts => d.realizeOver key leg (candidates p.taken leg.bidirectional srcs dsts) p

def realizeAll (d : Decomposition) :
    List (IntentKey × Leg) → Progress → ExceptT DecomposeError Program (List Outcome × Progress)
  | [], p => return ([], p)
  | (key, leg) :: rest, p => do
    let (outcome, p) ← d.realize key leg p
    let (outcomes, p) ← d.realizeAll rest p
    return (outcome :: outcomes, p)

/-! ## Withdrawing -/

/-- The keys recorded for the service and then the `others`, each once. -/
def ownedKeys (d : Decomposition) (others : List IntentKey) : Program (List IntentKey) := do
  return ((← StatusStore.getKeys d.service).keys ++ others).eraseDups

/-- Takes a withdrawn intent off the index and records its status, if it has a record. -/
def recordWithdrawal (d : Decomposition) (key : IntentKey) (status : IntentStatus) :
    ExceptT DecomposeError Program Outcome := do
  let _ ← Program.unindexIntent key
  match (← StatusStore.getKeys d.service).get? key with
  | some entry => d.record (entry.withStatus status)
  | none => pure ()
  return .withdrawn key

/-- Withdraws an intent. The framework reports nothing of an intent it does not hold, so that one
counts as withdrawn at once. -/
def withdraw (d : Decomposition) (key : IntentKey) : ExceptT DecomposeError Program Outcome := do
  match ← Program.withdraw d.settings.submitTimeoutMs key with
  | .ok () => d.recordWithdrawal key .withdrawReq
  | .error (.notFound _) => d.recordWithdrawal key .withdrawn
  | .error e => return .withdrawFailed key e.message

/-! ## Whole runs -/

def install (d : Decomposition) : ExceptT DecomposeError Program (List Outcome × Tracker) := do
  let (legs, tracker) := d.legsOf d.request
  let (outcomes, p) ← d.realizeAll ((d.keys legs.length).zip legs) ⟨[], tracker⟩
  return (outcomes, p.tracker)

/-- Withdraws what the service owns, or what the previous request would have produced, and the new
request does not produce. -/
def withdrawStale (d : Decomposition) (previous : Option ServiceRequest) :
    ExceptT DecomposeError Program (List Outcome) := do
  let planned := (previous.map d.plannedKeys).getD []
  let owned ← d.ownedKeys planned
  (owned.filter fun k => k ∉ d.plannedKeys d.request).mapM d.withdraw

/-- Withdraws everything that the service owns or either request would have produced. -/
def withdrawAll (d : Decomposition) (previous : Option ServiceRequest) :
    ExceptT DecomposeError Program (List Outcome) := do
  let planned := d.plannedKeys d.request ++ (previous.map d.plannedKeys).getD []
  (← d.ownedKeys planned).mapM d.withdraw

/-- Does what is asked for, in whichever direction is enabled. -/
def perform (d : Decomposition) (previous : Option ServiceRequest) :
    Validation → ExceptT DecomposeError Program Report
  | .create => do
    let (outcomes, tracker) ← d.install
    return ⟨d.service, .create, outcomes, tracker.issues⟩
  | .update => do
    let (outcomes, tracker) ← d.install
    let withdrawals ← d.withdrawStale previous
    return ⟨d.service, .update, outcomes ++ withdrawals, tracker.issues⟩
  | .delete => do
    let withdrawals ← d.withdrawAll previous
    return ⟨d.service, .delete, withdrawals, (d.legsOf d.request).2.issues⟩

def run (d : Decomposition) (previous : Option ServiceRequest) (validation : Validation) :
    ExceptT DecomposeError Program Report := do
  if !d.settings.bidirectional && !d.settings.unidirectional then throw .noDirection
  d.perform previous validation

end Decomposition

end IntentPlane
