import IntentPlane.Request.Basic
import IntentPlane.ServiceId
import IntentPlane.Text.Case

/-!
# Low-level intents

What the intent framework installs. An intent is named by the application that owns it and a key
derived from its service, and comes in one of two models: connectivity between two hosts, or a path
between two connect points, which the framework computes.
-/

namespace IntentPlane

open Json (field field?)

structure ApplicationId where
  id : UInt16
  name : String
  deriving DecidableEq

namespace ApplicationId

instance : Wire ApplicationId where
  toJson a := .obj [("id", toJson a.id), ("name", toJson a.name)]
  ofJson? := Json.record? do return ⟨← field "id", ← field "name"⟩

end ApplicationId

structure IntentKey where
  app : ApplicationId
  name : String
  deriving DecidableEq

namespace IntentKey

/-- The key of the `n`-th intent of a service. -/
def forService (app : ApplicationId) (service : ServiceId) (n : Nat) : IntentKey :=
  ⟨app, service.text ++ "-" ++ toString n⟩

/-- Keys are ordered by the number of the application, its name, and then the name of the key. -/
def le (k l : IntentKey) : Bool :=
  decide (k.app.id < l.app.id) || (k.app.id = l.app.id &&
    (decide (k.app.name < l.app.name) || (k.app.name = l.app.name && decide (k.name ≤ l.name))))

instance : Wire IntentKey where
  toJson k := .obj [("app", toJson k.app), ("name", toJson k.name)]
  ofJson? := Json.record? do return ⟨← field "app", ← field "name"⟩

end IntentKey

/-- The lifecycle status of an intent as the framework reports it. -/
inductive IntentStatus where
  | installReq
  | installed
  | failed
  | withdrawReq
  | withdrawn
  | corrupt
  | purged
  | negotiationReq
  | installationAnchored
  deriving DecidableEq

namespace IntentStatus

def name : IntentStatus → String
  | installReq => "INSTALL_REQ"
  | installed => "INSTALLED"
  | failed => "FAILED"
  | withdrawReq => "WITHDRAW_REQ"
  | withdrawn => "WITHDRAWN"
  | corrupt => "CORRUPT"
  | purged => "PURGED"
  | negotiationReq => "NEGOTIATION_REQ"
  | installationAnchored => "INSTALLATION_ANCHORED"

def ofName? : String → Option IntentStatus
  | "INSTALL_REQ" => some installReq
  | "INSTALLED" => some installed
  | "FAILED" => some failed
  | "WITHDRAW_REQ" => some withdrawReq
  | "WITHDRAWN" => some withdrawn
  | "CORRUPT" => some corrupt
  | "PURGED" => some purged
  | "NEGOTIATION_REQ" => some negotiationReq
  | "INSTALLATION_ANCHORED" => some installationAnchored
  | _ => none

instance : Wire IntentStatus := ⟨fun s => .str s.name, fun d j => (d.name? j).bind ofName?⟩

end IntentStatus

inductive IntentModel where
  | legacy
  | aciPp
  deriving DecidableEq

/-- A text that names no model. -/
structure UnknownModel where
  text : String

def UnknownModel.message (e : UnknownModel) : String := "Invalid intent model: " ++ e.text

namespace IntentModel

def name : IntentModel → String
  | legacy => "legacy"
  | aciPp => "aci_pp"

def ofName? : String → Option IntentModel
  | "legacy" => some legacy
  | "aci_pp" => some aciPp
  | _ => none

instance : Wire IntentModel := ⟨fun m => .str m.name, fun d j => (d.name? j).bind ofName?⟩

/-- Reads a model as people write it: in any case, with hyphens for underscores or with none. -/
def parse (text : String) : Except UnknownModel IntentModel :=
  let word := (Text.foldCase text).toList.map fun c => if c = '-' then '_' else c
  if word = "legacy".toList then .ok legacy
  else if word = "aci_pp".toList ∨ word = "acipp".toList then .ok aciPp
  else .error ⟨text⟩

end IntentModel

structure TrafficSelector where
  ipSrc : Option IpPrefix
  ipDst : Option IpPrefix
  deriving DecidableEq

namespace TrafficSelector

instance : Wire TrafficSelector where
  toJson s := .obj [("ip_src", toJson s.ipSrc), ("ip_dst", toJson s.ipDst)]
  ofJson? := Json.record? do return ⟨← field? "ip_src", ← field? "ip_dst"⟩

end TrafficSelector

/-- Traffic between two connect points over a path with a backup. `calculated` says whether the
framework holds its computation to be current. -/
structure PathIntent where
  src : ConnectPoint
  dst : ConnectPoint
  path : Option NetworkPath
  backup : Option NetworkPath
  calculated : Bool
  deriving DecidableEq

namespace PathIntent

instance : BEq PathIntent where
  beq p q := p.src = q.src && p.dst = q.dst && p.path == q.path && p.backup == q.backup &&
    p.calculated = q.calculated

/-- Whether the path or its backup crosses a link with the property. -/
def uses (p : PathIntent) (property : Link → Bool) : Bool :=
  [p.path, p.backup].any fun path? => path?.any fun path => path.links.any property

/-- The same intent with nothing computed. -/
def cleared (p : PathIntent) : PathIntent :=
  { p with path := none, backup := none, calculated := false }

def members (p : PathIntent) : List (String × Json) :=
  [("src", toJson p.src), ("dst", toJson p.dst), ("path", toJson p.path),
    ("backup_path", toJson p.backup), ("calculated", toJson p.calculated)]

def reader : Json.Fields.Reader PathIntent := do
  return ⟨← field "src", ← field "dst", ← field? "path", ← field? "backup_path",
    ← field "calculated"⟩

instance : Wire PathIntent := ⟨fun p => .obj p.members, Json.record? reader⟩

end PathIntent

/-- What an intent asks for, in its model. -/
inductive Payload where
  | connectivity (one two : HostId)
  | pathAware (path : PathIntent)
  deriving DecidableEq

namespace Payload

instance : BEq Payload where
  beq
    | connectivity a b, connectivity c d => a = c && b = d
    | pathAware p, pathAware q => p == q
    | _, _ => false

def encode : Payload → Json
  | connectivity one two =>
    .obj [("model", .str "connectivity"), ("one", toJson one), ("two", toJson two)]
  | pathAware p => .obj (("model", .str "path_aware") :: p.members)

def decode? : Json → Option Payload := Json.tagged? "model" fun
  | "connectivity" => do return connectivity (← field "one") (← field "two")
  | "path_aware" => pathAware <$> PathIntent.reader
  | _ => failure

instance : Wire Payload := ⟨encode, fun _ => decode?⟩

end Payload

structure Intent where
  key : IntentKey
  selector : TrafficSelector
  constraints : List Constraint
  priority : UInt16
  payload : Payload
  deriving DecidableEq

namespace Intent

instance : BEq Intent where
  beq i j := i.key = j.key && i.selector = j.selector && i.constraints == j.constraints &&
    i.priority = j.priority && i.payload == j.payload

instance : Wire Intent where
  toJson i := .obj [("key", toJson i.key), ("selector", toJson i.selector),
    ("constraints", toJson i.constraints), ("priority", toJson i.priority),
    ("payload", toJson i.payload)]
  ofJson? := Json.record? do
    return ⟨← field "key", ← field "selector", ← field "constraints", ← field "priority",
      ← field "payload"⟩

/-- The payload over a link, if both its ends have an address that the model can use. -/
def payload? (model : IntentModel) (link : CandidateLink) : Option Payload := do
  let one ← link.src.hostId?
  let two ← link.dst.hostId?
  match model with
  | .legacy => return .connectivity one two
  | .aciPp => return .pathAware ⟨link.src.connectPoint, link.dst.connectPoint, none, none, false⟩

def ofLink? (key : IntentKey) (link : CandidateLink) (model : IntentModel)
    (constraints : List Constraint) (priority : UInt16) : Option Intent := do
  return ⟨key, ⟨link.src.net?, link.dst.net?⟩, constraints, priority, ← payload? model link⟩

def model (i : Intent) : IntentModel :=
  match i.payload with
  | .connectivity .. => .legacy
  | .pathAware _ => .aciPp

def path? (i : Intent) : Option PathIntent :=
  match i.payload with
  | .connectivity .. => none
  | .pathAware p => some p

def rebuildOver? (i : Intent) (link : CandidateLink) : Option Intent :=
  ofLink? i.key link i.model i.constraints i.priority

/-- Whether the intent counts as calculated; one without a path has nothing to compute. -/
def isCalculated (i : Intent) : Bool := i.path?.all (·.calculated)

/-- The same intent with the paths given, where its model has paths. -/
def withPaths (i : Intent) (path backup : Option NetworkPath) (calculated : Bool) : Intent :=
  match i.payload with
  | .connectivity .. => i
  | .pathAware p => { i with payload := .pathAware { p with path, backup, calculated } }

/-- The intent to submit for its paths to be computed anew. -/
def forRecomputation (i : Intent) : Intent :=
  match i.payload with
  | .connectivity .. => i
  | .pathAware p => { i with payload := .pathAware p.cleared }

end Intent

end IntentPlane
