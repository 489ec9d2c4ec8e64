import IntentPlane.Wire.Basic

/-!
# Network topology

Devices, connect points, links and computed paths, the events that report changes to them, and the
failures that those events amount to.
-/

namespace IntentPlane

open Json (field fieldD field?)

structure DeviceId where
  name : String
  deriving DecidableEq

instance : Wire DeviceId := ⟨fun d => .str d.name, fun _ j => j.string?.map .mk⟩

structure ConnectPoint where
  device : DeviceId
  port : UInt32
  deriving DecidableEq

namespace ConnectPoint

def text (p : ConnectPoint) : String := p.device.name ++ "/" ++ toString p.port.toNat

/-- Connect points are ordered by device name, and then by port. -/
def le (p q : ConnectPoint) : Bool :=
  decide (p.device.name < q.device.name) || (p.device = q.device && p.port ≤ q.port)

instance : Wire ConnectPoint where
  toJson p := .obj [("device", toJson p.device), ("port", toJson p.port)]
  ofJson? := Json.record? do return ⟨← field "device", ← field "port"⟩

end ConnectPoint

inductive LinkState where
  | active
  | inactive
  deriving DecidableEq

namespace LinkState

def name : LinkState → String
  | active => "active"
  | inactive => "inactive"

def ofName? : String → Option LinkState
  | "active" => some active
  | "inactive" => some inactive
  | _ => none

instance : Wire LinkState := ⟨fun s => .str s.name, fun d j => (d.name? j).bind ofName?⟩

end LinkState

/-- A one-way link between two connect points. -/
structure Link where
  src : ConnectPoint
  dst : ConnectPoint
  state : LinkState
  deriving DecidableEq

namespace Link

/-- Links are the same when they join the same points, whatever their state, so a path computed
while a link was active still crosses the link that a later event reports inactive. -/
instance : BEq Link := ⟨fun l m => l.src = m.src && l.dst = m.dst⟩

def touches (l : Link) (d : DeviceId) : Bool := l.src.device = d || l.dst.device = d

def text (l : Link) : String := l.src.text ++ " -> " ++ l.dst.text

instance : Wire Link where
  toJson l := .obj [("src", toJson l.src), ("dst", toJson l.dst), ("state", toJson l.state)]
  ofJson? := Json.record? do
    return ⟨← field "src", ← field "dst", ← fieldD "state" .active⟩

end Link

/-- A computed path: the links it crosses, in order. -/
structure NetworkPath where
  links : List Link
  deriving DecidableEq

namespace NetworkPath

instance : BEq NetworkPath := ⟨fun p q => p.links == q.links⟩

def contains (p : NetworkPath) (l : Link) : Bool := p.links.any (· == l)

def traverses (p : NetworkPath) (d : DeviceId) : Bool := p.links.any (·.touches d)

instance : Wire NetworkPath where
  toJson p := .obj [("links", toJson p.links)]
  ofJson? := Json.record? do return ⟨← field "links"⟩

end NetworkPath

/-- What the topology service reports. An updated link carries its new state. -/
inductive TopologyEvent where
  | linkAdded (link : Link)
  | linkRemoved (link : Link)
  | linkUpdated (link : Link)
  | deviceAdded (device : DeviceId)
  | deviceRemoved (device : DeviceId)
  | deviceAvailability (device : DeviceId) (available : Bool)

/-- A resource whose loss breaks the paths over it. -/
inductive Failure where
  | link (link : Link)
  | device (device : DeviceId)

/-- Whether a path over the link is broken by the failure. -/
def Failure.breaks : Failure → Link → Bool
  | .link failed, l => failed == l
  | .device d, l => l.touches d

/-- The failure that an event reports; additions and repairs report none. -/
def TopologyEvent.failure? : TopologyEvent → Option Failure
  | .linkRemoved l => some (.link l)
  | .linkUpdated l => if l.state = .inactive then some (.link l) else none
  | .deviceRemoved d => some (.device d)
  | .deviceAvailability d false => some (.device d)
  | .linkAdded _ | .deviceAdded _ | .deviceAvailability _ true => none

end IntentPlane
