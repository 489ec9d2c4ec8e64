import IntentPlane.IpPrefix
import IntentPlane.Topology

/-!
# Endpoints

A service request names connection points. Each stands for the physical attachments behind it, from
which intents are built.
-/

namespace IntentPlane

open Json (field fieldD field?)

structure ConnectionPoint where
  name : String
  deriving DecidableEq

namespace ConnectionPoint

def le (p q : ConnectionPoint) : Bool := decide (p.name ≤ q.name)

instance : Wire ConnectionPoint := ⟨fun p => .str p.name, fun _ j => j.string?.map .mk⟩

end ConnectionPoint

/-- The identity of a host in an intent between hosts. -/
structure HostId where
  text : String
  deriving DecidableEq

instance : Wire HostId := ⟨fun h => .str h.text, fun _ j => j.string?.map .mk⟩

/-- An attachment behind a connection point: by IP prefix, by hardware address, an optical channel,
or a bare fiber port. -/
inductive Endpoint where
  | ip (net : IpPrefix) (device : DeviceId) (port : UInt32)
  | eth (mac : String) (vlan : Option UInt16) (device : DeviceId) (port : UInt32)
  | lambda (device : DeviceId) (port : UInt32) (channel : UInt32)
  | fiber (device : DeviceId) (port : UInt32)
  deriving DecidableEq

namespace Endpoint

def connectPoint : Endpoint → ConnectPoint
  | ip _ d p | eth _ _ d p | lambda d p _ | fiber d p => ⟨d, p⟩

def hostId? : Endpoint → Option HostId
  | ip net _ _ => some ⟨net.text⟩
  | eth mac (some vlan) _ _ => some ⟨mac ++ "/" ++ toString vlan.toNat⟩
  | eth mac none _ _ => some ⟨mac ++ "/None"⟩
  | lambda .. | fiber .. => none

def net? : Endpoint → Option IpPrefix
  | ip net _ _ => some net
  | _ => none

/-- Whether an intent can select the traffic of the endpoint. -/
def isAddressable (e : Endpoint) : Bool := e.hostId?.isSome

def text (e : Endpoint) : String :=
  let name := match e with
    | ip net _ _ => "ip:" ++ net.text
    | eth mac _ _ _ => "eth:" ++ mac
    | lambda _ _ channel => "lambda:" ++ toString channel.toNat
    | fiber .. => "fiber"
  name ++ "@" ++ e.connectPoint.text

def encode : Endpoint → Json
  | ip net d p =>
    .obj [("type", .str "ip"), ("prefix", toJson net), ("device", toJson d), ("port", toJson p)]
  | eth mac vlan d p =>
    .obj [("type", .str "eth"), ("mac", toJson mac), ("vlan", toJson vlan), ("device", toJson d),
      ("port", toJson p)]
  | lambda d p channel =>
    .obj [("type", .str "lambda"), ("device", toJson d), ("port", toJson p),
      ("channel", toJson channel)]
  | fiber d p => .obj [("type", .str "fiber"), ("device", toJson d), ("port", toJson p)]

def decode? : Json → Option Endpoint := Json.tagged? "type" fun
  | "ip" => do return ip (← field "prefix") (← field "device") (← field "port")
  | "eth" => do return eth (← field "mac") (← field? "vlan") (← field "device") (← field "port")
  | "lambda" => do return lambda (← field "device") (← field "port") (← field "channel")
  | "fiber" => do return fiber (← field "device") (← field "port")
  | _ => failure

instance : Wire Endpoint := ⟨encode, fun _ => decode?⟩

end Endpoint

structure CandidateLink where
  src : Endpoint
  dst : Endpoint
  deriving DecidableEq

namespace CandidateLink

/-- All pairs of a source and a destination, the sources in the outer order. -/
def product (srcs dsts : List Endpoint) : List CandidateLink :=
  srcs.flatMap fun s => dsts.map fun d => ⟨s, d⟩

def text (l : CandidateLink) : String := l.src.text ++ " => " ++ l.dst.text

instance : Wire CandidateLink where
  toJson l := .obj [("src", toJson l.src), ("dst", toJson l.dst)]
  ofJson? := Json.record? do return ⟨← field "src", ← field "dst"⟩

end CandidateLink

end IntentPlane
