import IntentPlane.Wire.Basic

/-!
# Constraints

Requirements that a service request or one of its ends puts on the intents derived from it.
-/

namespace IntentPlane

open Json (field)

def nanosPerSecond : Nat := 1000000000

/-- A span of time: whole seconds and the nanoseconds beyond them. -/
structure Latency where
  secs : UInt64
  nanos : UInt32
  nanos_lt : nanos.toNat < nanosPerSecond
  deriving DecidableEq

namespace Latency

/-- The span of `secs` seconds and `nanos` nanoseconds, unless its seconds overflow. Nanoseconds of
a second or more carry into the seconds. -/
def ofParts? (secs nanos : Nat) : Option Latency :=
  let whole := secs + nanos / nanosPerSecond
  if whole < UInt64.size then
    some ⟨.ofNat whole, .ofNat (nanos % nanosPerSecond), by
      have : nanos % nanosPerSecond < nanosPerSecond := Nat.mod_lt _ (by decide)
      have : nanosPerSecond < UInt32.size := by decide
      rw [UInt32.toNat_ofNat_of_lt' (by omega)]
      assumption⟩
  else none

def ofMillis (ms : UInt64) : Latency :=
  (ofParts? (ms.toNat / 1000) (ms.toNat % 1000 * 1000000)).getD ⟨0, 0, by decide⟩

def toNanos (l : Latency) : Nat := l.secs.toNat * nanosPerSecond + l.nanos.toNat

def reader : Json.Fields.Reader (UInt64 × UInt32) := do return (← field "secs", ← field "nanos")

/-- Reads a span from its two parts, and from nothing else. -/
def decode? (d : Json.Dialect) (j : Json) : Option Latency := do
  if let .obj members := j then
    guard (members.all fun (name, _) => name = "secs" || name = "nanos")
  let (secs, nanos) ← Json.record? reader d j
  ofParts? secs.toNat nanos.toNat

instance : Wire Latency where
  toJson l := .obj [("secs", toJson l.secs), ("nanos", toJson l.nanos)]
  ofJson? := decode?

end Latency

/-- A requirement on a connection. Bandwidth is in bits per second and a lower bound; latency is an
upper bound. -/
inductive Constraint where
  | bandwidth (bps : Float)
  | latency (bound : Latency)
  | encryption
  | highAvailability
  | availability
  | restoration
  | negotiable
  deriving DecidableEq

namespace Constraint

def bandwidthMbps (mbps : Float) : Constraint := .bandwidth (mbps * Float.ofBits 0x412E848000000000)

def latencyMillis (ms : UInt64) : Constraint := .latency (.ofMillis ms)

/-- Bandwidths are compared as numbers: no NaN is like itself, and the two zeros are alike. -/
instance : BEq Constraint where
  beq
    | bandwidth x, bandwidth y => x == y
    | c, d => decide (c = d)

/-- The kinds that carry no value. -/
def plain? : String → Option Constraint
  | "encryption" => some encryption
  | "high_availability" => some highAvailability
  | "availability" => some availability
  | "restoration" => some restoration
  | "negotiable" => some negotiable
  | _ => none

/-- The constraint of a kind, from its value. A kind that carries none may be given null. -/
def ofKind? (d : Json.Dialect) (kind : String) (value : Option Json) : Option Constraint :=
  match kind with
  | "bandwidth" => do return bandwidth (← Wire.ofJson? d (← value))
  | "latency" => do return latency (← Wire.ofJson? d (← value))
  | _ => do
    let plain ← plain? kind
    match value with
    | none | some .null => some plain
    | _ => none

def encode : Constraint → Json
  | bandwidth bps => .obj [("type", .str "bandwidth"), ("value", toJson bps)]
  | latency bound => .obj [("type", .str "latency"), ("value", toJson bound)]
  | encryption => .obj [("type", .str "encryption")]
  | highAvailability => .obj [("type", .str "high_availability")]
  | availability => .obj [("type", .str "availability")]
  | restoration => .obj [("type", .str "restoration")]
  | negotiable => .obj [("type", .str "negotiable")]

def kinds : List String :=
  ["bandwidth", "latency", "encryption", "high_availability", "availability", "restoration",
    "negotiable"]

def headKind? (d : Json.Dialect) : Json → Option String
  | .str name => some name
  | .int n => if d.numberedKinds ∧ 0 ≤ n then kinds[n.toNat]? else none
  | _ => none

/-- The kind and the value of a constraint that stands in an object. -/
def reader : Json.Fields.Reader (String × Option Json) := do
  return (← Json.Fields.required "type" Json.Dialect.name?, ← Json.Fields.take "value")

/-- Reads a constraint from an object, or from an array of its kind and its value, null where there
is none. -/
def decode? (d : Json.Dialect) : Json → Option Constraint
  | .obj members => do
    let (kind, value) ← Json.Fields.read reader d (.named members)
    ofKind? d kind value
  | .arr [head, value] => do ofKind? d (← headKind? d head) (some value)
  | _ => none

instance : Wire Constraint := ⟨encode, decode?⟩

end Constraint

end IntentPlane
