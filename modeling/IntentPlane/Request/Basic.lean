import IntentPlane.Constraint.Basic
import IntentPlane.Endpoint

/-!
# Service requests

A request asks for one action: an undirected connection, a directed path, or a mesh of all its
subjects.
-/

namespace IntentPlane

open Json (field fieldD)

/-- One end of an action: a connection point with constraints of its own. -/
structure Subject where
  point : ConnectionPoint
  constraints : List Constraint
  deriving DecidableEq

namespace Subject

instance : BEq Subject := ⟨fun s t => s.point = t.point && s.constraints == t.constraints⟩

instance : Wire Subject where
  toJson s := .obj [("point", toJson s.point), ("constraints", toJson s.constraints)]
  ofJson? := Json.record? do return ⟨← field "point", ← fieldD "constraints" []⟩

end Subject

/-- Two subjects to connect, and the number that the pair has in its run. -/
structure Pair where
  id : UInt32
  source : Subject
  destination : Subject
  deriving DecidableEq

namespace Pair

instance : BEq Pair where
  beq p q := p.id = q.id && p.source == q.source && p.destination == q.destination

def members (p : Pair) : List (String × Json) :=
  [("id", toJson p.id), ("source", toJson p.source), ("destination", toJson p.destination)]

def reader : Json.Fields.Reader Pair := do
  return ⟨← fieldD "id" 0, ← field "source", ← field "destination"⟩

instance : Wire Pair := ⟨fun p => .obj p.members, Json.record? reader⟩

end Pair

/-- Subjects to connect with one another. -/
structure Mesh where
  subjects : List Subject
  deriving DecidableEq

namespace Mesh

instance : BEq Mesh := ⟨fun m n => m.subjects == n.subjects⟩

def members (m : Mesh) : List (String × Json) := [("subjects", toJson m.subjects)]

def reader : Json.Fields.Reader Mesh := do return ⟨← field "subjects"⟩

instance : Wire Mesh := ⟨fun m => .obj m.members, Json.record? reader⟩

end Mesh

inductive Action where
  | connection (pair : Pair)
  | path (pair : Pair)
  | mesh (mesh : Mesh)
  deriving DecidableEq

namespace Action

instance : BEq Action where
  beq
    | connection p, connection q | path p, path q => p == q
    | mesh m, mesh n => m == n
    | _, _ => false

def encode : Action → Json
  | connection p => .obj (("kind", .str "connection") :: p.members)
  | path p => .obj (("kind", .str "path") :: p.members)
  | mesh m => .obj (("kind", .str "mesh") :: m.members)

def decode? : Json → Option Action := Json.tagged? "kind" fun
  | "connection" => connection <$> Pair.reader
  | "path" => path <$> Pair.reader
  | "mesh" => mesh <$> Mesh.reader
  | _ => failure

instance : Wire Action := ⟨encode, fun _ => decode?⟩

end Action

/-- An action with the constraints on everything derived from it. A negotiable request accepts less
than it asks for when the constraints cannot be met. -/
structure ServiceRequest where
  action : Action
  constraints : List Constraint
  negotiable : Bool
  deriving DecidableEq

namespace ServiceRequest

instance : BEq ServiceRequest where
  beq r s := r.action == s.action && r.constraints == s.constraints && r.negotiable = s.negotiable

instance : Wire ServiceRequest where
  toJson r := .obj [("action", toJson r.action), ("constraints", toJson r.constraints),
    ("negotiable", toJson r.negotiable)]
  ofJson? := Json.record? do
    return ⟨← field "action", ← fieldD "constraints" [], ← fieldD "negotiable" false⟩

end ServiceRequest

end IntentPlane
