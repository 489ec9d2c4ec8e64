import IntentPlane.Request.Basic

/-!
# Expanding actions

An action is expanded into the legs that become intents, one intent a leg. In bidirectional mode a
leg carries traffic both ways; otherwise each direction has a leg of its own.
-/

namespace IntentPlane

/-- Numbers handed out during a run, and the issues found on the way. -/
structure Tracker where
  assigned : UInt32
  issues : List String

namespace Tracker

def empty : Tracker := ⟨0, []⟩

/-- The next number, one above the last. -/
def nextId (t : Tracker) : UInt32 × Tracker :=
  (t.assigned + 1, { t with assigned := t.assigned + 1 })

def recordIssue (issue : String) (t : Tracker) : Tracker := { t with issues := t.issues ++ [issue] }

/-- A run with issues is not valid. -/
def isValid (t : Tracker) : Bool := t.issues.isEmpty

end Tracker

/-- Every pair of an item and one after it. -/
def pairsOf : List α → List (α × α)
  | [] => []
  | a :: rest => rest.map (a, ·) ++ pairsOf rest

namespace Pair

/-- Numbers the pairs in order. -/
def numbered : List (Subject × Subject) → Tracker → List Pair × Tracker
  | [], t => ([], t)
  | (source, destination) :: rest, t =>
    let (id, t) := t.nextId
    let (pairs, t) := numbered rest t
    (⟨id, source, destination⟩ :: pairs, t)

end Pair

namespace Mesh

/-- One undirected connection for every two subjects. -/
def connections (m : Mesh) : Tracker → List Pair × Tracker := Pair.numbered (pairsOf m.subjects)

/-- A path each way for every two subjects, the forward one first. -/
def paths (m : Mesh) : Tracker → List Pair × Tracker :=
  Pair.numbered ((pairsOf m.subjects).flatMap fun (a, b) => [(a, b), (b, a)])

end Mesh

/-- A source and a destination to be realized by one intent. -/
structure Leg where
  source : Subject
  destination : Subject
  bidirectional : Bool
  deriving DecidableEq

namespace Leg

def ofPair (bidirectional : Bool) (p : Pair) : Leg := ⟨p.source, p.destination, bidirectional⟩

def reverse (l : Leg) : Leg := { l with source := l.destination, destination := l.source }

end Leg

namespace Action

/-- The legs of an action. A path is a single leg in either mode. -/
def legs (bidirectional : Bool) : Action → Tracker → List Leg × Tracker
  | connection p, t =>
    let leg := Leg.ofPair bidirectional p
    (if bidirectional then [leg] else [leg, leg.reverse], t)
  | path p, t => ([.ofPair bidirectional p], t)
  | mesh m, t =>
    let (pairs, t) := if bidirectional then m.connections t else m.paths t
    (pairs.map (.ofPair bidirectional), t)

end Action

end IntentPlane
