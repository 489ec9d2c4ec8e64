import IntentPlane.Json.Basic

/-!
# Building tables

A document defines its tables piece by piece, under headers and by dotted keys. What may still be
added to a table depends on how it came about.
-/

namespace IntentPlane.Toml

/-- How a table came about: under a header of its own, on the way to a longer header, or on the way
of a dotted key. -/
inductive Origin where
  | header
  | implied
  | dotted
  deriving DecidableEq

/-- A part of a document: a value that is complete, a table, or an array of tables. -/
inductive Node where
  | value (value : Json)
  | table (origin : Origin) (members : List (String × Node))
  | tables (items : List Node)

namespace Node

def root : Node := .table .header []

def find? (key : String) (members : List (String × Node)) : Option Node :=
  (members.find? (·.1 = key)).map (·.2)

def set (key : String) (node : Node) : List (String × Node) → List (String × Node)
  | [] => [(key, node)]
  | (other, n) :: rest =>
    if other = key then (key, node) :: rest else (other, n) :: set key node rest

/-- Changes the table at a path. Tables missing on the way come about as `origin`. The way leads
into the last of an array of tables. A dotted key does not lead into a table with a header. -/
def update? (origin : Origin) (change : Node → Option Node) : List String → Node → Option Node
  | [], node => change node
  | key :: path, .table own members => do
    let child ← match find? key members with
      | none => update? origin change path (.table origin [])
      | some (.value _) => none
      | some (.tables items) =>
        (items.getLast?.bind (update? origin change path)).map fun last =>
          .tables (items.dropLast ++ [last])
      | some (.table own members) =>
        if origin = .dotted ∧ own = .header then none
        else update? origin change path (.table own members)
    return .table own (set key child members)
  | _, _ => none

/-- Adds a member to a table, which must not have it. -/
def add? (key : String) (node : Node) : Node → Option Node
  | .table own members =>
    if (find? key members).isSome then none else some (.table own (members ++ [(key, node)]))
  | _ => none

/-- Adds a value under a key that may be dotted. A table on the way of a dotted key holds nothing
that was not put there by dotted keys. -/
def insert? (path : List String) (key : String) (value : Json) : Node → Option Node :=
  update? .dotted (fun node =>
    match node with
    | .table own _ =>
      if (own = .dotted) = (path ≠ []) then add? key (.value value) node else none
    | _ => none) path

/-- Opens a table under its header: a new one, or one that was only implied so far. -/
def openTable? (path : List String) (key : String) : Node → Option Node :=
  update? .implied (fun node =>
    match node with
    | .table own members =>
      match find? key members with
      | none => some (.table own (members ++ [(key, .table .header [])]))
      | some (.table .implied ms) => some (.table own (set key (.table .header ms) members))
      | _ => none
    | _ => none) path

/-- Opens the next table of an array of tables. -/
def openNext? (path : List String) (key : String) : Node → Option Node :=
  update? .implied (fun node =>
    match node with
    | .table own members =>
      match find? key members with
      | none => some (.table own (members ++ [(key, .tables [root])]))
      | some (.tables items) => some (.table own (set key (.tables (items ++ [root])) members))
      | _ => none
    | _ => none) path

mutual

/-- A document as a value: tables are objects. -/
def toJson : Node → Json
  | .value v => v
  | .table _ members => .obj (membersToJson members)
  | .tables items => .arr (itemsToJson items)

def membersToJson : List (String × Node) → List (String × Json)
  | [] => []
  | (key, node) :: rest => (key, toJson node) :: membersToJson rest

def itemsToJson : List Node → List Json
  | [] => []
  | node :: rest => toJson node :: itemsToJson rest

end

end Node

end IntentPlane.Toml
