import IntentPlane.Toml.Lexical
import IntentPlane.Toml.Number
import IntentPlane.Toml.Table

/-!
# Reading TOML documents

A document of version 1.0 is read as the value it describes. A date or time reads as an object with
one member of a private name, which holds its canonical text.
-/

namespace IntentPlane.Toml

/-- Keys have fewer parts than this, and values are nested less deeply. -/
def depthLimit : Nat := 80

def ofDateTime (text : List Char) : Json :=
  .obj [("$__toml_private_datetime", .str (.ofList text))]

def number? (cs : List Char) : Option (Json × List Char) :=
  match dateTime? cs with
  | some (text, rest) => some (ofDateTime text, rest)
  | none => (float? cs).or (integer? cs)

/-- Takes a fixed word off the text. -/
def word? (word : List Char) (value : Json) (cs : List Char) : Option (Json × List Char) :=
  if word.isPrefixOf cs then some (value, cs.drop word.length) else none

/-- Adds a value under a key to a table. -/
def insertAt? (key : List String) (value : Json) (node : Node) : Option Node := do
  node.insert? key.dropLast (← key.getLast?) value

mutual

/-- Reads a value that is nested less than `depth` deep. The fuel bounds the number of readers
entered; the length of the text is enough. -/
def value? (depth : Nat) : (fuel : Nat) → List Char → Option (Json × List Char)
  | 0, _ => none
  | fuel + 1, cs =>
    match cs with
    | '[' :: rest => do
      guard (1 < depth)
      let (items, rest) ← items? (depth - 1) fuel (skipTrivia false rest)
      return (.arr items, rest)
    | '{' :: rest => do
      guard (1 < depth)
      match skipSpace rest with
      | '}' :: rest => return (.obj [], rest)
      | rest =>
        let (table, rest) ← members? (depth - 1) fuel .root rest
        return (table.toJson, rest)
    | 't' :: _ => word? ['t', 'r', 'u', 'e'] (.bool true) cs
    | 'f' :: _ => word? ['f', 'a', 'l', 's', 'e'] (.bool false) cs
    | '"' :: _ | '\'' :: _ => (string? cs).map fun (text, rest) => (.str (.ofList text), rest)
    | _ => number? cs

/-- Reads the items of an array up to its closing bracket. A comma may follow the last. -/
def items? (depth : Nat) : (fuel : Nat) → List Char → Option (List Json × List Char)
  | 0, _ => none
  | fuel + 1, cs =>
    match cs with
    | ']' :: rest => some ([], rest)
    | _ => do
      let (item, rest) ← value? depth fuel cs
      match skipTrivia false rest with
      | ']' :: rest => return ([item], rest)
      | ',' :: rest =>
        let (items, rest) ← items? depth fuel (skipTrivia false rest)
        return (item :: items, rest)
      | _ => none

/-- Reads the members of an inline table up to its closing brace. -/
def members? (depth : Nat) : (fuel : Nat) → Node → List Char → Option (Node × List Char)
  | 0, _, _ => none
  | fuel + 1, table, cs => do
    let (key, rest) ← key? (depthLimit - 1) cs
    let (value, rest) ← value? depth fuel (skipSpace (← char? '=' rest))
    let table ← insertAt? key value table
    match skipSpace rest with
    | '}' :: rest => return (table, rest)
    | ',' :: rest => members? depth fuel table rest
    | _ => none

end

/-- Reads the lines of a document into a tree; `header` is the path of the table under whose header
the next lines stand. -/
def lines? (header : List String) (tree : Node) : (fuel : Nat) → List Char → Option Node
  | 0, _ => none
  | fuel + 1, cs =>
    match skipSpace cs with
    | [] => some tree
    | '[' :: '[' :: rest => do
      let (key, rest) ← key? (depthLimit - 1) rest
      let rest ← endOfLine? (← char? ']' (← char? ']' rest))
      lines? key (← tree.openNext? key.dropLast (← key.getLast?)) fuel rest
    | '[' :: rest => do
      let (key, rest) ← key? (depthLimit - 1) rest
      let rest ← endOfLine? (← char? ']' rest)
      lines? key (← tree.openTable? key.dropLast (← key.getLast?)) fuel rest
    | c :: rest =>
      match endOfLine? (c :: rest) with
      | some rest => lines? header tree fuel rest
      | none => do
        let (key, rest) ← key? (depthLimit - 1) (c :: rest)
        let (value, rest) ← value? depthLimit (rest.length + 1) (skipSpace (← char? '=' rest))
        let rest ← endOfLine? rest
        lines? header (← tree.update? .implied (insertAt? key value) header) fuel rest

/-- Reads a document. A byte order mark before it does not count. -/
def parse? (text : String) : Option Json :=
  let cs := match text.toList with
    | '\uFEFF' :: rest => rest
    | cs => cs
  (lines? [] .root (cs.length + 1) cs).map Node.toJson

end IntentPlane.Toml
