import IntentPlane.Intent

/-!
# Settings

How the orchestrator is set up. Every setting has a default.
-/

namespace IntentPlane

open Json (fieldD)

/-- How requests are turned into intents. Bidirectional mode wins when both modes are enabled. -/
structure DecompositionSettings where
  bidirectional : Bool := true
  unidirectional : Bool := false
  intentModel : IntentModel := .legacy
  bandwidthLevel : UInt64 := 0
  delayLevel : UInt64 := 0
  securityLevel : UInt64 := 0
  intentPriority : UInt16 := 100
  submitTimeoutMs : UInt64 := 5000
  deriving DecidableEq

structure StoreSettings where
  maxUpdateRetries : UInt32 := 16
  deriving DecidableEq

structure RecoverySettings where
  enabled : Bool := true
  workerCount : UInt64 := 4
  batchSize : UInt64 := 64
  submitTimeoutMs : UInt64 := 5000
  deriving DecidableEq

inductive LogFormat where
  | pretty
  | json
  deriving DecidableEq

/-- A text that names no log format. -/
structure UnknownFormat where
  text : String

def UnknownFormat.message (e : UnknownFormat) : String := "Invalid log format: " ++ e.text

namespace LogFormat

def name : LogFormat → String
  | pretty => "pretty"
  | json => "json"

def ofName? : String → Option LogFormat
  | "pretty" => some pretty
  | "json" => some json
  | _ => none

/-- Reads a format in any case. -/
def parse (text : String) : Except UnknownFormat LogFormat :=
  match ofName? (Text.foldCase text) with
  | some format => .ok format
  | none => .error ⟨text⟩

end LogFormat

/-- Log levels of single components, in the order of their names. -/
structure ComponentLevels where
  entries : List (String × String)
  sorted : entries.Pairwise fun a b => a.1 < b.1
  deriving DecidableEq

namespace ComponentLevels

def empty : ComponentLevels := ⟨[], .nil⟩

/-- Sets the level of a component in a list ordered by name. -/
def setEntry (name level : String) : List (String × String) → List (String × String)
  | [] => [(name, level)]
  | (other, value) :: rest =>
    if name < other then (name, level) :: (other, value) :: rest
    else if name = other then (name, level) :: rest
    else (other, value) :: setEntry name level rest

theorem mem_setEntry {name level : String} {es : List (String × String)} {e : String × String}
    (h : e ∈ setEntry name level es) : e.1 = name ∨ e ∈ es := by
  induction es with
  | nil => simp_all [setEntry]
  | cons f es ih =>
    unfold setEntry at h
    split at h
    · grind
    · split at h <;> grind

theorem sorted_setEntry (name level : String) {es : List (String × String)}
    (h : es.Pairwise fun a b => a.1 < b.1) :
    (setEntry name level es).Pairwise fun a b => a.1 < b.1 := by
  induction es with
  | nil => simp [setEntry]
  | cons f es ih =>
    obtain ⟨hf, hes⟩ := List.pairwise_cons.1 h
    unfold setEntry
    split
    · rename_i hlt
      refine List.pairwise_cons.2 ⟨fun e he => ?_, h⟩
      rcases List.mem_cons.1 he with rfl | he
      · exact hlt
      · exact String.lt_trans hlt (hf e he)
    · split
      · rename_i heq
        exact List.pairwise_cons.2 ⟨fun e he => heq ▸ hf e he, hes⟩
      · rename_i hlt hne
        refine List.pairwise_cons.2 ⟨fun e he => ?_, ih hes⟩
        rcases mem_setEntry he with he | he
        · rw [he]
          exact Std.lt_of_le_of_ne (String.not_lt.1 hlt) fun h => hne h.symm
        · exact hf e he

def insert (ls : ComponentLevels) (name level : String) : ComponentLevels :=
  ⟨setEntry name level ls.entries, sorted_setEntry name level ls.sorted⟩

/-- The levels that a sequence sets; of two for one component the later counts. -/
def ofList (es : List (String × String)) : ComponentLevels :=
  es.foldl (fun ls (name, level) => ls.insert name level) empty

end ComponentLevels

structure LoggingSettings where
  level : String := "info"
  format : LogFormat := .pretty
  componentLevels : Option ComponentLevels := none
  deriving DecidableEq

/-- The directives of the log filter: the level of all, and then of each component. -/
def LoggingSettings.filter (s : LoggingSettings) : String :=
  let components := (s.componentLevels.map (·.entries)).getD []
  s.level ++ .join (components.map fun (name, level) => ",dismi::" ++ name ++ "=" ++ level)

structure Settings where
  decomposition : DecompositionSettings := {}
  store : StoreSettings := {}
  recovery : RecoverySettings := {}
  logging : LoggingSettings := {}
  deriving DecidableEq

end IntentPlane
