import IntentPlane.Settings.Basic

/-!
# Settings as records

Settings are read from the values of a document. Any section and any setting may be left out, and
unknown ones are passed over.
-/

namespace IntentPlane

open Json (fieldD)

/-- TOML has no null; an empty table or array takes its place. -/
def Json.Dialect.toml : Json.Dialect where
  longArrays := true
  underName
    | .obj [] | .arr [] => true
    | _ => false
  numberedKinds := false

instance : Wire LogFormat := ⟨fun f => .str f.name, fun d j => (d.name? j).bind LogFormat.ofName?⟩

instance : Wire DecompositionSettings where
  toJson s := .obj [("bidirectional", toJson s.bidirectional),
    ("unidirectional", toJson s.unidirectional), ("intent_model", toJson s.intentModel),
    ("bandwidth_level", toJson s.bandwidthLevel), ("delay_level", toJson s.delayLevel),
    ("security_level", toJson s.securityLevel), ("intent_priority", toJson s.intentPriority),
    ("submit_timeout_ms", toJson s.submitTimeoutMs)]
  ofJson? :=
    let default : DecompositionSettings := {}
    Json.record? do
      return {
        bidirectional := ← fieldD "bidirectional" default.bidirectional
        unidirectional := ← fieldD "unidirectional" default.unidirectional
        intentModel := ← fieldD "intent_model" default.intentModel
        bandwidthLevel := ← fieldD "bandwidth_level" default.bandwidthLevel
        delayLevel := ← fieldD "delay_level" default.delayLevel
        securityLevel := ← fieldD "security_level" default.securityLevel
        intentPriority := ← fieldD "intent_priority" default.intentPriority
        submitTimeoutMs := ← fieldD "submit_timeout_ms" default.submitTimeoutMs }

instance : Wire StoreSettings where
  toJson s := .obj [("max_update_retries", toJson s.maxUpdateRetries)]
  ofJson? :=
    let default : StoreSettings := {}
    Json.record? do return ⟨← fieldD "max_update_retries" default.maxUpdateRetries⟩

instance : Wire RecoverySettings where
  toJson s := .obj [("enabled", toJson s.enabled), ("worker_count", toJson s.workerCount),
    ("batch_size", toJson s.batchSize), ("submit_timeout_ms", toJson s.submitTimeoutMs)]
  ofJson? :=
    let default : RecoverySettings := {}
    Json.record? do
      return {
        enabled := ← fieldD "enabled" default.enabled
        workerCount := ← fieldD "worker_count" default.workerCount
        batchSize := ← fieldD "batch_size" default.batchSize
        submitTimeoutMs := ← fieldD "submit_timeout_ms" default.submitTimeoutMs }

namespace ComponentLevels

def readEntry? (member : String × Json) : Option (String × String) :=
  member.2.string?.map (member.1, ·)

def decode? : Json → Option ComponentLevels
  | .obj members => (members.mapM readEntry?).map ofList
  | _ => none

instance : Wire ComponentLevels where
  toJson ls := .obj (ls.entries.map fun (name, level) => (name, toJson level))
  ofJson? _ := decode?

end ComponentLevels

/-- Levels of components are left out where there are none. -/
instance : Wire LoggingSettings where
  toJson s := .obj ([("level", toJson s.level), ("format", toJson s.format)] ++
    (s.componentLevels.map fun ls => ("component_levels", toJson ls)).toList)
  ofJson? :=
    let default : LoggingSettings := {}
    Json.record? do
      return {
        level := ← fieldD "level" default.level
        format := ← fieldD "format" default.format
        componentLevels := ← fieldD "component_levels" default.componentLevels }

instance : Wire Settings where
  toJson s := .obj [("decomposition", toJson s.decomposition), ("store", toJson s.store),
    ("recovery", toJson s.recovery), ("logging", toJson s.logging)]
  ofJson? :=
    let default : Settings := {}
    Json.record? do
      return {
        decomposition := ← fieldD "decomposition" default.decomposition
        store := ← fieldD "store" default.store
        recovery := ← fieldD "recovery" default.recovery
        logging := ← fieldD "logging" default.logging }

end IntentPlane
