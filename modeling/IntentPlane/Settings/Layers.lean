import IntentPlane.Settings.Record
import IntentPlane.Toml.Reader

/-!
# Layers of settings

A setting comes from the environment if a variable governs it and holds a valid value, else from the
configuration file if the file gives it, else from the defaults.
-/

namespace IntentPlane

/-- Where the settings below the environment come from: no file, a path where there is none, a path
that is a directory, or a file with its bytes. -/
inductive SettingsSource where
  | defaults
  | missing (path : String)
  | directory
  | file (bytes : ByteArray)

/-- Why a source holds no settings. -/
inductive LoadError where
  | notFound (path : String)
  | unreadable
  | malformed

namespace LoadError

/-- The message of an error that can be told without the file. -/
def message? : LoadError → Option String
  | notFound path => some ("config file " ++ path ++ " does not exist")
  | unreadable | malformed => none

end LoadError

/-- The first demand on the settings that they do not meet. -/
inductive SettingsFault where
  | noDirection
  | zeroSubmitTimeout
  | zeroRecoveryTimeout
  | zeroAttempts
  | zeroWorkers
  | zeroBatch
  deriving DecidableEq

namespace SettingsFault

def field : SettingsFault → String
  | noDirection => "decomposition"
  | zeroSubmitTimeout => "decomposition.submit_timeout_ms"
  | zeroRecoveryTimeout => "recovery.submit_timeout_ms"
  | zeroAttempts => "store.max_update_retries"
  | zeroWorkers => "recovery.worker_count"
  | zeroBatch => "recovery.batch_size"

def reason : SettingsFault → String
  | noDirection => "one of bidirectional or unidirectional must be enabled"
  | zeroSubmitTimeout | zeroRecoveryTimeout => "timeout must be non-zero"
  | zeroAttempts => "at least one attempt is required"
  | zeroWorkers => "worker count must be non-zero"
  | zeroBatch => "batch size must be non-zero"

def message (f : SettingsFault) : String := "invalid '" ++ f.field ++ "': " ++ f.reason

end SettingsFault

/-- Reads a flag as people write it. -/
def parseFlag? (text : String) : Option Bool :=
  match Text.foldCase text with
  | "true" | "1" | "yes" => some true
  | "false" | "0" | "no" => some false
  | _ => none

namespace Settings

/-- Reads the settings of a TOML document. -/
def ofToml? (text : String) : Option Settings := (Toml.parse? text).bind (Wire.ofJson? .toml)

def load : SettingsSource → Except LoadError Settings
  | .defaults => .ok {}
  | .missing path => .error (.notFound path)
  | .directory => .error .unreadable
  | .file bytes =>
    match String.fromUTF8? bytes with
    | none => .error .unreadable
    | some text =>
      match ofToml? text with
      | none => .error .malformed
      | some settings => .ok settings

/-- The values of the variables that govern settings. A value that is not valid counts as not set.
-/
structure Overrides where
  bidirectional : Option Bool
  unidirectional : Option Bool
  intentModel : Option IntentModel
  workerCount : Option UInt64
  level : Option String
  format : Option LogFormat

namespace Overrides

def ofEnvironment (valueOf? : String → Option String) : Overrides where
  bidirectional := (valueOf? "DISMI_BIDIRECTIONAL").bind parseFlag?
  unidirectional := (valueOf? "DISMI_UNIDIRECTIONAL").bind parseFlag?
  intentModel := (valueOf? "DISMI_INTENT_MODEL").bind fun text => (IntentModel.parse text).toOption
  workerCount := (valueOf? "DISMI_RECOVERY_WORKERS").bind fun text =>
    (Text.unsigned? UInt64.size text.toList).map .ofNat
  level := valueOf? "DISMI_LOG_LEVEL"
  format := (valueOf? "DISMI_LOG_FORMAT").bind fun text => (LogFormat.parse text).toOption

end Overrides

/-- Puts the overrides that are set in the place of what the settings hold. -/
def override (s : Settings) (o : Overrides) : Settings where
  decomposition := { s.decomposition with
    bidirectional := o.bidirectional.getD s.decomposition.bidirectional
    unidirectional := o.unidirectional.getD s.decomposition.unidirectional
    intentModel := o.intentModel.getD s.decomposition.intentModel }
  store := s.store
  recovery := { s.recovery with workerCount := o.workerCount.getD s.recovery.workerCount }
  logging := { s.logging with
    level := o.level.getD s.logging.level
    format := o.format.getD s.logging.format }

/-- The first fault of the settings, if they have one. -/
def fault? (s : Settings) : Option SettingsFault :=
  if ¬s.decomposition.bidirectional ∧ ¬s.decomposition.unidirectional then some .noDirection
  else if s.decomposition.submitTimeoutMs = 0 then some .zeroSubmitTimeout
  else if s.recovery.submitTimeoutMs = 0 then some .zeroRecoveryTimeout
  else if s.store.maxUpdateRetries = 0 then some .zeroAttempts
  else if s.recovery.workerCount = 0 then some .zeroWorkers
  else if s.recovery.batchSize = 0 then some .zeroBatch
  else none

end Settings

end IntentPlane
