import IntentPlane.Proofs.Digits
import IntentPlane.Proofs.Json.Members
import IntentPlane.Settings.Layers

/-!
# Where settings come from

`Settings.Settled` says of each setting which of the three layers decides it: a variable with a
valid value, else the document, else the default. It is built up in two steps. What the document
alone decides is `Settings.GivenBy`, and documents are read just so (`ofJson?_eq_some`); what the
variables change after that is one lemma for all six of them (`Layer.override`).
-/

namespace IntentPlane

open Json (Dialect Fields fieldD lookup)

/-! ## Members of records -/

namespace Json

/-- The member of a record that is declared at a place. It is given by its name, or by its place in
an array. None if it is given twice. -/
def Fields.given? (place : Nat) (name : String) : Fields → Option (Option Json)
  | .named members =>
    match lookup name members with
    | [] => some none
    | [value] => some (some value)
    | _ => none
  | .listed items => some items[place]?

/-- What is left after reading the members before a place. -/
def Fields.drop (place : Nat) : Fields → Fields
  | .named members => .named members
  | .listed items => .listed (items.drop place)

/-- The same of a value, which must be a record. -/
def given? (place : Nat) (name : String) (value : Json) : Option (Option Json) :=
  value.fields?.bind (·.given? place name)

/-- The member of a section. A section that is left out gives nothing. -/
def memberOf (given : Option (Option Json)) (place : Nat) (name : String) : Option (Option Json) :=
  match given with
  | none => none
  | some none => some none
  | some (some value) => value.given? place name

/-- The setting of a section, both by their places and names. -/
def setting? (doc : Json) (place : Nat) (name : String) : Nat → String → Option (Option Json) :=
  memberOf (doc.given? place name)

/-- A member has the value that is given for it, or its default. -/
def Decides [Wire α] (given : Option (Option Json)) (default value : α) : Prop :=
  match given with
  | none => False
  | some none => value = default
  | some (some j) => Wire.ofJson? .toml j = some value

variable [Wire α] {place : Nat} {name : String} {default a : α} {fields : Fields} {value : Json}

theorem Fields.take_drop : Fields.take name (fields.drop place) =
    (fields.given? place name).map (·, fields.drop (place + 1)) := by
  cases fields with
  | named members =>
    simp only [drop, take, given?]
    rcases lookup name members with _ | ⟨value, _ | _⟩ <;> rfl
  | listed items =>
    have hplace : items[place]? = (items.drop place).head? := by simp
    rw [drop, given?, drop, hplace, ← List.tail_drop]
    cases items.drop place <;> rfl

/-- Reading a member is finding out what decides it, and going on to the next place. -/
theorem fieldD_bind_eq_some {f : α → Fields.Reader β} {r : β × Fields} :
    (fieldD name default >>= f) .toml (fields.drop place) = some r ↔
      ∃ a, Decides (fields.given? place name) default a ∧
        f a .toml (fields.drop (place + 1)) = some r := by
  rw [Fields.bind_run, Fields.fieldD_run, Fields.take_drop]
  rcases fields.given? place name with _ | _ | j
  · simp [Decides]
  · simp [Decides]
  · simp only [Decides, Option.map_some, Option.bind_some, Option.elim_some, Option.bind_map,
      Option.bind_eq_some_iff, Function.comp_apply]

omit [Wire α] in
theorem record?_eq_some {reader : Fields.Reader α} {j : Json} :
    record? reader .toml j = some a ↔
      ∃ fields, j.fields? = some fields ∧
        ∃ rest, reader .toml (fields.drop 0) = some (a, rest) := by
  have hread (fields : Fields) : Fields.read reader .toml fields = some a ↔
      ∃ rest, reader .toml (fields.drop 0) = some (a, rest) := by
    have hzero : fields.drop 0 = fields := by cases fields <;> rfl
    rw [hzero]
    change (reader .toml fields).bind (fun x => some x.1) = some a ↔ _
    simp [Option.bind_eq_some_iff]
  simp [record?, Option.bind_eq_some_iff, hread]

end Json

open Json (Decides memberOf fieldD_bind_eq_some record?_eq_some)

/-! ## Reading sections -/

section

variable {given : Option (Option Json)} {j : Json}

theorem decides_decomposition {s : DecompositionSettings} : Decides given {} s ↔
    Decides (memberOf given 0 "bidirectional") true s.bidirectional ∧
    Decides (memberOf given 1 "unidirectional") false s.unidirectional ∧
    Decides (memberOf given 2 "intent_model") .legacy s.intentModel ∧
    Decides (memberOf given 3 "bandwidth_level") 0 s.bandwidthLevel ∧
    Decides (memberOf given 4 "delay_level") 0 s.delayLevel ∧
    Decides (memberOf given 5 "security_level") 0 s.securityLevel ∧
    Decides (memberOf given 6 "intent_priority") 100 s.intentPriority ∧
    Decides (memberOf given 7 "submit_timeout_ms") 5000 s.submitTimeoutMs := by
  cases s
  rcases given with _ | _ | j
  · simp [Decides, memberOf]
  · simp [Decides, memberOf]
  · refine record?_eq_some.trans ?_
    cases hj : j.fields? with
    | none => simp [memberOf, Json.given?, hj, Decides]
    | some fields =>
      simp only [memberOf, Json.given?, hj, Option.bind_some, Option.some.injEq, exists_eq_left',
        fieldD_bind_eq_some]
      constructor
      · rintro ⟨_, _, h₀, _, h₁, _, h₂, _, h₃, _, h₄, _, h₅, _, h₆, _, h₇, h⟩
        cases h
        exact ⟨h₀, h₁, h₂, h₃, h₄, h₅, h₆, h₇⟩
      · rintro ⟨h₀, h₁, h₂, h₃, h₄, h₅, h₆, h₇⟩
        exact ⟨_, _, h₀, _, h₁, _, h₂, _, h₃, _, h₄, _, h₅, _, h₆, _, h₇, rfl⟩

theorem decides_store {s : StoreSettings} : Decides given {} s ↔
    Decides (memberOf given 0 "max_update_retries") 16 s.maxUpdateRetries := by
  cases s
  rcases given with _ | _ | j
  · simp [Decides, memberOf]
  · simp [Decides, memberOf]
  · refine record?_eq_some.trans ?_
    cases hj : j.fields? with
    | none => simp [memberOf, Json.given?, hj, Decides]
    | some fields =>
      simp only [memberOf, Json.given?, hj, Option.bind_some, Option.some.injEq, exists_eq_left',
        fieldD_bind_eq_some]
      constructor
      · rintro ⟨_, _, h₀, h⟩
        cases h
        exact h₀
      · intro h₀
        exact ⟨_, _, h₀, rfl⟩

theorem decides_recovery {s : RecoverySettings} : Decides given {} s ↔
    Decides (memberOf given 0 "enabled") true s.enabled ∧
    Decides (memberOf given 1 "worker_count") 4 s.workerCount ∧
    Decides (memberOf given 2 "batch_size") 64 s.batchSize ∧
    Decides (memberOf given 3 "submit_timeout_ms") 5000 s.submitTimeoutMs := by
  cases s
  rcases given with _ | _ | j
  · simp [Decides, memberOf]
  · simp [Decides, memberOf]
  · refine record?_eq_some.trans ?_
    cases hj : j.fields? with
    | none => simp [memberOf, Json.given?, hj, Decides]
    | some fields =>
      simp only [memberOf, Json.given?, hj, Option.bind_some, Option.some.injEq, exists_eq_left',
        fieldD_bind_eq_some]
      constructor
      · rintro ⟨_, _, h₀, _, h₁, _, h₂, _, h₃, h⟩
        cases h
        exact ⟨h₀, h₁, h₂, h₃⟩
      · rintro ⟨h₀, h₁, h₂, h₃⟩
        exact ⟨_, _, h₀, _, h₁, _, h₂, _, h₃, rfl⟩

theorem decides_logging {s : LoggingSettings} : Decides given {} s ↔
    Decides (memberOf given 0 "level") "info" s.level ∧
    Decides (memberOf given 1 "format") .pretty s.format ∧
    Decides (memberOf given 2 "component_levels") none s.componentLevels := by
  cases s
  rcases given with _ | _ | j
  · simp [Decides, memberOf]
  · simp [Decides, memberOf]
  · refine record?_eq_some.trans ?_
    cases hj : j.fields? with
    | none => simp [memberOf, Json.given?, hj, Decides]
    | some fields =>
      simp only [memberOf, Json.given?, hj, Option.bind_some, Option.some.injEq, exists_eq_left',
        fieldD_bind_eq_some]
      constructor
      · rintro ⟨_, _, h₀, _, h₁, _, h₂, h⟩
        cases h
        exact ⟨h₀, h₁, h₂⟩
      · rintro ⟨h₀, h₁, h₂⟩
        exact ⟨_, _, h₀, _, h₁, _, h₂, rfl⟩

theorem ofJson?_sections {doc : Json} {s : Settings} : Wire.ofJson? .toml doc = some s ↔
    Decides (doc.given? 0 "decomposition") {} s.decomposition ∧
    Decides (doc.given? 1 "store") {} s.store ∧
    Decides (doc.given? 2 "recovery") {} s.recovery ∧
    Decides (doc.given? 3 "logging") {} s.logging := by
  refine record?_eq_some.trans ?_
  cases hdoc : doc.fields? with
  | none => simp [Json.given?, hdoc, Decides]
  | some fields =>
    simp only [Json.given?, hdoc, Option.bind_some, Option.some.injEq, exists_eq_left',
      fieldD_bind_eq_some]
    constructor
    · rintro ⟨_, _, h₀, _, h₁, _, h₂, _, h₃, h⟩
      cases h
      exact ⟨h₀, h₁, h₂, h₃⟩
    · rintro ⟨h₀, h₁, h₂, h₃⟩
      exact ⟨_, _, h₀, _, h₁, _, h₂, _, h₃, rfl⟩

end

/-! ## What variables hold -/

/-- How a flag is written, letters of either case. -/
def IsFlag (text : String) (flag : Bool) : Prop :=
  Text.foldCase text ∈ if flag then ["true", "1", "yes"] else ["false", "0", "no"]

/-- How a model is named, letters of either case and hyphens for underscores. -/
def NamesModel (text : String) : IntentModel → Prop
  | .legacy => (Text.foldCase text).toList.map (fun c => if c = '-' then '_' else c) =
      "legacy".toList
  | .aciPp => (Text.foldCase text).toList.map (fun c => if c = '-' then '_' else c) ∈
      ["aci_pp".toList, "acipp".toList]

/-- How a log format is named, letters of either case. -/
def NamesFormat (text : String) : LogFormat → Prop
  | .pretty => Text.foldCase text = "pretty"
  | .json => Text.foldCase text = "json"

/-- How a count is written: in decimal digits, and perhaps a plus sign before them. -/
def IsCount (text : String) (n : UInt64) : Prop :=
  ∃ digits, (text.toList = digits ∨ text.toList = '+' :: digits) ∧ digits ≠ [] ∧
    (∀ c ∈ digits, c.isDigit) ∧ Nat.ofDigitChars 10 digits 0 = n.toNat

theorem parseFlag?_eq_some {text : String} {flag : Bool} :
    parseFlag? text = some flag ↔ IsFlag text flag := by
  unfold parseFlag? IsFlag
  cases flag <;> split <;> simp_all

theorem parseModel_eq_some {text : String} {model : IntentModel} :
    (IntentModel.parse text).toOption = some model ↔ NamesModel text model := by
  simp only [IntentModel.parse]
  split
  · rename_i hlegacy
    cases model <;> simp [NamesModel, hlegacy, Except.toOption]
  · rename_i hlegacy
    split
    · rename_i haciPp
      cases model with
      | legacy => exact ⟨nofun, fun h => absurd h hlegacy⟩
      | aciPp => simpa [NamesModel, Except.toOption] using haciPp
    · rename_i hnone
      cases model with
      | legacy => exact ⟨nofun, fun h => absurd h hlegacy⟩
      | aciPp => simpa [NamesModel, Except.toOption] using hnone

theorem parseFormat_eq_some {text : String} {format : LogFormat} :
    (LogFormat.parse text).toOption = some format ↔ NamesFormat text format := by
  have hname : (LogFormat.parse text).toOption = LogFormat.ofName? (Text.foldCase text) := by
    unfold LogFormat.parse
    cases LogFormat.ofName? (Text.foldCase text) <;> rfl
  rw [hname]
  unfold LogFormat.ofName? NamesFormat
  cases format <;> split <;> simp_all

theorem parseCount_eq_some {text : String} {n : UInt64} :
    (Text.unsigned? UInt64.size text.toList).map UInt64.ofNat = some n ↔ IsCount text n := by
  simp only [Option.map_eq_some_iff, Text.unsigned?_eq_some, IsCount]
  constructor
  · rintro ⟨m, ⟨digits, htext, hne, hdigits, hm, hlt⟩, rfl⟩
    refine ⟨digits, htext, hne, hdigits, ?_⟩
    rw [hm, UInt64.toNat_ofNat_of_lt' hlt]
  · rintro ⟨digits, htext, hne, hdigits, hn⟩
    exact ⟨n.toNat, ⟨digits, htext, hne, hdigits, hn, n.toNat_lt_size⟩, UInt64.ofNat_toNat⟩

/-! ## Layers -/

/-- A setting has the value of its variable if that is valid, else what the document decides. -/
def Layer [Wire α] (valid : String → α → Prop) (word? : Option String)
    (given : Option (Option Json)) (default value : α) : Prop :=
  (∃ text, word? = some text ∧ valid text value) ∨
    (¬∃ text a, word? = some text ∧ valid text a) ∧ Decides given default value

/-- Each of the settings comes from the first layer that has it. Six variables govern one setting
each. -/
structure Settings.Settled (env : String → Option String) (doc : Json) (s : Settings) : Prop where
  bidirectional : Layer IsFlag (env "DISMI_BIDIRECTIONAL")
    (doc.setting? 0 "decomposition" 0 "bidirectional") true s.decomposition.bidirectional
  unidirectional : Layer IsFlag (env "DISMI_UNIDIRECTIONAL")
    (doc.setting? 0 "decomposition" 1 "unidirectional") false s.decomposition.unidirectional
  intentModel : Layer NamesModel (env "DISMI_INTENT_MODEL")
    (doc.setting? 0 "decomposition" 2 "intent_model") .legacy s.decomposition.intentModel
  bandwidthLevel :
    Decides (doc.setting? 0 "decomposition" 3 "bandwidth_level") 0 s.decomposition.bandwidthLevel
  delayLevel :
    Decides (doc.setting? 0 "decomposition" 4 "delay_level") 0 s.decomposition.delayLevel
  securityLevel :
    Decides (doc.setting? 0 "decomposition" 5 "security_level") 0 s.decomposition.securityLevel
  intentPriority :
    Decides (doc.setting? 0 "decomposition" 6 "intent_priority") 100 s.decomposition.intentPriority
  submitTimeout : Decides (doc.setting? 0 "decomposition" 7 "submit_timeout_ms") 5000
    s.decomposition.submitTimeoutMs
  maxUpdateRetries :
    Decides (doc.setting? 1 "store" 0 "max_update_retries") 16 s.store.maxUpdateRetries
  recoveryEnabled : Decides (doc.setting? 2 "recovery" 0 "enabled") true s.recovery.enabled
  workerCount : Layer IsCount (env "DISMI_RECOVERY_WORKERS")
    (doc.setting? 2 "recovery" 1 "worker_count") 4 s.recovery.workerCount
  batchSize : Decides (doc.setting? 2 "recovery" 2 "batch_size") 64 s.recovery.batchSize
  recoveryTimeout :
    Decides (doc.setting? 2 "recovery" 3 "submit_timeout_ms") 5000 s.recovery.submitTimeoutMs
  logLevel : Layer Eq (env "DISMI_LOG_LEVEL") (doc.setting? 3 "logging" 0 "level") "info"
    s.logging.level
  logFormat : Layer NamesFormat (env "DISMI_LOG_FORMAT") (doc.setting? 3 "logging" 1 "format")
    .pretty s.logging.format
  componentLevels :
    Decides (doc.setting? 3 "logging" 2 "component_levels") none s.logging.componentLevels

section

variable [Wire α] {valid : String → α → Prop} {given : Option (Option Json)} {default a : α}

theorem layer_none : Layer valid none given default a ↔ Decides given default a := by
  simp [Layer]

/-- A variable whose text is read as its valid values are overrides what the document decides. -/
theorem Layer.override {read : String → Option α}
    (hread : ∀ text a, read text = some a ↔ valid text a) (h : Layer valid none given default a)
    (word? : Option String) :
    Layer valid word? given default ((word?.bind read).getD a) := by
  cases hvariable : word?.bind read with
  | some b =>
    obtain ⟨text, htext, hb⟩ := Option.bind_eq_some_iff.mp hvariable
    exact .inl ⟨text, htext, (hread text b).mp hb⟩
  | none =>
    refine .inr ⟨?_, layer_none.mp h⟩
    rintro ⟨text, b, htext, hvalid⟩
    rw [htext, Option.bind_some, (hread text b).mpr hvalid] at hvariable
    cases hvariable

end

namespace Settings

variable {doc : Json} {s : Settings}

/-- A document is read as the settings that it settles where no variable is set. -/
theorem ofJson?_eq_some :
    Wire.ofJson? .toml doc = some s ↔ s.Settled (fun _ => none) doc := by
  rw [ofJson?_sections, decides_decomposition, decides_store, decides_recovery, decides_logging]
  constructor
  · rintro ⟨⟨h₀, h₁, h₂, h₃, h₄, h₅, h₆, h₇⟩, h₈, ⟨h₉, h₁₀, h₁₁, h₁₂⟩, h₁₃, h₁₄, h₁₅⟩
    exact ⟨layer_none.mpr h₀, layer_none.mpr h₁, layer_none.mpr h₂, h₃, h₄, h₅, h₆, h₇, h₈, h₉,
      layer_none.mpr h₁₀, h₁₁, h₁₂, layer_none.mpr h₁₃, layer_none.mpr h₁₄, h₁₅⟩
  · intro h
    exact ⟨⟨layer_none.mp h.bidirectional, layer_none.mp h.unidirectional,
      layer_none.mp h.intentModel, h.bandwidthLevel, h.delayLevel, h.securityLevel,
      h.intentPriority, h.submitTimeout⟩, h.maxUpdateRetries, ⟨h.recoveryEnabled,
      layer_none.mp h.workerCount, h.batchSize, h.recoveryTimeout⟩, layer_none.mp h.logLevel,
      layer_none.mp h.logFormat, h.componentLevels⟩

theorem Settled.override (h : s.Settled (fun _ => none) doc) (env : String → Option String) :
    (s.override (.ofEnvironment env)).Settled env doc :=
  { h with
    bidirectional := h.bidirectional.override (fun _ _ => parseFlag?_eq_some) _
    unidirectional := h.unidirectional.override (fun _ _ => parseFlag?_eq_some) _
    intentModel := h.intentModel.override (fun _ _ => parseModel_eq_some) _
    workerCount := h.workerCount.override (fun _ _ => parseCount_eq_some) _
    logLevel := by
      have hread (text level : String) : some text = some level ↔ text = level := by simp
      have hlevel := h.logLevel.override hread (env "DISMI_LOG_LEVEL")
      rwa [Option.bind_fun_some] at hlevel
    logFormat := h.logFormat.override (fun _ _ => parseFormat_eq_some) _ }

theorem override_override (o : Overrides) : (s.override o).override o = s.override o := by
  have hgetD {α : Type} (value? : Option α) (default : α) :
      value?.getD (value?.getD default) = value?.getD default := by
    cases value? <;> rfl
  simp only [Settings.override, hgetD]

/-! ## Demands -/

/-- What is asked of settings, in the order of asking: the setting to name, and whether it is met. -/
def demands (s : Settings) : List (String × Bool) :=
  [("decomposition", decide (s.decomposition.bidirectional ∨ s.decomposition.unidirectional)),
    ("decomposition.submit_timeout_ms", decide (s.decomposition.submitTimeoutMs ≠ 0)),
    ("recovery.submit_timeout_ms", decide (s.recovery.submitTimeoutMs ≠ 0)),
    ("store.max_update_retries", decide (s.store.maxUpdateRetries ≠ 0)),
    ("recovery.worker_count", decide (s.recovery.workerCount ≠ 0)),
    ("recovery.batch_size", decide (s.recovery.batchSize ≠ 0))]

/-- The fault of settings is the first demand that is not met. -/
theorem field_fault? (s : Settings) :
    s.fault?.map (·.field) = (s.demands.find? fun demand => !demand.2).map (·.1) := by
  simp only [fault?, demands, List.find?_cons, List.find?_nil, ← decide_not, Decidable.not_not]
  repeat' split
  all_goals first | rfl | grind

theorem fault?_eq_none : s.fault? = none ↔
    (s.decomposition.bidirectional = true ∨ s.decomposition.unidirectional = true) ∧
    s.decomposition.submitTimeoutMs ≠ 0 ∧ s.recovery.submitTimeoutMs ≠ 0 ∧
    s.store.maxUpdateRetries ≠ 0 ∧ s.recovery.workerCount ≠ 0 ∧ s.recovery.batchSize ≠ 0 := by
  unfold fault?
  repeat' split
  all_goals simp_all
  grind

end Settings

/-- The document that settings are read from. Without a file it is empty. -/
def SettingsSource.document? : SettingsSource → Option Json
  | .defaults => some (.obj [])
  | .file bytes => (String.fromUTF8? bytes).bind Toml.parse?
  | .missing _ | .directory => none

namespace Settings

theorem load_eq_ok {source : SettingsSource} {s : Settings} :
    load source = .ok s ↔ ∃ doc, source.document? = some doc ∧ s.Settled (fun _ => none) doc := by
  simp only [← ofJson?_eq_some]
  cases source with
  | defaults =>
    have hread : Wire.ofJson? .toml (.obj []) = some ({} : Settings) := rfl
    simp [load, SettingsSource.document?, hread]
  | missing | directory => simp [load, SettingsSource.document?]
  | file bytes =>
    simp only [load, SettingsSource.document?]
    cases String.fromUTF8? bytes with
    | none => simp
    | some text =>
      rw [Option.bind_some, ← Option.bind_eq_some_iff]
      change _ ↔ ofToml? text = some s
      cases h : ofToml? text <;> simp [h]

/-- Settings come from three layers, each setting by itself. A document is read if every setting
it gives is valid, whatever else it gives; each setting is then that of its variable, of the
document or the default. Applying the variables again changes nothing, and the result has no fault
just if all demands are met, and else the first that is not. -/
theorem settled_by_layers (source : SettingsSource) (s : Settings) (env : String → Option String) :
    (load source = .ok s ↔
      ∃ doc, source.document? = some doc ∧ s.Settled (fun _ => none) doc) ∧
    let t := s.override (.ofEnvironment env)
    (load source = .ok s → ∃ doc, source.document? = some doc ∧ t.Settled env doc) ∧
    t.override (.ofEnvironment env) = t ∧
    (t.fault? = none ↔
      (t.decomposition.bidirectional = true ∨ t.decomposition.unidirectional = true) ∧
      t.decomposition.submitTimeoutMs ≠ 0 ∧ t.recovery.submitTimeoutMs ≠ 0 ∧
      t.store.maxUpdateRetries ≠ 0 ∧ t.recovery.workerCount ≠ 0 ∧ t.recovery.batchSize ≠ 0) ∧
    t.fault?.map (·.field) = (t.demands.find? fun demand => !demand.2).map (·.1) := by
  refine ⟨load_eq_ok, ?_, override_override _, fault?_eq_none, field_fault? _⟩
  intro hload
  obtain ⟨doc, hdoc, hsettled⟩ := load_eq_ok.mp hload
  exact ⟨doc, hdoc, hsettled.override env⟩

/-- A file with an unknown setting, and one section in part. -/
def trialFile : String := "retired = 1\n[recovery]\nworker_count = 8\nbatch_size = 0\n"

/-- Variables with a count that is none, and a flag in capitals. -/
def trialEnvironment : String → Option String
  | "DISMI_RECOVERY_WORKERS" => some "many"
  | "DISMI_BIDIRECTIONAL" => some "NO"
  | "DISMI_UNIDIRECTIONAL" => some "1"
  | _ => none

theorem trial_settled : ∃ s doc, load (.file trialFile.toUTF8) = .ok s ∧
    s.override (.ofEnvironment trialEnvironment) =
      { decomposition := { bidirectional := false, unidirectional := true }
        recovery := { workerCount := 8, batchSize := 0 } } ∧
    (s.override (.ofEnvironment trialEnvironment)).Settled trialEnvironment doc ∧
    (s.override (.ofEnvironment trialEnvironment)).fault? = some .zeroBatch := by
  have htext : String.fromUTF8? trialFile.toUTF8 = some trialFile := dif_pos trialFile.isValidUTF8
  have hread : ofToml? trialFile = some { recovery := { workerCount := 8, batchSize := 0 } } := by
    decide +kernel
  have hload : load (.file trialFile.toUTF8) =
      .ok { recovery := { workerCount := 8, batchSize := 0 } } := by
    simp only [load, htext, hread]
  obtain ⟨-, hsettled, -⟩ := settled_by_layers (.file trialFile.toUTF8) _ trialEnvironment
  obtain ⟨doc, -, hdoc⟩ := hsettled hload
  exact ⟨_, doc, hload, by decide +kernel, hdoc, by decide +kernel⟩

end Settings

end IntentPlane
