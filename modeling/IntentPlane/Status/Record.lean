import IntentPlane.Intent

/-!
# Service records

The record of a service holds the status of each intent the service was decomposed into, in the
order in which the intents were first recorded.
-/

namespace IntentPlane

open Json (field)

/-- What is known of one intent of a service: its status, the candidate links not tried yet, and
whether its path is calculated. -/
structure KeyStatus where
  key : IntentKey
  status : IntentStatus
  links : List CandidateLink
  calculated : Bool
  deriving DecidableEq

namespace KeyStatus

def withStatus (status : IntentStatus) (e : KeyStatus) : KeyStatus := { e with status }

def withLinks (links : List CandidateLink) (e : KeyStatus) : KeyStatus := { e with links }

def withCalculated (calculated : Bool) (e : KeyStatus) : KeyStatus := { e with calculated }

def fresh (key : IntentKey) (status : IntentStatus) : KeyStatus := ⟨key, status, [], false⟩

instance : Wire KeyStatus where
  toJson e := .obj [("key", toJson e.key), ("status", toJson e.status),
    ("abstraction_links", toJson e.links), ("calculated", toJson e.calculated)]
  ofJson? := Json.record? do
    return ⟨← field "key", ← field "status", ← field "abstraction_links", ← field "calculated"⟩

end KeyStatus

structure ServiceRecord where
  entries : List KeyStatus
  deriving DecidableEq

namespace ServiceRecord

def empty : ServiceRecord := ⟨[]⟩

/-- Puts an entry in the place of the first one with its key, or last. -/
def upsertEntry (e : KeyStatus) : List KeyStatus → List KeyStatus
  | [] => [e]
  | f :: rest => if f.key = e.key then e :: rest else f :: upsertEntry e rest

def upsert (r : ServiceRecord) (e : KeyStatus) : ServiceRecord := ⟨upsertEntry e r.entries⟩

/-- The record that a sequence of entries builds; of two with one key the later counts. -/
def ofEntries (es : List KeyStatus) : ServiceRecord := es.foldl upsert empty

def get? (r : ServiceRecord) (k : IntentKey) : Option KeyStatus := r.entries.find? (·.key = k)

def contains (r : ServiceRecord) (k : IntentKey) : Bool := (r.get? k).isSome

def keys (r : ServiceRecord) : List IntentKey := r.entries.map (·.key)

/-- Sets the candidate links of an intent. One without an entry is requested to be installed. -/
def setLinks (k : IntentKey) (links : List CandidateLink) (r : ServiceRecord) : ServiceRecord :=
  r.upsert (((r.get? k).getD (.fresh k .installReq)).withLinks links)

instance : Wire ServiceRecord where
  toJson r := .obj [("entries", toJson r.entries)]
  ofJson? := Json.record? do return ⟨← field "entries"⟩

end ServiceRecord

end IntentPlane
