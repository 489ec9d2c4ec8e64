import IntentPlane.Text.Blank
import IntentPlane.Wire.Basic

/-!
# Service names
-/

namespace IntentPlane

/-- Whether a text holds nothing but blanks. -/
def Text.allBlank (cs : List Char) : Bool := (Text.trim cs).isEmpty

/-- The name of a service, kept as given. It is never blank. -/
structure ServiceId where
  text : String
  not_blank : Text.allBlank text.toList = false
  deriving DecidableEq

/-- Why a text names no service. -/
inductive ServiceIdError where
  | blank

def ServiceIdError.message : ServiceIdError → String
  | .blank => "service id must not be empty"

namespace ServiceId

def parse (text : String) : Except ServiceIdError ServiceId :=
  if h : Text.allBlank text.toList = false then .ok ⟨text, h⟩ else .error .blank

def le (s t : ServiceId) : Bool := decide (s.text ≤ t.text)

instance : Wire ServiceId where
  toJson s := .str s.text
  ofJson? _ j := j.string?.bind fun text => (parse text).toOption

end ServiceId

end IntentPlane
