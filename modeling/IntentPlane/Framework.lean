import IntentPlane.Intent
import IntentPlane.Table

/-!
# The intent framework

What installs intents, as its callers see it, and the books of a framework that keeps everything in
memory: the intents it holds, how often each key was submitted, the keys it withdrew, and the keys
it was told to reject or to negotiate over.
-/

namespace IntentPlane

/-- The answer to a submission that is not refused. -/
inductive Submission where
  | accepted
  | negotiating
  deriving DecidableEq

namespace Submission

def name : Submission → String
  | accepted => "accepted"
  | negotiating => "negotiating"

def status : Submission → IntentStatus
  | accepted => .installReq
  | negotiating => .negotiationReq

end Submission

/-- Why the framework did not do what it was asked. -/
inductive FrameworkError where
  | rejected (key : IntentKey) (reason : String)
  | notFound (key : IntentKey)
  | timeout (key : IntentKey)
  | unavailable (reason : String)
  deriving DecidableEq

def FrameworkError.message : FrameworkError → String
  | .rejected key reason => "intent " ++ key.name ++ " rejected: " ++ reason
  | .notFound key => "intent not found: " ++ key.name
  | .timeout key => "intent " ++ key.name ++ " not acknowledged in time"
  | .unavailable reason => "intent service unavailable: " ++ reason

structure Framework where
  held : Table IntentKey Intent
  held_key : ∀ {k i}, held.get? k = some i → i.key = k
  submissions : Table IntentKey Nat
  withdrawn : List IntentKey
  rejected : List IntentKey
  negotiating : List IntentKey

namespace Framework

def empty : Framework := ⟨.empty, nofun, .empty, [], [], []⟩

theorem key_of_get?_insert {t : Table IntentKey Intent}
    (ht : ∀ {k i}, t.get? k = some i → i.key = k) {i j : Intent} {k : IntentKey}
    (h : (t.insert i.key i).get? k = some j) : j.key = k := by
  rw [Table.get?_insert] at h
  split at h
  next hk => rw [← hk, Option.some.inj h]
  next => exact ht h

theorem key_of_get?_erase {t : Table IntentKey Intent}
    (ht : ∀ {k i}, t.get? k = some i → i.key = k) {j : Intent} {k l : IntentKey}
    (h : (t.erase l).get? k = some j) : j.key = k := by
  rw [Table.get?_erase] at h
  split at h
  next => cases h
  next => exact ht h

/-- Holds an intent as if it had been installed before. -/
def insert (f : Framework) (i : Intent) : Framework :=
  { f with
    held := f.held.insert i.key i
    held_key := key_of_get?_insert f.held_key }

def erase (f : Framework) (k : IntentKey) : Framework :=
  { f with
    held := f.held.erase k
    held_key := key_of_get?_erase f.held_key }

/-- Refuses the submissions under a key from now on. -/
def reject (f : Framework) (k : IntentKey) : Framework :=
  { f with rejected := f.rejected.insert k }

/-- Answers the submissions under a key with a negotiation from now on. -/
def negotiate (f : Framework) (k : IntentKey) : Framework :=
  { f with negotiating := f.negotiating.insert k }

def submissionCount (f : Framework) (k : IntentKey) : Nat := (f.submissions.get? k).getD 0

def totalSubmissions (f : Framework) : Nat := f.submissions.values.foldl (· + ·) 0

def get? (f : Framework) (k : IntentKey) : Option Intent := f.held.get? k

def count (f : Framework) (k : IntentKey) : Framework :=
  { f with submissions := f.submissions.insert k (f.submissionCount k + 1) }

/-- Holds an intent in place of the one held under its key, which is then not withdrawn. -/
def take (f : Framework) (i : Intent) : Framework :=
  { f.insert i with withdrawn := f.withdrawn.filter fun k => k ≠ i.key }

/-- Takes an intent, unless its key is to be rejected. -/
def submit (f : Framework) (i : Intent) : Except FrameworkError Submission × Framework :=
  let f := f.count i.key
  if i.key ∈ f.rejected then (.error (.rejected i.key "rejected by intent service"), f)
  else (.ok (if i.key ∈ f.negotiating then .negotiating else .accepted), f.take i)

def withdraw (f : Framework) (k : IntentKey) : Except FrameworkError Unit × Framework :=
  match f.get? k with
  | some _ => (.ok (), { f.erase k with withdrawn := f.withdrawn.insert k })
  | none => (.error (.notFound k), f)

def keys (f : Framework) : List IntentKey := f.held.keys.mergeSort IntentKey.le

end Framework

end IntentPlane
