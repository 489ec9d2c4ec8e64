import IntentPlane.Program
import IntentPlane.Settings.Basic

/-!
# Failure recovery

When links or devices fail, every intent whose path or backup crosses them is submitted again with
its paths cleared, so that the framework computes new ones.
-/

namespace IntentPlane

/-- What a batch of topology events caused, in the order of the keys. -/
structure RecoveryReport where
  resubmitted : List IntentKey
  failed : List (IntentKey × FrameworkError)

namespace RecoveryReport

def empty : RecoveryReport := ⟨[], []⟩

def isEmpty (r : RecoveryReport) : Bool := r.resubmitted.isEmpty && r.failed.isEmpty

/-- The report of the answers to resubmissions, in whatever order they came. -/
def ofAnswers (answers : List (IntentKey × Except FrameworkError Submission)) : RecoveryReport where
  resubmitted :=
    (answers.filterMap fun (key, answer) => match answer with
      | .ok _ => some key
      | .error _ => none).mergeSort IntentKey.le
  failed :=
    (answers.filterMap fun (key, answer) => match answer with
      | .ok _ => none
      | .error e => some (key, e)).mergeSort fun a b => a.1.le b.1

end RecoveryReport

namespace Recovery

/-- Whether a failure breaks the path of an intent or its backup. -/
def isBroken (failures : List Failure) (i : Intent) : Bool :=
  i.path?.any fun p => failures.any fun failure => p.uses failure.breaks

/-- The first intents of each key, in order. -/
def distinct (intents : List Intent) : List Intent :=
  intents.eraseDupsBy fun i j => decide (i.key = j.key)

/-- The intents of a snapshot to be submitted again, once a key. -/
def affected (failures : List Failure) (snapshot : List Intent) : List Intent :=
  distinct (snapshot.filter (isBroken failures))

def resubmit (limit : UInt64) (i : Intent) :
    Program (IntentKey × Except FrameworkError Submission) := do
  return (i.key, ← .submit limit i.forRecomputation)

/-- Handles a batch of topology events. Without a failure among them nothing is looked at. -/
def handle (limit : UInt64) (events : List TopologyEvent) : Program RecoveryReport := do
  let failures := events.filterMap (·.failure?)
  if failures.isEmpty then return .empty
  let answers ← (affected failures (← .heldIntents)).mapM (resubmit limit)
  return .ofAnswers answers

/-- Cuts a queue of events into batches of up to `size`, and of one event at least. -/
def batches (size : Nat) : List α → List (List α)
  | [] => []
  | event :: rest => (event :: rest.take (size - 1)) :: batches size (rest.drop (size - 1))
termination_by events => events.length
decreasing_by simp only [List.length_cons, List.length_drop]; omega

/-- Handles a queue of events batch by batch; events are dropped where recovery is disabled. -/
def serve (s : RecoverySettings) (events : List TopologyEvent) : Program Unit :=
  (batches s.batchSize.toNat events).forM fun batch => do
    if s.enabled then
      let _ ← handle s.submitTimeoutMs batch

end Recovery

end IntentPlane
