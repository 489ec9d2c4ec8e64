import IntentPlane.Recovery

/-!
# Resubmissions side by side

Recovery keeps a number of resubmissions under way at once. Intents are submitted in their order,
and the framework may answer those under way in any order.
-/

namespace IntentPlane.Recovery

/-- Intents being submitted again: those still waiting, the keys of those not answered yet, all that
was submitted so far, and the answers in the order in which they came. -/
structure Pool where
  waiting : List Intent
  underWay : List IntentKey
  submitted : List Intent
  answers : List (IntentKey × Except FrameworkError Submission)

namespace Pool

/-- What happens next: the first intent that waits is submitted, or one of those under way is
answered, be it by the framework or because its time is up. -/
inductive Move where
  | submit
  | answer (n : Nat) (answer : Except FrameworkError Submission)

def start (intents : List Intent) : Pool := ⟨intents, [], [], []⟩

/-- The first intent that waits is submitted, if a worker is free. There is always one worker. -/
def submitNext (workers : Nat) (p : Pool) : Pool :=
  match p.waiting with
  | [] => p
  | i :: rest =>
    if p.underWay.length < max 1 workers then
      { p with
        waiting := rest
        underWay := p.underWay ++ [i.key]
        submitted := p.submitted ++ [i.forRecomputation] }
    else p

def complete (n : Nat) (answer : Except FrameworkError Submission) (p : Pool) : Pool :=
  match p.underWay[n]? with
  | none => p
  | some k =>
    { p with
      underWay := p.underWay.eraseIdx n
      answers := p.answers ++ [(k, answer)] }

/-- Makes a move; one that is not possible changes nothing. -/
def step (workers : Nat) (p : Pool) : Move → Pool
  | .submit => p.submitNext workers
  | .answer n answer => p.complete n answer

def run (workers : Nat) (p : Pool) (moves : List Move) : Pool := moves.foldl (step workers) p

/-- Whether everything was submitted and answered. -/
def isDone (p : Pool) : Bool := p.waiting.isEmpty && p.underWay.isEmpty

end Pool

/-- Submits again what a batch of events breaks of a snapshot, with a number of workers. -/
def pooled (workers : Nat) (events : List TopologyEvent) (snapshot : List Intent)
    (moves : List Pool.Move) : Pool :=
  (Pool.start (affected (events.filterMap (·.failure?)) snapshot)).run workers moves

end IntentPlane.Recovery
