import IntentPlane.Recovery

/-!
# The event loop of recovery

Recovery takes topology events from a channel. It waits for one, takes what else is queued, and
handles the batch; only then it looks at the channel again, or sees that it is to stop.
-/

namespace IntentPlane.Recovery

/-- Where the event loop is. -/
inductive Stage where
  | waiting
  | gathering (batch : List TopologyEvent)
  | handling (rest : Program RecoveryReport)
  | stopped

/-- The event loop, its channel, and what it works on. All events sent so far and all batches taken
are kept beside. -/
structure Loop (σ : Type) where
  stage : Stage
  queue : List TopologyEvent
  closed : Bool
  cancelled : Bool
  sent : List TopologyEvent
  taken : List (List TopologyEvent)
  state : σ

namespace Loop

/-- What happens next: an event is sent, the last sender is gone, the loop is told to stop, it
stops, or it takes its next step. Where an access may be answered in several ways, the step tells
which. -/
inductive Move (ω : Type) where
  | send (event : TopologyEvent)
  | close
  | cancel
  | stop
  | turn (way : ω)

variable {σ ω : Type}

def start (state : σ) : Loop σ := ⟨.waiting, [], false, false, [], [], state⟩

def isStopped (l : Loop σ) : Bool := l.stage matches .stopped

/-- Whether no batch is being gathered or handled. -/
def isIdle (l : Loop σ) : Bool := l.stage matches .waiting | .stopped

/-- Nothing can be sent once the channel is closed or the loop has stopped. -/
def send (event : TopologyEvent) (l : Loop σ) : Loop σ :=
  if l.closed || l.isStopped then l
  else { l with queue := l.queue ++ [event], sent := l.sent ++ [event] }

/-- The loop stops when it waits and was told to stop, or no event can come any more. -/
def stop (l : Loop σ) : Loop σ :=
  match l.stage with
  | .waiting =>
    if l.cancelled || l.closed && l.queue.isEmpty then { l with stage := .stopped } else l
  | _ => l

/-- The batch is taken, and handled unless recovery is disabled. -/
def take (s : RecoverySettings) (batch : List TopologyEvent) (l : Loop σ) : Loop σ :=
  { l with
    taken := l.taken ++ [batch]
    stage := if s.enabled then .handling (handle s.submitTimeoutMs batch) else .waiting }

/-- The next step of the loop itself. -/
def turn (s : RecoverySettings) (answer : (access : Access) → σ → access.Answer × σ) (l : Loop σ) :
    Loop σ :=
  match l.stage, l.queue with
  | .waiting, event :: rest => { l with stage := .gathering [event], queue := rest }
  | .gathering batch, event :: rest =>
    if batch.length < max 1 s.batchSize.toNat then
      { l with stage := .gathering (batch ++ [event]), queue := rest }
    else l.take s batch
  | .gathering batch, [] => l.take s batch
  | .handling (.ask access next), _ =>
    let (reply, state) := answer access l.state
    { l with stage := .handling (next reply), state }
  | .handling (.done _), _ => { l with stage := .waiting }
  | .waiting, [] | .stopped, _ => l

def step (s : RecoverySettings) (answer : ω → (access : Access) → σ → access.Answer × σ)
    (l : Loop σ) : Move ω → Loop σ
  | .send event => l.send event
  | .close => { l with closed := true }
  | .cancel => { l with cancelled := true }
  | .stop => l.stop
  | .turn way => l.turn s (answer way)

def run (s : RecoverySettings) (answer : ω → (access : Access) → σ → access.Answer × σ)
    (l : Loop σ) (moves : List (Move ω)) : Loop σ := moves.foldl (step s answer) l

end Loop

end IntentPlane.Recovery
