import IntentPlane.World

/-!
# Drills

A drill runs programs against faults that are set beforehand: connection points that cannot be
looked up, a framework that follows a script, refuses destinations or falls silent, and rivals that
write service records at the worst moments. Time is virtual, and the calls to the framework are
kept.
-/

namespace IntentPlane

/-- How the framework treats one call. -/
inductive Reply where
  | pass
  /-- Never answers. -/
  | stall
  /-- Passes after some milliseconds, if the caller waits that long. -/
  | delay (ms : UInt64)
  | unavailable (reason : String)
  | reject (reason : String)
  | notFound
  /-- Removes the record of a service, and passes. -/
  | drop (service : ServiceId)

/-- When a rival strikes: before the next conditional write, or after the next read of all records
or of one. -/
inductive Moment where
  | replace
  | entries
  | get
  deriving DecidableEq

/-- A write by someone else: a record for a service, or its removal. -/
structure Rival where
  moment : Moment
  service : ServiceId
  record : Option ServiceRecord

/-- A call to the framework that was answered. -/
inductive Call where
  | submit (key : IntentKey) (destination : Option IpPrefix)
      (answer : Except FrameworkError Submission)
  | withdraw (key : IntentKey) (answer : Except FrameworkError Unit)

structure Drill where
  world : World
  failing : Table ConnectionPoint String
  submitScript : List Reply
  withdrawScript : List Reply
  refused : List IpPrefix
  stalled : List IntentKey
  /-- Whether snapshots of the held intents come twice over. -/
  doubled : Bool
  rivals : List Rival
  calls : List Call

namespace Drill

def start : Drill := ⟨.empty, .empty, [], [], [], [], false, [], []⟩

/-- Lets the first rival strike whose moment has come. -/
def strike (d : Drill) (moment : Moment) : Drill :=
  match d.rivals.findIdx? (·.moment = moment) with
  | none => d
  | some i =>
    match d.rivals[i]? with
    | none => d
    | some rival =>
      let records := match rival.record with
        | some record => d.world.records.put rival.service record
        | none => (d.world.records.remove rival.service).2
      { d with world := { d.world with records }, rivals := d.rivals.eraseIdx i }

/-- What a scripted reply does to a call: an answer in its stead, or none where the call passes. -/
def obey (d : Drill) (limit : UInt64) (key : IntentKey) :
    Reply → Option FrameworkError × Drill
  | .pass => (none, d)
  | .stall => (some (.timeout key), d)
  | .delay ms => (if limit < ms then some (.timeout key) else none, d)
  | .unavailable reason => (some (.unavailable reason), d)
  | .reject reason => (some (.rejected key reason), d)
  | .notFound => (some (.notFound key), d)
  | .drop service =>
    (none, { d with world := { d.world with records := (d.world.records.remove service).2 } })

/-- Keeps a call, unless the caller gave up waiting for it. -/
def keep (d : Drill) (call : Call) : Except FrameworkError α → Drill
  | .error (.timeout _) => d
  | _ => { d with calls := d.calls ++ [call] }

/-- Answers a submission that is not answered by the script. -/
def take (d : Drill) (limit : UInt64) (i : Intent) : Except FrameworkError Submission × Drill :=
  if i.selector.ipDst.any (· ∈ d.refused) then (.error (.rejected i.key "no capacity"), d)
  else
    let (answer, world) := World.answer (.submit limit i) d.world
    (answer, { d with world })

def submit (d : Drill) (limit : UInt64) (i : Intent) : Except FrameworkError Submission × Drill :=
  let reply := d.submitScript.headD .pass
  let d := { d with submitScript := d.submitScript.tail }
  let reply := if i.key ∈ d.stalled then .stall else reply
  let (answer, d) : Except FrameworkError Submission × Drill := match d.obey limit i.key reply with
    | (some e, d) => (.error e, d)
    | (none, d) => d.take limit i
  (answer, d.keep (.submit i.key i.selector.ipDst answer) answer)

def withdraw (d : Drill) (limit : UInt64) (k : IntentKey) : Except FrameworkError Unit × Drill :=
  let reply := d.withdrawScript.headD .pass
  let d := { d with withdrawScript := d.withdrawScript.tail }
  let (answer, d) : Except FrameworkError Unit × Drill := match d.obey limit k reply with
    | (some e, d) => (.error e, d)
    | (none, d) =>
      let (answer, world) := World.answer (.withdraw limit k) d.world
      (answer, { d with world })
  (answer, d.keep (.withdraw k answer) answer)

/-- The held intents in the order of their keys, twice over if asked for. -/
def snapshot (d : Drill) : List Intent :=
  let held := d.world.framework.held.values.mergeSort fun i j => i.key.le j.key
  if d.doubled then held ++ held else held

/-- Answers an access under the faults that are set. Services are listed in order. -/
def answer : (access : Access) → Drill → access.Answer × Drill
  | .readRecord s, d => (d.world.records.get? s, d.strike .get)
  | .replaceRecord s version r, d =>
    let d := d.strike .replace
    let (written, world) := World.answer (.replaceRecord s version r) d.world
    (written, { d with world })
  | .listServices, d => (d.world.records.keys.mergeSort ServiceId.le, d)
  | .listRecords, d =>
    (d.world.records.entries.mergeSort fun a b => a.1.le b.1, d.strike .entries)
  | .resolve p, d =>
    match d.failing.get? p with
    | some reason => (.error (.unavailable reason), d)
    | none => ((World.answer (.resolve p) d.world).1, d)
  | .submit limit i, d => d.submit limit i
  | .withdraw limit k, d => d.withdraw limit k
  | .heldIntents, d => (d.snapshot, d)
  | .ensureRecord s, d =>
    let (read, world) := World.answer (.ensureRecord s) d.world
    (read, { d with world })
  | .putRecord s r, d =>
    let (done, world) := World.answer (.putRecord s r) d.world
    (done, { d with world })
  | .removeRecord s, d =>
    let (removed, world) := World.answer (.removeRecord s) d.world
    (removed, { d with world })
  | .indexIntent k i, d =>
    let (done, world) := World.answer (.indexIntent k i) d.world
    (done, { d with world })
  | .indexedIntent k, d => ((World.answer (.indexedIntent k) d.world).1, d)
  | .unindexIntent k, d =>
    let (removed, world) := World.answer (.unindexIntent k) d.world
    (removed, { d with world })

def run (d : Drill) (p : Program α) : α × Drill := p.run answer d

end Drill

end IntentPlane
