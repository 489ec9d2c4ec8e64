import IntentPlane.Decomposition.Basic
import IntentPlane.Proofs.Exchanges
import IntentPlane.Recovery
import IntentPlane.Status.Events

/-!
# A deployment at work

The decomposer of one application, the handler of status events and the recovery engine share a
store and a framework in memory. What happens to them, one thing after another, is a list of
operations.
-/

namespace IntentPlane

/-- How the components are set up: whose intents they are, and how often an update of the store is
tried. -/
structure Deployment where
  app : ApplicationId
  retries : UInt32
  retries_pos : retries ≠ 0

structure Demand where
  service : ServiceId
  request : ServiceRequest
  settings : DecompositionSettings
  previous : Option ServiceRequest
  validation : Validation

inductive Operation where
  | decompose (demand : Demand)
  /-- The framework reports a status of an intent. -/
  | event (order : Enumeration) (limit : UInt64) (intent : Intent) (status : IntentStatus)
  /-- Recovery handles topology events. -/
  | recover (order : Enumeration) (limit : UInt64) (events : List TopologyEvent)
  /-- The framework refuses other keys, and negotiates about others, from now on. -/
  | refuse (rejected negotiating : List IntentKey)
  /-- The framework computes the paths of a held intent. -/
  | compute (key : IntentKey) (path backup : Option NetworkPath) (calculated : Bool)
  /-- Other endpoints stand behind the connection points from now on. -/
  | register (registry : Table ConnectionPoint (List Endpoint))

/-- With the paths of a held intent computed. -/
def Framework.compute (f : Framework) (k : IntentKey) (path backup : Option NetworkPath)
    (calculated : Bool) : Framework :=
  match f.get? k with
  | some i => f.insert (i.withPaths path backup calculated)
  | none => f

namespace Deployment

def decomposition (D : Deployment) (demand : Demand) : Decomposition :=
  ⟨D.app, D.retries, demand.service, demand.request, demand.settings⟩

/-- Meets a demand: the report, or why there is none. -/
def decompose (D : Deployment) (demand : Demand) (w : World) :
    Except DecomposeError Report × World :=
  Program.runIn w ((D.decomposition demand).run demand.previous demand.validation).run

def perform (D : Deployment) : Operation → World → World
  | .decompose demand, w => (D.decompose demand w).2
  | .event order limit intent status, w =>
    ((StatusEvents.handle D.retries limit intent status).run (World.answerIn order) w).2
  | .recover order limit events, w =>
    ((Recovery.handle limit events).run (World.answerIn order) w).2
  | .refuse rejected negotiating, w =>
    { w with framework := { w.framework with rejected, negotiating } }
  | .compute key path backup calculated, w =>
    { w with framework := w.framework.compute key path backup calculated }
  | .register registry, w => { w with registry }

def after (D : Deployment) (ops : List Operation) (w : World) : World :=
  ops.foldl (fun w op => D.perform op w) w

end Deployment

end IntentPlane
