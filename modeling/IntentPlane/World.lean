import IntentPlane.Program

/-!
# The shared components in memory

A registry, a store and a framework that keep everything in memory and answer every access at once.
-/

namespace IntentPlane

structure World where
  registry : Table ConnectionPoint (List Endpoint)
  records : VersionedMap ServiceId ServiceRecord
  index : VersionedMap IntentKey Intent
  framework : Framework

namespace World

def empty : World := ⟨.empty, .empty, .empty, .empty⟩

/-- Answers an access. Nothing here takes time, so no limit is ever reached. -/
def answer : (access : Access) → World → access.Answer × World
  | .readRecord s, w => (w.records.get? s, w)
  | .ensureRecord s, w =>
    let (read, records) := w.records.ensure s .empty
    (read, { w with records })
  | .putRecord s r, w => ((), { w with records := w.records.put s r })
  | .replaceRecord s version r, w =>
    let (written, records) := w.records.replace s version r
    (written, { w with records })
  | .removeRecord s, w =>
    let (removed, records) := w.records.remove s
    (removed, { w with records })
  | .listServices, w => (w.records.keys, w)
  | .listRecords, w => (w.records.entries, w)
  | .indexIntent k i, w => ((), { w with index := w.index.put k i })
  | .indexedIntent k, w => ((w.index.get? k).map (·.value), w)
  | .unindexIntent k, w =>
    let (removed, index) := w.index.remove k
    (removed, { w with index })
  | .resolve p, w => (.ok ((w.registry.get? p).getD []), w)
  | .submit _ i, w =>
    let (answer, framework) := w.framework.submit i
    (answer, { w with framework })
  | .withdraw _ k, w =>
    let (answer, framework) := w.framework.withdraw k
    (answer, { w with framework })
  | .heldIntents, w => (w.framework.held.values, w)

end World

/-- Runs a program alone over components in memory. -/
def Program.runIn (w : World) (p : Program α) : α × World := p.run World.answer w

end IntentPlane
