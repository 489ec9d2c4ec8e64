import IntentPlane.Proofs.Concurrent.Decompositions
import IntentPlane.Proofs.Concurrent.Entries
import IntentPlane.Proofs.Concurrent.Events
import Mathlib.Data.List.Induction

/-!
# Installed while a leg is being recorded

The framework may report an intent installed as soon as it has accepted it, which is before the
decomposition has recorded it. `installation_recorded_iff` tells what is left of the report,
wherever the accesses of the two fall: just the last write of the entry counts.
-/

namespace IntentPlane

/-- A decomposition, and the report that an intent is installed. -/
abbrev Task.decompositionAndInstallation (d : Decomposition) (previous : Option ServiceRequest)
    (validation : Validation) (retries : UInt32) (limit : UInt64) (intent : Intent) : Side → Task :=
  beside (.decompose d previous validation) (.event retries limit intent .installed)

section Installation

variable {τ : Type} {o : Surroundings τ} {drift : τ → τ → Prop} {x y : Scene τ}
  {before log : Log Task.Side} {s : ServiceId} {mine : IntentKey → Prop}

/-- From an entry on that a call does not deal with, reports of an installation replace it, and
nothing else does. -/
theorem entry_eq_or_installed {e : KeyStatus} {intent : Intent}
    (h : Answered o drift x (before ++ log) y) (hx : Bounded x.records)
    (hleft : Upserting s mine [] (log.own .left)) (hk : ¬ mine intent.key)
    (hdoes : ∀ d ∈ log.own .right, StatusEvents.Does intent.key d.access)
    (hright : ∀ t version r, ⟨.replaceRecord t version r, true⟩ ∈ log.own .right →
      ∃ e, r.get? intent.key = some e ∧ e.status = .installed ∧ e.calculated = intent.isCalculated)
    (hentry : (before.records x.record s).bind (·.get? intent.key) = some e) :
    (∀ version r, (.right, ⟨.replaceRecord s version r, true⟩) ∉ log) ∧
        y.entry s intent.key = some e ∨
      (∃ version r, (.right, ⟨.replaceRecord s version r, true⟩) ∈ log) ∧
        ∃ e, y.entry s intent.key = some e ∧ e.status = .installed ∧
          e.calculated = intent.isCalculated := by
  induction log using List.reverseRecOn generalizing y with
  | nil =>
    rw [List.append_nil] at h
    refine .inl ⟨fun _ _ => List.not_mem_nil, ?_⟩
    rw [Scene.entry, h.record_eq, hentry]
  | append_singleton log last ih =>
    obtain ⟨side, d⟩ := last
    have hlast := h
    rw [← List.append_assoc] at hlast
    obtain ⟨z, hlog, -, hwrites⟩ := hlast.unsnoc
    rw [Log.own_append] at hleft hdoes hright
    have hbefore := ih hlog hleft.of_append.1 (fun d hd => hdoes d (List.mem_append_left _ hd))
      fun t version r hmem => hright t version r (List.mem_append_left _ hmem)
    have hstays (hd : d.Upserts s mine (Log.own (before ++ log) side)) :
        y.entry s intent.key = z.entry s intent.key := by
      rw [hlast.entry_eq, hlog.entry_eq]
      exact hlast.entry_concat hx hd hk
    -- Either the last access leaves the entry alone, or it is one more report.
    have hsame (hentry : y.entry s intent.key = z.entry s intent.key)
        (hother : ∀ version r, (.right, ⟨.replaceRecord s version r, true⟩) ≠ (side, d)) :
        (∀ version r, (.right, ⟨.replaceRecord s version r, true⟩) ∉ log ++ [(side, d)]) ∧
            y.entry s intent.key = some e ∨
          (∃ version r, (.right, ⟨.replaceRecord s version r, true⟩) ∈ log ++ [(side, d)]) ∧
            ∃ e, y.entry s intent.key = some e ∧ e.status = .installed ∧
              e.calculated = intent.isCalculated := by
      simpa [hentry, hother] using hbefore
    cases side with
    | left =>
      refine hsame (hstays ?_) (by simp)
      rw [Log.own_append]
      simpa using hleft.of_append.2.after (Log.own before .left) [] d [] (by simp)
    | right =>
      have hd : d ∈ Log.own log .right ++ Log.own [(Task.Side.right, d)] .right := by simp
      rcases (hdoes d hd).within_or_written with hwithin | ⟨t, version, r, rfl⟩
      · refine hsame (hstays (.inl hwithin)) ?_
        rintro version r heq
        cases heq
        exact hwithin
      · by_cases ht : t = s
        · subst ht
          obtain ⟨e, he, hinstalled⟩ := hright t version r hd
          refine .inr ⟨⟨version, r, by simp⟩, e, ?_, hinstalled⟩
          rw [Scene.entry, hwrites]
          simpa [Deed.writes] using he
        · refine hsame ?_ ?_
          · rw [Scene.entry, hwrites, Scene.entry]
            simp [Deed.writes, Function.update_of_ne (Ne.symm ht)]
          · rintro version r heq
            cases heq
            exact ht rfl

variable {d : Decomposition} {previous : Option ServiceRequest} {validation : Validation}
  {retries : UInt32} {limit : UInt64} {intent : Intent}

/-- An intent that is accepted of a decomposition is recorded once, as it was accepted. A report
beside the decomposition that the intent is installed stands in the record in the end just if its
write comes after that: a write that comes before, or none because there was no entry yet, leaves
the entry as the decomposition wrote it. -/
theorem installation_recorded_iff
    {c : Crew τ (Task.decompositionAndInstallation d previous validation retries limit intent)}
    (h : Crew.Course o drift x log c) (hx : Bounded x.records) {report : Report}
    {result : Except StoreError (Option ServiceEvent)}
    (hdecompose : c.threads .left = .done (.ok report)) (hevent : c.threads .right = .done result)
    {n : UInt64} {i : Intent} {a : Submission} {later : Log Task.Side}
    (haccepted : log = before ++ (.left, ⟨.submit n i, .ok a⟩) :: later)
    (hkey : i.key = intent.key) :
    ∃ between version r untried after,
      later = between ++ (.left, ⟨.replaceRecord d.service version r, true⟩) :: after ∧
      r.get? intent.key = some ⟨intent.key, a.status, untried, false⟩ ∧
      ((∃ e, c.scene.entry d.service intent.key = some e ∧ e.status = .installed ∧
          e.calculated = intent.isCalculated) ↔
        ∃ version r, (.right, ⟨.replaceRecord d.service version r, true⟩) ∈ after) ∧
      ((∀ version r, (.right, ⟨.replaceRecord d.service version r, true⟩) ∉ after) →
        c.scene.entry d.service intent.key = some ⟨intent.key, a.status, untried, false⟩) := by
  have hfirst := Decomposition.trace_of_run (h.yields hdecompose)
  have hreport := StatusEvents.trace_of_handle (h.yields hevent)
  subst haccepted
  rw [Log.own_append, Log.own_cons, if_pos rfl] at hfirst
  obtain ⟨lost, v, untried, rest, hown, -, hrest⟩ := hfirst.recordsAccepted _ n i a _ rfl
  rw [List.append_cons] at hown
  obtain ⟨between, after, rfl, -, rfl⟩ := Log.own_split hown
  rw [hkey] at hrest
  have hwritten : (v.value.upsert ⟨i.key, a.status, untried, false⟩).get? intent.key =
      some ⟨intent.key, a.status, untried, false⟩ := by
    rw [ServiceRecord.get?_upsert, hkey, if_pos rfl]
  have hafter {e : Deed} (he : e ∈ Log.own after .right) : e ∈ Log.own (before ++
      (.left, ⟨.submit n i, .ok a⟩) :: (between ++ (.left, ⟨.replaceRecord d.service v.version
        (v.value.upsert ⟨i.key, a.status, untried, false⟩), true⟩) :: after)) .right := by
    simp [he]
  have hentry : (Log.records (before ++ (.left, ⟨.submit n i, .ok a⟩) :: (between ++
      [(.left, ⟨.replaceRecord d.service v.version
        (v.value.upsert ⟨i.key, a.status, untried, false⟩), true⟩)])) x.record d.service).bind
          (·.get? intent.key) = some ⟨intent.key, a.status, untried, false⟩ := by
    simp [Log.records, Deed.writes, hwritten]
  have hanswered := h.answered
  rw [List.append_cons between, ← List.cons_append, ← List.append_assoc] at hanswered
  refine ⟨between, _, _, untried, after, rfl, hwritten, ?_⟩
  rcases entry_eq_or_installed hanswered hx hrest.upserting (not_not_intro rfl)
      (fun e he => hreport.does e (hafter he))
      (fun t version r hmem => hreport.get?_of_written (by decide) (hafter hmem)) hentry with
    ⟨hnone, hfinal⟩ | ⟨hsome, hinstalled⟩
  · refine ⟨⟨?_, ?_⟩, fun _ => hfinal⟩
    · rintro ⟨e, he, hstatus, -⟩
      rw [hfinal] at he
      cases he
      cases a <;> cases hstatus
    · rintro ⟨version, r, hmem⟩
      exact (hnone version r hmem).elim
  · refine ⟨⟨fun _ => hsome, fun _ => hinstalled⟩, fun hnone => ?_⟩
    obtain ⟨version, r, hmem⟩ := hsome
    exact (hnone version r hmem).elim

end Installation

/-! A path is created again, and reported installed before it is recorded. -/

def installedPath : Decomposition where
  app := ⟨1, "app"⟩
  retries := 3
  service := ⟨"installed", by decide⟩
  request := ⟨.path ⟨0, ⟨⟨"a"⟩, []⟩, ⟨⟨"b"⟩, []⟩⟩, [], false⟩
  settings := {}

def installedIntent : Intent where
  key := installedPath.key 1
  selector := ⟨none, none⟩
  constraints := []
  priority := 100
  payload := .connectivity ⟨"1/None"⟩ ⟨"2/None"⟩

def installedScene : Scene Facilities where
  records := VersionedMap.empty.put installedPath.service
    ⟨[⟨installedIntent.key, .installReq, [], false⟩]⟩
  index := .empty
  outside := ⟨(Table.empty.insert ⟨"a"⟩ [.eth "1" none ⟨"x"⟩ 1]).insert ⟨"b"⟩
    [.eth "2" none ⟨"y"⟩ 1], .empty⟩
  calls := []

def installedCrew : Crew Facilities
    (Task.decompositionAndInstallation installedPath none .create 3 5000 installedIntent) :=
  .start _ installedScene

/-- The path is accepted. -/
def installedBefore : List (Move Task.Side Facilities) := List.replicate 3 (.turn .left)

/-- The path is reported, and then recorded. -/
def installedAfter : List (Move Task.Side Facilities) :=
  List.replicate 4 (.turn .right) ++ List.replicate 3 (.turn .left)

/-- The calls that wrote the record of a service, in their order. -/
def Log.writers (log : Log Task.Side) (s : ServiceId) : List Task.Side :=
  log.filterMap fun
    | (side, ⟨.replaceRecord t .., true⟩) => if t = s then some side else none
    | _ => none

/-- The report is written over when the path is recorded. -/
theorem installed_report_overwritten :
    ¬ ∃ e, (installedCrew.run (.inMemory .inserted) (installedBefore ++ installedAfter)).scene.entry
        installedPath.service installedIntent.key = some e ∧ e.status = .installed ∧
      e.calculated = installedIntent.isCalculated := by
  have hcourse : Crew.Course (.inMemory .inserted) Eq installedScene
      (installedCrew.log (.inMemory .inserted) (installedBefore ++ installedAfter))
      (installedCrew.run (.inMemory .inserted) (installedBefore ++ installedAfter)) :=
    ⟨_, by simp [installedBefore, installedAfter], rfl, rfl⟩
  have hbounded : Bounded installedScene.records :=
    Bounded.evolved (m := .empty) nofun
      (evolved_answer (.putRecord installedPath.service _) ⟨.empty, .empty, .empty, .empty⟩)
  have haccepted : installedCrew.log (.inMemory .inserted) (installedBefore ++ installedAfter) =
      installedCrew.log (.inMemory .inserted) (installedBefore.take 2) ++
        (.left, ⟨.submit _ _, .ok .accepted⟩) ::
          (installedCrew.run (.inMemory .inserted) installedBefore).log (.inMemory .inserted)
            installedAfter := rfl
  obtain ⟨between, version, r, untried, after, hlater, -, hinstalled, -⟩ :=
    installation_recorded_iff hcourse hbounded rfl rfl haccepted rfl
  rw [hinstalled]
  rintro ⟨version, r, hmem⟩
  -- The event wrote the record once and before the decomposition, so it is not last.
  have hright : .right ∈ Log.writers after installedPath.service :=
    List.mem_filterMap.mpr ⟨_, hmem, by simp⟩
  have hwriters : [.right, .left] = Log.writers between installedPath.service ++
      .left :: Log.writers after installedPath.service := by
    have h := congrArg (Log.writers · installedPath.service) hlater
    refine h.trans ?_
    simp [Log.writers]
  rcases List.cons_eq_append_iff.mp hwriters with ⟨-, h⟩ | ⟨rest, -, h⟩
  · cases h
  · rcases List.cons_eq_append_iff.mp h with ⟨-, h⟩ | ⟨rest, -, h⟩
    · obtain ⟨-, h⟩ := List.cons.inj h
      exact List.not_mem_nil (h ▸ hright)
    · simp at h

end IntentPlane
