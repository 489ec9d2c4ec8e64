import IntentPlane.Decomposition.Basic
import IntentPlane.Proofs.Concurrent.Accesses
import IntentPlane.Proofs.Concurrent.Calls
import IntentPlane.Proofs.Exchanges
import IntentPlane.Recovery
import IntentPlane.Status.Events

/-!
# Calls side by side

Any number of calls to the components run over one store, registry and framework, in whatever order
their accesses come. What happens is told by a log: the accesses with their answers, and who made
them. Seen by one call, the log is a trace of its program (`Crew.leads`); seen by what is shared, it
is a sequence of answers (`Crew.answered`). All that is said of calls side by side is concluded from
the two, and from what the log makes of records and index.
-/

namespace IntentPlane

/-- A call to one of the components. -/
inductive Task where
  | decompose (d : Decomposition) (previous : Option ServiceRequest) (validation : Validation)
  /-- The framework reports a status of an intent. -/
  | event (retries : UInt32) (limit : UInt64) (intent : Intent) (status : IntentStatus)
  | recover (limit : UInt64) (events : List TopologyEvent)
  | store (retries : UInt32) (call : StoreCall)

namespace Task

def Result : Task → Type
  | decompose .. => Except DecomposeError Report
  | event .. => Except StoreError (Option ServiceEvent)
  | recover .. => RecoveryReport
  | store _ call => call.Result

def program : (t : Task) → Program t.Result
  | decompose d previous validation => (d.run previous validation).run
  | event retries limit intent status => StatusEvents.handle retries limit intent status
  | recover limit events => Recovery.handle limit events
  | store retries call => call.program retries

/-- Two calls side by side. -/
inductive Side where
  | left
  | right
  deriving DecidableEq

def beside (t u : Task) : Side → Task
  | .left => t
  | .right => u

end Task

/-- What happens next: a call makes its next access, or the registry and the framework change by
themselves. -/
inductive Move (ι τ : Type) where
  | turn (i : ι)
  | change (f : τ → τ)

/-- Calls under way. -/
structure Crew (τ : Type) {ι : Type} (tasks : ι → Task) where
  scene : Scene τ
  threads : (i : ι) → Program (tasks i).Result

abbrev Log (ι : Type) := List (ι × Deed)

variable {τ ι : Type}

/-! ## What a log makes of the store -/

/-- What an access makes of the records. -/
def Deed.writes (m : Contents) : Deed → Contents
  | ⟨.ensureRecord s, _⟩ => Function.update m s (some ((m s).getD .empty))
  | ⟨.putRecord s r, _⟩ | ⟨.replaceRecord s _ r, true⟩ => Function.update m s (some r)
  | ⟨.removeRecord s, _⟩ => Function.update m s none
  | _ => m

/-- What an access makes of the index. -/
def Deed.indexes (m : IntentKey → Option Intent) : Deed → IntentKey → Option Intent
  | ⟨.indexIntent k i, _⟩ => Function.update m k (some i)
  | ⟨.unindexIntent k, _⟩ => Function.update m k none
  | _ => m

/-- An access that is a call to the registry or the framework. -/
def Deed.exchange? : Deed → Option Exchange
  | ⟨.resolve p, answer⟩ => some (.resolve p answer)
  | ⟨.submit limit i, answer⟩ => some (.submit limit i answer)
  | ⟨.withdraw limit k, answer⟩ => some (.withdraw limit k answer)
  | ⟨.heldIntents, answer⟩ => some (.heldIntents answer)
  | _ => none

theorem Deed.eq_removeRecord {m : Contents} {s : ServiceId} {d : Deed} (hm : m s ≠ none)
    (h : d.writes m s = none) : ∃ answer, d = ⟨.removeRecord s, answer⟩ := by
  unfold writes at h
  split at h
  case h_4 t answer =>
    by_cases ht : s = t
    · exact ⟨answer, by rw [ht]⟩
    · rw [Function.update_of_ne ht] at h
      exact absurd h hm
  case h_5 => exact absurd h hm
  all_goals
    rw [Function.update_apply] at h
    split at h
    · cases h
    · exact absurd h hm

theorem Deed.indexes_of_ne {m : IntentKey → Option Intent} {k : IntentKey} {d : Deed}
    (h : d.access ≠ .unindexIntent k) (h' : ∀ i, d.access ≠ .indexIntent k i) :
    d.indexes m k = m k := by
  unfold indexes
  split
  case h_1 l i _ => exact Function.update_of_ne (fun hl => h' i (by rw [hl])) ..
  case h_2 l _ => exact Function.update_of_ne (fun hl => h (by rw [hl])) ..
  case h_3 => rfl

theorem Deed.indexes_eq_some {m : IntentKey → Option Intent} {k : IntentKey} {i : Intent}
    {d : Deed} (h : d.access = .indexIntent k i) : d.indexes m k = some i := by
  obtain ⟨access, answer⟩ := d
  cases h
  exact Function.update_self ..

theorem Deed.eq_submit {d : Deed} {limit : UInt64} {i : Intent}
    {answer : Except FrameworkError Submission} (h : d.exchange? = some (.submit limit i answer)) :
    d = ⟨.submit limit i, answer⟩ := by
  unfold exchange? at h
  split at h <;> cases h
  rfl

namespace Log

def records (log : Log ι) (m : Contents) : Contents := log.foldl (fun m e => e.2.writes m) m

def index (log : Log ι) (m : IntentKey → Option Intent) : IntentKey → Option Intent :=
  log.foldl (fun m e => e.2.indexes m) m

def exchanges (log : Log ι) : List Exchange := log.filterMap (·.2.exchange?)

/-- The accesses of one call. -/
def own [DecidableEq ι] (log : Log ι) (i : ι) : List Deed :=
  log.filterMap fun e => if e.1 = i then some e.2 else none

@[simp] theorem own_append [DecidableEq ι] (l l' : Log ι) (i : ι) :
    own (l ++ l') i = own l i ++ own l' i := List.filterMap_append

@[simp] theorem own_cons [DecidableEq ι] (e : ι × Deed) (l : Log ι) (i : ι) :
    own (e :: l) i = (if e.1 = i then [e.2] else []) ++ own l i := by
  by_cases h : e.1 = i <;> simp [own, h]

@[simp] theorem own_nil [DecidableEq ι] (i : ι) : own ([] : Log ι) i = [] := rfl

/-- The accesses of one call are found in the log in their order. -/
theorem own_split [DecidableEq ι] {l : Log ι} {i : ι} {ds ds' : List Deed} {d : Deed}
    (h : own l i = ds ++ d :: ds') :
    ∃ before after, l = before ++ (i, d) :: after ∧ own before i = ds ∧ own after i = ds' := by
  induction l generalizing ds with
  | nil => simp at h
  | cons e l ih =>
    rw [own_cons] at h
    by_cases he : e.1 = i
    · rw [if_pos he] at h
      cases ds with
      | nil =>
        obtain ⟨rfl, hrest⟩ := List.cons.inj h
        subst he
        exact ⟨[], l, rfl, rfl, hrest⟩
      | cons f ds =>
        obtain ⟨rfl, hrest⟩ := List.cons.inj h
        obtain ⟨before, after, rfl, hbefore, hafter⟩ := ih hrest
        exact ⟨e :: before, after, rfl, by simp [he, hbefore], hafter⟩
    · rw [if_neg he] at h
      obtain ⟨before, after, rfl, hbefore, hafter⟩ := ih h
      exact ⟨e :: before, after, rfl, by simp [he, hbefore], hafter⟩

theorem mem_own [DecidableEq ι] {l : Log ι} {i : ι} {d : Deed} : d ∈ own l i ↔ (i, d) ∈ l := by
  simp only [own, List.mem_filterMap]
  constructor
  · rintro ⟨⟨j, e⟩, he, h⟩
    split at h
    · rename_i hj
      cases h
      cases hj
      exact he
    · cases h
  · exact fun h => ⟨_, h, by simp⟩

/-- A key that is not indexed anew stays as it was. -/
theorem index_eq_self {l : Log ι} {m : IntentKey → Option Intent} {k : IntentKey}
    (h : ∀ e ∈ l, e.2.access ≠ .unindexIntent k ∧ ∀ i, e.2.access ≠ .indexIntent k i) :
    l.index m k = m k := by
  induction l generalizing m with
  | nil => rfl
  | cons e l ih =>
    rw [List.forall_mem_cons] at h
    exact (ih h.2).trans (Deed.indexes_of_ne h.1.1 h.1.2)

/-- A key that is indexed, and with one intent only, ends with that intent. -/
theorem index_eq_some {l : Log ι} {m : IntentKey → Option Intent} {k : IntentKey} {i : Intent}
    (hmem : ∃ e ∈ l, e.2.access = .indexIntent k i)
    (h : ∀ e ∈ l, e.2.access ≠ .unindexIntent k ∧ ∀ j, e.2.access = .indexIntent k j → j = i) :
    l.index m k = some i := by
  induction l generalizing m with
  | nil =>
    obtain ⟨e, he, -⟩ := hmem
    cases he
  | cons e l ih =>
    rw [List.forall_mem_cons] at h
    by_cases hl : ∃ e ∈ l, e.2.access = .indexIntent k i
    · exact ih hl h.2
    · obtain ⟨f, hf, haccess⟩ := hmem
      rcases List.mem_cons.mp hf with rfl | hf
      · refine (index_eq_self fun g hg => ⟨(h.2 g hg).1, fun j hj => ?_⟩).trans
          (Deed.indexes_eq_some haccess)
        obtain rfl := (h.2 g hg).2 j hj
        exact hl ⟨g, hg, hj⟩
      · exact absurd ⟨f, hf, haccess⟩ hl

/-- What was accepted under a key is found in the log. -/
theorem mem_accepted {l : Log ι} {k : IntentKey} {i : Intent} {a : Submission} :
    (i, a) ∈ accepted k l.exchanges ↔ i.key = k ∧ ∃ j n, (j, ⟨.submit n i, .ok a⟩) ∈ l := by
  simp only [accepted, exchanges, List.mem_filterMap]
  constructor
  · rintro ⟨exchange, ⟨⟨j, d⟩, hd, hexchange⟩, h⟩
    split at h
    · rename_i n i' a'
      split at h
      · rename_i hk
        cases h
        obtain rfl := Deed.eq_submit hexchange
        exact ⟨hk, j, n, hd⟩
      · cases h
    · cases h
  · rintro ⟨hk, j, n, hmem⟩
    exact ⟨_, ⟨_, hmem, rfl⟩, by simp [hk]⟩

end Log

/-! ## What is shared -/

/-- Accesses are answered one after another, and between them the registry and the framework may
drift. -/
inductive Answered (o : Surroundings τ) (drift : τ → τ → Prop) :
    Scene τ → Log ι → Scene τ → Prop where
  | nil (x : Scene τ) : Answered o drift x [] x
  | drift {x y : Scene τ} {u : τ} {log : Log ι} : drift x.outside u →
      Answered o drift { x with outside := u } log y → Answered o drift x log y
  | deed {x y : Scene τ} {i : ι} {access : Access} {log : Log ι} :
      Answered o drift (o.answer access x).2 log y →
      Answered o drift x ((i, ⟨access, (o.answer access x).1⟩) :: log) y

namespace Surroundings

variable (o : Surroundings τ) (access : Access) (x : Scene τ)

theorem record_answer :
    (o.answer access x).2.record = (⟨access, (o.answer access x).1⟩ : Deed).writes x.record := by
  have hput (s : ServiceId) (r : ServiceRecord) :
      ({ x with records := x.records.put s r } : Scene τ).record =
        Function.update x.record s (some r) := by
    funext t
    rw [Function.update_apply]
    simp [Scene.record, eq_comm]
  cases access with
  | ensureRecord s =>
    funext t
    simp only [Deed.writes, Function.update_apply, Surroundings.answer, Scene.record_ensure]
    simp [eq_comm]
  | putRecord s r => exact hput s r
  | replaceRecord s version r =>
    simp only [Surroundings.answer, VersionedMap.replace]
    split
    · exact hput s r
    · rfl
  | removeRecord s =>
    funext t
    simp only [Deed.writes, Function.update_apply]
    simp [Surroundings.answer, Scene.record, eq_comm]
  | readRecord | listServices | listRecords | indexIntent | indexedIntent | unindexIntent
  | resolve | submit | withdraw | heldIntents => rfl

variable {access x} in
/-- A conditional write does not succeed without a record, so a record comes into being only by
being put, or as an empty one. -/
theorem creates_of_record {s : ServiceId} (hx : x.record s = none)
    (h : (o.answer access x).2.record s ≠ none) :
    access = .ensureRecord s ∨ ∃ r, access = .putRecord s r := by
  cases access with
  | ensureRecord t =>
    rw [o.record_answer] at h
    by_cases ht : s = t
    · exact .inl (by rw [ht])
    · exact absurd ((Function.update_of_ne ht ..).trans hx) h
  | putRecord t r =>
    rw [o.record_answer] at h
    by_cases ht : s = t
    · exact .inr ⟨r, by rw [ht]⟩
    · exact absurd ((Function.update_of_ne ht ..).trans hx) h
  | removeRecord t =>
    rw [o.record_answer] at h
    refine absurd ?_ h
    simp only [Deed.writes, Function.update_apply]
    split
    · rfl
    · exact hx
  | replaceRecord t version r =>
    refine absurd ?_ h
    simp only [Surroundings.answer, VersionedMap.replace]
    by_cases ht : t = s
    · subst ht
      have hget : x.records.get? t = none := by
        simpa [Scene.record, VersionedMap.value?] using hx
      rw [hget]
      exact hx
    · split
      · simpa [Scene.record, ht] using hx
      · exact hx
  | readRecord | listServices | listRecords | indexIntent | indexedIntent | unindexIntent
  | resolve | submit | withdraw | heldIntents => exact absurd hx h

theorem indexed_answer :
    (o.answer access x).2.indexed =
      (⟨access, (o.answer access x).1⟩ : Deed).indexes x.indexed := by
  cases access with
  | indexIntent k i =>
    funext l
    simp only [Deed.indexes, Function.update_apply, Surroundings.answer, Scene.indexed_setIndex]
    simp [eq_comm]
  | unindexIntent k =>
    funext l
    simp only [Deed.indexes, Function.update_apply, Surroundings.answer, Scene.indexed_dropIndex]
    simp [eq_comm]
  | readRecord | ensureRecord | putRecord | replaceRecord | removeRecord | listServices
  | listRecords | indexedIntent | resolve | submit | withdraw | heldIntents => rfl

theorem calls_answer :
    (o.answer access x).2.calls =
      x.calls ++ (⟨access, (o.answer access x).1⟩ : Deed).exchange?.toList := by
  cases access with
  | resolve | submit | withdraw | heldIntents => rfl
  | readRecord | ensureRecord | putRecord | replaceRecord | removeRecord | listServices
  | listRecords | indexIntent | indexedIntent | unindexIntent => exact (List.append_nil _).symm

theorem evolved_access : Evolved x.records (o.answer access x).2.records := by
  have hsame : (o.answer access x).2.records =
      (World.answer access ⟨.empty, x.records, x.index, .empty⟩).2.records := by
    cases access <;> rfl
  rw [hsame]
  exact evolved_answer access ⟨.empty, x.records, x.index, .empty⟩

end Surroundings

theorem Evolved.trans {m m' m'' : VersionedMap ServiceId ServiceRecord} (h : Evolved m m')
    (h' : Evolved m' m'') : Evolved m m'' where
  clock := Nat.le_trans h.clock h'.clock
  stored s v hv := by
    have hclock := h.clock
    have hclock' := h'.clock
    rcases h'.stored s v hv with hv | ⟨hlt, hle⟩
    · rcases h.stored s v hv with hv | ⟨hlt, hle⟩
      · exact .inl hv
      · exact .inr ⟨hlt, by omega⟩
    · exact .inr ⟨by omega, hle⟩

namespace Answered

variable {o : Surroundings τ} {drift : τ → τ → Prop} {x y z : Scene τ} {log log' : Log ι}
  {s : ServiceId} {v : Versioned ServiceRecord} {i j : ι}

theorem trans (h : Answered o drift x log y) (h' : Answered o drift y log' z) :
    Answered o drift x (log ++ log') z := by
  induction h with
  | nil => exact h'
  | drift hdrift _ ih => exact .drift hdrift (ih h')
  | deed _ ih => exact .deed (ih h')

/-- A log that goes on has a scene in between. -/
theorem split (h : Answered o drift x (log ++ log') z) :
    ∃ y, Answered o drift x log y ∧ Answered o drift y log' z := by
  generalize hl : log ++ log' = l at h
  induction h generalizing log with
  | nil x =>
    obtain ⟨rfl, rfl⟩ := List.append_eq_nil_iff.mp hl
    exact ⟨x, .nil x, .nil x⟩
  | drift hdrift _ ih =>
    obtain ⟨y, h, h'⟩ := ih hl
    exact ⟨y, .drift hdrift h, h'⟩
  | @deed x z i access l h ih =>
    cases log with
    | nil =>
      rw [List.nil_append] at hl
      subst hl
      exact ⟨x, .nil x, .deed h⟩
    | cons e log =>
      obtain ⟨rfl, rfl⟩ := List.cons.inj hl
      obtain ⟨y, h, h'⟩ := ih rfl
      exact ⟨y, .deed h, h'⟩

/-- The scene just before an access. -/
theorem uncons {d : Deed} (h : Answered o drift x ((i, d) :: log) z) :
    ∃ y, Answered o drift x ([] : Log ι) y ∧ d.answer = (o.answer d.access y).1 ∧
      Answered o drift (o.answer d.access y).2 log z := by
  generalize hl : (i, d) :: log = l at h
  induction h with
  | nil => cases hl
  | drift hdrift _ ih =>
    obtain ⟨y, hy, h⟩ := ih hl
    exact ⟨y, .drift hdrift hy, h⟩
  | @deed x z i access l h =>
    cases hl
    exact ⟨x, .nil x, rfl, h⟩

/-- The scene at an access in the midst of a log. -/
theorem scene_at {d : Deed} (h : Answered o drift x (log ++ (i, d) :: log') z) :
    ∃ y, Answered o drift x log y ∧ d.answer = (o.answer d.access y).1 ∧
      Answered o drift (o.answer d.access y).2 log' z := by
  obtain ⟨y, hlog, h⟩ := h.split
  obtain ⟨y', hdrift, hanswer, h⟩ := h.uncons
  exact ⟨y', by simpa using hlog.trans hdrift, hanswer, h⟩

/-- The records are what the log makes of them. -/
theorem record_eq (h : Answered o drift x log y) : y.record = log.records x.record := by
  induction h with
  | nil => rfl
  | drift _ _ ih => exact ih
  | deed _ ih => rw [ih, o.record_answer]; rfl

/-- The scene before the last access. -/
theorem unsnoc {d : Deed} (h : Answered o drift x (log ++ [(i, d)]) z) :
    ∃ y, Answered o drift x log y ∧ d.answer = (o.answer d.access y).1 ∧
      z.record = d.writes y.record := by
  obtain ⟨y, hlog, hanswer, hlast⟩ := h.scene_at
  refine ⟨y, hlog, hanswer, hlast.record_eq.trans ?_⟩
  rw [o.record_answer, ← hanswer]
  rfl

theorem indexed_eq (h : Answered o drift x log y) : y.indexed = log.index x.indexed := by
  induction h with
  | nil => rfl
  | drift _ _ ih => exact ih
  | deed _ ih => rw [ih, o.indexed_answer]; rfl

theorem calls_eq (h : Answered o drift x log y) : y.calls = x.calls ++ log.exchanges := by
  induction h with
  | nil => exact (List.append_nil _).symm
  | drift _ _ ih => exact ih
  | @deed x y i access log _ ih =>
    rw [ih, o.calls_answer, List.append_assoc]
    cases hd : (⟨access, (o.answer access x).1⟩ : Deed).exchange? <;> simp [Log.exchanges, hd]

theorem evolved (h : Answered o drift x log y) : Evolved x.records y.records := by
  induction h with
  | nil => exact .refl _
  | drift _ _ ih => exact ih
  | deed _ ih => exact (o.evolved_access _ _).trans ih

/-- What an update finds is what is stored just after. -/
theorem get?_of_finds {absent : StatusStore.Absent}
    (h : (absent.finds s v).answer = (o.answer (absent.finds s v).access x).1) :
    (o.answer (absent.finds s v).access x).2.records.get? s = some v := by
  cases absent with
  | create =>
    have hv : v = (x.records.ensure s .empty).1 := h
    rw [hv]
    simp [StatusStore.Absent.finds, Surroundings.answer, Scene.ensure, VersionedMap.get?_ensure]
  | leave => exact (h.symm :)

/-- A conditional write that succeeds finds the record as it was read, whatever happened since. -/
theorem record_of_replaced {absent : StatusStore.Absent} {r : ServiceRecord}
    (h : Answered o drift x (log ++ (i, absent.finds s v) :: log') y) (hx : Bounded x.records)
    (hwritten : (o.answer (.replaceRecord s v.version r) y).1 = true) :
    y.record s = some v.value := by
  obtain ⟨z, hlog, hfound, hlog'⟩ := h.scene_at
  have hget := get?_of_finds hfound
  have hknown : Known y.records s v :=
    (((hx.evolved hlog.evolved).evolved (o.evolved_access _ _)).known hget).evolved hlog'.evolved
  rcases replace_known hknown r with ⟨hstored, -⟩ | hlost
  · simp [Scene.record, VersionedMap.value?, hstored]
  · have hfalse : (y.records.replace s v.version r).1 = true := hwritten
    rw [hlost] at hfalse
    cases hfalse

/-- A record goes only by being removed. -/
theorem exists_removal (h : Answered o drift x log y) (hx : x.record s ≠ none)
    (hy : y.record s = none) : ∃ i answer, (i, ⟨.removeRecord s, answer⟩) ∈ log := by
  induction h with
  | nil => exact absurd hy hx
  | drift _ _ ih => exact ih hx hy
  | @deed x y i access log _ ih =>
    by_cases hnext : (o.answer access x).2.record s = none
    · rw [o.record_answer] at hnext
      obtain ⟨answer, hd⟩ := Deed.eq_removeRecord hx hnext
      exact ⟨i, answer, hd ▸ .head _⟩
    · obtain ⟨j, answer, hmem⟩ := ih hnext hy
      exact ⟨j, answer, .tail _ hmem⟩

/-- A record that was found and then is missing was removed in between. -/
theorem removed_between {before between after : Log ι}
    (h : Answered o drift x (before ++ (i, ⟨.readRecord s, some v⟩) ::
      (between ++ (j, ⟨.readRecord s, none⟩) :: after)) y) :
    ∃ l r, (l, ⟨.removeRecord s, r⟩) ∈ between := by
  obtain ⟨z, -, hread, h⟩ := h.scene_at
  obtain ⟨z', hbetween, hmissing, -⟩ := h.scene_at
  have hget : z.records.get? s = some v := hread.symm
  have hget' : z'.records.get? s = none := hmissing.symm
  refine hbetween.exists_removal ?_ (by simp [Scene.record, VersionedMap.value?, hget'])
  simp [Surroundings.answer, Scene.record, VersionedMap.value?, hget]

/-- A record comes into being only by being put, or as an empty one. -/
theorem exists_creation (h : Answered o drift x log y) (hx : x.record s = none)
    (hy : y.record s ≠ none) :
    ∃ e ∈ log, e.2.access = .ensureRecord s ∨ ∃ r, e.2.access = .putRecord s r := by
  induction h with
  | nil => exact absurd hx hy
  | drift _ _ ih => exact ih hx hy
  | @deed x y i access log _ ih =>
    by_cases hnext : (o.answer access x).2.record s = none
    · obtain ⟨e, he, haccess⟩ := ih hnext hy
      exact ⟨e, .tail _ he, haccess⟩
    · exact ⟨_, .head _, o.creates_of_record hx hnext⟩

end Answered

/-! ## What a call does -/

namespace Crew

variable [DecidableEq ι] {tasks : ι → Task} (o : Surroundings τ)

/-- All calls are about to begin. -/
def start (tasks : ι → Task) (x : Scene τ) : Crew τ tasks := ⟨x, fun i => (tasks i).program⟩

/-- The access that a move makes. A call that is over makes none. -/
def deed? (c : Crew τ tasks) : Move ι τ → Option (ι × Deed)
  | .turn i =>
    match c.threads i with
    | .done _ => none
    | .ask access _ => some (i, ⟨access, (o.answer access c.scene).1⟩)
  | .change _ => none

def step (c : Crew τ tasks) : Move ι τ → Crew τ tasks
  | .turn i =>
    match c.threads i with
    | .done _ => c
    | .ask access next =>
      let (reply, scene) := o.answer access c.scene
      ⟨scene, Function.update c.threads i (next reply)⟩
  | .change f => { c with scene := { c.scene with outside := f c.scene.outside } }

def run (c : Crew τ tasks) (moves : List (Move ι τ)) : Crew τ tasks := moves.foldl (step o) c

/-- The accesses made in the course of moves. -/
def log (c : Crew τ tasks) : List (Move ι τ) → Log ι
  | [] => []
  | move :: moves => (c.deed? o move).toList ++ (c.step o move).log moves

variable {o} {c : Crew τ tasks} {moves : List (Move ι τ)} {drift : τ → τ → Prop}

omit [DecidableEq ι] in
theorem answer_of_deed? {i j : ι} {d : Deed} (h : c.deed? o (.turn i) = some (j, d)) :
    d.answer = (o.answer d.access c.scene).1 := by
  rw [deed?] at h
  split at h <;> cases h
  rfl

theorem log_append (c : Crew τ tasks) (earlier later : List (Move ι τ)) :
    c.log o (earlier ++ later) = c.log o earlier ++ (c.run o earlier).log o later := by
  induction earlier generalizing c with
  | nil => rfl
  | cons move earlier ih => simp [log, ih, run, List.append_assoc]

theorem run_append (c : Crew τ tasks) (earlier later : List (Move ι τ)) :
    c.run o (earlier ++ later) = (c.run o earlier).run o later := List.foldl_append

/-- The beginning of a log is the log of the first moves. -/
theorem log_prefix {before after : Log ι} (h : c.log o moves = before ++ after) :
    ∃ earlier later, moves = earlier ++ later ∧ c.log o earlier = before ∧
      (c.run o earlier).log o later = after := by
  induction moves generalizing c before with
  | nil =>
    obtain ⟨rfl, rfl⟩ := List.append_eq_nil_iff.mp h.symm
    exact ⟨[], [], rfl, rfl, rfl⟩
  | cons move moves ih =>
    cases before with
    | nil => exact ⟨[], move :: moves, rfl, rfl, h⟩
    | cons e before =>
      rw [log] at h
      cases hd : c.deed? o move with
      | none =>
        rw [hd] at h
        obtain ⟨earlier, later, rfl, hbefore, hafter⟩ := ih h
        exact ⟨move :: earlier, later, rfl, by rw [log, hd, hbefore]; rfl, hafter⟩
      | some e' =>
        rw [hd] at h
        obtain ⟨rfl, hrest⟩ := List.cons.inj h
        obtain ⟨earlier, later, rfl, rfl, hafter⟩ := ih hrest
        exact ⟨move :: earlier, later, rfl, by rw [log, hd]; rfl, hafter⟩

theorem leads_step (c : Crew τ tasks) (move : Move ι τ) (i : ι) :
    (c.threads i).Leads (Log.own (c.deed? o move).toList i) ((c.step o move).threads i) := by
  cases move with
  | change f => exact .refl _
  | turn j =>
    simp only [deed?, step]
    by_cases hj : j = i
    · subst hj
      cases hp : c.threads j with
      | done a =>
        simp only [hp]
        exact .refl _
      | ask access next =>
        simp only [Option.toList_some, Log.own_cons, if_true, Log.own_nil, List.append_nil,
          Function.update_self]
        exact .ask (.refl _)
    · cases hp : c.threads j with
      | done a => exact .refl _
      | ask access next =>
        simp only [Option.toList_some, Log.own_cons, if_neg hj, Log.own_nil, List.append_nil,
          Function.update_of_ne (Ne.symm hj)]
        exact .refl _

/-- A call does what its program says. -/
theorem leads (c : Crew τ tasks) (moves : List (Move ι τ)) (i : ι) :
    (c.threads i).Leads ((c.log o moves).own i) ((c.run o moves).threads i) := by
  induction moves generalizing c with
  | nil => exact .refl _
  | cons move moves ih =>
    rw [log, Log.own_append]
    exact (leads_step c move i).append (ih (c.step o move))

theorem answered_step {move : Move ι τ} (h : ∀ f, move = .change f → ∀ u, drift u (f u)) :
    Answered o drift c.scene (c.deed? o move).toList (c.step o move).scene := by
  cases move with
  | change f => exact .drift (h f rfl _) (.nil _)
  | turn j =>
    simp only [deed?, step]
    cases c.threads j with
    | done a => exact .nil _
    | ask access next => exact .deed (.nil _)

/-- Calls are answered one after another. -/
theorem answered (h : ∀ f, .change f ∈ moves → ∀ u, drift u (f u)) :
    Answered o drift c.scene (c.log o moves) (c.run o moves).scene := by
  induction moves generalizing c with
  | nil => exact .nil _
  | cons move moves ih =>
    refine (answered_step ?_).trans (ih ?_)
    · rintro f rfl
      exact h f (.head _)
    · exact fun f hf => h f (.tail _ hf)

/-- Calls that were begun in a scene have come to where they are and made the accesses of a log. -/
def Course (o : Surroundings τ) (drift : τ → τ → Prop) (x : Scene τ) (log : Log ι)
    (c : Crew τ tasks) : Prop :=
  ∃ moves, (∀ f, .change f ∈ moves → ∀ u, drift u (f u)) ∧ (start tasks x).log o moves = log ∧
    (start tasks x).run o moves = c

namespace Course

variable {x : Scene τ} {log : Log ι} {i : ι}

theorem answered (h : Course o drift x log c) : Answered o drift x log c.scene := by
  obtain ⟨moves, hchange, rfl, rfl⟩ := h
  exact Crew.answered (c := start tasks x) hchange

theorem leads (h : Course o drift x log c) (i : ι) :
    (tasks i).program.Leads (log.own i) (c.threads i) := by
  obtain ⟨moves, -, rfl, rfl⟩ := h
  exact Crew.leads (start tasks x) moves i

theorem leads_of_eq (h : Course o drift x log c) {t : Task} (hi : tasks i = t) :
    ∃ p : Program t.Result, t.program.Leads (log.own i) p := by
  subst hi
  exact ⟨_, h.leads i⟩

/-- One more move. -/
theorem step (h : Course o drift x log c) {move : Move ι τ}
    (hmove : ∀ f, move = .change f → ∀ u, drift u (f u)) :
    Course o drift x (log ++ (c.deed? o move).toList) (c.step o move) := by
  obtain ⟨moves, hchange, rfl, rfl⟩ := h
  refine ⟨moves ++ [move], fun f hf => ?_, ?_, run_append ..⟩
  · rcases List.mem_append.mp hf with hf | hf
    · exact hchange f hf
    · exact hmove f (List.mem_singleton.mp hf).symm
  · rw [log_append, Crew.log, Crew.log, List.append_nil]

/-- What a call did that is over is a whole trace of its program. -/
theorem yields (h : Course o drift x log c) {a : (tasks i).Result}
    (hdone : c.threads i = .done a) : (tasks i).program.Yields (log.own i) a := by
  have hleads := h.leads i
  rwa [hdone] at hleads

end Course

end Crew

end IntentPlane
