import IntentPlane.Proofs.InMemory
import IntentPlane.Status.Store
import Mathlib.Logic.Function.Basic

/-!
# Store calls, access by access

A call of the status store is a program of a few accesses, and others may write between them.
`StoreCall.atomic` is what a call means for a plain map from services to records, and `Moved` says
what a single access of it does to that map. An update goes through stages (`Updating`): it is about
to read, or it has read an entry and is about to write. Versions are never given out twice, so an
entry that is still at the version read is the entry that was read (`Known`), whatever was removed
and put back meanwhile.
-/

namespace IntentPlane

/-- A plain map from services to records. -/
abbrev Contents := ServiceId → Option ServiceRecord

inductive StoreCall where
  | updateKey (service : ServiceId) (entry : KeyStatus)
  | updateKeyIfPresent (service : ServiceId) (entry : KeyStatus)
  | updateLinks (service : ServiceId) (key : IntentKey) (links : List CandidateLink)
  | put (service : ServiceId) (record : ServiceRecord)
  | getKeys (service : ServiceId)
  | findKeys (service : ServiceId)
  | removeService (service : ServiceId)

namespace StoreCall

def service : StoreCall → ServiceId
  | updateKey s _ | updateKeyIfPresent s _ | updateLinks s _ _ | put s _ | getKeys s | findKeys s
  | removeService s => s

def Result : StoreCall → Type
  | updateKey .. | updateLinks .. => Except StoreError ServiceRecord
  | updateKeyIfPresent .. => Except StoreError (Option ServiceRecord)
  | put .. => Unit
  | getKeys _ => ServiceRecord
  | findKeys _ => Option ServiceRecord
  | removeService _ => Bool

/-- The program of a call, in a store that tries an update so many times. -/
def program (retries : UInt32) : (c : StoreCall) → Program c.Result
  | updateKey s e => StatusStore.updateKey retries s e
  | updateKeyIfPresent s e => StatusStore.updateKeyIfPresent retries s e
  | updateLinks s k links => StatusStore.updateLinks retries s k links
  | put s r => Program.putRecord s r
  | getKeys s => StatusStore.getKeys s
  | findKeys s => StatusStore.findKeys s
  | removeService s => StatusStore.removeService s

/-- What a call does to a plain map, all at once. -/
def atomic : (c : StoreCall) → Contents → c.Result × Contents
  | updateKey s e, m =>
    let r := ((m s).getD .empty).upsert e
    (.ok r, Function.update m s (some r))
  | updateKeyIfPresent s e, m =>
    match m s with
    | none => (.ok none, m)
    | some r => (.ok (some (r.upsert e)), Function.update m s (some (r.upsert e)))
  | updateLinks s k links, m =>
    let r := ((m s).getD .empty).setLinks k links
    (.ok r, Function.update m s (some r))
  | put s r, m => ((), Function.update m s (some r))
  | getKeys s, m => ((m s).getD .empty, Function.update m s (some ((m s).getD .empty)))
  | findKeys s, m => (m s, m)
  | removeService s, m => ((m s).isSome, Function.update m s none)

/-- Whether a call gave up after losing every race. -/
def gaveUp : (c : StoreCall) → c.Result → Bool
  | updateKey .., .error _ | updateKeyIfPresent .., .error _ | updateLinks .., .error _ => true
  | _, _ => false

/-- Whether a call begins by writing an empty record for a service that has none. -/
def creates : StoreCall → Bool
  | updateKey .. | updateLinks .. => true
  | _ => false

/-- The access by which a call may take effect. An update does so by writing the record that it
returns, and one that finds no record by looking for it. -/
def CommitsBy : (c : StoreCall) → c.Result → Access → Prop
  | updateKey s _, .ok r, access | updateLinks s _ _, .ok r, access
  | updateKeyIfPresent s _, .ok (some r), access => ∃ version, access = .replaceRecord s version r
  | updateKeyIfPresent s _, .ok none, access => access = .readRecord s
  | _, _, _ => True

/-- What an access of a call does to the map: it ends the call, which takes effect as a whole or
gives up, or the call goes on and has at most written an empty record for a service that had
none. -/
inductive Moved (c : StoreCall) (access : Access) (m : Contents) :
    Contents → Program c.Result → Prop where
  | performed : c.atomic m = (result, m') → c.gaveUp result = false → c.CommitsBy result access →
      (c.creates = true → m c.service ≠ none) → Moved c access m m' (.done result)
  | gaveUp : c.gaveUp result = true → Moved c access m m (.done result)
  | onward : Moved c access m m (.ask access' next)
  | touched : c.creates = true → m c.service = none →
      Moved c access m (Function.update m c.service (some .empty)) (.ask access' next)

end StoreCall

/-! ## Versions -/

/-- How the store changes from one access to the next: versions only grow. -/
structure Evolved (m m' : VersionedMap ServiceId ServiceRecord) : Prop where
  clock : m.clock ≤ m'.clock
  stored : ∀ s v, m'.get? s = some v →
    m.get? s = some v ∨ m.clock < v.version ∧ v.version ≤ m'.clock

/-- No entry is younger than the clock. -/
def Bounded (m : VersionedMap ServiceId ServiceRecord) : Prop :=
  ∀ s v, m.get? s = some v → v.version ≤ m.clock

/-- An entry that was read at some time: an entry of its version is still the same. -/
structure Known (m : VersionedMap ServiceId ServiceRecord) (s : ServiceId)
    (v : Versioned ServiceRecord) : Prop where
  version_le : v.version ≤ m.clock
  eq_of_version : ∀ u, m.get? s = some u → u.version = v.version → u = v

variable {m m' : VersionedMap ServiceId ServiceRecord} {s : ServiceId}
  {v : Versioned ServiceRecord}

theorem Evolved.refl (m : VersionedMap ServiceId ServiceRecord) : Evolved m m :=
  ⟨Nat.le_refl _, fun _ _ h => .inl h⟩

theorem evolved_put (m : VersionedMap ServiceId ServiceRecord) (s : ServiceId)
    (r : ServiceRecord) : Evolved m (m.put s r) where
  clock := Nat.le_succ _
  stored t v h := by
    rw [VersionedMap.get?_put] at h
    split at h
    · cases h
      exact .inr ⟨Nat.lt_succ_self _, Nat.le_refl _⟩
    · exact .inl h

theorem evolved_answer (access : Access) (w : World) :
    Evolved w.records (World.answer access w).2.records := by
  cases access with
  | putRecord s r => exact evolved_put ..
  | ensureRecord s =>
    simp only [World.answer, VersionedMap.ensure]
    split
    · exact .refl _
    · exact evolved_put ..
  | replaceRecord s version r =>
    simp only [World.answer, VersionedMap.replace]
    split
    · exact evolved_put ..
    · exact .refl _
  | removeRecord s =>
    refine ⟨Nat.le_refl _, fun t v h => .inl ?_⟩
    rw [World.answer, VersionedMap.get?_remove] at h
    split at h
    · cases h
    · exact h
  | readRecord | listServices | listRecords | indexIntent | indexedIntent | unindexIntent
  | resolve | submit | withdraw | heldIntents => exact .refl _

theorem Bounded.evolved (h : Bounded m) (hm : Evolved m m') : Bounded m' := fun s v hv => by
  rcases hm.stored s v hv with hold | ⟨-, hle⟩
  · exact Nat.le_trans (h s v hold) hm.clock
  · exact hle

theorem Bounded.known (h : Bounded m) (hv : m.get? s = some v) : Known m s v where
  version_le := h s v hv
  eq_of_version _ hu _ := Option.some.inj (hu.symm.trans hv)

/-- An entry that was read stays known: whatever is written later has a later version. -/
theorem Known.evolved (h : Known m s v) (hm : Evolved m m') : Known m' s v where
  version_le := Nat.le_trans h.version_le hm.clock
  eq_of_version u hu hversion := by
    rcases hm.stored s u hu with hold | ⟨hlt, -⟩
    · exact h.eq_of_version u hold hversion
    · have := h.version_le
      omega

/-! ## Stages of an update -/

section Updating

variable {β : Type} (failure : StoreError) (absent : StatusStore.Absent) (s : ServiceId)
  (change : ServiceRecord → ServiceRecord)
  (finish : Except StoreError (Option ServiceRecord) → β)

/-- An update that is about to read, with so many attempts left. -/
def updating (left : Nat) : Program β := do
  return finish (← StatusStore.attempt failure absent s change left)

/-- An update that has read an entry and is about to write. -/
def replacing (v : Versioned ServiceRecord) (left : Nat) : Program β :=
  .ask (.replaceRecord s v.version (change v.value)) fun written =>
    if written then .done (finish (.ok (some (change v.value))))
    else updating failure absent s change finish left

/-- The stages of an update. -/
inductive Updating (m : VersionedMap ServiceId ServiceRecord) : Program β → Prop where
  | reading (left : Nat) : Updating m (updating failure absent s change finish left)
  | writing (v : Versioned ServiceRecord) (left : Nat) : Known m s v →
      Updating m (replacing failure absent s change finish v left)
  | ended (b : β) : Updating m (.done b)

/-- What an access of an update does: where the update goes on, and the records after it. -/
inductive Updated (access : Access) (m : Contents) : Contents → Program β → Prop where
  | written {version r} : m s = some r → access = .replaceRecord s version (change r) →
      Updated access m (Function.update m s (some (change r)))
        (.done (finish (.ok (some (change r)))))
  | missing : absent = .leave → m s = none → access = .readRecord s →
      Updated access m m (.done (finish (.ok none)))
  | failed : Updated access m m (.done (finish (.error failure)))
  | onward : Updated access m m (.ask access' next)
  | touched : absent = .create → m s = none →
      Updated access m (Function.update m s (some .empty)) (.ask access' next)

variable {failure absent s change finish}

theorem updating_create (left : Nat) :
    updating failure .create s change finish (left + 1) =
      .ask (.ensureRecord s) fun v => replacing failure .create s change finish v left := by
  rw [updating, StatusStore.attempt]
  change Program.ask _ _ = _
  congr 1
  funext v
  change Program.ask _ _ = Program.ask _ _
  congr 1
  funext written
  cases written <;> rfl

theorem updating_leave (left : Nat) :
    updating failure .leave s change finish (left + 1) =
      .ask (.readRecord s) fun v? => match v? with
        | none => .done (finish (.ok none))
        | some v => replacing failure .leave s change finish v left := by
  rw [updating, StatusStore.attempt]
  change Program.ask _ _ = _
  congr 1
  funext v?
  cases v? with
  | none => rfl
  | some v =>
    change Program.ask _ _ = Program.ask _ _
    congr 1
    funext written
    cases written <;> rfl

/-- An update that tries again goes on, or has failed. -/
theorem updated_again (left : Nat) (access : Access) (m : Contents) :
    Updated failure absent s change finish access m m
      (updating failure absent s change finish left) := by
  cases left with
  | zero => exact .failed
  | succ left =>
    cases absent with
    | create =>
      rw [updating_create]
      exact .onward
    | leave =>
      rw [updating_leave]
      exact .onward

/-- A conditional write either finds the entry that was read or changes nothing. -/
theorem replace_known (h : Known m s v) (r : ServiceRecord) :
    (m.get? s = some v ∧ m.replace s v.version r = (true, m.put s r)) ∨
      m.replace s v.version r = (false, m) := by
  cases hu : m.get? s with
  | none => exact .inr (by simp [VersionedMap.replace, hu])
  | some u =>
    by_cases hversion : u.version = v.version
    · -- Whatever was written meanwhile, only the entry that was read has its version.
      obtain rfl := h.eq_of_version u hu hversion
      exact .inl ⟨rfl, VersionedMap.replace_current hu r⟩
    · exact .inr (by simp [VersionedMap.replace, hu, hversion])

theorem record_put (w : World) (s : ServiceId) (r : ServiceRecord) :
    ({ w with records := w.records.put s r } : World).record =
      Function.update w.record s (some r) := by
  funext t
  rw [Function.update_apply]
  simp [World.record, VersionedMap.value?_put, eq_comm]

theorem record_ensure (w : World) (s : ServiceId) :
    ({ w with records := (w.records.ensure s .empty).2 } : World).record =
      Function.update w.record s (some ((w.record s).getD .empty)) := by
  funext t
  rw [Function.update_apply]
  simp [World.record, VersionedMap.value?_ensure, eq_comm]

theorem record_remove (w : World) (s : ServiceId) :
    ({ w with records := (w.records.remove s).2 } : World).record =
      Function.update w.record s none := by
  funext t
  rw [Function.update_apply]
  simp [World.record, VersionedMap.value?_remove, eq_comm]

theorem Updating.step {access : Access} {next : access.Answer → Program β} {w : World}
    (h : Updating failure absent s change finish w.records (.ask access next))
    (hb : Bounded w.records) :
    Updated failure absent s change finish access w.record (World.answer access w).2.record
        (next (World.answer access w).1) ∧
      Updating failure absent s change finish (World.answer access w).2.records
        (next (World.answer access w).1) := by
  generalize hp : Program.ask access next = program at h
  cases h with
  | ended b => cases hp
  | reading left =>
    cases left with
    | zero => cases hp
    | succ left =>
      cases absent with
      | create =>
        rw [updating_create] at hp
        cases hp
        cases hv : w.records.get? s with
        | some v =>
          simp only [World.answer, VersionedMap.ensure, hv]
          exact ⟨.onward, .writing v left (hb.known hv)⟩
        | none =>
          simp only [World.answer, VersionedMap.ensure, hv, record_put]
          have hnone : w.record s = none := by simp [World.record, VersionedMap.value?, hv]
          have hknown := (hb.evolved (evolved_put w.records s .empty)).known
            (by rw [VersionedMap.get?_put, if_pos rfl])
          exact ⟨.touched rfl hnone, .writing _ left hknown⟩
      | leave =>
        rw [updating_leave] at hp
        cases hp
        cases hv : w.records.get? s with
        | some v =>
          simp only [World.answer, hv]
          exact ⟨.onward, .writing v left (hb.known hv)⟩
        | none =>
          simp only [World.answer, hv]
          have hnone : w.record s = none := by simp [World.record, VersionedMap.value?, hv]
          exact ⟨.missing rfl hnone rfl, .ended _⟩
  | writing v left hv =>
    cases hp
    rcases replace_known hv (change v.value) with ⟨hget, hwritten⟩ | hlost
    · simp only [World.answer, hwritten, record_put]
      have hvalue : w.record s = some v.value := by
        simp [World.record, VersionedMap.value?, hget]
      exact ⟨.written hvalue rfl, .ended _⟩
    · simp only [World.answer, hlost]
      exact ⟨updated_again left _ _, .reading left⟩

theorem Updating.evolved {program : Program β}
    (h : Updating failure absent s change finish m program) (hm : Evolved m m') :
    Updating failure absent s change finish m' program := by
  cases h with
  | reading left => exact .reading left
  | writing v left hv => exact .writing v left (hv.evolved hm)
  | ended b => exact .ended b

end Updating

/-! ## Steps of a call -/

/-- The programs that a call goes through. All but updates are a single access. -/
def Underway (retries : UInt32) (m : VersionedMap ServiceId ServiceRecord) :
    (c : StoreCall) → Program c.Result → Prop
  | .updateKey s e =>
    Updating (.contended s retries) .create s (·.upsert e) (·.map (·.getD .empty)) m
  | .updateKeyIfPresent s e => Updating (.contended s retries) .leave s (·.upsert e) id m
  | .updateLinks s k links =>
    Updating (.contended s retries) .create s (·.setLinks k links) (·.map (·.getD .empty)) m
  | c => fun program => program = c.program retries ∨ ∃ result, program = .done result

variable {retries : UInt32} {w : World}

theorem underway_program (retries : UInt32) (m : VersionedMap ServiceId ServiceRecord)
    (c : StoreCall) : Underway retries m c (c.program retries) := by
  cases c with
  | updateKey | updateLinks => exact .reading retries.toNat
  | updateKeyIfPresent s e =>
    have h : updating (.contended s retries) .leave s (·.upsert e) id retries.toNat =
        StatusStore.updateKeyIfPresent retries s e := bind_pure _
    rw [StoreCall.program, ← h]
    exact .reading retries.toNat
  | put | getKeys | findKeys | removeService => exact .inl rfl

/-- A call that is over before its first access gave up: it may not try at all. -/
theorem gaveUp_of_program {c : StoreCall} {result : c.Result}
    (h : c.program retries = .done result) : c.gaveUp result = true := by
  cases c with
  | updateKey | updateLinks | updateKeyIfPresent =>
    cases hn : retries.toNat with
    | zero =>
      simp only [StoreCall.program, StatusStore.updateKey, StatusStore.updateLinks,
        StatusStore.updateKeyIfPresent, StatusStore.modify, hn] at h
      cases h
      rfl
    | succ n =>
      simp only [StoreCall.program, StatusStore.updateKey, StatusStore.updateLinks,
        StatusStore.updateKeyIfPresent, StatusStore.modify, hn] at h
      cases h
  | put | getKeys | findKeys | removeService => cases h

theorem Underway.evolved {c : StoreCall} {program : Program c.Result}
    (h : Underway retries m c program) (hm : Evolved m m') : Underway retries m' c program := by
  cases c with
  | updateKey | updateKeyIfPresent | updateLinks => exact Updating.evolved h hm
  | put | getKeys | findKeys | removeService => exact h

section Moved

variable {m m' : Contents} {access : Access} {failure : StoreError}

/-- An update of a creating call, told by what the call means for a map. -/
theorem Updated.moved_create {c : StoreCall} {change : ServiceRecord → ServiceRecord}
    {finish : Except StoreError (Option ServiceRecord) → c.Result} {program : Program c.Result}
    (h : Updated failure .create c.service change finish access m m' program)
    (hcreates : c.creates = true) (herror : c.gaveUp (finish (.error failure)) = true)
    (hok : ∀ r, c.gaveUp (finish (.ok (some r))) = false)
    (hcommits : ∀ r version, c.CommitsBy (finish (.ok (some r)))
      (.replaceRecord c.service version r))
    (hatomic : ∀ r, m c.service = some r → c.atomic m =
      (finish (.ok (some (change r))), Function.update m c.service (some (change r)))) :
    c.Moved access m m' program := by
  cases h with
  | written hr haccess =>
    subst haccess
    exact .performed (hatomic _ hr) (hok _) (hcommits ..) fun _ => by simp [hr]
  | missing habsent => cases habsent
  | failed => exact .gaveUp herror
  | onward => exact .onward
  | touched _ hnone => exact .touched hcreates hnone

theorem Updated.moved_ifPresent {s : ServiceId} {e : KeyStatus}
    {program : Program (StoreCall.updateKeyIfPresent s e).Result}
    (h : Updated failure .leave s (·.upsert e) id access m m' program) :
    (StoreCall.updateKeyIfPresent s e).Moved access m m' program := by
  cases h with
  | written hr haccess =>
    exact .performed (by simp [StoreCall.atomic, hr]) rfl ⟨_, haccess⟩ nofun
  | missing _ hnone haccess =>
    exact .performed (by simp [StoreCall.atomic, hnone]) rfl haccess nofun
  | failed => exact .gaveUp rfl
  | onward => exact .onward
  | touched habsent => cases habsent

end Moved

/-- Every access of a call moves it on, whatever happened since its last one. -/
theorem Underway.step {c : StoreCall} {access : Access} {next : access.Answer → Program c.Result}
    (h : Underway retries w.records c (.ask access next)) (hb : Bounded w.records) :
    c.Moved access w.record (World.answer access w).2.record (next (World.answer access w).1) ∧
      Underway retries (World.answer access w).2.records c (next (World.answer access w).1) := by
  cases c with
  | updateKey s e =>
    obtain ⟨hupdated, hunderway⟩ := Updating.step h hb
    refine ⟨hupdated.moved_create (c := .updateKey s e) rfl rfl (fun _ => rfl)
      (fun _ version => ⟨version, rfl⟩) fun r hr => ?_, hunderway⟩
    simp only [StoreCall.service] at hr
    simp [StoreCall.atomic, StoreCall.service, hr, Except.map]
  | updateKeyIfPresent s e =>
    obtain ⟨hupdated, hunderway⟩ := Updating.step h hb
    exact ⟨hupdated.moved_ifPresent, hunderway⟩
  | updateLinks s k links =>
    obtain ⟨hupdated, hunderway⟩ := Updating.step h hb
    refine ⟨hupdated.moved_create (c := .updateLinks s k links) rfl rfl (fun _ => rfl)
      (fun _ version => ⟨version, rfl⟩) fun r hr => ?_, hunderway⟩
    simp only [StoreCall.service] at hr
    simp [StoreCall.atomic, StoreCall.service, hr, Except.map]
  | put s r =>
    rcases h with h | ⟨result, h⟩
    · cases h
      exact ⟨.performed (congrArg _ (record_put w s r).symm) rfl trivial nofun, .inr ⟨_, rfl⟩⟩
    · cases h
  | getKeys s =>
    rcases h with h | ⟨result, h⟩
    · cases h
      have hvalue : (w.records.ensure s .empty).1.value = (w.record s).getD .empty :=
        VersionedMap.ensure_value ..
      exact ⟨.performed (Prod.ext hvalue.symm (record_ensure w s).symm) rfl trivial nofun,
        .inr ⟨_, rfl⟩⟩
    · cases h
  | findKeys s =>
    rcases h with h | ⟨result, h⟩
    · cases h
      exact ⟨.performed rfl rfl trivial nofun, .inr ⟨_, rfl⟩⟩
    · cases h
  | removeService s =>
    rcases h with h | ⟨result, h⟩
    · cases h
      exact ⟨.performed (congrArg _ (record_remove w s).symm) rfl trivial nofun, .inr ⟨_, rfl⟩⟩
    · cases h

end IntentPlane
