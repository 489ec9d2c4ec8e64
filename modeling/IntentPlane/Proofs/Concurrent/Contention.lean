import IntentPlane.Proofs.Concurrent.Crew
import IntentPlane.Proofs.InMemory

/-!
# Updates that give up

An update fails when it loses every race it may run. A record that nobody writes or removes keeps
its version (`Answered.get?_of_not_strikes`), so a race is lost only to another call that strikes
the record between the attempt's read and its conditional write (`Answered.exists_strike`). The
windows of two attempts do not overlap, and so the attempts of an update that gave up are charged to
as many different strikes (`attempts_of_lost`, `length_le_rivalStrikes`).
-/

namespace IntentPlane

/-! ## Strikes -/

/-- Whether an access wrote or removed the record of a service. -/
def Deed.strikes (s : ServiceId) : Deed → Bool
  | ⟨.putRecord t _, _⟩ | ⟨.replaceRecord t _ _, true⟩ | ⟨.removeRecord t, some _⟩ => t = s
  | _ => false

variable {ι τ : Type} {o : Surroundings τ} {drift : τ → τ → Prop} {x y : Scene τ} {s : ServiceId}
  {v : Versioned ServiceRecord}

/-- A record that is stored stays as it is until it is struck. -/
theorem get?_answer_of_not_strikes {access : Access}
    (h : (⟨access, (o.answer access x).1⟩ : Deed).strikes s = false)
    (hv : x.records.get? s = some v) : (o.answer access x).2.records.get? s = some v := by
  cases access with
  | putRecord t r =>
    have ht : t ≠ s := by simpa [Deed.strikes] using h
    simpa [Surroundings.answer, VersionedMap.get?_put, ht] using hv
  | ensureRecord t =>
    by_cases ht : t = s
    · subst ht
      simp [Surroundings.answer, Scene.ensure, VersionedMap.ensure_of_get? hv, hv]
    · simpa [Surroundings.answer, Scene.ensure, VersionedMap.get?_ensure, ht] using hv
  | replaceRecord t version r =>
    simp only [Surroundings.answer, VersionedMap.replace] at h ⊢
    split at h
    · next hwritten =>
      have ht : t ≠ s := by simpa [Deed.strikes] using h
      simpa [hwritten, VersionedMap.get?_put, ht] using hv
    · next hlost => simpa [hlost] using hv
  | removeRecord t =>
    have ht : t ≠ s := by
      rintro rfl
      simp [Surroundings.answer, VersionedMap.remove, hv, Deed.strikes] at h
    simpa [Surroundings.answer, VersionedMap.get?_remove, ht] using hv
  | readRecord | listServices | listRecords | indexIntent | indexedIntent | unindexIntent
  | resolve | submit | withdraw | heldIntents => exact hv

theorem Answered.get?_of_not_strikes {log : Log ι} (h : Answered o drift x log y)
    (hlog : ∀ e ∈ log, e.2.strikes s = false) (hv : x.records.get? s = some v) :
    y.records.get? s = some v := by
  induction h with
  | nil => exact hv
  | drift _ _ ih => exact ih hlog hv
  | deed _ ih =>
    rw [List.forall_mem_cons] at hlog
    exact ih hlog.2 (get?_answer_of_not_strikes hlog.1 hv)

/-- A race is lost to a strike between the read and the conditional write. -/
theorem Answered.exists_strike {i j : ι} {absent : StatusStore.Absent} {r : ServiceRecord}
    {window after : Log ι}
    (h : Answered o drift x ((i, absent.finds s v) ::
      (window ++ (j, ⟨.replaceRecord s v.version r, false⟩) :: after)) y) :
    ∃ e ∈ window, e.2.strikes s = true := by
  by_contra hnone
  obtain ⟨z, -, hfound, h⟩ := h.uncons
  obtain ⟨z', hwindow, hlost, -⟩ := h.scene_at
  have hget : z'.records.get? s = some v :=
    hwindow.get?_of_not_strikes (fun e he => by simpa using fun hs => hnone ⟨e, he, hs⟩)
      (Answered.get?_of_finds hfound)
  have hwritten : (z'.records.replace s v.version r).1 = true := by
    rw [VersionedMap.replace_current hget]
  exact Bool.false_ne_true (hlost.trans hwritten)

/-! ## Attempts -/

section Attempts

variable {β : Type} (failure : StoreError) (absent : StatusStore.Absent) (s : ServiceId)
  (change : ServiceRecord → ServiceRecord)
  (finish : Except StoreError (Option ServiceRecord) → β)

/-- An attempt that lost its race. -/
def lostAttempt (v : Versioned ServiceRecord) : List Deed :=
  [absent.finds s v, ⟨.replaceRecord s v.version (change v.value), false⟩]

/-- Where an update is after some lost attempts, with some left, and what it did since. -/
inductive Stage : Nat → List Deed → Program β → Prop where
  | gaveUp : Stage 0 [] (.done (finish (.error failure)))
  | reading (left : Nat) :
      Stage (left + 1) [] (updating failure absent s change finish (left + 1))
  | writing (left : Nat) (v : Versioned ServiceRecord) :
      Stage (left + 1) [absent.finds s v] (replacing failure absent s change finish v left)
  | missing (left : Nat) : absent = .leave →
      Stage (left + 1) [⟨.readRecord s, none⟩] (.done (finish (.ok none)))
  | written (left : Nat) (v : Versioned ServiceRecord) :
      Stage (left + 1)
        [absent.finds s v, ⟨.replaceRecord s v.version (change v.value), true⟩]
        (.done (finish (.ok (some (change v.value)))))

variable {failure absent s change finish} {ds : List Deed} {p : Program β}

theorem leads_updating_succ {left : Nat}
    (h : (updating failure absent s change finish (left + 1)).Leads ds p) :
    (ds = [] ∧ p = updating failure absent s change finish (left + 1)) ∨
      (absent = .leave ∧ ds = [⟨.readRecord s, none⟩] ∧ p = .done (finish (.ok none))) ∨
        ∃ v rest, ds = absent.finds s v :: rest ∧
          (replacing failure absent s change finish v left).Leads rest p := by
  cases absent with
  | create =>
    rw [updating_create] at h ⊢
    rcases Program.leads_ask.mp h with ⟨rfl, rfl⟩ | ⟨v, rest, rfl, hrest⟩
    · exact .inl ⟨rfl, rfl⟩
    · exact .inr (.inr ⟨v, rest, rfl, hrest⟩)
  | leave =>
    rw [updating_leave] at h ⊢
    rcases Program.leads_ask.mp h with ⟨rfl, rfl⟩ | ⟨v | v, rest, rfl, hrest⟩
    · exact .inl ⟨rfl, rfl⟩
    · obtain ⟨⟩ := hrest
      exact .inr (.inl ⟨rfl, rfl, rfl⟩)
    · exact .inr (.inr ⟨v, rest, rfl, hrest⟩)

/-- An update is at one of its stages, after attempts that were lost. -/
theorem stage_of_leads {left : Nat}
    (h : (updating failure absent s change finish left).Leads ds p) :
    ∃ (lost : List (Versioned ServiceRecord)) (rest : Nat) (last : List Deed),
      left = lost.length + rest ∧ ds = lost.flatMap (lostAttempt absent s change) ++ last ∧
      Stage failure absent s change finish rest last p := by
  induction left generalizing ds with
  | zero =>
    obtain ⟨⟩ := h
    exact ⟨[], 0, [], rfl, rfl, .gaveUp⟩
  | succ left ih =>
    rcases leads_updating_succ h with ⟨rfl, rfl⟩ | ⟨habsent, rfl, rfl⟩ | ⟨v, rest, rfl, hrest⟩
    · exact ⟨[], left + 1, [], (Nat.zero_add _).symm, rfl, .reading left⟩
    · exact ⟨[], left + 1, _, (Nat.zero_add _).symm, rfl, .missing left habsent⟩
    · rcases Program.leads_ask.mp hrest with ⟨rfl, rfl⟩ | ⟨written, rest, rfl, hend⟩
      · exact ⟨[], left + 1, _, (Nat.zero_add _).symm, rfl, .writing left v⟩
      · cases written with
        | true =>
          obtain ⟨⟩ := hend
          exact ⟨[], left + 1, _, (Nat.zero_add _).symm, rfl, .written left v⟩
        | false =>
          obtain ⟨lost, rest, last, rfl, rfl, hstage⟩ := ih hend
          exact ⟨v :: lost, rest, last, by rw [List.length_cons]; omega, rfl, hstage⟩

theorem Stage.of_done {left : Nat} {result : β}
    (h : Stage failure absent s change finish left ds (.done result)) :
    left = 0 ∧ ds = [] ∨
      (absent = .leave ∧ ds = [⟨.readRecord s, none⟩] ∧ result = finish (.ok none)) ∨
        ∃ v, ds = [absent.finds s v, ⟨.replaceRecord s v.version (change v.value), true⟩] ∧
          result = finish (.ok (some (change v.value))) := by
  generalize hp : Program.done result = p at h
  cases h with
  | gaveUp => exact .inl ⟨rfl, rfl⟩
  | reading left =>
    cases absent with
    | create => cases hp.trans (updating_create left)
    | leave => cases hp.trans (updating_leave left)
  | writing => cases hp
  | missing left habsent =>
    cases hp
    exact .inr (.inl ⟨habsent, rfl, rfl⟩)
  | written left v =>
    cases hp
    exact .inr (.inr ⟨v, rfl, rfl⟩)

theorem Stage.of_ask {left : Nat} {access : Access} {next : access.Answer → Program β}
    (h : Stage failure absent s change finish left ds (.ask access next)) :
    0 < left ∧ ds.length < 2 := by
  generalize hp : Program.ask access next = p at h
  cases h with
  | gaveUp | missing | written => cases hp
  | reading left => exact ⟨left.succ_pos, Nat.two_pos⟩
  | writing left v => exact ⟨left.succ_pos, Nat.one_lt_two⟩

end Attempts

/-! ## Updating calls -/

namespace StoreCall

def isUpdate : StoreCall → Bool
  | updateKey .. | updateKeyIfPresent .. | updateLinks .. => true
  | put .. | getKeys _ | findKeys _ | removeService _ => false

/-- What an update does about a service without a record. -/
def absent : StoreCall → StatusStore.Absent
  | updateKeyIfPresent .. => .leave
  | _ => .create

/-- What an update makes of a record. -/
def change : StoreCall → ServiceRecord → ServiceRecord
  | updateKey _ e | updateKeyIfPresent _ e => (·.upsert e)
  | updateLinks _ k links => (·.setLinks k links)
  | _ => id

theorem creates_of_absent {c : StoreCall} (h : c.isUpdate = true) (habsent : c.absent = .create) :
    c.creates = true := by
  cases c with
  | updateKey | updateLinks => rfl
  | updateKeyIfPresent => cases habsent
  | put | getKeys | findKeys | removeService => cases h

/-- The access by which an update succeeds: it writes the record that is returned, or it finds that
there is none. -/
def SucceedsBy : (c : StoreCall) → c.Result → Deed → Prop
  | updateKey s _, .ok r, d | updateLinks s _ _, .ok r, d
  | updateKeyIfPresent s _, .ok (some r), d => ∃ version, d = ⟨.replaceRecord s version r, true⟩
  | updateKeyIfPresent s _, .ok none, d => d = ⟨.readRecord s, none⟩
  | _, _, _ => False

/-- How an update reports its end. -/
structure Reports (c : StoreCall) (finish : Except StoreError (Option ServiceRecord) → c.Result) :
    Prop where
  ok : ∀ r, c.gaveUp (finish (.ok r)) = false
  written : ∀ version r,
    c.SucceedsBy (finish (.ok (some r))) ⟨.replaceRecord c.service version r, true⟩
  missing : c.absent = .leave → c.SucceedsBy (finish (.ok none)) ⟨.readRecord c.service, none⟩

theorem program_eq_updating {c : StoreCall} (h : c.isUpdate = true) (retries : UInt32) :
    ∃ finish, c.Reports finish ∧ c.program retries =
      updating (.contended c.service retries) c.absent c.service c.change finish
        retries.toNat := by
  cases c with
  | updateKey | updateLinks =>
    exact ⟨(·.map (·.getD .empty)), ⟨fun _ => rfl, fun version _ => ⟨version, rfl⟩, nofun⟩, rfl⟩
  | updateKeyIfPresent =>
    exact ⟨id, ⟨fun _ => rfl, fun version _ => ⟨version, rfl⟩, fun _ => rfl⟩, (bind_pure _).symm⟩
  | put | getKeys | findKeys | removeService => cases h

end StoreCall

/-- The access by which a task that is an update succeeds. -/
def Task.SucceedsBy : (t : Task) → t.Result → Deed → Prop
  | .store _ c, result, d => c.SucceedsBy result d
  | .decompose .., _, _ | .event .., _, _ | .recover .., _, _ => False

/-! ## Windows -/

/-- A lost attempt in a log: the record that it found, what happened before it since the last one,
and what happened between its read and its conditional write. -/
structure Attempt (ι : Type) where
  before : Log ι
  found : Versioned ServiceRecord
  window : Log ι

namespace Attempt

/-- The part of a log that an attempt of a call takes. -/
def log (i : ι) (c : StoreCall) (a : Attempt ι) : Log ι :=
  a.before ++ (i, c.absent.finds c.service a.found) :: (a.window ++
    [(i, ⟨.replaceRecord c.service a.found.version (c.change a.found.value), false⟩)])

/-- That another call struck the record between the read and the conditional write, the next
accesses of the call itself. -/
def IsStruck [DecidableEq ι] (i : ι) (s : ServiceId) (a : Attempt ι) : Prop :=
  a.before.own i = [] ∧ a.window.own i = [] ∧ ∃ e ∈ a.window, e.1 ≠ i ∧ e.2.strikes s = true

end Attempt

/-- The accesses of the other calls. -/
def Log.others [DecidableEq ι] (log : Log ι) (i : ι) : Log ι := log.filter fun e => e.1 ≠ i

/-- How often others struck the record of a service. -/
def rivalStrikes [DecidableEq ι] (i : ι) (s : ServiceId) (log : Log ι) : Nat :=
  log.countP fun e => e.1 ≠ i && e.2.strikes s

section Windows

variable [DecidableEq ι] {i : ι} {c : StoreCall} {log : Log ι}

theorem Attempt.own_log {a : Attempt ι} (h : a.IsStruck i s) :
    (a.log i c).own i = lostAttempt c.absent c.service c.change a.found := by
  simp [Attempt.log, h.1, h.2.1, lostAttempt]

theorem own_attempts {attempts : List (Attempt ι)} (h : ∀ a ∈ attempts, a.IsStruck i s)
    (rest : Log ι) :
    Log.own (attempts.flatMap (Attempt.log i c) ++ rest) i =
      attempts.flatMap (fun a => lostAttempt c.absent c.service c.change a.found) ++
        rest.own i := by
  induction attempts with
  | nil => rfl
  | cons a attempts ih =>
    rw [List.forall_mem_cons] at h
    rw [List.flatMap_cons, List.append_assoc, Log.own_append, Attempt.own_log h.1,
      ih h.2, List.flatMap_cons, List.append_assoc]

theorem length_own_attempts {attempts : List (Attempt ι)} (h : ∀ a ∈ attempts, a.IsStruck i s)
    (rest : Log ι) :
    (Log.own (attempts.flatMap (Attempt.log i c) ++ rest) i).length =
      2 * attempts.length + (rest.own i).length := by
  rw [own_attempts h, List.length_append]
  simp [lostAttempt, List.length_flatMap, Nat.mul_comm]

/-- Each lost attempt is struck in a window of its own. -/
theorem attempts_of_lost {lost : List (Versioned ServiceRecord)} {last : List Deed}
    (h : Answered o drift x log y)
    (hown : log.own i = lost.flatMap (lostAttempt c.absent c.service c.change) ++ last) :
    ∃ (attempts : List (Attempt ι)) (rest : Log ι),
      log = attempts.flatMap (Attempt.log i c) ++ rest ∧ attempts.length = lost.length ∧
        (∀ a ∈ attempts, a.IsStruck i c.service) ∧ rest.own i = last := by
  induction lost generalizing log x with
  | nil => exact ⟨[], log, rfl, rfl, List.forall_mem_nil _, hown⟩
  | cons v lost ih =>
    obtain ⟨before, after, rfl, hbefore, hafter⟩ := @Log.own_split _ _ _ _ [] _ _ hown
    obtain ⟨window, after, rfl, hwindow, hafter⟩ := @Log.own_split _ _ _ _ [] _ _ hafter
    obtain ⟨z, -, hattempt⟩ := h.split
    obtain ⟨e, he, hstrikes⟩ := hattempt.exists_strike
    have hother : e.1 ≠ i := by
      rintro rfl
      exact List.not_mem_nil (hwindow ▸ Log.mem_own.mpr he)
    obtain ⟨_, -, -, hfrom⟩ := h.scene_at
    obtain ⟨_, -, -, hrest⟩ := hfrom.scene_at
    obtain ⟨attempts, rest, rfl, hlength, hstruck, hlast⟩ := ih hrest hafter
    refine ⟨⟨before, v, window⟩ :: attempts, rest, by simp [Attempt.log], by simp [hlength],
      List.forall_mem_cons.mpr ⟨⟨hbefore, hwindow, e, he, hother, hstrikes⟩, hstruck⟩, hlast⟩

/-- No strike is charged twice. -/
theorem length_le_rivalStrikes {attempts : List (Attempt ι)}
    (h : ∀ a ∈ attempts, a.IsStruck i s) (rest : Log ι) :
    attempts.length ≤ rivalStrikes i s (attempts.flatMap (Attempt.log i c) ++ rest) := by
  induction attempts with
  | nil => exact Nat.zero_le _
  | cons a attempts ih =>
    rw [List.forall_mem_cons] at h
    obtain ⟨⟨-, -, e, he, hother, hstrikes⟩, hrest⟩ := h
    have hone : 0 < rivalStrikes i s (a.log i c) :=
      List.countP_pos_iff.mpr ⟨e, by simp [Attempt.log, he], by simp [hother, hstrikes]⟩
    have hmore := ih hrest
    rw [List.flatMap_cons, List.append_assoc, List.length_cons]
    unfold rivalStrikes at hone hmore ⊢
    rw [List.countP_append]
    omega

end Windows

/-! ## What a failed update leaves -/

/-- Records that are the same, but that the service of a call which creates records may have an
empty one in the first where it has none in the second. -/
def SameButEmpty (c : StoreCall) (m m' : Contents) : Prop :=
  ∀ s, m s = m' s ∨ c.creates = true ∧ s = c.service ∧ m' s = none ∧ m s = some .empty

namespace SameButEmpty

variable {c : StoreCall} {m m' : Contents}

theorem update (h : SameButEmpty c m m') (s : ServiceId) (r : Option ServiceRecord) :
    SameButEmpty c (Function.update m s r) (Function.update m' s r) := by
  intro t
  rw [Function.update_apply, Function.update_apply]
  split
  · exact .inl rfl
  · exact h t

theorem writes (h : SameButEmpty c m m') (d : Deed) :
    SameButEmpty c (d.writes m) (d.writes m') := by
  unfold Deed.writes
  split
  · next s _ =>
    have hs : (m s).getD .empty = (m' s).getD .empty := by
      rcases h s with heq | ⟨-, -, hnone, hempty⟩
      · rw [heq]
      · rw [hnone, hempty]
        rfl
    rw [hs]
    exact h.update s _
  · exact h.update _ _
  · exact h.update _ _
  · exact h.update _ _
  · exact h

/-- What the accesses of a lost attempt do: at most they create an empty record. -/
theorem lost (h : SameButEmpty c m m') (hc : c.isUpdate = true) {v : Versioned ServiceRecord}
    {d : Deed} (hd : d ∈ lostAttempt c.absent c.service c.change v) :
    SameButEmpty c (d.writes m) m' := by
  rcases List.mem_cons.mp hd with rfl | hd
  · cases habsent : c.absent with
    | leave => exact h
    | create =>
      have hcreates := StoreCall.creates_of_absent hc habsent
      intro s
      simp only [StatusStore.Absent.finds, Deed.writes, Function.update_apply]
      split
      · next hs =>
        subst hs
        rcases h c.service with heq | ⟨-, -, hnone, hempty⟩
        · rw [heq]
          cases m' c.service with
          | none => exact .inr ⟨hcreates, rfl, rfl, rfl⟩
          | some r => exact .inl rfl
        · exact .inr ⟨hcreates, rfl, hnone, by rw [hempty]; rfl⟩
      · exact h s
  · rw [List.mem_singleton.mp hd]
    exact h

theorem entries (h : SameButEmpty c m m') (s : ServiceId) (k : IntentKey) :
    (m s).bind (·.get? k) = (m' s).bind (·.get? k) := by
  rcases h s with heq | ⟨-, -, hnone, hempty⟩
  · rw [heq]
  · rw [hnone, hempty]
    rfl

end SameButEmpty

/-- An update that has lost every race so far leaves the records as others made them. -/
theorem sameButEmpty_records [DecidableEq ι] {i : ι} {c : StoreCall} {log : Log ι}
    {m m' : Contents} (hc : c.isUpdate = true)
    (hown : ∀ d ∈ log.own i, ∃ v, d ∈ lostAttempt c.absent c.service c.change v)
    (h : SameButEmpty c m m') : SameButEmpty c (log.records m) ((log.others i).records m') := by
  induction log generalizing m m' with
  | nil => exact h
  | cons e log ih =>
    rw [Log.own_cons, List.forall_mem_append] at hown
    by_cases he : e.1 = i
    · rw [if_pos he] at hown
      obtain ⟨v, hv⟩ := hown.1 e.2 (.head _)
      rw [Log.others, List.filter_cons_of_neg (by simpa using he)]
      exact ih hown.2 (h.lost hc hv)
    · rw [Log.others, List.filter_cons_of_pos (by simpa using he)]
      exact ih hown.2 (h.writes e.2)

/-! ## Turns -/

/-- Whether a move is a turn of a call. -/
def Move.isTurn [DecidableEq ι] (i : ι) : Move ι τ → Bool
  | .turn j => j = i
  | .change _ => false

namespace Crew

variable [DecidableEq ι] {tasks : ι → Task} {c : Crew τ tasks} {i : ι}

theorem threads_run_of_done {a : (tasks i).Result} (h : c.threads i = .done a)
    (moves : List (Move ι τ)) : (c.run o moves).threads i = .done a := by
  have hleads := c.leads (o := o) moves i
  rw [h] at hleads
  generalize (c.run o moves).threads i = p, (c.log o moves).own i = ds at hleads
  cases hleads
  rfl

/-- A call that is not over made an access at each of its turns. -/
theorem length_own_of_ask {moves : List (Move ι τ)} {access : Access}
    {next : access.Answer → Program (tasks i).Result}
    (h : (c.run o moves).threads i = .ask access next) :
    ((c.log o moves).own i).length = moves.countP (Move.isTurn i) := by
  induction moves generalizing c with
  | nil => rfl
  | cons move moves ih =>
    have hrest := ih (c := c.step o move) h
    have hone : (Log.own (c.deed? o move).toList i).length = [move].countP (Move.isTurn i) := by
      cases move with
      | change f => rfl
      | turn j =>
        by_cases hj : j = i
        · subst hj
          cases hthread : c.threads j with
          | done a => exact nomatch h.symm.trans (threads_run_of_done hthread (.turn j :: moves))
          | ask access next => simp [deed?, hthread, Move.isTurn]
        · cases hthread : c.threads j <;> simp [deed?, hthread, Move.isTurn, hj]
    rw [log, Log.own_append, List.length_append, hone, hrest, ← List.countP_append]
    rfl

end Crew

/-! ## Updates among rivals -/

section Rivals

variable [DecidableEq ι] {i : ι} {c : StoreCall} {retries : UInt32} {log : Log ι}

/-- Where an update is, and the part of the log that each of its lost attempts takes. -/
theorem stage_of_call (hc : c.isUpdate = true) {p : Program c.Result}
    (h : Answered o drift x log y) (hleads : (c.program retries).Leads (log.own i) p) :
    ∃ (finish : Except StoreError (Option ServiceRecord) → c.Result) (left : Nat)
      (attempts : List (Attempt ι)) (rest : Log ι),
      c.Reports finish ∧ retries.toNat = attempts.length + left ∧
      log = attempts.flatMap (Attempt.log i c) ++ rest ∧
      (∀ a ∈ attempts, a.IsStruck i c.service) ∧
      Stage (.contended c.service retries) c.absent c.service c.change finish left
        (rest.own i) p := by
  obtain ⟨finish, hreports, hprogram⟩ := StoreCall.program_eq_updating hc retries
  rw [hprogram] at hleads
  obtain ⟨lost, left, last, hretries, hown, hstage⟩ := stage_of_leads hleads
  obtain ⟨attempts, rest, rfl, hlength, hstruck, rfl⟩ := attempts_of_lost h hown
  exact ⟨finish, left, attempts, rest, hreports, hlength ▸ hretries, rfl, hstruck, hstage⟩

/-- An update under way has made two accesses for each strike at most, and one more. -/
theorem length_own_lt (hc : c.isUpdate = true) (h : Answered o drift x log y) {access : Access}
    {next : access.Answer → Program c.Result}
    (hleads : (c.program retries).Leads (log.own i) (.ask access next)) :
    (log.own i).length < 2 * (rivalStrikes i c.service log + 1) ∧
      (log.own i).length < 2 * retries.toNat := by
  obtain ⟨finish, left, attempts, rest, -, hretries, rfl, hstruck, hstage⟩ :=
    stage_of_call hc h hleads
  have hcharged := length_le_rivalStrikes (c := c) hstruck rest
  have hlast := hstage.of_ask
  rw [length_own_attempts hstruck]
  omega

/-- An update that overlaps fewer strikes than it has attempts succeeds, after two accesses for
each of them at most, and two more. -/
theorem succeeds_of_rivalStrikes_lt (hc : c.isUpdate = true) (h : Answered o drift x log y)
    {result : c.Result} (hyields : (c.program retries).Yields (log.own i) result)
    (hfew : rivalStrikes i c.service log < retries.toNat) :
    (log.own i).length ≤ 2 * (rivalStrikes i c.service log + 1) ∧
      ∃ d, (log.own i).getLast? = some d ∧ c.SucceedsBy result d := by
  obtain ⟨finish, left, attempts, rest, hreports, hretries, rfl, hstruck, hstage⟩ :=
    stage_of_call hc h hyields
  have hcharged := length_le_rivalStrikes (c := c) hstruck rest
  rw [length_own_attempts hstruck, own_attempts hstruck]
  rcases hstage.of_done with ⟨rfl, -⟩ | ⟨habsent, hrest, rfl⟩ | ⟨v, hrest, rfl⟩
  · omega
  · rw [hrest]
    exact ⟨by rw [List.length_singleton]; omega, _, List.getLast?_concat,
      hreports.missing habsent⟩
  · rw [hrest, List.getLast?_append]
    exact ⟨by rw [List.length_cons, List.length_singleton]; omega, _, rfl, hreports.written ..⟩

/-- What is behind an update that gave up: each of its attempts lost its race to a strike of
another call in the attempt's own window, and what is stored is what the others made of it. -/
structure Outrun (i : ι) (c : StoreCall) (retries : UInt32) (log : Log ι) (m m' : Contents) :
    Prop where
  attempts : ∃ (attempts : List (Attempt ι)) (rest : Log ι),
    log = attempts.flatMap (Attempt.log i c) ++ rest ∧ attempts.length = retries.toNat ∧
      (∀ a ∈ attempts, a.IsStruck i c.service) ∧ rest.own i = []
  rivals : retries.toNat ≤ rivalStrikes i c.service log
  records : SameButEmpty c m' ((log.others i).records m)
  entries : ∀ s k, (m' s).bind (·.get? k) = ((log.others i).records m s).bind (·.get? k)

theorem outrun_of_gaveUp (hc : c.isUpdate = true) (h : Answered o drift x log y)
    {result : c.Result} (hyields : (c.program retries).Yields (log.own i) result)
    (hgaveUp : c.gaveUp result = true) : Outrun i c retries log x.record y.record := by
  obtain ⟨finish, left, attempts, rest, hreports, hretries, rfl, hstruck, hstage⟩ :=
    stage_of_call hc h hyields
  obtain ⟨rfl, hrest⟩ : left = 0 ∧ rest.own i = [] := by
    rcases hstage.of_done with hlast | ⟨-, -, rfl⟩ | ⟨v, -, rfl⟩
    · exact hlast
    · exact absurd hgaveUp (by simp [hreports.ok])
    · exact absurd hgaveUp (by simp [hreports.ok])
  rw [Nat.add_zero] at hretries
  have hrecords : SameButEmpty c y.record
      ((Log.others (attempts.flatMap (Attempt.log i c) ++ rest) i).records x.record) := by
    rw [h.record_eq]
    refine sameButEmpty_records hc (fun d hd => ?_) fun _ => .inl rfl
    rw [own_attempts hstruck, hrest, List.append_nil, List.mem_flatMap] at hd
    obtain ⟨a, -, ha⟩ := hd
    exact ⟨a.found, ha⟩
  exact {
    attempts := ⟨attempts, rest, rfl, hretries.symm, hstruck, hrest⟩
    rivals := hretries ▸ length_le_rivalStrikes hstruck rest
    records := hrecords
    entries := hrecords.entries }

/-- A call that updates, is given a turn for each access that it may need, and overlaps fewer
strikes than it has attempts, is over and succeeded. -/
theorem succeeds_of_turns {t : Task} (ht : t = .store retries c) (hc : c.isUpdate = true)
    (h : Answered o drift x log y) {p : Program t.Result} (hleads : t.program.Leads (log.own i) p)
    (hfew : rivalStrikes i c.service log < retries.toNat)
    (hturns : ∀ access next, p = .ask access next →
      2 * (rivalStrikes i c.service log + 1) ≤ (log.own i).length) :
    ∃ result d, p = .done result ∧ (log.own i).getLast? = some d ∧ t.SucceedsBy result d := by
  subst ht
  cases p with
  | ask access next =>
    exact absurd (hturns access next rfl) (Nat.not_le.mpr (length_own_lt hc h hleads).1)
  | done result =>
    obtain ⟨-, d, hd, hsucceeds⟩ := succeeds_of_rivalStrikes_lt hc h hleads hfew
    exact ⟨result, d, rfl, hd, hsucceeds⟩

end Rivals

/-- An update gives up only because of rivals on the record of its own service, among any calls in
any order of their accesses. Each of its attempts was struck between its read and its write, and it
leaves what the others made of the store, but for an empty record. So an update that overlaps fewer
strikes than it has attempts succeeds, at the first attempt if there are none, and it comes to its
end however slowly the others do. -/
theorem gives_up_only_for_rivals [DecidableEq ι] (o : Surroundings τ) (tasks : ι → Task)
    (x : Scene τ) (i : ι) (c : StoreCall) (retries : UInt32) (hc : c.isUpdate = true) :
    (∀ (moves : List (Move ι τ)) (before span : Log ι) (result : c.Result),
      (Crew.start tasks x).log o moves = before ++ span →
      (c.program retries).Yields (span.own i) result →
        (c.gaveUp result = true →
          Outrun i c retries span (before.records x.record)
            ((Crew.start tasks x).run o moves).scene.record) ∧
        (rivalStrikes i c.service span < retries.toNat →
          (span.own i).length ≤ 2 * (rivalStrikes i c.service span + 1) ∧
            ∃ d, (span.own i).getLast? = some d ∧ c.SucceedsBy result d)) ∧
      (tasks i = .store retries c →
        ∀ (moves : List (Move ι τ)) (before span after : Log ι),
          (Crew.start tasks x).log o moves = before ++ span ++ after →
          before.own i = [] → after.own i = [] →
          rivalStrikes i c.service span < retries.toNat →
          2 * (rivalStrikes i c.service span + 1) ≤ moves.countP (Move.isTurn i) →
            ∃ result d, ((Crew.start tasks x).run o moves).threads i = .done result ∧
              (span.own i).getLast? = some d ∧ (tasks i).SucceedsBy result d) := by
  have hanswered (moves : List (Move ι τ)) :
      Answered o (fun _ _ => True) x ((Crew.start tasks x).log o moves)
        ((Crew.start tasks x).run o moves).scene :=
    Crew.answered (c := .start tasks x) fun _ _ _ => trivial
  refine ⟨fun moves before span result hlog hyields => ?_,
    fun hi moves before span after hlog hbefore hafter hfew hturns => ?_⟩
  · have hall := hanswered moves
    rw [hlog] at hall
    obtain ⟨y, hearlier, hspan⟩ := hall.split
    refine ⟨fun hgaveUp => ?_, succeeds_of_rivalStrikes_lt hc hspan hyields⟩
    rw [← hearlier.record_eq]
    exact outrun_of_gaveUp hc hspan hyields hgaveUp
  · have hall := hanswered moves
    rw [hlog] at hall
    obtain ⟨z, hall, -⟩ := hall.split
    obtain ⟨y, -, hspan⟩ := hall.split
    have hown : ((Crew.start tasks x).log o moves).own i = span.own i := by
      rw [hlog, Log.own_append, Log.own_append, hbefore, hafter, List.nil_append, List.append_nil]
    have hleads := (Crew.start tasks x).leads (o := o) moves i
    rw [hown] at hleads
    refine succeeds_of_turns hi hc hspan hleads hfew fun access next hask => ?_
    rw [← hown, Crew.length_own_of_ask hask]
    exact hturns

/-! An update loses its first attempt to a call that writes the whole record. -/

def contestedService : ServiceId := ⟨"contested", by decide⟩

def contestedUpdate : StoreCall :=
  .updateKey contestedService ⟨.forService ⟨1, "app"⟩ contestedService 1, .installReq, [], false⟩

def contestedTasks (retries : UInt32) : Task.Side → Task :=
  Task.beside (.store retries contestedUpdate) (.store retries (.put contestedService .empty))

def contestedStart (retries : UInt32) : Crew Facilities (contestedTasks retries) :=
  .start _ ⟨.empty, .empty, ⟨.empty, .empty⟩, []⟩

/-- The update reads, the record is written, and the update loses its attempt. -/
def contestedMoves : List (Move Task.Side Facilities) := [.turn .left, .turn .right, .turn .left]

/-- With one attempt the update gives up, and with two it succeeds at the second. -/
theorem contested_update :
    Outrun .left contestedUpdate 1 ((contestedStart 1).log (.inMemory .inserted) contestedMoves)
        (fun _ => none)
        ((contestedStart 1).run (.inMemory .inserted) contestedMoves).scene.record ∧
      ∃ result d, ((contestedStart 2).run (.inMemory .inserted)
          (contestedMoves ++ [.turn .left, .turn .left])).threads .left = .done result ∧
        Task.SucceedsBy (.store 2 contestedUpdate) result d := by
  constructor
  · have hyields : (contestedUpdate.program 1).Yields
        (((contestedStart 1).log (.inMemory .inserted) contestedMoves).own .left)
        (.error (.contended contestedService 1)) :=
      (contestedStart 1).leads contestedMoves .left
    exact ((gives_up_only_for_rivals (.inMemory .inserted) (contestedTasks 1) _ .left
      contestedUpdate 1 rfl).1 contestedMoves [] _ _ rfl hyields).1 rfl
  · obtain ⟨result, d, hdone, -, hsucceeds⟩ :=
      (gives_up_only_for_rivals (.inMemory .inserted) (contestedTasks 2) _ .left
        contestedUpdate 2 rfl).2 rfl (contestedMoves ++ [.turn .left, .turn .left]) []
        ((contestedStart 2).log (.inMemory .inserted)
          (contestedMoves ++ [.turn .left, .turn .left])) [] (List.append_nil _).symm rfl rfl
        (by decide) (by decide)
    exact ⟨result, d, hdone, hsucceeds⟩

end IntentPlane
