import IntentPlane.Proofs.Concurrent.Atomicity
import IntentPlane.Proofs.Concurrent.Decompositions

/-!
# Calls that rewrite an entry

An event, a setting of candidate links and a deletion each put one entry under a key into the record
of a service. It is made of an entry that the call has found before (`Task.makes`), and onto the
record as found just before the write. `Rewrite` says so of a whole trace, and where in the trace
the entry was found: the deletion and the event find it once, so that it may be outdated by the time
of the write, and the setting of links finds it anew for each write that it tries.
-/

namespace IntentPlane

/-- How an intent counts once it is withdrawn: one that is held will be reported. -/
def Framework.withdrawnAs (f : Framework) (k : IntentKey) : IntentStatus :=
  if (f.get? k).isSome then .withdrawReq else .withdrawn

namespace Task

/-- What a call makes of the entry of a key, and what it submits under the key. -/
def makes (f : Framework) (k : IntentKey) : Task → KeyStatus → KeyStatus × List Intent
  | event _ limit intent status, e =>
    let outcome := StatusEvents.outcome limit intent status f.reply e.links
    (outcome.1, submitted k outcome.2)
  | store _ (.updateLinks _ _ links), e => (e.withLinks links, [])
  | decompose _ _ .delete, e => (e.withStatus (f.withdrawnAs k), [])
  | _, e => (e, [])

/-- What a call makes of the entry of another key. -/
def leaves (f : Framework) (l : IntentKey) : Task → KeyStatus → KeyStatus
  | decompose _ _ .delete, e => e.withStatus (f.withdrawnAs l)
  | _, e => e

/-- Whether a call that has made some accesses makes its entry of one that it has found already. A
setting of links never does: it looks again for each write. -/
def Knows (s : ServiceId) (k : IntentKey) : Task → List Deed → Prop
  | event .., ds => ∃ found, ⟨.readRecord s, found⟩ ∈ ds
  | decompose _ _ .delete, ds => ∃ earlier n answer i v later,
    ds = earlier ++ ⟨.withdraw n k, answer⟩ :: ⟨.unindexIntent k, i⟩ ::
      ⟨.ensureRecord s, v⟩ :: later
  | _, _ => False

/-- Whether a call may write, and a deletion may begin at all. -/
def Able : Task → Prop
  | event retries .. | store retries _ => retries ≠ 0
  | decompose d .. =>
    d.retries ≠ 0 ∧ (d.settings.bidirectional = true ∨ d.settings.unidirectional = true)
  | recover .. => True

/-- Whether a call ended without doing what it was to do. -/
def gaveUp : (t : Task) → t.Result → Bool
  | decompose .., .error _ | event .., .error _ => true
  | store _ call, result => call.gaveUp result
  | _, _ => false

/-- The calls that put an entry under a key of a service. -/
inductive Rewriting (s : ServiceId) (k : IntentKey) : Task → Prop where
  | event {retries : UInt32} {limit : UInt64} {intent : Intent} {status : IntentStatus} :
      intent.key = k → Rewriting s k (.event retries limit intent status)
  | links {retries : UInt32} {links : List CandidateLink} :
      Rewriting s k (.store retries (.updateLinks s k links))
  | deletion {d : Decomposition} {previous : Option ServiceRequest} :
      d.service = s → Rewriting s k (.decompose d previous .delete)

end Task

/-- Everything that a call finds out is as it should be: the service owns the key and has an entry
for it, and the framework answers as it does. -/
structure Finds (f : Framework) (s : ServiceId) (k : IntentKey) (ds : List Deed) : Prop where
  owner : ∀ {listed}, ⟨.listRecords, listed⟩ ∈ ds → StatusEvents.owner? k listed = some s
  present : ⟨.readRecord s, none⟩ ∉ ds
  entry : ∀ {absent v}, StatusStore.Absent.finds s v absent ∈ ds → v.value.get? k ≠ none
  reply : ∀ n i answer, ⟨.submit n i, answer⟩ ∈ ds → answer = f.reply i
  /-- The first withdrawal of the key. -/
  withdrawn : ∀ {earlier n answer later}, ds = earlier ++ ⟨.withdraw n k, answer⟩ :: later →
    (∀ n answer, ⟨.withdraw n k, answer⟩ ∉ earlier) →
      Decomposition.WithdrawnAs answer (f.withdrawnAs k)

/-- A whole trace of a call puts one entry under a key. -/
structure Rewrite (f : Framework) (s : ServiceId) (k : IntentKey) (t : Task) (ds : List Deed) where
  earlier : List Deed
  absent : StatusStore.Absent
  found : Versioned ServiceRecord
  /-- The entry that another is made of. -/
  saw : KeyStatus
  later : List Deed
  eq : ds = earlier ++ absent.finds s found ::
    ⟨.replaceRecord s found.version (found.value.upsert (t.makes f k saw).1), true⟩ :: later
  key : (t.makes f k saw).1.key = k
  /-- The entry is in the record that is written onto, or was found before. -/
  sees : (∀ p, ¬ t.Knows s k p) ∧ found.value.get? k = some saw ∨
    ∃ first absent v rest, earlier = first ++ StatusStore.Absent.finds s v absent :: rest ∧
      v.value.get? k = some saw ∧
      ∀ p q, p ++ q = ds → (t.Knows s k p ↔ ∃ m, p = first ++ absent.finds s v :: m)
  spares_earlier : Upserting s (· ≠ k) [] earlier
  spares_later : Upserting s (· ≠ k) [] later
  submits : submitted k (ds.filterMap Deed.exchange?) = (t.makes f k saw).2
  able : t.Able

variable {f : Framework} {s : ServiceId} {k : IntentKey} {ds : List Deed}

theorem StatusStore.Rounds.within {failure : StoreError} {absent : Absent}
    {change : ServiceRecord → ServiceRecord} {result : Except StoreError (Option ServiceRecord)}
    {d : Deed} (h : Rounds failure absent s change left ds result) (hd : d ∈ ds)
    (hlost : ∀ t version r, d ≠ ⟨.replaceRecord t version r, true⟩) :
    d.Within fun _ => False := by
  obtain ⟨access, answer⟩ := d
  rcases h.access_eq _ hd with ⟨-, rfl⟩ | ⟨-, rfl⟩ | ⟨version, r, rfl⟩
  · trivial
  · trivial
  · cases answer with
    | false => trivial
    | true => exact (hlost s version r rfl).elim

theorem submitted_of_not_submit (h : ∀ n i answer, ⟨.submit n i, answer⟩ ∉ ds) :
    submitted k (ds.filterMap Deed.exchange?) = [] := by
  refine List.filterMap_eq_nil_iff.mpr fun exchange hexchange => ?_
  obtain ⟨d, hd, heq⟩ := List.mem_filterMap.mp hexchange
  cases exchange with
  | submit n i answer => exact (h n i answer (Deed.eq_submit heq ▸ hd)).elim
  | resolve | withdraw | heldIntents => rfl

/-! ## Events -/

namespace StatusEvents

variable {retries : UInt32} {limit : UInt64} {intent : Intent} {status : IntentStatus}
  {e : KeyStatus}

/-- An update that finds its record writes it at last. -/
theorem exists_written_of_puts {r? : Option ServiceRecord} (h : Puts retries s e ds (.ok r?))
    (hpresent : ⟨.readRecord s, none⟩ ∉ ds) :
    ∃ earlier version r, ds = earlier ++ [⟨.replaceRecord s version r, true⟩] ∧
      ∀ d ∈ earlier, d.Within fun _ => True := by
  cases r? with
  | none => exact (hpresent h.missing_mem).elim
  | some r =>
    obtain ⟨lost, v, rfl, rfl, hlost⟩ := h.exists_written
    refine ⟨lost ++ [StatusStore.Absent.leave.finds s v], v.version, v.value.upsert e, by simp, ?_⟩
    rw [List.forall_mem_append, List.forall_mem_singleton]
    refine ⟨fun d hd => ?_, trivial⟩
    refine (h.within (List.mem_append_left _ hd) ?_).mono fun _ => False.elim
    rintro t version q rfl
    exact hlost t version q hd

theorem within_of_seeks {links : List CandidateLink} {found : Except String Acceptance}
    (h : Seeks limit intent.rebuildOver? links ds found) :
    ∀ d ∈ ds, d.Within fun _ => True := by
  intro d hd
  obtain ⟨_, _, rfl⟩ := h.submits d hd
  trivial

/-- An event that succeeds and finds its record writes at last, and only then. -/
theorem Goes.exists_written {event : Option ServiceEvent}
    (h : Goes retries limit intent status s e ds (.ok event))
    (hpresent : ⟨.readRecord s, none⟩ ∉ ds) :
    ∃ earlier version r, ds = earlier ++ [⟨.replaceRecord s version r, true⟩] ∧
      ∀ d ∈ earlier, d.Within fun _ => True := by
  generalize hresult : Except.ok event = result at h
  cases h with
  | @recorded ds written hfalls hputs =>
    cases written with
    | error => cases hresult
    | ok => exact exists_written_of_puts hputs hpresent
  | @exhausted tries reason ds written hfalls hseeks hputs =>
    cases written with
    | error => cases hresult
    | ok =>
      obtain ⟨earlier, version, r, rfl, hwithin⟩ :=
        exists_written_of_puts hputs fun hmem => hpresent (List.mem_append_right _ hmem)
      refine ⟨tries ++ earlier, version, r, by simp, ?_⟩
      exact List.forall_mem_append.mpr ⟨within_of_seeks hseeks, hwithin⟩
  | @resubmitted tries a ds written hfalls hseeks hputs =>
    obtain ⟨earlier, version, r, rfl, hwithin⟩ :=
      exists_written_of_puts hputs fun hmem => hpresent (by simp [hmem])
    refine ⟨tries ++ ⟨.indexIntent intent.key a.intent, ()⟩ :: earlier, version, r, by simp, ?_⟩
    rw [List.forall_mem_append, List.forall_mem_cons]
    exact ⟨within_of_seeks hseeks, trivial, hwithin⟩
  | stranded hfalls hseeks hputs => exact (hpresent (by simp [hputs.missing_mem])).elim
  | contended => cases hresult

/-- The record is read first right after the listing. -/
theorem knows_iff {listed : List (ServiceId × ServiceRecord)} {v : Versioned ServiceRecord}
    {p q : List Deed} (h : p ++ q = ⟨.listRecords, listed⟩ :: ⟨.readRecord s, some v⟩ :: ds) :
    (Task.event retries limit intent status).Knows s k p ↔
      ∃ m, p = [⟨.listRecords, listed⟩] ++ StatusStore.Absent.leave.finds s v :: m := by
  cases p with
  | nil => simp [Task.Knows]
  | cons d p =>
    obtain ⟨rfl, hnext⟩ := List.cons.inj h
    cases p with
    | nil => simp [Task.Knows]
    | cons d p =>
      obtain ⟨rfl, -⟩ := List.cons.inj hnext
      simp [Task.Knows, StatusStore.Absent.finds]

/-- An event makes its entry of the one in the record as it was read first. -/
theorem Trace.rewrite {event : Option ServiceEvent}
    (h : Trace retries limit intent status ds (.ok event)) (hfinds : Finds f s intent.key ds) :
    Nonempty (Rewrite f s intent.key (.event retries limit intent status) ds) := by
  generalize hresult : Except.ok event = result at h
  cases h with
  | unowned howner =>
    have hfound := hfinds.owner (.head _)
    rw [howner] at hfound
    cases hfound
  | gone howner =>
    have hfound := hfinds.owner (.head _)
    rw [howner] at hfound
    cases hfound
    exact (hfinds.present (by simp)).elim
  | @found listed t ds result v howner hgoes =>
    have hfound := hfinds.owner (.head _)
    rw [howner] at hfound
    cases hfound
    subst hresult
    have hread : StatusStore.Absent.leave.finds s v ∈
        ⟨.listRecords, listed⟩ :: ⟨.readRecord s, some v⟩ :: ds := .tail _ (.head _)
    obtain ⟨e, he⟩ := Option.ne_none_iff_exists'.mp (hfinds.entry hread)
    rw [show current intent status v.value = e by rw [current, he, Option.getD_some]] at hgoes
    have hpresent : ⟨.readRecord s, none⟩ ∉ ds := fun hmem => hfinds.present (by simp [hmem])
    obtain ⟨tries, version, r, rfl, hwithin⟩ := hgoes.exists_written hpresent
    obtain ⟨-, hretries, hcalls, first, u, rfl, rfl, rfl⟩ := hgoes.of_written
      (ServiceRecord.key_of_get? he)
      (fun n i answer hmem => hfinds.reply n i answer (by simp [hmem]))
      fun hmem => hpresent (List.mem_append_left _ hmem)
    exact ⟨{
      earlier := ⟨.listRecords, listed⟩ :: ⟨.readRecord s, some v⟩ :: first
      absent := .leave
      found := u
      saw := e
      later := []
      eq := by simp [StatusStore.Absent.finds, Task.makes]
      key := key_outcome e.links
      sees := .inr ⟨[⟨.listRecords, listed⟩], .leave, v, first, rfl, he, fun _ _ => knows_iff⟩
      spares_earlier := .cons trivial (.cons trivial
        (.of_within fun d hd => hwithin d (List.mem_append_left _ hd)))
      spares_later := .nil
      submits := by
        simp [Task.makes, ← hcalls, List.filterMap_cons, Deed.exchange?]
      able := hretries }⟩

theorem Goes.upserting {result : Except StoreError (Option ServiceEvent)}
    (h : Goes retries limit intent status s e ds result) (he : e.key = intent.key) :
    Upserting s (· = intent.key) [] ds := by
  have hputs {e' : KeyStatus} {ds : List Deed} {written : Except StoreError (Option ServiceRecord)}
      (h : Puts retries s e' ds written) (he' : e'.key = intent.key) :
      Upserting s (· = intent.key) [] ds := .of_rounds (fun r => ⟨e', rfl, he'⟩) h
  have hseeks {ds : List Deed} {found : Except String Acceptance} {a : Intent}
      (h : Seeks limit intent.rebuildOver? e.links ds found) :
      Upserting s (· = intent.key) [] (ds ++ [⟨.indexIntent intent.key a, ()⟩]) :=
    .of_within (List.forall_mem_append.mpr
      ⟨within_of_seeks h, List.forall_mem_singleton.mpr trivial⟩)
  cases h with
  | recorded _ h => exact hputs h he
  | exhausted _ h h' => exact .append_self (.of_within (within_of_seeks h)) (hputs h' he)
  | resubmitted _ h h' | contended _ h h' =>
    rw [List.append_cons]
    exact (hseeks h).append_self (hputs h' he)
  | stranded _ h h' h'' =>
    rw [List.append_cons]
    exact ((hseeks h).append_self (hputs h' he)).append_self (hputs h'' he)

/-- As far as it has gone, an event puts entries into the record of the service that it found. -/
theorem Trace.upserting {rest : List Deed} {result : Except StoreError (Option ServiceEvent)}
    (h : Trace retries limit intent status (ds ++ rest) result)
    (howner : ∀ {listed}, ⟨.listRecords, listed⟩ ∈ ds → owner? intent.key listed = some s) :
    Upserting s (· = intent.key) [] ds := by
  cases ds with
  | nil => exact .nil
  | cons d ds =>
    suffices hall : Upserting s (· = intent.key) [] (d :: ds ++ rest) from hall.of_append.1
    generalize hds : d :: ds ++ rest = all at h
    cases h with
    | unowned => exact .cons trivial .nil
    | gone => exact .cons trivial (.cons trivial .nil)
    | @found listed t ds' _ v hfound hgoes =>
      obtain ⟨rfl, -⟩ := List.cons.inj hds
      rw [howner (.head _)] at hfound
      cases hfound
      exact .cons trivial (.cons trivial (hgoes.upserting (key_current v.value)))

end StatusEvents

/-! ## Settings of links -/

/-- A setting of links makes its entry of the one in the record that it writes onto. -/
theorem StatusStore.rewrite_of_updateLinks {retries : UInt32} {links : List CandidateLink}
    {r : ServiceRecord} (h : (updateLinks retries s k links).Yields ds (.ok r))
    (hentry : ∀ {absent v}, Absent.finds s v absent ∈ ds → v.value.get? k ≠ none) :
    Nonempty (Rewrite f s k (.store retries (.updateLinks s k links)) ds) := by
  obtain ⟨written, hwritten, hr⟩ := Program.yields_map.mp h
  have hrounds := rounds_of_attempt hwritten
  rcases written with failure | _ | q
  · cases hr
  · exact absurd rfl hrounds.ne_none
  · obtain ⟨lost, v, rfl, rfl, hlost⟩ := hrounds.exists_written
    have hfound : Absent.create.finds s v ∈ lost ++ [Absent.create.finds s v,
        ⟨.replaceRecord s v.version (v.value.setLinks k links), true⟩] := by simp
    obtain ⟨e, he⟩ := Option.ne_none_iff_exists'.mp (hentry hfound)
    have hset : v.value.setLinks k links = v.value.upsert (e.withLinks links) := by
      rw [ServiceRecord.setLinks, he, Option.getD_some]
    rw [hset] at hrounds ⊢
    have hlater : lost ++ [Absent.create.finds s v, ⟨.replaceRecord s v.version
        (v.value.upsert (e.withLinks links)), true⟩] = (lost ++ [Absent.create.finds s v]) ++
          ⟨.replaceRecord s v.version (v.value.upsert (e.withLinks links)), true⟩ :: [] := by simp
    obtain ⟨-, hleft, -⟩ := (hlater ▸ hrounds).written_inv
    exact ⟨{
      earlier := lost
      absent := .create
      found := v
      saw := e
      later := []
      eq := rfl
      key := (ServiceRecord.key_of_get? he :)
      sees := .inl ⟨nofun, he⟩
      spares_earlier := by
        refine .of_within fun d hd => ?_
        refine (hrounds.within (List.mem_append_left _ hd) ?_).mono fun _ => False.elim
        rintro t version q rfl
        exact hlost t version q hd
      spares_later := .nil
      submits := submitted_of_not_submit hrounds.not_submit
      able := by
        rintro rfl
        exact hleft rfl }⟩

/-! ## Deletions -/

namespace Decomposition

variable {d : Decomposition} {previous : Option ServiceRequest}

/-- Of keys that are withdrawn one after another, one is left alone but in its turn. -/
theorem WithdrawsAll.split {keys : List IntentKey} (h : d.WithdrawsAll keys ds)
    (hnodup : keys.Nodup) (hk : k ∈ keys) :
    ∃ earlier own later, ds = earlier ++ (own ++ later) ∧ d.Withdraws k own ∧
      Confined d.service (· ≠ k) earlier ∧ Confined d.service (· ≠ k) later := by
  induction h with
  | nil => cases hk
  | @cons l ds keys ds' hl hrest ih =>
    obtain ⟨hnew, hnodup⟩ := List.nodup_cons.mp hnodup
    rcases List.mem_cons.mp hk with rfl | hk
    · refine ⟨[], ds, ds', rfl, hl, .nil, hrest.confined.mono ?_⟩
      rintro l hmem rfl
      exact hnew hmem
    · obtain ⟨earlier, own, later, rfl, hown, hearlier, hlater⟩ := ih hnodup hk
      refine ⟨ds ++ earlier, own, later, by simp, hown, ?_, hlater⟩
      refine (hl.confined.mono ?_).append hearlier
      exact fun _ heq heq' => hnew (heq.symm.trans heq' ▸ hk)

theorem WithdrawnAs.unique {answer : Except FrameworkError Unit} {status status' : IntentStatus}
    (h : WithdrawnAs answer status) (h' : WithdrawnAs answer status') : status = status' := by
  cases h <;> cases h' <;> rfl

theorem mem_owned {r : ServiceRecord} {others : List IntentKey} :
    k ∈ owned r others ↔ k ∈ r.keys ∨ k ∈ others := by
  simp [owned]

theorem Records.exists_written {e : KeyStatus} (h : d.Records e ds) :
    ∃ lost v, ds = lost ++ [StatusStore.Absent.create.finds d.service v,
        ⟨.replaceRecord d.service v.version (v.value.upsert e), true⟩] ∧
      (∀ d ∈ lost, d.Within fun _ => False) ∧ d.retries ≠ 0 := by
  obtain ⟨r, hrounds⟩ := h
  obtain ⟨lost, v, rfl, -, hlost⟩ := hrounds.exists_written
  refine ⟨lost, v, rfl, fun e he => ?_, ?_⟩
  · refine hrounds.within (List.mem_append_left _ he) ?_
    rintro t version q rfl
    exact hlost t version q he
  · rw [List.append_cons] at hrounds
    obtain ⟨-, hleft, -⟩ := hrounds.written_inv
    intro hzero
    rw [hzero] at hleft
    exact hleft rfl

/-- The record is looked at for a key right after the key is withdrawn, which is but once. -/
theorem knows_iff {earlier later p q : List Deed} {n : UInt64} {i : Option Intent}
    {answer : Except FrameworkError Unit} {v : Versioned ServiceRecord}
    (h : p ++ q = earlier ++ ⟨.withdraw n k, answer⟩ :: ⟨.unindexIntent k, i⟩ ::
      ⟨.ensureRecord s, v⟩ :: later)
    (hearlier : ∀ n answer, ⟨.withdraw n k, answer⟩ ∉ earlier)
    (hlater : ∀ n answer, ⟨.withdraw n k, answer⟩ ∉ later) :
    (Task.decompose d previous .delete).Knows s k p ↔
      ∃ m, p = earlier ++ [⟨.withdraw n k, answer⟩, ⟨.unindexIntent k, i⟩] ++
        StatusStore.Absent.create.finds s v :: m := by
  constructor
  · rintro ⟨earlier', n', answer', i', v', m, rfl⟩
    rw [List.append_assoc] at h
    obtain ⟨rfl, hanswer, hnext⟩ := (List.append_cons_inj_of_notMem (hearlier n' answer')
      (by simp [hlater])).mp h.symm
    obtain ⟨hi, hnext⟩ := List.cons.inj hnext
    obtain ⟨hv, -⟩ := List.cons.inj hnext
    exact ⟨m, by simp [hanswer, hi, hv, StatusStore.Absent.finds]⟩
  · rintro ⟨m, rfl⟩
    exact ⟨earlier, n, answer, i, v, m, by simp [StatusStore.Absent.finds]⟩

/-- The withdrawal of a key that has an entry, among what is done about other keys. -/
theorem rewrite_of_recorded {earlier puts later : List Deed} {n : UInt64} {i : Option Intent}
    {answer : Except FrameworkError Unit} {v : Versioned ServiceRecord} {e : KeyStatus}
    (hds : ds = earlier ++ (⟨.withdraw n k, answer⟩ :: ⟨.unindexIntent k, i⟩ ::
      ⟨.ensureRecord d.service, v⟩ :: puts ++ later))
    (he : v.value.get? k = some e) (hputs : d.Records (e.withStatus (f.withdrawnAs k)) puts)
    (hearlier : Confined d.service (· ≠ k) earlier) (hlater : Confined d.service (· ≠ k) later)
    (hnone : ∀ n i answer, ⟨.submit n i, answer⟩ ∉ ds)
    (hdir : d.settings.bidirectional = true ∨ d.settings.unidirectional = true) :
    Nonempty (Rewrite f d.service k (.decompose d previous .delete) ds) := by
  obtain ⟨lost, w, rfl, hlost, hretries⟩ := hputs.exists_written
  have hself : ¬ (k ≠ k) := not_not_intro rfl
  have honce (n : UInt64) (answer : Except FrameworkError Unit) : ⟨.withdraw n k, answer⟩ ∉
      (lost ++ [StatusStore.Absent.create.finds d.service w, ⟨.replaceRecord d.service w.version
        (w.value.upsert (e.withStatus (f.withdrawnAs k))), true⟩] ++ later : List Deed) := by
    have hlost : ⟨.withdraw n k, answer⟩ ∉ lost := fun hmem => (hlost _ hmem).elim
    simp [StatusStore.Absent.finds, hlost, hlater.not_withdraw hself]
  exact ⟨{
    earlier := earlier ++ (⟨.withdraw n k, answer⟩ :: ⟨.unindexIntent k, i⟩ ::
      ⟨.ensureRecord d.service, v⟩ :: lost)
    absent := .create
    found := w
    saw := e
    later := later
    eq := by simp [hds, Task.makes]
    key := (ServiceRecord.key_of_get? he :)
    sees := .inr ⟨earlier ++ [⟨.withdraw n k, answer⟩, ⟨.unindexIntent k, i⟩], .create, v, lost,
      by simp [StatusStore.Absent.finds], he, fun p q hpq =>
        knows_iff (hpq.trans hds) (hearlier.not_withdraw hself) honce⟩
    spares_earlier := by
      refine hearlier.upserting.append_self (.cons trivial (.cons trivial (.cons trivial ?_)))
      exact .of_within fun d hd => (hlost d hd).mono fun _ => False.elim
    spares_later := hlater.upserting
    submits := submitted_of_not_submit hnone
    able := ⟨hretries, hdir⟩ }⟩

/-- A deletion puts an entry under a key, unless it finds none. -/
theorem Trace.rewrite_or_spares (h : d.Trace previous .delete ds)
    (hdir : d.settings.bidirectional = true ∨ d.settings.unidirectional = true)
    (hwithdrawn : ∀ {earlier n answer later}, ds = earlier ++ ⟨.withdraw n k, answer⟩ :: later →
      (∀ n answer, ⟨.withdraw n k, answer⟩ ∉ earlier) → WithdrawnAs answer (f.withdrawnAs k)) :
    Nonempty (Rewrite f d.service k (.decompose d previous .delete) ds) ∨
      Upserting d.service (· ≠ k) [] ds ∧
        ∃ v, ⟨.ensureRecord d.service, v⟩ ∈ ds ∧ v.value.get? k = none := by
  cases h with
  | @delete ds v hall =>
    have hfirst {ds : List Deed} (h : Confined d.service (· ≠ k) ds) :
        Confined d.service (· ≠ k) (⟨.ensureRecord d.service, v⟩ :: ds) := .cons trivial h
    by_cases hk : k ∈ owned v.value (d.plannedKeys d.request ++ d.previousKeys previous)
    · obtain ⟨earlier, own, later, rfl, hown, hearlier, hlater⟩ := hall.split (nodup_eraseDups _) hk
      have hnot := (hfirst hearlier).not_withdraw (not_not_intro (Eq.refl k))
      cases hown with
      | @failed e hne =>
        have hstatus := @hwithdrawn (⟨.ensureRecord d.service, v⟩ :: earlier) _ _ _ rfl hnot
        generalize f.withdrawnAs k = status at hstatus
        cases hstatus with
        | atOnce => exact (hne _ rfl).elim
      | @unrecorded answer status i u hstatus hu =>
        refine .inr ⟨?_, u, by simp, hu⟩
        exact (hfirst hearlier).upserting.append_self
          (.cons trivial (.cons trivial (.cons trivial hlater.upserting)))
      | @recorded answer status e puts i u hstatus he hputs =>
        obtain rfl := hstatus.unique
          (@hwithdrawn (⟨.ensureRecord d.service, v⟩ :: earlier) _ _ _ rfl hnot)
        refine .inl (rewrite_of_recorded rfl he hputs (hfirst hearlier) hlater ?_ hdir)
        intro n j a hmem
        simp only [List.cons_append, List.mem_cons, reduceCtorEq, Deed.mk.injEq, false_and,
          false_or] at hmem
        exact hall.not_submit n j a hmem
    · refine .inr ⟨(hfirst (hall.confined.mono ?_)).upserting, v, .head _, ?_⟩
      · rintro l hl rfl
        exact hk hl
      · by_contra hfound
        obtain ⟨e, he⟩ := Option.ne_none_iff_exists'.mp hfound
        have hkey := ServiceRecord.contains_iff.mp (ServiceRecord.contains_of_get? he)
        exact hk (mem_owned.mpr (.inl hkey))

theorem direction_of_yields {validation : Validation} {report : Report}
    (h : (d.run previous validation).run.Yields ds (.ok report)) :
    d.settings.bidirectional = true ∨ d.settings.unidirectional = true := by
  by_contra hdir
  rw [run, if_pos (by simpa using hdir)] at h
  obtain ⟨-, hresult⟩ := Program.yields_pure.mp h
  cases hresult

end Decomposition

/-! ## All of them -/

namespace Task

theorem not_knows_nil (s : ServiceId) (k : IntentKey) (t : Task) : ¬ t.Knows s k [] := by
  rcases t with ⟨d, previous, validation⟩ | _ | _ | _
  · cases validation <;> simp [Knows]
  all_goals simp [Knows]

variable {t : Task} {result : t.Result}

/-- A call that does not give up puts its entry under the key. -/
theorem Rewriting.rewrite (ht : t.Rewriting s k) (h : t.program.Yields ds result)
    (hdone : t.gaveUp result = false) (hfinds : Finds f s k ds) :
    Nonempty (Rewrite f s k t ds) := by
  cases ht with
  | event hk =>
    subst hk
    match result, hdone with
    | .ok answer, _ => exact (StatusEvents.trace_of_handle h).rewrite hfinds
  | links =>
    match result, hdone with
    | .ok r, _ => exact StatusStore.rewrite_of_updateLinks h hfinds.entry
  | deletion hs =>
    subst hs
    match result, hdone with
    | .ok report, _ =>
      have htrace := Decomposition.trace_of_run h
      refine (htrace.rewrite_or_spares (Decomposition.direction_of_yields h)
        hfinds.withdrawn).resolve_right ?_
      rintro ⟨-, v, hv, hnone⟩
      have hfound : StatusStore.Absent.create.finds _ v ∈ ds := hv
      exact hfinds.entry hfound hnone

/-- The keys that a call puts entries under. -/
def Touches (k : IntentKey) : Task → IntentKey → Prop
  | decompose .., _ => True
  | _, l => l = k

/-- A call that does not give up has put, as far as it has gone, entries into one record. -/
theorem Rewriting.upserting {rest : List Deed} (ht : t.Rewriting s k)
    (h : t.program.Yields (ds ++ rest) result) (hdone : t.gaveUp result = false)
    (howner : ∀ {listed}, ⟨.listRecords, listed⟩ ∈ ds →
      StatusEvents.owner? k listed = some s) : Upserting s (t.Touches k) [] ds := by
  cases ht with
  | event hk =>
    subst hk
    exact (StatusEvents.trace_of_handle h).upserting howner
  | links =>
    obtain ⟨written, hwritten, -⟩ := Program.yields_map.mp h
    have hrounds := StatusStore.rounds_of_attempt hwritten
    have hall : Upserting s (· = k) [] (ds ++ rest) := by
      refine .of_rounds (fun r => ⟨_, rfl, ?_⟩) hrounds
      cases hfound : r.get? k with
      | none => rfl
      | some e => exact (ServiceRecord.key_of_get? hfound :)
    exact hall.of_append.1
  | @deletion d previous hs =>
    subst hs
    match result, hdone with
    | .ok report, _ =>
      have htrace := Decomposition.trace_of_run h
      generalize hall : ds ++ rest = all at htrace
      cases htrace with
      | @delete ds' v hdelete =>
        have hconfined : Confined d.service (fun _ => True)
            (⟨.ensureRecord d.service, v⟩ :: ds') :=
          .cons trivial (hdelete.confined.mono fun _ _ => trivial)
        exact (hall ▸ hconfined.upserting).of_append.1

/-- Another key gets an entry made of its own, or none is put there: then there was none, or the
call does nothing to other entries. -/
theorem Rewriting.rewrite_or_spares {l : IntentKey} (ht : t.Rewriting s k)
    (h : t.program.Yields ds result) (hdone : t.gaveUp result = false) (hl : l ≠ k)
    (hcalls : Upserting s (t.Touches k) [] ds)
    (hwithdrawn : ∀ {earlier n answer later}, ds = earlier ++ ⟨.withdraw n l, answer⟩ :: later →
      (∀ n answer, ⟨.withdraw n l, answer⟩ ∉ earlier) →
        Decomposition.WithdrawnAs answer (f.withdrawnAs l)) :
    Nonempty (Rewrite f s l t ds) ∧ (∀ e, (t.makes f l e).1 = t.leaves f l e) ∨
      Upserting s (· ≠ l) [] ds ∧
        ((∃ v, ⟨.ensureRecord s, v⟩ ∈ ds ∧ v.value.get? l = none) ∨ ∀ e, t.leaves f l e = e) := by
  cases ht with
  | event | links =>
    refine .inr ⟨hcalls.mono ?_, .inr fun _ => rfl⟩
    rintro _ rfl
    exact Ne.symm hl
  | deletion hs =>
    subst hs
    match result, hdone with
    | .ok report, _ =>
      rcases (Decomposition.trace_of_run h).rewrite_or_spares
        (Decomposition.direction_of_yields h) hwithdrawn with hrewrite | ⟨hspares, hnone⟩
      · exact .inl ⟨hrewrite, fun _ => rfl⟩
      · exact .inr ⟨hspares, .inl hnone⟩

/-- Only a deletion withdraws. -/
theorem Rewriting.deletion_of_withdraw {n : UInt64} {l : IntentKey}
    {answer : Except FrameworkError Unit} (ht : t.Rewriting s k) (h : t.program.Yields ds result)
    (hmem : ⟨.withdraw n l, answer⟩ ∈ ds) : ∃ d previous, t = .decompose d previous .delete := by
  cases ht with
  | event => cases (StatusEvents.trace_of_handle h).does _ hmem
  | links =>
    obtain ⟨written, hwritten, -⟩ := Program.yields_map.mp h
    rcases (StatusStore.rounds_of_attempt hwritten).access_eq _ hmem with
      ⟨-, haccess⟩ | ⟨-, haccess⟩ | ⟨_, _, haccess⟩ <;> cases haccess
  | deletion => exact ⟨_, _, rfl⟩

/-- Alone, a call that may write does not give up. -/
theorem Rewriting.succeeds {τ : Type} (ht : t.Rewriting s k) (h : t.Able) (o : Surroundings τ)
    (x : Scene τ) : t.gaveUp (t.program.run o.answer x).1 = false := by
  cases ht with
  | @event retries limit intent status =>
    obtain ⟨answer, y, hrun, -⟩ := StatusEvents.run_handle o limit intent status x h
    have hresult : ((Task.event retries limit intent status).program.run o.answer x).1 =
        Except.ok answer := congrArg Prod.fst hrun
    rw [hresult]
    rfl
  | @links retries links =>
    have hresult : ((Task.store retries (.updateLinks s k links)).program.run o.answer x).1 =
        Except.ok (((x.record s).getD .empty).setLinks k links) := by
      change ((StatusStore.updateLinks retries s k links).run o.answer x).1 = _
      rw [StatusStore.updateLinks, Program.run_bind, StatusStore.run_modify_create o x h]
      rfl
    rw [hresult]
    rfl
  | @deletion d previous =>
    obtain ⟨report, z, hrun⟩ := Decomposition.eval_run_ok (o := o) (x := x) h.2 h.1 previous .delete
    have hresult : ((Task.decompose d previous .delete).program.run o.answer x).1 =
        Except.ok report := congrArg Prod.fst hrun
    rw [hresult]
    rfl

/-- What is submitted is under the key. -/
theorem Rewriting.key_of_submit {n : UInt64} {i : Intent}
    {answer : Except FrameworkError Submission} (ht : t.Rewriting s k)
    (h : t.program.Yields ds result) (hdone : t.gaveUp result = false)
    (hmem : ⟨.submit n i, answer⟩ ∈ ds) : i.key = k := by
  cases ht with
  | event hk =>
    cases (StatusEvents.trace_of_handle h).does _ hmem with
    | submit hi => exact hi.trans hk
  | links =>
    obtain ⟨written, hwritten, -⟩ := Program.yields_map.mp h
    exact ((StatusStore.rounds_of_attempt hwritten).not_submit n i answer hmem).elim
  | deletion =>
    match result, hdone with
    | .ok report, _ =>
      cases Decomposition.trace_of_run h with
      | delete hall =>
        rcases List.mem_cons.mp hmem with heq | hmem
        · cases heq
        · exact (hall.not_submit n i answer hmem).elim

end Task

end IntentPlane
