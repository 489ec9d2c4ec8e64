import IntentPlane.Proofs.Concurrent.Traces
import IntentPlane.Proofs.Record
import IntentPlane.Status.Store
import IntentPlane.Submitting

/-!
# What calls do, access by access

The traces of updates and of searches over candidate links, which all larger calls are made of. Each
is told by an inductive type with one case for each way that the program can go, whatever is done by
others between its accesses. `Confined` says of a whole trace what it leaves alone.
-/

namespace IntentPlane

/-! ## Updates -/

namespace StatusStore

/-- The access by which an update finds the entry that it changes. -/
def Absent.finds (s : ServiceId) (v : Versioned ServiceRecord) : Absent → Deed
  | .create => ⟨.ensureRecord s, v⟩
  | .leave => ⟨.readRecord s, some v⟩

/-- The attempts of an update, as many as are left: lost races, and then one that is won or finds
nothing to change. -/
inductive Rounds (failure : StoreError) (absent : Absent) (s : ServiceId)
    (change : ServiceRecord → ServiceRecord) :
    Nat → List Deed → Except StoreError (Option ServiceRecord) → Prop where
  | gaveUp : Rounds failure absent s change 0 [] (.error failure)
  | missing : absent = .leave →
      Rounds failure absent s change (left + 1) [⟨.readRecord s, none⟩] (.ok none)
  | lost {v : Versioned ServiceRecord} : Rounds failure absent s change left ds result →
      Rounds failure absent s change (left + 1)
        (absent.finds s v :: ⟨.replaceRecord s v.version (change v.value), false⟩ :: ds) result
  | written (v : Versioned ServiceRecord) : Rounds failure absent s change (left + 1)
      [absent.finds s v, ⟨.replaceRecord s v.version (change v.value), true⟩]
      (.ok (some (change v.value)))

variable {failure : StoreError} {absent : Absent} {s : ServiceId}
  {change : ServiceRecord → ServiceRecord} {result : Except StoreError (Option ServiceRecord)}

/-- An update reads the record and writes it back. -/
theorem Rounds.access_eq {ds : List Deed} (h : Rounds failure absent s change left ds result) :
    ∀ d ∈ ds, (absent = .create ∧ d.access = .ensureRecord s) ∨
      (absent = .leave ∧ d.access = .readRecord s) ∨
        ∃ version r, d.access = .replaceRecord s version r := by
  have hfinds (v : Versioned ServiceRecord) :
      (absent = .create ∧ (absent.finds s v).access = .ensureRecord s) ∨
        (absent = .leave ∧ (absent.finds s v).access = .readRecord s) := by
    cases absent with
    | create => exact .inl ⟨rfl, rfl⟩
    | leave => exact .inr ⟨rfl, rfl⟩
  induction h with
  | gaveUp => exact List.forall_mem_nil _
  | missing habsent => exact List.forall_mem_singleton.mpr (.inr (.inl ⟨habsent, rfl⟩))
  | lost _ ih =>
    rw [List.forall_mem_cons, List.forall_mem_cons]
    exact ⟨or_assoc.mp (.inl (hfinds _)), .inr (.inr ⟨_, _, rfl⟩), ih⟩
  | written v =>
    rw [List.forall_mem_cons, List.forall_mem_singleton]
    exact ⟨or_assoc.mp (.inl (hfinds _)), .inr (.inr ⟨_, _, rfl⟩)⟩

theorem Rounds.not_submit {ds : List Deed} (h : Rounds failure absent s change left ds result)
    (n : UInt64) (i : Intent) (answer : Except FrameworkError Submission) :
    ⟨.submit n i, answer⟩ ∉ ds := by
  intro hmem
  rcases h.access_eq _ hmem with ⟨-, haccess⟩ | ⟨-, haccess⟩ | ⟨_, _, haccess⟩ <;> cases haccess

/-- An update that succeeds lost some races and then won one. -/
theorem Rounds.exists_written {ds : List Deed} {r : ServiceRecord}
    (h : Rounds failure absent s change left ds (.ok (some r))) :
    ∃ lost v, ds = lost ++ [absent.finds s v,
        ⟨.replaceRecord s v.version (change v.value), true⟩] ∧ r = change v.value ∧
      ∀ t version q, ⟨.replaceRecord t version q, true⟩ ∉ lost := by
  generalize hr : Except.ok (some r) = result at h
  induction h with
  | gaveUp | missing => cases hr
  | @lost _ _ _ v _ ih =>
    obtain ⟨lost, u, rfl, hu, hlost⟩ := ih hr
    refine ⟨absent.finds s v :: ⟨.replaceRecord s v.version (change v.value), false⟩ :: lost, u,
      rfl, hu, fun t version q hmem => ?_⟩
    rcases List.mem_cons.mp hmem with heq | hmem
    · cases absent <;> cases heq
    · rcases List.mem_cons.mp hmem with heq | hmem
      · cases heq
      · exact hlost t version q hmem
  | written v =>
    cases hr
    exact ⟨[], v, rfl, rfl, nofun⟩

/-- What an update writes is the change of what it found just before, and with that it ends. -/
theorem Rounds.written_inv {earlier later : List Deed} {t : ServiceId} {version : Nat}
    {r : ServiceRecord} {left : Nat}
    (h : Rounds failure absent s change left
      (earlier ++ ⟨.replaceRecord t version r, true⟩ :: later) result) :
    t = s ∧ left ≠ 0 ∧ later = [] ∧ result = .ok (some r) ∧
      ∃ lost v, earlier = lost ++ [absent.finds s v] ∧ version = v.version ∧
        r = change v.value := by
  have hfinds (v : Versioned ServiceRecord) :
      (⟨.replaceRecord t version r, true⟩ : Deed) ≠ absent.finds s v := by
    intro heq
    cases absent <;> cases heq
  generalize hall : earlier ++ ⟨.replaceRecord t version r, true⟩ :: later = ds at h
  induction h generalizing earlier with
  | gaveUp => simp at hall
  | missing => rcases List.append_eq_singleton_iff.mp hall with ⟨-, heq⟩ | ⟨-, heq⟩ <;> cases heq
  | @lost _ _ _ v _ ih =>
    match earlier, hall with
    | [], hall => exact absurd (List.cons.inj hall).1 (hfinds v)
    | [e], hall =>
      obtain ⟨-, hnext⟩ := List.cons.inj hall
      cases (List.cons.inj hnext).1
    | e :: f :: earlier, hall =>
      obtain ⟨-, hnext⟩ := List.cons.inj hall
      obtain ⟨-, hrest⟩ := List.cons.inj hnext
      obtain ⟨ht, -, hlater, hresult, lost, u, rfl, hu⟩ := ih hrest
      exact ⟨ht, nofun, hlater, hresult, e :: f :: lost, u, rfl, hu⟩
  | written v =>
    match earlier, hall with
    | [], hall => exact absurd (List.cons.inj hall).1 (hfinds v)
    | [e], hall =>
      obtain ⟨rfl, hnext⟩ := List.cons.inj hall
      obtain ⟨hwrite, rfl⟩ := List.cons.inj hnext
      cases hwrite
      exact ⟨rfl, nofun, rfl, rfl, [], v, rfl, rfl, rfl⟩
    | e :: f :: earlier, hall => simp at hall

/-- An update that changes nothing found nothing to change. -/
theorem Rounds.missing_mem {ds : List Deed}
    (h : Rounds failure absent s change left ds (.ok none)) :
    ⟨.readRecord s, none⟩ ∈ ds := by
  generalize hr : Except.ok none = result at h
  induction h with
  | gaveUp | written => cases hr
  | missing => exact .head _
  | lost _ ih => exact .tail _ (.tail _ (ih hr))

/-- An update that creates records finds one. -/
theorem Rounds.ne_none {ds : List Deed} (h : Rounds failure .create s change left ds result) :
    result ≠ .ok none := by
  induction h with
  | gaveUp | written => exact nofun
  | missing habsent => cases habsent
  | lost _ ih => exact ih

theorem rounds_of_attempt {left : Nat} {ds : List Deed}
    (h : (attempt failure absent s change left).Yields ds result) :
    Rounds failure absent s change left ds result := by
  induction left generalizing ds with
  | zero =>
    obtain ⟨rfl, rfl⟩ := Program.yields_pure.mp h
    exact .gaveUp
  | succ left ih =>
    -- After its read, an attempt goes on alike whether it creates records or not.
    have hwrite {v : Versioned ServiceRecord} {rest : List Deed}
        (hrest : (do
          if ← Program.replaceRecord s v.version (change v.value) then
            return .ok (some (change v.value))
          else attempt failure absent s change left : Program _).Yields rest result) :
        Rounds failure absent s change (left + 1) (absent.finds s v :: rest) result := by
      obtain ⟨written, rest, rfl, hend⟩ := Program.yields_access_bind.mp hrest
      cases written with
      | false => exact .lost (ih hend)
      | true =>
        obtain ⟨rfl, rfl⟩ := Program.yields_pure.mp hend
        exact .written v
    rw [attempt] at h
    cases absent with
    | create =>
      simp only [read, Program.ensureRecord, map_eq_pure_bind, bind_assoc, Program.pure_bind] at h
      obtain ⟨v, rest, rfl, hrest⟩ := Program.yields_access_bind.mp h
      exact hwrite hrest
    | leave =>
      obtain ⟨v | v, rest, rfl, hrest⟩ := Program.yields_access_bind.mp h
      · obtain ⟨rfl, rfl⟩ := Program.yields_pure.mp hrest
        exact .missing rfl
      · exact hwrite hrest

end StatusStore

/-! ## Searches -/

/-- A search over candidate links: what is submitted, and the result. -/
inductive Seeks (limit : UInt64) (build? : CandidateLink → Option Intent) :
    List CandidateLink → List Deed → Except String Acceptance → Prop where
  | exhausted (reason : String) : Seeks limit build? [] [] (.error reason)
  | skip : build? link = none → Seeks limit build? links ds result →
      Seeks limit build? (link :: links) ds result
  | refuse {e : FrameworkError} : build? link = some i → Seeks limit build? links ds result →
      Seeks limit build? (link :: links) (⟨.submit limit i, .error e⟩ :: ds) result
  | accept {a : Submission} : build? link = some i →
      Seeks limit build? (link :: links) [⟨.submit limit i, .ok a⟩] (.ok ⟨link, i, a, links⟩)

variable {limit : UInt64} {build? : CandidateLink → Option Intent} {links : List CandidateLink}

/-- What a search does: all it submits is refused, but for the link that it ends with. -/
theorem Seeks.mem {ds : List Deed} {result : Except String Acceptance}
    (h : Seeks limit build? links ds result) : ∀ d ∈ ds, ∃ link i, build? link = some i ∧
      ((∃ e, d = ⟨.submit limit i, .error e⟩) ∨
        ∃ a : Acceptance, result = .ok a ∧ i = a.intent ∧
          d = ⟨.submit limit i, .ok a.submission⟩) := by
  induction h with
  | exhausted => exact List.forall_mem_nil _
  | skip _ _ ih => exact ih
  | refuse hb _ ih =>
    rw [List.forall_mem_cons]
    exact ⟨⟨_, _, hb, .inl ⟨_, rfl⟩⟩, ih⟩
  | accept hb =>
    rw [List.forall_mem_singleton]
    exact ⟨_, _, hb, .inr ⟨_, rfl, rfl, rfl⟩⟩

/-- A search does nothing but submit. -/
theorem Seeks.submits {ds : List Deed} {result : Except String Acceptance}
    (h : Seeks limit build? links ds result) :
    ∀ d ∈ ds, ∃ i answer, d = ⟨.submit limit i, answer⟩ := by
  intro d hd
  obtain ⟨_, i, -, ⟨_, rfl⟩ | ⟨_, -, -, rfl⟩⟩ := h.mem d hd
  all_goals exact ⟨i, _, rfl⟩

/-- A search that succeeds ends with the link that was accepted. -/
theorem Seeks.exists_accepted {ds : List Deed} {a : Acceptance}
    (h : Seeks limit build? links ds (.ok a)) :
    build? a.link = some a.intent ∧
      ∃ tries, ds = tries ++ [⟨.submit limit a.intent, .ok a.submission⟩] ∧
        ∀ n i b, ⟨.submit n i, .ok b⟩ ∉ tries := by
  generalize hr : Except.ok a = result at h
  induction h with
  | exhausted => cases hr
  | skip _ _ ih => exact ih hr
  | @refuse _ _ _ _ _ e _ _ ih =>
    obtain ⟨hb, tries, rfl, htries⟩ := ih hr
    refine ⟨hb, _ :: tries, rfl, fun n i b hmem => ?_⟩
    rcases List.mem_cons.mp hmem with heq | hmem
    · cases heq
    · exact htries n i b hmem
  | accept hb =>
    cases hr
    exact ⟨hb, [], rfl, nofun⟩

theorem Seeks.accepted_mem {ds : List Deed} {a : Acceptance}
    (h : Seeks limit build? links ds (.ok a)) :
    ⟨.submit limit a.intent, .ok a.submission⟩ ∈ ds := by
  obtain ⟨-, tries, rfl, -⟩ := h.exists_accepted
  simp

theorem seeks_of_submitFirst {reason : String} {ds : List Deed}
    {result : Except String Acceptance}
    (h : (submitFirst limit build? reason links).Yields ds result) :
    Seeks limit build? links ds result := by
  induction links generalizing reason ds with
  | nil =>
    obtain ⟨rfl, rfl⟩ := Program.yields_pure.mp h
    exact .exhausted reason
  | cons link links ih =>
    rw [submitFirst] at h
    cases hb : build? link with
    | none =>
      simp only [hb] at h
      exact .skip hb (ih h)
    | some i =>
      simp only [hb] at h
      obtain ⟨e | a, rest, rfl, hrest⟩ := Program.yields_access_bind.mp h
      · exact .refuse hb (ih hrest)
      · obtain ⟨rfl, rfl⟩ := Program.yields_pure.mp hrest
        exact .accept hb

/-! ## What a call touches -/

/-- An access that writes no record and asks the framework for no other keys than some. -/
def Deed.Within (mine : IntentKey → Prop) : Deed → Prop
  | ⟨.putRecord .., _⟩ | ⟨.removeRecord _, _⟩ | ⟨.replaceRecord .., true⟩ => False
  | ⟨.withdraw _ k, _⟩ => mine k
  | ⟨.submit _ i, _⟩ => mine i.key
  | _ => True

theorem Deed.Within.mono {mine mine' : IntentKey → Prop} {d : Deed} (h : d.Within mine)
    (hmine : ∀ k, mine k → mine' k) : d.Within mine' := by
  unfold Deed.Within at h ⊢
  split at h <;> first | exact h | exact hmine _ h

/-- An access that comes after others and writes no record, or that of a service just as it was
found before, but for an entry of one of some keys. -/
def Deed.Upserts (s : ServiceId) (mine : IntentKey → Prop) (before : List Deed) (d : Deed) : Prop :=
  d.Within (fun _ => True) ∨ ∃ earlier absent v e,
    before = earlier ++ [StatusStore.Absent.finds s v absent] ∧ mine e.key ∧
      d = ⟨.replaceRecord s v.version (v.value.upsert e), true⟩

/-- A trace that comes after other accesses and writes no more than such entries. -/
def Upserting (s : ServiceId) (mine : IntentKey → Prop) (before ds : List Deed) : Prop :=
  ∀ earlier d later, ds = earlier ++ d :: later → d.Upserts s mine (before ++ earlier)

theorem StatusStore.Absent.within_finds (absent : Absent) (s : ServiceId)
    (v : Versioned ServiceRecord) (mine : IntentKey → Prop) : (absent.finds s v).Within mine := by
  cases absent <;> trivial

namespace Upserting

variable {s : ServiceId} {mine mine' : IntentKey → Prop} {before ds ds' : List Deed} {d : Deed}

theorem of_within (h : ∀ d ∈ ds, d.Within fun _ => True) : Upserting s mine before ds := by
  rintro earlier d later rfl
  exact .inl (h d (by simp))

theorem nil : Upserting s mine before [] := of_within fun _ hd => absurd hd List.not_mem_nil

theorem singleton (h : d.Upserts s mine before) : Upserting s mine before [d] := by
  intro earlier d' later hall
  rcases List.cons_eq_append_iff.mp hall with ⟨rfl, hd⟩ | ⟨rest, -, hd⟩
  · cases hd
    rwa [List.append_nil]
  · simp at hd

theorem append (h : Upserting s mine before ds) (h' : Upserting s mine (before ++ ds) ds') :
    Upserting s mine before (ds ++ ds') := by
  intro earlier d later hall
  rcases append_eq_append_cons hall with ⟨m, rfl, -⟩ | ⟨m, rfl, rfl⟩
  · exact h earlier d m rfl
  · rw [← List.append_assoc]
    exact h' m d later rfl

theorem of_append (h : Upserting s mine before (ds ++ ds')) :
    Upserting s mine before ds ∧ Upserting s mine (before ++ ds) ds' := by
  constructor
  · rintro earlier d later rfl
    exact h earlier d (later ++ ds') (by simp)
  · rintro earlier d later rfl
    rw [List.append_assoc]
    exact h (ds ++ earlier) d later (by simp)

/-- More may have come before. -/
theorem after (h : Upserting s mine before ds) (first : List Deed) :
    Upserting s mine (first ++ before) ds := by
  intro earlier d later hall
  rcases h earlier d later hall with hwithin | ⟨found, absent, v, e, hfound, he, hd⟩
  · exact .inl hwithin
  · exact .inr ⟨first ++ found, absent, v, e, by rw [List.append_assoc, hfound, List.append_assoc],
      he, hd⟩

theorem mono (hmine : ∀ k, mine k → mine' k) (h : Upserting s mine before ds) :
    Upserting s mine' before ds := by
  intro earlier d later hall
  rcases h earlier d later hall with hwithin | ⟨found, absent, v, e, hfound, he, hd⟩
  · exact .inl hwithin
  · exact .inr ⟨found, absent, v, e, hfound, hmine _ he, hd⟩

/-- Parts that can do without what comes before them make up a whole. -/
theorem append_self (h : Upserting s mine [] ds) (h' : Upserting s mine [] ds') :
    Upserting s mine [] (ds ++ ds') :=
  h.append (by simpa using h'.after ds)

theorem cons (hd : d.Within fun _ => True) (h : Upserting s mine [] ds) :
    Upserting s mine [] (d :: ds) :=
  (singleton (.inl hd)).append_self h

theorem of_rounds {failure : StoreError} {absent : StatusStore.Absent}
    {change : ServiceRecord → ServiceRecord} {result : Except StoreError (Option ServiceRecord)}
    (hchange : ∀ r, ∃ e, change r = r.upsert e ∧ mine e.key)
    (h : StatusStore.Rounds failure absent s change left ds result) : Upserting s mine [] ds := by
  rintro earlier d later rfl
  obtain ⟨access, answer⟩ := d
  rcases h.access_eq _ (List.mem_append_right _ (.head _)) with
    ⟨-, rfl⟩ | ⟨-, rfl⟩ | ⟨version, r, rfl⟩
  · exact .inl trivial
  · exact .inl trivial
  · cases answer with
    | false => exact .inl trivial
    | true =>
      obtain ⟨-, -, -, -, lost, v, rfl, rfl, rfl⟩ := h.written_inv
      obtain ⟨e, hchanged, he⟩ := hchange v.value
      exact .inr ⟨lost, absent, v, e, rfl, he, by rw [hchanged]⟩

end Upserting

/-- A trace that asks the framework for no other keys than some. What it writes is the record of one
service, just as it was found but for entries of these keys. -/
inductive Confined (s : ServiceId) (mine : IntentKey → Prop) : List Deed → Prop where
  | nil : Confined s mine []
  | cons {d : Deed} : d.Within mine → Confined s mine ds → Confined s mine (d :: ds)
  | write (absent : StatusStore.Absent) (v : Versioned ServiceRecord) {e : KeyStatus} :
      mine e.key → Confined s mine ds →
      Confined s mine
        (absent.finds s v :: ⟨.replaceRecord s v.version (v.value.upsert e), true⟩ :: ds)

namespace Confined

variable {s : ServiceId} {mine mine' : IntentKey → Prop} {ds ds' : List Deed}

theorem append (h : Confined s mine ds) (h' : Confined s mine ds') :
    Confined s mine (ds ++ ds') := by
  induction h with
  | nil => exact h'
  | cons hd _ ih => exact .cons hd ih
  | write absent v he _ ih => exact .write absent v he ih

theorem of_forall (h : ∀ d ∈ ds, d.Within mine) : Confined s mine ds := by
  induction ds with
  | nil => exact .nil
  | cons d ds ih =>
    rw [List.forall_mem_cons] at h
    exact .cons h.1 (ih h.2)

theorem mono (hmine : ∀ k, mine k → mine' k) (h : Confined s mine ds) : Confined s mine' ds := by
  induction h with
  | nil => exact .nil
  | cons hd _ ih => exact .cons (hd.mono hmine) ih
  | write absent v he _ ih => exact .write absent v (hmine _ he) ih

/-- Each access is one that writes no record, or writes that of the service. -/
theorem mem (h : Confined s mine ds) {d : Deed} (hd : d ∈ ds) :
    d.Within mine ∨ ∃ version r, d = ⟨.replaceRecord s version r, true⟩ := by
  induction h with
  | nil => cases hd
  | cons hwithin _ ih =>
    rcases List.mem_cons.mp hd with rfl | hd
    · exact .inl hwithin
    · exact ih hd
  | write absent v _ _ ih =>
    rcases List.mem_cons.mp hd with rfl | hd
    · exact .inl (absent.within_finds s v mine)
    · rcases List.mem_cons.mp hd with rfl | hd
      · exact .inr ⟨_, _, rfl⟩
      · exact ih hd

theorem not_withdraw {k : IntentKey} (h : Confined s mine ds) (hk : ¬ mine k) (n : UInt64)
    (answer : Except FrameworkError Unit) : ⟨.withdraw n k, answer⟩ ∉ ds := by
  intro hmem
  rcases h.mem hmem with hwithin | ⟨_, _, heq⟩
  · exact hk hwithin
  · cases heq

theorem upserting (h : Confined s mine ds) : Upserting s mine [] ds := by
  induction h with
  | nil => exact .nil
  | cons hwithin _ ih => exact .cons (hwithin.mono fun _ _ => trivial) ih
  | @write ds absent v e he _ ih =>
    have hfinds : Upserting s mine [] [absent.finds s v] :=
      .singleton (.inl (absent.within_finds s v _))
    have hwrites := hfinds.append (.singleton (.inr ⟨[], absent, v, e, rfl, he, rfl⟩))
    exact hwrites.append_self ih

theorem of_rounds {failure : StoreError} {absent : StatusStore.Absent} {e : KeyStatus}
    {result : Except StoreError (Option ServiceRecord)} (he : mine e.key)
    (h : StatusStore.Rounds failure absent s (·.upsert e) left ds result) : Confined s mine ds := by
  induction h with
  | gaveUp => exact .nil
  | missing => exact .cons trivial .nil
  | @lost _ _ _ v _ ih => exact .cons (absent.within_finds s v mine) (.cons trivial ih)
  | written v => exact .write absent v he .nil

theorem of_seeks {limit : UInt64} {build? : CandidateLink → Option Intent}
    {links : List CandidateLink} {found : Except String Acceptance}
    (hbuild : ∀ link i, build? link = some i → mine i.key)
    (h : Seeks limit build? links ds found) : Confined s mine ds := by
  refine of_forall fun d hd => ?_
  obtain ⟨link, i, hi, ⟨_, rfl⟩ | ⟨_, -, -, rfl⟩⟩ := h.mem d hd
  all_goals exact hbuild link i hi

end Confined

end IntentPlane
