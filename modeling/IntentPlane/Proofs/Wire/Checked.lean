import IntentPlane.Proofs.Aggregate
import IntentPlane.Proofs.Record.Built
import IntentPlane.Proofs.Wire.RoundTrip

/-!
# Names, prefixes and records in decoded values

Service names and prefixes are decoded by their parsers wherever they stand in a value, so none is
decoded that they refuse (`Wire.Value.IsRead.parsed`). Records are not built from the entries
decoded: a record holds the entries listed in its text, one after another
(`ServiceRecord.ofText?_eq_some`), and behaves as one that entries build only if no key is repeated.
-/

namespace IntentPlane

open Json.Fields

/-! ## Strings in a value -/

namespace Json

/-- A string stands somewhere in a value, other than as a name. -/
inductive Holds (w : String) : Json → Prop where
  | str : Holds w (.str w)
  | item : j ∈ items → Holds w j → Holds w (.arr items)
  | member : member ∈ members → Holds w member.2 → Holds w (.obj members)

/-- All strings in a value have the property. -/
def Within (T : String → Prop) (j : Json) : Prop := ∀ w, j.Holds w → T w

instance (T : String → Prop) : Hereditary (Within T) where
  item _ h _ hmem _ hw := h _ (.item hmem hw)
  member _ h _ hmem _ hw := h _ (.member hmem hw)

end Json

open Json (Within)

variable {T : String → Prop}

/-- A string with the property is parsed as the name. -/
def ServiceId.From (T : String → Prop) (s : ServiceId) : Prop := ∃ w, T w ∧ parse w = .ok s

/-- A string with the property is parsed as the prefix. -/
def IpPrefix.From (T : String → Prop) (p : IpPrefix) : Prop := ∃ w, T w ∧ parse w = .ok p

theorem Json.holds_of_string? {j : Json} {w : String} (h : j.string? = some w) : j.Holds w := by
  cases j with
  | str s =>
    cases h
    exact .str
  | _ => cases h

theorem decodes_parsed {α : Type} {parse : String → Except ε α} :
    Decodes (Within T) (fun _ j => j.string?.bind fun w => (parse w).toOption)
      fun a => ∃ w, T w ∧ parse w = .ok a := by
  intro d j a hj hread
  obtain ⟨w, hw, ha⟩ := Option.bind_eq_some_iff.mp hread
  exact ⟨w, hj w (Json.holds_of_string? hw), toOption_eq_some.mp ha⟩

theorem ServiceId.decodes_from : Decodes (Within T) (@Wire.ofJson? ServiceId _) (From T) :=
  decodes_parsed

theorem IpPrefix.decodes_from : Decodes (Within T) (@Wire.ofJson? IpPrefix _) (From T) :=
  decodes_parsed

/-! ## Values with prefixes in them -/

def CandidateLink.prefixes (l : CandidateLink) : List IpPrefix :=
  l.src.net?.toList ++ l.dst.net?.toList

def TrafficSelector.prefixes (s : TrafficSelector) : List IpPrefix :=
  s.ipSrc.toList ++ s.ipDst.toList

def KeyStatus.prefixes (e : KeyStatus) : List IpPrefix := e.links.flatMap (·.prefixes)

def ServiceRecord.prefixes (r : ServiceRecord) : List IpPrefix := r.entries.flatMap (·.prefixes)

theorem Endpoint.decodes_from :
    Decodes (Within T) (@Wire.ofJson? Endpoint _) fun e => ∀ p ∈ e.net?, p.From T := by
  have hnone : ∀ p ∈ (none : Option IpPrefix), p.From T := fun p hp =>
    absurd hp (Option.not_mem_none p)
  refine decodes_tagged fun kind => ?_
  split
  · refine gives_bind (gives_field IpPrefix.decodes_from) fun p hp => ?_
    refine gives_bind gives_any fun _ _ => gives_bind gives_any fun _ _ => gives_pure ?_
    rintro _ ⟨⟩
    exact hp
  · refine gives_bind gives_any fun _ _ => gives_bind gives_any? fun _ _ => ?_
    exact gives_bind gives_any fun _ _ => gives_bind gives_any fun _ _ => gives_pure hnone
  · refine gives_bind gives_any fun _ _ => ?_
    exact gives_bind gives_any fun _ _ => gives_bind gives_any fun _ _ => gives_pure hnone
  · exact gives_bind gives_any fun _ _ => gives_bind gives_any fun _ _ => gives_pure hnone
  · exact fun _ _ _ _ _ hread => by cases hread

theorem forall_mem_toList_append {α : Type} {P : α → Prop} {a? b? : Option α}
    (ha : ∀ a ∈ a?, P a) (hb : ∀ b ∈ b?, P b) : ∀ a ∈ a?.toList ++ b?.toList, P a := by
  intro a h
  rcases List.mem_append.mp h with h | h
  · exact ha a (Option.mem_toList.mp h)
  · exact hb a (Option.mem_toList.mp h)

theorem CandidateLink.decodes_from :
    Decodes (Within T) (@Wire.ofJson? CandidateLink _) fun l => ∀ p ∈ l.prefixes, p.From T := by
  refine decodes_record <| gives_bind (gives_field Endpoint.decodes_from) fun src hsrc =>
    gives_bind (gives_field Endpoint.decodes_from) fun dst hdst => gives_pure ?_
  exact forall_mem_toList_append hsrc hdst

theorem TrafficSelector.decodes_from :
    Decodes (Within T) (@Wire.ofJson? TrafficSelector _) fun s => ∀ p ∈ s.prefixes, p.From T := by
  refine decodes_record <| gives_bind (gives_field? IpPrefix.decodes_from) fun src hsrc =>
    gives_bind (gives_field? IpPrefix.decodes_from) fun dst hdst => gives_pure ?_
  exact forall_mem_toList_append hsrc hdst

theorem Intent.decodes_from : Decodes (Within T) (@Wire.ofJson? Intent _) fun i =>
    ∀ p ∈ i.selector.prefixes, p.From T :=
  decodes_record <| gives_bind gives_any fun _ _ =>
    gives_bind (gives_field TrafficSelector.decodes_from) fun _ hselector =>
      gives_bind gives_any fun _ _ => gives_bind gives_any fun _ _ =>
        gives_bind gives_any fun _ _ => gives_pure hselector

theorem KeyStatus.decodes_from : Decodes (Within T) (@Wire.ofJson? KeyStatus _) fun e =>
    ∀ p ∈ e.prefixes, p.From T := by
  refine decodes_record <| gives_bind gives_any fun _ _ => gives_bind gives_any fun _ _ =>
    gives_bind (gives_field (decodes_list CandidateLink.decodes_from)) fun links hlinks =>
      gives_bind gives_any fun _ _ => gives_pure ?_
  exact List.forall_mem_flatMap.mpr hlinks

theorem ServiceRecord.decodes_from : Decodes (Within T) (@Wire.ofJson? ServiceRecord _) fun r =>
    ∀ p ∈ r.prefixes, p.From T := by
  refine decodes_record <| gives_bind (gives_field (decodes_list KeyStatus.decodes_from))
    fun es hes => gives_pure ?_
  exact List.forall_mem_flatMap.mpr hes

theorem Report.decodes_from : Decodes (Within T) (@Wire.ofJson? Report _) fun r =>
    r.service.From T :=
  decodes_record <| gives_bind (gives_field ServiceId.decodes_from) fun _ hservice =>
    gives_bind gives_any fun _ _ => gives_bind gives_any fun _ _ =>
      gives_bind gives_any fun _ _ => gives_pure hservice

/-! ## What texts are read as -/

namespace Wire

/-- What is read from a text depends on the strings in it. -/
theorem exists_holds {α : Type} [Wire α] {P : (String → Prop) → α → Prop} {t : String} {a : α}
    (h : ∀ T, Decodes (Within T) (@ofJson? α _) (P T)) (hread : ofText? α t = some a) :
    ∃ j, Json.parse? t = some j ∧ P j.Holds a := by
  obtain ⟨j, hj, hread⟩ := Option.bind_eq_some_iff.mp hread
  exact ⟨j, hj, h j.Holds _ j a (fun _ hw => hw) hread⟩

/-- A value of one of the types that have names, prefixes or records in them. -/
inductive Value where
  | service (s : ServiceId)
  | report (r : Report)
  | net (p : IpPrefix)
  | endpoint (e : Endpoint)
  | link (l : CandidateLink)
  | selector (s : TrafficSelector)
  | intent (i : Intent)
  | entry (e : KeyStatus)
  | record (r : ServiceRecord)

namespace Value

def services : Value → List ServiceId
  | service s => [s]
  | report r => [r.service]
  | _ => []

def prefixes : Value → List IpPrefix
  | net p => [p]
  | endpoint e => e.net?.toList
  | link l => l.prefixes
  | selector s => s.prefixes
  | intent i => i.selector.prefixes
  | entry e => e.prefixes
  | record r => r.prefixes
  | _ => []

def records : Value → List ServiceRecord
  | record r => [r]
  | _ => []

/-- The value is read from a text, as a value of its type. -/
def IsRead (t : String) : Value → Prop
  | service s => ofText? ServiceId t = some s
  | report r => ofText? Report t = some r
  | net p => ofText? IpPrefix t = some p
  | endpoint e => ofText? Endpoint t = some e
  | link l => ofText? CandidateLink t = some l
  | selector s => ofText? TrafficSelector t = some s
  | intent i => ofText? Intent t = some i
  | entry e => ofText? KeyStatus t = some e
  | record r => ofText? ServiceRecord t = some r

/-- Strings of the text are parsed as the names and prefixes in the value. -/
theorem IsRead.parsed {t : String} {v : Value} (h : v.IsRead t) :
    ∃ j, Json.parse? t = some j ∧ (∀ s ∈ v.services, s.From j.Holds) ∧
      ∀ p ∈ v.prefixes, p.From j.Holds := by
  cases v with
  | service s =>
    obtain ⟨j, hj, hs⟩ := exists_holds (fun _ => ServiceId.decodes_from) h
    exact ⟨j, hj, List.forall_mem_singleton.mpr hs, List.forall_mem_nil _⟩
  | report r =>
    obtain ⟨j, hj, hs⟩ := exists_holds (fun _ => Report.decodes_from) h
    exact ⟨j, hj, List.forall_mem_singleton.mpr hs, List.forall_mem_nil _⟩
  | net p =>
    obtain ⟨j, hj, hp⟩ := exists_holds (fun _ => IpPrefix.decodes_from) h
    exact ⟨j, hj, List.forall_mem_nil _, List.forall_mem_singleton.mpr hp⟩
  | endpoint e =>
    obtain ⟨j, hj, hps⟩ := exists_holds (fun _ => Endpoint.decodes_from) h
    exact ⟨j, hj, List.forall_mem_nil _, fun p hp => hps p (Option.mem_toList.mp hp)⟩
  | link l =>
    obtain ⟨j, hj, hps⟩ := exists_holds (fun _ => CandidateLink.decodes_from) h
    exact ⟨j, hj, List.forall_mem_nil _, hps⟩
  | selector s =>
    obtain ⟨j, hj, hps⟩ := exists_holds (fun _ => TrafficSelector.decodes_from) h
    exact ⟨j, hj, List.forall_mem_nil _, hps⟩
  | intent i =>
    obtain ⟨j, hj, hps⟩ := exists_holds (fun _ => Intent.decodes_from) h
    exact ⟨j, hj, List.forall_mem_nil _, hps⟩
  | entry e =>
    obtain ⟨j, hj, hps⟩ := exists_holds (fun _ => KeyStatus.decodes_from) h
    exact ⟨j, hj, List.forall_mem_nil _, hps⟩
  | record r =>
    obtain ⟨j, hj, hps⟩ := exists_holds (fun _ => ServiceRecord.decodes_from) h
    exact ⟨j, hj, List.forall_mem_nil _, hps⟩

end Value

/-- A value gives a record these entries: as the one array under their name, or as the one item of
an array. -/
def Lists (j : Json) (items : List Json) : Prop :=
  j = .arr [.arr items] ∨
    ∃ members, j = .obj members ∧ Json.lookup "entries" members = [.arr items]

end Wire

namespace ServiceRecord

variable {r : ServiceRecord} {e : KeyStatus}

theorem read_eq_some (fields : Json.Fields) :
    Json.Fields.read (mk <$> Json.field "entries") .direct fields = some r ↔
      ∃ v rest, Json.Fields.take "entries" fields = some (some v, rest) ∧
        rest.finished = true ∧ Wire.ofJson? Json.Dialect.direct v = some r.entries := by
  obtain ⟨es⟩ := r
  have hlong : Json.Dialect.direct.longArrays = false := rfl
  rw [Json.Fields.read, map_run, field_run]
  rcases Json.Fields.take "entries" fields with _ | ⟨_ | v, rest⟩
  · simp
  · simp
  · cases hv : Wire.ofJson? (α := List KeyStatus) Json.Dialect.direct v with
    | none => simp [hv]
    | some es =>
      cases hrest : rest.finished <;> simp [hv, hrest, hlong, guard]

/-- A record is read as its one member, or its one item. -/
theorem as?_eq_some {j : Json} : Json.as? ServiceRecord j = some r ↔
    ∃ v, (j = .arr [v] ∨ ∃ members, j = .obj members ∧ Json.lookup "entries" members = [v]) ∧
      Wire.ofJson? Json.Dialect.direct v = some r.entries := by
  cases j with
  | obj members =>
    refine (read_eq_some (.named members)).trans ?_
    rcases hlookup : Json.lookup "entries" members with _ | ⟨v, _ | ⟨w, vs⟩⟩ <;>
      simp [Json.Fields.take, hlookup, finished]
  | arr items =>
    refine (read_eq_some (.listed items)).trans ?_
    rcases items with _ | ⟨v, _ | ⟨w, vs⟩⟩ <;> simp [Json.Fields.take, finished]
  | _ => simp [Json.as?, Wire.ofJson?, Json.record?, Json.fields?]

theorem list?_eq_some {decode : Json → Option α} {j : Json} {as : List α} :
    Json.list? decode j = some as ↔ ∃ items, j = .arr items ∧ items.mapM decode = some as := by
  cases j <;> simp [Json.list?]

/-- A record is read from a text that lists its entries, in their order. -/
theorem ofText?_eq_some {t : String} : Wire.ofText? ServiceRecord t = some r ↔
    ∃ j items, Json.parse? t = some j ∧ Wire.Lists j items ∧
      items.mapM (Wire.ofJson? Json.Dialect.direct) = some r.entries := by
  constructor
  · intro h
    obtain ⟨j, hj, hread⟩ := Option.bind_eq_some_iff.mp h
    obtain ⟨v, hv, hentries⟩ := as?_eq_some.mp hread
    obtain ⟨items, rfl, hitems⟩ := list?_eq_some.mp hentries
    exact ⟨j, items, hj, hv, hitems⟩
  · rintro ⟨j, items, hj, hv, hitems⟩
    refine Option.bind_eq_some_iff.mpr ⟨j, hj, as?_eq_some.mpr ⟨_, hv, ?_⟩⟩
    exact list?_eq_some.mpr ⟨items, rfl, hitems⟩

/-- An event is aggregated from the entry given, those under other keys, and those under its key
that it does not take the place of. -/
theorem aggregate_upsert (r : ServiceRecord) (e : KeyStatus) (calculated : Bool) :
    (r.upsert e).aggregate calculated =
      aggregate ⟨e :: ((r.entries.filter (·.key = e.key)).tail ++
        r.entries.filter (·.key ≠ e.key))⟩ calculated := by
  have hperm := List.filter_append_perm (fun f : KeyStatus => decide (f.key = e.key))
    (r.upsert e).entries
  have hne : (fun f : KeyStatus => !decide (f.key = e.key)) = fun f => decide (f.key ≠ e.key) := by
    funext f
    simp
  rw [hne, filter_upsert_self, filter_upsert_ne, List.cons_append] at hperm
  exact (aggregate_congr_of_subset hperm.subset hperm.symm.subset calculated).symm

end ServiceRecord

namespace Wire

/-- Names and prefixes are parsed wherever they are decoded, and a record holds the entries that its
text lists. So it may hold a key more than once. If it does not, it is one that entries build, and
an entry takes the place of all there is under its key. If it does, it is not, and an entry leaves
others under its key, which count for the event. -/
theorem decoded_as_built_iff {t : String} {v : Value} (h : v.IsRead t) :
    ∃ j, Json.parse? t = some j ∧
      (∀ s ∈ v.services, Text.trim s.text.toList ≠ [] ∧ s.From j.Holds) ∧
      (∀ p ∈ v.prefixes, p.length ≤ p.address.width ∧ p.From j.Holds) ∧
      ∀ r ∈ v.records,
        (∃ items, Lists j items ∧ items.mapM (ofJson? Json.Dialect.direct) = some r.entries) ∧
        (r.keys.Nodup ↔ ∃ es, r = .ofEntries es) ∧
        (r.keys.Nodup ↔ ∀ e, (r.upsert e).entries.filter (·.key = e.key) = [e]) ∧
        ∀ e calculated, (r.upsert e).aggregate calculated =
          ServiceRecord.aggregate ⟨e :: ((r.entries.filter (·.key = e.key)).tail ++
            r.entries.filter (·.key ≠ e.key))⟩ calculated := by
  obtain ⟨j, hj, hservices, hprefixes⟩ := h.parsed
  refine ⟨j, hj, fun s hs => ⟨?_, hservices s hs⟩, fun p hp => ⟨p.length_le, hprefixes p hp⟩,
    fun r hr => ⟨?_, ServiceRecord.nodup_keys_iff, ServiceRecord.nodup_keys_iff_upsert,
      r.aggregate_upsert⟩⟩
  · have hblank := s.not_blank
    simpa [Text.allBlank] using hblank
  · cases v with
    | record q =>
      obtain rfl := List.mem_singleton.mp hr
      obtain ⟨i, items, hi, hlists, hitems⟩ := ServiceRecord.ofText?_eq_some.mp h
      obtain rfl : j = i := Option.some.inj (hj.symm.trans hi)
      exact ⟨items, hlists, hitems⟩
    | _ => cases hr

/-- Of two failures under one key only the first gives way to an installation. -/
theorem repeated_key_decoded :
    let key : IntentKey := ⟨⟨1, "paths"⟩, "a"⟩
    let t :=
      "[[[[[1,\"paths\"],\"a\"],\"FAILED\",[],false],[[[1,\"paths\"],\"a\"],\"FAILED\",[],false]]]"
    let r : ServiceRecord := ⟨[.fresh key .failed, .fresh key .failed]⟩
    ofText? ServiceRecord t = some r ∧ ¬ r.keys.Nodup ∧ (¬ ∃ es, r = .ofEntries es) ∧
      (r.upsert (.fresh key .installed)).aggregate true = .installationFailed ∧
      (ServiceRecord.upsert ⟨[.fresh key .failed]⟩ (.fresh key .installed)).aggregate true =
        .installationSuccess := by
  intro key t r
  have hread : (Value.record r).IsRead t := by
    change ofText? ServiceRecord t = some r
    decide +kernel
  have hrepeated : ¬ r.keys.Nodup := by decide
  obtain ⟨_, -, -, -, hrecords⟩ := decoded_as_built_iff hread
  obtain ⟨-, hbuilt, -, hevent⟩ := hrecords r (.head _)
  exact ⟨hread, hrepeated, fun h => hrepeated (hbuilt.mpr h), hevent _ true, rfl⟩

end Wire

end IntentPlane
