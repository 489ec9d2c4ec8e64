import IntentPlane.Decomposition.Report
import IntentPlane.Proofs.IpPrefix
import IntentPlane.Proofs.Wire.Laws
import IntentPlane.Settings.Record

/-!
# The wire forms of requests, intents, records and settings

All of them are lawful, and there is room for them within the depth that readers allow. Requests and
intents have to name finite bandwidths for that: a double without a number is written as null.
-/

namespace IntentPlane

open Json (Fits MembersFit isReadable lookup membersReadable tagged?_obj)
open Json.Fields (take)

-- Members are read one after the other, and proofs go through readers in that order.
attribute [local congr] Json.Fields.bind_congr_left

variable {n : Nat}

/-! ## Topology -/

instance : LawfulWire DeviceId := ⟨fun _ _ => rfl, fun _ => rfl⟩

@[simp] theorem DeviceId.fits (d : DeviceId) : (toJson d).Fits n := trivial

instance : LawfulWire ConnectPoint := .ofRecord (fun _ => rfl) (fun _ _ => rfl)

@[simp] theorem ConnectPoint.fits (p : ConnectPoint) : (toJson p).Fits (n + 1) :=
  fits_record rfl (by simp [MembersFit])

instance : LawfulWire LinkState := ⟨fun _ s => by cases s <;> rfl, fun _ => rfl⟩

@[simp] theorem LinkState.fits (s : LinkState) : (toJson s).Fits n := trivial

instance : LawfulWire Link := .ofRecord (fun _ => rfl) (fun _ _ => rfl)

@[simp] theorem Link.fits (l : Link) : (toJson l).Fits (n + 2) :=
  fits_record rfl (by simp [MembersFit])

instance : LawfulWire NetworkPath := .ofRecord (fun _ => rfl) (fun _ _ => rfl)

@[simp] theorem NetworkPath.fits (p : NetworkPath) : (toJson p).Fits (n + 4) :=
  fits_record rfl (by simp [MembersFit])

/-! ## Endpoints -/

instance : LawfulWire ConnectionPoint := ⟨fun _ _ => rfl, fun _ => rfl⟩

@[simp] theorem ConnectionPoint.fits (p : ConnectionPoint) : (toJson p).Fits n := trivial

instance : LawfulWire HostId := ⟨fun _ _ => rfl, fun _ => rfl⟩

@[simp] theorem HostId.fits (h : HostId) : (toJson h).Fits n := trivial

instance : LawfulWire IpPrefix where
  ofJson?_toJson _ p := by
    change (some p.text).bind (fun text => (IpPrefix.parse text).toOption) = some p
    rw [Option.bind_some, p.parse_text]
    rfl
  isReadable_toJson _ := rfl

@[simp] theorem IpPrefix.fits (p : IpPrefix) : (toJson p).Fits n := trivial

instance : LawfulWire (Option UInt16) := .ofOption nofun

instance : LawfulWire Endpoint where
  ofJson?_toJson _ e := by
    change Endpoint.decode? e.encode = some e
    cases e <;> refine tagged?_obj ?_ ?_ ?_ <;>
      simp -implicitDefEqProofs [membersReadable, take, lookup]
  isReadable_toJson e := by
    change e.encode.isReadable = true
    cases e <;> simp [Endpoint.encode, isReadable, membersReadable]

@[simp] theorem Endpoint.fits (e : Endpoint) : (toJson e).Fits (n + 1) := by
  cases e <;> refine fits_record rfl ?_ <;> simp [MembersFit, Fits]

instance : LawfulWire CandidateLink := .ofRecord (fun _ => rfl) (fun _ _ => rfl)

@[simp] theorem CandidateLink.fits (l : CandidateLink) : (toJson l).Fits (n + 2) :=
  fits_record rfl (by simp [MembersFit])

/-! ## Constraints -/

/-- A span is made up of its own parts. -/
theorem Latency.ofParts?_self (l : Latency) : ofParts? l.secs.toNat l.nanos.toNat = some l := by
  have hnanos := l.nanos_lt
  have hwhole : l.secs.toNat + l.nanos.toNat / nanosPerSecond = l.secs.toNat := by
    rw [Nat.div_eq_of_lt hnanos, Nat.add_zero]
  simp [ofParts?, hwhole, l.secs.toNat_lt_size, Nat.mod_eq_of_lt hnanos]

instance : LawfulWire Latency where
  ofJson?_toJson d l := by
    have hread : Json.record? Latency.reader d
        (.obj [("secs", toJson l.secs), ("nanos", toJson l.nanos)]) = some (l.secs, l.nanos) := by
      rw [Json.record?_obj]
      refine Json.Fields.read_named ?_
      simp -implicitDefEqProofs [Latency.reader, take, lookup]
    change Latency.decode? d (.obj [("secs", toJson l.secs), ("nanos", toJson l.nanos)]) = some l
    rw [Latency.decode?, hread]
    simp [guard, Latency.ofParts?_self]
  isReadable_toJson l := by
    change Json.isReadable (.obj _) = true
    simp [isReadable, membersReadable]

@[simp] theorem Latency.fits (l : Latency) : (toJson l).Fits (n + 1) :=
  fits_record rfl (by simp [MembersFit])

theorem Constraint.decode?_obj (d : Json.Dialect) (kind : String) (value : Option Json) :
    decode? d (.obj (("type", .str kind) :: (value.map ("value", ·)).toList)) =
      ofKind? d kind value := by
  have hread : Json.Fields.read reader d
      (.named (("type", .str kind) :: (value.map ("value", ·)).toList)) = some (kind, value) := by
    refine Json.Fields.read_named ?_
    cases value <;> simp [reader, Json.Fields.required_run, Json.Dialect.name?, take, lookup]
  rw [decode?, hread]
  rfl

instance : LawfulWire Constraint where
  ofJson?_toJson d c := by
    change Constraint.decode? d c.encode = some c
    cases c with
    | bandwidth bps => exact Constraint.decode?_obj d "bandwidth" (some (toJson bps))
    | latency bound =>
      refine (Constraint.decode?_obj d "latency" (some (toJson bound))).trans ?_
      simp -implicitDefEqProofs [Constraint.ofKind?]
    | _ => exact Constraint.decode?_obj d _ none
  isReadable_toJson c := by
    change c.encode.isReadable = true
    cases c <;> simp [Constraint.encode, isReadable, membersReadable]

/-- If it is one on bandwidth, the bandwidth is a number. -/
def Constraint.IsFinite : Constraint → Prop
  | .bandwidth bps => Double.isFinite bps = true
  | _ => True

theorem Constraint.IsFinite.fits {c : Constraint} (h : c.IsFinite) : (toJson c).Fits (n + 2) := by
  cases c with
  | bandwidth bps => exact fits_record rfl ⟨trivial, h, trivial⟩
  | _ => exact fits_record rfl (by simp [MembersFit, Fits])

theorem fits_constraints {cs : List Constraint} (h : ∀ c ∈ cs, c.IsFinite) :
    (toJson cs).Fits (n + 3) := fits_list.mpr fun c hc => (h c hc).fits

/-! ## Requests -/

instance : LawfulWire Subject := .ofRecord (fun _ => rfl) (fun _ _ => rfl)

def Subject.IsFinite (s : Subject) : Prop := ∀ c ∈ s.constraints, c.IsFinite

theorem Subject.IsFinite.fits {s : Subject} (h : s.IsFinite) : (toJson s).Fits (n + 4) :=
  fits_record rfl ⟨s.point.fits, fits_constraints h, trivial⟩

instance : LawfulWire Pair :=
  .ofRecord (fun _ => rfl) (fun _ _ => rfl)
    (fun _ _ => by simp -implicitDefEqProofs [Pair.reader, Pair.members, take, lookup])
    (fun _ => by simp [Pair.members, membersReadable])

def Pair.IsFinite (p : Pair) : Prop := p.source.IsFinite ∧ p.destination.IsFinite

theorem Pair.IsFinite.fits {p : Pair} (h : p.IsFinite) : MembersFit (n + 4) p.members :=
  ⟨fits_uint32 p.id, h.1.fits, h.2.fits, trivial⟩

instance : LawfulWire Mesh :=
  .ofRecord (fun _ => rfl) (fun _ _ => rfl)
    (fun _ _ => by simp -implicitDefEqProofs [Mesh.reader, Mesh.members, take, lookup])
    (fun _ => by simp [Mesh.members, membersReadable])

def Mesh.IsFinite (m : Mesh) : Prop := ∀ s ∈ m.subjects, s.IsFinite

theorem Mesh.IsFinite.fits {m : Mesh} (h : m.IsFinite) : MembersFit (n + 5) m.members :=
  ⟨fits_list.mpr fun s hs => (h s hs).fits, trivial⟩

instance : LawfulWire Action where
  ofJson?_toJson _ a := by
    change Action.decode? a.encode = some a
    cases a <;> refine tagged?_obj ?_ ?_ ?_ <;>
      simp -implicitDefEqProofs [Pair.reader, Pair.members, Mesh.reader, Mesh.members,
        membersReadable, take, lookup]
  isReadable_toJson a := by
    change a.encode.isReadable = true
    cases a <;>
      simp [Action.encode, Pair.members, Mesh.members, isReadable, membersReadable]

def Action.IsFinite : Action → Prop
  | .connection p | .path p => p.IsFinite
  | .mesh m => m.IsFinite

theorem Action.IsFinite.fits {a : Action} (h : a.IsFinite) : (toJson a).Fits (n + 6) := by
  cases a with
  | connection p | path p => exact fits_record rfl ⟨trivial, Pair.IsFinite.fits h⟩
  | mesh m => exact fits_record rfl ⟨trivial, Mesh.IsFinite.fits h⟩

instance : LawfulWire ServiceRequest := .ofRecord (fun _ => rfl) (fun _ _ => rfl)

/-- A request whose bandwidths are all finite, those of its ends included. -/
def ServiceRequest.IsFinite (r : ServiceRequest) : Prop :=
  r.action.IsFinite ∧ ∀ c ∈ r.constraints, c.IsFinite

theorem ServiceRequest.IsFinite.fits {r : ServiceRequest} (h : r.IsFinite) :
    (toJson r).Fits (n + 7) :=
  fits_record rfl ⟨h.1.fits, fits_constraints h.2, fits_bool r.negotiable, trivial⟩

/-! ## Intents -/

instance : LawfulWire ServiceId where
  ofJson?_toJson _ s := by
    change (ServiceId.parse s.text).toOption = some s
    rw [ServiceId.parse, dif_pos s.not_blank]
    rfl
  isReadable_toJson _ := rfl

@[simp] theorem ServiceId.fits (s : ServiceId) : (toJson s).Fits n := trivial

instance : LawfulWire ApplicationId := .ofRecord (fun _ => rfl) (fun _ _ => rfl)

@[simp] theorem ApplicationId.fits (a : ApplicationId) : (toJson a).Fits (n + 1) :=
  fits_record rfl (by simp [MembersFit])

instance : LawfulWire IntentKey := .ofRecord (fun _ => rfl) (fun _ _ => rfl)

@[simp] theorem IntentKey.fits (k : IntentKey) : (toJson k).Fits (n + 2) :=
  fits_record rfl (by simp [MembersFit])

instance : LawfulWire IntentStatus := ⟨fun _ s => by cases s <;> rfl, fun _ => rfl⟩

@[simp] theorem IntentStatus.fits (s : IntentStatus) : (toJson s).Fits n := trivial

instance : LawfulWire IntentModel := ⟨fun _ m => by cases m <;> rfl, fun _ => rfl⟩

@[simp] theorem IntentModel.fits (m : IntentModel) : (toJson m).Fits n := trivial

instance : LawfulWire (Option IpPrefix) := .ofOption nofun

instance : LawfulWire TrafficSelector := .ofRecord (fun _ => rfl) (fun _ _ => rfl)

@[simp] theorem TrafficSelector.fits (s : TrafficSelector) : (toJson s).Fits (n + 1) :=
  fits_record rfl (by simp [MembersFit])

instance : LawfulWire (Option NetworkPath) := .ofOption nofun

instance : LawfulWire PathIntent :=
  .ofRecord (fun _ => rfl) (fun _ _ => rfl)
    (fun _ _ => by
      simp -implicitDefEqProofs [PathIntent.reader, PathIntent.members, take, lookup])
    (fun _ => by simp [PathIntent.members, membersReadable])

theorem PathIntent.fits (p : PathIntent) : MembersFit (n + 4) p.members := by
  simp [PathIntent.members, MembersFit]

instance : LawfulWire Payload where
  ofJson?_toJson _ p := by
    change Payload.decode? p.encode = some p
    cases p <;> refine tagged?_obj ?_ ?_ ?_ <;>
      simp -implicitDefEqProofs [PathIntent.reader, PathIntent.members, membersReadable, take,
        lookup]
  isReadable_toJson p := by
    change p.encode.isReadable = true
    cases p <;> simp [Payload.encode, PathIntent.members, isReadable, membersReadable]

@[simp] theorem Payload.fits (p : Payload) : (toJson p).Fits (n + 5) := by
  cases p with
  | connectivity => exact fits_record rfl (by simp [MembersFit, Fits])
  | pathAware p => exact fits_record rfl ⟨trivial, p.fits⟩

instance : LawfulWire Intent := .ofRecord (fun _ => rfl) (fun _ _ => rfl)

/-- An intent whose bandwidths are all finite. -/
def Intent.IsFinite (i : Intent) : Prop := ∀ c ∈ i.constraints, c.IsFinite

theorem Intent.IsFinite.fits {i : Intent} (h : i.IsFinite) : (toJson i).Fits (n + 6) :=
  fits_record rfl ⟨i.key.fits, i.selector.fits, fits_constraints h, fits_uint16 i.priority,
    i.payload.fits, trivial⟩

/-! ## Records and reports -/

instance : LawfulWire KeyStatus := .ofRecord (fun _ => rfl) (fun _ _ => rfl)

@[simp] theorem KeyStatus.fits (e : KeyStatus) : (toJson e).Fits (n + 4) :=
  fits_record rfl (by simp [MembersFit])

instance : LawfulWire ServiceRecord := .ofRecord (fun _ => rfl) (fun _ _ => rfl)

@[simp] theorem ServiceRecord.fits (r : ServiceRecord) : (toJson r).Fits (n + 6) :=
  fits_record rfl (by simp [MembersFit])

instance : LawfulWire Validation := ⟨fun _ v => by cases v <;> rfl, fun _ => rfl⟩

@[simp] theorem Validation.fits (v : Validation) : (toJson v).Fits n := trivial

instance : LawfulWire Outcome where
  ofJson?_toJson _ o := by
    change Outcome.decode? o.encode = some o
    cases o <;> refine tagged?_obj ?_ ?_ ?_ <;>
      simp -implicitDefEqProofs [membersReadable, take, lookup]
  isReadable_toJson o := by
    change o.encode.isReadable = true
    cases o <;> simp [Outcome.encode, isReadable, membersReadable]

@[simp] theorem Outcome.fits (o : Outcome) : (toJson o).Fits (n + 3) := by
  cases o <;> exact fits_record rfl (by simp [MembersFit, Fits])

instance : LawfulWire Report := .ofRecord (fun _ => rfl) (fun _ _ => rfl)

@[simp] theorem Report.fits (r : Report) : (toJson r).Fits (n + 5) :=
  fits_record rfl (by simp [MembersFit])

/-! ## Settings -/

instance : LawfulWire LogFormat := ⟨fun _ f => by cases f <;> rfl, fun _ => rfl⟩

@[simp] theorem LogFormat.fits (f : LogFormat) : (toJson f).Fits n := trivial

instance : LawfulWire DecompositionSettings := .ofRecord (fun _ => rfl) (fun _ _ => rfl)

@[simp] theorem DecompositionSettings.fits (s : DecompositionSettings) : (toJson s).Fits (n + 1) :=
  fits_record rfl (by simp [MembersFit])

instance : LawfulWire StoreSettings := .ofRecord (fun _ => rfl) (fun _ _ => rfl)

@[simp] theorem StoreSettings.fits (s : StoreSettings) : (toJson s).Fits (n + 1) :=
  fits_record rfl (by simp [MembersFit])

instance : LawfulWire RecoverySettings := .ofRecord (fun _ => rfl) (fun _ _ => rfl)

@[simp] theorem RecoverySettings.fits (s : RecoverySettings) : (toJson s).Fits (n + 1) :=
  fits_record rfl (by simp [MembersFit])


namespace ComponentLevels

theorem setEntry_last {name level : String} {es : List (String × String)}
    (h : ∀ e ∈ es, e.1 < name) : setEntry name level es = es ++ [(name, level)] := by
  induction es with
  | nil => rfl
  | cons e es ih =>
    have hlt := h e (.head _)
    have hnot : ¬ name < e.1 := fun hgt => String.lt_irrefl _ (String.lt_trans hgt hlt)
    have hne : name ≠ e.1 := fun heq => String.lt_irrefl e.1 (heq ▸ hlt)
    rw [setEntry, if_neg hnot, if_neg hne, ih fun f hf => h f (.tail _ hf)]
    rfl

/-- Levels that are set in the order of their names stay in it. -/
theorem entries_foldl_insert {es : List (String × String)} {front : ComponentLevels}
    (h : (front.entries ++ es).Pairwise fun a b => a.1 < b.1) :
    (es.foldl (fun ls (name, level) => ls.insert name level) front).entries =
      front.entries ++ es := by
  induction es generalizing front with
  | nil => simp
  | cons e es ih =>
    have hinsert : (front.insert e.1 e.2).entries = front.entries ++ [e] :=
      setEntry_last fun f hf => (List.pairwise_append.mp h).2.2 f hf e (.head _)
    rw [List.foldl_cons, ih (by rw [hinsert]; simpa using h), hinsert]
    simp

theorem ofList_entries (ls : ComponentLevels) : ofList ls.entries = ls := by
  have hentries : (ofList ls.entries).entries = ls.entries :=
    @entries_foldl_insert ls.entries empty (by simpa [empty] using ls.sorted)
  cases ls with
  | mk es hsorted => exact ComponentLevels.mk.injEq .. |>.mpr hentries

theorem mapM_readEntry? (es : List (String × String)) :
    (es.map fun (name, level) => (name, toJson level)).mapM readEntry? = some es := by
  induction es with
  | nil => rfl
  | cons e es ih =>
    rw [List.map_cons, List.mapM_cons, ih]
    rfl

end ComponentLevels

instance : LawfulWire ComponentLevels where
  ofJson?_toJson _ ls := by
    change Option.map ComponentLevels.ofList (List.mapM ComponentLevels.readEntry? _) = some ls
    rw [ComponentLevels.mapM_readEntry?, Option.map_some, ls.ofList_entries]
  isReadable_toJson ls := by
    change membersReadable (ls.entries.map fun (name, level) => (name, toJson level)) = true
    induction ls.entries with
    | nil => rfl
    | cons e es ih => exact ih

@[simp] theorem ComponentLevels.fits (ls : ComponentLevels) : (toJson ls).Fits (n + 1) := by
  refine fits_record rfl ?_
  induction ls.entries with
  | nil => trivial
  | cons e es ih => exact ⟨trivial, ih⟩

instance : LawfulWire (Option ComponentLevels) := .ofOption nofun

instance : LawfulWire LoggingSettings :=
  .ofRecord (fun _ => rfl) (fun _ _ => rfl)
    (fun d s => by
      obtain ⟨level, format, _ | levels⟩ := s
      · simp -implicitDefEqProofs [take, lookup]
      · have hlevels : Wire.ofJson? d (toJson levels) = some (some levels) :=
          LawfulWire.ofJson?_toJson d (some levels)
        simp -implicitDefEqProofs [take, lookup, hlevels])
    (fun s => by
      obtain ⟨level, format, _ | levels⟩ := s <;> simp [membersReadable])

@[simp] theorem LoggingSettings.fits (s : LoggingSettings) : (toJson s).Fits (n + 2) := by
  obtain ⟨level, format, _ | levels⟩ := s <;> exact fits_record rfl (by simp [MembersFit])

instance : LawfulWire Settings := .ofRecord (fun _ => rfl) (fun _ _ => rfl)

@[simp] theorem Settings.fits (s : Settings) : (toJson s).Fits (n + 3) :=
  fits_record rfl (by simp [MembersFit])

end IntentPlane
