import IntentPlane.Proofs.Json.Finite
import IntentPlane.Proofs.Wire.Types

/-!
# Texts of requests, intents, records and settings

A value is written as the compact text of its wire form and read from any text. What is read names
finite bandwidths, since texts do (`Json.parse?_finite`), so it has a text of its own, from which it
is read again (`RoundTrips`).
-/

namespace IntentPlane

open Json (Dialect)

open Json.Fields

/-! ## What finite values are read as -/

/-- An integer is read as a finite double too. -/
theorem Wire.isFinite_of_float? {j : Json} {x : Float} (hj : j.IsFinite) (h : float? j = some x) :
    Double.isFinite x = true := by
  cases j with
  | int n =>
    cases h
    rw [Double.ofInt]
    cases hx : Double.ofDecimal? (n < 0) n.natAbs 0 with
    | none => exact Double.isFinite_zero
    | some y => exact Double.isFinite_of_ofDecimal? hx
  | float y =>
    cases h
    exact hj
  | _ => cases h

theorem Constraint.isFinite_of_plain? {kind : String} {c : Constraint}
    (h : plain? kind = some c) : c.IsFinite := by
  unfold plain? at h
  split at h <;> cases h <;> trivial

theorem Constraint.decodes_isFinite :
    Decodes Json.IsFinite (@Wire.ofJson? Constraint _) Constraint.IsFinite := by
  have hkind {d : Dialect} {kind : String} {value? : Option Json} {c : Constraint}
      (hvalue : ∀ j ∈ value?, j.IsFinite) (h : ofKind? d kind value? = some c) : c.IsFinite := by
    unfold ofKind? at h
    split at h <;> simp only [Option.bind_eq_bind, Option.bind_eq_some_iff] at h
    · obtain ⟨j, rfl, x, hx, h⟩ := h
      cases h
      exact Wire.isFinite_of_float? (hvalue j rfl) hx
    · obtain ⟨j, rfl, x, hx, h⟩ := h
      cases h
      trivial
    · obtain ⟨plain, hplain, h⟩ := h
      have hc : c = plain := by
        split at h
        · exact (Option.some.inj h).symm
        · exact (Option.some.inj h).symm
        · cases h
      rw [hc]
      exact isFinite_of_plain? hplain
  have hreader : Gives Json.IsFinite reader fun p => ∀ j ∈ p.2, j.IsFinite :=
    gives_bind (gives_required fun _ _ _ _ _ => trivial) fun (_ : String) (_ : True) =>
      gives_bind gives_take fun _ hvalue => gives_pure hvalue
  intro d j c hj hread
  change decode? d j = some c at hread
  unfold decode? at hread
  split at hread
  · obtain ⟨⟨kind, value?⟩, hmembers, hc⟩ := Option.bind_eq_some_iff.mp hread
    exact hkind (hreader.of_read (fields_all hj rfl) hmembers) hc
  · obtain ⟨kind, -, hc⟩ := Option.bind_eq_some_iff.mp hread
    exact hkind (by simpa using hj.2.1) hc
  · cases hread

theorem Subject.decodes_isFinite :
    Decodes Json.IsFinite (@Wire.ofJson? Subject _) Subject.IsFinite :=
  decodes_record <| gives_bind gives_any fun _ _ =>
    gives_bind (gives_fieldD (decodes_list Constraint.decodes_isFinite) (by simp)) fun _ hcs =>
      gives_pure hcs

theorem Pair.gives_isFinite : Gives Json.IsFinite Pair.reader Pair.IsFinite :=
  gives_bind gives_anyD fun _ _ =>
    gives_bind (gives_field Subject.decodes_isFinite) fun _ hsource =>
      gives_bind (gives_field Subject.decodes_isFinite) fun _ hdestination =>
        gives_pure ⟨hsource, hdestination⟩

theorem Mesh.gives_isFinite : Gives Json.IsFinite Mesh.reader Mesh.IsFinite :=
  gives_bind (gives_field (decodes_list Subject.decodes_isFinite)) fun _ hs => gives_pure hs

theorem Action.decodes_isFinite :
    Decodes Json.IsFinite (@Wire.ofJson? Action _) Action.IsFinite := by
  refine decodes_tagged fun kind => ?_
  split
  · exact gives_map Pair.gives_isFinite fun _ h => h
  · exact gives_map Pair.gives_isFinite fun _ h => h
  · exact gives_map Mesh.gives_isFinite fun _ h => h
  · exact fun _ _ _ _ _ hread => by cases hread

theorem ServiceRequest.decodes_isFinite :
    Decodes Json.IsFinite (@Wire.ofJson? ServiceRequest _) ServiceRequest.IsFinite :=
  decodes_record <| gives_bind (gives_field Action.decodes_isFinite) fun _ haction =>
    gives_bind (gives_fieldD (decodes_list Constraint.decodes_isFinite) (by simp)) fun _ hcs =>
      gives_bind gives_anyD fun _ _ => gives_pure ⟨haction, hcs⟩

theorem Intent.decodes_isFinite : Decodes Json.IsFinite (@Wire.ofJson? Intent _) Intent.IsFinite :=
  decodes_record <| gives_bind gives_any fun _ _ => gives_bind gives_any fun _ _ =>
    gives_bind (gives_field (decodes_list Constraint.decodes_isFinite)) fun _ hcs =>
      gives_bind gives_any fun _ _ => gives_bind gives_any fun _ _ => gives_pure hcs

/-! ## Texts -/

namespace Wire

variable {α : Type} [Wire α]

/-- The text that a value is written as. -/
def text (a : α) : String := Json.render (toJson a)

/-- The value that a text is read as. -/
def ofText? (α : Type) [Wire α] (text : String) : Option α := (Json.parse? text).bind (Json.as? α)

/-- The values with the property have texts of their own: each is read back from its text, so no two
have one text. Whatever is read from any text is one of these values. -/
structure RoundTrips (α : Type) [Wire α] (P : α → Prop) : Prop where
  ofText?_text (a : α) : P a → ofText? α (text a) = some a
  text_inj (a b : α) : P a → P b → text a = text b → a = b
  again (t : String) (a : α) : ofText? α t = some a → P a ∧ ofText? α (text a) = some a

theorem RoundTrips.of_fits [LawfulWire α] {P : α → Prop} (hfits : ∀ a, P a → (toJson a).Fits 127)
    (hfinite : Decodes Json.IsFinite (@Wire.ofJson? α _) P) : RoundTrips α P := by
  have hback (a : α) (ha : P a) : ofText? α (text a) = some a := by
    rw [ofText?, text, Json.parse?_render (hfits a ha)]
    exact LawfulWire.ofJson?_toJson _ a
  refine ⟨hback, fun a b ha hb htext => ?_, fun t a ht => ?_⟩
  · have hread := hback a ha
    rw [htext, hback b hb] at hread
    exact (Option.some.inj hread).symm
  · obtain ⟨j, hj, hread⟩ := Option.bind_eq_some_iff.mp ht
    have ha := hfinite _ j a (Json.parse?_finite hj) hread
    exact ⟨ha, hback a ha⟩

/-- Where there are no bandwidths, every value has a text of its own. -/
theorem RoundTrips.of_room [LawfulWire α] (hfits : ∀ a : α, (toJson a).Fits 127) :
    RoundTrips α fun _ => True :=
  of_fits (fun a _ => hfits a) fun _ _ _ _ _ => trivial

/-- Requests and intents with finite bandwidths, and all the records, links, endpoints, paths,
reports and settings, are read back from their texts as they were. -/
theorem roundTrips :
    RoundTrips ServiceRequest ServiceRequest.IsFinite ∧ RoundTrips Intent Intent.IsFinite ∧
    RoundTrips ServiceRecord (fun _ => True) ∧ RoundTrips KeyStatus (fun _ => True) ∧
    RoundTrips CandidateLink (fun _ => True) ∧ RoundTrips Endpoint (fun _ => True) ∧
    RoundTrips NetworkPath (fun _ => True) ∧ RoundTrips Report (fun _ => True) ∧
    RoundTrips Settings (fun _ => True) :=
  ⟨.of_fits (fun _ h => h.fits) ServiceRequest.decodes_isFinite,
    .of_fits (fun _ h => h.fits) Intent.decodes_isFinite,
    .of_room ServiceRecord.fits, .of_room KeyStatus.fits, .of_room CandidateLink.fits,
    .of_room Endpoint.fits, .of_room NetworkPath.fits, .of_room Report.fits,
    .of_room Settings.fits⟩

/-- A mesh that asks for a gigabit per second at one of its ends. -/
def gigabitMesh : ServiceRequest where
  action := .mesh ⟨[⟨⟨"a"⟩, [.bandwidth (Float.ofBits 0x41CDCD6500000000)]⟩, ⟨⟨"b"⟩, []⟩]⟩
  constraints := [.encryption]
  negotiable := true

theorem gigabitMesh_roundTrips :
    gigabitMesh.IsFinite ∧ ofText? ServiceRequest (text gigabitMesh) = some gigabitMesh := by
  have hfinite : gigabitMesh.IsFinite := by
    have hrate : Double.isFinite (Float.ofBits 0x41CDCD6500000000) = true := by decide +kernel
    simp [gigabitMesh, ServiceRequest.IsFinite, Action.IsFinite, Mesh.IsFinite, Subject.IsFinite,
      Constraint.IsFinite, hrate]
  exact ⟨hfinite, roundTrips.1.ofText?_text gigabitMesh hfinite⟩

end Wire

end IntentPlane
