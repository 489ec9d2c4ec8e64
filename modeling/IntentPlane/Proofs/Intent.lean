import IntentPlane.Intent

/-!
# Intents built from links

What an intent built from a candidate link looks like, when there is one, and what clearing its
paths leaves of an intent.
-/

namespace IntentPlane

/-- Whether both ends of a link have an address that an intent can use. -/
def CandidateLink.isUsable (link : CandidateLink) : Bool :=
  link.src.isAddressable && link.dst.isAddressable

namespace Intent

variable {key : IntentKey} {link : CandidateLink} {model : IntentModel} {cs : List Constraint}
  {priority : UInt16} {i : Intent}

theorem payload?_eq_some {payload : Payload} (h : payload? model link = some payload) :
    (∃ one two, payload = .connectivity one two) ∨
      ∃ src dst, payload = .pathAware ⟨src, dst, none, none, false⟩ := by
  obtain ⟨one, -, h⟩ := Option.bind_eq_some_iff.mp h
  obtain ⟨two, -, h⟩ := Option.bind_eq_some_iff.mp h
  cases model with
  | legacy =>
    cases h
    exact .inl ⟨_, _, rfl⟩
  | aciPp =>
    cases h
    exact .inr ⟨_, _, rfl⟩

theorem ofLink?_eq_some (h : ofLink? key link model cs priority = some i) :
    ∃ payload, payload? model link = some payload ∧
      i = ⟨key, ⟨link.src.net?, link.dst.net?⟩, cs, priority, payload⟩ := by
  obtain ⟨payload, hp, h⟩ := Option.bind_eq_some_iff.mp h
  cases h
  exact ⟨payload, hp, rfl⟩

theorem key_of_ofLink? (h : ofLink? key link model cs priority = some i) : i.key = key := by
  obtain ⟨-, -, rfl⟩ := ofLink?_eq_some h
  rfl

/-- A link makes an intent just if both its ends can be used. -/
theorem isSome_ofLink? : (ofLink? key link model cs priority).isSome = link.isUsable := by
  simp only [ofLink?, payload?, CandidateLink.isUsable, Endpoint.isAddressable]
  cases link.src.hostId? <;> cases link.dst.hostId? <;> cases model <;> rfl

/-- Nothing is computed in a new intent. -/
theorem forRecomputation_of_ofLink? (h : ofLink? key link model cs priority = some i) :
    i.forRecomputation = i := by
  obtain ⟨payload, hp, rfl⟩ := ofLink?_eq_some h
  rcases payload?_eq_some hp with ⟨one, two, rfl⟩ | ⟨src, dst, rfl⟩
  · rfl
  · rfl

theorem model_of_payload? {i : Intent} (h : payload? model link = some i.payload) :
    i.model = model := by
  obtain ⟨one, -, h⟩ := Option.bind_eq_some_iff.mp h
  obtain ⟨two, -, h⟩ := Option.bind_eq_some_iff.mp h
  rw [Intent.model]
  cases model with
  | legacy | aciPp => rw [← Option.some.inj h]

/-- Rebuilding over another link gives the intent that would have been built from it. -/
theorem rebuildOver?_of_ofLink? (h : ofLink? key link model cs priority = some i)
    (other : CandidateLink) : i.rebuildOver? other = ofLink? key other model cs priority := by
  obtain ⟨payload, hp, rfl⟩ := ofLink?_eq_some h
  rw [rebuildOver?, model_of_payload? hp]

@[simp] theorem key_forRecomputation (i : Intent) : i.forRecomputation.key = i.key := by
  rw [forRecomputation]
  split <;> rfl

@[simp] theorem forRecomputation_forRecomputation (i : Intent) :
    i.forRecomputation.forRecomputation = i.forRecomputation := by
  obtain ⟨key, selector, cs, priority, payload⟩ := i
  cases payload <;> rfl

@[simp] theorem key_withPaths (i : Intent) (path backup : Option NetworkPath) (calculated : Bool) :
    (i.withPaths path backup calculated).key = i.key := by
  rw [withPaths]
  split <;> rfl

/-- Paths do not count when an intent is rebuilt. -/
@[simp] theorem rebuildOver?_withPaths (i : Intent) (path backup : Option NetworkPath)
    (calculated : Bool) (other : CandidateLink) :
    (i.withPaths path backup calculated).rebuildOver? other = i.rebuildOver? other := by
  obtain ⟨key, selector, cs, priority, payload⟩ := i
  cases payload <;> rfl

/-- Paths are all that is cleared. -/
@[simp] theorem forRecomputation_withPaths (i : Intent) (path backup : Option NetworkPath)
    (calculated : Bool) :
    (i.withPaths path backup calculated).forRecomputation = i.forRecomputation := by
  obtain ⟨key, selector, cs, priority, payload⟩ := i
  cases payload <;> rfl

end Intent

end IntentPlane
