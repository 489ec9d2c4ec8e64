import IntentPlane.Wire.Basic

/-!
# Reading members

What a reader of members does, member by member: a member is taken if it is given, once, and then
decoded. Readers run one after the other on what is left.
-/

namespace IntentPlane.Json

namespace Fields

variable {α β : Type} {d : Dialect} {fields : Fields} {members : List (String × Json)}
  {name : String}

@[simp] theorem pure_run (a : α) : (pure a : Reader α) d fields = some (a, fields) := rfl

@[simp] theorem bind_run (reader : Reader α) (f : α → Reader β) :
    (reader >>= f) d fields = (reader d fields).bind fun x => f x.1 d x.2 := rfl

@[simp] theorem map_run (f : α → β) (reader : Reader α) :
    (f <$> reader) d fields = (reader d fields).map fun x => (f x.1, x.2) := by
  change (reader d fields).bind (fun x => some (f x.1, x.2)) = _
  cases reader d fields <;> rfl

/-- Rewriting leaves the later steps alone until the first one is done. -/
theorem bind_congr_left {x y : Option α} {f : α → Option β} (h : x = y) : x.bind f = y.bind f :=
  h ▸ rfl

theorem required_run {decode : Dialect → Json → Option α} :
    required name decode d fields =
      (take name fields).bind fun x => (x.1.bind (decode d)).map (·, x.2) := by
  change ((take name fields).bind fun x => (x.1.bind fun j => some (j, x.2)).bind fun y =>
    (decode d y.1).bind fun a => some (a, y.2)) = _
  congr 1
  funext x
  rcases x with ⟨_ | j, rest⟩
  · rfl
  · cases hj : decode d j <;> simp [hj]

theorem defaulted_run {decode : Dialect → Json → Option α} {default : α} :
    defaulted name default decode d fields =
      (take name fields).bind fun x => (x.1.elim (some default) (decode d)).map (·, x.2) := by
  change ((take name fields).bind _) = _
  congr 1
  funext x
  rcases x with ⟨_ | j, rest⟩
  · rfl
  · change (decode d j).bind (fun a => some (a, rest)) = _
    cases hj : decode d j <;> simp [hj]

@[simp] theorem take_run :
    (liftM (take name) : Reader (Option Json)) d fields = take name fields := rfl

theorem read_named {reader : Reader α} {a : α}
    (h : reader d (.named members) = some (a, .named members)) :
    read reader d (.named members) = some a := by
  have hfinished : (guard (d.longArrays || (named members).finished) : Option Unit) = some () :=
    if_pos (Bool.or_true _)
  change ((reader d (.named members)).bind fun x =>
    (guard (d.longArrays || x.2.finished) : Option Unit).bind fun _ => some x.1) = some a
  rw [h, Option.bind_some, hfinished, Option.bind_some]

variable [Wire α]

@[simp] theorem field_run : (field name : Reader α) d fields =
    (take name fields).bind fun x => (x.1.bind (Wire.ofJson? d)).map (·, x.2) := required_run

@[simp] theorem fieldD_run {default : α} : fieldD name default d fields =
    (take name fields).bind fun x => (x.1.elim (some default) (Wire.ofJson? d)).map (·, x.2) :=
  defaulted_run

@[simp] theorem field?_run : (field? name : Reader (Option α)) d (.named members) =
    (take name (.named members)).bind fun x =>
      (x.1.elim (some none) (Wire.ofJson? d)).map (·, x.2) := defaulted_run

end Fields

theorem record?_obj {α : Type} (reader : Fields.Reader α) (d : Dialect)
    (members : List (String × Json)) :
    record? reader d (.obj members) = Fields.read reader d (.named members) := rfl

end IntentPlane.Json
