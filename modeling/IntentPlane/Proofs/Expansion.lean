import IntentPlane.Decomposition.Basic
import Mathlib.Data.List.FinRange
import Mathlib.Data.List.Nodup
import Mathlib.Data.Nat.Choose.Basic
import Mathlib.Algebra.Group.Nat.Even

/-!
# What actions are expanded into

A mesh is expanded into legs between the subjects at every two positions. Subjects may be alike, so
it is positions that count: `positionPairs` lists every two of them in lexicographic order, and the
pairs that `pairsOf` makes of a list stand at these positions (`pairsOf_eq_map`). Without the
bidirectional mode each of them goes both ways. The pairs are numbered from where the tracker stands
(`Pair.ids_numbered`), so however many expansions share a tracker, no number is given out twice
(`ids_expansions`).
-/

namespace IntentPlane

variable {n : Nat}

/-! ## Positions -/

/-- Every two positions, the first before the second, in lexicographic order. -/
def positionPairs (n : Nat) : List (Fin n × Fin n) :=
  (List.finRange n).flatMap fun i => ((List.finRange n).filter (i < ·)).map (i, ·)

/-- Each pair, and after it the same pair the other way round. -/
def bothWays (pairs : List (α × α)) : List (α × α) := pairs.flatMap fun p => [p, p.swap]

theorem mem_positionPairs {p : Fin n × Fin n} : p ∈ positionPairs n ↔ p.1 < p.2 := by
  obtain ⟨i, j⟩ := p
  simp [positionPairs, eq_comm]

theorem sorted_positionPairs (n : Nat) :
    (positionPairs n).Pairwise (Prod.Lex (· < ·) (· < ·)) := by
  refine List.pairwise_flatMap.mpr ⟨fun i _ => ?_, ?_⟩
  · refine List.pairwise_map.mpr (((List.pairwise_lt_finRange n).filter _).imp ?_)
    exact fun hlt => .right i hlt
  · refine (List.pairwise_lt_finRange n).imp fun {i k} hlt p hp q hq => ?_
    obtain ⟨j, -, rfl⟩ := List.mem_map.mp hp
    obtain ⟨l, -, rfl⟩ := List.mem_map.mp hq
    exact .left j l hlt

theorem positionPairs_succ (n : Nat) :
    positionPairs (n + 1) =
      (List.finRange n).map (fun j => (0, j.succ)) ++
        (positionPairs n).map (Prod.map Fin.succ Fin.succ) := by
  have hfirst : (List.finRange (n + 1)).filter ((0 : Fin (n + 1)) < ·) =
      (List.finRange n).map Fin.succ := by
    rw [List.finRange_succ, List.filter_cons_of_neg (by simp)]
    exact List.filter_eq_self.mpr (by simp [Fin.pos_iff_ne_zero])
  have hrest (i : Fin n) : (List.finRange (n + 1)).filter (i.succ < ·) =
      ((List.finRange n).filter (i < ·)).map Fin.succ := by
    simp [List.finRange_succ, List.filter_map, Function.comp_def]
  rw [positionPairs]
  conv_lhs => rw [List.finRange_succ (n := n)]
  rw [List.flatMap_cons, ← List.finRange_succ, hfirst, List.flatMap_map, positionPairs,
    List.map_flatMap]
  simp only [hrest, List.map_map, Function.comp_def]
  rfl

/-- The pairs of a list are those of its items at every two positions. -/
theorem pairsOf_eq_map (as : List α) :
    pairsOf as = (positionPairs as.length).map fun p => (as[p.1], as[p.2]) := by
  induction as with
  | nil => rfl
  | cons a as ih =>
    have hitems : as.map (a, ·) = (List.finRange as.length).map fun j => (a, as[j]) := by
      conv_lhs => rw [← List.map_getElem_finRange as, List.map_map]
      rfl
    change _ = (positionPairs (as.length + 1)).map _
    rw [pairsOf, ih, positionPairs_succ, List.map_append, List.map_map, List.map_map, hitems]
    rfl

theorem length_pairsOf (as : List α) :
    (pairsOf as).length = as.length * (as.length - 1) / 2 := by
  induction as with
  | nil => simp [pairsOf]
  | cons a as ih =>
    rw [pairsOf, List.length_append, List.length_map, ih, List.length_cons, Nat.triangle_succ,
      Nat.add_comm]

theorem length_positionPairs (n : Nat) : (positionPairs n).length = n * (n - 1) / 2 := by
  have h := length_pairsOf (List.finRange n)
  rwa [pairsOf_eq_map, List.length_map, List.length_finRange] at h

theorem length_bothWays (pairs : List (α × α)) : (bothWays pairs).length = 2 * pairs.length := by
  simp [bothWays, List.length_flatMap, Nat.mul_comm]

theorem length_bothWays_positionPairs (n : Nat) :
    (bothWays (positionPairs n)).length = n * (n - 1) := by
  rw [length_bothWays, length_positionPairs, Nat.two_mul_div_two_of_even n.even_mul_pred_self]

theorem mem_bothWays_positionPairs {p : Fin n × Fin n} :
    p ∈ bothWays (positionPairs n) ↔ p.1 ≠ p.2 := by
  simp only [bothWays, List.mem_flatMap, mem_positionPairs, List.mem_cons, List.not_mem_nil,
    or_false]
  constructor
  · rintro ⟨q, hlt, rfl | rfl⟩
    · exact hlt.ne
    · exact hlt.ne'
  · intro hne
    rcases lt_or_gt_of_ne hne with hlt | hlt
    · exact ⟨p, hlt, .inl rfl⟩
    · exact ⟨p.swap, hlt, .inr p.swap_swap.symm⟩

/-- No two positions occur twice the same way round. -/
theorem nodup_bothWays_positionPairs (n : Nat) : (bothWays (positionPairs n)).Nodup := by
  have hnodup : (positionPairs n).Nodup :=
    (sorted_positionPairs n).imp fun hlt => by
      rintro rfl
      rcases Prod.lex_iff.mp hlt with hlt | ⟨-, hlt⟩ <;> exact lt_irrefl _ hlt
  refine List.nodup_flatMap.mpr
    ⟨fun p hp => ?_, hnodup.pairwise_of_forall_ne fun p hp q hq hne => ?_⟩
  · have hlt := mem_positionPairs.mp hp
    simp [Prod.ext_iff, hlt.ne]
  · have hlt := mem_positionPairs.mp hp
    have hlt' := mem_positionPairs.mp hq
    intro r hr hr'
    simp only [List.mem_cons, List.not_mem_nil, or_false] at hr hr'
    rcases hr with rfl | rfl <;> rcases hr' with rfl | heq
    · exact hne rfl
    · rw [heq] at hlt
      exact lt_asymm hlt hlt'
    · exact lt_asymm hlt hlt'
    · exact hne (Prod.swap_injective heq)

/-- The positions of the subjects that the legs of a mesh connect. -/
def legPositions (bidirectional : Bool) (n : Nat) : List (Fin n × Fin n) :=
  if bidirectional then positionPairs n else bothWays (positionPairs n)

/-! ## Numbers -/

namespace Pair

variable {t : Tracker}

theorem numbered_cons (ends : Subject × Subject) (more : List (Subject × Subject)) (t : Tracker) :
    numbered (ends :: more) t =
      (⟨t.assigned + 1, ends.1, ends.2⟩ :: (numbered more t.nextId.2).1,
        (numbered more t.nextId.2).2) := rfl

theorem ends_numbered (pairs : List (Subject × Subject)) (t : Tracker) :
    (numbered pairs t).1.map (fun p => (p.source, p.destination)) = pairs := by
  induction pairs generalizing t with
  | nil => rfl
  | cons ends more ih => rw [numbered_cons, List.map_cons, ih]

theorem issues_numbered (pairs : List (Subject × Subject)) (t : Tracker) :
    (numbered pairs t).2.issues = t.issues := by
  induction pairs generalizing t with
  | nil => rfl
  | cons ends more ih => exact ih t.nextId.2

/-- The number after the last that was assigned, where there is one left. -/
theorem toNat_nextId (h : t.assigned.toNat + 1 < UInt32.size) :
    t.nextId.2.assigned.toNat = t.assigned.toNat + 1 := by
  rw [Tracker.nextId, UInt32.toNat_add, UInt32.toNat_one, Nat.mod_eq_of_lt h]

/-- The numbers are consecutive, and the tracker stands at the last of them. -/
theorem ids_numbered (pairs : List (Subject × Subject))
    (h : t.assigned.toNat + pairs.length < UInt32.size) :
    (numbered pairs t).1.map (·.id.toNat) = List.range' (t.assigned.toNat + 1) pairs.length ∧
      (numbered pairs t).2.assigned.toNat = t.assigned.toNat + pairs.length := by
  induction pairs generalizing t with
  | nil => exact ⟨rfl, rfl⟩
  | cons ends more ih =>
    rw [List.length_cons] at h
    have hnext : t.nextId.2.assigned.toNat = t.assigned.toNat + 1 := toNat_nextId (by omega)
    obtain ⟨hids, hlast⟩ := ih (t := t.nextId.2) (by omega)
    rw [hnext] at hids hlast
    refine ⟨?_, ?_⟩
    · rw [numbered_cons, List.map_cons, hids, List.length_cons, List.range'_succ]
      exact congrArg (· :: _) hnext
    · rw [numbered_cons, hlast, List.length_cons]
      omega

end Pair

namespace Action

/-- The pairs that get numbers of their own when an action is expanded: those of a mesh. -/
def numberedPairs (bidirectional : Bool) : Action → Tracker → List Pair × Tracker
  | connection _, t | path _, t => ([], t)
  | mesh m, t => if bidirectional then m.connections t else m.paths t

/-- How many numbers an action needs. -/
def numbersNeeded (bidirectional : Bool) : Action → Nat
  | connection _ | path _ => 0
  | mesh m => (legPositions bidirectional m.subjects.length).length

theorem legs_mesh (b : Bool) (m : Mesh) (t : Tracker) :
    (mesh m).legs b t =
      (((mesh m).numberedPairs b t).1.map (.ofPair b), ((mesh m).numberedPairs b t).2) := rfl

theorem numberedPairs_mesh (b : Bool) (m : Mesh) (t : Tracker) :
    (mesh m).numberedPairs b t =
      Pair.numbered ((legPositions b m.subjects.length).map fun p =>
        (m.subjects[p.1], m.subjects[p.2])) t := by
  cases b with
  | true => simp only [numberedPairs, Mesh.connections, pairsOf_eq_map, legPositions, ↓reduceIte]
  | false =>
    simp [numberedPairs, Mesh.paths, pairsOf_eq_map, legPositions, bothWays, List.flatMap_map,
      List.map_flatMap]

/-- The legs of a mesh, subject by subject position. -/
theorem legs_mesh_eq (b : Bool) (m : Mesh) (t : Tracker) :
    ((mesh m).legs b t).1 =
      (legPositions b m.subjects.length).map fun p => ⟨m.subjects[p.1], m.subjects[p.2], b⟩ := by
  have hleg : Leg.ofPair b = (fun ends => ⟨ends.1, ends.2, b⟩) ∘
      fun p : Pair => (p.source, p.destination) := rfl
  rw [legs_mesh, hleg, ← List.map_map, numberedPairs_mesh, Pair.ends_numbered, List.map_map]
  rfl

theorem tracker_legs (b : Bool) (a : Action) (t : Tracker) :
    (a.legs b t).2 = (a.numberedPairs b t).2 := by
  cases a <;> rfl

theorem issues_legs (b : Bool) (a : Action) (t : Tracker) :
    (a.legs b t).2.issues = t.issues := by
  cases a with
  | connection | path => rfl
  | mesh m => rw [tracker_legs, numberedPairs_mesh, Pair.issues_numbered]

theorem ids_numberedPairs {b : Bool} {a : Action} {t : Tracker}
    (h : t.assigned.toNat + a.numbersNeeded b < UInt32.size) :
    (a.numberedPairs b t).1.map (·.id.toNat) =
        List.range' (t.assigned.toNat + 1) (a.numbersNeeded b) ∧
      (a.legs b t).2.assigned.toNat = t.assigned.toNat + a.numbersNeeded b := by
  cases a with
  | connection | path => exact ⟨rfl, rfl⟩
  | mesh m =>
    rw [tracker_legs, numberedPairs_mesh, numbersNeeded]
    have hids := @Pair.ids_numbered t
      ((legPositions b m.subjects.length).map fun p => (m.subjects[p.1], m.subjects[p.2]))
    rw [List.length_map] at hids
    exact hids h

/-- In unidirectional mode each leg of a connection or a mesh is followed by its reverse. -/
theorem legs_unidirectional {a : Action} (h : ∀ p, a ≠ path p) (t t' : Tracker) :
    (a.legs false t).1 = (a.legs true t').1.flatMap fun l =>
      [{ l with bidirectional := false }, { l.reverse with bidirectional := false }] := by
  cases a with
  | connection p => rfl
  | path p => exact absurd rfl (h p)
  | mesh m =>
    rw [legs_mesh_eq, legs_mesh_eq, List.flatMap_map]
    simp only [legPositions, bothWays, Bool.false_eq_true, ↓reduceIte, List.map_flatMap]
    rfl

theorem bidirectional_of_mem_legs {b : Bool} {a : Action} {t : Tracker} {l : Leg}
    (h : l ∈ (a.legs b t).1) : l.bidirectional = b := by
  cases a with
  | connection p =>
    cases b with
    | true => rw [List.mem_singleton.mp h]; rfl
    | false =>
      rcases List.mem_cons.mp h with rfl | h
      · rfl
      · rw [List.mem_singleton.mp h]; rfl
  | path p => rw [List.mem_singleton.mp h]; rfl
  | mesh m =>
    rw [legs_mesh_eq] at h
    obtain ⟨p, -, rfl⟩ := List.mem_map.mp h
    rfl

end Action

/-- Expands one action after the other, all with one tracker, and keeps the numbered pairs. -/
def expansions : List (DecompositionSettings × Action) → Tracker → List Pair × Tracker
  | [], t => ([], t)
  | (c, a) :: rest, t =>
    let (pairs, t') := expansions rest (a.legs c.bidirectional t).2
    ((a.numberedPairs c.bidirectional t).1 ++ pairs, t')

/-- How many numbers expanding all of them needs. -/
def numbersNeeded : List (DecompositionSettings × Action) → Nat
  | [] => 0
  | (c, a) :: rest => a.numbersNeeded c.bidirectional + numbersNeeded rest

theorem ids_expansions {actions : List (DecompositionSettings × Action)} {t : Tracker}
    (h : t.assigned.toNat + numbersNeeded actions < UInt32.size) :
    (expansions actions t).1.map (·.id.toNat) =
        List.range' (t.assigned.toNat + 1) (numbersNeeded actions) ∧
      (expansions actions t).2.assigned.toNat = t.assigned.toNat + numbersNeeded actions := by
  induction actions generalizing t with
  | nil => exact ⟨rfl, rfl⟩
  | cons e rest ih =>
    obtain ⟨c, a⟩ := e
    rw [numbersNeeded] at h ⊢
    obtain ⟨hids, hlast⟩ :=
      Action.ids_numberedPairs (b := c.bidirectional) (a := a) (t := t) (by omega)
    obtain ⟨hrest, hend⟩ := ih (t := (a.legs c.bidirectional t).2) (by omega)
    rw [hlast] at hrest hend
    refine ⟨?_, hend.trans (Nat.add_assoc ..)⟩
    rw [expansions, List.map_append, hids, hrest, Nat.add_right_comm, List.range'_append_1]

theorem issues_expansions (actions : List (DecompositionSettings × Action)) (t : Tracker) :
    (expansions actions t).2.issues = t.issues := by
  induction actions generalizing t with
  | nil => rfl
  | cons e rest ih => exact (ih _).trans (Action.issues_legs ..)

/-- What the expansion of actions gives: the legs of a mesh are those between its subjects at the
positions listed, as the constraints are, side by side; the numbered pairs have consecutive numbers
over any expansions that share a tracker with enough of them left; and each mode's legs follow from
the other's but for a path. -/
theorem expansion_exact :
    (∀ (c : DecompositionSettings) (m : Mesh) (t : Tracker),
      ((Action.mesh m).legs c.bidirectional t).1 =
          (legPositions c.bidirectional m.subjects.length).map (fun p =>
            ⟨m.subjects[p.1], m.subjects[p.2], c.bidirectional⟩) ∧
        ((Action.mesh m).legs c.bidirectional t).1 =
          ((Action.mesh m).numberedPairs c.bidirectional t).1.map (.ofPair c.bidirectional)) ∧
    (∀ n, (positionPairs n).Pairwise (Prod.Lex (· < ·) (· < ·)) ∧
      (∀ p, p ∈ positionPairs n ↔ p.1 < p.2) ∧
      legPositions true n = positionPairs n ∧
      legPositions false n = (positionPairs n).flatMap (fun p => [p, p.swap]) ∧
      (legPositions true n).length = n * (n - 1) / 2 ∧
      (legPositions false n).length = n * (n - 1) ∧
      ∀ p, (legPositions false n).count p = if p.1 = p.2 then 0 else 1) ∧
    (∀ (actions : List (DecompositionSettings × Action)) (t : Tracker),
      t.assigned.toNat + numbersNeeded actions < UInt32.size →
      (expansions actions t).1.map (·.id.toNat) =
          List.range' (t.assigned.toNat + 1) (numbersNeeded actions) ∧
        ((expansions actions t).1.map (·.id)).Nodup ∧
        (expansions actions t).2.assigned.toNat = t.assigned.toNat + numbersNeeded actions ∧
        (expansions actions t).2.issues = t.issues) ∧
    (∀ (p : Pair) (t : Tracker),
      (Action.connection p).legs true t = ([⟨p.source, p.destination, true⟩], t) ∧
      (Action.connection p).legs false t =
        ([⟨p.source, p.destination, false⟩, ⟨p.destination, p.source, false⟩], t) ∧
      ∀ b, (Action.path p).legs b t = ([⟨p.source, p.destination, b⟩], t)) ∧
    (∀ (a : Action) (t t' : Tracker), (∀ p, a ≠ .path p) →
      (a.legs false t).1 = (a.legs true t').1.flatMap fun l =>
        [{ l with bidirectional := false }, { l.reverse with bidirectional := false }]) ∧
    ∀ (d : Decomposition) (r : ServiceRequest),
      d.legsOf r = r.action.legs d.settings.bidirectional .empty ∧
        ∀ l ∈ (d.legsOf r).1, l.bidirectional = d.settings.bidirectional := by
  refine ⟨fun c m t => ⟨Action.legs_mesh_eq .., rfl⟩, fun n => ?_, fun actions t henough => ?_,
    fun p t => ⟨rfl, rfl, fun b => rfl⟩, fun a t t' hpath => Action.legs_unidirectional hpath t t',
    fun d r => ⟨rfl, fun l hl => Action.bidirectional_of_mem_legs hl⟩⟩
  · refine ⟨sorted_positionPairs n, fun p => mem_positionPairs, rfl, rfl, length_positionPairs n,
      length_bothWays_positionPairs n, fun p => ?_⟩
    change (bothWays (positionPairs n)).count p = _
    split
    · next heq =>
      exact List.count_eq_zero.mpr fun hp => mem_bothWays_positionPairs.mp hp heq
    · next hne =>
      exact List.count_eq_one_of_mem (nodup_bothWays_positionPairs n)
        (mem_bothWays_positionPairs.mpr hne)
  · obtain ⟨hids, hlast⟩ := ids_expansions henough
    refine ⟨hids, ?_, hlast, issues_expansions actions t⟩
    have hnodup : ((expansions actions t).1.map (·.id.toNat)).Nodup :=
      hids ▸ List.nodup_range'
    exact List.Nodup.of_map UInt32.toNat (by rwa [List.map_map])

/-! A mesh of three subjects, two of them alike, expanded in one mode and then in the other. -/

def alikeMesh : Mesh := ⟨[⟨⟨"a"⟩, []⟩, ⟨⟨"a"⟩, []⟩, ⟨⟨"b"⟩, [.encryption]⟩]⟩

def alikeExpansions : List (DecompositionSettings × Action) :=
  [({}, .mesh alikeMesh), ({ bidirectional := false, unidirectional := true }, .mesh alikeMesh)]

/-- The numbers go on from one to nine, and the six legs of the second expansion are the three of
the first, each with its reverse. -/
theorem alikeMesh_expanded :
    (expansions alikeExpansions .empty).1.map (·.id.toNat) = [1, 2, 3, 4, 5, 6, 7, 8, 9] ∧
      ((Action.mesh alikeMesh).legs false .empty).1 =
        ((Action.mesh alikeMesh).legs true .empty).1.flatMap fun l =>
          [{ l with bidirectional := false }, { l.reverse with bidirectional := false }] := by
  obtain ⟨-, -, hids, -, hmodes, -⟩ := expansion_exact
  exact ⟨(hids alikeExpansions .empty (by decide)).1,
    hmodes (.mesh alikeMesh) .empty .empty fun p => nofun⟩

end IntentPlane
