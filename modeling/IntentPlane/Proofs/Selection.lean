import IntentPlane.Proofs.Expansion
import IntentPlane.Proofs.Json.Order

/-!
# What constraints are selected

Of the bandwidths and of the latencies the one at a rank is kept, counted with multiplicity. An item
is at rank `k` when at most `k` items come before it and more than `k` do not come after it
(`AtRank`); that is what stands at position `k` of the sorted list, provided that no two items are
at one place (`getElem?_mergeSort_eq_some`). Counts do not depend on the order of the candidates, so
neither does what is selected.
-/

namespace IntentPlane

/-! ## Ranks -/

/-- Whether an item of a list has at most `k` items before it and more than `k` not after it. -/
def AtRank (before : α → α → Prop) [DecidableRel before] (k : Nat) (b : α) (as : List α) : Prop :=
  b ∈ as ∧ as.countP (fun a => before a b) ≤ k ∧ k < as.countP fun a => ¬before b a

section Sorting

variable {as bs : List α} {k : Nat} {b : α}

theorem atRank_congr_perm {before : α → α → Prop} [DecidableRel before] (h : as.Perm bs) :
    AtRank before k b as ↔ AtRank before k b bs := by
  rw [AtRank, AtRank, h.mem_iff, h.countP_eq, h.countP_eq]

theorem exists_split_of_getElem? (h : as[k]? = some b) :
    ∃ front back, as = front ++ b :: back ∧ front.length = k := by
  obtain ⟨hlt, rfl⟩ := List.getElem?_eq_some_iff.mp h
  refine ⟨as.take k, as.drop (k + 1), ?_, List.length_take_of_le hlt.le⟩
  rw [List.getElem_cons_drop, List.take_append_drop]

theorem countP_le_of_split {p : α → Bool} {front back : List α} (h : ∀ a ∈ b :: back, ¬p a) :
    (front ++ b :: back).countP p ≤ front.length := by
  rw [List.countP_append, List.countP_eq_zero.mpr h]
  exact List.countP_le_length

theorem lt_countP_of_split {p : α → Bool} {front back : List α} (hfront : ∀ a ∈ front, p a)
    (hb : p b) : front.length < (front ++ b :: back).countP p := by
  rw [List.countP_append, List.countP_eq_length.mpr hfront, List.countP_cons_of_pos hb]
  omega

/-- What stands at a position of the sorted list is known by counting in the list as it was. -/
theorem getElem?_mergeSort_eq_some {le : α → α → Bool}
    (htrans : ∀ a b c, le a b → le b c → le a c) (htotal : ∀ a b, le a b || le b a)
    (hanti : ∀ a b, le a b → le b a → a = b) :
    (as.mergeSort le)[k]? = some b ↔
      b ∈ as ∧ as.countP (fun a => !le b a) ≤ k ∧ k < as.countP (le · b) := by
  have hperm := List.mergeSort_perm as le
  have hsorted := List.pairwise_mergeSort htrans htotal as
  have hrefl (a : α) : le a a := by simpa using htotal a a
  rw [← hperm.mem_iff, ← hperm.countP_eq, ← hperm.countP_eq]
  generalize as.mergeSort le = sorted at hsorted
  constructor
  · intro hget
    obtain ⟨front, back, rfl, rfl⟩ := exists_split_of_getElem? hget
    obtain ⟨-, hback, hfront⟩ := List.pairwise_append.mp hsorted
    have hafter := (List.pairwise_cons.mp hback).1
    refine ⟨by simp, countP_le_of_split fun a ha => ?_,
      lt_countP_of_split (fun a ha => hfront a ha b List.mem_cons_self) (hrefl b)⟩
    rcases List.mem_cons.mp ha with rfl | ha
    · simp [hrefl a]
    · simp [hafter a ha]
  · rintro ⟨-, hle, hlt⟩
    have hlength : k < sorted.length := hlt.trans_le List.countP_le_length
    rw [List.getElem?_eq_getElem hlength]
    obtain ⟨front, back, hsplit, hk⟩ := exists_split_of_getElem? (List.getElem?_eq_getElem hlength)
    generalize sorted[k] = c at hsplit
    subst hsplit hk
    obtain ⟨-, hback, hfront⟩ := List.pairwise_append.mp hsorted
    have hafter := (List.pairwise_cons.mp hback).1
    -- Were the item not before `b`, everything up to it would come before `b` strictly.
    have hbc : le b c := by
      by_contra hnle
      refine absurd (lt_countP_of_split (p := fun a => !le b a) (fun a ha => ?_) ?_) hle.not_gt
      · simpa using fun hba => hnle (htrans b a c hba (hfront a ha c List.mem_cons_self))
      · simpa using hnle
    -- Were `b` not after the item, nothing from it on would be at or before `b`.
    have hcb : le c b := by
      by_contra hnle
      refine absurd (countP_le_of_split (p := (le · b)) fun a ha hab => hnle ?_) hlt.not_ge
      rcases List.mem_cons.mp ha with rfl | ha
      · exact hab
      · exact htrans c a b (hafter a ha) hab
    rw [hanti c b hcb hbc]

theorem isSome_getElem?_mergeSort {le : α → α → Bool} :
    (as.mergeSort le)[k]?.isSome ↔ k < as.length := by
  rw [Option.isSome_iff_ne_none, ne_eq, List.getElem?_eq_none_iff, not_le, List.length_mergeSort]

end Sorting

/-- A latency is known by its nanoseconds in all. -/
theorem Latency.toNanos_injective : Function.Injective Latency.toNanos := by
  rintro ⟨secs, nanos, hlt⟩ ⟨secs', nanos', hlt'⟩ h
  simp only [toNanos, nanosPerSecond] at h hlt hlt'
  obtain rfl : secs = secs' := UInt64.toNat_inj.mp (by omega)
  obtain rfl : nanos = nanos' := UInt32.toNat_inj.mp (by omega)
  rfl

namespace Constraint

variable {all all' : List Constraint} {k : Nat}

/-! ## Bandwidths and latencies -/

theorem mem_bandwidths {b : Float} :
    b ∈ all.filterMap bandwidth? ↔ bandwidth b ∈ all ∧ Double.isNaN b = false := by
  rw [List.mem_filterMap]
  constructor
  · rintro ⟨c, hc, hb⟩
    cases c <;> simp only [bandwidth?, reduceCtorEq] at hb
    split at hb
    · cases hb
    · next hnan =>
      obtain rfl := Option.some.inj hb
      exact ⟨hc, by simpa using hnan⟩
  · rintro ⟨hc, hnan⟩
    exact ⟨_, hc, by simp [bandwidth?, hnan]⟩

theorem getElem?_rankedBandwidths {b : Float} :
    (rankedBandwidths all)[k]? = some b ↔
      AtRank (fun x y => Double.Below y x) k b (all.filterMap bandwidth?) := by
  rw [rankedBandwidths, getElem?_mergeSort_eq_some, AtRank, and_congr_right_iff]
  · intro hb
    have hnan := (mem_bandwidths.mp hb).2
    have hbefore : (all.filterMap bandwidth?).countP
          (fun a => !decide (Double.rank a ≤ Double.rank b)) =
        (all.filterMap bandwidth?).countP fun a => Double.Below b a :=
      List.countP_congr fun a ha => by
        simp [← Double.rank_lt_rank hnan (mem_bandwidths.mp ha).2]
    have hafter : (all.filterMap bandwidth?).countP
          (fun a => decide (Double.rank b ≤ Double.rank a)) =
        (all.filterMap bandwidth?).countP fun a => ¬Double.Below a b :=
      List.countP_congr fun a ha => by
        simp [← Double.rank_lt_rank (mem_bandwidths.mp ha).2 hnan]
    rw [hbefore, hafter]
  · exact fun a b c hab hbc =>
      decide_eq_true ((of_decide_eq_true hbc).trans (of_decide_eq_true hab))
  · exact fun a b => by simpa using le_total ..
  · exact fun a b hab hba =>
      Double.rank_injective ((of_decide_eq_true hba).antisymm (of_decide_eq_true hab))

theorem getElem?_rankedLatencies {l : Latency} :
    (rankedLatencies all)[k]? = some l ↔
      AtRank (fun x y => x.toNanos < y.toNanos) k l (all.filterMap latency?) := by
  rw [rankedLatencies, getElem?_mergeSort_eq_some]
  · simp only [AtRank, ← decide_not, not_lt, not_le]
  · exact fun a b c hab hbc =>
      decide_eq_true ((of_decide_eq_true hab).trans (of_decide_eq_true hbc))
  · exact fun a b => by simpa using le_total ..
  · exact fun a b hab hba =>
      Latency.toNanos_injective ((of_decide_eq_true hab).antisymm (of_decide_eq_true hba))

/-! ## Selections -/

theorem rankedBandwidths_perm (h : all.Perm all') :
    rankedBandwidths all = rankedBandwidths all' :=
  List.ext_getElem? fun k => Option.ext fun b => by
    rw [getElem?_rankedBandwidths, getElem?_rankedBandwidths, atRank_congr_perm (h.filterMap _)]

theorem rankedLatencies_perm (h : all.Perm all') : rankedLatencies all = rankedLatencies all' :=
  List.ext_getElem? fun k => Option.ext fun l => by
    rw [getElem?_rankedLatencies, getElem?_rankedLatencies, atRank_congr_perm (h.filterMap _)]

theorem mem_selectFrom {levels : Levels} {c : Constraint} (h : c ∈ selectFrom all levels) :
    c ≠ restoration ∧ c ≠ negotiable ∧ ∀ b, c = bandwidth b → Double.isNaN b = false := by
  simp only [selectFrom, List.mem_append, Option.mem_toList, Option.map_eq_some_iff,
    List.mem_filter, List.mem_cons, List.not_mem_nil, or_false] at h
  rcases h with (⟨b, hb, rfl⟩ | ⟨l, hl, rfl⟩) | ⟨rfl | rfl | rfl, -⟩
  · refine ⟨nofun, nofun, fun b' heq => ?_⟩
    obtain rfl := bandwidth.inj heq
    exact (mem_bandwidths.mp (getElem?_rankedBandwidths.mp hb).1).2
  all_goals exact ⟨nofun, nofun, nofun⟩

/-- Neither the order of the candidates nor the security level matters. -/
theorem selectFrom_perm (h : all.Perm all') (levels : Levels) (security : Nat) :
    selectFrom all { levels with security := security } = selectFrom all' levels := by
  simp only [selectFrom, rankedBandwidths_perm h, rankedLatencies_perm h, h.any_eq]

/-- What is selected of all candidates: the bandwidth and the latency at the ranks asked for, each
if there are that many, and one each of the constraints that have no rank. -/
structure ByRank (all : List Constraint) (levels : Levels) (b? : Option Float)
    (l? : Option Latency) (rest : List Constraint) : Prop where
  bandwidth : ∀ b, b? = some b ↔
    AtRank (fun x y => Double.Below y x) levels.bandwidth b (all.filterMap bandwidth?)
  isSome_bandwidth : b?.isSome ↔ levels.bandwidth < (all.filterMap bandwidth?).length
  latency : ∀ l, l? = some l ↔
    AtRank (fun x y => x.toNanos < y.toNanos) levels.delay l (all.filterMap latency?)
  isSome_latency : l?.isSome ↔ levels.delay < (all.filterMap latency?).length
  sublist : rest.Sublist [encryption, highAvailability, availability]
  mem_rest : ∀ c ∈ [encryption, highAvailability, availability], c ∈ rest ↔ c ∈ all

theorem exists_byRank (all : List Constraint) (levels : Levels) :
    ∃ b? l? rest, ByRank all levels b? l? rest ∧
      selectFrom all levels =
        (b?.map .bandwidth).toList ++ (l?.map .latency).toList ++ rest := by
  refine ⟨_, _, _, ⟨fun b => getElem?_rankedBandwidths, isSome_getElem?_mergeSort,
    fun l => getElem?_rankedLatencies, isSome_getElem?_mergeSort, List.filter_sublist,
    fun c hc => ?_⟩, rfl⟩
  rw [List.mem_filter, and_iff_right hc, List.any_eq_true]
  simp

end Constraint

/-- The legs of a connection or a mesh in unidirectional mode come in pairs, forward and reverse. -/
theorem Action.legs_in_pairs {a : Action} (h : ∀ p, a ≠ path p) (t : Tracker) :
    ∃ forward : List Leg, (a.legs false t).1 = forward.flatMap fun l => [l, l.reverse] :=
  ⟨(a.legs true t).1.map fun l => { l with bidirectional := false }, by
    rw [legs_unidirectional h t t, List.flatMap_map]
    rfl⟩

/-- Both directions of a leg get the same constraints. -/
theorem Decomposition.constraints_reverse (d : Decomposition) (leg : Leg) :
    d.constraints leg.reverse = d.constraints leg := by
  have hperm : (leg.destination.constraints ++ leg.source.constraints ++ d.request.constraints).Perm
      (leg.source.constraints ++ leg.destination.constraints ++ d.request.constraints) :=
    List.perm_append_comm.append_right _
  rw [constraints, constraints]
  simp only [Leg.reverse, Constraint.select]
  rw [← Constraint.selectFrom_perm hperm]

/-- Selection is by rank among all candidates, wherever they come from: any other order of them,
and any other distribution of them over the three lists, gives the same. -/
theorem select_by_rank (source destination request : List Constraint)
    (levels : Constraint.Levels) :
    (∃ b? l? rest,
      Constraint.ByRank (source ++ destination ++ request) levels b? l? rest ∧
        Constraint.select source destination request levels =
          (b?.map .bandwidth).toList ++ (l?.map .latency).toList ++ rest) ∧
      (∀ c ∈ Constraint.select source destination request levels,
        c ≠ .restoration ∧ c ≠ .negotiable ∧ ∀ b, c = .bandwidth b → Double.isNaN b = false) ∧
      (∀ source' destination' request' security,
        (source' ++ destination' ++ request').Perm (source ++ destination ++ request) →
        Constraint.select source' destination' request' { levels with security := security } =
          Constraint.select source destination request levels) ∧
      ∀ (d : Decomposition) (a : Action) (t : Tracker), (∀ p, a ≠ .path p) →
        ∃ forward : List Leg, (a.legs false t).1 = forward.flatMap (fun l => [l, l.reverse]) ∧
          ∀ l ∈ forward, d.constraints l.reverse = d.constraints l := by
  refine ⟨Constraint.exists_byRank _ levels, fun c hc => Constraint.mem_selectFrom hc,
    fun source' destination' request' security hperm =>
      Constraint.selectFrom_perm hperm levels security, fun d a t hpath => ?_⟩
  obtain ⟨forward, hlegs⟩ := Action.legs_in_pairs hpath t
  exact ⟨forward, hlegs, fun l _ => d.constraints_reverse l⟩

/-! Candidates with both zeros, an infinity and NaN among them. -/

def zeroCandidates : List Constraint :=
  [.bandwidth (Float.ofBits 0), .encryption, .bandwidth (Float.ofBits 0x8000000000000000)]

def oddCandidates : List Constraint :=
  [.bandwidth (Float.ofBits 0x7FF8000000000000), .negotiable,
    .bandwidth (Float.ofBits 0x7FF0000000000000), .latency (.ofMillis 5)]

/-- A mesh to be realized one direction at a time. -/
def alikeRequest : Decomposition where
  app := ⟨1, "app"⟩
  retries := 1
  service := ⟨"alike", by decide⟩
  request := ⟨.mesh alikeMesh, oddCandidates, false⟩
  settings := { bidirectional := false, unidirectional := true }

/-- Read backwards and all put into the request, the candidates are selected from alike; and the
mesh has legs in pairs with the same constraints. -/
theorem candidates_redistributed :
    Constraint.select [] [] (oddCandidates.reverse ++ zeroCandidates.reverse) ⟨1, 0, 7⟩ =
        Constraint.select zeroCandidates [] oddCandidates ⟨1, 0, 0⟩ ∧
      ∃ forward : List Leg, (alikeRequest.legsOf alikeRequest.request).1 =
          forward.flatMap (fun l => [l, l.reverse]) ∧
        ∀ l ∈ forward, alikeRequest.constraints l.reverse = alikeRequest.constraints l := by
  obtain ⟨-, -, hsame, hpairs⟩ := select_by_rank zeroCandidates [] oddCandidates ⟨1, 0, 0⟩
  refine ⟨hsame [] [] _ 7 ?_, hpairs alikeRequest (.mesh alikeMesh) .empty fun p => nofun⟩
  rw [List.nil_append, List.nil_append, List.append_nil, ← List.reverse_append]
  exact List.reverse_perm _

end IntentPlane
