import IntentPlane.Proofs.Json.Number

/-!
# The total order of doubles

Every double that is not NaN stands for a rational number or an infinity, and only the two zeros
stand for the same. `Below` orders doubles by what they stand for, the negative zero below the
positive one; `rank` is that order as a whole number (`rank_lt_rank`), and no two doubles have the
same rank (`rank_injective`). In units of the least positive double sizes are whole numbers that
grow with the bits (`strictMono_units`).
-/

namespace IntentPlane.Double

variable {x y : Float}

/-- The size of a finite double: its significand times a power of two. The infinities have the
power of two next above. -/
def size (x : Float) : ℚ := (parts x).1 * 2 ^ (parts x).2

/-- A double with its sign, the infinities as the powers of two next to the finite doubles. -/
def signed (x : Float) : ℚ := if isNegative x then -size x else size x

/-- What a double that is not NaN stands for. -/
def number (x : Float) : WithBot (WithTop ℚ) :=
  if isFinite x then ((signed x : WithTop ℚ) : WithBot (WithTop ℚ))
  else if isNegative x then ⊥ else ⊤

/-- Whether a double is below another: by their numbers, the negative zero below the positive. -/
def Below (x y : Float) : Prop :=
  number x < number y ∨ number x = number y ∧ isNegative x = true ∧ isNegative y = false

instance : DecidableRel Below := fun x y =>
  inferInstanceAs <| Decidable <|
    number x < number y ∨ number x = number y ∧ isNegative x = true ∧ isNegative y = false

/-! ## Sizes -/

/-- The size that bits without a sign stand for, in units of the least positive double. -/
def units (bits : Nat) : Nat :=
  if bits / fractionSize = 0 then bits % fractionSize
  else (fractionSize + bits % fractionSize) * 2 ^ (bits / fractionSize - 1)

theorem size_eq (x : Float) : size x = units (magnitudeBits x) * 2 ^ minExponent := by
  unfold size parts units
  generalize magnitudeBits x / fractionSize = field, magnitudeBits x % fractionSize = fraction
  dsimp only
  by_cases hfield : field = 0
  · rw [if_pos hfield, if_pos hfield]
  · have hexponent : minExponent + field - 1 = minExponent + ((field - 1 : Nat) : Int) := by omega
    rw [if_neg hfield, if_neg hfield]
    dsimp only
    rw [hexponent, zpow_add₀ (by norm_num), zpow_natCast]
    push_cast
    ring

theorem strictMono_units : StrictMono units := by
  intro m n hlt
  have hpos : 0 < fractionSize := by decide
  have hm := Nat.div_add_mod' m fractionSize
  have hn := Nat.div_add_mod' n fractionSize
  have hmod := Nat.mod_lt m hpos
  rcases (Nat.div_le_div_right hlt.le : m / fractionSize ≤ n / fractionSize).eq_or_lt
    with heq | hfields
  · -- Within one exponent the fractions decide.
    have hfractions : m % fractionSize < n % fractionSize := by
      rw [heq] at hm
      omega
    unfold units
    rw [heq]
    split
    · exact hfractions
    · exact Nat.mul_lt_mul_of_pos_right (Nat.add_lt_add_left hfractions _) (by positivity)
  · -- A greater exponent starts at the power of two that ends the lesser one.
    have hupper : units m < fractionSize * 2 ^ (m / fractionSize) := by
      unfold units
      split
      · next hzero => rwa [hzero, pow_zero, mul_one]
      · next hne =>
        have hpow : 2 ^ (m / fractionSize) = 2 * 2 ^ (m / fractionSize - 1) := by
          rw [← pow_succ', Nat.sub_add_cancel (Nat.pos_of_ne_zero hne)]
        rw [hpow, ← mul_assoc]
        exact Nat.mul_lt_mul_of_pos_right (by omega) (by positivity)
    calc units m < fractionSize * 2 ^ (m / fractionSize) := hupper
      _ ≤ fractionSize * 2 ^ (n / fractionSize - 1) :=
        Nat.mul_le_mul_left _ (Nat.pow_le_pow_right (by decide) (by omega))
      _ ≤ (fractionSize + n % fractionSize) * 2 ^ (n / fractionSize - 1) :=
        Nat.mul_le_mul_right _ (Nat.le_add_right ..)
      _ = units n := by rw [units, if_neg (Nat.zero_lt_of_lt hfields).ne']

theorem size_lt_size : size x < size y ↔ magnitudeBits x < magnitudeBits y := by
  rw [size_eq, size_eq, mul_lt_mul_iff_left₀ (by positivity), Nat.cast_lt]
  exact strictMono_units.lt_iff_lt

theorem size_nonneg (x : Float) : 0 ≤ size x := by
  rw [size]
  positivity

/-! ## The order -/

/-- The rank orders doubles by sign and size, the negative zero below the positive. -/
theorem rank_lt_rank_iff_signed :
    rank x < rank y ↔
      signed x < signed y ∨ signed x = signed y ∧ isNegative x = true ∧ isNegative y = false := by
  have hx := size_nonneg x
  have hy := size_nonneg y
  unfold rank signed
  cases hnx : isNegative x <;> cases hny : isNegative y <;>
    simp only [↓reduceIte, Bool.false_eq_true, Bool.true_eq_false, and_false, and_true,
      or_false]
  · rw [size_lt_size, Nat.cast_lt]
  · exact ⟨fun h => by omega, fun h => by linarith⟩
  · exact ⟨fun _ => (lt_or_eq_of_le (by linarith)), fun _ => by omega⟩
  · rw [neg_lt_neg_iff, size_lt_size]
    omega

/-- The infinities stand outside the finite doubles, at the ends of what lies between. -/
theorem exists_bound : ∃ bound : ℚ, 0 < bound ∧ ∀ x, isNaN x = false →
    (number x = ((signed x : WithTop ℚ) : WithBot (WithTop ℚ)) ∧
        -bound < signed x ∧ signed x < bound) ∨
      (number x = ⊤ ∧ signed x = bound) ∨ (number x = ⊥ ∧ signed x = -bound) := by
  have hpos : 0 < units infinityBits := strictMono_units (by decide : 0 < infinityBits)
  refine ⟨units infinityBits * 2 ^ minExponent, by positivity, fun x hx => ?_⟩
  have hle : magnitudeBits x ≤ infinityBits := by simpa [isNaN] using hx
  by_cases hfinite : isFinite x = true
  · have hlt : size x < units infinityBits * 2 ^ minExponent := by
      rw [size_eq, mul_lt_mul_iff_left₀ (by positivity), Nat.cast_lt]
      exact strictMono_units (of_decide_eq_true hfinite)
    have hnonneg := size_nonneg x
    refine .inl ⟨by rw [number, if_pos hfinite], ?_⟩
    rw [signed]
    split <;> constructor <;> linarith
  · have hsize : size x = units infinityBits * 2 ^ minExponent := by
      have heq : magnitudeBits x = infinityBits :=
        le_antisymm hle (not_lt.mp (by simpa [isFinite] using hfinite))
      rw [size_eq, heq]
    rw [number, signed, if_neg hfinite, ← hsize]
    cases isNegative x
    · exact .inr (.inl ⟨rfl, rfl⟩)
    · exact .inr (.inr ⟨rfl, rfl⟩)

theorem number_lt_number (hx : isNaN x = false) (hy : isNaN y = false) :
    number x < number y ↔ signed x < signed y := by
  obtain ⟨bound, hpos, hbound⟩ := exists_bound
  rcases hbound x hx with ⟨hnx, hlx, hux⟩ | ⟨hnx, hsx⟩ | ⟨hnx, hsx⟩ <;>
    rcases hbound y hy with ⟨hny, hly, huy⟩ | ⟨hny, hsy⟩ | ⟨hny, hsy⟩ <;> rw [hnx, hny]
  · rw [WithBot.coe_lt_coe, WithTop.coe_lt_coe]
  · exact iff_of_true (WithBot.coe_lt_coe.mpr (WithTop.coe_lt_top _)) (by linarith)
  · exact iff_of_false not_lt_bot (by linarith)
  · exact iff_of_false not_top_lt (by linarith)
  · exact iff_of_false (lt_irrefl _) (by linarith)
  · exact iff_of_false not_lt_bot (by linarith)
  · exact iff_of_true (WithBot.bot_lt_coe _) (by linarith)
  · exact iff_of_true bot_lt_top (by linarith)
  · exact iff_of_false (lt_irrefl _) (by linarith)

/-- The rank is the total order. -/
theorem rank_lt_rank (hx : isNaN x = false) (hy : isNaN y = false) :
    rank x < rank y ↔ Below x y := by
  have heq : number x = number y ↔ signed x = signed y := by
    rw [eq_iff_le_not_lt, eq_iff_le_not_lt, ← not_lt, ← not_lt, number_lt_number hx hy,
      number_lt_number hy hx]
  rw [rank_lt_rank_iff_signed, ← number_lt_number hx hy, ← heq, Below]

/-- A double is known by its rank, bit for bit. -/
theorem rank_injective : Function.Injective rank := by
  intro x y h
  have hsign : isNegative x = isNegative y := by
    cases hx : isNegative x <;> cases hy : isNegative y <;>
      simp only [rank, hx, hy, ↓reduceIte, Bool.false_eq_true] at h ⊢ <;> omega
  have hsize : magnitudeBits x = magnitudeBits y := by
    rw [rank, rank, hsign] at h
    split at h <;> omega
  have hbits : x.toBits = y.toBits := by
    rw [← UInt64.toNat_inj, toNat_toBits, toNat_toBits, hsign, hsize]
  rw [← Float.ofBits_toBits x, hbits, Float.ofBits_toBits]

end IntentPlane.Double
