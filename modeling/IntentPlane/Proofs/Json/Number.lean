import IntentPlane.Json.Number
import Mathlib

/-!
# Doubles in decimal text

A finite double is a significand times a power of two, and so is its text. Reading rounds to the
nearest double; where the quotient to round is a double already, `nearestBits` finds its bits
(`nearestBits_eq`), so reading what was written gives the double back (`ofDecimal?_eq_some`).
-/

namespace IntentPlane.Double

variable {x : Float} {num den s k : Nat} {e : Int}

/-! ## Bits -/

theorem toNat_toBits (x : Float) :
    x.toBits.toNat = magnitudeBits x + if isNegative x then signBit else 0 := by
  have hlt : x.toBits.toNat < 2 * signBit := x.toBits.toNat_lt_size
  rw [magnitudeBits, isNegative]
  by_cases h : signBit ≤ x.toBits.toNat
  · rw [if_pos (decide_eq_true h), Nat.mod_eq_sub_mod h, Nat.mod_eq_of_lt (by omega)]
    omega
  · rw [if_neg (by simpa using h), Nat.mod_eq_of_lt (by omega)]
    rfl

/-- The bits of a double that is not beyond the finite ones are kept. -/
theorem toBits_ofBits {u : UInt64} (h : u.toNat % signBit < infinityBits) :
    (Float.ofBits u).toBits = u := by
  have hvalid : Float.Model.Format.binary64.Valid u.toBitVec := by
    refine ⟨fun hexponent => ?_⟩
    have hfield := congrArg BitVec.toNat hexponent
    rw [Float.Model.UnpackedFloat.unpackExponent_def] at hfield
    simp [BitVec.extractLsb'_toNat, Nat.shiftRight_eq_div_pow] at hfield
    simp only [signBit, infinityBits] at h
    omega
  exact congrArg Float.toBits (Float.ofBits_toBits (.ofModel ⟨u, hvalid⟩))

theorem magnitudeBits_ofBits {bits : Nat} (h : bits < infinityBits) (negative : Bool) :
    magnitudeBits (Float.ofBits (.ofNat (bits + if negative then signBit else 0))) = bits := by
  have hlt : bits + (if negative then signBit else 0) < UInt64.size := by
    simp only [infinityBits, signBit, UInt64.size] at h ⊢
    split <;> omega
  have hmod : (bits + if negative then signBit else 0) % signBit = bits := by
    simp only [infinityBits, signBit] at h ⊢
    split <;> omega
  have hbits : (UInt64.ofNat (bits + if negative then signBit else 0)).toNat % signBit = bits := by
    rw [UInt64.toNat_ofNat_of_lt' hlt, hmod]
  rw [magnitudeBits, toBits_ofBits (by rwa [hbits]), hbits]

/-- Every decimal number in range is read as a finite double. -/
theorem isFinite_of_ofDecimal? {negative : Bool} {mantissa : Nat}
    (h : ofDecimal? negative mantissa e = some x) : isFinite x = true := by
  unfold ofDecimal? at h
  extract_lets bits at h
  split at h
  · cases h
  · rename_i hbits
    obtain rfl := Option.some.inj h
    rw [isFinite, magnitudeBits_ofBits (by omega)]
    exact decide_eq_true (by omega)

theorem isFinite_zero : isFinite 0 = true := by decide +kernel

/-! ## Magnitudes -/

theorem two_zpow (e : Int) : (2 : ℚ) ^ e = 2 ^ e.toNat / 2 ^ (-e).toNat := by
  have he : e = (e.toNat : Int) - ((-e).toNat : Int) := by omega
  conv_lhs => rw [he]
  rw [zpow_sub₀ (by norm_num), zpow_natCast, zpow_natCast]

theorem powLe_iff (hden : 0 < den) (e : Int) :
    powLe num den e = true ↔ (2 : ℚ) ^ e ≤ num / den := by
  have hnat : powLe num den e = true ↔ 2 ^ e.toNat * den ≤ num * 2 ^ (-e).toNat := by
    simp [powLe, scale, Nat.mul_comm]
  have hpos : (0 : ℚ) < den := by exact_mod_cast hden
  rw [hnat, two_zpow, div_le_div_iff₀ (by positivity) hpos]
  exact_mod_cast Iff.rfl

theorem log2_spec {n : Nat} (h : 0 < n) :
    (2 : ℚ) ^ (n.log2 : Int) ≤ n ∧ (n : ℚ) < 2 ^ (n.log2 + 1 : Int) := by
  have hle := Nat.log2_self_le (by omega : n ≠ 0)
  have hlt := Nat.lt_log2_self (n := n)
  exact ⟨by exact_mod_cast hle, by exact_mod_cast hlt⟩

/-- The quotient lies between the power of two of its magnitude and the next. -/
theorem magnitude_spec (hnum : 0 < num) (hden : 0 < den) :
    (2 : ℚ) ^ magnitude num den ≤ num / den ∧ (num : ℚ) / den < 2 ^ (magnitude num den + 1) := by
  have hden' : (0 : ℚ) < den := by exact_mod_cast hden
  obtain ⟨hnumle, hnumlt⟩ := log2_spec hnum
  obtain ⟨hdenle, hdenlt⟩ := log2_spec hden
  -- The difference of the logarithms is the magnitude, or one more.
  have hupper : (num : ℚ) / den < 2 ^ ((num.log2 : Int) - den.log2 + 1) :=
    calc (num : ℚ) / den < 2 ^ (num.log2 + 1 : Int) / 2 ^ (den.log2 : Int) :=
          div_lt_div₀ hnumlt hdenle (by positivity) (by positivity)
      _ = 2 ^ ((num.log2 : Int) - den.log2 + 1) := by
          rw [← zpow_sub₀ (by norm_num)]
          ring_nf
  have hlower : (2 : ℚ) ^ ((num.log2 : Int) - den.log2 - 1) < num / den :=
    calc (2 : ℚ) ^ ((num.log2 : Int) - den.log2 - 1)
        = 2 ^ (num.log2 : Int) / 2 ^ (den.log2 + 1 : Int) := by
          rw [← zpow_sub₀ (by norm_num)]
          ring_nf
      _ < num / den := div_lt_div₀' hnumle hdenlt (by exact_mod_cast hnum) hden'
  unfold magnitude
  extract_lets guess
  split
  · rename_i h
    exact ⟨(powLe_iff hden guess).mp h, hupper⟩
  · rename_i h
    rw [powLe_iff hden, not_le] at h
    exact ⟨hlower.le, by simpa using h⟩

/-! ## Rounding -/

theorem roundDiv_mul (h : 0 < den) : roundDiv (s * den) den = s := by
  simp [roundDiv, Nat.mul_div_cancel s h, h]

/-- A significand and an exponent as doubles have them: the significand has 53 bits, the first of
which is set unless the exponent is the least. -/
def Normalized (s : Nat) (e : Int) : Prop :=
  s < 2 * fractionSize ∧ minExponent ≤ e ∧ (fractionSize ≤ s ∨ e = minExponent)

/-- What the two parts of a double are, by its bits. -/
theorem parts_cases (x : Float) :
    (magnitudeBits x < fractionSize ∧ parts x = (magnitudeBits x, minExponent)) ∨
      ∃ field fraction : Nat, fraction < fractionSize ∧
        magnitudeBits x = (field + 1) * fractionSize + fraction ∧
        parts x = (fractionSize + fraction, minExponent + field) := by
  have hmod := Nat.mod_lt (magnitudeBits x) (by decide : 0 < fractionSize)
  have hdiv := Nat.div_add_mod' (magnitudeBits x) fractionSize
  cases hfield : magnitudeBits x / fractionSize with
  | zero =>
    rw [hfield, Nat.zero_mul, Nat.zero_add] at hdiv
    refine .inl ⟨hdiv ▸ hmod, ?_⟩
    simp [parts, hfield, hdiv]
  | succ field =>
    rw [hfield] at hdiv
    refine .inr ⟨field, magnitudeBits x % fractionSize, hmod, hdiv.symm, ?_⟩
    simp only [parts, hfield, Nat.succ_ne_zero, if_false, Prod.mk.injEq, true_and]
    omega

theorem normalized_parts (x : Float) : Normalized (parts x).1 (parts x).2 := by
  rcases parts_cases x with ⟨hlt, hparts⟩ | ⟨field, fraction, hlt, -, hparts⟩
  · rw [hparts]
    exact ⟨by omega, le_rfl, .inr rfl⟩
  · rw [hparts]
    exact ⟨by omega, by omega, .inl (Nat.le_add_right ..)⟩

theorem magnitudeBits_eq (x : Float) :
    magnitudeBits x = ((parts x).2 - minExponent).toNat * fractionSize + (parts x).1 := by
  rcases parts_cases x with ⟨-, hparts⟩ | ⟨field, fraction, -, hbits, hparts⟩
  · simp [hparts]
  · rw [hparts, hbits, Nat.add_mul]
    simp [Nat.add_assoc]

/-- A quotient that is a double has its bits. -/
theorem nearestBits_eq (hnum : 0 < num) (hden : 0 < den) (hn : Normalized s e)
    (hvalue : (num : ℚ) / den = s * 2 ^ e) :
    nearestBits num den = (e - minExponent).toNat * fractionSize + s := by
  obtain ⟨hlt, hmin, hbits⟩ := hn
  have hden' : (0 : ℚ) < den := by exact_mod_cast hden
  have hexponent : max (magnitude num den - 52) minExponent = e := by
    obtain ⟨hle, hlt'⟩ := magnitude_spec hnum hden
    rw [hvalue] at hle hlt'
    have hupper : magnitude num den < e + 53 := by
      have hsize : (s : ℚ) * 2 ^ e < 2 ^ (e + 53) := by
        have hs : (s : ℚ) < 2 ^ 53 := by exact_mod_cast hlt
        rw [zpow_add₀ (by norm_num), mul_comm]
        gcongr
        exact_mod_cast hs
      exact (zpow_lt_zpow_iff_right₀ (by norm_num)).mp (hle.trans_lt hsize)
    rcases hbits with hbits | hbits
    · have hlower : e + 52 < magnitude num den + 1 := by
        have hsize : (2 : ℚ) ^ (e + 52) ≤ s * 2 ^ e := by
          have hs : (2 : ℚ) ^ 52 ≤ s := by exact_mod_cast hbits
          rw [zpow_add₀ (by norm_num), mul_comm]
          gcongr
          exact_mod_cast hs
        exact (zpow_lt_zpow_iff_right₀ (by norm_num)).mp (hsize.trans_lt hlt')
      omega
    · omega
  have hexact : num * 2 ^ (-e).toNat = s * (den * 2 ^ e.toNat) := by
    rw [two_zpow, div_eq_iff hden'.ne'] at hvalue
    have hpow : (2 : ℚ) ^ (-e).toNat ≠ 0 := by positivity
    field_simp at hvalue
    rw [Nat.mul_comm den, ← Nat.mul_assoc]
    exact_mod_cast hvalue
  have hpos : 0 < den * 2 ^ e.toNat := by positivity
  unfold nearestBits
  rw [hexponent]
  simp only [scale, Int.neg_neg, Nat.pow_eq, hexact, roundDiv_mul hpos]

/-- A decimal number with the value of a finite double is read as that double. -/
theorem ofDecimal?_eq_some (hx : isFinite x = true) {mantissa : Nat}
    (hk : mantissa ≠ 0 → k ≤ 400 + mantissa.log2)
    (hvalue : (mantissa : ℚ) / 10 ^ k = (parts x).1 * 2 ^ (parts x).2) :
    ofDecimal? (isNegative x) mantissa (-k) = some x := by
  have hn := normalized_parts x
  have hbits : (if mantissa = 0 ∨ (-k : Int) < -(400 + mantissa.log2 : Int) then 0
      else if (400 : Int) < -k then infinityBits
      else nearestBits (scale mantissa 1 10 (-k)).1 (scale mantissa 1 10 (-k)).2) =
      magnitudeBits x := by
    rw [magnitudeBits_eq x]
    by_cases hm : mantissa = 0
    · rw [if_pos (.inl hm)]
      have hzero : (parts x).1 = 0 := by
        have hpos : (2 : ℚ) ^ (parts x).2 ≠ 0 := by positivity
        have hcast : ((parts x).1 : ℚ) = 0 := by simpa [hm, hpos, eq_comm] using hvalue
        exact_mod_cast hcast
      have hleast : (parts x).2 = minExponent := by
        rcases hn.2.2 with h | h
        · rw [hzero] at h
          exact absurd h (by decide)
        · exact h
      simp [hzero, hleast]
    · have hsmall : ¬(mantissa = 0 ∨ (-k : Int) < -(400 + mantissa.log2 : Int)) := by
        have hlog := hk hm
        omega
      have hlarge : ¬(400 : Int) < -k := by omega
      have hscale : scale mantissa 1 10 (-k) = (mantissa, 10 ^ k) := by
        simp [scale]
      rw [if_neg hsmall, if_neg hlarge, hscale]
      exact nearestBits_eq (by omega) (by positivity) hn (by exact_mod_cast hvalue)
  have hfinite : magnitudeBits x < infinityBits := by simpa [isFinite] using hx
  unfold ofDecimal?
  extract_lets bits
  have hsame : bits = magnitudeBits x := hbits
  rw [hsame, if_neg (by omega), ← toNat_toBits, UInt64.ofNat_toNat, Float.ofBits_toBits]

theorem reduce_spec (m k : Nat) :
    (reduce m k).1 * 2 ^ k = m * 2 ^ (reduce m k).2 ∧ (reduce m k).2 ≤ k := by
  induction k generalizing m with
  | zero => simp [reduce]
  | succ k ih =>
    unfold reduce
    split
    · rename_i heven
      obtain ⟨hvalue, hle⟩ := ih (m / 2)
      refine ⟨?_, by omega⟩
      have hm : m / 2 * 2 = m := by omega
      calc (reduce (m / 2) k).1 * 2 ^ (k + 1) = (reduce (m / 2) k).1 * 2 ^ k * 2 := by ring
        _ = m / 2 * 2 * 2 ^ (reduce (m / 2) k).2 := by rw [hvalue]; ring
        _ = m * 2 ^ (reduce (m / 2) k).2 := by rw [hm]
    · exact ⟨rfl, le_rfl⟩

/-- The text of the size of a double: a whole number, or one over a power of ten. -/
inductive SizeText (x : Float) : List Char → Prop where
  | whole (m : Nat) : ofDecimal? (isNegative x) (10 * m) (-1) = some x →
      SizeText x (Nat.toDigits 10 m ++ ['.', '0'])
  | scaled (m k : Nat) : ofDecimal? (isNegative x) m (-k) = some x →
      SizeText x (Nat.toDigits 10 m ++ 'e' :: '-' :: Nat.toDigits 10 k)

/-- A finite double is written as a decimal number that is read as that double. -/
theorem write_eq (hx : isFinite x = true) : ∃ size, SizeText x size ∧
    write x = if isNegative x then '-' :: size else size := by
  have hreduce := reduce_spec ((parts x).1 * 2 ^ (parts x).2.toNat) (-(parts x).2).toNat
  rcases hmk : reduce ((parts x).1 * 2 ^ (parts x).2.toNat) (-(parts x).2).toNat with ⟨m, k⟩
  rw [hmk] at hreduce
  have hvalue : (parts x).1 * (2 : ℚ) ^ (parts x).2 = m / 2 ^ k := by
    have hcast : (m : ℚ) * 2 ^ (-(parts x).2).toNat =
        (parts x).1 * 2 ^ (parts x).2.toNat * 2 ^ k := by
      exact_mod_cast hreduce.1
    rw [two_zpow]
    field_simp
    linarith
  have hwrite : write x = if isNegative x then
      '-' :: (if k = 0 then Nat.toDigits 10 m ++ ['.', '0']
        else Nat.toDigits 10 (m * 5 ^ k) ++ 'e' :: '-' :: Nat.toDigits 10 k)
      else if k = 0 then Nat.toDigits 10 m ++ ['.', '0']
        else Nat.toDigits 10 (m * 5 ^ k) ++ 'e' :: '-' :: Nat.toDigits 10 k := by
    simp only [write, Nat.pow_eq, hmk]
  refine ⟨_, ?_, hwrite⟩
  split
  · rename_i hk
    refine .whole m (ofDecimal?_eq_some (k := 1) hx (fun _ => by omega) ?_)
    rw [hvalue, hk]
    push_cast
    ring
  · refine .scaled _ k (ofDecimal?_eq_some hx (fun h => ?_) ?_)
    · have hpow : 2 ^ k ≤ m * 5 ^ k := by
        have hm : 1 ≤ m := Nat.pos_of_ne_zero (left_ne_zero_of_mul h)
        calc 2 ^ k ≤ 5 ^ k := Nat.pow_le_pow_left (by norm_num) k
          _ = 1 * 5 ^ k := (Nat.one_mul _).symm
          _ ≤ m * 5 ^ k := Nat.mul_le_mul_right _ hm
      have hlog := (Nat.le_log2 h).mpr hpow
      omega
    · rw [hvalue]
      have hten : (10 : ℚ) ^ k = 2 ^ k * 5 ^ k := by
        rw [← mul_pow]
        norm_num
      push_cast
      rw [hten]
      field_simp

end IntentPlane.Double
