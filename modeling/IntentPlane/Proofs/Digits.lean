import IntentPlane.Text.Number
import Mathlib.Algebra.Group.Nat.Defs

/-!
# Digits and the numbers they name

Numbers are read digit by digit, the first digit first. What a number is written as is read as that
number (`ofDigits?_toDigits`), and decimal digits are what their number is written as unless they
begin with a zero (`toDigits_ofDigitChars`). A text is read as a decimal number just if it is a run
of decimal digits, perhaps after a plus sign (`unsigned?_eq_some`).
-/

namespace IntentPlane.Text

variable {base n m : Nat} {c : Char} {digits : List Char}

/-! ## Runs of characters -/

/-- A run of characters is split off where the first other one stands. -/
theorem takeWhile_dropWhile_append {p : Char → Bool} {run rest : List Char}
    (hrun : ∀ c ∈ run, p c = true) (hrest : ∀ c ∈ rest.head?, p c = false) :
    (run ++ rest).takeWhile p = run ∧ (run ++ rest).dropWhile p = rest := by
  have hstop : rest.takeWhile p = [] ∧ rest.dropWhile p = rest := by
    cases rest with
    | nil => exact ⟨rfl, rfl⟩
    | cons c rest =>
      have hc := hrest c rfl
      simp [hc]
  rw [List.takeWhile_append_of_pos hrun, List.dropWhile_append_of_pos hrun, hstop.1, hstop.2,
    List.append_nil]
  exact ⟨rfl, rfl⟩

/-- The first characters with a property, and the others, which do not begin with one. -/
theorem takeWhile_append_drop (p : Char → Bool) (cs : List Char) :
    cs.takeWhile p ++ cs.drop (cs.takeWhile p).length = cs ∧
      ∀ c ∈ (cs.drop (cs.takeWhile p).length).head?, p c = false := by
  induction cs with
  | nil => simp
  | cons c cs ih =>
    by_cases hc : p c = true
    · simpa [hc] using ih
    · simp [hc]

/-! ## Digits of numbers -/

theorem mem_toDigits (hbase : 1 < base) (h : c ∈ Nat.toDigits base n) :
    ∃ d < base, c = Nat.digitChar d := by
  induction n using Nat.strongRecOn with
  | _ n ih =>
    by_cases hlt : n < base
    · rw [Nat.toDigits_of_lt_base hlt] at h
      exact ⟨n, hlt, List.mem_singleton.mp h⟩
    · rw [Nat.toDigits_of_base_le hbase (by omega), List.mem_append] at h
      rcases h with h | h
      · exact ih (n / base) (Nat.div_lt_self (by omega) hbase) h
      · exact ⟨n % base, Nat.mod_lt n (by omega), List.mem_singleton.mp h⟩

theorem isDigit_toDigits (n : Nat) : ∀ c ∈ Nat.toDigits 10 n, c.isDigit = true :=
  fun _ hc => Nat.isDigit_of_mem_toDigits (by decide) (by decide) hc

/-- The first digit of a positive number is not zero. -/
theorem head?_toDigits (h : 0 < n) : (Nat.toDigits 10 n).head? ≠ some '0' := by
  induction n using Nat.strongRecOn with
  | _ n ih =>
    by_cases hlt : n < 10
    · have hsmall : ∀ n < 10, 0 < n → [Nat.digitChar n].head? ≠ some '0' := by decide
      rw [Nat.toDigits_of_lt_base hlt]
      exact hsmall n hlt h
    · have hhead := ih (n / 10) (by omega) (by omega)
      rw [Nat.toDigits_of_base_le (by decide) (by omega)]
      cases hdigits : Nat.toDigits 10 (n / 10) with
      | nil => exact absurd hdigits Nat.toDigits_ne_nil
      | cons c tail =>
        rw [hdigits] at hhead
        exact hhead

theorem digitChar_toNat_sub (h : c.isDigit = true) :
    Nat.digitChar (c.toNat - '0'.toNat) = c ∧ c.toNat - '0'.toNat < 10 := by
  have hchar : ∀ n < 10, Nat.digitChar n = Char.ofNat (n + 48) := by decide
  obtain ⟨hlow, hhigh⟩ : 48 ≤ c.toNat ∧ c.toNat ≤ 57 := by
    simp only [Char.isDigit, Bool.and_eq_true, decide_eq_true_eq, ge_iff_le,
      UInt32.le_iff_toNat_le] at h
    exact h
  have hzero : '0'.toNat = 48 := rfl
  have hlt : c.toNat - 48 < 10 := by omega
  rw [hzero, hchar _ hlt, Nat.sub_add_cancel hlow, Char.ofNat_toNat]
  exact ⟨rfl, hlt⟩

/-- More digits are written after those of a positive number. -/
theorem toDigits_ofDigitChars_pos (hn : 0 < n) (h : ∀ c ∈ digits, c.isDigit = true) :
    Nat.toDigits 10 (Nat.ofDigitChars 10 digits n) = Nat.toDigits 10 n ++ digits := by
  induction digits generalizing n with
  | nil => simp
  | cons c digits ih =>
    rw [List.forall_mem_cons] at h
    obtain ⟨hchar, hlt⟩ := digitChar_toNat_sub h.1
    have hdiv : (10 * n + (c.toNat - '0'.toNat)) / 10 = n := by omega
    have hmod : (10 * n + (c.toNat - '0'.toNat)) % 10 = c.toNat - '0'.toNat := by omega
    rw [Nat.ofDigitChars_cons, ih (by omega) h.2, Nat.toDigits_of_base_le (by decide) (by omega),
      hdiv, hmod, hchar, List.append_assoc, List.singleton_append]

/-- Digits with no zero before another digit are what their number is written as. -/
theorem toDigits_ofDigitChars (hne : digits ≠ []) (h : ∀ c ∈ digits, c.isDigit = true)
    (hzero : digits.head? = some '0' → digits.length = 1) :
    Nat.toDigits 10 (Nat.ofDigitChars 10 digits 0) = digits := by
  cases digits with
  | nil => exact absurd rfl hne
  | cons c digits =>
    rw [List.forall_mem_cons] at h
    obtain ⟨hchar, hlt⟩ := digitChar_toNat_sub h.1
    rw [Nat.ofDigitChars_cons, Nat.mul_zero, Nat.zero_add]
    by_cases hc : c = '0'
    · obtain rfl : digits = [] := by simpa [hc] using hzero
      rw [hc]
      rfl
    · have hpos : 0 < c.toNat - '0'.toNat := by
        refine Nat.pos_of_ne_zero fun hn => hc ?_
        rw [← hchar, hn]
        rfl
      rw [toDigits_ofDigitChars_pos hpos h.2, Nat.toDigits_of_lt_base hlt, hchar,
        List.singleton_append]

/-! ## Reading numbers -/

theorem digit?_ten (c : Char) :
    digit? 10 c = if c.isDigit then some (c.toNat - '0'.toNat) else none := by
  have hdigit : c.isDigit = true ↔ '0' ≤ c ∧ c ≤ '9' := by
    simp [Char.isDigit, Char.le_def]
  have hnine : c ≤ '9' ↔ c.toNat ≤ 57 := by
    rw [Char.le_def, UInt32.le_iff_toNat_le]
    rfl
  simp only [hdigit, digit?]
  split
  · rename_i h
    have hten : c.toNat - '0'.toNat < 10 := by
      have := hnine.mp h.2
      simp only [Char.reduceToNat]
      omega
    rw [Option.filter_some, if_pos (by simpa using hten)]
  · -- A letter stands for ten at least.
    split
    · rw [Option.filter_some, if_neg (by simp)]
    · split
      · rw [Option.filter_some, if_neg (by simp)]
      · rfl

theorem digit?_lt (h : digit? base c = some n) : n < base := by
  simp only [digit?, Option.filter_eq_some_iff, decide_eq_true_eq] at h
  exact h.2

/-- A digit is a letter or a decimal digit. -/
theorem toNat_of_digit? (h : (digit? base c).isSome = true) : 48 ≤ c.toNat ∧ c.toNat ≤ 122 := by
  have hrange (low high : Char) (hc : low ≤ c ∧ c ≤ high) : low.toNat ≤ c.toNat ∧
      c.toNat ≤ high.toNat := by
    rwa [Char.le_def, Char.le_def, UInt32.le_iff_toNat_le, UInt32.le_iff_toNat_le] at hc
  have hcases : ('0' ≤ c ∧ c ≤ '9') ∨ ('a' ≤ c ∧ c ≤ 'z') ∨ ('A' ≤ c ∧ c ≤ 'Z') := by
    refine Decidable.byContradiction fun hnone => ?_
    simp only [not_or] at hnone
    simp [digit?, hnone] at h
  rcases hcases with hc | hc | hc
  all_goals
    have := hrange _ _ hc
    simp only [Char.reduceToNat] at this
    omega

theorem digit?_digitChar (h : n < base) (hbase : base ≤ 16) :
    digit? base (Nat.digitChar n) = some n := by
  have hsixteen : ∀ n < 16, digit? 16 (Nat.digitChar n) = some n := by decide
  have hdigit := hsixteen n (by omega)
  simp only [digit?, Option.filter_eq_some_iff] at hdigit ⊢
  exact ⟨hdigit.1, decide_eq_true h⟩

/-- What a number is written as is read as that number. -/
theorem ofDigits?_toDigits (hbase : 1 < base) (hbase' : base ≤ 16) (n : Nat) :
    ofDigits? base (Nat.toDigits base n) = some n := by
  induction n using Nat.strongRecOn with
  | _ n ih =>
    by_cases h : n < base
    · rw [Nat.toDigits_of_lt_base h]
      simp [ofDigits?, digit?_digitChar h hbase']
    · have hlt : n / base < n := Nat.div_lt_self (by omega) hbase
      rw [Nat.toDigits_of_base_le hbase (by omega)]
      have hrest := ih _ hlt
      rw [ofDigits?] at hrest
      rw [ofDigits?, List.foldlM_append, hrest]
      simp [digit?_digitChar (Nat.mod_lt n (by omega)) hbase', Nat.div_add_mod]

/-- A run of digits names a number that has no more digits. -/
theorem foldlM_digit?_lt
    (h : digits.foldlM (fun n c => (digit? base c).map (base * n + ·)) m = some n) :
    (∀ c ∈ digits, (digit? base c).isSome = true) ∧ n < (m + 1) * base ^ digits.length := by
  induction digits generalizing m with
  | nil =>
    cases h
    simp
  | cons c digits ih =>
    simp only [List.foldlM_cons, Option.bind_eq_bind, Option.bind_eq_some_iff,
      Option.map_eq_some_iff] at h
    obtain ⟨_, ⟨d, hd, rfl⟩, h⟩ := h
    obtain ⟨hdigits, hlt⟩ := ih h
    have hstep : base * m + d + 1 ≤ (m + 1) * base := by
      have hd := digit?_lt hd
      rw [Nat.succ_mul, Nat.mul_comm]
      omega
    refine ⟨List.forall_mem_cons.mpr ⟨by simp [hd], hdigits⟩, Nat.lt_of_lt_of_le hlt ?_⟩
    rw [List.length_cons, Nat.pow_succ', ← Nat.mul_assoc]
    exact Nat.mul_le_mul_right _ hstep

theorem foldlM_digit?_eq_some :
    digits.foldlM (fun n c => (digit? 10 c).map (10 * n + ·)) n = some m ↔
      (∀ c ∈ digits, c.isDigit) ∧ Nat.ofDigitChars 10 digits n = m := by
  induction digits generalizing n with
  | nil => simp
  | cons c digits ih =>
    rw [List.foldlM_cons, digit?_ten, Nat.ofDigitChars_cons, List.forall_mem_cons]
    by_cases hc : c.isDigit
    · simp only [hc, if_true, Option.map_some, true_and]
      exact ih
    · simp [hc]

/-- A text names a number in decimal if it is digits, perhaps after a plus sign. -/
theorem unsigned?_eq_some {limit : Nat} {cs : List Char} :
    unsigned? limit cs = some n ↔
      ∃ digits, (cs = digits ∨ cs = '+' :: digits) ∧ digits ≠ [] ∧ (∀ c ∈ digits, c.isDigit) ∧
        Nat.ofDigitChars 10 digits 0 = n ∧ n < limit := by
  have hread (digits : List Char) :
      (if digits.isEmpty then none else (ofDigits? 10 digits).filter (· < limit)) = some n ↔
        digits ≠ [] ∧ (∀ c ∈ digits, c.isDigit) ∧ Nat.ofDigitChars 10 digits 0 = n ∧
          n < limit := by
    simp [ofDigits?, Option.filter_eq_some_iff, foldlM_digit?_eq_some, and_assoc]
  unfold unsigned?
  split
  · rename_i rest
    rw [hread]
    constructor
    · exact fun h => ⟨rest, .inr rfl, h⟩
    · rintro ⟨digits, rfl | hcs, h⟩
      · -- A plus sign is no digit.
        exact absurd (h.2.1 '+' (.head _)) (by decide)
      · obtain rfl : rest = digits := (List.cons.inj hcs).2
        exact h
  · rename_i hplus
    rw [hread]
    constructor
    · exact fun h => ⟨cs, .inl rfl, h⟩
    · rintro ⟨digits, rfl | hcs, h⟩
      · exact h
      · exact absurd hcs (hplus digits)

theorem unsigned?_decimal {limit : Nat} (h : n < limit) : unsigned? limit (decimal n) = some n :=
  unsigned?_eq_some.mpr ⟨decimal n, .inl rfl, Nat.toDigits_ne_nil, isDigit_toDigits n,
    Nat.ofDigitChars_ten_toDigits, h⟩

end IntentPlane.Text
