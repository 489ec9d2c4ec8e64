import IntentPlane.Endpoint
import IntentPlane.Proofs.Address

/-!
# Texts of prefixes

The texts that a prefix has (`IpPrefix.Spelled`): an address, and perhaps a slash and a length, with
blanks around either. These and no others are parsed as the prefix (`IpPrefix.parse_eq_ok`). The
text a prefix is written as is one of them.
-/

namespace IntentPlane

theorem toOption_eq_some {result : Except ε α} {x : α} :
    result.toOption = some x ↔ result = .ok x := by
  cases result <;> simp [Except.toOption]

/-! ## Blanks -/

namespace Text

variable {cs part : List Char}

/-- A text with blanks before and after it. -/
def Padded (part cs : List Char) : Prop :=
  ∃ before after, (∀ c ∈ before, isBlank c = true) ∧ (∀ c ∈ after, isBlank c = true) ∧
    cs = before ++ part ++ after

theorem Padded.refl (cs : List Char) : Padded cs cs := ⟨[], [], by simp⟩

theorem padded_trim (cs : List Char) : Padded (trim cs) cs := by
  refine ⟨cs.takeWhile isBlank, ((cs.dropWhile isBlank).reverse.takeWhile isBlank).reverse,
    List.all_eq_true.mp List.all_takeWhile, fun c hc => ?_, ?_⟩
  · exact List.all_eq_true.mp List.all_takeWhile c (List.mem_reverse.mp hc)
  · rw [trim, List.append_assoc, ← List.reverse_append, List.takeWhile_append_dropWhile,
      List.reverse_reverse, List.takeWhile_append_dropWhile]

theorem trim_padded (h : Padded part cs) (hpart : ∀ c ∈ part, isBlank c = false) :
    trim cs = part := by
  obtain ⟨before, after, hbefore, hafter, rfl⟩ := h
  have hback : ∀ c ∈ after.reverse, isBlank c = true := by simpa using hafter
  have hend : ∀ c ∈ part.reverse.head?, isBlank c = false := fun c hc =>
    hpart c (List.mem_reverse.mp (List.mem_of_mem_head? hc))
  cases part with
  | nil =>
    have hblank : ∀ c ∈ before ++ after, isBlank c = true := by
      simpa [or_imp, forall_and] using And.intro hbefore hafter
    have hnone : (before ++ after ++ []).dropWhile isBlank = [] :=
      List.dropWhile_append_of_pos hblank
    rw [List.append_nil] at hnone
    simp [trim, hnone]
  | cons c part =>
    have hbegin : ∀ d ∈ (c :: part ++ after).head?, isBlank d = false := by simp [hpart]
    rw [trim, List.append_assoc, (takeWhile_dropWhile_append hbefore hbegin).2,
      List.reverse_append, (takeWhile_dropWhile_append hback hend).2, List.reverse_reverse]

end Text

/-! ## The grammar of prefixes -/

/-- The texts of a length: decimal digits, perhaps after a plus sign. -/
def LengthText (cs : List Char) (n : Nat) : Prop :=
  ∃ digits, (cs = digits ∨ cs = '+' :: digits) ∧ digits ≠ [] ∧ (∀ c ∈ digits, c.isDigit) ∧
    Nat.ofDigitChars 10 digits 0 = n

/-- The texts of a prefix. An address alone stands for all its bits. -/
inductive IpPrefix.Spelled : List Char → IpPrefix → Prop where
  | alone : IpAddress.Spelled part a → Text.Padded part cs →
      Spelled cs ⟨a, a.width, Nat.le_refl _⟩
  | withLength (h : n ≤ a.width) : IpAddress.Spelled part a → Text.Padded part cs →
      LengthText digits n → Text.Padded digits cs' → Spelled (cs ++ '/' :: cs') ⟨a, n, h⟩

variable {cs part front digits : List Char} {c : Char} {n : Nat} {a : IpAddress} {p : IpPrefix}
  {text : String}

theorem LengthText.not_blank (h : LengthText cs n) : ∀ c ∈ cs, Text.isBlank c = false := by
  obtain ⟨digits, hcs, -, hdigits, -⟩ := h
  have hplain : ∀ c ∈ digits, Text.isBlank c = false := by
    intro c hc
    have hdigit : (Text.digit? 10 c).isSome = true := by simp [Text.digit?_ten, hdigits c hc]
    exact (Text.plain_of_digit? hdigit).2
  rcases hcs with rfl | rfl
  · exact hplain
  · exact List.forall_mem_cons.mpr ⟨by decide, hplain⟩

theorem unsigned?_trim : Text.unsigned? 256 (Text.trim cs) = some n ↔
    n < 256 ∧ ∃ part, LengthText part n ∧ Text.Padded part cs := by
  constructor
  · intro h
    obtain ⟨digits, hcs, hne, hdigits, hn, hlt⟩ := Text.unsigned?_eq_some.mp h
    exact ⟨hlt, _, ⟨digits, hcs, hne, hdigits, hn⟩, Text.padded_trim cs⟩
  · rintro ⟨hlt, part, hpart, hpadded⟩
    rw [Text.trim_padded hpadded hpart.not_blank]
    obtain ⟨digits, hcs, hne, hdigits, hn⟩ := hpart
    exact Text.unsigned?_eq_some.mpr ⟨digits, hcs, hne, hdigits, hn, hlt⟩

theorem IpAddress.ofText?_trim : ofText? (Text.trim cs) = some a ↔
    ∃ part, Spelled part a ∧ Text.Padded part cs := by
  constructor
  · intro h
    exact ⟨_, ofText?_eq_some.mp h, Text.padded_trim cs⟩
  · rintro ⟨part, hpart, hpadded⟩
    rw [Text.trim_padded hpadded fun c hc => (hpart.plain c hc).2]
    exact ofText?_eq_some.mpr hpart

/-- No slash stands before that of the prefix. -/
theorem IpAddress.Spelled.slash_notMem (h : Spelled part a) (hpadded : Text.Padded part cs) :
    '/' ∉ cs := by
  obtain ⟨before, after, hbefore, hafter, rfl⟩ := hpadded
  have hslash : Text.isBlank '/' = false := by decide
  simp only [List.mem_append, not_or]
  refine ⟨⟨fun hc => ?_, fun hc => (h.plain _ hc).1 rfl⟩, fun hc => ?_⟩
  · simp [hbefore _ hc] at hslash
  · simp [hafter _ hc] at hslash

theorem IpAddress.width_lt (a : IpAddress) : a.width < 256 := by
  cases a <;> simp [width]

namespace IpPrefix

/-- A text is split at its first slash. -/
theorem takeWhile_dropWhile_slash {rest : List Char} (h : '/' ∉ front)
    (hrest : ∀ c ∈ rest.head?, c = '/') :
    (front ++ rest).takeWhile (· ≠ '/') = front ∧ (front ++ rest).dropWhile (· ≠ '/') = rest := by
  refine Text.takeWhile_dropWhile_append (fun c hc => ?_) fun c hc => ?_
  · exact decide_eq_true fun hslash => h (hslash ▸ hc)
  · simp [hrest c hc]

theorem parse_alone (h : '/' ∉ text.toList) : parse text =
    match IpAddress.ofText? (Text.trim text.toList) with
    | some a => .ok ⟨a, a.width, Nat.le_refl _⟩
    | none => .error (.malformed text) := by
  have hend : ∀ c ∈ ([] : List Char).head?, c = '/' := by simp
  obtain ⟨htake, hdrop⟩ := takeWhile_dropWhile_slash h hend
  rw [List.append_nil] at htake hdrop
  simp only [parse, htake, hdrop]
  cases IpAddress.ofText? (Text.trim text.toList) with
  | none => rfl
  | some a => simp [ofAddress]

theorem parse_slash (h : '/' ∉ front) (htext : text.toList = front ++ '/' :: digits) :
    parse text =
      match IpAddress.ofText? (Text.trim front), Text.unsigned? 256 (Text.trim digits) with
      | some a, some n => ofAddress a n
      | _, _ => .error (.malformed text) := by
  have hend : ∀ c ∈ ('/' :: digits).head?, c = '/' := by simp
  obtain ⟨htake, hdrop⟩ := takeWhile_dropWhile_slash h hend
  rw [← htext] at htake hdrop
  simp only [parse, htake, hdrop]
  cases IpAddress.ofText? (Text.trim front) with
  | none => rfl
  | some a => cases Text.unsigned? 256 (Text.trim digits) <;> rfl

/-- A text is parsed as the prefix it is a text of. -/
theorem parse_eq_ok : parse text = .ok p ↔ Spelled text.toList p := by
  constructor
  · intro h
    by_cases hslash : '/' ∈ text.toList
    · obtain ⟨front, rest, htext, hfront⟩ := List.eq_append_cons_of_mem hslash
      rw [parse_slash hfront htext] at h
      split at h
      · rename_i a n ha hn
        obtain ⟨part, hpart, hpadded⟩ := IpAddress.ofText?_trim.mp ha
        obtain ⟨-, digits, hdigits, hpadded'⟩ := unsigned?_trim.mp hn
        rw [ofAddress] at h
        split at h
        · rename_i hle
          cases h
          rw [htext]
          exact .withLength hle hpart hpadded hdigits hpadded'
        · cases h
      · cases h
    · rw [parse_alone hslash] at h
      split at h
      · rename_i a ha
        cases h
        obtain ⟨part, hpart, hpadded⟩ := IpAddress.ofText?_trim.mp ha
        exact .alone hpart hpadded
      · cases h
  · intro h
    generalize hcs : text.toList = cs at h
    cases h with
    | alone hpart hpadded =>
      have hread := IpAddress.ofText?_trim.mpr ⟨_, hpart, hpadded⟩
      subst hcs
      rw [parse_alone (hpart.slash_notMem hpadded)]
      simp only [hread]
    | withLength hle hpart hpadded hdigits hpadded' =>
      have hread := IpAddress.ofText?_trim.mpr ⟨_, hpart, hpadded⟩
      have hread' := unsigned?_trim.mpr
        ⟨Nat.lt_of_le_of_lt hle (IpAddress.width_lt _), _, hdigits, hpadded'⟩
      rw [parse_slash (hpart.slash_notMem hpadded) hcs]
      simp only [hread, hread', ofAddress, dif_pos hle]

theorem spelled_text (p : IpPrefix) : Spelled p.text.toList p := by
  have hdigits : LengthText (Text.decimal p.length) p.length :=
    ⟨_, .inl rfl, Nat.toDigits_ne_nil, Text.isDigit_toDigits _, Nat.ofDigitChars_ten_toDigits⟩
  rw [text, String.toList_ofList]
  exact .withLength p.length_le p.address.spelled_write (.refl _) hdigits (.refl _)

/-- A prefix is read from its text. -/
theorem parse_text (p : IpPrefix) : parse p.text = .ok p := parse_eq_ok.mpr p.spelled_text

theorem text_injective (h : p.text = q.text) : p = q := by
  have hparse := p.parse_text
  rw [h, q.parse_text] at hparse
  exact (Except.ok.inj hparse).symm

theorem length_eq_width (h : parse text = .ok p) (hslash : '/' ∉ text.toList) :
    p.length = p.address.width := by
  generalize hcs : text.toList = cs at hslash
  cases hcs ▸ parse_eq_ok.mp h with
  | alone => rfl
  | withLength => simp at hslash

/-- Prefixes are printed and parsed consistently. The text of a prefix is its address as addresses
are written, a slash, and its length in decimal; it is parsed as the prefix, so no other prefix has
it, and no endpoint with another prefix has the same host identity. What is parsed as a prefix is
just its texts, and it is parsed again once printed. -/
theorem printed_and_parsed :
    (∀ p : IpPrefix, ∃ cs, p.address.Written cs ∧
      p.text.toList = cs ++ '/' :: Text.decimal p.length) ∧
      (∀ p : IpPrefix, parse p.text = .ok p) ∧
      (∀ p q : IpPrefix, p.text = q.text → p = q) ∧
      (∀ (p q : IpPrefix) (d e : DeviceId) (i j : UInt32),
        (Endpoint.ip p d i).hostId? = (Endpoint.ip q e j).hostId? → p = q) ∧
      (∀ text p, parse text = .ok p ↔ Spelled text.toList p) ∧
      (∀ text p, parse text = .ok p → '/' ∉ text.toList → p.length = p.address.width) ∧
      ∀ text p, parse text = .ok p → p.length ≤ p.address.width ∧ parse p.text = .ok p := by
  refine ⟨fun p => ⟨p.address.write, IpAddress.written_iff.mpr rfl, String.toList_ofList⟩,
    parse_text, fun _ _ => text_injective, fun p q d e i j h => ?_, fun _ _ => parse_eq_ok,
    fun _ _ => length_eq_width, fun _ p _ => ⟨p.length_le, p.parse_text⟩⟩
  exact text_injective (HostId.mk.inj (Option.some.inj h))

/-- A text with blanks, upper case letters, zeros in full, a plus sign and leading zeros. -/
theorem printed_and_parsed_loose :
    let text := " 2001:DB8:0:0:1:0:0:0 / +064"
    let p : IpPrefix := ⟨.v6 ⟨[0x2001, 0xdb8, 0, 0, 1, 0, 0, 0], rfl⟩, 64, by decide⟩
    let host : IpPrefix := ⟨.v4 ⟨[10, 0, 0, 1], rfl⟩, 32, by decide⟩
    parse text = .ok p ∧ Spelled text.toList p ∧ p.length ≤ p.address.width ∧
      parse p.text = .ok p ∧ host.text ≠ p.text ∧
      parse "10.0.0.1" = .ok host ∧ host.length = host.address.width := by
  intro text p host
  have hp : parse text = .ok p := toOption_eq_some.mp (by decide +kernel)
  have hhost : parse "10.0.0.1" = .ok host := toOption_eq_some.mp (by decide +kernel)
  obtain ⟨-, -, hinjective, -, hspelled, hwhole, hagain⟩ := printed_and_parsed
  refine ⟨hp, (hspelled text p).mp hp, (hagain text p hp).1, (hagain text p hp).2, fun h => ?_,
    hhost, hwhole _ host hhost (by decide)⟩
  exact absurd (hinjective host p h) (by decide)

end IpPrefix

end IntentPlane
