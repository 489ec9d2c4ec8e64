import IntentPlane.Json.Reader
import IntentPlane.Json.Writer
import IntentPlane.Proofs.Digits
import IntentPlane.Proofs.Json.Number

/-!
# Reading JSON that was written

The compact text of a value is read as that value if the text says all of it: `Json.Fits` leaves out
the doubles without a number, integers out of range and nesting that is too deep. Reader by reader,
what is written is read back and what follows it is left (`value?_value`).
-/

namespace IntentPlane.Json

mutual

/-- Whether a value has a text of its own: everything in it is readable and in range, and arrays and
objects are nested at most `depth` deep. -/
def Fits (depth : Nat) : Json → Prop
  | .null | .bool _ | .str _ => True
  | .int n => wholeMin ≤ n ∧ n ≤ wholeMax
  | .float x => Double.isFinite x = true
  | .arr items => 0 < depth ∧ ItemsFit (depth - 1) items
  | .obj members => 0 < depth ∧ MembersFit (depth - 1) members
  | .unreadable => False

def ItemsFit (depth : Nat) : List Json → Prop
  | [] => True
  | item :: rest => item.Fits depth ∧ ItemsFit depth rest

def MembersFit (depth : Nat) : List (String × Json) → Prop
  | [] => True
  | (_, item) :: rest => item.Fits depth ∧ MembersFit depth rest

end

namespace Reader

variable {cs rest : List Char} {c : Char} {n depth fuel : Nat}

/-- What may follow a value: nothing, or what ends it in an array or object. -/
def Ended (rest : List Char) : Prop := ∀ c ∈ rest.head?, c = ',' ∨ c = ']' ∨ c = '}'

/-! ## Strings -/

theorem ofDigits?_hex4 (h : n < 0x20) : Text.ofDigits? 16 (Writer.hex4 n) = some n := by
  revert h n
  decide

/-- What is written for a character is read as it. -/
theorem string?_cons_escape {pieces : List Piece} {tail : List Char} (c : Char)
    (hread : string? cs = some (pieces, rest)) (hcharacters : characters? pieces = some tail) :
    ∃ pieces, string? (Writer.escape c ++ cs) = some (pieces, rest) ∧
      characters? pieces = some (c :: tail) := by
  have hchar (h : string? (Writer.escape c ++ cs) = some (.char c :: pieces, rest)) :
      ∃ pieces, string? (Writer.escape c ++ cs) = some (pieces, rest) ∧
        characters? pieces = some (c :: tail) := ⟨_, h, by simp [characters?, hcharacters]⟩
  by_cases hletter : c ∈ ['"', '\\', '\n', '\r', '\t', '\x08', '\x0c']
  · refine hchar ?_
    simp only [List.mem_cons, List.not_mem_nil, or_false] at hletter
    rcases hletter with rfl | rfl | rfl | rfl | rfl | rfl | rfl <;>
      simp [Writer.escape, string?, escaped?, hread]
  · simp only [List.mem_cons, List.not_mem_nil, or_false, not_or] at hletter
    by_cases hcontrol : c.toNat < 0x20
    · -- A control character is written by its number, which is that of no surrogate.
      have hescape : Writer.escape c = '\\' :: 'u' :: Writer.hex4 c.toNat := by
        simp [Writer.escape, hletter, hcontrol]
      refine ⟨.unit c.toNat :: pieces, ?_, ?_⟩
      · rw [hescape]
        have hnumber := ofDigits?_hex4 hcontrol
        simp only [Writer.hex4, List.map_cons, List.map_nil] at hnumber ⊢
        simp [string?, hnumber, hread]
      · have hhigh : isHighSurrogate c.toNat = false := by
          simp [isHighSurrogate]
          omega
        have hlow : isLowSurrogate c.toNat = false := by
          simp [isLowSurrogate]
          omega
        rw [characters?.eq_def]
        simp [hhigh, hlow, hcharacters]
    · refine hchar ?_
      have hescape : Writer.escape c = [c] := by simp [Writer.escape, hletter, hcontrol]
      rw [hescape]
      have hplain : 0x20 ≤ c.toNat := by omega
      simp [string?, hletter, hplain, hread, guard]

/-- A string is read from what is written between its quotes. -/
theorem string?_escape (cs rest : List Char) :
    ∃ pieces, string? (cs.flatMap Writer.escape ++ '"' :: rest) = some (pieces, rest) ∧
      characters? pieces = some cs := by
  induction cs with
  | nil => exact ⟨[], by simp [string?], rfl⟩
  | cons c cs ih =>
    obtain ⟨pieces, hread, hcharacters⟩ := ih
    rw [List.flatMap_cons, List.append_assoc]
    exact string?_cons_escape c hread hcharacters

theorem string?_string (s : String) (rest : List Char) :
    ∃ pieces, Writer.string s ++ rest = '"' :: (s.toList.flatMap Writer.escape ++ '"' :: rest) ∧
      string? (s.toList.flatMap Writer.escape ++ '"' :: rest) = some (pieces, rest) ∧
      text? pieces = some s := by
  obtain ⟨pieces, hread, hcharacters⟩ := string?_escape s.toList rest
  exact ⟨pieces, by simp [Writer.string], hread, by simp [text?, hcharacters]⟩

/-! ## Numbers -/

theorem digits_append {run : List Char} (hrun : ∀ c ∈ run, c.isDigit = true)
    (hrest : ∀ c ∈ rest.head?, c.isDigit = false) : digits (run ++ rest) = (run, rest) := by
  obtain ⟨htake, hdrop⟩ := Text.takeWhile_dropWhile_append hrun hrest
  rw [digits, htake, hdrop]

theorem digits1?_toDigits (n : Nat) (hrest : ∀ c ∈ rest.head?, c.isDigit = false) :
    digits1? (Nat.toDigits 10 n ++ rest) = some (Nat.toDigits 10 n, rest) := by
  rw [digits1?, digits_append (Text.isDigit_toDigits n) hrest]
  simp [Nat.toDigits_ne_nil]

theorem whole?_toDigits (n : Nat) (hrest : ∀ c ∈ rest.head?, c.isDigit = false) :
    whole? (Nat.toDigits 10 n ++ rest) = some (Nat.toDigits 10 n, rest) := by
  cases n with
  | zero =>
    cases rest with
    | nil => rfl
    | cons c rest =>
      have hc := hrest c rfl
      simp [whole?, hc]
  | succ n =>
    have hhead := Text.head?_toDigits (Nat.succ_pos n)
    have hread := digits1?_toDigits (n + 1) hrest
    cases hdigits : Nat.toDigits 10 (n + 1) with
    | nil => exact absurd hdigits Nat.toDigits_ne_nil
    | cons c tail =>
      rw [hdigits] at hhead hread
      have hc : c ≠ '0' := by simpa using hhead
      simpa [whole?, hc] using hread

/-- A number is read part by part after its sign. -/
theorem number?_eq {body cs₁ cs₂ whole : List Char} {fraction : Option (List Char)}
    {exponent : Option Int} (negative : Bool) (hbody : ∀ c ∈ body.head?, c ≠ '-')
    (hwhole : whole? body = some (whole, cs₁)) (hfraction : fraction? cs₁ = some (fraction, cs₂))
    (hexponent : exponent? cs₂ = some (exponent, rest)) :
    number? (if negative then '-' :: body else body) =
      some (numberValue negative whole fraction exponent, rest) := by
  cases negative with
  | true => simp [number?, hwhole, hfraction, hexponent]
  | false =>
    cases body with
    | nil => simp [whole?, digits1?, digits] at hwhole
    | cons c body =>
      have hc := hbody c rfl
      simp [number?, hc, hwhole, hfraction, hexponent]

theorem ne_minus_of_toDigits (n : Nat) : ∀ c ∈ (Nat.toDigits 10 n ++ cs).head?, c ≠ '-' := by
  intro c hc hminus
  rw [List.head?_append_of_ne_nil _ Nat.toDigits_ne_nil] at hc
  have hdigit := Text.isDigit_toDigits n c (List.mem_of_mem_head? hc)
  rw [hminus] at hdigit
  exact absurd hdigit (by decide)

namespace Ended

theorem isDigit (h : Ended rest) : ∀ c ∈ rest.head?, c.isDigit = false := by
  intro c hc
  rcases h c hc with rfl | rfl | rfl <;> rfl

theorem fraction? (h : Ended rest) : fraction? rest = some (none, rest) := by
  cases rest with
  | nil => rfl
  | cons c rest => rcases h c rfl with rfl | rfl | rfl <;> rfl

theorem exponent? (h : Ended rest) : exponent? rest = some (none, rest) := by
  cases rest with
  | nil => rfl
  | cons c rest => rcases h c rfl with rfl | rfl | rfl <;> rfl

end Ended

theorem number?_integer {n : Int} (hmin : wholeMin ≤ n) (hmax : n ≤ wholeMax) (h : Ended rest) :
    number? (Writer.integer n ++ rest) = some (.int n, rest) := by
  have htext : Writer.integer n ++ rest = if decide (n < 0) then
      '-' :: (Nat.toDigits 10 n.natAbs ++ rest) else Nat.toDigits 10 n.natAbs ++ rest := by
    simp only [Writer.integer, decide_eq_true_eq]
    split <;> rfl
  rw [htext, number?_eq _ (ne_minus_of_toDigits _) (whole?_toDigits _ h.isDigit) h.fraction?
    h.exponent?]
  have hsigned : (if decide (n < 0) then -(n.natAbs : Int) else n.natAbs) = n := by
    simp only [decide_eq_true_eq]
    split <;> omega
  have hzero : ¬(decide (n < 0) = true ∧ n.natAbs = 0) := by
    simp only [decide_eq_true_eq]
    omega
  simp only [numberValue, Option.getD_none, List.append_nil, Nat.ofDigitChars_ten_toDigits, hsigned,
    Option.isNone_none, true_and]
  rw [if_pos ⟨hmin, hmax, hzero⟩]

theorem number?_float {x : Float} (hx : Double.isFinite x = true) (h : Ended rest) :
    number? (Double.write x ++ rest) = some (.float x, rest) := by
  obtain ⟨size, hsize, hwrite⟩ := Double.write_eq hx
  have htext : Double.write x ++ rest =
      if Double.isNegative x then '-' :: (size ++ rest) else size ++ rest := by
    rw [hwrite]
    split <;> rfl
  rw [htext]
  cases hsize with
  | whole m hm =>
    have hfraction : fraction? ('.' :: '0' :: rest) = some (some ['0'], rest) := by
      have hzero : digits1? ('0' :: rest) = some (['0'], rest) := digits1?_toDigits 0 h.isDigit
      simp [fraction?, hzero]
    have hwhole : whole? (Nat.toDigits 10 m ++ '.' :: '0' :: rest) =
        some (Nat.toDigits 10 m, '.' :: '0' :: rest) := whole?_toDigits m (by simp)
    have hmantissa : Nat.ofDigitChars 10 (Nat.toDigits 10 m ++ ['0']) 0 = 10 * m := by
      simp [Nat.ofDigitChars_append, Nat.ofDigitChars_ten_toDigits, Nat.ofDigitChars_cons]
    simp only [List.append_assoc, List.cons_append, List.nil_append]
    rw [number?_eq _ (ne_minus_of_toDigits _) hwhole hfraction h.exponent?]
    simp [numberValue, hmantissa, hm]
  | scaled m k hm =>
    have hexponent : exponent? ('e' :: '-' :: (Nat.toDigits 10 k ++ rest)) =
        some (some (-(k : Int)), rest) := by
      simp [exponent?, digits1?_toDigits k h.isDigit, Nat.ofDigitChars_ten_toDigits]
    have hwhole : whole? (Nat.toDigits 10 m ++ 'e' :: '-' :: (Nat.toDigits 10 k ++ rest)) =
        some (Nat.toDigits 10 m, 'e' :: '-' :: (Nat.toDigits 10 k ++ rest)) :=
      whole?_toDigits m (by simp)
    simp only [List.append_assoc, List.cons_append]
    rw [number?_eq _ (ne_minus_of_toDigits _) hwhole rfl hexponent]
    simp [numberValue, Nat.ofDigitChars_ten_toDigits, hm]

/-! ## Values -/

/-- A character that a number begins with. -/
def BeginsNumber (c : Char) : Prop := c.isDigit = true ∨ c = '-'

theorem begins_toDigits (n : Nat) :
    ∃ c tail, Nat.toDigits 10 n = c :: tail ∧ BeginsNumber c := by
  cases h : Nat.toDigits 10 n with
  | nil => exact absurd h Nat.toDigits_ne_nil
  | cons c tail => exact ⟨c, tail, rfl, .inl (Text.isDigit_toDigits n c (h ▸ .head _))⟩

theorem begins_integer (n : Int) : ∃ c tail, Writer.integer n = c :: tail ∧ BeginsNumber c := by
  unfold Writer.integer
  split
  · exact ⟨'-', _, rfl, .inr rfl⟩
  · exact begins_toDigits _

theorem begins_float {x : Float} (hx : Double.isFinite x = true) :
    ∃ c tail, Writer.float x = c :: tail ∧ BeginsNumber c := by
  obtain ⟨size, hsize, hwrite⟩ := Double.write_eq hx
  rw [Writer.float, if_pos hx, hwrite]
  split
  · exact ⟨'-', size, rfl, .inr rfl⟩
  · cases hsize with
    | whole m | scaled m =>
      obtain ⟨c, tail, hm, hc⟩ := begins_toDigits m
      exact ⟨c, _, by rw [hm]; rfl, hc⟩

theorem BeginsNumber.ne (h : BeginsNumber c) :
    c ≠ '"' ∧ c ≠ '[' ∧ c ≠ '{' ∧ c ≠ 'n' ∧ c ≠ 't' ∧ c ≠ 'f' ∧ c ≠ ']' ∧ c ≠ '}' ∧
      isSpace c = false := by
  rcases h with h | rfl
  · refine ⟨?_, ?_, ?_, ?_, ?_, ?_, ?_, ?_, ?_⟩
    iterate 8 rintro rfl; cases h
    cases hspace : isSpace c with
    | false => rfl
    | true =>
      simp only [isSpace, Bool.or_eq_true, decide_eq_true_eq] at hspace
      rcases hspace with ((rfl | rfl) | rfl) | rfl <;> cases h
  · decide

theorem value?_number (h : BeginsNumber c) (cs : List Char) :
    value? depth (fuel + 1) (c :: cs) = number? (c :: cs) := by
  have hother := h.ne
  simp [value?, hother]

/-- A value begins with a character that is no space and ends nothing. -/
theorem begins_value {j : Json} (h : j.Fits n) : ∃ c tail, Writer.value j = c :: tail ∧
    isSpace c = false ∧ c ≠ ']' ∧ c ≠ '}' := by
  have hnumber {c : Char} (hc : BeginsNumber c) : isSpace c = false ∧ c ≠ ']' ∧ c ≠ '}' := by
    obtain ⟨-, -, -, -, -, -, hbracket, hbrace, hspace⟩ := hc.ne
    exact ⟨hspace, hbracket, hbrace⟩
  cases j with
  | null => exact ⟨'n', _, rfl, by decide⟩
  | bool b => cases b <;> exact ⟨_, _, rfl, by decide⟩
  | int i =>
    obtain ⟨c, tail, htext, hc⟩ := begins_integer i
    exact ⟨c, tail, htext, hnumber hc⟩
  | float x =>
    obtain ⟨c, tail, htext, hc⟩ := begins_float h
    exact ⟨c, tail, htext, hnumber hc⟩
  | str s => exact ⟨'"', _, rfl, by decide⟩
  | arr items => cases items <;> exact ⟨'[', _, rfl, by decide⟩
  | obj members => cases members <;> exact ⟨'{', _, rfl, by decide⟩
  | unreadable => cases h

theorem skipSpace_cons (h : isSpace c = false) (cs : List Char) :
    skipSpace (c :: cs) = c :: cs := by simp [skipSpace, h]

theorem skipSpace_value {j : Json} (h : j.Fits n) (rest : List Char) :
    skipSpace (Writer.value j ++ rest) = Writer.value j ++ rest := by
  obtain ⟨c, tail, htext, hspace, -⟩ := begins_value h
  rw [htext, List.cons_append, skipSpace_cons hspace]

theorem word?_append (word : List Char) (value : Json) (rest : List Char) :
    word? word value (word ++ rest) = some (value, rest) := by
  simp [word?]

theorem object_some (members : List (String × Json)) :
    object (members.map fun member => (some member.1, member.2)) = .obj members := by
  have hnames : ∀ members : List (String × Json),
      (members.map fun member => (some member.1, member.2)).mapM
        (fun member : Option String × Json => do return (← member.1, member.2)) =
        some members := by
    intro members
    induction members with
    | nil => rfl
    | cons member members ih =>
      rw [List.map_cons, List.mapM_cons, ih]
      rfl
  unfold object
  rw [hnames]
  rfl

theorem ended_items (items : List Json) (rest : List Char) :
    Ended (Writer.items items ++ rest) := by
  cases items with
  | nil => exact fun _ hc => .inr (.inl (Option.some.inj hc).symm)
  | cons => exact fun _ hc => .inl (Option.some.inj hc).symm

theorem ended_members (members : List (String × Json)) (rest : List Char) :
    Ended (Writer.members members ++ rest) := by
  cases members with
  | nil => exact fun _ hc => .inr (.inr (Option.some.inj hc).symm)
  | cons => exact fun _ hc => .inl (Option.some.inj hc).symm

theorem items_pos (items : List Json) : 0 < (Writer.items items).length := by
  cases items <;> simp [Writer.items]

theorem members_pos (members : List (String × Json)) : 0 < (Writer.members members).length := by
  cases members <;> simp [Writer.members]

mutual

/-- What is written of a value is read as it, and what follows is left. -/
theorem value?_value {n depth : Nat} : ∀ (j : Json) {fuel : Nat} {rest : List Char}, j.Fits n →
    depth + n ≤ depthLimit → (Writer.value j).length ≤ fuel → Ended rest →
    value? depth fuel (Writer.value j ++ rest) = some (j, rest)
  | j, 0, _, h, _, hfuel, _ => by
    obtain ⟨c, tail, htext, -⟩ := begins_value h
    simp [htext] at hfuel
  | .null, fuel + 1, rest, _, _, _, _ => word?_append ['n', 'u', 'l', 'l'] .null rest
  | .bool true, fuel + 1, rest, _, _, _, _ => word?_append ['t', 'r', 'u', 'e'] (.bool true) rest
  | .bool false, fuel + 1, rest, _, _, _, _ =>
    word?_append ['f', 'a', 'l', 's', 'e'] (.bool false) rest
  | .int i, fuel + 1, rest, h, _, _, hrest => by
    obtain ⟨c, tail, htext, hc⟩ := begins_integer i
    have hread := number?_integer h.1 h.2 hrest
    rw [Writer.value]
    rw [htext] at hread ⊢
    exact (value?_number hc _).trans hread
  | .float x, fuel + 1, rest, h, _, _, hrest => by
    obtain ⟨c, tail, htext, hc⟩ := begins_float h
    have hread := number?_float h hrest
    have hwrite : Writer.float x = Double.write x := if_pos h
    rw [← hwrite] at hread
    rw [Writer.value]
    rw [htext] at hread ⊢
    exact (value?_number hc _).trans hread
  | .str s, fuel + 1, rest, _, _, _, _ => by
    obtain ⟨pieces, hs, hread, htext⟩ := string?_string s rest
    rw [Writer.value, hs]
    simp [value?, hread, stringValue, htext]
  | .arr [], fuel + 1, rest, h, hdepth, _, _ => by
    have hnested : depth < depthLimit := by have := h.1; omega
    simp [Writer.value, value?, skipSpace_cons (c := ']') rfl, nested, hnested]
  | .arr (item :: items), fuel + 1, rest, h, hdepth, hfuel, _ => by
    obtain ⟨hn, hitems⟩ := h
    obtain ⟨c, tail, htext, hspace, hbracket, -⟩ := begins_value hitems.1
    have hread : items? (depth + 1) fuel ((Writer.items (item :: items)).tail ++ rest) =
        some (item :: items, rest) :=
      items?_items (item :: items) hitems (by simp) (by omega)
        (by simpa [Writer.value, Writer.items] using hfuel)
    simp only [Writer.items, htext, List.cons_append, List.tail_cons, List.append_assoc] at hread
    have hnested : depth < depthLimit := by omega
    simp [Writer.value, value?, htext, skipSpace_cons hspace, hbracket, nested, hnested, hread]
  | .obj [], fuel + 1, rest, h, hdepth, _, _ => by
    have hnested : depth < depthLimit := by have := h.1; omega
    simp [Writer.value, value?, skipSpace_cons (c := '}') rfl, nested, hnested]
  | .obj (member :: members), fuel + 1, rest, h, hdepth, hfuel, _ => by
    obtain ⟨hn, hmembers⟩ := h
    have hread : members? (depth + 1) fuel ((Writer.members (member :: members)).tail ++ rest) =
        some ((member :: members).map fun member => (some member.1, member.2), rest) :=
      members?_members (member :: members) hmembers (by simp) (by omega)
        (by simpa [Writer.value, Writer.members] using hfuel)
    simp only [Writer.members, Writer.string, List.cons_append, List.tail_cons, List.append_assoc,
      List.nil_append] at hread
    have hnested : depth < depthLimit := by omega
    simp [Writer.value, value?, Writer.string, skipSpace_cons (c := '"') rfl, nested, hnested,
      hread, ← object_some]
  | .unreadable, fuel + 1, _, h, _, _, _ => h.elim

/-- The items of an array are read up to its end. -/
theorem items?_items {n depth : Nat} : ∀ (items : List Json) {fuel : Nat} {rest : List Char},
    ItemsFit n items → items ≠ [] → depth + n ≤ depthLimit →
    (Writer.items items).length ≤ fuel + 1 →
    items? depth fuel ((Writer.items items).tail ++ rest) = some (items, rest)
  | [], _, _, _, hne, _, _ => absurd rfl hne
  | item :: items, 0, _, _, _, _, hfuel => by
    simp only [Writer.items, List.cons_append, List.length_cons, List.length_append] at hfuel
    have hpos := items_pos items
    omega
  | item :: items, fuel + 1, rest, h, _, hdepth, hfuel => by
    have hpos := items_pos items
    simp only [Writer.items, List.length_cons, List.length_append] at hfuel
    have hread : value? depth fuel (Writer.value item ++ (Writer.items items ++ rest)) =
        some (item, Writer.items items ++ rest) :=
      value?_value item h.1 hdepth (by omega) (ended_items items rest)
    simp only [Writer.items, List.cons_append, List.tail_cons, List.append_assoc, items?]
    rw [hread]
    cases items with
    | nil => simp [Writer.items, skipSpace_cons (c := ']') rfl]
    | cons next items =>
      have hrest : items? depth fuel ((Writer.items (next :: items)).tail ++ rest) =
          some (next :: items, rest) := items?_items (next :: items) h.2 (by simp) hdepth (by omega)
      have hskip := skipSpace_value h.2.1 (Writer.items items ++ rest)
      simp only [Writer.items, List.cons_append, List.tail_cons, List.append_assoc] at hrest
      simp [Writer.items, skipSpace_cons (c := ',') rfl, hskip, hrest]

theorem members?_members {n depth : Nat} : ∀ (members : List (String × Json)) {fuel : Nat}
    {rest : List Char}, MembersFit n members → members ≠ [] → depth + n ≤ depthLimit →
    (Writer.members members).length ≤ fuel + 1 →
    members? depth fuel ((Writer.members members).tail ++ rest) =
      some (members.map fun member => (some member.1, member.2), rest)
  | [], _, _, _, hne, _, _ => absurd rfl hne
  | (name, item) :: members, 0, _, _, _, _, hfuel => by
    simp only [Writer.members, List.cons_append, List.length_cons, List.length_append] at hfuel
    have hpos := members_pos members
    omega
  | (name, item) :: members, fuel + 1, rest, h, _, hdepth, hfuel => by
    have hpos := members_pos members
    simp only [Writer.members, List.length_cons, List.length_append] at hfuel
    have hread : value? depth fuel (Writer.value item ++ (Writer.members members ++ rest)) =
        some (item, Writer.members members ++ rest) :=
      value?_value item h.1 hdepth (by omega) (ended_members members rest)
    obtain ⟨pieces, hs, hname, htext⟩ := string?_string name
      (':' :: (Writer.value item ++ (Writer.members members ++ rest)))
    have hskip := skipSpace_value h.1 (Writer.members members ++ rest)
    simp only [Writer.members, List.tail_cons, List.append_assoc, List.cons_append] at hs ⊢
    rw [hs]
    simp only [members?, hname, Option.bind_eq_bind, Option.bind_some,
      skipSpace_cons (c := ':') rfl]
    rw [hskip, hread]
    cases members with
    | nil => simp [Writer.members, skipSpace_cons (c := '}') rfl, htext]
    | cons next members =>
      have hrest : members? depth fuel ((Writer.members (next :: members)).tail ++ rest) =
          some ((next :: members).map fun member => (some member.1, member.2), rest) :=
        members?_members (next :: members) h.2 (by simp) hdepth (by omega)
      simp only [Writer.members, Writer.string, List.cons_append, List.tail_cons,
        List.append_assoc, List.nil_append] at hrest
      simp [Writer.members, Writer.string, skipSpace_cons (c := ',') rfl,
        skipSpace_cons (c := '"') rfl, hrest, htext]

end

end Reader

/-- The text of a value that fits is read as that value. -/
theorem parse?_render {j : Json} (h : j.Fits 127) : parse? (render j) = some j := by
  have hread : Reader.value? 1 ((Writer.value j).length + 1) (Writer.value j ++ []) =
      some (j, []) :=
    Reader.value?_value j h (by decide) (by omega) (by simp [Reader.Ended])
  have hskip := Reader.skipSpace_value h []
  rw [List.append_nil] at hread hskip
  have hend : Reader.skipSpace [] = [] := rfl
  simp [parse?, render, hskip, hread, hend]

end IntentPlane.Json
