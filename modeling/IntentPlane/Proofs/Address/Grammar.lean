import IntentPlane.Address.Reader
import IntentPlane.Address.Writer
import IntentPlane.Proofs.Digits
import Mathlib.Data.Option.Basic

/-!
# Texts of addresses

The grammar that texts of addresses have (`IpAddress.Spelled`), and that reading follows it
(`IpAddress.ofText?_eq_some`). A series of groups is read group by group from the left, and its text
may end in more than one way; but no group looks like the beginning of a dotted quad, so what was
read is never taken back.
-/

namespace IntentPlane

/-! ## Dotted quads -/

namespace IPv4

variable {cs rest : List Char} {o : UInt8} {os : List UInt8} {n : Nat} {a : IPv4}

theorem octet?_toDigits (o : UInt8) (hrest : ∀ c ∈ rest.head?, c.isDigit = false) :
    octet? (Nat.toDigits 10 o.toNat ++ rest) = some (o, rest) := by
  obtain ⟨htake, -⟩ := Text.takeWhile_dropWhile_append (Text.isDigit_toDigits o.toNat) hrest
  have hlength : (Nat.toDigits 10 o.toNat).length ≤ 3 := by
    have := o.toNat_lt
    rw [Nat.length_toDigits_le_iff (by decide) (by decide)]
    omega
  have hzero : (Nat.toDigits 10 o.toNat).head? = some '0' →
      (Nat.toDigits 10 o.toNat).length = 1 := by
    intro hhead
    cases hn : o.toNat with
    | zero => rfl
    | succ n =>
      rw [hn] at hhead
      exact absurd hhead (Text.head?_toDigits (Nat.succ_pos n))
  have hread : Text.unsigned? 256 (Nat.toDigits 10 o.toNat) = some o.toNat :=
    Text.unsigned?_decimal o.toNat_lt
  simp only [octet?, htake]
  rw [hread, guard, if_pos ⟨hlength, hzero⟩]
  simp

theorem octet?_eq_some : octet? cs = some (o, rest) ↔
    cs = Nat.toDigits 10 o.toNat ++ rest ∧ ∀ c ∈ rest.head?, c.isDigit = false := by
  constructor
  · intro h
    obtain ⟨hsplit, hstop⟩ := Text.takeWhile_append_drop Char.isDigit cs
    simp only [octet?, Option.bind_eq_bind, Option.bind_eq_some_iff, Option.pure_def,
      Option.some.injEq, Prod.mk.injEq] at h
    obtain ⟨_, hguard, n, hn, rfl, rfl⟩ := h
    have hzero := (Option.ite_none_right_eq_some.mp hguard).1.2
    obtain ⟨digits, hdigits, hne, hall, rfl, hlt⟩ := Text.unsigned?_eq_some.mp hn
    have hrun : cs.takeWhile Char.isDigit = digits := by
      refine hdigits.resolve_right fun hplus => ?_
      have hmem : '+' ∈ cs.takeWhile Char.isDigit := hplus ▸ .head _
      exact absurd (List.all_eq_true.mp List.all_takeWhile '+' hmem) (by decide)
    rw [hrun] at hsplit hstop hzero ⊢
    rw [UInt8.toNat_ofNat_of_lt' hlt, Text.toDigits_ofDigitChars hne hall hzero]
    exact ⟨hsplit.symm, hstop⟩
  · rintro ⟨rfl, hrest⟩
    exact octet?_toDigits o hrest

theorem octets?_eq_some (h : octets? (n + 1) cs = some (os, rest)) :
    os.length = n + 1 ∧ cs = write os ++ rest ∧ ∀ c ∈ rest.head?, c.isDigit = false := by
  induction n generalizing cs os with
  | zero =>
    obtain ⟨⟨o, _⟩, ho, heq⟩ := Option.map_eq_some_iff.mp h
    cases heq
    obtain ⟨rfl, hrest⟩ := octet?_eq_some.mp ho
    exact ⟨rfl, by simp [write, Text.joinDigits], hrest⟩
  | succ n ih =>
    rw [octets?.eq_3 _ _ (by omega)] at h
    obtain ⟨⟨o, rest'⟩, ho, h⟩ := Option.bind_eq_some_iff.mp h
    split at h
    · rename_i rest'' heq
      cases heq
      obtain ⟨⟨os, _⟩, hos, heq⟩ := Option.bind_eq_some_iff.mp h
      cases heq
      obtain ⟨hlength, rfl, hrest⟩ := ih hos
      obtain ⟨rfl, -⟩ := octet?_eq_some.mp ho
      refine ⟨by rw [List.length_cons, hlength], ?_, hrest⟩
      cases os with
      | nil => cases hlength
      | cons next os => simp [write, Text.joinDigits]
    · cases h

theorem octets?_write {os : List UInt8} (hne : os ≠ [])
    (hrest : ∀ c ∈ rest.head?, c.isDigit = false) :
    octets? os.length (write os ++ rest) = some (os, rest) := by
  induction os with
  | nil => exact absurd rfl hne
  | cons o os ih =>
    cases os with
    | nil => simp [write, Text.joinDigits, octets?, octet?_toDigits o hrest]
    | cons next os =>
      have hread := ih (by simp)
      have hfirst : octet? (Nat.toDigits 10 o.toNat ++ '.' :: (write (next :: os) ++ rest)) =
          some (o, '.' :: (write (next :: os) ++ rest)) := octet?_toDigits o (by simp)
      simp only [write, List.map_cons, List.length_cons] at hread hfirst
      simp [write, Text.joinDigits, octets?, hfirst, hread]

/-- Text without a point up to a colon begins no dotted quad. -/
theorem octets?_eq_none (hrun : '.' ∉ cs) (hrest : ∀ c ∈ rest.head?, c = ':') :
    octets? (n + 2) (cs ++ rest) = none := by
  refine Option.eq_none_iff_forall_ne_some.mpr fun read hread => ?_
  obtain ⟨os, rest'⟩ := read
  obtain ⟨hlength, hwrite, -⟩ := octets?_eq_some hread
  match os, hlength with
  | o :: next :: os, _ =>
    -- The first point would stand in `cs` or at the beginning of `rest`.
    have hpoint : cs ++ rest = Nat.toDigits 10 o.toNat ++ '.' :: (write (next :: os) ++ rest') := by
      rw [hwrite]
      simp [write, Text.joinDigits]
    rcases List.append_eq_append_iff.mp hpoint with ⟨m, hdigits, rfl⟩ | ⟨m, rfl, hm⟩
    · cases m with
      | nil => cases hrest '.' rfl
      | cons c m =>
        obtain rfl := hrest c rfl
        have hcolon : ':' ∈ Nat.toDigits 10 o.toNat := by simp [hdigits]
        exact absurd (Text.isDigit_toDigits _ _ hcolon) (by decide)
    · cases m with
      | nil => cases hrest '.' (by rw [← List.nil_append rest, ← hm]; rfl)
      | cons c m =>
        obtain ⟨rfl, -⟩ := List.cons.inj hm
        simp at hrun

theorem read?_eq_some : read? cs = some (a, rest) ↔
    cs = write a.octets ++ rest ∧ ∀ c ∈ rest.head?, c.isDigit = false := by
  constructor
  · intro h
    obtain ⟨⟨os, rest'⟩, hos, h⟩ := Option.bind_eq_some_iff.mp h
    simp only at h
    split at h
    · cases h
      exact (octets?_eq_some hos).2
    · cases h
  · rintro ⟨rfl, hrest⟩
    have hne : a.octets ≠ [] := fun h => by simpa [h] using a.length_octets
    have hread := octets?_write hne hrest
    rw [a.length_octets] at hread
    simp [read?, hread, a.length_octets]

end IPv4

/-! ## Groups -/

namespace IPv6

/-- The text of a group: one to four hexadecimal digits of either case. -/
def GroupText (cs : List Char) (g : UInt16) : Prop :=
  1 ≤ cs.length ∧ cs.length ≤ 4 ∧ Text.ofDigits? 16 cs = some g.toNat

/-- The text of a series of groups, with colons between them. A dotted quad may stand for the last
two. -/
inductive SeriesText : (dotted : Bool) → List Char → List UInt16 → Prop where
  | nil : SeriesText false [] []
  | quad {os : List UInt8} : os.length = 4 → SeriesText true (IPv4.write os) (ofOctets os)
  | last : GroupText cs g → SeriesText false cs [g]
  | group : GroupText cs g → SeriesText dotted cs' (h :: gs) →
      SeriesText dotted (cs ++ ':' :: cs') (g :: h :: gs)

/-- The texts of an address: all its groups, or those before and after some zeros, in place of which
two colons stand. -/
inductive Spelled : List Char → IPv6 → Prop where
  | full : SeriesText dotted cs a.groups → Spelled cs a
  | compressed : SeriesText false cs head → SeriesText dotted cs' tail → 0 < n →
      a.groups = head ++ List.replicate n 0 ++ tail → Spelled (cs ++ ':' :: ':' :: cs') a

variable {cs rest : List Char} {g : UInt16} {gs head tail : List UInt16} {dotted : Bool}
  {limit : Nat} {a : IPv6}

theorem GroupText.isSome_digit? (h : GroupText cs g) :
    ∀ c ∈ cs, (Text.digit? 16 c).isSome = true := (Text.foldlM_digit?_lt h.2.2).1

theorem GroupText.point_notMem (h : GroupText cs g) : '.' ∉ cs := fun hmem =>
  absurd (h.isSome_digit? _ hmem) (by decide)

theorem group?_eq_some : group? cs = some (g, rest) ↔
    ∃ run, GroupText run g ∧ cs = run ++ rest ∧
      ∀ c ∈ rest.head?, (Text.digit? 16 c).isSome = false := by
  constructor
  · intro h
    obtain ⟨hsplit, hstop⟩ :=
      Text.takeWhile_append_drop (fun c => (Text.digit? 16 c).isSome) cs
    simp only [group?, Option.bind_eq_bind, Option.bind_eq_some_iff, Option.pure_def,
      Option.some.injEq, Prod.mk.injEq] at h
    obtain ⟨_, hguard, n, hn, rfl, rfl⟩ := h
    obtain ⟨hpos, hfour⟩ := (Option.ite_none_right_eq_some.mp hguard).1
    have hlt : n < UInt16.size := by
      have hpow := Nat.pow_le_pow_right (n := 16) (by decide) hfour
      have hread := (Text.foldlM_digit?_lt hn).2
      have hsize : UInt16.size = 16 ^ 4 := rfl
      omega
    refine ⟨_, ⟨hpos, hfour, ?_⟩, hsplit.symm, hstop⟩
    rw [UInt16.toNat_ofNat_of_lt' hlt, hn]
  · rintro ⟨run, hrun, rfl, hrest⟩
    obtain ⟨htake, -⟩ := Text.takeWhile_dropWhile_append hrun.isSome_digit? hrest
    obtain ⟨hpos, hfour, hread⟩ := hrun
    simp [group?, htake, hpos, hfour, hread, guard]

/-- No group begins with a colon. -/
theorem group?_eq_none (h : ∀ c ∈ cs.head?, c = ':') : group? cs = none := by
  refine Option.eq_none_iff_forall_ne_some.mpr fun (g, rest) hread => ?_
  obtain ⟨run, hrun, rfl, -⟩ := group?_eq_some.mp hread
  cases run with
  | nil => exact absurd hrun.1 (by decide)
  | cons c run =>
    obtain rfl := h c rfl
    exact absurd (hrun.isSome_digit? ':' (.head _)) (by decide)

/-- A series begins with a dotted quad, which ends it, or with a group. -/
theorem series_succ (limit : Nat) (first : Bool) (body : List Char) :
    series (limit + 1) first ((if first then [] else [':']) ++ body) =
      match if 1 ≤ limit then IPv4.octets? 4 body else none with
      | some (os, rest) => ⟨ofOctets os, true, rest⟩
      | none =>
        match group? body with
        | none => ⟨[], false, (if first then [] else [':']) ++ body⟩
        | some (g, rest) =>
          { series limit false rest with groups := g :: (series limit false rest).groups } := by
  cases first <;> rfl

theorem series_succ_cases (limit : Nat) (first : Bool) (cs : List Char) :
    series (limit + 1) first cs = ⟨[], false, cs⟩ ∨
      ∃ body, cs = (if first then [] else [':']) ++ body ∧
        ((∃ os rest, 1 ≤ limit ∧ IPv4.octets? 4 body = some (os, rest) ∧
            series (limit + 1) first cs = ⟨ofOctets os, true, rest⟩) ∨
          ∃ g rest s, group? body = some (g, rest) ∧ series limit false rest = s ∧
            series (limit + 1) first cs = ⟨g :: s.groups, s.dotted, s.rest⟩) := by
  have hbegin : series (limit + 1) first cs = ⟨[], false, cs⟩ ∨
      ∃ body, cs = (if first then [] else [':']) ++ body := by
    cases first with
    | true => exact .inr ⟨cs, rfl⟩
    | false =>
      cases cs with
      | nil => exact .inl rfl
      | cons c body =>
        by_cases hc : c = ':'
        · exact .inr ⟨body, by rw [hc]; rfl⟩
        · exact .inl (by simp [series, hc])
  rcases hbegin with hstop | ⟨body, hcs⟩
  · exact .inl hstop
  · have hseries := series_succ limit first body
    rw [← hcs] at hseries
    split at hseries
    · rename_i os rest hos
      obtain ⟨hlimit, hos⟩ := Option.ite_none_right_eq_some.mp hos
      exact .inr ⟨body, hcs, .inl ⟨os, rest, hlimit, hos, hseries⟩⟩
    · split at hseries
      · exact .inl hseries
      · rename_i g rest hg
        exact .inr ⟨body, hcs, .inr ⟨g, rest, _, hg, rfl, hseries⟩⟩

theorem length_ofOctets {os : List UInt8} (h : os.length = 4) : (ofOctets os).length = 2 := by
  match os, h with
  | [a, b, c, d], _ => rfl

theorem SeriesText.of_nil (h : SeriesText dotted cs []) : dotted = false ∧ cs = [] := by
  generalize hgs : [] = gs at h
  cases h with
  | nil => exact ⟨rfl, rfl⟩
  | quad hlength =>
    have htwo := length_ofOctets hlength
    simp [← hgs] at htwo
  | last | group => cases hgs

/-- What is read as a series is the text of one. -/
theorem series_sound (limit : Nat) (first : Bool) (cs : List Char) :
    (series limit first cs).groups.length ≤ limit ∧
      ∃ front, SeriesText (series limit first cs).dotted front (series limit first cs).groups ∧
        cs = (if first ∨ (series limit first cs).groups = [] then [] else [':']) ++ front ++
          (series limit first cs).rest := by
  induction limit generalizing first cs with
  | zero => exact ⟨Nat.zero_le _, [], .nil, by simp [series]⟩
  | succ limit ih =>
    rcases series_succ_cases limit first cs with hs | ⟨body, hcs, ⟨os, rest, hlimit, hos, hs⟩ |
      ⟨g, rest, s, hg, htail, hs⟩⟩
    · rw [hs]
      exact ⟨Nat.zero_le _, [], .nil, by simp⟩
    · obtain ⟨hlength, hbody, -⟩ := IPv4.octets?_eq_some hos
      have htwo := length_ofOctets hlength
      have hne : ofOctets os ≠ [] := fun hnil => by simp [hnil] at htwo
      rw [hs]
      refine ⟨?_, IPv4.write os, .quad hlength, ?_⟩
      · simp only [htwo]
        omega
      · simp [hcs, hbody, hne]
    · obtain ⟨run, hrun, hbody, -⟩ := group?_eq_some.mp hg
      obtain ⟨hlength, front, hfront, hrest⟩ := ih false rest
      rw [htail] at hlength hfront hrest
      rw [hs]
      refine ⟨Nat.succ_le_succ hlength, ?_⟩
      obtain ⟨groups, dotted, rest'⟩ := s
      cases groups with
      | nil =>
        obtain ⟨rfl, rfl⟩ := hfront.of_nil
        exact ⟨run, .last hrun, by simp [hcs, hbody, hrest]⟩
      | cons h groups =>
        exact ⟨run ++ ':' :: front, .group hrun hfront, by simp [hcs, hbody, hrest]⟩

/-- What ends a series of groups: the end of the text, or the colons in place of zeros. -/
def Stops (rest : List Char) : Prop := rest = [] ∨ ∃ more, rest = ':' :: ':' :: more

theorem Stops.head? (h : Stops rest) : ∀ c ∈ rest.head?, c = ':' := by
  rcases h with rfl | ⟨more, rfl⟩ <;> simp

/-- Neither a group nor a dotted quad begins where a series stops. -/
theorem series_stop (h : Stops rest) (limit : Nat) (first : Bool) :
    series limit first rest = ⟨[], false, rest⟩ := by
  have hnone {body : List Char} (hbody : ∀ c ∈ body.head?, c = ':') :
      IPv4.octets? 4 body = none ∧ group? body = none :=
    ⟨IPv4.octets?_eq_none List.not_mem_nil hbody, group?_eq_none hbody⟩
  cases limit with
  | zero => rfl
  | succ limit =>
    cases first with
    | true =>
      obtain ⟨hoctets, hgroup⟩ := hnone h.head?
      simpa [hoctets, hgroup] using series_succ limit true rest
    | false =>
      rcases h with rfl | ⟨more, rfl⟩
      · rfl
      · have hbody : ∀ c ∈ (':' :: more).head?, c = ':' := by simp
        obtain ⟨hoctets, hgroup⟩ := hnone hbody
        simpa [hoctets, hgroup] using series_succ limit false (':' :: more)

/-- The text of a series is read as what it is the text of. -/
theorem series_complete (hseries : SeriesText dotted cs gs) (hrest : Stops rest)
    (hlength : gs.length ≤ limit) (first : Bool) :
    series limit first ((if first ∨ gs = [] then [] else [':']) ++ (cs ++ rest)) =
      ⟨gs, dotted, rest⟩ := by
  have hstop : ∀ c ∈ rest.head?, c = ':' := hrest.head?
  induction hseries generalizing limit first with
  | nil => simpa using series_stop hrest limit first
  | @quad os hos =>
    have htwo := length_ofOctets hos
    have hne : ofOctets os ≠ [] := fun hnil => by simp [hnil] at htwo
    obtain ⟨limit, rfl, hlimit⟩ : ∃ m, limit = m + 1 ∧ 1 ≤ m := ⟨limit - 1, by omega, by omega⟩
    have hread : IPv4.octets? 4 (IPv4.write os ++ rest) = some (os, rest) := by
      rw [← hos]
      refine IPv4.octets?_write (fun hnil => by simp [hnil] at hos) fun c hc => ?_
      rw [hstop c hc]
      decide
    simpa [hne, hread, hlimit] using series_succ limit first (IPv4.write os ++ rest)
  | @last cs g hg =>
    obtain ⟨limit, rfl⟩ : ∃ m, limit = m + 1 := ⟨limit - 1, by simp at hlength; omega⟩
    have hquad : IPv4.octets? 4 (cs ++ rest) = none := IPv4.octets?_eq_none hg.point_notMem hstop
    have hread : group? (cs ++ rest) = some (g, rest) :=
      group?_eq_some.mpr ⟨cs, hg, rfl, fun c hc => by rw [hstop c hc]; decide⟩
    simpa [hquad, hread, series_stop hrest] using series_succ limit first (cs ++ rest)
  | @group cs g dotted cs' h gs hg _ ih =>
    obtain ⟨limit, rfl⟩ : ∃ m, limit = m + 1 := ⟨limit - 1, by simp at hlength; omega⟩
    have hquad : IPv4.octets? 4 (cs ++ (':' :: (cs' ++ rest))) = none :=
      IPv4.octets?_eq_none hg.point_notMem (by simp)
    have hread : group? (cs ++ (':' :: (cs' ++ rest))) = some (g, ':' :: (cs' ++ rest)) :=
      group?_eq_some.mpr ⟨cs, hg, rfl, by simp; decide⟩
    have htail := ih (Nat.le_of_succ_le_succ hlength) false
    simp only [Bool.false_eq_true, reduceCtorEq, or_self, if_false, List.singleton_append] at htail
    simpa [hquad, hread, htail] using series_succ limit first (cs ++ (':' :: (cs' ++ rest)))

/-! ## Whole addresses -/

theorem ofEnds?_eq_some :
    ofEnds? head tail = some a ↔ ∃ n, a.groups = head ++ List.replicate n 0 ++ tail := by
  constructor
  · intro h
    rw [ofEnds?] at h
    split at h
    · cases h
      exact ⟨_, rfl⟩
    · cases h
  · rintro ⟨n, h⟩
    have hlength := a.length_groups
    rw [h] at hlength
    simp only [List.length_append, List.length_replicate] at hlength
    obtain rfl : n = 8 - (head.length + tail.length) := by omega
    rw [ofEnds?, dif_pos (by rw [← h]; exact a.length_groups)]
    congr
    exact h.symm

theorem spelled_of_read? (h : read? cs = some (a, [])) : Spelled cs a := by
  obtain ⟨hlength, front, hfront, hcs⟩ := series_sound 8 true cs
  have ha := a.length_groups
  rw [read?] at h
  generalize series 8 true cs = s at h hlength hfront hcs
  simp only [true_or, if_true, List.nil_append] at hcs
  split at h
  · rename_i hfull
    obtain ⟨b, hb, heq⟩ := Option.map_eq_some_iff.mp h
    obtain ⟨rfl, hrest⟩ := Prod.mk.inj heq
    obtain ⟨n, hgroups⟩ := ofEnds?_eq_some.mp hb
    have hnone : n = 0 := by simpa [hgroups, hfull] using ha
    rw [hnone, List.replicate_zero, List.append_nil, List.append_nil] at hgroups
    rw [hcs, hrest, List.append_nil]
    exact .full (hgroups ▸ hfront)
  · split at h
    · cases h
    · rename_i hshort hplain
      split at h
      · rename_i more hmore
        obtain ⟨b, hb, heq⟩ := Option.map_eq_some_iff.mp h
        obtain ⟨rfl, hrest⟩ := Prod.mk.inj heq
        obtain ⟨n, hgroups⟩ := ofEnds?_eq_some.mp hb
        obtain ⟨hlength', front', hfront', hcs'⟩ := series_sound (7 - s.groups.length) true more
        simp only [true_or, if_true, List.nil_append, hrest, List.append_nil] at hcs'
        have hn : 0 < n := by
          rw [hgroups] at ha
          simp only [List.length_append, List.length_replicate] at ha
          omega
        rw [Bool.eq_false_iff.mpr hplain] at hfront
        rw [hcs, hmore, hcs']
        exact .compressed hfront hfront' hn hgroups
      · cases h

theorem read?_of_spelled (h : Spelled cs a) : read? cs = some (a, []) := by
  have hlength := a.length_groups
  cases h with
  | full h =>
    have hread := series_complete h (.inl rfl) (Nat.le_of_eq hlength) true
    simp only [true_or, if_true, List.nil_append, List.append_nil] at hread
    have hends : ofEnds? a.groups [] = some a := ofEnds?_eq_some.mpr ⟨0, by simp⟩
    simp [read?, hread, hlength, hends]
  | @compressed _ head _ cs' tail n _ hhead htail hn hgroups =>
    have hsum := hlength
    simp only [hgroups, List.length_append, List.length_replicate] at hsum
    have hhead' : head.length ≤ 8 := by omega
    have htail' : tail.length ≤ 7 - head.length := by omega
    have hread := series_complete hhead (.inr ⟨cs', rfl⟩) hhead' true
    have hread' := series_complete htail (.inl rfl) htail' true
    simp only [true_or, if_true, List.nil_append, List.append_nil] at hread hread'
    have hends : ofEnds? head tail = some a := ofEnds?_eq_some.mpr ⟨n, hgroups⟩
    have hne : head.length ≠ 8 := by omega
    simp [read?, hread, hne, hread', hends]

/-- A series does not begin with a dotted quad, unless it is one. -/
theorem SeriesText.octets?_eq_none (h : SeriesText dotted cs gs)
    (hquad : dotted = false ∨ gs.length ≠ 2) (hrest : ∀ c ∈ rest.head?, c = ':') :
    IPv4.octets? 4 (cs ++ rest) = none := by
  cases h with
  | nil => exact IPv4.octets?_eq_none List.not_mem_nil hrest
  | quad hos =>
    rcases hquad with h | h
    · cases h
    · exact absurd (length_ofOctets hos) h
  | last hg => exact IPv4.octets?_eq_none hg.point_notMem hrest
  | group hg =>
    rw [List.append_assoc]
    exact IPv4.octets?_eq_none hg.point_notMem (by simp)

theorem Spelled.octets?_eq_none (h : Spelled cs a) : IPv4.octets? 4 cs = none := by
  cases h with
  | full h =>
    rw [← List.append_nil cs]
    exact h.octets?_eq_none (.inr (by simp [a.length_groups])) (by simp)
  | compressed h => exact h.octets?_eq_none (.inl rfl) (by simp)

end IPv6

namespace IpAddress

/-- The texts of an address. A dotted quad has no text but the written one. -/
inductive Spelled : List Char → IpAddress → Prop where
  | v4 (a : IPv4) : Spelled (IPv4.write a.octets) (.v4 a)
  | v6 : IPv6.Spelled cs a → Spelled cs (.v6 a)

variable {cs : List Char} {a : IpAddress}

/-- An address is read from its texts and from no others. -/
theorem ofText?_eq_some : ofText? cs = some a ↔ Spelled cs a := by
  constructor
  · intro h
    rw [ofText?] at h
    split at h
    · rename_i b rest hread
      obtain ⟨hrest, hba⟩ := Option.ite_none_right_eq_some.mp h
      cases hba
      obtain rfl : rest = [] := List.isEmpty_iff.mp hrest
      obtain ⟨rfl, -⟩ := IPv4.read?_eq_some.mp hread
      rw [List.append_nil]
      exact .v4 b
    · obtain ⟨⟨b, rest⟩, hread, h⟩ := Option.bind_eq_some_iff.mp h
      obtain ⟨⟨b, _⟩, hread, heq⟩ := Option.map_eq_some_iff.mp hread
      cases heq
      obtain ⟨hrest, hba⟩ := Option.ite_none_right_eq_some.mp h
      cases hba
      obtain rfl : rest = [] := List.isEmpty_iff.mp hrest
      exact .v6 (IPv6.spelled_of_read? hread)
  · intro h
    cases h with
    | v4 a =>
      have hread : IPv4.read? (IPv4.write a.octets) = some (a, []) :=
        IPv4.read?_eq_some.mpr ⟨(List.append_nil _).symm, by simp⟩
      simp [ofText?, hread]
    | v6 h =>
      have hquad : IPv4.read? cs = none := by simp [IPv4.read?, h.octets?_eq_none]
      simp [ofText?, hquad, IPv6.read?_of_spelled h]

end IpAddress

end IntentPlane
