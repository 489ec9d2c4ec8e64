import IntentPlane.Proofs.Address.Grammar
import IntentPlane.Text.Blank

/-!
# Written addresses

How an IPv6 address is written: with a dotted quad at its end, with colons in place of its first
longest run of zeros, or group by group (`IPv6.Written`). That is what the writer does
(`IPv6.written_iff`). Written addresses are in the grammar of addresses, so they are read back
(`IpAddress.ofText?_write`).
-/

namespace IntentPlane

namespace Text

variable {base n : Nat} {c separator : Char} {cs : List Char}

/-- Text joined from digits has nothing else in it but the separator. -/
theorem mem_joinDigits (hbase : 1 < base) {ns : List Nat} (h : c ∈ joinDigits base separator ns) :
    c = separator ∨ ∃ d < base, c = Nat.digitChar d := by
  induction ns with
  | nil => cases h
  | cons n ns ih =>
    cases ns with
    | nil => exact .inr (mem_toDigits hbase h)
    | cons m ns =>
      rcases List.mem_append.mp h with h | h
      · exact .inr (mem_toDigits hbase h)
      · rcases List.mem_cons.mp h with h | h
        · exact .inl h
        · exact ih h

/-- A character that ends no address: neither a blank nor the slash before a length. -/
def Plain (c : Char) : Prop := c ≠ '/' ∧ isBlank c = false

theorem plain_of_digit? (h : (digit? base c).isSome = true) : Plain c := by
  obtain ⟨hlow, hhigh⟩ := toNat_of_digit? h
  constructor
  · rintro rfl
    exact absurd hlow (by decide)
  · simp [isBlank]
    omega

theorem plain_digitChar {d : Nat} (hd : d < base) (hbase : base ≤ 16) :
    Plain (Nat.digitChar d) := by
  have hdigit := digit?_digitChar hd hbase
  exact plain_of_digit? (Option.isSome_iff_exists.mpr ⟨d, hdigit⟩)

end Text

/-! ## How addresses are written -/

namespace IPv6

/-- From `start` on, `n` groups are zero. -/
def ZerosAt (groups : List UInt16) (start n : Nat) : Prop :=
  ∃ head tail, head.length = start ∧ groups = head ++ List.replicate n 0 ++ tail

/-- The first longest run of zeros. -/
structure FirstLongest (groups : List UInt16) (start n : Nat) : Prop where
  zeros : ZerosAt groups start n
  le : ∀ {i m : Nat}, ZerosAt groups i m → m ≤ n
  lt : ∀ {i m : Nat}, ZerosAt groups i m → i < start → m < n

/-- The groups of an address that stands for an IPv4 address. -/
abbrev Mapped (groups : List UInt16) : Prop := groups.take 6 = [0, 0, 0, 0, 0, 0xffff]

/-- How an address is written. -/
inductive Written (a : IPv6) : List Char → Prop where
  | mapped : Mapped a.groups →
      Written a ("::ffff:".toList ++ IPv4.write (toOctets (a.groups.drop 6)))
  | compressed : ¬ Mapped a.groups → FirstLongest a.groups start n → 1 < n →
      Written a (writeGroups (a.groups.take start) ++
        ':' :: ':' :: writeGroups (a.groups.drop (start + n)))
  | plain : ¬ Mapped a.groups → (∀ start n, ZerosAt a.groups start n → n ≤ 1) →
      Written a (writeGroups a.groups)

variable {groups : List UInt16} {g : UInt16} {start n m : Nat} {cs : List Char} {a : IPv6}

theorem zerosAt_zeros (groups : List UInt16) : ZerosAt groups 0 (zeros groups) := by
  refine ⟨[], groups.dropWhile (· = 0), rfl, ?_⟩
  have hzeros : groups.takeWhile (· = 0) = List.replicate (zeros groups) 0 :=
    List.eq_replicate_of_mem fun z hz => by simpa using List.all_eq_true.mp List.all_takeWhile z hz
  rw [List.nil_append, ← hzeros, List.takeWhile_append_dropWhile]

theorem ZerosAt.le_zeros (h : ZerosAt groups 0 n) : n ≤ zeros groups := by
  obtain ⟨head, tail, hhead, rfl⟩ := h
  obtain rfl : head = [] := List.eq_nil_of_length_eq_zero hhead
  rw [List.nil_append, zeros, List.takeWhile_append_of_pos (by simp)]
  simp

theorem ZerosAt.eq_append (h : ZerosAt groups start n) :
    groups = groups.take start ++ List.replicate n 0 ++ groups.drop (start + n) := by
  obtain ⟨head, tail, rfl, rfl⟩ := h
  rw [List.drop_left' (by simp), List.append_assoc, List.take_left' rfl, List.append_assoc]

theorem zerosAt_cons : ZerosAt (g :: groups) (start + 1) n ↔ ZerosAt groups start n := by
  constructor
  · rintro ⟨head, tail, hhead, h⟩
    cases head with
    | nil => cases hhead
    | cons _ head =>
      exact ⟨head, tail, Nat.succ.inj hhead, (List.cons.inj h).2⟩
  · rintro ⟨head, tail, rfl, rfl⟩
    exact ⟨g :: head, tail, rfl, rfl⟩

theorem firstLongest_longestZeros (groups : List UInt16) :
    FirstLongest groups (longestZeros groups).1 (longestZeros groups).2 := by
  induction groups with
  | nil =>
    refine ⟨⟨[], [], rfl, rfl⟩, ?_, ?_⟩
    · rintro i m ⟨head, tail, -, h⟩
      have := congrArg List.length h
      simp at this
      simp [longestZeros]
      omega
    · intro i m _ hi
      cases hi
  | cons g groups ih =>
    rw [longestZeros]
    generalize longestZeros groups = run at ih
    obtain ⟨start, n⟩ := run
    -- A run begins at the first group, or it is a run of the groups after that.
    have hcases {i m : Nat} (h : ZerosAt (g :: groups) i m) :
        m ≤ zeros (g :: groups) ∧ i = 0 ∨ ∃ j, i = j + 1 ∧ ZerosAt groups j m := by
      cases i with
      | zero => exact .inl ⟨h.le_zeros, rfl⟩
      | succ i => exact .inr ⟨i, rfl, zerosAt_cons.mp h⟩
    simp only
    split
    · rename_i hle
      refine ⟨zerosAt_zeros _, fun h => ?_, fun _ hi => absurd hi (Nat.not_lt_zero _)⟩
      rcases hcases h with ⟨hm, -⟩ | ⟨j, -, h⟩
      · exact hm
      · exact Nat.le_trans (ih.le h) hle
    · rename_i hlt
      refine ⟨zerosAt_cons.mpr ih.zeros, fun h => ?_, fun h hi => ?_⟩
      · rcases hcases h with ⟨hm, -⟩ | ⟨j, -, h⟩
        · omega
        · exact ih.le h
      · rcases hcases h with ⟨hm, -⟩ | ⟨j, rfl, hj⟩
        · omega
        · exact ih.lt hj (Nat.lt_of_succ_lt_succ hi)

theorem FirstLongest.unique {i : Nat} (h : FirstLongest groups start n)
    (h' : FirstLongest groups i m) : start = i ∧ n = m := by
  obtain rfl : n = m := Nat.le_antisymm (h'.le h.zeros) (h.le h'.zeros)
  refine ⟨?_, rfl⟩
  have hle := mt (h.lt h'.zeros) (Nat.lt_irrefl n)
  have hge := mt (h'.lt h.zeros) (Nat.lt_irrefl n)
  omega

theorem ofOctets_toOctets (groups : List UInt16) : ofOctets (toOctets groups) = groups := by
  induction groups with
  | nil => rfl
  | cons g groups ih =>
    have hg : (g / 256).toUInt8.toUInt16 * 256 + g.toUInt8.toUInt16 = g := by
      have hlt := g.toNat_lt
      refine UInt16.toNat_inj.mp ?_
      simp
      omega
    simp only [toOctets, List.flatMap_cons, List.cons_append, List.nil_append, ofOctets, hg] at ih ⊢
    rw [ih]

/-- An address is written in this way, and in no other. -/
theorem written_iff : Written a cs ↔ cs = write a.groups := by
  have hlongest := firstLongest_longestZeros a.groups
  constructor
  · intro h
    rw [write]
    cases h with
    | mapped hmapped =>
      rw [if_pos hmapped]
      rfl
    | compressed hmapped h hn =>
      obtain ⟨hstart, hlength⟩ := hlongest.unique h
      rw [if_neg hmapped]
      simp only [hstart, hlength, if_pos hn]
    | plain hmapped hshort =>
      rw [if_neg hmapped]
      simp only [if_neg (Nat.not_lt.mpr (hshort _ _ hlongest.zeros))]
  · rintro rfl
    rw [write]
    split
    · rename_i hmapped
      exact .mapped hmapped
    · rename_i hmapped
      generalize longestZeros a.groups = run at hlongest
      obtain ⟨start, n⟩ := run
      simp only
      split
      · rename_i hn
        exact .compressed hmapped hlongest hn
      · rename_i hn
        exact .plain hmapped fun _ _ h => Nat.le_trans (hlongest.le h) (Nat.not_lt.mp hn)

/-! ## Written addresses are in the grammar -/

theorem groupText_toDigits (g : UInt16) : GroupText (Nat.toDigits 16 g.toNat) g := by
  refine ⟨Nat.length_toDigits_pos, ?_, Text.ofDigits?_toDigits (by decide) (Nat.le_refl 16) _⟩
  rw [Nat.length_toDigits_le_iff (by decide) (by decide)]
  exact g.toNat_lt

theorem seriesText_writeGroups (groups : List UInt16) :
    SeriesText false (writeGroups groups) groups := by
  induction groups with
  | nil => exact .nil
  | cons g groups ih =>
    cases groups with
    | nil => exact .last (groupText_toDigits g)
    | cons h groups => exact .group (groupText_toDigits g) ih

theorem Written.spelled (h : Written a cs) : Spelled cs a := by
  cases h with
  | mapped hmapped =>
    have hlength : (a.groups.drop 6).length = 2 := by rw [List.length_drop, a.length_groups]
    have hgroups : a.groups = [0, 0, 0, 0, 0, 0xffff] ++ a.groups.drop 6 := by
      rw [← hmapped, List.take_append_drop]
    generalize a.groups.drop 6 = last at hlength hgroups ⊢
    match last, hlength with
    | [hi, lo], _ =>
      have hquad : SeriesText true (IPv4.write (toOctets [hi, lo]))
          (ofOctets (toOctets [hi, lo])) :=
        .quad rfl
      rw [ofOctets_toOctets] at hquad
      exact .compressed .nil (.group (groupText_toDigits 0xffff) hquad) (n := 5) (by decide) hgroups
  | compressed _ h hn =>
    exact .compressed (seriesText_writeGroups _) (seriesText_writeGroups _) (Nat.lt_of_succ_lt hn)
      h.zeros.eq_append
  | plain => exact .full (seriesText_writeGroups _)

end IPv6

/-! ## Characters of an address -/

theorem IPv4.plain_write {os : List UInt8} {c : Char} (hc : c ∈ write os) : Text.Plain c := by
  rcases Text.mem_joinDigits (by decide) hc with rfl | ⟨d, hd, rfl⟩
  · exact ⟨by decide, by decide⟩
  · exact Text.plain_digitChar hd (by decide)

theorem IPv6.SeriesText.plain {dotted : Bool} {cs : List Char} {gs : List UInt16} {c : Char}
    (h : SeriesText dotted cs gs) (hc : c ∈ cs) : Text.Plain c := by
  induction h with
  | nil => cases hc
  | quad => exact IPv4.plain_write hc
  | last hg => exact Text.plain_of_digit? (hg.isSome_digit? c hc)
  | group hg _ ih =>
    simp only [List.mem_append, List.mem_cons] at hc
    rcases hc with hc | rfl | hc
    · exact Text.plain_of_digit? (hg.isSome_digit? c hc)
    · exact ⟨by decide, by decide⟩
    · exact ih hc

namespace IpAddress

/-- How an address of either family is written. -/
inductive Written : IpAddress → List Char → Prop where
  | v4 (a : IPv4) : Written (.v4 a) (IPv4.write a.octets)
  | v6 : IPv6.Written a cs → Written (.v6 a) cs

variable {cs : List Char} {a : IpAddress}

theorem Spelled.plain (h : Spelled cs a) : ∀ c ∈ cs, Text.Plain c := by
  intro c hc
  cases h with
  | v4 a => exact IPv4.plain_write hc
  | v6 h =>
    cases h with
    | full h => exact h.plain hc
    | compressed hhead htail =>
      simp only [List.mem_append, List.mem_cons] at hc
      rcases hc with hc | rfl | rfl | hc
      · exact hhead.plain hc
      · exact ⟨by decide, by decide⟩
      · exact ⟨by decide, by decide⟩
      · exact htail.plain hc

theorem written_iff : Written a cs ↔ cs = a.write := by
  cases a with
  | v4 a =>
    constructor
    · rintro ⟨⟩
      rfl
    · rintro rfl
      exact .v4 a
  | v6 a =>
    constructor
    · rintro (_ | h)
      exact IPv6.written_iff.mp h
    · rintro rfl
      exact .v6 (IPv6.written_iff.mpr rfl)

theorem spelled_write (a : IpAddress) : Spelled a.write a := by
  cases a with
  | v4 a => exact .v4 a
  | v6 a => exact .v6 (IPv6.written_iff.mpr rfl).spelled

/-- An address is read from its written form. -/
theorem ofText?_write (a : IpAddress) : ofText? a.write = some a :=
  ofText?_eq_some.mpr a.spelled_write

end IpAddress

end IntentPlane
