import Mathlib.Data.List.Basic
import Zshrs.Glob.NumericOrder

namespace Zshrs.Glob

open Std

/-- What a name comparison reads at once: a byte (a NUL at the end), or a number that is not 0. -/
structure Tok where
  head : UInt8
  digits : Bytes
  zeros : Nat
  deriving DecidableEq

namespace Tok

def byte (c : UInt8) : Tok := ⟨c, [], 0⟩
def number (d : Bytes) (z : Nat) : Tok := ⟨49, d, z⟩

/-- Numbers go by their value, and equal ones the more leading zeros the earlier. -/
def cmp : Tok → Tok → Ordering :=
  compareLex (compareOn head) (compareLex (compareOn fun t => t.digits.length)
    (compareLex (compareOn digits) fun a b => compareOn zeros b a))

instance : TransCmp cmp :=
  inferInstanceAs (TransCmp (compareLex (compareOn head) (compareLex
    (compareOn fun t => t.digits.length)
    (compareLex (compareOn digits) fun a b => compareOn zeros b a))))

instance : LawfulEqCmp cmp where
  eq_of_compare {a b} h := by
    rw [cmp, compareLex_eq_eq, compareLex_eq_eq, compareLex_eq_eq] at h
    obtain ⟨hh, -, hd, hz⟩ := h
    cases a
    cases b
    cases LawfulEqOrd.eq_of_compare hh
    cases LawfulEqOrd.eq_of_compare hd
    cases LawfulEqOrd.eq_of_compare hz
    rfl

theorem cmp_byte (c d : UInt8) : cmp (byte c) (byte d) = compare c d := by
  unfold cmp compareLex compareOn byte
  cases compare c d <;> rfl

theorem cmp_of_head_ne {a b : Tok} (h : a.head ≠ b.head) : cmp a b = compare a.head b.head := by
  unfold cmp compareLex compareOn
  cases hc : compare a.head b.head with
  | eq => exact absurd (LawfulEqOrd.eq_of_compare hc) h
  | lt => rfl
  | gt => rfl

theorem cmp_number (d e : Bytes) (z w : Nat) :
    cmp (number d z) (number e w) = (digitscmp d e).then (compare w z) := by
  unfold cmp compareLex compareOn number digitscmp
  rw [Ordering.then_assoc]
  rfl

end Tok

/-- The number that a string starts with, without its leading zeros. -/
def significant (s : Bytes) : Bytes := (s.takeWhile is_digit).dropWhile (· == 48)

def firstTok (numeric : Bool) (s : Bytes) : Tok :=
  if numeric ∧ significant s ≠ [] then
    .number (significant s) ((s.takeWhile is_digit).length - (significant s).length)
  else .byte (byteAt s 0)

/-- How many bytes the first token has. -/
def tokLen (numeric : Bool) (s : Bytes) : Nat :=
  if numeric ∧ significant s ≠ [] then (s.takeWhile is_digit).length else 1

def afterTok (numeric : Bool) (s : Bytes) : Bytes := s.drop (tokLen numeric s)

/-- How a string starts. -/
inductive Start (numeric : Bool) (s : Bytes) : Prop
  | number (z : Nat) (d r : Bytes) (on : numeric = true) (eq : s = numeral z d ++ r)
      (sig : Significant d) (nonzero : d ≠ []) (stops : Stops r) (tok : firstTok numeric s = .number d z)
      (len : tokLen numeric s = (numeral z d).length)
  | byte (tok : firstTok numeric s = .byte (byteAt s 0)) (len : tokLen numeric s = 1)
      (zeros : numeric = true → ∃ z r, s = numeral z [] ++ r ∧ Stops r)

theorem significant_nil : Significant [] := ⟨fun _ h => absurd h List.not_mem_nil, by simp⟩

theorem start (numeric : Bool) (s : Bytes) : Start numeric s := by
  obtain ⟨z, d, r, hs, hd, hr⟩ := exists_numeral s
  have run : s.takeWhile is_digit = numeral z d := hs ▸ takeWhile_numeral hd.digits hr
  have sig : significant s = d := by
    have front := dropWhile_numeral (z := z) (r := []) hd rfl
    rw [List.append_nil, List.append_nil] at front
    unfold significant
    rw [run, front]
  have len : (numeral z d).length - d.length = z := by
    unfold numeral
    rw [List.length_append, List.length_replicate, Nat.add_sub_cancel]
  by_cases h : numeric = true ∧ d ≠ []
  · refine .number z d r h.1 hs hd h.2 hr ?_ ?_
    · unfold firstTok
      rw [sig, if_pos h, run, len]
    · unfold tokLen
      rw [sig, if_pos h, run]
  · refine .byte ?_ ?_ ?_
    · unfold firstTok
      rw [sig, if_neg h]
    · unfold tokLen
      rw [sig, if_neg h]
    · intro hn
      have hd0 : d = [] := by
        by_contra hne
        exact h ⟨hn, hne⟩
      exact ⟨z, r, hd0 ▸ hs, hr⟩

section Tokens

variable {numeric : Bool} {a b : Bytes}

theorem tokLen_pos (numeric : Bool) (s : Bytes) : 0 < tokLen numeric s := by
  cases start numeric s with
  | number z d r on eq sig nonzero stops tok len =>
    rw [len]
    unfold numeral
    rw [List.length_append]
    exact Nat.add_pos_right _ (List.length_pos_of_ne_nil nonzero)
  | byte tok len zeros =>
    rw [len]
    exact Nat.one_pos

/-- The first byte is a NUL at the end only. -/
theorem take_one_eq (ha : 0 ∉ a) (hb : 0 ∉ b) (h : byteAt a 0 = byteAt b 0) :
    a.take 1 = b.take 1 := by
  cases a with
  | nil =>
    cases b with
    | nil => rfl
    | cons d b =>
      have hd : d = 0 := h.symm
      exact absurd (List.mem_cons.mpr (.inl hd.symm)) hb
  | cons c a =>
    cases b with
    | nil =>
      have hc : c = 0 := h
      exact absurd (List.mem_cons.mpr (.inl hc.symm)) ha
    | cons d b =>
      have hcd : c = d := h
      rw [hcd]
      rfl

/-- A token stands for its bytes. -/
theorem take_tokLen_eq (ha : 0 ∉ a) (hb : 0 ∉ b) (h : firstTok numeric a = firstTok numeric b) :
    a.take (tokLen numeric a) = b.take (tokLen numeric b) := by
  cases start numeric a with
  | number z d r on eq sig nonzero stops tok len =>
    cases start numeric b with
    | number w e q on' eq' sig' nonzero' stops' tok' len' =>
      rw [tok, tok'] at h
      cases h
      rw [len, len', eq, eq', List.take_left, List.take_left]
    | byte tok' len' zeros' =>
      rw [tok, tok'] at h
      exact absurd (congrArg Tok.digits h) nonzero
  | byte tok len zeros =>
    cases start numeric b with
    | number w e q on' eq' sig' nonzero' stops' tok' len' =>
      rw [tok, tok'] at h
      exact absurd (congrArg Tok.digits h).symm nonzero'
    | byte tok' len' zeros' =>
      rw [tok, tok'] at h
      rw [len, len']
      exact take_one_eq ha hb (congrArg Tok.head h)

/-- A `/` is a token of its own. -/
theorem slash_alone (h : 47 ∈ a.take (tokLen numeric a)) : a.take (tokLen numeric a) = [47] := by
  cases start numeric a with
  | number z d r on eq sig nonzero stops tok len =>
    rw [len, eq, List.take_left] at h
    exact absurd (allDigits_numeral z sig.digits 47 h) (by decide)
  | byte tok len zeros =>
    rw [len] at h ⊢
    cases a with
    | nil => exact absurd h List.not_mem_nil
    | cons c a =>
      rw [List.take_succ_cons, List.take_zero] at h ⊢
      rw [List.mem_singleton.mp h]

theorem takeWhile_stop {s : Bytes} (x y : Bytes) {c : UInt8} (hc : is_digit c = false) :
    (s ++ c :: x).takeWhile is_digit = (s ++ c :: y).takeWhile is_digit := by
  induction s with
  | nil => rw [List.nil_append, List.nil_append, List.takeWhile_cons_of_neg (by simp [hc]),
      List.takeWhile_cons_of_neg (by simp [hc])]
  | cons d s ih =>
    rw [List.cons_append, List.cons_append, List.takeWhile_cons, List.takeWhile_cons, ih]

/-- Strings that start with different tokens part in front of any `/`. -/
theorem no_common_slash (h : firstTok numeric a ≠ firstTok numeric b) {p x y : Bytes}
    (ha : a = p ++ x) (hb : b = p ++ y) : 47 ∉ p := by
  intro hp
  obtain ⟨s, t, rfl⟩ := List.append_of_mem hp
  rw [List.append_assoc, List.cons_append] at ha hb
  have run : a.takeWhile is_digit = b.takeWhile is_digit := by
    rw [ha, hb]
    exact takeWhile_stop _ _ (by decide)
  have head : byteAt a 0 = byteAt b 0 := by
    rw [ha, hb]
    cases s <;> rfl
  apply h
  unfold firstTok significant
  rw [run, head]

end Tokens

/-- A comparison that reads two strings token by token. -/
structure Reads (numeric : Bool) (f : Bytes → Bytes → Ordering) : Prop where
  nil : f [] [] = .eq
  differ : ∀ a b, 0 ∉ a → 0 ∉ b → firstTok numeric a ≠ firstTok numeric b →
    f a b = Tok.cmp (firstTok numeric a) (firstTok numeric b)
  same : ∀ a b, 0 ∉ a → 0 ∉ b → a ≠ [] → firstTok numeric a = firstTok numeric b →
    f a b = f (afterTok numeric a) (afterTok numeric b)

theorem compare_of_first_ne {a b : Bytes} (ha : 0 ∉ a) (hb : 0 ∉ b)
    (h : byteAt a 0 ≠ byteAt b 0) : compare a b = compare (byteAt a 0) (byteAt b 0) := by
  cases a with
  | nil =>
    cases b with
    | nil => exact absurd rfl h
    | cons d b =>
      have hd : 0 < d := UInt8.pos_iff_ne_zero.mpr fun e => h (by rw [byteAt_cons_zero, e]; rfl)
      exact (Std.compare_eq_lt.mpr hd).symm
  | cons c a =>
    cases b with
    | nil =>
      have hc : 0 < c := UInt8.pos_iff_ne_zero.mpr fun e => h (by rw [byteAt_cons_zero, e]; rfl)
      exact (Std.compare_eq_gt.mpr hc).symm
    | cons d b => exact compare_of_head_ne h a b

theorem reads_lexical : Reads false (compare : Bytes → Bytes → Ordering) where
  nil := rfl
  differ a b ha hb h := by
    have tok (s : Bytes) : firstTok false s = .byte (byteAt s 0) := if_neg (by simp)
    rw [tok, tok] at h ⊢
    rw [Tok.cmp_byte]
    exact compare_of_first_ne ha hb fun e => h (congrArg Tok.byte e)
  same a b ha hb hne h := by
    have front := take_tokLen_eq ha hb h
    have len (s : Bytes) : tokLen false s = 1 := if_neg (by simp)
    unfold afterTok
    rw [len, len] at front ⊢
    calc compare a b = compare (a.take 1 ++ a.drop 1) (b.take 1 ++ b.drop 1) := by
          rw [List.take_append_drop, List.take_append_drop]
      _ = compare (a.drop 1) (b.drop 1) := by rw [front, compare_append]

section Numeric

variable {a b : Bytes}

theorem compare_digit {c d e : UInt8} (hc : is_digit c = true) (hd : is_digit d = true)
    (he : is_digit e = false) : compare c e = compare d e ∧ compare e c = compare e d := by
  have low {x : UInt8} (hx : is_digit x = true) : 48 ≤ x.toNat ∧ x.toNat ≤ 57 := by
    unfold is_digit at hx
    rw [Bool.and_eq_true, decide_eq_true_eq, decide_eq_true_eq, UInt8.le_iff_toNat_le,
      UInt8.le_iff_toNat_le] at hx
    exact hx
  have out : e.toNat < 48 ∨ 57 < e.toNat := by
    unfold is_digit at he
    rw [Bool.and_eq_false_iff, decide_eq_false_iff_not, decide_eq_false_iff_not,
      UInt8.le_iff_toNat_le, UInt8.le_iff_toNat_le] at he
    rcases he with he | he
    · exact .inl (Nat.lt_of_not_le he)
    · exact .inr (Nat.lt_of_not_le he)
  have lc := low hc
  have ld := low hd
  rcases out with out | out
  · have below {x : UInt8} (hx : 48 ≤ x.toNat) : e < x := UInt8.lt_iff_toNat_lt.mpr (by omega)
    rw [Std.compare_eq_gt.mpr (below lc.1), Std.compare_eq_gt.mpr (below ld.1),
      Std.compare_eq_lt.mpr (below lc.1), Std.compare_eq_lt.mpr (below ld.1)]
    exact ⟨rfl, rfl⟩
  · have above {x : UInt8} (hx : x.toNat ≤ 57) : x < e := UInt8.lt_iff_toNat_lt.mpr (by omega)
    rw [Std.compare_eq_lt.mpr (above lc.2), Std.compare_eq_lt.mpr (above ld.2),
      Std.compare_eq_gt.mpr (above lc.2), Std.compare_eq_gt.mpr (above ld.2)]
    exact ⟨rfl, rfl⟩

/-- Strings that diverge at once, not both at a digit, are collated. -/
theorem numcmp_front (ha : 0 ∉ a) (hb : 0 ∉ b) (h : byteAt a 0 ≠ byteAt b 0)
    (hd : (is_digit (byteAt a 0) && is_digit (byteAt b 0)) = false) :
    numcmp a b = compare (byteAt a 0) (byteAt b 0) := by
  have heads : a.head? ≠ b.head? := by
    intro e
    apply h
    cases a <;> cases b <;> simp_all [byteAt]
  have front := numcmp_digits (s := []) (fun c hc => absurd hc List.not_mem_nil) heads
  rw [List.nil_append, List.nil_append, hd] at front
  rw [front, ← compare_of_first_ne ha hb h, ← strcoll_eq ha hb]
  split
  · rfl
  · rfl

theorem significant_ne {d : Bytes} (hd : Significant d) {c : UInt8} (hc : d.head? = some c) :
    48 < c := by
  have hmem : c ∈ d := List.mem_of_head? hc
  have digit := hd.digits c hmem
  have hne : c ≠ 48 := fun e => hd.head (e ▸ hc)
  unfold is_digit at digit
  rw [Bool.and_eq_true, decide_eq_true_eq] at digit
  exact UInt8.lt_of_le_of_ne digit.1 hne.symm

/-- Of two equal numbers the one with more leading zeros comes first. -/
theorem compare_zeros {z w : Nat} {d r q : Bytes} (hd : Significant d) (hne : d ≠ []) (h : z ≠ w) :
    compare (numeral z d ++ r) (numeral w d ++ q) = compare w z := by
  obtain ⟨c, d', rfl⟩ := List.exists_cons_of_ne_nil hne
  have big : 48 < c := significant_ne hd rfl
  have split (n k : Nat) (s : Bytes) : numeral (n + (k + 1)) (c :: d') ++ s =
      List.replicate n 48 ++ (48 :: (numeral k (c :: d') ++ s)) := by
    unfold numeral
    rw [← List.replicate_append_replicate, List.replicate_succ]
    simp
  have plain (n : Nat) (s : Bytes) : numeral n (c :: d') ++ s =
      List.replicate n 48 ++ (c :: (d' ++ s)) := by
    unfold numeral
    simp
  rcases Nat.lt_or_gt_of_ne h with hlt | hgt
  · obtain ⟨k, rfl⟩ : ∃ k, w = z + (k + 1) := ⟨w - z - 1, by omega⟩
    rw [plain z r, split z k q, compare_append, compare_of_head_ne (UInt8.ne_of_lt big).symm,
      Std.compare_eq_gt.mpr big, Nat.compare_eq_gt.mpr hlt]
  · obtain ⟨k, rfl⟩ : ∃ k, z = w + (k + 1) := ⟨z - w - 1, by omega⟩
    rw [split w k r, plain w q, compare_append, compare_of_head_ne (UInt8.ne_of_lt big),
      Std.compare_eq_lt.mpr big, Nat.compare_eq_lt.mpr hgt]

/-- Different runs of zeros are collated. -/
theorem numcmp_zeros {z w : Nat} {r q : Bytes} (hr : Stops r) (hq : Stops q) (h : z ≠ w) :
    numcmp (numeral z [] ++ r) (numeral w [] ++ q) = strcoll (numeral z [] ++ r) (numeral w [] ++ q) := by
  have alone {n : Nat} (hn : 0 < n) : numeral n [] ≠ [] := by
    unfold numeral
    intro e
    have len := congrArg List.length e
    rw [List.append_nil, List.length_replicate] at len
    exact absurd len (Nat.ne_of_gt hn)
  have head {n : Nat} (hn : 0 < n) (s : Bytes) : byteAt (numeral n [] ++ s) 0 = 48 := by
    obtain ⟨k, rfl⟩ : ∃ k, n = k + 1 := ⟨n - 1, by omega⟩
    rfl
  have front {x y : Bytes} (hxy : x.head? ≠ y.head?)
      (hd : (is_digit (byteAt x 0) && is_digit (byteAt y 0)) = false) : numcmp x y = strcoll x y := by
    have value := numcmp_digits (s := []) (fun c hc => absurd hc List.not_mem_nil) hxy
    rw [List.nil_append, List.nil_append, hd] at value
    rw [value]
    split
    · rfl
    · rfl
  have apart {x y : Bytes} (hx : Stops x) (hy : byteAt y 0 = 48) : x.head? ≠ y.head? := by
    intro e
    have same : byteAt x 0 = byteAt y 0 := by
      cases x <;> cases y <;> simp_all [byteAt]
    rw [hy] at same
    unfold Stops at hx
    rw [same] at hx
    exact absurd hx (by decide)
  rcases Nat.eq_zero_or_pos z with rfl | hz
  · have hw : 0 < w := Nat.pos_of_ne_zero h.symm
    have hr' : Stops (numeral 0 [] ++ r) := hr
    refine front (apart hr' (head hw q)) ?_
    rw [hr']
    rfl
  · rcases Nat.eq_zero_or_pos w with rfl | hw
    · have hq' : Stops (numeral 0 [] ++ q) := hq
      refine front (apart hq' (head hz r)).symm ?_
      rw [hq', Bool.and_false]
    · have differ : numeral z [] ≠ numeral w [] := fun e =>
        h (numeral_inj significant_nil significant_nil e).1
      rw [numcmp_numerals significant_nil significant_nil hr hq (alone hz) (alone hw) differ,
        if_pos rfl]

theorem digitscmp_ne {d e : Bytes} (h : d ≠ e) : digitscmp d e ≠ .eq := by
  unfold digitscmp
  rw [Ne, Ordering.then_eq_eq]
  rintro ⟨-, he⟩
  exact h (LawfulEqOrd.eq_of_compare he)

theorem no_nul_tail {x y : Bytes} (h : 0 ∉ x ++ y) : 0 ∉ y := fun h0 => h (List.mem_append_right x h0)

theorem stops_not_digit {s : Bytes} (h : Stops s) : is_digit (byteAt s 0) = false := h

theorem numeral_ne_nil {z : Nat} {d : Bytes} (h : d ≠ []) : numeral z d ≠ [] := by
  unfold numeral
  exact List.append_ne_nil_of_right_ne_nil _ h

/-- A number against a string that starts with none, or with zeros only. -/
theorem numcmp_number_byte {z w : Nat} {d r q : Bytes} (hd : Significant d) (hne : d ≠ [])
    (hr : Stops r) (hq : Stops q) (ha : 0 ∉ numeral z d ++ r) (hb : 0 ∉ numeral w [] ++ q) :
    numcmp (numeral z d ++ r) (numeral w [] ++ q) = compare 49 (byteAt (numeral w [] ++ q) 0) ∧
      numcmp (numeral w [] ++ q) (numeral z d ++ r) = compare (byteAt (numeral w [] ++ q) 0) 49 := by
  have digit : is_digit (byteAt (numeral z d ++ r) 0) = true :=
    digit_behind (allDigits_numeral z hd.digits) (List.length_pos_of_ne_nil (numeral_ne_nil hne))
  rcases Nat.eq_zero_or_pos w with rfl | hw
  · have stop : is_digit (byteAt (numeral 0 [] ++ q) 0) = false := hq
    have apart : byteAt (numeral z d ++ r) 0 ≠ byteAt (numeral 0 [] ++ q) 0 := by
      intro e
      rw [e, stop] at digit
      exact Bool.noConfusion digit
    have value := compare_digit digit (d := 49) (by decide) stop
    constructor
    · rw [numcmp_front ha hb apart (by rw [stop, Bool.and_false])]
      exact value.1
    · rw [numcmp_front hb ha apart.symm (by rw [stop, Bool.false_and])]
      exact value.2
  · obtain ⟨k, rfl⟩ : ∃ k, w = k + 1 := ⟨w - 1, by omega⟩
    have head : byteAt (numeral (k + 1) [] ++ q) 0 = 48 := rfl
    have some_zeros : numeral (k + 1) [] ≠ [] := by
      unfold numeral
      rw [List.replicate_succ]
      exact List.cons_ne_nil _ _
    have differ : numeral z d ≠ numeral (k + 1) [] := fun e =>
      hne (numeral_inj hd significant_nil e).2
    have len : compare d.length ([] : Bytes).length = .gt :=
      Nat.compare_eq_gt.mpr (List.length_pos_of_ne_nil hne)
    have len' : compare ([] : Bytes).length d.length = .lt :=
      Nat.compare_eq_lt.mpr (List.length_pos_of_ne_nil hne)
    rw [head]
    constructor
    · rw [numcmp_numerals hd significant_nil hr hq (numeral_ne_nil hne) some_zeros differ, if_neg hne]
      unfold digitscmp
      rw [len]
      rfl
    · rw [numcmp_numerals significant_nil hd hq hr some_zeros (numeral_ne_nil hne) differ.symm,
        if_neg hne.symm]
      unfold digitscmp
      rw [len']
      rfl

/-- Two numbers. -/
theorem numcmp_number {z w : Nat} {d e r q : Bytes} (hd : Significant d) (he : Significant e)
    (hdn : d ≠ []) (hen : e ≠ []) (hr : Stops r) (hq : Stops q) (ha : 0 ∉ numeral z d ++ r)
    (hb : 0 ∉ numeral w e ++ q) (h : Tok.number d z ≠ Tok.number e w) :
    numcmp (numeral z d ++ r) (numeral w e ++ q) = Tok.cmp (.number d z) (.number e w) := by
  have differ : numeral z d ≠ numeral w e := by
    intro same
    obtain ⟨rfl, rfl⟩ := numeral_inj hd he same
    exact h rfl
  rw [numcmp_numerals hd he hr hq (numeral_ne_nil hdn) (numeral_ne_nil hen) differ, Tok.cmp_number]
  by_cases hde : d = e
  · subst hde
    have hzw : z ≠ w := fun e => h (by rw [e])
    rw [if_pos rfl, strcoll_eq ha hb, compare_zeros hd hdn hzw]
    unfold digitscmp
    rw [ReflOrd.compare_self, ReflOrd.compare_self]
    rfl
  · rw [if_neg hde]
    cases hc : digitscmp d e with
    | eq => exact absurd hc (digitscmp_ne hde)
    | lt => rfl
    | gt => rfl

theorem zeros_head_ne {w : Nat} {q : Bytes} (hq : Stops q) : byteAt (numeral w [] ++ q) 0 ≠ 49 := by
  intro e
  cases w with
  | zero =>
    have stop : is_digit (byteAt (numeral 0 [] ++ q) 0) = false := hq
    rw [e] at stop
    exact absurd stop (by decide)
  | succ w =>
    have head : byteAt (numeral (w + 1) [] ++ q) 0 = 48 := rfl
    rw [head] at e
    exact absurd e (by decide)

/-- Strings that both start with no number. -/
theorem numcmp_byte {z w : Nat} {r q : Bytes} (hr : Stops r) (hq : Stops q)
    (ha : 0 ∉ numeral z [] ++ r) (hb : 0 ∉ numeral w [] ++ q)
    (h : byteAt (numeral z [] ++ r) 0 ≠ byteAt (numeral w [] ++ q) 0) :
    numcmp (numeral z [] ++ r) (numeral w [] ++ q) =
      compare (byteAt (numeral z [] ++ r) 0) (byteAt (numeral w [] ++ q) 0) := by
  apply numcmp_front ha hb h
  rw [Bool.and_eq_false_iff]
  cases z with
  | zero => exact .inl hr
  | succ z =>
    cases w with
    | zero => exact .inr hq
    | succ w => exact absurd rfl h

/-- A common first byte does not count, where no number starts. -/
theorem numcmp_tail {z w : Nat} {r q a b : Bytes} {c : UInt8} (hr : Stops r) (hq : Stops q)
    (ha : 0 ∉ c :: a) (hza : c :: a = numeral z [] ++ r) (hwb : c :: b = numeral w [] ++ q) :
    numcmp (c :: a) (c :: b) = numcmp a b := by
  have hc : c ≠ 0 := fun e => ha (by simp [e])
  have cut (hd : is_digit c = false) : numcmp (c :: a) (c :: b) = numcmp a b :=
    numcmp_cut (s := []) List.not_mem_nil hd hc a b
  cases z with
  | zero =>
    apply cut
    have hra : c :: a = r := hza
    exact (hra ▸ hr : Stops (c :: a))
  | succ z =>
    cases w with
    | zero =>
      apply cut
      have hqb : c :: b = q := hwb
      exact (hqb ▸ hq : Stops (c :: b))
    | succ w =>
      have hca : c = 48 ∧ a = numeral z [] ++ r := by simpa [numeral, List.replicate_succ] using hza
      have hcb : c = 48 ∧ b = numeral w [] ++ q := by simpa [numeral, List.replicate_succ] using hwb
      by_cases hzw : z = w
      · rw [hza, hwb, hca.2, hcb.2, hzw]
        have h0 : 0 ∉ r := no_nul_tail (hza ▸ ha)
        rw [numcmp_same (allDigits_numeral _ significant_nil.digits) hr hq h0,
          numcmp_same (allDigits_numeral _ significant_nil.digits) hr hq h0]
      · have shift : strcoll (c :: a) (c :: b) = strcoll a b :=
          strcoll_append (s := [c]) (by simpa using hc.symm) a b
        have differ : z + 1 ≠ w + 1 := fun e => hzw (Nat.add_right_cancel e)
        have long := numcmp_zeros hr hq differ
        have short := numcmp_zeros hr hq hzw
        rw [← hza, ← hwb] at long
        rw [← hca.2, ← hcb.2] at short
        rw [long, short, shift]

theorem reads_numeric : Reads true numcmp where
  nil := rfl
  differ a b ha hb h := by
    cases start true a with
    | number z d r on eq sig nonzero stops tok len =>
      cases start true b with
      | number w e q on' eq' sig' nonzero' stops' tok' len' =>
        rw [tok, tok'] at h ⊢
        subst eq eq'
        exact numcmp_number sig sig' nonzero nonzero' stops stops' ha hb h
      | byte tok' len' zeros' =>
        obtain ⟨w, q, rfl, stops'⟩ := zeros' rfl
        subst eq
        rw [tok, tok', (numcmp_number_byte sig nonzero stops stops' ha hb).1]
        exact (@Tok.cmp_of_head_ne (.number d z) (.byte _) (zeros_head_ne stops').symm).symm
    | byte tok len zeros =>
      obtain ⟨z, r, rfl, stops⟩ := zeros rfl
      cases start true b with
      | number w e q on' eq' sig' nonzero' stops' tok' len' =>
        subst eq'
        rw [tok, tok', (numcmp_number_byte sig' nonzero' stops' stops hb ha).2]
        exact (@Tok.cmp_of_head_ne (.byte _) (.number e w) (zeros_head_ne stops)).symm
      | byte tok' len' zeros' =>
        obtain ⟨w, q, rfl, stops'⟩ := zeros' rfl
        rw [tok, tok'] at h ⊢
        rw [Tok.cmp_byte]
        exact numcmp_byte stops stops' ha hb fun e => h (congrArg Tok.byte e)
  same a b ha hb hne h := by
    unfold afterTok
    cases start true a with
    | number z d r on eq sig nonzero stops tok len =>
      cases start true b with
      | number w e q on' eq' sig' nonzero' stops' tok' len' =>
        rw [tok, tok'] at h
        cases h
        subst eq eq'
        rw [len, len', List.drop_left, List.drop_left]
        exact numcmp_same (allDigits_numeral _ sig.digits) stops stops' (no_nul_tail ha)
      | byte tok' len' zeros' =>
        rw [tok, tok'] at h
        exact absurd (congrArg Tok.digits h) nonzero
    | byte tok len zeros =>
      cases start true b with
      | number w e q on' eq' sig' nonzero' stops' tok' len' =>
        rw [tok, tok'] at h
        exact absurd (congrArg Tok.digits h).symm nonzero'
      | byte tok' len' zeros' =>
        obtain ⟨z, r, hza, stops⟩ := zeros rfl
        obtain ⟨w, q, hwb, stops'⟩ := zeros' rfl
        rw [tok, tok'] at h
        rw [len, len']
        have front := take_one_eq ha hb (congrArg Tok.head h)
        obtain ⟨c, a', rfl⟩ := List.exists_cons_of_ne_nil hne
        cases b with
        | nil => exact absurd front (List.cons_ne_nil _ _)
        | cons c' b' =>
          have hcc : c = c' := (List.cons.inj front).1
          subst hcc
          exact numcmp_tail stops stops' ha hza hwb

end Numeric

end Zshrs.Glob
