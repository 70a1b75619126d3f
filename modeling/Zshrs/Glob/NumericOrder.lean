import Mathlib.Data.List.TakeWhile
import Zshrs.Glob.Zstrcmp

namespace Zshrs.Glob

section Cursors

variable {p : UInt8 → UInt8 → Bool}

theorem together_append {s : Bytes} (h : ∀ c ∈ s, p c c = true) (x y : Bytes) :
    together p (s ++ x) (s ++ y) = s.length + together p x y := by
  induction s with
  | nil => simp
  | cons c s ih =>
    have hc := h c List.mem_cons_self
    rw [List.cons_append, List.cons_append, together, if_pos hc,
      ih fun d hd => h d (List.mem_cons_of_mem c hd), List.length_cons]
    omega

theorem together_nil_right (x : Bytes) : together p x [] = 0 := by
  cases x <;> rfl

theorem byteAt_append (s x : Bytes) (i : Nat) : byteAt (s ++ x) (s.length + i) = byteAt x i := by
  unfold byteAt
  rw [List.getD_eq_getElem?_getD, List.getElem?_append_right (Nat.le_add_right _ _),
    Nat.add_sub_cancel_left, List.getD_eq_getElem?_getD]

theorem byteAt_of_lt {s : Bytes} (x : Bytes) {i : Nat} (h : i < s.length) :
    byteAt (s ++ x) i = s[i] := by
  unfold byteAt
  rw [List.getD_eq_getElem?_getD, List.getElem?_append_left h, List.getElem?_eq_getElem h]
  rfl

theorem byteAt_cons_zero (c : UInt8) (s : Bytes) : byteAt (c :: s) 0 = c := rfl

theorem byteAt_nil (i : Nat) : byteAt [] i = 0 := rfl

/-- No digit stands under the cursor. -/
def Stops (s : Bytes) : Prop := is_digit (byteAt s 0) = false

def AllDigits (s : Bytes) : Prop := ∀ c ∈ s, is_digit c = true

theorem rewind_digits {s : Bytes} (h : AllDigits s) (x : Bytes) : rewind (s ++ x) s.length = 0 := by
  suffices hi : ∀ i, i ≤ s.length → rewind (s ++ x) i = 0 from hi _ (Nat.le_refl _)
  intro i hi
  induction i with
  | zero => rfl
  | succ i ih =>
    have hlt : i < s.length := hi
    rw [rewind, byteAt_of_lt x hlt, if_pos (h _ (List.getElem_mem hlt))]
    exact ih (Nat.le_of_lt hlt)

/-- Going back stops behind a byte that is no digit. -/
theorem rewind_append (s : Bytes) {c : UInt8} (hc : is_digit c = false) (x : Bytes) (i : Nat) :
    rewind (s ++ c :: x) (s.length + 1 + i) = s.length + 1 + rewind x i := by
  have cut : s ++ c :: x = (s ++ [c]) ++ x := by simp
  have len : (s ++ [c]).length = s.length + 1 := by simp
  induction i with
  | zero =>
    have hat : byteAt (s ++ c :: x) s.length = c := byteAt_append s (c :: x) 0
    have stop : ¬ is_digit (byteAt (s ++ c :: x) s.length) = true := by
      rw [hat, hc]
      exact Bool.false_ne_true
    exact if_neg stop
  | succ i ih =>
    have hat : byteAt (s ++ c :: x) (s.length + 1 + i) = byteAt x i := by
      rw [cut, ← len]
      exact byteAt_append (s ++ [c]) x i
    rw [← Nat.add_assoc, rewind, rewind, hat, ih]
    split
    · rfl
    · rfl

end Cursors

section Collation

theorem compare_append (s x y : Bytes) : compare (s ++ x) (s ++ y) = compare x y := by
  induction s with
  | nil => rfl
  | cons c s ih =>
    rw [List.cons_append, List.cons_append, List.compare_cons_cons, Std.ReflOrd.compare_self]
    exact ih

theorem takeWhile_of_no_nul {s : Bytes} (h : 0 ∉ s) : s.takeWhile (· != 0) = s := by
  apply List.takeWhile_eq_self_iff.mpr
  intro c hc
  simpa using fun e : c = 0 => h (e ▸ hc)

theorem strcoll_eq {a b : Bytes} (ha : 0 ∉ a) (hb : 0 ∉ b) : strcoll a b = compare a b := by
  unfold strcoll
  rw [takeWhile_of_no_nul ha, takeWhile_of_no_nul hb]

theorem diverge (a b : Bytes) : ∃ s x y : Bytes, a = s ++ x ∧ b = s ++ y ∧
    ((x = [] ∧ y = []) ∨ x.head? ≠ y.head?) := by
  induction a generalizing b with
  | nil =>
    refine ⟨[], [], b, rfl, rfl, ?_⟩
    cases b with
    | nil => exact .inl ⟨rfl, rfl⟩
    | cons d b => exact .inr (by simp)
  | cons c a ih =>
    cases b with
    | nil => exact ⟨[], c :: a, [], rfl, rfl, .inr (by simp)⟩
    | cons d b =>
      by_cases h : c = d
      · subst h
        obtain ⟨s, x, y, rfl, rfl, hxy⟩ := ih b
        exact ⟨c :: s, x, y, rfl, rfl, hxy⟩
      · exact ⟨[], c :: a, d :: b, rfl, rfl, .inr (by simpa using h)⟩

theorem compare_of_head_ne {c d : UInt8} (h : c ≠ d) (x y : Bytes) :
    compare (c :: x) (d :: y) = compare c d := by
  rw [List.compare_cons_cons]
  cases hc : compare c d with
  | eq => exact absurd (Std.LawfulEqOrd.eq_of_compare hc) h
  | lt => rfl
  | gt => rfl

end Collation

section Runs

theorem is_digit_zero : is_digit 48 = true := by decide

/-- The digits of a number behind its leading zeros. -/
structure Significant (d : Bytes) : Prop where
  digits : AllDigits d
  head : d.head? ≠ some 48

def numeral (z : Nat) (d : Bytes) : Bytes := List.replicate z 48 ++ d

theorem allDigits_numeral (z : Nat) {d : Bytes} (h : AllDigits d) : AllDigits (numeral z d) := by
  intro c hc
  rcases List.mem_append.mp hc with hc | hc
  · rw [List.eq_of_mem_replicate hc]
    exact is_digit_zero
  · exact h c hc

theorem Stops.head {c : UInt8} {s : Bytes} (h : Stops (c :: s)) : is_digit c = false := h

theorem takeWhile_numeral {z : Nat} {d r : Bytes} (h : AllDigits d) (hr : Stops r) :
    (numeral z d ++ r).takeWhile is_digit = numeral z d := by
  rw [List.takeWhile_append_of_pos (allDigits_numeral z h)]
  cases r with
  | nil => simp
  | cons c r =>
    rw [List.takeWhile_cons_of_neg (by simp [hr.head]), List.append_nil]

theorem dropWhile_numeral {z : Nat} {d r : Bytes} (h : Significant d) (hr : Stops r) :
    (numeral z d ++ r).dropWhile (· == 48) = d ++ r := by
  unfold numeral
  rw [List.append_assoc, List.dropWhile_append_of_pos]
  · cases d with
    | nil =>
      cases r with
      | nil => rfl
      | cons c r =>
        apply List.dropWhile_cons_of_neg
        intro hc
        have hc : c = 48 := by simpa using hc
        have hd := hr.head
        rw [hc, is_digit_zero] at hd
        exact Bool.noConfusion hd
    | cons c d =>
      apply List.dropWhile_cons_of_neg
      intro hc
      have hc : c = 48 := by simpa using hc
      exact h.head (by rw [hc]; rfl)
  · intro c hc
    rw [List.eq_of_mem_replicate hc]
    rfl

/-- Every string is a run of digits, which may be empty, and what stands behind it. -/
theorem exists_numeral (s : Bytes) :
    ∃ z d r, s = numeral z d ++ r ∧ Significant d ∧ Stops r := by
  let run := s.takeWhile is_digit
  let d := run.dropWhile (· == 48)
  have hrun : AllDigits run := fun c hc => List.mem_takeWhile_imp hc
  have hzeros : run.takeWhile (· == 48) = List.replicate (run.takeWhile (· == 48)).length 48 := by
    apply List.eq_replicate_of_mem
    intro c hc
    simpa using List.mem_takeWhile_imp hc
  refine ⟨(run.takeWhile (· == 48)).length, d, s.dropWhile is_digit, ?_, ⟨?_, ?_⟩, ?_⟩
  · unfold numeral
    rw [← hzeros, List.takeWhile_append_dropWhile, List.takeWhile_append_dropWhile]
  · intro c hc
    exact hrun c ((List.dropWhile_sublist _).mem hc)
  · intro h
    have := List.head?_dropWhile_not (· == 48) run
    rw [show run.dropWhile (· == 48) = d from rfl, h] at this
    exact absurd this (by decide)
  · unfold Stops
    have := List.head?_dropWhile_not is_digit s
    cases hs : s.dropWhile is_digit with
    | nil => decide
    | cons c r =>
      rw [hs] at this
      have hc : is_digit c = false := by simpa using this
      exact hc

theorem together_digits {x y r q : Bytes} (hx : AllDigits x) (hy : AllDigits y) (hr : Stops r)
    (hq : Stops q) :
    together (fun c d => is_digit c && is_digit d) (x ++ r) (y ++ q) = min x.length y.length := by
  induction x generalizing y with
  | nil =>
    rw [List.length_nil, Nat.zero_min, List.nil_append]
    cases r with
    | nil => rfl
    | cons c r =>
      cases y ++ q with
      | nil => rfl
      | cons d s =>
        rw [together, if_neg]
        simp [hr.head]
  | cons c x ih =>
    cases y with
    | nil =>
      rw [List.length_nil, Nat.min_zero, List.nil_append]
      cases q with
      | nil => exact together_nil_right _
      | cons d q =>
        rw [List.cons_append, together, if_neg]
        simp [hq.head]
    | cons d y =>
      have hc : is_digit c = true := hx c List.mem_cons_self
      have hd : is_digit d = true := hy d List.mem_cons_self
      rw [List.cons_append, List.cons_append, together, if_pos (by simp [hc, hd]),
        ih (fun e he => hx e (List.mem_cons_of_mem c he))
          (fun e he => hy e (List.mem_cons_of_mem d he)),
        List.length_cons, List.length_cons, Nat.succ_min_succ]

theorem compare_toNat (c d : UInt8) :
    compare (1 * ((c.toNat : Int) - (d.toNat : Int))) 0 = compare c d := by
  rw [Int.one_mul]
  rcases Nat.lt_trichotomy c.toNat d.toNat with h | h | h
  · have hlt : c < d := UInt8.lt_iff_toNat_lt.mpr h
    rw [Std.compare_eq_lt.mpr hlt]
    exact Std.compare_eq_lt.mpr (by omega)
  · have heq : c = d := UInt8.toNat_inj.mp h
    rw [heq, Std.ReflOrd.compare_self, Int.sub_self]
    rfl
  · have hgt : d < c := UInt8.lt_iff_toNat_lt.mpr h
    rw [Std.compare_eq_gt.mpr hgt]
    exact Std.compare_eq_gt.mpr (by omega)

/-- Numbers are compared by their lengths, and then by their digits. -/
def digitscmp (d e : Bytes) : Ordering := (compare d.length e.length).then (compare d e)

theorem together_unequal {x y r q : Bytes} (hx : AllDigits x) (hy : AllDigits y) (hr : Stops r)
    (hq : Stops q) (h : x.head? ≠ y.head?) :
    together (fun c d => is_digit c && c == d) (x ++ r) (y ++ q) = 0 := by
  cases x with
  | nil =>
    cases y with
    | nil => exact absurd rfl h
    | cons d y =>
      cases r with
      | nil => rfl
      | cons c r =>
        rw [List.nil_append, List.cons_append, together, if_neg]
        simp [hr.head]
  | cons c x =>
    have hc : is_digit c = true := hx c List.mem_cons_self
    cases y with
    | nil =>
      cases q with
      | nil => exact together_nil_right _
      | cons d q =>
        rw [List.nil_append, List.cons_append, together, if_neg]
        rw [Bool.and_eq_true, beq_iff_eq]
        rintro ⟨-, rfl⟩
        rw [hq.head] at hc
        exact Bool.noConfusion hc
    | cons d y =>
      rw [List.cons_append, List.cons_append, together, if_neg]
      rw [Bool.and_eq_true, beq_iff_eq]
      rintro ⟨-, rfl⟩
      exact h rfl

theorem digit_behind {x r : Bytes} (hx : AllDigits x) {n : Nat} (h : n < x.length) :
    is_digit (byteAt (x ++ r) n) = true := by
  rw [byteAt_of_lt r h]
  exact hx _ (List.getElem_mem h)

theorem stop_behind {x r : Bytes} (hr : Stops r) : is_digit (byteAt (x ++ r) x.length) = false := by
  have h := byteAt_append x r 0
  rw [Nat.add_zero] at h
  rw [h]
  exact hr

/-- The runs behind their common digits: the longer one is the larger number. -/
theorem runs_tail {x y r q : Bytes} (hx : AllDigits x) (hy : AllDigits y) (hr : Stops r)
    (hq : Stops q) (h : x.head? ≠ y.head?) :
    (let n := together (fun c d => is_digit c && is_digit d) (x ++ r) (y ++ q)
     let cmp := 1 * (((byteAt (x ++ r) 0).toNat : Int) - ((byteAt (y ++ q) 0).toNat : Int))
     if is_digit (byteAt (x ++ r) n) && !is_digit (byteAt (y ++ q) n) then some Ordering.gt
     else if is_digit (byteAt (y ++ q) n) && !is_digit (byteAt (x ++ r) n) then some .lt
     else some (compare cmp 0)) = some (digitscmp x y) := by
  rw [together_digits hx hy hr hq]
  dsimp only
  unfold digitscmp
  rcases Nat.lt_trichotomy x.length y.length with hlt | heq | hgt
  · rw [Nat.min_eq_left (Nat.le_of_lt hlt), stop_behind hr, digit_behind hy hlt,
      Nat.compare_eq_lt.mpr hlt]
    rfl
  · rw [heq, Nat.min_self, stop_behind hq, ← heq, stop_behind hr, Nat.compare_eq_eq.mpr rfl]
    cases x with
    | nil =>
      have hy0 : y = [] := List.eq_nil_of_length_eq_zero heq.symm
      rw [hy0] at h
      exact absurd rfl h
    | cons c x =>
      cases y with
      | nil => exact absurd heq (by simp)
      | cons d y =>
        have hcd : c ≠ d := fun e => h (by rw [e]; rfl)
        rw [List.cons_append, List.cons_append, byteAt_cons_zero, byteAt_cons_zero, compare_toNat,
          compare_of_head_ne hcd]
        rfl
  · rw [Nat.min_eq_right (Nat.le_of_lt hgt), stop_behind hq, digit_behind hx hgt,
      Nat.compare_eq_gt.mpr hgt]
    rfl

theorem digitscmp_append (s x y : Bytes) : digitscmp (s ++ x) (s ++ y) = digitscmp x y := by
  have hlen : compare (s ++ x).length (s ++ y).length = compare x.length y.length := by
    rw [List.length_append, List.length_append]
    rcases Nat.lt_trichotomy x.length y.length with h | h | h
    · rw [Nat.compare_eq_lt.mpr h, Nat.compare_eq_lt.mpr (by omega)]
    · rw [Nat.compare_eq_eq.mpr h, Nat.compare_eq_eq.mpr (by omega)]
    · rw [Nat.compare_eq_gt.mpr h, Nat.compare_eq_gt.mpr (by omega)]
  unfold digitscmp
  rw [hlen, compare_append]

/-- Two runs of digits are compared as numbers. -/
theorem runs_eq {z w : Nat} {d e r q : Bytes} (hd : Significant d) (he : Significant e)
    (hr : Stops r) (hq : Stops q) :
    runs 1 (numeral z d ++ r) (numeral w e ++ q) =
      if d = e then none else some (digitscmp d e) := by
  unfold runs
  rw [dropWhile_numeral hd hr, dropWhile_numeral he hq]
  obtain ⟨s, x, y, rfl, rfl, hxy⟩ := diverge d e
  have hs : AllDigits s := fun c hc => hd.digits c (List.mem_append_left x hc)
  have hx : AllDigits x := fun c hc => hd.digits c (List.mem_append_right s hc)
  have hy : AllDigits y := fun c hc => he.digits c (List.mem_append_right s hc)
  have same : ∀ c ∈ s, (is_digit c && c == c) = true := by
    intro c hc
    rw [hs c hc, beq_self_eq_true]
    rfl
  dsimp only
  rw [List.append_assoc, List.append_assoc, together_append same]
  rcases hxy with ⟨rfl, rfl⟩ | hxy
  · have none_left : together (fun c d => is_digit c && c == d) ([] ++ r) ([] ++ q) = 0 := by
      cases r with
      | nil => rfl
      | cons c r =>
        cases q with
        | nil => rfl
        | cons d q =>
          rw [List.nil_append, List.nil_append, together, if_neg]
          simp [hr.head]
    rw [none_left, Nat.add_zero, List.drop_left, List.drop_left, List.nil_append, List.nil_append,
      if_pos rfl, hr, hq]
    rfl
  · rw [together_unequal hx hy hr hq hxy, Nat.add_zero, List.drop_left, List.drop_left]
    have hne : s ++ x ≠ s ++ y := fun h => hxy (by rw [List.append_cancel_left h])
    have some_left : (is_digit (byteAt (x ++ r) 0) || is_digit (byteAt (y ++ q) 0)) = true := by
      rw [Bool.or_eq_true]
      cases x with
      | nil =>
        cases y with
        | nil => exact absurd rfl hxy
        | cons d y => exact .inr (hy d List.mem_cons_self)
      | cons c x => exact .inl (hx c List.mem_cons_self)
    rw [if_pos some_left, if_neg hne, digitscmp_append]
    exact runs_tail hx hy hr hq hxy

end Runs

section Unsigned

/-- The numeric comparison of a glob, whose flags have no sign. -/
def numcmp (a b : Bytes) : Ordering := cmp_numeric a b false

/-- The numeric comparison, where the strings diverge at `i`. -/
def numericAt (a b : Bytes) (i : Nat) : Ordering :=
  if is_digit (byteAt a i) || is_digit (byteAt b i) then
    if is_digit (byteAt a (rewind a i)) && is_digit (byteAt b (rewind a i)) then
      (runs 1 (a.drop (rewind a i)) (b.drop (rewind a i))).getD (strcoll a b)
    else strcoll a b
  else strcoll a b

theorem numcmp_eq (a b : Bytes) :
    numcmp a b = numericAt a b (together (fun x y => x == y && x != 0) a b) := by
  unfold numcmp cmp_numeric numericAt
  rfl

theorem strcoll_append {s : Bytes} (h : 0 ∉ s) (x y : Bytes) :
    strcoll (s ++ x) (s ++ y) = strcoll x y := by
  have all : ∀ c ∈ s, (c != 0) = true := by
    intro c hc
    simpa using fun e : c = 0 => h (e ▸ hc)
  unfold strcoll
  rw [List.takeWhile_append_of_pos all, List.takeWhile_append_of_pos all, compare_append]

theorem AllDigits.no_nul {s : Bytes} (h : AllDigits s) : 0 ∉ s := fun h0 =>
  absurd (h 0 h0) (by decide)

theorem passes {s : Bytes} (h : 0 ∉ s) :
    ∀ c ∈ s, (fun x y : UInt8 => x == y && x != 0) c c = true := by
  intro c hc
  simpa using fun e : c = 0 => h (e ▸ hc)

theorem together_of_head_ne {x y : Bytes} (h : x.head? ≠ y.head?) :
    together (fun c d => c == d && c != 0) x y = 0 := by
  cases x with
  | nil => rfl
  | cons c x =>
    cases y with
    | nil => rfl
    | cons d y =>
      rw [together, if_neg]
      rw [Bool.and_eq_true, beq_iff_eq]
      rintro ⟨rfl, -⟩
      exact h rfl

/-- Two strings that diverge behind digits: these belong to the numbers that are compared. -/
theorem numcmp_digits {s x y : Bytes} (hs : AllDigits s) (h : x.head? ≠ y.head?) :
    numcmp (s ++ x) (s ++ y) =
      if is_digit (byteAt x 0) || is_digit (byteAt y 0) then
        if is_digit (byteAt (s ++ x) 0) && is_digit (byteAt (s ++ y) 0) then
          (runs 1 (s ++ x) (s ++ y)).getD (strcoll (s ++ x) (s ++ y))
        else strcoll (s ++ x) (s ++ y)
      else strcoll (s ++ x) (s ++ y) := by
  have hx := byteAt_append s x 0
  have hy := byteAt_append s y 0
  rw [Nat.add_zero] at hx hy
  rw [numcmp_eq, together_append (passes hs.no_nul), together_of_head_ne h, Nat.add_zero]
  unfold numericAt
  rw [rewind_digits hs, hx, hy, List.drop_zero, List.drop_zero]

/-- What stands in front of a byte that is no digit does not count. -/
theorem numcmp_cut {s : Bytes} (hs : 0 ∉ s) {c : UInt8} (hc : is_digit c = false) (h0 : c ≠ 0)
    (u v : Bytes) : numcmp (s ++ c :: u) (s ++ c :: v) = numcmp u v := by
  have hcut (w : Bytes) : s ++ c :: w = (s ++ [c]) ++ w := by simp
  have hlen : (s ++ [c]).length = s.length + 1 := by simp
  have hno : 0 ∉ s ++ [c] := by
    rw [List.mem_append, List.mem_singleton]
    rintro (h | h)
    · exact hs h
    · exact h0 h.symm
  have hat (w : Bytes) (i : Nat) : byteAt (s ++ c :: w) (s.length + 1 + i) = byteAt w i := by
    rw [hcut, ← hlen]
    exact byteAt_append (s ++ [c]) w i
  have hdrop (w : Bytes) (i : Nat) : (s ++ c :: w).drop (s.length + 1 + i) = w.drop i := by
    rw [hcut, ← hlen]
    exact List.drop_length_add_append i
  have hcoll : strcoll (s ++ c :: u) (s ++ c :: v) = strcoll u v := by
    rw [hcut u, hcut v]
    exact strcoll_append hno u v
  have hgo : together (fun x y => x == y && x != 0) (s ++ c :: u) (s ++ c :: v) =
      s.length + 1 + together (fun x y => x == y && x != 0) u v := by
    rw [hcut u, hcut v, together_append (passes hno), hlen]
  rw [numcmp_eq, numcmp_eq, hgo]
  unfold numericAt
  rw [rewind_append s hc, hat, hat, hat, hat, hdrop, hdrop, hcoll]

/-- Strings that start with one and the same number. -/
theorem numcmp_same {t r q : Bytes} (ht : AllDigits t) (hr : Stops r) (hq : Stops q) (h0 : 0 ∉ r) :
    numcmp (t ++ r) (t ++ q) = numcmp r q := by
  have collate (h : r.head? ≠ q.head?) : numcmp (t ++ r) (t ++ q) = numcmp r q := by
    have front := numcmp_digits (s := []) (fun c hc => absurd hc List.not_mem_nil) h
    rw [numcmp_digits ht h, hr, hq]
    rw [List.nil_append, List.nil_append, hr, hq] at front
    exact (strcoll_append ht.no_nul r q).trans front.symm
  cases r with
  | nil =>
    cases q with
    | nil =>
      have nothing (s : Bytes) (hs : 0 ∉ s) : numcmp s s = .eq := by
        rw [numcmp_eq]
        have stop : is_digit (byteAt s (together (fun x y => x == y && x != 0) s s)) = false := by
          have len := @together_append (fun x y => x == y && x != 0) s (passes hs) [] []
          rw [List.append_nil] at len
          rw [len]
          have hat := byteAt_append s [] 0
          rw [List.append_nil] at hat
          exact congrArg is_digit hat
        unfold numericAt
        rw [stop]
        unfold strcoll
        exact Std.ReflOrd.compare_self
      rw [List.append_nil, nothing t ht.no_nul, nothing [] List.not_mem_nil]
    | cons d q => exact collate (by simp)
  | cons c r =>
    cases q with
    | nil => exact collate (by simp)
    | cons d q =>
      by_cases h : c = d
      · subst h
        have hc : c ≠ 0 := fun e => h0 (by simp [e])
        rw [numcmp_cut ht.no_nul hr.head hc]
        exact (numcmp_cut (s := []) List.not_mem_nil hr.head hc r q).symm
      · exact collate (by simpa using h)

theorem numeral_inj {z w : Nat} {d e : Bytes} (hd : Significant d) (he : Significant e)
    (h : numeral z d = numeral w e) : z = w ∧ d = e := by
  have stops : Stops [] := rfl
  have dd := dropWhile_numeral (z := z) hd stops
  have ee := dropWhile_numeral (z := w) he stops
  rw [List.append_nil, List.append_nil] at dd ee
  have hde : d = e := by rw [← dd, h, ee]
  have len := congrArg List.length h
  unfold numeral at len
  rw [List.length_append, List.length_append, List.length_replicate, List.length_replicate,
    hde] at len
  exact ⟨Nat.add_right_cancel len, hde⟩

/-- Strings that start with different runs of digits. -/
theorem numcmp_numerals {z w : Nat} {d e r q : Bytes} (hd : Significant d) (he : Significant e)
    (hr : Stops r) (hq : Stops q) (hzd : numeral z d ≠ []) (hwe : numeral w e ≠ [])
    (hne : numeral z d ≠ numeral w e) :
    numcmp (numeral z d ++ r) (numeral w e ++ q) =
      if d = e then strcoll (numeral z d ++ r) (numeral w e ++ q) else digitscmp d e := by
  have hz := allDigits_numeral z hd.digits
  have hw := allDigits_numeral w he.digits
  have starts {t : Bytes} (ht : AllDigits t) (h : t ≠ []) (u : Bytes) :
      is_digit (byteAt (t ++ u) 0) = true := digit_behind ht (List.length_pos_of_ne_nil h)
  have value := runs_eq (z := z) (w := w) hd he hr hq
  have left := starts hz hzd r
  have right := starts hw hwe q
  obtain ⟨s, x, y, hx, hy, hxy⟩ := diverge (numeral z d) (numeral w e)
  have digits_x : AllDigits x := fun c hc => hz c (hx ▸ List.mem_append_right s hc)
  have digits_y : AllDigits y := fun c hc => hw c (hy ▸ List.mem_append_right s hc)
  have digits_s : AllDigits s := fun c hc => hz c (hx ▸ List.mem_append_left x hc)
  have hxy : x.head? ≠ y.head? := by
    rcases hxy with ⟨rfl, rfl⟩ | hxy
    · exact absurd (hx.trans hy.symm) hne
    · exact hxy
  have behind : (x ++ r).head? ≠ (y ++ q).head? ∧
      (is_digit (byteAt (x ++ r) 0) || is_digit (byteAt (y ++ q) 0)) = true := by
    rw [Bool.or_eq_true]
    cases x with
    | nil =>
      cases y with
      | nil => exact absurd rfl hxy
      | cons d' y =>
        have hd' : is_digit d' = true := digits_y d' List.mem_cons_self
        refine ⟨?_, .inr hd'⟩
        cases r with
        | nil => simp
        | cons c r =>
          rintro ⟨⟩
          rw [hr.head] at hd'
          exact Bool.noConfusion hd'
    | cons c' x =>
      have hc' : is_digit c' = true := digits_x c' List.mem_cons_self
      refine ⟨?_, .inl hc'⟩
      cases y with
      | nil =>
        cases q with
        | nil => simp
        | cons c q =>
          rintro ⟨⟩
          rw [hq.head] at hc'
          exact Bool.noConfusion hc'
      | cons d' y =>
        intro e
        exact hxy e
  rw [hx, List.append_assoc] at left
  rw [hy, List.append_assoc] at right
  rw [hx, hy, List.append_assoc, List.append_assoc] at value ⊢
  rw [numcmp_digits digits_s behind.1, if_pos behind.2, left, right, value]
  by_cases hde : d = e
  · rw [if_pos hde, if_pos hde]
    rfl
  · rw [if_neg hde, if_neg hde]
    rfl

end Unsigned

end Zshrs.Glob
