import Mathlib.Data.List.Induction
import Mathlib.Data.List.Infix
import Zshrs.Glob.NameOrder
import Zshrs.Lib.Readings

namespace Zshrs.Glob

open Std Lib

section Signed

/-- The numeric comparison with signs, of what stands behind a byte that may be a minus. The numbers that
decide are turned round behind one. -/
def signcmp (neg : Bool) (a b : Bytes) : Ordering :=
  let i := together (fun x y => x == y && x != 0) a b
  if is_digit (byteAt a i) || is_digit (byteAt b i) then
    let r := rewind a i
    let mul := if (if r = 0 then neg else byteAt a (r - 1) == 45) then -1 else 1
    if is_digit (byteAt a r) && is_digit (byteAt b r) then
      (runs mul (a.drop r) (b.drop r)).getD (strcoll a b)
    else strcoll a b
  else strcoll a b

/-- Both strings start with digits, and with different numbers. -/
def unlike (a b : Bytes) : Bool :=
  is_digit (byteAt a 0) && is_digit (byteAt b 0) && significant a != significant b

variable {a b s x y : Bytes} {neg : Bool}

theorem runs_minus (u v : Bytes) : runs (-1) u v = (runs 1 u v).map Ordering.swap := by
  have turned (n : Int) : compare (-1 * n) 0 = (compare (1 * n) 0).swap := by
    rcases Int.lt_trichotomy n 0 with h | rfl | h
    · rw [Std.compare_eq_gt.mpr (by omega : 0 < -1 * n), Std.compare_eq_lt.mpr (by omega : 1 * n < 0)]
      rfl
    · rfl
    · rw [Std.compare_eq_lt.mpr (by omega : -1 * n < 0), Std.compare_eq_gt.mpr (by omega : 0 < 1 * n)]
      rfl
  unfold runs
  dsimp only
  rw [turned]
  split
  · split
    · rfl
    · split
      · rfl
      · rfl
  · rfl

theorem significant_numeral {z : Nat} {d r : Bytes} (hd : Significant d) (hr : Stops r) :
    significant (numeral z d ++ r) = d := by
  have front := dropWhile_numeral (z := z) (r := []) hd rfl
  rw [List.append_nil, List.append_nil] at front
  unfold significant
  rw [takeWhile_numeral hd.digits hr, front]

theorem runs_significant (a b : Bytes) : runs 1 a b =
    if significant a = significant b then none else some (digitscmp (significant a) (significant b)) := by
  obtain ⟨z, d, r, rfl, hd, hr⟩ := exists_numeral a
  obtain ⟨w, e, q, rfl, he, hq⟩ := exists_numeral b
  rw [runs_eq hd he hr hq, significant_numeral hd hr, significant_numeral he hq]

/-- Two strings that diverge behind digits: these belong to the numbers that are compared. -/
theorem signcmp_digits (hs : AllDigits s) (h : x.head? ≠ y.head?) :
    signcmp neg (s ++ x) (s ++ y) =
      if neg && unlike (s ++ x) (s ++ y) then (numcmp (s ++ x) (s ++ y)).swap else numcmp (s ++ x) (s ++ y) := by
  have hx := byteAt_append s x 0
  have hy := byteAt_append s y 0
  rw [Nat.add_zero] at hx hy
  have value : signcmp neg (s ++ x) (s ++ y) =
      if is_digit (byteAt x 0) || is_digit (byteAt y 0) then
        if is_digit (byteAt (s ++ x) 0) && is_digit (byteAt (s ++ y) 0) then
          (runs (if neg then -1 else 1) (s ++ x) (s ++ y)).getD (strcoll (s ++ x) (s ++ y))
        else strcoll (s ++ x) (s ++ y)
      else strcoll (s ++ x) (s ++ y) := by
    unfold signcmp
    dsimp only
    rw [together_append (passes hs.no_nul), together_of_head_ne h, Nat.add_zero, rewind_digits hs, hx, hy,
      List.drop_zero, List.drop_zero]
    rfl
  rw [value, numcmp_digits hs h]
  cases neg with
  | false => rfl
  | true =>
    unfold unlike
    rw [if_pos rfl, runs_minus, runs_significant]
    by_cases hd : (is_digit (byteAt (s ++ x) 0) && is_digit (byteAt (s ++ y) 0)) = true
    · simp only [hd, if_true, Bool.true_and]
      by_cases hxy : (is_digit (byteAt x 0) || is_digit (byteAt y 0)) = true
      · rw [if_pos hxy, if_pos hxy]
        by_cases hsig : significant (s ++ x) = significant (s ++ y)
        · rw [if_pos hsig, hsig, bne_self_eq_false]
          rfl
        · rw [if_neg hsig, bne_iff_ne.mpr hsig]
          rfl
      · rw [Bool.not_eq_true, Bool.or_eq_false_iff] at hxy
        have hsig : significant (s ++ x) = significant (s ++ y) := by
          have run {x : Bytes} (hx : Stops x) : (s ++ x).takeWhile is_digit = s := by
            have front := takeWhile_numeral (z := 0) hs hx
            exact front
          unfold significant
          rw [run hxy.1, run hxy.2]
        rw [hxy.1, hxy.2, hsig, bne_self_eq_false]
        rfl
    · simp only [hd, Bool.false_and, Bool.and_false]
      rfl

/-- What stands in front of a byte that is no digit does not count, but for a minus. -/
theorem signcmp_cut (hs : 0 ∉ s) {c : UInt8} (hc : is_digit c = false) (h0 : c ≠ 0) (u v : Bytes) :
    signcmp neg (s ++ c :: u) (s ++ c :: v) = signcmp (c == 45) u v := by
  have hcut (w : Bytes) : s ++ c :: w = (s ++ [c]) ++ w := by simp
  have hlen : (s ++ [c]).length = s.length + 1 := by simp
  have hno : 0 ∉ s ++ [c] := by
    rw [List.mem_append, List.mem_singleton]
    rintro (h | h)
    · exact hs h
    · exact h0 h.symm
  have hat (w : Bytes) (i : Nat) : byteAt (s ++ c :: w) (s.length + 1 + i) = byteAt w i := by
    rw [hcut, ← hlen]
    exact byteAt_append (s ++ [c]) w i
  have hbehind (w : Bytes) (r : Nat) : (if s.length + 1 + r = 0 then neg
      else byteAt (s ++ c :: w) (s.length + 1 + r - 1) == 45) =
        if r = 0 then c == 45 else byteAt w (r - 1) == 45 := by
    rw [if_neg (by omega)]
    cases r with
    | zero =>
      have here : byteAt (s ++ c :: w) s.length = c := byteAt_append s (c :: w) 0
      rw [if_pos rfl, Nat.add_zero, Nat.add_sub_cancel, here]
    | succ r =>
      rw [if_neg (Nat.succ_ne_zero r), Nat.add_sub_cancel, ← Nat.add_assoc, Nat.add_sub_cancel, hat]
  have hdrop (w : Bytes) (i : Nat) : (s ++ c :: w).drop (s.length + 1 + i) = w.drop i := by
    rw [hcut, ← hlen]
    exact List.drop_length_add_append i
  have hcoll : strcoll (s ++ c :: u) (s ++ c :: v) = strcoll u v := by
    rw [hcut u, hcut v]
    exact strcoll_append hno u v
  have hgo : together (fun x y => x == y && x != 0) (s ++ c :: u) (s ++ c :: v) =
      s.length + 1 + together (fun x y => x == y && x != 0) u v := by
    rw [hcut u, hcut v, together_append (passes hno), hlen]
  unfold signcmp
  dsimp only
  rw [hgo, rewind_append s hc, hbehind, hat, hat, hat, hat, hdrop, hdrop, hcoll]

theorem signcmp_self (hs : 0 ∉ s) : signcmp neg s s = .eq := by
  have len := @together_append (fun x y => x == y && x != 0) s (passes hs) [] []
  have hat := byteAt_append s [] 0
  rw [List.append_nil] at len hat
  unfold signcmp
  dsimp only
  rw [len]
  have stop : is_digit (byteAt s (s.length + together (fun x y => x == y && x != 0) [] [])) = false :=
    congrArg is_digit hat
  rw [stop, strcoll_eq hs hs]
  exact ReflOrd.compare_self

end Signed

namespace Tok

/-- Behind a minus the numbers that are not 0 come before 0. -/
def behind (c : UInt8) : UInt8 := if c = 48 then 49 else if c = 49 then 48 else c

/-- Behind a minus larger numbers come first. -/
def negcmp : Tok → Tok → Ordering :=
  compareLex (compareOn fun t => behind t.head) (compareLex (fun a b => compareOn (fun t => t.digits.length) b a)
    (compareLex (fun a b => compareOn digits b a) fun a b => compareOn zeros b a))

def signed (neg : Bool) : Tok → Tok → Ordering := if neg then negcmp else cmp

instance : TransCmp negcmp :=
  inferInstanceAs (TransCmp (compareLex (compareOn fun t => behind t.head) (compareLex
    (fun a b => compareOn (fun t => t.digits.length) b a)
    (compareLex (fun a b => compareOn digits b a) fun a b => compareOn zeros b a))))

theorem behind_inj {c d : UInt8} (h : behind c = behind d) : c = d := by
  unfold behind at h
  grind

instance : LawfulEqCmp negcmp where
  eq_of_compare {a b} h := by
    rw [negcmp, compareLex_eq_eq, compareLex_eq_eq, compareLex_eq_eq] at h
    obtain ⟨hh, -, hd, hz⟩ := h
    cases a
    cases b
    cases behind_inj (LawfulEqOrd.eq_of_compare hh)
    cases LawfulEqOrd.eq_of_compare hd
    cases LawfulEqOrd.eq_of_compare hz
    rfl

instance (neg : Bool) : TransCmp (signed neg) := by
  cases neg with
  | false => exact inferInstanceAs (TransCmp cmp)
  | true => exact inferInstanceAs (TransCmp negcmp)

instance (neg : Bool) : LawfulEqCmp (signed neg) := by
  cases neg with
  | false => exact inferInstanceAs (LawfulEqCmp cmp)
  | true => exact inferInstanceAs (LawfulEqCmp negcmp)

theorem negcmp_of_head_ne {a b : Tok} (h : a.head ≠ b.head) : negcmp a b = compare (behind a.head) (behind b.head) := by
  unfold negcmp compareLex compareOn
  cases hc : compare (behind a.head) (behind b.head) with
  | eq => exact absurd (behind_inj (LawfulEqOrd.eq_of_compare hc)) h
  | lt => rfl
  | gt => rfl

theorem negcmp_number (d e : Bytes) (z w : Nat) :
    negcmp (number d z) (number e w) = (digitscmp e d).then (compare w z) := by
  unfold negcmp compareLex compareOn number digitscmp
  rw [Ordering.then_assoc]
  rfl

/-- Bytes that start no number keep their order. -/
theorem compare_behind {c d : UInt8} (hc : c = 48 ∨ is_digit c = false) (hd : d = 48 ∨ is_digit d = false) :
    compare (behind c) (behind d) = compare c d := by
  have plain {c : UInt8} (hc : is_digit c = false) : behind c = c := by
    have h48 : c ≠ 48 := fun e => absurd (e ▸ hc) (by decide)
    have h49 : c ≠ 49 := fun e => absurd (e ▸ hc) (by decide)
    unfold behind
    rw [if_neg h48, if_neg h49]
  rcases hc with rfl | hc
  · rcases hd with rfl | hd
    · rfl
    · rw [plain hd]
      exact (compare_digit (by decide) (by decide) hd).1
  · rcases hd with rfl | hd
    · rw [plain hc]
      exact (compare_digit (by decide) (by decide) hc).2
    · rw [plain hc, plain hd]

end Tok

section Reading

variable {a b s x y : Bytes} {neg : Bool}

theorem zero_or_stop (z : Nat) {r : Bytes} (hr : Stops r) :
    byteAt (numeral z [] ++ r) 0 = 48 ∨ is_digit (byteAt (numeral z [] ++ r) 0) = false := by
  cases z with
  | zero => exact .inr hr
  | succ z => exact .inl rfl

theorem number_digit {z : Nat} {d : Bytes} (hd : Significant d) (hne : d ≠ []) (r : Bytes) :
    is_digit (byteAt (numeral z d ++ r) 0) = true :=
  digit_behind (allDigits_numeral z hd.digits) (List.length_pos_of_ne_nil (numeral_ne_nil hne))

/-- Against a byte that starts no number, a number that is not 0 is turned round if the byte is a 0. -/
theorem negcmp_number_byte {z : Nat} {d : Bytes} {c : UInt8} (hc : c = 48 ∨ is_digit c = false) :
    Tok.negcmp (.number d z) (.byte c) = (if is_digit c then .lt else compare 49 c) ∧
      Tok.negcmp (.byte c) (.number d z) = if is_digit c then .gt else compare c 49 := by
  have hne : c ≠ 49 := by
    rintro rfl
    exact absurd hc (by decide)
  rw [@Tok.negcmp_of_head_ne (.number d z) (.byte c) hne.symm, @Tok.negcmp_of_head_ne (.byte c) (.number d z) hne]
  rcases hc with rfl | hc
  · exact ⟨rfl, rfl⟩
  · rw [hc]
    have plain : Tok.behind c = c := by
      have h48 : c ≠ 48 := fun e => absurd (e ▸ hc) (by decide)
      unfold Tok.behind
      rw [if_neg h48, if_neg hne]
    have low := compare_digit (c := 48) (d := 49) (by decide) (by decide) hc
    show compare 48 (Tok.behind c) = _ ∧ compare (Tok.behind c) 48 = _
    rw [plain]
    exact low

/-- Different tokens behind a minus. -/
theorem negcmp_eq (h : firstTok true a ≠ firstTok true b) :
    Tok.negcmp (firstTok true a) (firstTok true b) =
      if unlike a b then (Tok.cmp (firstTok true a) (firstTok true b)).swap
      else Tok.cmp (firstTok true a) (firstTok true b) := by
  unfold unlike
  cases start true a with
  | number z d r on eq sig nonzero stops tok len =>
    cases start true b with
    | number w e q on' eq' sig' nonzero' stops' tok' len' =>
      rw [tok, tok', Tok.negcmp_number, Tok.cmp_number, eq, eq', number_digit sig nonzero, number_digit sig' nonzero',
        significant_numeral sig stops, significant_numeral sig' stops']
      by_cases hde : d = e
      · subst hde
        rw [bne_self_eq_false]
        rfl
      · have swap : digitscmp e d = (digitscmp d e).swap := by
          unfold digitscmp
          rw [Ordering.swap_then]
          exact congrArg₂ _ OrientedOrd.eq_swap OrientedOrd.eq_swap
        have hne := digitscmp_ne hde
        rw [bne_iff_ne.mpr hde, swap]
        cases hc : digitscmp d e with
        | eq => exact absurd hc hne
        | lt => rfl
        | gt => rfl
    | byte tok' len' zeros' =>
      obtain ⟨w, q, rfl, stops'⟩ := zeros' rfl
      have sig' := significant_numeral (z := w) significant_nil stops'
      rw [tok, tok', (negcmp_number_byte (zero_or_stop w stops')).1,
        @Tok.cmp_of_head_ne (.number d z) (.byte (byteAt (numeral w [] ++ q) 0)) (zeros_head_ne stops').symm, eq, number_digit sig nonzero,
        significant_numeral sig stops, sig', bne_iff_ne.mpr nonzero]
      rcases zero_or_stop w stops' with hc | hc
      · rw [Tok.byte, hc]
        rfl
      · rw [hc]
        rfl
  | byte tok len zeros =>
    obtain ⟨z, r, rfl, stops⟩ := zeros rfl
    have sig := significant_numeral (z := z) significant_nil stops
    cases start true b with
    | number w e q on' eq' sig' nonzero' stops' tok' len' =>
      rw [tok, tok', (negcmp_number_byte (zero_or_stop z stops)).2,
        @Tok.cmp_of_head_ne (.byte (byteAt (numeral z [] ++ r) 0)) (.number e w) (zeros_head_ne stops), eq', number_digit sig' nonzero',
        significant_numeral sig' stops', sig, bne_iff_ne.mpr nonzero'.symm]
      rcases zero_or_stop z stops with hc | hc
      · rw [Tok.byte, hc]
        rfl
      · rw [hc]
        rfl
    | byte tok' len' zeros' =>
      obtain ⟨w, q, rfl, stops'⟩ := zeros' rfl
      have sig' := significant_numeral (z := w) significant_nil stops'
      rw [tok, tok'] at h ⊢
      have hne : byteAt (numeral z [] ++ r) 0 ≠ byteAt (numeral w [] ++ q) 0 := fun e => h (congrArg Tok.byte e)
      rw [sig, sig', bne_self_eq_false, Bool.and_false, @Tok.negcmp_of_head_ne (.byte (byteAt (numeral z [] ++ r) 0))
        (.byte (byteAt (numeral w [] ++ q) 0)) hne, Tok.cmp_byte]
      exact Tok.compare_behind (zero_or_stop z stops) (zero_or_stop w stops')

/-- Strings that start with different runs part inside them. -/
theorem common_digits {p : Bytes} (h : a.takeWhile is_digit ≠ b.takeWhile is_digit ∨ byteAt a 0 ≠ byteAt b 0)
    (ha : a = p ++ x) (hb : b = p ++ y) : AllDigits p := by
  intro c hc
  by_contra hd
  rw [Bool.not_eq_true] at hd
  obtain ⟨s, t, rfl⟩ := List.append_of_mem hc
  rw [List.append_assoc, List.cons_append] at ha hb
  rcases h with h | h
  · apply h
    rw [ha, hb]
    exact takeWhile_stop _ _ hd
  · apply h
    rw [ha, hb]
    cases s <;> rfl

theorem signcmp_leading (h : a.takeWhile is_digit ≠ b.takeWhile is_digit ∨ byteAt a 0 ≠ byteAt b 0) :
    signcmp neg a b = if neg && unlike a b then (numcmp a b).swap else numcmp a b := by
  obtain ⟨s, x, y, rfl, rfl, hxy⟩ := diverge a b
  have hne : x.head? ≠ y.head? := by
    rcases hxy with ⟨rfl, rfl⟩ | hxy
    · rcases h with h | h
      · exact absurd rfl h
      · exact absurd rfl h
    · exact hxy
  exact signcmp_digits (common_digits h rfl rfl) hne

theorem signcmp_differ (ha : 0 ∉ a) (hb : 0 ∉ b) (h : firstTok true a ≠ firstTok true b) :
    signcmp neg a b = Tok.signed neg (firstTok true a) (firstTok true b) := by
  have parts : a.takeWhile is_digit ≠ b.takeWhile is_digit ∨ byteAt a 0 ≠ byteAt b 0 := by
    by_contra hsame
    rw [not_or, not_not, not_not] at hsame
    apply h
    unfold firstTok significant
    rw [hsame.1, hsame.2]
  rw [signcmp_leading parts, reads_numeric.differ a b ha hb h]
  cases neg with
  | false => rfl
  | true => exact (negcmp_eq h).symm

/-- Strings that start with one and the same number. -/
theorem signcmp_number {t r q : Bytes} (ht : AllDigits t) (hr : Stops r) (hq : Stops q) (h0 : 0 ∉ r) :
    signcmp neg (t ++ r) (t ++ q) = signcmp false r q := by
  obtain ⟨s, x, y, rfl, rfl, hxy⟩ := diverge r q
  cases s with
  | nil =>
    rcases hxy with ⟨rfl, rfl⟩ | hxy
    · rw [List.nil_append, List.append_nil, signcmp_self ht.no_nul, signcmp_self List.not_mem_nil]
    · have front := @signcmp_digits [] x y false (fun c hc => absurd hc List.not_mem_nil) hxy
      have run {x : Bytes} (hx : Stops x) : (t ++ x).takeWhile is_digit = t := takeWhile_numeral (z := 0) ht hx
      rw [List.nil_append] at hr hq h0
      have alike : unlike (t ++ x) (t ++ y) = false := by
        unfold unlike significant
        rw [run hr, run hq, bne_self_eq_false, Bool.and_false]
      rw [List.nil_append, List.nil_append, signcmp_digits ht hxy, alike, Bool.and_false]
      exact (numcmp_same ht hr hq h0).trans front.symm
  | cons c s =>
    have hc : c ≠ 0 := fun e => h0 (by simp [e])
    have cut (neg : Bool) (t : Bytes) (ht : 0 ∉ t) := @signcmp_cut t neg ht c hr.head hc (s ++ x) (s ++ y)
    rw [List.cons_append, List.cons_append, cut neg t ht.no_nul]
    exact (cut false [] List.not_mem_nil).symm

/-- A common first byte where no number starts. -/
theorem signcmp_tail {z w : Nat} {r q : Bytes} {c : UInt8} (hr : Stops r) (hq : Stops q)
    (ha : 0 ∉ c :: a) (hza : c :: a = numeral z [] ++ r) (hwb : c :: b = numeral w [] ++ q) :
    signcmp neg (c :: a) (c :: b) = signcmp (c == 45) a b := by
  have hc : c ≠ 0 := fun e => ha (by simp [e])
  have cut (hd : is_digit c = false) : signcmp neg (c :: a) (c :: b) = signcmp (c == 45) a b :=
    signcmp_cut (s := []) List.not_mem_nil hd hc a b
  cases z with
  | zero =>
    apply cut
    have hra : c :: a = r := hza
    exact (hra ▸ hr : Stops (c :: a))
  | succ z =>
    cases w with
    | zero =>
      apply cut
      have hqb : c :: b = q := hwb
      exact (hqb ▸ hq : Stops (c :: b))
    | succ w =>
      have value := numcmp_tail hr hq ha hza hwb
      have hca : c = 48 ∧ a = numeral z [] ++ r := by simpa [numeral, List.replicate_succ] using hza
      have hcb : c = 48 ∧ b = numeral w [] ++ q := by simpa [numeral, List.replicate_succ] using hwb
      obtain ⟨rfl, rfl⟩ := hca
      obtain ⟨-, rfl⟩ := hcb
      have zeros (n : Nat) : AllDigits (numeral n []) := allDigits_numeral n significant_nil.digits
      rw [hza, hwb] at value ⊢
      by_cases hzw : z = w
      · subst hzw
        rw [signcmp_number (zeros _) hr hq (no_nul_tail (hza ▸ ha)),
          signcmp_number (zeros _) hr hq (no_nul_tail (hza ▸ ha))]
      · have run {n : Nat} {r : Bytes} (hr : Stops r) : (numeral n [] ++ r).takeWhile is_digit = numeral n [] :=
          takeWhile_numeral significant_nil.digits hr
        have apart {z w : Nat} (h : z ≠ w) :
            (numeral z [] ++ r).takeWhile is_digit ≠ (numeral w [] ++ q).takeWhile is_digit := by
          rw [run hr, run hq]
          exact fun e => h (numeral_inj significant_nil significant_nil e).1
        have alike (z w : Nat) : unlike (numeral z [] ++ r) (numeral w [] ++ q) = false := by
          unfold unlike
          rw [significant_numeral significant_nil hr, significant_numeral significant_nil hq, bne_self_eq_false,
            Bool.and_false]
        rw [signcmp_leading (.inl (apart fun e => hzw (Nat.add_right_cancel e))), signcmp_leading (.inl (apart hzw)),
          alike, alike, Bool.and_false, Bool.and_false]
        exact value

theorem signcmp_same (ha : 0 ∉ a) (hb : 0 ∉ b) (hne : a ≠ []) (h : firstTok true a = firstTok true b) :
    signcmp neg a b = signcmp ((firstTok true a).head == 45) (afterTok true a) (afterTok true b) := by
  unfold afterTok
  cases start true a with
  | number z d r on eq sig nonzero stops tok len =>
    cases start true b with
    | number w e q on' eq' sig' nonzero' stops' tok' len' =>
      rw [tok, tok'] at h
      cases h
      subst eq eq'
      rw [tok, len, len', List.drop_left, List.drop_left]
      exact signcmp_number (allDigits_numeral _ sig.digits) stops stops' (no_nul_tail ha)
    | byte tok' len' zeros' =>
      rw [tok, tok'] at h
      exact absurd (congrArg Tok.digits h) nonzero
  | byte tok len zeros =>
    cases start true b with
    | number w e q on' eq' sig' nonzero' stops' tok' len' =>
      rw [tok, tok'] at h
      exact absurd (congrArg Tok.digits h).symm nonzero'
    | byte tok' len' zeros' =>
      obtain ⟨z, r, hza, stops⟩ := zeros rfl
      obtain ⟨w, q, hwb, stops'⟩ := zeros' rfl
      rw [tok, tok'] at h
      rw [tok, len, len']
      have front := take_one_eq ha hb (congrArg Tok.head h)
      obtain ⟨c, a', rfl⟩ := List.exists_cons_of_ne_nil hne
      cases b with
      | nil => exact absurd front (List.cons_ne_nil _ _)
      | cons c' b' =>
        have hcc : c = c' := (List.cons.inj front).1
        subst hcc
        exact signcmp_tail stops stops' ha hza hwb

end Reading

section Order

variable {a b s x y : Bytes} {neg : Bool}

/-- A string behind a byte that may be a minus, read token by token. -/
def signedReader : Reader (Bool × Bytes) (Bool × Tok) where
  ended p := p.2.isEmpty
  mark p := (p.1, firstTok true p.2)
  rest p := ((firstTok true p.2).head == 45, afterTok true p.2)
  size p := p.2.length
  size_rest _ h := length_afterTok (List.isEmpty_eq_false_iff.mp h)

def signedmark (m n : Bool × Tok) : Ordering := (compare m.1 n.1).then (Tok.signed m.1 m.2 n.2)

instance (neg : Bool) : TransCmp fun m n : Bool × Tok => Tok.signed neg m.2 n.2 :=
  Comparators.trans_on Prod.snd (Tok.signed neg)

instance : TransCmp signedmark :=
  Comparators.trans_within Prod.fst fun neg m n => Tok.signed neg m.2 n.2

theorem signedmark_eq {m n : Bool × Tok} : signedmark m n = .eq ↔ m = n := by
  unfold signedmark
  rw [Ordering.then_eq_eq, LawfulEqOrd.compare_eq_iff_eq, LawfulEqCmp.compare_eq_iff_eq, Prod.ext_iff]

def signedcmp (p q : Bool × Bytes) : Ordering := (compare p.1 q.1).then (signcmp p.1 p.2 q.2)

theorem signedcmp_same (neg : Bool) (a b : Bytes) : signedcmp (neg, a) (neg, b) = signcmp neg a b := by
  unfold signedcmp
  rw [ReflOrd.compare_self]
  rfl

theorem signedcmp_compares : signedReader.Compares (fun p => 0 ∉ p.2) signedmark signedcmp where
  refl m := signedmark_eq.mpr rfl
  keep p hp _ := no_nul_afterTok hp
  ends p q hp hq h := isEmpty_eq_of_firstTok hp hq (congrArg Prod.snd (signedmark_eq.mp h))
  done p q hp hq h hend := by
    obtain ⟨neg, a⟩ := p
    obtain ⟨neg', b⟩ := q
    obtain rfl : neg = neg' := congrArg Prod.fst (signedmark_eq.mp h)
    have hend' := (isEmpty_eq_of_firstTok hp hq (congrArg Prod.snd (signedmark_eq.mp h))).symm.trans hend
    obtain rfl : a = [] := List.isEmpty_iff.mp hend
    obtain rfl : b = [] := List.isEmpty_iff.mp hend'
    rw [signedcmp_same]
    exact signcmp_self List.not_mem_nil
  differ p q hp hq h := by
    obtain ⟨neg, a⟩ := p
    obtain ⟨neg', b⟩ := q
    by_cases hneg : neg = neg'
    · subst hneg
      have tok : firstTok true a ≠ firstTok true b := fun e => h (signedmark_eq.mpr (Prod.ext rfl e))
      rw [signedcmp_same, signcmp_differ hp hq tok]
      show _ = (compare neg neg).then (Tok.signed neg (firstTok true a) (firstTok true b))
      rw [ReflOrd.compare_self]
      rfl
    · have decides : compare neg neg' ≠ .eq := fun e => hneg (LawfulEqOrd.eq_of_compare e)
      show (compare neg neg').then _ = (compare neg neg').then _
      cases hc : compare neg neg' with
      | eq => exact absurd hc decides
      | lt => rfl
      | gt => rfl
  same p q hp hq h hend := by
    obtain ⟨neg, a⟩ := p
    obtain ⟨neg', b⟩ := q
    obtain rfl : neg = neg' := congrArg Prod.fst (signedmark_eq.mp h)
    have tok : firstTok true a = firstTok true b := congrArg Prod.snd (signedmark_eq.mp h)
    rw [signedcmp_same, signcmp_same hp hq (List.isEmpty_eq_false_iff.mp hend) tok]
    show _ = signedcmp ((firstTok true a).head == 45, _) ((firstTok true b).head == 45, _)
    rw [← tok, signedcmp_same]

theorem signcmp_trans : TransCmp fun s t : FileName => signcmp false s.bytes t.bytes := by
  have same : (fun s t : FileName => signcmp false s.bytes t.bytes) = fun s t : FileName =>
      List.compareLex signedmark (signedReader.marks (false, s.bytes)) (signedReader.marks (false, t.bytes)) := by
    funext s t
    rw [← signedcmp_same]
    exact signedcmp_compares.eq_marks s.no_nul t.no_nul
  rw [same]
  exact { eq_swap := OrientedCmp.eq_swap, isLE_trans := TransCmp.isLE_trans }

theorem eq_of_signcmp (ha : 0 ∉ a) (hb : 0 ∉ b) (h : signcmp false a b = .eq) : a = b := by
  rw [← signedcmp_same] at h
  refine congrArg Prod.snd (signedcmp_compares.eq_of_eq ?_ ha hb h)
  intro p q hp hq he hrest
  have marks := signedmark_eq.mp he
  have neg : p.1 = q.1 := congrArg (fun m : Bool × Tok => m.1) marks
  have tok : firstTok true p.2 = firstTok true q.2 := congrArg (fun m : Bool × Tok => m.2) marks
  exact Prod.ext neg (eq_of_firstTok hp hq tok (hrest.imp_right (congrArg Prod.snd)))

end Order

section Minus

variable {a b s x y : Bytes}

/-- A number with a minus stands right in front of another one. -/
def Clash (s : Bytes) : Prop :=
  ∃ p d c q, s = p ++ 45 :: (d ++ 45 :: c :: q) ∧ d ≠ [] ∧ AllDigits d ∧ is_digit c = true

/-- A number with a minus at the start, and another one right behind it. -/
def minusTwice : Bytes → Bool
  | [] => false
  | c :: s => c == 45 && is_digit (byteAt s 0) &&
    match s.dropWhile is_digit with
    | e :: c :: _ => e == 45 && is_digit c
    | _ => false

theorem minusTwice_iff {t : Bytes} : minusTwice t = true ↔
    ∃ d c q, t = 45 :: (d ++ 45 :: c :: q) ∧ d ≠ [] ∧ AllDigits d ∧ is_digit c = true := by
  constructor
  · intro h
    cases t with
    | nil => exact absurd h Bool.false_ne_true
    | cons m s =>
      rw [minusTwice, Bool.and_eq_true, Bool.and_eq_true, beq_iff_eq] at h
      obtain ⟨⟨rfl, hdigit⟩, h⟩ := h
      have split := List.takeWhile_append_dropWhile (p := is_digit) (l := s)
      match hrest : s.dropWhile is_digit, h with
      | e :: c :: q, h =>
        rw [Bool.and_eq_true, beq_iff_eq] at h
        obtain ⟨rfl, hc⟩ := h
        refine ⟨s.takeWhile is_digit, c, q, by rw [← hrest, split], ?_, fun c hc => List.mem_takeWhile_imp hc, hc⟩
        cases s with
        | nil => exact absurd hdigit (by decide)
        | cons d s =>
          have hd : is_digit d = true := hdigit
          rw [List.takeWhile_cons_of_pos hd]
          exact List.cons_ne_nil _ _
  · rintro ⟨d, c, q, rfl, hne, hd, hc⟩
    have stop : (d ++ 45 :: c :: q).dropWhile is_digit = 45 :: c :: q := by
      rw [List.dropWhile_append_of_pos hd, List.dropWhile_cons_of_neg (by decide)]
    rw [minusTwice, stop, digit_behind hd (List.length_pos_of_ne_nil hne)]
    simpa using hc

theorem clash_iff : (∃ t ∈ s.tails, minusTwice t = true) ↔ Clash s := by
  simp only [List.mem_tails, minusTwice_iff]
  constructor
  · rintro ⟨t, ⟨p, rfl⟩, d, c, q, rfl, h⟩
    exact ⟨p, d, c, q, rfl, h⟩
  · rintro ⟨p, d, c, q, rfl, h⟩
    exact ⟨_, ⟨p, rfl⟩, d, c, q, rfl, h⟩

instance (s : Bytes) : Decidable (Clash s) := decidable_of_iff _ clash_iff

theorem Clash.append (h : Clash s) (x y : Bytes) : Clash (x ++ s ++ y) := by
  obtain ⟨p, d, c, q, rfl, hne, hd, hc⟩ := h
  exact ⟨x ++ p, d, c, q ++ y, by simp, hne, hd, hc⟩

/-- The digits at the end of a string. -/
theorem exists_run (w : Bytes) : ∃ p s, w = p ++ s ∧ AllDigits s ∧ (p = [] ∨ ∃ q c, p = q ++ [c] ∧ is_digit c = false) := by
  induction w using List.reverseRecOn with
  | nil => exact ⟨[], [], rfl, fun c hc => absurd hc List.not_mem_nil, .inl rfl⟩
  | append_singleton w c ih =>
    cases hc : is_digit c with
    | true =>
      obtain ⟨p, s, rfl, hs, hp⟩ := ih
      refine ⟨p, s ++ [c], List.append_assoc p s [c], ?_, hp⟩
      intro d hd
      rcases List.mem_append.mp hd with hd | hd
      · exact hs d hd
      · exact List.mem_singleton.mp hd ▸ hc
    | false => exact ⟨w ++ [c], [], (List.append_nil _).symm, fun d hd => absurd hd List.not_mem_nil, .inr ⟨w, c, rfl, hc⟩⟩

/-- A number that a minus ends is smaller than one that goes on. -/
theorem numcmp_ended (hs : AllDigits s) {d : UInt8} (hd : is_digit d = true) (x y : Bytes) :
    numcmp (s ++ 45 :: x) (s ++ d :: y) = .lt := by
  have hlt : (45 : UInt8) < d := by
    unfold is_digit at hd
    rw [Bool.and_eq_true, decide_eq_true_eq] at hd
    exact Std.lt_of_lt_of_le (by decide) hd.1
  have hne : (45 : UInt8) ≠ d := UInt8.ne_of_lt hlt
  have h0 : d ≠ 0 := fun e => absurd (e ▸ hd) (by decide)
  have coll : strcoll (s ++ 45 :: x) (s ++ d :: y) = .lt := by
    rw [strcoll_append hs.no_nul]
    unfold strcoll
    rw [List.takeWhile_cons_of_pos (by decide), List.takeWhile_cons_of_pos (by simpa using h0),
      compare_of_head_ne hne]
    exact Std.compare_eq_lt.mpr hlt
  have runA : (s ++ 45 :: x).takeWhile is_digit = s := takeWhile_numeral (z := 0) hs rfl
  have runB : (s ++ d :: y).takeWhile is_digit = s ++ d :: y.takeWhile is_digit := by
    rw [List.takeWhile_append_of_pos hs, List.takeWhile_cons_of_pos hd]
  have heads : (45 :: x).head? ≠ (d :: y).head? := fun e => hne (Option.some.inj e)
  rw [numcmp_digits hs heads, byteAt_cons_zero, byteAt_cons_zero, hd, Bool.or_true, if_pos rfl,
    coll, runs_significant]
  split
  · split
    · rfl
    · rename_i hsig
      unfold significant at hsig ⊢
      rw [runA, runB] at hsig ⊢
      have longer : (s.dropWhile (· == 48)).length < ((s ++ d :: y.takeWhile is_digit).dropWhile (· == 48)).length := by
        rw [List.dropWhile_append] at hsig ⊢
        split at hsig
        · rename_i hempty
          rw [List.isEmpty_iff] at hempty
          rw [if_pos (by rw [hempty]; rfl)]
          rw [hempty] at hsig ⊢
          exact List.length_pos_of_ne_nil (Ne.symm hsig)
        · rename_i hfull
          rw [if_neg hfull, List.length_append, List.length_cons]
          omega
      unfold digitscmp
      rw [Nat.compare_eq_lt.mpr longer]
      rfl
  · rfl

/-- The rule for a minus in front of a digit says nothing new. -/
theorem signcmp_minus {w : Bytes} {c d : UInt8} (hw : 0 ∉ w) (hc : is_digit c = true) (hd : is_digit d = true)
    (hclash : ¬Clash (w ++ 45 :: c :: x)) : signcmp false (w ++ 45 :: c :: x) (w ++ d :: y) = .lt := by
  obtain ⟨p, s, rfl, hs, hp⟩ := exists_run w
  have heads : (45 :: c :: x).head? ≠ (d :: y).head? := fun e => absurd (Option.some.inj e ▸ hd) (by decide)
  have value (neg : Bool) (hneg : neg = true → s = []) :
      signcmp neg (s ++ 45 :: c :: x) (s ++ d :: y) = .lt := by
    rw [signcmp_digits hs heads, if_neg, numcmp_ended hs hd]
    rw [Bool.and_eq_true]
    rintro ⟨hn, hunlike⟩
    rw [hneg hn] at hunlike
    exact absurd hunlike Bool.false_ne_true
  rw [List.append_assoc, List.append_assoc]
  rcases hp with rfl | ⟨q, e, rfl, he⟩
  · exact value false nofun
  · have hq : 0 ∉ q ∧ e ≠ 0 := by
      constructor
      · exact fun h => hw (by simp [h])
      · exact fun h => hw (by simp [h])
    rw [List.append_assoc, List.append_assoc]
    refine (signcmp_cut hq.1 he hq.2 _ _).trans (value _ ?_)
    intro hminus
    by_contra hne
    have h45 : e = 45 := by simpa using hminus
    exact hclash ⟨q, s, c, x, by simp [h45], hne, hs, hc⟩

theorem cmp_numeric_signed (ha : 0 ∉ a) (hb : 0 ∉ b) (hca : ¬Clash a) (hcb : ¬Clash b) :
    cmp_numeric a b true = signcmp false a b := by
  have trans := signcmp_trans
  have swap : signcmp false a b = (signcmp false b a).swap :=
    @OrientedCmp.eq_swap FileName (fun s t => signcmp false s.bytes t.bytes) _ ⟨a, ha⟩ ⟨b, hb⟩
  obtain ⟨w, x, y, rfl, rfl, hxy⟩ := diverge a b
  have go : together (fun x y => x == y && x != 0) (w ++ x) (w ++ y) = w.length := by
    have hw : 0 ∉ w := fun h => ha (List.mem_append_left x h)
    rw [together_append (passes hw)]
    rcases hxy with ⟨rfl, rfl⟩ | hxy
    · rfl
    · rw [together_of_head_ne hxy, Nat.add_zero]
  have minus {x y : Bytes} (ha : 0 ∉ w ++ x) (hclash : ¬Clash (w ++ x))
      (h : (byteAt (w ++ x) w.length == 45 && is_digit (byteAt (w ++ x) (w.length + 1)) &&
        is_digit (byteAt (w ++ y) w.length)) = true) : signcmp false (w ++ x) (w ++ y) = .lt := by
    have hw : 0 ∉ w := fun h => ha (List.mem_append_left x h)
    have hx (i : Nat) := byteAt_append w x i
    have hy := byteAt_append w y 0
    have hx0 := hx 0
    rw [Nat.add_zero] at hx0 hy
    rw [hx0, hx, hy, Bool.and_eq_true, Bool.and_eq_true, beq_iff_eq] at h
    obtain ⟨⟨h45, hc⟩, hd⟩ := h
    match x, y with
    | [], _ => exact absurd h45 (by decide)
    | _, [] => exact absurd hd (by decide)
    | [_], _ => exact absurd hc Bool.false_ne_true
    | e :: c :: x, d :: y =>
      obtain rfl : e = 45 := h45
      exact signcmp_minus hw hc hd hclash
  unfold cmp_numeric
  dsimp only
  rw [go, Bool.true_and, Bool.true_and]
  by_cases h₁ : (byteAt (w ++ x) w.length == 45 && is_digit (byteAt (w ++ x) (w.length + 1)) &&
      is_digit (byteAt (w ++ y) w.length)) = true
  · rw [if_pos h₁, minus ha hca h₁]
  · rw [if_neg h₁]
    by_cases h₂ : (byteAt (w ++ y) w.length == 45 && is_digit (byteAt (w ++ y) (w.length + 1)) &&
        is_digit (byteAt (w ++ x) w.length)) = true
    · rw [if_pos h₂, swap, minus hb hcb h₂]
      rfl
    · have before (r : Nat) : (true && decide (0 < r) && byteAt (w ++ x) (r - 1) == 45) =
          if r = 0 then false else byteAt (w ++ x) (r - 1) == 45 := by
        cases r <;> rfl
      rw [if_neg h₂, before]
      unfold signcmp
      dsimp only
      rw [go]

end Minus

end Zshrs.Glob
