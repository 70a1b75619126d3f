import Mathlib.Data.List.Forall2
import Mathlib.Tactic.Ring
import Zshrs.Glob.Xpandbraces

namespace Zshrs.Glob.Brace

section Digits

variable {w : Word} {n : Nat}

theorem digit_iff (c : Char) : digit c = c.isDigit := by
  unfold digit Char.isDigit
  rfl

theorem number_digits (h : w ≠ []) (hall : w.all digit = true) :
    number w = some (Nat.ofDigitChars 10 w 0) := by
  unfold number
  rw [if_pos ⟨h, hall⟩]
  rfl

theorem all_digits (n : Nat) : (Nat.toDigits 10 n).all digit = true := by
  rw [List.all_eq_true]
  intro c hc
  rw [digit_iff]
  exact Nat.isDigit_of_mem_toDigits (by decide) (by decide) hc

/-- A number is read from its digits, whatever zeros are in front of them. -/
theorem number_zeros (k n : Nat) : number (zeros k (Nat.toDigits 10 n)) = some n := by
  unfold zeros
  rw [number_digits]
  · rw [Nat.ofDigitChars_append, Nat.ofDigitChars_replicate_zero, Nat.mul_zero,
      Nat.ofDigitChars_ten_toDigits]
  · exact List.append_ne_nil_of_right_ne_nil _ Nat.toDigits_ne_nil
  · rw [List.all_append, all_digits, Bool.and_true, List.all_replicate]
    split
    · rfl
    · rfl

theorem ofDigitChars_lt (hall : w.all digit = true) : Nat.ofDigitChars 10 w 0 < 10 ^ w.length := by
  have from_ (init : Nat) : Nat.ofDigitChars 10 w init < 10 ^ w.length * (init + 1) := by
    induction w generalizing init with
    | nil =>
        rw [Nat.ofDigitChars_nil]
        simp
    | cons c w ih =>
        rw [List.all_cons, Bool.and_eq_true] at hall
        have hc : c.toNat - '0'.toNat < 10 := by
          have hdigit := hall.1
          unfold digit at hdigit
          rw [Bool.and_eq_true, decide_eq_true_eq, decide_eq_true_eq] at hdigit
          have high : c.toNat ≤ '9'.toNat := hdigit.2
          change c.toNat - 48 < 10
          change c.toNat ≤ 57 at high
          omega
        rw [Nat.ofDigitChars_cons, List.length_cons, Nat.pow_succ]
        have hrest := ih hall.2 (10 * init + (c.toNat - '0'.toNat))
        have hmono : 10 ^ w.length * (10 * init + (c.toNat - '0'.toNat) + 1) ≤
            10 ^ w.length * (10 * (init + 1)) := Nat.mul_le_mul_left _ (by omega)
        calc _ < _ := hrest
          _ ≤ _ := hmono
          _ = _ := by ring
  have h := from_ 0
  rwa [Nat.zero_add, Nat.mul_one] at h

/-- The digits of a number are not more than those that it was read from. -/
theorem length_toDigits_le {k : Nat} (h : number w = some n) (hk : k ≤ n) :
    (Nat.toDigits 10 k).length ≤ w.length := by
  unfold number at h
  split at h
  · next hw =>
    cases h
    rw [Nat.length_toDigits_le_iff (by decide) (List.length_pos_iff.mpr hw.1)]
    exact Nat.lt_of_le_of_lt hk (ofDigitChars_lt hw.2)
  · cases h

end Digits

section Texts

variable {w : Word} {v m n : Int}

def InI64 (v : Int) : Prop := -2 ^ 63 ≤ v ∧ v < 2 ^ 63

theorem checked_pos (h : InI64 v) : checked v = some v := if_pos h

theorem checked_neg (h : ¬ InI64 v) : checked v = none := if_neg h

theorem decimal_neg (h : v < 0) : decimal v = '-' :: Nat.toDigits 10 v.natAbs := by
  obtain ⟨k, rfl⟩ := Int.eq_negSucc_of_lt_zero h
  unfold decimal
  change (Int.repr _).toList = _
  rw [Int.repr]
  simp

theorem decimal_nonneg (h : 0 ≤ v) : decimal v = Nat.toDigits 10 v.natAbs := by
  obtain ⟨k, rfl⟩ := Int.eq_ofNat_of_zero_le h
  change k.repr.toList = Nat.toDigits 10 k
  exact Nat.toList_repr

/-- What a field is that reads as an `i64`. -/
theorem parse_i64_some (h : parse_i64 w = some v) : InI64 v ∧
    ∃ ds, number ds = some v.natAbs ∧ ds.length ≤ w.length ∧ (v < 0 → ds.length < w.length) := by
  unfold parse_i64 parse at h
  split at h
  · next ds =>
    obtain ⟨k, hk, h⟩ := Option.bind_eq_some_iff.mp h
    split at h
    · next hle =>
      cases h
      refine ⟨⟨by omega, by omega⟩, ds, by rw [hk, Int.natAbs_neg, Int.natAbs_natCast], ?_, fun _ => ?_⟩
      · exact Nat.le_succ _
      · exact Nat.lt_succ_self _
    · cases h
  · next ds =>
    obtain ⟨k, hk, h⟩ := Option.bind_eq_some_iff.mp h
    split at h
    · next hlt =>
      cases h
      refine ⟨⟨by omega, by omega⟩, ds, by rw [hk, Int.natAbs_natCast], Nat.le_succ _, fun _ => by omega⟩
    · cases h
  · obtain ⟨k, hk, h⟩ := Option.bind_eq_some_iff.mp h
    split at h
    · next hlt =>
      cases h
      refine ⟨⟨by omega, by omega⟩, w, by rw [hk, Int.natAbs_natCast], Nat.le_refl _, fun _ => by omega⟩
    · cases h

theorem parse_digits {bound : Nat} (hne : w ≠ []) (hall : w.all digit = true) :
    parse bound w = (number w).bind fun n => if n < bound then some (n : Int) else none := by
  unfold parse
  split
  · exact absurd (List.all_eq_true.mp hall '-' List.mem_cons_self) (by decide)
  · exact absurd (List.all_eq_true.mp hall '+' List.mem_cons_self) (by decide)
  · rfl

/-- The text of a number, with zeros behind its sign. -/
def signed (k : Nat) (v : Int) : Word :=
  if v < 0 then '-' :: zeros k (Nat.toDigits 10 v.natAbs) else zeros k (Nat.toDigits 10 v.natAbs)

/-- Zeros in front of the digits do not change what is read. -/
theorem parse_signed (k : Nat) (hv : InI64 v) : parse_i64 (signed k v) = some v := by
  obtain ⟨low, high⟩ := hv
  unfold signed parse_i64
  split
  · next hneg =>
    change ((number (zeros k (Nat.toDigits 10 v.natAbs))).bind fun n =>
      if n ≤ 2 ^ 63 then some (-(n : Int)) else none) = some v
    rw [number_zeros, Option.bind_some, if_pos (by omega)]
    congr 1
    omega
  · next hneg =>
    rw [parse_digits, number_zeros, Option.bind_some, if_pos (by omega)]
    · congr 1
      omega
    · exact List.append_ne_nil_of_right_ne_nil _ Nat.toDigits_ne_nil
    · unfold zeros
      rw [List.all_append, all_digits, Bool.and_true, List.all_replicate]
      split
      · rfl
      · rfl

theorem zeros_zero (s : Word) : zeros 0 s = s := by
  unfold zeros
  rw [Nat.zero_sub]
  rfl

theorem decimal_eq (v : Int) : decimal v = signed 0 v := by
  unfold signed
  rw [zeros_zero]
  split
  · next h => exact decimal_neg h
  · next h => exact decimal_nonneg (by omega)

/-- A padded number, unless its absolute value is beyond an `i64`. -/
theorem padded_eq (width : Nat) (hv : InI64 (-v)) :
    padded width v = some (signed (if v < 0 then width - 1 else width) v) := by
  unfold padded signed
  by_cases hneg : v < 0
  · rw [if_pos hneg, if_pos hneg, if_pos hneg, checked_pos hv, Option.map_some,
      decimal_nonneg (by omega), Int.natAbs_neg]
  · rw [if_neg hneg, if_neg hneg, if_neg hneg, decimal_nonneg (by omega)]

theorem length_zeros (k : Nat) (s : Word) (h : s.length ≤ k) : (zeros k s).length = k := by
  unfold zeros
  rw [List.length_append, List.length_replicate]
  omega

/-- Between two numbers that were read from fields of a width, every number has that width. -/
theorem length_padded {left right : Word} {width : Nat} (hleft : parse_i64 left = some m)
    (hright : parse_i64 right = some n) (hlw : left.length ≤ width) (hrw : right.length ≤ width)
    (hlow : min m n ≤ v) (hhigh : v ≤ max m n) :
    (signed (if v < 0 then width - 1 else width) v).length = width := by
  obtain ⟨-, ds, hds, hlen, hneg⟩ := parse_i64_some hleft
  obtain ⟨-, es, hes, hlen', hneg'⟩ := parse_i64_some hright
  unfold signed
  by_cases hv : v < 0
  · rw [if_pos hv, if_pos hv, List.length_cons, length_zeros]
    · by_cases hm : m ≤ v
      · have := hneg (by omega)
        omega
      · have := hneg' (by omega)
        omega
    · by_cases hm : m ≤ v
      · have := hneg (by omega)
        have := length_toDigits_le hds (k := v.natAbs) (by omega)
        omega
      · have := hneg' (by omega)
        have := length_toDigits_le hes (k := v.natAbs) (by omega)
        omega
  · rw [if_neg hv, if_neg hv, length_zeros]
    by_cases hm : v ≤ m
    · have := length_toDigits_le hds (k := v.natAbs) (by omega)
      omega
    · have := length_toDigits_le hes (k := v.natAbs) (by omega)
      omega

end Texts

section Walk

variable {step last v : Int} {k : Nat}

/-- How far it is from a value to the end, in the direction of the step. -/
def ahead (step last v : Int) : Int := if 0 < step then last - v else v - last

/-- How many values a walk has. -/
def count (step last v : Int) : Nat :=
  if ahead step last v < 0 then 0 else (ahead step last v / step.natAbs).toNat + 1

def steps (step v : Int) (n : Nat) : List Int := (List.range n).map fun (i : Nat) => v + i * step

theorem steps_succ (step v : Int) (n : Nat) : steps step v (n + 1) = v :: steps step (v + step) n := by
  unfold steps
  rw [List.range_succ_eq_map, List.map_cons, List.map_map]
  congr 1
  · simp
  · apply List.map_congr_left
    intro i _
    simp only [Function.comp, Nat.cast_succ]
    ring

theorem ahead_step : ahead step last (v + step) = ahead step last v - step.natAbs := by
  unfold ahead
  split
  · omega
  · omega

theorem count_pos (h : step ≠ 0) (hahead : 0 ≤ ahead step last v) :
    count step last v = count step last (v + step) + 1 := by
  unfold count
  rw [if_neg (by omega), ahead_step]
  congr 1
  have hpos : (0 : Int) < step.natAbs := by omega
  split
  · next hlt =>
    rw [Int.ediv_eq_zero_of_lt hahead (by omega)]
    rfl
  · next hge =>
    have hdiv : ahead step last v / step.natAbs = (ahead step last v - step.natAbs) / step.natAbs + 1 := by
      have := Int.add_mul_ediv_right (ahead step last v - step.natAbs) 1 (Int.ne_of_gt hpos)
      rw [← this]
      congr 1
      ring
    have := Int.ediv_nonneg (by omega : 0 ≤ ahead step last v - step.natAbs) (Int.le_of_lt hpos)
    omega

/-- A walk goes through its values and stops, unless the value behind the last one leaves the type. -/
theorem walk_eq (h : step ≠ 0) (hv : InI64 v) (n : Nat) (hn : count step last v ≤ n) :
    walk step last n v =
      (checked (v + count step last v * step)).map fun _ => steps step v (count step last v) := by
  induction n generalizing v with
  | zero =>
      rw [Nat.le_zero.mp hn]
      simp [walk, steps, checked_pos hv]
  | succ n ih =>
      rw [walk]
      by_cases hahead : 0 ≤ ahead step last v
      · have guard : (0 < step ∧ v ≤ last) ∨ (step < 0 ∧ last ≤ v) := by
          unfold ahead at hahead
          split at hahead
          · omega
          · omega
        have hcount := count_pos h hahead
        have next : v + step + count step last (v + step) * step = v + count step last v * step := by
          rw [hcount, Nat.cast_succ]
          ring
        rw [if_pos guard]
        by_cases hin : InI64 (v + step)
        · rw [checked_pos hin, Option.bind_some, ih hin (by omega), next, Option.map_map, hcount,
            steps_succ]
          rfl
        · -- Behind a value that is out there is none that is in.
          have hout : ¬ InI64 (v + count step last v * step) := by
            rw [← next]
            intro ⟨low, high⟩
            apply hin
            have hmul : 0 ≤ (count step last (v + step) : Int) := Int.natCast_nonneg _
            obtain ⟨hlow, hhigh⟩ := hv
            rcases Int.lt_or_gt_of_ne h with hneg | hpos
            · have hdown := Int.mul_nonpos_of_nonneg_of_nonpos hmul (Int.le_of_lt hneg)
              exact ⟨by omega, by omega⟩
            · have hup := Int.mul_nonneg hmul (Int.le_of_lt hpos)
              exact ⟨by omega, by omega⟩
          rw [checked_neg hin, checked_neg hout]
          rfl
      · have guard : ¬ ((0 < step ∧ v ≤ last) ∨ (step < 0 ∧ last ≤ v)) := by
          unfold ahead at hahead
          split at hahead
          · omega
          · omega
        have hcount : count step last v = 0 := by
          unfold count
          rw [if_pos (by omega)]
        rw [if_neg guard, hcount]
        simp [steps, checked_pos hv]

end Walk

section Fields

variable {w t : Word} {v : Int}

theorem dot_not_digit (hall : w.all digit = true) : '.' ∉ w := by
  intro h
  exact absurd (List.all_eq_true.mp hall '.' h) (by decide)

theorem number_all {n : Nat} (h : number w = some n) : w.all digit = true := by
  unfold number at h
  split at h
  · next hw => exact hw.2
  · cases h

/-- A field that reads as a number has no dots. -/
theorem no_dot (h : parse_i64 w = some v) : '.' ∉ w := by
  unfold parse_i64 parse at h
  split at h
  · next ds =>
    obtain ⟨k, hk, -⟩ := Option.bind_eq_some_iff.mp h
    rw [List.mem_cons]
    rintro (hc | hmem)
    · cases hc
    · exact dot_not_digit (number_all hk) hmem
  · next ds =>
    obtain ⟨k, hk, -⟩ := Option.bind_eq_some_iff.mp h
    rw [List.mem_cons]
    rintro (hc | hmem)
    · cases hc
    · exact dot_not_digit (number_all hk) hmem
  · obtain ⟨k, hk, -⟩ := Option.bind_eq_some_iff.mp h
    exact dot_not_digit (number_all hk)

theorem find_dots_none (h : '.' ∉ w) : find_dots w = none := by
  induction w with
  | nil => rfl
  | cons c w ih =>
      rw [List.mem_cons, not_or] at h
      rw [find_dots, if_neg fun hc => h.1 hc.1.symm, ih h.2]
      rfl

theorem find_dots_append (h : '.' ∉ w) (t : Word) : find_dots (w ++ '.' :: '.' :: t) = some (w, t) := by
  induction w with
  | nil => rfl
  | cons c w ih =>
      rw [List.mem_cons, not_or] at h
      rw [List.cons_append, find_dots, if_neg fun hc => h.1 hc.1.symm, ih h.2]
      rfl

/-- The texts of a range: its ends and its step, where it has one. -/
structure Fields where
  left : Word
  right : Word
  step : Option Word

namespace Fields

variable (f : Fields)

def step_text : Word := f.step.getD []

def text : Word :=
  f.left ++ '.' :: '.' :: (f.right ++ match f.step with
    | none => []
    | some t => '.' :: '.' :: t)

/-- Numbers are padded where some field is, but for a bare zero on the left. -/
def pads : Bool :=
  f.left != ['0'] && (is_padded_field f.left || is_padded_field f.right || is_padded_field f.step_text)

def width : Nat := max (max f.left.length f.right.length) f.step_text.length

/-- What the fields are read as. A range without a step has step 1. -/
structure Reads (m n s : Int) : Prop where
  left : parse_i64 f.left = some m
  right : parse_i64 f.right = some n
  step : f.step = none ∧ s = 1 ∨ ∃ t, f.step = some t ∧ parse_i64 t = some s ∧ s ≠ 0

end Fields

structure Native (env : Env) : Prop where
  pdksh : env.pdksh_family = false
  sh : env.sh_mode = false
  bash : env.bash_mode = false
  ksh93 : env.ksh93_mode = false

variable {env : Env} {f : Fields} {m n s : Int}

theorem slice_text (f : Fields) : slice_at f.text f.left.length =
    some (f.left, f.right ++ match f.step with
      | none => []
      | some t => '.' :: '.' :: t) := by
  unfold slice_at Fields.text
  rw [if_neg (by rw [List.length_append, List.length_cons]; omega), List.drop_left, List.take_left]
  rfl

theorem step_of_text (h : f.Reads m n s) :
    ∃ raw, step_of env (f.right ++ match f.step with
      | none => []
      | some t => '.' :: '.' :: t) = some (f.right, ⟨s.natAbs, decide (s < 0), f.step_text, raw⟩) := by
  unfold step_of Fields.step_text
  have hdot := no_dot h.right
  rcases h.step with ⟨hstep, rfl⟩ | ⟨t, hstep, ht, hs⟩
  · rw [hstep, List.append_nil, find_dots_none hdot]
    exact ⟨none, rfl⟩
  · rw [hstep]
    dsimp only
    rw [find_dots_append hdot]
    dsimp only
    rw [ht, Option.bind_some, if_neg fun hc => hs hc.1]
    exact ⟨some s, rfl⟩

theorem step_i64_eq {raw : Option Int} (h : s ≠ 0) (hs : InI64 s) (hmin : s ≠ -2 ^ 63) :
    step_i64 ⟨s.natAbs, decide (s < 0), f.step_text, raw⟩ = s.natAbs := by
  obtain ⟨low, high⟩ := hs
  unfold step_i64
  rw [if_neg (by dsimp only; omega)]
  congr 1
  dsimp only
  omega

end Fields

section Range

variable {env : Env} {f : Fields} {m n s v : Int} {k : Nat}

/-- The values from one end to the other. -/
structure Covers (m n : Int) (k : Nat) (vals : List Int) : Prop where
  mem : ∀ v, v ∈ vals ↔ min m n ≤ v ∧ v ≤ max m n ∧ (k : Int) ∣ v - m
  order : vals.Pairwise fun v w => if m ≤ n then v < w else w < v

/-- The first value that is beyond the end. -/
def beyond (m n : Int) (k : Nat) : Int :=
  if m ≤ n then m + ((n - m).natAbs / k + 1 : Nat) * k else m - ((n - m).natAbs / k + 1 : Nat) * k

def toward (m n : Int) (k : Nat) : Int := if m ≤ n then k else -k

theorem count_toward (hk : 0 < k) : count (toward m n k) n m = (n - m).natAbs / k + 1 := by
  have hahead : ahead (toward m n k) n m = (n - m).natAbs := by
    unfold ahead toward
    split
    · next h =>
      rw [if_pos (by omega)]
      omega
    · next h =>
      rw [if_neg (by omega)]
      omega
  have habs : (toward m n k).natAbs = k := by
    unfold toward
    split
    · omega
    · omega
  unfold count
  rw [hahead, habs, if_neg (by omega)]
  congr 1

theorem beyond_eq (hk : 0 < k) :
    m + count (toward m n k) n m * toward m n k = beyond m n k := by
  rw [count_toward hk]
  unfold beyond toward
  split
  · rfl
  · ring

theorem mem_steps {step : Int} {c : Nat} : v ∈ steps step m c ↔ ∃ i : Nat, i < c ∧ v = m + i * step := by
  unfold steps
  rw [List.mem_map]
  constructor
  · rintro ⟨i, hi, rfl⟩
    exact ⟨i, List.mem_range.mp hi, rfl⟩
  · rintro ⟨i, hi, rfl⟩
    exact ⟨i, List.mem_range.mpr hi, rfl⟩

theorem covers_steps (hk : 0 < k) :
    Covers m n k (steps (toward m n k) m (count (toward m n k) n m)) := by
  have hdiv (i : Nat) : i < (n - m).natAbs / k + 1 ↔ i * k ≤ (n - m).natAbs := by
    rw [Nat.lt_succ_iff, Nat.le_div_iff_mul_le hk]
  constructor
  · intro v
    rw [mem_steps, count_toward hk]
    unfold toward
    constructor
    · rintro ⟨i, hi, rfl⟩
      have hle := (hdiv i).mp hi
      have hcast : ((i * k : Nat) : Int) = (i : Int) * k := Nat.cast_mul i k
      split
      · exact ⟨by omega, by omega, i, by rw [Int.mul_comm]; omega⟩
      · refine ⟨by rw [Int.mul_neg]; omega, by rw [Int.mul_neg]; omega, -i, ?_⟩
        rw [Int.mul_neg, Int.mul_neg, Int.mul_comm]
        omega
    · rintro ⟨hlow, hhigh, q, hq⟩
      have habs : q.natAbs * k = (v - m).natAbs := by
        rw [hq, Int.natAbs_mul, Int.natAbs_natCast, Nat.mul_comm]
      refine ⟨q.natAbs, (hdiv _).mpr (by omega), ?_⟩
      have hcast : (q.natAbs : Int) * k = (v - m).natAbs := by
        rw [← habs, Nat.cast_mul]
      split
      · omega
      · rw [Int.mul_neg]
        omega
  · unfold steps
    rw [List.pairwise_map]
    refine List.pairwise_lt_range.imp ?_
    intro i j hij
    have hmul : (i : Int) * k < j * k := by
      apply Int.mul_lt_mul_of_pos_right
      · omega
      · omega
    unfold toward
    split
    · omega
    · rw [Int.mul_neg, Int.mul_neg]
      omega

/-- The value beyond the end is beyond all values. -/
theorem Covers.beyond_lt {vals : List Int} (h : Covers m n k vals) (hk : 0 < k) (hv : v ∈ vals) :
    if m ≤ n then v < beyond m n k else beyond m n k < v := by
  obtain ⟨hlow, hhigh, -⟩ := (h.mem v).mp hv
  have hlt : (n - m).natAbs < ((n - m).natAbs / k + 1) * k := by
    have := Nat.lt_div_mul_add hk (a := (n - m).natAbs)
    rw [Nat.add_mul, Nat.one_mul]
    omega
  have hcast : ((((n - m).natAbs / k + 1) * k : Nat) : Int) = ((n - m).natAbs / k + 1 : Nat) * k :=
    Nat.cast_mul _ k
  unfold beyond
  split
  · omega
  · omega

/-- The loop of the source, where the value beyond the end is an `i64`. -/
theorem numeric_values_eq (native : Native env) (hm : InI64 m) (hs : InI64 s) (hzero : s ≠ 0)
    (hmin : s ≠ -2 ^ 63) (raw : Option Int) : numeric_values env ⟨s.natAbs, decide (s < 0), f.step_text, raw⟩ m n =
      (checked (beyond m n s.natAbs)).map fun _ =>
        let vals := steps (toward m n s.natAbs) m (count (toward m n s.natAbs) n m)
        if s < 0 then vals.reverse else vals := by
  have hk : 0 < s.natAbs := by omega
  have hstep : toward m n s.natAbs ≠ 0 := by
    unfold toward
    split
    · omega
    · omega
  have hcount : count (toward m n s.natAbs) n m ≤ (n - m).natAbs + 1 := by
    rw [count_toward hk]
    exact Nat.succ_le_succ (Nat.div_le_self _ _)
  have hwalk := walk_eq hstep hm _ hcount
  unfold numeric_values values
  rw [native.ksh93, step_i64_eq hzero hs hmin]
  simp only [Bool.false_eq_true, if_false, if_neg (by omega : ¬ (s.natAbs : Int) < 0)]
  change ((walk (toward m n s.natAbs) n ((n - m).natAbs + 1) m).map _) = _
  rw [hwalk, beyond_eq hk, Option.map_map, native.bash]
  congr 1
  funext _
  simp

theorem mapM_some {α β : Type} {g : α → Option β} {h : α → β} {l : List α} (hg : ∀ a ∈ l, g a = some (h a)) :
    l.mapM g = some (l.map h) := by
  induction l with
  | nil => rfl
  | cons a l ih =>
      rw [List.mapM_cons, hg a List.mem_cons_self, ih fun b hb => hg b (List.mem_cons_of_mem a hb)]
      rfl

/-- The text of a number in the range. -/
def Fields.shown (f : Fields) (v : Int) : Word :=
  if f.pads then signed (if v < 0 then f.width - 1 else f.width) v else decimal v

theorem numeric_range_eq (native : Native env) (h : f.Reads m n s) (hs : InI64 s) (hzero : s ≠ 0)
    (hmin : s ≠ -2 ^ 63) (hnext : InI64 (beyond m n s.natAbs)) (hpad : f.pads = true → m ≠ -2 ^ 63)
    (raw : Option Int) : ∃ vals, Covers m n s.natAbs vals ∧
      numeric_range env f.left f.right ⟨s.natAbs, decide (s < 0), f.step_text, raw⟩ m n =
        some ((if s < 0 then vals.reverse else vals).map f.shown) := by
  have hk : 0 < s.natAbs := by omega
  obtain ⟨hm, -⟩ := parse_i64_some h.left
  obtain ⟨hn, -⟩ := parse_i64_some h.right
  have covers := @covers_steps m n s.natAbs hk
  refine ⟨_, covers, ?_⟩
  unfold numeric_range
  rw [numeric_values_eq native hm hs hzero hmin, checked_pos hnext, Option.map_some, Option.bind_some,
    native.bash, native.sh, native.ksh93]
  generalize hvals : steps (toward m n s.natAbs) m (count (toward m n s.natAbs) n m) = vals at covers
  dsimp only
  have hpads : (!false && !false && !(f.left == ['0'] && !(false || false)) &&
      (is_padded_field f.left || is_padded_field f.right ||
        f.step_text != [] && is_padded_field f.step_text)) = f.pads := by
    unfold Fields.pads
    cases hstep : f.step_text with
    | nil => simp [is_padded_field, bne]
    | cons c t => simp [bne]
  rw [hpads]
  apply mapM_some
  intro v hv
  have hmem : v ∈ vals := by
    split at hv
    · exact List.mem_reverse.mp hv
    · exact hv
  obtain ⟨hlow, hhigh, -⟩ := (covers.mem v).mp hmem
  have hbeyond := covers.beyond_lt hk hmem
  unfold Fields.shown
  split
  · next hp =>
    apply padded_eq
    have hmne := hpad hp
    unfold InI64 at *
    split at hbeyond
    · exact ⟨by omega, by omega⟩
    · exact ⟨by omega, by omega⟩
  · rfl

theorem parse_shown (h : f.Reads m n s) (hlow : min m n ≤ v) (hhigh : v ≤ max m n) :
    parse_i64 (f.shown v) = some v := by
  obtain ⟨hm, -⟩ := parse_i64_some h.left
  obtain ⟨hn, -⟩ := parse_i64_some h.right
  have hv : InI64 v := by
    unfold InI64 at *
    exact ⟨by omega, by omega⟩
  unfold Fields.shown
  split
  · exact parse_signed _ hv
  · rw [decimal_eq]
    exact parse_signed 0 hv

theorem length_shown (h : f.Reads m n s) (hpads : f.pads = true) (hlow : min m n ≤ v) (hhigh : v ≤ max m n) :
    (f.shown v).length = f.width := by
  unfold Fields.shown
  rw [if_pos hpads]
  apply length_padded h.left h.right
  · unfold Fields.width
    omega
  · unfold Fields.width
    omega
  · exact hlow
  · exact hhigh

/-- A range of numbers expands to the values from one end to the other. Where some field is padded and
the left one is not a bare zero, all have one width. -/
theorem expand_range_numbers (native : Native env) (h : f.Reads m n s) {content : Word}
    (htext : (if tokened content then env.untokenize content else content) = f.text)
    (hmin : s ≠ -2 ^ 63) (hnext : InI64 (beyond m n s.natAbs)) (hpad : f.pads = true → m ≠ -2 ^ 63)
    (pre suf : Word) : ∃ vals texts, Covers m n s.natAbs vals ∧
      expand_range env pre content f.left.length suf = some (some (around pre suf texts)) ∧
      List.Forall₂ (fun v t => parse_i64 t = some v ∧ (f.pads = true → t.length = f.width) ∧
        (f.pads = false → t = decimal v)) (if s < 0 then vals.reverse else vals) texts := by
  have hs : InI64 s ∧ s ≠ 0 := by
    rcases h.step with ⟨-, rfl⟩ | ⟨t, -, ht, hs⟩
    · exact ⟨⟨by decide, by decide⟩, by decide⟩
    · exact ⟨(parse_i64_some ht).1, hs⟩
  obtain ⟨raw, hstep⟩ := step_of_text h
  obtain ⟨vals, covers, hrange⟩ := numeric_range_eq native h hs.1 hs.2 hmin hnext hpad raw
  refine ⟨vals, (if s < 0 then vals.reverse else vals).map f.shown, covers, ?_, ?_⟩
  · unfold expand_range range_values
    dsimp only
    rw [htext, slice_text, Option.bind_some]
    dsimp only
    rw [hstep]
    dsimp only
    rw [h.left, h.right]
    dsimp only
    rw [hrange]
    rfl
  · rw [List.forall₂_map_right_iff, List.forall₂_same]
    intro v hv
    have hmem : v ∈ vals := by
      split at hv
      · exact List.mem_reverse.mp hv
      · exact hv
    obtain ⟨hlow, hhigh, -⟩ := (covers.mem v).mp hmem
    refine ⟨parse_shown h hlow hhigh, fun hp => length_shown h hp hlow hhigh, fun hp => ?_⟩
    unfold Fields.shown
    rw [if_neg (by rw [hp]; exact Bool.false_ne_true)]

/-- The modes of zsh, and a locale of single bytes. -/
def zsh : Env where
  posix_faithful := false
  pdksh_family := false
  sh_mode := false
  bash_mode := false
  ksh93_mode := false
  untokenize := id
  mb_metacharlenconv b := (1, b.head?.map fun c => Char.ofNat c.toNat)
  wcs_nicechar c := [c]

theorem zsh_native : Native zsh := ⟨rfl, rfl, rfl, rfl⟩

def tenDown : Fields := ⟨['1', '0'], ['0', '1'], some ['-', '4']⟩

theorem expand_range_tenDown : ∃ vals texts, Covers 10 1 4 vals ∧
    expand_range zsh ['a'] tenDown.text 2 ['b'] = some (some (around ['a'] ['b'] texts)) ∧
    List.Forall₂ (fun v t => parse_i64 t = some v ∧ (tenDown.pads = true → t.length = tenDown.width) ∧
      (tenDown.pads = false → t = decimal v)) vals.reverse texts :=
  @expand_range_numbers zsh tenDown 10 1 (-4) zsh_native ⟨rfl, rfl, .inr ⟨['-', '4'], rfl, rfl, by decide⟩⟩
    tenDown.text rfl (by decide) ⟨by decide, by decide⟩ (by decide) ['a'] ['b']

/-- A bare zero on the left keeps the numbers of `{0..03}` without padding. -/
theorem bare_zero_not_padded : ¬ ∀ (f : Fields) (m n s : Int), f.Reads m n s →
    (is_padded_field f.left || is_padded_field f.right || is_padded_field f.step_text) = true →
    ∀ texts, expand_range zsh [] f.text f.left.length [] = some (some texts) →
      ∀ t ∈ texts, t.length = f.width := by
  intro h
  have hzero := h ⟨['0'], ['0', '3'], none⟩ 0 3 1 ⟨rfl, rfl, .inl ⟨rfl, rfl⟩⟩ (by decide)
    [['0'], ['1'], ['2'], ['3']] (by decide) ['0'] List.mem_cons_self
  revert hzero
  decide

end Range

end Zshrs.Glob.Brace
