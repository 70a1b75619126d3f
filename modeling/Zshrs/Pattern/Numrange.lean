import Mathlib.Data.List.TakeWhile
import Zshrs.Lib.Decimal
import Zshrs.Pattern.Substring

namespace Zshrs.Pattern

open Lib (Utf8.encode)
open Lib.Decimal

def digit (b : UInt8) : Nat := b.toNat - 48

def digits (d : Bytes) : List Nat := d.map digit

theorem digits_cons (b : UInt8) (d : Bytes) : digits (b :: d) = digit b :: digits d := rfl

/-- The number that a row of digits stands for. -/
def number (d : Bytes) : Nat := value (digits d)

section Compile

/-- A bound of the range, with what follows it. `none` is an overflow. -/
def parse_bound (n : Nat) : Bytes → Option (Nat × Bytes)
  | [] => some (n, [])
  | b :: s => if is_ascii_digit b then (checked (n * 10 + digit b)).bind fun n => parse_bound n s else some (n, b :: s)

def range_node : Option Nat → Option Nat → Node
  | some lo, some hi => .numrng lo hi
  | none, some hi => .numto hi
  | some lo, none => .numfrom lo
  | none, none => .numany

/-- The `<` arm of `patcomppiece`, on what follows the `<`. -/
def range_piece (s : Bytes) : Option (Node × Bytes) :=
  (parse_bound 0 s).bind fun (lo, s₁) =>
    if s₁.head? = some 45 then
      (parse_bound 0 s₁.tail).bind fun (hi, s₃) =>
        if s₃.head? = some 62 then
          some (range_node (if s₁.length < s.length then some lo else none)
            (if s₃.length < s₁.tail.length then some hi else none), s₃.tail)
        else some (.exactly [60], s)
    else some (.exactly [60], s)

end Compile

section Scan

theorem digit_lt {b : UInt8} (h : is_ascii_digit b = true) : digit b < 10 := by
  simp only [is_ascii_digit, Bool.and_eq_true, decide_eq_true_eq, UInt8.le_iff_toNat_le] at h
  have h57 : (57 : UInt8).toNat = 57 := rfl
  rw [digit]
  omega

/-- Before every operation the code has made sure that it stays in range. -/
theorem num_digit_eq (comp d : Nat) : num_digit comp d =
    some (if comp * 10 + d ≤ I64_MAX then (comp * 10 + d, false) else (comp, true)) := by
  have hdiv : I64_MAX / 10 * 10 + 7 = I64_MAX := rfl
  rw [num_digit]
  by_cases hmul : I64_MAX / 10 < comp
  · rw [if_pos hmul, if_neg (by omega)]
  · have hc10 : (if comp ≠ 0 then checked (comp * 10) else some 0) = some (comp * 10) := by
      split
      · rw [checked, if_pos (by omega)]
      next h => rw [not_not.mp h]
    rw [if_neg hmul, hc10, Option.bind_some]
    by_cases hadd : comp * 10 + d ≤ I64_MAX
    · rw [if_neg (by omega), if_pos hadd, checked, if_pos hadd]
      rfl
    · rw [if_pos (by omega), if_neg hadd]

/-- The digits at the front of a subject. -/
def run_of (s : Bytes) : Bytes := s.takeWhile is_ascii_digit

theorem run_of_cons {b : UInt8} {s : Bytes} (h : is_ascii_digit b = true) : run_of (b :: s) = b :: run_of s :=
  List.takeWhile_cons_of_pos h

theorem run_of_nil_of {b : UInt8} {s : Bytes} (h : ¬ is_ascii_digit b = true) : run_of (b :: s) = [] :=
  List.takeWhile_cons_of_neg h

theorem digits_run_lt (s : Bytes) : ∀ d ∈ digits (run_of s), d < 10 := by
  intro d hd
  obtain ⟨b, hb, rfl⟩ := List.mem_map.mp hd
  exact digit_lt (List.mem_takeWhile_imp hb)

/-- With an upper bound the scan goes to the end of the digits, and holds its number at the limit. -/
theorem num_scan_bounded (s : Bytes) (i comp : Nat) : num_scan false ⟨i, i, comp⟩ s =
    some ⟨i + (run_of s).length, i + (run_of s).length, (digits (run_of s)).foldl (hold I64_MAX) comp⟩ := by
  induction s generalizing i comp with
  | nil => rfl
  | cons b s ih =>
      rw [num_scan]
      by_cases hb : is_ascii_digit b = true
      · rw [if_pos hb, num_digit_eq, Option.bind_some]
        simp only [Bool.and_false, Bool.false_eq_true, if_false]
        rw [ih, run_of_cons hb, List.length_cons, digits_cons, List.foldl_cons, hold, digit, Nat.add_right_comm,
          Nat.add_assoc]
        congr 3
        split <;> rfl
      · rw [if_neg hb, run_of_nil_of hb]
        rfl

theorem testBit_62 {n : Nat} (h : n ≤ I64_MAX) : n.testBit 62 = true ↔ 4611686018427387904 ≤ n := by
  have hpow : (2 : Nat) ^ 62 = 4611686018427387904 := rfl
  have hmax : I64_MAX = 9223372036854775807 := rfl
  rw [Nat.testBit_eq_decide_div_mod_eq, decide_eq_true_iff, hpow]
  omega

/-- Without one it stops computing where the number gets as large as 2^62. -/
theorem num_scan_from {pre : List Nat} (hpre : ∀ d ∈ pre, d < 10) (hsmall : value pre < 4611686018427387904)
    (s : Bytes) : ∃ sc, num_scan true ⟨pre.length, pre.length, value pre⟩ s = some sc ∧
      sc.patinput = (pre ++ digits (run_of s)).length ∧
      ((value (pre ++ digits (run_of s)) < 4611686018427387904 ∧ sc.compend = sc.patinput ∧
          sc.comp = value (pre ++ digits (run_of s))) ∨
        (∃ j ≤ sc.patinput, sc.compend = j ∧ sc.comp = value ((pre ++ digits (run_of s)).take j) ∧
          4611686018427387904 ≤ sc.comp ∧ sc.comp ≤ I64_MAX) ∨
        ∃ j < sc.patinput, sc.compend = j + 1 ∧ sc.comp = value ((pre ++ digits (run_of s)).take j) ∧
          sc.comp < 4611686018427387904 ∧ I64_MAX < value ((pre ++ digits (run_of s)).take (j + 1))) := by
  induction s generalizing pre with
  | nil =>
      refine ⟨_, rfl, by simp [run_of, digits], .inl ⟨?_, rfl, ?_⟩⟩
      · simpa [run_of, digits] using hsmall
      · simp [run_of, digits]
  | cons b s ih =>
      rw [num_scan]
      by_cases hb : is_ascii_digit b = true
      · have hsplit : pre ++ digits (run_of (b :: s)) = pre ++ [digit b] ++ digits (run_of s) := by
          rw [run_of_cons hb, digits_cons, List.append_assoc, List.singleton_append]
        have hvalue : value (pre ++ [digit b]) = value pre * 10 + (b.toNat - 48) := value_append_singleton pre _
        have hlen : (pre ++ [digit b]).length = pre.length + 1 := List.length_append
        have htake : (pre ++ digits (run_of (b :: s))).take (pre.length + 1) = pre ++ [digit b] := by
          rw [hsplit, ← hlen, List.take_left]
        have htotal : pre.length + 1 + (run_of s).length = (pre ++ digits (run_of (b :: s))).length := by
          rw [hsplit, List.length_append, hlen, digits, List.length_map]
        rw [if_pos hb, num_digit_eq, Option.bind_some]
        by_cases hmax : value pre * 10 + (b.toNat - 48) ≤ I64_MAX
        · rw [if_pos hmax, ← hvalue]
          rw [← hvalue] at hmax
          by_cases hbit : 4611686018427387904 ≤ value (pre ++ [digit b])
          · simp only [(testBit_62 hmax).mpr hbit, Bool.or_true, Bool.and_true, if_true]
            refine ⟨_, rfl, htotal, .inr (.inl ⟨pre.length + 1, ?_, rfl, ?_, hbit, hmax⟩)⟩
            · exact Nat.le_add_right _ _
            · rw [htake]
          · have hoff : (value (pre ++ [digit b])).testBit 62 = false :=
              Bool.eq_false_iff.mpr (mt (testBit_62 hmax).mp hbit)
            have hdigits : ∀ d ∈ pre ++ [digit b], d < 10 := by
              rw [List.forall_mem_append, List.forall_mem_singleton]
              exact ⟨hpre, digit_lt hb⟩
            simp only [hoff, Bool.or_self, Bool.false_and, Bool.false_eq_true, if_false]
            rw [← hlen, hsplit]
            exact ih hdigits (Nat.lt_of_not_le hbit)
        · rw [if_neg hmax]
          simp only [Bool.true_or, Bool.true_and, if_true]
          refine ⟨_, rfl, htotal, .inr (.inr ⟨pre.length, ?_, rfl, ?_, hsmall, ?_⟩)⟩
          · exact Nat.lt_of_lt_of_le (Nat.lt_succ_self _) (Nat.le_add_right _ _)
          · rw [List.take_left]
          · rw [htake, hvalue]
            exact Nat.lt_of_not_le hmax
      · rw [if_neg hb, run_of_nil_of hb]
        refine ⟨_, rfl, by simp [digits], .inl ⟨?_, rfl, ?_⟩⟩
        · simpa [digits] using hsmall
        · simp [digits]

end Scan

section Back

/-- Backing up tries every position from `i` down at which the number kept is within the bounds; beyond the
last position computed there is no lower bound. -/
theorem num_back_iff {lo : Nat} {hi : Option Nat} {compend comp : Nat} {give_up : Bool} {next : Nat → Option Reach}
    {first : Bool} {i : Nat} (hgive : first = true → give_up = true → ∀ j, 1 ≤ j → j < i → next j = none) :
    (num_back lo hi compend give_up next first (comp / 10 ^ (compend - i)) i).isSome ↔
      ∃ j, 1 ≤ j ∧ j ≤ i ∧ (lo ≤ comp / 10 ^ (compend - j) ∨ compend < j) ∧
        (∀ n ∈ hi, comp / 10 ^ (compend - j) ≤ n) ∧ (next j).isSome := by
  induction i generalizing first with
  | zero =>
      refine iff_of_false (by simp [num_back]) ?_
      rintro ⟨j, hj, hj', _⟩
      omega
  | succ save ih =>
      have hback : (if save < compend then comp / 10 ^ (compend - (save + 1)) / 10
          else comp / 10 ^ (compend - (save + 1))) = comp / 10 ^ (compend - save) := by
        split
        next h =>
          have hexp : compend - save = compend - (save + 1) + 1 := by omega
          rw [hexp, Nat.pow_succ, Nat.div_div_eq_div_mul]
        next h =>
          have hexp : compend - (save + 1) = compend - save := by omega
          rw [hexp]
      have hmono {j : Nat} (hj : j ≤ save + 1) :
          comp / 10 ^ (compend - j) ≤ comp / 10 ^ (compend - (save + 1)) :=
        Nat.div_le_div_left (Nat.pow_le_pow_right (by decide) (by omega)) (Nat.pow_pos (by decide))
      rw [num_back]
      by_cases hbreak : comp / 10 ^ (compend - (save + 1)) < lo ∧ save + 1 ≤ compend
      · rw [if_pos (by simpa using hbreak)]
        refine iff_of_false Bool.false_ne_true ?_
        rintro ⟨j, _, hj, hlo, _⟩
        have := hmono hj
        omega
      · have hrest : (if (first && give_up) = true then none else
            num_back lo hi compend give_up next false (comp / 10 ^ (compend - save)) save).isSome ↔
            ∃ j, 1 ≤ j ∧ j ≤ save ∧ (lo ≤ comp / 10 ^ (compend - j) ∨ compend < j) ∧
              (∀ n ∈ hi, comp / 10 ^ (compend - j) ≤ n) ∧ (next j).isSome := by
          by_cases hstop : (first && give_up) = true
          · rw [if_pos hstop]
            rw [Bool.and_eq_true] at hstop
            refine iff_of_false Bool.false_ne_true ?_
            rintro ⟨j, hj, hjsave, _, _, hnext⟩
            rw [hgive hstop.1 hstop.2 j hj (Nat.lt_succ_of_le hjsave)] at hnext
            cases hnext
          · rw [if_neg hstop]
            exact ih fun h => absurd h Bool.false_ne_true
        have hhere : (if hi.all (comp / 10 ^ (compend - (save + 1)) ≤ ·) = true then next (save + 1) else none).isSome ↔
            (∀ n ∈ hi, comp / 10 ^ (compend - (save + 1)) ≤ n) ∧ (next (save + 1)).isSome := by
          cases hi with
          | none => simp
          | some n => by_cases hn : comp / 10 ^ (compend - (save + 1)) ≤ n <;> simp [hn]
        rw [if_neg (by simpa using hbreak), hback, Option.isSome_or, Bool.or_eq_true, hrest, hhere]
        constructor
        · rintro (⟨hhi, hnext⟩ | ⟨j, hj, hjsave, h⟩)
          · exact ⟨save + 1, Nat.succ_pos save, Nat.le_refl _, by omega, hhi, hnext⟩
          · exact ⟨j, hj, Nat.le_succ_of_le hjsave, h⟩
        · rintro ⟨j, hj, hjsave, h⟩
          obtain rfl | hlt := Nat.eq_or_lt_of_le hjsave
          · exact .inl h.2
          · exact .inr ⟨j, hj, Nat.le_of_lt_succ hlt, h⟩

end Back

section Meaning

/-- The flags of the language without flags. -/
def FlagFree (flags : Flags) : Prop := flags &&& ~~~GF_MULTIBYTE = 0

/-- The compiler gives every literal a character at least. -/
def Spelled (next : List Node) : Prop := ∀ lit, next.head? = some (.exactly lit) → lit ≠ []

/-- In front of any program the node takes a row of digits whose number is within the bounds. -/
def Means (env : Statics) (flags : Flags) (lo hi : Option Nat) (s : Bytes) : Prop :=
  ∀ frames next, Spelled next →
    ((patmatch env (frames + 1) (range_node lo hi :: next) s 0 flags).isSome ↔
      ∃ d v, s = d ++ v ∧ d ≠ [] ∧ (∀ b ∈ d, is_ascii_digit b = true) ∧ (∀ m ∈ lo, m ≤ number d) ∧
        (∀ n ∈ hi, number d ≤ n) ∧ (patmatch env frames next v 0 flags).isSome)

variable {env : Statics} (hanch : anchored env = true) {flags : Flags} (hfree : FlagFree flags)

/-- What matches `v` and nothing else. -/
def tail_program (v : Bytes) : List Node := if v = [] then [.pEnd] else [.exactly v, .pEnd]

theorem tail_program_spelled (v : Bytes) : Spelled (tail_program v) := by
  intro lit h
  rw [tail_program] at h
  split at h
  · cases h
  · cases h
    assumption

include hfree in
theorem free_flags : flags &&& 0xff = 0 ∧ flags &&& (GF_IGNCASE ||| GF_LCMATCHUC) = 0 :=
  ⟨masked_of_subset hfree (by decide), masked_of_subset hfree (by decide)⟩

include hanch hfree in
theorem tail_program_iff (v t : Bytes) : (patmatch env 1 (tail_program v) t 0 flags).isSome ↔ t = v := by
  have hend (again : List Node → Bytes → Nat → Flags → Option Reach) (t : Bytes) :
      (run env again [.pEnd] t 0 flags).isSome ↔ t = [] := by
    have hno : ¬ spare env (flags &&& 0xff).toNat 0 = true := by
      rw [(free_flags hfree).1]
      simp [spare]
    rw [run]
    simp only [Node.notdot, Bool.and_false, Bool.false_and, Bool.false_eq_true, if_false, hanch, Bool.and_true,
      decide_eq_true_eq, if_neg hno]
    by_cases ht : t = [] <;> simp [ht]
  rw [patmatch, tail_program]
  by_cases hv : v = []
  · rw [if_pos hv, hend, hv]
  · rw [if_neg hv, run]
    simp only [Node.notdot, Bool.and_false, Bool.false_and, Bool.false_eq_true, if_false, (free_flags hfree).1]
    rw [if_neg (by decide)]
    by_cases hp : v <+: t
    · obtain ⟨u, rfl⟩ := hp
      rw [if_pos ((exactly_at_plain (free_flags hfree).2).mpr (List.prefix_append v u)), List.drop_left, hend]
      simp
    · rw [if_neg (mt (exactly_at_plain (free_flags hfree).2).mp hp)]
      refine iff_of_false Bool.false_ne_true ?_
      rintro rfl
      exact hp (List.prefix_refl t)

omit hanch in
include hfree in
/-- A literal that no digit starts does not stand in front of a digit. -/
theorem no_digit_none {next : List Node} (hnext : Spelled next) (hno : exactly_no_digit next = true) {b : UInt8}
    (hb : is_ascii_digit b = true) (t : Bytes) (frames : Nat) : patmatch env frames next (b :: t) 0 flags = none := by
  cases frames with
  | zero => rfl
  | succ frames =>
      cases next with
      | nil => cases hno
      | cons node next =>
          cases node with
          | exactly lit =>
              cases lit with
              | nil => exact absurd rfl (hnext [] rfl)
              | cons c lit =>
                  rw [exactly_no_digit] at hno
                  rw [patmatch, run]
                  simp only [Node.notdot, Bool.and_false, Bool.false_and, Bool.false_eq_true, if_false,
                    (free_flags hfree).1]
                  rw [if_neg (by decide), if_neg]
                  rw [exactly_at_plain (free_flags hfree).2, List.cons_prefix_cons]
                  rintro ⟨rfl, _⟩
                  rw [hb] at hno
                  cases hno
          | _ => cases hno

/-- The positions behind a digit of the run. -/
theorem drop_in_run {s : Bytes} {j : Nat} (hj : j < (run_of s).length) :
    ∃ b t, s.drop j = b :: t ∧ is_ascii_digit b = true := by
  have hlen : j < s.length := Nat.lt_of_lt_of_le hj (List.takeWhile_prefix _).length_le
  refine ⟨s[j], s.drop (j + 1), List.drop_eq_getElem_cons hlen, ?_⟩
  have hmem : (run_of s)[j] ∈ run_of s := List.getElem_mem hj
  have heq : (run_of s)[j] = s[j] := (List.takeWhile_prefix is_ascii_digit).getElem hj
  exact List.mem_takeWhile_imp (heq ▸ hmem)

omit hanch in
include hfree in
theorem num_range_iff {lo : Nat} {hi : Option Nat} {s : Bytes} {sc : Scan}
    (hscan : num_scan hi.isNone ⟨0, 0, 0⟩ s = some sc) (hinput : sc.patinput = (run_of s).length)
    (hend : sc.compend ≤ sc.patinput) {next : List Node} (hnext : Spelled next) (frames : Nat) :
    (num_range lo hi ((flags &&& 0xff).toNat = 0 && exactly_no_digit next)
      (fun n => patmatch env frames next (s.drop n) 0 flags) s).isSome ↔
      ∃ j, 1 ≤ j ∧ j ≤ (run_of s).length ∧ (lo ≤ sc.comp / 10 ^ (sc.compend - j) ∨ sc.compend < j) ∧
        (∀ n ∈ hi, sc.comp / 10 ^ (sc.compend - j) ≤ n) ∧
        (patmatch env frames next (s.drop j) 0 flags).isSome := by
  have hcomp : sc.comp = sc.comp / 10 ^ (sc.compend - sc.patinput) := by
    rw [Nat.sub_eq_zero_of_le hend, Nat.pow_zero, Nat.div_one]
  rw [num_range, hscan, Option.bind_some]
  conv in num_back _ _ _ _ _ _ sc.comp _ => rw [hcomp]
  rw [num_back_iff, hinput]
  intro _ hgive j _ hj
  obtain ⟨b, t, hdrop, hb⟩ := drop_in_run (hinput ▸ hj)
  rw [Bool.and_eq_true] at hgive
  rw [hdrop]
  exact no_digit_none hfree hnext hgive.2 hb t frames

theorem num_any_iff (next : Nat → Option Reach) (k : Nat) :
    (num_any next k).isSome ↔ ∃ j, 1 ≤ j ∧ j ≤ k ∧ (next j).isSome := by
  induction k with
  | zero =>
      refine iff_of_false Bool.false_ne_true ?_
      rintro ⟨j, hj, hj', _⟩
      omega
  | succ k ih =>
      rw [num_any, Option.isSome_or, Bool.or_eq_true, ih]
      constructor
      · rintro (h | ⟨j, hj, hjk, h⟩)
        · exact ⟨k + 1, Nat.succ_pos k, Nat.le_refl _, h⟩
        · exact ⟨j, hj, Nat.le_succ_of_le hjk, h⟩
      · rintro ⟨j, hj, hjk, h⟩
        obtain rfl | hlt := Nat.eq_or_lt_of_le hjk
        · exact .inl h
        · exact .inr ⟨j, hj, Nat.le_of_lt_succ hlt, h⟩

/-- What the scan of a range says of the digits before a position. -/
def Kept (lo hi : Option Nat) (s : Bytes) (j : Nat) : Prop :=
  (lo = none ∧ hi = none) ∨ ∃ sc, num_scan hi.isNone ⟨0, 0, 0⟩ s = some sc ∧
    (lo.getD 0 ≤ sc.comp / 10 ^ (sc.compend - j) ∨ sc.compend < j) ∧ ∀ n ∈ hi, sc.comp / 10 ^ (sc.compend - j) ≤ n

theorem num_scan_some (numfrom : Bool) (s : Bytes) : ∃ sc, num_scan numfrom ⟨0, 0, 0⟩ s = some sc ∧
    sc.patinput = (run_of s).length ∧ sc.compend ≤ sc.patinput := by
  cases numfrom with
  | false => exact ⟨_, num_scan_bounded s 0 0, Nat.zero_add _, Nat.le_refl _⟩
  | true =>
      obtain ⟨sc, hscan, hinput, hcases⟩ := @num_scan_from [] (by simp) (by decide) s
      refine ⟨sc, hscan, by simpa [digits] using hinput, ?_⟩
      obtain ⟨_, hend, _⟩ | ⟨j, hj, hend, _⟩ | ⟨j, hj, hend, _⟩ := hcases <;> omega

theorem kept_iff {lo hi : Option Nat} {s : Bytes} {sc : Scan} (hscan : num_scan hi.isNone ⟨0, 0, 0⟩ s = some sc)
    (hbound : ¬ (lo = none ∧ hi = none)) (j : Nat) : Kept lo hi s j ↔
      (lo.getD 0 ≤ sc.comp / 10 ^ (sc.compend - j) ∨ sc.compend < j) ∧
        ∀ n ∈ hi, sc.comp / 10 ^ (sc.compend - j) ≤ n := by
  rw [Kept, or_iff_right hbound, hscan]
  constructor
  · rintro ⟨sc', h, hkept⟩
    cases h
    exact hkept
  · exact fun h => ⟨sc, rfl, h⟩

theorem run_of_dot {s : Bytes} (h : s.head? = some 46) : run_of s = [] := by
  cases s with
  | nil => rfl
  | cons b s =>
      cases h
      exact run_of_nil_of (by decide)

theorem range_node_notdot (lo hi : Option Nat) : (range_node lo hi).notdot = true := by
  cases lo <;> cases hi <;> rfl

omit hanch in
include hfree in
/-- What a range in front of a program matches. -/
theorem range_iff (lo hi : Option Nat) (s : Bytes) {next : List Node} (hnext : Spelled next) (frames : Nat) :
    (patmatch env (frames + 1) (range_node lo hi :: next) s 0 flags).isSome ↔
      ∃ j, 1 ≤ j ∧ j ≤ (run_of s).length ∧ Kept lo hi s j ∧
        (patmatch env frames next (s.drop j) 0 flags).isSome := by
  by_cases hdot : (s = env.string && (range_node lo hi).notdot && s.head? = some 46 && !env.globdots) = true
  · have hnone : run_of s = [] := by
      simp only [Bool.and_eq_true, decide_eq_true_eq] at hdot
      exact run_of_dot hdot.1.2
    rw [patmatch, run.eq_def]
    dsimp only
    rw [if_pos hdot, hnone]
    refine iff_of_false Bool.false_ne_true ?_
    rintro ⟨j, hj, hj', _⟩
    simp only [List.length_nil] at hj'
    omega
  · obtain ⟨sc, hscan, hinput, hend⟩ := num_scan_some hi.isNone s
    rw [patmatch, run.eq_def]
    dsimp only
    rw [if_neg hdot]
    cases lo with
    | none =>
        cases hi with
        | none =>
            have hkept : ∀ j, Kept none none s j := fun j => .inl ⟨rfl, rfl⟩
            simp only [range_node, num_any_iff, hkept, true_and]
            rfl
        | some hi =>
            simp only [range_node, num_range_iff hfree hscan hinput hend hnext, kept_iff hscan (by simp), and_assoc,
              Option.getD_none]
    | some lo =>
        cases hi with
        | none =>
            have hkept := @kept_iff (some lo) none s sc hscan (by simp)
            simp only [range_node, num_range_iff hfree hscan hinput hend hnext, hkept, and_assoc, Option.getD_some]
        | some hi =>
            simp only [range_node, num_range_iff hfree hscan hinput hend hnext, kept_iff hscan (by simp), and_assoc,
              Option.getD_some]

/-- The digits before a position are within the bounds. -/
def Within (lo hi : Option Nat) (s : Bytes) (j : Nat) : Prop :=
  (∀ m ∈ lo, m ≤ value ((digits (run_of s)).take j)) ∧ ∀ n ∈ hi, value ((digits (run_of s)).take j) ≤ n

theorem take_run {s : Bytes} {j : Nat} (hj : j ≤ (run_of s).length) : s.take j = (run_of s).take j := by
  have hrun : run_of s = s.take (run_of s).length := List.prefix_iff_eq_take.mp (List.takeWhile_prefix _)
  conv_rhs => rw [hrun]
  rw [List.take_take, Nat.min_eq_left hj]

theorem run_length_le (s : Bytes) : (run_of s).length ≤ s.length := (List.takeWhile_prefix _).length_le

theorem split_iff (lo hi : Option Nat) (s : Bytes) (Q : Bytes → Prop) :
    (∃ d v, s = d ++ v ∧ d ≠ [] ∧ (∀ b ∈ d, is_ascii_digit b = true) ∧ (∀ m ∈ lo, m ≤ number d) ∧
      (∀ n ∈ hi, number d ≤ n) ∧ Q v) ↔
      ∃ j, 1 ≤ j ∧ j ≤ (run_of s).length ∧ Within lo hi s j ∧ Q (s.drop j) := by
  constructor
  · rintro ⟨d, v, rfl, hne, hd, hm, hn, hq⟩
    have hrun : run_of (d ++ v) = d ++ run_of v := List.takeWhile_append_of_pos hd
    have htake : (digits (run_of (d ++ v))).take d.length = digits d := by
      rw [hrun, digits, List.map_append, ← List.length_map digit, List.take_left]
      rfl
    refine ⟨d.length, List.length_pos_iff.mpr hne, ?_, ?_, by rwa [List.drop_left]⟩
    · rw [hrun, List.length_append]
      exact Nat.le_add_right _ _
    · rw [Within, htake]
      exact ⟨hm, hn⟩
  · rintro ⟨j, hj, hjk, ⟨hm, hn⟩, hq⟩
    have hnumber : number (s.take j) = value ((digits (run_of s)).take j) := by
      rw [take_run hjk, number, digits, digits, List.map_take]
    refine ⟨s.take j, s.drop j, (List.take_append_drop j s).symm, ?_, ?_, ?_, ?_, hq⟩
    · have hlen := run_length_le s
      rw [← List.length_pos_iff, List.length_take]
      omega
    · intro b hb
      rw [take_run hjk] at hb
      exact List.mem_takeWhile_imp (List.mem_of_mem_take hb)
    · rwa [hnumber]
    · rwa [hnumber]

include hanch hfree in
/-- A range means its numbers if the scan keeps the positions that are within the bounds and no others. -/
theorem means_iff (lo hi : Option Nat) (s : Bytes) : Means env flags lo hi s ↔
    ∀ j, 1 ≤ j → j ≤ (run_of s).length → (Kept lo hi s j ↔ Within lo hi s j) := by
  constructor
  · intro h j hj hjk
    have hone := h 1 (tail_program (s.drop j)) (tail_program_spelled _)
    rw [range_iff hfree lo hi s (tail_program_spelled _), split_iff] at hone
    simp only [tail_program_iff hanch hfree] at hone
    have hlen := run_length_le s
    have hsame {j' : Nat} (hj' : j' ≤ (run_of s).length) (hdrop : s.drop j' = s.drop j) : j' = j := by
      have := congrArg List.length hdrop
      rw [List.length_drop, List.length_drop] at this
      omega
    constructor
    · intro hkept
      obtain ⟨j', _, hj', hwithin, hdrop⟩ := hone.mp ⟨j, hj, hjk, hkept, rfl⟩
      exact hsame hj' hdrop ▸ hwithin
    · intro hwithin
      obtain ⟨j', _, hj', hkept, hdrop⟩ := hone.mpr ⟨j, hj, hjk, hwithin, rfl⟩
      exact hsame hj' hdrop ▸ hkept
  · intro h frames next hnext
    rw [range_iff hfree lo hi s hnext, split_iff]
    constructor
    · rintro ⟨j, hj, hjk, hkept, hrest⟩
      exact ⟨j, hj, hjk, (h j hj hjk).mp hkept, hrest⟩
    · rintro ⟨j, hj, hjk, hwithin, hrest⟩
      exact ⟨j, hj, hjk, (h j hj hjk).mpr hwithin, hrest⟩

end Meaning

section Bounds

/-- The scan keeps the number of a row of digits: it fits, or nothing in reach of the range is mistaken. -/
def Represents (lo hi : Option Nat) (run : List Nat) : Prop :=
  match lo, hi with
  | none, none => True
  | some m, none => m = 0 ∨ value run ≤ I64_MAX ∨
      ∃ d, d <+: run ∧ 4611686018427387904 ≤ value d ∧ value d ≤ I64_MAX
  | lo, some n => value run ≤ I64_MAX ∨ ∀ x, lo.getD 0 ≤ x → x ≤ n →
      (∀ d, d <+: run → value d ≠ x) ∧ ¬ Resumes I64_MAX run x

theorem kept_bounded {lo : Option Nat} {n : Nat} (hn : n ≤ I64_MAX) (s : Bytes) :
    (∀ j, 1 ≤ j → j ≤ (run_of s).length → (Kept lo (some n) s j ↔ Within lo (some n) s j)) ↔
      Represents lo (some n) (digits (run_of s)) := by
  have hlen : (digits (run_of s)).length = (run_of s).length := List.length_map _
  have hlow (v : Nat) : (∀ m ∈ lo, m ≤ v) ↔ lo.getD 0 ≤ v := by cases lo <;> simp
  have hrep : Represents lo (some n) (digits (run_of s)) ↔ (value (digits (run_of s)) ≤ I64_MAX ∨
      ∀ x, lo.getD 0 ≤ x → x ≤ n →
        (∀ d, d <+: digits (run_of s) → value d ≠ x) ∧ ¬ Resumes I64_MAX (digits (run_of s)) x) := by
    cases lo <;> rfl
  rw [hrep, ← held_agrees (by decide) (digits_run_lt s) hn]
  refine forall_congr' fun j => forall_congr' fun _ => ?_
  rw [hlen]
  refine forall_congr' fun hj => ?_
  rw [@kept_iff lo (some n) s _ (num_scan_bounded s 0 0) (by simp) j, Within, hlow]
  have hnot : ¬ (run_of s).length < j := Nat.not_lt.mpr hj
  simp only [Nat.zero_add, hnot, or_false, Option.mem_some_iff, forall_eq']
  rfl

theorem kept_from {m : Nat} (hm : m ≤ I64_MAX) (s : Bytes) :
    (∀ j, 1 ≤ j → j ≤ (run_of s).length → (Kept (some m) none s j ↔ Within (some m) none s j)) ↔
      Represents (some m) none (digits (run_of s)) := by
  obtain ⟨sc, hscan, hinput, hcases⟩ := @num_scan_from [] (by simp) (by decide) s
  rw [List.nil_append] at hinput hcases
  have hlen : (digits (run_of s)).length = (run_of s).length := List.length_map _
  have hds := digits_run_lt s
  have hkept (j : Nat) : Kept (some m) none s j ↔ m ≤ sc.comp / 10 ^ (sc.compend - j) ∨ sc.compend < j := by
    rw [@kept_iff (some m) none s sc hscan (by simp) j]
    simp
  have hwithin (j : Nat) : Within (some m) none s j ↔ m ≤ value ((digits (run_of s)).take j) := by
    simp [Within]
  have hrep : Represents (some m) none (digits (run_of s)) ↔ m = 0 ∨ value (digits (run_of s)) ≤ I64_MAX ∨
      ∃ d, d <+: digits (run_of s) ∧ 4611686018427387904 ≤ value d ∧ value d ≤ I64_MAX := Iff.rfl
  have hmax : I64_MAX = 9223372036854775807 := rfl
  have htake (i j : Nat) (hj : j ≤ i) (hi : i ≤ (digits (run_of s)).length) :
      value ((digits (run_of s)).take i) / 10 ^ (i - j) = value ((digits (run_of s)).take j) := by
    have hdigits : ∀ d ∈ (digits (run_of s)).take i, d < 10 := fun d hd => hds d (List.mem_of_mem_take hd)
    have hdiv := value_take hdigits j
    rw [List.take_take, Nat.min_eq_left hj, List.length_take, Nat.min_eq_left hi] at hdiv
    exact hdiv.symm
  simp only [hkept, hwithin, hrep, ← hlen]
  generalize digits (run_of s) = ds at *
  obtain ⟨hsmall, hend, hcomp⟩ | ⟨i, hi, hend, hcomp, hbit, hfits⟩ | ⟨i, hi, hend, hcomp, hsmall, hpast⟩ := hcases
  · -- the number never gets large
    refine iff_of_true (fun j _ hj => ?_) (.inr (.inl (by omega)))
    rw [hcomp, hend, hinput, value_take hds]
    exact or_iff_left (Nat.not_lt.mpr hj)
  · -- it does and still fits: every longer row of digits is past any bound
    refine iff_of_true (fun j _ hj => ?_) (.inr (.inr ⟨ds.take i, List.take_prefix i ds, by omega, by omega⟩))
    rw [hcomp, hend]
    obtain hle | hlt := (Nat.lt_or_ge i j).symm
    · rw [htake i j hle (by omega)]
      exact or_iff_left (Nat.not_lt.mpr hle)
    · refine iff_of_true (.inr hlt) ?_
      have hten := htake (i + 1) i (Nat.le_succ i) (by omega)
      rw [Nat.add_sub_cancel_left, Nat.pow_one] at hten
      have hmono : value (ds.take (i + 1)) ≤ value (ds.take j) := value_take_le ds (Nat.succ_le_of_lt hlt)
      omega
  · -- it jumps past what fits: the digit is counted as read, but not in the number
    have hlong : I64_MAX < value ds := hpast.trans_le (value_le_prefixed (List.take_prefix _ _))
    have hsmallest : ¬ ∃ d, d <+: ds ∧ 4611686018427387904 ≤ value d ∧ value d ≤ I64_MAX := by
      rintro ⟨d, hd, hlow, hhigh⟩
      rw [List.prefix_iff_eq_take.mp hd] at hlow hhigh
      obtain hle | hlt := (Nat.lt_or_ge i d.length).symm
      · have := value_take_le ds hle
        omega
      · have : value (ds.take (i + 1)) ≤ value (ds.take d.length) := value_take_le ds (Nat.succ_le_of_lt hlt)
        omega
    rw [or_iff_left (not_or.mpr ⟨Nat.not_le.mpr hlong, hsmallest⟩), hcomp, hend]
    constructor
    · intro hagree
      have hdown (j : Nat) (hj : j ≤ i + 1) : m ≤ value (ds.take (i + 1 - j)) := by
        induction j with
        | zero => exact hm.trans (Nat.le_of_lt hpast)
        | succ j ih =>
            have hbefore := (hagree (i + 1 - j) (by omega) (by omega)).mpr (ih (by omega))
            have hexp : i + 1 - (i + 1 - j) = i - (i + 1 - (j + 1)) := by omega
            rw [hexp, htake i _ (by omega) (by omega)] at hbefore
            exact hbefore.resolve_right (by omega)
      have hzero := hdown (i + 1) (Nat.le_refl _)
      rw [Nat.sub_self, List.take_zero, value_nil] at hzero
      exact Nat.le_zero.mp hzero
    · rintro rfl j _ _
      exact iff_of_true (.inl (Nat.zero_le _)) (Nat.zero_le _)

/-- A range means its numbers exactly where the scan keeps them. -/
theorem kept_within_iff {lo hi : Option Nat} (hlo : ∀ m ∈ lo, m ≤ I64_MAX) (hhi : ∀ n ∈ hi, n ≤ I64_MAX) (s : Bytes) :
    (∀ j, 1 ≤ j → j ≤ (run_of s).length → (Kept lo hi s j ↔ Within lo hi s j)) ↔
      Represents lo hi (digits (run_of s)) := by
  cases hi with
  | some n => exact kept_bounded (hhi n rfl) s
  | none =>
      cases lo with
      | some m => exact kept_from (hlo m rfl) s
      | none => exact iff_of_true (fun j _ _ => iff_of_true (.inl ⟨rfl, rfl⟩) ⟨by simp, by simp⟩) trivial

end Bounds

section Text

theorem le_foldl (ds : List Nat) (n : Nat) : n ≤ ds.foldl (fun v d => v * 10 + d) n := by
  induction ds generalizing n with
  | nil => exact Nat.le_refl n
  | cons d ds ih => exact Nat.le_trans (by omega) (ih (n * 10 + d))

/-- A bound that fits is read without an overflow. -/
theorem parse_bound_digits {a : Bytes} (ha : ∀ b ∈ a, is_ascii_digit b = true) {n : Nat}
    (hfits : (digits a).foldl (fun v d => v * 10 + d) n ≤ I64_MAX) {c : UInt8} (hc : is_ascii_digit c = false)
    (rest : Bytes) : parse_bound n (a ++ c :: rest) =
      some ((digits a).foldl (fun v d => v * 10 + d) n, c :: rest) := by
  induction a generalizing n with
  | nil =>
      rw [List.nil_append, parse_bound, if_neg (Bool.eq_false_iff.mp hc)]
      rfl
  | cons b a ih =>
      rw [List.forall_mem_cons] at ha
      rw [digits_cons, List.foldl_cons] at hfits ⊢
      have hstep : n * 10 + digit b ≤ I64_MAX := (le_foldl _ _).trans hfits
      rw [List.cons_append, parse_bound, if_pos ha.1, checked, if_pos hstep, Option.bind_some, ih ha.2 hfits]

/-- A bound of a range as it is written; none where nothing is. -/
def bound (a : Bytes) : Option Nat := if a = [] then none else some (number a)

theorem range_piece_text {a b : Bytes} (ha : ∀ c ∈ a, is_ascii_digit c = true) (hb : ∀ c ∈ b, is_ascii_digit c = true)
    (hlo : number a ≤ I64_MAX) (hhi : number b ≤ I64_MAX) (rest : Bytes) :
    range_piece (a ++ 45 :: (b ++ 62 :: rest)) = some (range_node (bound a) (bound b), rest) := by
  rw [range_piece, parse_bound_digits ha hlo (by decide), Option.bind_some]
  simp only [List.head?_cons, if_true, List.tail_cons]
  rw [parse_bound_digits hb hhi (by decide), Option.bind_some]
  simp only [List.head?_cons, if_true, List.length_append, lt_add_iff_pos_left, List.length_pos_iff, bound, ite_not]
  rfl

theorem bound_le {a : Bytes} (h : number a ≤ I64_MAX) : ∀ m ∈ bound a, m ≤ I64_MAX := by
  intro m hm
  rw [bound] at hm
  split at hm
  · cases hm
  · cases hm
    exact h

variable {env : Statics} {flags : Flags}

/-- `<a-b>` compiles to the range of its bounds, no scan overflows, and in front of any program it takes the
rows of digits with a number within the bounds exactly where the run of digits is one that the scan keeps. -/
theorem numeric_range (hanch : anchored env = true) (hfree : FlagFree flags) {a b : Bytes}
    (ha : ∀ c ∈ a, is_ascii_digit c = true) (hb : ∀ c ∈ b, is_ascii_digit c = true) (hlo : number a ≤ I64_MAX)
    (hhi : number b ≤ I64_MAX) (s : Bytes) :
    (∀ rest, range_piece (a ++ 45 :: (b ++ 62 :: rest)) = some (range_node (bound a) (bound b), rest)) ∧
      (∀ numfrom s, num_scan numfrom ⟨0, 0, 0⟩ s ≠ none) ∧
      (Means env flags (bound a) (bound b) s ↔ Represents (bound a) (bound b) (digits (run_of s))) := by
  refine ⟨range_piece_text ha hb hlo hhi, fun numfrom s => ?_, ?_⟩
  · obtain ⟨sc, hscan, _⟩ := num_scan_some numfrom s
    rw [hscan]
    exact Option.some_ne_none sc
  · rw [means_iff hanch hfree, kept_within_iff (bound_le hlo) (bound_le hhi)]

/-- A try of a program without flags on `s`. -/
def plain_try (s : Bytes) : Statics := Program.statics ⟨0, GF_MULTIBYTE, []⟩ utf8_tables (-1) s

theorem plain_anchored (s : Bytes) : anchored (plain_try s) = true := by
  simp [anchored, plain_try, Program.statics]

theorem multibyte_free : FlagFree GF_MULTIBYTE := BitVec.and_not_self _

/-- The number of a long run, with a text behind it. -/
theorem long_run_in_range : Means (plain_try (Utf8.encode "000012345ab".toList)) GF_MULTIBYTE (bound [51])
    (bound [49, 50, 51, 52, 53]) (Utf8.encode "000012345ab".toList) :=
  (numeric_range (plain_anchored _) multibyte_free (List.all_iff_forall_prop.mp (by decide))
    (List.all_iff_forall_prop.mp (by decide)) (by decide) (by decide) _).2.2.mpr
    (.inl (by decide))

/-- Twenty nines pass for a number of eighteen, and 2^63 does not pass for one from 2^63 - 1 on. -/
theorem numeric_range_drift :
    ¬ Means (plain_try (List.replicate 20 57)) GF_MULTIBYTE (some 1) (some 999999999999999999)
        (List.replicate 20 57) ∧
      ¬ Means (plain_try (Utf8.encode "9223372036854775808".toList)) GF_MULTIBYTE (some 9223372036854775807) none
        (Utf8.encode "9223372036854775808".toList) := by
  constructor
  · rw [means_iff (plain_anchored _) multibyte_free, kept_within_iff (by decide) (by decide)]
    rintro (h | h)
    · exact absurd h (by decide)
    · exact (h 9 (by decide) (by decide)).1 [9] ⟨List.replicate 19 9, by decide⟩ rfl
  · have hrun : digits (run_of (Utf8.encode "9223372036854775808".toList)) =
        [9, 2, 2, 3, 3, 7, 2, 0, 3, 6, 8, 5, 4, 7, 7, 5, 8, 0, 8] := by decide
    rw [means_iff (plain_anchored _) multibyte_free, kept_within_iff (by decide) (by decide), hrun]
    rintro (h | h | ⟨d, hd, hlow, hhigh⟩)
    · cases h
    · exact absurd h (by decide)
    · rw [List.prefix_iff_eq_take.mp hd] at hlow hhigh
      obtain hle | hlt := (Nat.lt_or_ge 18 d.length).symm
      · exact absurd (hlow.trans (value_take_le _ hle)) (by decide)
      · exact absurd ((value_take_le _ hlt).trans hhigh) (by decide)

end Text

end Zshrs.Pattern
