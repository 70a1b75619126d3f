import Mathlib.Algebra.Group.Int.Defs

namespace Zshrs.Math

/-- The variables of the squaring loop. -/
structure Squares where
  result : Int64
  acc : Int64
  e : Int64

/-- A shift of an `i64` that traps where the amount is out of range. -/
def shr? (e : Int64) (amount : Nat) : Option Int64 := if amount < 64 then some (e >>> Int64.ofNat amount) else none

namespace Squares

/-- One iteration. The two products wrap. -/
def step (s : Squares) : Option Squares :=
  let result := if s.e &&& 1 = 1 then s.result * s.acc else s.result
  (shr? s.e 1).map fun e => ⟨result, if e > 0 then s.acc * s.acc else s.acc, e⟩

/-- The loop, which has no answer where it traps or takes more than `fuel` iterations. -/
def loop : Nat → Squares → Option Int64
  | fuel, s =>
    if s.e > 0 then
      match fuel with
      | 0 => none
      | fuel + 1 => s.step.bind (loop fuel)
    else some s.result

end Squares

/-- The integers of the `POWER` arm, with a bound on the iterations. -/
def int_pow (fuel : Nat) (a b : Int64) : Option Int64 := Squares.loop fuel ⟨1, a, b⟩

/-- The loop that it stands for: a product for each unit of the exponent. -/
def repeated (a : Int64) : Nat → Int64
  | 0 => 1
  | n + 1 => repeated a n * a

section Halves

variable {e : Int64}

theorem toInt_half (e : Int64) : (e >>> 1).toInt = e.toInt / 2 := by
  have hshift : (e >>> 1).toBitVec = e.toBitVec.sshiftRight 1 := rfl
  rw [← Int64.toInt_toBitVec, hshift, BitVec.toInt_sshiftRight, Int.shiftRight_eq_div_pow, Int64.toInt_toBitVec]
  rfl

theorem odd_iff (he : 0 ≤ e.toInt) : e &&& 1 = 1 ↔ e.toInt.toNat % 2 = 1 := by
  have hnat : e.toBitVec.toNat = e.toInt.toNat := by
    rw [← Int64.toInt_toBitVec, BitVec.toInt_eq_toNat_of_msb, Int.toNat_natCast]
    rw [BitVec.msb_eq_false_iff_two_mul_lt]
    have hlt := e.toBitVec.isLt
    rw [← Int64.toInt_toBitVec, BitVec.toInt_eq_toNat_cond] at he
    split at he
    · assumption
    · omega
  rw [← Int64.toBitVec_inj, Int64.toBitVec_and, ← BitVec.toNat_inj, BitVec.toNat_and, hnat]
  exact iff_of_eq (congrArg (· = 1) (Nat.and_one_is_mod _))

end Halves

section Repeated

theorem repeated_add (a : Int64) (m n : Nat) : repeated a (m + n) = repeated a m * repeated a n := by
  induction n with
  | zero => exact (Int64.mul_one _).symm
  | succ n ih =>
      calc repeated a (m + (n + 1)) = repeated a (m + n) * a := rfl
        _ = repeated a m * repeated a n * a := by rw [ih]
        _ = repeated a m * repeated a (n + 1) := Int64.mul_assoc _ _ _

theorem repeated_square (a : Int64) (n : Nat) : repeated (a * a) n = repeated a (2 * n) := by
  induction n with
  | zero => rfl
  | succ n ih =>
      calc repeated (a * a) (n + 1) = repeated a (2 * n) * (a * a) := by rw [repeated, ih]
        _ = repeated a (2 * n) * a * a := (Int64.mul_assoc _ _ _).symm
        _ = repeated a (2 * (n + 1)) := rfl

end Repeated

namespace Squares

/-- What the loop is to give. -/
def answer (s : Squares) : Int64 := s.result * repeated s.acc s.e.toInt.toNat

theorem answer_done {s : Squares} (hs : ¬ s.e > 0) : s.answer = s.result := by
  have hle : s.e.toInt ≤ 0 := Int.not_lt.mp (fun h => hs (Int64.lt_iff_toInt_lt.mpr h))
  rw [answer, Int.toNat_of_nonpos hle]
  exact Int64.mul_one _

/-- An iteration halves the exponent and keeps the answer. -/
theorem step_spec {s : Squares} (hs : s.e > 0) :
    ∃ s', s.step = some s' ∧ s'.e.toInt = s.e.toInt / 2 ∧ s'.answer = s.answer := by
  have hpos : 0 < s.e.toInt := Int64.lt_iff_toInt_lt.mp hs
  have hhalf := toInt_half s.e
  have hodd := odd_iff (Int.le_of_lt hpos)
  have hsplit : s.e.toInt.toNat = s.e.toInt.toNat % 2 + 2 * (s.e.toInt / 2).toNat := by omega
  refine ⟨_, rfl, hhalf, ?_⟩
  unfold answer
  dsimp only
  rw [hsplit, repeated_add, ← repeated_square, ← Int64.mul_assoc]
  have hacc : repeated (if s.e >>> 1 > 0 then s.acc * s.acc else s.acc) (s.e >>> 1).toInt.toNat =
      repeated (s.acc * s.acc) (s.e.toInt / 2).toNat := by
    by_cases h : s.e >>> 1 > 0
    · rw [if_pos h, hhalf]
    · have hle : (s.e >>> 1).toInt ≤ 0 := Int.not_lt.mp (fun hlt => h (Int64.lt_iff_toInt_lt.mpr hlt))
      rw [if_neg h, ← hhalf, Int.toNat_of_nonpos hle]
      rfl
  have hresult : (if s.e &&& 1 = 1 then s.result * s.acc else s.result) =
      s.result * repeated s.acc (s.e.toInt.toNat % 2) := by
    by_cases h : s.e &&& 1 = 1
    · rw [if_pos h, hodd.mp h]
      exact congrArg (s.result * ·) (Int64.one_mul s.acc).symm
    · have hzero : s.e.toInt.toNat % 2 = 0 := (Nat.mod_two_eq_zero_or_one _).resolve_right (mt hodd.mpr h)
      rw [if_neg h, hzero]
      exact (Int64.mul_one _).symm
  exact congrArg₂ (· * ·) hresult hacc

theorem loop_spec (fuel : Nat) (s : Squares) (hs : s.e.toInt < 2 ^ fuel) : loop fuel s = some s.answer := by
  induction fuel generalizing s with
  | zero =>
      have hdone : ¬ s.e > 0 := fun h => by
        have hpos := Int64.lt_iff_toInt_lt.mp h
        change 0 < s.e.toInt at hpos
        omega
      rw [loop, if_neg hdone, answer_done hdone]
  | succ fuel ih =>
      rw [loop]
      by_cases h : s.e > 0
      · obtain ⟨s', hstep, hhalf, hanswer⟩ := step_spec h
        rw [if_pos h, hstep, Option.bind_some, ← hanswer]
        apply ih
        rw [hhalf]
        omega
      · rw [if_neg h, answer_done h]

end Squares

/-- The squaring loop never traps, ends within 64 iterations and gives the wrapped product. -/
theorem int_pow_spec (a b : Int64) : int_pow 64 a b = some (repeated a b.toNatClampNeg) := by
  have hlt : b.toInt < 2 ^ 64 := by
    have hb := b.toInt_lt
    omega
  have hanswer : Squares.answer ⟨1, a, b⟩ = 1 * repeated a b.toNatClampNeg := rfl
  rw [int_pow, Squares.loop_spec 64 ⟨1, a, b⟩ hlt, hanswer, Int64.one_mul]

end Zshrs.Math
