import Mathlib.Data.List.Basic
import Mathlib.Data.Int.Order.Basic
import Mathlib.Algebra.Group.Nat.Defs
import Mathlib.Algebra.Group.Int.Defs

namespace Zshrs.Lib.Bytes

/-- The `n` bytes at `p`, if they are all there. -/
def getRange (b : List UInt8) (p n : Nat) : Option (List UInt8) :=
  if p + n ≤ b.length then some ((b.drop p).take n) else none

/-- `s` stands at `p`. -/
def Stands (b : List UInt8) (p : Nat) (s : List UInt8) : Prop :=
  ∃ pre post, pre.length = p ∧ b = pre ++ (s ++ post)

theorem stands_zero (b : List UInt8) : Stands b 0 b := ⟨[], [], rfl, (List.append_nil b).symm⟩

theorem Stands.left {b : List UInt8} {p : Nat} {s t : List UInt8} (h : Stands b p (s ++ t)) :
    Stands b p s := by
  obtain ⟨pre, post, hpre, rfl⟩ := h
  exact ⟨pre, t ++ post, hpre, by rw [List.append_assoc]⟩

theorem Stands.right {b : List UInt8} {p q : Nat} {s t : List UInt8} (h : Stands b p (s ++ t))
    (hq : q = p + s.length) : Stands b q t := by
  obtain ⟨pre, post, hpre, rfl⟩ := h
  refine ⟨pre ++ s, post, ?_, ?_⟩
  · rw [List.length_append, hpre, hq]
  · simp only [List.append_assoc]

theorem Stands.getElem? {b : List UInt8} {p : Nat} {s : List UInt8} (h : Stands b p s) {i : Nat}
    (hi : i < s.length) : b[p + i]? = s[i]? := by
  obtain ⟨pre, post, rfl, rfl⟩ := h
  rw [List.getElem?_append_right (Nat.le_add_right _ _), Nat.add_sub_cancel_left,
    List.getElem?_append_left hi]

theorem Stands.le {b : List UInt8} {p : Nat} {s : List UInt8} (h : Stands b p s) :
    p + s.length ≤ b.length := by
  obtain ⟨pre, post, rfl, rfl⟩ := h
  rw [List.length_append, List.length_append]
  omega

theorem Stands.getRange {b : List UInt8} {p n : Nat} {s : List UInt8} (h : Stands b p s)
    (hn : n = s.length) : getRange b p n = some s := by
  have hle := h.le
  obtain ⟨pre, post, rfl, rfl⟩ := h
  rw [Bytes.getRange, if_pos (by omega), List.drop_left, hn, List.take_left]

/-- A table of fields of one width. -/
theorem Stands.field {α : Type} {b : List UInt8} {p w : Nat} {xs : List α} {enc : α → List UInt8}
    (h : Stands b p (xs.flatMap enc)) (hw : ∀ x ∈ xs, (enc x).length = w) {i : Nat}
    (hi : i < xs.length) : Stands b (p + i * w) (enc (xs.get ⟨i, hi⟩)) := by
  induction xs generalizing p i with
  | nil => exact absurd hi (Nat.not_lt_zero i)
  | cons x xs ih =>
      rw [List.flatMap_cons] at h
      cases i with
      | zero =>
          rw [Nat.zero_mul, Nat.add_zero]
          exact h.left
      | succ i =>
          have hx : (enc x).length = w := hw x List.mem_cons_self
          have hrest := ih (h.right (by rw [hx])) (fun y hy => hw y (List.mem_cons_of_mem x hy))
            (Nat.lt_of_succ_lt_succ hi)
          rw [Nat.succ_mul, Nat.add_comm (i * w) w, ← Nat.add_assoc]
          exact hrest

theorem length_flatMap_width {α : Type} {xs : List α} {enc : α → List UInt8} {w : Nat}
    (hw : ∀ x ∈ xs, (enc x).length = w) : (xs.flatMap enc).length = xs.length * w := by
  rw [List.length_flatMap, List.map_congr_left hw, List.map_const', List.sum_replicate_nat]

/-- A loop that reads a list index by index. -/
theorem mapM_range {α : Type} {f : Nat → Option α} {xs : List α}
    (h : ∀ (i : Nat) (hi : i < xs.length), f i = some (xs.get ⟨i, hi⟩)) :
    (List.range xs.length).mapM f = some xs := by
  induction xs generalizing f with
  | nil => rfl
  | cons x xs ih =>
      have hrest : (List.range xs.length).mapM (fun i => f (i + 1)) = some xs :=
        ih fun i hi => h (i + 1) (Nat.succ_lt_succ hi)
      rw [List.length_cons, List.range_succ_eq_map, List.mapM_cons, h 0 (Nat.succ_pos _)]
      have hmap : ((List.range xs.length).map Nat.succ).mapM f =
          (List.range xs.length).mapM (fun i => f (i + 1)) := List.mapM_map
      rw [hmap, hrest]
      rfl

def ofLE : List UInt8 → Nat
  | [] => 0
  | v :: rest => v.toNat + 2 ^ 8 * ofLE rest

def toLE : Nat → Nat → List UInt8
  | 0, _ => []
  | w + 1, n => UInt8.ofNat (n % 2 ^ 8) :: toLE w (n / 2 ^ 8)

theorem length_toLE (w n : Nat) : (toLE w n).length = w := by
  induction w generalizing n with
  | zero => rfl
  | succ w ih => rw [toLE, List.length_cons, ih]

theorem ofLE_toLE (w n : Nat) : ofLE (toLE w n) = n % 2 ^ (8 * w) := by
  induction w generalizing n with
  | zero => exact (Nat.mod_one n).symm
  | succ w ih =>
      have hbyte : (UInt8.ofNat (n % 2 ^ 8)).toNat = n % 2 ^ 8 := by
        rw [UInt8.toNat_ofNat', Nat.mod_mod]
      rw [toLE, ofLE, hbyte, ih, Nat.mul_succ, Nat.add_comm (8 * w) 8, Nat.pow_add, Nat.mod_mul]

/-- The two's complement value of little-endian bytes. -/
def signed (s : List UInt8) : Int := Int.bmod (ofLE s) (2 ^ (8 * s.length))

def ofSigned (w : Nat) (v : Int) : List UInt8 := toLE w (v % (2 ^ (8 * w) : Nat)).toNat

/-- `v` has a two's complement form of `w` bytes. -/
def Fits (w : Nat) (v : Int) : Prop :=
  -(2 ^ (8 * w) : Nat) ≤ v * 2 ∧ v * 2 < (2 ^ (8 * w) : Nat)

instance (w : Nat) (v : Int) : Decidable (Fits w v) := inferInstanceAs (Decidable (_ ∧ _))

theorem length_ofSigned (w : Nat) (v : Int) : (ofSigned w v).length = w := length_toLE w _

theorem signed_ofSigned {w : Nat} {v : Int} (h : Fits w v) : signed (ofSigned w v) = v := by
  have hpos : (0 : Int) < (2 ^ (8 * w) : Nat) := by
    have := Nat.two_pow_pos (8 * w)
    omega
  have hnonneg : 0 ≤ v % (2 ^ (8 * w) : Nat) := Int.emod_nonneg v (Int.ne_of_gt hpos)
  have hlt : v % (2 ^ (8 * w) : Nat) < (2 ^ (8 * w) : Nat) := Int.emod_lt_of_pos v hpos
  rw [signed, length_ofSigned, ofSigned, ofLE_toLE, Nat.mod_eq_of_lt (by omega),
    Int.toNat_of_nonneg hnonneg, Int.emod_bmod]
  exact Int.bmod_eq_of_le_mul_two h.1 h.2

end Zshrs.Lib.Bytes
