import Zshrs.Lib.Bytes

namespace Zshrs.Lib.Words

open Bytes

/-- A word of 32 bits as its bytes, the low one first. -/
def toLeBytes (w : UInt32) : List UInt8 := toLE 4 w.toNat

def ofLeBytes (s : List UInt8) : UInt32 := UInt32.ofNat (ofLE s)

def swapBytes (w : UInt32) : UInt32 := ofLeBytes (toLeBytes w).reverse

def bytesOf (ws : List UInt32) : List UInt8 := ws.flatMap toLeBytes

/-- The whole words of a byte string. -/
def wordsOf : List UInt8 → List UInt32
  | a :: b :: c :: d :: rest => ofLeBytes [a, b, c, d] :: wordsOf rest
  | _ => []

theorem length_toLeBytes (w : UInt32) : (toLeBytes w).length = 4 := length_toLE 4 w.toNat

theorem ofLeBytes_toLeBytes (w : UInt32) : ofLeBytes (toLeBytes w) = w := by
  apply UInt32.toNat_inj.mp
  rw [ofLeBytes, toLeBytes, ofLE_toLE, UInt32.toNat_ofNat']
  have small : w.toNat < 2 ^ 32 := w.toNat_lt
  omega

theorem ofLE_lt (s : List UInt8) : ofLE s < 2 ^ (8 * s.length) := by
  induction s with
  | nil => exact Nat.one_pos
  | cons v rest ih =>
    have byte : v.toNat < 2 ^ 8 := v.toNat_lt
    rw [ofLE, List.length_cons, Nat.mul_succ, Nat.add_comm (8 * rest.length), Nat.pow_add]
    have scaled : 2 ^ 8 * (ofLE rest + 1) ≤ 2 ^ 8 * 2 ^ (8 * rest.length) := Nat.mul_le_mul_left _ ih
    omega

theorem toLE_ofLE (s : List UInt8) : toLE s.length (ofLE s) = s := by
  induction s with
  | nil => rfl
  | cons v rest ih =>
    have byte : v.toNat < 2 ^ 8 := v.toNat_lt
    have low : (v.toNat + 2 ^ 8 * ofLE rest) % 2 ^ 8 = v.toNat := by omega
    have high : (v.toNat + 2 ^ 8 * ofLE rest) / 2 ^ 8 = ofLE rest := by omega
    rw [List.length_cons, toLE, ofLE, low, high, ih, UInt8.ofNat_toNat]

theorem toLeBytes_ofLeBytes {s : List UInt8} (hs : s.length = 4) : toLeBytes (ofLeBytes s) = s := by
  have small : ofLE s < 2 ^ 32 := by
    have bound := ofLE_lt s
    rw [hs] at bound
    exact bound
  rw [toLeBytes, ofLeBytes, UInt32.toNat_ofNat', Nat.mod_eq_of_lt small, ← hs, toLE_ofLE]

theorem swapBytes_swapBytes (w : UInt32) : swapBytes (swapBytes w) = w := by
  have len : (toLeBytes w).reverse.length = 4 := by rw [List.length_reverse, length_toLeBytes]
  rw [swapBytes, swapBytes, toLeBytes_ofLeBytes len, List.reverse_reverse, ofLeBytes_toLeBytes]

theorem length_bytesOf (ws : List UInt32) : (bytesOf ws).length = ws.length * 4 :=
  length_flatMap_width fun w _ => length_toLeBytes w

theorem bytesOf_append (ws vs : List UInt32) : bytesOf (ws ++ vs) = bytesOf ws ++ bytesOf vs :=
  List.flatMap_append

theorem bytesOf_cons (w : UInt32) (ws : List UInt32) : bytesOf (w :: ws) = toLeBytes w ++ bytesOf ws :=
  rfl

theorem wordsOf_four : ∀ {s : List UInt8}, s.length = 4 → ∀ t, wordsOf (s ++ t) = ofLeBytes s :: wordsOf t
  | [_, _, _, _], _, _ => rfl

theorem wordsOf_cons (w : UInt32) (s : List UInt8) : wordsOf (toLeBytes w ++ s) = w :: wordsOf s := by
  rw [wordsOf_four (length_toLeBytes w), ofLeBytes_toLeBytes]

/-- Words are read back as they were written, whatever follows them. -/
theorem wordsOf_bytesOf (ws : List UInt32) (s : List UInt8) :
    wordsOf (bytesOf ws ++ s) = ws ++ wordsOf s := by
  induction ws with
  | nil => rfl
  | cons w ws ih =>
    rw [bytesOf_cons, List.append_assoc, wordsOf_cons, ih, List.cons_append]

theorem wordsOf_bytes (ws : List UInt32) : wordsOf (bytesOf ws) = ws := by
  have whole : wordsOf (bytesOf ws ++ []) = ws ++ [] := wordsOf_bytesOf ws []
  rwa [List.append_nil, List.append_nil] at whole

/-- So are bytes that fill their words. -/
theorem bytesOf_wordsOf : ∀ {s : List UInt8}, s.length % 4 = 0 → bytesOf (wordsOf s) = s
  | [], _ => rfl
  | [_], hs => absurd hs Nat.one_ne_zero
  | [_, _], hs => absurd hs (Nat.succ_ne_zero 1)
  | [_, _, _], hs => absurd hs (Nat.succ_ne_zero 2)
  | a :: b :: c :: d :: rest, hs => by
    have front : toLeBytes (ofLeBytes [a, b, c, d]) = [a, b, c, d] := toLeBytes_ofLeBytes rfl
    have later : rest.length % 4 = 0 := by
      simp only [List.length_cons] at hs
      omega
    rw [wordsOf, bytesOf_cons, front, bytesOf_wordsOf later]
    rfl

theorem wordsOf_append {s : List UInt8} (hs : s.length % 4 = 0) (t : List UInt8) :
    wordsOf (s ++ t) = wordsOf s ++ wordsOf t := by
  have front := wordsOf_bytesOf (wordsOf s) t
  rw [bytesOf_wordsOf hs] at front
  exact front

theorem length_wordsOf {s : List UInt8} (hs : s.length % 4 = 0) : (wordsOf s).length * 4 = s.length := by
  rw [← length_bytesOf, bytesOf_wordsOf hs]

theorem wordsOf_drop {s : List UInt8} {k : Nat} (hk : k * 4 ≤ s.length) :
    (wordsOf s).drop k = wordsOf (s.drop (k * 4)) := by
  have size : (s.take (k * 4)).length = k * 4 := List.length_take_of_le hk
  have four : (s.take (k * 4)).length % 4 = 0 := by
    rw [size]
    exact Nat.mul_mod_left k 4
  have count : (wordsOf (s.take (k * 4))).length = k := by
    have words := length_wordsOf four
    omega
  have parts := wordsOf_append four (s.drop (k * 4))
  rw [List.take_append_drop] at parts
  rw [parts]
  exact List.drop_left' count

end Zshrs.Lib.Words
