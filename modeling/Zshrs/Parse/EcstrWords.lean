import Mathlib.Data.Nat.Bitwise
import Zshrs.Parse.Ecstr

namespace Zshrs.Parse.Ecstr

open Lib.Pieces

theorem pushByte_ne_zero (b : UInt8) : (0 : UInt8) ∉ pushByte b := by
  intro h
  unfold pushByte at h
  cases hi : imeta b with
  | true =>
      rw [hi, if_pos rfl] at h
      have hb : b ^^^ 0x20 = 0 := by
        rcases List.mem_pair.mp h with h | h
        · cases h
        · exact h.symm
      obtain rfl := UInt8.xor_eq_zero_iff.mp hb
      exact absurd hi (by decide)
  | false =>
      rw [hi, if_neg Bool.false_ne_true, List.mem_singleton] at h
      obtain rfl := h
      exact absurd hi (by decide)

theorem charBytes_zero_iff (ch : Char) : (0 : UInt8) ∈ charBytes ch ↔ ch = '\x00' := by
  unfold charBytes
  split
  next hlt =>
    rw [List.mem_singleton]
    constructor
    · intro h
      have h := congrArg UInt8.toNat h
      have hz : '\x00'.toNat = 0 := rfl
      apply Char.toNat_inj.mp
      simp at h
      omega
    · rintro rfl
      rfl
  next hge =>
    have hne : ch ≠ '\x00' := by
      rintro rfl
      exact hge (by decide)
    simp only [hne, iff_false]
    cases htok : tokenByte ch with
    | some b =>
        unfold tokenByte at htok
        split at htok
        next hrange =>
          obtain rfl := Option.some.inj htok
          intro h
          have h := congrArg UInt8.toNat (List.mem_singleton.mp h)
          simp at h
          omega
        next => cases htok
    | none =>
        intro h
        obtain ⟨b, -, hb⟩ := List.mem_flatMap.mp h
        exact pushByte_ne_zero b hb

/-- Only `U+0000` itself puts a zero byte into a word: it is not metafied. -/
theorem cBytes_zero_iff (text : List Char) : (0 : UInt8) ∈ cBytes text ↔ '\x00' ∈ text := by
  fun_induction cBytes text with
  | case1 => simp
  | case2 ch => rw [charBytes_zero_iff, List.mem_singleton, eq_comm]
  | case3 ch n rest hpair ih =>
      have hch : '\x00' ≠ ch := by
        rintro rfl
        revert hpair
        simp [metaPair]
      have hn : '\x00' ≠ n := by
        rintro rfl
        revert hpair
        simp [metaPair]
      rw [List.mem_append, ih, List.mem_cons, List.mem_cons]
      simp only [hch, hn, false_or, or_iff_right_iff_imp]
      intro h
      exact absurd h (pushByte_ne_zero _)
  | case4 ch n rest hpair ih =>
      rw [List.mem_append, ih, charBytes_zero_iff, List.mem_cons (b := ch), eq_comm]

/-- Three bytes over three tag bits. -/
def packed (c : UInt32) (x y z : UInt8) : UInt32 :=
  c ||| z.toUInt32 <<< 19 ||| y.toUInt32 <<< 11 ||| x.toUInt32 <<< 3

theorem byte_shiftLeft (b : UInt8) {s : UInt32} (hs : s.toNat ≤ 19) :
    (b.toUInt32 <<< s).toNat = b.toNat <<< s.toNat := by
  have hb := b.toNat_lt
  have hpow : 2 ^ s.toNat ≤ 2 ^ 19 := Nat.pow_le_pow_right (by decide) hs
  have hlt : b.toNat * 2 ^ s.toNat < 2 ^ 8 * 2 ^ 19 := by
    calc b.toNat * 2 ^ s.toNat ≤ b.toNat * 2 ^ 19 := Nat.mul_le_mul_left _ hpow
      _ < 2 ^ 8 * 2 ^ 19 := Nat.mul_lt_mul_of_pos_right hb (by decide)
  have hmod : s.toNat % 32 = s.toNat := Nat.mod_eq_of_lt (by omega)
  rw [UInt32.toNat_shiftLeft, hmod, UInt8.toNat_toUInt32, Nat.shiftLeft_eq]
  omega

theorem packed_toNat {c : UInt32} (x y z : UInt8) (hc : c.toNat < 8) :
    (packed c x y z).toNat = z.toNat * 2 ^ 19 + (y.toNat * 2 ^ 11 + (x.toNat * 2 ^ 3 + c.toNat)) := by
  have hx := x.toNat_lt
  have hy := y.toNat_lt
  have hor : packed c x y z = z.toUInt32 <<< 19 ||| (y.toUInt32 <<< 11 ||| (x.toUInt32 <<< 3 ||| c)) := by
    rw [packed, UInt32.or_comm c, UInt32.or_assoc, UInt32.or_assoc, UInt32.or_comm c, UInt32.or_assoc]
  have h3 : x.toNat <<< 3 + c.toNat < 2 ^ 11 := by
    rw [Nat.shiftLeft_eq]
    omega
  have h11 : y.toNat <<< 11 + (x.toNat <<< 3 + c.toNat) < 2 ^ 19 := by
    rw [Nat.shiftLeft_eq]
    omega
  rw [hor, UInt32.toNat_or, UInt32.toNat_or, UInt32.toNat_or, byte_shiftLeft z (by decide),
    byte_shiftLeft y (by decide), byte_shiftLeft x (by decide)]
  simp only [UInt32.reduceToNat]
  rw [← Nat.shiftLeft_add_eq_or_of_lt (i := 3) hc, ← Nat.shiftLeft_add_eq_or_of_lt h3,
    ← Nat.shiftLeft_add_eq_or_of_lt h11]
  simp only [Nat.shiftLeft_eq]

theorem byte_at {w s : UInt32} (hs : s.toNat ≤ 19) :
    (w >>> s &&& 0xff).toUInt8.toNat = w.toNat / 2 ^ s.toNat % 2 ^ 8 := by
  have hmod : s.toNat % 32 = s.toNat := Nat.mod_eq_of_lt (by omega)
  have hmask : w.toNat / 2 ^ s.toNat &&& 255 = w.toNat / 2 ^ s.toNat % 2 ^ 8 :=
    Nat.and_two_pow_sub_one_eq_mod _ 8
  rw [UInt32.toNat_toUInt8, UInt32.toNat_and, UInt32.toNat_shiftRight, hmod,
    Nat.shiftRight_eq_div_pow]
  simp only [UInt32.reduceToNat] 
  omega

theorem packed_bytes {c : UInt32} (x y z : UInt8) (hc : c.toNat < 8) :
    ([3, 11, 19] : List UInt32).map (fun shift => (packed c x y z >>> shift &&& 0xff).toUInt8) = [x, y, z] := by
  have hw := packed_toNat x y z hc
  have hx := x.toNat_lt
  have hy := y.toNat_lt
  have hz := z.toNat_lt
  have h3 : (packed c x y z >>> 3 &&& 0xff).toUInt8 = x := by
    apply UInt8.toNat.inj
    rw [byte_at (by decide), hw]
    simp only [UInt32.reduceToNat]
    omega
  have h11 : (packed c x y z >>> 11 &&& 0xff).toUInt8 = y := by
    apply UInt8.toNat.inj
    rw [byte_at (by decide), hw]
    simp only [UInt32.reduceToNat]
    omega
  have h19 : (packed c x y z >>> 19 &&& 0xff).toUInt8 = z := by
    apply UInt8.toNat.inj
    rw [byte_at (by decide), hw]
    simp only [UInt32.reduceToNat]
    omega
  simp only [List.map_cons, List.map_nil, h3, h11, h19]

def shortTag (bytes : List UInt8) : UInt32 := if hasToken bytes then 3 else 2

theorem shortTag_lt (bytes : List UInt8) : (shortTag bytes).toNat < 8 := by
  unfold shortTag
  split <;> decide

theorem packShort_eq {bytes : List UInt8} (hne : bytes ≠ []) :
    packShort bytes = packed (shortTag bytes) (bytes.getD 0 0) (bytes.getD 1 0) (bytes.getD 2 0) := by
  match bytes with
  | [] => exact absurd rfl hne
  | [x] => simp [packShort, packed, shortTag]
  | [x, y] => simp [packShort, packed, shortTag]
  | x :: y :: z :: rest => simp [packShort, packed, shortTag]

theorem packShort_and_one (bytes : List UInt8) :
    packShort bytes &&& 1 = if hasToken bytes then 1 else 0 := by
  cases bytes with
  | nil => decide
  | cons x rest => 
      rw [packShort_eq (List.cons_ne_nil x rest)]
      apply UInt32.toNat.inj
      rw [UInt32.toNat_and, packed_toNat _ _ _ (shortTag_lt _)]
      simp only [UInt32.reduceToNat, Nat.and_one_is_mod, shortTag]
      split
      · simp only [UInt32.reduceToNat]
        omega
      · simp only [UInt32.reduceToNat]
        omega

theorem and_two (w : UInt32) : w &&& 2 = 0 ↔ w.toNat / 2 % 2 = 0 := by
  have hbit : w.toNat &&& 2 = (w.toNat.testBit 1).toNat * 2 := Nat.and_two_pow w.toNat 1
  rw [Nat.testBit_eq_decide_div_mod_eq] at hbit
  rw [← UInt32.toNat_inj, UInt32.toNat_and]
  simp only [UInt32.reduceToNat, hbit]
  by_cases h : w.toNat / 2 ^ 1 % 2 = 1
  · simp
  · simp only [h, decide_false, Bool.toNat_false, Nat.zero_mul, true_iff]
    omega

theorem takeWhile_padded {bytes : List UInt8} (hlen : bytes.length ≤ 3) (hzero : (0 : UInt8) ∉ bytes) :
    [bytes.getD 0 0, bytes.getD 1 0, bytes.getD 2 0].takeWhile (· ≠ 0) = bytes := by
  match bytes with
  | [] => rfl
  | [x] =>
      simp only [List.mem_cons, not_or, eq_comm (a := (0 : UInt8))] at hzero
      simp [hzero]
  | [x, y] =>
      simp only [List.mem_cons, not_or, eq_comm (a := (0 : UInt8))] at hzero
      simp [hzero]
  | [x, y, z] =>
      simp only [List.mem_cons, not_or, eq_comm (a := (0 : UInt8))] at hzero
      simp [hzero]
  | _ :: _ :: _ :: _ :: _ =>
      simp only [List.length_cons] at hlen
      omega

theorem packShort_toNat_div (bytes : List UInt8) : (packShort bytes).toNat / 2 % 2 = 1 := by
  cases bytes with
  | nil => decide
  | cons x rest =>
      rw [packShort_eq (List.cons_ne_nil x rest), packed_toNat _ _ _ (shortTag_lt _), shortTag]
      split
      · simp only [UInt32.reduceToNat]
        omega
      · simp only [UInt32.reduceToNat]
        omega

/-- A short word is read back from its three bytes. -/
theorem decode_packShort {bytes : List UInt8} (strings : List UInt8) (strsBase : Nat)
    (hlen : bytes.length ≤ 3) (hzero : (0 : UInt8) ∉ bytes) :
    decodeStringWord strings strsBase (packShort bytes) = bytes.map widen := by
  cases hb : bytes with
  | nil => rfl
  | cons x rest =>
      rw [← hb]
      have hne : bytes ≠ [] := by
        rw [hb]
        exact List.cons_ne_nil x rest
      have heq := packShort_eq hne
      have hx : 0 < (bytes.getD 0 0).toNat := by
        rw [hb]
        rcases Nat.eq_zero_or_pos x.toNat with h | h
        · obtain rfl : x = 0 := UInt8.toNat.inj h
          rw [hb] at hzero
          exact absurd List.mem_cons_self hzero
        · exact h
      have hbig : 8 ≤ (packShort bytes).toNat := by
        rw [heq, packed_toNat _ _ _ (shortTag_lt bytes)]
        omega
      have hempty : ¬ (packShort bytes = 6 ∨ packShort bytes = 7) := by
        rintro (h | h) <;> rw [h] at hbig <;> exact absurd hbig (by decide)
      have hshort : packShort bytes &&& 2 ≠ 0 := by
        have := packShort_toNat_div bytes
        rw [Ne, and_two]
        omega
      rw [decodeStringWord, if_neg hempty, if_pos hshort, heq,
        packed_bytes _ _ _ (shortTag_lt bytes), takeWhile_padded hlen hzero]

theorem longCode_toNat {off : Nat} (t : Bool) (h : off < 2 ^ 30) :
    (longCode off t).toNat = off * 4 + t.toNat := by
  have ht : (if t then 1 else 0 : UInt32).toNat = t.toNat := by cases t <;> rfl
  have hoff : (UInt32.ofNat off).toNat = off :=
    UInt32.toNat_ofNat_of_lt' (Nat.lt_of_lt_of_le h (by decide))
  have hlt : t.toNat < 2 ^ 2 := by cases t <;> decide
  rw [longCode, UInt32.toNat_or, ht, UInt32.toNat_shiftLeft, hoff]
  simp only [UInt32.reduceToNat, Nat.reduceMod]
  rw [Nat.mod_eq_of_lt, ← Nat.shiftLeft_add_eq_or_of_lt hlt, Nat.shiftLeft_eq]
  rw [Nat.shiftLeft_eq]
  omega

theorem longCode_shiftRight {off : Nat} (t : Bool) (h : off < 2 ^ 30) :
    (longCode off t >>> 2).toNat = off := by
  have ht : t.toNat < 4 := by cases t <;> decide
  rw [UInt32.toNat_shiftRight, longCode_toNat t h, Nat.shiftRight_eq_div_pow]
  simp only [UInt32.reduceToNat, Nat.reduceMod]
  omega

theorem longCode_and_one {off : Nat} (t : Bool) (h : off < 2 ^ 30) :
    longCode off t &&& 1 = if t then 1 else 0 := by
  apply UInt32.toNat.inj
  rw [UInt32.toNat_and, longCode_toNat t h]
  simp only [UInt32.reduceToNat, Nat.and_one_is_mod]
  cases t
  · simp only [Bool.toNat_false, Bool.false_eq_true, if_false, UInt32.reduceToNat]
    omega
  · simp only [Bool.toNat_true, if_true, UInt32.reduceToNat]
    omega

theorem longCode_and_two {off : Nat} (t : Bool) (h : off < 2 ^ 30) : longCode off t &&& 2 = 0 := by
  have ht : t.toNat < 2 := by cases t <;> decide
  rw [and_two, longCode_toNat t h]
  omega

theorem decode_longCode {strings : List UInt8} {strsBase off : Nat} {t : Bool} (h : off < 2 ^ 30) :
    decodeStringWord strings strsBase (longCode off t) = stringAt strings (strsBase + off) := by
  have htwo := longCode_and_two t h
  have hempty : ¬ (longCode off t = 6 ∨ longCode off t = 7) := by
    rintro (h | h) <;> rw [h] at htwo <;> exact absurd htwo (by decide)
  rw [decodeStringWord, if_neg hempty, if_neg (by rw [htwo]; decide), longCode_shiftRight t h]

theorem stringAt_of_slice {strings bytes : List UInt8} {off : Nat} (hzero : (0 : UInt8) ∉ bytes)
    (h : slice strings off (bytes.length + 1) = bytes ++ [0]) :
    stringAt strings off = bytes.map widen := by
  have hdrop : strings.drop off = bytes ++ 0 :: strings.drop (off + (bytes.length + 1)) := by
    rw [← List.take_append_drop (bytes.length + 1) (strings.drop off), ← slice, h, List.drop_drop,
      List.append_assoc]
    rfl
  have hlt : ¬ off ≥ strings.length := by
    intro hge
    rw [List.drop_of_length_le hge] at hdrop
    cases bytes <;> cases hdrop
  have hbytes : ∀ b ∈ bytes, decide (b ≠ 0) = true := by
    intro b hb
    apply decide_eq_true
    rintro rfl
    exact hzero hb
  rw [stringAt, if_neg hlt, hdrop, List.takeWhile_append_of_pos hbytes]
  simp
end Zshrs.Parse.Ecstr
