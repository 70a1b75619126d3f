import Zshrs.Zle.LineString
import Mathlib.Algebra.Group.Nat.Defs
import Mathlib.Algebra.Group.Int.Defs

namespace Zshrs.Zle

open Lib Parse.Ecstr

/-- The bytes of a line, before they are metafied. -/
def bytes (line : Line) : Bytes := line.flatMap char_bytes

def metafy (s : Bytes) : Bytes := s.flatMap pushByte

theorem bytes_append (l l' : Line) : bytes (l ++ l') = bytes l ++ bytes l' := List.flatMap_append

theorem metafy_append (s s' : Bytes) : metafy (s ++ s') = metafy s ++ metafy s' := List.flatMap_append

theorem bytes_take_drop (line : Line) (cs : Nat) :
    bytes line = bytes (line.take cs) ++ bytes (line.drop cs) := by
  rw [← bytes_append, List.take_append_drop]

theorem char_bytes_ne_nil (ch : Char) : char_bytes ch ≠ [] := by
  unfold char_bytes
  split
  · exact List.cons_ne_nil _ _
  · exact Utf8.encode_ne_nil ch

theorem length_le_bytes (line : Line) : line.length ≤ (bytes line).length := by
  induction line with
  | nil => exact Nat.le_refl 0
  | cons ch line ih =>
      have hpos := List.length_pos_of_ne_nil (char_bytes_ne_nil ch)
      have hlen : (bytes (ch :: line)).length = (char_bytes ch).length + (bytes line).length :=
        List.length_append
      rw [List.length_cons]
      omega

theorem length_metafy (s : Bytes) : (metafy s).length = s.length + s.countP imeta := by
  induction s with
  | nil => rfl
  | cons b s ih =>
      have hlen : (metafy (b :: s)).length = (pushByte b).length + (metafy s).length := List.length_append
      rw [hlen, ih, List.length_cons, List.countP_cons, pushByte]
      split
      · rw [List.length_cons, List.length_singleton]
        omega
      · rw [List.length_singleton]
        omega

theorem as_i32_of_lt {n : Int} (hlow : -2 ^ 31 ≤ n) (hhigh : n < 2 ^ 31) : as_i32 n = n :=
  Int.bmod_eq_of_le_mul_two (by omega) (by omega)

theorem as_i32_lt (n : Int) : as_i32 n < 2 ^ 31 := by
  have h := Int.bmod_lt (x := n) (m := 2 ^ 32) (by decide)
  exact h

theorem as_i32_as_i32_add (n m : Int) : as_i32 (as_i32 n + m) = as_i32 (n + m) := Int.bmod_add_bmod

theorem encode_loop_s (line : Line) (e : Encoded) :
    (line.foldl encode_step e).s = e.s ++ bytes line := by
  induction line generalizing e with
  | nil => exact (List.append_nil _).symm
  | cons ch line ih =>
      rw [List.foldl_cons, ih]
      exact List.append_assoc _ _ _

/-- The cursor is taken when the count reaches its char. -/
theorem encode_loop_cursor (line : Line) (e : Encoded) (hlow : -2 ^ 31 ≤ e.remaining - line.length)
    (hhigh : e.remaining < 2 ^ 31) :
    (line.foldl encode_step e).remaining = e.remaining - line.length ∧
    (e.remaining < 0 → (line.foldl encode_step e).outcs = e.outcs) ∧
    ∀ r : Nat, e.remaining = r → r < line.length →
      (line.foldl encode_step e).outcs = as_i32 (e.s.length + (bytes (line.take r)).length : Nat) := by
  induction line generalizing e with
  | nil =>
      refine ⟨(Int.sub_zero _).symm, fun _ => rfl, ?_⟩
      intro r _ hr
      exact absurd hr (Nat.not_lt_zero r)
  | cons ch line ih =>
      rw [List.length_cons] at hlow
      have hrem : (encode_step e ch).remaining = e.remaining - 1 :=
        as_i32_of_lt (by omega) (by omega)
      obtain ⟨hlen, hpast, hat⟩ := ih (encode_step e ch) (by rw [hrem]; omega) (by rw [hrem]; omega)
      rw [hrem] at hlen hpast hat
      rw [List.foldl_cons]
      refine ⟨by rw [hlen, List.length_cons]; omega, ?_, ?_⟩
      · intro hneg
        rw [hpast (by omega)]
        exact if_neg (by omega)
      · intro r hr hlt
        cases r with
        | zero =>
            rw [hpast (by omega)]
            exact if_pos hr
        | succ r =>
            rw [hat r (by omega) (Nat.lt_of_succ_lt_succ hlt)]
            have hs : (encode_step e ch).s = e.s ++ char_bytes ch := rfl
            have hb : bytes ((ch :: line).take (r + 1)) = char_bytes ch ++ bytes (line.take r) := rfl
            rw [hs, hb, List.length_append, List.length_append, Nat.add_assoc]

/-- Where the metafy loop moves a cursor, over the bytes from index `i`. -/
def bumped : Nat → Nat → Bytes → Nat
  | _, o, [] => o
  | i, o, b :: s => bumped (i + 1) (if imeta b ∧ i < o then o + 1 else o) s

theorem le_bumped (i o : Nat) (s : Bytes) : o ≤ bumped i o s := by
  induction s generalizing i o with
  | nil => exact Nat.le_refl o
  | cons b s ih =>
      refine Nat.le_trans ?_ (ih _ _)
      split
      · exact Nat.le_succ o
      · exact Nat.le_refl o

theorem bumped_append (i o : Nat) (s s' : Bytes) :
    bumped i o (s ++ s') = bumped (i + s.length) (bumped i o s) s' := by
  induction s generalizing i o with
  | nil => rfl
  | cons b s ih =>
      rw [List.cons_append, bumped, ih, bumped, List.length_cons, Nat.add_assoc, Nat.add_comm 1]

/-- Before the cursor every escaped byte counts. -/
theorem bumped_before {i o : Nat} {s : Bytes} (h : i + s.length ≤ o) :
    bumped i o s = o + s.countP imeta := by
  induction s generalizing i o with
  | nil => rfl
  | cons b s ih =>
      rw [List.length_cons] at h
      rw [bumped, List.countP_cons]
      by_cases hb : imeta b = true
      · rw [if_pos ⟨hb, by omega⟩, if_pos hb, ih (by omega)]
        omega
      · rw [if_neg (fun h => hb h.1), if_neg hb, ih (by omega), Nat.add_zero]

/-- From the cursor on, the first escaped byte below the moved bound moves it further. -/
theorem bumped_eq_iff (i o : Nat) (s : Bytes) :
    bumped i o s = o ↔ ∀ b ∈ s.take (o - i), imeta b = false := by
  induction s generalizing i with
  | nil => simp [bumped]
  | cons b s ih =>
      rw [bumped]
      by_cases hi : i < o
      · obtain ⟨d, hd⟩ : ∃ d, o - i = d + 1 := ⟨o - i - 1, by omega⟩
        rw [hd, List.take_succ_cons, List.forall_mem_cons]
        have hd' : d = o - (i + 1) := by omega
        by_cases hb : imeta b = true
        · rw [if_pos ⟨hb, hi⟩]
          have hle := le_bumped (i + 1) (o + 1) s
          constructor
          · intro heq
            omega
          · rintro ⟨hfalse, _⟩
            rw [hb] at hfalse
            cases hfalse
        · rw [if_neg (fun h => hb h.1), ih, hd']
          exact ⟨fun h => ⟨Bool.eq_false_iff.mpr hb, h⟩, fun h => h.2⟩
      · have hzero : o - i = 0 := by omega
        have hzero' : o - (i + 1) = 0 := by omega
        rw [if_neg (fun h => hi h.2), ih, hzero, hzero', List.take_zero, List.take_zero]

theorem metafy_step_s (m : Metafied) (b : UInt8 × Nat) : (metafy_step m b).s = m.s ++ pushByte b.1 := by
  unfold metafy_step pushByte
  split <;> rfl

theorem metafy_loop_s (s : Bytes) (i : Nat) (m : Metafied) :
    ((s.zipIdx i).foldl metafy_step m).s = m.s ++ metafy s := by
  induction s generalizing i m with
  | nil => exact (List.append_nil _).symm
  | cons b s ih =>
      rw [List.zipIdx_cons, List.foldl_cons, ih, metafy_step_s]
      exact List.append_assoc _ _ _

theorem metafy_loop_outll (s : Bytes) (i : Nat) (m : Metafied) (n : Int) (hm : m.outll = as_i32 n) :
    ((s.zipIdx i).foldl metafy_step m).outll = as_i32 (n + s.countP imeta) := by
  induction s generalizing i m n with
  | nil =>
      rw [List.countP_nil]
      exact hm.trans (congrArg as_i32 (Int.add_zero n).symm)
  | cons b s ih =>
      rw [List.zipIdx_cons, List.foldl_cons, List.countP_cons]
      by_cases hb : imeta b = true
      · have hstep : (metafy_step m (b, i)).outll = as_i32 (n + 1) := by
          rw [metafy_step, if_pos hb, hm]
          exact as_i32_as_i32_add n 1
        rw [ih _ _ _ hstep, if_pos hb]
        congr 1
        omega
      · have hstep : (metafy_step m (b, i)).outll = as_i32 n := by
          rw [metafy_step, if_neg hb]
          exact hm
        rw [ih _ _ _ hstep, if_neg hb, Nat.add_zero]

theorem metafy_loop_outcs (s : Bytes) (i : Nat) (m : Metafied) (o : Nat) (hm : m.outcs = o)
    (ho : o + s.countP imeta < 2 ^ 31) (hi : i + s.length ≤ 2 ^ 31) :
    ((s.zipIdx i).foldl metafy_step m).outcs = bumped i o s := by
  induction s generalizing i m o with
  | nil => exact hm
  | cons b s ih =>
      rw [List.length_cons] at hi
      rw [List.countP_cons] at ho
      rw [List.zipIdx_cons, List.foldl_cons, bumped]
      have hidx : as_i32 (i : Int) = i := as_i32_of_lt (by omega) (by omega)
      by_cases hb : imeta b = true
      · rw [if_pos hb] at ho
        by_cases hlt : i < o
        · rw [if_pos ⟨hb, hlt⟩]
          apply ih
          · rw [metafy_step, if_pos hb]
            have hcond : as_i32 (i : Int) < m.outcs := by
              rw [hidx, hm]
              exact Int.ofNat_lt.mpr hlt
            refine (if_pos hcond).trans ?_
            rw [hm, as_i32_of_lt (by omega) (by omega)]
            rfl
          · omega
          · omega
        · rw [if_neg (fun h => hlt h.2)]
          apply ih
          · rw [metafy_step, if_pos hb]
            have hcond : ¬ as_i32 (i : Int) < m.outcs := by
              rw [hidx, hm]
              exact fun h => hlt (Int.ofNat_lt.mp h)
            exact (if_neg hcond).trans hm
          · omega
          · omega
      · rw [if_neg hb] at ho
        rw [if_neg (fun h => hb h.1)]
        apply ih
        · rw [metafy_step, if_neg hb]
          exact hm
        · omega
        · omega

/-- The text is always the metafied line. -/
theorem zlelineasstring_s (line : Line) (incs : Int) :
    (zlelineasstring line line.length incs true).s = metafy (bytes line) := by
  simp only [zlelineasstring, if_true, List.take_length]
  rw [metafy_loop_s, encode_loop_s]
  rfl

theorem zlelineasstring_outll (line : Line) (incs : Int) :
    (zlelineasstring line line.length incs true).outll = as_i32 (metafy (bytes line)).length := by
  have hs : (line.foldl encode_step ⟨[], 0, incs⟩).s = bytes line := encode_loop_s line _
  simp only [zlelineasstring, if_true, List.take_length, hs]
  refine (metafy_loop_outll _ _ _ (bytes line).length ?_).trans ?_
  · dsimp only
  · rw [length_metafy, Int.natCast_add]

/-- The raw cursor, before the metafy loop. -/
theorem encoded_cursor {line : Line} {cs : Nat} (hcs : cs ≤ line.length)
    (hsize : (bytes line).length < 2 ^ 31) :
    (if (line.foldl encode_step ⟨[], 0, cs⟩).remaining = 0 then as_i32 (bytes line).length
      else (line.foldl encode_step ⟨[], 0, cs⟩).outcs) = (bytes (line.take cs)).length := by
  have hlen := length_le_bytes line
  obtain ⟨hrem, _, hat⟩ := encode_loop_cursor line ⟨[], 0, cs⟩
    (show -2 ^ 31 ≤ (cs : Int) - line.length by omega) (show (cs : Int) < 2 ^ 31 by omega)
  have hrem : (line.foldl encode_step ⟨[], 0, cs⟩).remaining = (cs : Int) - line.length := hrem
  have hsplit := congrArg List.length (bytes_take_drop line cs)
  rw [List.length_append] at hsplit
  by_cases hend : cs = line.length
  · subst hend
    rw [if_pos (by omega), List.take_length, as_i32_of_lt (by omega) (by omega)]
  · have hat : (line.foldl encode_step ⟨[], 0, cs⟩).outcs =
        as_i32 (0 + (bytes (line.take cs)).length : Nat) := hat cs rfl (by omega)
    rw [if_neg (by omega), hat, Nat.zero_add, as_i32_of_lt (by omega) (by omega)]

theorem zlelineasstring_outcs {line : Line} {cs : Nat} (hcs : cs ≤ line.length)
    (hsize : (metafy (bytes line)).length < 2 ^ 31) :
    (zlelineasstring line line.length cs true).outcs =
      bumped (bytes (line.take cs)).length (metafy (bytes (line.take cs))).length (bytes (line.drop cs)) := by
  rw [length_metafy] at hsize
  have hs : (line.foldl encode_step ⟨[], 0, cs⟩).s = bytes line := encode_loop_s line _
  have hcursor := encoded_cursor hcs (by omega)
  have hsplit := congrArg List.length (bytes_take_drop line cs)
  rw [List.length_append] at hsplit
  have hbefore : bumped 0 (bytes (line.take cs)).length (bytes (line.take cs)) =
      (metafy (bytes (line.take cs))).length := by
    rw [bumped_before (by omega), length_metafy]
  simp only [zlelineasstring, if_true, List.take_length, hs]
  rw [metafy_loop_outcs _ _ _ (bytes (line.take cs)).length hcursor (by omega) (by omega),
    bytes_take_drop line cs, bumped_append, hbefore, Nat.zero_add]

/-- No byte that needs an escape stands where the metafy loop still takes it for one before the cursor: in as
many bytes from the cursor on as need one before it. -/
def ClearAfter (line : Line) (cs : Nat) : Prop :=
  ∀ b ∈ (bytes (line.drop cs)).take ((bytes (line.take cs)).countP imeta), imeta b = false

theorem outcs_iff {line : Line} {cs : Nat} (hcs : cs ≤ line.length)
    (hsize : (metafy (bytes line)).length < 2 ^ 31) :
    (zlelineasstring line line.length cs true).outcs = (metafy (bytes (line.take cs))).length ↔
      ClearAfter line cs := by
  have hdiff : (metafy (bytes (line.take cs))).length - (bytes (line.take cs)).length =
      (bytes (line.take cs)).countP imeta := by
    rw [length_metafy, Nat.add_sub_cancel_left]
  rw [zlelineasstring_outcs hcs hsize, Int.ofNat_inj, bumped_eq_iff, hdiff]
  rfl

end Zshrs.Zle
