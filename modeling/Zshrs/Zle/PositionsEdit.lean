import Zshrs.Zle.PositionsKept
import Mathlib.Data.List.Induction

namespace Zshrs.Zle.Positions

open Lib Runs

theorem eraseIdx_mid (pre suf : Line) (c : Char) : (pre ++ c :: suf).eraseIdx pre.length = pre ++ suf := by
  induction pre with
  | nil => rfl
  | cons d pre ih => exact congrArg (List.cons d) ih

theorem vec_remove_mid (pre suf : Line) (c : Char) :
    vec_remove (pre ++ c :: suf) pre.length = some (pre ++ suf) := by
  have hlt : pre.length < (pre ++ c :: suf).length := by
    rw [List.length_append, List.length_cons]
    omega
  rw [vec_remove, if_pos hlt, eraseIdx_mid]

section

variable {start : Line} {s t : ZleState} {n len : Nat}

theorem insert_chars_eq {pre suf : Line} (text : List Char) (hline : s.zleline = pre ++ suf)
    (hcs : s.zlecs = pre.length) :
    insert_chars text s =
      some
        { s with
          zleline := pre ++ text ++ suf
          zlecs := pre.length + text.length
          zlell := s.zlell + text.length } := by
  induction text generalizing s pre with
  | nil =>
      rw [insert_chars, List.append_nil, ← hline, List.length_nil, Nat.add_zero, Nat.add_zero, ← hcs]
  | cons c text ih =>
      have hle : pre.length ≤ (pre ++ suf).length := by
        rw [List.length_append]
        omega
      have hnext : pre ++ c :: suf = (pre ++ [c]) ++ suf := by
        rw [List.append_assoc, List.singleton_append]
      have hlen : pre.length + 1 = (pre ++ [c]).length := by
        rw [List.length_append, List.length_singleton]
      rw [insert_chars, hline, hcs, vec_insert_eq hle, List.take_left, List.drop_left, Option.bind_eq_bind,
        Option.bind_some, ih hnext hlen]
      dsimp only
      rw [← hlen, List.length_cons, List.append_assoc pre [c] text, List.singleton_append, Nat.add_assoc,
        Nat.add_assoc, Nat.add_comm 1]

theorem insert_chars_sane (h : Sane start s) (text : List Char)
    (hroom : s.zleline.length + text.length < 2 ^ 31) :
    ∃ t, insert_chars text s = some t ∧ Sane start t := by
  have hcs := h.zlecs
  have hsplit : s.zleline = s.zleline.take s.zlecs ++ s.zleline.drop s.zlecs := (List.take_append_drop _ _).symm
  have hpre : s.zlecs = (s.zleline.take s.zlecs).length := (List.length_take_of_le hcs).symm
  have hlen : (s.zleline.take s.zlecs ++ text ++ s.zleline.drop s.zlecs).length =
      s.zleline.length + text.length := by
    rw [List.length_append, List.length_append, List.length_drop, ← hpre]
    omega
  refine ⟨_, insert_chars_eq text hsplit hpre, ?_⟩
  rw [← hpre]
  apply h.edit (s.zleline.take s.zlecs ++ text ++ s.zleline.drop s.zlecs) (s.zlecs + text.length)
  · omega
  · omega
  · rw [hlen, h.zlell]
  · rw [hlen]
    exact Fits.mono h.fits (Nat.le_add_right _ _)

/-- The loop of `delete_chars` drops what follows the cursor. -/
theorem delete_loop_eq {pre del suf : Line} (hline : s.zleline = pre ++ (del ++ suf))
    (hcs : s.zlecs = pre.length) (hll : s.zlell = s.zleline.length) :
    delete_loop del.length s = some { s with zleline := pre ++ suf, zlell := (pre ++ suf).length } := by
  induction del generalizing s with
  | nil =>
      rw [List.nil_append] at hline
      rw [List.length_nil, delete_loop, ← hline, ← hll]
  | cons c del ih =>
      have hlt : s.zlecs < s.zlell := by
        rw [hll, hline, hcs]
        simp only [List.length_append, List.length_cons]
        omega
      have hlen : s.zlell - 1 = (pre ++ (del ++ suf)).length := by
        rw [hll, hline]
        simp only [List.length_append, List.length_cons]
        omega
      rw [List.length_cons, delete_loop, if_pos hlt, hline, hcs, List.cons_append, vec_remove_mid,
        Option.bind_eq_bind, Option.bind_some, hlen]
      exact ih rfl rfl rfl

theorem delete_chars_sane (h : Sane start s) (hfits : Fits s (s.zlell - min n (s.zlell - s.zlecs))) :
    ∃ t, delete_chars n s = some t ∧ Sane start t := by
  have hcs := h.zlecs
  have hll := h.zlell
  have hshort := h.history.short
  rw [delete_chars]
  generalize hm : min n (s.zlell - s.zlecs) = m at hfits ⊢
  have hpre : s.zlecs = (s.zleline.take s.zlecs).length := (List.length_take_of_le hcs).symm
  have hdel : ((s.zleline.drop s.zlecs).take m).length = m := by
    rw [List.length_take, List.length_drop]
    omega
  have hline : s.zleline = s.zleline.take s.zlecs ++
      ((s.zleline.drop s.zlecs).take m ++ (s.zleline.drop s.zlecs).drop m) := by
    rw [List.take_append_drop, List.take_append_drop]
  have hlen : (s.zleline.take s.zlecs ++ (s.zleline.drop s.zlecs).drop m).length = s.zlell - m := by
    rw [List.length_append, List.length_drop, List.length_drop, ← hpre]
    omega
  have hloop := delete_loop_eq hline hpre hll
  rw [hdel] at hloop
  refine ⟨_, hloop, ?_⟩
  apply h.edit (s.zleline.take s.zlecs ++ (s.zleline.drop s.zlecs).drop m) s.zlecs
  · omega
  · omega
  · rfl
  · rw [hlen]
    exact hfits

/-- The loop of `backspace_chars` drops what precedes the cursor. -/
theorem backspace_loop_eq {pre del suf : Line} (hline : s.zleline = pre ++ del ++ suf)
    (hcs : s.zlecs = (pre ++ del).length) (hll : s.zlell = s.zleline.length) :
    backspace_loop del.length s =
      some { s with zleline := pre ++ suf, zlecs := pre.length, zlell := (pre ++ suf).length } := by
  induction del using List.reverseRecOn generalizing s suf with
  | nil =>
      rw [List.append_nil] at hline hcs
      rw [List.length_nil, backspace_loop, ← hline, ← hcs, ← hll]
  | append_singleton del c ih =>
      rw [← List.append_assoc] at hline hcs
      have hend : (pre ++ del ++ [c]).length = (pre ++ del).length + 1 := List.length_append
      have hprev : s.zlecs - 1 = (pre ++ del).length := by
        rw [hcs, hend, Nat.add_sub_cancel]
      have hpos : 0 < s.zlecs := by
        rw [hcs, hend]
        omega
      have hline' : s.zleline = (pre ++ del) ++ c :: suf := by
        rw [hline, List.append_assoc (pre ++ del), List.singleton_append]
      have hlen : s.zlell - 1 = (pre ++ del ++ suf).length := by
        rw [hll, hline']
        simp only [List.length_append, List.length_cons]
        omega
      rw [List.length_append, List.length_singleton, backspace_loop, if_pos hpos, hprev, hline', vec_remove_mid,
        Option.bind_eq_bind, Option.bind_some, hlen]
      exact ih rfl rfl rfl

theorem backspace_chars_sane (h : Sane start s) (hfits : Fits s (s.zlell - min n s.zlecs)) :
    ∃ t, backspace_chars n s = some t ∧ Sane start t := by
  have hcs := h.zlecs
  have hll := h.zlell
  have hshort := h.history.short
  rw [backspace_chars]
  generalize hm : min n s.zlecs = m at hfits ⊢
  have hpre : ((s.zleline.take s.zlecs).take (s.zlecs - m)).length = s.zlecs - m := by
    rw [List.length_take, List.length_take]
    omega
  have hdel : ((s.zleline.take s.zlecs).drop (s.zlecs - m)).length = m := by
    rw [List.length_drop, List.length_take]
    omega
  have hline : s.zleline = (s.zleline.take s.zlecs).take (s.zlecs - m) ++
      (s.zleline.take s.zlecs).drop (s.zlecs - m) ++ s.zleline.drop s.zlecs := by
    rw [List.take_append_drop, List.take_append_drop]
  have hcut : s.zlecs = ((s.zleline.take s.zlecs).take (s.zlecs - m) ++
      (s.zleline.take s.zlecs).drop (s.zlecs - m)).length := by
    rw [List.take_append_drop, List.length_take_of_le hcs]
  have hlen : ((s.zleline.take s.zlecs).take (s.zlecs - m) ++ s.zleline.drop s.zlecs).length =
      s.zlell - m := by
    rw [List.length_append, hpre, List.length_drop]
    omega
  have hloop := backspace_loop_eq hline hcut hll
  rw [hdel] at hloop
  refine ⟨_, hloop, ?_⟩
  rw [hpre]
  apply h.edit ((s.zleline.take s.zlecs).take (s.zlecs - m) ++ s.zleline.drop s.zlecs) (s.zlecs - m)
  · omega
  · omega
  · rfl
  · rw [hlen]
    exact hfits

theorem set_line_keep_cursor_sane (h : Sane start s) {text : List Char} (hroom : text.length < 2 ^ 31)
    (hfits : Fits s text.length) : Sane start (set_line_keep_cursor text s) :=
  h.edit _ _ hroom (Nat.min_le_right _ _) rfl hfits

theorem clear_line_sane (h : Sane start s) (hunder : Under s 0) : Sane start (clear_line s) :=
  have hshort : ([] : Line).length < 2 ^ 31 := Nat.two_pow_pos 31
  h.edit _ _ hshort (Nat.le_refl 0) rfl ⟨Nat.le_refl 0, hunder⟩

end

end Zshrs.Zle.Positions
