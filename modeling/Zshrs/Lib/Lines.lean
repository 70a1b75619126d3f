import Mathlib.Data.List.Basic

namespace Zshrs.Lib.Lines

variable {α : Type} [DecidableEq α]

/-- The pieces of a list that a terminator ends. The last piece may lack it. -/
def lines (nl : α) : List α → List (List α)
  | [] => []
  | b :: rest =>
      if b = nl then [] :: lines nl rest
      else
        match lines nl rest with
        | [] => [[b]]
        | l :: ls => (b :: l) :: ls

/-- Nothing, or up to a terminator. -/
def Ended (nl : α) (s : List α) : Prop := s = [] ∨ s.getLast? = some nl

theorem lines_ne_nil (nl : α) {s : List α} (h : s ≠ []) : lines nl s ≠ [] := by
  cases s with
  | nil => exact absurd rfl h
  | cons b rest =>
      rw [lines]
      split
      · exact List.cons_ne_nil _ _
      · split <;> exact List.cons_ne_nil _ _

/-- A text may be cut after a terminator. -/
theorem lines_append {nl : α} {s t : List α} (h : Ended nl s) : lines nl (s ++ t) = lines nl s ++ lines nl t := by
  induction s with
  | nil => rfl
  | cons b rest ih =>
      rw [List.cons_append, lines, lines]
      have hlast : (b :: rest).getLast? = some nl := h.resolve_left (List.cons_ne_nil b rest)
      by_cases hb : b = nl
      · have hrest : Ended nl rest := by
          cases rest with
          | nil => exact .inl rfl
          | cons c rest => exact .inr (by rwa [List.getLast?_cons_cons] at hlast)
        rw [if_pos hb, if_pos hb, ih hrest, List.cons_append]
      · cases rest with
        | nil =>
            rw [List.getLast?_singleton] at hlast
            exact absurd (Option.some.inj hlast) hb
        | cons c rest =>
            rw [if_neg hb, if_neg hb, ih (.inr (by rwa [List.getLast?_cons_cons] at hlast))]
            obtain ⟨l, ls, hl⟩ := List.exists_cons_of_ne_nil (lines_ne_nil nl (List.cons_ne_nil c rest))
            rw [hl]
            rfl

/-- The piece in front of the first terminator. -/
theorem lines_terminated {nl : α} {l rest : List α} (h : nl ∉ l) :
    lines nl (l ++ nl :: rest) = l :: lines nl rest := by
  induction l with
  | nil => rw [List.nil_append, lines, if_pos rfl]
  | cons b l ih =>
      obtain ⟨hb, hl⟩ := not_or.mp (mt List.mem_cons.mpr h)
      rw [List.cons_append, lines, if_neg (Ne.symm hb), ih hl]

theorem lines_unterminated {nl : α} {l : List α} (h : nl ∉ l) (hne : l ≠ []) : lines nl l = [l] := by
  induction l with
  | nil => exact absurd rfl hne
  | cons b l ih =>
      obtain ⟨hb, hl⟩ := not_or.mp (mt List.mem_cons.mpr h)
      rw [lines, if_neg (Ne.symm hb)]
      cases l with
      | nil => rfl
      | cons c l => rw [ih hl (List.cons_ne_nil c l)]

end Zshrs.Lib.Lines
