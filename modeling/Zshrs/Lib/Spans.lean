import Mathlib.Data.List.Basic

namespace Zshrs.Lib

variable {α : Type}

/-- A stretch of a list. -/
structure Span (s : List α) where
  start : Nat
  stop : Nat
  start_le : start ≤ stop
  stop_le : stop ≤ s.length

namespace Span

variable {s : List α} {a : α}

def before (x : Span s) : List α := s.take x.start

def text (x : Span s) : List α := (s.take x.stop).drop x.start

def after (x : Span s) : List α := s.drop x.stop

theorem join (x : Span s) : x.before ++ x.text ++ x.after = s := by
  have hbefore : x.before = (s.take x.stop).take x.start := by
    rw [List.take_take, Nat.min_eq_left x.start_le, before]
  rw [hbefore, text, List.take_append_drop, after, List.take_append_drop]

theorem length_text (x : Span s) : x.text.length = x.stop - x.start := by
  rw [text, List.length_drop, List.length_take, Nat.min_eq_left x.stop_le]

theorem text_ne_nil (x : Span s) : x.text ≠ [] ↔ x.start < x.stop := by
  rw [← List.length_pos_iff, length_text]
  exact Nat.sub_pos_iff_lt

def bounds (x : Span s) : Nat × Nat := (x.start, x.stop)

theorem exists_bounds {P : Nat → Nat → Prop} {m : Nat × Nat} :
    (∃ x : Span s, P x.start x.stop ∧ x.bounds = m) ↔ m.1 ≤ m.2 ∧ m.2 ≤ s.length ∧ P m.1 m.2 := by
  constructor
  · rintro ⟨x, hx, rfl⟩
    exact ⟨x.start_le, x.stop_le, hx⟩
  · rintro ⟨hle, hlen, hm⟩
    exact ⟨⟨m.1, m.2, hle, hlen⟩, hm, rfl⟩

variable (s) in
def whole : Span s := ⟨0, s.length, Nat.zero_le _, Nat.le_refl _⟩

@[simp] theorem before_whole : (whole s).before = [] := rfl

@[simp] theorem text_whole : (whole s).text = s := List.take_length

@[simp] theorem after_whole : (whole s).after = [] := List.drop_length

theorem eq_whole {x : Span s} (hstart : x.start = 0) (hstop : x.stop = s.length) : x = whole s := by
  cases x
  cases hstart
  cases hstop
  rfl

/-- The same stretch behind one more element. -/
def shift (a : α) (x : Span s) : Span (a :: s) :=
  ⟨x.start + 1, x.stop + 1, Nat.succ_le_succ x.start_le, Nat.succ_le_succ x.stop_le⟩

@[simp] theorem before_shift (x : Span s) : (x.shift a).before = a :: x.before := rfl

@[simp] theorem text_shift (x : Span s) : (x.shift a).text = x.text := rfl

@[simp] theorem after_shift (x : Span s) : (x.shift a).after = x.after := rfl

theorem start_zero_or_shift (x : Span (a :: s)) : x.start = 0 ∨ ∃ y : Span s, x = y.shift a := by
  obtain ⟨start, stop, hstart, hstop⟩ := x
  cases start with
  | zero => exact .inl rfl
  | succ start =>
      cases stop with
      | zero => exact absurd hstart (Nat.not_succ_le_zero start)
      | succ stop => exact .inr ⟨⟨start, stop, Nat.le_of_succ_le_succ hstart, Nat.le_of_succ_le_succ hstop⟩, rfl⟩

end Span

/-- What a search through a list in order of preference finds is preferred to all else that would do. -/
theorem find_preferred {R : α → α → Prop} {p : α → Bool} {l : List α} (hl : l.Pairwise R) {x : α}
    (h : l.find? p = some x) {y : α} (hy : y ∈ l) (hpy : p y = true) : y = x ∨ R x y := by
  obtain ⟨-, front, back, rfl, hfront⟩ := List.find?_eq_some_iff_append.mp h
  obtain hy | hy := List.mem_append.mp hy
  · have hnot := hfront y hy
    rw [hpy] at hnot
    cases hnot
  · obtain rfl | hy := List.mem_cons.mp hy
    · exact .inl rfl
    · exact .inr (List.rel_of_pairwise_cons (List.pairwise_append.mp hl).2.1 hy)

end Zshrs.Lib
