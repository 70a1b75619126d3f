import Mathlib.Data.List.Basic
import Zshrs.Lib.Comparators

namespace Zshrs.Lib

/-- How a thing is read mark by mark. What is left of it gets smaller, up to its end. -/
structure Reader (α μ : Type) where
  ended : α → Bool
  mark : α → μ
  rest : α → α
  size : α → Nat
  size_rest : ∀ a, ended a = false → size (rest a) < size a

namespace Reader

variable {α μ : Type} (R : Reader α μ)

/-- The marks of a thing, with the one at its end. -/
def marks (a : α) : List μ :=
  if _h : R.ended a = true then [R.mark a] else R.mark a :: marks (R.rest a)
termination_by R.size a
decreasing_by exact R.size_rest a (Bool.not_eq_true _ ▸ _h)

theorem marks_ended {a : α} (h : R.ended a = true) : R.marks a = [R.mark a] := by
  rw [marks, dif_pos h]

theorem marks_reads {a : α} (h : R.ended a = false) : R.marks a = R.mark a :: R.marks (R.rest a) := by
  rw [marks, dif_neg (by rw [h]; exact Bool.false_ne_true)]

theorem exists_marks (a : α) : ∃ ms, R.marks a = R.mark a :: ms := by
  cases h : R.ended a with
  | true => exact ⟨[], R.marks_ended h⟩
  | false => exact ⟨_, R.marks_reads h⟩

/-- A comparison that goes over two things mark by mark, up to the first marks that differ. -/
structure Compares (P : α → Prop) (E : μ → μ → Ordering) (F : α → α → Ordering) : Prop where
  refl : ∀ m, E m m = .eq
  keep : ∀ a, P a → R.ended a = false → P (R.rest a)
  ends : ∀ a b, P a → P b → E (R.mark a) (R.mark b) = .eq → R.ended a = R.ended b
  done : ∀ a b, P a → P b → E (R.mark a) (R.mark b) = .eq → R.ended a = true → F a b = .eq
  differ : ∀ a b, P a → P b → E (R.mark a) (R.mark b) ≠ .eq → F a b = E (R.mark a) (R.mark b)
  same : ∀ a b, P a → P b → E (R.mark a) (R.mark b) = .eq → R.ended a = false →
    F a b = F (R.rest a) (R.rest b)

namespace Compares

variable {R} {P : α → Prop} {E : μ → μ → Ordering} {F : α → α → Ordering} {a b : α}

theorem eq_marks (h : R.Compares P E F) (ha : P a) (hb : P b) :
    F a b = List.compareLex E (R.marks a) (R.marks b) := by
  induction hn : R.size a using Nat.strongRecOn generalizing a b with
  | _ n ih =>
    by_cases he : E (R.mark a) (R.mark b) = .eq
    · have ends := h.ends a b ha hb he
      cases hend : R.ended a with
      | true =>
        rw [R.marks_ended hend, R.marks_ended (ends ▸ hend), List.compareLex_cons_cons, he]
        exact h.done a b ha hb he hend
      | false =>
        have hend' : R.ended b = false := ends ▸ hend
        rw [R.marks_reads hend, R.marks_reads hend', List.compareLex_cons_cons, he, h.same a b ha hb he hend]
        exact ih _ (hn ▸ R.size_rest a hend) (h.keep a ha hend) (h.keep b hb hend') rfl
    · obtain ⟨ms, hms⟩ := R.exists_marks a
      obtain ⟨ns, hns⟩ := R.exists_marks b
      rw [hms, hns, List.compareLex_cons_cons, h.differ a b ha hb he]
      cases hc : E (R.mark a) (R.mark b) with
      | eq => exact absurd hc he
      | lt => rfl
      | gt => rfl

/-- Where marks and what is left tell things apart, so does the comparison. -/
theorem eq_of_eq (h : R.Compares P E F)
    (tell : ∀ a b, P a → P b → E (R.mark a) (R.mark b) = .eq →
      R.ended a = true ∨ R.rest a = R.rest b → a = b) (ha : P a) (hb : P b) (hab : F a b = .eq) : a = b := by
  induction hn : R.size a using Nat.strongRecOn generalizing a b with
  | _ n ih =>
    have he : E (R.mark a) (R.mark b) = .eq := by
      by_contra hne
      exact hne ((h.differ a b ha hb hne).symm.trans hab)
    apply tell a b ha hb he
    cases hend : R.ended a with
    | true => exact .inl rfl
    | false =>
      rw [h.same a b ha hb he hend] at hab
      have hend' : R.ended b = false := h.ends a b ha hb he ▸ hend
      exact .inr (ih _ (hn ▸ R.size_rest a hend) (h.keep a ha hend) (h.keep b hb hend') hab rfl)

end Compares

end Reader

end Zshrs.Lib
