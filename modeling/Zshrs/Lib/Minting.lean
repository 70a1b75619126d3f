import Zshrs.Lib.OrdMap
import Zshrs.Lib.Runs
import Mathlib.Data.Nat.Basic
import Mathlib.Algebra.Group.Nat.Defs

namespace Zshrs.Lib.Minting

open Runs

variable {σ ε α : Type}

/-- A `u64` counter of ids, moved past the id it gave out. It wraps. -/
def bump (n : Nat) : Nat := (n + 1) % 2 ^ 64

/-- Ids are given out from 1; a counter at 0 has wrapped. -/
structure FreshIds (m : OrdMap Nat α) (n : Nat) : Prop where
  lt : n < 2 ^ 64
  below : ∀ id, m.get? id ≠ none → n = 0 ∨ id < n

/-- A step that adds at most the counter's id to a table, and then moves the counter. -/
structure Minted (m : OrdMap Nat α) (n : Nat) (m' : OrdMap Nat α) (n' : Nat) : Prop where
  counter : n' = n ∨ n ≠ 0 ∧ n' = bump n
  added : ∀ id, m.get? id = none → m'.get? id ≠ none → id = n ∧ n ≠ 0 ∧ n' = bump n

theorem FreshIds.unused {m : OrdMap Nat α} {n : Nat} (h : FreshIds m n) (hn : n ≠ 0) :
    m.get? n = none := by
  by_contra hne
  rcases h.below n hne with h0 | hlt <;> omega

theorem minted_keep {m m' : OrdMap Nat α} (n : Nat)
    (h : ∀ id, m.get? id = none → m'.get? id = none) : Minted m n m' n :=
  ⟨Or.inl rfl, fun id hnone hsome => absurd (h id hnone) hsome⟩

theorem minted_insert (m : OrdMap Nat α) {n : Nat} (hn : n ≠ 0) (value : α) :
    Minted m n (m.insert n value) (bump n) := by
  refine ⟨Or.inr ⟨hn, rfl⟩, ?_⟩
  intro id hnone hsome
  rw [OrdMap.get?_insert] at hsome
  split at hsome
  · rename_i hid
    exact ⟨hid, hn, rfl⟩
  · exact absurd hnone hsome

theorem FreshIds.step {m m' : OrdMap Nat α} {n n' : Nat} (h : FreshIds m n)
    (hm : Minted m n m' n') : FreshIds m' n' := by
  have hlt := h.lt
  have hn' : n' = n ∨ n ≠ 0 ∧ (n' = 0 ∨ n' = n + 1) := by
    rcases hm.counter with rfl | ⟨hn, rfl⟩
    · exact Or.inl rfl
    · refine Or.inr ⟨hn, ?_⟩
      simp only [bump]
      omega
  refine ⟨?_, ?_⟩
  · rcases hm.counter with rfl | ⟨_, rfl⟩
    · exact hlt
    · exact Nat.mod_lt _ (by omega)
  · intro id hid
    by_cases hold : m.get? id = none
    · obtain ⟨rfl, hn, rfl⟩ := hm.added id hold hid
      simp only [bump]
      omega
    · rcases h.below id hold with h0 | hlt <;> omega

/-- An id that enters the table was never in it before. -/
def NeverReused (step : σ → ε → σ) (table : σ → OrdMap Nat α) (s : σ) (es : List ε) : Prop :=
  ∀ before e after, es = before ++ e :: after → ∀ id,
    (table (run step s before)).get? id = none →
    (table (run step s (before ++ [e]))).get? id ≠ none →
    ∀ earlier, earlier <+: before → (table (run step s earlier)).get? id = none

theorem Minted.later {m m' : OrdMap Nat α} {n n' : Nat} (hm : Minted m n m' n') (hlt : n < 2 ^ 64)
    (hn : n' ≠ 0) : n ≠ 0 ∧ n ≤ n' := by
  rcases hm.counter with rfl | ⟨hn', rfl⟩
  · exact ⟨hn, Nat.le_refl _⟩
  · simp only [bump] at hn ⊢
    omega

section Run

variable {step : σ → ε → σ} {P : σ → ε → Prop} {table : σ → OrdMap Nat α} {next : σ → Nat}

theorem freshIds_run
    (hstep : ∀ s e, P s e → Minted (table s) (next s) (table (step s e)) (next (step s e)))
    {s : σ} {es : List ε} (hp : Along step P s es) (hs : FreshIds (table s) (next s)) :
    FreshIds (table (run step s es)) (next (run step s es)) :=
  Along.invariant (I := fun s => FreshIds (table s) (next s))
    (fun s e hPe hI => hI.step (hstep s e hPe)) hp hs

/-- A counter that has not wrapped by the end of a run only grew. -/
theorem later_run
    (hstep : ∀ s e, P s e → Minted (table s) (next s) (table (step s e)) (next (step s e)))
    {s : σ} {es : List ε} (hp : Along step P s es) (hs : FreshIds (table s) (next s))
    (hn : next (run step s es) ≠ 0) : next s ≠ 0 ∧ next s ≤ next (run step s es) := by
  induction es generalizing s with
  | nil => exact ⟨hn, Nat.le_refl _⟩
  | cons e es ih =>
      have hm := hstep s e hp.1
      obtain ⟨hne, hle⟩ := ih hp.2 (hs.step hm) hn
      obtain ⟨hne', hle'⟩ := hm.later hs.lt hne
      exact ⟨hne', Nat.le_trans hle' hle⟩

theorem neverReused
    (hstep : ∀ s e, P s e → Minted (table s) (next s) (table (step s e)) (next (step s e)))
    {s : σ} {es : List ε} (hp : Along step P s es) (hs : FreshIds (table s) (next s)) :
    NeverReused step table s es := by
  rintro before e after rfl id hnone hsome earlier ⟨rest, rfl⟩
  rw [run_append] at hsome
  obtain ⟨hbefore, hafter⟩ := along_append.mp hp
  obtain ⟨hearlier, hrest⟩ := along_append.mp hbefore
  obtain ⟨rfl, hn, _⟩ := (hstep _ e hafter.1).added id hnone hsome
  rw [run_append] at hn
  have hfresh := freshIds_run hstep hearlier hs
  obtain ⟨hn', hle⟩ := later_run hstep hrest hfresh hn
  by_contra hin
  rw [run_append] at hin
  rcases hfresh.below _ hin with h0 | hlt <;> omega

end Run

end Zshrs.Lib.Minting
