import Mathlib.Order.Basic

namespace Zshrs.Lib.Fuel

variable {ε σ α β : Type} (size : σ → Nat) (out : ε)

/-- From `s` a computation does not run out, and what it leaves is no larger. -/
def Settles (m : EStateM ε σ α) (s : σ) : Prop :=
  match m s with
  | .ok _ t => size t ≤ size s
  | .error e _ => e ≠ out

variable {size out} {s : σ}

theorem Settles.ne {m : EStateM ε σ α} {e : ε} {t : σ} (h : Settles size out m s) (he : m s = .error e t) :
    e ≠ out := by
  rw [Settles, he] at h
  exact h

theorem settles_pure (a : α) : Settles size out (pure a) s := Nat.le_refl _

theorem settles_throw {e : ε} (h : e ≠ out) : Settles size out (throw e : EStateM ε σ α) s := h

theorem settles_modify {f : σ → σ} (h : size (f s) ≤ size s) : Settles size out (modify f) s := h

theorem bind_ok {m : EStateM ε σ α} {f : α → EStateM ε σ β} {a : α} {t : σ} (h : m s = .ok a t) :
    (m >>= f) s = f a t := by
  change EStateM.bind m f s = f a t
  rw [EStateM.bind, h]

/-- What comes second starts from a state that is no larger. -/
theorem Settles.bind {m : EStateM ε σ α} {f : α → EStateM ε σ β} (hm : Settles size out m s)
    (hf : ∀ a t, size t ≤ size s → Settles size out (f a) t) : Settles size out (m >>= f) s := by
  change Settles size out (EStateM.bind m f) s
  unfold Settles EStateM.bind
  unfold Settles at hm
  cases hms : m s with
  | ok a t =>
      rw [hms] at hm
      have hfa := hf a t hm
      unfold Settles at hfa
      dsimp only
      cases hft : f a t with
      | ok b u =>
          rw [hft] at hfa
          exact Nat.le_trans hfa hm
      | error e u =>
          rw [hft] at hfa
          exact hfa
  | error e t =>
      rw [hms] at hm
      exact hm

theorem Settles.ite {P : Prop} [Decidable P] {m m' : EStateM ε σ α} (h : P → Settles size out m s)
    (h' : ¬ P → Settles size out m' s) : Settles size out (if P then m else m') s := by
  by_cases hp : P
  · rw [if_pos hp]
    exact h hp
  · rw [if_neg hp]
    exact h' hp

/-- The state goes down to `t` first. -/
theorem Settles.of_step {m m' : EStateM ε σ α} {t : σ} (hstep : m s = m' t) (hle : size t ≤ size s)
    (h : Settles size out m' t) : Settles size out m s := by
  unfold Settles at h ⊢
  rw [hstep]
  cases hm : m' t with
  | ok a u =>
      rw [hm] at h
      exact Nat.le_trans h hle
  | error e u =>
      rw [hm] at h
      exact h

end Zshrs.Lib.Fuel
