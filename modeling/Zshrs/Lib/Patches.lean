import Mathlib.Data.List.Basic
import Mathlib.Data.List.TakeDrop

namespace Zshrs.Lib.Patches

variable {π σ : Type} (act back : π → σ → σ)

/-- The state that a list of patches leads to. -/
def replay (x : σ) (ps : List π) : σ := ps.foldl (fun x p => act p x) x

/-- Every patch of the list is taken back where it was made. -/
def Sound : σ → List π → Prop
  | _, [] => True
  | x, p :: ps => back p (act p x) = x ∧ Sound (act p x) ps

variable {act back} {x : σ} {p : π} {ps qs : List π} {i : Nat}

theorem replay_append : replay act x (ps ++ qs) = replay act (replay act x ps) qs := List.foldl_append

theorem sound_append : Sound act back x (ps ++ qs) ↔
    Sound act back x ps ∧ Sound act back (replay act x ps) qs := by
  induction ps generalizing x with
  | nil => exact (true_and _).symm.to_iff
  | cons p ps ih =>
      rw [List.cons_append]
      exact (and_congr_right fun _ => ih).trans and_assoc.symm

theorem Sound.take (h : Sound act back x ps) (i : Nat) : Sound act back x (ps.take i) := by
  rw [← List.take_append_drop i ps, sound_append] at h
  exact h.1

theorem Sound.push (h : Sound act back x ps) (hp : back p (act p (replay act x ps)) = replay act x ps) :
    Sound act back x (ps ++ [p]) := sound_append.mpr ⟨h, hp, trivial⟩

theorem replay_push : replay act x (ps ++ [p]) = act p (replay act x ps) := replay_append

theorem replay_take_succ (h : ps[i]? = some p) :
    replay act x (ps.take (i + 1)) = act p (replay act x (ps.take i)) := by
  rw [List.take_add_one, h]
  exact replay_push

theorem Sound.back_take (h : Sound act back x ps) (hp : ps[i]? = some p) :
    back p (replay act x (ps.take (i + 1))) = replay act x (ps.take i) := by
  have hsound := h.take (i + 1)
  rw [List.take_add_one, hp, Option.toList_some, sound_append] at hsound
  rw [replay_take_succ hp]
  exact hsound.2.1

section

variable {τ : Type} {f : π → τ} {act' back' : τ → σ → σ} (hact : ∀ p, act p = act' (f p))
  (hback : ∀ p, back p = back' (f p))

include hact

/-- A replay is decided by the part of each patch that its action reads. -/
theorem replay_map (x : σ) (ps : List π) : replay act x ps = replay act' x (ps.map f) := by
  induction ps generalizing x with
  | nil => rfl
  | cons p ps ih =>
      rw [List.map_cons]
      refine (ih (act p x)).trans ?_
      rw [hact]
      rfl

include hback

theorem sound_map (x : σ) (ps : List π) : Sound act back x ps ↔ Sound act' back' x (ps.map f) := by
  induction ps generalizing x with
  | nil => exact Iff.rfl
  | cons p ps ih =>
      rw [List.map_cons, Sound, Sound, ih, hact, hback]

end

end Zshrs.Lib.Patches
