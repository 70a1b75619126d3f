import Mathlib.Data.List.Basic

namespace Zshrs.Lib.Lockstep

/-- A state records a log of effects and a list of marks. -/
structure Recorder (σ ε μ : Type) where
  log : σ → List ε
  marks : σ → List μ

variable {σ τ ε μ : Type}

/-- Both records are only appended to. -/
structure Grows (R : Recorder σ ε μ) (Q : Recorder τ ε μ) (s : σ) (t : τ) : Prop where
  log : R.log s <+: Q.log t
  marks : R.marks s <+: Q.marks t

theorem Grows.refl (R : Recorder σ ε μ) (s : σ) : Grows R R s s :=
  ⟨List.prefix_rfl, List.prefix_rfl⟩

theorem Grows.trans {υ : Type} {R : Recorder σ ε μ} {Q : Recorder τ ε μ} {P : Recorder υ ε μ}
    {s : σ} {t : τ} {u : υ} (h : Grows R Q s t) (k : Grows Q P t u) : Grows R P s u :=
  ⟨h.log.trans k.log, h.marks.trans k.marks⟩

/-- A run and its muted twin, from a log `l` and marks `ms`: they are still the same state and all
marks are silent, or the run has had an effect and the twin has met a mark that is not. -/
inductive Agree (R : Recorder σ ε μ) (Silent : μ → Prop) (l : List ε) (ms : List μ) (r g : σ) : Prop
  | together (new : List μ) (same : r = g) (quiet : R.log g = l) (marked : R.marks g = ms ++ new)
      (silent : ∀ m ∈ new, Silent m)
  | parted (new : List μ) (grown : l <+: R.log r) (loud : R.log r ≠ l) (marked : R.marks g = ms ++ new)
      (noisy : ∃ m ∈ new, ¬ Silent m)

namespace Agree

variable {R : Recorder σ ε μ} {Q : Recorder τ ε μ} {Silent : μ → Prop} {l : List ε} {ms : List μ}
  {r g : σ}

/-- A state that has recorded nothing agrees with itself. -/
theorem still (s : σ) (hl : R.log s = l) (hm : R.marks s = ms) : Agree R Silent l ms s s := by
  refine .together [] rfl hl ?_ ?_
  · rw [hm, List.append_nil]
  · intro m hmem
    exact absurd hmem List.not_mem_nil

/-- The two runs go on. Once they have parted nothing takes the effect back. -/
theorem bind (h : Agree R Silent l ms r g) (f f' : σ → τ) (hf : ∀ s, Grows R Q s (f s))
    (hf' : ∀ s, Grows R Q s (f' s))
    (next : r = g → R.log g = l → Agree Q Silent l (R.marks g) (f g) (f' g)) :
    Agree Q Silent l ms (f r) (f' g) := by
  cases h with
  | together new same quiet marked silent =>
    subst same
    cases next rfl quiet with
    | together new' same' quiet' marked' silent' =>
      refine .together (new ++ new') same' quiet' ?_ ?_
      · rw [marked', marked, List.append_assoc]
      · intro m hm
        rcases List.mem_append.mp hm with hm | hm
        · exact silent m hm
        · exact silent' m hm
    | parted new' grown loud marked' noisy =>
      refine .parted (new ++ new') grown loud ?_ ?_
      · rw [marked', marked, List.append_assoc]
      · obtain ⟨m, hm, hs⟩ := noisy
        exact ⟨m, List.mem_append_right _ hm, hs⟩
  | parted new grown loud marked noisy =>
    obtain ⟨more, hmore⟩ := (hf' g).marks
    refine .parted (new ++ more) (grown.trans (hf r).log) ?_ ?_ ?_
    · intro heq
      have back : R.log r <+: l := heq ▸ (hf r).log
      exact loud (back.eq_of_length (Nat.le_antisymm back.length_le grown.length_le))
    · rw [← hmore, marked, List.append_assoc]
    · obtain ⟨m, hm, hs⟩ := noisy
      exact ⟨m, List.mem_append_left _ hm, hs⟩

/-- Steps that are the same in both and record nothing. -/
theorem map (h : Agree R Silent l ms r g) (f : σ → τ) (hl : ∀ s, Q.log (f s) = R.log s)
    (hm : ∀ s, Q.marks (f s) = R.marks s) : Agree Q Silent l ms (f r) (f g) := by
  have grows (s : σ) : Grows R Q s (f s) :=
    ⟨(hl s).symm ▸ List.prefix_rfl, (hm s).symm ▸ List.prefix_rfl⟩
  apply h.bind f f grows grows
  intro _ quiet
  exact still (f g) ((hl g).trans quiet) (hm g)

/-- The run has no effect exactly if the marks of the twin are silent. -/
theorem quiet_iff (h : Agree R Silent l ms r g) :
    R.log r = l ↔ ∀ m ∈ (R.marks g).drop ms.length, Silent m := by
  cases h with
  | together new same quiet marked silent =>
    rw [same, marked, List.drop_left]
    exact ⟨fun _ => silent, fun _ => quiet⟩
  | parted new grown loud marked noisy =>
    rw [marked, List.drop_left]
    obtain ⟨m, hm, hs⟩ := noisy
    exact ⟨fun h => absurd h loud, fun h => absurd (h m hm) hs⟩

theorem eq_of_quiet (h : Agree R Silent l ms r g) (hq : R.log r = l) : r = g := by
  cases h with
  | together new same quiet marked silent => exact same
  | parted new grown loud marked noisy => exact absurd hq loud

end Agree

end Zshrs.Lib.Lockstep
