import Mathlib.Data.List.Basic

namespace Zshrs.Lib.Runs

variable {σ ε : Type}

def run (step : σ → ε → σ) (s : σ) (es : List ε) : σ := es.foldl step s

@[simp] theorem run_nil (step : σ → ε → σ) (s : σ) : run step s [] = s := rfl

@[simp] theorem run_cons (step : σ → ε → σ) (s : σ) (e : ε) (es : List ε) :
    run step s (e :: es) = run step (step s e) es := rfl

theorem run_append (step : σ → ε → σ) (s : σ) (es fs : List ε) :
    run step s (es ++ fs) = run step (run step s es) fs := List.foldl_append

/-- A part of the state that only some events change runs on those events alone. -/
theorem run_project {τ : Type} {step : σ → ε → σ} {part : σ → τ} {act : τ → ε → τ} {p : ε → Bool}
    (hin : ∀ s e, p e = true → part (step s e) = act (part s) e)
    (hout : ∀ s e, p e = false → part (step s e) = part s) (s : σ) (es : List ε) :
    part (run step s es) = run act (part s) (es.filter p) := by
  induction es generalizing s with
  | nil => rfl
  | cons e es ih =>
      rw [run_cons, ih]
      cases h : p e with
      | true => rw [List.filter_cons_of_pos h, run_cons, hin s e h]
      | false => rw [List.filter_cons_of_neg (by simp [h]), hout s e h]

/-- A condition on a state and the next event, required at every step of a run. -/
def Along (step : σ → ε → σ) (P : σ → ε → Prop) : σ → List ε → Prop
  | _, [] => True
  | s, e :: es => P s e ∧ Along step P (step s e) es

instance Along.decidable {step : σ → ε → σ} {P : σ → ε → Prop} [∀ s e, Decidable (P s e)] :
    (s : σ) → (es : List ε) → Decidable (Along step P s es)
  | _, [] => isTrue trivial
  | s, e :: es => @instDecidableAnd _ _ inferInstance (Along.decidable (step s e) es)

theorem along_append {step : σ → ε → σ} {P : σ → ε → Prop} {s : σ} {es fs : List ε} :
    Along step P s (es ++ fs) ↔ Along step P s es ∧ Along step P (run step s es) fs := by
  induction es generalizing s with
  | nil => simp [Along]
  | cons e es ih => simp [Along, ih, and_assoc]

theorem Along.mono {step : σ → ε → σ} {P Q : σ → ε → Prop} (h : ∀ s e, P s e → Q s e)
    {s : σ} {es : List ε} (hp : Along step P s es) : Along step Q s es := by
  induction es generalizing s with
  | nil => trivial
  | cons e es ih => exact ⟨h s e hp.1, ih hp.2⟩

theorem along_of_forall {step : σ → ε → σ} {P : σ → ε → Prop} (h : ∀ s e, P s e)
    (s : σ) (es : List ε) : Along step P s es := by
  induction es generalizing s with
  | nil => trivial
  | cons e es ih => exact ⟨h s e, ih _⟩

theorem along_events {step : σ → ε → σ} {P : ε → Prop} {s : σ} {es : List ε} :
    Along step (fun _ e => P e) s es ↔ ∀ e ∈ es, P e := by
  induction es generalizing s with
  | nil => simp [Along]
  | cons e es ih => simp [Along, ih]

/-- The invariant rule. A step may use the condition the run imposes on it. -/
theorem Along.invariant {step : σ → ε → σ} {P : σ → ε → Prop} {I : σ → Prop}
    (hstep : ∀ s e, P s e → I s → I (step s e))
    {s : σ} {es : List ε} (hp : Along step P s es) (hs : I s) : I (run step s es) := by
  induction es generalizing s with
  | nil => exact hs
  | cons e es ih => exact ih hp.2 (hstep s e hp.1 hs)

/-- Steps that hold a condition under an invariant hold it along every run that keeps the invariant. -/
theorem Along.of_invariant {step : σ → ε → σ} {P Q : σ → ε → Prop} {I : σ → Prop}
    (hstep : ∀ s e, P s e → I s → I (step s e)) (hQ : ∀ s e, P s e → I s → Q s e)
    {s : σ} {es : List ε} (hp : Along step P s es) (hs : I s) : Along step Q s es := by
  induction es generalizing s with
  | nil => trivial
  | cons e es ih => exact ⟨hQ s e hp.1 hs, ih hp.2 (hstep s e hp.1 hs)⟩

theorem run_invariant {step : σ → ε → σ} {I : σ → Prop}
    (hstep : ∀ s e, I s → I (step s e)) {s : σ} (hs : I s) (es : List ε) :
    I (run step s es) :=
  Along.invariant (P := fun _ _ => True) (fun s e _ => hstep s e)
    (along_of_forall (fun _ _ => trivial) s es) hs

end Zshrs.Lib.Runs
