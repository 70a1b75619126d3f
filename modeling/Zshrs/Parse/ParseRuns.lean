import Zshrs.Parse.SimpleSteps

namespace Zshrs.Parse.Wordcode

open Lib.Runs

section Parses

variable {u n k : Nat} {r : Rec} (env : Env)

theorem inv_init : Inv init_parse where
  fits := ⟨Nat.zero_le _, Nat.le_of_eq List.length_replicate.symm⟩
  whole := trivial
  heads := nofun
  docs := nofun
  kept := nofun
  placed := nofun

theorem par_event_good (sound : r.Sound) : Good u (par_event_wordcode env n r) := by
  refine .bind (.iterate (fun c => .bind .tok fun t => .ite (.pure _) ?_) n false) fun _ => .pure ()
  refine .bind (.of_production (sound.par_list c)) fun c => .bind .tok fun t => .ite ?_ (.pure _)
  exact .bind (.zshlex env) fun _ => .pure _

/-- Behind a parse that comes to its end no here-document is pending which a rollback has dropped. -/
theorem parse_list_does (toks : List Token) (line : Nat) :
    Does 0 (start toks line) (parse_list env n k) fun _ s => ∀ d ∈ s.ec.hdocs, Held s.ec d := by
  have ready : Ready 0 (start toks line).ec := .start inv_init
  have sober : Sober (start toks line) := .inr rfl
  apply Does.bind (Q := fun _ s => Ready 0 s.ec ∧ Sober s)
  · exact .set_tok (.inr nofun) ⟨ready, sober⟩
  rintro _ s₁ - ⟨hs₁, sober₁⟩
  apply (Good.zshlex env).next hs₁ sober₁
  intro _ s₂ hs₂ sober₂
  apply (par_event_good env (level_sound env k)).next hs₂ sober₂
  intro _ s₃ hs₃ sober₃
  apply Does.bind (Q := fun t s => t = s.tok ∧ s = s₃) (.get ⟨rfl, rfl⟩)
  rintro t s - ⟨rfl, rfl⟩
  unfold when
  split
  · apply Does.bind (Q := fun _ s' => s'.ec.hdocs = [])
    · exact .call (c := .clear_hdocs) trivial nofun rfl
    · intro _ s₄ _ none
      refine .set_tok (.inl rfl) fun d hd => ?_
      change d ∈ s₄.ec.hdocs at hd
      rw [none] at hd
      cases hd
  · have ended : s.tok = .endinput := by
      by_contra other
      exact ‹¬ s.tok ≠ lextok.endinput› other
    have lost : s.ec.lost = [] := sober₃.resolve_left fun error => by rw [ended] at error; cases error
    refine .pure fun d hd => (hs₃.inv.docsHeld d hd).resolve_left fun hlost => ?_
    rw [lost] at hlost
    cases hlost

end Parses

/-- What holds when a call is made: no pending here-document but those that a rollback has dropped is
misplaced, and a body is only read where there are none of these. -/
def Orderly (e : Ec) (c : Call) : Prop :=
  DocsHeld e ∧
    match c with
    | .ecispace p n => p ≤ e.ecused ∧ (e.ecispace p n).slots = insertAt e.slots p (List.replicate n .plain) ∧
        (p < e.ecused → (e.ecispace p n).live = insertAt e.live p (List.replicate n zero))
    | .ecdel p => e.slots[p]? = some .plain ∧ (e.ecdel p).live = e.live.eraseIdx p
    | .heredoc r _ _ _ _ => r ≤ e.ecused
    | .yyerror o => o ≤ e.ecused
    | .unadd o => o ≤ e.ecused ∧ ∀ s ∈ e.slots.drop o, s = .plain
    | .setheredoc _ _ _ => e.lost = [] ∧ ∀ d ∈ e.hdocs, Held e d
    | _ => True

theorem Inv.orderly {e : Ec} {c : Call} (h : Inv e) (ok : Allowed 0 e c) : Orderly e c := by
  refine ⟨h.docsHeld, ?_⟩
  cases c with
  | ecispace p n => exact ⟨ok.2, slots_ecispace h.fits ok.2 n, fun hp => Ec.ecispace_live h.fits hp n⟩
  | ecdel p =>
    have used := (List.getElem?_eq_some_iff.mp ok.2).1
    rw [Fits.length_slots h.fits] at used
    exact ⟨ok.2, Ec.ecdel_live h.fits used⟩
  | heredoc r htype fd1 id str => exact ok.2
  | yyerror o => exact ok.2.1
  | unadd o => exact ok.2
  | setheredoc doc term munged =>
    have none : e.lost = [] := ok
    refine ⟨none, fun d hd => (h.docsHeld d hd).resolve_left fun lost => ?_⟩
    rw [none] at lost
    cases lost
  | ecadd | patch | clear_hdocs => trivial

/-- In every parse, of any text, the pending here-documents keep pointing at their redirections through
all that is put in, taken out and rolled back, and so does the list that a parse leaves. -/
theorem pending_heredocs_held (env : Env) (n k : Nat) (toks : List Token) (line : Nat) :
    (parse_list env n k (start toks line)).2.ec =
        run exec init_parse (parse_list env n k (start toks line)).2.calls ∧
      Along exec Orderly init_parse (parse_list env n k (start toks line)).2.calls ∧
      DocsHeld (parse_list env n k (start toks line)).2.ec ∧
      ((parse_list env n k (start toks line)).1 = some () →
        ∀ d ∈ (parse_list env n k (start toks line)).2.ec.hdocs,
          Held (parse_list env n k (start toks line)).2.ec d) := by
  obtain ⟨⟨⟨cs, calls, ec, ok⟩, -⟩, ended⟩ := @parse_list_does n k env toks line
  have same : (start toks line).ec = init_parse := rfl
  have none : (start toks line).calls = [] := rfl
  rw [none, List.nil_append] at calls
  rw [same, ← calls] at ec ok
  have step (e : Ec) (c : Call) (ok : Allowed 0 e c) (h : Inv e) : Inv (exec e c) := h.exec ok
  refine ⟨ec, ok.of_invariant step (fun e c ok h => h.orderly ok) inv_init, ?_, ended ()⟩
  rw [ec]
  exact (ok.invariant step inv_init).docsHeld

end Zshrs.Parse.Wordcode
