import Zshrs.Parse.Pending
import Zshrs.Parse.Tokens

namespace Zshrs.Parse.Wordcode

open Lib.Runs

/-- A rollback leaves the parser with an error, which no step takes back. -/
def Sober (s : St) : Prop := s.tok = .lexerr ∨ s.ec.lost = []

/-- From one state of the parser to another by calls that a production may make which has found `u`
words in use. -/
def Reaches (u : Nat) (s s' : St) : Prop :=
  (∃ cs, s'.calls = s.calls ++ cs ∧ s'.ec = run exec s.ec cs ∧ Along exec (Allowed u) s.ec cs) ∧
    (Sober s → Sober s')

namespace Reaches

variable {u v : Nat} {s s' s'' : St}

theorem of_same (hcalls : s'.calls = s.calls) (hec : s'.ec = s.ec) (sober : Sober s → Sober s') :
    Reaches u s s' :=
  ⟨⟨[], by rw [hcalls, List.append_nil], hec, trivial⟩, sober⟩

theorem refl (u : Nat) (s : St) : Reaches u s s := of_same rfl rfl id

theorem trans (h : Reaches u s s') (h' : Reaches u s' s'') : Reaches u s s'' := by
  obtain ⟨⟨cs, hcalls, hec, hok⟩, sober⟩ := h
  obtain ⟨⟨cs', hcalls', hec', hok'⟩, sober'⟩ := h'
  refine ⟨⟨cs ++ cs', ?_, ?_, ?_⟩, fun hs => sober' (sober hs)⟩
  · rw [hcalls', hcalls, List.append_assoc]
  · rw [hec', hec, run_append]
  · rw [along_append, ← hec]
    exact ⟨hok, hok'⟩

theorem mono (hu : u ≤ v) (h : Reaches v s s') : Reaches u s s' := by
  obtain ⟨⟨cs, hcalls, hec, hok⟩, sober⟩ := h
  refine ⟨⟨cs, hcalls, hec, hok.mono fun e c ok => ?_⟩, sober⟩
  cases c with
  | ecadd | patch | clear_hdocs => trivial
  | setheredoc => exact ok
  | ecispace | heredoc => exact ⟨Nat.le_trans hu ok.1, ok.2⟩
  | ecdel => exact ⟨Nat.le_trans hu ok.1, ok.2⟩
  | yyerror | unadd => exact ⟨Nat.le_trans hu ok.1, ok.2⟩

theorem ready (h : Reaches u s s') (hs : Ready u s.ec) :
    Ready u s'.ec ∧ s'.ec.slots.take u = s.ec.slots.take u := by
  obtain ⟨⟨cs, -, hec, hok⟩, -⟩ := h
  rw [hec]
  clear hec
  generalize s.ec = e at hs hok ⊢
  induction cs generalizing e with
  | nil => exact ⟨hs, rfl⟩
  | cons c cs ih =>
    obtain ⟨ready, kept⟩ := hs.exec hok.1
    obtain ⟨ready', kept'⟩ := ih _ ready hok.2
    exact ⟨ready', kept'.trans kept⟩

end Reaches

/-- A step that makes such calls, with what holds when it has a result. -/
def Does {α : Type} (u : Nat) (s : St) (m : ParseM α) (Q : α → St → Prop) : Prop :=
  Reaches u s (m s).2 ∧ ∀ a, (m s).1 = some a → Q a (m s).2

namespace Does

variable {α β : Type} {u v : Nat} {s : St} {m : ParseM α} {f : α → ParseM β} {Q : α → St → Prop}
  {R : β → St → Prop}

theorem pure {a : α} (h : Q a s) : Does u s (Pure.pure a) Q := by
  refine ⟨.refl u s, fun b hb => ?_⟩
  cases hb
  exact h

theorem stop : Does u s (Wordcode.stop : ParseM α) Q := ⟨.refl u s, fun _ h => by cases h⟩

theorem get {f : St → α} (h : Q (f s) s) : Does u s (Wordcode.get f) Q := by
  refine ⟨.refl u s, fun b hb => ?_⟩
  cases hb
  exact h

theorem modify {f : St → St} {Q : Unit → St → Prop} (hcalls : (f s).calls = s.calls)
    (hec : (f s).ec = s.ec) (sober : Sober s → Sober (f s)) (h : Q () (f s)) :
    Does u s (Wordcode.modify f) Q :=
  ⟨.of_same hcalls hec sober, fun _ _ => h⟩

theorem call {c : Call} {Q : Unit → St → Prop} (ok : Allowed u s.ec c)
    (hc : ∀ o, c ≠ .yyerror o) (h : Q () { s with ec := exec s.ec c, calls := s.calls ++ [c] }) :
    Does u s (Wordcode.call c) Q :=
  ⟨⟨⟨[c], rfl, rfl, ok, trivial⟩, fun hs => hs.imp id (lost_exec hc).trans⟩, fun _ _ => h⟩

theorem set_tok {t : lextok} {Q : Unit → St → Prop} (ht : t = .lexerr ∨ s.tok ≠ .lexerr)
    (h : Q () { s with tok := t }) : Does u s (Wordcode.set_tok t) Q := by
  refine .modify rfl rfl (fun hs => ?_) h
  rcases ht with error | fine
  · exact .inl error
  · exact .inr (hs.resolve_left fine)

/-- `YYERROR` drops the words from `o` on. -/
theorem yyerror {o : Nat} {a : α} (ok : Allowed u s.ec (.yyerror o))
    (h : ∀ s' : St, s'.ec = s.ec.rollback o → s'.tok = .lexerr → Q a s') :
    Does u s (YYERROR o a) Q := by
  refine ⟨⟨⟨[.yyerror o], rfl, rfl, ok, trivial⟩, fun _ => .inl rfl⟩, fun b hb => ?_⟩
  cases hb
  exact h _ rfl rfl

theorem run_bind : (m >>= f) s = (match m s with
    | (some a, s) => f a s
    | (none, s) => (none, s)) :=
  rfl

/-- One step after the other. -/
theorem bind (h : Does u s m Q) (hf : ∀ a s', Reaches u s s' → Q a s' → Does u s' (f a) R) :
    Does u s (m >>= f) R := by
  obtain ⟨hreach, hQ⟩ := h
  rw [Does, run_bind]
  generalize m s = r at hreach hQ ⊢
  obtain ⟨res, s'⟩ := r
  cases res with
  | none => exact ⟨hreach, fun _ h => by cases h⟩
  | some a =>
    obtain ⟨hreach', hR⟩ := hf a s' hreach (hQ a rfl)
    exact ⟨hreach.trans hreach', hR⟩

theorem weaken {Q' : α → St → Prop} (h : Does u s m Q) (hQ : ∀ a s', Reaches u s s' → Q a s' → Q' a s') :
    Does u s m Q' :=
  ⟨h.1, fun a ha => hQ a _ h.1 (h.2 a ha)⟩

theorem mono (hu : u ≤ v) (h : Does v s m Q) : Does u s m Q := ⟨h.1.mono hu, h.2⟩

/-- The rule of a loop, with an invariant. -/
theorem iterate {I : α → St → Prop} {body : α → ParseM (α ⊕ β)}
    (h : ∀ a s, I a s → Does u s (body a) fun r s' => Sum.elim (fun a => I a s') (fun b => R b s') r)
    (n : Nat) (a : α) (hI : I a s) : Does u s (Wordcode.iterate n body a) R := by
  induction n generalizing a s with
  | zero => exact .stop
  | succ n ih =>
    apply (h a s hI).bind
    intro r s' _ hr
    cases r with
    | inl a => exact ih a hr
    | inr b => exact .pure hr

end Does

/-- A step that makes such calls wherever it is taken. -/
def Good {α : Type} (u : Nat) (m : ParseM α) : Prop :=
  ∀ s, Ready u s.ec → Sober s → Does u s m fun _ _ => True

/-- A step that makes the calls of a production. -/
def Production {α : Type} (m : ParseM α) : Prop :=
  ∀ s, Inv s.ec → Sober s → Does s.ec.ecused s m fun _ _ => True

theorem Ready.start {e : Ec} (h : Inv e) : Ready e.ecused e where
  inv := h
  used := Nat.le_refl _
  whole := by
    rw [List.take_of_length_le (Nat.le_of_eq (Fits.length_slots h.fits))]
    exact h.whole

/-- A rollback that drops nothing. -/
theorem Does.yyerror_here {α : Type} {u : Nat} {s : St} {a : α} (hs : Ready u s.ec) :
    Does u s (ecused >>= fun used => YYERROR used a)
      fun b s' => b = a ∧ s'.ec.slots = s.ec.slots ∧ s'.ec.ecused = s.ec.ecused := by
  have all := (Ready.start hs.inv).whole
  have length := Fits.length_slots hs.inv.fits
  apply Does.bind (Q := fun used s' => used = s.ec.ecused ∧ s' = s) (.get ⟨rfl, rfl⟩)
  rintro used s' - ⟨rfl, rfl⟩
  refine .yyerror ⟨hs.used, Nat.le_refl _, all⟩ fun s₁ h _ => ⟨rfl, ?_, ?_⟩
  · rw [h, slots_rollback (Nat.le_refl _), List.take_of_length_le (Nat.le_of_eq length)]
  · rw [h]
    rfl

namespace Good

variable {α β : Type} {u : Nat} {m : ParseM α} {f : α → ParseM β}

theorem pure (a : α) : Good u (Pure.pure a : ParseM α) := fun _ _ _ => .pure trivial

theorem stop : Good u (Wordcode.stop : ParseM α) := fun _ _ _ => .stop

theorem get (f : St → α) : Good u (Wordcode.get f) := fun _ _ _ => .get trivial

theorem modify {f : St → St} (hcalls : ∀ s, (f s).calls = s.calls) (hec : ∀ s, (f s).ec = s.ec)
    (htok : ∀ s, (f s).tok = s.tok) : Good u (Wordcode.modify f) := by
  refine fun s _ _ => .modify (hcalls s) (hec s) (fun hs => ?_) trivial
  rw [Sober, htok, hec]
  exact hs

theorem call {c : Call} (ok : ∀ e, Ready u e → Allowed u e c) (hc : ∀ o, c ≠ .yyerror o) :
    Good u (Wordcode.call c) :=
  fun s hs _ => .call (ok s.ec hs) hc trivial

/-- Behind such a step the words found are there, and an error is still one. -/
theorem next {s : St} {R : β → St → Prop} (hm : Good u m) (hs : Ready u s.ec) (sober : Sober s)
    (hf : ∀ a s', Ready u s'.ec → Sober s' → Does u s' (f a) R) : Does u s (m >>= f) R :=
  (hm s hs sober).bind fun a s' reach _ => hf a s' (reach.ready hs).1 (reach.2 sober)

theorem bind (hm : Good u m) (hf : ∀ a, Good u (f a)) : Good u (m >>= f) :=
  fun _ hs sober => hm.next hs sober hf

theorem ite {c : Prop} [Decidable c] {m' : ParseM α} (h : Good u m) (h' : Good u m') :
    Good u (if c then m else m') := by
  split
  · exact h
  · exact h'

theorem when {c : Prop} [Decidable c] {m : ParseM Unit} (h : Good u m) : Good u (Wordcode.when c m) :=
  .ite h (.pure ())

theorem of_production (h : Production m) : Good u m :=
  fun s hs sober => (h s hs.inv sober).mono hs.used

theorem iterate {body : α → ParseM (α ⊕ β)} (h : ∀ a, Good u (body a)) (n : Nat) (a : α) :
    Good u (Wordcode.iterate n body a) := by
  intro s hs sober
  apply Does.iterate (I := fun _ s => Ready u s.ec ∧ Sober s) (fun a s hI => ?_) n a ⟨hs, sober⟩
  refine (h a s hI.1 hI.2).weaken fun r s' reach _ => ?_
  cases r with
  | inl a => exact ⟨(reach.ready hI.1).1, reach.2 hI.2⟩
  | inr b => trivial

/-- The rollback of a production to its start. -/
theorem yyerror (a : α) : Good u (YYERROR u a) :=
  fun _ hs _ => .yyerror ⟨Nat.le_refl u, hs.used, hs.whole⟩ fun _ _ _ => trivial

theorem yyerror_here (a : α) : Good u (Wordcode.ecused >>= fun used => YYERROR used a) :=
  fun _ hs _ => (Does.yyerror_here hs).weaken fun _ _ _ _ => trivial

theorem ecadd (c : wordcode) : Good u (Wordcode.ecadd c) :=
  .bind (.get _) fun p => .bind (.call (fun _ _ => trivial) nofun) fun _ => .pure p

end Good

namespace Production

variable {α : Type} {m : ParseM α}

theorem of_good (h : ∀ u, Good u m) : Production m := fun s hs => h _ s (.start hs)

/-- A production that keeps the number of the words it has found, for a rollback. -/
theorem of_ecused {f : Nat → ParseM α} (h : ∀ u, Good u (f u)) : Production (ecused >>= f) := by
  intro s hs sober
  apply Does.bind (Q := fun a s' => a = s.ec.ecused ∧ s' = s) (.get ⟨rfl, rfl⟩)
  rintro a s' - ⟨rfl, rfl⟩
  exact h _ _ (.start hs) sober

end Production

section Lexer

variable {α : Type} {u : Nat} (env : Env)

/-- A step that leaves all places as they are. -/
def Still (m : ParseM α) : Prop :=
  ∀ u s, Sober s → Does u s m fun _ s' => s'.ec.slots = s.ec.slots ∧ s'.ec.ecused = s.ec.ecused

namespace Still

variable {β : Type} {m : ParseM α} {f : α → ParseM β}

theorem pure (a : α) : Still (Pure.pure a : ParseM α) := fun _ _ _ => .pure ⟨rfl, rfl⟩

theorem stop : Still (Wordcode.stop : ParseM α) := fun _ _ _ => .stop

theorem get (f : St → α) : Still (Wordcode.get f) := fun _ _ _ => .get ⟨rfl, rfl⟩

theorem modify {f : St → St} (hcalls : ∀ s, (f s).calls = s.calls) (hec : ∀ s, (f s).ec = s.ec)
    (htok : ∀ s, (f s).tok = s.tok) : Still (Wordcode.modify f) := by
  intro u s _
  refine .modify (hcalls s) (hec s) (fun hs => ?_) ⟨congrArg Ec.slots (hec s), congrArg Ec.ecused (hec s)⟩
  rw [Sober, htok, hec]
  exact hs

theorem call {c : Call} (ok : ∀ u e, Allowed u e c) (hc : ∀ o, c ≠ .yyerror o)
    (slots : ∀ e, (exec e c).slots = e.slots) (used : ∀ e, (exec e c).ecused = e.ecused) :
    Still (Wordcode.call c) :=
  fun u s _ => .call (ok u s.ec) hc ⟨slots s.ec, used s.ec⟩

theorem bind (hm : Still m) (hf : ∀ a, Still (f a)) : Still (m >>= f) := by
  intro u s sober
  refine (hm u s sober).bind fun a s' reach hs' =>
    (hf a u s' (reach.2 sober)).weaken fun b s'' _ hs'' => ?_
  exact ⟨hs''.1.trans hs'.1, hs''.2.trans hs'.2⟩

theorem ite {c : Prop} [Decidable c] {m' : ParseM α} (h : Still m) (h' : Still m') :
    Still (if c then m else m') := by
  split
  · exact h
  · exact h'

theorem when {c : Prop} [Decidable c] {m : ParseM Unit} (h : Still m) : Still (Wordcode.when c m) :=
  .ite h (.pure ())

theorem iterate {body : α → ParseM (α ⊕ β)} (h : ∀ a, Still (body a)) (n : Nat) (a : α) :
    Still (Wordcode.iterate n body a) := by
  induction n generalizing a with
  | zero => exact .stop
  | succ n ih =>
    refine .bind (h a) fun r => ?_
    cases r with
    | inl a => exact ih a
    | inr b => exact .pure b

theorem good (h : Still m) : Good u m := fun s _ sober => (h u s sober).weaken fun _ _ _ _ => trivial

/-- The parser goes on with an error. -/
theorem error : Still (Wordcode.set_tok .lexerr) := fun _ _ _ => .set_tok (.inl rfl) ⟨rfl, rfl⟩

theorem ecstrcode (s : Str) : Still (Wordcode.ecstrcode env s) := by
  refine .bind (.get _) fun _ => .bind (.modify (fun _ => rfl) (fun _ => rfl) fun _ => rfl) fun _ => ?_
  exact .pure _

end Still

theorem setheredoc_same (e : Ec) (doc term munged : wordcode) :
    (e.setheredoc doc term munged).slots = e.slots ∧
      (e.setheredoc doc term munged).ecused = e.ecused := by
  unfold Ec.setheredoc
  cases e.hdocs with
  | nil => exact ⟨rfl, rfl⟩
  | cons h rest =>
    refine ⟨?_, rfl⟩
    change ((((e.patch _ _).patch _ _).patch _ _).patch _ _).slots = e.slots
    rw [slots_patch, slots_patch, slots_patch, slots_patch]

/-- Nothing has been dropped, and the places are those of `e`. -/
def Unlost (e : Ec) (s : St) : Prop :=
  s.ec.lost = [] ∧ s.ec.slots = e.slots ∧ s.ec.ecused = e.ecused

/-- The bodies are read where no rollback has been before. -/
theorem drain_does {e : Ec} (gethere : Heredoc → Option (Str × Str)) (k : Nat) (s : St)
    (hs : Unlost e s) : Does u s (drain env gethere k) fun _ s' => Unlost e s' := by
  induction k generalizing s with
  | zero => exact .pure hs
  | succ k ih =>
    apply Does.bind (Q := fun _ s' => s' = s) (.get rfl)
    rintro h s' - rfl
    cases h with
    | none => exact .pure hs
    | some h =>
      dsimp only
      cases gethere h with
      | none =>
        apply Does.bind (Q := fun _ s' => Unlost e s')
        · exact .call (c := .clear_hdocs) trivial nofun hs
        · exact fun _ s' _ hs' => .set_tok (.inl rfl) hs'
      | some body =>
        -- A string that is coded changes nothing of the buffer.
        have coded (str : Str) (s' : St) : Does u s' (ecstrcode env str) fun _ s'' => s''.ec = s'.ec := by
          apply Does.bind (Q := fun _ s'' => s'' = s') (.get rfl)
          rintro _ s'' - rfl
          apply Does.bind (Q := fun _ s₁ => s₁.ec = s''.ec) (.modify rfl rfl id rfl)
          exact fun _ _ _ h => .pure h
        apply (coded body.1 _).bind
        intro doc s₁ _ h₁
        apply (coded h.str s₁).bind
        intro term s₂ _ h₂
        apply (coded body.2 s₂).bind
        intro munged s₃ _ h₃
        have same : s₃.ec = s'.ec := h₃.trans (h₂.trans h₁)
        have written := setheredoc_same s'.ec doc term munged
        apply Does.bind (Q := fun _ s' => Unlost e s')
        · refine .call (by rw [same]; exact hs.1) nofun ?_
          unfold Unlost
          dsimp only
          rw [lost_exec (c := .setheredoc doc term munged) nofun, same]
          exact ⟨hs.1, written.1.trans hs.2.1, written.2.trans hs.2.2⟩
        · exact fun _ s' _ hs' => ih s' hs'

theorem gettok_does {e : Ec} (s : St) (hs : Unlost e s) :
    Does u s gettok fun _ s' => Unlost e s' := by
  unfold Does Wordcode.gettok
  cases s.toks with
  | nil => exact ⟨.of_same rfl rfl fun _ => .inr hs.1, fun _ _ => hs⟩
  | cons t rest => exact ⟨.of_same rfl rfl fun _ => .inr hs.1, fun _ _ => hs⟩

namespace Still

theorem zshlex : Still (Wordcode.zshlex env) := by
  intro u s sober
  apply Does.bind (Q := fun t s' => t = s.tok ∧ s' = s) (.get ⟨rfl, rfl⟩)
  rintro t s' - ⟨rfl, rfl⟩
  by_cases error : s'.tok = .lexerr
  · rw [if_pos error]
    exact .pure ⟨rfl, rfl⟩
  · rw [if_neg error]
    have moved {f : St → St} {s₁ : St} (hcalls : (f s₁).calls = s₁.calls) (hec : (f s₁).ec = s₁.ec)
        (h : Unlost s'.ec s₁) : Does u s₁ (Wordcode.modify f) fun _ s₂ => Unlost s'.ec s₂ := by
      have h' : Unlost s'.ec (f s₁) := by
        rw [Unlost, hec]
        exact h
      exact .modify hcalls hec (fun _ => .inr h'.1) h'
    refine Does.weaken (Q := fun _ s₁ => Unlost s'.ec s₁) ?_ fun _ _ _ h => h.2
    apply (gettok_does s' ⟨sober.resolve_left error, rfl, rfl⟩).bind
    intro t s₁ _ h₁
    apply Does.bind (Q := fun _ s₂ => Unlost s'.ec s₂)
    · unfold Wordcode.when
      split
      · apply Does.bind (Q := fun _ s₂ => s₂ = s₁) (.get rfl)
        rintro k s₂ - rfl
        exact drain_does env _ k s₂ h₁
      · exact .pure h₁
    intro _ s₂ _ h₂
    apply Does.bind (Q := fun _ s₃ => s₃ = s₂) (.get rfl)
    rintro raw s₃ - rfl
    apply (moved rfl rfl h₂).bind
    intro _ s₄ _ h₄
    unfold Wordcode.when
    split
    · exact moved rfl rfl h₄
    · exact .pure h₄

theorem skip (n : Nat) (p : lextok → Bool) : Still (Wordcode.skip env n p) := by
  refine .iterate (fun _ => .bind (.get _) fun t => ?_) n ()
  exact .ite (.bind (.zshlex env) fun _ => .pure _) (.pure _)

theorem skipSeper (n : Nat) : Still (Wordcode.skipSeper env n) := .skip env n _

theorem skipNewlin (n : Nat) : Still (Wordcode.skipNewlin env n) := by
  refine .iterate (fun _ => .bind (.get _) fun t => ?_) n ()
  exact .ite (.bind (.zshlex env) fun _ => .pure _) (.pure _)

end Still

end Lexer

end Zshrs.Parse.Wordcode
