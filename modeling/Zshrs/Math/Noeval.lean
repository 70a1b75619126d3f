import Zshrs.Math.Growth
import Zshrs.Math.Muted

namespace Zshrs.Math

open Lib.Lockstep

/-- A nested evaluation whose effects are dropped. -/
def mute (me : Matheval) : Matheval := fun st s => ({ (me st s).1 with hist := st.hist }, (me st s).2)

theorem adds_mute (me : Matheval) : Adds (mute me) := fun _ _ => List.prefix_rfl

def paired (α : Type) : Recorder (St × α) Effect Text := ⟨fun p => p.1.hist, fun p => p.1.subs⟩

section Operators

variable (S : Shell) (room : Nat) (me me' : Matheval) {st : St}

/-- Nothing that an operator does behind its lvalue needs a nested evaluation, or is recorded. -/
theorem finish_still (hn : st.noeval ≠ 0) (what : Token) (lval : Option Text) (result : Mnumber) :
    st.finish S me what lval result = st.finish S me' what lval result ∧
      (st.finish S me what lval result).hist = st.hist ∧
      (st.finish S me what lval result).subs = st.subs := by
  unfold St.finish
  dsimp only
  split
  · split
    · rw [setmathvar_muted S me hn, setmathvar_muted S me' hn]
      exact ⟨rfl, rfl, rfl⟩
    · exact ⟨rfl, rfl, rfl⟩
  · exact ⟨rfl, rfl, rfl⟩

theorem applyBinary_still (hn : 0 < st.noeval) (what : Token) {mv : Mathvalue} (h : mv.Settled)
    (b : Mnumber) :
    st.applyBinary S room me what mv b = st.applyBinary S room me' what mv b ∧
      (st.applyBinary S room me what mv b).hist = st.hist ∧
      (st.applyBinary S room me what mv b).subs = st.subs := by
  rw [applyBinary_muted S room me hn what h, applyBinary_muted S room me' hn what h]
  exact finish_still S me me' (Int.ne_of_gt hn) what _ _

theorem opStep_still (hn : st.noeval ≠ 0) (lval : Option Text) (val : Mnumber) (by_ : Int64)
    (pre : Bool) :
    st.opStep S me lval val by_ pre = st.opStep S me' lval val by_ pre ∧
      (st.opStep S me lval val by_ pre).hist = st.hist ∧
      (st.opStep S me lval val by_ pre).subs = st.subs := by
  unfold St.opStep
  split
  · refine ⟨rfl, ?_⟩
    split
    · exact ⟨rfl, rfl⟩
    · exact ⟨rfl, rfl⟩
  · dsimp only
    rw [setmathvar_muted S me hn, setmathvar_muted S me' hn]
    refine ⟨rfl, ?_⟩
    split
    · exact ⟨rfl, rfl⟩
    · exact ⟨rfl, rfl⟩

theorem applyUnary_still (hn : 0 < st.noeval) {what : Token} (hq : what ≠ .QUEST)
    {mv : Mathvalue} (h : mv.Settled) :
    st.applyUnary S room me what mv = st.applyUnary S room me' what mv ∧
      (st.applyUnary S room me what mv).hist = st.hist ∧
      (st.applyUnary S room me what mv).subs = st.subs := by
  have hne := Int.ne_of_gt hn
  have read := @value_of_settled S room st mv h
  unfold St.applyUnary
  revert read
  generalize st.value_of S room mv = p
  obtain ⟨st₁, val⟩ := p
  rintro rfl
  dsimp only
  split
  case h_9 => exact absurd rfl hq
  case h_5 | h_6 | h_7 | h_8 => exact opStep_still S me me' hne _ _ _ _
  all_goals exact ⟨rfl, rfl, rfl⟩

end Operators

section Agreement

variable (S : Shell) (room : Nat) {me : Matheval} (hme : Adds me) {h : History}
  {Silent : Text → Prop} (hsilent : ∀ st s, st.hist = h → ((me st s).1.hist = h ↔ Silent s))
  {st : St}

include hme hsilent

/-- Resolving an lvalue is where the two part, if its subscript is not silent. -/
theorem agree_resolve_lval (hh : st.hist = h) (name : Text) :
    Agree (paired Text) Silent h st.subs (st.resolve_lval S me name)
      (st.resolve_lval S (mute me) name) := by
  unfold St.resolve_lval
  split
  · exact .still _ hh rfl
  · next base body _ =>
    split
    · exact .still _ hh rfl
    · have nested := hsilent st body hh
      by_cases quiet : Silent body
      · have same : evalNested (mute me) st body = evalNested me st body := by
          have hist : st.hist = (me st body).1.hist := hh.trans (nested.mpr quiet).symm
          unfold evalNested mute
          dsimp only
          rw [hist]
        rw [same]
        have hist : (evalNested me st body).1.hist = h := nested.mpr quiet
        dsimp only
        split
        · refine .together [body] rfl hist rfl ?_
          simpa using quiet
        · refine .together [body] rfl hist rfl ?_
          simpa using quiet
      · have loud : (evalNested me st body).1.hist ≠ h := fun e => quiet (nested.mp e)
        have grown : h <+: (evalNested me st body).1.hist := hh ▸ hme st body
        have result : (evalNested (mute me) st body).2 = (evalNested me st body).2 := rfl
        dsimp only
        rw [result]
        split
        · exact .parted [body] grown loud rfl ⟨body, List.mem_singleton_self _, quiet⟩
        · exact .parted [body] grown loud rfl ⟨body, List.mem_singleton_self _, quiet⟩

theorem agree_target (st : St) (hh : st.hist = h) (what : Token) (mv : Mathvalue) :
    Agree (paired Mathvalue) Silent h st.subs (st.target S me what mv)
      (st.target S (mute me) what mv) := by
  unfold St.target
  split
  · unfold St.resolve
    split
    · exact .still _ hh rfl
    · next name _ =>
      have agree := agree_resolve_lval S hme hsilent hh name
      exact agree.map (fun p : St × Text => (p.1, ({ mv with lval := some p.2 } : Mathvalue)))
        (fun _ => rfl) (fun _ => rfl)
  · exact .still _ hh rfl

variable {base : List Mathvalue} {a b v : Mathvalue}

theorem agree_opBinary (hh : st.hist = h) (hn : 0 < st.noeval) (hs : st.stack = b :: a :: base)
    (ha : a.Settled) (hb : b.Settled) (what : Token) :
    Agree recorder Silent h st.subs (st.opBinary S room me what)
      (st.opBinary S room (mute me) what) := by
  rw [opBinary_eq S room me hs hb, opBinary_eq S room (mute me) hs hb]
  have agree : Agree (paired Mathvalue) Silent h st.subs
      (({ st with stack := base } : St).target S me what a)
      (({ st with stack := base } : St).target S (mute me) what a) :=
    agree_target S hme hsilent { st with stack := base } hh what a
  have hframe := target_frame S (mute me) what { st with stack := base } a
  have hset := target_settled S (mute me) what { st with stack := base } ha
  revert hframe hset agree
  generalize ({ st with stack := base } : St).target S me what a = r
  generalize ({ st with stack := base } : St).target S (mute me) what a = g
  intro agree hframe hset
  have hn₁ : 0 < g.1.noeval := by
    rw [congrArg Frame.noeval hframe]
    exact hn
  refine agree.bind (fun p => p.1.applyBinary S room me what p.2 b.val)
    (fun p => p.1.applyBinary S room (mute me) what p.2 b.val) ?_ ?_ ?_
  · intro p
    have grew := grew_applyBinary S room hme p.1 what p.2 b.val
    exact ⟨grew.log, grew.marks⟩
  · intro p
    have grew := grew_applyBinary S room (adds_mute me) p.1 what p.2 b.val
    exact ⟨grew.log, grew.marks⟩
  · intro _ quiet
    have still := applyBinary_still S room (mute me) me hn₁ what hset b.val
    rw [← still.1]
    exact .still _ (still.2.1.trans quiet) still.2.2

theorem agree_opUnary (hh : st.hist = h) (hn : 0 < st.noeval) (hs : st.stack = v :: base)
    (hv : v.Settled) {what : Token} (hq : what ≠ .QUEST) :
    Agree recorder Silent h st.subs (st.opUnary S room me what)
      (st.opUnary S room (mute me) what) := by
  rw [opUnary_eq S room me hs, opUnary_eq S room (mute me) hs]
  have agree : Agree (paired Mathvalue) Silent h st.subs
      (({ st with stack := base } : St).target S me what v)
      (({ st with stack := base } : St).target S (mute me) what v) :=
    agree_target S hme hsilent { st with stack := base } hh what v
  have hframe := target_frame S (mute me) what { st with stack := base } v
  have hset := target_settled S (mute me) what { st with stack := base } hv
  revert hframe hset agree
  generalize ({ st with stack := base } : St).target S me what v = r
  generalize ({ st with stack := base } : St).target S (mute me) what v = g
  intro agree hframe hset
  have hn₁ : 0 < g.1.noeval := by
    rw [congrArg Frame.noeval hframe]
    exact hn
  refine agree.bind (fun p => p.1.applyUnary S room me what p.2)
    (fun p => p.1.applyUnary S room (mute me) what p.2) ?_ ?_ ?_
  · intro p
    have grew := grew_applyUnary S room hme p.1 what p.2
    exact ⟨grew.log, grew.marks⟩
  · intro p
    have grew := grew_applyUnary S room (adds_mute me) p.1 what p.2
    exact ⟨grew.log, grew.marks⟩
  · intro _ quiet
    have still := applyUnary_still S room (mute me) me hn₁ hq hset
    rw [← still.1]
    exact .still _ (still.2.1.trans quiet) still.2.2

/-- The operands that an operator takes off. -/
def Fits (what : Token) (st : St) : Prop :=
  if (OP_TYPE what).is_binary then
    ∃ (b a : Mathvalue) (base : List Mathvalue), b.Settled ∧ a.Settled ∧ st.stack = b :: a :: base
  else ∃ (v : Mathvalue) (base : List Mathvalue), v.Settled ∧ st.stack = v :: base

theorem agree_op (hh : st.hist = h) (hn : 0 < st.noeval) {what : Token} (hq : what ≠ .QUEST)
    (hfit : st.error = none → Fits what st) :
    Agree recorder Silent h st.subs (st.op S room me what) (st.op S room (mute me) what) := by
  by_cases he : st.error = none
  · have fit := hfit he
    unfold Fits at fit
    rw [op_fine S room me he, op_fine S room (mute me) he]
    split at fit
    · next hb =>
      obtain ⟨b, a, base, hbs, ha, hs⟩ := fit
      rw [if_pos hb, if_pos hb]
      exact agree_opBinary S room hme hsilent hh hn hs ha hbs what
    · next hb =>
      obtain ⟨v, base, hv, hs⟩ := fit
      rw [if_neg hb, if_neg hb]
      exact agree_opUnary S room hme hsilent hh hn hs hv hq
  · rw [op_failed S room me he, op_failed S room (mute me) he]
    exact .still _ hh rfl

omit hme hsilent in
/-- `?:` needs no nested evaluation, and records nothing. -/
theorem op_quest_still (hs : st.error = none → ∃ (f t c : Mathvalue) (base : List Mathvalue),
      f.Settled ∧ t.Settled ∧ c.Settled ∧ st.stack = f :: t :: c :: base) :
    st.op S room me .QUEST = st.op S room (mute me) .QUEST ∧
      (st.op S room me .QUEST).hist = st.hist ∧ (st.op S room me .QUEST).subs = st.subs := by
  by_cases he : st.error = none
  · obtain ⟨f, t, c, base, hf, ht, hc, hstack⟩ := hs he
    have plain (me : Matheval) : st.op S room me .QUEST =
        ({ st with stack := t :: c :: base } : St).opQuest S room
          (({ st with stack := t :: c :: base } : St).value_of S room f).2 := by
      rw [op_fine S room me he, if_neg (by decide), opUnary_eq S room me hstack]
      exact applyQuest S room me f hf
    rw [plain me, plain (mute me)]
    refine ⟨rfl, ?_⟩
    have hpop : ({ st with stack := c :: base } : St).pop S room =
        ({ st with stack := base }, c.val) := pop_settled S room rfl hc
    unfold St.opQuest
    rw [if_neg (by simp), pop_settled S room rfl ht]
    dsimp only
    rw [hpop]
    exact ⟨rfl, rfl⟩
  · rw [op_failed S room me he, op_failed S room (mute me) he]
    exact ⟨rfl, rfl, rfl⟩

end Agreement

section Parse

variable (S : Shell) (room : Nat) {me : Matheval} (hme : Adds me) {h : History}
  {Silent : Text → Prop} (hsilent : ∀ st s, st.hist = h → ((me st s).1.hist = h ↔ Silent s))
  {st : St} {base : List Mathvalue}

/-- The loop and its muted twin agree wherever they are ready. -/
def AgreeLoop (h : History) (Silent : Text → Prop) (loop loop' : Nat → St → St) : Prop :=
  ∀ (pc : Nat) (base : List Mathvalue) (st : St), Ready pc base st → st.hist = h →
    Agree recorder Silent h st.subs (loop pc st) (loop' pc st)

variable {loop loop' : Nat → St → St}

theorem nextToken_still (st : St) : (st.nextToken S).hist = st.hist ∧
    (st.nextToken S).subs = st.subs := by
  unfold St.nextToken St.checkunary
  dsimp only
  split
  · exact ⟨rfl, rfl⟩
  · split
    · exact ⟨rfl, rfl⟩
    · exact ⟨rfl, rfl⟩

theorem agree_enter (hl : AgreeLoop h Silent loop loop') (pc : Nat) (st : St)
    (hc : Callable pc base st) (hh : st.hist = h) :
    Agree recorder Silent h st.subs (St.enter S loop pc st) (St.enter S loop' pc st) := by
  have still := nextToken_still S st
  unfold St.enter
  split
  · exact .still _ hh rfl
  · dsimp only
    split
    · exact .still _ hh rfl
    · have agree := hl pc base (st.nextToken S) (hc.ready S) (still.1.trans hh)
      rw [still.2] at agree
      exact agree

theorem agree_paren (hl : AgreeLoop h Silent loop loop') (hn : 0 < st.noeval)
    (hu : st.unary = true) (hh : st.hist = h) :
    Agree recorder Silent h st.subs (St.paren S loop st) (St.paren S loop' st) := by
  have callable : Callable st.prec.top_prec st.stack st :=
    ⟨top_ge st.prec, Nat.le_refl _, hn, List.suffix_rfl, fun _ => .of_unary hu rfl⟩
  refine (agree_enter S hl _ st callable hh).map (fun s => if s.mtok ≠ .M_OUTPAR then
    s.m_error_set "bad math expression: ')' expected" else s.nextToken S) ?_ ?_
  · intro s
    split
    · rfl
    · exact (nextToken_still S s).1
  · intro s
    split
    · rfl
    · exact (nextToken_still S s).2

theorem agree_questMiddle (hl : AgreeLoop h Silent loop loop') (hn : 0 < st.noeval)
    (hu : st.unary = true) (hh : st.hist = h) :
    Agree recorder Silent h st.subs (St.questMiddle S loop st) (St.questMiddle S loop' st) := by
  unfold St.questMiddle
  split
  · dsimp only
    have middle : (if st.c_precedences = true then PrecTable.C_PREC_TERNARY_MIDDLE
        else .Z_PREC_TERNARY_MIDDLE) = .C_PREC_TERNARY_MIDDLE ∨
        (if st.c_precedences = true then PrecTable.C_PREC_TERNARY_MIDDLE
        else .Z_PREC_TERNARY_MIDDLE) = .Z_PREC_TERNARY_MIDDLE := by
      split
      · exact .inl rfl
      · exact .inr rfl
    have level := middle_level middle
    generalize (if st.c_precedences = true then PrecTable.C_PREC_TERNARY_MIDDLE
        else .Z_PREC_TERNARY_MIDDLE) = p at level ⊢
    have callable : Callable (p.at .EQ) st.stack { st with prec := p } :=
      ⟨level.1, Nat.le_of_lt level.2, hn, List.suffix_rfl, fun _ => .of_unary hu rfl⟩
    have agree : Agree recorder Silent h st.subs _ _ :=
      agree_enter S hl _ { st with prec := p } callable hh
    exact agree.map (fun s : St => ({ s with prec := st.prec } : St)) (fun _ => rfl) (fun _ => rfl)
  · have level := colon_level st.prec
    have callable : Callable (st.prec.at .COLON - 1) st.stack st :=
      ⟨level.1, Nat.le_of_lt level.2, hn, List.suffix_rfl, fun _ => .of_unary hu rfl⟩
    exact agree_enter S hl _ _ callable hh

theorem agree_questElse (hl : AgreeLoop h Silent loop loop') (hn : 0 < st.noeval)
    (hu : st.unary = true) (hh : st.hist = h) :
    Agree recorder Silent h st.subs (St.questElse S loop st) (St.questElse S loop' st) := by
  have level : 2 ≤ st.prec.at (if S.korn_mode then .EQ else .QUEST) ∧
      st.prec.at (if S.korn_mode then .EQ else .QUEST) < st.prec.top_prec := by
    apply else_level
    split
    · exact .inl rfl
    · exact .inr rfl
  have callable : Callable (st.prec.at (if S.korn_mode then .EQ else .QUEST)) st.stack st :=
    ⟨level.1, Nat.le_of_lt level.2, hn, List.suffix_rfl, fun _ => .of_unary hu rfl⟩
  exact agree_enter S hl _ _ callable hh

/-- A side of a ternary, with `noeval` raised for it and lowered again. -/
theorem agree_raised {f f' : St → St} {b : Bool} (hn : 0 < st.noeval)
    (hf : ∀ st₁ : St, 0 < st₁.noeval → st₁.unary = st.unary → st₁.hist = st.hist →
      st₁.subs = st.subs → Agree recorder Silent h st.subs (f st₁) (f' st₁)) :
    Agree recorder Silent h st.subs ((f (st.raise b)).lower b) ((f' (st.raise b)).lower b) := by
  obtain ⟨n, hn', hr⟩ := raise_eq hn b
  have agree := hf (st.raise b) (hr ▸ hn') (hr ▸ rfl) (hr ▸ rfl) (hr ▸ rfl)
  apply agree.map (fun s => s.lower b)
  · intro s
    cases b with
    | true => rfl
    | false => rfl
  · intro s
    cases b with
    | true => rfl
    | false => rfl

theorem agree_middle (hl : AgreeLoop h Silent loop loop') (hn : 0 < st.noeval)
    (hu : st.unary = true) (hh : st.hist = h) (b : Bool) :
    Agree recorder Silent h st.subs ((St.questMiddle S loop (st.raise b)).lower b)
      ((St.questMiddle S loop' (st.raise b)).lower b) := by
  apply agree_raised hn
  intro st₁ hn₁ hu₁ hh₁ hs₁
  have agree := agree_questMiddle S hl hn₁ (hu₁.trans hu) (hh₁.trans hh)
  rw [hs₁] at agree
  exact agree

theorem agree_else (hl : AgreeLoop h Silent loop loop') (hn : 0 < st.noeval)
    (hu : st.unary = true) (hh : st.hist = h) (b : Bool) :
    Agree recorder Silent h st.subs ((St.questElse S loop (st.raise b)).lower b)
      ((St.questElse S loop' (st.raise b)).lower b) := by
  apply agree_raised hn
  intro st₁ hn₁ hu₁ hh₁ hs₁
  have agree := agree_questElse S hl hn₁ (hu₁.trans hu) (hh₁.trans hh)
  rw [hs₁] at agree
  exact agree

include hme

theorem agree_quest (hgrow : ∀ pc st, Grew st (loop pc st)) (hgrow' : ∀ pc st, Grew st (loop' pc st))
    (hspec : LoopSpec loop') (hl : AgreeLoop h Silent loop loop') (hn : 0 < st.noeval)
    (hm : st.mtok = .QUEST) (hh : Head base st) (hhist : st.hist = h) :
    Agree recorder Silent h st.subs (St.quest S room me loop st)
      (St.quest S room (mute me) loop' st) := by
  have hstack := hh.stack
  have hunary := hh.unary
  rw [hm] at hstack hunary
  obtain ⟨c, hc, hs⟩ := hstack
  have hu : st.unary = true := by
    rw [hunary]
    rfl
  unfold St.quest
  split
  · exact .still _ hhist rfl
  · next mv stack heq =>
    rw [hs] at heq
    cases heq
    rw [get_value_settled S room hc]
    have middle := agree_middle S hl hn hu hhist !!isZero c.val
    have ends := middle_ends S hspec hn hu hs !!isZero c.val
    revert middle ends
    dsimp only
    generalize ((St.questMiddle S loop (st.raise !!isZero c.val)).lower !!isZero c.val) = r
    generalize ((St.questMiddle S loop' (st.raise !!isZero c.val)).lower !!isZero c.val) = g
    intro middle ends
    let rest (me : Matheval) (loop : Nat → St → St) (s : St) : St :=
      if s.mtok ≠ .COLON then
        s.m_error_set (if s.stack.length > st.stack.length then "bad math expression: ':' expected"
          else St.operandMissing)
      else ((St.questElse S loop (s.raise !isZero c.val)).lower !isZero c.val).op S room me .QUEST
    have grows {me : Matheval} {loop : Nat → St → St} (hme : Adds me)
        (hgrow : ∀ pc st, Grew st (loop pc st)) (s : St) : Grew s (rest me loop s) := by
      unfold rest
      split
      · exact grew_fail s _
      · exact (grew_else S hgrow s _).trans (grew_op S room hme _ _)
    refine middle.bind (rest me loop) (rest (mute me) loop') (grows hme hgrow)
      (grows (adds_mute me) hgrow') ?_
    intro _ quiet
    unfold rest
    split
    · exact .still _ quiet rfl
    · next hcolon =>
      have hcolon : g.mtok = .COLON := by simpa using hcolon
      by_cases he : g.error = none
      · obtain ⟨t, ht, hs₂⟩ := (ends.operand he).stack
        have hu₂ : g.unary = true := by
          rw [(ends.operand he).2.unary, hcolon]
          rfl
        have hn₂ : 0 < g.noeval := by
          rw [ends.held.noeval]
          exact hn
        have other := agree_else S hl hn₂ hu₂ quiet !isZero c.val
        have otherEnds := else_ends S hspec hn₂ hu₂ hs₂ !isZero c.val
        refine other.bind (fun s => s.op S room me .QUEST) (fun s => s.op S room (mute me) .QUEST)
          (fun s => grew_op S room hme s _) (fun s => grew_op S room (adds_mute me) s _) ?_
        intro _ quiet
        have shape := fun e => (otherEnds.operand e).stack
        have still := @op_quest_still S room me
          ((St.questElse S loop' (g.raise !isZero c.val)).lower !isZero c.val) fun e => by
            obtain ⟨f, hf, hstack⟩ := shape e
            exact ⟨f, t, c, base, hf, ht, hc, hstack⟩
        rw [← still.1]
        exact .still _ (still.2.1.trans quiet) still.2.2
      · rw [questElse_failed S he, questElse_failed S he, op_failed S room me he,
          op_failed S room (mute me) he]
        exact .still _ quiet rfl

include hsilent

theorem agree_operator (hspec : LoopSpec loop')
    (hl : AgreeLoop h Silent loop loop') (hn : 0 < st.noeval) {otok : Token} (hm : st.mtok = otok)
    (hh : Head base st) (htop : st.prec.at otok ≤ st.prec.top_prec) (hq : otok ≠ .QUEST)
    (hp : otok ≠ .M_INPAR) (ho : otok ∉ [Token.NUM, .ID, .CID, .FUNC]) (hhist : st.hist = h) :
    Agree recorder Silent h st.subs (St.operator S room me loop st otok)
      (St.operator S room (mute me) loop' st otok) := by
  obtain ⟨n, base', start⟩ := operator_starts S room hn hm hh htop hq hp ho
  have side := operator_side S hspec n start.callable (st.prec.rightOf_lt_top htop)
  have agree : Agree recorder Silent h st.subs _ _ :=
    agree_enter S hl _ { st with noeval := n } start.callable hhist
  unfold St.operator
  dsimp only
  rw [if_neg start.left, if_neg start.left, start.raised]
  have lowered : Agree recorder Silent h st.subs _ _ :=
    agree.map (fun s : St => ({ s with noeval := st.noeval } : St)) (fun _ => rfl) (fun _ => rfl)
  refine lowered.bind (fun s => s.op S room me otok) (fun s => s.op S room (mute me) otok)
    (fun s => grew_op S room hme s _) (fun s => grew_op S room (adds_mute me) s _) ?_
  intro _ quiet
  let behind : St :=
    { St.enter S loop' (st.prec.rightOf otok) { st with noeval := n } with noeval := st.noeval }
  have muted : 0 < behind.noeval := hn
  have quiet' : behind.hist = h := quiet
  apply agree_op S room hme hsilent quiet' muted hq
  intro he
  obtain ⟨v, hv, hs⟩ := (side.operand he).stack
  unfold Fits
  rcases start.shape with ⟨hbin, a, ha, hbase⟩ | ⟨hbin, -⟩
  · rw [if_pos hbin]
    exact ⟨v, a, base, hv, ha, hbase ▸ hs⟩
  · rw [if_neg (by simp [hbin])]
    exact ⟨v, base', hv, hs⟩

theorem agree_round (hgrow : ∀ pc st, Grew st (loop pc st))
    (hgrow' : ∀ pc st, Grew st (loop' pc st)) (hspec : LoopSpec loop')
    (hl : AgreeLoop h Silent loop loop') (hn : 0 < st.noeval) (hh : Head base st)
    (htop : st.prec.at st.mtok ≤ st.prec.top_prec) (hhist : st.hist = h) :
    Agree recorder Silent h st.subs (St.round S room me loop st)
      (St.round S room (mute me) loop' st) := by
  have pushed (val : Mnumber) (lval : Option Text) :
      Agree recorder Silent h st.subs ((st.push val lval).nextToken S)
        ((st.push val lval).nextToken S) :=
    .still _ ((nextToken_still S _).1.trans hhist) (nextToken_still S _).2
  unfold St.round
  split
  · exact pushed _ _
  · exact pushed _ _
  · rw [pushCid_eq S room hn]
    exact pushed _ _
  · rw [pushFunc_eq S room hn]
    exact pushed _ _
  · next hm =>
    have hunary := hh.unary
    rw [hm] at hunary
    exact agree_paren S hl hn hunary hhist
  · next hm => exact agree_quest S room hme hgrow hgrow' hspec hl hn hm hh hhist
  · next h1 h2 h3 h4 h5 h6 =>
    apply agree_operator S room hme hsilent hspec hl hn rfl hh htop h6 h5 _ hhist
    simp only [List.mem_cons, List.not_mem_nil, or_false, not_or]
    exact ⟨h1, h2, h3, h4⟩

/-- The loop of `mathparse` and the one whose nested evaluations are muted. -/
theorem agree_parseLoop (fuel : Nat) :
    AgreeLoop h Silent (St.parseLoop S room me fuel) (St.parseLoop S room (mute me) fuel) := by
  induction fuel with
  | zero =>
    intro pc base st _ hhist
    exact .still _ hhist rfl
  | succ fuel ih =>
    intro pc base st ready hhist
    unfold St.parseLoop
    split
    · exact .still _ hhist rfl
    · next hlow =>
      split
      · exact .still _ hhist rfl
      · next hs =>
        have he : st.error = none := by simpa using hs
        have hpc : st.prec.at st.mtok ≤ st.prec.top_prec :=
          Nat.le_trans (Nat.le_of_not_lt hlow) ready.le_top
        have hgrow := grew_parseLoop S room hme fuel
        have hgrow' := grew_parseLoop S room (adds_mute me) fuel
        have hspec := parseLoop_spec S room (mute me) fuel
        have head := ready.head he
        have round := agree_round S room hme hsilent hgrow hgrow' hspec ih ready.muted head hpc hhist
        have goes := goes_round S room (mute me) hspec ready.muted head hpc
        refine round.bind (St.parseLoop S room me fuel pc) (St.parseLoop S room (mute me) fuel pc)
          (hgrow pc) (hgrow' pc) ?_
        intro _ quiet
        exact ih pc base _ (goes.ready ready) quiet

/-- `mathparse` on a muted state, and its muted twin. -/
theorem agree_mathparse (fuel : Nat) {pc : Nat} (st : St) (hc : Callable pc base st)
    (hhist : st.hist = h) :
    Agree recorder Silent h st.subs (st.mathparse S room me fuel pc)
      (st.mathparse S room (mute me) fuel pc) :=
  agree_enter S (agree_parseLoop S room hme hsilent fuel) _ _ hc hhist

end Parse

end Zshrs.Math
