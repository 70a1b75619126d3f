import Zshrs.Lib.Lockstep
import Zshrs.Math.Eval

namespace Zshrs.Math

open Lib.Lockstep

def recorder : Recorder St Effect Text := ⟨St.hist, St.subs⟩

/-- The effects and the resolved subscripts are only added to. -/
abbrev Grew (st st' : St) : Prop := Grows recorder recorder st st'

theorem grew_rfl (st : St) : Grew st st := .refl recorder st

theorem grew_push (st : St) (val : Mnumber) (lval : Option Text) : Grew st (st.push val lval) :=
  ⟨List.prefix_rfl, List.prefix_rfl⟩

theorem grew_fail (st : St) (msg : String) : Grew st (st.m_error_set msg) :=
  ⟨List.prefix_rfl, List.prefix_rfl⟩

theorem grew_stack (st : St) (stack : List Mathvalue) : Grew st { st with stack := stack } :=
  ⟨List.prefix_rfl, List.prefix_rfl⟩

/-- Nested evaluations only add effects. -/
def Adds (me : Matheval) : Prop := ∀ st s, st.hist <+: (me st s).1.hist

section Operators

variable (S : Shell) (room : Nat) {me : Matheval} (hme : Adds me) (st : St)

theorem grew_answer (r : Reading) : Grew st (st.answer r).1 :=
  ⟨List.prefix_append _ _, List.prefix_rfl⟩

theorem grew_get_value (mv : Mathvalue) : Grew st (st.get_value S room mv).1 := by
  unfold St.get_value
  split
  · split
    · exact grew_answer st _
    · exact grew_rfl st
  · exact grew_rfl st

theorem grew_value_of (mv : Mathvalue) : Grew st (st.value_of S room mv).1 := by
  unfold St.value_of
  split
  · exact grew_rfl st
  · exact grew_get_value S room st mv

theorem grew_pop : Grew st (st.pop S room).1 := by
  unfold St.pop
  split
  · exact (grew_stack st _).trans (grew_get_value S room _ _)
  · exact grew_fail st _

theorem grew_pop_with_lval : Grew st st.pop_with_lval.1 := by
  unfold St.pop_with_lval
  split
  · exact ⟨List.prefix_rfl, List.prefix_rfl⟩
  · exact grew_rfl st

include hme

theorem grew_evalNested (body : Text) : Grew st (evalNested me st body).1 :=
  ⟨hme st body, List.prefix_rfl⟩

theorem grew_canonical (name base body : Text) :
    Grew st (st.canonical S me name base body).1 := by
  have nested := grew_evalNested hme st body
  unfold St.canonical
  split
  · exact grew_rfl st
  · split
    · next heq =>
      rw [heq] at nested
      exact nested
    · next heq =>
      rw [heq] at nested
      exact nested

omit hme in
theorem grew_store (name : Text) (val : Mnumber) : Grew st (st.store name val) :=
  ⟨List.prefix_append _ _, List.prefix_rfl⟩

theorem grew_setmathvar (name : Text) (val : Mnumber) (pval : Bool) :
    Grew st (st.setmathvar S me name val pval).1 := by
  unfold St.setmathvar
  split
  · exact grew_rfl st
  · split
    · exact grew_rfl st
    · split
      · exact (grew_canonical S hme st _ _ _).trans (grew_store _ _ _)
      · split
        · exact grew_store st name val
        · unfold St.storePlain
          dsimp only
          split
          · exact grew_store st name val
          · exact grew_store st name val
          · exact grew_store st name val

theorem grew_resolve_lval (name : Text) : Grew st (st.resolve_lval S me name).1 := by
  unfold St.resolve_lval
  split
  · exact grew_rfl st
  · next base body _ =>
    split
    · exact grew_rfl st
    · have nested : Grew st { (evalNested me st body).1 with subs := st.subs ++ [body] } :=
        ⟨hme st body, List.prefix_append _ _⟩
      dsimp only
      split
      · exact nested
      · exact nested

theorem grew_target (what : Token) (mv : Mathvalue) : Grew st (st.target S me what mv).1 := by
  unfold St.target St.resolve
  split
  · split
    · exact grew_rfl st
    · exact grew_resolve_lval S hme st _
  · exact grew_rfl st

theorem grew_finish (what : Token) (lval : Option Text) (result : Mnumber) :
    Grew st (st.finish S me what lval result) := by
  unfold St.finish
  dsimp only
  split
  · split
    · exact (grew_setmathvar S hme st _ _ _).trans (grew_push _ _ _)
    · exact (grew_fail st _).trans (grew_push _ _ _)
  · exact grew_push st _ _

omit hme in
theorem grew_failure (failure : Failure) : Grew st (st.fail failure) := by
  cases failure with
  | error msg => exact grew_fail st msg
  | dies how => exact ⟨List.prefix_append _ _, List.prefix_rfl⟩

theorem grew_applyBinary (what : Token) (mv : Mathvalue) (b : Mnumber) :
    Grew st (st.applyBinary S room me what mv b) := by
  have read : Grew st (if what = .EQ then (st, mv.val) else st.value_of S room mv).1 := by
    split
    · exact grew_rfl st
    · exact grew_value_of S room st mv
  unfold St.applyBinary
  dsimp only
  split
  · exact read.trans (grew_failure _ _)
  · exact read.trans (grew_finish S hme _ _ _ _)

theorem grew_opBinary (what : Token) : Grew st (st.opBinary S room me what) := by
  unfold St.opBinary
  split
  · exact ⟨List.prefix_rfl, List.prefix_rfl⟩
  · exact (((grew_pop S room st).trans (grew_pop_with_lval _)).trans (grew_target S hme _ _ _)).trans
      (grew_applyBinary S room hme _ _ _ _)

theorem grew_opStep (lval : Option Text) (val : Mnumber) (by_ : Int64) (pre : Bool) :
    Grew st (st.opStep S me lval val by_ pre) := by
  unfold St.opStep
  split
  · split
    · exact ⟨List.prefix_rfl, List.prefix_rfl⟩
    · exact ⟨List.prefix_rfl, List.prefix_rfl⟩
  · next name =>
    have stored := grew_setmathvar S hme st name (stepBy S val by_) true
    dsimp only
    split
    · exact stored.trans (grew_push _ _ _)
    · exact stored.trans (grew_push _ _ _)

omit hme in
theorem grew_opQuest (val : Mnumber) : Grew st (st.opQuest S room val) := by
  unfold St.opQuest
  split
  · exact ⟨List.prefix_rfl, List.prefix_rfl⟩
  · exact ((grew_pop S room st).trans (grew_pop S room _)).trans (grew_push _ _ _)

theorem grew_applyUnary (what : Token) (mv : Mathvalue) :
    Grew st (st.applyUnary S room me what mv) := by
  have read := grew_value_of S room st mv
  unfold St.applyUnary
  dsimp only
  split
  case h_5 | h_6 | h_7 | h_8 => exact read.trans (grew_opStep S hme _ _ _ _ _)
  case h_9 => exact read.trans (grew_opQuest S room _ _)
  case h_10 | h_11 => exact read.trans (grew_fail _ _)
  all_goals exact read.trans (grew_push _ _ _)

theorem grew_opUnary (what : Token) : Grew st (st.opUnary S room me what) := by
  unfold St.opUnary
  split
  · exact ⟨List.prefix_rfl, List.prefix_rfl⟩
  · exact ((grew_pop_with_lval st).trans (grew_target S hme _ _ _)).trans
      (grew_applyUnary S room hme _ _ _)

theorem grew_op (what : Token) : Grew st (st.op S room me what) := by
  unfold St.op
  split
  · exact grew_rfl st
  · split
    · exact grew_opBinary S room hme st what
    · exact grew_opUnary S room hme st what

omit hme in
theorem grew_bop (tk : Token) : Grew st (st.bop S room tk) := by
  unfold St.bop
  split
  · exact grew_rfl st
  · next mv _ _ =>
    have read := grew_value_of S room st mv
    dsimp only
    split
    · split
      · exact ⟨read.log, read.marks⟩
      · exact ⟨read.log, read.marks⟩
    · split
      · exact ⟨read.log, read.marks⟩
      · exact ⟨read.log, read.marks⟩
    · split
      · exact ⟨read.log, read.marks⟩
      · exact ⟨read.log, read.marks⟩
    · split
      · exact ⟨read.log, read.marks⟩
      · exact ⟨read.log, read.marks⟩
    · exact ⟨read.log, read.marks⟩

end Operators

section Parse

variable (S : Shell) (room : Nat) {me : Matheval} (hme : Adds me)

theorem grew_nextToken (st : St) : Grew st (st.nextToken S) := by
  have lexed : Grew st (st.lexToken S) := ⟨List.prefix_rfl, List.prefix_rfl⟩
  apply lexed.trans
  unfold St.nextToken St.checkunary
  dsimp only
  split
  · exact ⟨List.prefix_rfl, List.prefix_rfl⟩
  · split
    · exact ⟨List.prefix_rfl, List.prefix_rfl⟩
    · exact ⟨List.prefix_rfl, List.prefix_rfl⟩

theorem grew_pushCid (st : St) : Grew st (st.pushCid S room) := by
  unfold St.pushCid
  dsimp only
  split
  · exact grew_push st _ _
  · exact (grew_answer st _).trans (grew_push _ _ _)

theorem grew_pushFunc (st : St) : Grew st (st.pushFunc S room) := by
  unfold St.pushFunc
  dsimp only
  split
  · exact grew_push st _ _
  · have called : Grew st { st with hist := st.hist ++ [.call st.yylval] } :=
      ⟨List.prefix_append _ _, List.prefix_rfl⟩
    exact (called.trans (grew_answer _ _)).trans (grew_push _ _ _)

variable {loop : Nat → St → St} (hloop : ∀ pc st, Grew st (loop pc st))

include hloop

theorem grew_enter (pc : Nat) (st : St) : Grew st (St.enter S loop pc st) := by
  unfold St.enter
  split
  · exact grew_rfl st
  · dsimp only
    split
    · exact ⟨List.prefix_rfl, List.prefix_rfl⟩
    · exact (grew_nextToken S st).trans (hloop pc _)

theorem grew_paren (st : St) : Grew st (St.paren S loop st) := by
  have inner := grew_enter S hloop st.prec.top_prec st
  unfold St.paren
  dsimp only
  split
  · exact inner.trans (grew_fail _ _)
  · exact inner.trans (grew_nextToken S _)

theorem grew_questMiddle (st : St) : Grew st (St.questMiddle S loop st) := by
  unfold St.questMiddle
  split
  · dsimp only
    generalize (if st.c_precedences = true then PrecTable.C_PREC_TERNARY_MIDDLE
      else .Z_PREC_TERNARY_MIDDLE) = p
    have inner := grew_enter S hloop (p.at .EQ) { st with prec := p }
    exact ⟨inner.log, inner.marks⟩
  · exact grew_enter S hloop _ st

omit hloop in
theorem grew_raise (st : St) (b : Bool) : Grew st (st.raise b) := by
  cases b with
  | true => exact ⟨List.prefix_rfl, List.prefix_rfl⟩
  | false => exact grew_rfl st

omit hloop in
theorem grew_lower (st : St) (b : Bool) : Grew st (st.lower b) := by
  cases b with
  | true => exact ⟨List.prefix_rfl, List.prefix_rfl⟩
  | false => exact grew_rfl st

theorem grew_middle (st : St) (b : Bool) :
    Grew st ((St.questMiddle S loop (st.raise b)).lower b) :=
  ((grew_raise st b).trans (grew_questMiddle S hloop _)).trans (grew_lower _ b)

theorem grew_else (st : St) (b : Bool) :
    Grew st ((St.questElse S loop (st.raise b)).lower b) :=
  ((grew_raise st b).trans (grew_enter S hloop _ _)).trans (grew_lower _ b)

include hme

theorem grew_quest (st : St) : Grew st (St.quest S room me loop st) := by
  unfold St.quest
  split
  · exact ⟨List.prefix_rfl, List.prefix_rfl⟩
  · next mv _ _ =>
    have middle := (grew_get_value S room st mv).trans
      (grew_middle S hloop _ !!isZero (st.get_value S room mv).2)
    dsimp only
    split
    · exact middle.trans (grew_fail _ _)
    · exact (middle.trans (grew_else S hloop _ _)).trans (grew_op S room hme _ _)

theorem grew_operator (st : St) (otok : Token) :
    Grew st (St.operator S room me loop st otok) := by
  have raised : Grew st (if (OP_TYPE otok).assoc = .BOOL then st.bop S room otok else st) := by
    split
    · exact grew_bop S room st otok
    · exact grew_rfl st
  unfold St.operator
  dsimp only
  split
  · exact ⟨List.prefix_rfl, List.prefix_rfl⟩
  · generalize (if (OP_TYPE otok).assoc = .BOOL then st.bop S room otok else st) = st₁ at raised ⊢
    have side := raised.trans (grew_enter S hloop (st₁.prec.rightOf otok) st₁)
    have lowered : Grew st
        { St.enter S loop (st₁.prec.rightOf otok) st₁ with noeval := st.noeval } :=
      ⟨side.log, side.marks⟩
    exact lowered.trans (grew_op S room hme _ otok)

theorem grew_round (st : St) : Grew st (St.round S room me loop st) := by
  unfold St.round
  split
  · exact (grew_push st _ _).trans (grew_nextToken S _)
  · exact (grew_push st _ _).trans (grew_nextToken S _)
  · exact (grew_pushCid S room st).trans (grew_nextToken S _)
  · exact (grew_pushFunc S room st).trans (grew_nextToken S _)
  · exact grew_paren S hloop st
  · exact grew_quest S room hme hloop st
  · exact grew_operator S room hme hloop st _

omit hloop in
theorem grew_parseLoop (fuel pc : Nat) (st : St) : Grew st (St.parseLoop S room me fuel pc st) := by
  induction fuel generalizing pc st with
  | zero => exact ⟨List.prefix_rfl, List.prefix_rfl⟩
  | succ fuel ih =>
    unfold St.parseLoop
    split
    · exact grew_rfl st
    · split
      · exact grew_rfl st
      · exact (grew_round S room hme ih st).trans (ih pc _)

omit hloop in
theorem grew_mathparse (fuel pc : Nat) (st : St) : Grew st (st.mathparse S room me fuel pc) :=
  grew_enter S (grew_parseLoop S room hme fuel) pc st

end Parse

section Evaluations

variable (S : Shell) (room : Nat)

theorem grew_trailing (prec_tp : PrecType) (st : St) : Grew st (st.trailing S prec_tp).1 := by
  unfold St.trailing
  split
  · dsimp only
    split
    · exact ⟨List.prefix_rfl, List.prefix_rfl⟩
    · exact ⟨List.prefix_rfl, List.prefix_rfl⟩
    · exact ⟨List.prefix_rfl, List.prefix_rfl⟩
  · exact grew_rfl st

theorem grew_result (st : St) : Grew st (st.result S room).1 := by
  unfold St.result
  split
  · exact grew_rfl st
  · next mv stack _ =>
    have read := (grew_stack st stack).trans (grew_value_of S room _ mv)
    dsimp only
    split
    · exact ⟨read.log, read.marks⟩
    · exact read

theorem grew_outcome (prec_tp : PrecType) (st : St) : Grew st (st.outcome S room prec_tp).1 := by
  have rest := grew_trailing S prec_tp st
  unfold St.outcome
  split
  · exact ⟨List.prefix_rfl, List.prefix_rfl⟩
  · split
    · exact grew_rfl st
    · split
      · next heq =>
        rw [heq] at rest
        exact rest
      · next heq =>
        rw [heq] at rest
        exact rest.trans (grew_result S room _)

/-- An evaluation adds effects to what its frame has seen, and so does one that it is nested in. -/
theorem adds_matheval {eval : PrecType → St → St × Except String Mnumber}
    (heval : ∀ p st, st.hist <+: (eval p st).1.hist) (top : Bool) : Adds (St.matheval S eval top) := by
  intro st s
  unfold St.matheval
  dsimp only
  split
  · exact List.prefix_rfl
  · split
    · exact List.prefix_rfl
    · split
      · exact List.prefix_append _ _
      · exact heval .MPREC_TOP (st.new _)

theorem hist_mathevall (prec_tp : PrecType) (st : St) :
    st.hist <+: (mathevall S room prec_tp st).1.hist := by
  induction room generalizing prec_tp st with
  | zero => exact List.prefix_rfl
  | succ room ih =>
    unfold mathevall evalWith
    dsimp only
    split
    · exact List.prefix_rfl
    · have adds := adds_matheval S ih (room = MAX_MLEVEL)
      have begun : Grew st (st.syncOptions S).skipBlanks := ⟨List.prefix_rfl, List.prefix_rfl⟩
      exact ((begun.trans (grew_mathparse S room adds _ _ _)).trans (grew_outcome S room _ _)).log

theorem adds_mathevall : Adds (matheval S room) := adds_matheval S (hist_mathevall S room) _

end Evaluations

end Zshrs.Math
