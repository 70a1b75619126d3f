import Zshrs.Math.TableSwap
import Zshrs.Math.ArithCompiler
import Zshrs.Math.Visits

namespace Zshrs.Math.Shape

section Lexing

variable (S : Shell) (lx₀ : Lex)

/-- The states of the lexer as it reads token after token. Errors come from the parse. -/
inductive Lexing : Lex → Prop
  | start (e : Option String) : Lexing { lx₀ with error := e }
  | next {lx : Lex} (h : History) (e : Option String) : Lexing lx →
    Lexing { (zzlex S h lx).2 with error := e, unary := !(OP_TYPE (zzlex S h lx).1).OP_OPF }

/-- The tokens that it reads. -/
def Lexed (tok : Token) : Prop := ∃ lx h, Lexing S lx₀ lx ∧ (zzlex S h lx).1 = tok

variable {S lx₀}

theorem Lexing.error {lx : Lex} (h : Lexing S lx₀ lx) (e : Option String) : Lexing S lx₀ { lx with error := e } := by
  cases h with
  | start e' => exact .start e
  | next h e' hlx => exact .next h e hlx

/-- The lexer stands where a token is to be read. -/
structure Ahead (S : Shell) (lx₀ : Lex) (st : St) : Prop where
  zsh : Zsh st.prec
  c_precedences : st.c_precedences = false
  lexing : Lexing S lx₀ st.toLex

/-- A token has been read, and another may be if it was not the end. -/
structure Behind (S : Shell) (lx₀ : Lex) (st : St) : Prop where
  zsh : Zsh st.prec
  c_precedences : st.c_precedences = false
  tok : Lexed S lx₀ st.mtok
  lexing : st.mtok ≠ .EOI → Lexing S lx₀ st.toLex

variable {st st' : St}

theorem Ahead.alike (h : Ahead S lx₀ st) (k : Alike st st') : Ahead S lx₀ st' := by
  obtain ⟨e, he⟩ := k.lex
  exact ⟨k.prec ▸ h.zsh, k.c_precedences.trans h.c_precedences, he ▸ h.lexing.error e⟩

theorem Behind.alike (h : Behind S lx₀ st) (k : Alike st st') : Behind S lx₀ st' := by
  obtain ⟨e, he⟩ := k.lex
  exact ⟨k.prec ▸ h.zsh, k.c_precedences.trans h.c_precedences, k.mtok ▸ h.tok,
    fun hm => he ▸ (h.lexing (k.mtok ▸ hm)).error e⟩

theorem Behind.ahead (h : Behind S lx₀ st) (hm : st.mtok ≠ .EOI) : Ahead S lx₀ st :=
  ⟨h.zsh, h.c_precedences, h.lexing hm⟩

theorem checkunary_lex (st : St) :
    ∃ e, st.checkunary.toLex = { st.toLex with error := e, unary := !(OP_TYPE st.mtok).OP_OPF } := by
  unfold St.checkunary
  dsimp only
  split
  · exact ⟨_, rfl⟩
  · split
    · exact ⟨_, rfl⟩
    · exact ⟨st.error, rfl⟩

theorem Ahead.lexToken (h : Ahead S lx₀ st) : Lexed S lx₀ (st.lexToken S).mtok := ⟨st.toLex, st.hist, h.lexing, rfl⟩

theorem Ahead.nextToken (h : Ahead S lx₀ st) : Behind S lx₀ (st.nextToken S) := by
  have kept := kept_nextToken S st
  obtain ⟨e, he⟩ := checkunary_lex (st.lexToken S)
  have hmtok : (st.nextToken S).mtok = (zzlex S st.hist st.toLex).1 := (checkunary_eq (st.lexToken S)).2.1
  refine ⟨kept.prec ▸ h.zsh, kept.c_precedences.trans h.c_precedences, ?_, fun _ => ?_⟩
  · rw [hmtok]
    exact h.lexToken
  · have hlex : (st.nextToken S).toLex = { (zzlex S st.hist st.toLex).2 with
        error := e, unary := !(OP_TYPE (zzlex S st.hist st.toLex).1).OP_OPF } := he
    rw [hlex]
    exact .next st.hist e h.lexing

end Lexing

section Applications

variable (S : Shell) (room : Nat) (me : Matheval)

/-- An application of `op`: the operator and the operands. -/
abbrev Application := Token × List Mathvalue

def applied (st : St) (what : Token) : List Application := if st.error.isSome then [] else [(what, st.stack)]

variable (trace : Nat → St → List Application)

/-- The applications in a call of `mathparse`. -/
def enterTrace (pc : Nat) (st : St) : List Application :=
  if st.error.isSome then []
  else if pc = (st.lexToken S).prec.top_prec ∧ (st.lexToken S).mtok = .EOI then []
  else trace pc (st.nextToken S)

def questTrace (loop : Nat → St → St) (st : St) (cond : Mnumber) : List Application :=
  let call := middleCall S (st.raise !(!isZero cond))
  let middle := behindMiddle S loop st cond
  enterTrace S trace call.1 call.2 ++
    if middle.mtok ≠ .COLON then []
    else enterTrace S trace (elseLevel S (middle.raise !isZero cond)) (middle.raise !isZero cond) ++
      applied (behindElse S loop middle cond) .QUEST

def operatorTrace (loop : Nat → St → St) (st : St) (otok : Token) : List Application :=
  if st.stack = [] ∧ (OP_TYPE otok).is_binary then []
  else enterTrace S trace ((opened S room st otok).prec.rightOf otok) (opened S room st otok) ++
    applied (behindRight S room loop st otok) otok

def roundTrace (loop : Nat → St → St) (st : St) : List Application :=
  match st.mtok with
  | .NUM | .ID | .CID | .FUNC => []
  | .M_INPAR => enterTrace S trace st.prec.top_prec st
  | .QUEST =>
      match st.stack with
      | [] => []
      | mv :: _ => questTrace S trace loop (st.get_value S room mv).1 (st.get_value S room mv).2
  | otok => operatorTrace S room trace loop st otok

/-- The applications of `op` in the loop of `mathparse`, in their order. -/
def loopTrace : Nat → Nat → St → List Application
  | 0, _, _ => []
  | fuel + 1, pc, st =>
      if pc < st.prec.at st.mtok then []
      else if st.error.isSome then []
      else roundTrace S room (loopTrace fuel) (St.parseLoop S room me fuel) st ++
        loopTrace fuel pc (St.round S room me (St.parseLoop S room me fuel) st)

/-- The applications of `op` in `mathparse`. -/
def applications (fuel pc : Nat) (st : St) : List Application := enterTrace S (loopTrace S room me fuel) pc st

end Applications

section Parse

variable {S : Shell} {lx₀ : Lex} {room : Nat} {me : Matheval} {loop : Nat → St → St}
  {trace : Nat → St → List Application} {st : St} {pc pc' : Nat}

/-- A loop reads on and leaves the table as it is. -/
def LoopBehind (S : Shell) (lx₀ : Lex) (loop : Nat → St → St) : Prop :=
  ∀ pc st, pc ≤ st.prec.top_prec → Behind S lx₀ st → Behind S lx₀ (loop pc st) ∧ (loop pc st).prec = st.prec

/-- A loop does the same with the other table. -/
def LoopSwap (S : Shell) (lx₀ : Lex) (loop : Nat → St → St) (trace : Nat → St → List Application) : Prop :=
  ∀ pc pc' st, Behind S lx₀ st → Cuts (Lexed S lx₀) st.prec pc pc' →
    loop pc' st.toC = (loop pc st).toC ∧ trace pc' st.toC = trace pc st

theorem enter_behind (hl : LoopBehind S lx₀ loop) (h : Ahead S lx₀ st) (ht : Lexed S lx₀ st.mtok)
    (hle : pc ≤ st.prec.top_prec) :
    Behind S lx₀ (St.enter S loop pc st) ∧ (St.enter S loop pc st).prec = st.prec := by
  unfold St.enter
  split
  · exact ⟨⟨h.zsh, h.c_precedences, ht, fun _ => h.lexing⟩, rfl⟩
  · dsimp only
    split
    · next heoi => exact ⟨⟨h.zsh, h.c_precedences, h.lexToken, fun hm => absurd heoi.2 hm⟩, rfl⟩
    · have kept := (kept_nextToken S st).prec
      have after := hl pc (st.nextToken S) (kept ▸ hle) h.nextToken
      exact ⟨after.1, after.2.trans kept⟩

theorem enter_swap (hl : LoopSwap S lx₀ loop trace) (h : Ahead S lx₀ st)
    (hc : Cuts (Lexed S lx₀) st.prec pc pc') :
    St.enter S loop pc' st.toC = (St.enter S loop pc st).toC ∧
      enterTrace S trace pc' st.toC = enterTrace S trace pc st := by
  have herror : st.toC.error = st.error := rfl
  have hlex : st.toC.lexToken S = (st.lexToken S).toC := rfl
  have hprec : (st.lexToken S).prec = st.prec := rfl
  have hprec' : (st.lexToken S).toC.prec = st.prec.toC := rfl
  have hmtok : (st.lexToken S).toC.mtok = (st.lexToken S).mtok := rfl
  have hnext := hl pc pc' (st.nextToken S) h.nextToken ((kept_nextToken S st).prec ▸ hc)
  rw [← St.nextToken_toC] at hnext
  unfold St.enter enterTrace
  rw [herror]
  split
  · exact ⟨rfl, rfl⟩
  · dsimp only
    rw [hlex, hprec, hprec', hmtok]
    by_cases hend : pc = st.prec.top_prec ∧ (st.lexToken S).mtok = .EOI
    · have hend' : pc' = st.prec.toC.top_prec ∧ (st.lexToken S).mtok = .EOI := ⟨hc.top.mp hend.1, hend.2⟩
      rw [if_pos hend, if_pos hend', if_pos hend, if_pos hend']
      exact ⟨rfl, rfl⟩
    · have hend' : ¬ (pc' = st.prec.toC.top_prec ∧ (st.lexToken S).mtok = .EOI) :=
        fun h => hend ⟨hc.top.mpr h.1, h.2⟩
      rw [if_neg hend, if_neg hend', if_neg hend, if_neg hend']
      exact hnext

section Paren

theorem paren_behind (hl : LoopBehind S lx₀ loop) (h : Ahead S lx₀ st) (ht : Lexed S lx₀ st.mtok) :
    Behind S lx₀ (St.paren S loop st) ∧ (St.paren S loop st).prec = st.prec := by
  obtain ⟨behind, hprec⟩ := enter_behind hl h ht (Nat.le_refl st.prec.top_prec)
  unfold St.paren
  dsimp only
  split
  · exact ⟨behind.alike ⟨rfl, rfl, rfl, _, rfl⟩, hprec⟩
  · next hm =>
    have hne : (St.enter S loop st.prec.top_prec st).mtok ≠ .EOI := by
      rw [not_not.mp hm]
      decide
    exact ⟨(behind.ahead hne).nextToken, (kept_nextToken S _).prec.trans hprec⟩

theorem paren_swap (hl : LoopSwap S lx₀ loop trace) (h : Ahead S lx₀ st) :
    St.paren S loop st.toC = (St.paren S loop st).toC := by
  have hprec : st.toC.prec = st.prec.toC := rfl
  unfold St.paren
  dsimp only
  rw [hprec, (enter_swap hl h (cuts_top h.zsh)).1]
  generalize St.enter S loop st.prec.top_prec st = st₁
  have hmtok : st₁.toC.mtok = st₁.mtok := rfl
  rw [hmtok]
  split
  · rfl
  · exact St.nextToken_toC st₁

end Paren

section Quest

theorem raise_toC (st : St) (b : Bool) : st.toC.raise b = (st.raise b).toC := by
  cases b with
  | true => rfl
  | false => rfl

theorem lower_toC (st : St) (b : Bool) : st.toC.lower b = (st.lower b).toC := by
  cases b with
  | true => rfl
  | false => rfl

theorem raise_alike (st : St) (b : Bool) : Alike st (st.raise b) := by
  cases b with
  | true => exact ⟨rfl, rfl, rfl, st.error, rfl⟩
  | false => exact .refl st

theorem lower_alike (st : St) (b : Bool) : Alike st (st.lower b) := by
  cases b with
  | true => exact ⟨rfl, rfl, rfl, st.error, rfl⟩
  | false => exact .refl st

theorem middleCall_ahead (h : Ahead S lx₀ st) :
    Ahead S lx₀ (middleCall S st).2 ∧ (middleCall S st).2.mtok = st.mtok ∧
      (middleCall S st.toC).2 = (middleCall S st).2.toC ∧
      Cuts (Lexed S lx₀) (middleCall S st).2.prec (middleCall S st).1 (middleCall S st.toC).1 := by
  unfold middleCall
  by_cases hmode : S.bash_mode = true ∨ S.posix_faithful = true
  · have hc : ¬ st.c_precedences = true := by rw [h.c_precedences]; exact Bool.false_ne_true
    have hc' : st.toC.c_precedences = true := rfl
    rw [if_pos hmode, if_pos hmode]
    dsimp only
    rw [if_neg hc, if_pos hc']
    exact ⟨⟨.inr rfl, h.c_precedences, h.lexing⟩, rfl, rfl, cuts_at (.inl rfl) (.inr rfl)⟩
  · rw [if_neg hmode, if_neg hmode]
    exact ⟨h, rfl, rfl, cuts_colon h.zsh⟩

theorem with_prec {st : St} {p : PrecTable} (h : st.prec = p) : ({ st with prec := p } : St) = st := by
  cases h
  rfl

/-- The middle operand of a ternary is read by one call, and the table is as it was. -/
theorem questMiddle_eq (h : (St.enter S loop (middleCall S st).1 (middleCall S st).2).prec = (middleCall S st).2.prec) :
    St.questMiddle S loop st =
      { St.enter S loop (middleCall S st).1 (middleCall S st).2 with prec := st.prec } := by
  unfold St.questMiddle
  unfold middleCall at h ⊢
  by_cases hmode : S.bash_mode = true ∨ S.posix_faithful = true
  · rw [if_pos hmode, if_pos hmode]
  · rw [if_neg hmode] at h
    rw [if_neg hmode, if_neg hmode]
    exact (with_prec h).symm

theorem questMiddle_behind (hl : LoopBehind S lx₀ loop) (h : Ahead S lx₀ st) (ht : Lexed S lx₀ st.mtok) :
    Behind S lx₀ (St.questMiddle S loop st) ∧ (St.questMiddle S loop st).prec = st.prec := by
  obtain ⟨ahead, hmtok, -, hc⟩ := middleCall_ahead h
  obtain ⟨behind, hprec⟩ := enter_behind hl ahead (hmtok ▸ ht) hc.le
  rw [questMiddle_eq hprec]
  exact ⟨⟨h.zsh, behind.c_precedences, behind.tok, behind.lexing⟩, rfl⟩

theorem questMiddle_swap (hb : LoopBehind S lx₀ loop) (hl : LoopSwap S lx₀ loop trace) (h : Ahead S lx₀ st)
    (ht : Lexed S lx₀ st.mtok) : St.questMiddle S loop st.toC = (St.questMiddle S loop st).toC ∧
      enterTrace S trace (middleCall S st.toC).1 (middleCall S st.toC).2 =
        enterTrace S trace (middleCall S st).1 (middleCall S st).2 := by
  obtain ⟨ahead, hmtok, hcall, hc⟩ := middleCall_ahead h
  obtain ⟨heq, htrace⟩ := enter_swap hl ahead hc
  have hprec := (enter_behind hb ahead (hmtok ▸ ht) hc.le).2
  rw [← hcall] at heq htrace
  have hprec' : (St.enter S loop (middleCall S st.toC).1 (middleCall S st.toC).2).prec =
      (middleCall S st.toC).2.prec := by
    rw [heq, hcall]
    exact congrArg PrecTable.toC hprec
  refine ⟨?_, htrace⟩
  rw [questMiddle_eq hprec, questMiddle_eq hprec', heq]
  rfl

theorem elseLevel_cuts (h : Ahead S lx₀ st) :
    Cuts (Lexed S lx₀) st.prec (elseLevel S st) (elseLevel S st.toC) := by
  unfold elseLevel
  split
  · exact cuts_at (.inl rfl) h.zsh
  · exact cuts_at (.inr rfl) h.zsh

variable (hS : Blind S) (hme : me.Blind)

theorem behindMiddle_behind (hl : LoopBehind S lx₀ loop) (h : Ahead S lx₀ st) (ht : Lexed S lx₀ st.mtok)
    (cond : Mnumber) : Behind S lx₀ (behindMiddle S loop st cond) ∧ (behindMiddle S loop st cond).prec = st.prec := by
  have raised := raise_alike st (!(!isZero cond))
  obtain ⟨behind, hprec⟩ := questMiddle_behind hl (h.alike raised) (raised.mtok ▸ ht)
  have lowered := lower_alike (St.questMiddle S loop (st.raise (!(!isZero cond)))) (!(!isZero cond))
  exact ⟨behind.alike lowered, lowered.prec.trans (hprec.trans raised.prec)⟩

theorem behindElse_behind (hl : LoopBehind S lx₀ loop) (h : Ahead S lx₀ st) (ht : Lexed S lx₀ st.mtok)
    (cond : Mnumber) : Behind S lx₀ (behindElse S loop st cond) ∧ (behindElse S loop st cond).prec = st.prec := by
  have raised := raise_alike st (!isZero cond)
  have ahead := h.alike raised
  obtain ⟨behind, hprec⟩ := enter_behind hl ahead (raised.mtok ▸ ht) (elseLevel_cuts ahead).le
  have lowered := lower_alike (St.questElse S loop (st.raise !isZero cond)) (!isZero cond)
  exact ⟨behind.alike lowered, lowered.prec.trans (hprec.trans raised.prec)⟩

/-- A ternary whose condition has been read, in front of its middle operand. -/
theorem quest_behind (hl : LoopBehind S lx₀ loop) (h : Behind S lx₀ st) (hm : st.mtok = .QUEST) :
    Behind S lx₀ (St.quest S room me loop st) ∧ (St.quest S room me loop st).prec = st.prec := by
  have ahead := h.ahead (by rw [hm]; decide)
  cases hs : st.stack with
  | nil =>
      unfold St.quest
      rw [hs]
      exact ⟨h.alike ⟨rfl, rfl, rfl, _, rfl⟩, rfl⟩
  | cons mv base =>
      have read := Alike.of_steady (reads_get_value S room st mv).steady
      rw [quest_eq S room me loop hs]
      generalize st.get_value S room mv = p at read ⊢
      obtain ⟨st₁, cond⟩ := p
      dsimp only at read ⊢
      obtain ⟨middle, hprec⟩ := behindMiddle_behind hl (ahead.alike read) (read.mtok ▸ h.tok) cond
      split
      · exact ⟨middle.alike ⟨rfl, rfl, rfl, _, rfl⟩, hprec.trans read.prec⟩
      · next hcolon =>
        have hne : (behindMiddle S loop st₁ cond).mtok ≠ .EOI := by
          rw [not_not.mp hcolon]
          decide
        obtain ⟨other, hprec'⟩ := behindElse_behind hl (middle.ahead hne) middle.tok cond
        have done := op_alike S room me (behindElse S loop (behindMiddle S loop st₁ cond) cond) .QUEST
        exact ⟨other.alike done, done.prec.trans (hprec'.trans (hprec.trans read.prec))⟩

include hS hme in
theorem quest_swap (hb : LoopBehind S lx₀ loop) (hl : LoopSwap S lx₀ loop trace) (h : Behind S lx₀ st)
    (hm : st.mtok = .QUEST) : St.quest S room me loop st.toC = (St.quest S room me loop st).toC ∧
      roundTrace S room trace loop st.toC = roundTrace S room trace loop st := by
  have ahead := h.ahead (by rw [hm]; decide)
  have hm' : st.toC.mtok = .QUEST := hm
  cases hs : st.stack with
  | nil =>
      have hs' : st.toC.stack = [] := hs
      unfold St.quest roundTrace
      rw [hs, hs', hm, hm']
      exact ⟨rfl, rfl⟩
  | cons mv base =>
      have hs' : st.toC.stack = mv :: base := hs
      have read := Alike.of_steady (reads_get_value S room st mv).steady
      have hright : roundTrace S room trace loop st =
          questTrace S trace loop (st.get_value S room mv).1 (st.get_value S room mv).2 := by
        unfold roundTrace
        rw [hm, hs]
      have hleft : roundTrace S room trace loop st.toC =
          questTrace S trace loop (st.toC.get_value S room mv).1 (st.toC.get_value S room mv).2 := by
        unfold roundTrace
        rw [hm', hs']
      rw [hleft, hright, quest_eq S room me loop hs, quest_eq S room me loop hs', St.get_value_toC hS]
      generalize st.get_value S room mv = p at read ⊢
      obtain ⟨st₁, cond⟩ := p
      dsimp only at read ⊢
      have ahead₁ := ahead.alike read
      have tok₁ : Lexed S lx₀ st₁.mtok := read.mtok ▸ h.tok
      have raised := raise_alike st₁ (!(!isZero cond))
      obtain ⟨hmiddle, htrace⟩ := questMiddle_swap hb hl (ahead₁.alike raised) (raised.mtok ▸ tok₁)
      have hbehind : behindMiddle S loop st₁.toC cond = (behindMiddle S loop st₁ cond).toC := by
        unfold behindMiddle
        dsimp only
        rw [raise_toC, hmiddle, lower_toC]
      obtain ⟨middle, -⟩ := behindMiddle_behind hb ahead₁ tok₁ cond
      have hstack : st₁.toC.stack = st₁.stack := rfl
      unfold questTrace
      dsimp only
      rw [raise_toC, htrace, hbehind, hstack]
      generalize behindMiddle S loop st₁ cond = st₂ at middle ⊢
      have hmtok : st₂.toC.mtok = st₂.mtok := rfl
      have hstack₂ : st₂.toC.stack = st₂.stack := rfl
      rw [hmtok, hstack₂]
      by_cases hcolon : st₂.mtok ≠ .COLON
      · rw [if_pos hcolon, if_pos hcolon, if_pos hcolon, if_pos hcolon]
        exact ⟨rfl, rfl⟩
      · have hne : st₂.mtok ≠ .EOI := by
          rw [not_not.mp hcolon]
          decide
        have ahead₂ := (middle.ahead hne).alike (raise_alike st₂ !isZero cond)
        obtain ⟨helse, htrace'⟩ := enter_swap hl ahead₂ (elseLevel_cuts ahead₂)
        have hbehind' : behindElse S loop st₂.toC cond = (behindElse S loop st₂ cond).toC := by
          unfold behindElse St.questElse
          dsimp only
          rw [raise_toC]
          exact (congrArg (fun st => St.lower st _) helse).trans (lower_toC _ _)
        rw [if_neg hcolon, if_neg hcolon, if_neg hcolon, if_neg hcolon, raise_toC, htrace', hbehind',
          St.op_toC hS hme]
        exact ⟨rfl, rfl⟩

end Quest

section Operator

variable (hS : Blind S) (hme : me.Blind)

include hS in
theorem opened_toC (st : St) (otok : Token) : opened S room st.toC otok = (opened S room st otok).toC := by
  unfold opened
  split
  · exact St.bop_toC hS st otok
  · rfl

/-- The tokens of the last arm of a round. -/
theorem right_level (hT : Agreeing (Lexed S lx₀)) (h : Behind S lx₀ st) (hop : isOperator st.mtok)
    (htop : st.prec.at st.mtok ≤ st.prec.top_prec) (hne : st.mtok ≠ .EOI) :
    Ahead S lx₀ (opened S room st st.mtok) ∧ Cuts (Lexed S lx₀) (opened S room st st.mtok).prec
      ((opened S room st st.mtok).prec.rightOf st.mtok) ((opened S room st st.mtok).prec.toC.rightOf st.mtok) := by
  have open_ := opened_alike S room st st.mtok
  refine ⟨(h.ahead hne).alike open_, ?_⟩
  rw [open_.prec]
  exact hT.cuts_right h.zsh h.tok hop.2.2 htop

theorem operator_behind (hT : Agreeing (Lexed S lx₀)) (hl : LoopBehind S lx₀ loop) (h : Behind S lx₀ st)
    (hop : isOperator st.mtok) (htop : st.prec.at st.mtok ≤ st.prec.top_prec) (hne : st.mtok ≠ .EOI) :
    Behind S lx₀ (St.operator S room me loop st st.mtok) ∧
      (St.operator S room me loop st st.mtok).prec = st.prec := by
  by_cases hleft : st.stack = [] ∧ (OP_TYPE st.mtok).is_binary = true
  · unfold St.operator
    dsimp only
    rw [if_pos hleft]
    exact ⟨h.alike ⟨rfl, rfl, rfl, _, rfl⟩, rfl⟩
  · have open_ := opened_alike S room st st.mtok
    obtain ⟨ahead, hc⟩ := @right_level S lx₀ room st hT h hop htop hne
    have tok : Lexed S lx₀ (opened S room st st.mtok).mtok := by
      rw [open_.mtok]
      exact h.tok
    obtain ⟨behind, hprec⟩ := enter_behind hl ahead tok hc.le
    rw [operator_eq S room me loop st.mtok hleft]
    have done := op_alike S room me (behindRight S room loop st st.mtok) st.mtok
    have side : Alike (St.enter S loop ((opened S room st st.mtok).prec.rightOf st.mtok) (opened S room st st.mtok))
        (behindRight S room loop st st.mtok) := ⟨rfl, rfl, rfl, _, rfl⟩
    exact ⟨(behind.alike side).alike done, done.prec.trans (side.prec.trans (hprec.trans open_.prec))⟩

include hS hme in
theorem operator_swap (hT : Agreeing (Lexed S lx₀)) (hl : LoopSwap S lx₀ loop trace) (h : Behind S lx₀ st)
    (hop : isOperator st.mtok) (htop : st.prec.at st.mtok ≤ st.prec.top_prec) (hne : st.mtok ≠ .EOI) :
    St.operator S room me loop st.toC st.mtok = (St.operator S room me loop st st.mtok).toC ∧
      operatorTrace S room trace loop st.toC st.mtok = operatorTrace S room trace loop st st.mtok := by
  have hstack : st.toC.stack = st.stack := rfl
  by_cases hleft : st.stack = [] ∧ (OP_TYPE st.mtok).is_binary = true
  · unfold St.operator operatorTrace
    dsimp only
    rw [hstack, if_pos hleft, if_pos hleft, if_pos hleft, if_pos hleft]
    exact ⟨rfl, rfl⟩
  · have hleft' : ¬ (st.toC.stack = [] ∧ (OP_TYPE st.mtok).is_binary = true) := hleft
    obtain ⟨ahead, hc⟩ := @right_level S lx₀ room st hT h hop htop hne
    obtain ⟨heq, htrace⟩ := enter_swap hl ahead hc
    have hside : (opened S room st st.mtok).toC.prec = (opened S room st st.mtok).prec.toC := rfl
    have hbehind : behindRight S room loop st.toC st.mtok = (behindRight S room loop st st.mtok).toC := by
      unfold behindRight
      dsimp only
      rw [opened_toC hS, hside, heq]
      rfl
    rw [operator_eq S room me loop st.mtok hleft, operator_eq S room me loop st.mtok hleft', hbehind]
    unfold operatorTrace
    rw [if_neg hleft, if_neg hleft', hbehind, opened_toC hS, hside, htrace]
    exact ⟨St.op_toC hS hme _ _, rfl⟩

end Operator

section Loop

variable (hS : Blind S) (hme : me.Blind)

theorem pushed_alike {st' : St} (h : Pushed st st') : Alike st st' := by
  obtain ⟨st₁, val, lval, read, rfl⟩ := h
  exact (Alike.of_steady read.steady).trans ⟨rfl, rfl, rfl, _, rfl⟩

theorem push_behind (h : Behind S lx₀ st) (hne : st.mtok ≠ .EOI) {st' : St} (hp : Pushed st st') :
    Behind S lx₀ (st'.nextToken S) ∧ (st'.nextToken S).prec = st.prec := by
  have pushed := pushed_alike hp
  exact ⟨((h.ahead hne).alike pushed).nextToken, (kept_nextToken S st').prec.trans pushed.prec⟩

theorem round_behind (hT : Agreeing (Lexed S lx₀)) (hl : LoopBehind S lx₀ loop) (h : Behind S lx₀ st)
    (htop : st.prec.at st.mtok ≤ st.prec.top_prec) (hne : st.mtok ≠ .EOI) :
    Behind S lx₀ (St.round S room me loop st) ∧ (St.round S room me loop st).prec = st.prec := by
  unfold St.round
  split
  · exact push_behind h hne ⟨st, _, _, .refl st, rfl⟩
  · exact push_behind h hne (pushed_id st)
  · exact push_behind h hne (pushed_cid S room st)
  · exact push_behind h hne (pushed_func S room st)
  · exact paren_behind hl (h.ahead hne) h.tok
  · next hm => exact quest_behind hl h hm
  · next h1 h2 h3 h4 h5 h6 =>
    refine operator_behind hT hl h ⟨h6, h5, ?_⟩ htop hne
    simp only [List.mem_cons, List.not_mem_nil, or_false, not_or]
    exact ⟨h1, h2, h3, h4⟩

theorem roundTrace_operator (hop : isOperator st.mtok) :
    roundTrace S room trace loop st = operatorTrace S room trace loop st st.mtok := by
  obtain ⟨hquest, hparen, hoperand⟩ := hop
  simp only [List.mem_cons, List.not_mem_nil, or_false, not_or] at hoperand
  unfold roundTrace
  split
  · exact absurd ‹_› hoperand.1
  · exact absurd ‹_› hoperand.2.1
  · exact absurd ‹_› hoperand.2.2.1
  · exact absurd ‹_› hoperand.2.2.2
  · exact absurd ‹_› hparen
  · exact absurd ‹_› hquest
  · rfl

include hS hme in
theorem round_swap (hT : Agreeing (Lexed S lx₀)) (hb : LoopBehind S lx₀ loop) (hl : LoopSwap S lx₀ loop trace)
    (h : Behind S lx₀ st) (htop : st.prec.at st.mtok ≤ st.prec.top_prec) (hne : st.mtok ≠ .EOI) :
    St.round S room me loop st.toC = (St.round S room me loop st).toC ∧
      roundTrace S room trace loop st.toC = roundTrace S room trace loop st := by
  have hmtok : st.toC.mtok = st.mtok := rfl
  unfold St.round
  rw [hmtok]
  split
  · next hm =>
    refine ⟨St.nextToken_toC (st.push st.yyval none), ?_⟩
    unfold roundTrace
    rw [hmtok, hm]
  · next hm =>
    refine ⟨St.nextToken_toC st.pushId, ?_⟩
    unfold roundTrace
    rw [hmtok, hm]
  · next hm =>
    rw [St.pushCid_toC hS]
    refine ⟨St.nextToken_toC _, ?_⟩
    unfold roundTrace
    rw [hmtok, hm]
  · next hm =>
    rw [St.pushFunc_toC hS]
    refine ⟨St.nextToken_toC _, ?_⟩
    unfold roundTrace
    rw [hmtok, hm]
  · next hm =>
    refine ⟨paren_swap hl (h.ahead hne), ?_⟩
    unfold roundTrace
    rw [hmtok, hm]
    exact (enter_swap hl (h.ahead hne) (cuts_top h.zsh)).2
  · next hm => exact quest_swap hS hme hb hl h hm
  · next h1 h2 h3 h4 h5 h6 =>
    have hop : isOperator st.mtok := by
      refine ⟨h6, h5, ?_⟩
      simp only [List.mem_cons, List.not_mem_nil, or_false, not_or]
      exact ⟨h1, h2, h3, h4⟩
    have hop' : isOperator st.toC.mtok := hop
    rw [roundTrace_operator hop, roundTrace_operator hop']
    exact operator_swap hS hme hT hl h hop htop hne

theorem parseLoop_behind (hT : Agreeing (Lexed S lx₀)) (fuel : Nat) :
    LoopBehind S lx₀ (St.parseLoop S room me fuel) := by
  induction fuel with
  | zero =>
      intro pc st _ h
      exact ⟨h.alike ⟨rfl, rfl, rfl, _, rfl⟩, rfl⟩
  | succ fuel ih =>
      intro pc st hle h
      unfold St.parseLoop
      split
      · exact ⟨h, rfl⟩
      · next hlow =>
        split
        · exact ⟨h, rfl⟩
        · have htop : st.prec.at st.mtok ≤ st.prec.top_prec := Nat.le_trans (Nat.le_of_not_lt hlow) hle
          have hne : st.mtok ≠ .EOI := by
            intro hm
            rw [hm] at htop
            revert htop
            cases st.prec <;> decide
          obtain ⟨behind, hprec⟩ := round_behind hT ih h htop hne
          obtain ⟨after, hprec'⟩ := ih pc _ (hprec ▸ hle) behind
          exact ⟨after, hprec'.trans hprec⟩

include hS hme in
theorem parseLoop_swap (hT : Agreeing (Lexed S lx₀)) (fuel : Nat) :
    LoopSwap S lx₀ (St.parseLoop S room me fuel) (loopTrace S room me fuel) := by
  induction fuel with
  | zero =>
      intro pc pc' st _ _
      exact ⟨rfl, rfl⟩
  | succ fuel ih =>
      intro pc pc' st h hc
      have hmtok : st.toC.mtok = st.mtok := rfl
      have hprec : st.toC.prec = st.prec.toC := rfl
      have herror : st.toC.error = st.error := rfl
      have hcut := hc.cut st.mtok h.tok
      unfold St.parseLoop loopTrace
      rw [hmtok, hprec, herror]
      by_cases hlow : pc < st.prec.at st.mtok
      · rw [if_pos hlow, if_pos (hcut.mp hlow), if_pos hlow, if_pos (hcut.mp hlow)]
        exact ⟨rfl, rfl⟩
      · rw [if_neg hlow, if_neg (mt hcut.mpr hlow), if_neg hlow, if_neg (mt hcut.mpr hlow)]
        split
        · exact ⟨rfl, rfl⟩
        · have htop : st.prec.at st.mtok ≤ st.prec.top_prec := Nat.le_trans (Nat.le_of_not_lt hlow) hc.le
          have hne : st.mtok ≠ .EOI := by
            intro hm
            rw [hm] at htop
            revert htop
            cases st.prec <;> decide
          have hb := @parseLoop_behind S lx₀ room me hT fuel
          obtain ⟨hround, htrace⟩ := round_swap hS hme hT hb ih h htop hne
          obtain ⟨behind, hkept⟩ := @round_behind S lx₀ room me _ st hT hb h htop hne
          obtain ⟨hloop, hrest⟩ := ih pc pc' _ behind (hkept ▸ hc)
          rw [hround, htrace, hloop, hrest]
          exact ⟨rfl, rfl⟩

end Loop

end Parse

end Zshrs.Math.Shape
