import Zshrs.Math.Rounds

namespace Zshrs.Math.Shape

section Rounds

variable (S : Shell) (room : Nat) (me : Matheval)

/-- The tokens that a round treats as an operator. -/
def isOperator (tok : Token) : Prop :=
  tok ≠ .QUEST ∧ tok ≠ .M_INPAR ∧ tok ∉ [Token.NUM, .ID, .CID, .FUNC]

/-- The calls of `mathparse` in a round: their levels, and the states they start in. -/
inductive Calls (loop : Nat → St → St) (st : St) : Nat → St → Prop
  | paren : st.mtok = .M_INPAR → Calls loop st st.prec.top_prec st
  | middle (mv : Mathvalue) (base : List Mathvalue) (q : Bool) : st.mtok = .QUEST →
    st.stack = mv :: base → q = !isZero (st.get_value S room mv).2 →
    Calls loop st (middleCall S ((st.get_value S room mv).1.raise !q)).1
      (middleCall S ((st.get_value S room mv).1.raise !q)).2
  | other (mv : Mathvalue) (base : List Mathvalue) (st₂ : St) (q : Bool) : st.mtok = .QUEST →
    st.stack = mv :: base → q = !isZero (st.get_value S room mv).2 →
    st₂ = behindMiddle S loop (st.get_value S room mv).1 (st.get_value S room mv).2 →
    st₂.mtok = .COLON → Calls loop st (elseLevel S (st₂.raise q)) (st₂.raise q)
  | right : isOperator st.mtok → ¬ (st.stack = [] ∧ (OP_TYPE st.mtok).is_binary = true) →
    Calls loop st ((opened S room st st.mtok).prec.rightOf st.mtok) (opened S room st st.mtok)

/-- The loop of `mathparse` goes into a round. -/
def Running (pc : Nat) (st : St) : Prop := ¬ pc < st.prec.at st.mtok ∧ st.error = none

/-- A call of `mathparse` comes to its loop. -/
def Entered (pc : Nat) (st : St) : Prop :=
  st.error = none ∧ ¬ (pc = st.prec.top_prec ∧ (st.lexToken S).mtok = .EOI)

/-- The rounds that a loop comes to, its own and those of the calls in them. A round with `fuel`
left calls the loop with that `fuel`. -/
inductive Comes : Nat → Nat → St → Nat → St → Prop
  | here {fuel pc : Nat} {st : St} : Running pc st → Comes (fuel + 1) pc st fuel st
  | later {fuel pc left : Nat} {st st' : St} : Running pc st →
    Comes fuel pc (St.round S room me (St.parseLoop S room me fuel) st) left st' →
    Comes (fuel + 1) pc st left st'
  | within {fuel pc level left : Nat} {st call st' : St} : Running pc st →
    Calls S room (St.parseLoop S room me fuel) st level call → Entered S level call →
    Comes fuel level (call.nextToken S) left st' → Comes (fuel + 1) pc st left st'

variable {S room me} {loop : Nat → St → St} {base : List Mathvalue} {st : St}

theorem Running.tight {pc : Nat} (h : Running pc st) (hr : Ready pc base st) :
    Head base st ∧ st.prec.at st.mtok ≤ st.prec.top_prec :=
  ⟨hr.head h.2, Nat.le_trans (Nat.le_of_not_lt h.1) hr.le_top⟩

/-- A call in a round starts where an operand is wanted, or where the loop may look for one. -/
theorem Calls.callable (hl : LoopSpec loop) (hh : Head base st)
    (htop : st.prec.at st.mtok ≤ st.prec.top_prec) {level : Nat} {call : St}
    (h : Calls S room loop st level call) : ∃ base', Callable level base' call := by
  cases h with
  | paren hm =>
    have hstack := hh.stack
    have hunary := hh.unary
    rw [hm] at hstack hunary
    exact ⟨base, top_ge st.prec, Nat.le_refl _, fun _ => .of_unary hunary hstack⟩
  | middle mv base' q hm hs hq =>
    have read := reads_get_value S room st mv
    have hu := (unary_of_steady read.steady).trans (hh.quest hm).1
    refine ⟨mv :: base', middle_callable S ?_ ?_⟩
    · exact (unary_raise _ _).trans hu
    · exact (stack_raise _ _).trans (read.stack.trans hs)
  | other mv base' st₂ q hm hs hq hst hcolon =>
    have read := reads_get_value S room st mv
    have hu := (unary_of_steady read.steady).trans (hh.quest hm).1
    have middle := behindMiddle_ends S hl (st.get_value S room mv).2 hu (read.stack.trans hs)
    rw [← hst] at middle
    have bounds := elseLevel_bounds S (st₂.raise q)
    refine ⟨(st₂.raise q).stack, bounds.1, Nat.le_of_lt bounds.2, fun he => ?_⟩
    apply Entry.of_unary _ rfl
    have fine : st₂.error = none := by
      cases q with
      | true => exact he
      | false => exact he
    exact (unary_raise st₂ q).trans (middle.colon hcolon fine).1
  | right hop hleft =>
    obtain ⟨base', -, entry, -⟩ := operator_left rfl hh hop.1 hop.2.1 hop.2.2
    exact ⟨base', opened_callable S room entry htop hop.2.1 hop.2.2⟩

/-- Every round that a loop comes to finds the operands that its token wants. -/
theorem Comes.head {fuel pc left : Nat} {st' : St} (h : Comes S room me fuel pc st left st') :
    ∀ {base : List Mathvalue}, Ready pc base st →
      ∃ base', Head base' st' ∧ st'.prec.at st'.mtok ≤ st'.prec.top_prec ∧ st'.error = none := by
  induction h with
  | here running =>
    intro base ready
    obtain ⟨head, htop⟩ := running.tight ready
    exact ⟨base, head, htop, running.2⟩
  | later running _ ih =>
    intro base ready
    obtain ⟨head, htop⟩ := running.tight ready
    exact ih ((goes_round S room me (parseLoop_spec S room me _) head htop).ready ready)
  | within running hcall _ _ ih =>
    intro base ready
    obtain ⟨head, htop⟩ := running.tight ready
    obtain ⟨base', callable⟩ := hcall.callable (parseLoop_spec S room me _) head htop
    exact ih (callable.ready S)

/-- The state in which `mathevall` starts to parse, and the level it parses at. -/
def parsing (S : Shell) (st : St) : St := (st.syncOptions S).skipBlanks

def parsingLevel (prec_tp : PrecType) (st : St) : Nat :=
  if prec_tp = .MPREC_TOP then st.prec.top_prec else st.prec.at .COMMA - 1

/-- The rounds that an evaluation comes to, without those of its nested evaluations. -/
structure Meets (S : Shell) (room : Nat) (prec_tp : PrecType) (st : St) (left : Nat) (st' : St) :
    Prop where
  begins : ¬ (prec_tp = .MPREC_TOP ∧ (parsing S st).input.length ≤ (parsing S st).pos)
  entered : Entered S (parsingLevel prec_tp (parsing S st)) (parsing S st)
  comes : Comes S room (matheval S room)
    ((parsing S st).input.length + 1) (parsingLevel prec_tp (parsing S st))
    ((parsing S st).nextToken S) left st'

theorem parsing_callable (prec_tp : PrecType) (hu : st.unary = true) :
    Callable (parsingLevel prec_tp (parsing S st)) st.stack (parsing S st) := by
  have bounds : ∀ p : PrecTable, 2 ≤ p.top_prec ∧ 2 ≤ p.at .COMMA - 1 ∧
      p.at .COMMA - 1 ≤ p.top_prec := by
    intro p
    cases p <;> decide
  obtain ⟨h1, h2, h3⟩ := bounds (parsing S st).prec
  unfold parsingLevel
  split
  · exact ⟨h1, Nat.le_refl _, fun _ => .of_unary hu rfl⟩
  · exact ⟨h2, h3, fun _ => .of_unary hu rfl⟩

/-- Every round that an evaluation comes to finds the operands that its token wants. -/
theorem Meets.head {prec_tp : PrecType} {left : Nat} {st' : St}
    (h : Meets S room prec_tp st left st') (hu : st.unary = true) :
    ∃ base, Head base st' ∧ st'.prec.at st'.mtok ≤ st'.prec.top_prec ∧ st'.error = none :=
  h.comes.head ((parsing_callable prec_tp hu).ready S)

end Rounds

end Zshrs.Math.Shape
