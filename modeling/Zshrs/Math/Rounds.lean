import Zshrs.Math.Shape

namespace Zshrs.Math.Shape

/-- What a parse leaves as it is. -/
structure Kept (st st' : St) : Prop where
  noeval : st'.noeval = st.noeval
  prec : st'.prec = st.prec
  c_precedences : st'.c_precedences = st.c_precedences

namespace Kept

variable {st st' st'' : St}

theorem refl (st : St) : Kept st st := ⟨rfl, rfl, rfl⟩

theorem trans (h : Kept st st') (k : Kept st' st'') : Kept st st'' :=
  ⟨k.noeval.trans h.noeval, k.prec.trans h.prec, k.c_precedences.trans h.c_precedences⟩

theorem of_held (h : Held st st') : Kept st st' := ⟨h.noeval, h.prec, h.c_precedences⟩

theorem of_steady (h : st'.steady = st.steady) : Kept st st' := by
  constructor
  · have same := congrArg Frame.noeval h
    exact same
  · have same := congrArg Frame.prec h
    exact same
  · have same := congrArg Frame.c_precedences h
    exact same

end Kept

theorem mtok_of_steady {st st' : St} (h : st'.steady = st.steady) : st'.mtok = st.mtok := by
  have same := congrArg Frame.mtok h
  exact same

theorem unary_of_steady {st st' : St} (h : st'.steady = st.steady) : st'.unary = st.unary := by
  have same := congrArg (fun f : Frame => f.unary) h
  exact same

/-- Where an operand is wanted there is none on `base`; elsewhere there is one. -/
def Entry (base : List Mathvalue) (st : St) : Prop :=
  if st.unary then st.stack = base else ∃ v : Mathvalue, st.stack = v :: base

/-- At the head of the loop: the token that has been read fits the operands on `base`. -/
structure Head (base : List Mathvalue) (st : St) : Prop where
  unary : st.unary = !(OP_TYPE st.mtok).OP_OPF
  stack : if (OP_TYPE st.mtok).is_op_token then ∃ v : Mathvalue, st.stack = v :: base
    else st.stack = base

/-- Behind an operand. -/
def Operand (base : List Mathvalue) (st : St) : Prop :=
  (OP_TYPE st.mtok).is_op_token ∧ Head base st

theorem Operand.stack {base : List Mathvalue} {st : St} (h : Operand base st) :
    ∃ v : Mathvalue, st.stack = v :: base := by
  have hs := h.2.stack
  rwa [if_pos h.1] at hs

/-- A parse that has come to its end: behind one operand on `base`, unless it has failed. -/
structure Ends (base : List Mathvalue) (st st' : St) : Prop where
  kept : Kept st st'
  operand : st'.error = none → Operand base st'

theorem Ends.of_kept {base : List Mathvalue} {st st₁ st' : St} (h : Ends base st₁ st')
    (k : Kept st st₁) : Ends base st st' :=
  ⟨k.trans h.kept, h.operand⟩

/-- A state in which the loop of `mathparse` may start at a level. -/
structure Ready (pc : Nat) (base : List Mathvalue) (st : St) : Prop where
  two_le : 2 ≤ pc
  le_top : pc ≤ st.prec.top_prec
  head : st.error = none → Head base st

/-- A state in which `mathparse` may be called at a level. -/
structure Callable (pc : Nat) (base : List Mathvalue) (st : St) : Prop where
  two_le : 2 ≤ pc
  le_top : pc ≤ st.prec.top_prec
  entry : st.error = none → Entry base st

def LoopSpec (loop : Nat → St → St) : Prop :=
  ∀ (pc : Nat) (base : List Mathvalue) (st : St), Ready pc base st → Ends base st (loop pc st)

/-- What a round keeps. -/
structure Goes (base : List Mathvalue) (st st' : St) : Prop where
  kept : Kept st st'
  head : st'.error = none → Head base st'

theorem Entry.of_unary {base : List Mathvalue} {st : St} (hu : st.unary = true)
    (hs : st.stack = base) : Entry base st := by
  unfold Entry
  rw [hu]
  exact hs

theorem Entry.of_operand {base : List Mathvalue} {st : St} (hu : st.unary = false) {v : Mathvalue}
    (hs : st.stack = v :: base) : Entry base st := by
  unfold Entry
  rw [hu]
  exact ⟨v, hs⟩

section Tokens

variable (S : Shell) {base : List Mathvalue} {st : St}

/-- The token that `checkunary` lets pass is of the kind that the operands want. -/
theorem head_checkunary (h : Entry base st) (he : st.checkunary.error = none) :
    Head base st.checkunary := by
  obtain ⟨hstack, hmtok, -⟩ := checkunary_eq st
  refine ⟨?_, ?_⟩
  · rw [hmtok]
    rfl
  · rw [hmtok, hstack]
    unfold St.checkunary at he
    unfold Entry at h
    dsimp only at he
    cases hop : (OP_TYPE st.mtok).is_op_token with
    | true =>
      cases hu : st.unary with
      | true => simp [hop, hu, St.m_error_set] at he
      | false =>
        rw [hu] at h
        exact h
    | false =>
      cases hu : st.unary with
      | true =>
        rw [hu] at h
        exact h
      | false => simp [hop, hu, St.m_error_set] at he

theorem head_nextToken (h : st.error = none → Entry base st) (he : (st.nextToken S).error = none) :
    Head base (st.nextToken S) := by
  have fine : st.error = none := by
    by_contra hne
    have failed := St.error_nextToken S (Option.isSome_iff_ne_none.mpr hne)
    rw [he] at failed
    exact Bool.noConfusion failed
  apply head_checkunary _ he
  have entry := h fine
  unfold Entry at entry ⊢
  rw [St.unary_lexToken]
  exact entry

theorem kept_nextToken (st : St) : Kept st (st.nextToken S) := .of_held (held_nextToken S st)

/-- The first token makes the loop ready. -/
theorem Callable.ready {pc : Nat} (h : Callable pc base st) : Ready pc base (st.nextToken S) := by
  refine ⟨h.two_le, ?_, head_nextToken S h.entry⟩
  rw [(kept_nextToken S st).prec]
  exact h.le_top

/-- An operand has been pushed, and the next token is read. -/
theorem goes_pushed {st₁ : St} (k : Kept st st₁) (hu : st₁.unary = false)
    (hs : ∃ v : Mathvalue, st₁.stack = v :: base) : Goes base st (st₁.nextToken S) := by
  refine ⟨k.trans (kept_nextToken S st₁), head_nextToken S fun _ => ?_⟩
  obtain ⟨v, hv⟩ := hs
  exact .of_operand hu hv

end Tokens

section Calls

variable (S : Shell) {loop : Nat → St → St} {base : List Mathvalue} {st : St}

/-- `mathparse` as a call. At the level of a whole expression it may find nothing. -/
theorem enter_spec (hl : LoopSpec loop) {pc : Nat} (h : Callable pc base st) :
    Ends base st (St.enter S loop pc st) ∨
      (pc = st.prec.top_prec ∧ (St.enter S loop pc st).mtok = .EOI ∧
        Kept st (St.enter S loop pc st)) := by
  unfold St.enter
  split
  · next hs =>
    left
    refine ⟨.refl st, fun he => ?_⟩
    rw [he] at hs
    exact Bool.noConfusion hs
  · dsimp only
    split
    · next heoi => exact .inr ⟨heoi.1, heoi.2, ⟨rfl, rfl, rfl⟩⟩
    · exact .inl ((hl pc base _ (h.ready S)).of_kept (kept_nextToken S st))

/-- Below the level of a whole expression an operand is read. -/
theorem enter_ends (hl : LoopSpec loop) {pc : Nat} (h : Callable pc base st)
    (htop : pc < st.prec.top_prec) : Ends base st (St.enter S loop pc st) := by
  rcases enter_spec S hl h with h | ⟨h, -⟩
  · exact h
  · exact absurd h (Nat.ne_of_lt htop)

/-- The level and the table that the middle operand of a ternary is parsed with. -/
def middleCall (st : St) : Nat × St :=
  if S.bash_mode ∨ S.posix_faithful then
    let middle := if st.c_precedences then PrecTable.C_PREC_TERNARY_MIDDLE
      else .Z_PREC_TERNARY_MIDDLE
    (middle.at .EQ, { st with prec := middle })
  else (st.prec.at .COLON - 1, st)

def elseLevel (st : St) : Nat := st.prec.at (if S.korn_mode then .EQ else .QUEST)

theorem middleCall_eq (st : St) : ∃ p : PrecTable, (middleCall S st).2 = { st with prec := p } ∧
    2 ≤ (middleCall S st).1 ∧ (middleCall S st).1 < p.top_prec := by
  unfold middleCall
  split
  · refine ⟨_, rfl, middle_level ?_⟩
    split
    · exact .inl rfl
    · exact .inr rfl
  · exact ⟨st.prec, rfl, colon_level st.prec⟩

theorem elseLevel_bounds (st : St) : 2 ≤ elseLevel S st ∧ elseLevel S st < st.prec.top_prec := by
  apply else_level
  split
  · exact .inl rfl
  · exact .inr rfl

theorem middle_callable (hu : st.unary = true) (hs : st.stack = base) :
    Callable (middleCall S st).1 base (middleCall S st).2 := by
  obtain ⟨p, hcall, two_le, hlt⟩ := middleCall_eq S st
  rw [hcall]
  exact ⟨two_le, Nat.le_of_lt hlt, fun _ => .of_unary hu hs⟩

theorem else_callable (hu : st.unary = true) (hs : st.stack = base) :
    Callable (elseLevel S st) base st := by
  obtain ⟨two_le, hlt⟩ := elseLevel_bounds S st
  exact ⟨two_le, Nat.le_of_lt hlt, fun _ => .of_unary hu hs⟩

theorem middle_enters (hl : LoopSpec loop) (hu : st.unary = true) (hs : st.stack = base) :
    Ends base (middleCall S st).2 (St.enter S loop (middleCall S st).1 (middleCall S st).2) := by
  apply enter_ends S hl (middle_callable S hu hs)
  obtain ⟨p, hcall, -, hlt⟩ := middleCall_eq S st
  rw [hcall]
  exact hlt

theorem questMiddle_ends (hl : LoopSpec loop) (hu : st.unary = true) (hs : st.stack = base) :
    Ends base st (St.questMiddle S loop st) := by
  have side := middle_enters S hl hu hs
  unfold middleCall at side
  unfold St.questMiddle
  split at side
  · rw [if_pos ‹_›]
    exact ⟨⟨side.kept.noeval, rfl, side.kept.c_precedences⟩,
      fun he => ⟨(side.operand he).1, (side.operand he).2.unary, (side.operand he).2.stack⟩⟩
  · rw [if_neg ‹_›]
    exact side

theorem questElse_ends (hl : LoopSpec loop) (hu : st.unary = true) (hs : st.stack = base) :
    Ends base st (St.questElse S loop st) :=
  enter_ends S hl (else_callable S hu hs) (elseLevel_bounds S st).2

theorem raise_eq (st : St) (b : Bool) : ∃ n, st.raise b = { st with noeval := n } := by
  cases b with
  | true => exact ⟨_, rfl⟩
  | false => exact ⟨st.noeval, rfl⟩

/-- A side of a ternary, with `noeval` raised for it and lowered again. -/
theorem ends_raised {f : St → St} {b : Bool} (h : Ends base (st.raise b) (f (st.raise b))) :
    Ends base st ((f (st.raise b)).lower b) := by
  rw [lower_raise h.kept.noeval]
  obtain ⟨n, hr⟩ := raise_eq st b
  rw [hr] at h ⊢
  exact ⟨⟨rfl, h.kept.prec, h.kept.c_precedences⟩,
    fun he => ⟨(h.operand he).1, (h.operand he).2.unary, (h.operand he).2.stack⟩⟩

theorem unary_raise (st : St) (b : Bool) : (st.raise b).unary = st.unary := by
  cases b with
  | true => rfl
  | false => rfl

theorem stack_raise (st : St) (b : Bool) : (st.raise b).stack = st.stack := by
  cases b with
  | true => rfl
  | false => rfl

end Calls

section Round

variable (S : Shell) (room : Nat) (me : Matheval) {loop : Nat → St → St}
  {base : List Mathvalue} {st : St}

/-- Behind its right operand an operator goes on with the same token. -/
theorem Goes.of_yields {base' : List Mathvalue} {st₁ st' : St} (side : Operand base' st₁) (k : Kept st st₁)
    (h : Yields base st₁ st') : Goes base st st' := by
  refine ⟨k.trans (.of_steady h.steady), fun he => ⟨?_, ?_⟩⟩
  · rw [unary_of_steady h.steady, mtok_of_steady h.steady]
    exact side.2.unary
  · rw [mtok_of_steady h.steady, if_pos side.1]
    exact h.top he

theorem goes_paren (hl : LoopSpec loop) (hu : st.unary = true) (hs : st.stack = base) :
    Goes base st (St.paren S loop st) := by
  have callable : Callable st.prec.top_prec base st :=
    ⟨top_ge st.prec, Nat.le_refl _, fun _ => .of_unary hu hs⟩
  have hent := enter_spec S hl callable
  unfold St.paren
  generalize St.enter S loop st.prec.top_prec st = st₁ at hent ⊢
  dsimp only
  split
  · next hne =>
    have failed : ∀ msg, (st₁.m_error_set msg).error ≠ none := fun msg => by simp [St.m_error_set]
    rcases hent with h | ⟨-, -, kept⟩
    · exact ⟨h.kept.trans ⟨rfl, rfl, rfl⟩, fun he => absurd he (failed _)⟩
    · exact ⟨kept.trans ⟨rfl, rfl, rfl⟩, fun he => absurd he (failed _)⟩
  · next hm =>
    have hm : st₁.mtok = .M_OUTPAR := by simpa using hm
    rcases hent with h | ⟨-, heoi, -⟩
    · refine ⟨h.kept.trans (kept_nextToken S st₁), head_nextToken S fun he => ?_⟩
      obtain ⟨v, hstack⟩ := (h.operand he).stack
      apply Entry.of_operand _ hstack
      rw [(h.operand he).2.unary, hm]
      rfl
    · rw [hm] at heoi
      exact Token.noConfusion heoi

/-- `bop` reads the left side, and raises `noeval` at most. -/
theorem bop_reads (st : St) (tk : Token) :
    ∃ st₁ n, Reads st st₁ ∧ st.bop S room tk = { st₁ with noeval := n } := by
  unfold St.bop
  split
  · exact ⟨st, st.noeval, .refl st, rfl⟩
  · next mv stack _ =>
    have read := reads_value_of S room st mv
    generalize st.value_of S room mv = p at read ⊢
    obtain ⟨st₁, val⟩ := p
    dsimp only
    split
    · split
      · exact ⟨st₁, st₁.noeval, read, rfl⟩
      · exact ⟨st₁, _, read, rfl⟩
    · split
      · exact ⟨st₁, st₁.noeval, read, rfl⟩
      · exact ⟨st₁, _, read, rfl⟩
    · split
      · exact ⟨st₁, _, read, rfl⟩
      · exact ⟨st₁, st₁.noeval, read, rfl⟩
    · split
      · exact ⟨st₁, _, read, rfl⟩
      · exact ⟨st₁, st₁.noeval, read, rfl⟩
    · exact ⟨st₁, st₁.noeval, read, rfl⟩

/-- The state in which an operator starts on its right side. -/
def opened (st : St) (otok : Token) : St :=
  if (OP_TYPE otok).assoc = .BOOL then st.bop S room otok else st

theorem opened_reads (st : St) (otok : Token) :
    ∃ st₁ n, Reads st st₁ ∧ opened S room st otok = { st₁ with noeval := n } := by
  unfold opened
  split
  · exact bop_reads S room st otok
  · exact ⟨st, st.noeval, .refl st, rfl⟩

/-- Behind the right side of an operator. -/
def behindRight (loop : Nat → St → St) (st : St) (otok : Token) : St :=
  let side := opened S room st otok
  { St.enter S loop (side.prec.rightOf otok) side with noeval := st.noeval }

theorem operator_eq (loop : Nat → St → St) (otok : Token)
    (hleft : ¬ (st.stack = [] ∧ (OP_TYPE otok).is_binary = true)) :
    St.operator S room me loop st otok = (behindRight S room loop st otok).op S room me otok := by
  unfold St.operator
  dsimp only
  rw [if_neg hleft]
  rfl

/-- What stands in front of an operator's right side: its left operand, or nothing of its own. -/
inductive Left (base : List Mathvalue) (otok : Token) : List Mathvalue → Prop
  | binary (a : Mathvalue) : (OP_TYPE otok).is_binary = true → Left base otok (a :: base)
  | stray (a : Mathvalue) : (OP_TYPE otok).is_binary = false → otok = .COLON ∨ otok = .EOI →
    Left base otok (a :: base)
  | unary : (OP_TYPE otok).is_binary = false → Left base otok base

theorem operator_left {otok : Token} (hm : st.mtok = otok) (hh : Head base st) (hq : otok ≠ .QUEST)
    (hp : otok ≠ .M_INPAR) (ho : otok ∉ [Token.NUM, .ID, .CID, .FUNC]) :
    ∃ base', Left base otok base' ∧ Entry base' st ∧
      ¬ (st.stack = [] ∧ (OP_TYPE otok).is_binary = true) := by
  have hstack := hh.stack
  have hunary := hh.unary
  rw [hm] at hstack hunary
  rcases operator_class hq hp ho with ⟨hbin, hopf⟩ | ⟨hstray, hbin⟩ | ⟨hbin, hside⟩
  · have hisop : (OP_TYPE otok).is_op_token = true := by
      unfold OpType.is_op_token
      rw [hbin]
      rfl
    rw [if_pos hisop] at hstack
    obtain ⟨a, hs⟩ := hstack
    exact ⟨a :: base, .binary a hbin, .of_unary (by rw [hunary, hopf]; rfl) hs, by simp [hs]⟩
  · have hclass : (OP_TYPE otok).is_op_token = true ∧ (OP_TYPE otok).OP_OPF = false := by
      rcases hstray with rfl | rfl
      · decide
      · decide
    rw [if_pos hclass.1] at hstack
    obtain ⟨a, hs⟩ := hstack
    exact ⟨a :: base, .stray a hbin hstray, .of_unary (by rw [hunary, hclass.2]; rfl) hs,
      by simp [hs]⟩
  · refine ⟨base, .unary hbin, ?_, by simp [hbin]⟩
    unfold Entry
    rw [hunary, ← hside]
    cases hop : (OP_TYPE otok).is_op_token with
    | true =>
      rw [if_pos hop] at hstack
      exact hstack
    | false =>
      rw [hop] at hstack
      exact hstack

theorem Reads.entry {st₁ : St} (h : Reads st st₁) (he : Entry base st) : Entry base st₁ := by
  unfold Entry at he ⊢
  rw [unary_of_steady h.steady, h.stack]
  exact he

theorem opened_callable {otok : Token} {base' : List Mathvalue} (he : Entry base' st)
    (htop : st.prec.at otok ≤ st.prec.top_prec) (hp : otok ≠ .M_INPAR)
    (ho : otok ∉ [Token.NUM, .ID, .CID, .FUNC]) :
    Callable ((opened S room st otok).prec.rightOf otok) base' (opened S room st otok) := by
  obtain ⟨st₁, n, read, hopened⟩ := opened_reads S room st otok
  have hprec : st₁.prec = st.prec := (Kept.of_steady read.steady).prec
  have entry := read.entry he
  rw [hopened]
  refine ⟨rightOf_ge _ hp ho, Nat.le_of_lt (st₁.prec.rightOf_lt_top ?_), fun _ => entry⟩
  rw [hprec]
  exact htop

/-- The right side of an operator: it stands on what was in front of it. -/
theorem side_ends (hl : LoopSpec loop) {otok : Token} {base' : List Mathvalue} (he : Entry base' st)
    (htop : st.prec.at otok ≤ st.prec.top_prec) (hp : otok ≠ .M_INPAR)
    (ho : otok ∉ [Token.NUM, .ID, .CID, .FUNC]) :
    Ends base' st (behindRight S room loop st otok) := by
  have callable := opened_callable S room he htop hp ho
  obtain ⟨st₁, n, read, hopened⟩ := opened_reads S room st otok
  have kept := Kept.of_steady read.steady
  have hlt : (opened S room st otok).prec.rightOf otok < (opened S room st otok).prec.top_prec := by
    rw [hopened]
    apply st₁.prec.rightOf_lt_top
    rw [kept.prec]
    exact htop
  have side := enter_ends S hl callable hlt
  unfold behindRight
  dsimp only
  rw [hopened] at side ⊢
  refine ⟨⟨rfl, side.kept.prec.trans kept.prec, side.kept.c_precedences.trans kept.c_precedences⟩,
    fun he => ?_⟩
  have operand := side.operand he
  exact ⟨operand.1, operand.2.unary, operand.2.stack⟩

theorem goes_operator (hl : LoopSpec loop) {otok : Token} (hm : st.mtok = otok)
    (hh : Head base st) (htop : st.prec.at otok ≤ st.prec.top_prec) (hq : otok ≠ .QUEST)
    (hp : otok ≠ .M_INPAR) (ho : otok ∉ [Token.NUM, .ID, .CID, .FUNC]) :
    Goes base st (St.operator S room me loop st otok) := by
  obtain ⟨base', left, entry, hleft⟩ := operator_left hm hh hq hp ho
  have side := side_ends S room hl entry htop hp ho
  rw [operator_eq S room me loop otok hleft]
  generalize behindRight S room loop st otok = st₂ at side ⊢
  by_cases he : st₂.error = none
  · have operand := side.operand he
    obtain ⟨v, hs⟩ := operand.stack
    cases left with
    | binary a hbin => exact .of_yields operand side.kept (yields_op S room me he hbin hs)
    | stray a hbin hstray =>
      have kept := Kept.of_steady (yields_op_unary S room me he hbin hq hs).steady
      exact ⟨side.kept.trans kept, fun fine => absurd fine (op_stray S room me hstray)⟩
    | unary hbin => exact .of_yields operand side.kept (yields_op_unary S room me he hbin hq hs)
  · rw [op_failed S room me he]
    exact ⟨side.kept, fun fine => absurd fine he⟩

end Round

section Quest

variable (S : Shell) (room : Nat) (me : Matheval) {loop : Nat → St → St}
  {base : List Mathvalue} {st : St}

/-- Behind the middle operand of a ternary whose condition has been read. -/
def behindMiddle (loop : Nat → St → St) (st : St) (cond : Mnumber) : St :=
  let q := !isZero cond
  (St.questMiddle S loop (st.raise !q)).lower !q

/-- Behind its last operand. -/
def behindElse (loop : Nat → St → St) (st : St) (cond : Mnumber) : St :=
  let q := !isZero cond
  (St.questElse S loop (st.raise q)).lower q

theorem quest_eq (loop : Nat → St → St) {mv : Mathvalue} (hs : st.stack = mv :: base) :
    St.quest S room me loop st =
      let (st, cond) := st.get_value S room mv
      let middle := behindMiddle S loop st cond
      if middle.mtok ≠ .COLON then
        middle.m_error_set (if middle.stack.length > st.stack.length then
          "bad math expression: ':' expected" else St.operandMissing)
      else (behindElse S loop middle cond).op S room me .QUEST := by
  unfold St.quest
  split
  · next heq =>
    rw [hs] at heq
    cases heq
  · next mv' stack heq =>
    rw [hs] at heq
    cases heq
    rfl

theorem behindMiddle_ends (hl : LoopSpec loop) (cond : Mnumber) (hu : st.unary = true)
    (hs : st.stack = base) : Ends base st (behindMiddle S loop st cond) := by
  apply ends_raised
  apply questMiddle_ends S hl
  · exact (unary_raise st _).trans hu
  · exact (stack_raise st _).trans hs

theorem behindElse_ends (hl : LoopSpec loop) (cond : Mnumber) (hu : st.unary = true)
    (hs : st.stack = base) : Ends base st (behindElse S loop st cond) := by
  apply ends_raised
  apply questElse_ends S hl
  · exact (unary_raise st _).trans hu
  · exact (stack_raise st _).trans hs

theorem behindElse_failed (he : st.error ≠ none) (cond : Mnumber) :
    behindElse S loop st cond = st :=
  questElse_failed S he _

/-- In front of `?` stands the condition. -/
theorem Head.quest (h : Head base st) (hm : st.mtok = .QUEST) :
    st.unary = true ∧ ∃ mv : Mathvalue, st.stack = mv :: base := by
  have hstack := h.stack
  have hunary := h.unary
  rw [hm] at hstack hunary
  exact ⟨hunary, hstack⟩

/-- Behind the middle operand of a ternary, in front of its `:`. -/
theorem Ends.colon {st₂ : St} {c : Mathvalue} (h : Ends (c :: base) st st₂) (hm : st₂.mtok = .COLON)
    (he : st₂.error = none) : st₂.unary = true ∧ ∃ t : Mathvalue, st₂.stack = t :: c :: base := by
  have operand := h.operand he
  refine ⟨?_, operand.stack⟩
  rw [operand.2.unary, hm]
  rfl

theorem goes_quest (hl : LoopSpec loop) (hm : st.mtok = .QUEST) (hh : Head base st) :
    Goes base st (St.quest S room me loop st) := by
  obtain ⟨hu, mv, hs⟩ := hh.quest hm
  have read := reads_get_value S room st mv
  rw [quest_eq S room me loop hs]
  generalize st.get_value S room mv = p at read ⊢
  obtain ⟨st₁, cond⟩ := p
  dsimp only at read ⊢
  have kept := Kept.of_steady read.steady
  have middle := behindMiddle_ends S hl cond ((unary_of_steady read.steady).trans hu)
    (read.stack.trans hs)
  generalize behindMiddle S loop st₁ cond = st₂ at middle ⊢
  split
  · exact ⟨kept.trans (middle.kept.trans ⟨rfl, rfl, rfl⟩),
      fun e => absurd e (by simp [St.m_error_set])⟩
  · next hcolon =>
    have hcolon : st₂.mtok = .COLON := by simpa using hcolon
    by_cases he : st₂.error = none
    · obtain ⟨hu₂, t, hs₂⟩ := middle.colon hcolon he
      have other := behindElse_ends S hl cond hu₂ hs₂
      generalize behindElse S loop st₂ cond = st₃ at other ⊢
      have kept₃ := kept.trans (middle.kept.trans other.kept)
      by_cases he₃ : st₃.error = none
      · have operand := other.operand he₃
        obtain ⟨f, hs₃⟩ := operand.stack
        exact .of_yields operand kept₃ (yields_op_quest S room me hs₃ he₃)
      · rw [op_failed S room me he₃]
        exact ⟨kept₃, fun fine => absurd fine he₃⟩
    · rw [behindElse_failed S he, op_failed S room me he]
      exact ⟨kept.trans middle.kept, fun fine => absurd fine he⟩

/-- An operand that is read from the shell is pushed on the operands that are there. -/
def Pushed (st st' : St) : Prop :=
  ∃ (st₁ : St) (val : Mnumber) (lval : Option Text), Reads st st₁ ∧ st' = st₁.push val lval

theorem pushed_id (st : St) : Pushed st st.pushId := ⟨st, _, _, .refl st, rfl⟩

theorem pushed_cid (st : St) : Pushed st (st.pushCid S room) := by
  unfold St.pushCid
  dsimp only
  by_cases hn : st.noeval > 0
  · rw [if_pos hn]
    exact ⟨st, _, _, .refl st, rfl⟩
  · rw [if_neg hn]
    exact ⟨(st.answer (S.getcvar room st st.yylval)).1, _, _, ⟨rfl, rfl⟩, rfl⟩

theorem pushed_func (st : St) : Pushed st (st.pushFunc S room) := by
  unfold St.pushFunc
  by_cases hn : st.noeval > 0
  · rw [if_pos hn]
    exact ⟨st, _, _, .refl st, rfl⟩
  · rw [if_neg hn]
    exact ⟨(({ st with hist := st.hist ++ [.call st.yylval] } : St).answer
        (S.callmathfunc room st st.yylval)).1, _, _, ⟨rfl, rfl⟩, rfl⟩

/-- A token that is an operand is pushed, and the next token is read. -/
theorem goes_push (hh : Head base st) {otok : Token} (hm : st.mtok = otok)
    (ho : otok ∈ [Token.NUM, .ID, .CID, .FUNC]) {st' : St} (h : Pushed st st') :
    Goes base st (st'.nextToken S) := by
  have operand : (OP_TYPE otok).is_op_token = false ∧ (OP_TYPE otok).OP_OPF = true := by
    revert ho
    cases otok <;> decide
  have hstack := hh.stack
  have hunary := hh.unary
  rw [hm, operand.1] at hstack
  rw [hm, operand.2] at hunary
  obtain ⟨st₁, val, lval, read, rfl⟩ := h
  have kept := Kept.of_steady read.steady
  have pushed : Kept st (st₁.push val lval) := ⟨kept.noeval, kept.prec, kept.c_precedences⟩
  have hu : (st₁.push val lval).unary = false := (unary_of_steady read.steady).trans hunary
  have hs : (st₁.push val lval).stack = ⟨val, lval⟩ :: base :=
    congrArg (List.cons _) (read.stack.trans hstack)
  exact goes_pushed S pushed hu ⟨_, hs⟩

theorem goes_round (hl : LoopSpec loop) (hh : Head base st)
    (htop : st.prec.at st.mtok ≤ st.prec.top_prec) : Goes base st (St.round S room me loop st) := by
  unfold St.round
  split
  · next hm => exact goes_push S hh hm (by decide) ⟨st, _, _, .refl st, rfl⟩
  · next hm => exact goes_push S hh hm (by decide) (pushed_id st)
  · next hm => exact goes_push S hh hm (by decide) (pushed_cid S room st)
  · next hm => exact goes_push S hh hm (by decide) (pushed_func S room st)
  · next hm =>
    have hstack := hh.stack
    have hunary := hh.unary
    rw [hm] at hstack hunary
    exact goes_paren S hl hunary hstack
  · next hm => exact goes_quest S room me hl hm hh
  · next h1 h2 h3 h4 h5 h6 =>
    apply goes_operator S room me hl rfl hh htop h6 h5
    simp only [List.mem_cons, List.not_mem_nil, or_false, not_or]
    exact ⟨h1, h2, h3, h4⟩

/-- After a round the loop is ready again. -/
theorem Goes.ready {pc : Nat} {st' : St} (h : Ready pc base st) (g : Goes base st st') :
    Ready pc base st' := by
  refine ⟨h.two_le, ?_, g.head⟩
  rw [g.kept.prec]
  exact h.le_top

/-- The loop of `mathparse` reads one operand on the operands that are there. -/
theorem parseLoop_spec (fuel : Nat) : LoopSpec (St.parseLoop S room me fuel) := by
  induction fuel with
  | zero =>
    intro pc base st h
    unfold St.parseLoop
    refine ⟨⟨rfl, rfl, rfl⟩, fun e => ?_⟩
    exact absurd e (by simp [St.m_error_set])
  | succ fuel ih =>
    intro pc base st h
    unfold St.parseLoop
    split
    · next hlow =>
      -- The loop stops at a token that binds less tightly, which no operand does.
      refine ⟨.refl st, fun he => ⟨?_, h.head he⟩⟩
      cases hop : (OP_TYPE st.mtok).is_op_token with
      | true => rfl
      | false =>
        have tight := st.prec.operand_at_le hop
        have two_le := h.two_le
        omega
    · next hlow =>
      split
      · next hs => exact ⟨.refl st, fun e => by simp [e] at hs⟩
      · next hs =>
        have he : st.error = none := by simpa using hs
        have hpc : st.prec.at st.mtok ≤ st.prec.top_prec :=
          Nat.le_trans (Nat.le_of_not_lt hlow) h.le_top
        have round := goes_round S room me ih (h.head he) hpc
        exact (ih pc base _ (round.ready h)).of_kept round.kept

end Quest

end Zshrs.Math.Shape
