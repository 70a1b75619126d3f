import Zshrs.Math.Operands

namespace Zshrs.Math

/-- A muted parse that has come to its end: behind one operand on `base`, unless it has failed. -/
structure Ends (base : List Mathvalue) (st st' : St) : Prop where
  held : Held st st'
  below : base <:+ st'.stack
  operand : st'.error = none → Operand base st'

theorem Ends.of_held {base : List Mathvalue} {st st₁ st' : St} (h : Ends base st₁ st')
    (hh : Held st st₁) : Ends base st st' :=
  ⟨hh.trans h.held, h.below, h.operand⟩

/-- A muted state in which the loop of `mathparse` may start at a level. -/
structure Ready (pc : Nat) (base : List Mathvalue) (st : St) : Prop where
  two_le : 2 ≤ pc
  le_top : pc ≤ st.prec.top_prec
  muted : 0 < st.noeval
  below : base <:+ st.stack
  head : st.error = none → Head base st

def LoopSpec (loop : Nat → St → St) : Prop :=
  ∀ (pc : Nat) (base : List Mathvalue) (st : St), Ready pc base st → Ends base st (loop pc st)

section Tokens

variable (S : Shell) {base : List Mathvalue} {st : St}

theorem checkunary_eq (st : St) : st.checkunary.stack = st.stack ∧ st.checkunary.mtok = st.mtok ∧
    Held st st.checkunary := by
  unfold St.checkunary
  dsimp only
  split
  · exact ⟨rfl, rfl, ⟨rfl, rfl, rfl, rfl, rfl⟩⟩
  · split
    · exact ⟨rfl, rfl, ⟨rfl, rfl, rfl, rfl, rfl⟩⟩
    · exact ⟨rfl, rfl, ⟨rfl, rfl, rfl, rfl, rfl⟩⟩

/-- The token that `checkunary` lets pass is of the kind that the operands want. -/
theorem head_checkunary (h : Entry base st) (he : st.checkunary.error = none) :
    Head base st.checkunary := by
  obtain ⟨hstack, hmtok, -⟩ := checkunary_eq st
  refine ⟨?_, ?_⟩
  · rw [hmtok]
    rfl
  · rw [hmtok, hstack]
    unfold St.checkunary at he
    unfold Entry at h
    dsimp only at he
    cases hop : (OP_TYPE st.mtok).is_op_token with
    | true =>
      cases hu : st.unary with
      | true => simp [hop, hu, St.m_error_set] at he
      | false =>
        rw [hu] at h
        exact h
    | false =>
      cases hu : st.unary with
      | true =>
        rw [hu] at h
        exact h
      | false => simp [hop, hu, St.m_error_set] at he

theorem held_nextToken (st : St) : Held st (st.nextToken S) := by
  have lexed : Held st (st.lexToken S) := ⟨rfl, rfl, rfl, rfl, rfl⟩
  exact lexed.trans (checkunary_eq _).2.2

theorem stack_nextToken (st : St) : (st.nextToken S).stack = st.stack :=
  (checkunary_eq (st.lexToken S)).1

theorem head_nextToken (h : st.error = none → Entry base st) (he : (st.nextToken S).error = none) :
    Head base (st.nextToken S) := by
  have fine : st.error = none := by
    by_contra hne
    have failed := St.error_nextToken S (Option.isSome_iff_ne_none.mpr hne)
    rw [he] at failed
    exact Bool.noConfusion failed
  apply head_checkunary _ he
  have entry := h fine
  unfold Entry at entry ⊢
  rw [St.unary_lexToken]
  exact entry

end Tokens

section Parse

variable (S : Shell) (room : Nat) (me : Matheval) {loop : Nat → St → St}
  {base : List Mathvalue} {st : St}

/-- A muted state in which `mathparse` may be called at a level. -/
structure Callable (pc : Nat) (base : List Mathvalue) (st : St) : Prop where
  two_le : 2 ≤ pc
  le_top : pc ≤ st.prec.top_prec
  muted : 0 < st.noeval
  below : base <:+ st.stack
  entry : st.error = none → Entry base st

/-- The first token makes the loop ready. -/
theorem Callable.ready {pc : Nat} (h : Callable pc base st) : Ready pc base (st.nextToken S) := by
  have held := held_nextToken S st
  refine ⟨h.two_le, ?_, ?_, ?_, head_nextToken S h.entry⟩
  · rw [held.prec]
    exact h.le_top
  · rw [held.noeval]
    exact h.muted
  · rw [stack_nextToken]
    exact h.below

/-- `mathparse` on a muted state. At the level of a whole expression it may find nothing. -/
theorem enter_spec (hl : LoopSpec loop) {pc : Nat} (h : Callable pc base st) :
    Ends base st (St.enter S loop pc st) ∨
      (pc = st.prec.top_prec ∧ (St.enter S loop pc st).mtok = .EOI ∧
        Held st (St.enter S loop pc st) ∧ (St.enter S loop pc st).stack = st.stack) := by
  unfold St.enter
  split
  · next hs =>
    left
    refine ⟨.refl st, h.below, fun he => ?_⟩
    rw [he] at hs
    exact Bool.noConfusion hs
  · dsimp only
    split
    · next heoi => exact .inr ⟨heoi.1, heoi.2, ⟨rfl, rfl, rfl, rfl, rfl⟩, rfl⟩
    · exact .inl ((hl pc base _ (h.ready S)).of_held (held_nextToken S st))

/-- Below the level of a whole expression an operand is read. -/
theorem enter_ends (hl : LoopSpec loop) {pc : Nat} (h : Callable pc base st)
    (htop : pc < st.prec.top_prec) : Ends base st (St.enter S loop pc st) := by
  rcases enter_spec S hl h with h | ⟨h, -⟩
  · exact h
  · exact absurd h (Nat.ne_of_lt htop)

theorem top_ge (p : PrecTable) : 2 ≤ p.top_prec := by
  cases p <;> decide

theorem Entry.of_unary (hu : st.unary = true) (hs : st.stack = base) : Entry base st := by
  unfold Entry
  rw [hu]
  exact hs

theorem Entry.of_operand (hu : st.unary = false) {v : Mathvalue} (hv : v.Settled)
    (hs : st.stack = v :: base) : Entry base st := by
  unfold Entry
  rw [hu]
  exact ⟨v, hv, hs⟩

/-- What a round keeps. -/
structure Goes (base : List Mathvalue) (st st' : St) : Prop where
  held : Held st st'
  below : base <:+ st'.stack
  head : st'.error = none → Head base st'

/-- An operand has been pushed, and the next token is read. -/
theorem goes_push (hu : st.unary = false) (hs : st.stack = base) (val : Mnumber)
    (lval : Option Text) (hv : (⟨val, lval⟩ : Mathvalue).Settled) :
    Goes base st ((st.push val lval).nextToken S) := by
  have pushed : Held st (st.push val lval) := ⟨rfl, rfl, rfl, rfl, rfl⟩
  refine ⟨pushed.trans (held_nextToken S _), ?_, ?_⟩
  · rw [stack_nextToken, ← hs]
    exact List.suffix_cons _ _
  · apply head_nextToken
    intro _
    exact .of_operand hu hv (hs ▸ rfl)

theorem goes_paren (hl : LoopSpec loop) (hn : 0 < st.noeval) (hu : st.unary = true)
    (hs : st.stack = base) : Goes base st (St.paren S loop st) := by
  have hb : base <:+ st.stack := hs ▸ List.suffix_rfl
  have hent := enter_spec S hl
    ⟨top_ge st.prec, Nat.le_refl _, hn, hb, fun _ => Entry.of_unary hu hs⟩
  unfold St.paren
  generalize St.enter S loop st.prec.top_prec st = st₁ at hent ⊢
  dsimp only
  split
  · next hne =>
    have failed : ∀ msg, (st₁.m_error_set msg).error ≠ none := fun msg => by simp [St.m_error_set]
    rcases hent with h | ⟨-, -, held, hstack⟩
    · exact ⟨h.held.trans (.m_error_set _ _), h.below, fun he => absurd he (failed _)⟩
    · exact ⟨held.trans (.m_error_set _ _), hstack ▸ hb, fun he => absurd he (failed _)⟩
  · next hm =>
    have hm : st₁.mtok = .M_OUTPAR := by simpa using hm
    rcases hent with h | ⟨-, heoi, -⟩
    · refine ⟨h.held.trans (held_nextToken S _), ?_, ?_⟩
      · rw [stack_nextToken]
        exact h.below
      · apply head_nextToken
        intro he
        obtain ⟨v, hv, hstack⟩ := (h.operand he).stack
        apply Entry.of_operand _ hv hstack
        rw [(h.operand he).2.unary, hm]
        rfl
    · rw [hm] at heoi
      exact Token.noConfusion heoi

theorem pushId_eq (hn : 0 < st.noeval) : st.pushId = st.push (.integer 0) (some st.yylval) := by
  unfold St.pushId
  rw [if_pos hn]

theorem pushCid_eq (hn : 0 < st.noeval) :
    st.pushCid S room = st.push (.integer 0) (some st.yylval) := by
  unfold St.pushCid
  dsimp only
  rw [if_pos hn]

theorem pushFunc_eq (hn : 0 < st.noeval) : st.pushFunc S room = st.push (.integer 0) none := by
  unfold St.pushFunc
  rw [if_pos hn]

theorem integer_settled (n : Int64) (lval : Option Text) :
    (⟨.integer n, lval⟩ : Mathvalue).Settled :=
  .inr fun h => MnType.noConfusion h

theorem yields_op {what : Token} (hn : 0 < st.noeval) (he : st.error = none)
    (hb : (OP_TYPE what).is_binary) {a b : Mathvalue} (hs : st.stack = b :: a :: base)
    (ha : a.Settled) (hbs : b.Settled) : Yields base st (st.op S room me what) := by
  unfold St.op
  rw [if_neg (by simp [he]), if_pos hb]
  exact yields_opBinary S room me hn hs ha hbs what

theorem yields_op_unary {what : Token} (hn : 0 < st.noeval) (he : st.error = none)
    (hb : (OP_TYPE what).is_binary = false) (hq : what ≠ .QUEST) {v : Mathvalue}
    (hs : st.stack = v :: base) (hv : v.Settled) : Yields base st (st.op S room me what) := by
  unfold St.op
  rw [if_neg (by simp [he]), if_neg (by simp [hb])]
  exact yields_opUnary S room me hn hs hv hq

theorem op_failed (he : st.error ≠ none) (what : Token) : st.op S room me what = st := by
  unfold St.op
  exact if_pos (Option.isSome_iff_ne_none.mpr he)

theorem op_fine (he : st.error = none) (what : Token) :
    st.op S room me what = if (OP_TYPE what).is_binary then st.opBinary S room me what
      else st.opUnary S room me what := by
  unfold St.op
  exact if_neg (by simp [he])

/-- The `:` of no `?` is an error, and so is the end of the input as an operator. -/
theorem op_stray {what : Token} (hw : what = .COLON ∨ what = .EOI) :
    (st.op S room me what).error ≠ none := by
  have failed : ∀ (st' : St) (msg : String), (st'.m_error_set msg).error ≠ none := by
    intro st' msg
    simp [St.m_error_set]
  by_cases he : st.error = none
  · unfold St.op
    rw [if_neg (by simp [he])]
    rcases hw with rfl | rfl
    · rw [if_neg (by decide)]
      unfold St.opUnary
      split
      · exact failed _ _
      · exact failed _ _
    · rw [if_neg (by decide)]
      unfold St.opUnary
      split
      · exact failed _ _
      · exact failed _ _
  · rw [op_failed S room me he]
    exact he

/-- Behind its right operand a muted operator goes on with the same token. -/
theorem Goes.of_yields {st₁ st' : St} (hop : (OP_TYPE st₁.mtok).is_op_token)
    (hu : st₁.unary = !(OP_TYPE st₁.mtok).OP_OPF) (held : Held st st₁) (h : Yields base st₁ st') :
    Goes base st st' := by
  refine ⟨held.trans (.of_bare h.bare), h.below, fun he => ⟨?_, ?_⟩⟩
  · rw [unary_of_bare h.bare, mtok_of_bare h.bare]
    exact hu
  · rw [mtok_of_bare h.bare, if_pos hop]
    exact h.top he

/-- A short circuit reads its left side, which is settled, and raises `noeval` at most. -/
theorem bop_eq (hn : 0 < st.noeval) {v : Mathvalue} (hv : v.Settled) (hs : st.stack = v :: base)
    (tk : Token) : ∃ n, 0 < n ∧ st.bop S room tk = { st with noeval := n } := by
  have read := @value_of_settled S room st v hv
  unfold St.bop
  split
  · exact ⟨st.noeval, hn, rfl⟩
  · next mv stack heq =>
    rw [hs] at heq
    cases heq
    revert read
    generalize st.value_of S room v = p
    obtain ⟨st₁, val⟩ := p
    rintro rfl
    dsimp only at hn ⊢
    have raised : 0 < st₁.noeval + 1 := by omega
    split
    · split
      · exact ⟨_, hn, rfl⟩
      · exact ⟨_, raised, rfl⟩
    · split
      · exact ⟨_, hn, rfl⟩
      · exact ⟨_, raised, rfl⟩
    · split
      · exact ⟨_, raised, rfl⟩
      · exact ⟨_, hn, rfl⟩
    · split
      · exact ⟨_, raised, rfl⟩
      · exact ⟨_, hn, rfl⟩
    · exact ⟨_, hn, rfl⟩

/-- Where the operators stand among the operands: between two, where they must not, in front of
one, or behind one. -/
theorem operator_class {otok : Token} (hq : otok ≠ .QUEST) (hp : otok ≠ .M_INPAR)
    (ho : otok ∉ [Token.NUM, .ID, .CID, .FUNC]) :
    ((OP_TYPE otok).is_binary = true ∧ (OP_TYPE otok).OP_OPF = false) ∨
      ((otok = .COLON ∨ otok = .EOI) ∧ (OP_TYPE otok).is_binary = false) ∨
      ((OP_TYPE otok).is_binary = false ∧ (OP_TYPE otok).is_op_token = (OP_TYPE otok).OP_OPF) := by
  cases otok <;> first | decide | exact absurd rfl hq | exact absurd rfl hp | exact absurd ho (by decide)

/-- An operator's right side has been parsed, and the operator is applied to it. -/
theorem goes_op {otok : Token} {base' : List Mathvalue} {st₂ : St} (hb : base <:+ base')
    (side : Ends base' st st₂)
    (happ : ∀ v : Mathvalue, v.Settled → st₂.error = none → st₂.stack = v :: base' →
      Yields base st₂ (st₂.op S room me otok) ∨
        (Yields base' st₂ (st₂.op S room me otok) ∧ (st₂.op S room me otok).error ≠ none)) :
    Goes base st (st₂.op S room me otok) := by
  by_cases he : st₂.error = none
  · have operand := side.operand he
    obtain ⟨v, hv, hs⟩ := operand.stack
    rcases happ v hv he hs with h | ⟨h, failed⟩
    · exact .of_yields operand.1 operand.2.unary side.held h
    · exact ⟨side.held.trans (.of_bare h.bare), hb.trans h.below, fun e => absurd e failed⟩
  · rw [op_failed S room me he]
    exact ⟨side.held, hb.trans side.below, fun e => absurd e he⟩

/-- The level of an operator's right side is never below that of an operand. -/
theorem rightOf_ge (p : PrecTable) {otok : Token} (hp : otok ≠ .M_INPAR)
    (ho : otok ∉ [Token.NUM, .ID, .CID, .FUNC]) : 2 ≤ p.rightOf otok := by
  cases p <;> cases otok <;>
    first | decide | exact absurd rfl hp | exact absurd ho (by decide)

/-- `noeval` is set back to what it was. -/
theorem Ends.noeval_set {n : Int} {st' : St} (h : Ends base { st with noeval := n } st') :
    Ends base st { st' with noeval := st.noeval } where
  held := ⟨rfl, h.held.m_variables, h.held.m_string_variables, h.held.prec, h.held.c_precedences⟩
  below := h.below
  operand := fun he => ⟨(h.operand he).1, (h.operand he).2.unary, (h.operand he).2.stack⟩

/-- The right side of an operator, on the operands `base` that it starts from. -/
theorem operator_side (hl : LoopSpec loop) {otok : Token} (n : Int)
    (h : Callable (st.prec.rightOf otok) base { st with noeval := n })
    (hlt : st.prec.rightOf otok < st.prec.top_prec) :
    Ends base st
      { St.enter S loop (st.prec.rightOf otok) { st with noeval := n } with noeval := st.noeval } :=
  (enter_ends S hl h hlt).noeval_set

/-- How an operator starts on its right side: `bop` leaves `noeval` raised to `n`, and the operands
in front of the right side are `base'`. -/
structure Starts (otok : Token) (base : List Mathvalue) (st : St) (n : Int)
    (base' : List Mathvalue) : Prop where
  left : ¬ (st.stack = [] ∧ (OP_TYPE otok).is_binary = true)
  raised : (if (OP_TYPE otok).assoc = .BOOL then st.bop S room otok else st) = { st with noeval := n }
  below : base <:+ base'
  callable : Callable (st.prec.rightOf otok) base' { st with noeval := n }
  shape : ((OP_TYPE otok).is_binary = true ∧ ∃ a : Mathvalue, a.Settled ∧ base' = a :: base) ∨
    ((OP_TYPE otok).is_binary = false ∧ (base' = base ∨ otok = .COLON ∨ otok = .EOI))

theorem operator_starts (hn : 0 < st.noeval) {otok : Token} (hm : st.mtok = otok)
    (hh : Head base st) (htop : st.prec.at otok ≤ st.prec.top_prec) (hq : otok ≠ .QUEST)
    (hp : otok ≠ .M_INPAR) (ho : otok ∉ [Token.NUM, .ID, .CID, .FUNC]) :
    ∃ n base', Starts S room otok base st n base' := by
  have hge := rightOf_ge st.prec hp ho
  have hle := Nat.le_of_lt (st.prec.rightOf_lt_top htop)
  have hstack := hh.stack
  have hunary := hh.unary
  rw [hm] at hstack hunary
  -- `bop` raises `noeval` at most, and only where there is a left side.
  have raised : ∀ (v : Mathvalue) (base' : List Mathvalue), v.Settled → st.stack = v :: base' →
      ∃ n, 0 < n ∧ (if (OP_TYPE otok).assoc = .BOOL then st.bop S room otok else st) =
        { st with noeval := n } := by
    intro v base' hv hs
    split
    · exact bop_eq S room hn hv hs otok
    · exact ⟨st.noeval, hn, rfl⟩
  rcases operator_class hq hp ho with ⟨hbin, hopf⟩ | ⟨hstray, hbin⟩ | ⟨hbin, hside⟩
  · have hisop : (OP_TYPE otok).is_op_token = true := by
      unfold OpType.is_op_token
      rw [hbin]
      rfl
    rw [if_pos hisop] at hstack
    obtain ⟨a, ha, hs⟩ := hstack
    obtain ⟨n, hn', hbop⟩ := raised a base ha hs
    have hent : Entry (a :: base) st := .of_unary (by rw [hunary, hopf]; rfl) hs
    exact ⟨n, a :: base, by simp [hs], hbop, List.suffix_cons a base,
      ⟨hge, hle, hn', hs ▸ List.suffix_rfl, fun _ => hent⟩, .inl ⟨hbin, a, ha, rfl⟩⟩
  · have hclass : (OP_TYPE otok).is_op_token = true ∧ (OP_TYPE otok).OP_OPF = false := by
      rcases hstray with rfl | rfl
      · decide
      · decide
    rw [if_pos hclass.1] at hstack
    obtain ⟨a, ha, hs⟩ := hstack
    obtain ⟨n, hn', hbop⟩ := raised a base ha hs
    have hent : Entry (a :: base) st := .of_unary (by rw [hunary, hclass.2]; rfl) hs
    exact ⟨n, a :: base, by simp [hs], hbop, List.suffix_cons a base,
      ⟨hge, hle, hn', hs ▸ List.suffix_rfl, fun _ => hent⟩, .inr ⟨hbin, .inr hstray⟩⟩
  · have hplain : ¬ (OP_TYPE otok).assoc = .BOOL := by
      intro hassoc
      cases otok <;> first | exact absurd hbin (by decide) | exact absurd hassoc (by decide)
    have hent : Entry base st := by
      unfold Entry
      rw [hunary, ← hside]
      cases hop : (OP_TYPE otok).is_op_token with
      | true =>
        rw [if_pos hop] at hstack
        exact hstack
      | false =>
        rw [hop] at hstack
        exact hstack
    have hbelow : base <:+ st.stack := by
      unfold Entry at hent
      split at hent
      · exact hent ▸ List.suffix_rfl
      · obtain ⟨v, -, hs⟩ := hent
        exact hs ▸ List.suffix_cons v base
    exact ⟨st.noeval, base, by simp [hbin], if_neg hplain, List.suffix_rfl,
      ⟨hge, hle, hn, hbelow, fun _ => hent⟩, .inr ⟨hbin, .inl rfl⟩⟩

theorem goes_operator (hl : LoopSpec loop) (hn : 0 < st.noeval) {otok : Token}
    (hm : st.mtok = otok) (hh : Head base st) (htop : st.prec.at otok ≤ st.prec.top_prec)
    (hq : otok ≠ .QUEST) (hp : otok ≠ .M_INPAR) (ho : otok ∉ [Token.NUM, .ID, .CID, .FUNC]) :
    Goes base st (St.operator S room me loop st otok) := by
  obtain ⟨n, base', start⟩ := operator_starts S room hn hm hh htop hq hp ho
  have side := operator_side S hl n start.callable (st.prec.rightOf_lt_top htop)
  unfold St.operator
  dsimp only
  rw [if_neg start.left, start.raised]
  refine goes_op S room me start.below side ?_
  intro v hv he hs
  rcases start.shape with ⟨hbin, a, ha, hbase⟩ | ⟨hbin, hbase | hstray⟩
  · rw [hbase] at hs
    exact .inl (yields_op S room me hn he hbin hs ha hv)
  · rw [hbase] at hs
    exact .inl (yields_op_unary S room me hn he hbin hq hs hv)
  · exact .inr ⟨yields_op_unary S room me hn he hbin hq hs hv, op_stray S room me hstray⟩

theorem middle_level {p : PrecTable} (h : p = .C_PREC_TERNARY_MIDDLE ∨ p = .Z_PREC_TERNARY_MIDDLE) :
    2 ≤ p.at .EQ ∧ p.at .EQ < p.top_prec := by
  rcases h with rfl | rfl
  · decide
  · decide

theorem colon_level (p : PrecTable) : 2 ≤ p.at .COLON - 1 ∧ p.at .COLON - 1 < p.top_prec := by
  cases p <;> decide

theorem else_level (p : PrecTable) {t : Token} (ht : t = .EQ ∨ t = .QUEST) :
    2 ≤ p.at t ∧ p.at t < p.top_prec := by
  rcases ht with rfl | rfl
  · cases p <;> decide
  · cases p <;> decide

theorem questMiddle_ends (hl : LoopSpec loop) (hn : 0 < st.noeval) (hb : base <:+ st.stack)
    (he : st.error = none → Entry base st) : Ends base st (St.questMiddle S loop st) := by
  unfold St.questMiddle
  split
  · dsimp only
    have middle : (if st.c_precedences = true then PrecTable.C_PREC_TERNARY_MIDDLE
        else .Z_PREC_TERNARY_MIDDLE) = .C_PREC_TERNARY_MIDDLE ∨
        (if st.c_precedences = true then PrecTable.C_PREC_TERNARY_MIDDLE
        else .Z_PREC_TERNARY_MIDDLE) = .Z_PREC_TERNARY_MIDDLE := by
      split
      · exact .inl rfl
      · exact .inr rfl
    have level := middle_level middle
    generalize (if st.c_precedences = true then PrecTable.C_PREC_TERNARY_MIDDLE
        else .Z_PREC_TERNARY_MIDDLE) = p at level ⊢
    have side : Ends base { st with prec := p } _ :=
      enter_ends S hl ⟨level.1, Nat.le_of_lt level.2, hn, hb, he⟩ level.2
    exact ⟨⟨side.held.noeval, side.held.m_variables, side.held.m_string_variables, rfl,
      side.held.c_precedences⟩, side.below,
      fun e => ⟨(side.operand e).1, (side.operand e).2.unary, (side.operand e).2.stack⟩⟩
  · have level := colon_level st.prec
    exact enter_ends S hl ⟨level.1, Nat.le_of_lt level.2, hn, hb, he⟩ level.2

theorem questElse_ends (hl : LoopSpec loop) (hn : 0 < st.noeval) (hb : base <:+ st.stack)
    (he : st.error = none → Entry base st) : Ends base st (St.questElse S loop st) := by
  have level : 2 ≤ st.prec.at (if S.korn_mode then .EQ else .QUEST) ∧
      st.prec.at (if S.korn_mode then .EQ else .QUEST) < st.prec.top_prec := by
    apply else_level
    split
    · exact .inl rfl
    · exact .inr rfl
  exact enter_ends S hl ⟨level.1, Nat.le_of_lt level.2, hn, hb, he⟩ level.2

theorem raise_eq (hn : 0 < st.noeval) (b : Bool) :
    ∃ n, 0 < n ∧ st.raise b = { st with noeval := n } := by
  have raised : 0 < st.noeval + 1 := by omega
  cases b with
  | true => exact ⟨st.noeval + 1, raised, rfl⟩
  | false => exact ⟨st.noeval, hn, rfl⟩

theorem lower_raise {st' : St} {b : Bool} (h : st'.noeval = (st.raise b).noeval) :
    st'.lower b = { st' with noeval := st.noeval } := by
  cases b with
  | true =>
    have raised : st'.noeval - 1 = st.noeval := by
      rw [h]
      exact Int.add_sub_cancel st.noeval 1
    unfold St.lower
    rw [if_pos rfl, raised]
  | false =>
    have same : st'.noeval = st.noeval := h
    unfold St.lower
    rw [if_neg Bool.false_ne_true, ← same]

/-- A side of a ternary, with `noeval` raised for it and lowered again. -/
theorem ends_raised {f : St → St} {b : Bool} (hn : 0 < st.noeval)
    (hf : ∀ st₁ : St, 0 < st₁.noeval → st₁.stack = st.stack → st₁.error = st.error →
      st₁.unary = st.unary → Ends base st₁ (f st₁)) :
    Ends base st ((f (st.raise b)).lower b) := by
  obtain ⟨n, hn', hr⟩ := raise_eq hn b
  have side := hf (st.raise b) (hr ▸ hn') (hr ▸ rfl) (hr ▸ rfl) (hr ▸ rfl)
  rw [lower_raise side.held.noeval]
  rw [hr] at side ⊢
  exact side.noeval_set

theorem enter_failed (he : st.error ≠ none) (pc : Nat) : St.enter S loop pc st = st := by
  unfold St.enter
  exact if_pos (Option.isSome_iff_ne_none.mpr he)

theorem questElse_failed (he : st.error ≠ none) (b : Bool) :
    (St.questElse S loop (st.raise b)).lower b = st := by
  have raised : (st.raise b).error ≠ none := by
    cases b with
    | true => exact he
    | false => exact he
  unfold St.questElse
  rw [enter_failed S raised, lower_raise rfl]
  cases b with
  | true => rfl
  | false => rfl

/-- The middle operand of a ternary, on its condition. -/
theorem middle_ends (hl : LoopSpec loop) (hn : 0 < st.noeval) (hu : st.unary = true)
    (hs : st.stack = base) (b : Bool) :
    Ends base st ((St.questMiddle S loop (st.raise b)).lower b) := by
  apply ends_raised hn
  intro st₁ hn₁ hs₁ _ hu₁
  apply questMiddle_ends S hl hn₁
  · exact (hs₁.trans hs) ▸ List.suffix_rfl
  · intro _
    exact .of_unary (hu₁.trans hu) (hs₁.trans hs)

/-- The last operand of a ternary, on its condition and its middle operand. -/
theorem else_ends (hl : LoopSpec loop) (hn : 0 < st.noeval) (hu : st.unary = true)
    (hs : st.stack = base) (b : Bool) :
    Ends base st ((St.questElse S loop (st.raise b)).lower b) := by
  apply ends_raised hn
  intro st₁ hn₁ hs₁ _ hu₁
  apply questElse_ends S hl hn₁
  · exact (hs₁.trans hs) ▸ List.suffix_rfl
  · intro _
    exact .of_unary (hu₁.trans hu) (hs₁.trans hs)

theorem goes_quest (hl : LoopSpec loop) (hn : 0 < st.noeval) (hm : st.mtok = .QUEST)
    (hh : Head base st) : Goes base st (St.quest S room me loop st) := by
  have hstack := hh.stack
  have hunary := hh.unary
  rw [hm] at hstack hunary
  obtain ⟨c, hc, hs⟩ := hstack
  unfold St.quest
  split
  · next heq =>
    rw [hs] at heq
    cases heq
  · next mv stack heq =>
    rw [hs] at heq
    cases heq
    rw [get_value_settled S room hc]
    dsimp only
    have hu : st.unary = true := by
      rw [hunary]
      rfl
    have middle := middle_ends S hl hn hu hs !!isZero c.val
    generalize ((St.questMiddle S loop (st.raise !!isZero c.val)).lower !!isZero c.val) = st₂
      at middle ⊢
    have below₂ : base <:+ st₂.stack := (List.suffix_cons c base).trans middle.below
    split
    · exact ⟨middle.held.trans (.m_error_set _ _), below₂, fun e => absurd e (by simp [St.m_error_set])⟩
    · next hcolon =>
      have hcolon : st₂.mtok = .COLON := by simpa using hcolon
      by_cases he : st₂.error = none
      · obtain ⟨t, ht, hs₂⟩ := (middle.operand he).stack
        have hu₂ : st₂.unary = true := by
          rw [(middle.operand he).2.unary, hcolon]
          rfl
        have hn₂ : 0 < st₂.noeval := by
          rw [middle.held.noeval]
          exact hn
        have other := else_ends S hl hn₂ hu₂ hs₂ !isZero c.val
        have suffix : base <:+ t :: c :: base :=
          (List.suffix_cons c base).trans (List.suffix_cons t _)
        refine goes_op S room me suffix (other.of_held middle.held) ?_
        intro v hv he₅ hs₅
        left
        unfold St.op
        rw [if_neg (by simp [he₅]), if_neg (by decide)]
        have hn₅ := other.held.noeval
        exact yields_ternary S room me hs₅ hv ht hc
      · rw [questElse_failed S he, op_failed S room me he]
        exact ⟨middle.held, below₂, fun e => absurd e he⟩

theorem goes_round (hl : LoopSpec loop) (hn : 0 < st.noeval) (hh : Head base st)
    (htop : st.prec.at st.mtok ≤ st.prec.top_prec) : Goes base st (St.round S room me loop st) := by
  have hstack := hh.stack
  have hunary := hh.unary
  unfold St.round
  split
  · next hm =>
    rw [hm] at hstack hunary
    exact goes_push S hunary hstack _ _ (.inl rfl)
  · next hm =>
    rw [hm] at hstack hunary
    rw [pushId_eq hn]
    exact goes_push S hunary hstack _ _ (integer_settled 0 _)
  · next hm =>
    rw [hm] at hstack hunary
    rw [pushCid_eq S room hn]
    exact goes_push S hunary hstack _ _ (integer_settled 0 _)
  · next hm =>
    rw [hm] at hstack hunary
    rw [pushFunc_eq S room hn]
    exact goes_push S hunary hstack _ _ (.inl rfl)
  · next hm =>
    rw [hm] at hstack hunary
    exact goes_paren S hl hn hunary hstack
  · next hm => exact goes_quest S room me hl hn hm hh
  · next h1 h2 h3 h4 h5 h6 =>
    apply goes_operator S room me hl hn rfl hh htop h6 h5
    simp only [List.mem_cons, List.not_mem_nil, or_false, not_or]
    exact ⟨h1, h2, h3, h4⟩

theorem Head.operand (h : Head base st) (hop : (OP_TYPE st.mtok).is_op_token) : Operand base st :=
  ⟨hop, h⟩

/-- After a round the loop is ready again. -/
theorem Goes.ready {pc : Nat} {st' : St} (h : Ready pc base st) (g : Goes base st st') :
    Ready pc base st' := by
  refine ⟨h.two_le, ?_, ?_, g.below, g.head⟩
  · rw [g.held.prec]
    exact h.le_top
  · rw [g.held.noeval]
    exact h.muted

/-- The loop of `mathparse` reads one operand on the operands that are there. -/
theorem parseLoop_spec (fuel : Nat) : LoopSpec (St.parseLoop S room me fuel) := by
  induction fuel with
  | zero =>
    intro pc base st h
    unfold St.parseLoop
    refine ⟨.m_error_set _ _, h.below, fun e => ?_⟩
    exact absurd e (by simp [St.m_error_set])
  | succ fuel ih =>
    intro pc base st h
    unfold St.parseLoop
    split
    · next hlow =>
      -- The loop stops at a token that binds less tightly, which no operand does.
      refine ⟨.refl st, h.below, fun he => (h.head he).operand ?_⟩
      cases hop : (OP_TYPE st.mtok).is_op_token with
      | true => rfl
      | false =>
        have tight := st.prec.operand_at_le hop
        have two_le := h.two_le
        omega
    · next hlow =>
      split
      · next hs => exact ⟨.refl st, h.below, fun e => by simp [e] at hs⟩
      · next hs =>
        have he : st.error = none := by simpa using hs
        have hpc : st.prec.at st.mtok ≤ st.prec.top_prec :=
          Nat.le_trans (Nat.le_of_not_lt hlow) h.le_top
        have round := goes_round S room me ih h.muted (h.head he) hpc
        exact (ih pc base _ (round.ready h)).of_held round.held

end Parse

end Zshrs.Math
