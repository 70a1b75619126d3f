import Zshrs.Math.Cursor

namespace Zshrs.Math

/-- The operand is not a parameter that is still to be read. -/
def Mathvalue.Settled (mv : Mathvalue) : Prop := mv.lval = none ∨ mv.val.type_ ≠ .MN_UNSET

/-- What a muted evaluation leaves as it is. -/
structure Held (st st' : St) : Prop where
  noeval : st'.noeval = st.noeval
  m_variables : st'.m_variables = st.m_variables
  m_string_variables : st'.m_string_variables = st.m_string_variables
  prec : st'.prec = st.prec
  c_precedences : st'.c_precedences = st.c_precedences

namespace Held

variable {st st' st'' : St}

theorem refl (st : St) : Held st st := ⟨rfl, rfl, rfl, rfl, rfl⟩

theorem trans (h : Held st st') (k : Held st' st'') : Held st st'' :=
  ⟨k.noeval.trans h.noeval, k.m_variables.trans h.m_variables,
    k.m_string_variables.trans h.m_string_variables, k.prec.trans h.prec,
    k.c_precedences.trans h.c_precedences⟩

theorem m_error_set (st : St) (msg : String) : Held st (st.m_error_set msg) :=
  ⟨rfl, rfl, rfl, rfl, rfl⟩

theorem of_bare (hb : st'.bare = st.bare) : Held st st' := by
  constructor
  · have := congrArg Frame.noeval hb
    exact this
  · have := congrArg Frame.m_variables hb
    exact this
  · have := congrArg Frame.m_string_variables hb
    exact this
  · have := congrArg Frame.prec hb
    exact this
  · have := congrArg Frame.c_precedences hb
    exact this

end Held

theorem mtok_of_bare {st st' : St} (hb : st'.bare = st.bare) : st'.mtok = st.mtok := by
  have := congrArg Frame.mtok hb
  exact this

theorem unary_of_bare {st st' : St} (hb : st'.bare = st.bare) : st'.unary = st.unary := by
  have := congrArg (fun f : Frame => f.unary) hb
  exact this

/-- An operator leaves one operand on `base`, or an error. -/
structure Yields (base : List Mathvalue) (st st' : St) : Prop where
  bare : st'.bare = st.bare
  below : base <:+ st'.stack
  top : st'.error = none → ∃ v : Mathvalue, v.Settled ∧ st'.stack = v :: base

/-- Where an operand is wanted there is none on `base`; elsewhere there is one. -/
def Entry (base : List Mathvalue) (st : St) : Prop :=
  if st.unary then st.stack = base else ∃ v : Mathvalue, v.Settled ∧ st.stack = v :: base

/-- At the head of the loop: the token that has been read fits the operands on `base`. -/
structure Head (base : List Mathvalue) (st : St) : Prop where
  unary : st.unary = !(OP_TYPE st.mtok).OP_OPF
  stack : if (OP_TYPE st.mtok).is_op_token then
      ∃ v : Mathvalue, v.Settled ∧ st.stack = v :: base else st.stack = base

/-- Behind an operand. -/
def Operand (base : List Mathvalue) (st : St) : Prop :=
  (OP_TYPE st.mtok).is_op_token ∧ Head base st

theorem Operand.stack {base : List Mathvalue} {st : St} (h : Operand base st) :
    ∃ v : Mathvalue, v.Settled ∧ st.stack = v :: base := by
  have hs := h.2.stack
  rwa [if_pos h.1] at hs

section Reading

variable (S : Shell) (room : Nat) {st : St} {mv : Mathvalue}

theorem get_value_settled (h : mv.Settled) : st.get_value S room mv = (st, mv.val) := by
  unfold St.get_value
  split
  · next name hn =>
    rcases h with h | h
    · rw [hn] at h
      cases h
    · exact if_neg h
  · rfl

theorem value_of_settled (h : mv.Settled) : (st.value_of S room mv).1 = st := by
  unfold St.value_of
  split
  · rfl
  · rw [get_value_settled S room h]

theorem pop_settled {base : List Mathvalue} (hs : st.stack = mv :: base) (h : mv.Settled) :
    st.pop S room = ({ st with stack := base }, mv.val) := by
  unfold St.pop
  split
  · next mv' stack heq =>
    rw [hs] at heq
    cases heq
    exact get_value_settled S room h
  · next heq =>
    rw [hs] at heq
    cases heq

end Reading

theorem pop_with_lval_cons {st : St} {mv : Mathvalue} {base : List Mathvalue}
    (hs : st.stack = mv :: base) : st.pop_with_lval = ({ st with stack := base }, mv) := by
  unfold St.pop_with_lval
  split
  · next mv' stack heq =>
    rw [hs] at heq
    cases heq
    rfl
  · next heq =>
    rw [hs] at heq
    cases heq

section Resolving

variable (S : Shell) (me : Matheval)

theorem resolve_lval_frame (st : St) (name : Text) :
    (st.resolve_lval S me name).1.toFrame = st.toFrame := by
  unfold St.resolve_lval
  split
  · rfl
  · split
    · rfl
    · dsimp only
      split
      · rfl
      · rfl

theorem resolve_frame (st : St) (mv : Mathvalue) :
    (st.resolve S me mv).1.toFrame = st.toFrame := by
  unfold St.resolve
  split
  · rfl
  · exact resolve_lval_frame S me st _

theorem target_frame (what : Token) (st : St) (mv : Mathvalue) :
    (st.target S me what mv).1.toFrame = st.toFrame := by
  unfold St.target
  split
  · exact resolve_frame S me st mv
  · rfl

theorem resolve_settled (st : St) {mv : Mathvalue} (h : mv.Settled) :
    (st.resolve S me mv).2.Settled := by
  unfold St.resolve
  split
  · exact h
  · next name hn =>
    rcases h with h | h
    · rw [hn] at h
      cases h
    · exact .inr h

theorem target_settled (what : Token) (st : St) {mv : Mathvalue} (h : mv.Settled) :
    (st.target S me what mv).2.Settled := by
  unfold St.target
  split
  · exact resolve_settled S me st h
  · exact h

end Resolving

section Muted

variable (S : Shell) (room : Nat) (me : Matheval) {st : St}

/-- With `noeval` raised nothing is stored, and no nested evaluation is looked at. -/
theorem setmathvar_muted (hn : st.noeval ≠ 0) (name : Text) (val : Mnumber) (pval : Bool) :
    st.setmathvar S me name val pval = (st, if name = [] then .integer 0 else val) := by
  unfold St.setmathvar
  by_cases h : name = []
  · rw [if_pos h, if_pos h]
  · rw [if_neg h, if_neg h, if_pos hn]

theorem stored_settled (name : Text) {val : Mnumber} (hv : val.type_ ≠ .MN_UNSET)
    (lval : Option Text) :
    (⟨if name = [] then .integer 0 else val, lval⟩ : Mathvalue).Settled := by
  right
  dsimp only
  split
  · exact fun h => MnType.noConfusion h
  · exact hv

theorem yields_push {base : List Mathvalue} (hs : st.stack = base) (val : Mnumber)
    (lval : Option Text) (hv : (⟨val, lval⟩ : Mathvalue).Settled) :
    Yields base st (st.push val lval) := by
  refine ⟨rfl, ?_, fun _ => ⟨_, hv, ?_⟩⟩
  · exact hs ▸ List.suffix_cons _ _
  · exact hs ▸ rfl

theorem yields_fail {base : List Mathvalue} (hs : base <:+ st.stack) (msg : String) :
    Yields base st (st.m_error_set msg) :=
  ⟨rfl, hs, fun he => absurd he (by simp [St.m_error_set])⟩

/-- What an operator does after it has taken its operands off. -/
theorem Yields.of_frame {base : List Mathvalue} {st st₁ st' : St} (h : Yields base st₁ st')
    (hf : st₁.bare = st.bare) : Yields base st st' :=
  ⟨h.bare.trans hf, h.below, h.top⟩

theorem yields_finish (hn : st.noeval ≠ 0) (what : Token) (lval : Option Text) {result : Mnumber}
    (hr : result.type_ = .MN_INTEGER) : Yields st.stack st (st.finish S me what lval result) := by
  have wrapped : (if S.pdksh_family ∧ result.type_ = .MN_INTEGER then
      { result with l := wrap32 result.l } else result).type_ ≠ .MN_UNSET := by
    have integer : MnType.MN_INTEGER ≠ .MN_UNSET := fun h => MnType.noConfusion h
    split
    · exact hr ▸ integer
    · exact hr ▸ integer
  unfold St.finish
  dsimp only
  split
  · split
    · rw [setmathvar_muted S me hn]
      exact yields_push rfl _ _ (stored_settled _ wrapped _)
    · exact ⟨rfl, List.suffix_cons _ _, fun _ => ⟨_, .inl rfl, rfl⟩⟩
  · exact yields_push rfl _ _ (.inl rfl)

theorem stepBy_settled (val : Mnumber) (by_ : Int64) : (stepBy S val by_).type_ ≠ .MN_UNSET := by
  unfold stepBy
  split
  · exact fun h => MnType.noConfusion h
  · exact fun h => MnType.noConfusion h

theorem yields_opStep (hn : st.noeval ≠ 0) (lval : Option Text) (val : Mnumber) (by_ : Int64)
    (pre : Bool) : Yields st.stack st (st.opStep S me lval val by_ pre) := by
  unfold St.opStep
  split
  · split
    · exact yields_push rfl _ _ (.inl rfl)
    · exact yields_fail List.suffix_rfl _
  · dsimp only
    rw [setmathvar_muted S me hn]
    split
    · exact yields_push rfl _ _ (.inr (stepBy_settled S val by_))
    · exact yields_push rfl _ _ (.inl rfl)

/-- A muted binary operator pushes a zero, and stores nothing. -/
theorem applyBinary_muted (hn : 0 < st.noeval) (what : Token) {mv : Mathvalue} (h : mv.Settled)
    (b : Mnumber) :
    st.applyBinary S room me what mv b = st.finish S me what mv.lval (.integer 0) := by
  have read : (if what = .EQ then (st, mv.val) else st.value_of S room mv).1 = st := by
    split
    · rfl
    · exact value_of_settled S room h
  unfold St.applyBinary
  revert read
  generalize (if what = .EQ then (st, mv.val) else st.value_of S room mv) = p
  obtain ⟨st₁, a⟩ := p
  rintro rfl
  dsimp only
  rw [if_pos hn]

theorem yields_applyBinary (hn : 0 < st.noeval) (what : Token) {mv : Mathvalue} (h : mv.Settled)
    (b : Mnumber) : Yields st.stack st (st.applyBinary S room me what mv b) := by
  rw [applyBinary_muted S room me hn what h]
  exact yields_finish S me (Int.ne_of_gt hn) what _ rfl

variable {base : List Mathvalue} {a b v : Mathvalue}

theorem opBinary_eq (hs : st.stack = b :: a :: base) (hb : b.Settled) (what : Token) :
    st.opBinary S room me what =
      (({ st with stack := base }).target S me what a).1.applyBinary S room me what
        (({ st with stack := base }).target S me what a).2 b.val := by
  have hlen : ¬ st.stack.length < 2 := by simp [hs]
  unfold St.opBinary
  rw [if_neg hlen, pop_settled S room hs hb]
  rfl

theorem yields_opBinary (hn : 0 < st.noeval) (hs : st.stack = b :: a :: base) (ha : a.Settled)
    (hb : b.Settled) (what : Token) : Yields base st (st.opBinary S room me what) := by
  rw [opBinary_eq S room me hs hb]
  have hframe := target_frame S me what { st with stack := base } a
  have hset := target_settled S me what { st with stack := base } ha
  have hn₁ : 0 < (({ st with stack := base }).target S me what a).1.noeval := by
    rw [congrArg Frame.noeval hframe]
    exact hn
  have hy := yields_applyBinary S room me hn₁ what hset b.val
  rw [congrArg Frame.stack hframe] at hy
  refine hy.of_frame ?_
  unfold St.bare
  rw [hframe]

theorem yields_opQuest {t c : Mathvalue} (hs : st.stack = t :: c :: base) (ht : t.Settled)
    (hc : c.Settled) (val : Mnumber) : Yields base st (st.opQuest S room val) := by
  have hlen : ¬ st.stack.length < 2 := by simp [hs]
  have hpop : ({ st with stack := c :: base } : St).pop S room = ({ st with stack := base }, c.val) :=
    pop_settled S room rfl hc
  unfold St.opQuest
  rw [if_neg hlen, pop_settled S room hs ht]
  dsimp only
  rw [hpop]
  exact ⟨rfl, List.suffix_cons _ _, fun _ => ⟨_, .inl rfl, rfl⟩⟩

theorem yields_applyUnary (hn : 0 < st.noeval) {what : Token} (hq : what ≠ .QUEST)
    {mv : Mathvalue} (h : mv.Settled) : Yields st.stack st (st.applyUnary S room me what mv) := by
  have hne := Int.ne_of_gt hn
  have read := @value_of_settled S room st mv h
  unfold St.applyUnary
  revert read
  generalize st.value_of S room mv = p
  obtain ⟨st₁, val⟩ := p
  rintro rfl
  dsimp only
  split
  case h_9 => exact absurd rfl hq
  case h_10 | h_11 => exact yields_fail List.suffix_rfl _
  case h_5 | h_6 | h_7 | h_8 => exact yields_opStep S me hne _ _ _ _
  all_goals exact yields_push rfl _ _ (.inl rfl)

theorem applyQuest (mv : Mathvalue) (h : mv.Settled) :
    st.applyUnary S room me .QUEST mv = st.opQuest S room (st.value_of S room mv).2 := by
  have read : st.value_of S room mv = (st, (st.value_of S room mv).2) :=
    Prod.ext (value_of_settled S room h) rfl
  unfold St.applyUnary
  rw [read]

theorem opUnary_eq (hs : st.stack = v :: base) (what : Token) :
    st.opUnary S room me what =
      (({ st with stack := base }).target S me what v).1.applyUnary S room me what
        (({ st with stack := base }).target S me what v).2 := by
  have hne : st.stack ≠ [] := by simp [hs]
  unfold St.opUnary
  rw [if_neg hne, pop_with_lval_cons hs]

theorem yields_opUnary (hn : 0 < st.noeval) (hs : st.stack = v :: base) (hv : v.Settled)
    {what : Token} (hq : what ≠ .QUEST) : Yields base st (st.opUnary S room me what) := by
  rw [opUnary_eq S room me hs]
  have hframe := target_frame S me what { st with stack := base } v
  have hset := target_settled S me what { st with stack := base } hv
  have hn₁ : 0 < (({ st with stack := base }).target S me what v).1.noeval := by
    rw [congrArg Frame.noeval hframe]
    exact hn
  have hy := yields_applyUnary S room me hn₁ hq hset
  rw [congrArg Frame.stack hframe] at hy
  refine hy.of_frame ?_
  unfold St.bare
  rw [hframe]

theorem yields_ternary {t c : Mathvalue} (hs : st.stack = v :: t :: c :: base) (hv : v.Settled)
    (ht : t.Settled) (hc : c.Settled) : Yields base st (st.opUnary S room me .QUEST) := by
  rw [opUnary_eq S room me hs]
  have plain : ({ st with stack := t :: c :: base } : St).target S me .QUEST v =
      ({ st with stack := t :: c :: base }, v) := rfl
  rw [plain, applyQuest S room me v hv]
  have hy := @yields_opQuest S room { st with stack := t :: c :: base } base t c rfl ht hc
  exact (hy _).of_frame rfl

end Muted

end Zshrs.Math
