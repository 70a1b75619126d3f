import Zshrs.Math.Muted

namespace Zshrs.Math

/-- What readings and stores leave as it is: everything but the operands, the error and the cache. -/
def St.steady (st : St) : Frame :=
  { st.toFrame with stack := [], error := none, m_variables := fun _ => none }

namespace Shape

/-- A reading or a store: the operands stay where they are. -/
structure Reads (st st' : St) : Prop where
  steady : st'.steady = st.steady
  stack : st'.stack = st.stack

/-- An operator leaves one operand on `base`, or an error. -/
structure Yields (base : List Mathvalue) (st st' : St) : Prop where
  steady : st'.steady = st.steady
  top : st'.error = none → ∃ v : Mathvalue, st'.stack = v :: base

namespace Reads

variable {st st' st'' : St}

theorem refl (st : St) : Reads st st := ⟨rfl, rfl⟩

theorem trans (h : Reads st st') (k : Reads st' st'') : Reads st st'' :=
  ⟨k.steady.trans h.steady, k.stack.trans h.stack⟩

theorem of_frame (h : st'.toFrame = st.toFrame) : Reads st st' := by
  constructor
  · unfold St.steady
    rw [h]
  · rw [h]

theorem yields {base : List Mathvalue} (h : Reads st st') (k : Yields base st' st'') :
    Yields base st st'' :=
  ⟨k.steady.trans h.steady, k.top⟩

end Reads

theorem Yields.push {base : List Mathvalue} {st : St} (hs : st.stack = base) (val : Mnumber)
    (lval : Option Text) : Yields base st (st.push val lval) := by
  refine ⟨rfl, fun _ => ⟨⟨val, lval⟩, ?_⟩⟩
  rw [← hs]
  rfl

theorem Yields.fail (base : List Mathvalue) (st : St) (msg : String) :
    Yields base st (st.m_error_set msg) :=
  ⟨rfl, fun he => absurd he (by simp [St.m_error_set])⟩

theorem Yields.failure (base : List Mathvalue) (st : St) (failure : Failure) : Yields base st (st.fail failure) := by
  cases failure with
  | error msg => exact .fail base st msg
  | dies how => exact ⟨rfl, (Yields.fail base st "killed").top⟩

/-- What an operator does once its operands are off the stack. -/
theorem Yields.of_stack {base stack : List Mathvalue} {st st' : St}
    (h : Yields base { st with stack := stack } st') : Yields base st st' :=
  ⟨h.steady, h.top⟩

section Readings

variable (S : Shell) (room : Nat) (me : Matheval) (st : St)

theorem reads_get_value (mv : Mathvalue) : Reads st (st.get_value S room mv).1 := by
  unfold St.get_value
  split
  · split
    · exact ⟨rfl, rfl⟩
    · exact .refl st
  · exact .refl st

theorem reads_value_of (mv : Mathvalue) : Reads st (st.value_of S room mv).1 := by
  unfold St.value_of
  split
  · exact .refl st
  · exact reads_get_value S room st mv

theorem reads_evalNested (body : Text) : Reads st (evalNested me st body).1 := .of_frame rfl

theorem reads_canonical (name base body : Text) :
    Reads st (st.canonical S me name base body).1 := by
  have nested := reads_evalNested me st body
  unfold St.canonical
  split
  · exact .refl st
  · split
    · next heq =>
      rw [heq] at nested
      exact nested
    · next heq =>
      rw [heq] at nested
      exact nested

theorem reads_store (name : Text) (val : Mnumber) : Reads st (st.store name val) := ⟨rfl, rfl⟩

theorem reads_setmathvar (name : Text) (val : Mnumber) (pval : Bool) :
    Reads st (st.setmathvar S me name val pval).1 := by
  unfold St.setmathvar
  split
  · exact .refl st
  · split
    · exact .refl st
    · split
      · exact (reads_canonical S me st _ _ _).trans (reads_store _ _ _)
      · split
        · exact reads_store st name val
        · unfold St.storePlain
          dsimp only
          split
          · exact reads_store st name val
          · exact reads_store st name val
          · exact reads_store st name val

theorem reads_target (what : Token) (mv : Mathvalue) : Reads st (st.target S me what mv).1 :=
  .of_frame (target_frame S me what st mv)

end Readings

section Operators

variable (S : Shell) (room : Nat) (me : Matheval) {st : St}

theorem yields_finish (st : St) (what : Token) (lval : Option Text) (result : Mnumber) :
    Yields st.stack st (st.finish S me what lval result) := by
  unfold St.finish
  dsimp only
  split
  · split
    · next name =>
      have stored := reads_setmathvar S me st name
        (if S.pdksh_family ∧ result.type_ = .MN_INTEGER then
          { result with l := wrap32 result.l } else result) (what ≠ .EQ)
      exact stored.yields (.push stored.stack _ _)
    · exact ⟨rfl, fun _ => ⟨_, rfl⟩⟩
  · exact .push rfl _ _

theorem yields_applyBinary (st : St) (what : Token) (mv : Mathvalue) (b : Mnumber) :
    Yields st.stack st (st.applyBinary S room me what mv b) := by
  have read : Reads st (if what = .EQ then (st, mv.val) else st.value_of S room mv).1 := by
    split
    · exact .refl st
    · exact reads_value_of S room st mv
  unfold St.applyBinary
  revert read
  generalize (if what = .EQ then (st, mv.val) else st.value_of S room mv) = p
  obtain ⟨st₁, a⟩ := p
  intro read
  dsimp only at read ⊢
  split
  · exact read.yields (.failure _ st₁ _)
  · rw [← read.stack]
    exact read.yields (yields_finish S me st₁ what mv.lval _)

theorem yields_opStep (st : St) (lval : Option Text) (val : Mnumber) (by_ : Int64) (pre : Bool) :
    Yields st.stack st (st.opStep S me lval val by_ pre) := by
  unfold St.opStep
  split
  · split
    · exact .push rfl _ _
    · exact .fail _ st _
  · next name =>
    have stored := reads_setmathvar S me st name (stepBy S val by_) true
    dsimp only
    split
    · exact stored.yields (.push stored.stack _ _)
    · exact stored.yields (.push stored.stack _ _)

theorem yields_applyUnary (st : St) {what : Token} (hq : what ≠ .QUEST) (mv : Mathvalue) :
    Yields st.stack st (st.applyUnary S room me what mv) := by
  have read := reads_value_of S room st mv
  unfold St.applyUnary
  revert read
  generalize st.value_of S room mv = p
  obtain ⟨st₁, val⟩ := p
  intro read
  dsimp only at read ⊢
  rw [← read.stack]
  apply read.yields
  split
  case h_9 => exact absurd rfl hq
  case h_10 | h_11 => exact .fail _ st₁ _
  case h_5 | h_6 | h_7 | h_8 => exact yields_opStep S me st₁ _ _ _ _
  all_goals exact .push rfl _ _

variable {base : List Mathvalue}

theorem pop_cons {mv : Mathvalue} (hs : st.stack = mv :: base) :
    st.pop S room = ({ st with stack := base }).get_value S room mv := by
  unfold St.pop
  split
  · next mv' stack heq =>
    rw [hs] at heq
    cases heq
    rfl
  · next heq =>
    rw [hs] at heq
    cases heq

theorem yields_opBinary {a b : Mathvalue} (hs : st.stack = b :: a :: base) (what : Token) :
    Yields base st (st.opBinary S room me what) := by
  have hlen : ¬ st.stack.length < 2 := by simp [hs]
  have read := reads_get_value S room { st with stack := a :: base } b
  unfold St.opBinary
  rw [if_neg hlen, pop_cons S room hs]
  revert read
  generalize ({ st with stack := a :: base } : St).get_value S room b = p
  obtain ⟨st₁, val⟩ := p
  intro read
  dsimp only at read ⊢
  rw [pop_with_lval_cons read.stack]
  dsimp only
  have found := reads_target S me { st₁ with stack := base } what a
  have applied := yields_applyBinary S room me (({ st₁ with stack := base } : St).target S me what a).1
    what (({ st₁ with stack := base } : St).target S me what a).2 val
  rw [found.stack] at applied
  exact .of_stack (read.yields (.of_stack (found.yields applied)))

theorem yields_opUnary {v : Mathvalue} (hs : st.stack = v :: base) {what : Token}
    (hq : what ≠ .QUEST) : Yields base st (st.opUnary S room me what) := by
  rw [opUnary_eq S room me hs]
  have found := reads_target S me { st with stack := base } what v
  have applied := yields_applyUnary S room me (({ st with stack := base } : St).target S me what v).1
    hq (({ st with stack := base } : St).target S me what v).2
  rw [found.stack] at applied
  exact .of_stack (found.yields applied)

/-- What `?:` pops and reads: its last operand, its middle one and its condition. -/
def questPops (st : St) (f t c : Mathvalue) (base : List Mathvalue) :
    St × Mnumber × Mnumber × Mnumber :=
  let (st, no) := ({ st with stack := t :: c :: base } : St).value_of S room f
  let (st, yes) := ({ st with stack := c :: base } : St).get_value S room t
  let (st, cond) := ({ st with stack := base } : St).get_value S room c
  (st, no, yes, cond)

theorem questPops_spec (st : St) (f t c : Mathvalue) (base : List Mathvalue) :
    (questPops S room st f t c base).1.steady = st.steady ∧
      (questPops S room st f t c base).1.stack = base ∧
      (c.Settled → (questPops S room st f t c base).2.2.2 = c.val) := by
  have first := reads_value_of S room { st with stack := t :: c :: base } f
  unfold questPops
  generalize ({ st with stack := t :: c :: base } : St).value_of S room f = p at first ⊢
  obtain ⟨st₁, no⟩ := p
  have second := reads_get_value S room { st₁ with stack := c :: base } t
  dsimp only at first ⊢
  generalize ({ st₁ with stack := c :: base } : St).get_value S room t = p at second ⊢
  obtain ⟨st₂, yes⟩ := p
  have third := reads_get_value S room { st₂ with stack := base } c
  dsimp only at second ⊢
  refine ⟨?_, third.stack, fun hset => ?_⟩
  · exact third.steady.trans (second.steady.trans first.steady)
  · rw [get_value_settled S room hset]

theorem op_quest_eq {f t c : Mathvalue} (hs : st.stack = f :: t :: c :: base)
    (he : st.error = none) : st.op S room me .QUEST =
      let (st, no, yes, cond) := questPops S room st f t c base
      st.push (if isZero cond then no else yes) none := by
  have plain : ({ st with stack := t :: c :: base } : St).target S me .QUEST f =
      ({ st with stack := t :: c :: base }, f) := rfl
  have first := reads_value_of S room { st with stack := t :: c :: base } f
  rw [op_fine S room me he, if_neg (by decide), opUnary_eq S room me hs, plain]
  unfold St.applyUnary St.opQuest questPops
  revert first
  generalize ({ st with stack := t :: c :: base } : St).value_of S room f = p
  obtain ⟨st₁, no⟩ := p
  intro first
  dsimp only at first ⊢
  have hlen : ¬ st₁.stack.length < 2 := by simp [first.stack]
  rw [if_neg hlen, pop_cons S room first.stack]
  have second := reads_get_value S room { st₁ with stack := c :: base } t
  revert second
  generalize ({ st₁ with stack := c :: base } : St).get_value S room t = p
  obtain ⟨st₂, yes⟩ := p
  intro second
  dsimp only at second ⊢
  rw [pop_cons S room second.stack]

theorem yields_op_quest {f t c : Mathvalue} (hs : st.stack = f :: t :: c :: base)
    (he : st.error = none) : Yields base st (st.op S room me .QUEST) := by
  obtain ⟨steady, stack, -⟩ := questPops_spec S room st f t c base
  rw [op_quest_eq S room me hs he]
  generalize questPops S room st f t c base = p at steady stack ⊢
  obtain ⟨st₁, no, yes, cond⟩ := p
  have pushed : Yields base st₁ (st₁.push (if isZero cond then no else yes) none) :=
    .push stack _ _
  exact ⟨pushed.steady.trans steady, pushed.top⟩

theorem yields_op {a b : Mathvalue} {what : Token} (he : st.error = none)
    (hb : (OP_TYPE what).is_binary = true) (hs : st.stack = b :: a :: base) :
    Yields base st (st.op S room me what) := by
  rw [op_fine S room me he, if_pos hb]
  exact yields_opBinary S room me hs what

theorem yields_op_unary {v : Mathvalue} {what : Token} (he : st.error = none)
    (hb : (OP_TYPE what).is_binary = false) (hq : what ≠ .QUEST) (hs : st.stack = v :: base) :
    Yields base st (st.op S room me what) := by
  rw [op_fine S room me he, if_neg (by simp [hb])]
  exact yields_opUnary S room me hs hq

end Operators

end Shape

end Zshrs.Math
