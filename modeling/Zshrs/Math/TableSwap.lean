import Zshrs.Math.Rounds

namespace Zshrs.Math

/-- The table that `setopt c_precedences` puts in the place of zsh's own. -/
def PrecTable.toC : PrecTable → PrecTable
  | .Z_PREC => .C_PREC
  | .Z_PREC_TERNARY_MIDDLE => .C_PREC_TERNARY_MIDDLE
  | p => p

/-- The same evaluator with the other table. -/
def St.toC (st : St) : St := { st with prec := st.prec.toC, c_precedences := true }

/-- The shell's answers do not depend on the table in force: a nested evaluation sets its own. -/
structure Blind (S : Shell) : Prop where
  getmathparam (room : Nat) (st : St) (name : Text) : S.getmathparam room st.toC name = S.getmathparam room st name
  getcvar (room : Nat) (st : St) (name : Text) : S.getcvar room st.toC name = S.getcvar room st name
  callmathfunc (room : Nat) (st : St) (name : Text) : S.callmathfunc room st.toC name = S.callmathfunc room st name

/-- Nor do nested evaluations. -/
def Matheval.Blind (me : Matheval) : Prop :=
  ∀ st body, evalNested me st.toC body = ((evalNested me st body).1.toC, (evalNested me st body).2)

theorem matheval_blind (S : Shell) (room : Nat) : (matheval S room).Blind := by
  intro st body
  have hnew (s : Text) : st.toC.new s = st.new s := rfl
  have hhist : st.toC.hist = st.hist := rfl
  have hsame : (matheval S room st.toC body).1.hist = (matheval S room st body).1.hist ∧
      (matheval S room st.toC body).2 = (matheval S room st body).2 := by
    unfold matheval St.matheval
    dsimp only
    rw [hnew, hhist]
    split
    · exact ⟨rfl, rfl⟩
    · split
      · exact ⟨rfl, rfl⟩
      · split
        · exact ⟨rfl, rfl⟩
        · exact ⟨rfl, rfl⟩
  unfold evalNested
  dsimp only
  rw [hsame.2]
  refine Prod.ext ?_ rfl
  change ({ (matheval S room st.toC body).1 with toFrame := st.toC.toFrame, subs := st.subs } : St) = _
  rw [St.mk.injEq]
  exact ⟨rfl, hsame.1, rfl⟩

section Swap

variable {S : Shell} (hS : Blind S) {room : Nat} {me : Matheval} (hme : me.Blind)

namespace St

include hS in
theorem get_value_toC (st : St) (mv : Mathvalue) :
    st.toC.get_value S room mv = ((st.get_value S room mv).1.toC, (st.get_value S room mv).2) := by
  unfold get_value
  split
  · split
    · unfold getmathparam answer
      rw [hS.getmathparam]
      rfl
    · rfl
  · rfl

include hS in
theorem value_of_toC (st : St) (mv : Mathvalue) :
    st.toC.value_of S room mv = ((st.value_of S room mv).1.toC, (st.value_of S room mv).2) := by
  unfold value_of
  split
  · rfl
  · exact get_value_toC hS st mv

include hS in
theorem pop_toC (st : St) : st.toC.pop S room = ((st.pop S room).1.toC, (st.pop S room).2) := by
  have hstack : st.toC.stack = st.stack := rfl
  unfold pop
  rw [hstack]
  split
  · exact get_value_toC hS { st with stack := _ } _
  · rfl

theorem pop_with_lval_toC (st : St) : st.toC.pop_with_lval = (st.pop_with_lval.1.toC, st.pop_with_lval.2) := by
  have hstack : st.toC.stack = st.stack := rfl
  unfold pop_with_lval
  rw [hstack]
  split
  · rfl
  · rfl

include hme in
theorem canonical_toC (st : St) (name base body : Text) : st.toC.canonical S me name base body =
    ((st.canonical S me name base body).1.toC, (st.canonical S me name base body).2) := by
  have hhist : st.toC.hist = st.hist := rfl
  unfold canonical
  rw [hhist, hme]
  split
  · rfl
  · obtain ⟨st', n | n⟩ := evalNested me st body
    · rfl
    · rfl

include hme in
theorem setmathvar_toC (st : St) (name : Text) (val : Mnumber) (pval : Bool) :
    st.toC.setmathvar S me name val pval =
      ((st.setmathvar S me name val pval).1.toC, (st.setmathvar S me name val pval).2) := by
  have hhist : st.toC.hist = st.hist := rfl
  have hnoeval : st.toC.noeval = st.noeval := rfl
  unfold setmathvar
  rw [hhist, hnoeval]
  split
  · rfl
  · split
    · rfl
    · split
      · rw [canonical_toC hme]
        rfl
      · split
        · rfl
        · unfold storePlain
          rw [hhist]
          dsimp only
          split
          · rfl
          · rfl
          · rfl

include hme in
theorem resolve_lval_toC (st : St) (name : Text) : st.toC.resolve_lval S me name =
    ((st.resolve_lval S me name).1.toC, (st.resolve_lval S me name).2) := by
  have hhist : st.toC.hist = st.hist := rfl
  unfold resolve_lval
  rw [hhist]
  split
  · rfl
  · split
    · rfl
    · rw [hme]
      obtain ⟨st', n | n⟩ := evalNested me st _
      · rfl
      · rfl

include hme in
theorem target_toC (st : St) (what : Token) (mv : Mathvalue) :
    st.toC.target S me what mv = ((st.target S me what mv).1.toC, (st.target S me what mv).2) := by
  unfold target resolve
  split
  · split
    · rfl
    · rw [resolve_lval_toC hme]
  · rfl

include hme in
theorem finish_toC (st : St) (what : Token) (lval : Option Text) (result : Mnumber) :
    st.toC.finish S me what lval result = (st.finish S me what lval result).toC := by
  unfold finish
  dsimp only
  split
  · split
    · rw [setmathvar_toC hme]
      rfl
    · rfl
  · rfl

include hS hme in
theorem applyBinary_toC (st : St) (what : Token) (mv : Mathvalue) (b : Mnumber) :
    st.toC.applyBinary S room me what mv b = (st.applyBinary S room me what mv b).toC := by
  have hread : (if what = .EQ then (st.toC, mv.val) else st.toC.value_of S room mv) =
      ((if what = .EQ then (st, mv.val) else st.value_of S room mv).1.toC,
        (if what = .EQ then (st, mv.val) else st.value_of S room mv).2) := by
    split
    · rfl
    · exact value_of_toC hS st mv
  unfold applyBinary
  rw [hread]
  generalize (if what = .EQ then (st, mv.val) else st.value_of S room mv) = read
  obtain ⟨st, a⟩ := read
  have hnoeval : st.toC.noeval = st.noeval := rfl
  dsimp only
  rw [hnoeval]
  split
  · next failure _ =>
    cases failure with
    | error msg => rfl
    | dies how => rfl
  · exact finish_toC hme st what _ _

include hS hme in
theorem opBinary_toC (st : St) (what : Token) :
    st.toC.opBinary S room me what = (st.opBinary S room me what).toC := by
  have hstack : st.toC.stack = st.stack := rfl
  unfold opBinary
  rw [hstack]
  split
  · rfl
  · dsimp only
    rw [pop_toC hS, pop_with_lval_toC, target_toC hme, applyBinary_toC hS hme]

include hme in
theorem opStep_toC (st : St) (lval : Option Text) (val : Mnumber) (by_ : Int64) (pre : Bool) :
    st.toC.opStep S me lval val by_ pre = (st.opStep S me lval val by_ pre).toC := by
  unfold opStep
  split
  · split
    · rfl
    · rfl
  · dsimp only
    rw [setmathvar_toC hme]
    split
    · rfl
    · rfl

include hS in
theorem opQuest_toC (st : St) (false_val : Mnumber) :
    st.toC.opQuest S room false_val = (st.opQuest S room false_val).toC := by
  have hstack : st.toC.stack = st.stack := rfl
  unfold opQuest
  rw [hstack]
  split
  · rfl
  · dsimp only
    rw [pop_toC hS, pop_toC hS]
    rfl

include hS hme in
theorem opUnary_toC (st : St) (what : Token) :
    st.toC.opUnary S room me what = (st.opUnary S room me what).toC := by
  have hstack : st.toC.stack = st.stack := rfl
  unfold opUnary
  rw [hstack]
  split
  · rfl
  · dsimp only
    rw [pop_with_lval_toC, target_toC hme]
    generalize St.target S me _ what _ = found
    obtain ⟨st, mv⟩ := found
    unfold applyUnary
    dsimp only
    rw [value_of_toC hS]
    generalize St.value_of S room st mv = read
    obtain ⟨st, val⟩ := read
    dsimp only
    split
    case h_5 | h_6 | h_7 | h_8 => exact opStep_toC hme st _ _ _ _
    case h_9 => exact opQuest_toC hS st val
    all_goals rfl

include hS hme in
theorem op_toC (st : St) (what : Token) : st.toC.op S room me what = (st.op S room me what).toC := by
  have herror : st.toC.error = st.error := rfl
  unfold op
  rw [herror]
  split
  · rfl
  · split
    · exact opBinary_toC hS hme st what
    · exact opUnary_toC hS hme st what

include hS in
theorem bop_toC (st : St) (tk : Token) : st.toC.bop S room tk = (st.bop S room tk).toC := by
  have hstack : st.toC.stack = st.stack := rfl
  unfold bop
  rw [hstack]
  split
  · rfl
  · rw [value_of_toC hS]
    generalize St.value_of S room st _ = read
    obtain ⟨st, val⟩ := read
    dsimp only
    split
    · split
      · rfl
      · rfl
    · split
      · rfl
      · rfl
    · split
      · rfl
      · rfl
    · split
      · rfl
      · rfl
    · rfl

include hS in
theorem pushCid_toC (st : St) : st.toC.pushCid S room = (st.pushCid S room).toC := by
  have hnoeval : st.toC.noeval = st.noeval := rfl
  unfold pushCid
  dsimp only
  rw [hnoeval]
  by_cases h : st.noeval > 0
  · rw [if_pos h, if_pos h]
    rfl
  · rw [if_neg h, if_neg h, hS.getcvar]
    rfl

include hS in
theorem pushFunc_toC (st : St) : st.toC.pushFunc S room = (st.pushFunc S room).toC := by
  have hnoeval : st.toC.noeval = st.noeval := rfl
  unfold pushFunc
  rw [hnoeval]
  by_cases h : st.noeval > 0
  · rw [if_pos h, if_pos h]
    rfl
  · rw [if_neg h, if_neg h, hS.callmathfunc]
    rfl

theorem checkunary_toC (st : St) : st.toC.checkunary = st.checkunary.toC := by
  have hunary : st.toC.unary = st.unary := rfl
  have hmtok : st.toC.mtok = st.mtok := rfl
  unfold checkunary
  dsimp only
  rw [hunary, hmtok]
  split
  · rfl
  · split
    · rfl
    · rfl

theorem nextToken_toC (st : St) : st.toC.nextToken S = (st.nextToken S).toC := checkunary_toC (st.lexToken S)

end St

end Swap

namespace Shape

section Alike

/-- All that an operator leaves as it is for the parse that goes on. -/
structure Alike (st st' : St) : Prop where
  prec : st'.prec = st.prec
  c_precedences : st'.c_precedences = st.c_precedences
  mtok : st'.mtok = st.mtok
  lex : ∃ e, st'.toLex = { st.toLex with error := e }

namespace Alike

variable {st st' st'' : St}

theorem refl (st : St) : Alike st st := ⟨rfl, rfl, rfl, st.error, rfl⟩

theorem trans (h : Alike st st') (k : Alike st' st'') : Alike st st'' := by
  obtain ⟨e, he⟩ := h.lex
  obtain ⟨e', he'⟩ := k.lex
  exact ⟨k.prec.trans h.prec, k.c_precedences.trans h.c_precedences, k.mtok.trans h.mtok, e', by rw [he', he]⟩

theorem of_steady (h : st'.steady = st.steady) : Alike st st' := by
  have hlex : ({ st'.toLex with error := none } : Lex) = { st.toLex with error := none } := congrArg Frame.toLex h
  refine ⟨(Kept.of_steady h).prec, (Kept.of_steady h).c_precedences, mtok_of_steady h, st'.error, ?_⟩
  have hback : st'.toLex = { ({ st'.toLex with error := none } : Lex) with error := st'.error } := rfl
  rw [hback, hlex]

end Alike

variable (S : Shell) (room : Nat) (me : Matheval) (st : St)

theorem pop_steady : (st.pop S room).1.steady = st.steady := by
  unfold St.pop
  split
  · exact (reads_get_value S room { st with stack := _ } _).steady
  · rfl

theorem pop_with_lval_steady : st.pop_with_lval.1.steady = st.steady := by
  unfold St.pop_with_lval
  split
  · rfl
  · rfl

theorem opQuest_steady (val : Mnumber) : (st.opQuest S room val).steady = st.steady := by
  unfold St.opQuest
  split
  · rfl
  · have first := pop_steady S room st
    have second := pop_steady S room (st.pop S room).1
    exact second.trans first

theorem opBinary_steady (what : Token) : (st.opBinary S room me what).steady = st.steady := by
  unfold St.opBinary
  split
  · rfl
  · have first := pop_steady S room st
    have second := pop_with_lval_steady (st.pop S room).1
    have found := reads_target S me (st.pop S room).1.pop_with_lval.1 what (st.pop S room).1.pop_with_lval.2
    have applied := yields_applyBinary S room me
      ((st.pop S room).1.pop_with_lval.1.target S me what (st.pop S room).1.pop_with_lval.2).1 what
      ((st.pop S room).1.pop_with_lval.1.target S me what (st.pop S room).1.pop_with_lval.2).2 (st.pop S room).2
    exact applied.steady.trans (found.steady.trans (second.trans first))

theorem applyUnary_steady (what : Token) (mv : Mathvalue) : (st.applyUnary S room me what mv).steady = st.steady := by
  by_cases hq : what = .QUEST
  · rw [hq]
    have read := (reads_value_of S room st mv).steady
    exact (opQuest_steady S room (st.value_of S room mv).1 (st.value_of S room mv).2).trans read
  · exact (yields_applyUnary S room me st hq mv).steady

theorem opUnary_steady (what : Token) : (st.opUnary S room me what).steady = st.steady := by
  unfold St.opUnary
  split
  · rfl
  · have first := pop_with_lval_steady st
    have found := reads_target S me st.pop_with_lval.1 what st.pop_with_lval.2
    exact (applyUnary_steady S room me _ what _).trans (found.steady.trans first)

theorem op_alike (what : Token) : Alike st (st.op S room me what) := by
  apply Alike.of_steady
  unfold St.op
  split
  · rfl
  · split
    · exact opBinary_steady S room me st what
    · exact opUnary_steady S room me st what

theorem opened_alike (otok : Token) : Alike st (opened S room st otok) := by
  obtain ⟨st₁, n, read, hopened⟩ := opened_reads S room st otok
  rw [hopened]
  exact (Alike.of_steady read.steady).trans ⟨rfl, rfl, rfl, st₁.error, rfl⟩

end Alike

section Levels

/-- The tables of zsh's own precedence. -/
def Zsh (p : PrecTable) : Prop := p = .Z_PREC ∨ p = .Z_PREC_TERNARY_MIDDLE

/-- The two tables have the same order on the tokens. -/
def Agreeing (T : Token → Prop) : Prop :=
  ∀ x y, T x → T y → (PrecTable.Z_PREC.at x < PrecTable.Z_PREC.at y ↔ PrecTable.C_PREC.at x < PrecTable.C_PREC.at y)

/-- Two levels, one in each table, that stop at the same tokens. -/
structure Cuts (T : Token → Prop) (p : PrecTable) (pc pc' : Nat) : Prop where
  le : pc ≤ p.top_prec
  top : pc = p.top_prec ↔ pc' = p.toC.top_prec
  cut : ∀ t, T t → (pc < p.at t ↔ pc' < p.toC.at t)

variable {T : Token → Prop} {p : PrecTable}

theorem at_colon (hp : Zsh p) (t : Token) : p.at t = PrecTable.Z_PREC.at t ∧ p.toC.at t = PrecTable.C_PREC.at t ∨
    t = .COLON ∧ p.at t = 17 ∧ p.toC.at t = 18 := by
  obtain rfl | rfl := hp
  · exact .inl ⟨rfl, rfl⟩
  · by_cases ht : t = .COLON
    · rw [ht]
      exact .inr ⟨rfl, rfl, rfl⟩
    · refine .inl ⟨?_, ?_⟩
      · simp [PrecTable.at, ht, PrecTable.levels]
      · simp [PrecTable.at, ht, PrecTable.levels, PrecTable.toC]

theorem Agreeing.at (hT : Agreeing T) (hp : Zsh p) {x y : Token} (hx : T x) (hy : T y) :
    p.at x < p.at y ↔ p.toC.at x < p.toC.at y := by
  have hcolon (t : Token) : (17 < PrecTable.Z_PREC.at t ↔ 18 < PrecTable.C_PREC.at t) ∧
      (PrecTable.Z_PREC.at t < 17 ↔ PrecTable.C_PREC.at t < 18) := by
    cases t <;> decide
  obtain ⟨hzx, hcx⟩ | ⟨-, hzx, hcx⟩ := at_colon hp x <;> obtain ⟨hzy, hcy⟩ | ⟨-, hzy, hcy⟩ := at_colon hp y <;>
    rw [hzx, hcx, hzy, hcy]
  · exact hT x y hx hy
  · exact (hcolon x).2
  · exact (hcolon y).1
  · decide

theorem cuts_top (hp : Zsh p) : Cuts T p p.top_prec p.toC.top_prec := by
  refine ⟨Nat.le_refl _, Iff.intro (fun _ => rfl) fun _ => rfl, fun t _ => ?_⟩
  obtain rfl | rfl := hp <;> cases t <;> decide

theorem cuts_colon (hp : Zsh p) : Cuts T p (p.at .COLON - 1) (p.toC.at .COLON - 1) := by
  obtain rfl | rfl := hp
  · refine ⟨by decide, by decide, fun t _ => ?_⟩
    cases t <;> decide
  · refine ⟨by decide, by decide, fun t _ => ?_⟩
    cases t <;> decide

theorem cuts_at {t₀ : Token} (ht₀ : t₀ = .EQ ∨ t₀ = .QUEST) (hp : Zsh p) : Cuts T p (p.at t₀) (p.toC.at t₀) := by
  obtain rfl | rfl := hp <;> obtain rfl | rfl := ht₀ <;> refine ⟨by decide, by decide, fun t _ => ?_⟩ <;>
    cases t <;> decide

theorem cuts_arg : Cuts T .Z_PREC (PrecTable.Z_PREC.at .COMMA - 1) (PrecTable.C_PREC.at .COMMA - 1) := by
  refine ⟨by decide, by decide, fun t _ => ?_⟩
  cases t <;> decide

/-- The levels that two agreeing tables parse an operator's right side at. -/
theorem Agreeing.cuts_right (hT : Agreeing T) (hp : Zsh p) {otok : Token} (ht : T otok)
    (ho : otok ∉ [Token.NUM, .ID, .CID, .FUNC]) (htop : p.at otok ≤ p.top_prec) :
    Cuts T p (p.rightOf otok) (p.toC.rightOf otok) := by
  have htop' : p.toC.at otok ≤ p.toC.top_prec := by
    revert htop
    obtain rfl | rfl := hp <;> cases otok <;> decide
  have hpos : 0 < p.at otok ∧ 0 < p.toC.at otok := by
    revert ho
    obtain rfl | rfl := hp <;> cases otok <;> decide
  refine ⟨Nat.le_of_lt (p.rightOf_lt_top htop), ?_, fun t hy => ?_⟩
  · exact iff_of_false (Nat.ne_of_lt (p.rightOf_lt_top htop)) (Nat.ne_of_lt (p.toC.rightOf_lt_top htop'))
  · have hright := hT.at hp ht hy
    have hleft := hT.at hp hy ht
    unfold PrecTable.rightOf
    split
    · exact hright
    · omega

end Levels

end Shape

end Zshrs.Math
