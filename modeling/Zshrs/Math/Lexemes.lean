import Zshrs.Math.TreeOps

namespace Zshrs.Math

/-- An error that is there stays the one that is reported. -/
def Lex.Sticks (lx lx' : Lex) : Prop := ∀ msg, lx.error = some msg → lx'.error = some msg

namespace Lex

variable {lx lx' lx'' : Lex}

theorem Sticks.refl (lx : Lex) : Sticks lx lx := fun _ he => he

theorem Sticks.trans (h : Sticks lx lx') (k : Sticks lx' lx'') : Sticks lx lx'' :=
  fun msg he => k msg (h msg he)

theorem Sticks.of_error (h : lx'.error = lx.error) : Sticks lx lx' := fun _ he => h.trans he

theorem sticks_advance (lx : Lex) : Sticks lx lx.advance := by
  intro msg he
  unfold advance
  split
  · exact he
  · exact he

theorem sticks_fail (lx : Lex) (text : String) : Sticks lx (lx.fail text) := by
  intro msg he
  simp [fail, he]

theorem sticks_num (lx : Lex) (n : Int64) : Sticks lx (lx.num n).2 := fun _ he => he

theorem sticks_ite {p : Prop} [Decidable p] {a b : Token × Lex} (ha : Sticks lx a.2)
    (hb : Sticks lx b.2) : Sticks lx (if p then a else b).2 := by
  split
  · exact ha
  · exact hb

theorem sticks_follow (c : Char) (tok : Token) {other : Token × Lex} (h : Sticks lx other.2) :
    Sticks lx (lx.follow c tok other).2 :=
  sticks_ite (sticks_advance lx) h

theorem sticks_orEq (lx : Lex) (tok eq : Token) : Sticks lx (lx.orEq tok eq).2 :=
  sticks_follow '=' eq (.refl lx)

theorem sticks_doubled (lx : Lex) (c : Char) (tok eq dtok deq : Token) :
    Sticks lx (lx.doubled c tok eq dtok deq).2 :=
  sticks_ite ((sticks_advance lx).trans (sticks_orEq _ _ _)) (sticks_orEq _ _ _)

theorem sticks_skipUnderscore (lx : Lex) : Sticks lx lx.skipUnderscore := by
  intro msg he
  unfold skipUnderscore
  split
  · exact sticks_advance lx msg he
  · exact he

theorem sticks_skipSubscript (lx : Lex) (len : Nat → Text → Nat) :
    Sticks lx (lx.skipSubscript len) := by
  intro msg he
  unfold skipSubscript
  split
  · exact sticks_advance lx msg he
  · exact he

end Lex

open Lex Lib.Utf8

section Lexer

variable (S : Shell) (h : History)

theorem sticks_lexconstant (lx : Lex) : Sticks lx (lexconstant S lx).2 := by
  intro msg he
  simp [lexconstant, he]

theorem sticks_lexBase (lx : Lex) : Sticks lx (lexBase S lx).2 := by
  unfold lexBase
  dsimp only
  apply sticks_ite (sticks_fail (lx.skipWhile is_digit) _)
  have past : Sticks lx (lx.skipWhile is_digit).advance := sticks_advance (lx.skipWhile is_digit)
  apply sticks_ite (past.trans (sticks_fail _ _))
  apply sticks_ite (past.trans (sticks_fail _ _))
  exact past

theorem sticks_lexRadix (minus : Bool) (lx : Lex) : Sticks lx (lexRadix minus lx).2 := by
  have under : Sticks lx (lx.skipWhile is_digit).skipUnderscore :=
    sticks_skipUnderscore (lx.skipWhile is_digit)
  unfold lexRadix
  dsimp only
  split
  · exact sticks_fail lx _
  · split
    · exact under.trans (sticks_fail _ _)
    · split
      · exact (under.trans (sticks_advance _)).trans (sticks_fail _ _)
      · exact under.trans (sticks_advance _)

theorem sticks_lexFormat (lx : Lex) : Sticks lx (lexFormat lx).2 := by
  unfold lexFormat
  split
  · exact (sticks_advance lx).trans (sticks_lexRadix true _)
  · exact sticks_lexRadix false lx

theorem sticks_lexHash (lx : Lex) : Sticks lx (lexHash S h lx).2 := by
  unfold lexHash
  split
  · dsimp only
    split
    · exact sticks_advance lx
    · split
      · exact sticks_advance lx
      · exact (sticks_advance lx).trans (sticks_advance _)
  · dsimp only
    apply sticks_ite
    · exact sticks_skipSubscript (lx.skipWhile is_ident) _
    · exact .of_error rfl

theorem sticks_lexName (lx : Lex) (n : Nat) : Sticks lx (lexName S lx n).2 := by
  unfold lexName
  dsimp only
  refine sticks_ite (.of_error rfl) (sticks_ite (.of_error rfl) ?_)
  apply sticks_ite
  · exact sticks_advance (lx.skip n)
  · exact sticks_skipSubscript (lx.skip n) _

theorem sticks_lexOther (start : Lex) (c : Char) :
    Sticks start (lexOther S start start.advance c).2 := by
  unfold lexOther
  apply sticks_ite (sticks_lexconstant S start)
  apply sticks_ite (sticks_lexName S start _)
  apply sticks_ite
  · split
    · apply sticks_ite
      · exact ((sticks_advance start).trans (sticks_advance _)).trans (sticks_advance _)
      · exact .refl start
    · exact .refl start
  · exact .refl start

theorem sticks_lexSign (lx : Lex) (c : Char) (pre post eq unary binary : Token) :
    Sticks lx (lexSign S lx c pre post eq unary binary).2 :=
  sticks_ite (sticks_advance lx) (sticks_orEq lx _ _)

theorem sticks_lexMinus (start : Lex) : Sticks start (lexMinus S start start.advance).2 := by
  have constant := sticks_lexconstant S start
  unfold lexMinus
  apply sticks_ite
  · intro msg he
    dsimp only
    split
    · exact constant msg he
    · exact constant msg he
  · exact (sticks_advance start).trans (sticks_lexSign S _ _ _ _ _ _ _)

/-- The first error stays through a token. -/
theorem sticks_zzlexLoop (fuel : Nat) (start : Lex) : Sticks start (zzlexLoop S h fuel start).2 := by
  induction fuel generalizing start with
  | zero => exact .refl start
  | succ fuel ih =>
    unfold zzlexLoop
    split
    · exact .refl start
    · next c _ =>
      apply sticks_ite ((sticks_advance start).trans (ih _))
      have past : Sticks start ({ start with tok_start := start.pos } : Lex).advance :=
        sticks_advance { start with tok_start := start.pos }
      dsimp only
      split
      · exact past.trans (sticks_lexSign S _ _ _ _ _ _ _)
      · exact sticks_lexMinus S { start with tok_start := start.pos }
      · exact past
      · exact past
      · exact past.trans (sticks_orEq _ _ _)
      · exact past
      · exact past.trans (sticks_doubled _ _ _ _ _ _)
      · exact past.trans (sticks_doubled _ _ _ _ _ _)
      · exact sticks_ite (past.trans (sticks_orEq _ _ _)) (past.trans (sticks_doubled _ _ _ _ _ _))
      · exact sticks_ite (past.trans (sticks_orEq _ _ _)) (past.trans (sticks_doubled _ _ _ _ _ _))
      · exact past.trans (sticks_orEq _ _ _)
      · exact past.trans (sticks_orEq _ _ _)
      · exact sticks_ite ((past.trans (sticks_advance _)).trans (sticks_orEq _ _ _))
          (past.trans (sticks_orEq _ _ _))
      · exact sticks_ite ((past.trans (sticks_advance _)).trans (sticks_orEq _ _ _))
          (past.trans (sticks_orEq _ _ _))
      · exact past.trans (sticks_orEq _ _ _)
      · exact past
      · exact sticks_ite past past
      · exact past
      · exact sticks_ite (past.trans (sticks_fail _ _)) past
      · apply sticks_ite (past.trans (sticks_lexBase S _))
        apply sticks_ite
        · have format := (past.trans (sticks_advance _)).trans (sticks_lexFormat _)
          exact sticks_ite (format.trans (ih _)) format
        · exact past.trans (sticks_fail _ _)
      · exact past.trans (sticks_lexHash S h _)
      · exact sticks_lexOther S { start with tok_start := start.pos } c

theorem sticks_nextToken {st : St} {msg : String} (he : st.error = some msg) :
    (st.nextToken S).error = some msg := by
  have lexed : (st.lexToken S).error = some msg :=
    sticks_zzlexLoop S st.hist (st.input.length + 1) { st.toLex with yyval := .integer 0 } msg he
  unfold St.nextToken St.checkunary
  dsimp only
  split
  · simp [St.m_error_set, lexed]
  · split
    · simp [St.m_error_set, lexed]
    · exact lexed

theorem hist_nextToken (st : St) : (st.nextToken S).hist = st.hist := by
  unfold St.nextToken St.checkunary
  dsimp only
  split
  · rfl
  · split
    · rfl
    · rfl

end Lexer

namespace Tree

open Shape

variable (S : Shell)

/-- The lexer reads these lexemes and then nothing but blanks, whatever has been done to the
shell. -/
def Spelled : Lex → List Lexeme → Prop
  | lx, [] => (lx.skipWhile is_whitespace).peek = none
  | lx, x :: xs => ∃ lx' : Lex, (∀ h, zzlex S h lx = (x.tok, lx')) ∧ x.Seen lx' ∧ lx'.error = none ∧
      Spelled { lx' with unary := !(OP_TYPE x.tok).OP_OPF } xs

/-- The parser has read `x`, and has `xs` before it. -/
structure At (st : St) (x : Lexeme) (xs : List Lexeme) : Prop where
  tok : st.mtok = x.tok
  seen : x.Seen st.toLex
  unary : st.unary = !(OP_TYPE x.tok).OP_OPF
  rest : Spelled S st.toLex xs
  error : st.error = none

/-- What reading tokens leaves as it is. -/
structure Still (st st' : St) : Prop where
  stack : st'.stack = st.stack
  hist : st'.hist = st.hist
  kept : Kept st st'
  cache : st'.m_variables = st.m_variables
  force_float : st'.force_float = st.force_float

variable {S} {st : St} {x : Lexeme} {xs : List Lexeme}

theorem Lexeme.Seen.congr {lx lx' : Lex} (hv : lx'.yyval = lx.yyval) (hl : lx'.yylval = lx.yylval)
    (h : x.Seen lx) : x.Seen lx' := by
  cases x with
  | num val => exact hv.trans h
  | var name => exact hl.trans h
  | op what => trivial

theorem nextToken_at (hs : Spelled S st.toLex (x :: xs))
    (hk : (OP_TYPE x.tok).is_op_token = !st.unary) :
    At S (st.nextToken S) x xs ∧ Still st (st.nextToken S) := by
  obtain ⟨lx, reads, seen, fine, rest⟩ := hs
  have lexed : st.lexToken S = { st with toLex := lx, mtok := x.tok } := by
    unfold St.lexToken
    rw [reads]
  have keeps := keeps_zzlex S st.hist st.toLex
  rw [reads] at keeps
  have same : lx.unary = st.unary := keeps.unary
  have next : st.nextToken S =
      { st with
        toLex := { lx with unary := !(OP_TYPE x.tok).OP_OPF }, mtok := x.tok } := by
    unfold St.nextToken St.checkunary
    rw [lexed]
    cases hu : st.unary with
    | true => simp [hk, hu, same]
    | false => simp [hk, hu, same]
  have seen' : x.Seen { lx with unary := !(OP_TYPE x.tok).OP_OPF } := by
    apply Lexeme.Seen.congr _ _ seen
    · rfl
    · rfl
  rw [next]
  exact ⟨⟨rfl, seen', rfl, rest, fine⟩, rfl, rfl, ⟨rfl, rfl, rfl⟩, rfl, keeps.force_float⟩

/-- An operator does not touch the lexer. -/
theorem At.of_steady {st' : St} (h : At S st x xs) (hs : st'.steady = st.steady)
    (he : st'.error = none) : At S st' x xs := by
  have lex : ({ st'.toLex with error := none } : Lex) = { st.toLex with error := none } :=
    congrArg Frame.toLex hs
  have here : st'.toLex = st.toLex := by
    calc st'.toLex = { st'.toLex with error := none } := by rw [← he]
      _ = { st.toLex with error := none } := lex
      _ = st.toLex := by rw [← h.error]
  refine ⟨(mtok_of_steady hs).trans h.tok, ?_, ?_, ?_, he⟩
  · rw [here]
    exact h.seen
  · rw [here]
    exact h.unary
  · rw [here]
    exact h.rest

end Tree

end Zshrs.Math
