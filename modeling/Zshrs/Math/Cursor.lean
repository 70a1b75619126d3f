import Zshrs.Math.Eval

namespace Zshrs.Math

/-- What every lexer function leaves as it is: whether an operand is wanted, FORCEFLOAT, and an error. -/
structure Lex.Keeps (lx lx' : Lex) : Prop where
  unary : lx'.unary = lx.unary
  force_float : lx'.force_float = lx.force_float
  error : lx.error.isSome → lx'.error.isSome

namespace Lex

theorem Keeps.refl (lx : Lex) : Keeps lx lx := ⟨rfl, rfl, id⟩

theorem Keeps.trans {lx lx' lx'' : Lex} (h : Keeps lx lx') (k : Keeps lx' lx'') : Keeps lx lx'' :=
  ⟨k.unary.trans h.unary, k.force_float.trans h.force_float, fun e => k.error (h.error e)⟩

theorem keeps_advance (lx : Lex) : Keeps lx lx.advance := by
  unfold advance
  split
  · exact ⟨rfl, rfl, id⟩
  · exact .refl lx

theorem keeps_skip (lx : Lex) (n : Nat) : Keeps lx (lx.skip n) := ⟨rfl, rfl, id⟩

theorem keeps_skipWhile (p : Char → Bool) (lx : Lex) : Keeps lx (lx.skipWhile p) := keeps_skip lx _

theorem keeps_fail (lx : Lex) (msg : String) : Keeps lx (lx.fail msg) := ⟨rfl, rfl, fun _ => rfl⟩

theorem keeps_num (lx : Lex) (n : Int64) : Keeps lx (lx.num n).2 := ⟨rfl, rfl, id⟩

theorem keeps_follow {lx : Lex} (c : Char) (tok : Token) {other : Token × Lex}
    (h : Keeps lx other.2) : Keeps lx (lx.follow c tok other).2 := by
  unfold follow
  split
  · exact keeps_advance lx
  · exact h

theorem keeps_orEq (lx : Lex) (tok eq : Token) : Keeps lx (lx.orEq tok eq).2 :=
  keeps_follow '=' eq (.refl lx)

theorem keeps_doubled (lx : Lex) (c : Char) (tok eq dtok deq : Token) :
    Keeps lx (lx.doubled c tok eq dtok deq).2 := by
  unfold doubled
  split
  · exact (keeps_advance lx).trans (keeps_orEq _ _ _)
  · exact keeps_orEq _ _ _

end Lex

open Lex

variable (S : Shell) (h : History)

theorem keeps_lexconstant (lx : Lex) : Keeps lx (lexconstant S lx).2 := by
  refine ⟨rfl, rfl, fun he => ?_⟩
  obtain ⟨msg, hm⟩ := Option.isSome_iff_exists.mp he
  simp [lexconstant, hm]

theorem keeps_lexBase (lx : Lex) : Keeps lx (lexBase S lx).2 := by
  have digits := keeps_skipWhile is_digit lx
  have closed := digits.trans (keeps_advance _)
  unfold lexBase
  dsimp only
  split
  · exact digits.trans (keeps_fail _ _)
  · split
    · exact closed.trans (keeps_fail _ _)
    · split
      · exact (closed.trans (keeps_fail _ _)).trans (keeps_num _ _)
      · exact closed.trans ⟨rfl, rfl, id⟩

theorem keeps_ite {lx : Lex} {p : Prop} [Decidable p] {a b : Lex} (ha : Keeps lx a)
    (hb : Keeps lx b) : Keeps lx (if p then a else b) := by
  split
  · exact ha
  · exact hb

theorem keeps_tok {lx : Lex} {p : Prop} [Decidable p] {a b : Token × Lex} (ha : Keeps lx a.2)
    (hb : Keeps lx b.2) : Keeps lx (if p then a else b).2 := by
  split
  · exact ha
  · exact hb

theorem keeps_skipUnderscore (lx : Lex) : Keeps lx lx.skipUnderscore :=
  keeps_ite ((keeps_advance lx).trans (keeps_skipWhile is_digit _)) (.refl lx)

theorem keeps_skipSubscript (lx : Lex) (len : Nat → Text → Nat) :
    Keeps lx (lx.skipSubscript len) :=
  keeps_ite ((keeps_advance lx).trans (keeps_skip _ _)) (.refl lx)

theorem keeps_lexRadix (minus : Bool) (lx : Lex) : Keeps lx (lexRadix minus lx).2 := by
  have radix := (keeps_skipWhile is_digit lx).trans (keeps_skipUnderscore _)
  unfold lexRadix
  dsimp only
  split
  · exact keeps_fail _ _
  · split
    · exact radix.trans (keeps_fail _ _)
    · split
      · exact (radix.trans (keeps_advance _)).trans (keeps_fail _ _)
      · exact radix.trans (keeps_advance _)

theorem keeps_lexFormat (lx : Lex) : Keeps lx (lexFormat lx).2 := by
  unfold lexFormat
  split
  · exact (keeps_advance lx).trans (keeps_lexRadix true _)
  · exact keeps_lexRadix false lx

theorem keeps_lexHash (lx : Lex) : Keeps lx (lexHash S h lx).2 := by
  have name := keeps_skipWhile is_ident lx
  unfold lexHash
  dsimp only
  split
  · split
    · exact keeps_advance lx
    · split
      · exact ((keeps_advance lx).trans (keeps_skip _ _)).trans (keeps_num _ _)
      · exact ((keeps_advance lx).trans (keeps_advance _)).trans (keeps_num _ _)
  · split
    · exact (name.trans (keeps_skipSubscript _ _)).trans ⟨rfl, rfl, id⟩
    · exact name.trans (keeps_num _ _)

theorem keeps_lexName (lx : Lex) (n : Nat) : Keeps lx (lexName S lx n).2 := by
  have name := keeps_skip lx n
  unfold lexName
  dsimp only
  split
  · exact name.trans ⟨rfl, rfl, id⟩
  · split
    · exact name.trans ⟨rfl, rfl, id⟩
    · split
      · exact (name.trans (keeps_advance _)).trans ⟨rfl, rfl, id⟩
      · exact (name.trans (keeps_skipSubscript _ _)).trans ⟨rfl, rfl, id⟩

theorem keeps_lexOther (start : Lex) (c : Char) :
    Keeps start (lexOther S start start.advance c).2 := by
  unfold lexOther
  split
  · exact keeps_lexconstant S start
  · split
    · exact keeps_lexName S start _
    · split
      · split
        · split
          · exact (((keeps_advance _).trans (keeps_advance _)).trans (keeps_advance _)).trans
              (keeps_num _ _)
          · exact .refl start
        · exact .refl start
      · exact .refl start

theorem keeps_lexSign (lx : Lex) (c : Char) (pre post eq unary binary : Token) :
    Keeps lx (lexSign S lx c pre post eq unary binary).2 := by
  unfold lexSign
  split
  · exact keeps_advance lx
  · exact keeps_orEq lx _ _

theorem keeps_lexMinus (start : Lex) : Keeps start (lexMinus S start start.advance).2 := by
  unfold lexMinus
  split
  · exact (keeps_lexconstant S start).trans (keeps_ite ⟨rfl, rfl, id⟩ (.refl _))
  · exact (keeps_advance start).trans (keeps_lexSign S _ _ _ _ _ _ _)

theorem keeps_lexComma (lx : Lex) : Keeps lx (lexComma S lx).2 := by
  unfold lexComma
  split
  · exact keeps_fail _ _
  · exact .refl lx

theorem keeps_zzlexLoop (fuel : Nat) (start : Lex) : Keeps start (zzlexLoop S h fuel start).2 := by
  induction fuel generalizing start with
  | zero => exact .refl start
  | succ fuel ih =>
    unfold zzlexLoop
    split
    · exact ⟨rfl, rfl, id⟩
    · next c hc =>
      split
      · exact (keeps_advance start).trans (ih _)
      · have begin_ : Keeps start { start with tok_start := start.pos } := ⟨rfl, rfl, id⟩
        have next := begin_.trans (keeps_advance _)
        dsimp only
        split
        case h_1 | h_3 | h_4 | h_5 | h_6 => first
          | exact next
          | exact next.trans (keeps_orEq _ _ _)
          | exact next.trans (keeps_lexSign S _ _ _ _ _ _ _)
        case h_2 => exact begin_.trans (keeps_lexMinus S _)
        case h_7 | h_8 => exact next.trans (keeps_doubled _ _ _ _ _ _)
        case h_9 | h_10 =>
          exact next.trans (keeps_tok (keeps_orEq _ _ _) (keeps_doubled _ _ _ _ _ _))
        case h_11 | h_12 | h_15 => exact next.trans (keeps_orEq _ _ _)
        case h_13 | h_14 =>
          exact next.trans
            (keeps_tok ((keeps_advance _).trans (keeps_orEq _ _ _)) (keeps_orEq _ _ _))
        case h_16 => exact next.trans (keeps_num _ _)
        case h_18 => exact next
        case h_17 => exact next.trans (keeps_tok (keeps_num _ _) (.refl _))
        case h_19 => exact next.trans (keeps_lexComma S _)
        case h_20 =>
          split
          · exact next.trans (keeps_lexBase S _)
          · split
            · have format := (next.trans (keeps_advance _)).trans (keeps_lexFormat _)
              exact format.trans (keeps_tok (ih _) (.refl _))
            · exact next.trans (keeps_fail _ _)
        case h_21 => exact next.trans (keeps_lexHash S h _)
        case h_22 => exact begin_.trans (keeps_lexOther S _ _)

theorem keeps_zzlex (lx : Lex) : Keeps lx (zzlex S h lx).2 := by
  have zeroed : Keeps lx { lx with yyval := .integer 0 } := ⟨rfl, rfl, id⟩
  exact zeroed.trans (keeps_zzlexLoop S h _ _)

/-- What the operators leave as it is: everything but the operands and the error. -/
def St.bare (st : St) : Frame := { st.toFrame with stack := [], error := none }

namespace St

variable {st st' : St}

theorem error_m_error_set (st : St) (msg : String) : (st.m_error_set msg).error.isSome := rfl

theorem error_lexToken (he : st.error.isSome) : (st.lexToken S).error.isSome :=
  (keeps_zzlex S st.hist st.toLex).error he

theorem unary_lexToken (st : St) : (st.lexToken S).unary = st.unary :=
  (keeps_zzlex S st.hist st.toLex).unary

theorem error_checkunary (he : st.error.isSome) : st.checkunary.error.isSome := by
  unfold checkunary
  dsimp only
  split
  · exact error_m_error_set _ _
  · split
    · exact error_m_error_set _ _
    · exact he

theorem error_nextToken (he : st.error.isSome) : (st.nextToken S).error.isSome :=
  error_checkunary (error_lexToken S he)

end St

end Zshrs.Math
