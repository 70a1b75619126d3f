import Zshrs.Math.TablesAgree
import Zshrs.Math.NoevalFrame

namespace Zshrs.Math.Compiler

open Shape

section Operators

/-- What the compiler's tables call an operator of the evaluator. -/
def toTok : Token → Option Tok
  | .NOT => some .LogNot
  | .COMP => some .BitNot
  | .PREPLUS | .POSTPLUS => some .PreInc
  | .PREMINUS | .POSTMINUS => some .PreDec
  | .AND => some .BitAnd
  | .XOR => some .BitXor
  | .OR => some .BitOr
  | .MUL => some .Mul
  | .DIV => some .Div
  | .MOD => some .Mod
  | .PLUS => some .Plus
  | .MINUS => some .Minus
  | .SHLEFT => some .Shl
  | .SHRIGHT => some .Shr
  | .LES => some .Lt
  | .LEQ => some .Leq
  | .GRE => some .Gt
  | .GEQ => some .Geq
  | .DEQ => some .Eq
  | .NEQ => some .Neq
  | .DAND => some .LogAnd
  | .DOR => some .LogOr
  | .DXOR => some .LogXor
  | .QUEST => some .Quest
  | .COLON => some .Colon
  | .POWER => some .Pow
  | .COMMA => some .Comma
  | _ => none

variable {t u : Token} {x y : Tok}

/-- The tables of the compiler are those of the evaluator. -/
theorem prec_of_toTok (ht : toTok t = some x) :
    prec_of Z_PREC x = some (PrecTable.Z_PREC.at t : Int) ∧ prec_of C_PREC x = some (PrecTable.C_PREC.at t : Int) := by
  cases t <;> cases ht <;> decide

theorem pair_agrees_at (ht : toTok t = some x) (hu : toTok u = some y) :
    pair_agrees x y = true ↔ (PrecTable.Z_PREC.at t - PrecTable.Z_PREC.at u : Int).sign =
      (PrecTable.C_PREC.at t - PrecTable.C_PREC.at u : Int).sign := by
  unfold pair_agrees
  rw [(prec_of_toTok ht).1, (prec_of_toTok ht).2, (prec_of_toTok hu).1, (prec_of_toTok hu).2]
  exact decide_eq_true_iff

theorem pair_agrees_symm (ht : toTok t = some x) (hu : toTok u = some y) (h : pair_agrees x y = true) :
    pair_agrees y x = true := by
  rw [pair_agrees_at ht hu] at h
  rw [pair_agrees_at hu ht, ← Int.neg_sub, Int.sign_neg, h, ← Int.sign_neg, Int.neg_sub]

theorem pair_agrees_refl (ht : toTok t = some x) : pair_agrees x x = true := by
  rw [pair_agrees_at ht ht, Int.sub_self, Int.sub_self]

/-- The check comes to every pair of the operators. -/
theorem prec_tables_agree_pair {ops : List Tok} (h : prec_tables_agree ops = true) (ht : toTok t = some x)
    (hu : toTok u = some y) (hx : x ∈ ops) (hy : y ∈ ops) : pair_agrees x y = true := by
  induction ops with
  | nil => exact absurd hx List.not_mem_nil
  | cons z ops ih =>
      rw [prec_tables_agree, Bool.and_eq_true, List.all_eq_true] at h
      obtain rfl | hx' := List.mem_cons.mp hx
      · obtain rfl | hy' := List.mem_cons.mp hy
        · exact pair_agrees_refl ht
        · exact h.1 y hy'
      · obtain rfl | hy' := List.mem_cons.mp hy
        · exact pair_agrees_symm hu ht (h.1 x hx')
        · exact ih h.2 hx' hy'

theorem lt_of_pair_agrees (ht : toTok t = some x) (hu : toTok u = some y) (h : pair_agrees x y = true) :
    PrecTable.Z_PREC.at t < PrecTable.Z_PREC.at u ↔ PrecTable.C_PREC.at t < PrecTable.C_PREC.at u := by
  have hsign := (pair_agrees_at ht hu).mp h
  have hz := Int.sign_eq_neg_one_iff_neg (a := (PrecTable.Z_PREC.at t - PrecTable.Z_PREC.at u : Int))
  have hc := Int.sign_eq_neg_one_iff_neg (a := (PrecTable.C_PREC.at t - PrecTable.C_PREC.at u : Int))
  rw [hsign] at hz
  have heq := hz.symm.trans hc
  omega

/-- The levels that the compiler's tables leave out have the same place in both. -/
def Fixed (z c : Nat) : Prop := ∀ t, (PrecTable.Z_PREC.at t < z ↔ PrecTable.C_PREC.at t < c) ∧
  (z < PrecTable.Z_PREC.at t ↔ c < PrecTable.C_PREC.at t)

theorem fixed_of_mem {p : Nat × Nat} (hp : p ∈ [(0, 0), (1, 1), (2, 2), (16, 17), (137, 137), (200, 200)]) :
    Fixed p.1 p.2 := by
  intro t
  revert p
  cases t <;> decide

theorem fixed_of_toTok (ht : toTok t = none) : Fixed (PrecTable.Z_PREC.at t) (PrecTable.C_PREC.at t) := by
  apply @fixed_of_mem (PrecTable.Z_PREC.at t, PrecTable.C_PREC.at t)
  revert ht
  cases t <;> decide

end Operators

section Scan

variable (S : Shell) (h : History) (lx₀ : Lex)

/-- The check lets the text through. -/
def scan_agrees (s : Text) : Bool := (scan_ops S h s).any prec_tables_agree

/-- The operators that the evaluator reads. -/
def Reads (x : Tok) : Prop := ∃ t, Lexed S lx₀ t ∧ toTok t = some x

/-- Those of them that the scan does not find. -/
def Missed (x : Tok) : Prop := Reads S lx₀ x ∧ ∀ ops ∈ scan_ops S h lx₀.rest, x ∉ ops

/-- The tables do not disagree about an operator that the scan misses. -/
def Covers : Prop := ∀ x y, Missed S h lx₀ x → Reads S lx₀ y → pair_agrees x y = true

variable {S h lx₀}

theorem Covers.agreeing (hcover : Covers S h lx₀) (hscan : scan_agrees S h lx₀.rest = true) :
    Agreeing (Lexed S lx₀) := by
  obtain ⟨hsome, hagree⟩ := (Option.any_eq_true_iff_get _ _).mp hscan
  have hops := Option.get_mem hsome
  generalize (scan_ops S h lx₀.rest).get hsome = ops at hagree hops
  intro t u hlt hlu
  cases ht : toTok t with
  | none => exact (fixed_of_toTok ht u).2
  | some x =>
      cases hu : toTok u with
      | none => exact (fixed_of_toTok hu t).1
      | some y =>
          have hrx : Reads S lx₀ x := ⟨t, hlt, ht⟩
          have hry : Reads S lx₀ y := ⟨u, hlu, hu⟩
          have missed {z : Tok} (hrz : Reads S lx₀ z) (hz : z ∉ ops) : Missed S h lx₀ z := by
            refine ⟨hrz, fun ops' hops' => ?_⟩
            cases Option.mem_unique hops hops'
            exact hz
          apply lt_of_pair_agrees ht hu
          by_cases hx : x ∈ ops
          · by_cases hy : y ∈ ops
            · exact prec_tables_agree_pair hagree ht hu hx hy
            · exact pair_agrees_symm hu ht (hcover y x (missed hry hy) hrx)
          · exact hcover x y (missed hrx hx) hry

end Scan

section Outcome

variable {S : Shell} (hS : Blind S) {room : Nat}

theorem trailing_toC (prec_tp : PrecType) (st : St) :
    st.toC.trailing S prec_tp = ((st.trailing S prec_tp).1.toC, (st.trailing S prec_tp).2) := by
  unfold St.trailing
  split
  · have hlex : st.toC.toLex = st.toLex := rfl
    dsimp only
    rw [hlex]
    split
    · rfl
    · rfl
    · rfl
  · rfl

include hS in
theorem result_toC (st : St) : st.toC.result S room = ((st.result S room).1.toC, (st.result S room).2) := by
  have hstack : st.toC.stack = st.stack := rfl
  unfold St.result
  rw [hstack]
  split
  · rfl
  · next mv stack _ =>
    have hvalue := @St.value_of_toC S hS room { st with stack := stack } mv
    have hback : ({ st.toC with stack := stack } : St) = ({ st with stack := stack } : St).toC := rfl
    rw [hback, hvalue]
    generalize St.value_of S room _ mv = read
    obtain ⟨st₁, val⟩ := read
    have herror : st₁.toC.error = st₁.error := rfl
    dsimp only
    rw [herror]
    split
    · rfl
    · rfl

include hS in
theorem outcome_toC (prec_tp : PrecType) (st : St) : st.toC.outcome S room prec_tp =
    ((st.outcome S room prec_tp).1.toC, (st.outcome S room prec_tp).2) := by
  have herror : st.toC.error = st.error := rfl
  have hmtok : st.toC.mtok = st.mtok := rfl
  unfold St.outcome
  rw [herror, hmtok, trailing_toC]
  split
  · rfl
  · split
    · rfl
    · generalize St.trailing S prec_tp st = p
      obtain ⟨st₁, _ | err⟩ := p
      · exact result_toC hS st₁
      · rfl

end Outcome

section Sound

variable (S : Shell) (room fuel : Nat)

/-- A parse does the same with the C table: the same applications of `op`, and so the same state and outcome. -/
def SameParse (prec_tp : PrecType) (st : St) : Prop :=
  let z := st.mathparse S room (matheval S room) fuel (parsingLevel prec_tp st)
  let c := st.toC.mathparse S room (matheval S room) fuel (parsingLevel prec_tp st.toC)
  applications S room (matheval S room) fuel (parsingLevel prec_tp st.toC) st.toC =
      applications S room (matheval S room) fuel (parsingLevel prec_tp st) st ∧
    c = z.toC ∧ c.outcome S room prec_tp = ((z.outcome S room prec_tp).1.toC, (z.outcome S room prec_tp).2)

theorem parsingLevel_cuts {T : Token → Prop} (prec_tp : PrecType) {st : St} (hz : st.prec = .Z_PREC) :
    Cuts T st.prec (parsingLevel prec_tp st) (parsingLevel prec_tp st.toC) := by
  have hc : st.toC.prec = .C_PREC := congrArg PrecTable.toC hz
  unfold parsingLevel
  rw [hz, hc]
  cases prec_tp with
  | MPREC_TOP => exact cuts_top (.inl rfl)
  | MPREC_ARG => exact cuts_arg

theorem prec_tables_agree_sound (hS : Blind S) (h : History) (prec_tp : PrecType) {st : St} (hz : st.prec = .Z_PREC)
    (hzsh : st.c_precedences = false) (hscan : scan_agrees S h st.rest = true) (hcover : Covers S h st.toLex) :
    SameParse S room fuel prec_tp st := by
  have hT := hcover.agreeing hscan
  have ahead : Ahead S st.toLex st := ⟨.inl hz, hzsh, .start st.error⟩
  have hme := matheval_blind S room
  have hloop := @parseLoop_swap S st.toLex room (matheval S room) hS hme hT fuel
  obtain ⟨heq, htrace⟩ := enter_swap hloop ahead (parsingLevel_cuts prec_tp hz)
  refine ⟨htrace, heq, ?_⟩
  have hout := @outcome_toC S hS room prec_tp (st.mathparse S room (matheval S room) fuel (parsingLevel prec_tp st))
  rw [← hout]
  exact congrArg (St.outcome S room prec_tp) heq

/-- The same shell, whose lexer reads decimal fractions too. -/
def pointShell : Shell :=
  { plainShell with
    lexconstant := fun lx =>
      let digits := lx.rest.takeWhile is_digit
      let rest := lx.rest.dropWhile is_digit
      if rest.head? = some '.' then
        let frac := rest.tail.takeWhile is_digit
        ⟨.NUM, .float (OfScientific.ofScientific (decimal (digits ++ frac)) true frac.length), lx.input,
          lx.pos + digits.length + 1 + frac.length, -1, none⟩
      else plainShell.lexconstant lx }

theorem pointShell_blind : Blind pointShell := ⟨fun _ _ _ => rfl, fun _ _ _ => rfl, fun _ _ _ => rfl⟩

/-- `1*2+.5*3`. The scan ends in front of the point. -/
def products : St := { idle with input := ['1', '*', '2', '+', '.', '5', '*', '3'] }

theorem products_tokens {h : History} {lx : Lex} (hinput : lx.input = products.input) (hpos : lx.pos ≤ 8) :
    (zzlex pointShell h lx).1 ∈ [Token.NUM, .UPLUS, .PLUS, .MUL, .EOI] ∧
      (zzlex pointShell h lx).2.input = products.input ∧ (zzlex pointShell h lx).2.pos ≤ 8 := by
  obtain ⟨input, pos, tok_start, yyval, yylval, unary, lastbase, error, force_float, octal_zeroes⟩ := lx
  cases hinput
  match pos, hpos with
  | 0, _ | 1, _ | 2, _ | 4, _ | 5, _ | 6, _ | 7, _ | 8, _ =>
      exact ⟨List.mem_of_elem_eq_true rfl, rfl, Nat.le_of_ble_eq_true rfl⟩
  | 3, _ =>
      cases unary with
      | true => exact ⟨List.mem_of_elem_eq_true rfl, rfl, Nat.le_of_ble_eq_true rfl⟩
      | false => exact ⟨List.mem_of_elem_eq_true rfl, rfl, Nat.le_of_ble_eq_true rfl⟩

theorem products_lexing {lx : Lex} (hlx : Lexing pointShell products.toLex lx) :
    lx.input = products.input ∧ lx.pos ≤ 8 := by
  induction hlx with
  | start e => exact ⟨rfl, Nat.zero_le 8⟩
  | next h e hlx ih => exact (products_tokens ih.1 ih.2).2

/-- The product that the scan misses agrees with the product and the sum that it collects. -/
theorem products_covered : Covers pointShell [] products.toLex := by
  have hreads {x : Tok} (hx : Reads pointShell products.toLex x) : x = .Plus ∨ x = .Mul := by
    obtain ⟨t, ⟨lx, h, hlx, rfl⟩, ht⟩ := hx
    obtain ⟨hinput, hpos⟩ := products_lexing hlx
    have hmem := (products_tokens (h := h) hinput hpos).1
    generalize (zzlex pointShell h lx).1 = t at ht hmem
    simp only [List.mem_cons, List.not_mem_nil, or_false] at hmem
    obtain rfl | rfl | rfl | rfl | rfl := hmem
    · cases ht
    · cases ht
    · exact .inl (Option.some.inj ht).symm
    · exact .inr (Option.some.inj ht).symm
    · cases ht
  intro x y hx hy
  rcases hreads hx.1 with rfl | rfl <;> rcases hreads hy with rfl | rfl <;> decide

theorem products_scan : scan_agrees pointShell [] products.rest = true := by decide +kernel

theorem products_same : SameParse pointShell MAX_MLEVEL 9 .MPREC_TOP products :=
  prec_tables_agree_sound pointShell MAX_MLEVEL 9 pointShell_blind [] .MPREC_TOP rfl rfl products_scan products_covered

def fraction : St := { idle with input := ['.', '5', '+', '1', '<', '<', '1'] }

/-- The scan ends in front of the point of `.5+1<<1`, and finds no operator. -/
theorem fraction_scan : scan_agrees pointShell [] fraction.rest = true := by
  have hend : (next_tok pointShell [] fraction.rest).1 = .Eoi := by decide
  rw [scan_agrees, scan_ops, dif_pos hend]
  rfl

/-- With zsh's table the shift comes first in `.5+1<<1`, with the C table the sum. -/
theorem fraction_differs : ¬ ∀ (S : Shell) (room fuel : Nat), Blind S → ∀ (h : History) (prec_tp : PrecType)
    (st : St), st.prec = .Z_PREC → st.c_precedences = false → scan_agrees S h st.rest = true →
    SameParse S room fuel prec_tp st := by
  intro hall
  obtain ⟨hsame, -⟩ := hall pointShell MAX_MLEVEL 8 pointShell_blind [] .MPREC_TOP fraction rfl rfl fraction_scan
  have hops := congrArg (List.map Prod.fst) hsame
  exact absurd hops (by decide +kernel)

end Sound

end Zshrs.Math.Compiler
