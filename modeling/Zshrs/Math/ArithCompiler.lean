import Zshrs.Math.Eval

namespace Zshrs.Math.Compiler

/-- The tokens of the arithmetic compiler, the literals without their values. -/
inductive Tok
  | Num | Float | Ident
  | Plus | Minus | Mul | Div | Mod | Pow
  | BitAnd | BitOr | BitXor | BitNot | Shl | Shr
  | LogAnd | LogOr | LogNot
  | Eq | Neq | Lt | Gt | Leq | Geq
  | Assign | PlusAssign | MinusAssign | MulAssign | DivAssign | ModAssign
  | AndAssign | XorAssign | OrAssign | ShlAssign | ShrAssign | PowAssign
  | LogAndAssign | LogOrAssign | LogXorAssign
  | LogXor | PreInc | PreDec
  | LParen | RParen | Comma | Quest | Colon | Eoi
  deriving DecidableEq

section Tokenizer

variable (S : Shell) (h : History)

def skip_whitespace (s : Text) : Text := s.dropWhile fun c => c = ' ' || c = '\t' || c = '\n' || c = '\r'

def is_ascii_hexdigit (c : Char) : Bool := c.isDigit || ('a' ≤ c && c ≤ 'f') || ('A' ≤ c && c ≤ 'F')

/-- A digit of a literal in base `base`. -/
def in_base (base : Nat) (c : Char) : Bool :=
  if base ≤ 10 then c.isDigit && c.toNat - 48 < base
  else c.isDigit || (c.isAlpha && c.toLower.toNat - 97 + 10 < base)

/-- What `read_number` reads, with what follows it. -/
def read_number (s : Text) : Tok × Text :=
  if s.head? = some '0' ∧ (s.tail.head? = some 'x' ∨ s.tail.head? = some 'X') then
    (.Num, (s.drop 2).dropWhile is_ascii_hexdigit)
  else
    let digits := s.takeWhile Char.isDigit
    let rest := s.dropWhile Char.isDigit
    let lex_octal := 1 < digits.length ∧ s.head? = some '0' ∧ S.octalzeroes h
    if rest.head? = some '#' ∧ !S.dash_strict ∧ 2 ≤ decimal digits ∧ decimal digits ≤ 36 then
      (.Num, rest.tail.dropWhile (in_base (decimal digits)))
    else if lex_octal then (.Num, rest)
    else if rest.head? = some '.' then (.Float, rest.tail.dropWhile Char.isDigit)
    else (.Num, rest)

/-- An operator with its assignment form. -/
def or_eq (s : Text) (tok eq : Tok) : Tok × Text := if s.head? = some '=' then (eq, s.tail) else (tok, s)

/-- A doubled operator, with the assignment forms of both. -/
def doubled (s : Text) (c : Char) (tok eq dtok deq : Tok) : Tok × Text :=
  if s.head? = some c then or_eq s.tail dtok deq else or_eq s tok eq

/-- What follows a `$`. -/
def read_param (s : Text) : Tok × Text :=
  if s.head? = some '{' then (.Ident, (s.tail.dropWhile (· ≠ '}')).tail)
  else if s.head?.any Char.isDigit then (.Ident, s.dropWhile Char.isDigit)
  else if s.head?.any is_ident_start then (.Ident, s.dropWhile is_ident)
  else (.Num, s)

def read_tok (c : Char) (s : Text) : Tok × Text :=
  match c with
  | '$' => read_param s
  | '+' => if s.head? = some '+' ∧ !S.dash_strict then (.PreInc, s.tail) else or_eq s .Plus .PlusAssign
  | '-' => if s.head? = some '-' ∧ !S.dash_strict then (.PreDec, s.tail) else or_eq s .Minus .MinusAssign
  | '*' => doubled s '*' .Mul .MulAssign .Pow .PowAssign
  | '/' => or_eq s .Div .DivAssign
  | '%' => or_eq s .Mod .ModAssign
  | '&' => doubled s '&' .BitAnd .AndAssign .LogAnd .LogAndAssign
  | '|' => doubled s '|' .BitOr .OrAssign .LogOr .LogOrAssign
  | '^' => doubled s '^' .BitXor .XorAssign .LogXor .LogXorAssign
  | '~' => (.BitNot, s)
  | '!' => or_eq s .LogNot .Neq
  | '<' => doubled s '<' .Lt .Leq .Shl .ShlAssign
  | '>' => doubled s '>' .Gt .Geq .Shr .ShrAssign
  | '=' => or_eq s .Assign .Eq
  | '(' => (.LParen, s)
  | ')' => (.RParen, s)
  | ',' => (.Comma, s)
  | '?' => (.Quest, s)
  | ':' => (.Colon, s)
  | _ => (.Eoi, s)

def next_tok (s : Text) : Tok × Text :=
  match skip_whitespace s with
  | [] => (.Eoi, [])
  | c :: s =>
      if c.isDigit then read_number S h (c :: s)
      else if is_ident_start c then (.Ident, (c :: s).dropWhile is_ident)
      else read_tok S c s

end Tokenizer

section Consumed

variable {S : Shell} {h : History}

theorem length_dropWhile_le (p : Char → Bool) (s : Text) : (s.dropWhile p).length ≤ s.length :=
  (List.dropWhile_suffix p).length_le

theorem or_eq_le (s : Text) (tok eq : Tok) : (or_eq s tok eq).2.length ≤ s.length := by
  rw [or_eq]
  split
  · rw [List.length_tail]
    exact Nat.sub_le _ _
  · exact Nat.le_refl _

theorem doubled_le (s : Text) (c : Char) (tok eq dtok deq : Tok) :
    (doubled s c tok eq dtok deq).2.length ≤ s.length := by
  rw [doubled]
  split
  · apply Nat.le_trans (or_eq_le _ _ _)
    rw [List.length_tail]
    exact Nat.sub_le _ _
  · exact or_eq_le _ _ _

theorem read_param_le (s : Text) : (read_param s).2.length ≤ s.length := by
  have htail (t : Text) : t.tail.length ≤ t.length := by
    rw [List.length_tail]
    exact Nat.sub_le _ _
  rw [read_param]
  split
  · exact Nat.le_trans (htail _) (Nat.le_trans (length_dropWhile_le _ _) (htail _))
  · split
    · exact length_dropWhile_le _ _
    · split
      · exact length_dropWhile_le _ _
      · exact Nat.le_refl _

theorem read_tok_le (c : Char) (s : Text) : (read_tok S c s).2.length ≤ s.length := by
  have htail : s.tail.length ≤ s.length := by
    rw [List.length_tail]
    exact Nat.sub_le _ _
  unfold read_tok
  split
  case h_1 => exact read_param_le s
  case h_2 | h_3 =>
    split
    · exact htail
    · exact or_eq_le _ _ _
  case h_4 | h_7 | h_8 | h_9 | h_12 | h_13 => exact doubled_le _ _ _ _ _ _
  case h_5 | h_6 | h_11 | h_14 => exact or_eq_le _ _ _
  all_goals exact Nat.le_refl _

theorem read_number_lt {c : Char} (hc : c.isDigit = true) (s : Text) :
    (read_number S h (c :: s)).2.length < (c :: s).length := by
  have hdrop : ((c :: s).dropWhile Char.isDigit).length < (c :: s).length := by
    rw [List.dropWhile_cons_of_pos hc]
    exact Nat.lt_succ_of_le (length_dropWhile_le _ _)
  have htail (p : Char → Bool) : (((c :: s).dropWhile Char.isDigit).tail.dropWhile p).length < (c :: s).length := by
    refine Nat.lt_of_le_of_lt (length_dropWhile_le _ _) (Nat.lt_of_le_of_lt ?_ hdrop)
    rw [List.length_tail]
    exact Nat.sub_le _ _
  rw [read_number]
  split
  · refine Nat.lt_of_le_of_lt (length_dropWhile_le _ _) ?_
    rw [List.length_drop, List.length_cons]
    omega
  · dsimp only
    split
    · exact htail _
    · split
      · exact hdrop
      · split
        · exact htail _
        · exact hdrop

/-- A token that is not the end takes a character at least. -/
theorem next_tok_lt {s : Text} (hs : (next_tok S h s).1 ≠ .Eoi) : (next_tok S h s).2.length < s.length := by
  have hskip := length_dropWhile_le (fun c => c = ' ' || c = '\t' || c = '\n' || c = '\r') s
  change (skip_whitespace s).length ≤ s.length at hskip
  rw [next_tok] at hs ⊢
  split
  next heq =>
    rw [heq] at hs
    exact absurd rfl hs
  next c t heq =>
    rw [heq] at hskip
    refine Nat.lt_of_lt_of_le ?_ hskip
    split
    next hc => exact read_number_lt hc t
    next =>
      split
      next hc =>
        have hident : is_ident c = true := by
          rw [is_ident_start, Bool.or_eq_true] at hc
          rw [is_ident, Bool.or_eq_true, Char.isAlphanum, Bool.or_eq_true]
          exact hc.imp_left .inl
        rw [List.dropWhile_cons_of_pos hident]
        exact Nat.lt_succ_of_le (length_dropWhile_le _ _)
      next => exact Nat.lt_succ_of_le (read_tok_le c t)

end Consumed

section Tables

def C_PREC : List (Tok × Int) :=
  [(.LogNot, 2), (.BitNot, 2), (.PreInc, 2), (.PreDec, 2), (.BitAnd, 9), (.BitXor, 10), (.BitOr, 11), (.Mul, 4),
    (.Div, 4), (.Mod, 4), (.Plus, 5), (.Minus, 5), (.Shl, 6), (.Shr, 6), (.Lt, 7), (.Leq, 7), (.Gt, 7), (.Geq, 7),
    (.Eq, 8), (.Neq, 8), (.LogAnd, 12), (.LogOr, 14), (.LogXor, 13), (.Quest, 15), (.Colon, 16), (.Pow, 3),
    (.Comma, 18)]

def Z_PREC : List (Tok × Int) :=
  [(.LogNot, 2), (.BitNot, 2), (.PreInc, 2), (.PreDec, 2), (.Shl, 3), (.Shr, 3), (.BitAnd, 4), (.BitXor, 5),
    (.BitOr, 6), (.Pow, 7), (.Mul, 8), (.Div, 8), (.Mod, 8), (.Plus, 9), (.Minus, 9), (.Lt, 10), (.Leq, 10),
    (.Gt, 10), (.Geq, 10), (.Eq, 11), (.Neq, 11), (.LogAnd, 12), (.LogOr, 13), (.LogXor, 13), (.Quest, 14),
    (.Colon, 15), (.Comma, 17)]

def prec_of (table : List (Tok × Int)) (tok : Tok) : Option Int := (table.find? (·.1 = tok)).map (·.2)

/-- The check of one pair of operators. -/
def pair_agrees (x y : Tok) : Bool :=
  match prec_of Z_PREC x, prec_of Z_PREC y with
  | some zx, some zy =>
      match prec_of C_PREC x, prec_of C_PREC y with
      | some cx, some cy => (zx - zy).sign = (cx - cy).sign
      | _, _ => true
  | _, _ => true

def prec_tables_agree : List Tok → Bool
  | [] => true
  | x :: ops => ops.all (pair_agrees x) && prec_tables_agree ops

/-- The operators that `arith_uncompilable_reason` collects. `none` is a logical compound assignment, for which it
does not come to the check. -/
def scan_ops (S : Shell) (h : History) (s : Text) : Option (List Tok) :=
  if _htok : (next_tok S h s).1 = .Eoi then some []
  else if (next_tok S h s).1 ∈ [Tok.LogAndAssign, .LogOrAssign, .LogXorAssign] then none
  else (scan_ops S h (next_tok S h s).2).map fun ops =>
    if (prec_of Z_PREC (next_tok S h s).1).isSome then (next_tok S h s).1 :: ops else ops
termination_by s.length
decreasing_by exact next_tok_lt _htok

end Tables

end Zshrs.Math.Compiler
