import Zshrs.Lib.Utf8

namespace Zshrs.Math

abbrev Text := List Char

inductive Token
  | M_INPAR | M_OUTPAR | NOT | COMP | POSTPLUS
  | POSTMINUS | UPLUS | UMINUS | AND | XOR
  | OR | MUL | DIV | MOD | PLUS
  | MINUS | SHLEFT | SHRIGHT | LES | LEQ
  | GRE | GEQ | DEQ | NEQ | DAND
  | DOR | DXOR | QUEST | COLON | EQ
  | PLUSEQ | MINUSEQ | MULEQ | DIVEQ | MODEQ
  | ANDEQ | XOREQ | OREQ | SHLEFTEQ | SHRIGHTEQ
  | DANDEQ | DOREQ | DXOREQ | COMMA | EOI
  | PREPLUS | PREMINUS | NUM | ID | POWER
  | CID | POWEREQ | FUNC
  deriving DecidableEq

/-- The two low bits of a token's type. -/
inductive Assoc
  | LR | RL | BOOL
  deriving DecidableEq

/-- A token's type: its associativity and the `OP_` bits. -/
structure OpType where
  assoc : Assoc
  OP_A2 : Bool
  OP_A2IR : Bool
  OP_A2IO : Bool
  OP_E2 : Bool
  OP_E2IO : Bool
  OP_OP : Bool
  OP_OPF : Bool

namespace OpType

def plain (a : Assoc) : OpType := ⟨a, false, false, false, false, false, false, false⟩
def a2 (a : Assoc) : OpType := { plain a with OP_A2 := true }
def a2ir (a : Assoc) : OpType := { plain a with OP_A2IR := true }
def a2io (a : Assoc) : OpType := { plain a with OP_A2IO := true }
def e2 (a : Assoc) : OpType := { plain a with OP_E2 := true }
def e2io (a : Assoc) : OpType := { plain a with OP_E2IO := true }
def opOnly (a : Assoc) : OpType := { plain a with OP_OP := true }
def opf (a : Assoc) : OpType := { plain a with OP_OPF := true }

/-- `OP_E2 | OP_E2IO`. -/
def assigns (tp : OpType) : Bool := tp.OP_E2 || tp.OP_E2IO

/-- `OP_A2 | OP_A2IR | OP_A2IO | OP_E2 | OP_E2IO`. -/
def is_binary (tp : OpType) : Bool := tp.OP_A2 || tp.OP_A2IR || tp.OP_A2IO || tp.assigns

def is_op_token (tp : OpType) : Bool := tp.is_binary || tp.OP_OP

end OpType

open Assoc in
def OP_TYPE : Token → OpType
  | .M_INPAR => .plain LR
  | .M_OUTPAR => { OpType.opOnly LR with OP_OPF := true }
  | .NOT | .COMP | .UPLUS | .UMINUS | .PREPLUS | .PREMINUS => .plain RL
  | .POSTPLUS | .POSTMINUS => { OpType.opOnly RL with OP_OPF := true }
  | .AND | .XOR | .OR | .SHLEFT | .SHRIGHT | .DXOR => .a2io LR
  | .MUL | .DIV | .MOD | .PLUS | .MINUS => .a2 LR
  | .LES | .LEQ | .GRE | .GEQ | .DEQ | .NEQ => .a2ir LR
  | .DAND | .DOR => .a2io BOOL
  | .QUEST | .COLON | .EOI => .opOnly RL
  | .EQ | .PLUSEQ | .MINUSEQ | .MULEQ | .DIVEQ | .MODEQ | .POWEREQ => .e2 RL
  | .ANDEQ | .XOREQ | .OREQ | .SHLEFTEQ | .SHRIGHTEQ => .e2io RL
  | .DANDEQ | .DOREQ => .e2io BOOL
  | .DXOREQ => .a2io RL
  | .COMMA | .POWER => .a2 RL
  | .NUM | .ID | .CID | .FUNC => .opf LR

/-- The four precedence tables that `M_PREC` points to. -/
inductive PrecTable
  | Z_PREC | C_PREC | Z_PREC_TERNARY_MIDDLE | C_PREC_TERNARY_MIDDLE
  deriving DecidableEq

/-- The static table, without the lifted `:` of the two ternary tables. -/
def PrecTable.levels : PrecTable → List Nat
  | .Z_PREC | .Z_PREC_TERNARY_MIDDLE =>
    [1, 137, 2, 2, 2,
     2, 2, 2, 4, 5,
     6, 8, 8, 8, 9,
     9, 3, 3, 10, 10,
     10, 10, 11, 11, 12,
     13, 13, 14, 15, 16,
     16, 16, 16, 16, 16,
     16, 16, 16, 16, 16,
     16, 16, 16, 17, 200,
     2, 2, 0, 0, 7,
     0, 16, 0]
  | .C_PREC | .C_PREC_TERNARY_MIDDLE =>
    [1, 137, 2, 2, 2, 2, 2, 2, 9, 10, 11, 4, 4, 4, 5, 5, 6, 6, 7, 7, 7, 7, 8, 8, 12, 14, 13, 15, 16,
     17, 17, 17, 17, 17, 17, 17, 17, 17, 17, 17, 17, 17, 17, 18, 200, 2, 2, 0, 0, 3, 0, 17, 0]

def PrecTable.at (p : PrecTable) (t : Token) : Nat :=
  if t = .COLON ∧ p = .Z_PREC_TERNARY_MIDDLE then 17
  else if t = .COLON ∧ p = .C_PREC_TERNARY_MIDDLE then 18
  else p.levels.getD t.ctorIdx 0

/-- The level of a whole expression, and of what stands between parentheses. -/
def PrecTable.top_prec (p : PrecTable) : Nat := p.at .COMMA + 1

/-- The level that an operator's right operand is parsed at. -/
def PrecTable.rightOf (p : PrecTable) (t : Token) : Nat :=
  p.at t - (if (OP_TYPE t).assoc = .RL then 0 else 1)

/-- No token stands at the level of a whole expression. -/
theorem PrecTable.at_lt_top (p : PrecTable) {t : Token} (h : p.at t ≤ p.top_prec) :
    p.at t < p.top_prec := by
  cases p <;> cases t <;> first | decide | exact absurd h (by decide)

theorem PrecTable.rightOf_lt_top (p : PrecTable) {t : Token} (h : p.at t ≤ p.top_prec) :
    p.rightOf t < p.top_prec :=
  Nat.lt_of_le_of_lt (Nat.sub_le _ _) (p.at_lt_top h)

/-- What may stand in front of an operand binds tighter than every operator's right side. -/
theorem PrecTable.operand_at_le (p : PrecTable) {t : Token} (h : (OP_TYPE t).is_op_token = false) :
    p.at t ≤ 2 := by
  cases p <;> cases t <;> first | decide | exact absurd h (by decide)

inductive MnType
  | MN_INTEGER | MN_FLOAT | MN_UNSET
  deriving DecidableEq

structure Mnumber where
  l : Int64
  d : Float
  type_ : MnType

def Mnumber.integer (l : Int64) : Mnumber := ⟨l, 0.0, .MN_INTEGER⟩
def Mnumber.float (d : Float) : Mnumber := ⟨0, d, .MN_FLOAT⟩
def Mnumber.unset : Mnumber := ⟨0, 0.0, .MN_UNSET⟩

/-- An operand: its value, and the parameter text it came from. A value of type `MN_UNSET` is read
when the operand is popped. -/
structure Mathvalue where
  val : Mnumber
  lval : Option Text

/-- The ways in which an operator ends the process. -/
inductive Death
  | die_of_sigfpe
  | panic
  deriving DecidableEq

/-- What an evaluation does to the shell. What stands behind the end of the process does not happen. -/
inductive Effect
  | assign (name : Text) (val : Mnumber)
  | call (func_call : Text)
  | die (how : Death)

/-- The parameter table is a function of the effects so far. -/
abbrev History := List Effect

/-- The statics of the lexer. Positions count characters. -/
structure Lex where
  input : Text
  pos : Nat
  tok_start : Nat
  yyval : Mnumber
  yylval : Text
  unary : Bool
  lastbase : Int
  error : Option String
  force_float : Bool
  octal_zeroes : Bool

/-- What `lexconstant` finds: a token, and where it leaves the lexer. -/
structure Constant where
  tok : Token
  yyval : Mnumber
  input : Text
  pos : Nat
  lastbase : Int
  error : Option String

/-- The statics that `save_state` keeps. -/
structure Frame extends Lex where
  mtok : Token
  stack : List Mathvalue
  noeval : Int
  m_variables : Text → Option Mnumber
  m_string_variables : Text → Option Text
  prec : PrecTable
  c_precedences : Bool

/-- The evaluator, what it has done to the shell, and the subscripts that the assignments of the
running evaluation have resolved. -/
structure St extends Frame where
  hist : History
  subs : List Text

/-- What the shell answers to an evaluator that asks it for a value. -/
structure Reading where
  effects : List Effect
  value : Mnumber
  error : Option String

inductive PrecType
  | MPREC_TOP | MPREC_ARG
  deriving DecidableEq

/-- The shell around the evaluator: its mode and options, its parameters and its math functions,
the constants of the lexer, and the arithmetic of doubles that Lean does not have. -/
structure Shell where
  bash_mode : Bool
  posix_faithful : Bool
  korn_mode : Bool
  ksh93_mode : Bool
  pdksh_family : Bool
  sh_mode : Bool
  dash_faithful : Bool
  dash_strict : Bool
  emulate_sh : Bool
  emulating_592 : Bool
  /-- The target is an x86 or an x86_64. -/
  x86 : Bool
  cprecedences : History → Bool
  forcefloat : History → Bool
  octalzeroes : History → Bool
  lastval : History → Int64
  mypid : Int64
  poundgetfn : History → Int64
  lexconstant : Lex → Constant
  decode_math_keychar : Text → Option (Int64 × Nat)
  /-- `itype_end` for `INAMESPC`. -/
  itype_end : Text → Nat
  zstrtol : Text → Nat → Int64
  zlong_from_double : Float → Int64
  fmod : Float → Float → Float
  /-- `ksh_long_double`: its operators, its comparison and its rounding of integers. -/
  ksh_arith : Token → Mnumber → Mnumber → Mnumber
  ksh_float_cmp : Mnumber → Mnumber → Option Ordering
  ksh_float_neg : Mnumber → Mnumber
  round_int : Mnumber → Mnumber
  /-- The parameter is an association. -/
  is_hashed : History → Text → Bool
  /-- The parameter is there, and not marked unset. -/
  is_set : History → Text → Bool
  /-- What `setnparam` has made of the parameter: an integer, a float or neither. -/
  setnparam : History → Text → Mnumber → Option MnType
  getmathparam : Nat → St → Text → Reading
  getcvar : Nat → St → Text → Reading
  callmathfunc : Nat → St → Text → Reading
  /-- The single operator shortcut of a top level `matheval`. -/
  shortcut : History → Text → Option (List Effect × Int64)

def MAX_MLEVEL : Nat := 256

def Nularg : Char := '\ue1a1'

def St.m_error_set (st : St) (msg : String) : St := { st with error := some (st.error.getD msg) }

def St.push (st : St) (val : Mnumber) (lval : Option Text) : St :=
  { st with stack := ⟨val, lval⟩ :: st.stack }

/-- The reading's effects are done, and its error is kept unless there is one already. -/
def St.answer (st : St) (r : Reading) : St × Mnumber :=
  ({ st with hist := st.hist ++ r.effects, error := st.error.or r.error }, r.value)

def St.save_state (st : St) : Frame := st.toFrame

def St.restore_state (st : St) (saved : Frame) : St := { st with toFrame := saved }

/-- `new`: the statics of an evaluation of `input` that has not begun. -/
def St.new (st : St) (input : Text) : St where
  input := input
  pos := 0
  tok_start := 0
  yyval := .integer 0
  yylval := []
  unary := true
  lastbase := -1
  error := none
  force_float := false
  octal_zeroes := false
  mtok := .EOI
  stack := []
  noeval := 0
  m_variables := fun _ => none
  m_string_variables := fun _ => none
  prec := .Z_PREC
  c_precedences := false
  hist := st.hist
  subs := []

end Zshrs.Math
