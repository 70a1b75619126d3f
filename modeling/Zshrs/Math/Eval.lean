import Zshrs.Math.IntPower
import Zshrs.Math.Zzlex

namespace Zshrs.Math

open Lib.Utf8

def Inpar : Char := '\ue188'

/-- The base and the body of a subscripted name. -/
def subscript? (name : Text) : Option (Text × Text) :=
  (name.findIdx? (· = '[')).map fun bi =>
    let close := match name.reverse.findIdx? (· = ']') with
      | some k => name.length - 1 - k
      | none => name.length
    (name.take bi, if close > bi then (name.take close).drop (bi + 1) else [])

/-- `base[idx]`. -/
def elementOf (base : Text) (idx : Int64) : Text :=
  base ++ '[' :: ((toString idx.toInt).toList ++ [']'])

/-- A nested `matheval`. -/
abbrev Matheval := St → Text → St × Except String Mnumber

/-- A nested evaluation between `save_state` and `restore_state`. -/
def evalNested (me : Matheval) (st : St) (body : Text) : St × Except String Mnumber :=
  let saved := st.save_state
  let (st', r) := me st body
  ({ st'.restore_state saved with subs := st.subs }, r)

variable (S : Shell) (room : Nat) (me : Matheval)

def asInt (n : Mnumber) : Int64 :=
  if n.type_ = .MN_FLOAT then S.zlong_from_double n.d else n.l

def asFloat (n : Mnumber) : Float := if n.type_ = .MN_FLOAT then n.d else n.l.toFloat

def isZero (n : Mnumber) : Bool :=
  (n.type_ = .MN_INTEGER ∧ n.l = 0) || (n.type_ = .MN_FLOAT && n.d == 0.0) || n.type_ = .MN_UNSET

def notzero (a : Mnumber) : Bool :=
  if a.type_ = .MN_UNSET then false else if a.type_ = .MN_INTEGER then a.l ≠ 0 else true

def ofBool (b : Bool) : Mnumber := .integer (if b then 1 else 0)

/-- The 32 bits of mksh. -/
def wrap32 (n : Int64) : Int64 := n.toInt32.toInt64

section Arithmetic

def arith (what : Token) (a b : Mnumber) (onInt : Int64 → Int64 → Int64)
    (onFloat : Float → Float → Float) : Mnumber :=
  if S.ksh93_mode then S.ksh_arith what a b
  else if a.type_ = .MN_FLOAT then .float (onFloat (asFloat a) (asFloat b))
  else .integer (onInt (asInt S a) (asInt S b))

def bits (a b : Mnumber) (f : Int64 → Int64 → Int64) : Mnumber :=
  .integer (f (asInt S a) (asInt S b))

def shiftCount (b : Mnumber) : Int64 := asInt S b &&& (if S.pdksh_family then 31 else 63)

def compare (a b : Mnumber) (onInt : Int64 → Int64 → Bool) (onFloat : Float → Float → Bool)
    (onKsh : Option Ordering → Bool) : Mnumber :=
  if a.type_ = .MN_FLOAT ∧ S.ksh93_mode then ofBool (onKsh (S.ksh_float_cmp a b))
  else if a.type_ = .MN_FLOAT then ofBool (onFloat (asFloat a) (asFloat b))
  else ofBool (onInt (asInt S a) (asInt S b))

/-- Why an operator has no result. -/
inductive Failure
  | error (msg : String)
  | dies (how : Death)

def ksh93_int_divide_traps (a b : Int64) : Bool :=
  S.x86 && S.ksh93_mode && a = Int64.minValue && b = -1

/-- The integers of `/` and `%`. A divisor of 0 panics; `notzero` lets a float pass that truncates to it. -/
def intDivide (a b : Mnumber) (onMinusOne : Int64 → Int64) (onInt : Int64 → Int64 → Int64) :
    Except Failure Mnumber :=
  let ai := asInt S a
  let bi := asInt S b
  if !notzero b then .error (.error "division by zero")
  else if ksh93_int_divide_traps S ai bi then .error (.dies .die_of_sigfpe)
  else if bi = -1 then .ok (.integer (onMinusOne ai))
  else if bi = 0 then .error (.dies .panic)
  else .ok (.integer (onInt ai bi))

def divide (what : Token) (a b : Mnumber) : Except Failure Mnumber :=
  if a.type_ = .MN_FLOAT then
    .ok (if S.ksh93_mode then S.ksh_arith what a b else .float (asFloat a / asFloat b))
  else intDivide S a b (fun ai => -ai) (· / ·)

def modulo (a b : Mnumber) : Except Failure Mnumber :=
  if a.type_ = .MN_FLOAT ∧ !S.ksh93_mode then .ok (.float (S.fmod (asFloat a) (asFloat b)))
  else intDivide S a b (fun _ => 0) (· % ·)

def trunc (x : Float) : Float := if x < 0.0 then x.ceil else x.floor

def floatPower (a b : Mnumber) : Except Failure Mnumber :=
  if asFloat b ≤ 0.0 ∧ !notzero a then .error (.error "division by zero")
  else if asFloat a < 0.0 ∧ asFloat b != trunc (asFloat b) then
    .error (.error "bad math expression: imaginary power")
  else .ok (.float (Float.pow (asFloat a) (asFloat b)))

def power (a b : Mnumber) : Except Failure Mnumber :=
  if a.type_ = .MN_FLOAT then floatPower a b
  else if b.l < 0 ∧ (S.bash_mode ∨ S.sh_mode) then .error (.error "exponent less than 0")
  else if b.l < 0 then floatPower (.float a.l.toFloat) (.float b.l.toFloat)
  else if S.ksh93_mode then .ok (S.ksh_arith .POWER a b)
  else
    -- the loop has no more rounds than the exponent has bits
    match int_pow 64 a.l b.l with
    | some l => .ok (.integer l)
    | none => .error (.dies .panic)

/-- On two integers the loop of `**` gives the wrapped product. -/
theorem power_integer {a b : Mnumber} (ha : a.type_ ≠ .MN_FLOAT) (hb : 0 ≤ b.l) (hksh : S.ksh93_mode = false) :
    power S a b = .ok (.integer (repeated a.l b.l.toNatClampNeg)) := by
  have hneg : ¬ b.l < 0 := fun h => absurd (Int64.lt_of_lt_of_le h hb) (Int64.lt_irrefl)
  unfold power
  rw [if_neg ha, if_neg fun h => hneg h.1, if_neg hneg, hksh, int_pow_spec]
  rfl

/-- What `op` computes from two operands. -/
def binary (what : Token) (a b : Mnumber) : Except Failure Mnumber :=
  match what with
  | .AND | .ANDEQ => .ok (bits S a b (· &&& ·))
  | .XOR | .XOREQ => .ok (bits S a b (· ^^^ ·))
  | .OR | .OREQ => .ok (bits S a b (· ||| ·))
  | .MUL | .MULEQ => .ok (arith S what a b (· * ·) (· * ·))
  | .DIV | .DIVEQ => divide S what a b
  | .MOD | .MODEQ => modulo S a b
  | .PLUS | .PLUSEQ => .ok (arith S what a b (· + ·) (· + ·))
  | .MINUS | .MINUSEQ => .ok (arith S what a b (· - ·) (· - ·))
  | .SHLEFT | .SHLEFTEQ => .ok (.integer (asInt S a <<< shiftCount S b))
  | .SHRIGHT | .SHRIGHTEQ => .ok (.integer (asInt S a >>> shiftCount S b))
  | .LES => .ok (compare S a b (· < ·) (· < ·) (· == some .lt))
  | .LEQ => .ok (compare S a b (· ≤ ·) (· ≤ ·) (fun o => o == some .lt || o == some .eq))
  | .GRE => .ok (compare S a b (· > ·) (· > ·) (· == some .gt))
  | .GEQ => .ok (compare S a b (· ≥ ·) (· ≥ ·) (fun o => o == some .gt || o == some .eq))
  | .DEQ => .ok (compare S a b (· == ·) (· == ·) (· == some .eq))
  | .NEQ => .ok (compare S a b (· != ·) (· != ·) (· != some .eq))
  | .DAND | .DANDEQ => .ok (ofBool (asInt S a ≠ 0 && asInt S b ≠ 0))
  | .DOR | .DOREQ => .ok (ofBool (asInt S a ≠ 0 || asInt S b ≠ 0))
  | .DXOR | .DXOREQ => .ok (ofBool ((asInt S a ≠ 0) != (asInt S b ≠ 0)))
  | .POWER | .POWEREQ => power S a b
  | .COMMA | .EQ => .ok b
  | _ => .ok (.integer 0)

/-- The operands as the operator wants them: integers, or floats where one is a float. -/
def coerce (what : Token) (a b : Mnumber) : Mnumber × Mnumber :=
  let tp := OP_TYPE what
  if tp.OP_A2IO || tp.OP_E2IO then (.integer (asInt S a), .integer (asInt S b))
  else if (a.type_ = .MN_FLOAT) ≠ (b.type_ = .MN_FLOAT) ∧ what ≠ .COMMA ∧
      (a.type_ ≠ .MN_UNSET ∨ what ≠ .EQ) then
    (.float (asFloat a), .float (asFloat b))
  else (a, b)

/-- One more or one less. -/
def stepBy (val : Mnumber) (by_ : Int64) : Mnumber :=
  if val.type_ = .MN_FLOAT then .float (val.d + by_.toFloat)
  else .integer (if S.pdksh_family then wrap32 (val.l + by_) else val.l + by_)

def negate (val : Mnumber) : Mnumber :=
  if val.type_ = .MN_FLOAT then
    (if S.ksh93_mode then S.ksh_float_neg val else .float (-val.d))
  else .integer (if S.pdksh_family then wrap32 (-wrap32 val.l) else -val.l)

end Arithmetic

namespace St

def getmathparam (st : St) (name : Text) : St × Mnumber := st.answer (S.getmathparam room st name)

/-- The value of an operand, read from its parameter if it is still to be read. -/
def get_value (st : St) (mv : Mathvalue) : St × Mnumber :=
  match mv.lval with
  | some name => if mv.val.type_ = .MN_UNSET then st.getmathparam S room name else (st, mv.val)
  | none => (st, mv.val)

/-- An operand's value where an unread operand without a name is 0. -/
def value_of (st : St) (mv : Mathvalue) : St × Mnumber :=
  if mv.val.type_ = .MN_UNSET ∧ mv.lval = none then (st, .integer 0) else st.get_value S room mv

def pop (st : St) : St × Mnumber :=
  match st.stack with
  | mv :: stack => ({ st with stack := stack }).get_value S room mv
  | [] => (st.m_error_set "stack underflow", .integer 0)

def pop_with_lval (st : St) : St × Mathvalue :=
  match st.stack with
  | mv :: stack => ({ st with stack := stack }, mv)
  | [] => (st, ⟨.integer 0, none⟩)

/-- A store, through the cache and the parameter table. -/
def store (st : St) (name : Text) (val : Mnumber) : St :=
  { st with
    m_variables := fun n => if n = name then some val else st.m_variables n
    hist := st.hist ++ [.assign name val] }

/-- The name that a subscripted store goes to: the subscript of an array is evaluated. -/
def canonical (st : St) (name base body : Text) : St × Text :=
  if S.is_hashed st.hist base ∨ body.head? = some '(' ∨ body.head? = some Inpar then (st, name)
  else
    match evalNested me st body with
    | (st, .ok n) => (st, elementOf base (asInt S n))
    | (st, .error _) => (st, elementOf base 0)

/-- `setnparam`, and its value in the type of the parameter. -/
def storePlain (st : St) (name : Text) (val : Mnumber) : St × Mnumber :=
  let st' := st.store name val
  match S.setnparam st.hist name val with
  | some .MN_INTEGER => (st', .integer (asInt S val))
  | some .MN_FLOAT => (st', .float (if val.type_ = .MN_INTEGER then val.l.toFloat else val.d))
  | _ => (st', val)

def setmathvar (st : St) (name : Text) (val : Mnumber) (pval : Bool) : St × Mnumber :=
  if name = [] then (st, .integer 0)
  else if st.noeval ≠ 0 then (st, val)
  else
    match subscript? name with
    | some (base, body) =>
      let (st, name) := st.canonical S me name base body
      (st.store name val, val)
    | none =>
      if pval ∧ S.is_set st.hist name then (st.store name val, val) else st.storePlain S name val

/-- The lvalue of an assignment, with the subscript of an array evaluated once. -/
def resolve_lval (st : St) (name : Text) : St × Text :=
  match subscript? name with
  | none => (st, name)
  | some (base, body) =>
    if body.head? = some '(' ∨ S.is_hashed st.hist base then (st, name)
    else
      let (st', idx) := evalNested me st body
      let st' := { st' with subs := st.subs ++ [body] }
      match idx with
      | .ok n => (st', elementOf base (asInt S n))
      | .error _ => (st', name)

/-- The operand of an assignment, its lvalue resolved. -/
def resolve (st : St) (mv : Mathvalue) : St × Mathvalue :=
  match mv.lval with
  | none => (st, mv)
  | some name =>
    let (st, name) := st.resolve_lval S me name
    (st, { mv with lval := some name })

/-- The operators that write to their operand: the assignments, `++` and `--`. -/
def writes (what : Token) : Bool :=
  (OP_TYPE what).assigns || what ∈ [Token.POSTPLUS, .POSTMINUS, .PREPLUS, .PREMINUS]

def target (st : St) (what : Token) (mv : Mathvalue) : St × Mathvalue :=
  if writes what then st.resolve S me mv else (st, mv)

def operandMissing : String := "bad math expression: operand expected at end of string"
def lvalueRequired : String := "bad math expression: lvalue required"

/-- The end of a binary operator: its result is pushed, and assigned where it is an assignment. -/
def finish (st : St) (what : Token) (lval : Option Text) (result : Mnumber) : St :=
  let result := if S.pdksh_family ∧ result.type_ = .MN_INTEGER then
      { result with l := wrap32 result.l } else result
  if (OP_TYPE what).assigns then
    match lval with
    | some name =>
      let (st, final_val) := st.setmathvar S me name result (what ≠ .EQ)
      st.push final_val (some name)
    | none => (st.m_error_set lvalueRequired).push (.integer 0) none
  else st.push result none

/-- The end of an operator without a result. -/
def fail (st : St) : Failure → St
  | .error msg => st.m_error_set msg
  | .dies how => { st.m_error_set "killed" with hist := st.hist ++ [.die how] }

/-- A binary operator on its operands. A plain assignment does not read what it assigns to. -/
def applyBinary (st : St) (what : Token) (mv_a : Mathvalue) (b : Mnumber) : St :=
  let (st, a) := if what = .EQ then (st, mv_a.val) else st.value_of S room mv_a
  let (a, b) := if S.ksh93_mode then (S.round_int a, S.round_int b) else (a, b)
  let (a, b) := coerce S what a b
  match (if st.noeval > 0 then .ok (.integer 0) else binary S what a b) with
  | .error failure => st.fail failure
  | .ok result => st.finish S me what mv_a.lval result

def opBinary (st : St) (what : Token) : St :=
  if st.stack.length < 2 then st.m_error_set operandMissing
  else
    let (st, b) := st.pop S room
    let (st, mv_a) := st.pop_with_lval
    let (st, mv_a) := st.target S me what mv_a
    st.applyBinary S room me what mv_a b

/-- `++` and `--`: the operand steps, and the old or the new value is pushed. -/
def opStep (st : St) (lval : Option Text) (val : Mnumber) (by_ : Int64) (pre : Bool) : St :=
  match lval with
  | none =>
    if pre ∧ (S.bash_mode ∨ S.sh_mode ∨ S.dash_faithful) then st.push val none
    else st.m_error_set lvalueRequired
  | some name =>
    let new_val := stepBy S val by_
    let (st, _) := st.setmathvar S me name new_val true
    if pre then st.push new_val lval else st.push val none

/-- `?:` on its condition and its two sides. -/
def opQuest (st : St) (false_val : Mnumber) : St :=
  if st.stack.length < 2 then st.m_error_set "?: needs 3 operands"
  else
    let (st, true_val) := st.pop S room
    let (st, cond) := st.pop S room
    st.push (if isZero cond then false_val else true_val) none

/-- A unary operator on its operand. -/
def applyUnary (st : St) (what : Token) (mv : Mathvalue) : St :=
  let (st, val) := st.value_of S room mv
  match what with
  | .NOT => st.push (ofBool (isZero val)) none
  | .COMP => st.push (.integer (~~~asInt S val)) none
  | .UPLUS => st.push val none
  | .UMINUS => st.push (negate S val) none
  | .POSTPLUS => st.opStep S me mv.lval val 1 false
  | .POSTMINUS => st.opStep S me mv.lval val (-1) false
  | .PREPLUS => st.opStep S me mv.lval val 1 true
  | .PREMINUS => st.opStep S me mv.lval val (-1) true
  | .QUEST => st.opQuest S room val
  | .COLON => st.m_error_set "bad math expression: ':' without '?'"
  | _ => st.m_error_set "unknown operator"

def opUnary (st : St) (what : Token) : St :=
  if st.stack = [] then st.m_error_set operandMissing
  else
    let (st, mv) := st.pop_with_lval
    let (st, mv) := st.target S me what mv
    st.applyUnary S room me what mv

def op (st : St) (what : Token) : St :=
  if st.error.isSome then st
  else if (OP_TYPE what).is_binary then st.opBinary S room me what
  else st.opUnary S room me what

/-- The untaken side of a short circuit is parsed with `noeval` raised. -/
def bop (st : St) (tk : Token) : St :=
  match st.stack with
  | [] => st
  | mv :: _ =>
    let (st, val) := st.value_of S room mv
    let tst := asInt S val ≠ 0
    match tk with
    | .DAND | .DANDEQ => if tst then st else { st with noeval := st.noeval + 1 }
    | .DOR | .DOREQ => if tst then { st with noeval := st.noeval + 1 } else st
    | _ => st

/-- An operand from the lexer; nothing is read or called while `noeval` is raised. -/
def pushId (st : St) : St :=
  st.push (if st.noeval > 0 then .integer 0 else .unset) (some st.yylval)

def pushCid (st : St) : St :=
  let lval := st.yylval
  let (st, val) := if st.noeval > 0 then (st, .integer 0) else st.answer (S.getcvar room st lval)
  st.push val (some lval)

def pushFunc (st : St) : St :=
  let (st, val) := if st.noeval > 0 then (st, .integer 0)
    else
      let called : St := { st with hist := st.hist ++ [.call st.yylval] }
      called.answer (S.callmathfunc room st st.yylval)
  st.push val none

/-- The head of `mathparse`, in front of its loop. -/
def enter (loop : Nat → St → St) (pc : Nat) (st : St) : St :=
  if st.error.isSome then st
  else
    let st := st.lexToken S
    if pc = st.prec.top_prec ∧ st.mtok = .EOI then st else loop pc st.checkunary

/-- What stands between parentheses. -/
def paren (loop : Nat → St → St) (st : St) : St :=
  let st := enter S loop st.prec.top_prec st
  if st.mtok ≠ .M_OUTPAR then st.m_error_set "bad math expression: ')' expected" else st.nextToken S

/-- The middle operand of a ternary. -/
def questMiddle (loop : Nat → St → St) (st : St) : St :=
  if S.bash_mode ∨ S.posix_faithful then
    let saved := st.prec
    let middle := if st.c_precedences then .C_PREC_TERNARY_MIDDLE else .Z_PREC_TERNARY_MIDDLE
    let st := enter S loop (middle.at .EQ) { st with prec := middle }
    { st with prec := saved }
  else enter S loop (st.prec.at .COLON - 1) st

/-- The last operand of a ternary. -/
def questElse (loop : Nat → St → St) (st : St) : St :=
  enter S loop (st.prec.at (if S.korn_mode then .EQ else .QUEST)) st

def raise (st : St) (b : Bool) : St := if b then { st with noeval := st.noeval + 1 } else st
def lower (st : St) (b : Bool) : St := if b then { st with noeval := st.noeval - 1 } else st

/-- A ternary, whose condition is on the stack. -/
def quest (loop : Nat → St → St) (st : St) : St :=
  match st.stack with
  | [] => st.m_error_set "bad math expression"
  | mv :: _ =>
    let (st, cond) := st.get_value S room mv
    let q := !isZero cond
    let stack_before := st.stack.length
    let st := (questMiddle S loop (st.raise !q)).lower !q
    if st.mtok ≠ .COLON then
      st.m_error_set (if st.stack.length > stack_before then "bad math expression: ':' expected"
        else operandMissing)
    else ((questElse S loop (st.raise q)).lower q).op S room me .QUEST

/-- An operator: its right operand is parsed, then the operator is applied. -/
def operator (loop : Nat → St → St) (st : St) (otok : Token) : St :=
  let onoeval := st.noeval
  let tp := OP_TYPE otok
  if st.stack = [] ∧ tp.is_binary then
    let remaining := String.ofList (st.input.drop st.tok_start)
    st.m_error_set ("bad math expression: operand expected at " ++ String.ofList ['\x60'] ++
      remaining ++ "'")
  else
    let st := if tp.assoc = .BOOL then st.bop S room otok else st
    let st := enter S loop (st.prec.rightOf otok) st
    ({ st with noeval := onoeval }).op S room me otok

/-- One round of the loop of `mathparse`. A round that the source leaves with `return` has set an
error, on which the next round stops. -/
def round (loop : Nat → St → St) (st : St) : St :=
  match st.mtok with
  | .NUM => (st.push st.yyval none).nextToken S
  | .ID => st.pushId.nextToken S
  | .CID => (st.pushCid S room).nextToken S
  | .FUNC => (st.pushFunc S room).nextToken S
  | .M_INPAR => paren S loop st
  | .QUEST => quest S room me loop st
  | otok => operator S room me loop st otok

/-- The loop of `mathparse`. -/
def parseLoop : Nat → Nat → St → St
  | 0, _, st => st.m_error_set "out of fuel"
  | fuel + 1, pc, st =>
    if pc < st.prec.at st.mtok then st
    else if st.error.isSome then st
    else parseLoop fuel pc (round S room me (parseLoop fuel) st)

def mathparse (fuel pc : Nat) (st : St) : St := enter S (parseLoop S room me fuel) pc st

/-- The options are read at the start of every evaluation. -/
def syncOptions (st : St) : St :=
  { st with
    c_precedences := S.cprecedences st.hist
    force_float := S.forcefloat st.hist
    octal_zeroes := S.octalzeroes st.hist
    prec := if S.cprecedences st.hist then .C_PREC else .Z_PREC }

def skipBlanks (st : St) : St :=
  { st with toLex := st.toLex.skipWhile fun c => is_whitespace c || c = Nularg }

/-- What stands behind the expression: nothing but blanks, unless an argument was read. -/
def trailing (prec_tp : PrecType) (st : St) : St × Option String :=
  if prec_tp = .MPREC_TOP then
    let st := { st with toLex := st.toLex.skipWhile is_whitespace }
    match st.peek with
    | none => (st, none)
    | some ')' => (st, some "bad math expression: unexpected ')'")
    | some c => (st, some ("bad math expression: " ++
        (if S.emulating_592 then "illegal" else "invalid") ++ " character: " ++ String.singleton c))
  else (st, none)

/-- The result is what is on the stack at the end. -/
def result (st : St) : St × Except String Mnumber :=
  match st.stack with
  | [] => (st, .ok (.integer 0))
  | mv :: stack =>
    let (st, val) := ({ st with stack := stack }).value_of S room mv
    match st.error with
    | some err => ({ st with error := none }, .error err)
    | none => (st, .ok val)

/-- The end of `mathevall`, behind the parse. -/
def outcome (prec_tp : PrecType) (st : St) : St × Except String Mnumber :=
  match st.error with
  | some err => ({ st with error := none }, .error err)
  | none =>
    if st.mtok = .M_OUTPAR then (st, .error "bad math expression: unexpected ')'")
    else
      match trailing S prec_tp st with
      | (st, some err) => (st, .error err)
      | (st, none) => st.result S room

def stripNularg (s : Text) : Text := if s.head? = some Nularg then s.tail else s

/-- The cache of the evaluation around is put away and brought back. -/
def matheval (eval : PrecType → St → St × Except String Mnumber) (top : Bool) : Matheval :=
  fun st s =>
    let xmtok := st.mtok
    let s := stripNularg s
    if S.dash_faithful ∧ s.all is_whitespace then
      (st, .error "bad math expression: expression expected")
    else if s = [] then (st, .ok (.integer 0))
    else
      match (if top ∧ !S.forcefloat st.hist ∧ !S.korn_mode then S.shortcut st.hist s else none) with
      | some (effects, l) =>
        ({ st with lastbase := -1, error := none, hist := st.hist ++ effects }, .ok (.integer l))
      | none =>
        let xvariables := st.m_variables
        let xstring_variables := st.m_string_variables
        let (st, r) := eval .MPREC_TOP (st.new s)
        let r := if S.ksh93_mode then r.map S.round_int else r
        ({ st with m_variables := xvariables, m_string_variables := xstring_variables, mtok := xmtok },
          r)

end St

/-- `mathevall` where an evaluation has been entered, over its nested evaluations. -/
def evalWith (S : Shell) (room : Nat) (me : Matheval) (prec_tp : PrecType) (st : St) :
    St × Except String Mnumber :=
  let st := (st.syncOptions S).skipBlanks
  if prec_tp = .MPREC_TOP ∧ st.input.length ≤ st.pos then (st, .ok (.integer 0))
  else
    let pc := if prec_tp = .MPREC_TOP then st.prec.top_prec else st.prec.at .COMMA - 1
    (st.mathparse S room me (st.input.length + 1) pc).outcome S room prec_tp

/-- `mathevall`, with room for so many evaluations below `MAX_MLEVEL`. -/
def mathevall (S : Shell) : Nat → PrecType → St → St × Except String Mnumber
  | 0, _, st =>
    let st := st.syncOptions S
    (st, .error ("math recursion limit exceeded: " ++ String.ofList (trim st.input)))
  | room + 1, prec_tp, st =>
    evalWith S room (St.matheval S (mathevall S room) (room = MAX_MLEVEL)) prec_tp st

def matheval (S : Shell) (room : Nat) : Matheval :=
  St.matheval S (mathevall S room) (room = MAX_MLEVEL)

/-- The frame of `mathevali_noeval` around its evaluation. -/
def noevalWith (S : Shell) (eval : St → St × Except String Mnumber) (st : St) (s : Text) :
    St × Except String Int64 :=
  let xmtok := st.mtok
  let s_skip := St.stripNularg s
  if s_skip = [] then (st, .ok 0)
  else
    let xvariables := st.m_variables
    let xstring_variables := st.m_string_variables
    let (st, result) := eval { st.new s_skip with noeval := 1 }
    ({ st with
      noeval := 0, m_variables := xvariables, m_string_variables := xstring_variables, mtok := xmtok },
      result.map (asInt S))

def mathevali_noeval (S : Shell) (room : Nat) (st : St) (s : Text) : St × Except String Int64 :=
  noevalWith S (mathevall S room .MPREC_TOP) st s

end Zshrs.Math
