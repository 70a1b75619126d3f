import Zshrs.Math.State
import Mathlib.Algebra.Group.Nat.Defs

namespace Zshrs.Math

def is_digit (c : Char) : Bool := c.isDigit
def is_ident_start (c : Char) : Bool := c.isAlpha || c = '_'
def is_ident (c : Char) : Bool := c.isAlphanum || c = '_'

namespace Lex

def rest (lx : Lex) : Text := lx.input.drop lx.pos
def peek (lx : Lex) : Option Char := lx.input[lx.pos]?
def advance (lx : Lex) : Lex := if lx.peek.isSome then { lx with pos := lx.pos + 1 } else lx
def skip (lx : Lex) (n : Nat) : Lex := { lx with pos := lx.pos + n }
def slice (lx : Lex) (start : Nat) : Text := (lx.input.take lx.pos).drop start
def fail (lx : Lex) (msg : String) : Lex := { lx with error := some (lx.error.getD msg) }

def skipWhile (p : Char → Bool) (lx : Lex) : Lex := lx.skip (lx.rest.takeWhile p).length

/-- The token of the next character, if it is `c`; what else the one before it makes otherwise. -/
def follow (lx : Lex) (c : Char) (tok : Token) (other : Token × Lex) : Token × Lex :=
  if lx.peek = some c then (tok, lx.advance) else other

/-- An operator with its assignment form. -/
def orEq (lx : Lex) (tok eq : Token) : Token × Lex := lx.follow '=' eq (tok, lx)

/-- A doubled operator, with the assignment forms of both. -/
def doubled (lx : Lex) (c : Char) (tok eq dtok deq : Token) : Token × Lex :=
  if lx.peek = some c then lx.advance.orEq dtok deq else lx.orEq tok eq

def num (lx : Lex) (n : Int64) : Token × Lex := (.NUM, { lx with yyval := .integer n })

end Lex

/-- How many characters there are up to the bracket that closes the `depth` open ones. -/
def bracketLength (opening closing : Char) : Nat → Text → Nat
  | _, [] => 0
  | depth, c :: cs =>
    if c = opening then bracketLength opening closing (depth + 1) cs + 1
    else if c = closing then
      (if depth ≤ 1 then 1 else bracketLength opening closing (depth - 1) cs + 1)
    else bracketLength opening closing depth cs + 1

/-- The same for the subscript of `#name[…]`, where a backslash takes the next character. -/
def subscriptLength : Nat → Text → Nat
  | _, [] => 0
  | depth, '\\' :: _ :: cs => subscriptLength depth cs + 2
  | depth, c :: cs =>
    if c = '[' then subscriptLength (depth + 1) cs + 1
    else if c = ']' then (if depth ≤ 1 then 1 else subscriptLength (depth - 1) cs + 1)
    else subscriptLength depth cs + 1

def decimal (digits : Text) : Nat := digits.foldl (fun n c => 10 * n + (c.toNat - 48)) 0

/-- The number that the digits spell, and 10 where it does not fit. -/
def parseOr10 (bound : Nat) (digits : Text) : Nat :=
  if decimal digits < bound then decimal digits else 10

variable (S : Shell) (h : History)

/-- `[base]value`, with the cursor at the base. -/
def lexBase (lx : Lex) : Token × Lex :=
  let base_start := lx.pos
  let lx := lx.skipWhile is_digit
  if lx.peek ≠ some ']' then (.EOI, lx.fail "bad base syntax")
  else
    let base := parseOr10 (2 ^ 32) (lx.slice base_start)
    let lx := lx.advance
    if !lx.peek.any (fun c => is_digit c || is_ident_start c) then (.EOI, lx.fail "bad base syntax")
    else if base < 2 ∨ 36 < base then
      (lx.fail s!"invalid base (must be 2 to 36 inclusive): {base}").num 0
    else
      let val_start := lx.pos
      let lx := lx.skipWhile Char.isAlphanum
      { lx with lastbase := base }.num (S.zstrtol (lx.slice val_start) base)

/-- The `_M` of an output format. -/
def Lex.skipUnderscore (lx : Lex) : Lex :=
  if lx.peek = some '_' then lx.advance.skipWhile is_digit else lx

/-- The radix of an output format, and whether it is good. -/
def lexRadix (minus : Bool) (lx : Lex) : Bool × Lex :=
  if !lx.peek.any (fun c => is_digit c || c = '_') then
    (false, lx.fail "bad output format specification")
  else
    let rstart := lx.pos
    let lx := lx.skipWhile is_digit
    let radix := parseOr10 (2 ^ 31) (lx.slice rstart)
    let checkradix := rstart < lx.pos
    let lx := lx.skipUnderscore
    if lx.peek ≠ some ']' then (false, lx.fail "bad output format specification")
    else
      let lx := lx.advance
      if checkradix ∧ (radix < 2 ∨ 36 < radix) then
        let sign := if minus ∧ radix ≠ 0 then "-" else ""
        (false, lx.fail ("invalid base (must be 2 to 36 inclusive): " ++ sign ++ toString radix))
      else (true, lx)

/-- `[#base]`, with the cursor after the `#`. -/
def lexFormat (lx : Lex) : Bool × Lex :=
  if lx.peek = some '#' then lexRadix true lx.advance else lexRadix false lx

/-- A subscript behind a name, whose length `len` counts. -/
def Lex.skipSubscript (lx : Lex) (len : Nat → Text → Nat) : Lex :=
  if lx.peek = some '[' then lx.advance.skip (len 1 lx.advance.rest) else lx

/-- What a `#` begins: a character's code, a parameter's first character or `$#`. -/
def lexHash (lx : Lex) : Token × Lex :=
  if lx.peek = some '\\' ∨ lx.peek = some '#' then
    let lx := lx.advance
    match lx.peek with
    | none => (.EOI, lx)
    | some ch =>
      match S.decode_math_keychar lx.rest with
      | some (code, consumed) => (lx.skip consumed).num code
      | none => lx.advance.num (Int64.ofNat ch.toNat)
  else
    let id_start := lx.pos
    let lx := lx.skipWhile is_ident
    if id_start < lx.pos then
      let lx := lx.skipSubscript subscriptLength
      (.CID, { lx with yylval := lx.slice id_start })
    else lx.num (S.poundgetfn h)

/-- A name of `n` characters at the cursor: a constant, a function call or a parameter. -/
def lexName (lx : Lex) (n : Nat) : Token × Lex :=
  let id_start := lx.pos
  let lx := lx.skip n
  let id_lower := (lx.slice id_start).map Char.toLower
  if !S.emulate_sh ∧ id_lower = ['n', 'a', 'n'] then (.NUM, { lx with yyval := .float (0.0 / 0.0) })
  else if !S.emulate_sh ∧ id_lower = ['i', 'n', 'f'] then (.NUM, { lx with yyval := .float (1.0 / 0.0) })
  else if lx.peek = some '(' then
    let lx := lx.advance
    let lx := lx.skip (bracketLength '(' ')' 1 lx.rest)
    (.FUNC, { lx with yylval := lx.slice id_start })
  else
    let lx := lx.skipSubscript (bracketLength '[' ']')
    (.ID, { lx with yylval := lx.slice id_start })

def lexconstant (lx : Lex) : Token × Lex :=
  let c := S.lexconstant lx
  (c.tok, { lx with
    yyval := c.yyval, input := c.input, pos := c.pos, lastbase := c.lastbase
    error := lx.error.or c.error })

/-- The token that starts with `c`, with the cursor `start` before `c`. -/
def lexOther (start lx : Lex) (c : Char) : Token × Lex :=
  if is_digit c ∨ (c = '.' ∧ lx.peek.any is_digit) then lexconstant S start
  else if S.itype_end start.rest ≠ 0 then lexName S start (S.itype_end start.rest)
  else if c = '\'' ∧ S.korn_mode then
    match lx.peek with
    | some ch =>
      if lx.advance.peek = some '\'' then lx.advance.advance.num (Int64.ofNat ch.toNat)
      else (.EOI, start)
    | none => (.EOI, start)
  else (.EOI, start)

/-- A sign, with its doubled form before or behind an operand. -/
def lexSign (lx : Lex) (c : Char) (pre post eq unary binary : Token) : Token × Lex :=
  if lx.peek = some c ∧ !S.dash_strict then (if lx.unary then pre else post, lx.advance)
  else lx.orEq (if lx.unary then unary else binary) eq

/-- The minus of a constant belongs to the constant. -/
def lexMinus (start lx : Lex) : Token × Lex :=
  if (lx.peek ≠ some '-' ∨ S.dash_strict) ∧ lx.peek ≠ some '=' ∧ lx.unary ∧
      (lx.peek.any is_digit ∨ (lx.peek = some '.' ∧ lx.advance.peek.any is_digit)) then
    let (tok, lx) := lexconstant S start
    (tok, if S.pdksh_family ∧ lx.yyval.type_ = .MN_INTEGER then
      { lx with yyval := { lx.yyval with l := lx.yyval.l.toInt32.toInt64 } } else lx)
  else lexSign S lx '-' .PREMINUS .POSTMINUS .MINUSEQ .UMINUS .MINUS

def lexComma (lx : Lex) : Token × Lex :=
  if S.dash_strict then (.EOI, lx.fail "bad math expression: ',' operator not supported")
  else (.COMMA, lx)

/-- The loop of `zzlex`: it goes round for a blank and for an output format. -/
def zzlexLoop : Nat → Lex → Token × Lex
  | 0, lx => (.EOI, lx)
  | fuel + 1, start =>
    match start.peek with
    | none => (.EOI, { start with tok_start := start.pos })
    | some c =>
      if c = ' ' ∨ c = '\t' ∨ c = '\n' ∨ c = '\x22' then zzlexLoop fuel start.advance
      else
        let start := { start with tok_start := start.pos }
        let lx := start.advance
        match c with
        | '+' => lexSign S lx '+' .PREPLUS .POSTPLUS .PLUSEQ .UPLUS .PLUS
        | '-' => lexMinus S start lx
        | '(' => (.M_INPAR, lx)
        | ')' => (.M_OUTPAR, lx)
        | '!' => lx.orEq .NOT .NEQ
        | '~' => (.COMP, lx)
        | '&' => lx.doubled '&' .AND .ANDEQ .DAND .DANDEQ
        | '|' => lx.doubled '|' .OR .OREQ .DOR .DOREQ
        | '^' => if S.posix_faithful then lx.orEq .XOR .XOREQ
                 else lx.doubled '^' .XOR .XOREQ .DXOR .DXOREQ
        | '*' => if S.dash_strict || (S.pdksh_family && S.posix_faithful) then lx.orEq .MUL .MULEQ
                 else lx.doubled '*' .MUL .MULEQ .POWER .POWEREQ
        | '/' => lx.orEq .DIV .DIVEQ
        | '%' => lx.orEq .MOD .MODEQ
        | '<' => if lx.peek = some '<' then lx.advance.orEq .SHLEFT .SHLEFTEQ else lx.orEq .LES .LEQ
        | '>' => if lx.peek = some '>' then lx.advance.orEq .SHRIGHT .SHRIGHTEQ else lx.orEq .GRE .GEQ
        | '=' => lx.orEq .EQ .DEQ
        | '$' => lx.num S.mypid
        | '?' => if lx.unary then lx.num (S.lastval h) else (.QUEST, lx)
        | ':' => (.COLON, lx)
        | ',' => lexComma S lx
        | '[' =>
          if lx.peek.any is_digit then lexBase S lx
          else if lx.peek = some '#' then
            let (good, lx) := lexFormat lx.advance
            if good then zzlexLoop fuel lx else (.EOI, lx)
          else (.EOI, lx.fail "bad output format specification")
        | '#' => lexHash S h lx
        | c => lexOther S start lx c

/-- One token at the cursor, and the cursor after it. -/
def zzlex (lx : Lex) : Token × Lex :=
  zzlexLoop S h (lx.input.length + 1) { lx with yyval := .integer 0 }

/-- The text that an error names: ten characters from the start of the bad token. -/
def errorContext (lx : Lex) : Text × Bool :=
  let remaining := (lx.input.drop lx.tok_start).dropWhile fun c => c = ' ' || c = '\t' || c = '\n'
  if remaining.length > 10 then (remaining.take 10, true) else (remaining, false)

def expectedMessage (lx : Lex) (errtype : String) : String :=
  match errorContext lx with
  | ([], _) => s!"bad math expression: {errtype} expected at end of string"
  | (ctx, longer) =>
    "bad math expression: " ++ errtype ++ " expected at " ++ String.ofList ['\x60'] ++
      String.ofList ctx ++ (if longer then "..." else "") ++ "'"

/-- `checkunary`: the token that has been read is of the kind that was wanted. -/
def St.checkunary (st : St) : St :=
  let tp := OP_TYPE st.mtok
  let st :=
    if tp.is_op_token && st.unary then st.m_error_set (expectedMessage st.toLex "operand")
    else if !tp.is_op_token && !st.unary then
      st.m_error_set (expectedMessage st.toLex "operator")
    else st
  { st with unary := !tp.OP_OPF }

/-- `mtok = zzlex()`. -/
def St.lexToken (st : St) : St :=
  let (tok, lx) := zzlex S st.hist st.toLex
  { st with toLex := lx, mtok := tok }

/-- The next token, checked. -/
def St.nextToken (st : St) : St := (st.lexToken S).checkunary

end Zshrs.Math
