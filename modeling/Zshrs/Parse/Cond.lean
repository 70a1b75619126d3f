import Mathlib.Data.List.Basic
import Mathlib.Algebra.Group.Nat.Defs

namespace Zshrs.Parse.Cond

def Dash : Char := '\ue19b'
def Equals : Char := '\ue18d'
def Inang : Char := '\ue194'
def Outang : Char := '\ue195'
def Tilde : Char := '\ue198'
def Bang : Char := '\ue19c'

def IS_DASH (x : Char) : Bool := x = '-' || x = Dash

abbrev Str := List Char

def COND_NOT : Nat := 0
def COND_AND : Nat := 1
def COND_OR : Nat := 2
def COND_STREQ : Nat := 3
def COND_STRDEQ : Nat := 4
def COND_STRNEQ : Nat := 5
def COND_STRLT : Nat := 6
def COND_STRGTR : Nat := 7
def COND_NT : Nat := 8
def COND_OT : Nat := 9
def COND_EF : Nat := 10
def COND_EQ : Nat := 11
def COND_NE : Nat := 12
def COND_LT : Nat := 13
def COND_GT : Nat := 14
def COND_LE : Nat := 15
def COND_GE : Nat := 16
def COND_REGEX : Nat := 17
def COND_MOD : Nat := 18
def COND_MODI : Nat := 19

/-- A word of `ecbuf`. A string word stands for the string that it reads back as. -/
inductive Word
  | cond (type skip : Nat)
  | str (s : Str)
  | npat (n : Nat)
  deriving DecidableEq

/-- The skip has what is left of 32 bits after the opcode and the type. -/
def WCB_COND (t o : Nat) : Word := .cond t (o % 2 ^ 20)

inductive Tok
  | string | bang | inpar | outpar | inang | outang | damper | dbar
  | newlin | nulltok | lexerr | endinput | doutbrack
  | other (n : Nat)
  deriving DecidableEq

structure Token where
  tok : Tok
  tokstr : Option Str
  deriving DecidableEq

/-- What `condlex` reads: the current token and those to come. `newlin` is every token that
`COND_SEP` accepts. -/
structure Lexer where
  testlex : Bool
  token : Token
  rest : List Token
  deriving DecidableEq

namespace Lexer

def tok (x : Lexer) : Tok := x.token.tok

def tokstr (x : Lexer) : Str := x.token.tokstr.getD []

def setTok (x : Lexer) (t : Tok) : Lexer := { x with token := ⟨t, x.token.tokstr⟩ }

def condlex (x : Lexer) : Lexer :=
  if x.tok = .lexerr then x
  else
    match x.rest with
    | t :: rest => { x with token := t, rest }
    | [] =>
        if x.testlex then
          { x with token := ⟨if x.tok ≠ .nulltok then .nulltok else .lexerr, none⟩ }
        else { x with token := ⟨.endinput, none⟩ }

def COND_SEP (x : Lexer) : Bool := !x.testlex && x.tok = .newlin

/-- `while COND_SEP() { condlex() }` -/
def skipSep (x : Lexer) : Lexer :=
  if x.testlex then x
  else
    match (x.token :: x.rest).dropWhile (fun t => t.tok = .newlin) with
    | t :: rest => { x with token := t, rest }
    | [] => { x with token := ⟨.endinput, none⟩, rest := [] }

def nTestargs (x : Lexer) : Nat := if x.testlex then x.rest.length + 1 else 0

/-- `*testargs`. -/
def nextTestarg (x : Lexer) : Option Str := x.rest.head?.bind Token.tokstr

end Lexer

/-- The token `testlex` makes of an argument. -/
def testlexToken (arg : Str) : Token :=
  let tok : Tok :=
    if arg = ['-', 'o'] then .dbar
    else if arg = ['-', 'a'] then .damper
    else if arg = ['!'] then .bang
    else if arg = ['('] then .inpar
    else if arg = [')'] then .outpar
    else .string
  ⟨tok, some arg⟩

/-- The parser: the lexer, `ecbuf` and the pattern counter. -/
structure Parser where
  lexer : Lexer
  ecbuf : List Word
  ecnpats : Nat
  errflag : Bool
  deriving DecidableEq

namespace Parser

def tok (p : Parser) : Tok := p.lexer.tok

def ecadd (p : Parser) (w : Word) : Parser := { p with ecbuf := p.ecbuf ++ [w] }

def ecstr (p : Parser) (s : Str) : Parser := p.ecadd (.str s)

def condlex (p : Parser) : Parser := { p with lexer := p.lexer.condlex }

def skipSep (p : Parser) : Parser := { p with lexer := p.lexer.skipSep }

/-- `ecadd(ecnpats++)` -/
def ecnpat (p : Parser) : Parser := { p.ecadd (.npat p.ecnpats) with ecnpats := p.ecnpats + 1 }

def ecispace (p : Parser) (pos : Nat) : Parser :=
  { p with ecbuf := p.ecbuf.take pos ++ .cond 0 0 :: p.ecbuf.drop pos }

def setAt (p : Parser) (pos : Nat) (w : Word) : Parser := { p with ecbuf := p.ecbuf.set pos w }

def YYERROR (p : Parser) : Parser × Nat := ({ p with lexer := p.lexer.setTok .lexerr }, 0)

def COND_ERROR (p : Parser) : Parser × Nat := { p with errflag := true }.YYERROR

end Parser

def unarySet : List Char := "abcdefgknoprstuvwxzhLONGS".toList

def condstrs : List Str :=
  ["nt", "ot", "ef", "eq", "ne", "lt", "gt", "le", "ge"].map String.toList

def get_cond_num (tst : Str) : Option Nat := condstrs.findIdx? (· = tst)

def check_cond (input cond : Str) : Bool :=
  match input with
  | c :: rest => IS_DASH c && rest = cond
  | [] => false

/-- `IS_DASH(a[0]) && a[1]` -/
def dashed (a : Str) : Bool :=
  match a with
  | c :: _ :: _ => IS_DASH c
  | _ => false

def par_cond_double (p : Parser) (a b : Str) : Parser × Nat :=
  if !dashed a then p.COND_ERROR
  else
    match a with
    | [_, op] =>
        if op ∈ unarySet then (((p.ecadd (WCB_COND op.toNat 0)).ecstr b), 1)
        else ((((p.ecadd (WCB_COND COND_MOD 1)).ecstr a).ecstr b), 1)
    | _ => ((((p.ecadd (WCB_COND COND_MOD 1)).ecstr a).ecstr b), 1)

def isEq (ch : Char) : Bool := ch = '=' || ch = Equals
def isGt (ch : Char) : Bool := ch = Outang
def isLt (ch : Char) : Bool := ch = Inang
def isTilde (ch : Char) : Bool := ch = '~' || ch = Tilde
def isBang (ch : Char) : Bool := ch = '!' || ch = Bang

/-- The four string operators, each with a word for its pattern. -/
def patternOp (b : Str) : Option Nat :=
  match b with
  | [x] => if isEq x then some COND_STREQ else if isGt x || isLt x then some COND_STRGTR else none
  | [x, y] =>
      if isEq x && isEq y then some COND_STRDEQ
      else if isBang x && isEq y then some COND_STRNEQ
      else none
  | _ => none

def regexOp (b : Str) : Bool :=
  match b with
  | [x, y] => isEq x && isTilde y
  | _ => false

def par_cond_triple (p : Parser) (a b c : Str) : Parser × Nat :=
  match patternOp b with
  | some op => ((((p.ecadd (WCB_COND op 0)).ecstr a).ecstr c).ecnpat, 1)
  | none =>
      if regexOp b then (((p.ecadd (WCB_COND COND_REGEX 0)).ecstr a).ecstr c, 1)
      else
        match b with
        | d :: rest =>
            if IS_DASH d then
              match get_cond_num rest with
              | some t => (((p.ecadd (WCB_COND (t + COND_NT) 0)).ecstr a).ecstr c, 1)
              | none => ((((p.ecadd (WCB_COND COND_MODI 0)).ecstr b).ecstr a).ecstr c, 1)
            else if dashed a then ((((p.ecadd (WCB_COND COND_MOD 2)).ecstr a).ecstr b).ecstr c, 1)
            else p.COND_ERROR
        | [] =>
            if dashed a then ((((p.ecadd (WCB_COND COND_MOD 2)).ecstr a).ecstr b).ecstr c, 1)
            else p.COND_ERROR

def par_cond_multi (p : Parser) (a : Str) (l : List Str) : Parser × Nat :=
  if !dashed a then p.COND_ERROR
  else (l.foldl Parser.ecstr ((p.ecadd (WCB_COND COND_MOD l.length)).ecstr a), 1)

/-- The words of a condition without `!`, parentheses, `&&` and `||`. -/
inductive Primary
  | double (a b : Str)
  | triple (a b c : Str)
  | multi (a : Str) (l : List Str)
  | order (lt : Bool) (s1 s3 : Str)
  deriving DecidableEq

def emit (p : Parser) : Primary → Parser × Nat
  | .double a b => par_cond_double p a b
  | .triple a b c => par_cond_triple p a b c
  | .multi a l => par_cond_multi p a l
  | .order lt s1 s3 =>
      (((p.ecadd (WCB_COND (if lt then COND_STRLT else COND_STRGTR) 0)).ecstr s1).ecstr s3, 1)

/-- `while tok() == STRING_LEX`: the operands of an n-ary condition. -/
def strings : Nat → Lexer → List Str × Lexer
  | 0, x => ([], x)
  | n + 1, x =>
      if x.tok = .string then
        let (l, y) := strings n x.condlex.skipSep
        (x.tokstr :: l, y)
      else ([], x)

/-- Whether `s1` is a one-letter test. -/
def dble (s1 : Str) : Bool :=
  match s1 with
  | [d, c] => IS_DASH d && "abcdefghknoprstuvwxzLONGS".toList.contains c
  | _ => false

/-- The operands after `s1` and `s2`. -/
def scanThird (n : Nat) (dble : Bool) (s1 s2 : Str) (x : Lexer) : Primary × Lexer :=
  if x.tok = .string && !dble then
    let s3 := x.tokstr
    let x := x.condlex.skipSep
    if x.tok = .string then
      let (l, x) := strings n x
      (.multi s1 (s2 :: s3 :: l), x)
    else (.triple s1 s2 s3, x)
  else (.double s1 s2, x)

/-- `par_cond_2` from its first operand on. `none` is `YYERROR`. -/
def scanOperands (nTestargs : Nat) (x : Lexer) : Option Primary × Lexer :=
  let s1 := x.tokstr
  let dble1 := dble s1
  if x.tok ≠ .string then
    if s1 ≠ [] ∧ x.tok ≠ .lexerr ∧ (!dble1 ∨ nTestargs ≠ 0) then
      (some (.double "-n".toList s1), x.condlex.skipSep)
    else (none, x)
  else
    let x := x.condlex
    let x :=
      if nTestargs = 2 ∧ x.tok ≠ .string ∧ x.token.tokstr.isSome ∧ s1.head?.any IS_DASH then
        x.setTok .string
      else x.skipSep
    if x.tok = .inang ∨ x.tok = .outang then
      let y := x.condlex.skipSep
      if y.tok ≠ .string then (none, y)
      else
        (some (.order (x.tok = .inang) s1 y.tokstr), y.condlex.skipSep)
    else if x.tok ≠ .string then
      if x.tok ≠ .lexerr then
        if !dble1 ∨ nTestargs ≠ 0 then (some (.double "-n".toList s1), x)
        else (some (.multi s1 []), x)
      else (none, x)
    else
      let s2 := x.tokstr
      let x := x.condlex.skipSep
      let dble2 :=
        if nTestargs = 0 then s2.head?.any IS_DASH && s2.length = 2 else dble1
      let (prim, x) := scanThird (x.rest.length + 1) dble2 s1 s2 x
      (some prim, x)

/-- Whether the second of three arguments is a binary operator, as `test` wants to know. -/
def binaryArg (nx : Str) : Bool :=
  nx = ['='] || nx = ['<'] || nx = ['>'] || nx = ['=', '='] || nx = ['!', '='] ||
    match nx with
    | c :: rest => IS_DASH c && (get_cond_num rest).isSome
    | [] => false

/-- The POSIX rules of `test` by the number of arguments left. -/
def scanTestargs (posixbuiltins : Bool) (x : Lexer) : Option (Primary × Lexer) :=
  if x.tok = .nulltok then some (.double "-n".toList [], x)
  else if x.nTestargs = 1 then
    let s1 := x.tokstr
    if !posixbuiltins && check_cond s1 ['t'] then some (.double s1 ['1'], x.condlex)
    else some (.double "-n".toList s1, x.condlex)
  else if x.nTestargs > 2 ∧ binaryArg (x.nextTestarg.getD []) then
    let y := x.condlex
    let z := y.condlex
    some (.triple x.tokstr y.tokstr z.tokstr, z.condlex)
  else none

/-- The operands that `test` takes by their number, before it looks for `!` and parentheses. -/
def byCount (posixbuiltins : Bool) (x : Lexer) : Option (Primary × Lexer) :=
  if x.nTestargs ≠ 0 then scanTestargs posixbuiltins x else none

/-- Whether `!` negates: not in `! -a ...` and `! -o ...` of `test`. -/
def negates (nTestargs : Nat) (x : Lexer) : Bool :=
  !(nTestargs > 2 && (x.nextTestarg.any (fun t => check_cond t ['a'] || check_cond t ['o'])))

/-- `emit`, or the error of a scan that found no condition. -/
def emitScanned (p : Parser) : Option Primary × Lexer → Parser × Nat
  | (some prim, x) => emit { p with lexer := x } prim
  | (none, x) => { p with lexer := x }.YYERROR

mutual

/-- `par_cond_top`, C's `par_cond`. -/
def par_cond_top (posixbuiltins : Bool) : Nat → Parser → Option (Parser × Nat)
  | 0, _ => none
  | fuel + 1, p => do
      let pos := p.ecbuf.length
      let (p, r) ← par_cond_1 posixbuiltins fuel p
      let p := p.skipSep
      if p.tok = .dbar then
        let p := p.condlex.skipSep
        let (p, _) ← par_cond_top posixbuiltins fuel (p.ecispace pos)
        some (p.setAt pos (WCB_COND COND_OR (p.ecbuf.length - 1 - pos)), 1)
      else some (p, r)

def par_cond_1 (posixbuiltins : Bool) : Nat → Parser → Option (Parser × Nat)
  | 0, _ => none
  | fuel + 1, p => do
      let pos := p.ecbuf.length
      let (p, r) ← par_cond_2 posixbuiltins fuel p
      let p := p.skipSep
      if p.tok = .damper then
        let p := p.condlex.skipSep
        let (p, _) ← par_cond_1 posixbuiltins fuel (p.ecispace pos)
        some (p.setAt pos (WCB_COND COND_AND (p.ecbuf.length - 1 - pos)), 1)
      else some (p, r)

def par_cond_2 (posixbuiltins : Bool) : Nat → Parser → Option (Parser × Nat)
  | 0, _ => none
  | fuel + 1, p => do
      let nTestargs := p.lexer.nTestargs
      match byCount posixbuiltins p.lexer with
      | some (prim, x) => some (emit { p with lexer := x } prim)
      | none =>
          let p := if nTestargs ≠ 0 then p else p.skipSep
          if p.tok = .bang ∧ negates nTestargs p.lexer then
            par_cond_2 posixbuiltins fuel (p.condlex.ecadd (WCB_COND COND_NOT 0))
          else if p.tok = .inpar then
            let (p, r) ← par_cond_top posixbuiltins fuel p.condlex.skipSep
            let p := p.skipSep
            if p.tok ≠ .outpar then some p.YYERROR
            else some (p.condlex, r)
          else some (emitScanned p (scanOperands nTestargs p.lexer))

end

end Zshrs.Parse.Cond
