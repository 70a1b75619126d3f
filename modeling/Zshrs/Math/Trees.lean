import Zshrs.Math.Eval

namespace Zshrs.Math.Tree

/-- An arithmetic expression as the parser's tables group it. -/
inductive Expr
  | num (val : Mnumber)
  | var (name : Text)
  | before (what : Token) (e : Expr)
  | behind (what : Token) (e : Expr)
  | binary (what : Token) (l r : Expr)
  | ternary (c yes no : Expr)
  | paren (e : Expr)

inductive Lexeme
  | num (val : Mnumber)
  | var (name : Text)
  | op (what : Token)

def Lexeme.tok : Lexeme → Token
  | .num _ => .NUM
  | .var _ => .ID
  | .op what => what

/-- What the lexer leaves for the parser beside the token. -/
def Lexeme.Seen : Lexeme → Lex → Prop
  | .num val, lx => lx.yyval = val
  | .var name, lx => lx.yylval = name
  | .op _, _ => True

def Expr.lexemes : Expr → List Lexeme
  | .num val => [.num val]
  | .var name => [.var name]
  | .before what e => .op what :: e.lexemes
  | .behind what e => e.lexemes ++ [.op what]
  | .binary what l r => l.lexemes ++ .op what :: r.lexemes
  | .ternary c yes no => c.lexemes ++ .op .QUEST :: (yes.lexemes ++ .op .COLON :: no.lexemes)
  | .paren e => .op .M_INPAR :: (e.lexemes ++ [.op .M_OUTPAR])

/-- The parameters that the tree names. -/
def Expr.names : Expr → List Text
  | .num _ => []
  | .var name => [name]
  | .paren e | .before _ e | .behind _ e => e.names
  | .binary _ l r => l.names ++ r.names
  | .ternary c yes no => c.names ++ (yes.names ++ no.names)

section Meaning

variable (S : Shell) (lookup : History → Text → Mnumber)

/-- What these effects have assigned to a parameter last. -/
def assigned (h : History) (name : Text) : Option Mnumber :=
  h.foldl (fun last effect => match effect with
    | .assign other val => if name = other then some val else last
    | _ => last) none

/-- FORCEFLOAT. -/
def forced (force_float : Bool) (val : Mnumber) : Mnumber :=
  if force_float ∧ val.type_ = .MN_INTEGER then .float val.l.toFloat else val

/-- What an evaluation that has begun behind `begun` reads: what it has assigned itself, or the number in the
table. -/
def reading (table : History → Text → Mnumber) (begun h : History) (name : Text) : Mnumber :=
  forced (S.forcefloat begun) ((assigned (h.drop begun.length) name).getD (table h name))

/-- An operand's value behind the effects so far. -/
def get (h : History) (mv : Mathvalue) : Mnumber :=
  match mv.lval with
  | some name => if mv.val.type_ = .MN_UNSET then lookup h name else mv.val
  | none => mv.val

def valueOf (h : History) (mv : Mathvalue) : Mnumber :=
  if mv.val.type_ = .MN_UNSET ∧ mv.lval = none then .integer 0 else get lookup h mv

/-- The effects so far, and an operand or the first error. -/
abbrev Run := History × Except String Mathvalue

/-- A value in the type of the parameter that it goes to. -/
def kept (h : History) (name : Text) (val : Mnumber) : Mnumber :=
  match S.setnparam h name val with
  | some .MN_INTEGER => .integer (asInt S val)
  | some .MN_FLOAT => .float (if val.type_ = .MN_INTEGER then val.l.toFloat else val.d)
  | _ => val

def assign (muted : Bool) (h : History) (name : Text) (val : Mnumber) (pval : Bool) :
    History × Mnumber :=
  if name = [] then (h, .integer 0)
  else if muted then (h, val)
  else (h ++ [.assign name val], if pval ∧ S.is_set h name then val else kept S h name val)

def finish (muted : Bool) (h : History) (what : Token) (lval : Option Text) (result : Mnumber) : Run :=
  let result := if S.pdksh_family ∧ result.type_ = .MN_INTEGER then
      { result with l := wrap32 result.l } else result
  if (OP_TYPE what).assigns then
    match lval with
    | some name =>
      let stored := assign S muted h name result (what ≠ .EQ)
      (stored.1, .ok ⟨stored.2, some name⟩)
    | none => (h, .error St.lvalueRequired)
  else (h, .ok ⟨result, none⟩)

/-- What an operator computes from the operands as it wants them. A muted one computes nothing. -/
def combine (muted : Bool) (what : Token) (a b : Mnumber) : Except Failure Mnumber :=
  let rounded := if S.ksh93_mode then (S.round_int a, S.round_int b) else (a, b)
  let operands := coerce S what rounded.1 rounded.2
  if muted then .ok (.integer 0) else Math.binary S what operands.1 operands.2

/-- The end of an operator without a result. -/
def fail (h : History) : Failure → Run
  | .error msg => (h, .error msg)
  | .dies how => (h ++ [.die how], .error "killed")

/-- Both operands are read behind both sides, and the target of `=` is not read. -/
def applyBinary (muted : Bool) (h : History) (what : Token) (mv_a mv_b : Mathvalue) : Run :=
  let a := if what = .EQ then mv_a.val else valueOf lookup h mv_a
  match combine S muted what a (get lookup h mv_b) with
  | .error failure => fail h failure
  | .ok result => finish S muted h what mv_a.lval result

def opStep (muted : Bool) (h : History) (lval : Option Text) (val : Mnumber) (by_ : Int64)
    (pre : Bool) : Run :=
  match lval with
  | none =>
    if pre ∧ (S.bash_mode ∨ S.sh_mode ∨ S.dash_faithful) then (h, .ok ⟨val, none⟩)
    else (h, .error St.lvalueRequired)
  | some name =>
    let new_val := stepBy S val by_
    ((assign S muted h name new_val true).1, .ok (if pre then ⟨new_val, some name⟩ else ⟨val, none⟩))

def applyUnary (muted : Bool) (h : History) (what : Token) (mv : Mathvalue) : Run :=
  let val := valueOf lookup h mv
  match what with
  | .NOT => (h, .ok ⟨ofBool (isZero val), none⟩)
  | .COMP => (h, .ok ⟨.integer (~~~asInt S val), none⟩)
  | .UPLUS => (h, .ok ⟨val, none⟩)
  | .UMINUS => (h, .ok ⟨negate S val, none⟩)
  | .POSTPLUS => opStep S muted h mv.lval val 1 false
  | .POSTMINUS => opStep S muted h mv.lval val (-1) false
  | .PREPLUS => opStep S muted h mv.lval val 1 true
  | .PREMINUS => opStep S muted h mv.lval val (-1) true
  | _ => (h, .error "unknown operator")

/-- Whether the left side of `&&`, `||` and their assignments decides without the right one. -/
def cuts (what : Token) (val : Mnumber) : Bool :=
  match what with
  | .DAND | .DANDEQ => asInt S val = 0
  | .DOR | .DOREQ => asInt S val ≠ 0
  | _ => false

def andThen (r : Run) (f : Mathvalue → History → Run) : Run :=
  match r with
  | (h, .ok mv) => f mv h
  | (h, .error msg) => (h, .error msg)

/-- The value of a tree behind the effects so far. A side that is not taken is evaluated muted: it
has no effect, and its operators compute nothing. -/
def Expr.eval : Expr → Bool → History → Run
  | .num val, _, h => (h, .ok ⟨val, none⟩)
  | .var name, muted, h => (h, .ok ⟨if muted then .integer 0 else .unset, some name⟩)
  | .paren e, muted, h => e.eval muted h
  | .before what e, muted, h | .behind what e, muted, h =>
    andThen (e.eval muted h) fun mv h => applyUnary S lookup muted h what mv
  | .binary what l r, muted, h =>
    andThen (l.eval muted h) fun a h =>
      andThen (r.eval (muted || cuts S what (valueOf lookup h a)) h) fun b h =>
        applyBinary S lookup muted h what a b
  | .ternary c yes no, muted, h =>
    andThen (c.eval muted h) fun mv h =>
      let zero := isZero (get lookup h mv)
      andThen (yes.eval (muted || zero) h) fun t h =>
        andThen (no.eval (muted || !zero) h) fun f h =>
          let val := if isZero (get lookup h mv) then valueOf lookup h f else get lookup h t
          (h, .ok ⟨val, none⟩)

/-- The value of a whole expression, which is read behind its effects. -/
def Expr.run (e : Expr) (h : History) : History × Except String Mnumber :=
  let r := e.eval S lookup false h
  (r.1, r.2.map (valueOf lookup r.1))

end Meaning

section Grammar

variable (S : Shell)

def isC (p : PrecTable) : Bool := p = .C_PREC ∨ p = .C_PREC_TERNARY_MIDDLE

/-- The table and the level of the middle operand of a ternary. -/
def middleTable (p : PrecTable) : PrecTable :=
  if S.bash_mode ∨ S.posix_faithful then
    (if isC p then .C_PREC_TERNARY_MIDDLE else .Z_PREC_TERNARY_MIDDLE)
  else p

def middleLevel (p : PrecTable) : Nat :=
  if S.bash_mode ∨ S.posix_faithful then (middleTable S p).at .EQ else p.at .COLON - 1

def lastLevel (p : PrecTable) : Nat := p.at (if S.korn_mode then .EQ else .QUEST)

/-- Every operand that ends the tree is parsed below the level. -/
def Expr.Stops (p : PrecTable) (level : Nat) : Expr → Prop
  | .num _ | .var _ | .paren _ => True
  | .before what e => p.rightOf what < level ∧ e.Stops p level
  | .behind what _ => p.rightOf what < level
  | .binary what _ r => p.rightOf what < level ∧ r.Stops p level
  | .ternary _ _ no => lastLevel S p < level ∧ no.Stops p level

def Expr.isAtom : Expr → Bool
  | .num _ | .var _ | .paren _ => true
  | _ => false

/-- The tree needs no more parentheses than it has where it stands at a level. -/
def Expr.Fits : PrecTable → Nat → Expr → Prop
  | _, _, .num _ => True
  | _, _, .var name => subscript? name = none
  | p, pc, .paren e => p.at .M_INPAR ≤ pc ∧ e.Fits p p.top_prec
  | p, pc, .before what e =>
    what ∈ [Token.NOT, .COMP, .UPLUS, .UMINUS, .PREPLUS, .PREMINUS] ∧ p.at what ≤ pc ∧
      e.Fits p (p.rightOf what)
  | p, pc, .behind what e =>
    what ∈ [Token.POSTPLUS, .POSTMINUS] ∧ p.at what ≤ pc ∧ e.isAtom ∧ e.Fits p pc
  | p, pc, .binary what l r =>
    (OP_TYPE what).is_binary ∧ p.at what ≤ pc ∧ l.Fits p pc ∧ l.Stops S p (p.at what) ∧
      r.Fits p (p.rightOf what)
  | p, pc, .ternary c yes no =>
    p.at .QUEST ≤ pc ∧ c.Fits p pc ∧ c.Stops S p (p.at .QUEST) ∧
      yes.Fits (middleTable S p) (middleLevel S p) ∧
      yes.Stops S (middleTable S p) ((middleTable S p).at .COLON) ∧ no.Fits p (lastLevel S p)

theorem rightOf_lt {p : PrecTable} {what : Token} (h : (OP_TYPE what).is_binary = true ∨
    what ∈ [Token.NOT, .COMP, .UPLUS, .UMINUS, .PREPLUS, .PREMINUS] ∨
    what ∈ [Token.POSTPLUS, .POSTMINUS]) : p.rightOf what < 19 := by
  revert h
  cases p <;> cases what <;> decide

theorem lastLevel_lt (p : PrecTable) : lastLevel S p < 19 := by
  unfold lastLevel
  split <;> cases p <;> decide

variable {S}

/-- What closes a parenthesis, and the end of the text, stop every tree. -/
theorem Expr.Fits.stops {p : PrecTable} {pc level : Nat} {e : Expr} (h : e.Fits S p pc)
    (hl : 19 ≤ level) : e.Stops S p level := by
  induction e generalizing p pc with
  | num val | var name | paren e ih => trivial
  | before what e ih =>
    have right := rightOf_lt (p := p) (.inr (.inl h.1))
    exact ⟨by omega, ih h.2.2⟩
  | behind what e ih =>
    have right : p.rightOf what < 19 := rightOf_lt (.inr (.inr h.1))
    exact Nat.lt_of_lt_of_le right hl
  | binary what l r ihl ihr =>
    have right := rightOf_lt (p := p) (.inl h.1)
    exact ⟨by omega, ihr h.2.2.2.2⟩
  | ternary c yes no ihc ihy ihn =>
    have last := lastLevel_lt S p
    exact ⟨by omega, ihn h.2.2.2.2.2⟩

/-- A tree starts with a lexeme that stands where an operand is wanted. -/
theorem Expr.Fits.lexemes_cons {p : PrecTable} {pc : Nat} {e : Expr} (h : e.Fits S p pc) :
    ∃ x xs, e.lexemes = x :: xs ∧ (OP_TYPE x.tok).is_op_token = false := by
  induction e generalizing p pc with
  | num val | var name | paren e ih => exact ⟨_, _, rfl, rfl⟩
  | before what e ih =>
    refine ⟨_, _, rfl, ?_⟩
    have kind := h.1
    revert kind
    cases what <;> decide
  | behind what e ih =>
    obtain ⟨x, xs, hx, hop⟩ := ih h.2.2.2
    refine ⟨x, xs ++ [.op what], ?_, hop⟩
    simp [lexemes, hx]
  | binary what l r ihl ihr =>
    obtain ⟨x, xs, hx, hop⟩ := ihl h.2.2.1
    refine ⟨x, xs ++ .op what :: r.lexemes, ?_, hop⟩
    simp [lexemes, hx]
  | ternary c yes no ihc ihy ihn =>
    obtain ⟨x, xs, hx, hop⟩ := ihc h.2.1
    refine ⟨x, xs ++ .op .QUEST :: (yes.lexemes ++ .op .COLON :: no.lexemes), ?_, hop⟩
    simp [lexemes, hx]

end Grammar

end Zshrs.Math.Tree
