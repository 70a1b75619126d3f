import Zshrs.Parse.EcCalls

namespace Zshrs.Parse.Wordcode

def Inpar : Char := '\ue188'
def Outpar : Char := '\ue18a'
def Equals : Char := '\ue18d'
def Bar : Char := '\ue18e'
def Inbrace : Char := '\ue18f'
def Outbrace : Char := '\ue190'
def Inbrack : Char := '\ue191'
def Outbrack : Char := '\ue192'
def Inang : Char := '\ue194'
def Outang : Char := '\ue195'
def OutangProc : Char := '\ue196'
def Tilde : Char := '\ue198'
def Dash : Char := '\ue19b'
def Bang : Char := '\ue19c'
def Meta : Char := '\x83'

inductive lextok
  | seper | newlin | semi | dsemi | semiamp | semibar | amper | amperbang
  | dbar | damper | bar | baramp | bang | coproc
  | inpar | outpar | inoutpar | inbrace | outbrace | dinpar | doutpar | dinbrack | doutbrack
  | outang | outangbang | doutang | doutangbang | inang | inoutang | dinang | dinangdash
  | inangamp | outangamp | ampoutang | outangampbang | doutangamp | doutangampbang | trinang
  | string | envstring | envarray | typeset | nocorrect
  | case_ | esac | if_ | then_ | elif | else_ | fi | for_ | foreach | select
  | while_ | until_ | repeat_ | doloop | done | zend | func | time
  | endinput | lexerr | other
  deriving DecidableEq

/-- The redirection that an operator stands for. -/
def redirType : lextok → Option wordcode
  | .outang => some 0
  | .outangbang => some 1
  | .doutang => some 2
  | .doutangbang => some 3
  | .inang => some REDIR_READ
  | .inoutang => some REDIR_READWRITE
  | .dinang => some REDIR_HEREDOC
  | .dinangdash => some REDIR_HEREDOCDASH
  | .inangamp => some REDIR_MERGEIN
  | .outangamp => some REDIR_MERGEOUT
  | .ampoutang => some 4
  | .outangampbang => some 5
  | .doutangamp => some 6
  | .doutangampbang => some 7
  | .trinang => some REDIR_HERESTR
  | _ => none

def IS_REDIROP (t : lextok) : Bool := (redirType t).isSome

/-- One token with what comes along. `gethere` answers for the bodies that are read when it ends a
line: the body and the terminator as it was found, if the body is not too large. -/
structure Token where
  tok : lextok
  tokstr : Option Str
  tokfd : Option wordcode
  toklineno : Nat
  errflag : Bool
  gethere : Heredoc → Option (Str × Str)

/-- What a parse consults beside its own state: the options, `isident`, and the string registry by
the number of strings that it has coded. -/
structure Env where
  SHORTLOOPS : Bool
  SHORTREPEAT : Bool
  CSHJUNKIELOOPS : Bool
  IGNOREBRACES : Bool
  MULTIFUNCDEF : Bool
  LEXFLAGS_NEWLINE : Bool
  pdksh_family : Bool
  ksh93_mode : Bool
  plain_order : Bool
  isident : Str → Bool
  ecstrcode : Nat → Str → wordcode
  ecsoffs : Nat → wordcode

/-- The parser: the lexer with the tokens that are still to come, the buffer and the calls that were
made on it, and the counters. -/
structure St where
  toks : List Token
  tok : lextok
  tokstr : Option Str
  tokfd : Option wordcode
  toklineno : Nat
  errflag : Bool
  isnewlin : Bool
  ec : Ec
  calls : List Call
  inpartime : Bool
  ecnpats : Nat
  ecssub : wordcode
  coded : Nat

/-- A step of the parser. Without a result it has come to a panic, or out of fuel. -/
def ParseM (α : Type) := St → Option α × St

instance : Monad ParseM where
  pure a := fun s => (some a, s)
  bind m f := fun s =>
    match m s with
    | (some a, s) => f a s
    | (none, s) => (none, s)

def stop {α : Type} : ParseM α := fun s => (none, s)

def get {α : Type} (f : St → α) : ParseM α := fun s => (some (f s), s)

def modify (f : St → St) : ParseM Unit := fun s => (some (), f s)

def call (c : Call) : ParseM Unit :=
  fun s => (some (), { s with ec := exec s.ec c, calls := s.calls ++ [c] })

def tok : ParseM lextok := get St.tok

def tokstr : ParseM Str := get fun s => s.tokstr.getD []

def set_tok (t : lextok) : ParseM Unit := modify fun s => { s with tok := t }

def ecused : ParseM Nat := get fun s => s.ec.ecused

def ecadd (c : wordcode) : ParseM Nat := do
  let p ← ecused
  call (.ecadd c)
  pure p

/-- `ecused - p` comes to a panic when it is negative. -/
def ecispace (p n : Nat) : ParseM Unit := do
  let used ← ecused
  if p ≤ used then call (.ecispace p n) else stop

/-- `YYERROR` and `YYERRORV`, with what is left in the variables of the caller. -/
def YYERROR {α : Type} (o : Nat) (a : α) : ParseM α := do
  set_tok .lexerr
  call (.yyerror o)
  pure a

/-- A step that is left out unless the condition holds. -/
def when (c : Prop) [Decidable c] (m : ParseM Unit) : ParseM Unit := if c then m else pure ()

/-- A loop that goes on with `inl`. -/
def iterate {α β : Type} : Nat → (α → ParseM (α ⊕ β)) → α → ParseM β
  | 0, _, _ => stop
  | n + 1, body, a => do
    match ← body a with
    | .inl a => iterate n body a
    | .inr b => pure b

section Lexer

variable (env : Env) (n : Nat)

def ecstrcode (s : Str) : ParseM wordcode := do
  let k ← get St.coded
  modify fun s => { s with coded := k + 1 }
  pure (env.ecstrcode k s)

def ecstr (s : Str) : ParseM Unit := do
  let c ← ecstrcode env s
  call (.ecadd c)

/-- The bodies of the pending here-documents are read. -/
def drain (gethere : Heredoc → Option (Str × Str)) : Nat → ParseM Unit
  | 0 => pure ()
  | k + 1 => do
    match ← get fun s => s.ec.hdocs.head? with
    | none => pure ()
    | some h =>
      match gethere h with
      | none => do
        call .clear_hdocs
        set_tok .lexerr
      | some (doc, munged) => do
        let doc ← ecstrcode env doc
        let term ← ecstrcode env h.str
        let munged ← ecstrcode env munged
        call (.setheredoc doc term munged)
        drain gethere k

/-- `gettok`: behind the last token is the end of the input. -/
def gettok : ParseM Token := fun s =>
  match s.toks with
  | [] => (some ⟨.endinput, none, none, s.toklineno, s.errflag, fun _ => none⟩,
      { s with tok := .endinput, tokstr := none, tokfd := none })
  | t :: rest => (some t,
      { s with toks := rest, tok := t.tok, tokstr := t.tokstr, tokfd := t.tokfd,
               toklineno := t.toklineno, errflag := t.errflag })

def zshlex : ParseM Unit := do
  if (← tok) = .lexerr then pure ()
  else do
    let t ← gettok
    when (t.tok = .newlin ∨ t.tok = .endinput) do
      let k ← get fun s => s.ec.hdocs.length
      drain env t.gethere k
    let raw ← tok
    modify fun s => { s with isnewlin := raw = .newlin }
    when (raw = .semi ∨ (raw = .newlin ∧ !env.LEXFLAGS_NEWLINE)) (set_tok .seper)

/-- `while` a token is there, it is passed over. -/
def skip (p : lextok → Bool) : ParseM Unit :=
  iterate n (fun _ => do
    if p (← tok) then do
      zshlex env
      pure (.inl ())
    else pure (.inr ())) ()

def skipSeper : ParseM Unit := skip env n fun t => t = .seper

/-- `while` a newline has been read. -/
def skipNewlin : ParseM Unit :=
  iterate n (fun _ => do
    if ← get St.isnewlin then do
      zshlex env
      pure (.inl ())
    else pure (.inr ())) ()

end Lexer

end Zshrs.Parse.Wordcode
