import Zshrs.Parse.Productions

namespace Zshrs.Parse.Wordcode

section Assignments

def behindParens (open_ close : Char) (level : Nat) : Str → Str
  | [] => []
  | c :: cs =>
    let level := if c = open_ then level + 1 else if c = close then level - 1 else level
    if level = 0 then cs else behindParens open_ close level cs

def skipparens (open_ close : Char) (s : Str) : Str :=
  match s with
  | c :: cs => if c = open_ then behindParens open_ close 1 cs else s
  | [] => s

def assignStop (c : Char) : Bool := c = '=' ∨ c = '+' ∨ c = Equals

def assignSplit (raw : Str) : Str × Str :=
  let (name, rest) := raw.span fun c => !(c = Inbrack ∨ assignStop c)
  if rest.head? = some Inbrack then
    let behind := skipparens Inbrack Outbrack rest
    let subscript := rest.take (rest.length - behind.length)
    let (more, rest) := behind.span fun c => !assignStop c
    (name ++ subscript ++ more, rest)
  else (name, rest)

def dropEquals (s : Str) : Str :=
  match s with
  | c :: cs => if c = '=' ∨ c = Equals then cs else s
  | [] => s

def hasProc : Str → Bool
  | c :: c' :: rest =>
    (c' = Inpar && (c = Equals || c = Inang || c = OutangProc)) || hasProc (c' :: rest)
  | _ => false

end Assignments

/-- The variables of `par_simple_wordcode`. -/
structure Simple where
  cmplx : Bool
  isnull : Bool
  assignments : Bool
  isfunc : Bool
  is_typeset : Bool
  argc : Nat
  postassigns : Nat
  nr : Nat
  sr : Nat
  r : Nat
  p : Nat
  ppost : Nat

/-- How a turn of one of the loops of `par_simple_wordcode` ends: with another turn, behind the loop,
or, with `false`, where the source leaves the function. -/
abbrev Turn := Simple ⊕ (Bool × Simple)

section Simple

variable (env : Env) (n : Nat) (rec_ : Rec)

def par_envstring (v : Simple) : ParseM Turn := do
  let raw ← tokstr
  let (name, rest) := assignSplit raw
  let is_inc : Bool := rest.head? = some '+'
  let value := dropEquals (if is_inc then rest.tail else rest)
  call (.ecadd (WCB_ASSIGN WC_ASSIGN_SCALAR (if is_inc then WC_ASSIGN_INC else WC_ASSIGN_NEW) 0))
  ecstr env name
  ecstr env value
  zshlex env
  pure (.inl { v with cmplx := v.cmplx || hasProc value, isnull := false, assignments := true })

def arrayName (raw : Str) : Str × wordcode :=
  if raw.getLast? = some '+' then (raw.dropLast, WC_ASSIGN_INC) else (raw, WC_ASSIGN_NEW)

/-- The words of an array assignment. It fails where the source leaves the function. -/
def par_array (oecused : Nat) : ParseM Bool := do
  let p ← ecadd 0
  let raw ← tokstr
  ecstr env (arrayName raw).1
  zshlex env
  let k ← par_nl_wordlist_wordcode env n
  patch p (WCB_ASSIGN WC_ASSIGN_ARRAY (arrayName raw).2 (ofn k))
  if (← tok) ≠ .outpar then YYERROR oecused false
  else do
    zshlex env
    pure true

def simplePrefix (oecused : Nat) (v : Simple) : ParseM Turn := do
  let t ← tok
  if t = .nocorrect then do
    zshlex env
    pure (.inl { v with cmplx := true })
  else if t = .envstring then par_envstring env v
  else if t = .envarray then do
    if ← par_array env n oecused then
      pure (.inl { v with cmplx := true, isnull := false, assignments := true })
    else pure (.inr (false, { v with cmplx := true }))
  else if IS_REDIROP t then do
    let (added, r) ← par_redir_wordcode env v.r none
    if added = 0 then pure (.inr (true, { v with cmplx := true }))
    else pure (.inl { v with cmplx := true, r := r, nr := v.nr + added })
  else pure (.inr (true, v))

/-- One word of the command: an argument, or an element of `typeset` behind its first assignment. -/
def par_word (v : Simple) (s : Str) : ParseM Simple := do
  if v.postassigns > 0 then do
    call (.ecadd (WCB_ASSIGN WC_ASSIGN_SCALAR WC_ASSIGN_INC 0))
    ecstr env s
    ecstr env []
    pure { v with postassigns := v.postassigns + 1 }
  else do
    ecstr env s
    pure { v with argc := v.argc + 1 }

def redirVar (s : Str) : Option Str :=
  match s with
  | c :: rest =>
    let inner := rest.dropLast
    if !env.IGNOREBRACES ∧ (c = Inbrace ∨ c = '\x7b') ∧
        (rest.getLast? = some Outbrace ∨ rest.getLast? = some '\x7d') ∧ inner ≠ [] ∧ env.isident inner then
      some inner
    else none
  | [] => none

/-- The places of the command behind a redirection that was put in front of it. -/
def Simple.shift (v : Simple) (added r : Nat) : Simple :=
  { v with cmplx := true, r := r, p := v.p + added, sr := v.sr + added,
           ppost := if v.ppost ≠ 0 then v.ppost + added else v.ppost }

/-- A word of the command. With `{name}` in front of a redirection `ppost` stays as it is. -/
def par_string (v : Simple) : ParseM Turn := do
  let typeset : Bool := (← tok) = .typeset
  let v := { v with cmplx := true, is_typeset := v.is_typeset || typeset }
  let s ← tokstr
  match redirVar env s with
  | some idstring => do
    zshlex env
    let fd ← get St.tokfd
    if IS_REDIROP (← tok) ∧ fd = none then do
      let (added, r) ← par_redir_wordcode env v.r (some idstring)
      pure (.inl { v with isnull := false, r := r, p := v.p + added, sr := v.sr + added })
    else do
      let v ← par_word env v s
      pure (.inl { v with isnull := false })
  | none => do
    let v ← par_word env v s
    zshlex env
    pure (.inl { v with isnull := false })

def postPlace (v : Simple) : ParseM Simple := do
  if v.postassigns = 0 then do
    let ppost ← ecadd 0
    pure { v with postassigns := 1, ppost := ppost }
  else pure { v with postassigns := v.postassigns + 1 }

def par_postassign (v : Simple) : ParseM Turn := do
  let v ← postPlace v
  let raw ← tokstr
  let (name, rest) := assignSplit raw
  call (.ecadd (WCB_ASSIGN WC_ASSIGN_SCALAR WC_ASSIGN_NEW 0))
  ecstr env name
  ecstr env (dropEquals rest)
  zshlex env
  pure (.inl { v with isnull := false })

/-- The short body of a function: one command. It fails where the source leaves the function. -/
def par_short_body (oecused : Nat) : ParseM Bool := do
  let ll ← ecadd 0
  let sl ← ecadd 0
  call (.ecadd (WCB_PIPE WC_PIPE_END 0))
  let (ok, body_c) ← rec_.par_cmd false
  if !ok then YYERROR oecused false
  else do
    let used ← ecused
    set_sublist_code sl WC_SUBLIST_END 0 (ofn (used - (1 + sl))) body_c
    set_list_code ll (Z_SYNC ||| Z_END) body_c
    pure true

def par_simple_body (oecused : Nat) (o : Outer) : ParseM Bool := do
  if (← tok) = .inbrace then do
    zshlex env
    let _ ← rec_.par_list false
    if (← tok) ≠ .outbrace then do
      leaveBody o
      YYERROR oecused false
    else do
      zshlex env
      pure true
  else par_short_body rec_ oecused

def par_simple_args (v : Simple) : ParseM Simple := do
  let parg ← ecadd 0
  let _ ← ecadd 0
  let (v, parg) ← iterate n (fun (v, parg) => do
    let t ← tok
    if t = .string then do
      ecstr env (← tokstr)
      zshlex env
      pure (.inl (({ v with argc := v.argc + 1 } : Simple), parg))
    else if IS_REDIROP t then do
      let (added, r) ← par_redir_wordcode env v.r none
      if added = 0 then pure (.inr ({ v with cmplx := true }, parg))
      else pure (.inl (v.shift added r, parg + added))
    else pure (.inr (v, parg))) (v, parg)
  let used ← ecused
  patch parg (ofn (used - parg))
  patch (parg + 1) (ofn v.argc)
  pure { v with cmplx := v.cmplx || v.argc > 0 }

def par_simple_unnamed (v : Simple) : ParseM Simple :=
  if v.argc = 0 then par_simple_args env n v else pure v

/-- `name () ...`: the words so far are the names of a function. -/
def par_simple_func (oecused : Nat) (c_saved : Bool) (v : Simple) : ParseM Turn := do
  if (!env.MULTIFUNCDEF ∧ v.argc > 1) ∨ v.assignments ∨ v.postassigns > 0 then
    YYERROR oecused (.inr (false, v))
  else do
    let v := { v with cmplx := c_saved }
    zshlex env
    skipSeper env n
    ecispace (v.p + 1) 1
    patch (v.p + 1) (ofn v.argc)
    call (.ecadd 0)
    call (.ecadd 0)
    call (.ecadd 0)
    call (.ecadd 0)
    let o ← enterBody env
    if !(← par_simple_body env rec_ oecused o) then pure (.inr (false, v))
    else do
      call (.ecadd WCB_END)
      patchBody env (v.p + v.argc + 2) o 0
      leaveBody o
      let used ← ecused
      patch v.p (WCB_FUNCDEF (ofn (used - (1 + v.p))))
      let v ← par_simple_unnamed env n v
      pure (.inr (true, { v with isfunc := true, isnull := false }))

def simpleWords (oecused : Nat) (c_saved : Bool) (v : Simple) : ParseM Turn := do
  let t ← tok
  if t = .string ∨ t = .typeset then par_string env v
  else if t = .envstring then par_postassign env v
  else if t = .envarray then do
    let v ← postPlace v
    if ← par_array env n oecused then pure (.inl { v with cmplx := true, isnull := false })
    else pure (.inr (false, { v with cmplx := true }))
  else if IS_REDIROP t then do
    let (added, r) ← par_redir_wordcode env v.r none
    if added = 0 then pure (.inr (true, { v with cmplx := true }))
    else pure (.inl (v.shift added r))
  else if t = .inoutpar then par_simple_func env n rec_ oecused c_saved v
  else pure (.inr (true, v))

def par_simple_header (v : Simple) : ParseM Unit := do
  if v.isfunc then pure ()
  else if v.is_typeset then do
    if v.postassigns > 0 then patch v.ppost (ofn v.postassigns) else call (.ecadd 0)
    patch v.p (WCB_TYPESET (ofn v.argc))
  else patch v.p (WCB_SIMPLE (ofn v.argc))

/-- What is returned is 0, or one more than the words of the redirections that were put in front of the
command. -/
def par_simple_wordcode (cmplx : Bool) (nr : Nat) : ParseM (Nat × Bool) := do
  let oecused ← ecused
  let v : Simple := ⟨cmplx, true, false, false, false, 0, 0, nr, 0, oecused, 0, 0⟩
  let (ok, v) ← iterate n (simplePrefix env n oecused) v
  if !ok then pure (0, v.cmplx)
  else do
    let t ← tok
    if t = .amper ∨ t = .amperbang then YYERROR oecused (0, v.cmplx)
    else do
      let p ← ecadd (WCB_SIMPLE 0)
      let (ok, v) ← iterate n (simpleWords env n rec_ oecused cmplx) { v with p := p }
      if !ok then pure (0, v.cmplx)
      else if v.isnull ∧ v.sr + v.nr = 0 ∧ !v.assignments then do
        call (.unadd v.p)
        pure (0, v.cmplx)
      else do
        par_simple_header v
        pure (1 + v.sr, v.cmplx)

def par_redirs (r : Nat) : ParseM (Nat × Nat) :=
  iterate n (fun (nr, r) => do
    if IS_REDIROP (← tok) then do
      let (added, r) ← par_redir_wordcode env r none
      pure (.inl (nr + added, r))
    else pure (.inr (nr, r))) (0, r)

/-- The command behind its first redirections. Whether there is one, and how far the redirections reach
that stand in front of it. -/
def par_cmd_body (cmplx : Bool) (nr r : Nat) : ParseM (Bool × Bool × Nat) := do
  let t ← tok
  let simple : ParseM (Bool × Bool × Nat) := do
    let (sr, cmplx) ← par_simple_wordcode env n rec_ cmplx nr
    if sr = 0 then pure (nr ≠ 0, cmplx, r)
    else pure (true, cmplx || sr > 1, r + (sr - 1))
  let compound (cmplx : ParseM Bool) : ParseM (Bool × Bool × Nat) := do
    let cmplx ← cmplx
    pure (true, cmplx, r)
  match t with
  | .for_ | .foreach => compound (par_for_wordcode env n rec_ cmplx)
  | .select => compound (par_for_wordcode env n rec_ true)
  | .case_ => compound (par_case_wordcode env n rec_ cmplx)
  | .if_ => compound (par_if_wordcode env n rec_ cmplx)
  | .while_ | .until_ => compound (par_while_wordcode env n rec_ cmplx)
  | .repeat_ => compound (par_repeat_wordcode env n rec_ cmplx)
  | .inpar => compound (par_subsh_wordcode env n rec_ true)
  | .inbrace => compound (par_subsh_wordcode env n rec_ cmplx)
  | .func => compound (par_funcdef_wordcode env n rec_ cmplx)
  | .dinbrack => compound (do
      par_cond_wordcode env rec_
      pure cmplx)
  | .dinpar => compound (do
      par_arith_wordcode env
      pure cmplx)
  | .time => do
    if ← get St.inpartime then do
      set_tok .string
      simple
    else compound (do
      modify fun s => { s with inpartime := true }
      par_time_wordcode env rec_
      modify fun s => { s with inpartime := false }
      pure true)
  | _ => simple

def par_cmd_wordcode (cmplx : Bool) : ParseM (Bool × Bool) := do
  let r ← ecused
  let redirs : Bool := IS_REDIROP (← tok)
  let (nr, r) ← par_redirs env n r
  let (found, cmplx, r) ← par_cmd_body env n rec_ (cmplx || redirs) nr r
  if !found then pure (false, cmplx)
  else do
    let redirs : Bool := IS_REDIROP (← tok)
    let _ ← par_redirs env n r
    pure (true, cmplx || redirs)

end Simple

/-- The productions with `k` levels of calls below them, in loops of up to `n` turns. -/
def level (env : Env) (n : Nat) : Nat → Rec
  | 0 =>
    { par_list := fun _ => stop
      par_list1 := fun _ => stop
      par_sublist := fun _ => stop
      par_pipe := fun _ => stop
      par_cmd := fun _ => stop
      par_cond_top := stop
      par_cond_1 := stop
      par_cond_2 := stop }
  | k + 1 =>
    let r := level env n k
    { par_list := par_list_wordcode env n r
      par_list1 := par_list1_wordcode r
      par_sublist := par_sublist_wordcode env n r
      par_pipe := par_pipe_wordcode env n r
      par_cmd := par_cmd_wordcode env n r
      par_cond_top := par_cond_top env n r
      par_cond_1 := par_cond_1 env n r
      par_cond_2 := par_cond_2 env n r }

def par_event_wordcode (env : Env) (n : Nat) (r : Rec) : ParseM Unit := do
  let _ ← iterate n (fun cmplx => do
    let t ← tok
    if t = .endinput ∨ t = .lexerr then pure (.inr cmplx)
    else do
      let cmplx ← r.par_list cmplx
      let t ← tok
      if t = .semi ∨ t = .newlin ∨ t = .amper ∨ t = .amperbang ∨ t = .seper then do
        zshlex env
        pure (.inl cmplx)
      else pure (.inr cmplx)) false
  pure ()

/-- `parse_list`, up to the report of its error. -/
def parse_list (env : Env) (n k : Nat) : ParseM Unit := do
  set_tok .endinput
  zshlex env
  par_event_wordcode env n (level env n k)
  when ((← tok) ≠ .endinput) do
    call .clear_hdocs
    set_tok .lexerr

def start (toks : List Token) (toklineno : Nat) : St :=
  ⟨toks, .endinput, none, none, toklineno, false, false, init_parse, [], false, 0, 0, 0⟩

end Zshrs.Parse.Wordcode
