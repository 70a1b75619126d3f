import Zshrs.Parse.Grammar

namespace Zshrs.Parse.Wordcode

section Productions

variable (env : Env) (n : Nat) (r : Rec)

section Lists

/-- `par_list_wordcode`, with the place of the list before. -/
def par_list_wordcode (cmplx : Bool) : ParseM Bool :=
  iterate n (fun (lp, cmplx) => do
    skipSeper env n
    let p ← ecadd 0
    let (found, c) ← r.par_sublist false
    if found then do
      let cmplx := cmplx || c
      let t ← tok
      if t = .seper ∨ t = .amper ∨ t = .amperbang then do
        let cmplx := if t ≠ .seper then true else cmplx
        let z := if t = .seper then Z_SYNC else if t = .amper then Z_ASYNC else Z_ASYNC ||| Z_DISOWN
        set_list_code p z c
        zshlex env
        skipSeper env n
        pure (.inl (some p, cmplx))
      else do
        set_list_code p (Z_SYNC ||| Z_END) c
        pure (.inr cmplx)
    else do
      unadd
      match lp with
      | some lp => do
        let w ← word lp
        patch lp (w ||| wc_bdata Z_END)
        pure (.inr cmplx)
      | none => pure (.inr cmplx)) ((none : Option Nat), cmplx)

def par_list1_wordcode (cmplx : Bool) : ParseM Bool := do
  let p ← ecadd 0
  let (found, c) ← r.par_sublist false
  if found then do
    set_list_code p (Z_SYNC ||| Z_END) c
    pure (cmplx || c)
  else do
    unadd
    pure cmplx

/-- A list that may be empty is followed by an end. -/
def save_list (list : Bool → ParseM Bool) (cmplx : Bool) : ParseM Bool := do
  let eu ← ecused
  let cmplx ← list cmplx
  let used ← ecused
  if used = eu then do
    call (.ecadd WCB_END)
    pure cmplx
  else pure cmplx

def par_save_list_wordcode (cmplx : Bool) : ParseM Bool := save_list r.par_list cmplx

def par_save_list1_wordcode (cmplx : Bool) : ParseM Bool := save_list r.par_list1 cmplx

def par_sublist2 (cmplx : Bool) : ParseM (Option wordcode × Bool) := do
  let t ← tok
  if t = .coproc ∨ t = .bang then do
    zshlex env
    let (_, cmplx) ← r.par_pipe true
    pure (some (if t = .coproc then WC_SUBLIST_COPROC else WC_SUBLIST_NOT), cmplx)
  else do
    let (found, cmplx) ← r.par_pipe cmplx
    pure (if found then some 0 else none, cmplx)

def par_sublist_wordcode (cmplx : Bool) : ParseM (Bool × Bool) := do
  let p ← ecadd 0
  let (f, c) ← par_sublist2 env r false
  match f with
  | some f => do
    let e ← ecused
    let cmplx := cmplx || c
    let qtok ← tok
    if qtok = .dbar ∨ qtok = .damper then do
      zshlex env
      skipSeper env n
      let (sl, cmplx) ← r.par_sublist cmplx
      let st :=
        if sl then (if qtok = .dbar then WC_SUBLIST_OR else WC_SUBLIST_AND) else WC_SUBLIST_END
      set_sublist_code p st f (ofn (e - 1 - p)) c
      pure (true, cmplx)
    else do
      let c : Bool := c || qtok = .amper || qtok = .amperbang
      set_sublist_code p WC_SUBLIST_END f (ofn (e - 1 - p)) c
      pure (true, cmplx || c)
  | none => do
    unadd
    pure (false, cmplx)

/-- The next part of a pipeline, behind the one at `p`. -/
def par_pipe_rest (p : Nat) (line : Nat) : ParseM (Bool × Bool) := do
  zshlex env
  skipSeper env n
  patch p (WCB_PIPE WC_PIPE_MID (ofn (line + 1)))
  ecispace (p + 1) 1
  let used ← ecused
  patch (p + 1) (ofn (used - (1 + p)))
  let (found, cmplx) ← r.par_pipe true
  if found then pure (true, cmplx)
  else do
    set_tok .lexerr
    pure (true, cmplx)

def par_pipe_wordcode (cmplx : Bool) : ParseM (Bool × Bool) := do
  let line ← get St.toklineno
  let p ← ecadd 0
  let (found, cmplx) ← r.par_cmd cmplx
  if !found then do
    unadd
    pure (false, cmplx)
  else do
    let t ← tok
    if t = .bar then par_pipe_rest env n r p line
    else if t = .baramp then do
      -- The redirections in front of the command are passed over.
      let q ← iterate n (fun q => do
        let code ← word q
        if wc_code code = WC_REDIR then pure (.inl (q + WC_REDIR_WORDS code)) else pure (.inr q)) (p + 1)
      ecispace q 3
      let one ← ecstrcode env ['1']
      patch q (WCB_REDIR REDIR_MERGEOUT)
      patch (q + 1) 2
      patch (q + 2) one
      par_pipe_rest env n r p line
    else do
      patch p (WCB_PIPE WC_PIPE_END (ofn (line + 1)))
      pure (true, cmplx)

end Lists

section Compound

/-- The body of a loop: `do ... done`, `{ ... }`, `... end` or one command, where the loop may have
that form. It fails where the source leaves the function with `YYERRORV`. -/
def loop_body (cmplx csh short : Bool) (oecused : Nat) : ParseM (Bool × Bool) := do
  let t ← tok
  if t = .doloop ∨ t = .inbrace then do
    zshlex env
    let cmplx ← par_save_list_wordcode r cmplx
    if (← tok) ≠ (if t = .doloop then .done else .outbrace) then YYERROR oecused (false, cmplx)
    else do
      zshlex env
      pure (true, cmplx)
  else if csh then do
    let cmplx ← par_save_list_wordcode r cmplx
    if (← tok) ≠ .zend then YYERROR oecused (false, cmplx)
    else do
      zshlex env
      pure (true, cmplx)
  else if !short then YYERROR oecused (false, cmplx)
  else do
    let cmplx ← par_save_list1_wordcode r cmplx
    pure (true, cmplx)

def par_loop_body_wordcode (cmplx csh : Bool) (oecused : Nat) : ParseM Bool := do
  let (_, cmplx) ← loop_body env r cmplx (csh || env.CSHJUNKIELOOPS) env.SHORTLOOPS oecused
  pure cmplx

/-- The three expressions of an arithmetic `for`. -/
def par_for_cond (oecused : Nat) : ParseM Bool := do
  if env.pdksh_family then YYERROR oecused false
  else do
    zshlex env
    if (← tok) ≠ .dinpar then YYERROR oecused false
    else do
      ecstr env (← tokstr)
      zshlex env
      if (← tok) ≠ .dinpar then YYERROR oecused false
      else do
        ecstr env (← tokstr)
        zshlex env
        if (← tok) ≠ .doutpar then YYERROR oecused false
        else do
          ecstr env (← tokstr)
          zshlex env
          pure true

/-- The names of a `for`. `none` is an error. -/
def par_for_names (sel : Bool) : ParseM (Option Nat) :=
  iterate n (fun k => do
    ecstr env (← tokstr)
    zshlex env
    let s ← tokstr
    if (← tok) ≠ .string ∨ s = ['i', 'n'] ∨ sel then pure (.inr (some (k + 1)))
    else if !env.isident s ∨ (← get St.errflag) then pure (.inr none)
    else pure (.inl (k + 1))) 0

/-- The words of a `for`: whether there are any, or `none` after an error. -/
def par_for_words (oecused : Nat) (posix_in : Bool) : ParseM (Option Bool) := do
  let t ← tok
  if t = .string ∧ (← tokstr) = ['i', 'n'] then do
    zshlex env
    let np ← ecadd 0
    let k ← par_wordlist_wordcode env n
    if (← tok) ≠ .seper then YYERROR oecused none
    else do
      patch np (ofn k)
      pure (some true)
  else if !posix_in ∧ t = .inpar then do
    zshlex env
    let np ← ecadd 0
    let k ← par_nl_wordlist_wordcode env n
    if (← tok) ≠ .outpar then YYERROR oecused none
    else do
      patch np (ofn k)
      zshlex env
      pure (some true)
  else pure (some false)

/-- The place of the number of the names, which a `select` has not. -/
def countPlace (sel : Bool) : ParseM Nat := if sel then pure 0 else ecadd 0

/-- The head of a `for` or a `select` over words: its type, or `none` after an error. -/
def par_for_head (oecused : Nat) (sel : Bool) : ParseM (Option wordcode) := do
  if (← tok) ≠ .string ∨ !env.isident (← tokstr) then YYERROR oecused none
  else do
    let np ← countPlace sel
    match ← par_for_names env n sel with
    | none => YYERROR oecused none
    | some k => do
      when (!sel) (patch np (ofn k))
      let posix_in ← get St.isnewlin
      skipNewlin env n
      match ← par_for_words env n oecused posix_in with
      | none => pure none
      | some true => pure (some 1)
      | some false => pure (some 0)

/-- What stands between `for` and the body. -/
def par_for_type (oecused : Nat) (sel : Bool) : ParseM (Option wordcode) := do
  if (← tok) = .dinpar then do
    let ok ← par_for_cond env oecused
    pure (if ok then some 2 else none)
  else par_for_head env n oecused sel

def par_for_wordcode (cmplx : Bool) : ParseM Bool := do
  let oecused ← ecused
  let t ← tok
  let csh : Bool := t = .foreach
  let sel : Bool := t = .select
  let p ← ecadd 0
  zshlex env
  match ← par_for_type env n oecused sel with
  | none => pure cmplx
  | some type => do
    skipSeper env n
    let cmplx ← par_loop_body_wordcode env r cmplx csh oecused
    let used ← ecused
    let off := ofn (used - (1 + p))
    patch p (if sel then WCB_SELECT type off else WCB_FOR type off)
    pure cmplx

def par_while_wordcode (cmplx : Bool) : ParseM Bool := do
  let oecused ← ecused
  let type : wordcode := if (← tok) = .until_ then 1 else 0
  let p ← ecadd 0
  zshlex env
  let cmplx ← par_save_list_wordcode r cmplx
  skipSeper env n
  let (ok, cmplx) ← loop_body env r cmplx env.CSHJUNKIELOOPS env.SHORTLOOPS oecused
  if !ok then pure cmplx
  else do
    let used ← ecused
    patch p (WCB_WHILE type (ofn (used - (1 + p))))
    pure cmplx

def par_repeat_wordcode (cmplx : Bool) : ParseM Bool := do
  let oecused ← ecused
  let p ← ecadd 0
  zshlex env
  if (← tok) ≠ .string then YYERROR oecused cmplx
  else do
    ecstr env (← tokstr)
    zshlex env
    skipSeper env n
    let (ok, cmplx) ← loop_body env r cmplx env.CSHJUNKIELOOPS (env.SHORTLOOPS || env.SHORTREPEAT) oecused
    if !ok then pure cmplx
    else do
      let used ← ecused
      patch p (WCB_REPEAT (ofn (used - (1 + p))))
      pure cmplx

section Case

def blank (c : Char) : Bool := c = ' ' ∨ c = '\t'

/-- The blanks at the end of what has been passed, which is reversed, are taken off, but not one
behind a `Meta`. -/
def dropBlanks : Str → Str
  | c :: c' :: rest => if blank c ∧ c' ≠ Meta then dropBlanks (c' :: rest) else c :: c' :: rest
  | [c] => if blank c then [] else [c]
  | [] => []

/-- The blanks around the parentheses and bars of the outermost level are taken out. `none` is an
error. -/
def stripBlanks : Nat → Nat → Str → Str → Option Str
  | _, pct, passed, [] => if pct ≠ 0 ∨ passed = [] then none else some passed.reverse
  | 0, _, _, _ :: _ => none
  | k + 1, pct, passed, c :: rest =>
    let pct := if c = Inpar then pct + 1 else pct
    if pct = 0 then none
    else
      let rest := if pct = 1 ∧ (c = Bar ∨ c = Inpar) then rest.dropWhile blank else rest
      let passed := if pct = 1 ∧ (c = Bar ∨ c = Outpar) then dropBlanks passed else passed
      let pct := if c = Outpar then pct - 1 else pct
      stripBlanks k pct (c :: passed) rest

/-- One pattern of a case arm, with its number. -/
def casePattern (str : Str) : ParseM Unit := do
  ecstr env str
  ecnpat

/-- The patterns of a case arm, from the one that has been read: how many there are, or `none` after
an error. -/
def par_case_patterns (oecused : Nat) (str : Str) : ParseM (Option Nat) :=
  iterate n (fun (nalts, str) => do
    let t ← tok
    if t = .outpar then do
      casePattern env str
      zshlex env
      pure (.inr (some (nalts + 1)))
    else if t = .bar then do
      casePattern env str
      zshlex env
      let t ← tok
      if t = .string then do
        let str ← tokstr
        zshlex env
        pure (.inl (nalts + 1, str))
      else if t = .outpar ∨ t = .bar then pure (.inl (nalts + 1, []))
      else YYERROR oecused (.inr none)
    else if nalts = 0 ∧ str.head? = some Inpar then
      match stripBlanks str.length 0 [] str with
      | none => YYERROR oecused (.inr none)
      | some str => do
        casePattern env str.dropLast.tail
        pure (.inr (some (nalts + 1)))
    else YYERROR oecused (.inr none)) (0, str)

/-- One arm of a `case`. Whether there is another, or `none` after an error. -/
def par_case_arm (oecused : Nat) (brflag : Bool) (cmplx : Bool) : ParseM (Option Bool × Bool) := do
  skipSeper env n
  if (← tok) = .outbrace then pure (some false, cmplx)
  else do
    when ((← tok) = .inpar) (zshlex env)
    let t ← tok
    let str ← tokstr
    if t ≠ .bar ∧ t ≠ .string then YYERROR oecused (none, cmplx)
    else if t ≠ .bar ∧ str = ['e', 's', 'a', 'c'] then pure (some false, cmplx)
    else do
      let pp ← ecadd 0
      let palts ← ecadd 0
      when (t ≠ .bar) (zshlex env)
      match ← par_case_patterns env n oecused (if t = .bar then [] else str) with
      | none => pure (none, cmplx)
      | some nalts => do
        let cmplx ← par_save_list_wordcode r cmplx
        let t ← tok
        let type : wordcode := if t = .semiamp then 2 else if t = .semibar then 3 else 1
        let used ← ecused
        patch pp (WCB_CASE type (ofn (used - (1 + pp))))
        patch palts (ofn nalts)
        if (t = .esac ∧ !brflag) ∨ (t = .outbrace ∧ brflag) then pure (some false, cmplx)
        else if t ≠ .dsemi ∧ t ≠ .semiamp ∧ t ≠ .semibar then YYERROR oecused (none, cmplx)
        else do
          zshlex env
          pure (some true, cmplx)

def par_case_wordcode (cmplx : Bool) : ParseM Bool := do
  let oecused ← ecused
  let p ← ecadd 0
  zshlex env
  if (← tok) ≠ .string then YYERROR oecused cmplx
  else do
    ecstr env (← tokstr)
    zshlex env
    skipSeper env n
    let t ← tok
    if ¬ (t = .string ∧ (← tokstr) = ['i', 'n']) ∧ t ≠ .inbrace then YYERROR oecused cmplx
    else do
      let brflag : Bool := t = .inbrace
      zshlex env
      let (ok, cmplx) ← iterate n (fun cmplx => do
        match ← par_case_arm env n r oecused brflag cmplx with
        | (none, cmplx) => pure (.inr (false, cmplx))
        | (some true, cmplx) => pure (.inl cmplx)
        | (some false, cmplx) => pure (.inr (true, cmplx))) cmplx
      if !ok then pure cmplx
      else do
        zshlex env
        let used ← ecused
        patch p (WCB_CASE 0 (ofn (used - (1 + p))))
        pure cmplx

end Case

section If

/-- How a turn of the loop over the branches ends: with the next branch, behind the last one, or in
an error. `usebrace` is whether the last branch stood in braces. -/
inductive IfTurn
  | next (usebrace : Bool)
  | done (xtok : lextok) (usebrace : Bool)
  | failed
  deriving DecidableEq

/-- The body of a branch whose condition has been read. -/
def par_if_body (oecused pp : Nat) (type : wordcode) (usebrace cmplx : Bool) :
    ParseM (IfTurn × Bool) := do
  let close : ParseM Unit := do
    let used ← ecused
    patch pp (WCB_IF type (ofn (used - (1 + pp))))
  let t ← tok
  if t = .then_ then do
    zshlex env
    let cmplx ← par_save_list_wordcode r cmplx
    close
    pure (.next false, cmplx)
  else if t = .inbrace then do
    zshlex env
    let cmplx ← par_save_list_wordcode r cmplx
    if (← tok) ≠ .outbrace then YYERROR oecused (.failed, cmplx)
    else do
      close
      zshlex env
      if (← tok) = .seper then pure (.done .fi true, cmplx) else pure (.next true, cmplx)
  else if !env.SHORTLOOPS then YYERROR oecused (.failed, cmplx)
  else do
    let cmplx ← par_save_list1_wordcode r cmplx
    close
    pure (.done .fi usebrace, cmplx)

/-- One turn of the loop over the branches. -/
def par_if_turn (oecused : Nat) (usebrace cmplx : Bool) : ParseM (IfTurn × Bool) := do
  let xtok ← tok
  zshlex env
  if xtok = .fi ∨ xtok = .else_ then pure (.done xtok usebrace, cmplx)
  else do
    skipSeper env n
    if xtok ≠ .if_ ∧ xtok ≠ .elif then YYERROR oecused (.failed, cmplx)
    else do
      let pp ← ecadd 0
      let cmplx ← par_save_list_wordcode r cmplx
      if (← tok) = .endinput then YYERROR oecused (.failed, cmplx)
      else do
        skipSeper env n
        par_if_body env r oecused pp (if xtok = .if_ then 1 else 2) usebrace cmplx

/-- The `else` branch. It fails where the source leaves the function. -/
def par_if_else (oecused : Nat) (usebrace cmplx : Bool) : ParseM (Bool × Bool) := do
  let pp ← ecadd 0
  skipSeper env n
  let brace : Bool := (← tok) = .inbrace ∧ usebrace
  when brace (zshlex env)
  let cmplx ← par_save_list_wordcode r cmplx
  if (← tok) ≠ (if brace then .outbrace else .fi) then YYERROR oecused (false, cmplx)
  else do
    let used ← ecused
    patch pp (WCB_IF 3 (ofn (used - (1 + pp))))
    zshlex env
    pure (true, cmplx)

/-- The `else` branch, where there is one. -/
def par_if_last (oecused : Nat) (xtok : lextok) (usebrace cmplx : Bool) : ParseM (Bool × Bool) := do
  let t ← tok
  if xtok = .else_ ∨ t = .else_ then par_if_else env n r oecused usebrace cmplx
  else pure (true, cmplx)

def par_if_wordcode (cmplx : Bool) : ParseM Bool := do
  let oecused ← ecused
  let p ← ecadd 0
  let (turn, cmplx) ← iterate n (fun (usebrace, cmplx) => do
    match ← par_if_turn env n r oecused usebrace cmplx with
    | (.next usebrace, cmplx) => pure (.inl (usebrace, cmplx))
    | (turn, cmplx) => pure (.inr (turn, cmplx))) (false, cmplx)
  match turn with
  | .done xtok usebrace => do
    let (ok, cmplx) ← par_if_last env n r oecused xtok usebrace cmplx
    if !ok then pure cmplx
    else do
      let used ← ecused
      patch p (WCB_IF 0 (ofn (used - (1 + p))))
      pure cmplx
  | _ => pure cmplx

end If

section Groups

def par_subsh_wordcode (cmplx : Bool) : ParseM Bool := do
  let oecused ← ecused
  let otok ← tok
  let p ← ecadd 0
  let pp ← ecadd 0
  zshlex env
  let cmplx ← r.par_list cmplx
  call (.ecadd WCB_END)
  if (← tok) ≠ (if otok = .inpar then .outpar else .outbrace) then YYERROR oecused cmplx
  else do
    zshlex env
    if otok = .inbrace ∧ (← tok) = .string ∧ (← tokstr) = ['a', 'l', 'w', 'a', 'y', 's'] then do
      let used ← ecused
      patch pp (WCB_TRY (ofn (used - (1 + pp))))
      zshlex env
      skipSeper env n
      if (← tok) ≠ .inbrace then YYERROR oecused cmplx
      else do
        zshlex env
        let cmplx ← par_save_list_wordcode r cmplx
        skipSeper env n
        if (← tok) ≠ .outbrace then YYERROR oecused cmplx
        else do
          zshlex env
          let used ← ecused
          patch p (WCB_TRY (ofn (used - (1 + p))))
          pure cmplx
    else do
      let used ← ecused
      let off := ofn (used - (1 + p))
      patch p (if otok = .inpar then WCB_SUBSH off else WCB_CURSH off)
      pure cmplx

def par_time_wordcode : ParseM Unit := do
  zshlex env
  let p ← ecadd 0
  let _ ← ecadd 0
  let (f, c) ← par_sublist2 env r false
  match f with
  | some flags => do
    patch p (WCB_TIMED 1)
    let used ← ecused
    set_sublist_code (p + 1) WC_SUBLIST_END flags (ofn (used - (2 + p))) c
  | none => do
    unadd
    patch p (WCB_TIMED 0)

def par_arith_wordcode : ParseM Unit := do
  call (.ecadd WCB_ARITH)
  ecstr env (← tokstr)
  zshlex env

/-- What a function definition sets apart while its body is read. -/
structure Outer where
  so : wordcode
  oecssub : wordcode
  onp : Nat

def enterBody : ParseM Outer := do
  let oecssub ← get St.ecssub
  let so ← get fun s => env.ecsoffs s.coded
  let onp ← get St.ecnpats
  modify fun s => { s with ecssub := so, ecnpats := 0 }
  pure ⟨so, oecssub, onp⟩

def leaveBody (o : Outer) : ParseM Unit :=
  modify fun s => { s with ecssub := o.oecssub, ecnpats := o.onp }

/-- The four words behind the names of a function. -/
def patchBody (m : Nat) (o : Outer) (do_tracing : wordcode) : ParseM Unit := do
  let cur_sofs ← get fun s => env.ecsoffs s.coded
  let npats ← get St.ecnpats
  patch m (o.so - o.oecssub)
  patch (m + 1) (cur_sofs - o.so)
  patch (m + 2) (ofn npats)
  patch (m + 3) do_tracing

def isDash (c : Char) : Bool := c = '-' ∨ c = Dash

/-- The options of `function`: whether the body is traced. -/
def par_funcdef_options : ParseM wordcode := do
  let s ← tokstr
  if (← tok) = .string ∧ s.head?.any isDash then do
    let tracing : Bool := s.tail = ['T']
    when tracing (zshlex env)
    let s ← tokstr
    when ((← tok) = .string ∧ s.length = 2 ∧ s.all isDash) (zshlex env)
    pure (if tracing then 1 else 0)
  else pure 0

/-- The names of a function. -/
def par_funcdef_names : ParseM Nat :=
  iterate n (fun num => do
    if (← tok) = .string then do
      let s ← tokstr
      if s = ['\x7b'] ∨ s = [Inbrace] then do
        set_tok .inbrace
        pure (.inr num)
      else do
        ecstr env s
        zshlex env
        pure (.inl (num + 1))
    else pure (.inr num)) 0

/-- The body of a function. It fails where the source leaves the function. -/
def par_funcdef_body (oecused : Nat) (o : Outer) : ParseM Bool := do
  if (← tok) = .inbrace then do
    zshlex env
    let _ ← r.par_list false
    if (← tok) ≠ .outbrace then do
      leaveBody o
      YYERROR oecused false
    else do
      zshlex env
      pure true
  else if !env.SHORTLOOPS then do
    leaveBody o
    YYERROR oecused false
  else do
    let _ ← r.par_list1 false
    pure true

/-- The arguments of a function without a name. -/
def par_funcdef_args (cmplx : Bool) : ParseM Bool := do
  let parg ← ecadd 0
  let _ ← ecadd 0
  let num ← par_wordlist_wordcode env n
  let used ← ecused
  patch parg (ofn (used - parg))
  patch (parg + 1) (ofn num)
  pure (cmplx || num > 0)

def par_funcdef_wordcode (cmplx : Bool) : ParseM Bool := do
  let oecused ← ecused
  zshlex env
  let p ← ecadd 0
  let p1 ← ecadd 0
  let do_tracing ← par_funcdef_options env
  let num ← par_funcdef_names env n
  let m2 ← ecadd 0
  call (.ecadd 0)
  call (.ecadd 0)
  call (.ecadd 0)
  when ((← tok) = .inoutpar) (zshlex env)
  skipSeper env n
  let o ← enterBody env
  if !(← par_funcdef_body env r oecused o) then pure cmplx
  else do
    call (.ecadd WCB_END)
    patchBody env m2 o do_tracing
    patch p1 (ofn num)
    leaveBody o
    let used ← ecused
    patch p (WCB_FUNCDEF (ofn (used - (1 + p))))
    if num = 0 then par_funcdef_args env n cmplx else pure cmplx

end Groups

end Compound

end Productions

end Zshrs.Parse.Wordcode
