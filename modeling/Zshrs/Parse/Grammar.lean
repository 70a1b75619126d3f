import Zshrs.Parse.Tokens

namespace Zshrs.Parse.Wordcode

/-- The productions that others call, one level down. -/
structure Rec where
  par_list : Bool → ParseM Bool
  par_list1 : Bool → ParseM Bool
  par_sublist : Bool → ParseM (Bool × Bool)
  par_pipe : Bool → ParseM (Bool × Bool)
  par_cmd : Bool → ParseM (Bool × Bool)
  par_cond_top : ParseM Unit
  par_cond_1 : ParseM Unit
  par_cond_2 : ParseM Unit

def ofn (n : Nat) : wordcode := UInt32.ofNat n

def word (p : Nat) : ParseM wordcode := get fun s => s.ec.word p

def patch (p : Nat) (c : wordcode) : ParseM Unit := call (.patch p c)

/-- `ecused--` -/
def unadd : ParseM Unit := do
  let used ← ecused
  call (.unadd (used - 1))

def set_list_code (p : Nat) (z : wordcode) (cmplx : Bool) : ParseM Unit := do
  let sublist_code ← word (p + 1)
  if !cmplx ∧ (z = Z_SYNC ∨ z = Z_SYNC ||| Z_END) ∧ WC_SUBLIST_TYPE sublist_code = WC_SUBLIST_END then do
    let ispipe : Bool := WC_SUBLIST_FLAGS sublist_code &&& WC_SUBLIST_SIMPLE = 0
    let used ← ecused
    patch p (WCB_LIST (z ||| Z_SIMPLE) (ofn (used - (2 + p))))
    call (.ecdel (p + 1))
    when ispipe do
      let w ← word (p + 1)
      patch (p + 1) (WC_PIPE_LINENO w)
  else patch p (WCB_LIST z 0)

def set_sublist_code (p : Nat) (type flags skip : wordcode) (cmplx : Bool) : ParseM Unit := do
  if cmplx then patch p (WCB_SUBLIST type flags skip)
  else do
    patch p (WCB_SUBLIST type (flags ||| WC_SUBLIST_SIMPLE) skip)
    let w ← word (p + 1)
    patch (p + 1) (WC_PIPE_LINENO w)

section Productions

variable (env : Env) (n : Nat) (r : Rec)

def par_wordlist_wordcode : ParseM Nat :=
  iterate n (fun num => do
    if (← tok) = .string then do
      ecstr env (← tokstr)
      zshlex env
      pure (.inl (num + 1))
    else pure (.inr num)) 0

def par_nl_wordlist_wordcode : ParseM Nat :=
  iterate n (fun num => do
    let t ← tok
    if t = .string then do
      ecstr env (← tokstr)
      zshlex env
      pure (.inl (num + 1))
    else if t = .seper ∨ t = .newlin then do
      zshlex env
      pure (.inl num)
    else pure (.inr num)) 0

def is_readfd (t : wordcode) : Bool :=
  t = REDIR_READ ∨ t = REDIR_READWRITE ∨ t = REDIR_MERGEIN ∨ t = REDIR_HEREDOC ∨
    t = REDIR_HEREDOCDASH ∨ t = REDIR_HERESTR

/-- A redirection from or to a process, by the first characters of the name. `none` is an error. -/
def procRedir (type : wordcode) (name : Str) : Option wordcode :=
  let out : Bool := [OutangProc, Inpar] <+: name
  let inn : Bool := [Inang, Inpar] <+: name
  if type = 0 ∨ type = 1 then (if out then some 17 else if inn then none else some type)
  else if type = REDIR_READ then (if inn then some 16 else if out then none else some type)
  else if type = REDIR_READWRITE then
    (if inn then some 16 else if out then some 17 else some type)
  else some type

def ecstrcode? (s : Option Str) : ParseM (Option wordcode) :=
  match s with
  | some s => do
    let c ← ecstrcode env s
    pure (some c)
  | none => pure none

/-- The here-document branch of `par_redir_wordcode`. -/
def par_heredoc (rp : Nat) (type fd1 : wordcode) (idstring : Option Str) (name : Str) :
    ParseM (Nat × Nat) := do
  if '\n' ∈ name then do
    let used ← ecused
    YYERROR used (0, rp)
  else do
    let id ← ecstrcode? env idstring
    let used ← ecused
    if rp ≤ used then do
      call (.heredoc rp type fd1 id name)
      zshlex env
      pure (ncodes id, rp + ncodes id)
    else stop

/-- The number of the words that were put in at `rp`, and the place behind them. -/
def par_redir_wordcode (rp : Nat) (idstring : Option Str) : ParseM (Nat × Nat) := do
  match redirType (← tok) with
  | none => pure (0, rp)
  | some type => do
    let fd1 ← get St.tokfd
    zshlex env
    let t ← tok
    if t ≠ .string ∧ t ≠ .envstring then do
      set_tok .lexerr
      pure (0, rp)
    else do
      let readwrite_on_stdout : Bool := type = REDIR_READWRITE ∧ env.ksh93_mode
      let fd1 := fd1.getD (if is_readfd type ∧ !readwrite_on_stdout then 0 else 1)
      let name ← tokstr
      if type = REDIR_HEREDOC ∨ type = REDIR_HEREDOCDASH then par_heredoc env rp type fd1 idstring name
      else
        match procRedir type name with
        | none => do
          let used ← ecused
          YYERROR used (0, rp)
        | some type => do
          zshlex env
          let type := if idstring.isSome then type ||| REDIR_VARID_MASK else type
          let ncodes := if idstring.isSome then 4 else 3
          ecispace rp ncodes
          let name ← ecstrcode env name
          patch rp (WCB_REDIR type)
          patch (rp + 1) fd1
          patch (rp + 2) name
          match ← ecstrcode? env idstring with
          | some id => do
            patch (rp + 3) id
            pure (ncodes, rp + ncodes)
          | none => pure (ncodes, rp + ncodes)

section Conditions

def IS_DASH (x : Char) : Bool := x = '-' || x = Dash

def dashed (a : Str) : Bool :=
  match a with
  | c :: _ :: _ => IS_DASH c
  | _ => false

def COND_SEP : ParseM Bool := do
  let t ← tok
  let isnewlin ← get St.isnewlin
  pure (t = .newlin || (t = .seper && isnewlin))

/-- `while COND_SEP() { condlex() }` -/
def skipSep : ParseM Unit :=
  iterate n (fun _ => do
    if ← COND_SEP then do
      zshlex env
      pure (.inl ())
    else pure (.inr ())) ()

/-- `COND_ERROR`, and the `YYERROR(ecused)` of a condition. -/
def condError : ParseM Unit := do
  let used ← ecused
  YYERROR used ()

def unary_set : List Char :=
  ['a', 'b', 'c', 'd', 'e', 'f', 'g', 'k', 'n', 'o', 'p', 'r', 's', 't', 'u', 'v', 'w', 'x', 'z', 'h',
    'L', 'O', 'N', 'G', 'S']

def par_cond_double (a b : Str) : ParseM Unit := do
  if !dashed a then condError
  else
    match a with
    | [_, op] =>
      if op ∈ unary_set then do
        call (.ecadd (WCB_COND (ofn op.toNat) 0))
        ecstr env b
      else do
        call (.ecadd (WCB_COND 18 1))
        ecstr env a
        ecstr env b
    | _ => do
      call (.ecadd (WCB_COND 18 1))
      ecstr env a
      ecstr env b

def condstrs : List Str :=
  [['n', 't'], ['o', 't'], ['e', 'f'], ['e', 'q'], ['n', 'e'], ['l', 't'], ['g', 't'], ['l', 'e'],
    ['g', 'e']]

def get_cond_num (tst : Str) : Option Nat := condstrs.findIdx? (· = tst)

/-- The string operators, whose conditions have a pattern. -/
def patternOp (b : Str) : Option wordcode :=
  let is_eq (ch : Char) : Bool := ch = '=' || ch = Equals
  let is_gt (ch : Char) : Bool := (env.plain_order && ch = '>') || ch = Outang
  let is_lt (ch : Char) : Bool := (env.plain_order && ch = '<') || ch = Inang
  let is_bang (ch : Char) : Bool := ch = '!' || ch = Bang
  match b with
  | [x] =>
    if is_eq x then some 3
    else if is_gt x || is_lt x then some (if env.plain_order && is_lt x then 6 else 7)
    else none
  | [x, y] => if is_eq x && is_eq y then some 4 else if is_bang x && is_eq y then some 5 else none
  | _ => none

def regexOp (b : Str) : Bool :=
  match b with
  | [x, y] => (x = '=' || x = Equals) && (y = '~' || y = Tilde)
  | _ => false

/-- `ecadd(ecnpats++)` -/
def ecnpat : ParseM Unit := do
  let np ← get St.ecnpats
  modify fun s => { s with ecnpats := np + 1 }
  call (.ecadd (ofn np))

def par_cond_triple (a b c : Str) : ParseM Unit := do
  match patternOp env b with
  | some op => do
    call (.ecadd (WCB_COND op 0))
    ecstr env a
    ecstr env c
    ecnpat
  | none =>
    if regexOp b then
      if env.pdksh_family then condError
      else do
        call (.ecadd (WCB_COND 17 0))
        ecstr env a
        ecstr env c
    else if b.head?.any IS_DASH then
      match get_cond_num b.tail with
      | some t => do
        call (.ecadd (WCB_COND (ofn (t + 8)) 0))
        ecstr env a
        ecstr env c
      | none => do
        call (.ecadd (WCB_COND 19 0))
        ecstr env b
        ecstr env a
        ecstr env c
    else if dashed a then do
      call (.ecadd (WCB_COND 18 2))
      ecstr env a
      ecstr env b
      ecstr env c
    else condError

def ecstrs : List Str → ParseM Unit
  | [] => pure ()
  | s :: l => do
    ecstr env s
    ecstrs l

def par_cond_multi (a : Str) (l : List Str) : ParseM Unit := do
  if !dashed a then condError
  else do
    call (.ecadd (WCB_COND 18 (ofn l.length)))
    ecstr env a
    ecstrs env l

/-- The operands behind the third one. -/
def operands (l : List Str) : ParseM (List Str) :=
  iterate n (fun l => do
    if (← tok) = .string then do
      let s ← tokstr
      zshlex env
      skipSep env n
      pure (.inl (l ++ [s]))
    else pure (.inr l)) l

/-- A one-letter test. -/
def dble (s1 : Str) : Bool :=
  match s1 with
  | [d, c] => IS_DASH d && (c ∈ unary_set)
  | _ => false

def minus_n : Str := ['-', 'n']

/-- `par_cond_2` from its first operand on. -/
def par_cond_operands : ParseM Unit := do
  let s1 ← tokstr
  let t ← tok
  if t ≠ .string then
    if s1 ≠ [] ∧ t ≠ .lexerr ∧ !dble s1 then do
      zshlex env
      skipSep env n
      par_cond_double env minus_n s1
    else condError
  else do
    zshlex env
    skipSep env n
    let xtok ← tok
    if xtok = .inang ∨ xtok = .outang then do
      zshlex env
      skipSep env n
      if (← tok) ≠ .string then condError
      else do
        let s3 ← tokstr
        zshlex env
        skipSep env n
        call (.ecadd (WCB_COND (if xtok = .inang then 6 else 7) 0))
        ecstr env s1
        ecstr env s3
    else if xtok ≠ .string then
      if xtok ≠ .lexerr then
        if !dble s1 then par_cond_double env minus_n s1 else par_cond_multi env s1 []
      else condError
    else do
      let s2 ← tokstr
      zshlex env
      skipSep env n
      let dble : Bool := s2.head?.any IS_DASH ∧ s2.length = 2
      if (← tok) = .string ∧ !dble then do
        let s3 ← tokstr
        zshlex env
        skipSep env n
        if (← tok) = .string then do
          let l ← operands env n [s2, s3]
          par_cond_multi env s1 l
        else par_cond_triple env s1 s2 s3
      else par_cond_double env s1 s2

def par_cond_2 : ParseM Unit := do
  skipSep env n
  let t ← tok
  if t = .bang then do
    zshlex env
    call (.ecadd (WCB_COND 0 0))
    r.par_cond_2
  else if t = .inpar then do
    zshlex env
    skipSep env n
    r.par_cond_top
    skipSep env n
    if (← tok) ≠ .outpar then condError else zshlex env
  else par_cond_operands env n

/-- `&&` and `||` put the word of the connective in front of their first part. -/
def par_cond_chain (part : ParseM Unit) (op : lextok) (code : wordcode) (rest : ParseM Unit) :
    ParseM Unit := do
  let p ← ecused
  part
  skipSep env n
  when ((← tok) = op) do
    zshlex env
    skipSep env n
    ecispace p 1
    rest
    let used ← ecused
    patch p (WCB_COND code (ofn (used - 1 - p)))

def par_cond_1 : ParseM Unit := par_cond_chain env n r.par_cond_2 .damper 1 r.par_cond_1

def par_cond_top : ParseM Unit := par_cond_chain env n r.par_cond_1 .dbar 2 r.par_cond_top

def par_cond_wordcode : ParseM Unit := do
  let oecused ← ecused
  zshlex env
  r.par_cond_top
  if (← tok) ≠ .doutbrack then YYERROR oecused () else zshlex env

end Conditions

end Productions

end Zshrs.Parse.Wordcode
