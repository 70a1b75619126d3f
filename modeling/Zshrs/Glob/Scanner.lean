import Zshrs.Glob.Tree

namespace Zshrs.Glob.Scan

def BASH_STAR_DIR_SELF : Nat := 3

/-- A compiled path component: a pure literal, or the names that the pattern matches. -/
inductive Pat
  | literal (s : Bytes)
  | pattern (pattry : Bytes → Bool)

/-- A `complist` is a list of these. `closure` is 1 for `**/` and `(dir/)#` and 2 for `(dir/)##`. -/
structure Comp where
  pat : Pat
  closure : Nat
  follow : Bool

structure Dirsav where
  ino : Nat
  dev : Nat
  dirname : Option Bytes
  dirfd : Int
  level : Int
  deriving DecidableEq

def init_dirsav : Dirsav := ⟨0, 0, none, -1, -1⟩

structure State where
  found : List Bytes
  matchct : Int
  pathbuf : Bytes
  pathpos : Nat
  pathbufcwd : Nat
  cwd : Loc
  fanned : Bool
  errflag : Bool
  errors : List String
  deriving DecidableEq

/-- The atomics of the process that a qualifier's numbers are put into before its test runs. -/
structure Cells where
  g_range : Int
  g_amc : Int
  g_units : Int
  deriving DecidableEq

/-- A qualifier: its test with the sense it is taken in, of a path text from a directory, and its own
numbers. -/
structure Qual where
  func : Cells → Loc → Bytes → Bool
  cells : Cells

/-- Numbers that the qualifiers of a pattern can leave in the cells when several workers test at once. -/
def Left (quals : List (List Qual)) (c : Cells) : Prop :=
  ∃ a ∈ quals.flatten, ∃ b ∈ quals.flatten, ∃ d ∈ quals.flatten,
    c = ⟨a.cells.g_range, b.cells.g_amc, d.cells.g_units⟩

/-- What a scan finds around it: the files, the qualifiers (the chains of their arena; those that run
shell code apart), what a worker's test finds in the cells, whether a match is looked at for its type
mark, the `sh` modes, and how a directory too deep for its path text is entered and left. -/
structure Env extends Files where
  quals : Option (List (List Qual))
  race : State → Bytes → Qual → Cells
  left : ∀ alts, quals = some alts → ∀ st s, ∀ qn ∈ alts.flatten, Left alts (race st s qn)
  marks : Bool
  sh : Bool
  lchdir : Loc → Bytes → Dirsav → Int × Loc × Dirsav
  restoredir : Loc → Dirsav → Int × Loc

def is_dir (md : Option Metadata) : Bool := md.any Metadata.is_dir

/-- The names that the `sh` modes put before a directory's own. -/
def Env.dots (env : Env) : List Bytes := if env.sh then [[46], [46, 46]] else []

/-- `Path::join`. -/
def join (p l : Bytes) : Bytes :=
  if l.head? = some 47 then l
  else if p = [] ∨ p.getLast? = some 47 then p ++ l
  else p ++ [47] ++ l

/-- The walk over the arena: one chain all of whose tests pass. -/
def check_qualifiers (cells : Qual → Cells) (cwd : Loc) (s : Bytes) (quals : List (List Qual)) : Bool :=
  quals.any (·.all fun qn => qn.func (cells qn) cwd s)

/-- Whether `insert` takes a path, from what its tests find in the cells. -/
def accepts (env : Env) (cells : Qual → Cells) (cwd : Loc) (s : Bytes) (checked : Bool) : Bool :=
  let there := (env.symlink_metadata cwd s).isSome
  (!env.marks || there) &&
    match env.quals with
    | none => env.marks || checked || there
    | some quals => there && check_qualifiers cells cwd s quals

/-- A test finds its own numbers in the cells, except in a worker of the pool, where the others put
theirs. -/
def insert (env : Env) (st : State) (s : Bytes) (checked : Bool) : State :=
  if accepts env (if st.fanned then env.race st s else Qual.cells) st.cwd s checked then
    { st with found := st.found ++ [s], matchct := st.matchct + 1 }
  else st

namespace State

def zerr (st : State) (msg : String) : State := { st with errflag := true, errors := st.errors ++ [msg] }

def enter (st : State) (name : Bytes) : State :=
  { st with pathbuf := addpath st.pathbuf name, pathpos := (addpath st.pathbuf name).length }

def leave (st : State) (oppos : Nat) : State :=
  { st with pathbuf := st.pathbuf.take oppos, pathpos := oppos }

def enough (st : State) (shortcircuit : Int) : Bool := shortcircuit != 0 && shortcircuit == st.matchct

end State

/-- The path text from the process's directory on. -/
def anchor (st : State) : Bytes := st.pathbuf.drop st.pathbufcwd

/-- The move into the directory of the path text, where a longer text would reach `PATH_MAX`. -/
def descendTo (env : Env) (st : State) (ds : Dirsav) : Bool × State × Dirsav :=
  let (err, cwd, ds) := env.lchdir st.cwd (anchor st) ds
  let st := { st with cwd := cwd }
  if err = -1 then (false, st, ds)
  else if err ≠ 0 then (false, st.zerr "current directory lost during glob", ds)
  else (true, { st with pathbufcwd := st.pathpos }, ds)

/-- A literal directory is added by a closure only where it does not stay, or leave the root. -/
def adds (env : Env) (cwd : Loc) (closure : Nat) (pathbuf str_lit : Bytes) : Bool :=
  if closure ≠ 0 ∧ pathbuf ≠ [] then
    if str_lit = [46] then false
    else if str_lit = [46, 46] then
      match env.metadata cwd [47], env.metadata cwd pathbuf with
      | some r, some c => r.node != c.node
      | _, _ => true
    else true
  else true

/-- `.error` is the state of a function that returns at once. -/
abbrev Flow := Except State

/-- The directories of a level, one after the other. -/
def descend (scan : State → Option State) (shortcircuit : Int) (oppos : Nat) :
    List Bytes → State → Option (Flow State)
  | [], st => some (.ok st)
  | name :: rest, st =>
    match scan (st.enter name) with
    | none => none
    | some st =>
      if st.enough shortcircuit then some (.error st)
      else descend scan shortcircuit oppos rest (st.leave oppos)

/-- The worker of a directory has a state of its own. -/
def child (shared : State) (name : Bytes) : State :=
  { found := [], matchct := 0
    pathbuf := addpath shared.pathbuf name, pathpos := (addpath shared.pathbuf name).length
    pathbufcwd := shared.pathbufcwd, cwd := shared.cwd, fanned := true
    errflag := shared.errflag, errors := [] }

/-- What is taken from a worker when all are done. -/
def extend (st done : State) : State :=
  { st with
    found := st.found ++ done.found, matchct := st.matchct + done.matchct
    errflag := st.errflag || done.errflag, errors := st.errors ++ done.errors }

/-- The directories of a level over the pool. `shared` is the state that all workers see. -/
def fanOut (scan : State → Option State) (shared : State) : List Bytes → State → Option State
  | [], st => some st
  | name :: rest, st =>
    match scan (child shared name) with
    | none => none
    | some done => fanOut scan shared rest (extend st done)

/-- The node that a closure asks about, behind a link only where it follows them. -/
def probe (env : Env) (cwd : Loc) (q : Comp) (text : Bytes) : Option Metadata :=
  if q.follow then env.metadata cwd text else env.symlink_metadata cwd text

/-- The loop over the entries of a directory, with the directories to descend into. -/
def scanEntries (env : Env) (q : Comp) (pattry : Bytes → Bool) (base : Bytes) (dirs : Bool)
    (pbcwdsav : Nat) (shortcircuit : Int) :
    List Bytes → State → Dirsav → List Bytes → Flow (State × Dirsav × List Bytes)
  | [], st, ds, subdirs => .ok (st, ds, subdirs)
  | name :: rest, st, ds, subdirs =>
    if st.errflag then .ok (st, ds, subdirs)
    else if !pattry name then
      scanEntries env q pattry base dirs pbcwdsav shortcircuit rest st ds subdirs
    else
      let (there, st, ds) :=
        if pbcwdsav = st.pathbufcwd ∧ PATH_MAX ≤ name.length + st.pathpos - st.pathbufcwd then
          descendTo env st ds
        else (true, st, ds)
      if !there then .ok (st, ds, subdirs)
      else if dirs then
        if q.closure ≠ 0 ∧ !is_dir (probe env st.cwd q (join base name)) then
          scanEntries env q pattry base dirs pbcwdsav shortcircuit rest st ds subdirs
        else
          scanEntries env q pattry base dirs pbcwdsav shortcircuit rest st ds (subdirs ++ [name])
      else
        let st := insert env st (join base name) true
        if st.enough shortcircuit then .error st
        else scanEntries env q pattry base dirs pbcwdsav shortcircuit rest st ds subdirs

/-- A literal component. -/
def scanLiteral (env : Env) (scan : List Comp → Bool → State → Option State) (q : Comp)
    (next : List Comp) (str_lit : Bytes) (shortcircuit : Int) (st : State) (ds : Dirsav) :
    Option (Flow (State × Dirsav)) :=
  let l := str_lit.length
  let (there, st, ds) :=
    if PATH_MAX ≤ l + (if l = 0 then 1 else 0) + st.pathpos - st.pathbufcwd then
      if PATH_MAX ≤ l then (false, st, ds) else descendTo env st ds
    else (true, st, ds)
  if !there then some (.error st)
  else if next = [] then
    let st := insert env st (join st.pathbuf str_lit) false
    some (if st.enough shortcircuit then .error st else .ok (st, ds))
  else if st.errflag || !adds env st.cwd q.closure st.pathbuf str_lit then some (.ok (st, ds))
  else
    let oppos := st.pathpos
    let st := st.enter str_lit
    if q.closure = 0 ∨ is_dir (env.metadata st.cwd st.pathbuf) then
      match scan (if q.closure ≠ 0 then q :: next else next) (q.closure ≠ 0) st with
      | none => none
      | some st =>
        some (if st.enough shortcircuit then .error st else .ok (st.leave oppos, ds))
    else some (.ok (st.leave oppos, ds))

/-- A pattern component. `pool` says whether the directories below a text are fanned out: the
configuration allows it, no qualifier runs shell code, and there is a pool. -/
def scanPattern (env : Env) (pool : Bytes → Bool) (scan : List Comp → Bool → State → Option State)
    (q : Comp) (next : List Comp) (pattry : Bytes → Bool) (pbcwdsav : Nat) (shortcircuit : Int)
    (st : State) (ds : Dirsav) : Option (Flow (State × Dirsav)) :=
  let base := if anchor st = [] then [46] else anchor st
  match env.read_dir st.cwd base with
  | none => some (.error st)
  | some names =>
    match scanEntries env q pattry base (!next.isEmpty) pbcwdsav shortcircuit (env.dots ++ names)
      st ds [] with
    | .error st => some (.error st)
    | .ok (st, ds, subdirs) =>
      if q.closure ≠ 0 ∧ shortcircuit = 0 ∧ 2 ≤ subdirs.length ∧ pool st.pathbuf then
        (fanOut (scan (q :: next) true) st subdirs st).map fun st => .ok (st, ds)
      else
        let scan := scan (if q.closure ≠ 0 then q :: next else next) (q.closure ≠ 0)
        match descend scan shortcircuit st.pathpos subdirs st with
        | none => none
        | some (.error st) => some (.error st)
        | some (.ok st) => some (.ok (st, ds))

/-- The first thing a closure tries is no directory at all. -/
def scanZero (scan : List Comp → Bool → State → Option State) (q : Comp) (next : List Comp)
    (shortcircuit : Int) (in_closure_repeat : Bool) (st : State) : Option (Flow State) :=
  if q.closure ≠ 0 ∧ ¬ (q.closure = 2 ∧ !in_closure_repeat) then
    match scan next false st with
    | none => none
    | some st => some (if st.enough shortcircuit then .error st else .ok st)
  else some (.ok st)

/-- The way back to the directory that the scan was entered in. -/
def restore (env : Env) (pbcwdsav : Nat) (st : State) (ds : Dirsav) : State :=
  if pbcwdsav < st.pathbufcwd then
    let (err, cwd) := env.restoredir st.cwd ds
    let st := { st with cwd := cwd }
    let st := if err ≠ 0 then st.zerr "current directory lost during glob" else st
    { st with pathbufcwd := pbcwdsav }
  else st

def scanner (env : Env) (pool : Bytes → Bool) (shortcircuit : Int) :
    Nat → List Comp → Bool → State → Option State
  | 0, _, _, _ => none
  | _ + 1, [], _, st => some st
  | n + 1, q :: next, in_closure_repeat, st =>
    if st.errflag then some st
    else
      let pbcwdsav := st.pathbufcwd
      let scan := scanner env pool shortcircuit n
      let st :=
        if q.closure = BASH_STAR_DIR_SELF ∧ !in_closure_repeat ∧ st.pathbuf ≠ [] then
          insert env st st.pathbuf false
        else st
      match scanZero scan q next shortcircuit in_closure_repeat st with
      | none => none
      | some (.error st) => some st
      | some (.ok st) =>
        let done :=
          match q.pat with
          | .literal str_lit => scanLiteral env scan q next str_lit shortcircuit st init_dirsav
          | .pattern pattry =>
            scanPattern env pool scan q next pattry pbcwdsav shortcircuit st init_dirsav
        match done with
        | none => none
        | some (.error st) => some st
        | some (.ok (st, ds)) => some (restore env pbcwdsav st ds)

end Zshrs.Glob.Scan
