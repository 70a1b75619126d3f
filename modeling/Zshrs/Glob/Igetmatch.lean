import Zshrs.Lib.Spans
import Zshrs.Pattern.Patmatch

namespace Zshrs.Glob.Igetmatch

open Pattern (Str Flags PAT_NOANCH)
open Lib (Span)

def SUB_END : Flags := 0x0001
def SUB_LONG : Flags := 0x0002
def SUB_SUBSTR : Flags := 0x0004
def SUB_MATCH : Flags := 0x0008
def SUB_REST : Flags := 0x0010
def SUB_ALL : Flags := 0x0100
def SUB_GLOBAL : Flags := 0x0200
def SUB_DOSUBST : Flags := 0x0400
def SUB_RETFAIL : Flags := 0x0800
def SUB_START : Flags := 0x1000
def SUB_LIST : Flags := 0x2000

def PAT_HEAPDUP : Flags := 0x0000
def PAT_SCAN : Flags := 0x0080

/-- What the substitution uses of the rest of the shell, whose state is a `σ`. A try that matches leaves its
text in `$match` and the like, where `singsub` finds it. -/
structure Shell (Patprog σ : Type) where
  patcompile : Str → Flags → Option Patprog
  pattry : Patprog → Str → Bool
  /-- A pattern with backreferences or match references. -/
  refs : Patprog → Bool
  matched : Patprog → Str → σ → σ
  singsub : Str → σ → Str × σ
  untokenize : Str → Str
  zerr : Str → σ → σ

variable {Patprog σ : Type} (sh : Shell Patprog σ)

section Tries

variable (prog : Option Patprog)

def pat_try (s : Str) (st : σ) : Bool × σ :=
  match prog with
  | none => (false, st)
  | some pp => if sh.pattry pp s then (true, sh.matched pp s st) else (false, st)

/-- `chars[start..end]`. -/
def slice (chars : Str) (start stop : Nat) : Str := (chars.take stop).drop start

/-- Tries of the texts at a row of positions: the first that matches, or the last where all are tried. -/
def probe (text : Nat → Str) (first : Bool) : List Nat → Option Nat → σ → Option Nat × σ
  | [], found, st => (found, st)
  | n :: ns, found, st =>
      match pat_try sh prog (text n) st with
      | (true, st) => if first then (some n, st) else probe text first ns (some n) st
      | (false, st) => probe text first ns found st

/-- The positions from `start + 1` to the end. -/
def ends (len start : Nat) : List Nat := List.range' (start + 1) (len - start)

/-- The walk for `SUB_LIST`. -/
def list_any (chars : Str) (shortest substr_mode : Bool) : List Nat → Bool → σ → Bool × σ
  | [], found, st => (found, st)
  | start :: starts, found, st =>
      match probe sh prog (slice chars start) shortest (ends chars.length start) none st with
      | (some _, st) => if !substr_mode then (true, st) else list_any chars shortest substr_mode starts true st
      | (none, st) => if !substr_mode then (found, st) else list_any chars shortest substr_mode starts found st

/-- A row of positions as it is searched: the first match is wanted, or the last. -/
def ordered (first : Bool) (ns : List Nat) : List Nat := if first then ns else ns.reverse

/-- The first match of the substring walk. -/
def first_from (chars : Str) (shortest : Bool) : List Nat → σ → Option (Nat × Nat) × σ
  | [], st => (none, st)
  | start :: starts, st =>
      match probe sh prog (slice chars start) true (ordered shortest (ends chars.length start)) none st with
      | (some stop, st) => (some (start, stop), st)
      | (none, st) => first_from chars shortest starts st

end Tries

def resolve_repl (fl : Flags) (replstr : Option Str) (st : σ) : Option Str × σ :=
  match replstr with
  | none => (none, st)
  | some r =>
      if fl &&& SUB_DOSUBST ≠ 0 then (some (sh.untokenize (sh.singsub r st).1), (sh.singsub r st).2)
      else (some r, st)

/-- What the search for a match tries, up to the match. -/
theorem probe_some_mem {prog : Option Patprog} {text : Nat → Str} {first : Bool} {ns : List Nat}
    {found : Option Nat} {st : σ} {n : Nat} (h : (probe sh prog text first ns found st).1 = some n) :
    n ∈ ns ∨ found = some n := by
  induction ns generalizing found st with
  | nil => exact .inr h
  | cons m ns ih =>
      rw [probe] at h
      split at h
      · split at h
        · cases h
          exact .inl List.mem_cons_self
        · obtain hmem | heq := ih h
          · exact .inl (List.mem_cons_of_mem m hmem)
          · cases heq
            exact .inl List.mem_cons_self
      · obtain hmem | heq := ih h
        · exact .inl (List.mem_cons_of_mem m hmem)
        · exact .inr heq

/-- The loop for `SUB_GLOBAL` from some place on, on what is left of the subject: what it writes, and whether
it replaced anything. -/
def replace_all (prog : Option Patprog) (fl : Flags) (replstr : Option Str) (rest : Str) (st : σ) :
    (Str × Bool) × σ :=
  match rest with
  | [] => (([], false), st)
  | c :: cs =>
      match _hfound : probe sh prog (slice (c :: cs) 0) (fl &&& SUB_LONG = 0) (ends (c :: cs).length 0) none st with
      | (some stop, st) =>
          let (r, st) := resolve_repl sh fl replstr st
          let ((out, _), st) := replace_all prog fl replstr ((c :: cs).drop stop) st
          ((r.getD [] ++ out, true), st)
      | (none, st) =>
          let ((out, any), st) := replace_all prog fl replstr cs st
          ((c :: out, any), st)
termination_by rest.length
decreasing_by
  · have hmem := (probe_some_mem sh (congrArg Prod.fst _hfound)).resolve_right (Option.some_ne_none _).symm
    rw [ends, List.mem_range'_1] at hmem
    rw [List.length_drop, List.length_cons]
    omega
  · exact Nat.lt_succ_self _

structure Outcome (σ : Type) where
  sp : Str
  status : Nat
  st : σ

section Igetmatch

/-- The last lines: the match is kept, or it gives way to the replacement. -/
def rewrite (fl : Flags) (replstr : Option Str) (chars : Str) (m : Nat × Nat) (st : σ) : Outcome σ :=
  if fl &&& SUB_MATCH ≠ 0 then ⟨slice chars m.1 m.2, 0, st⟩
  else ⟨chars.take m.1 ++ (resolve_repl sh fl replstr st).1.getD [] ++ chars.drop m.2, 0,
    (resolve_repl sh fl replstr st).2⟩

def no_match (fl : Flags) (chars : Str) (st : σ) : Outcome σ :=
  if fl &&& SUB_MATCH ≠ 0 then ⟨[], 0, st⟩ else ⟨chars, 1, st⟩

/-- The arm for `SUB_ALL`. -/
def match_all (prog : Option Patprog) (fl : Flags) (replstr : Option Str) (chars : Str) (st : σ) : Outcome σ :=
  match pat_try sh prog chars st with
  | (false, st) => no_match fl chars st
  | (true, st) =>
      let sp := (resolve_repl sh fl replstr st).1.getD chars
      ⟨sp, if sp = [] && fl &&& SUB_REST ≠ 0 then 0 else 1, (resolve_repl sh fl replstr st).2⟩

/-- The arm for an empty subject. -/
def match_empty (prog : Option Patprog) (fl : Flags) (replstr : Option Str) (st : σ) : Outcome σ :=
  match pat_try sh prog [] st with
  | (false, st) => ⟨[], 1, st⟩
  | (true, st) =>
      if fl &&& SUB_MATCH = 0 then
        ⟨(resolve_repl sh fl replstr st).1.getD [], 0, (resolve_repl sh fl replstr st).2⟩
      else ⟨[], 0, st⟩

/-- The match of the arms that make one match. -/
def one_match (prog : Option Patprog) (fl : Flags) (chars : Str) (st : σ) : Option (Nat × Nat) × σ :=
  let shortest := fl &&& SUB_LONG = 0
  let len := chars.length
  if fl &&& SUB_START ≠ 0 ∧ fl &&& SUB_END ≠ 0 then
    match pat_try sh prog chars st with
    | (true, st) => (some (0, len), st)
    | (false, st) => (none, st)
  else if fl &&& SUB_START ≠ 0 then
    match probe sh prog (fun stop => slice chars 0 stop) shortest (List.range (len + 1)) none st with
    | (found, st) => (found.map fun stop => (0, stop), st)
  else if fl &&& SUB_END ≠ 0 then
    match probe sh prog (fun start => slice chars start len) shortest (List.range (len + 1)).reverse none st with
    | (found, st) => (found.map fun start => (start, len), st)
  else first_from sh prog chars shortest (List.range len) st

def igetmatch (chars : Str) (p : Str) (fl : Flags) (replstr : Option Str) (st : σ) : Outcome σ :=
  let prog := sh.patcompile p PAT_HEAPDUP
  if fl &&& SUB_ALL ≠ 0 then match_all sh prog fl replstr chars st
  else if chars = [] then match_empty sh prog fl replstr st
  else if fl &&& SUB_LIST ≠ 0 then
    match list_any sh prog chars (fl &&& SUB_LONG = 0) (fl &&& SUB_SUBSTR ≠ 0) (List.range chars.length) false st with
    | (found, st) => ⟨chars, if found then 0 else 1, st⟩
  else if fl &&& SUB_GLOBAL ≠ 0 ∧ fl &&& SUB_START = 0 ∧ fl &&& SUB_END = 0 ∧
      fl &&& (SUB_MATCH ||| SUB_LIST) = 0 then
    match replace_all sh prog fl replstr chars st with
    | ((out, any), st) => if any then ⟨out, 0, st⟩ else ⟨chars, 1, st⟩
  else
    match one_match sh prog fl chars st with
    | (some m, st) => rewrite sh fl replstr chars m st
    | (none, st) => no_match fl chars st

/-- The flags and the replacement for `igetmatch`; `none` is a bad pattern. -/
def compgetmatch (pat : Str) (flp : Flags) (replstrp : Option Str) (st : σ) :
    Option (Patprog × Flags × Option Str) × σ :=
  let patflags := PAT_SCAN ||| PAT_NOANCH
  let patflags :=
    if flp &&& SUB_ALL ≠ 0 ∨ (flp &&& SUB_END ≠ 0 ∧ flp &&& SUB_SUBSTR = 0) then patflags &&& ~~~PAT_NOANCH
    else patflags
  match sh.patcompile pat patflags with
  | none => (none, sh.zerr ("bad pattern: ".toList ++ pat) st)
  | some p =>
      match replstrp with
      | none => (some (p, flp, none), st)
      | some r =>
          if sh.refs p then (some (p, flp ||| SUB_DOSUBST, some r), st)
          else (some (p, flp, some (sh.untokenize (sh.singsub r st).1)), (sh.singsub r st).2)

def getmatch (sp pat : Str) (fl : Flags) (replstr : Option Str) (st : σ) : Outcome σ :=
  match compgetmatch sh pat fl replstr st with
  | (none, st) => ⟨sp, 1, st⟩
  | (some (_, fl, replstr), st) =>
      let out := igetmatch sh sp pat fl replstr st
      if out.status = 0 then { out with status := 1 }
      else if fl &&& SUB_RETFAIL ≠ 0 then { out with status := 0 }
      else { out with status := 1 }

end Igetmatch

end Zshrs.Glob.Igetmatch
