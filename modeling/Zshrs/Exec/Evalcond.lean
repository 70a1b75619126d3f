import Zshrs.Parse.Cond
import Zshrs.Parse.Ecstr
import Mathlib.Algebra.Group.Nat.Defs

namespace Zshrs.Exec.Cond

open Parse.Cond

inductive MNumber (F : Type)
  | integer (l : Int)
  | float (d : F)

structure Conddef where
  min : Nat
  /-- `none` is C's `-1`. -/
  max : Option Nat
  handler : List Str → Bool

/-- What the conditions are about: expansion, patterns, numbers, files, options and the modules'
conditions. -/
structure Tests (F : Type) where
  condSubst : Bool → Str → Str
  singsub : Str → Str
  untokenize : Str → Str
  patcompile : Str → Option (Str → Bool)
  zstrtol : Str → Int × Str
  matheval : Str → Option (MNumber F)
  ofInt : Int → F
  feq : F → F → Bool
  flt : F → F → Bool
  fle : F → F → Bool
  /-- `-o`, with its status 3, `-t`, and the tests of one file. -/
  letter : Char → Str → Nat
  /-- `-nt`, `-ot` and `-ef`. -/
  newer : Nat → Str → Str → Bool
  getconddef : Bool → Str → Option Conddef
  regexName : Str

variable {F : Type}

/-- The status of a truth value. -/
def nz (t : Bool) : Nat := if t then 0 else 1

def Conddef.takes (cd : Conddef) (l : Nat) : Bool := cd.min ≤ l && cd.max.all (l ≤ ·)

namespace Tests

variable (T : Tests F)

/-- An operand, expanded when its word has tokens. -/
def operand (fromtest : Bool) (s : Str) : Str :=
  if Parse.Ecstr.hasToken (Parse.Ecstr.cBytes s) then T.untokenize (T.condSubst (!fromtest) s) else s

def toFloat : MNumber F → F
  | .integer l => T.ofInt l
  | .float d => d

def compareInt (ctype : Nat) (l r : Int) : Bool :=
  if ctype = COND_EQ then l = r
  else if ctype = COND_NE then l ≠ r
  else if ctype = COND_LT then l < r
  else if ctype = COND_GT then l > r
  else if ctype = COND_LE then l ≤ r
  else l ≥ r

def compareFloat (ctype : Nat) (l r : F) : Bool :=
  if ctype = COND_EQ then T.feq l r
  else if ctype = COND_NE then !T.feq l r
  else if ctype = COND_LT then T.flt l r
  else if ctype = COND_GT then T.flt r l
  else if ctype = COND_LE then T.fle l r
  else T.fle r l

def compare (ctype : Nat) : MNumber F → MNumber F → Bool
  | .integer l, .integer r => compareInt ctype l r
  | l, r => T.compareFloat ctype (T.toFloat l) (T.toFloat r)

/-- `-eq` and its like: whole integers for `test`, arithmetic for `[[`. -/
def numeric (fromtest : Bool) (ctype : Nat) (left right : Str) : Nat :=
  if fromtest then
    let (l1, eptr) := T.zstrtol left
    if eptr ≠ [] then 2
    else
      let (l2, eptr) := T.zstrtol right
      if eptr ≠ [] then 2 else nz (T.compare ctype (.integer l1) (.integer l2))
  else
    nz (T.compare ctype ((T.matheval left).getD (.integer 0)) ((T.matheval right).getD (.integer 0)))

/-- A module's condition. `overridename` is the regex one, which has no second chance. -/
def module (infix' : Bool) (overridename : Bool) (name : Str) (strs : List Str) : Nat :=
  let l := strs.length
  let byName :=
    if name.head?.any IS_DASH then T.getconddef infix' name.tail else none
  match byName with
  | some cd => if !infix' && !cd.takes l then 2 else nz (cd.handler strs)
  | none =>
      if overridename then 2
      else
        match strs with
        | [] => 2
        | s :: rest =>
            if s.head?.any IS_DASH then
              match T.getconddef false s.tail with
              | some cd => if !cd.takes l then 2 else nz (cd.handler (name :: rest))
              | none => 2
            else 2

/-- The operators that have a pattern on the right. -/
def pattern (ctype : Nat) (left opat : Str) : Nat :=
  match T.patcompile (T.singsub opat) with
  | none => 2
  | some pattry => nz (if ctype = COND_STRNEQ then !pattry left else pattry left)

/-- The other binary operators. -/
def binary (fromtest : Bool) (ctype : Nat) (left right : Str) : Nat :=
  if COND_EQ ≤ ctype then T.numeric fromtest ctype left right
  else if ctype = COND_STRLT then nz (left < right)
  else if ctype = COND_STRGTR then nz (left > right)
  else nz (T.newer ctype left right)

def unary (op : Char) (left : Str) : Nat :=
  if op = 'n' then nz (!left.isEmpty)
  else if op = 'z' then nz left.isEmpty
  else T.letter op left

end Tests

/-- `state.prog` read at `pc`. -/
def header (prog : List Word) (pc : Nat) : Option (Nat × Nat) :=
  match prog[pc]? with
  | some (.cond type skip) => some (type, skip)
  | some (.npat n) => some (n / 2 ^ 5 % 2 ^ 7, n / 2 ^ 12)
  | _ => none

def ecgetstr (prog : List Word) (pc : Nat) : Option Str :=
  match prog[pc]? with
  | some (.str s) => some s
  | some _ => none
  | none => some []

def ecgetarr (prog : List Word) (pc : Nat) : Nat → Option (List Str)
  | 0 => some []
  | num + 1 => do
      let s ← ecgetstr prog pc
      let l ← ecgetarr prog (pc + 1) num
      some (s :: l)

/-- A status with the `pc` it leaves. `reads` has, for each operator evaluated, where its words began
and where the reading stopped. -/
structure Outcome where
  status : Nat
  pc : Nat
  reads : List (Nat × Nat)
  deriving DecidableEq

section

variable (T : Tests F) (fromtest : Bool) (prog : List Word)

/-- The conditions of the modules and the regex operator, from `pc` after the header. -/
def evalModule (ctype l pc : Nat) : Option (Nat × Nat) :=
  if ctype = COND_REGEX then do
    let s0 ← ecgetstr prog pc
    let s1 ← ecgetstr prog (pc + 1)
    some (T.module true true T.regexName [s0, s1], pc + 2)
  else do
    let name ← ecgetstr prog pc
    if ctype = COND_MOD then
      let strs ← ecgetarr prog (pc + 1) l
      some (T.module false false name strs, pc + 1 + l)
    else
      let s0 ← ecgetstr prog (pc + 1)
      let s1 ← ecgetstr prog (pc + 2)
      some (T.module true false name [s0, s1], pc + 3)

def evalTest (ctype pc : Nat) : Option (Nat × Nat) := do
  let left ← ecgetstr prog pc
  let left := T.operand fromtest left
  if ctype = COND_STREQ ∨ ctype = COND_STRDEQ ∨ ctype = COND_STRNEQ then
    -- the pattern is read raw, and skipped with its slot unless it is bad
    let opat ← ecgetstr prog (pc + 1)
    some (T.pattern ctype left opat, if (T.patcompile (T.singsub opat)).isNone then pc + 1 else pc + 3)
  else if ctype ≤ COND_GE then
    let right ← ecgetstr prog (pc + 1)
    some (T.binary fromtest ctype left (T.operand fromtest right), pc + 2)
  else some (T.unary (Char.ofNat ctype) left, pc + 1)

/-- `evalcond` from `pcode`. `none` is a read of a word that is not of the kind wanted, or no fuel. -/
def evalcond : Nat → Nat → Option Outcome
  | 0, _ => none
  | fuel + 1, pcode => do
      let (ctype, skip) ← header prog pcode
      if ctype = COND_NOT then
        let o ← evalcond fuel (pcode + 1)
        some { o with status := if o.status = 0 then 1 else if o.status = 1 then 0 else o.status }
      else if ctype = COND_AND then
        let o ← evalcond fuel (pcode + 1)
        if o.status = 0 then
          let o' ← evalcond fuel o.pc
          some { o' with reads := o.reads ++ o'.reads }
        else some { o with pc := pcode + (skip + 1) }
      else if ctype = COND_OR then
        let o ← evalcond fuel (pcode + 1)
        if o.status = 1 ∨ o.status = 3 then
          let o' ← evalcond fuel o.pc
          some { o' with reads := o.reads ++ o'.reads }
        else some { o with pc := pcode + (skip + 1) }
      else do
        let (status, pc) ←
          if ctype = COND_REGEX ∨ ctype = COND_MOD ∨ ctype = COND_MODI then
            evalModule T prog ctype skip (pcode + 1)
          else evalTest T fromtest prog ctype (pcode + 1)
        some ⟨status, pc, [(pcode, pc)]⟩

end

end Zshrs.Exec.Cond
