import Zshrs.Zle.LineString
import Mathlib.Data.Nat.Digits.Defs

namespace Zshrs.Zle

def CH_NEXT : Nat := 1
def CH_PREV : Nat := 2

/-- A change of the line. The history line it belongs to is not read by what follows. -/
structure Change where
  flags : Nat
  off : Int
  del : Line
  dell : Int
  ins : Line
  insl : Int
  old_cs : Int
  new_cs : Int
  changeno : Int
  deriving DecidableEq

/-- The line editor's line, its snapshot and its history. -/
structure Editor where
  zleline : Line
  zlell : Nat
  zlecs : Nat
  lastline : Line
  lastll : Nat
  lastcs : Nat
  undo_stack : List Change
  curchange : Nat
  undo_changeno : Nat
  undo_limitno : Nat
  vistartchange : Nat
  deriving DecidableEq

def as_i64 (n : Int) : Int := n.bmod (2 ^ 64)

/-- A cast to `usize` or `u64`. -/
def as_usize (n : Int) : Nat := (n % 2 ^ 64).toNat

def u64_MAX : Nat := 2 ^ 64 - 1

/-- The value of decimal digits, when it is at most the bound. -/
def digits_value (digits : List Char) (bound : Nat) : Option Nat :=
  if digits = [] ∨ ¬ digits.all Char.isDigit then none
  else
    let n := Nat.ofDigitChars 10 digits 0
    if n ≤ bound then some n else none

/-- `str::parse::<i64>`. -/
def parse_i64 (s : List Char) : Option Int :=
  match s with
  | '-' :: digits => (digits_value digits (2 ^ 63)).map fun n => -n
  | '+' :: digits => (digits_value digits (2 ^ 63 - 1)).map fun n => n
  | digits => (digits_value digits (2 ^ 63 - 1)).map fun n => n

def setlastline (s : Editor) : Editor :=
  { s with lastline := s.zleline, lastll := s.zlell, lastcs := s.zlecs }

def initundo (s : Editor) : Editor :=
  setlastline { s with undo_stack := [], curchange := 0, undo_changeno := 0, undo_limitno := 0 }

/-- How far two lines agree: the scan for the prefix and, read backwards, for the suffix. -/
def agree : Line → Line → Nat
  | c :: zle, d :: last => if c = d then agree zle last + 1 else 0
  | _, _ => 0

/-- The change from one line to another. -/
def new_change (last zle : Line) (old_cs new_cs changeno : Nat) : Change :=
  let pre := agree zle last
  let suf := agree (zle.drop pre).reverse (last.drop pre).reverse
  let del := if suf + pre = last.length then [] else (last.take (last.length - suf)).drop pre
  let ins := if suf + pre = zle.length then [] else (zle.take (zle.length - suf)).drop pre
  { flags := 0
    off := as_i32 pre
    del
    dell := as_i32 del.length
    ins
    insl := as_i32 ins.length
    old_cs := as_i32 old_cs
    new_cs := as_i32 new_cs
    changeno := as_i64 changeno }

def mkundoent (s : Editor) : Editor :=
  let zle := s.zleline.take s.zlell
  let last := s.lastline.take s.lastll
  if last = zle then { s with lastcs := s.zlecs }
  else
    let undo_changeno := (s.undo_changeno + 1) % 2 ^ 64
    let ch := new_change last zle s.lastcs s.zlecs undo_changeno
    let undo_stack := s.undo_stack.take s.curchange ++ [ch]
    { s with undo_changeno, undo_stack, curchange := undo_stack.length }

def handleundo (s : Editor) : Editor := setlastline (mkundoent s)

/-- The insertion loop of `unapplychange` and `applychange`. -/
def insert_loop (off : Nat) : Nat → Line → Line → Line
  | _, [], line => line
  | i, c :: text, line =>
      insert_loop off (i + 1) text
        (if off + i ≤ line.length then line.insertIdx (off + i) c else line ++ [c])

/-- Both delete at an offset and insert there. -/
def swap_in (line : Line) (off n : Nat) (text : Line) : Line :=
  insert_loop off 0 text (if off + n ≤ line.length then line.take off ++ line.drop (off + n) else line)

/-- What `unapplychange` makes of the line. -/
def Change.back (change : Change) (line : Line) : Line :=
  swap_in line (as_usize change.off) (as_usize change.insl) change.del

/-- What `applychange` makes of the line. -/
def Change.act (change : Change) (line : Line) : Line :=
  swap_in line (as_usize change.off) (as_usize change.dell) change.ins

def unapplychange (s : Editor) (ch : Int) : Editor × Nat :=
  match s.undo_stack[as_usize ch]? with
  | none => (s, 0)
  | some change =>
    let zleline := change.back s.zleline
    ({ s with zleline, zlecs := as_usize change.old_cs, zlell := zleline.length }, 1)

def applychange (s : Editor) (ch : Int) : Editor × Nat :=
  match s.undo_stack[as_usize ch]? with
  | none => (s, 0)
  | some change =>
    let zleline := change.act s.zleline
    ({ s with zleline, zlecs := as_usize change.new_cs, zlell := zleline.length }, 1)

/-- The loop of `undo`, with what follows it. -/
def undo_loop (last_change : Int) (args_empty : Bool) : Nat → Editor → Editor × Nat
  | 0, s => (s, 1)
  | fuel + 1, s =>
    if s.curchange = 0 then (s, 1)
    else
      let prev_idx := s.curchange - 1
      match s.undo_stack[prev_idx]? with
      -- out of range, which panics
      | none => (s, 1)
      | some prev =>
        if prev.changeno ≤ last_change then (setlastline s, 0)
        else if as_usize prev.changeno ≤ s.undo_limitno ∧ args_empty then (s, 1)
        else
          let (t, applied) := unapplychange s (as_i32 prev_idx)
          let t :=
            if applied = 0 then
              if 0 ≤ last_change then { (unapplychange t (as_i32 prev_idx)).1 with curchange := prev_idx }
              else t
            else { t with curchange := prev_idx }
          if 0 ≤ last_change ∨ prev.flags &&& CH_PREV ≠ 0 then undo_loop last_change args_empty fuel t
          else (setlastline t, 0)

/-- The change number that the arguments ask for. -/
def last_change (args : List (List Char)) : Int :=
  match args with
  | [] => -1
  | arg :: _ => (parse_i64 arg).getD (-1)

def undo (args : List (List Char)) (s : Editor) : Editor × Nat :=
  let s := handleundo s
  undo_loop (last_change args) args.isEmpty (s.curchange + 1) s

/-- The loop of `redo`, with what follows it. -/
def redo_loop : Nat → Editor → Editor × Nat
  | 0, s => (s, 1)
  | fuel + 1, s =>
    let cur_idx := s.curchange
    match s.undo_stack[cur_idx]? with
    | none => (s, 1)
    | some change =>
      let (t, applied) := applychange s (as_i32 cur_idx)
      if applied = 0 then (setlastline t, 0)
      else
        let t := { t with curchange := cur_idx + 1 }
        if change.flags &&& CH_NEXT ≠ 0 then redo_loop fuel t else (setlastline t, 0)

def redo (s : Editor) : Editor × Nat :=
  let s := handleundo s
  redo_loop (s.undo_stack.length + 1) s

/-- The loop of `viundochange`, once for each change that is left. -/
def reapply : Nat → Editor → Editor
  | 0, s => s
  | n + 1, s =>
    let idx := s.curchange
    reapply n { (applychange s (as_i32 idx)).1 with curchange := idx + 1 }

def viundochange (args : List (List Char)) (s : Editor) : Editor × Nat :=
  let s := handleundo s
  if s.curchange < s.undo_stack.length then
    (setlastline (reapply (s.undo_stack.length - s.curchange) s), 0)
  else undo args s

def Change.flag (f : Nat) (change : Change) : Change := { change with flags := change.flags ||| f }

/-- The loop of `mergeundo`. -/
def merge_loop (vistartchange : Nat) : Nat → List Change → List Change
  | 0, stack => stack
  | current + 1, stack =>
    match stack[current + 1]? with
    -- out of range, which panics
    | none => stack
    | some change =>
      if as_i64 (as_i64 vistartchange + 1) < change.changeno then
        merge_loop vistartchange current
          ((stack.modify (current + 1) (Change.flag CH_PREV)).modify current (Change.flag CH_NEXT))
      else stack

def mergeundo (s : Editor) : Editor :=
  if s.curchange = 0 then s
  else
    { s with
      undo_stack := merge_loop s.vistartchange (s.curchange - 1) s.undo_stack
      vistartchange := u64_MAX }

def splitundo (s : Editor) : Editor :=
  if s.vistartchange ≠ u64_MAX then
    let s := mergeundo s
    handleundo { s with vistartchange := s.undo_changeno }
  else handleundo s

/-- What `startvitext` and `vichange` latch. -/
def startvitext (s : Editor) : Editor := { s with vistartchange := s.undo_changeno }

def set_undo_limit_change (value : Int) (s : Editor) : Editor :=
  { s with undo_limitno := as_usize (min (max value 0) (as_i64 s.undo_changeno)) }

end Zshrs.Zle
