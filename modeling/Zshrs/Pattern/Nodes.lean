import Zshrs.Lib.Bytes
import Zshrs.Pattern.Spelling

namespace Zshrs.Pattern

open Lib.Bytes (toLE ofLE)

def P_END : UInt8 := 0x00
def P_EXCSYNC : UInt8 := 0x01
def P_EXCEND : UInt8 := 0x02
def P_BACK : UInt8 := 0x03
def P_EXACTLY : UInt8 := 0x04
def P_NOTHING : UInt8 := 0x05
def P_ONEHASH : UInt8 := 0x06
def P_TWOHASH : UInt8 := 0x07
def P_GFLAGS : UInt8 := 0x08
def P_COUNT : UInt8 := 0x0c
def P_BRANCH : UInt8 := 0x20
def P_WBRANCH : UInt8 := 0x21
def P_EXCLUDE : UInt8 := 0x30
def P_EXCLUDP : UInt8 := 0x31
def P_ANY : UInt8 := 0x40
def P_ANYOF : UInt8 := 0x41
def P_ANYBUT : UInt8 := 0x42
def P_STAR : UInt8 := 0x43
def P_NUMRNG : UInt8 := 0x44
def P_NUMFROM : UInt8 := 0x45
def P_NUMTO : UInt8 := 0x46
def P_NUMANY : UInt8 := 0x47
def P_OPEN : UInt8 := 0x80
def P_CLOSE : UInt8 := 0x90

def P_ISBRANCH (op : UInt8) : Bool := op &&& 0x20 != 0

/-- The header of a node: its op, and in `I_NEXT` bytes behind the op the offset of the next node. -/
def I_NEXT : Nat := 1
def I_BODY : Nat := 5

/-- The `I_NEXT` slot of the node at `p`. -/
def nextOf (buf : Bytes) (p : Nat) : Nat := ofLE ((buf.drop (p + I_NEXT)).take 4)

def setNextOf (buf : Bytes) (p val : Nat) : Bytes :=
  buf.take (p + I_NEXT) ++ toLE 4 val ++ buf.drop (p + I_BODY)

/-- What comes behind the node at `pos`; 0 where the buffer ends. -/
def advance_past_instr (buf : Bytes) (pos : Nat) : Nat :=
  match buf[pos]? with
  | none => 0
  | some op =>
    let body := pos + I_BODY
    if buf.length < body then 0
    else if op = P_GFLAGS then body + 4
    else if op = P_EXACTLY || op = P_ANYOF || op = P_ANYBUT then
      if buf.length < body + 4 then 0 else body + 4 + ofLE ((buf.drop body).take 4)
    else if op = P_WBRANCH || op = P_EXCLUDE || op = P_EXCLUDP || op = P_NUMFROM || op = P_NUMTO then body + 8
    else if op = P_NUMRNG || op = P_COUNT then body + 16
    else body

/-- The walk over a buffer from one node to the next, in which the links that have moved get `delta` added.
A zero is taken for a byte between two nodes. -/
def shiftLinks (moved : Nat → Bool) (delta : Nat) : Nat → Nat → Bytes → Bytes
  | 0, _, buf => buf
  | fuel + 1, i, buf =>
    if buf.length < i + I_BODY then buf
    else if buf[i]? = some 0 then shiftLinks moved delta fuel (i + 1) buf
    else
      let link := nextOf buf i
      let buf := if link ≠ 0 ∧ moved link then setNextOf buf i (link + delta) else buf
      let i := advance_past_instr buf i
      if i = 0 then buf else shiftLinks moved delta fuel i buf

def fixup_offsets_after_insert (buf : Bytes) (opnd delta : Nat) : Bytes :=
  shiftLinks (fun link => opnd ≤ link && link ≤ buf.length) delta buf.length 0 buf

/-- The end of the chain that starts at `p`, if it is inside the buffer. A chain that is longer than the
buffer runs in a circle. -/
def chainEnd (buf : Bytes) : Nat → Nat → Option (Option Nat)
  | 0, _ => none
  | fuel + 1, p =>
    if buf.length < p + I_BODY then some none
    else if nextOf buf p = 0 then some (some p)
    else chainEnd buf fuel (nextOf buf p)

/-- Why a compile gives nothing: the pattern is a bad one, or a walk along a chain never ends. With `fuel`
the model has given up. -/
inductive Fault
  | bad
  | hang
  | fuel
  deriving DecidableEq

/-- What a compile changes: the text that is left to parse, the program so far, the running flags and the
number of the next group. -/
structure Comp where
  patparse : Bytes
  patout : Bytes
  patglobflags : Flags
  patflags : Flags
  patnpar : Nat

abbrev Compile := EStateM Fault Comp

def bad {α : Type} : Compile α := throw .bad

def getParse : Compile Bytes := return (← get).patparse

def getOut : Compile Bytes := return (← get).patout

def getGlobflags : Compile Flags := return (← get).patglobflags

def setParse (text : Bytes) : Compile Unit := modify fun s => { s with patparse := text }

def setOut (buf : Bytes) : Compile Unit := modify fun s => { s with patout := buf }

def setGlobflags (flags : Flags) : Compile Unit := modify fun s => { s with patglobflags := flags }

def extend_patout (bytes : Bytes) : Compile Unit := modify fun s => { s with patout := s.patout ++ bytes }

def patnode (op : UInt8) : Compile Nat := do
  let off := (← getOut).length
  extend_patout [op, 0, 0, 0, 0]
  return off

/-- A node with what follows its header. -/
def patnodeWith (op : UInt8) (operand : Bytes) : Compile Nat := do
  let off ← patnode op
  extend_patout operand
  return off

def patinsert (op : UInt8) (opnd : Nat) (xtra : Bytes) : Compile Unit := do
  let buf ← getOut
  let inserted := [op, 0, 0, 0, 0] ++ xtra
  setOut (fixup_offsets_after_insert (buf.take opnd ++ inserted ++ buf.drop opnd) opnd inserted.length)

def set_next (pos val : Nat) : Compile Unit := do
  let buf ← getOut
  if pos + I_BODY ≤ buf.length then setOut (setNextOf buf pos val)

def pattail (p val : Nat) : Compile Unit := do
  let buf ← getOut
  match chainEnd buf (buf.length + 1) p with
  | none => throw .hang
  | some none => return
  | some (some last) => setOut (setNextOf buf last val)

/-- The operand of a branch, behind the slot for its sync pointer where it has one. -/
def patoptail (p val : Nat) : Compile Unit := do
  match (← getOut)[p]? with
  | none => return
  | some op => if P_ISBRANCH op then pattail (if op = P_BRANCH then p + I_BODY else p + I_BODY + 8) val

def chainBranches (target : Nat) : Nat → Nat → Compile Unit
  | 0, _ => throw .hang
  | fuel + 1, cur => do
    pattail (cur + I_BODY) target
    let buf ← getOut
    if buf.length < cur + I_BODY then return
    else if nextOf buf cur = 0 then return
    else chainBranches target fuel (nextOf buf cur)

def chain_branches_to (starter target : Nat) : Compile Unit := do
  chainBranches target ((← getOut).length + 1) starter

/-- The last node of a piece: unlike `pattail`, this walk also ends outside the buffer and at a node that
is its own next one. -/
def pieceTail (buf : Bytes) : Nat → Nat → Option Nat
  | 0, _ => none
  | fuel + 1, t =>
    if buf.length < t + I_BODY then some t
    else if nextOf buf t = 0 ∨ nextOf buf t = t then some t
    else pieceTail buf fuel (nextOf buf t)

end Zshrs.Pattern
