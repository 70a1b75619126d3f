import Zshrs.Lib.Loops
import Zshrs.Tparm.Values
import Mathlib.Data.List.Infix

namespace Zshrs.Tparm

open Lib

/-- `%PA`-`%PZ` and `%Pa`-`%Pz`. -/
abbrev Variables := Vector Int64 26

/-- The variables of `tparm_params` that its loop changes, apart from the index. -/
structure Machine where
  p : List V
  out : Bytes
  stack : List V
  dynamic : Variables
  statics : Variables
  incremented_two : Bool

namespace Machine

variable (m : Machine)

def emit (s : Bytes) : Machine := { m with out := m.out ++ s }

def push (v : V) : Machine := { m with stack := m.stack ++ [v] }

def top : V := m.stack.getLast?.getD (.Int 0)

def popped : Machine := { m with stack := m.stack.dropLast }

/-- Parameter `k + 1`. -/
def param (k : Nat) : V := (m.p[k]?).getD (.Int 0)

end Machine

def writeVar (vs : Variables) (k : Nat) (v : Int64) : Option Variables :=
  if h : k < 26 then some (vs.set k v h) else none

/-- `%Px`. -/
def setVar (n : UInt8) (v : Int64) (m : Machine) : Option Machine :=
  if (asChar n).isUpper then
    (writeVar m.statics ((asChar n).toNat - 'A'.toNat) v).map fun vs => { m with statics := vs }
  else if (asChar n).isLower then
    (writeVar m.dynamic ((asChar n).toNat - 'a'.toNat) v).map fun vs => { m with dynamic := vs }
  else some m

/-- `%gx`. -/
def getVar (n : UInt8) (m : Machine) : Option Int64 :=
  if (asChar n).isUpper then m.statics[(asChar n).toNat - 'A'.toNat]?
  else if (asChar n).isLower then m.dynamic[(asChar n).toNat - 'a'.toNat]?
  else some 0

def isArith (c : Char) : Bool :=
  c = '+' || c = '-' || c = '*' || c = '/' || c = 'm' || c = '&' || c = '|' || c = '^' || c = '=' ||
    c = '<' || c = '>' || c = 'A' || c = 'O'

def truth (b : Bool) : Int64 := if b then 1 else 0

def arith (c : Char) (a b : Int64) : Int64 :=
  match c with
  | '+' => a + b
  | '-' => a - b
  | '*' => a * b
  | '/' => if b = 0 then 0 else a / b
  | 'm' => if b = 0 then 0 else a % b
  | '&' => a &&& b
  | '|' => a ||| b
  | '^' => a ^^^ b
  | '=' => truth (a = b)
  | '<' => truth (a < b)
  | '>' => truth (b < a)
  | 'A' => truth (a ≠ 0 ∧ b ≠ 0)
  | _ => truth (a ≠ 0 ∨ b ≠ 0)

/-- `%i` with a termcap string: the incremented values are also assigned into the bottom of the stack. -/
def assignBottom (p stack : List V) (k : Nat) : List V :=
  match p[k]? with
  | some v => stack.set k (.Int v.int)
  | none => stack

/-- `%i` increments the first two parameters in place, once per evaluation. -/
def increment (termcap_hack : Bool) (m : Machine) : Option Machine :=
  if m.incremented_two then some m
  else ((m.p.take 2).mapM fun slot => checked (slot.int.toInt + 1)).map fun first =>
    let p := first.map .Int ++ m.p.drop 2
    let stack := if termcap_hack then assignBottom p (assignBottom p m.stack 0) 1 else m.stack
    { m with incremented_two := true, p := p, stack := stack }

/-- A popped value is printed by a conversion with its flag run. -/
def convert (spec : List Char) (conv : Char) (m : Machine) : Option Machine :=
  if conv = 's' then some (m.popped.emit m.top.string)
  else (fmt_int spec conv m.top.int).map fun s => m.popped.emit (bytes s)

def character (v : Int64) : UInt8 := if v = 0 then 0o200 else v.toUInt64.toUInt8

/-- How far `skip_to_else_or_end` and `skip_to_end` advance over the rest of a capability. -/
def skip (to_else : Bool) : Nat → Bytes → Nat
  | _, [] => 0
  | depth, b :: rest =>
    if b ≠ byte '%' then skip to_else depth rest + 1
    else match rest with
      | [] => 0
      | c :: rest =>
        if asChar c = '?' then skip to_else (depth + 1) rest + 2
        else if asChar c = ';' then if depth = 0 then 2 else skip to_else (depth - 1) rest + 2
        else if asChar c = 'e' ∧ depth = 0 ∧ to_else then 2
        else skip to_else depth rest + 2

section Skip

variable (to_else : Bool) (depth : Nat)

@[simp] theorem skip_nil : skip to_else depth [] = 0 := by rw [skip]

theorem skip_text {b : UInt8} (hb : b ≠ byte '%') (rest : Bytes) :
    skip to_else depth (b :: rest) = skip to_else depth rest + 1 := by
  rw [skip.eq_def]
  exact if_pos hb

@[simp] theorem skip_end : skip to_else depth [byte '%'] = 0 := by
  simp [skip]

theorem skip_pair (c : UInt8) (rest : Bytes) : skip to_else depth (byte '%' :: c :: rest) =
    if asChar c = '?' then skip to_else (depth + 1) rest + 2
    else if asChar c = ';' then if depth = 0 then 2 else skip to_else (depth - 1) rest + 2
    else if asChar c = 'e' ∧ depth = 0 ∧ to_else then 2
    else skip to_else depth rest + 2 := by
  rw [skip.eq_def]
  exact if_neg (by simp)

end Skip

def skip_to_else_or_end (cap : Bytes) (i : Nat) : Nat := i + skip true 0 (cap.drop i)

def skip_to_end (cap : Bytes) (i : Nat) : Nat := i + skip false 0 (cap.drop i)

/-- `&cap[start..j]`, which panics where the bounds are out of order or past the end. -/
def slice (cap : Bytes) (start j : Nat) : Option (List Char) :=
  if start ≤ j ∧ j ≤ cap.length then some (((cap.take j).drop start).map asChar) else none

def toDigit (n : UInt8) : Nat := if (asChar n).isDigit then (asChar n).toNat - '0'.toNat else 0

/-- The directive `%c` whose operand, if any, starts at `i`. -/
def directive (cap : Bytes) (termcap_hack : Bool) (c : Char) (i : Nat) (m : Machine) : Option (Nat × Machine) :=
  match c with
  | '%' => some (i, m.emit [byte '%'])
  | 'd' => (convert [] 'd' m).map (Prod.mk i)
  | 'o' => (convert [] 'o' m).map (Prod.mk i)
  | 'x' => (convert [] 'x' m).map (Prod.mk i)
  | 'X' => (convert [] 'X' m).map (Prod.mk i)
  | 's' => (convert [] 's' m).map (Prod.mk i)
  | 'c' => some (i, m.popped.emit [character m.top.int])
  | 'p' =>
    match cap[i]? with
    | none => some (i, m)
    | some n => some (i + 1, if 1 ≤ toDigit n then m.push (m.param (toDigit n - 1)) else m)
  | '\'' =>
    match cap[i]? with
    | none => some (i, m)
    | some ch =>
      some (if cap[i + 1]? = some (byte '\'') then i + 2 else i + 1, m.push (.Int (Int64.ofNat ch.toNat)))
  | '{' =>
    let j := i + ((cap.drop i).takeWhile fun b => b ≠ byte '}').length
    (slice cap i j).map fun n =>
      (if j < cap.length then j + 1 else j, m.push (.Int ((parse_i64 n).getD 0)))
  | 'l' => some (i, m.popped.push (.Int (Int64.ofNat m.top.string.length)))
  | 'P' =>
    match cap[i]? with
    | none => some (i, m)
    | some n => (setVar n m.top.int m.popped).map (Prod.mk (i + 1))
  | 'g' =>
    match cap[i]? with
    | none => some (i, m)
    | some n => (getVar n m).map fun v => (i + 1, m.push (.Int v))
  | '!' => some (i, m.popped.push (.Int (truth (m.top.int = 0))))
  | '~' => some (i, m.popped.push (.Int (~~~ m.top.int)))
  | 'i' => (increment termcap_hack m).map (Prod.mk i)
  | 't' => some (if m.top.int ≠ 0 then i else skip_to_else_or_end cap i, m.popped)
  -- reached only by falling out of a taken branch
  | 'e' => some (skip_to_end cap i, m)
  | _ =>
    if isArith c then some (i, m.popped.popped.push (.Int (arith c m.popped.top.int m.top.int)))
    else some (i, m)

def isRun (b : UInt8) : Bool :=
  (asChar b).isDigit || asChar b = '.' || asChar b = '-' || asChar b = '+' || asChar b = ' ' || asChar b = '#'

def isConversion (c : Char) : Bool := c = 'd' || c = 'o' || c = 'x' || c = 'X' || c = 's'

/-- A flag run from `i` on with its conversion: the run, the conversion and the index behind it. The outer
`none` is a slice out of range. -/
def formatted (cap : Bytes) (i : Nat) (c : UInt8) : Option (Option (List Char × Char × Nat)) :=
  if asChar c = ':' ∨ isRun c then
    let start := if cap[i]? = some (byte ':') then i + 1 else i
    let j := start + ((cap.drop start).takeWhile isRun).length
    match cap[j]? with
    | some conv =>
      if isConversion (asChar conv) then (slice cap i j).map fun spec => some (spec, asChar conv, j + 1)
      else some none
    | none => some none
  else some none

/-- One round of the loop of `tparm_params`. -/
def step (cap : Bytes) (termcap_hack : Bool) (s : Nat × Machine) : Option (Nat × Machine) :=
  match cap[s.1]? with
  | none => none
  | some b =>
    if b ≠ byte '%' then some (s.1 + 1, s.2.emit [b])
    else
      match cap[s.1 + 1]? with
      | none => some (s.1 + 1, s.2)
      | some c =>
        (formatted cap (s.1 + 1) c).bind fun f =>
          match f with
          | some (spec, conv, j) => (convert spec conv s.2).map (Prod.mk j)
          | none => directive cap termcap_hack (asChar c) (s.1 + 2) s.2

theorem directive_le {cap : Bytes} {hack : Bool} {c : Char} {i : Nat} {m : Machine} {t : Nat × Machine}
    (h : directive cap hack c i m = some t) : i ≤ t.1 := by
  have hmap : ∀ {o : Option Machine} {j : Nat}, o.map (Prod.mk j) = some t → i ≤ j → i ≤ t.1 := by
    intro o j ho hij
    obtain ⟨m', -, rfl⟩ := Option.map_eq_some_iff.mp ho
    exact hij
  unfold directive at h
  split at h
  · cases h; exact Nat.le_refl i
  · exact hmap h (Nat.le_refl i)
  · exact hmap h (Nat.le_refl i)
  · exact hmap h (Nat.le_refl i)
  · exact hmap h (Nat.le_refl i)
  · exact hmap h (Nat.le_refl i)
  · cases h; exact Nat.le_refl i
  · split at h
    · cases h; exact Nat.le_refl i
    · cases h; exact Nat.le_succ i
  · split at h
    · cases h; exact Nat.le_refl i
    · cases h
      dsimp only
      split <;> omega
  · obtain ⟨n, -, rfl⟩ := Option.map_eq_some_iff.mp h
    dsimp only
    split <;> omega
  · cases h; exact Nat.le_refl i
  · split at h
    · cases h; exact Nat.le_refl i
    · exact hmap h (Nat.le_succ i)
  · split at h
    · cases h; exact Nat.le_refl i
    · obtain ⟨v, -, rfl⟩ := Option.map_eq_some_iff.mp h
      exact Nat.le_succ i
  · cases h; exact Nat.le_refl i
  · cases h; exact Nat.le_refl i
  · exact hmap h (Nat.le_refl i)
  · cases h
    dsimp only [skip_to_else_or_end]
    split <;> omega
  · cases h
    exact Nat.le_add_right i _
  · split at h <;> cases h <;> exact Nat.le_refl i

/-- A flag run ends behind the character that it starts with. -/
theorem formatted_lt {cap : Bytes} {i j : Nat} {c : UInt8} {spec : List Char} {conv : Char}
    (h : formatted cap i c = some (some (spec, conv, j))) : i < j := by
  unfold formatted at h
  split at h
  · dsimp only at h
    split at h
    · split at h
      · obtain ⟨n, -, heq⟩ := Option.map_eq_some_iff.mp h
        cases heq
        split <;> omega
      · cases h
    · cases h
  · cases h

theorem step_lt {cap : Bytes} {hack : Bool} {s t : Nat × Machine} (h : step cap hack s = some t) : s.1 < t.1 := by
  unfold step at h
  split at h
  · cases h
  · split at h
    · cases h
      exact Nat.lt_succ_self s.1
    · split at h
      · cases h
        exact Nat.lt_succ_self s.1
      · obtain ⟨f, hf, h⟩ := Option.bind_eq_some_iff.mp h
        split at h
        · obtain ⟨m', -, rfl⟩ := Option.map_eq_some_iff.mp h
          have := formatted_lt hf
          exact Nat.lt_of_succ_lt this
        · have := directive_le h
          omega

/-- The loop of `tparm_params`. -/
def evaluation (cap : Bytes) (termcap_hack : Bool) : Loop (Nat × Machine) where
  guard s := s.1 < cap.length
  step := step cap termcap_hack
  measure s := cap.length - s.1
  decreases s t hg hs := by
    have hlt := step_lt hs
    have hg : s.1 < cap.length := of_decide_eq_true hg
    omega

def isCounted (c : Char) : Bool := isConversion c || c = 'c'

def afterRun (s : Bytes) : Bytes := (if s.head? = some (byte ':') then s.tail else s).dropWhile isRun

theorem length_afterRun (s : Bytes) : (afterRun s).length ≤ s.length := by
  have hdrop : ∀ t : Bytes, (t.dropWhile isRun).length ≤ t.length := fun t => (t.dropWhile_suffix _).length_le
  rw [afterRun]
  split
  · refine Nat.le_trans (hdrop _) ?_
    rw [List.length_tail]
    omega
  · exact hdrop s

/-- Number of value-consuming conversions in a capability. -/
def count_conversions : Bytes → Nat
  | b :: c :: rest =>
    if b ≠ byte '%' then count_conversions (c :: rest)
    else match _h : afterRun (c :: rest) with
      | [] => count_conversions rest
      | conv :: behind =>
        if isCounted (asChar conv) then count_conversions behind + 1
        -- only one character is stepped over where nothing is converted
        else count_conversions rest
  | _ => 0
termination_by s => s.length
decreasing_by
  · simp
  · simp only [List.length_cons]; omega
  · have hlen := length_afterRun (c :: rest)
    rw [_h] at hlen
    simp only [List.length_cons] at hlen ⊢
    omega
  · simp only [List.length_cons]; omega

/-- `cap.windows(2).any(|w| w == b"%p")`. -/
def says_p (cap : Bytes) : Bool := decide ([byte '%', byte 'p'] <:+: cap)

/-- The parameters that a termcap-style string finds on the stack, so that the first pop yields the first. -/
def prepushed (cap : Bytes) (params : List V) : List V :=
  (List.range (min (count_conversions cap) 2)).reverse.map fun i => (params[i]?).getD (.Int 0)

def startMachine (cap : Bytes) (params : List V) (statics : Variables) : Machine where
  p := params
  out := []
  stack := if says_p cap then [] else prepushed cap params
  dynamic := Vector.replicate 26 0
  statics := statics
  incremented_two := false

/-- Everything past an embedded NUL is unreachable to every caller. -/
def truncate_at_nul (out : Bytes) : Bytes := out.takeWhile fun b => b ≠ 0

/-- Evaluate a terminfo capability string with the given parameters; the static variables survive the call. -/
def tparm_params (cap : Bytes) (params : List V) (statics : Variables) : Option (Bytes × Variables) :=
  ((evaluation cap (!says_p cap)).run (0, startMachine cap params statics)).map fun s =>
    (truncate_at_nul s.2.out, s.2.statics)

end Zshrs.Tparm
