import Zshrs.Tparm.Evaluator

namespace Zshrs.Tparm

/-- The number of a `%{nn}`. -/
def constant (negative : Bool) (ds : List Char) : Int :=
  if negative then -(Nat.ofDigitChars 10 ds 0 : Int) else Nat.ofDigitChars 10 ds 0

/-- A character of the text, or a directive outside the conditionals. -/
inductive Directive
  | lit (b : UInt8) (h : b ≠ byte '%')
  | percent
  | print (colon : Bool) (run : Bytes) (conv : UInt8) (hrun : run.all isRun) (hconv : isConversion (asChar conv))
  | chr
  | param (k : Fin 9)
  | char (b : UInt8)
  | const (negative : Bool) (ds : List Char) (h : ds ≠ [] ∧ ds.all Char.isDigit) (hrange : InRange (constant negative ds))
  | strlen
  | setVar (x : UInt8) (h : (asChar x).isAlpha)
  | getVar (x : UInt8) (h : (asChar x).isAlpha)
  | op (c : UInt8) (h : isArith (asChar c))
  | not
  | compl
  | incr

mutual

inductive Prog
  | nil
  | seq (d : Directive) (rest : Prog)
  /-- `%? c %t a … %;` -/
  | cond (c a : Prog) (e : Else) (rest : Prog)

/-- What follows the branch of a condition, up to the `%;`. -/
inductive Else
  | fi
  | els (b : Prog)
  | elif (c a : Prog) (e : Else)

end

section Text

/-- The colon that may stand in front of a run of flags. -/
def flagColon (colon : Bool) : Bytes := if colon then [byte ':'] else []

def Directive.render : Directive → Bytes
  | .lit b _ => [b]
  | .percent => [byte '%', byte '%']
  | .print colon run conv _ _ => byte '%' :: (flagColon colon ++ (run ++ [conv]))
  | .chr => [byte '%', byte 'c']
  | .param k => [byte '%', byte 'p', UInt8.ofNat (49 + k.val)]
  | .char b => [byte '%', byte '\'', b, byte '\'']
  | .const negative ds _ _ => byte '%' :: byte '{' :: (bytes ((if negative then ['-'] else []) ++ ds) ++ [byte '}'])
  | .strlen => [byte '%', byte 'l']
  | .setVar x _ => [byte '%', byte 'P', x]
  | .getVar x _ => [byte '%', byte 'g', x]
  | .op c _ => [byte '%', c]
  | .not => [byte '%', byte '!']
  | .compl => [byte '%', byte '~']
  | .incr => [byte '%', byte 'i']

mutual

def Prog.render : Prog → Bytes
  | .nil => []
  | .seq d rest => d.render ++ rest.render
  | .cond c a e rest =>
    byte '%' :: byte '?' :: (c.render ++ byte '%' :: byte 't' :: (a.render ++ (e.render ++ rest.render)))

def Else.render : Else → Bytes
  | .fi => [byte '%', byte ';']
  | .els b => byte '%' :: byte 'e' :: (b.render ++ [byte '%', byte ';'])
  | .elif c a e => byte '%' :: byte 'e' :: (c.render ++ byte '%' :: byte 't' :: (a.render ++ e.render))

end

end Text

section Meaning

/-- A string as `printf` prints it. -/
def fmt_string (f : Format) (s : Bytes) : Bytes :=
  let body := match f.precision with
    | some n => s.take n
    | none => s
  let pad := List.replicate (f.width.getD 0 - body.length) (byte ' ')
  if f.left then body ++ pad else pad ++ body

/-- A popped value is printed under a flag run. -/
def Machine.print (run : List Char) (conv : Char) (m : Machine) : Option Machine :=
  if conv = 's' then some (m.popped.emit (fmt_string (readFormat run) m.top.string))
  else (fmt_int run conv m.top.int).map fun s => m.popped.emit (bytes s)

def Directive.exec (termcap_hack : Bool) : Directive → Machine → Option Machine
  | .lit b _, m => some (m.emit [b])
  | .percent, m => some (m.emit [byte '%'])
  | .print _ run conv _ _, m => m.print (run.map asChar) (asChar conv)
  | .chr, m => some (m.popped.emit [character m.top.int])
  | .param k, m => some (m.push (m.param k))
  | .char b, m => some (m.push (.Int (Int64.ofNat b.toNat)))
  | .const negative ds _ _, m => some (m.push (.Int (Int64.ofInt (constant negative ds))))
  | .strlen, m => some (m.popped.push (.Int (Int64.ofNat m.top.string.length)))
  | .setVar x _, m => Tparm.setVar x m.top.int m.popped
  | .getVar x _, m => (Tparm.getVar x m).map fun v => m.push (.Int v)
  | .op c _, m => some (m.popped.popped.push (.Int (arith (asChar c) m.popped.top.int m.top.int)))
  | .not, m => some (m.popped.push (.Int (truth (m.top.int = 0))))
  | .compl, m => some (m.popped.push (.Int (~~~ m.top.int)))
  | .incr, m => increment termcap_hack m

mutual

/-- A condition leaves its value on the stack; one of the branches is run. -/
def Prog.exec (termcap_hack : Bool) : Prog → Machine → Option Machine
  | .nil, m => some m
  | .seq d rest, m => (d.exec termcap_hack m).bind fun m => rest.exec termcap_hack m
  | .cond c a e rest, m =>
    ((c.exec termcap_hack m).bind fun m =>
      if m.top.int ≠ 0 then a.exec termcap_hack m.popped else e.exec termcap_hack m.popped).bind fun m =>
        rest.exec termcap_hack m

def Else.exec (termcap_hack : Bool) : Else → Machine → Option Machine
  | .fi, m => some m
  | .els b, m => b.exec termcap_hack m
  | .elif c a e, m => (c.exec termcap_hack m).bind fun m =>
      if m.top.int ≠ 0 then a.exec termcap_hack m.popped else e.exec termcap_hack m.popped

end

def Directive.conversions : Directive → Nat
  | .print .. => 1
  | .chr => 1
  | _ => 0

mutual

/-- The conversions of a program, in whatever branch. -/
def Prog.conversions : Prog → Nat
  | .nil => 0
  | .seq d rest => d.conversions + rest.conversions
  | .cond c a e rest => c.conversions + a.conversions + e.conversions + rest.conversions

def Else.conversions : Else → Nat
  | .fi => 0
  | .els b => b.conversions
  | .elif c a e => c.conversions + a.conversions + e.conversions

end

variable (P : Prog) (params : List V) (statics : Variables)

/-- A program without `%p` in its text is termcap-style. -/
def Prog.termcap : Bool := !says_p P.render

/-- Where a call starts: the dynamic variables are 0, and a termcap-style program finds as many of the first two
parameters on the stack as it has conversions. -/
def Prog.start : Machine where
  p := params
  out := []
  stack := if P.termcap then (List.range (min P.conversions 2)).reverse.map fun i => (params[i]?).getD (.Int 0) else []
  dynamic := Vector.replicate 26 0
  statics := statics
  incremented_two := false

/-- What a program emits, and the static variables behind it. -/
def Prog.meaning : Option (Bytes × Variables) :=
  (P.exec P.termcap (P.start params statics)).map fun m => (truncate_at_nul m.out, m.statics)

/-- Calls one after the other, each with the static variables that the ones before leave. -/
def calls {Cap : Type} (call : Cap → List V → Variables → Option (Bytes × Variables)) :
    List (Cap × List V) → Variables → Option (List Bytes × Variables)
  | [], statics => some ([], statics)
  | (cap, params) :: rest, statics => (call cap params statics).bind fun r =>
      (calls call rest r.2).map fun rs => (r.1 :: rs.1, rs.2)

end Meaning

section Readable

/-- No conversion comes of the text behind an operator that is also a flag, and a string is printed whole. -/
def Directive.Readable (converts : Char → Bool) (rest : Bytes) : Directive → Prop
  | .print _ run conv _ _ => asChar conv = 's' →
      (readFormat (run.map asChar)).width = none ∧ (readFormat (run.map asChar)).precision = none
  | .op c _ => isRun c → ∀ b ∈ (rest.dropWhile isRun).head?, converts (asChar b) = false
  | _ => True

mutual

def Prog.Readable (converts : Char → Bool) : Prog → Prop
  | .nil => True
  | .seq d rest => d.Readable converts rest.render ∧ rest.Readable converts
  | .cond c a e rest => c.Readable converts ∧ a.Readable converts ∧ e.Readable converts ∧ rest.Readable converts

def Else.Readable (converts : Char → Bool) : Else → Prop
  | .fi => True
  | .els b => b.Readable converts
  | .elif c a e => c.Readable converts ∧ a.Readable converts ∧ e.Readable converts

end

instance (converts : Char → Bool) (rest : Bytes) : (d : Directive) → Decidable (d.Readable converts rest)
  | .print .. => inferInstanceAs (Decidable (_ → _ ∧ _))
  | .op c _ => inferInstanceAs
      (Decidable (isRun c → ∀ b ∈ (rest.dropWhile isRun).head?, converts (asChar b) = false))
  | .lit .. | .percent | .chr | .param _ | .char _ | .const .. | .strlen | .setVar .. | .getVar .. | .not | .compl
  | .incr => isTrue trivial

mutual

def Prog.decidableReadable (converts : Char → Bool) : (P : Prog) → Decidable (P.Readable converts)
  | .nil => isTrue trivial
  | .seq d rest =>
    have := rest.decidableReadable converts
    inferInstanceAs (Decidable (d.Readable converts rest.render ∧ rest.Readable converts))
  | .cond c a e rest =>
    have := c.decidableReadable converts
    have := a.decidableReadable converts
    have := e.decidableReadable converts
    have := rest.decidableReadable converts
    inferInstanceAs (Decidable (c.Readable converts ∧ a.Readable converts ∧ e.Readable converts ∧
      rest.Readable converts))

def Else.decidableReadable (converts : Char → Bool) : (e : Else) → Decidable (e.Readable converts)
  | .fi => isTrue trivial
  | .els b => b.decidableReadable converts
  | .elif c a e =>
    have := c.decidableReadable converts
    have := a.decidableReadable converts
    have := e.decidableReadable converts
    inferInstanceAs (Decidable (c.Readable converts ∧ a.Readable converts ∧ e.Readable converts))

end

instance (converts : Char → Bool) (P : Prog) : Decidable (P.Readable converts) := P.decidableReadable converts

/-- A program whose text is read as that program. -/
def Prog.Plain (P : Prog) : Prop := P.Readable isConversion ∧ (P.termcap = true → P.Readable isCounted)

instance (P : Prog) : Decidable P.Plain := inferInstanceAs (Decidable (_ ∧ (_ → _)))

end Readable

end Zshrs.Tparm
