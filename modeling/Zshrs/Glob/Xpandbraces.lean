import Zshrs.Glob.Hasbraces
import Mathlib.Algebra.Group.Int.Defs
import Mathlib.Algebra.Group.Nat.Defs

namespace Zshrs.Glob.Brace

/-- An addition that leaves the type does not give a value. -/
def checked (v : Int) : Option Int := if -2 ^ 63 ≤ v ∧ v < 2 ^ 63 then some v else none

/-- The values from `v` on by `step`, up to `last` or down to it. The fuel is for the values there are. -/
def walk (step last : Int) : Nat → Int → Option (List Int)
  | 0, _ => some []
  | n + 1, v =>
    if (0 < step ∧ v ≤ last) ∨ (step < 0 ∧ last ≤ v) then
      (checked (v + step)).bind fun v' => (walk step last n v').map (v :: ·)
    else some []

def values (first last step : Int) : Option (List Int) := walk step last ((last - first).natAbs + 1) first

def ksh93_range_values (first last : Int) (step : Option Int) : Option (List Int) :=
  let step := step.getD (if first ≤ last then 1 else -1)
  (checked (first + step)).bind fun v => (values v last step).map (first :: ·)

/-- `format!("{:0>w$}")`. -/
def zeros (w : Nat) (s : Word) : Word := List.replicate (w - s.length) '0' ++ s

def decimal (v : Int) : Word := (toString v).toList

def padded (width : Nat) (v : Int) : Option Word :=
  if v < 0 then (checked (-v)).map fun abs => '-' :: zeros (width - 1) (decimal abs)
  else some (zeros width (decimal v))

def char_from_u32 (v : Int) : Option Char :=
  if h : v.toNat.isValidChar then some (Char.ofNatAux v.toNat h) else none

/-- Two bytes less, where they are characters. -/
def drop_two : Word → Option Word
  | c :: w =>
    if c.utf8Size = 2 then some w
    else if c.utf8Size = 1 then
      match w with
      | d :: w => if d.utf8Size = 1 then some w else none
      | [] => none
    else none
  | [] => none

/-- What is before and after the two bytes at a place. `none` is a panic. -/
def slice_at (content : Word) (dotdot_pos : Nat) : Option (Word × Word) :=
  if content.length ≤ dotdot_pos then none
  else (drop_two (content.drop dotdot_pos)).map fun right => (content.take dotdot_pos, right)

/-- Whether some character is a token apart from the braces and the comma. -/
def tokened : Word → Bool
  | [] => false
  | [c] => itok c && c != Inbrace && c != Outbrace && c != Comma
  | c :: d :: w =>
    if c = Meta then tokened w
    else (itok c && c != Inbrace && c != Outbrace && c != Comma) || tokened (d :: w)

def is_padded_field (field : Word) : Bool :=
  let stripped := field.dropWhile fun c => c == '+' || c == '-'
  2 ≤ stripped.length && stripped.head? == some '0'

structure Step where
  incr_abs : Nat
  negative : Bool
  step_text : Word
  raw : Option Int

section

variable (env : Env)

/-- The right end with the step. `none` is a step that is none. -/
def step_of (right : Word) : Option (Word × Step) :=
  match find_dots right with
  | none => some (right, ⟨1, false, [], none⟩)
  | some (r, s_text) =>
    (parse_i64 s_text).bind fun raw =>
      if raw = 0 ∧ !env.bash_mode then none
      else some (r, ⟨raw.natAbs, decide (raw < 0), s_text, some raw⟩)

/-- `incr_abs.max(1) as i64`, which the absolute value of the least `i64` is beyond. -/
def step_i64 (s : Step) : Int := if s.incr_abs = 2 ^ 63 then -2 ^ 63 else (max s.incr_abs 1 : Nat)

/-- A step below 0 goes away from the end, so the walk leaves the type. -/
def numeric_values (s : Step) (start fin : Int) : Option (List Int) :=
  if env.ksh93_mode then ksh93_range_values start fin s.raw
  else if step_i64 s < 0 then none
  else
    (values start fin (if start ≤ fin then step_i64 s else -step_i64 s)).map fun vals =>
      if s.negative && !env.bash_mode then vals.reverse else vals

def numeric_range (left right : Word) (s : Step) (start fin : Int) : Option (List Word) :=
  let left_is_bare_zero := left == ['0'] && !(env.bash_mode || env.sh_mode)
  let pad := !env.ksh93_mode && !env.sh_mode && !left_is_bare_zero &&
    (is_padded_field left || is_padded_field right ||
      (s.step_text != [] && is_padded_field s.step_text))
  let width := max (max left.length right.length) s.step_text.length
  (numeric_values env s start fin).bind fun vals =>
    vals.mapM fun v => if pad then padded width v else some (decimal v)

def char_values (s : Step) (start fin : Int) : Option (List Int) :=
  if env.ksh93_mode then ksh93_range_values start fin s.raw
  else
    (if start ≤ fin then some (step_i64 s) else checked (-step_i64 s)).bind fun dir =>
      values start fin dir

def char_range (s : Step) (start fin : Char) : Option (List Word) :=
  (char_values env s start.toNat fin.toNat).map fun vals =>
    (vals.filterMap char_from_u32).map fun c =>
      if c = '\\' ∧ (env.bash_mode || env.sh_mode) then [Nularg] else env.wcs_nicechar c

/-- The texts of a range, where it is one. The outer `none` is a panic, or a walk without an end. -/
def range_values (content : Word) (dotdot_pos : Nat) : Option (Option (List Word)) :=
  let content := if tokened content then env.untokenize content else content
  (slice_at content dotdot_pos).bind fun (left, rest) =>
    match step_of env rest with
    | none => some none
    | some (right, s) =>
      match parse_i64 left, parse_i64 right with
      | some start, some fin => (numeric_range env left right s start fin).map some
      | _, _ =>
        let alpha_step_ok := s.step_text == [] || env.bash_mode || env.ksh93_mode
        match single env left, single env right with
        | some start, some fin =>
          if alpha_step_ok then (char_range env s start fin).map some else some none
        | _, _ => some none

def around (pre suf : Word) (xs : List Word) : List Word := xs.map fun x => pre ++ x ++ suf

def expand_range (pre content : Word) (dotdot_pos : Nat) (suf : Word) : Option (Option (List Word)) :=
  (range_values env content dotdot_pos).map fun xs => xs.map (around pre suf)

end

/-- The parts between the places, from `last` on. -/
def parts_at (content : Word) : Nat → List Nat → List Word
  | last, [] => [content.drop last]
  | last, pos :: rest => (content.drop last).take (pos - last) :: parts_at content (pos + 1) rest

def expand_comma (pre content : Word) (positions : List Nat) (suf : Word) : List Word :=
  around pre suf (parts_at content 0 positions)

/-- The word as the bytes that C would walk. -/
def ccl_bytes : Word → List UInt8
  | [] => []
  | [c] => if c = Meta then [0x83] else if itok c then [UInt8.ofNat c.toNat] else
    (String.utf8EncodeChar c).flatMap fun b => if imeta b then [0x83, b ^^^ 32] else [b]
  | c :: n :: w =>
    if c = Meta then 0x83 :: UInt8.ofNat n.toNat :: ccl_bytes w
    else if itok c then UInt8.ofNat c.toNat :: ccl_bytes (n :: w)
    else ((String.utf8EncodeChar c).flatMap fun b => if imeta b then [0x83, b ^^^ 32] else [b]) ++
      ccl_bytes (n :: w)

/-- The slice of `ZTOKENS` panics at its end. -/
def untok_byte (b : UInt8) : Option UInt8 :=
  if 0x84 ≤ b ∧ b ≤ 0xA1 then (ztokens[b.toNat - 0x84]?).map fun t => UInt8.ofNat t.toNat else some b

/-- The bytes that the class has. `lastch` is what a dash would go on from. -/
def ccl_walk : Nat → Option UInt8 → List UInt8 → List UInt8 → Option (List UInt8)
  | 0, _, ccl, _ => some ccl
  | _, _, ccl, [] => some ccl
  | n + 1, lastch, ccl, b :: p =>
    (untok_byte b).bind fun c1 =>
      let (c1, p) := if c1 = 0x83 ∧ p ≠ [] then (32 ^^^ p.headD 0, p.tail) else (c1, p)
      ((p.head?.map untok_byte).getD (some 0)).bind fun c2 =>
        let c2 := if c2 = 0x83 then 32 ^^^ p.tail.headD 0 else c2
        match lastch with
        | some l =>
          if c1 = 45 ∧ p ≠ [] ∧ l ≤ c2 then
            ccl_walk n none (ccl ++ (List.range (c2.toNat - l.toNat)).map fun i =>
              UInt8.ofNat (l.toNat + i)) p
          else ccl_walk n (some c1) (ccl ++ [c1]) p
        | none => ccl_walk n (some c1) (ccl ++ [c1]) p

def ccl_texts (content : Word) : Option (List Word) :=
  let str := ccl_bytes content
  (ccl_walk str.length none [] str).map fun ccl =>
    ((List.range 256).filter fun c1 => UInt8.ofNat c1 ∈ ccl).map fun c1 =>
      if c1 < 0x80 then [Char.ofNat c1] else [Meta, Char.ofNat (c1 ^^^ 32)]

def expand_ccl (pre content suf : Word) : Option (List Word) := (ccl_texts content).map (around pre suf)

/-- A group, with the places of its own commas and of its first two dots. -/
structure Group where
  content : Word
  commas : List Nat
  dotdot : Option Nat
  suffix : Word

/-- The walk to the brace that closes a group, after the one that opens it. -/
def scanGroup : Nat → Word → List Nat → Option Nat → Word → Option Group
  | _, _, _, _, [] => none
  | depth, content, commas, dotdot, c :: w =>
    if c = Inbrace then scanGroup (depth + 1) (content ++ [c]) commas dotdot w
    else if c = Outbrace then
      if depth = 1 then some ⟨content, commas, dotdot, w⟩
      else scanGroup (depth - 1) (content ++ [c]) commas dotdot w
    else if c = Comma ∧ depth = 1 then
      scanGroup depth (content ++ [c]) (commas ++ [content.length]) dotdot w
    else if c = '.' ∧ depth = 1 ∧ w.head? = some '.' ∧ dotdot = none then
      scanGroup depth (content ++ [c]) commas (some content.length) w
    else scanGroup depth (content ++ [c]) commas dotdot w

/-- Whether an endpoint has a digit. -/
def has_digit (content : Word) (dotdot_pos : Nat) : Bool :=
  let right := content.drop (dotdot_pos + 2)
  let strip_end := ((find_dots right).map Prod.fst).getD right
  (content.take dotdot_pos).any digit || strip_end.any digit

section

variable (env : Env) (brace_ccl : Bool)

/-- What becomes of a word for its group. `none` inside leaves the group for the next one. -/
def tryGroup (xpandbraces : Word → Option (List Word)) (pre : Word) (g : Group) :
    Option (Option (List Word)) :=
  match (if env.pdksh_family then none else g.dotdot), g.commas with
  | some dp, [] =>
    (expand_range env pre g.content dp g.suffix).map fun parts =>
      match parts with
      | some parts => some parts
      | none =>
        if has_digit g.content dp && !env.ksh93_mode then some [pre ++ g.content ++ g.suffix] else none
  | _, commas =>
    if commas ≠ [] then some (some (expand_comma pre g.content commas g.suffix))
    else if brace_ccl && g.content != [] then (expand_ccl pre g.content g.suffix).map some
    else if g.content.contains Inbrace then
      (xpandbraces g.content).map fun inner =>
        some (inner.map fun piece => pre ++ ('{' :: piece ++ ['}']) ++ g.suffix)
    else some none

/-- The first group that the expander acts on. `skip` characters are of a group that it left. -/
def tryExpand (xpandbraces : Word → Option (List Word)) :
    Word → Nat → Word → Option (Option (List Word))
  | _, _, [] => some none
  | pre, skip + 1, c :: w => tryExpand xpandbraces (pre ++ [c]) skip w
  | pre, 0, c :: w =>
    if c = Inbrace then
      match scanGroup 1 [] [] none w with
      | none => some none
      | some g =>
        (tryGroup env brace_ccl xpandbraces pre g).bind fun parts =>
          match parts with
          | some parts => some (some parts)
          | none => tryExpand xpandbraces (pre ++ [c]) (g.content.length + 1) w
    else tryExpand xpandbraces (pre ++ [c]) 0 w

/-- The rounds of the loop, each of which expands one group of every word. -/
def rounds (try_expand_one : Word → Option (Option (List Word))) : Nat → List Word → Option (List Word)
  | 0, _ => none
  | n + 1, results =>
    (results.mapM try_expand_one).bind fun expanded =>
      if expanded.all Option.isNone then some results
      else rounds try_expand_one n
        ((results.zip expanded).flatMap fun x => x.2.getD [x.1])

/-- Whether a word has anything to expand. `none` is a panic. -/
def gate (s : Word) : Option Bool :=
  if env.posix_faithful && env.pdksh_family && (find_dots s).isSome && !s.contains Comma then some false
  else hasbraces env s brace_ccl

def xpandbraces : Nat → Word → Option (List Word)
  | 0, _ => none
  | n + 1, s =>
    (gate env brace_ccl s).bind fun yes =>
      if yes then rounds (tryExpand env brace_ccl (xpandbraces n) [] 0) (n + 1) [s] else some [s]

end

end Zshrs.Glob.Brace
