import Mathlib.Data.List.Basic
import Mathlib.Data.Char
import Mathlib.Algebra.Group.Int.Defs
import Mathlib.Algebra.Group.Nat.Defs

namespace Zshrs.Glob.Brace

abbrev Word := List Char

def Inbrace : Char := '\uE18F'
def Outbrace : Char := '\uE190'
def Comma : Char := '\uE19A'
def Dash : Char := '\uE19B'
def Bnull : Char := '\uE19F'
def Nularg : Char := '\uE1A1'
def Meta : Char := '\u0083'

/-- `itok_char`. -/
def itok (c : Char) : Bool := 0xE184 ≤ c.toNat && c.toNat ≤ 0xE1A1

/-- Whether a byte is written after a `Meta`. -/
def imeta (b : UInt8) : Bool := b == 0 || (0x83 ≤ b && b ≤ 0xA2)

/-- `ZTOKENS`. There is none for `Nularg`. -/
def ztokens : Word :=
  ['#', '$', '^', '*', '(', '(', ')', ')', '$', '=', '|', '{', '}', '[', ']', '\x60', '<', '>', '>',
    '?', '~', '\x60', ',', '-', '!', '\x27', '\x22', '\\', '\\']

/-- The modes, the characters of the locale and what prints of them, and the token table of the lexer. -/
structure Env where
  posix_faithful : Bool
  pdksh_family : Bool
  sh_mode : Bool
  bash_mode : Bool
  ksh93_mode : Bool
  untokenize : Word → Word
  mb_metacharlenconv : List UInt8 → Nat × Option Char
  wcs_nicechar : Char → Word

/-- `str::find("..")`, with what is before and after. -/
def find_dots : Word → Option (Word × Word)
  | [] => none
  | c :: w =>
    if c = '.' ∧ w.head? = some '.' then some ([], w.tail)
    else (find_dots w).map fun x => (c :: x.1, x.2)

def digit (c : Char) : Bool := '0' ≤ c && c ≤ '9'

/-- The value of the digits, and the value of a text of digits only. -/
def number (w : Word) : Option Nat :=
  if w ≠ [] ∧ w.all digit then some (w.foldl (fun n c => 10 * n + (c.toNat - 48)) 0) else none

/-- `str::parse`, with the bound of the type. -/
def parse (bound : Nat) (w : Word) : Option Int :=
  match w with
  | '-' :: w => (number w).bind fun n => if n ≤ bound then some (-n) else none
  | '+' :: w => (number w).bind fun n => if n < bound then some n else none
  | w => (number w).bind fun n => if n < bound then some n else none

def parse_i64 : Word → Option Int := parse (2 ^ 63)
def parse_i32 : Word → Option Int := parse (2 ^ 31)

def unmetafy_str : Word → List UInt8
  | [] => []
  | [c] => String.utf8EncodeChar c
  | c :: n :: w =>
    if c = Meta ∧ 0x80 ≤ n.toNat ∧ n.toNat ≤ 0xFF then (UInt8.ofNat n.toNat ^^^ 32) :: unmetafy_str w
    else String.utf8EncodeChar c ++ unmetafy_str (n :: w)

section

variable (env : Env)

/-- The one character that a text is. -/
def single (w : Word) : Option Char :=
  let b := unmetafy_str w
  let (len, c) := env.mb_metacharlenconv b
  if len ≠ 0 ∧ len = b.length then c else none

/-- An endpoint that is a token stands for its character. The slice of `ZTOKENS` panics at its end. -/
def untok (w : Word) : Option (Option Word) :=
  match w with
  | [c] =>
    if itok c then
      if c = Inbrace then some none
      else (ztokens[c.toNat - 0xE184]?).map fun t => some [t]
    else some (some w)
  | _ => some (some w)

/-- `none` is a panic. -/
def bracechardots (s : Word) : Option (Option (Char × Char × Int)) :=
  if s.length < 4 then some none
  else
    match find_dots s with
    | none => some none
    | some (left, right) =>
      if left = [] then some none
      else
        let ends : Option (Word × Int) :=
          match find_dots right with
          | some (fin, inc) =>
            if !env.bash_mode then none else (parse_i32 (env.untokenize inc)).map fun inc => (fin, inc)
          | none => some (right, 1)
        match ends with
        | none => some none
        | some (end_str, incr) =>
          (untok left).bind fun left =>
            match left with
            | none => some none
            | some left =>
              (untok end_str).bind fun end_str =>
                match end_str with
                | none => some none
                | some end_str =>
                  match single env left, single env end_str with
                  | some c1, some c2 =>
                    if env.ksh93_mode && (c1.isLower != c2.isLower || c1.isUpper != c2.isUpper) then
                      some none
                    else some (some (c1, c2, incr))
                  | _, _ => some none

def skip_dash : Word → Word
  | '-' :: w => w
  | w => w

/-- `[-]digits`, then the rest. -/
def skip_number (w : Word) : Word := (skip_dash w).dropWhile digit

/-- The shape of a numeric range, `[-]digits..[-]digits` with a step perhaps. -/
def range_shape (w : Word) : Bool :=
  match skip_number w with
  | '.' :: '.' :: w =>
    match skip_number w with
    | [] => true
    | '.' :: '.' :: w => !env.sh_mode && (skip_number w).isEmpty
    | _ => false
  | _ => false

def numeric_ok (content : Word) : Bool :=
  let norm := content.map fun c => if c = Dash then '-' else c
  range_shape env norm && !env.pdksh_family &&
    (norm.head?.any digit || norm.getLast?.any digit)

def split_dots (n : Nat) (w : Word) : List Word :=
  match n, find_dots w with
  | n + 1, some (a, b) => a :: split_dots n b
  | _, _ => [w]

def ksh93_char_step_range (body : Word) : Bool :=
  let norm := body.map fun c => if c = Dash then '-' else c
  env.ksh93_mode &&
    match split_dots norm.length norm with
    | [a, b, s] => a.length == 1 && b.length == 1 && (parse_i64 s).isSome
    | _ => false

/-- The walk of `hasbraces`: the depth, what was seen in the group, and its text so far. -/
structure Walk where
  depth : Nat
  has_comma : Bool
  has_dotdot : Bool
  content : Word

def Walk.start : Walk := ⟨0, false, false, []⟩

/-- Whether the group that closes is one to expand. -/
def expands (brace_ccl : Bool) (k : Walk) : Option Bool :=
  if k.has_comma then some true
  else if k.has_dotdot then
    if k.content.contains Inbrace then some true
    else
      (if env.pdksh_family then some false
        else (bracechardots env k.content).map Option.isSome).map fun chardots =>
        chardots || numeric_ok env k.content || ksh93_char_step_range env k.content ||
          (brace_ccl && k.content != [])
  else some (brace_ccl && k.content != [])

/-- `none` is a panic. What follows an escape is passed over. -/
def hasbracesFrom (brace_ccl : Bool) : Walk → Bool → Word → Option Bool
  | _, _, [] => some false
  | k, escaped, c :: w =>
    let k' := { k with content := if k.depth = 0 then [] else k.content ++ [c] }
    if escaped then hasbracesFrom brace_ccl k' false w
    else if (c = '\\' ∨ c = Bnull) ∧ w ≠ [] then hasbracesFrom brace_ccl k' true w
    else if c = Inbrace then hasbracesFrom brace_ccl { k' with depth := k.depth + 1 } false w
    else if c = Outbrace ∧ 0 < k.depth then
      if k.depth = 1 then
        (expands env brace_ccl k).bind fun yes =>
          if yes then some true else hasbracesFrom brace_ccl Walk.start false w
      else hasbracesFrom brace_ccl { k' with depth := k.depth - 1 } false w
    else if c = Comma ∧ 0 < k.depth then hasbracesFrom brace_ccl { k' with has_comma := true } false w
    else if c = '.' ∧ 0 < k.depth ∧ w.head? = some '.' then
      hasbracesFrom brace_ccl { k' with has_dotdot := true } false w
    else hasbracesFrom brace_ccl k' false w

def hasbraces (s : Word) (brace_ccl : Bool) : Option Bool :=
  hasbracesFrom env brace_ccl Walk.start false s

end

end Zshrs.Glob.Brace
