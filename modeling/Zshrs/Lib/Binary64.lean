import Mathlib.Data.List.Basic
import Mathlib.Data.Int.Order.Basic
import Mathlib.Algebra.Group.Nat.Defs

namespace Zshrs.Lib.Binary64

/-- A binary64 value as comparisons see it: NaN, or a count of the least subnormal `2 ^ -1074`, with
`2 ^ 1024` for the infinity. -/
inductive F64
  | nan
  | value (n : Int)
  deriving DecidableEq, Repr

def F64.partial_cmp : F64 → F64 → Option Ordering
  | .value m, .value n => some (compare m n)
  | _, _ => none

def infinity : Nat := 2 ^ (1024 + 1074)

/-- The nearest value to `num / den`, ties to even. -/
def nearest (num den : Nat) : Nat :=
  let n := num * 2 ^ 1074
  let e := Nat.log2 (n / den) - 52
  let d := den * 2 ^ e
  let m := n / d
  let r := n % d
  let m := if d < 2 * r ∨ d = 2 * r ∧ m % 2 = 1 then m + 1 else m
  min (m * 2 ^ e) infinity

def is_digit (c : Char) : Bool := 0x30 ≤ c.toNat && c.toNat ≤ 0x39

def digits (s : List Char) : Nat := s.foldl (fun n c => 10 * n + (c.toNat - 0x30)) 0

/-- The exponent after the digits: none, or `e`, a sign and digits to the end of the text. -/
def parse_scientific : List Char → Option Int
  | [] => some 0
  | c :: s =>
      if c = 'e' ∨ c = 'E' then
        let negative := s.head? = some '-'
        let s := if s.head? = some '-' ∨ s.head? = some '+' then s.tail else s
        if s.isEmpty ∨ s.all is_digit = false then none
        else if negative then some (-(digits s : Int))
        else some (digits s)
      else none

def scaled (mantissa : Nat) (exponent : Int) : Nat :=
  nearest (mantissa * 10 ^ exponent.toNat) (10 ^ (-exponent).toNat)

def parse_number (s : List Char) : Option Nat :=
  let whole := s.takeWhile is_digit
  let s := s.dropWhile is_digit
  let dot := s.head? = some '.'
  let frac := if dot then s.tail.takeWhile is_digit else []
  let s := if dot then s.tail.dropWhile is_digit else s
  if whole.isEmpty ∧ frac.isEmpty then none
  else (parse_scientific s).map fun exponent => scaled (digits (whole ++ frac)) (exponent - frac.length)

def parse_inf_nan (s : List Char) (negative : Bool) : Option F64 :=
  let s := s.map Char.toLower
  if s = ['i', 'n', 'f'] ∨ s = ['i', 'n', 'f', 'i', 'n', 'i', 't', 'y'] then
    some (.value (if negative then -(infinity : Int) else infinity))
  else if s = ['n', 'a', 'n'] then some .nan
  else none

/-- `str::parse::<f64>`. -/
def parse (s : List Char) : Option F64 :=
  let negative := s.head? = some '-'
  let s := if s.head? = some '-' ∨ s.head? = some '+' then s.tail else s
  if s.isEmpty then none
  else
    match parse_number s with
    | some n => some (.value (if negative then -(n : Int) else n))
    | none => parse_inf_nan s negative

/-- 0.1 is a little over a tenth, and a half of the last place goes to the even neighbour. -/
example : nearest 1 10 * 10 = 2 ^ 1074 + 2 ^ (1074 - 54) ∧
    nearest (2 ^ 53 + 1) 1 = nearest (2 ^ 53) 1 ∧ nearest (2 ^ 53 + 3) 1 = nearest (2 ^ 53 + 4) 1 := by
  decide +kernel

end Zshrs.Lib.Binary64
