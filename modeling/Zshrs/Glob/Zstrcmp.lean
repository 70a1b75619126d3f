import Mathlib.Data.List.Basic

namespace Zshrs.Glob

abbrev Bytes := List UInt8

def SORTIT_NUMERICALLY : UInt32 := 2
def SORTIT_NUMERICALLY_SIGNED : UInt32 := 4
def SORTIT_IGNORING_BACKSLASHES : UInt32 := 16

/-- The emulations that the comparators ask for. -/
structure Modes where
  dash_strict : Bool
  pdksh_family : Bool
  ash_mode : Bool

def is_digit (c : UInt8) : Bool := 48 ≤ c && c ≤ 57

/-- The byte under a cursor, and a NUL behind the end. -/
def byteAt (s : Bytes) (i : Nat) : UInt8 := s.getD i 0

/-- How far two cursors move together while their bytes pass. -/
def together (p : UInt8 → UInt8 → Bool) : Bytes → Bytes → Nat
  | x :: xs, y :: ys => if p x y then together p xs ys + 1 else 0
  | _, _ => 0

/-- A cursor moved back over the digits in front of it. -/
def rewind (s : Bytes) : Nat → Nat
  | 0 => 0
  | i + 1 => if is_digit (byteAt s i) then rewind s i else i + 1

/-- `strcoll` where bytes are ordered by their values. It stops at a NUL. -/
def strcoll (a b : Bytes) : Ordering := compare (a.takeWhile (· != 0)) (b.takeWhile (· != 0))

/-- Two runs of digits as numbers, leading zeros skipped. Equal numbers do not decide. -/
def runs (mul : Int) (u v : Bytes) : Option Ordering :=
  let u := u.dropWhile (· == 48)
  let v := v.dropWhile (· == 48)
  let k := together (fun x y => is_digit x && x == y) u v
  let u := u.drop k
  let v := v.drop k
  if is_digit (byteAt u 0) || is_digit (byteAt v 0) then
    let cmp := mul * ((byteAt u 0).toNat - (byteAt v 0).toNat)
    let n := together (fun x y => is_digit x && is_digit y) u v
    if is_digit (byteAt u n) && !is_digit (byteAt v n) then some (if 0 ≤ mul then .gt else .lt)
    else if is_digit (byteAt v n) && !is_digit (byteAt u n) then
      some (if 0 ≤ mul then .lt else .gt)
    else some (compare cmp 0)
  else none

/-- The numeric block of `zstrcmp`: both cursors stand at the first divergence, and go back to the
start of the digits there. -/
def cmp_numeric (a bs : Bytes) (signed_mode : Bool) : Ordering :=
  let i := together (fun x y => x == y && x != 0) a bs
  if signed_mode && byteAt a i == 45 && is_digit (byteAt a (i + 1)) && is_digit (byteAt bs i) then .lt
  else if signed_mode && byteAt bs i == 45 && is_digit (byteAt bs (i + 1)) && is_digit (byteAt a i) then
    .gt
  else if is_digit (byteAt a i) || is_digit (byteAt bs i) then
    let r := rewind a i
    let mul := if signed_mode && 0 < r && byteAt a (r - 1) == 45 then -1 else 1
    if is_digit (byteAt a r) && is_digit (byteAt bs r) then
      (runs mul (a.drop r) (bs.drop r)).getD (strcoll a bs)
    else strcoll a bs
  else strcoll a bs

def stripBackslash (s : Bytes) : Bytes := if s.head? = some 92 then s.tail else s

/-- At most one backslash is skipped on each side at every step, up to the first mismatch. -/
def skipBackslashes : Nat → Bytes → Bytes → Bytes × Bytes
  | 0, a, b => (a, b)
  | fuel + 1, a, b =>
    if a = [] ∨ b = [] then (a, b)
    else
      match stripBackslash a, stripBackslash b with
      | x :: as, y :: bs => if x = y then skipBackslashes fuel as bs else (x :: as, y :: bs)
      | a, b => (a, b)

/-- The operands that `SORTIT_IGNORING_BACKSLASHES` leaves. -/
def ignoringBackslashes (numeric : Bool) (a bs : Bytes) : Bytes × Bytes :=
  if numeric then (a.filter (· != 92), bs.filter (· != 92))
  else if !a.contains 92 && !bs.contains 92 then (a, bs)
  else skipBackslashes a.length a bs

def zstrcmp (m : Modes) (a bs : Bytes) (sortflags : UInt32) : Ordering :=
  if m.dash_strict || m.pdksh_family then compare a bs
  else
    let signed := sortflags &&& SORTIT_NUMERICALLY_SIGNED != 0
    let numeric := signed || sortflags &&& SORTIT_NUMERICALLY != 0
    let (a, bs) :=
      if sortflags &&& SORTIT_IGNORING_BACKSLASHES != 0 then ignoringBackslashes numeric a bs
      else (a, bs)
    if numeric then cmp_numeric a bs signed else strcoll a bs

end Zshrs.Glob
