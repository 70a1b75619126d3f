import Mathlib.Data.Char
import Mathlib.Data.List.Basic
import Mathlib.Algebra.Group.Nat.Defs
import Mathlib.Algebra.Group.Int.Defs

namespace Zshrs.Tparm

abbrev Bytes := List UInt8

/-- A byte as a character, and an ASCII character as a byte. -/
def asChar (b : UInt8) : Char := Char.ofNat b.toNat
def byte (c : Char) : UInt8 := UInt8.ofNat c.toNat

def bytes (s : List Char) : Bytes := s.map byte

inductive V
  | Int (i : Int64)
  | Str (s : Bytes)
  deriving DecidableEq

def parse_digits (s : List Char) : Option Nat :=
  if s ≠ [] ∧ s.all Char.isDigit then some (Nat.ofDigitChars 10 s 0) else none

/-- `str::parse::<usize>`. -/
def parse_usize (s : List Char) : Option Nat :=
  (parse_digits (if s.head? = some '+' then s.tail else s)).filter fun n => n < 2 ^ 64

/-- `str::parse::<i64>`. -/
def parse_i64 (s : List Char) : Option Int64 :=
  match s with
  | '-' :: ds => (parse_digits ds).bind fun n => if n ≤ 2 ^ 63 then some (Int64.ofInt (-n)) else none
  | '+' :: ds => (parse_digits ds).bind fun n => if n < 2 ^ 63 then some (Int64.ofNat n) else none
  | ds => (parse_digits ds).bind fun n => if n < 2 ^ 63 then some (Int64.ofNat n) else none

def decimal (i : Int64) : List Char :=
  if i < 0 then '-' :: Nat.toDigits 10 i.toInt.natAbs else Nat.toDigits 10 i.toInt.natAbs

def V.int : V → Int64
  | .Int i => i
  | .Str s => (parse_i64 (s.map asChar)).getD 0

def V.string : V → Bytes
  | .Int i => bytes (decimal i)
  | .Str s => s

def InRange (x : Int) : Prop := Int64.minValue.toInt ≤ x ∧ x ≤ Int64.maxValue.toInt

instance (x : Int) : Decidable (InRange x) := inferInstanceAs (Decidable (_ ∧ _))

/-- The result of an `i64` operation, which panics where it is out of range. -/
def checked (x : Int) : Option Int64 := if InRange x then some (Int64.ofInt x) else none

/-- No string is longer. -/
def isizeMax : Nat := 2 ^ 63 - 1

/-- A string as it is built; asking for more room than there can be panics. -/
def room (s : List Char) : Option (List Char) := if s.length ≤ isizeMax then some s else none

structure Format where
  left : Bool
  zero : Bool
  plus : Bool
  space : Bool
  alt : Bool
  width : Option Nat
  precision : Option Nat
  deriving DecidableEq

def isFlag (c : Char) : Bool := c = '-' || c = '0' || c = '+' || c = ' ' || c = '#'

/-- A `%[[:]flags][width[.precision]]` run. -/
def readFormat (spec : List Char) : Format :=
  let spec := if spec.head? = some ':' then spec.tail else spec
  let flags := spec.takeWhile isFlag
  let rest := spec.dropWhile isFlag
  let wp : Option Nat × Option Nat :=
    if '.' ∈ rest then
      (parse_usize (rest.takeWhile (· ≠ '.')), parse_usize (rest.dropWhile (· ≠ '.')).tail)
    else (parse_usize rest, none)
  ⟨'-' ∈ flags, '0' ∈ flags, '+' ∈ flags, ' ' ∈ flags, '#' ∈ flags, wp.1, wp.2⟩

/-- The digits of `v as i32`, without a sign. -/
def digits (conv : Char) (v : Int64) : List Char :=
  let n32 := v.toInt32
  match conv with
  | 'o' => Nat.toDigits 8 n32.toUInt32.toNat
  | 'x' => Nat.toDigits 16 n32.toUInt32.toNat
  | 'X' => (Nat.toDigits 16 n32.toUInt32.toNat).map Char.toUpper
  | _ => Nat.toDigits 10 n32.toInt.natAbs

/-- What stands in front of the digits. -/
def front (f : Format) (conv : Char) (v : Int64) : List Char :=
  if conv = 'd' then
    if v < 0 then ['-'] else if f.plus then ['+'] else if f.space then [' '] else []
  else if f.alt ∧ v ≠ 0 then
    match conv with
    | 'o' => ['0']
    | 'x' => ['0', 'x']
    | 'X' => ['0', 'X']
    | _ => []
  else []

def padded (f : Format) (conv : Char) (v : Int64) (body : List Char) (pad : Nat) : Option (List Char) :=
  if f.left then some (body ++ List.replicate pad ' ')
  else if f.zero ∧ conv = 'd' ∧ (v < 0 ∨ f.plus ∨ f.space) then
    -- `body.split_at(1)`: zero padding goes after the sign
    match body with
    | [] => none
    | sign :: digits => some (sign :: (List.replicate pad '0' ++ digits))
  else if f.zero then some (List.replicate pad '0' ++ body)
  else some (List.replicate pad ' ' ++ body)

/-- Format an integer the way `printf` would for the given terminfo directive. -/
def fmt_int (spec : List Char) (conv : Char) (v : Int64) : Option (List Char) := do
  let f := readFormat spec
  let body := digits conv v
  let body ← room (List.replicate (f.precision.getD 0 - body.length) '0' ++ body)
  let body ← room (front f conv v ++ body)
  match f.width with
  | none => some body
  | some w =>
    if w ≤ body.length then some body
    else (padded f conv v body (w - body.length)).bind room

example : fmt_int [':', '-', '5'] 'd' 42 = some ['4', '2', ' ', ' ', ' '] := by decide
example : fmt_int ['2', '.', '2'] 'X' 0 = some ['0', '0'] := by decide

/-- How long a formatted number is. -/
def formattedLength (spec : List Char) (conv : Char) (v : Int64) : Nat :=
  let f := readFormat spec
  max (f.width.getD 0) ((front f conv v).length + max (f.precision.getD 0) (digits conv v).length)

theorem inRange_iff {x : Int} : InRange x ↔ -2 ^ 63 ≤ x ∧ x ≤ 2 ^ 63 - 1 := Iff.rfl

theorem inRange_toInt (v : Int64) : InRange v.toInt := by
  have hlo := v.le_toInt
  have hhi := v.toInt_lt
  rw [inRange_iff]
  omega

theorem checked_ne_none_iff {x : Int} : checked x ≠ none ↔ InRange x := by
  rw [checked]
  by_cases h : InRange x <;> simp [h]

theorem toInt_checked {x : Int} {v : Int64} (h : checked x = some v) : v.toInt = x := by
  rw [checked] at h
  split at h
  · rename_i hx
    rw [inRange_iff] at hx
    cases h
    exact Int64.toInt_ofInt_of_le (by omega) (by omega)
  · cases h

theorem room_of_le {s : List Char} (h : s.length ≤ isizeMax) : room s = some s := if_pos h

theorem length_padded {f : Format} {conv : Char} {v : Int64} {body t : List Char} {pad : Nat}
    (h : padded f conv v body pad = some t) : t.length = body.length + pad := by
  rw [padded.eq_def] at h
  split at h
  · cases h
    simp
  · split at h
    · cases body with
      | nil => cases h
      | cons sign digits =>
          cases h
          simp
          omega
    · split at h
      · cases h
        simp [Nat.add_comm]
      · cases h
        simp [Nat.add_comm]

/-- A sign is there where zeros are put behind it. -/
theorem padded_ne_none {f : Format} {conv : Char} {v : Int64} {ds : List Char} {pad : Nat} :
    padded f conv v (front f conv v ++ ds) pad ≠ none := by
  rw [padded.eq_def]
  split
  · simp
  · split
    · rename_i h
      obtain ⟨-, rfl, hsign⟩ := h
      have hfront : front f 'd' v ≠ [] := by
        rw [front.eq_def, if_pos rfl]
        split
        · simp
        · split
          · simp
          · split
            · simp
            · simp_all
      cases hf : front f 'd' v with
      | nil => exact absurd hf hfront
      | cons c cs => simp
    · split <;> simp

/-- The digits, as many as the precision asks for. -/
def precise (spec : List Char) (conv : Char) (v : Int64) : List Char :=
  List.replicate ((readFormat spec).precision.getD 0 - (digits conv v).length) '0' ++ digits conv v

def signed (spec : List Char) (conv : Char) (v : Int64) : List Char :=
  front (readFormat spec) conv v ++ precise spec conv v

section Lengths

variable (spec : List Char) (conv : Char) (v : Int64)

theorem length_precise : (precise spec conv v).length =
    max ((readFormat spec).precision.getD 0) (digits conv v).length := by
  rw [precise, List.length_append, List.length_replicate]
  omega

theorem length_signed : (signed spec conv v).length = (front (readFormat spec) conv v).length +
    max ((readFormat spec).precision.getD 0) (digits conv v).length := by
  rw [signed, List.length_append, length_precise]

theorem formattedLength_eq : formattedLength spec conv v =
    max ((readFormat spec).width.getD 0) (signed spec conv v).length := by
  rw [length_signed]
  rfl

theorem fmt_int_eq : fmt_int spec conv v = (room (precise spec conv v)).bind fun _ =>
    (room (signed spec conv v)).bind fun body =>
      if (readFormat spec).width.getD 0 ≤ body.length then some body
      else (padded (readFormat spec) conv v body ((readFormat spec).width.getD 0 - body.length)).bind room := by
  have hroom : ∀ (s : List Char) (f g : List Char → Option (List Char)), f s = g s →
      (room s).bind f = (room s).bind g := by
    intro s f g h
    rw [room]
    split
    · exact h
    · rfl
  rw [fmt_int]
  apply hroom
  apply hroom
  cases (readFormat spec).width with
  | none => simp
  | some w => rfl

/-- A number is formatted if and only if there is room for it, and it is as long as the run asks for. -/
theorem fmt_int_spec : (fmt_int spec conv v ≠ none ↔ formattedLength spec conv v ≤ isizeMax) ∧
    ∀ t, fmt_int spec conv v = some t → t.length = formattedLength spec conv v := by
  have hlen : (precise spec conv v).length ≤ (signed spec conv v).length := by
    rw [signed, List.length_append]
    omega
  have hformatted := formattedLength_eq spec conv v
  by_cases hsigned : (signed spec conv v).length ≤ isizeMax
  · rw [fmt_int_eq, room_of_le (Nat.le_trans hlen hsigned), Option.bind_some, room_of_le hsigned, Option.bind_some]
    by_cases hw : (readFormat spec).width.getD 0 ≤ (signed spec conv v).length
    · rw [if_pos hw]
      rw [max_eq_right hw] at hformatted
      refine ⟨iff_of_true (Option.some_ne_none _) (hformatted ▸ hsigned), ?_⟩
      intro t ht
      cases ht
      exact hformatted.symm
    · rw [if_neg hw]
      rw [max_eq_left (by omega)] at hformatted
      obtain ⟨t, ht⟩ := Option.ne_none_iff_exists'.mp (@padded_ne_none (readFormat spec) conv v
        (precise spec conv v) ((readFormat spec).width.getD 0 - (signed spec conv v).length))
      have ht : padded (readFormat spec) conv v (signed spec conv v)
          ((readFormat spec).width.getD 0 - (signed spec conv v).length) = some t := ht
      have hlength : t.length = formattedLength spec conv v := by
        rw [length_padded ht, hformatted]
        omega
      rw [ht, Option.bind_some, room, hlength]
      by_cases hfits : formattedLength spec conv v ≤ isizeMax
      · rw [if_pos hfits]
        refine ⟨iff_of_true (Option.some_ne_none t) hfits, ?_⟩
        intro t' ht'
        cases ht'
        exact hlength
      · rw [if_neg hfits]
        exact ⟨iff_of_false (by simp) hfits, by simp⟩
  · have hnone : fmt_int spec conv v = none := by
      rw [fmt_int_eq]
      apply Option.bind_eq_none_iff.mpr
      intro _ _
      rw [room, if_neg hsigned, Option.bind_none]
    rw [hnone]
    refine ⟨iff_of_false (by simp) ?_, by simp⟩
    rw [hformatted]
    omega

end Lengths

end Zshrs.Tparm
