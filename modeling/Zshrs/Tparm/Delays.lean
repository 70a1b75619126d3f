import Mathlib.Algebra.Order.Ring.Int
import Zshrs.Tparm.Termcap
import Mathlib.Tactic.Ring

namespace Zshrs.Tparm

open Lib

/-- The terminal properties that decide whether a delay becomes pad bytes. -/
structure PadInfo where
  baud : Int32
  xon : Bool
  padding_baud_rate : Int32
  no_pad_char : Bool
  pad_char : UInt8

def isDigitByte (c : UInt8) : Bool := (asChar c).isDigit

def digitValue (c : UInt8) : Int := ((asChar c).toNat - '0'.toNat : Nat)

def readNumber (number : Int64) : Bytes → Option (Int64 × Bytes)
  | [] => some (number, [])
  | c :: rest =>
    if isDigitByte c then
      (checked (number.toInt * 10)).bind fun tens =>
        (checked (tens.toInt + digitValue c)).bind fun number => readNumber number rest
    else some (number, c :: rest)

/-- The decimal of a delay: only the first digit behind the point counts. -/
def readTenth (number : Int64) (s : Bytes) : Option (Int64 × Bytes) :=
  if s.head? = some (byte '.') then
    match s.tail with
    | c :: rest =>
      if isDigitByte c then
        (checked (number.toInt + digitValue c)).map fun number => (number, rest.dropWhile isDigitByte)
      else some (number, c :: rest)
    | [] => some (number, [])
  else some (number, s)

def readMarks (affcnt : Int32) (number : Int64) (mandatory : Bool) : Bytes → Option (Int64 × Bool × Bytes)
  | [] => some (number, mandatory, [])
  | c :: rest =>
    if c = byte '*' then
      (checked (number.toInt * affcnt.toInt)).bind fun number => readMarks affcnt number mandatory rest
    else if c = byte '/' then readMarks affcnt number true rest
    else some (number, mandatory, c :: rest)

/-- A delay behind its `$<`: the tenths of a millisecond, whether it is mandatory, and what follows. -/
def readDelay (affcnt : Int32) (s : Bytes) : Option (Int64 × Bool × Bytes) :=
  (readNumber 0 s).bind fun r =>
    (checked (r.1.toInt * 10)).bind fun number =>
      (readTenth number r.2).bind fun r =>
        (readMarks affcnt r.1 false r.2).map fun r =>
          (r.1, r.2.1, if r.2.2.head? = some (byte '>') then r.2.2.tail else r.2.2)

def BAUDBYTE : Int := 9

def PadInfo.normal_delay (info : PadInfo) : Bool :=
  !info.xon && decide (0 < info.padding_baud_rate) && decide (info.padding_baud_rate ≤ info.baud)

/-- Whether a delay becomes pad bytes. -/
def PadInfo.pads (info : PadInfo) (number : Int) (mandatory : Bool) : Bool :=
  decide (0 < number) && (info.normal_delay || mandatory) && !info.no_pad_char

def padBytes (info : PadInfo) (number : Int64) (mandatory : Bool) : Option Bytes :=
  if info.pads number.toInt mandatory then
    (checked (number.toInt.tdiv 10 * info.baud.toInt)).map fun product =>
      List.replicate (product.toInt.tdiv (BAUDBYTE * 1000)).toNat info.pad_char
  else some []

def startsDelay (rest : Bytes) : Bool :=
  (match rest with
    | c :: _ => isDigitByte c || decide (c = byte '.')
    | [] => false) && decide (byte '>' ∈ rest)

/-- One round of the loop of `tputs`. -/
def putsStep (cap : Bytes) (affcnt : Int32) (info : PadInfo) (s : Nat × Bytes) : Option (Nat × Bytes) :=
  match cap[s.1]? with
  | none => none
  | some b =>
    if b ≠ byte '$' then some (s.1 + 1, s.2 ++ [b])
    else if cap[s.1 + 1]? ≠ some (byte '<') then some (s.1 + 1, s.2 ++ [byte '$'])
    else
      let rest := cap.drop (s.1 + 2)
      if ¬ startsDelay rest then some (s.1 + 2, s.2 ++ [byte '$', byte '<'])
      else (readDelay affcnt rest).bind fun r =>
        (padBytes info r.1 r.2.1).map fun pads => (cap.length - r.2.2.length, s.2 ++ pads)

def decimalValue (n : Int) (ds : Bytes) : Int := ds.foldl (fun n c => n * 10 + digitValue c) n

def isMark (c : UInt8) : Bool := decide (c = byte '*') || decide (c = byte '/')

/-- What a delay says in front of its marks, in tenths of a millisecond. -/
def delayTenths (s : Bytes) : Int :=
  match s.dropWhile isDigitByte with
  | point :: c :: _ =>
    decimalValue 0 (s.takeWhile isDigitByte) * 10 +
      if point = byte '.' ∧ isDigitByte c then digitValue c else 0
  | _ => decimalValue 0 (s.takeWhile isDigitByte) * 10

/-- What follows the decimal of a delay. -/
def behindDecimal (s : Bytes) : Bytes :=
  if s.head? = some (byte '.') then s.tail.dropWhile isDigitByte else s

def delayMarks (s : Bytes) : Bytes := (behindDecimal (s.dropWhile isDigitByte)).takeWhile isMark

def delayStars (s : Bytes) : Nat := (delayMarks s).count (byte '*')

def isMandatory (s : Bytes) : Bool := decide (byte '/' ∈ delayMarks s)

def behindDelay (s : Bytes) : Bytes :=
  let rest := (behindDecimal (s.dropWhile isDigitByte)).dropWhile isMark
  if rest.head? = some (byte '>') then rest.tail else rest

section Numbers

theorem digitValue_nonneg (c : UInt8) : 0 ≤ digitValue c := Int.natCast_nonneg _

theorem le_decimalValue {n : Int} (hn : 0 ≤ n) (ds : Bytes) : n ≤ decimalValue n ds := by
  induction ds generalizing n with
  | nil => exact Int.le_refl n
  | cons c ds ih =>
      have hc := digitValue_nonneg c
      have hnext := ih (n := n * 10 + digitValue c) (by omega)
      rw [decimalValue, List.foldl_cons]
      rw [decimalValue] at hnext
      omega

theorem checked_toInt (v : Int64) : checked v.toInt = some v := by
  rw [checked, if_pos (inRange_toInt v), Int64.ofInt_toInt]

theorem checked_eq_none {x : Int} (h : ¬ InRange x) : checked x = none := if_neg h

theorem checked_eq_some {x : Int} (h : InRange x) : ∃ v, checked x = some v ∧ v.toInt = x := by
  obtain ⟨v, hv⟩ := Option.ne_none_iff_exists'.mp (checked_ne_none_iff.mpr h)
  exact ⟨v, hv, toInt_checked hv⟩

/-- A number is below all that it grows to. -/
theorem inRange_of_le {x y : Int} (hx : 0 ≤ x) (hxy : x ≤ y) (hy : InRange y) : InRange x := by
  rw [inRange_iff] at hy ⊢
  omega

theorem readNumber_eq {number : Int64} (hn : 0 ≤ number.toInt) (s : Bytes) : readNumber number s =
    (checked (decimalValue number.toInt (s.takeWhile isDigitByte))).map fun v => (v, s.dropWhile isDigitByte) := by
  induction s generalizing number with
  | nil =>
      have hdone : decimalValue number.toInt [] = number.toInt := rfl
      rw [readNumber, List.takeWhile_nil, hdone, checked_toInt]
      rfl
  | cons c rest ih =>
      rw [readNumber]
      by_cases hc : isDigitByte c = true
      · rw [if_pos hc, List.takeWhile_cons_of_pos hc, List.dropWhile_cons_of_pos hc]
        have hd := digitValue_nonneg c
        have hstep : decimalValue number.toInt (c :: rest.takeWhile isDigitByte) =
            decimalValue (number.toInt * 10 + digitValue c) (rest.takeWhile isDigitByte) := rfl
        rw [hstep]
        have hgrows := le_decimalValue (n := number.toInt * 10 + digitValue c) (by omega)
          (rest.takeWhile isDigitByte)
        by_cases hnext : InRange (number.toInt * 10 + digitValue c)
        · obtain ⟨tens, htens, htensInt⟩ :=
            checked_eq_some (inRange_of_le (x := number.toInt * 10) (by omega) (by omega) hnext)
          obtain ⟨v, hv, hvInt⟩ := checked_eq_some hnext
          rw [htens, Option.bind_some, htensInt, hv, Option.bind_some, ih (by omega), hvInt]
        · have hno : ¬ InRange (decimalValue (number.toInt * 10 + digitValue c) (rest.takeWhile isDigitByte)) :=
            fun h => hnext (inRange_of_le (by omega) hgrows h)
          rw [checked_eq_none hno, Option.map_none]
          apply Option.bind_eq_none_iff.mpr
          intro tens htens
          rw [toInt_checked htens, checked_eq_none hnext, Option.bind_none]
      · have hdone : decimalValue number.toInt [] = number.toInt := rfl
        rw [if_neg hc, List.takeWhile_cons_of_neg hc, List.dropWhile_cons_of_neg hc, hdone, checked_toInt]
        rfl

/-- The number times the count of affected lines, once for each star. -/
def multiplied (affcnt : Int32) (number : Int64) : Nat → Option Int64
  | 0 => some number
  | k + 1 => (checked (number.toInt * affcnt.toInt)).bind fun number => multiplied affcnt number k

theorem multiplied_ne_none_iff {affcnt : Int32} {number : Int64} {k : Nat} : multiplied affcnt number k ≠ none ↔
    ∀ j ≤ k, InRange (number.toInt * affcnt.toInt ^ j) := by
  induction k generalizing number with
  | zero =>
      rw [multiplied]
      refine iff_of_true (Option.some_ne_none number) ?_
      intro j hj
      cases Nat.le_zero.mp hj
      rw [Int.pow_zero, Int.mul_one]
      exact inRange_toInt number
  | succ k ih =>
      have hpow : ∀ j : Nat, number.toInt * affcnt.toInt ^ (j + 1) =
          number.toInt * affcnt.toInt * affcnt.toInt ^ j := by
        intro j
        rw [Int.pow_succ, Int.mul_assoc, Int.mul_comm (affcnt.toInt ^ j)]
      have hsplit : (∀ j ≤ k + 1, InRange (number.toInt * affcnt.toInt ^ j)) ↔
          ∀ j ≤ k, InRange (number.toInt * affcnt.toInt * affcnt.toInt ^ j) := by
        constructor
        · intro h j hj
          rw [← hpow]
          exact h (j + 1) (Nat.succ_le_succ hj)
        · intro h j hj
          cases j with
          | zero =>
              rw [Int.pow_zero, Int.mul_one]
              exact inRange_toInt number
          | succ j =>
              rw [hpow]
              exact h j (Nat.le_of_succ_le_succ hj)
      rw [multiplied, hsplit]
      by_cases hnext : InRange (number.toInt * affcnt.toInt)
      · obtain ⟨v, hv, hvInt⟩ := checked_eq_some hnext
        rw [hv, Option.bind_some, ih, hvInt]
      · rw [checked_eq_none hnext, Option.bind_none]
        refine iff_of_false (fun h => h rfl) ?_
        intro h
        have hzero := h 0 (Nat.zero_le k)
        rw [Int.pow_zero, Int.mul_one] at hzero
        exact hnext hzero

theorem toInt_multiplied {affcnt : Int32} {number v : Int64} {k : Nat} (h : multiplied affcnt number k = some v) :
    v.toInt = number.toInt * affcnt.toInt ^ k := by
  induction k generalizing number with
  | zero =>
      cases h
      rw [Int.pow_zero, Int.mul_one]
  | succ k ih =>
      obtain ⟨w, hw, h⟩ := Option.bind_eq_some_iff.mp h
      rw [ih h, toInt_checked hw, Int.pow_succ, Int.mul_assoc, Int.mul_comm (affcnt.toInt ^ k)]

end Numbers

section Reading

variable (affcnt : Int32)

theorem readMarks_eq (number : Int64) (mandatory : Bool) (s : Bytes) : readMarks affcnt number mandatory s =
    (multiplied affcnt number ((s.takeWhile isMark).count (byte '*'))).map fun v =>
      (v, mandatory || decide (byte '/' ∈ s.takeWhile isMark), s.dropWhile isMark) := by
  induction s generalizing number mandatory with
  | nil => simp [readMarks, multiplied]
  | cons c rest ih =>
      rw [readMarks]
      by_cases hstar : c = byte '*'
      · subst hstar
        have hmark : isMark (byte '*') = true := by decide
        have hslash : byte '/' ≠ byte '*' := by decide
        rw [if_pos rfl, List.takeWhile_cons_of_pos hmark, List.dropWhile_cons_of_pos hmark, List.count_cons_self,
          multiplied, Option.map_bind]
        apply congrArg
        funext v
        rw [ih]
        simp [hslash]
      · rw [if_neg hstar]
        by_cases hslash : c = byte '/'
        · subst hslash
          have hmark : isMark (byte '/') = true := by decide
          rw [if_pos rfl, List.takeWhile_cons_of_pos hmark, List.dropWhile_cons_of_pos hmark,
            List.count_cons_of_ne hstar, ih]
          simp
        · have hmark : ¬ isMark c = true := by simp [isMark, hstar, hslash]
          rw [if_neg hslash, List.takeWhile_cons_of_neg hmark, List.dropWhile_cons_of_neg hmark]
          simp [multiplied]

/-- A delay is read as what it says. -/
theorem readDelay_eq (s : Bytes) : readDelay affcnt s = (checked (delayTenths s)).bind fun tenths =>
    (multiplied affcnt tenths (delayStars s)).map fun number => (number, isMandatory s, behindDelay s) := by
  have hzero : (0 : Int64).toInt = 0 := rfl
  have hwhole : 0 ≤ decimalValue 0 (s.takeWhile isDigitByte) := le_decimalValue (Int.le_refl 0) _
  have htenth : ∀ number : Int64, number.toInt = decimalValue 0 (s.takeWhile isDigitByte) * 10 →
      readTenth number (s.dropWhile isDigitByte) =
        (checked (delayTenths s)).map fun v => (v, behindDecimal (s.dropWhile isDigitByte)) := by
    intro number hnumber
    have hsame : checked (decimalValue 0 (s.takeWhile isDigitByte) * 10) = some number := by
      rw [← hnumber, checked_toInt]
    rw [delayTenths]
    match hs : s.dropWhile isDigitByte with
    | [] => simp [readTenth, behindDecimal, hsame]
    | [point] =>
        by_cases hpoint : point = byte '.' <;> simp [readTenth, behindDecimal, hpoint, hsame]
    | point :: c :: rest =>
        by_cases hpoint : point = byte '.'
        · by_cases hc : isDigitByte c = true
          · simp [readTenth, behindDecimal, hpoint, hc, hnumber]
          · simp [readTenth, behindDecimal, hpoint, hc, hsame]
        · simp [readTenth, behindDecimal, hpoint, hsame]
  have hle : decimalValue 0 (s.takeWhile isDigitByte) * 10 ≤ delayTenths s := by
    rw [delayTenths]
    split
    · rename_i c _ _
      have hc := digitValue_nonneg c
      split <;> omega
    · exact Int.le_refl _
  rw [readDelay, readNumber_eq (by simp), hzero]
  by_cases hfits : InRange (delayTenths s)
  · obtain ⟨whole, hw, hwInt⟩ := checked_eq_some (inRange_of_le hwhole (by omega) hfits)
    have hten := inRange_of_le (by omega) hle hfits
    obtain ⟨number, hn, hnInt⟩ := checked_eq_some hten
    obtain ⟨tenths, ht, htInt⟩ := checked_eq_some hfits
    rw [hw, Option.map_some, Option.bind_some]
    simp only [hwInt]
    rw [hn, Option.bind_some, htenth number hnInt, ht, Option.map_some, Option.bind_some, Option.bind_some]
    simp only [readMarks_eq, Option.map_map]
    rfl
  · rw [checked_eq_none hfits, Option.bind_none]
    apply Option.bind_eq_none_iff.mpr
    intro r hr
    obtain ⟨whole, hw, rfl⟩ := Option.map_eq_some_iff.mp hr
    apply Option.bind_eq_none_iff.mpr
    intro number hn
    have hn := toInt_checked hn
    dsimp only at hn ⊢
    rw [toInt_checked hw] at hn
    rw [htenth number hn, checked_eq_none hfits, Option.map_none, Option.bind_none]

theorem length_behindDelay_le (s : Bytes) : (behindDelay s).length ≤ s.length := by
  have hdrop : ∀ (p : UInt8 → Bool) (t : Bytes), (t.dropWhile p).length ≤ t.length :=
    fun p t => (t.dropWhile_suffix p).length_le
  have htail : ∀ t : Bytes, t.tail.length ≤ t.length := by
    intro t
    rw [List.length_tail]
    omega
  have hdecimal : (behindDecimal (s.dropWhile isDigitByte)).length ≤ s.length := by
    rw [behindDecimal]
    split
    · exact Nat.le_trans (hdrop _ _) (Nat.le_trans (htail _) (hdrop _ s))
    · exact hdrop _ s
  have hmarks := Nat.le_trans (hdrop isMark _) hdecimal
  rw [behindDelay]
  split
  · exact Nat.le_trans (htail _) hmarks
  · exact hmarks

end Reading

end Zshrs.Tparm
