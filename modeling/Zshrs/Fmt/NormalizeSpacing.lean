import Mathlib.Data.List.DropRight
import Zshrs.Fmt.Regions

namespace Zshrs.Fmt

open Lib Lib.Utf8

/-- The tables of the standard library. -/
structure Unicode where
  is_whitespace : Char → Bool
  is_alphanumeric : Char → Bool

/-- Line-start context for `normalize_spacing`. -/
structure NormCtx where
  paren_depth : Nat
  in_case_pattern : Bool

/-- The variables of `normalize_spacing` that its loop changes. -/
structure Norm where
  i : Nat
  out : List Char
  paren_depth : Nat
  case_pattern : Bool
  case_kw_seen : Bool

def isSpacing (c : Char) : Bool := decide (c = ' ') || decide (c = '\t')

def no_space (out : List Char) : List Char := out.rdropWhile isSpacing

def one_space (out : List Char) : List Char := if no_space out = [] then [] else no_space out ++ [' ']

/-- Whether `out`, its trailing whitespace aside, ends like a name. -/
def after_word (uni : Unicode) (out : List Char) : Bool :=
  match (out.rdropWhile uni.is_whitespace).getLast? with
  | some ch => uni.is_alphanumeric ch || decide (ch ∈ ['_', '.', ':', '-'])
  | none => false

def isRedirect (c : UInt8) : Bool := decide (c ∈ [byte '<', byte '>', byte '&', byte '-', byte '|'])

def isDigit (c : UInt8) : Bool := decide (byte '0' ≤ c) && decide (c ≤ byte '9')

/-- The bytes that an arm of their own handles. -/
def special : Bytes :=
  [byte ' ', byte '\t', byte '\\', byte '\'', byte '\x22', byte '\x60', byte '#', byte '$', byte '(', byte ')', byte '&',
    byte '|', byte ';', byte '<', byte '>']

def isSpecial (c : UInt8) : Bool := decide (c ∈ special)

/-- Where a redirection cluster ends that starts at `i`. -/
def redirectEnd (b : Bytes) (i : Nat) : Nat :=
  let j := runEnd isRedirect b (i + 1)
  if i + 1 < j ∧ b[j - 1]? = some (byte '&') then
    let k := runEnd isDigit b j
    if b[k]? = some (byte '-') then k + 1 else k
  else j

namespace Norm

variable (body : List Char) (s : Norm)

/-- Neither in parentheses nor in a case pattern. -/
def plain : Bool := decide (s.paren_depth = 0) && !s.case_pattern

/-- The text from the index up to `stop` is copied. -/
def protect (stop : Nat) : Option Norm :=
  (slice body s.i stop).map fun t => { s with i := stop, out := s.out ++ t }

/-- An operator has been written, and what follows gets one space. -/
def spaced (b : Bytes) (j : Nat) (out : List Char) : Norm :=
  let k := runEnd isBlank b j
  { s with i := k, out := if k < b.length then out ++ [' '] else out }

def whitespace (b : Bytes) : Norm :=
  let k := runEnd isBlank b s.i
  { s with i := k, out := if s.out ≠ [] ∧ k < b.length then s.out ++ [' '] else s.out }

def backslash (b : Bytes) : Norm :=
  { s with i := s.i + 2, out := s.out ++ '\\' :: (b[s.i + 1]?.toList.map asChar) }

def comment (b : Bytes) : Option Norm :=
  (slice body s.i b.length).map fun t => { s with i := b.length, out := one_space s.out ++ t }

def dollar (b : Bytes) : Option Norm :=
  if b[s.i + 1]? = some (byte '\'') then
    s.protect body (min (escapedEnd (byte '\'') b (s.i + 2) + 1) b.length)
  else if b[s.i + 1]? = some (byte '{') then s.protect body (bracedEnd b (s.i + 2))
  else some { s with i := s.i + 1, out := s.out ++ ['$'] }

def openParen (uni : Unicode) (b : Bytes) : Norm :=
  let j := runEnd isBlank b (s.i + 1)
  -- `name ()` becomes `name()`
  if b[j]? = some (byte ')') ∧ after_word uni s.out then
    { s with i := j + 1, out := no_space s.out ++ ['(', ')'] }
  else { s with i := s.i + 1, out := s.out ++ ['('], paren_depth := s.paren_depth + 1 }

def closeParen : Norm :=
  { s with i := s.i + 1, out := s.out ++ [')'], paren_depth := s.paren_depth - 1, case_pattern := false }

def ampersand (b : Bytes) : Norm :=
  let nx := b[s.i + 1]?
  let own := if s.plain then one_space s.out else s.out
  if nx = some (byte '&') then
    if s.plain then s.spaced b (s.i + 2) (own ++ ['&', '&']) else { s with i := s.i + 2, out := own ++ ['&', '&'] }
  else if nx = some (byte '>') then { s with i := s.i + 2, out := one_space s.out ++ ['&', '>'] }
  else if nx = some (byte '|') then { s with i := s.i + 2, out := own ++ ['&', '|'] }
  else if nx = some (byte '!') then { s with i := s.i + 2, out := own ++ ['&', '!'] }
  else { s with i := s.i + 1, out := own ++ ['&'] }

def pipe (b : Bytes) : Norm :=
  let nx := b[s.i + 1]?
  if s.plain then
    if nx = some (byte '|') then s.spaced b (s.i + 2) (one_space s.out ++ ['|', '|'])
    else if nx = some (byte '&') then s.spaced b (s.i + 2) (one_space s.out ++ ['|', '&'])
    else s.spaced b (s.i + 1) (one_space s.out ++ ['|'])
  else { s with i := s.i + 1, out := s.out ++ ['|'] }

def semicolon (b : Bytes) : Norm :=
  match b[s.i + 1]?.filter fun nx => decide (nx ∈ [byte ';', byte '&', byte '|']) with
  | some nx => { s.spaced b (s.i + 2) (one_space s.out ++ [';', asChar nx]) with case_pattern := true }
  | none =>
    if s.paren_depth = 0 then s.spaced b (s.i + 1) (no_space s.out ++ [';'])
    else { s with i := s.i + 1, out := s.out ++ [';'] }

def word (b : Bytes) (c : UInt8) : Option Norm :=
  let j := runEnd (fun c => !isSpecial c) b s.i
  if j = s.i then some { s with i := s.i + 1, out := s.out ++ [asChar c] }
  else (slice body s.i j).map fun word =>
    let s := { s with i := j, out := s.out ++ word }
    if word = ['c', 'a', 's', 'e'] then { s with case_kw_seen := true }
    else if word = ['i', 'n'] ∧ s.case_kw_seen then { s with case_kw_seen := false, case_pattern := true }
    else s

/-- One round of the loop of `normalize_spacing`. -/
def step (uni : Unicode) : Option Norm :=
  let b := encode body
  match b[s.i]? with
  | none => none
  | some c =>
    if isBlank c then some (s.whitespace b)
    else if c = byte '\\' then some (s.backslash b)
    else if c = byte '\'' then s.protect body (min (runEnd (fun c => decide (c ≠ byte '\'')) b (s.i + 1) + 1) b.length)
    else if c = byte '\x22' then s.protect body (min (escapedEnd (byte '\x22') b (s.i + 1) + 1) b.length)
    else if c = byte '\x60' then s.protect body (min (escapedEnd (byte '\x60') b (s.i + 1) + 1) b.length)
    else if c = byte '#' then s.comment body b
    else if c = byte '$' then s.dollar body b
    else if c = byte '(' then some (s.openParen uni b)
    else if c = byte ')' then some s.closeParen
    else if c = byte '&' then some (s.ampersand b)
    else if c = byte '|' then some (s.pipe b)
    else if c = byte ';' then some (s.semicolon b)
    else if c = byte '<' ∨ c = byte '>' then s.protect body (redirectEnd b s.i)
    else s.word body b c

end Norm

end Zshrs.Fmt
