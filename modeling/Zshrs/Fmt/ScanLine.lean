import Zshrs.Fmt.Normalized
import Mathlib.Algebra.GroupWithZero.Nat

namespace Zshrs.Fmt

open Lib Lib.Utf8

inductive CaseSub
  | Pattern
  | Body
  deriving DecidableEq

/-- One open block on the indent stack. -/
inductive Block
  | If (opened : Bool)
  | Loop (opened : Bool)
  | Brace
  | Paren
  | DCond
  | Case (sub : CaseSub)
  deriving DecidableEq

/-- Whether this block currently indents the lines inside it. -/
def Block.contributes : Block → Nat
  | .If opened => if opened then 1 else 0
  | .Loop opened => if opened then 1 else 0
  | .Brace => 1
  | .Paren => 1
  | .DCond => 1
  | .Case .Pattern => 1
  | .Case .Body => 2

structure Heredoc where
  tag : List Char
  strip_tabs : Bool

/-- The variables of `scan_line` that its loop changes; the top of the stack comes first. -/
structure Scan where
  i : Nat
  seen_token : Bool
  indent_basis : Nat
  ends_with_continuation : Bool
  stack : List Block
  heredocs : List Heredoc

def stack_indent (stack : List Block) : Nat := (stack.map Block.contributes).sum

def isTagEnd (c : UInt8) : Bool :=
  isBlank c || decide (c ∈ [byte ';', byte '&', byte '|', byte '<', byte '>', byte '(', byte ')'])

/-- The delimiter word of a heredoc, possibly quoted: the bytes it takes, and the tag. -/
def heredocTag : Option UInt8 → Bytes → Nat × List Char
  | _, [] => (0, [])
  | some q, ch :: rest =>
    if ch = q then ((heredocTag none rest).1 + 1, (heredocTag none rest).2)
    else ((heredocTag (some q) rest).1 + 1, asChar ch :: (heredocTag (some q) rest).2)
  | none, ch :: rest =>
    if ch = byte '\'' ∨ ch = byte '\x22' then ((heredocTag (some ch) rest).1 + 1, (heredocTag (some ch) rest).2)
    else if ch = byte '\\' then
      match rest with
      | [] => (1, [])
      | d :: rest => ((heredocTag none rest).1 + 2, asChar d :: (heredocTag none rest).2)
    else if isTagEnd ch then (0, [])
    else ((heredocTag none rest).1 + 1, asChar ch :: (heredocTag none rest).2)

def isBreak (c : UInt8) : Bool :=
  isBlank c || decide (c ∈ [byte ';', byte '(', byte ')', byte '<', byte '>', byte '\'', byte '\x22', byte '\x60',
    byte '\\'])

/-- True when the token of `len` bytes at `i` is delimited on both sides. -/
def is_word_boundary (b : Bytes) (i len : Nat) : Bool :=
  (decide (i = 0) || (b[i - 1]?.any fun c => isBlank c || decide (c ∈ [byte '(', byte '!', byte '{']))) &&
    (decide (b.length ≤ i + len) || b[i + len]?.any isBlank)

namespace Scan

variable (s : Scan)

/-- The token up to `j` has been seen. -/
def past (j : Nat) : Scan := { s with i := j, seen_token := true }

/-- A leading closer dedents the line itself. -/
def dedent (levels : Nat) : Nat := if s.seen_token then s.indent_basis else s.indent_basis - levels

def pop (levels : Nat) : Scan := { s with stack := s.stack.tail, indent_basis := s.dedent levels }

def push (block : Block) : Scan := { s with stack := block :: s.stack }

def dollar (b : Bytes) : Scan :=
  if b[s.i + 1]? = some (byte '\'') then s.past (escapedEnd (byte '\'') b (s.i + 2) + 1)
  else if b[s.i + 1]? = some (byte '{') then s.past (bracedEnd b (s.i + 2))
  else s.past (s.i + 1)

def closeBrace : Scan := (if s.stack.head? = some .Brace then s.pop 1 else s).past (s.i + 1)

def openParen : Scan := (if s.stack.head? = some (.Case .Pattern) then s else s.push .Paren).past (s.i + 1)

def closeParen : Scan :=
  (match s.stack with
    | .Case .Pattern :: rest => { s with stack := .Case .Body :: rest }
    | .Paren :: _ => s.pop 1
    | _ => s).past (s.i + 1)

def semicolon (b : Bytes) : Scan :=
  if b[s.i + 1]?.any fun c => decide (c ∈ [byte ';', byte '&', byte '|']) then
    (match s.stack with
      | .Case .Body :: rest => { s with stack := .Case .Pattern :: rest }
      | _ => s).past (s.i + 2)
  else s.past (s.i + 1)

def heredoc (b : Bytes) : Scan :=
  if b[s.i + 1]? = some (byte '<') then
    if b[s.i + 2]? = some (byte '<') then s.past (s.i + 3)
    else
      let strip_tabs := decide (b[s.i + 2]? = some (byte '-'))
      let j := runEnd isBlank b (if strip_tabs then s.i + 3 else s.i + 2)
      let word := heredocTag none (b.drop j)
      let heredocs := if word.2 = [] then s.heredocs else s.heredocs ++ [Heredoc.mk word.2 strip_tabs]
      ({ s with heredocs := heredocs } : Scan).past (j + word.1)
  else s.past (s.i + 1)

def openBracket (b : Bytes) : Scan :=
  if b[s.i + 1]? = some (byte '[') ∧ is_word_boundary b s.i 2 then (s.push .DCond).past (s.i + 2)
  else s.past (s.i + 1)

def closeBracket (b : Bytes) : Scan :=
  if b[s.i + 1]? = some (byte ']') ∧ s.stack.head? = some .DCond then (s.pop 1).past (s.i + 2)
  else s.past (s.i + 1)

def thenWord : Scan :=
  match s.stack with
  | .If opened :: rest =>
    { s with stack := .If true :: rest, indent_basis := if opened then s.dedent 1 else s.indent_basis }
  | _ => s

def elseWord : Scan := if s.stack.head? = some (.If true) then { s with indent_basis := s.dedent 1 } else s

def fiWord : Scan :=
  match s.stack with
  | .If opened :: _ => s.pop (if opened then 1 else 0)
  | _ => s

def doWord : Scan :=
  match s.stack with
  | .Loop opened :: rest =>
    { s with stack := .Loop true :: rest, indent_basis := if opened then s.dedent 1 else s.indent_basis }
  | _ => s

def doneWord : Scan :=
  match s.stack with
  | .Loop opened :: _ => s.pop (if opened then 1 else 0)
  | _ => s

def esacWord : Scan :=
  match s.stack with
  | .Case sub :: _ => s.pop (Block.Case sub).contributes
  | _ => s

/-- The reserved words that drive indentation. -/
def keyword (word : List Char) : Scan :=
  if word = "if".toList then s.push (.If false)
  else if word = "then".toList then s.thenWord
  else if word = "elif".toList ∨ word = "else".toList then s.elseWord
  else if word = "fi".toList then s.fiWord
  else if word ∈ ["for".toList, "while".toList, "until".toList, "select".toList, "repeat".toList] then
    s.push (.Loop false)
  else if word = "do".toList then s.doWord
  else if word = "done".toList then s.doneWord
  else if word = "case".toList then s.push (.Case .Pattern)
  else if word = "esac".toList then s.esacWord
  else s

def word (body : List Char) (b : Bytes) : Option Scan :=
  let j := runEnd (fun c => !isBreak c) b s.i
  if j = s.i then some (s.past (s.i + 1))
  else (slice body s.i j).map fun word => (s.keyword word).past j

/-- One round of the loop of `scan_line`. -/
def step (body : List Char) : Option Scan :=
  let b := encode body
  match b[s.i]? with
  | none => none
  | some c =>
    if isBlank c then some { s with i := s.i + 1 }
    else if c = byte '\\' then
      some ({ s with ends_with_continuation := s.ends_with_continuation || decide (b.length ≤ s.i + 1) }.past (s.i + 2))
    else if c = byte '\'' then some (s.past (runEnd (fun c => decide (c ≠ byte '\'')) b (s.i + 1) + 1))
    else if c = byte '\x22' then some (s.past (escapedEnd (byte '\x22') b (s.i + 1) + 1))
    else if c = byte '\x60' then some (s.past (escapedEnd (byte '\x60') b (s.i + 1) + 1))
    -- a comment ends the scan
    else if c = byte '#' then some { s with i := b.length }
    else if c = byte '$' then some (s.dollar b)
    else if c = byte '{' then some ((s.push .Brace).past (s.i + 1))
    else if c = byte '}' then some s.closeBrace
    else if c = byte '(' then some s.openParen
    else if c = byte ')' then some s.closeParen
    else if c = byte ';' then some (s.semicolon b)
    else if c = byte '<' then some (s.heredoc b)
    else if c = byte '>' then some (s.past (s.i + 1))
    else if c = byte '[' then some (s.openBracket b)
    else if c = byte ']' then some (s.closeBracket b)
    else s.word body b

end Scan

end Zshrs.Fmt
