import Zshrs.Lib.Pieces

namespace Zshrs.Parse.Ecstr

open Lib.Pieces

/-- The C token byte of a token char. -/
def tokenByte (ch : Char) : Option UInt8 :=
  if 0xe184 ≤ ch.toNat ∧ ch.toNat ≤ 0xe1a2 then some (UInt8.ofNat (ch.toNat - 0xe100)) else none

def tokenCharFromByte (b : UInt8) : Option Char :=
  if 0x84 ≤ b ∧ b ≤ 0xa2 then some (Char.ofNat (0xe100 + b.toNat)) else none

def imeta (b : UInt8) : Bool := b = 0 || (0x83 ≤ b && b ≤ 0xa2)

def pushByte (b : UInt8) : List UInt8 := if imeta b then [0x83, b ^^^ 0x20] else [b]

def charBytes (ch : Char) : List UInt8 :=
  if ch.toNat < 0x80 then [UInt8.ofNat ch.toNat]
  else
    match tokenByte ch with
    | some b => [b]
    | none => (String.utf8EncodeChar ch).flatMap pushByte

/-- `U+0083` and a char of `U+0080` to `U+00FF` stand for one raw byte. -/
def metaPair (ch n : Char) : Bool := ch.toNat = 0x83 && 0x80 ≤ n.toNat && n.toNat ≤ 0xff

/-- The metafied bytes of a word. -/
def cBytes : List Char → List UInt8
  | [] => []
  | [ch] => charBytes ch
  | ch :: n :: rest =>
      if metaPair ch n then pushByte (UInt8.ofNat n.toNat ^^^ 32) ++ cBytes rest
      else charBytes ch ++ cBytes (n :: rest)

def hasToken (bytes : List UInt8) : Bool := bytes.any (fun b => 0x84 ≤ b && b ≤ 0xa1)

def hasher (bytes : List UInt8) : UInt32 :=
  bytes.foldl (fun hashval c => hashval + ((hashval <<< 5) + c.toUInt32)) 0

/-- A word of at most three bytes, inline. -/
def packShort (bytes : List UInt8) : UInt32 :=
  let c : UInt32 := if hasToken bytes then 3 else 2
  match bytes with
  | [] => if hasToken bytes then 7 else 6
  | [x] => c ||| x.toUInt32 <<< 3
  | [x, y] => c ||| y.toUInt32 <<< 11 ||| x.toUInt32 <<< 3
  | x :: y :: z :: _ => c ||| z.toUInt32 <<< 19 ||| y.toUInt32 <<< 11 ||| x.toUInt32 <<< 3

structure Entry where
  str : List UInt8
  offs : UInt32
  aoffs : Nat
  nfunc : Nat
  hashval : UInt32
  deriving DecidableEq

inductive Tree
  | nil
  | node (left : Tree) (entry : Entry) (right : Tree)

/-- The comparison of the tree walk: function, hash difference as `int`, bytes. -/
def Entry.cmp (p : Entry) (nfunc : Nat) (val : UInt32) (bytes : List UInt8) : Int :=
  let cmp : Int := p.nfunc - nfunc
  if cmp ≠ 0 then cmp
  else
    let cmp := (p.hashval - val).toInt32.toInt
    if cmp ≠ 0 then cmp
    else if p.str < bytes then -1
    else if p.str = bytes then 0
    else 1

namespace Tree

def find (nfunc : Nat) (val : UInt32) (bytes : List UInt8) : Tree → Option UInt32
  | nil => none
  | node left p right =>
      let cmp := p.cmp nfunc val bytes
      if cmp = 0 then some p.offs
      else if cmp < 0 then find nfunc val bytes left
      else find nfunc val bytes right

def insert (new : Entry) : Tree → Tree
  | nil => node nil new nil
  | node left p right =>
      if p.cmp new.nfunc new.hashval new.str ≥ 0 then node left p (insert new right)
      else node (insert new left) p right

/-- `copy_ecstr`. -/
def copy : Tree → List UInt8 → List UInt8
  | nil, buf => buf
  | node left n right, buf =>
      let buf := if n.aoffs + n.str.length + 1 ≤ buf.length then writeAt buf n.aoffs (n.str ++ [0]) else buf
      copy right (copy left buf)

end Tree

/-- A string word of the code, with the text it was made from. -/
structure Word where
  code : UInt32
  text : List Char
  deriving DecidableEq

/-- What `ecbuf` holds of strings, in the order in which it was emitted. -/
inductive Emit
  | word (w : Word)
  | heredoc (words : List Word)
  | funcdef (strsOffset : UInt32)
  | wcEnd
  deriving DecidableEq

/-- The parser's string state. `frames` are the saved `oecssub` of the functions being parsed. -/
structure State where
  tree : Tree
  ecsoffs : Nat
  ecssub : Nat
  ecnfunc : Nat
  buf : List Emit
  frames : List Nat
  hdocs : List Nat

def initParse : State := ⟨.nil, 0, 0, 0, [], [], []⟩

def longCode (off : Nat) (t : Bool) : UInt32 := UInt32.ofNat off <<< 2 ||| if t then 1 else 0

def ecstrcode (s : State) (text : List Char) : State × Word :=
  let bytes := cBytes text
  let t := hasToken bytes
  if bytes.length + 1 ≤ 4 then (s, ⟨packShort bytes, text⟩)
  else
    let val := hasher bytes
    match s.tree.find s.ecnfunc val bytes with
    | some offs => (s, ⟨offs, text⟩)
    | none =>
        let offs := longCode (s.ecsoffs - s.ecssub) t
        ({ s with
            tree := s.tree.insert ⟨bytes, offs, s.ecsoffs, s.ecnfunc, val⟩
            ecsoffs := s.ecsoffs + (bytes.length + 1) },
          ⟨offs, text⟩)

/-- What the parser does with strings and function scopes. -/
inductive Call
  | ecstr (text : List Char)
  | funcBody
  | funcEnd
  | redirHeredoc
  | newlineHeredoc (doc term mungedTerm : List Char)

def ecstr (s : State) (text : List Char) : State :=
  let (s, w) := ecstrcode s text
  { s with buf := s.buf ++ [.word w] }

/-- `ecnfunc++; ecssub = so = ecsoffs`. The word `so - oecssub` is written here, not after the
body: both are known, and nothing reads it before. -/
def funcBody (s : State) : State :=
  { s with
    ecnfunc := s.ecnfunc + 1
    ecssub := s.ecsoffs
    buf := s.buf ++ [.funcdef (UInt32.ofNat (s.ecsoffs - s.ecssub))]
    frames := s.ecssub :: s.frames }

def funcEnd (s : State) : State :=
  match s.frames with
  | [] => s
  | oecssub :: frames =>
      { s with ecnfunc := s.ecnfunc + 1, ecssub := oecssub, buf := s.buf ++ [.wcEnd], frames }

/-- `par_redir` leaves the words of a here-document open. -/
def redirHeredoc (s : State) : State :=
  { s with buf := s.buf ++ [.heredoc []], hdocs := s.hdocs ++ [s.buf.length] }

/-- The lexer, at a newline, fills the words of the first open here-document. -/
def setheredoc (s : State) (doc term mungedTerm : List Char) : State :=
  match s.hdocs with
  | [] => s
  | pc :: hdocs =>
      let (s, codedStr) := ecstrcode s doc
      let (s, codedTerm) := ecstrcode s term
      let (s, codedMunged) := ecstrcode s mungedTerm
      { s with buf := s.buf.set pc (.heredoc [codedStr, codedTerm, codedMunged]), hdocs }

def step (s : State) : Call → State
  | .ecstr text => ecstr s text
  | .funcBody => funcBody s
  | .funcEnd => funcEnd s
  | .redirHeredoc => redirHeredoc s
  | .newlineHeredoc doc term mungedTerm => setheredoc s doc term mungedTerm

/-- The `strs` of `bld_eprog`. -/
def bldStrs (s : State) : List UInt8 := s.tree.copy (List.replicate s.ecsoffs 0)

/-- A byte as the decoder's char. -/
def widen (b : UInt8) : Char := (tokenCharFromByte b).getD (Char.ofNat b.toNat)

def stringAt (strings : List UInt8) (offset : Nat) : List Char :=
  if offset ≥ strings.length then []
  else ((strings.drop offset).takeWhile (· ≠ 0)).map widen

def decodeStringWord (strings : List UInt8) (strsBase : Nat) (wc : UInt32) : List Char :=
  if wc = 6 ∨ wc = 7 then []
  else if wc &&& 2 ≠ 0 then
    ((([3, 11, 19] : List UInt32).map (fun shift => (wc >>> shift &&& 0xff).toUInt8)).takeWhile (· ≠ 0)).map widen
  else stringAt strings (strsBase + (wc >>> 2).toNat)

/-- A string word where the decoder meets it. A scope is a function, by its number. -/
structure Located where
  base : Nat
  scope : Nat
  word : Word
  deriving DecidableEq

/-- The decoder's way through the code: `strs_base` moves with the functions it enters.
`bases` are those of all functions so far, the program itself first. -/
structure Walker where
  base : Nat
  scope : Nat
  stack : List (Nat × Nat)
  bases : List Nat
  out : List Located

def Walker.start : Walker := ⟨0, 0, [], [0], []⟩

def Walker.next (w : Walker) : Emit → Walker
  | .word word => { w with out := w.out ++ [⟨w.base, w.scope, word⟩] }
  | .heredoc words => { w with out := w.out ++ words.map (fun word => ⟨w.base, w.scope, word⟩) }
  | .funcdef strsOffset =>
      let base := w.base + strsOffset.toNat
      { w with
        base, scope := w.bases.length, stack := (w.base, w.scope) :: w.stack
        bases := w.bases ++ [base] }
  | .wcEnd =>
      match w.stack with
      | [] => w
      | (base, scope) :: stack => { w with base, scope, stack }

def walk (buf : List Emit) : Walker := buf.foldl Walker.next .start

end Zshrs.Parse.Ecstr
