import Zshrs.Pattern.Nodes

namespace Zshrs.Pattern

open Lib (Utf8.encode Utf8.text)
open Lib.Bytes (toLE)

def byte (c : Char) : UInt8 := UInt8.ofNat c.toNat

/-- What a bracket expression takes: ASCII members, classes that are asked at match time, and wide members. -/
structure Members where
  chars : Bytes
  mb_classmask : Nat
  mb_chars : List Nat
  mb_ranges : List (Nat × Nat)

def Members.none : Members := ⟨[], 0, [], []⟩

def byteRange (lo hi : Nat) : Bytes := (List.range' lo (hi + 1 - lo)).map UInt8.ofNat

def charRange (lo hi : Char) : Bytes := byteRange lo.toNat hi.toNat

/-- The class names, with their ASCII members and their bit of the mask. -/
def classTable : List (String × Bytes × Nat) :=
  [("alpha", charRange 'a' 'z' ++ charRange 'A' 'Z', 1 <<< 0),
    ("upper", charRange 'A' 'Z', 1 <<< 2),
    ("lower", charRange 'a' 'z', 1 <<< 3),
    ("digit", charRange '0' '9', 0),
    ("xdigit", charRange '0' '9' ++ charRange 'a' 'f' ++ charRange 'A' 'F', 0),
    ("alnum", charRange 'a' 'z' ++ charRange 'A' 'Z' ++ charRange '0' '9', 1 <<< 1),
    ("space", [0x20, 0x09, 0x0a, 0x0d, 0x0b, 0x0c], 1 <<< 4),
    ("blank", [0x20, 0x09], 1 <<< 5),
    ("punct", byteRange 33 47 ++ byteRange 58 64 ++ byteRange 91 96 ++ byteRange 123 126, 1 <<< 6),
    ("cntrl", byteRange 0 31 ++ [127], 1 <<< 7),
    ("print", byteRange 32 126, 1 <<< 8),
    ("graph", byteRange 33 126, 1 <<< 9),
    ("ascii", byteRange 0 127, 0),
    ("IDENT", [], 1 <<< 10),
    ("IFS", [], 1 <<< 11),
    ("IFSSPACE", [], 1 <<< 12),
    ("WORD", [], 1 <<< 13),
    ("INCOMPLETE", [], 1 <<< 14),
    ("INVALID", [], 1 <<< 15)]

def posixClass (name : Bytes) : Bytes × Nat :=
  ((classTable.find? fun c => Utf8.encode c.1.toList = name).map Prod.snd).getD ([], 0)

/-- A class name up to its `:]`, and what follows. -/
def className : Bytes → Option (Bytes × Bytes)
  | 58 :: 93 :: rest => some ([], rest)
  | b :: rest => (className rest).map fun (name, rest) => (b :: name, rest)
  | [] => none

/-- A metafied byte is spelled `\`, `Meta`, `\` and a payload of two bytes at least. -/
def escPair : Bytes → Bool
  | 92 :: 0xc2 :: 0x83 :: 92 :: x :: _ => 0xc2 ≤ x
  | _ => false

/-- The bytes of a run of metafied ones. A longer payload is none. -/
def escRun : Bytes → Option Bytes
  | 92 :: 0xc2 :: 0x83 :: 92 :: x :: rest =>
    if 0xc2 ≤ x then
      match rest with
      | [] => none
      | y :: rest =>
        if x ≤ 0xdf then
          (escRun rest).map fun run => (UInt8.ofNat (x.toNat % 0x20 * 0x40 + y.toNat % 0x40) ^^^ 32) :: run
        else none
    else some []
  | _ => some []

/-- `charrefinc` on the first of some metafied bytes: the wide character, and how many bytes it took. -/
def charrefinc (mbrtowc : Bytes → Mbrtowc) (first : UInt8) : Bytes → Bytes → Nat × Nat
  | raw, more =>
    match mbrtowc raw with
    | .char wc ret => (wc, min (max ret 1) raw.length)
    | .invalid => (0xdc00 + first.toNat, 1)
    | .incomplete =>
      match more with
      | [] => (0xdc00 + first.toNat, 1)
      | b :: more =>
        if raw.length < MB_CUR_MAX then charrefinc mbrtowc first (raw ++ [b]) more
        else (0xdc00 + first.toNat, 1)
termination_by structural _ more => more

section Members

variable (mbrtowc : Bytes → Mbrtowc) (multibyte : Bool)

/-- One metafied member, with what follows it. -/
def metafiedChar (bb : Bytes) : Option (Nat × Bytes) :=
  match escRun bb with
  | some (first :: more) =>
    let (wc, used) := if multibyte then charrefinc mbrtowc first [first] more else (first.toNat, 1)
    some (wc, bb.drop (6 * used))
  | _ => none

/-- The upper end of a range of metafied members, or the member itself. -/
def metafiedHigh (lo : Nat) (p : Bytes) : Nat × Bytes :=
  match p with
  | 45 :: q => if escPair q then (metafiedChar mbrtowc multibyte q).getD (lo, p) else (lo, p)
  | _ => (lo, p)

/-- Without multibyte characters each raw byte is a member of its own. -/
def addMetafied (m : Members) (lo hi : Nat) : Members :=
  if !multibyte then { m with chars := m.chars ++ byteRange lo (min hi 0xff) }
  else if lo = hi then { m with mb_chars := m.mb_chars ++ [lo] }
  else { m with mb_ranges := m.mb_ranges ++ [(lo, hi)] }

def metafiedMember (m : Members) (bb : Bytes) : Option (Members × Bytes) :=
  if escPair bb then
    (metafiedChar mbrtowc multibyte bb).map fun (lo, p) =>
      let (hi, p) := metafiedHigh mbrtowc multibyte lo p
      (addMetafied multibyte m lo hi, p)
  else none

def escapedMember (m : Members) : Bytes → Option (Members × Bytes)
  | 92 :: x :: rest => some ({ m with chars := m.chars ++ [x] }, rest)
  | _ => none

def classMember (m : Members) : Bytes → Option (Members × Bytes)
  | 91 :: 58 :: rest =>
    (className rest).map fun (name, rest) =>
      let (chars, bit) := posixClass name
      ({ m with chars := m.chars ++ chars, mb_classmask := m.mb_classmask ||| bit }, rest)
  | _ => none

/-- A member or a range that starts with a character beyond ASCII. -/
def wideMember (m : Members) (bb : Bytes) : Option (Members × Bytes) :=
  if 0x80 ≤ bb.headD 0 then
    match Utf8.text bb with
    | some (lo :: '-' :: hi :: _) =>
      if hi ≠ ']' then
        some ({ m with mb_ranges := m.mb_ranges ++ [(lo.toNat, hi.toNat)] },
          bb.drop (lo.utf8Size + 1 + hi.utf8Size))
      else some ({ m with mb_chars := m.mb_chars ++ [lo.toNat] }, bb.drop lo.utf8Size)
    | some (lo :: _) => some ({ m with mb_chars := m.mb_chars ++ [lo.toNat] }, bb.drop lo.utf8Size)
    | _ => none
  else none

def plainMember (m : Members) : Bytes → Members × Bytes
  | lo :: 45 :: hi :: rest =>
    if hi = 93 then ({ m with chars := m.chars ++ [lo] }, 45 :: hi :: rest)
    else
      match if 0x80 ≤ hi then Utf8.text (hi :: rest) else none with
      | some (hich :: _) =>
        ({ m with
            chars := m.chars ++ byteRange lo.toNat 0x7f
            mb_ranges := m.mb_ranges ++ [(lo.toNat, hich.toNat)] },
          (hi :: rest).drop hich.utf8Size)
      | _ => ({ m with chars := m.chars ++ byteRange lo.toNat hi.toNat }, rest)
  | b :: rest => ({ m with chars := m.chars ++ [b] }, rest)
  | [] => (m, [])

/-- The next member. What is metafied comes before what is escaped, and a class or a wide character before
a byte. -/
def nextMember (m : Members) (bb : Bytes) : Members × Bytes :=
  (metafiedMember mbrtowc multibyte m bb <|> escapedMember m bb <|> classMember m bb <|>
    wideMember m bb).getD (plainMember m bb)

/-- The members up to the `]`. -/
def parseMembers : Nat → Members → Bytes → Members × Bytes
  | 0, m, bb => (m, bb)
  | fuel + 1, m, bb =>
    if bb.head? = none ∨ bb.head? = some 93 then (m, bb)
    else
      let (m, bb) := nextMember mbrtowc multibyte m bb
      parseMembers fuel m bb

end Members

/-- The `!` or `^` in front. In dash and the pdksh family a `^` is a member. -/
def bracketNegate (modes : Modes) (bb : Bytes) : Bool × Bytes :=
  match bb with
  | 33 :: rest => (true, rest)
  | 94 :: rest => if modes.dash_faithful || modes.pdksh_family then (false, bb) else (true, rest)
  | _ => (false, bb)

/-- A `]` in front is a member when another one closes. -/
def bracketFirst (bb : Bytes) : Members × Bytes :=
  match bb with
  | 93 :: rest => if rest.contains 93 then ({ Members.none with chars := [93] }, rest) else (.none, bb)
  | _ => (.none, bb)

/-- What stands behind the `[`: whether it is negated, its members, and what follows the `]`. -/
def parseBracket (modes : Modes) (mbrtowc : Bytes → Mbrtowc) (multibyte : Bool) (bb : Bytes) :
    Bool × Members × Bytes :=
  let (negate, bb) := bracketNegate modes bb
  let (m, bb) := bracketFirst bb
  let (m, bb) := parseMembers mbrtowc multibyte bb.length m bb
  (negate, m, if bb.head? = some 93 then bb.tail else bb)

/-- The operand of a `P_ANYOF` or `P_ANYBUT`, behind its length. -/
def Members.operand (m : Members) : Bytes :=
  let body := toLE 4 m.chars.length ++ m.chars ++ toLE 4 m.mb_classmask ++
    toLE 4 m.mb_chars.length ++ m.mb_chars.flatMap (toLE 4) ++
    toLE 4 m.mb_ranges.length ++ m.mb_ranges.flatMap fun r => toLE 4 r.1 ++ toLE 4 r.2
  toLE 4 body.length ++ body

end Zshrs.Pattern
