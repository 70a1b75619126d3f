import Zshrs.Pattern.Brackets

namespace Zshrs.Pattern

open Lib (Utf8.encode)
open Lib.Bytes (toLE)

def P_SIMPLE : Flags := 0x01
def P_HSTART : Flags := 0x02
def P_PURESTR : Flags := 0x04

def NSUBEXP : Nat := 9

/-- What the compiler reads besides the text: `zpc_special`, KSH_GLOB, the emulation and the locale. -/
structure Reads where
  zpc_special : Zpc → UInt8
  kshglob : Bool
  modes : Modes
  mbrtowc : Bytes → Mbrtowc

def i64_bytes (n : BitVec 64) : Bytes := toLE 8 n.toNat

def i32_bytes (n : Flags) : Bytes := toLE 4 n.toNat

/-- The null sync pointer of a branch. -/
def syncptr : Bytes := List.replicate 8 0

section Text

variable (R : Reads)

/-- The bytes that end a segment are those of the first five slots. -/
def segment (b : UInt8) : Bool := [Zpc.SLASH, .NULL, .BAR, .OUTPAR, .TILDE].any fun z => R.zpc_special z = b

/-- Whether a branch and a literal end at a `~`. -/
def endsAtTilde (b : UInt8) (rest : Bytes) : Bool :=
  b = R.zpc_special .TILDE && b ≠ 0 && (rest.headD 0 = byte '/' || !segment R (rest.headD 0))

/-- The digits in front as an `i64` that wraps, and what follows them. -/
def decimal (text : Bytes) : BitVec 64 :=
  (text.takeWhile is_ascii_digit).foldl (fun n b => n * 10 + BitVec.ofNat 64 (b.toNat - 48)) 0

/-- A bound of a count prefix. It saturates. -/
def countBound (text : Bytes) : Option Nat :=
  match text.takeWhile is_ascii_digit with
  | [] => none
  | digits => some (digits.foldl (fun n b => min (min (n * 10) I64_MAX + (b.toNat - 48)) I64_MAX) 0)

/-- The bounds behind a `{`, and what follows them. -/
def prefixBounds (text : Bytes) : Option (Nat × Nat × Bytes) :=
  let lo := countBound text
  match text.dropWhile is_ascii_digit with
  | 44 :: more =>
    let hi := countBound more
    if lo = none ∧ hi = none then none
    else some (lo.getD 0, hi.getD I64_MAX, more.dropWhile is_ascii_digit)
  | rest => lo.map fun n => (n, n, rest)

/-- The bounds of a prefix `{m,n}` in front of a `(`, and the text from its `}` on. -/
def ksh93_count_prefix (text : Bytes) : Option (Nat × Nat × Bytes) :=
  match text with
  | 123 :: text =>
    match prefixBounds text with
    | some (min, max, 125 :: 40 :: rest) => if max < min then none else some (min, max, 125 :: 40 :: rest)
    | _ => none
  | _ => none

def ksh_count_active : Bool := R.modes.ksh93_mode && R.kshglob

/-- The bounds of a `(#cN,M)`, and what follows it. -/
def countSpec (text : Bytes) : Option (BitVec 64 × BitVec 64 × Bytes) :=
  match text with
  | a :: h :: 99 :: text =>
    if a = R.zpc_special .INPAR ∧ h = R.zpc_special .HASH then
      match text.dropWhile is_ascii_digit with
      | 44 :: more =>
        match more.dropWhile is_ascii_digit with
        | 41 :: rest =>
          let max := if (more.takeWhile is_ascii_digit).isEmpty then BitVec.ofNat 64 I64_MAX else decimal more
          some (decimal text, max, rest)
        | _ => none
      | 41 :: rest =>
        if (text.takeWhile is_ascii_digit).isEmpty then none else some (decimal text, decimal text, rest)
      | _ => none
    else none
  | _ => none

/-- A flag specifier in the manner of ksh, `@(#…)`. -/
def at_form (text : Bytes) : Bool :=
  match text with
  | a :: p :: 35 :: _ => a = R.zpc_special .KSH_AT && a ≠ 0 && p = R.zpc_special .INPAR
  | _ => false

def plain_form (text : Bytes) : Bool :=
  match text with
  | p :: 35 :: _ => p = R.zpc_special .INPAR
  | _ => false

/-- What stands behind the `(#` of a flag specifier. -/
def flagSpec (text : Bytes) : Option Bytes :=
  if R.zpc_special .HASH = byte '#' && (at_form R text || plain_form R text) then
    match if at_form R text then text.tail else text with
    | 40 :: 35 :: rest => some rest
    | _ => none
  else none

/-- The ksh trigger in front of a `(`, or 0. The `}` that closes a count prefix is one after it. -/
def kshcharOf (counted : Bool) (text : Bytes) : UInt8 :=
  match text with
  | c :: 40 :: _ =>
    if c = R.zpc_special .KSH_PLUS then byte '+'
    else if c = R.zpc_special .KSH_BANG then byte '!'
    else if c = R.zpc_special .KSH_BANG2 then byte '!'
    else if c = R.zpc_special .KSH_AT then byte '@'
    else if c = R.zpc_special .KSH_STAR then byte '*'
    else if c = R.zpc_special .KSH_QUEST then byte '?'
    else if c = byte '}' && counted then byte '@'
    else 0
  | _ => 0

def inpar_active : Bool := R.zpc_special .INPAR = byte '('
def quest_active : Bool := R.zpc_special .QUEST = byte '?'
def star_active : Bool := R.zpc_special .STAR = byte '*'
def inbrack_active : Bool := R.zpc_special .INBRACK = byte '['

/-- Whether a literal ends in front of a byte. -/
def literalEnds (paren : Bool) (b : UInt8) (rest : Bytes) : Bool :=
  (b = byte '(' && inpar_active R) || (b = byte ')' && (inpar_active R || paren)) ||
    (b = byte '?' && quest_active R) || (b = byte '*' && star_active R) || (b = byte '[' && inbrack_active R) ||
    b = byte '|' || b = byte '\\' || b = byte '<' ||
    (b = byte '^' && R.zpc_special .HAT = byte '^') || (b = byte '#' && R.zpc_special .HASH = byte '#') ||
    (b = byte '/' && R.zpc_special .SLASH = byte '/') ||
    endsAtTilde R b rest ||
    kshcharOf R false (b :: rest) ≠ 0 ||
    (b = byte '{' && ksh_count_active R && ( ksh93_count_prefix (b :: rest)).isSome)

/-- The literal in front, and what follows it. -/
def literalRun (paren : Bool) : Bytes → Bytes × Bytes
  | [] => ([], [])
  | b :: rest =>
    if literalEnds R paren b rest then ([], b :: rest)
    else
      let (run, text) := literalRun paren rest
      (b :: run, text)

/-- Whether a closure or a count follows a literal. -/
def has_trailing_quantifier (rest : Bytes) : Bool :=
  let at_ i := rest.getD i 0
  R.zpc_special .HASH = byte '#' &&
    (at_ 0 = byte '#' || (at_ 0 = R.zpc_special .INPAR && at_ 1 = byte '#' && at_ 2 = byte 'c') ||
      (at_ 0 = R.zpc_special .KSH_AT && at_ 1 = byte '(' && at_ 2 = byte '#' && at_ 3 = byte 'c'))

/-- Where the last character of a literal starts. -/
def last_char_start (buf : Bytes) : Nat :=
  let more := (buf.reverse.takeWhile fun b => b &&& 0xc0 = 0x80).length
  buf.length - 1 - more

end Text

/-- A piece in the program: its first and last node, and its flags. Behind an `open` one a closure may
follow. -/
structure Piece where
  atom : Nat
  tail : Nat
  flags : Flags
  isOpen : Bool

def onePiece (node : Nat) (flags : Flags) (isOpen : Bool) : Piece := ⟨node, node, flags, isOpen⟩

section Atoms

variable (R : Reads)

/-- The arms of `?` and `*`. -/
def nodeAtom (op : UInt8) (flags : Flags) (rest : Bytes) : Compile Piece := do
  setParse rest
  return onePiece (← patnode op) flags true

def exactly (lit : Bytes) : Compile Nat := patnodeWith P_EXACTLY (toLE 4 lit.length ++ lit)

/-- The arm of `[`. -/
def bracketAtom (rest : Bytes) : Compile Piece := do
  if !rest.contains (byte ']') then bad
  else
    let multibyte := (← getGlobflags) &&& GF_MULTIBYTE ≠ 0
    let (negate, m, rest) := parseBracket R.modes R.mbrtowc multibyte rest
    setParse rest
    return onePiece (← patnodeWith (if negate then P_ANYBUT else P_ANYOF) m.operand) P_SIMPLE true

/-- The arm of a backslash. One at the end of the text stands for itself. -/
def escapedAtom (rest : Bytes) : Compile Piece := do
  setParse rest.tail
  return onePiece (← exactly [rest.headD (byte '\\')]) P_SIMPLE !rest.isEmpty

/-- The bounds of a `<m-n>` behind its `<`, and what follows it. -/
def numericRange (text : Bytes) : Option (Option (BitVec 64) × Option (BitVec 64) × Bytes) :=
  let bound text := if (text.takeWhile is_ascii_digit).isEmpty then none else some (decimal text)
  match text.dropWhile is_ascii_digit with
  | 45 :: more =>
    match more.dropWhile is_ascii_digit with
    | 62 :: rest => some (bound text, bound more, rest)
    | _ => none
  | _ => none

def rangeNode : Option (BitVec 64) → Option (BitVec 64) → Compile Nat
  | some lo, some hi => patnodeWith P_NUMRNG (i64_bytes lo ++ i64_bytes hi)
  | none, some hi => patnodeWith P_NUMTO (i64_bytes hi)
  | some lo, none => patnodeWith P_NUMFROM (i64_bytes lo)
  | none, none => patnode P_NUMANY

/-- The arm of `<`. What is no range is a literal `<`. -/
def inangAtom (rest : Bytes) : Compile Piece := do
  match if R.zpc_special .INANG = byte '<' then numericRange rest else none with
  | none =>
    setParse rest
    return onePiece (← exactly [byte '<']) P_SIMPLE false
  | some (lo, hi, rest) =>
    setParse rest
    return onePiece (← rangeNode lo hi) 0 true

/-- The arm of a literal. A closure behind it takes its last character only. -/
def literalAtom (paren : Bool) (text : Bytes) : Compile Piece := do
  let (buf, rest) := literalRun R paren text
  if buf.isEmpty then bad
  else
    let last := last_char_start buf
    let morelen := 0 < last
    let cut := if morelen && has_trailing_quantifier R rest then last else buf.length
    setParse (text.drop cut)
    let buf := buf.take cut
    let multibyte := (← getGlobflags) &&& GF_MULTIBYTE ≠ 0
    let flags := if morelen || (multibyte && 1 < buf.length) then 0 else P_SIMPLE
    return onePiece (← exactly buf) flags true

/-- The number of a group, or 0 for one that is not captured. -/
def groupNumber : Compile Nat := do
  let s ← get
  if s.patglobflags &&& GF_BACKREF ≠ 0 ∧ s.patnpar ≤ NSUBEXP then
    set { s with patnpar := s.patnpar + 1 }
    return s.patnpar
  else return 0

def expectOutpar : Compile Unit := do
  match ← getParse with
  | 41 :: rest => setParse rest
  | _ => bad

/-- The node that restores the flags behind a group. -/
def restoreNode (savglobflags : Flags) : Compile Nat := do
  let node ← patnodeWith P_GFLAGS (i32_bytes (savglobflags &&& (GF_IGNCASE ||| GF_LCMATCHUC ||| GF_MULTIBYTE)))
  setGlobflags savglobflags
  return node

/-- The nodes of a closure around an atom, and the last of them. -/
def closure (op : UInt8) (kshchar : UInt8) (p : Piece) : Compile Nat := do
  let atom := p.atom
  let buf ← getOut
  let simple := p.flags &&& P_SIMPLE ≠ 0
  if simple ∧ (op = P_ONEHASH ∨ op = P_TWOHASH) ∧ buf.getD atom 0 = P_ANY then
    if op = P_TWOHASH then
      let star ← patnode P_STAR
      pattail atom star
      return star
    else
      setOut (buf.set atom P_STAR)
      return atom
  else if simple ∧ op ≠ 0 ∧ (← getGlobflags) &&& 0xff = 0 then
    patinsert op atom []
    return atom
  else if op = P_ONEHASH then
    patinsert P_WBRANCH atom syncptr
    let back ← patnode P_BACK
    patoptail atom back
    patoptail atom atom
    let alt ← patnode P_BRANCH
    pattail atom alt
    let null_node ← patnode P_NOTHING
    pattail atom null_node
    return null_node
  else if op = P_TWOHASH then
    let wbranch ← patnodeWith P_WBRANCH syncptr
    pattail atom wbranch
    let back ← patnode P_BACK
    pattail back atom
    let alt ← patnode P_BRANCH
    pattail wbranch alt
    let null_node ← patnode P_NOTHING
    pattail atom null_node
    return null_node
  else if kshchar = byte '?' then
    patinsert P_BRANCH atom []
    let alt ← patnode P_BRANCH
    pattail atom alt
    let null_node ← patnode P_NOTHING
    pattail atom null_node
    patoptail atom null_node
    return null_node
  else return p.tail

/-- The closure behind an atom, or that of its ksh trigger. -/
def quantify (kshchar : UInt8) (p : Piece) : Compile Piece := do
  let rest ← getParse
  let has_hash := R.zpc_special .HASH = byte '#' ∧ rest.head? = some (byte '#')
  if ¬ has_hash ∧ (kshchar = 0 ∨ kshchar = byte '@' ∨ kshchar = byte '!') then return p
  else if (kshchar ≠ 0 ∨ (← getOut).getD p.atom 0 = P_STAR) ∧ has_hash then bad
  else
    let (op, flags, hashes) :=
      if kshchar = byte '*' then (P_ONEHASH, P_HSTART, 0)
      else if kshchar = byte '+' then (P_TWOHASH, P_HSTART, 0)
      else if kshchar = byte '?' then (0, 0, 0)
      else if rest[1]? = some (byte '#') then (P_TWOHASH, P_HSTART, 2)
      else (P_ONEHASH, P_HSTART, 1)
    setParse (rest.drop hashes)
    let tail ← closure op kshchar p
    if (← getParse).head? = some (byte '#') ∧ R.zpc_special .HASH = byte '#' then bad
    else return ⟨p.atom, tail, flags, false⟩

end Atoms

/-- Where `patcompbranch` stands: the chain of its pieces, what it knows of the last one, and the count
prefix that waits for its group. -/
structure Branch where
  chain_start : Option Nat
  last_tail : Nat
  last_piece_off : Option Nat
  prev_chain_tail : Option Nat
  last_piece_flags : Flags
  pending_count : Option (BitVec 64 × BitVec 64)
  flagp : Flags

def Branch.init : Branch := ⟨none, 0, none, none, 0, none, P_PURESTR⟩

/-- The link of a chain's tail, if there is a chain. -/
def linkTail (tail : Option Nat) (val : Nat) : Compile Unit :=
  match tail with
  | none => return
  | some tail => set_next tail val

/-- The tail of a chain that has started. -/
def Branch.tail? (B : Branch) : Option Nat := B.chain_start.map fun _ => B.last_tail

/-- The chain with a piece more, from its first to its last node. -/
def Branch.chain (B : Branch) (head tail : Nat) : Compile Branch := do
  linkTail B.tail? head
  return { B with chain_start := some (B.chain_start.getD head), last_tail := tail }

def Branch.node (B : Branch) (op : UInt8) (operand : Bytes) : Compile Branch := do
  let node ← patnodeWith op operand
  B.chain node node

/-- The last piece of the program becomes the operand of a count, and the chain goes on behind that. `prev` is
the tail of the chain before the piece. -/
def wrap_piece_in_count (bounds : BitVec 64 × BitVec 64) (piece_start : Nat) (prev : Option Nat) (B : Branch) :
    Compile Branch := do
  let buf ← getOut
  let piece := buf.drop piece_start
  setOut (buf.take piece_start)
  linkTail prev 0
  let count_off ← patnodeWith P_COUNT (i64_bytes bounds.1 ++ i64_bytes bounds.2)
  let operand := (← getOut).length
  extend_patout (shiftLinks (fun _ => true) (operand - piece_start) piece.length 0 piece)
  linkTail prev count_off
  return { B with
    chain_start := if prev.isNone then some count_off else B.chain_start
    last_tail := count_off
    last_piece_off := none
    prev_chain_tail := none
    last_piece_flags := P_HSTART }

/-- A piece goes behind those before it. -/
def Branch.add (B : Branch) (p : Piece) : Compile Branch := do
  let prev := B.tail?
  let B ← B.chain p.atom p.tail
  let flagp := B.flagp &&& p.flags
  match B.pending_count with
  | none =>
    return { B with last_piece_off := some p.atom, prev_chain_tail := prev, last_piece_flags := p.flags, flagp }
  | some bounds =>
    wrap_piece_in_count bounds p.atom prev { B with pending_count := none, flagp := flagp &&& ~~~P_PURESTR }

/-- A `(#cN,M)` counts the piece in front of it. -/
def Branch.count (B : Branch) (min max : BitVec 64) : Compile Branch := do
  match B.last_piece_off with
  | none => bad
  | some off =>
    if (← getOut).getD off 0 = P_STAR ∨ B.last_piece_flags &&& P_HSTART ≠ 0 then bad
    else wrap_piece_in_count (min, max) off B.prev_chain_tail B

/-- A flag specifier: a node for the flags when it does something, and one for an anchor. -/
def Branch.setFlags (B : Branch) (old : Flags) (assertp : UInt8) : Compile Branch := do
  let flags ← getGlobflags
  if assertp = 0 ∧ flags = old then return B
  else
    let flag_bits := flags &&& (GF_IGNCASE ||| GF_LCMATCHUC ||| GF_MULTIBYTE ||| 0xff)
    let B ← (if flag_bits ≠ 0 ∨ assertp = 0 then B.node P_GFLAGS (i32_bytes flag_bits) else pure B)
    if assertp ≠ 0 then B.node assertp [] else return B

/-- What may be a specifier is scanned. The flags are stored even where it turns out to be none. -/
def scanFlags : Option Bytes → Compile (Option UInt8)
  | none => return none
  | some spec => do
    let (flags, scanned) := patgetglobflags (← getGlobflags) (spec.map fun b => Char.ofNat b.toNat)
    setGlobflags flags
    match scanned with
    | none => return none
    | some (_, assertp, rest) =>
      setParse (spec.drop (spec.length - rest.length))
      return some assertp

/-- What `patcompswitch` leaves: its first branch, its flags, and how often the running flags changed. -/
structure Switch where
  starter : Nat
  flags : Flags
  gfchanged : Nat

/-- An exclusion at the top has no path components. -/
def Reads.maskSlash (R : Reads) (paren : Bool) : Reads :=
  if paren then R
  else { R with
    zpc_special := fun z => if z = .SLASH ∧ R.zpc_special z = byte '/' then Marker else R.zpc_special z }

/-- The sync node in front of the first exclusion from a branch. -/
def syncNode (last_branch : Nat) : Compile Nat := do
  let node ← patnode P_EXCSYNC
  patoptail last_branch node
  return node

/-- A `P_EXCLUDE` node, and its sync node. -/
def excludeNode (paren : Bool) (last_branch excsync : Nat) : Compile (Nat × Nat) := do
  let excsync ← (if excsync = 0 then syncNode last_branch else pure excsync)
  modify fun s => { s with patglobflags := s.patglobflags &&& ~~~0xff }
  if (← get).patflags &&& PAT_FILET ≠ 0 ∧ paren = false then
    let br ← patnodeWith P_EXCLUDP syncptr
    modify fun s => { s with patflags := s.patflags ||| PAT_HAS_EXCLUDP }
    return (br, excsync)
  else return (← patnodeWith P_EXCLUDE syncptr, excsync)

/-- A branch behind a `|`. At the top the flags start afresh, with a node for that where there were some. -/
def branchNode (paren : Bool) (savglobflags : Flags) : Compile (Nat × Option Nat) := do
  let br ← patnode P_BRANCH
  if paren then
    setGlobflags savglobflags
    return (br, none)
  else
    let before ← getGlobflags
    setGlobflags 0
    if before ≠ 0 then return (br, some (← patnodeWith P_GFLAGS (i32_bytes 0)))
    else return (br, none)

/-- What ends a switch: at the top, the end of the text or of a path component. -/
def properEnd (paren : Bool) : Compile Unit := do
  let s ← get
  match s.patparse with
  | [] => return
  | c :: _ => if paren ∨ (s.patflags &&& PAT_FILE ≠ 0 ∧ c = byte '/') then return else bad

/-- The nodes of a negation behind its `P_STAR`: the exclusion of what `inner` compiles. -/
def negation (inner : Compile Nat) : Compile Nat := do
  let starter ← patnode P_BRANCH
  let br ← patnode P_STAR
  let excsync ← patnode P_EXCSYNC
  pattail br excsync
  let excl ← patnode P_EXCLUDE
  pattail starter excl
  extend_patout syncptr
  let inner ← inner
  let excend ← patnode P_EXCEND
  pattail inner excend
  let n ← patnode P_NOTHING
  pattail excsync n
  pattail excl n
  return starter

/-- The group of `patcomppiece`'s `(` arm, around the switch that `inner` compiles. -/
def group (inner : Compile Switch) : Compile Piece := do
  let n ← groupNumber
  let open_off ← patnode (P_OPEN + UInt8.ofNat n)
  let savglobflags ← getGlobflags
  let sw ← inner
  expectOutpar
  let close_off ← patnode (P_CLOSE + UInt8.ofNat n)
  set_next open_off sw.starter
  pattail open_off close_off
  chain_branches_to sw.starter close_off
  if sw.gfchanged ≠ 0 then
    let gf_off ← restoreNode savglobflags
    set_next close_off gf_off
    return ⟨open_off, gf_off, 0, false⟩
  else return ⟨open_off, close_off, 0, true⟩

/-- The group of a `!(`: numbered or not, it ends in a node of its own. -/
def negatedGroup (inner : Compile Switch) : Compile Nat := do
  let savglobflags ← getGlobflags
  let parno ← groupNumber
  let open_off ← (if parno ≠ 0 then some <$> patnode (P_OPEN + UInt8.ofNat parno) else pure none)
  let sw ← inner
  expectOutpar
  linkTail open_off sw.starter
  let starter := open_off.getD sw.starter
  let ender ← patnode (if parno ≠ 0 then P_CLOSE + UInt8.ofNat parno else P_NOTHING)
  pattail starter ender
  chain_branches_to sw.starter ender
  if sw.gfchanged ≠ 0 then
    let gf_off ← restoreNode savglobflags
    pattail ender gf_off
    return starter
  else return starter

/-- A negated piece goes to the end of its chain. -/
def negatedPiece (starter : Nat) : Compile Piece := do
  let buf ← getOut
  match pieceTail buf (buf.length + 1) starter with
  | none => throw .hang
  | some tail => return ⟨starter, tail, P_HSTART, false⟩

/-- The arm of `(`. -/
def groupAtom (kshchar : UInt8) (rest : Bytes) (negated : Compile Nat) (inner : Compile Switch) :
    Compile Piece := do
  setParse rest
  if kshchar = byte '!' then
    let starter ← negated
    negatedPiece starter
  else group inner

mutual

def patcompswitch (R : Reads) (paren : Bool) : Nat → Compile Switch
  | 0 => throw .fuel
  | fuel + 1 => do
    let savglobflags ← getGlobflags
    let starter ← patnode P_BRANCH
    let (_, flags) ← patcompbranch R paren fuel
    let changed := if (← getGlobflags) ≠ savglobflags then 1 else 0
    let sw ← alternatives R paren savglobflags starter 0 ⟨starter, flags &&& P_HSTART, changed⟩ fuel
    properEnd paren
    return sw

/-- The loop of `patcompswitch`: a branch for each `|`, an exclusion for each `~`. -/
def alternatives (R : Reads) (paren : Bool) (savglobflags : Flags) (last_branch excsync : Nat) (sw : Switch) :
    Nat → Compile Switch
  | 0 => throw .fuel
  | fuel + 1 => do
    match ← getParse with
    | [] => return sw
    | c :: rest =>
      if c = R.zpc_special .TILDE ∧ rest ≠ [] ∧ (rest.headD 0 = byte '/' ∨ ¬ segment R (rest.headD 0)) then
        setParse rest
        let (br, excsync) ← excludeNode paren last_branch excsync
        set_next last_branch br
        let (_, flags) ← patcompbranch (R.maskSlash paren) paren fuel
        let excend ← patnode P_EXCEND
        patoptail br excend
        alternatives R paren savglobflags br excsync { sw with flags := sw.flags ||| flags &&& P_HSTART } fuel
      else if c = R.zpc_special .BAR then
        setParse rest
        let (br, gfnode) ← branchNode paren savglobflags
        set_next last_branch br
        let (inner, flags) ← patcompbranch R paren fuel
        linkTail gfnode inner
        let changed := if (← getGlobflags) ≠ savglobflags then sw.gfchanged + 1 else sw.gfchanged
        alternatives R paren savglobflags br 0 ⟨sw.starter, sw.flags ||| flags &&& P_HSTART, changed⟩ fuel
      else return sw

def patcompbranch (R : Reads) (paren : Bool) : Nat → Compile (Nat × Flags)
  | 0 => throw .fuel
  | fuel + 1 => do
    let B ← pieces R paren .init fuel
    match B.chain_start with
    | some start => return (start, B.flagp)
    | none => return (← patnode P_NOTHING, B.flagp)

/-- The loop of `patcompbranch`: counts, flag specifiers, negations and pieces. `counted` is
`KSH93_COUNT_GROUP`: up between a count prefix and the group that it stands in front of. -/
def pieces (R : Reads) (paren : Bool) (B : Branch) : Nat → Compile Branch
  | 0 => throw .fuel
  | fuel + 1 => do
    match ← getParse with
    | [] => return B
    | c :: rest =>
      if c = byte '|' ∨ c = byte ')' ∨ (c = byte '/' ∧ R.zpc_special .SLASH = byte '/') ∨ endsAtTilde R c rest then
        return B
      else
        let counted := B.pending_count.isSome
        match if counted = false ∧ ksh_count_active R then ksh93_count_prefix (c :: rest) else none with
        | some (min, max, text) =>
          setParse text
          pieces R paren { B with pending_count := some (BitVec.ofNat 64 min, BitVec.ofNat 64 max) } fuel
        | none =>
          match countSpec R (c :: rest) with
          | some (min, max, text) =>
            setParse text
            let B ← B.count min max
            pieces R paren B fuel
          | none =>
            let old ← getGlobflags
            match ← scanFlags (flagSpec R (c :: rest)) with
            | some assertp =>
              let B ← B.setFlags old assertp
              pieces R paren B fuel
            | none =>
              if c = R.zpc_special .HAT ∧ c ≠ 0 then
                setParse rest
                let starter ← patcompnot R false fuel
                let B ← B.chain starter ((← getOut).length - I_BODY)
                pieces R paren { B with flagp := B.flagp ||| P_HSTART } fuel
              else
                let p ← patcomppiece R paren counted fuel
                if (c :: rest).length ≤ (← getParse).length then bad
                else
                  let B ← B.add p
                  pieces R paren B fuel

def patcomppiece (R : Reads) (paren counted : Bool) : Nat → Compile Piece
  | 0 => throw .fuel
  | fuel + 1 => do
    match ← getParse with
    | [] => return ⟨← patnode P_NOTHING, 0, 0, false⟩
    | c :: rest =>
      let kshchar := kshcharOf R counted (c :: rest)
      let (c, text) := if kshchar ≠ 0 then (byte '(', rest) else (c, c :: rest)
      let p ← (
        if c = byte '?' ∧ quest_active R then nodeAtom P_ANY P_SIMPLE text.tail
        else if c = byte '*' ∧ star_active R then nodeAtom P_STAR 0 text.tail
        else if c = byte '[' ∧ inbrack_active R then bracketAtom R text.tail
        else if c = byte '(' ∧ (kshchar ≠ 0 ∨ inpar_active R) then
          groupAtom kshchar text.tail (patcompnot R true fuel) (patcompswitch R true fuel)
        else if c = byte '\\' then escapedAtom text.tail
        else if c = byte '<' then inangAtom R text.tail
        else literalAtom R paren text)
      if p.isOpen then quantify R kshchar p else return p

def patcompnot (R : Reads) (paren : Bool) : Nat → Compile Nat
  | 0 => throw .fuel
  | fuel + 1 =>
    negation <|
      if paren then negatedGroup (patcompswitch R true fuel)
      else do
        let (inner, _) ← patcompbranch R false fuel
        return inner

end

structure Patprog where
  startoff : Nat
  size : Nat
  mustoff : Nat
  patmlen : Nat
  globflags : Flags
  globend : Flags
  flags : Flags
  patnpar : Nat
  patstartch : Nat
  code : Bytes
  deriving DecidableEq

/-- The fuel for a text: `compile_fuel` says that it is enough. -/
def fuelFor (text : Bytes) : Nat := 5 * text.length + 4

/-- The end of `patcompile`, from `patcompswitch` on. -/
def compileProgram (R : Reads) (text : Bytes) : Compile Unit := do
  let sw ← patcompswitch R false (fuelFor text)
  let end_off ← patnode P_END
  chain_branches_to sw.starter end_off

/-- `patcompile` from where it has stored the flags that it starts with. It gives nothing where a walk along
the program never ends. -/
def compileFrom (env : Env) (special : Zpc → UInt8) (seeded : Flags) (exp : Str)
    (inflags patglobflags : Flags) : Option (Option Patprog × Flags) :=
  let patstartch := if exp.head? = some '.' then 46 else 0
  let pattern := normalize env.modes 0 false exp
  let patflags := inflags &&& ~~~(PAT_PURES ||| PAT_HAS_EXCLUDP)
  let (rest, patglobflags, globflags) :=
    if special .HASH = byte '#' && special .INPAR = byte '(' then
      hoist pattern patglobflags (seeded &&& (GF_MULTIBYTE ||| GF_IGNCASE ||| GF_LCMATCHUC ||| 0xff))
    else (pattern, patglobflags, seeded &&& (GF_MULTIBYTE ||| GF_IGNCASE ||| GF_LCMATCHUC ||| 0xff))
  let folds := globflags &&& (0xff ||| GF_LCMATCHUC ||| GF_IGNCASE) != 0
  let general :=
    let text := Utf8.encode rest
    match compileProgram ⟨special, env.isset .KSHGLOB, env.modes, env.mbrtowc⟩ text
      ⟨text, [], patglobflags, patflags, 1⟩ with
    | .ok _ s =>
      some (some ⟨0, s.patout.length, 0, 0, globflags, s.patglobflags, s.patflags, s.patnpar - 1, patstartch,
        s.patout⟩, s.patglobflags)
    | .error .bad s => some (none, s.patglobflags)
    | .error _ _ => none
  if patflags &&& PAT_FILE != 0 && patflags &&& PAT_ANY = 0 then
    match pureComponent rest with
    | some (literal, cut) =>
      if !folds || cut = ['.'] || cut = ['.', '.'] || cut = [] then
        let bytes := Utf8.encode literal
        some (some ⟨0, bytes.length, 0, bytes.length, globflags, patglobflags, patflags ||| PAT_PURES, 0,
          patstartch, bytes⟩, patglobflags)
      else general
    | none => general
  else general

/-- What `patcompile` gives for a spelled text when nothing is cached, and the flags that it leaves. -/
def compileText (env : Env) (incoming : Flags) (text : Str) (inflags : Flags) :
    Option (Option Patprog × Flags) :=
  let seeded := seededGlobflags env inflags incoming
  compileFrom env (zpc_special env inflags) seeded text inflags seeded

/-- What `patcompile` gives when nothing is cached. -/
def patcompile (env : Env) (incoming : Flags) (exp : Str) (inflags : Flags) :
    Option (Option Patprog × Flags) :=
  compileText env incoming (spell env exp) inflags

/-- A program that is compiled ends with the flags that the compile leaves. -/
theorem compileFrom_globend {env : Env} {special : Zpc → UInt8} {seeded : Flags} {exp : Str}
    {inflags patglobflags left : Flags} {prog : Patprog}
    (h : compileFrom env special seeded exp inflags patglobflags = some (some prog, left)) :
    prog.globend = left := by
  unfold compileFrom at h
  dsimp only at h
  generalize (if special .HASH = byte '#' && special .INPAR = byte '(' then _ else _) = hoisted at h
  obtain ⟨rest, flags, globflags⟩ := hoisted
  dsimp only at h
  generalize hgeneral : (match compileProgram _ _ _ with
    | .ok _ s => _
    | .error .bad s => _
    | .error _ _ => _ : Option (Option Patprog × Flags)) = general at h
  have hg : general = some (some prog, left) → prog.globend = left := by
    rintro rfl
    split at hgeneral
    · cases hgeneral
      rfl
    · cases hgeneral
    · cases hgeneral
  split at h
  · split at h
    · split at h
      · cases h
        rfl
      · exact hg h
    · exact hg h
  · exact hg h

end Zshrs.Pattern
