import Zshrs.Lib.Utf8
import Zshrs.Lib.Words
import Zshrs.Parse.Cond
import Zshrs.Parse.Ecbuf

namespace Zshrs.Parse.Dump

open Lib Lib.Words
open Lib.Bytes (getRange)
open Wordcode (wordcode Str)
open Cond (IS_DASH)

abbrev Bytes := List UInt8

def FD_EXT : Str := ".zwc".toList
def FD_MINMAP : Int := 4096
def FD_PRELEN : Nat := 12
def FD_MAGIC : wordcode := 0x04050607
def FD_OMAGIC : wordcode := 0x07060504
def FDF_MAP : wordcode := 1
def FDF_OTHER : wordcode := 2
def FDHEAD_WORDS : Nat := 6
def FDHF_KSHLOAD : wordcode := 1
def FDHF_ZSHLOAD : wordcode := 2

def EF_REAL : UInt32 := 1
def EF_HEAP : UInt32 := 2
def EF_RUN : UInt32 := 8

def ZSH_VERSION : Str := "5.9.2".toList

/-- `size_of::<*const u8>()`. -/
def patprogSize : Int := 8

structure Eprog where
  flags : UInt32
  len : Int
  npats : Int
  prog : List wordcode
  strs : Option Bytes
  deriving DecidableEq

/-- What the parser leaves for `bld_eprog`. The length of the program is an `i32`. -/
structure Compiled where
  heap : Bool
  ecbuf : List wordcode
  ecnpats : Nat
  pool : Bytes
  small : ecnpats * 8 + (ecbuf.length + 1) * 4 + pool.length < 2 ^ 31

/-- `bld_eprog`, with its `WC_END`. -/
def bldEprog (c : Compiled) : Eprog :=
  let prog := c.ecbuf ++ [0]
  { flags := if c.heap then EF_HEAP else EF_REAL
    len := c.ecnpats * patprogSize + prog.length * 4 + c.pool.length
    npats := c.ecnpats
    prog
    strs := some c.pool }

structure Fdhead where
  start : wordcode
  len : wordcode
  npats : wordcode
  strs : wordcode
  hlen : wordcode
  flags : wordcode
  deriving DecidableEq

def Fdhead.words (h : Fdhead) : List wordcode := [h.start, h.len, h.npats, h.strs, h.hlen, h.flags]

structure Wcfunc where
  name : Str
  prog : Eprog
  flags : wordcode

section Accessors

variable (f : List wordcode)

def word (i : Nat) : wordcode := f.getD i 0

def fdheaderlen : wordcode := word f FD_PRELEN
def fdmagic : wordcode := word f 0
def fdflags : wordcode := word f 1 &&& 0xff
def fdsetflags (v : wordcode) : List wordcode := f.set 1 ((word f 1 &&& ~~~0xff) ||| (v &&& 0xff))
def fdother : wordcode := (word f 1 >>> 8) &&& 0xffffff
def fdsetother (o : wordcode) : List wordcode :=
  f.set 1 ((word f 1 &&& (0xff : wordcode)) ||| ((o &&& (0xffffff : wordcode)) <<< 8))

/-- The bytes in front of the first NUL. -/
def cstr (s : Bytes) : Bytes := s.takeWhile (· ≠ 0)

def fdversion : Str := Utf8.lossy (cstr (bytesOf ((f.drop 2).take 10)))

def firstfdheadOffset : Nat := FD_PRELEN
def nextfdheadOffset (cur : Nat) : Nat := cur + (word f (cur + 4)).toNat

def fdhflags (h : Fdhead) : wordcode := h.flags &&& 3
def fdhtail (h : Fdhead) : wordcode := h.flags >>> 2
def fdhbldflags (flags tail : wordcode) : wordcode := flags ||| (tail <<< 2)

def fdname (offset : Nat) : Str := Utf8.lossy (cstr (bytesOf (f.drop (offset + FDHEAD_WORDS))))

def readFdhead (offset : Nat) : Option Fdhead :=
  if offset + FDHEAD_WORDS > f.length then none
  else some ⟨word f offset, word f (offset + 1), word f (offset + 2), word f (offset + 3),
    word f (offset + 4), word f (offset + 5)⟩

end Accessors

section Writing

/-- `as u32` of an `i32`. -/
def asU32 (i : Int) : wordcode := UInt32.ofNat (i % 2 ^ 32).toNat

def fdswap (p : List wordcode) : List wordcode := p.map swapBytes

/-- The bytes of a body, less its pattern slots. -/
def lenBytes (p : Eprog) : Int := p.len - p.npats * patprogSize

def lenWords (p : Eprog) : Int := Int.tdiv (lenBytes p + 3) 4

/-- Behind the last slash. -/
def tail (n : Bytes) : Nat := n.length - (n.reverse.takeWhile (· ≠ 0x2f)).length

def fdhead (curHlen : Int) (wcf : Wcfunc) : Fdhead :=
  let n := Utf8.encode wcf.name
  { start := asU32 curHlen
    len := asU32 (lenBytes wcf.prog)
    npats := asU32 wcf.prog.npats
    strs := asU32 (wcf.prog.prog.length * 4)
    hlen := asU32 (FDHEAD_WORDS + (n.length + 4) / 4)
    flags := fdhbldflags wcf.flags (asU32 (tail n)) }

/-- A header, and its name with a NUL; what is left of the last word is filled from the header. -/
def writeHead (other : Bool) (curHlen : Int) (wcf : Wcfunc) : Bytes :=
  let n := Utf8.encode wcf.name
  let head := (fdhead curHlen wcf).words
  let head := if other then fdswap head else head
  let tmp := (n.length + 1) % 4
  let fill := if tmp ≠ 0 then ((bytesOf head).take 4).take (4 - tmp) else []
  bytesOf head ++ (n ++ [0] ++ fill)

def writeHeads (other : Bool) : Int → List Wcfunc → Bytes
  | _, [] => []
  | curHlen, wcf :: progs =>
      writeHead other curHlen wcf ++ writeHeads other (curHlen + lenWords wcf.prog) progs

/-- `Vec::resize` with NULs. -/
def resize (s : Bytes) (n : Nat) : Bytes := s.take n ++ List.replicate (n - s.length) 0

def writeBody (other : Bool) (wcf : Wcfunc) : Bytes :=
  let prog := if other then fdswap wcf.prog.prog else wcf.prog.prog
  resize (bytesOf prog ++ wcf.prog.strs.getD []) ((lenWords wcf.prog).toNat * 4)

/-- `pre[word] |= b << shift` for the bytes of the version. -/
def setVersion (pre : List wordcode) (ver : Bytes) : List wordcode :=
  ver.zipIdx.foldl (fun pre (b, i) =>
    pre.set (2 + i / 4) (word pre (2 + i / 4) ||| (b.toUInt32 <<< UInt32.ofNat (i % 4 * 8)))) pre

def prelude (other map : Bool) (tlen : Int) : List wordcode :=
  let pre := List.replicate FD_PRELEN 0
  let pre := pre.set 0 (if other then FD_OMAGIC else FD_MAGIC)
  let pre := fdsetflags pre ((if map then FDF_MAP else 0) ||| (if other then FDF_OTHER else 0))
  let pre := fdsetother pre (asU32 tlen)
  setVersion pre (Utf8.encode ZSH_VERSION)

def writePass (other : Bool) (progs : List Wcfunc) (map : Bool) (hlen tlen : Int) : Bytes :=
  bytesOf (prelude other map tlen) ++ (writeHeads other hlen progs ++ progs.flatMap (writeBody other))

/-- `map` is 1 where the size decides. -/
def mapped (map : Nat) (tlen : Int) : Bool := if map = 1 then FD_MINMAP ≤ tlen else map ≠ 0

def writeDump (progs : List Wcfunc) (map : Nat) (hlen tlen : Int) : Bytes :=
  writePass false progs (mapped map tlen) hlen tlen ++ writePass true progs (mapped map tlen) hlen tlen

end Writing

section Building

/-- The regular files, by name, and the parser on the bytes of one. A path is not empty, and has no
NUL. -/
structure Sources where
  read : Str → Option Bytes
  parse : Bytes → Option Compiled
  path : ∀ fname, read fname ≠ none → fname ≠ [] ∧ '\x00' ∉ fname

/-- The `-k` and `-z` of `bin_zcompile`. -/
def loadFlags (k z : Bool) : wordcode := if k then FDHF_KSHLOAD else if z then FDHF_ZSHLOAD else 0

/-- Its `-M` and `-R`. -/
def mapMode (M R : Bool) : Nat := if M then 2 else if R then 0 else 1

def checkCond (input cond : Str) : Bool :=
  match input with
  | c :: rest => IS_DASH c && rest = cond
  | [] => false

structure Build where
  progs : List Wcfunc
  hlen : Int
  tlen : Int
  flags : wordcode

def addFile (S : Sources) (b : Build) (fname : Str) : Except Str Build :=
  if checkCond fname ['k'] then
    .ok { b with flags := (b.flags &&& ~~~(FDHF_KSHLOAD ||| FDHF_ZSHLOAD)) ||| FDHF_KSHLOAD }
  else if checkCond fname ['z'] then
    .ok { b with flags := (b.flags &&& ~~~(FDHF_KSHLOAD ||| FDHF_ZSHLOAD)) ||| FDHF_ZSHLOAD }
  else
    match S.read fname with
    | none => .error ("can't open file: ".toList ++ fname)
    | some bytes =>
        match (S.parse bytes).map bldEprog with
        | none => .error ("can't read file: ".toList ++ fname)
        | some prog =>
            .ok
              { b with
                progs := b.progs ++
                  [⟨fname, prog, if prog.flags &&& EF_RUN ≠ 0 then FDHF_KSHLOAD else b.flags⟩]
                hlen := b.hlen + (FDHEAD_WORDS + ((Utf8.encode fname).length + 4) / 4)
                tlen := b.tlen + lenWords prog }

def addFiles (S : Sources) : Build → List Str → Except Str Build
  | b, [] => .ok b
  | b, fname :: files =>
      match addFile S b fname with
      | .error e => .error e
      | .ok b => addFiles S b files

/-- The content of the dump, or what it warns where there is none. -/
def buildDump (S : Sources) (files : List Str) (map : Nat) (flags : wordcode) : Except Str Bytes :=
  match addFiles S ⟨[], FD_PRELEN, 0, flags⟩ files with
  | .error e => .error e
  | .ok b => .ok (writeDump b.progs map b.hlen ((b.tlen + b.hlen) * 4))

end Building

section Loading

def prefixBytes : Nat := (FD_PRELEN + 1) * 4

/-- The header words of a dump, or what it warns. -/
def loadDumpHeader (name : Str) (err : Bool) (file : Option Bytes) :
    Except (Option Str) (List wordcode) :=
  let invalid := "invalid zwc file: ".toList ++ name
  match file with
  | none => .error (if err then some ("can't open zwc file: ".toList ++ name) else none)
  | some f =>
      match (getRange f 0 prefixBytes).map wordsOf with
      | none => .error (if err then some invalid else none)
      | some buf =>
          if fdmagic buf ≠ FD_MAGIC ∧ fdmagic buf ≠ FD_OMAGIC then
            .error (if err then some invalid else none)
          else if fdversion buf ≠ ZSH_VERSION then
            .error (if err then some ("zwc file has wrong version (zsh-".toList ++ fdversion buf ++
              "): ".toList ++ name) else none)
          else
            let copy := if fdmagic buf ≠ FD_MAGIC then (fdother buf).toNat else 0
            match (getRange f copy prefixBytes).map wordsOf with
            | none => .error (some invalid)
            | some buf =>
                let total := (fdheaderlen buf).toNat
                if total < FD_PRELEN + 1 then .error (some invalid)
                else
                  match getRange f (copy + prefixBytes) ((total - (FD_PRELEN + 1)) * 4) with
                  | none => .error (some invalid)
                  | some rest => .ok (buf ++ wordsOf rest)

/-- The walk over the headers. Nothing where a header's length sends it round for ever. -/
def walkHeads (h : List wordcode) : Nat → Nat → Option (List (Nat × Fdhead))
  | 0, _ => none
  | fuel + 1, cur =>
      if cur < (fdheaderlen h).toNat then
        match readFdhead h cur with
        | none => some []
        | some fh => (walkHeads h fuel (nextfdheadOffset h cur)).map ((cur, fh) :: ·)
      else some []

/-- Every header that is not empty moves the walk on. -/
def rounds (h : List wordcode) : Nat := (fdheaderlen h).toNat + 1

def heads (h : List wordcode) : Option (List (Nat × Fdhead)) := walkHeads h (rounds h) firstfdheadOffset

/-- The lines of `zcompile -t`. -/
def listDump (h : List wordcode) : Option (List Str) :=
  (heads h).map fun entries =>
    ("zwc file (".toList ++ (if fdflags h &&& FDF_MAP ≠ 0 then "mapped" else "read").toList ++
      ") for zsh-".toList ++ fdversion h) :: entries.map fun e => fdname h e.1

/-- The functions that `dump_autoload` adds. Its tail counts characters. -/
def dumpAutoload (h : List wordcode) : Option (List Str) :=
  (heads h).map fun entries => entries.map fun e => (fdname h e.1).drop (fdhtail e.2).toNat

/-- Whether the entry's name, from its tail on, is the one looked for. -/
def sameName (h : List wordcode) (want : Bytes) (cur : Nat) (fh : Fdhead) : Bool :=
  let entry := (bytesOf h).drop ((cur + FDHEAD_WORDS) * 4 + (fdhtail fh).toNat)
  want.isPrefixOf entry && (entry.drop want.length).head?.getD 0 = 0

def findHead (h : List wordcode) (want : Bytes) : Nat → Nat → Option (Option Fdhead)
  | 0, _ => none
  | fuel + 1, cur =>
      if cur < (fdheaderlen h).toNat then
        match readFdhead h cur with
        | none => some none
        | some fh =>
            if sameName h want cur fh then some (some fh)
            else findHead h want fuel (nextfdheadOffset h cur)
      else some none

def dumpFindFunc (h : List wordcode) (name : Str) : Option (Option Fdhead) :=
  findHead h (Utf8.encode name) (rounds h) firstfdheadOffset

/-- What `zcompile -t` with names checks. -/
def testDump (h : List wordcode) : List Str → Option Bool
  | [] => some true
  | name :: names =>
      match dumpFindFunc h name with
      | none => none
      | some none => some false
      | some (some _) => testDump h names

def kshMode (flags : wordcode) : Nat :=
  if flags &&& FDHF_KSHLOAD ≠ 0 then 2 else if flags &&& FDHF_ZSHLOAD ≠ 0 then 0 else 1

/-- The `eprog` that the read branch builds. -/
def readEprog (fh : Fdhead) (bytes : Bytes) : Eprog :=
  let strsOff := min fh.strs.toNat bytes.length
  { flags := EF_REAL
    len := fh.len.toNat + fh.npats.toNat * patprogSize
    npats := fh.npats.toNat
    prog := wordsOf (bytes.take strsOff)
    strs := some (bytes.drop strsOff) }

/-- The program of a name in a dump and how it is to be loaded, or what it warns. -/
def checkDumpFile (file : Str) (content : Option Bytes) (name : Str) (testOnly : Bool) :
    Option (Except (Option Str) (Eprog × Nat)) :=
  match loadDumpHeader file false content with
  | .error e => some (.error e)
  | .ok dump =>
      match dumpFindFunc dump name with
      | none => none
      | some none => some (.error none)
      | some (some h) =>
          if testOnly then some (.ok (⟨0, 0, 0, [], none⟩, 0))
          else if h.npats > h.len / 4 then
            some (.error (some (file ++ ": invalid description: ".toList ++ name)))
          else
            let off := h.start.toNat * 4 +
              if fdflags dump &&& FDF_OTHER ≠ 0 then (fdother dump).toNat else 0
            match content.bind fun f => getRange f off h.len.toNat with
            | none => some (.error none)
            | some bytes => some (.ok (readEprog h bytes, kshMode (fdhflags h)))

end Loading

end Zshrs.Parse.Dump
