import Zshrs.Lib.Utf8
import Zshrs.Parse.Ecstr
import Mathlib.Algebra.Group.Nat.Defs
import Mathlib.Algebra.Group.Int.Defs

namespace Zshrs.Zle

open Lib Parse.Ecstr

abbrev Line := List Char

abbrev Bytes := List UInt8

/-- A cast to `i32`, and the wrap of its arithmetic. -/
def as_i32 (n : Int) : Int := n.bmod (2 ^ 32)

def Meta : UInt8 := 0x83

def ZSH_INVALID_WCHAR_BASE : Nat := 0xe000

def ZSH_INVALID_WCHAR_TEST (x : Nat) : Bool :=
  ZSH_INVALID_WCHAR_BASE ≤ x && x ≤ ZSH_INVALID_WCHAR_BASE + 255

def ZSH_INVALID_WCHAR_TO_CHAR (x : Nat) : UInt8 := UInt8.ofNat (x - ZSH_INVALID_WCHAR_BASE)

/-- `wcrtomb` in a UTF-8 locale, where every char has an encoding. -/
def wcrtomb (ch : Char) : Option Bytes := some (String.utf8EncodeChar ch)

/-- The bytes that the encoding loop pushes for a char. -/
def char_bytes (ch : Char) : Bytes :=
  if ZSH_INVALID_WCHAR_TEST ch.toNat then [ZSH_INVALID_WCHAR_TO_CHAR ch.toNat]
  else
    match wcrtomb ch with
    | some enc => enc
    | none => [0x3f]

structure Encoded where
  s : Bytes
  outcs : Int
  remaining : Int

def encode_step (e : Encoded) (ch : Char) : Encoded where
  s := e.s ++ char_bytes ch
  outcs := if e.remaining = 0 then as_i32 e.s.length else e.outcs
  remaining := as_i32 (e.remaining - 1)

structure Metafied where
  s : Bytes
  outll : Int
  outcs : Int

/-- One byte of the metafy loop, at index `b.2`. -/
def metafy_step (m : Metafied) (b : UInt8 × Nat) : Metafied :=
  if imeta b.1 then
    { s := m.s ++ [Meta, b.1 ^^^ 0x20]
      outll := as_i32 (m.outll + 1)
      outcs := if as_i32 b.2 < m.outcs then as_i32 (m.outcs + 1) else m.outcs }
  else { m with s := m.s ++ [b.1] }

/-- `zlelineasstring`; `wanted` is whether the caller passes `outllp` or `outcsp`. -/
def zlelineasstring (line : Line) (inll : Nat) (incs : Int) (wanted : Bool) : Metafied :=
  let e := (line.take inll).foldl encode_step ⟨[], 0, incs⟩
  let outcs := if e.remaining = 0 then as_i32 e.s.length else e.outcs
  let outll := as_i32 e.s.length
  if wanted then e.s.zipIdx.foldl metafy_step ⟨[], outll, outcs⟩ else ⟨e.s, outll, outcs⟩

/-- What `mbrtowc` answers: a wide char and the bytes that it took, zero for a NUL. -/
inductive Conversion where
  | wide (wc cnt : Nat)
  | incomplete
  | invalid
  deriving DecidableEq

/-- A UTF-8 locale: `mbrtowc` of the libc, which goes on from a shift state. What it takes for a char besides
the chars of Unicode is open, and what it makes of the state when it fails in the middle of a char. -/
structure Locale where
  State : Type
  zero : State
  mbrtowc : State → Bytes → Conversion × State
  char : ∀ ch rest, mbrtowc zero (String.utf8EncodeChar ch ++ rest) =
    (.wide ch.toNat (if ch = '\x00' then 0 else (String.utf8EncodeChar ch).length), zero)
  encoded : ∀ {s : Bytes} {ch : Char} {cnt : Nat} {mbs : State},
    mbrtowc zero s = (.wide ch.toNat cnt, mbs) → String.utf8EncodeChar ch <+: s
  invalid : ∀ {s : Bytes} {mbs : State}, mbrtowc zero s = (.invalid, mbs) → mbs = zero
  incomplete : ∀ {b : UInt8} {rest : Bytes} {mbs : State}, mbrtowc zero (b :: rest) = (.incomplete, mbs) →
    ∀ c ∈ rest, Utf8.Continuation c

def unmetafy : Bytes → Bytes
  | [] => []
  | [b] => [b]
  | b :: n :: rest => if b = Meta then (n ^^^ 0x20) :: unmetafy rest else b :: unmetafy (n :: rest)

/-- The first loop of `stringaszleline`: the bytes that `Meta` adds before `cspos`. -/
def cursor_loop (cspos : Nat) : Nat → Bytes → Int → Int
  | _, [], incs => incs
  | inptr, [b], incs => if b = Meta ∧ inptr < cspos then as_i32 (incs - 1) else incs
  | inptr, b :: n :: rest, incs =>
      if b = Meta then
        cursor_loop cspos (inptr + 2) rest (if inptr < cspos then as_i32 (incs - 1) else incs)
      else cursor_loop cspos (inptr + 1) (n :: rest) incs

/-- A byte that does not decode, as the private char that keeps it. -/
def invalid_wchar (b : UInt8) : Char := Char.ofNat (ZSH_INVALID_WCHAR_BASE + b.toNat)

/-- `char::from_u32`, or a question mark. -/
def from_u32 (wc : Nat) : Char := if wc.isValidChar then Char.ofNat wc else '?'

/-- The bytes that a round takes when `mbrtowc` took `cnt` of `rem`. -/
def taken (cnt rem : Nat) : Nat := if cnt = 0 then 1 else min cnt rem

/-- One round of the decoding loop on nonempty input: the char, the bytes it takes and the shift state. -/
def convert (L : Locale) (mbs : L.State) (b : UInt8) (rest : Bytes) : Char × Nat × L.State :=
  match L.mbrtowc mbs (b :: rest) with
  | (.wide wc cnt, mbs) => (from_u32 wc, taken cnt (b :: rest).length, mbs)
  -- the shift state is not reset
  | (_, mbs) => (invalid_wchar b, 1, mbs)

structure Decoded where
  line : Line
  outcs : Option Int

def decode_loop (L : Locale) (want_outcs : Bool) (incs : Int) : Nat → L.State → Nat → Bytes → Decoded → Decoded
  | 0, _, _, _, d => d
  | _ + 1, _, _, [], d => d
  | fuel + 1, mbs, inptr, b :: rest, d =>
      let (outchar, cnt, mbs) := convert L mbs b rest
      let spans := want_outcs ∧ as_i32 inptr ≤ incs ∧ incs < as_i32 (inptr + cnt : Nat)
      decode_loop L want_outcs incs fuel mbs (inptr + cnt) ((b :: rest).drop cnt)
        { line := d.line ++ [outchar]
          outcs := if spans then some (as_i32 d.line.length) else d.outcs }

structure ZleLine where
  line : Line
  outll : Int
  outsz : Int
  outcs : Int

def stringaszleline (L : Locale) (instr : Bytes) (incs : Int) (want_outcs : Bool) : ZleLine :=
  let cspos := if incs < 0 then instr.length else min incs.toNat instr.length
  let incs := if want_outcs then cursor_loop cspos 0 instr incs else incs
  let raw := unmetafy instr
  let d := decode_loop L want_outcs incs raw.length L.zero 0 raw ⟨[], none⟩
  { line := d.line
    outll := as_i32 d.line.length
    outsz := as_i32 raw.length
    outcs := if want_outcs then d.outcs.getD (as_i32 d.line.length) else 0 }

end Zshrs.Zle
