import Mathlib.Data.Char
import Zshrs.Lib.Utf8

namespace Zshrs.Pattern

abbrev Str := List Char
abbrev Bytes := List UInt8
abbrev Flags := BitVec 32

def PAT_FILE : Flags := 0x0001
def PAT_FILET : Flags := 0x0002
def PAT_ANY : Flags := 0x0004
def PAT_PURES : Flags := 0x0020
def PAT_HAS_EXCLUDP : Flags := 0x0800

def GF_LCMATCHUC : Flags := 0x0100
def GF_IGNCASE : Flags := 0x0200
def GF_BACKREF : Flags := 0x0400
def GF_MATCHREF : Flags := 0x0800
def GF_MULTIBYTE : Flags := 0x1000

def P_ISSTART : UInt8 := 0x09
def P_ISEND : UInt8 := 0x0a

inductive Opt
  | EXTENDEDGLOB
  | KSHGLOB
  | SHGLOB
  | CASEGLOB
  | CASEPATHS
  | MULTIBYTE
  | other (id : Nat)

/-- The slots of `zpc_special`. -/
inductive Zpc
  | SLASH | NULL | BAR | OUTPAR | TILDE
  | INPAR | QUEST | STAR | INBRACK | INANG | HAT | HASH | BNULLKEEP
  | KSH_QUEST | KSH_STAR | KSH_PLUS | KSH_BANG | KSH_BANG2 | KSH_AT
  deriving DecidableEq

def Zpc.all : List Zpc :=
  [.SLASH, .NULL, .BAR, .OUTPAR, .TILDE, .INPAR, .QUEST, .STAR, .INBRACK, .INANG, .HAT, .HASH,
    .BNULLKEEP, .KSH_QUEST, .KSH_STAR, .KSH_PLUS, .KSH_BANG, .KSH_BANG2, .KSH_AT]

theorem Zpc.mem_all (z : Zpc) : z ∈ Zpc.all := by cases z <;> decide

/-- The emulations that the compiler asks for. -/
structure Modes where
  posix_faithful : Bool
  bash_mode : Bool
  dash_strict : Bool
  pdksh_family : Bool
  emulate_ksh : Bool
  deriving DecidableEq

namespace Modes

variable (m : Modes)

def dash_faithful : Bool := m.posix_faithful && m.dash_strict

def korn_mode : Bool := m.posix_faithful && m.emulate_ksh

def ksh93_mode : Bool := m.korn_mode && !m.pdksh_family

end Modes

/-- What `mbrtowc` says of the bytes it is handed: a wide character, and how many of them it takes. -/
inductive Mbrtowc
  | incomplete
  | invalid
  | char (wc ret : Nat)

def MB_CUR_MAX : Nat := 6
def I64_MAX : Nat := 9223372036854775807

/-- The options, the tokens that `disable -p` has taken away, the emulation and the locale. -/
structure Env where
  isset : Opt → Bool
  zpc_disables : Zpc → Bool
  modes : Modes
  mbrtowc : Bytes → Mbrtowc

def Meta : Char := '\u0083'
def Inpar : Char := '\ue188'
def Outpar : Char := '\ue18a'
def Inbrack : Char := '\ue191'
def Outbrack : Char := '\ue192'
def Bnull : Char := '\ue19f'
def Bnullkeep : Char := '\ue1a0'
def Nularg : Char := '\ue1a1'

def ztokens : List Char :=
  ['#', '$', '^', '*', '(', '(', ')', ')', '$', '=', '|', '\x7b', '\x7d', '[', ']', '\x60', '<', '>', '>',
    '?', '~', '\x60', ',', '-', '!', '\x27', '\x22', '\\', '\\']

def is_token_char (c : Char) : Bool := 0xe184 ≤ c.toNat && c.toNat ≤ 0xe1a2

def meta_pairs (c : Char) : Str :=
  (String.utf8EncodeChar c).flatMap fun b => [Meta, Char.ofNat (b.toNat ^^^ 32)]

/-- Every byte that is not ASCII as a `Meta` pair. -/
def byte_spelling : Str → Str
  | [] => []
  | [c] =>
    if c.toNat < 0x80 || is_token_char c then [c]
    else meta_pairs c
  | c :: n :: rest =>
    if c.toNat < 0x80 || is_token_char c then c :: byte_spelling (n :: rest)
    else if c = Meta && 0x80 ≤ n.toNat then c :: n :: byte_spelling rest
    else meta_pairs c ++ byte_spelling (n :: rest)

/-- The text that `patcompile` looks up and compiles. -/
def spell (env : Env) (exp : Str) : Str := if env.isset .MULTIBYTE then exp else byte_spelling exp

def is_ascii_digit (b : UInt8) : Bool := 48 ≤ b && b ≤ 57

/-- `Marker as u8`. It is no token, but the last byte of U+00E2, say. -/
def Marker : UInt8 := 0xa2

def zpc_chars : Zpc → UInt8
  | .SLASH => 47
  | .NULL | .BNULLKEEP => 0
  | .BAR => 124
  | .OUTPAR => 41
  | .TILDE => 126
  | .INPAR => 40
  | .QUEST | .KSH_QUEST => 63
  | .STAR | .KSH_STAR => 42
  | .INBRACK => 91
  | .INANG => 60
  | .HAT => 94
  | .HASH => 35
  | .KSH_PLUS => 43
  | .KSH_BANG | .KSH_BANG2 => 33
  | .KSH_AT => 64

/-- What the options take away. -/
def masked (env : Env) : Zpc → Bool
  | .TILDE | .HAT | .HASH => !env.isset .EXTENDEDGLOB
  | .KSH_QUEST | .KSH_STAR | .KSH_PLUS | .KSH_BANG | .KSH_BANG2 | .KSH_AT => !env.isset .KSHGLOB
  | .INPAR | .INANG => env.isset .SHGLOB
  | _ => false

def patcompcharsset (env : Env) (z : Zpc) : UInt8 :=
  if env.zpc_disables z || masked env z then Marker else zpc_chars z

def isFile (inflags : Flags) : Bool := inflags &&& PAT_FILE != 0

/-- `zpc_special` in a compile. Only a file glob has path components. -/
def zpc_special (env : Env) (inflags : Flags) (z : Zpc) : UInt8 :=
  if z = .SLASH && !isFile inflags then Marker else patcompcharsset env z

def patcompstart (env : Env) : Flags :=
  (if env.isset .CASEGLOB || env.isset .CASEPATHS then 0 else GF_IGNCASE) |||
    (if env.isset .MULTIBYTE then GF_MULTIBYTE else 0)

/-- `seeded_globflags`: a file glob goes on with the flags that it finds. -/
def seededGlobflags (env : Env) (inflags incoming : Flags) : Flags :=
  if isFile inflags then incoming else patcompstart env &&& ~~~GF_IGNCASE

/-- The lexer's encoding transposed to the raw one, with `\` for what is literal. -/
def normalize (modes : Modes) : Nat → Bool → Str → Str
  | _, _, [] => []
  | open_paren, in_bracket, c :: rest =>
    let in_bracket := if c = Inbrack then true else if c = Outbrack then false else in_bracket
    if c = Inpar && !in_bracket then '(' :: normalize modes (open_paren + 1) in_bracket rest
    else if c = Outpar && !in_bracket then
      if 0 < open_paren then ')' :: normalize modes (open_paren - 1) in_bracket rest
      else '\\' :: ')' :: normalize modes open_paren in_bracket rest
    else if c = Meta then
      match rest with
      | [] => ['\\', c]
      | d :: rest => '\\' :: c :: '\\' :: d :: normalize modes open_paren in_bracket rest
    else if c = Bnull || c = Bnullkeep then
      match rest with
      | [] => []
      | d :: rest => '\\' :: d :: normalize modes open_paren in_bracket rest
    else if c = Nularg then normalize modes open_paren in_bracket rest
    else if c = Inbrack && (modes.bash_mode || modes.posix_faithful) &&
        !rest.any fun c => c = Outbrack || c = ']' then
      '\\' :: '[' :: normalize modes open_paren false rest
    else if 0xe184 ≤ c.toNat && c.toNat ≤ 0xe19e then
      ztokens.getD (c.toNat - 0xe184) c :: normalize modes open_paren in_bracket rest
    else if c = '\\' then
      match rest with
      | [] => ['\\']
      | d :: rest => '\\' :: d :: normalize modes open_paren in_bracket rest
    else if ['*', '?', '[', '(', ')', '|', '~', '^', '#', '<'].contains c then
      '\\' :: c :: normalize modes open_paren in_bracket rest
    else c :: normalize modes open_paren in_bracket rest

/-- Where a scan of `(#…)` is: at a flag, in the digits after an `a`, or behind a `q`. -/
inductive ScanMode
  | flag
  | errs (digits : Nat) (errs : Flags)
  | qualifier

structure FlagScan where
  patglobflags : Flags
  bits : Flags
  assertp : UInt8
  mode : ScanMode

/-- A scan that fails leaves what it has stored. -/
abbrev Scanned := Flags × Option (Flags × UInt8 × Str)

def FlagScan.set (s : FlagScan) (on off : Flags) : FlagScan :=
  { s with
    patglobflags := (s.patglobflags &&& ~~~off) ||| on
    bits := (s.bits ||| on) &&& ~~~off }

/-- The digits after an `a` have ended. -/
def FlagScan.endErrs (s : FlagScan) : Option FlagScan :=
  match s.mode with
  | .errs digits errs =>
    if digits = 0 || errs.toInt < 0 || 254 < errs.toInt then none
    else some
      { s with
        patglobflags := (s.patglobflags &&& ~~~0xff) ||| (errs &&& 0xff)
        bits := (s.bits &&& ~~~0xff) ||| (errs &&& 0xff)
        mode := .flag }
  | _ => some s

def FlagScan.flag (s : FlagScan) : Char → Option FlagScan
  | 'i' => some (s.set GF_IGNCASE GF_LCMATCHUC)
  | 'I' => some (s.set 0 (GF_LCMATCHUC ||| GF_IGNCASE))
  | 'l' => some (s.set GF_LCMATCHUC GF_IGNCASE)
  | 'b' => some (s.set GF_BACKREF 0)
  | 'B' => some (s.set 0 GF_BACKREF)
  | 'm' => some (s.set GF_MATCHREF 0)
  | 'M' => some (s.set 0 GF_MATCHREF)
  | 's' => some { s with assertp := P_ISSTART }
  | 'e' => some { s with assertp := P_ISEND }
  | 'u' => some (s.set GF_MULTIBYTE 0)
  | 'U' => some (s.set 0 GF_MULTIBYTE)
  | 'a' => some { s with mode := .errs 0 0 }
  | 'q' => some { s with mode := .qualifier }
  | _ => none

def FlagScan.run (s : FlagScan) : Str → Scanned
  | [] => (((s.endErrs).getD s).patglobflags, none)
  | c :: rest =>
    match s.mode with
    | .errs digits errs =>
      if c.isDigit then
        run { s with mode := .errs (digits + 1) (errs * 10 + BitVec.ofNat 32 (c.toNat - 48)) } rest
      else
        match s.endErrs with
        | none => (s.patglobflags, none)
        | some s =>
          if c = ')' then (s.patglobflags, some (s.bits, s.assertp, rest))
          else
            match s.flag c with
            | none => (s.patglobflags, none)
            | some s => run s rest
    | .qualifier =>
      if c = ')' then (s.patglobflags, some (s.bits, s.assertp, rest)) else run s rest
    | .flag =>
      if c = ')' then (s.patglobflags, some (s.bits, s.assertp, rest))
      else
        match s.flag c with
        | none => (s.patglobflags, none)
        | some s => run s rest

theorem FlagScan.run_length {s : FlagScan} {text : Str} {bits : Flags} {assertp : UInt8} {rest : Str}
    (h : (s.run text).2 = some (bits, assertp, rest)) : rest.length < text.length := by
  induction text generalizing s with
  | nil => cases h
  | cons c text ih =>
    rw [FlagScan.run] at h
    have deeper : ∀ t : FlagScan, (t.run text).2 = some (bits, assertp, rest) →
        rest.length < (c :: text).length := fun t ht => Nat.lt_succ_of_lt (ih ht)
    have here : ∀ t : FlagScan, some (t.bits, t.assertp, text) = some (bits, assertp, rest) →
        rest.length < (c :: text).length := by
      rintro t ⟨⟩
      exact Nat.lt_succ_self _
    split at h
    · split at h
      · exact deeper _ h
      · split at h
        · cases h
        · split at h
          · exact here _ h
          · split at h
            · cases h
            · exact deeper _ h
    · split at h
      · exact here _ h
      · exact deeper _ h
    · split at h
      · exact here _ h
      · split at h
        · cases h
        · exact deeper _ h

/-- The text is that behind `(#`. -/
def patgetglobflags (patglobflags : Flags) (text : Str) : Scanned :=
  FlagScan.run ⟨patglobflags, 0, 0, .flag⟩ text

/-- The leading `(#…)` flags move to the program. The flags that a failed or an anchoring one has stored
stay. -/
def hoist (text : Str) (patglobflags hoisted : Flags) : Str × Flags × Flags :=
  match text with
  | '(' :: '#' :: rest =>
    match h : patgetglobflags patglobflags rest with
    | (patglobflags, some (bits, 0, rest')) =>
      let gmask := GF_IGNCASE ||| GF_LCMATCHUC ||| GF_BACKREF ||| GF_MATCHREF ||| GF_MULTIBYTE
      let hoisted := (hoisted &&& ~~~gmask) ||| (patglobflags &&& gmask)
      let hoisted := if bits &&& 0xff != 0 then (hoisted &&& ~~~0xff) ||| (bits &&& 0xff) else hoisted
      hoist rest' patglobflags hoisted
    | (patglobflags, _) => (text, patglobflags, hoisted)
  | _ => (text, patglobflags, hoisted)
termination_by text.length
decreasing_by
  have shorter : rest'.length < rest.length := FlagScan.run_length (congrArg Prod.snd h)
  simp only [List.length_cons]
  omega

/-- A path component up to `/`, if no metacharacter comes first: its spelling and its text. -/
def pureComponent : Str → Option (Str × Str)
  | [] => some ([], [])
  | '/' :: _ => some ([], [])
  | ['\\'] => some (['\\'], ['\\'])
  | '\\' :: n :: rest =>
    (pureComponent rest).map fun (literal, cut) =>
      (if ztokens.contains n then n :: literal else '\\' :: n :: literal, '\\' :: n :: cut)
  | c :: rest =>
    if ['*', '?', '[', '(', '|', '~', '^', '#', '<'].contains c then none
    else (pureComponent rest).map fun (literal, cut) => (c :: literal, c :: cut)

end Zshrs.Pattern
