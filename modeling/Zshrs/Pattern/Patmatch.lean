import Zshrs.Lib.Utf8
import Zshrs.Pattern.Spelling
import Mathlib.Algebra.GroupWithZero.Nat
import Mathlib.Data.List.Infix

namespace Zshrs.Pattern

open Lib (Utf8.encode Utf8.look Utf8.text Utf8.valid)

/-- What `mbrtowc` says of the bytes it is handed. -/
inductive MbRet
  | incomplete
  | invalid
  | len (n : Nat)
  deriving DecidableEq

section Stepping

variable (mbrtowc : Bytes → MbRet)

/-- How far one character reaches: metafied pairs are collected in `raw`, with their widths in `steps`,
until the locale takes them for a character. -/
def assemble (multibyte : Bool) (raw : Bytes) (steps : List Nat) : Str → Nat
  | [] => steps.headD 0
  | c :: chs =>
      if c = Meta then
        match chs with
        | [] => c.utf8Size
        | n :: chs =>
            if 0x80 ≤ n.toNat then
              let raw := raw ++ [UInt8.ofNat n.toNat ^^^ 32]
              let steps := steps ++ [c.utf8Size + n.utf8Size]
              if !multibyte then steps.headD 0
              else
                match mbrtowc raw with
                | .incomplete =>
                    if raw.length < MB_CUR_MAX then assemble multibyte raw steps chs else steps.headD 0
                | .invalid => steps.headD 0
                | .len 0 => steps.headD 0
                | .len (ret + 1) => (steps.take (ret + 1)).sum
            else c.utf8Size
      else if steps ≠ [] then steps.headD 0
      else if !multibyte && 0x80 ≤ c.toNat then 1
      else c.utf8Size

/-- The bytes of the character that `rest`, the subject from an offset on, starts with. Of a valid
subject only what starts at a character's boundary is a text. -/
def charinc (flags : Flags) (rest : Bytes) : Nat :=
  match rest with
  | [] => 0
  | _ =>
      match Utf8.text rest with
      | none => 1
      | some chs => assemble mbrtowc (flags &&& GF_MULTIBYTE ≠ 0) [] [] chs

/-- The places where a star may stop, the nearest one first; each is what is left of the subject. -/
def stops (flags : Flags) : Nat → Bytes → List Bytes
  | 0, _ => [[]]
  | _ + 1, [] => [[]]
  | n + 1, s => s :: stops flags n (s.drop (charinc mbrtowc flags s))

end Stepping

/-- The character at the front and its width; a byte where there is none. -/
def char_at (flags : Flags) : Bytes → Nat × Nat
  | [] => (0, 1)
  | b :: rest =>
      if flags &&& GF_MULTIBYTE ≠ 0 then
        match Utf8.look (b :: rest) with
        | .char c len => (c.toNat, len)
        | _ => (b.toNat, 1)
      else (b.toNat, 1)

def PAT_NOANCH : Flags := 0x0008
def PAT_NOGLD : Flags := 0x0010
def PAT_NOTSTART : Flags := 0x0200
def PAT_NOTEND : Flags := 0x0400

def PATMATCH_MAX_DEPTH : Nat := 128

/-- The nodes of a program without alternatives, in the order of their `next` pointers. `branch` is a
`P_BRANCH` that no other branch follows; `other` is any op that is not spelled out here. -/
inductive Node
  | pEnd
  | nothing
  | exactly (lit : Bytes)
  | gflags (bits : Flags)
  | isstart
  | isend
  | branch
  | any
  | star
  | numrng (lo hi : Nat)
  | numfrom (lo : Nat)
  | numto (hi : Nat)
  | numany
  | other (op : Nat)
  deriving DecidableEq

/-- `P_NOTDOT`: the ops that may not take a leading dot. -/
def Node.notdot : Node → Bool
  | .any | .star | .numrng _ _ | .numfrom _ | .numto _ | .numany => true
  | .other op => op &&& 0x40 ≠ 0
  | _ => false

/-- Where a match stands: the bytes behind it and the errors found so far. -/
abbrev Reach := Bytes × Nat

/-- What the locale and Unicode say, and the ops of `other` with all that follows them. -/
structure Tables where
  mbrtowc : Bytes → MbRet
  upper : Nat → Nat
  is_lower : Nat → Bool
  to_lowercase : Char → Str
  other : Nat → List Node → Bytes → Nat → Flags → Option Reach

/-- What a try reads besides the program: the subject and the statics that the try has stored. -/
structure Statics extends Tables where
  string : Bytes
  patflags : Flags
  globdots : Bool
  forceerrs : Int

section Approximate

variable (env : Statics) (flags : Flags)

/-- The `charmatch` of `approx_match_exactly`. -/
def charmatch (chin chpa : Nat) : Bool :=
  chin = chpa ||
    if flags &&& GF_IGNCASE ≠ 0 then env.upper chin = env.upper chpa
    else if flags &&& GF_LCMATCHUC ≠ 0 then env.is_lower chpa && env.upper chpa = chin
    else false

def char_front (s : Bytes) : Nat := (char_at flags s).1

def char_rest (s : Bytes) : Bytes := s.drop (char_at flags s).2

/-- Whether one more error is allowed. -/
def spare (max_errs errsfound : Nat) : Bool :=
  errsfound < max_errs && (env.forceerrs = -1 || (errsfound : Int) < env.forceerrs)

theorem char_at_pos (s : Bytes) : 0 < (char_at flags s).2 := by
  cases s with
  | nil => exact Nat.one_pos
  | cons b rest =>
      by_cases h : flags &&& GF_MULTIBYTE ≠ 0
      · rw [char_at, if_pos h]
        cases hlook : Utf8.look (b :: rest) with
        | char c len =>
            obtain ⟨_, _, rfl⟩ := Lib.Utf8.look_eq_char hlook
            exact List.length_pos_iff.mpr (Lib.Utf8.encode_ne_nil c)
        | invalid _ | incomplete => exact Nat.one_pos
      · rw [char_at, if_neg h]
        exact Nat.one_pos

theorem char_rest_lt {s : Bytes} (h : s ≠ []) : (char_rest flags s).length < s.length := by
  have hpos := List.length_pos_iff.mpr h
  have hwidth := char_at_pos flags s
  rw [char_rest, List.length_drop]
  omega

/-- `approx_match_exactly`: `next` goes on behind the literal. -/
def walk (max_errs : Nat) (next : Bytes → Nat → Option Reach) (p s : Bytes) (errsfound : Nat) : Option Reach :=
  if hp : p = [] then next s errsfound
  else
    have := char_rest_lt flags hp
    if hs : s = [] then
      if spare env max_errs errsfound then walk max_errs next (char_rest flags p) s (errsfound + 1) else none
    else
      have := char_rest_lt flags hs
      if charmatch env flags (char_front flags s) (char_front flags p) then
        walk max_errs next (char_rest flags p) (char_rest flags s) errsfound
      else if spare env max_errs errsfound then
        -- an input character too many
        (walk max_errs next p (char_rest flags s) (errsfound + 1)).or <|
          -- two characters swapped
          (if h : char_rest flags s ≠ [] ∧ char_rest flags p ≠ [] then
            have := char_rest_lt flags h.1
            have := char_rest_lt flags h.2
            if charmatch env flags (char_front flags s) (char_front flags (char_rest flags p)) &&
                charmatch env flags (char_front flags (char_rest flags s)) (char_front flags p) then
              walk max_errs next (char_rest flags (char_rest flags p)) (char_rest flags (char_rest flags s))
                (errsfound + 1)
            else none
          else none).or <|
          -- one character for another
          (walk max_errs next (char_rest flags p) (char_rest flags s) (errsfound + 1)).or
            -- a pattern character too many
            (walk max_errs next (char_rest flags p) s (errsfound + 1))
      else none
termination_by p.length + s.length
decreasing_by all_goals omega

end Approximate

section Exactly

variable (env : Statics) (flags : Flags)

def is_ascii_uppercase (b : UInt8) : Bool := 65 ≤ b && b ≤ 90
def is_ascii_lowercase (b : UInt8) : Bool := 97 ≤ b && b ≤ 122
def to_ascii_lowercase (b : UInt8) : UInt8 := if is_ascii_uppercase b then b + 32 else b
def to_ascii_uppercase (b : UInt8) : UInt8 := if is_ascii_lowercase b then b - 32 else b

/-- The `charmatch` of `patmatch`. -/
def charmatch_byte (chin chpa : UInt8) : Bool :=
  if chin = chpa then true
  else if flags &&& GF_IGNCASE ≠ 0 then to_ascii_lowercase chin = to_ascii_lowercase chpa
  else if flags &&& GF_LCMATCHUC ≠ 0 then is_ascii_lowercase chpa && to_ascii_uppercase chpa = chin
  else false

def bytes_match : Bytes → Bytes → Bool
  | [], [] => true
  | chin :: s, chpa :: p => charmatch_byte flags chin chpa && bytes_match s p
  | _, _ => false

def char_folds (a b : Char) : Bool :=
  a = b ||
    if a.toNat < 0x80 && b.toNat < 0x80 then a.toLower = b.toLower
    else env.to_lowercase a = env.to_lowercase b

def chars_fold : Str → Str → Bool
  | [], [] => true
  | a :: p, b :: s => char_folds env a b && chars_fold p s
  | _, _ => false

/-- Whether the bytes at the front of `s` are the literal, without a budget for errors. -/
def exactly_at (lit s : Bytes) : Bool :=
  let inp_slice := s.take lit.length
  if s.length < lit.length then false
  else if flags &&& (GF_IGNCASE ||| GF_LCMATCHUC) ≠ 0 then
    if flags &&& GF_MULTIBYTE ≠ 0 ∧ flags &&& GF_IGNCASE ≠ 0 then
      match Utf8.text lit, Utf8.text inp_slice with
      | some p, some i => chars_fold env p i
      | _, _ => bytes_match flags inp_slice lit
    else bytes_match flags inp_slice lit
  else inp_slice = lit

/-- Without folding the bytes are compared. -/
theorem exactly_at_plain {env : Statics} {flags : Flags} (h : flags &&& (GF_IGNCASE ||| GF_LCMATCHUC) = 0)
    {lit s : Bytes} : exactly_at env flags lit s = true ↔ lit <+: s := by
  rw [exactly_at, if_neg (not_not.mpr h), List.prefix_iff_eq_take]
  split
  next hlt =>
    refine iff_of_false (by simp) fun h => ?_
    have := congrArg List.length h
    rw [List.length_take] at this
    omega
  next => rw [decide_eq_true_iff, eq_comm]

end Exactly

section Numbers

def checked (n : Nat) : Option Nat := if n ≤ I64_MAX then some n else none

/-- One more digit: the value so far, and whether the digit put it out of range. `none` is an overflow. -/
def num_digit (comp digit : Nat) : Option (Nat × Bool) :=
  if I64_MAX / 10 < comp then some (comp, true)
  else
    (if comp ≠ 0 then checked (comp * 10) else some 0).bind fun c10 =>
      if I64_MAX - c10 < digit then some (comp, true)
      else (checked (c10 + digit)).map fun comp => (comp, false)

/-- The digits read, the last position that `comp` was computed at, and `comp`. -/
structure Scan where
  patinput : Nat
  compend : Nat
  comp : Nat
  deriving DecidableEq

/-- The scan of a digit run. Past the end of what fits a range without an upper bound skips the rest. -/
def num_scan (numfrom : Bool) (sc : Scan) : Bytes → Option Scan
  | [] => some sc
  | b :: s =>
      if is_ascii_digit b then
        (num_digit sc.comp (b.toNat - 48)).bind fun (comp, out_of_range) =>
          let sc : Scan := ⟨sc.patinput + 1, sc.compend + 1, comp⟩
          if (out_of_range || comp.testBit 62) && numfrom then
            some { sc with patinput := sc.patinput + (s.takeWhile is_ascii_digit).length }
          else num_scan numfrom sc s
      else some sc

/-- Whether a program goes on with a literal that no digit starts. -/
def exactly_no_digit : List Node → Bool
  | .exactly [] :: _ => true
  | .exactly (b :: _) :: _ => !is_ascii_digit b
  | _ => false

/-- Back over the digits from `patinput` on, with no upper bound for `P_NUMFROM`. `first` is the first
position tried. -/
def num_back (lo : Nat) (hi : Option Nat) (compend : Nat) (give_up : Bool) (next : Nat → Option Reach)
    (first : Bool) (comp : Nat) : Nat → Option Reach
  | 0 => none
  | save + 1 =>
      if comp < lo && save + 1 ≤ compend then none
      else
        (if hi.all (comp ≤ ·) then next (save + 1) else none).or <|
          if first && give_up then none
          else num_back lo hi compend give_up next false (if save < compend then comp / 10 else comp) save

/-- `P_NUMRNG`, `P_NUMFROM` and `P_NUMTO`: `next` goes on behind so many digits. -/
def num_range (lo : Nat) (hi : Option Nat) (give_up : Bool) (next : Nat → Option Reach) (s : Bytes) : Option Reach :=
  (num_scan hi.isNone ⟨0, 0, 0⟩ s).bind fun sc =>
    num_back lo hi sc.compend give_up next true sc.comp sc.patinput

/-- `P_NUMANY` from the end of the digits. -/
def num_any (next : Nat → Option Reach) : Nat → Option Reach
  | 0 => none
  | k + 1 => (next (k + 1)).or (num_any next k)

end Numbers

section Matching

variable (env : Statics)

def anchored : Bool := env.patflags &&& (PAT_NOANCH ||| PAT_NOTEND) = 0

/-- One frame of `patmatch`: `patmatch` is the call that an op makes at the next depth. -/
def run (patmatch : List Node → Bytes → Nat → Flags → Option Reach) :
    List Node → Bytes → Nat → Flags → Option Reach
  | [], s, errs, _ => some (s, errs)
  | node :: next, s, errs, flags =>
      let max_errs := (flags &&& 0xff).toNat
      if s = env.string && node.notdot && s.head? = some 46 && !env.globdots then none
      else
        match node with
        | .pEnd =>
            if s ≠ [] && anchored env then
              if spare env max_errs errs then
                patmatch (.pEnd :: next) (s.drop (charinc env.mbrtowc flags s)) (errs + 1) flags
              else none
            else some (s, errs)
        | .nothing | .branch => run patmatch next s errs flags
        | .exactly lit =>
            if 0 < max_errs then
              walk env flags max_errs
                (fun s errs => if next = [] then some (s, errs) else patmatch next s errs flags) lit s errs
            else if exactly_at env flags lit s then run patmatch next (s.drop lit.length) errs flags
            else none
        | .gflags bits =>
            run patmatch next s errs ((flags &&& ~~~(GF_IGNCASE ||| GF_LCMATCHUC ||| GF_MULTIBYTE ||| 0xff)) ||| bits)
        | .isstart =>
            if s ≠ env.string || env.patflags &&& PAT_NOTSTART ≠ 0 then none else run patmatch next s errs flags
        | .isend =>
            if s ≠ [] || env.patflags &&& PAT_NOTEND ≠ 0 then none else run patmatch next s errs flags
        | .any =>
            if s = [] then none
            else run patmatch next (s.drop (charinc env.mbrtowc flags s)) errs flags
        | .star =>
            (stops env.mbrtowc flags s.length s).reverse.findSome? fun rest => patmatch next rest errs flags
        | .numrng lo hi => num_range lo (some hi) (max_errs = 0 && exactly_no_digit next)
            (fun n => patmatch next (s.drop n) errs flags) s
        | .numfrom lo => num_range lo none (max_errs = 0 && exactly_no_digit next)
            (fun n => patmatch next (s.drop n) errs flags) s
        | .numto hi => num_range 0 (some hi) (max_errs = 0 && exactly_no_digit next)
            (fun n => patmatch next (s.drop n) errs flags) s
        | .numany => num_any (fun n => patmatch next (s.drop n) errs flags) (s.takeWhile is_ascii_digit).length
        | .other op => env.other op next s errs flags

/-- `patmatch` with so many frames left before it gives up. -/
def patmatch : Nat → List Node → Bytes → Nat → Flags → Option Reach
  | 0, _, _, _, _ => none
  | frames + 1, nodes, s, errs, flags => run env (patmatch frames) nodes s errs flags

end Matching

/-- A `patprog` with its code as nodes: the `PAT_` flags and the globbing flags to set at the start. -/
structure Program where
  flags : Flags
  globflags : Flags
  nodes : List Node
  deriving DecidableEq

/-- The statics as `pattryrefs` stores them for a try of `trial`. -/
def Program.statics (prog : Program) (tables : Tables) (forceerrs : Int) (trial : Bytes) : Statics :=
  { tables with
    string := trial
    patflags := prog.flags
    globdots := prog.flags &&& PAT_NOGLD = 0
    forceerrs := forceerrs }

/-- The whole of `patmatch` on `trial`: where the match ends, if it may end there. -/
def Program.walk (prog : Program) (tables : Tables) (forceerrs : Int) (trial : Bytes) : Option Nat :=
  (patmatch (prog.statics tables forceerrs trial) PATMATCH_MAX_DEPTH prog.nodes trial 0 prog.globflags).bind
    fun (rest, _) =>
      let end_pos := trial.length - rest.length
      if prog.flags &&& (PAT_NOANCH ||| PAT_NOTEND) ≠ 0 || end_pos = trial.length then some end_pos else none

/-- The literal of a row of `P_EXACTLY` nodes, with what follows them. -/
def literal_chunks : List Node → Option (Bytes × List Node)
  | .exactly lit :: rest =>
      if Utf8.valid lit then (literal_chunks rest).map fun (more, rest) => (lit ++ more, rest) else none
  | rest => some ([], rest)

/-- The nodes inside a sole leading branch. -/
def skip_branch : List Node → List Node
  | .branch :: nodes => nodes
  | nodes => nodes

def leading_flags : List Node → Option Flags
  | .gflags bits :: _ => some bits
  | _ => none

def skip_flags : List Node → List Node
  | .gflags _ :: nodes => nodes
  | nodes => nodes

/-- The shape probe: the literal of `*literal*`, and whether case is folded. -/
def shape (prog : Program) : Option (Bytes × Bool) :=
  let nodes := skip_branch prog.nodes
  let gflags := prog.globflags ||| (leading_flags nodes).getD 0
  if gflags &&& ~~~(GF_IGNCASE ||| GF_MULTIBYTE) ≠ 0 then none
  else
    match skip_flags nodes with
    | .star :: .exactly lit :: nodes =>
        (literal_chunks (.exactly lit :: nodes)).bind fun (lit, nodes) =>
          match nodes with
          | .star :: .pEnd :: _ => some (lit, gflags &&& GF_IGNCASE ≠ 0)
          | _ => none
    | _ => none

def is_ascii (s : Bytes) : Bool := s.all (· < 0x80)

/-- The scan for `lb` that folds ASCII case. -/
def scan_ascii (lb tb : Bytes) : Bool :=
  lb.length ≤ tb.length &&
    (List.range (tb.length - lb.length + 1)).any fun s =>
      ((tb.drop s).take lb.length).map to_ascii_lowercase = lb.map to_ascii_lowercase

/-- The substring fast path, `none` where it is not taken; it gives the length of the match. -/
def fast_path (prog : Program) (refs : Bool) (patoffset : Int) (trial : Bytes) : Option (Option Nat) :=
  if !refs && patoffset = 0 && prog.flags &&& (PAT_NOTSTART ||| PAT_NOTEND) = 0 &&
      !(prog.flags &&& PAT_NOGLD ≠ 0 && trial.head? = some 46) then
    (shape prog).bind fun (lit, igncase) =>
      let hit (ok : Bool) : Option Nat := if ok then some trial.length else none
      if !igncase then some (hit (lit <:+: trial))
      else if is_ascii lit && is_ascii trial then some (hit (scan_ascii lit trial))
      else none
  else none

/-- `pattryrefs` on `trial`: the length of the match that it records. -/
def pattryrefs (prog : Program) (tables : Tables) (forceerrs : Int) (refs : Bool) (patoffset : Int)
    (trial : Bytes) : Option Nat :=
  (fast_path prog refs patoffset trial).getD <|
    let matched :=
      if prog.flags &&& PAT_ANY ≠ 0 then some trial.length else prog.walk tables forceerrs trial
    if prog.flags &&& (PAT_PURES ||| PAT_ANY) ≠ 0 && trial.head? = some 46 && prog.flags &&& PAT_NOGLD ≠ 0 then
      none
    else matched

def pattry (prog : Program) (tables : Tables) (forceerrs : Int) (trial : Bytes) : Bool :=
  (pattryrefs prog tables forceerrs false 0 trial).isSome

end Zshrs.Pattern
