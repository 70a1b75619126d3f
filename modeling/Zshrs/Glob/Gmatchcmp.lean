import Mathlib.Tactic.SplitIfs
import Zshrs.Glob.Zstrcmp

namespace Zshrs.Glob

abbrev Text := List Char

/-- A file name. The operating system keeps a NUL out of it. -/
structure FileName where
  bytes : Bytes
  no_nul : 0 ∉ bytes
  deriving DecidableEq

/-- What one link of the match has: the file itself or, for a link that is followed, its target. -/
structure Stat where
  size : Nat
  atime : Int
  mtime : Int
  ctime : Int
  links : Nat
  ansec : Int
  mnsec : Int
  cnsec : Int
  deriving DecidableEq

structure Gmatch where
  uname : FileName
  path : FileName
  stat : Stat
  target : Stat
  sort_strings : List Text
  deriving DecidableEq

/-- The packed word of a sort specification. -/
abbrev Tp := BitVec 32

def GS_NAME : Tp := 1
def GS_DEPTH : Tp := 2
def GS_EXEC : Tp := 4
def GS_SHIFT_BASE : Tp := 8
def GS_SIZE : Tp := GS_SHIFT_BASE
def GS_ATIME : Tp := GS_SHIFT_BASE <<< 1
def GS_MTIME : Tp := GS_SHIFT_BASE <<< 2
def GS_CTIME : Tp := GS_SHIFT_BASE <<< 3
def GS_LINKS : Tp := GS_SHIFT_BASE <<< 4
def GS_SHIFT : Nat := 5
def GS_DESC : Tp := GS_SHIFT_BASE <<< (2 * GS_SHIFT)
def GS_NONE : Tp := GS_SHIFT_BASE <<< (2 * GS_SHIFT + 1)
def GS_NORMAL : Tp := GS_SIZE ||| GS_ATIME ||| GS_MTIME ||| GS_CTIME ||| GS_LINKS
def GS_LINKED : Tp := GS_NORMAL <<< GS_SHIFT

/-- The arms of `gmatchcmp`. A second `GS_EXEC` key has its index in the high half, and so none. -/
inductive SortKey
  | name
  | depth
  | size (follow : Bool)
  | atime (follow : Bool)
  | mtime (follow : Bool)
  | ctime (follow : Bool)
  | links (follow : Bool)
  | exec
  | other
  deriving DecidableEq

def sortKey (tp : Tp) : SortKey :=
  let key := tp &&& ~~~GS_DESC
  let follow := key &&& GS_LINKED != 0
  let key_unshifted := if follow then key.sshiftRight GS_SHIFT else key
  if key_unshifted = GS_NAME then .name
  else if key_unshifted = GS_DEPTH then .depth
  else if key_unshifted = GS_SIZE then .size follow
  else if key_unshifted = GS_ATIME then .atime follow
  else if key_unshifted = GS_MTIME then .mtime follow
  else if key_unshifted = GS_CTIME then .ctime follow
  else if key_unshifted = GS_LINKS then .links follow
  else if key_unshifted = GS_EXEC then .exec
  else .other

def descending (tp : Tp) : Bool := tp &&& GS_DESC != 0

/-- The metafied spelling of a shell string. A pair of `U+0083` and a character up to `U+00FF` is one
raw byte. -/
def unmetafy_str : Text → Bytes
  | [] => []
  | c :: n :: cs =>
    if c = '\u0083' ∧ 0x80 ≤ n.toNat ∧ n.toNat ≤ 0xff then
      (UInt8.ofNat n.toNat ^^^ 32) :: unmetafy_str cs
    else String.utf8EncodeChar c ++ unmetafy_str (n :: cs)
  | [c] => String.utf8EncodeChar c

def imeta_byte (b : UInt8) : Bool := b == 0 || (0x83 ≤ b && b ≤ 0xa2)

def Meta : UInt8 := 0x83

def metafied_key (s : Text) : Bytes :=
  if s.all (fun c => c.toNat < 0x80 && c.toNat != 0) then s.flatMap String.utf8EncodeChar
  else (unmetafy_str s).flatMap fun b => if imeta_byte b then [Meta, b ^^^ 32] else [b]

/-- A `/` in front of the last byte. -/
def has_slash (s : Bytes) : Bool := 1 < s.length && s.dropLast.contains 47

/-- Where the depth key looks at two paths: behind their common prefix, and one byte back where it
ends one of them in a `/`. -/
def divergence (ab bb : Bytes) : Nat :=
  let i := together (· == ·) ab bb
  if (ab.length ≤ i ∨ bb.length ≤ i) ∧ 0 < i ∧ byteAt ab (i - 1) = 47 then i - 1 else i

def depthcmp (ab bb : Bytes) : Ordering :=
  let i := divergence ab bb
  let slasha := (has_slash (ab.drop i)).toNat
  let slashb := (has_slash (bb.drop i)).toNat
  compare slashb slasha

def namecmp (m : Modes) (numeric_sort : Bool) (a b : Bytes) : Ordering :=
  if m.ash_mode && m.dash_strict then strcoll a b
  else zstrcmp m a b (if numeric_sort then SORTIT_NUMERICALLY else 0)

/-- Newer files come first, and the nanoseconds break a tie. -/
def timecmp (time nsec : Stat → Int) (a b : Stat) : Ordering :=
  let primary := compare (time b) (time a)
  if primary ≠ .eq then primary else compare (nsec b) (nsec a)

def Gmatch.followed (g : Gmatch) (follow : Bool) : Stat := if follow then g.target else g.stat

def keycmp (m : Modes) (numeric_sort : Bool) (key : SortKey) (a b : Gmatch) : Ordering :=
  match key with
  | .name => namecmp m numeric_sort a.uname.bytes b.uname.bytes
  | .depth => depthcmp a.uname.bytes b.uname.bytes
  | .size follow => compare (a.followed follow).size (b.followed follow).size
  | .atime follow => timecmp Stat.atime Stat.ansec (a.followed follow) (b.followed follow)
  | .mtime follow => timecmp Stat.mtime Stat.mnsec (a.followed follow) (b.followed follow)
  | .ctime follow => timecmp Stat.ctime Stat.cnsec (a.followed follow) (b.followed follow)
  | .links follow => compare (a.followed follow).links (b.followed follow).links
  | .exec =>
    zstrcmp m (metafied_key (a.sort_strings.getD 0 [])) (metafied_key (b.sort_strings.getD 0 []))
      (if numeric_sort then SORTIT_NUMERICALLY else 0)
  | .other => .eq

def gmatchcmp (m : Modes) (numeric_sort : Bool) : List Tp → Gmatch → Gmatch → Ordering
  | [], _, _ => .eq
  | tp :: specs, a, b =>
    let cmp := keycmp m numeric_sort (sortKey tp) a b
    if cmp ≠ .eq then (if descending tp then cmp.swap else cmp)
    else gmatchcmp m numeric_sort specs a b

def S_IFMT : Nat := 0o170000
def S_IFSOCK : Nat := 0o140000
def S_IFLNK : Nat := 0o120000
def S_IFREG : Nat := 0o100000
def S_IFBLK : Nat := 0o060000
def S_IFDIR : Nat := 0o040000
def S_IFCHR : Nat := 0o020000
def S_IFIFO : Nat := 0o010000

/-- The mark of a file's type. -/
def file_type (filemode : Nat) : UInt8 :=
  let fmt := filemode &&& S_IFMT
  if fmt = S_IFBLK then 35
  else if fmt = S_IFCHR then 37
  else if fmt = S_IFDIR then 47
  else if fmt = S_IFIFO then 124
  else if fmt = S_IFLNK then 64
  else if fmt = S_IFREG then (if filemode &&& 0o111 ≠ 0 then 42 else 32)
  else if fmt = S_IFSOCK then 61
  else 63

theorem file_type_ne_nul (filemode : Nat) : file_type filemode ≠ 0 := by
  unfold file_type
  dsimp only
  split_ifs <;> decide

def FileName.push (n : FileName) (filemode : Nat) : FileName where
  bytes := n.bytes ++ [file_type filemode]
  no_nul := by
    rw [List.mem_append, List.mem_singleton]
    rintro (h | h)
    · exact n.no_nul h
    · exact file_type_ne_nul filemode h.symm

/-- `strip_prefix("./")`. -/
def FileName.strip (n : FileName) : FileName :=
  if [46, 47] <+: n.bytes then ⟨n.bytes.drop 2, fun h => n.no_nul (List.mem_of_mem_drop h)⟩ else n

structure QualifierSet where
  sorts : List Tp
  short_circuit : Option Int
  mark_dirs : Option Bool
  list_types : Bool
  mark_follow : Bool
  numsort : Option Bool

structure Globdata where
  qualifiers : Option QualifierSet
  found : List Gmatch

/-- The options and the file system, whose two `stat` calls give a file's mode. -/
structure Env extends Modes where
  markdirs : Bool
  numericglobsort : Bool
  symlink_metadata : FileName → Option Nat
  metadata : FileName → Option Nat

namespace Globdata

variable (env : Env) (state : Globdata)

/-- The sort specifications before the tie-break. -/
def specs : List Tp :=
  match state.qualifiers with
  | none => [GS_NAME]
  | some q =>
    if q.sorts = [] then
      (if q.short_circuit.any (0 < ·) then [GS_NONE] else [GS_NAME])
    else q.sorts

def unsorted : Bool := state.specs.head?.any (· &&& GS_NONE != 0)

/-- Some key says that nothing is to be sorted. -/
def keepsOrder : Bool := state.specs.any (· &&& GS_NONE != 0)

def numeric : Bool := (state.qualifiers.bind QualifierSet.numsort).getD env.numericglobsort

/-- The name that a match is sorted by, with the mark of its type. -/
def sortName (path : FileName) : FileName :=
  let uname := path.strip
  let mark_dirs := (state.qualifiers.bind QualifierSet.mark_dirs).getD env.markdirs
  let list_types := state.qualifiers.any QualifierSet.list_types
  let mark_follow := state.qualifiers.any QualifierSet.mark_follow
  if mark_dirs || list_types then
    match env.symlink_metadata path with
    | none => uname
    | some lmeta =>
      let mode := if mark_follow && lmeta &&& S_IFMT == S_IFLNK then (env.metadata path).getD lmeta
        else lmeta
      if list_types || file_type mode == 47 then uname.push mode else uname
  else uname

end Globdata

/-- A last name key, where there is none, makes the order a definite one. -/
def tieBreak (specs : List Tp) : List Tp :=
  if specs.getLast?.all fun last => last &&& ~~~GS_DESC != GS_NAME then specs ++ [GS_NAME] else specs

/-- The standard library's sort, which is stable. -/
def sort_by (cmp : Gmatch → Gmatch → Ordering) (found : List Gmatch) : List Gmatch :=
  found.mergeSort fun a b => (cmp a b).isLE

def sort_matches (env : Env) (state : Globdata) : List Gmatch × Bool :=
  if state.keepsOrder then (state.found, state.unsorted)
  else
    let named := state.found.map fun g => { g with uname := state.sortName env g.path }
    (sort_by (gmatchcmp env.toModes (state.numeric env) (tieBreak state.specs)) named, state.unsorted)

end Zshrs.Glob
