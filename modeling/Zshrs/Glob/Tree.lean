import Mathlib.Data.List.Basic
import Mathlib.Data.List.Nodup
import Zshrs.Glob.Zstrcmp

namespace Zshrs.Glob.Scan

def PATH_MAX : Nat := 4096

def MAXSYMLINKS : Nat := 40

/-- What a directory entry can be called, apart from `.` and `..`. -/
def Ordinary (n : Bytes) : Prop := n ≠ [] ∧ n ≠ [46] ∧ n ≠ [46, 46] ∧ 47 ∉ n

instance : DecidablePred Ordinary := fun _ => inferInstanceAs (Decidable (_ ∧ _))

/-- Where a node is: the names that lead to it, the last one first. -/
abbrev Loc := List Bytes

/-- What a `stat` tells: which node it is, in place of the device and the inode, and whether it is a
directory. -/
structure Metadata where
  node : Loc
  is_dir : Bool

/-- What a process is told about the files from a directory of its own. `fs::read_dir` with
`zreaddir` gives neither `.` nor `..`. -/
structure Files where
  metadata : Loc → Bytes → Option Metadata
  symlink_metadata : Loc → Bytes → Option Metadata
  read_dir : Loc → Bytes → Option (List Bytes)
  distinct : ∀ cwd p l, read_dir cwd p = some l → l.Nodup
  ordinary : ∀ cwd p l, read_dir cwd p = some l → ∀ n ∈ l, Ordinary n

inductive Tree
  | file
  | link (target : Bytes)
  | dir (entries : List (Bytes × Tree))

namespace Tree

inductive Ok : Tree → Prop
  | file : Ok .file
  | link {target : Bytes} : Ok (.link target)
  | dir {entries : List (Bytes × Tree)} (distinct : (entries.map Prod.fst).Nodup)
      (ordinary : ∀ e ∈ entries, Ordinary e.1) (below : ∀ e ∈ entries, Ok e.2) : Ok (.dir entries)

def entries : Tree → List (Bytes × Tree)
  | file => []
  | link _ => []
  | dir es => es

def is_dir : Tree → Bool
  | dir _ => true
  | _ => false

def target : Tree → Option Bytes
  | link t => some t
  | _ => none

def child (t : Tree) (n : Bytes) : Option Tree := (t.entries.find? fun e => e.1 == n).map Prod.snd

def node (t : Tree) : Loc → Option Tree
  | [] => some t
  | n :: loc => (t.node loc).bind (·.child n)

variable (t : Tree)

def dirAt (loc : Loc) : Bool := (t.node loc).any is_dir

/-- One component of a path text. `.` and the empty one stay, and `..` goes up as far as the root. -/
def step (loc : Loc) (c : Bytes) : Option Loc :=
  if !t.dirAt loc then none
  else if c = [] ∨ c = [46] then some loc
  else if c = [46, 46] then some loc.tail
  else if (t.node (c :: loc)).isSome then some (c :: loc)
  else none

def start (cwd : Loc) (text : Bytes) : Loc := if text.head? = some 47 then [] else cwd

/-- The components of a path text up to a link that is to be followed. The last one is followed only
where the caller wants it. -/
def walkTo (follow : Bool) (again : Loc → List Bytes → Option Loc) : Loc → List Bytes → Option Loc
  | loc, [] => some loc
  | loc, c :: cs =>
    match t.step loc c with
    | none => none
    | some l =>
      match (t.node l).bind target with
      | none => walkTo follow again l cs
      | some text =>
        if !follow && cs.isEmpty then some l
        else if text = [] then none
        else again (start loc text) (text.splitOn 47 ++ cs)

/-- The components of a path text, with so many links on the way at most. -/
def walk (follow : Bool) : Nat → Loc → List Bytes → Option Loc
  | 0 => t.walkTo follow fun _ _ => none
  | n + 1 => t.walkTo follow (walk follow n)

/-- What the kernel does with a path text. -/
def resolve (follow : Bool) (cwd : Loc) (text : Bytes) : Option Loc :=
  if text = [] ∨ PATH_MAX ≤ text.length then none
  else t.walk follow MAXSYMLINKS (start cwd text) (text.splitOn 47)

def stat (follow : Bool) (cwd : Loc) (text : Bytes) : Option Metadata :=
  (t.resolve follow cwd text).map fun loc => ⟨loc, t.dirAt loc⟩

def names (cwd : Loc) (text : Bytes) : Option (List Bytes) :=
  match (t.resolve true cwd text).bind t.node with
  | some (.dir es) => some (es.map Prod.fst)
  | _ => none

variable {t}

theorem Ok.child {s : Tree} {n : Bytes} (ht : t.Ok) (h : t.child n = some s) : s.Ok := by
  obtain ⟨e, he, rfl⟩ := Option.map_eq_some_iff.mp h
  have hmem := List.mem_of_find?_eq_some he
  cases ht with
  | file => cases hmem
  | link => cases hmem
  | dir _ _ below => exact below _ hmem

theorem Ok.node {loc : Loc} {s : Tree} (ht : t.Ok) (h : t.node loc = some s) : s.Ok := by
  induction loc generalizing s with
  | nil => cases h; exact ht
  | cons n loc ih =>
      obtain ⟨d, hd, hs⟩ := Option.bind_eq_some_iff.mp h
      exact (ih hd).child hs

theorem Ok.names {cwd : Loc} {text : Bytes} {l : List Bytes} (ht : t.Ok) (h : t.names cwd text = some l) :
    l.Nodup ∧ ∀ n ∈ l, Ordinary n := by
  unfold Tree.names at h
  split at h
  · rename_i es hes
    obtain ⟨loc, -, hnode⟩ := Option.bind_eq_some_iff.mp hes
    cases h
    cases ht.node hnode with
    | dir distinct ordinary _ =>
        refine ⟨distinct, ?_⟩
        intro n hn
        obtain ⟨e, he, rfl⟩ := List.mem_map.mp hn
        exact ordinary e he
  · cases h

/-- A finite tree of directories, with symbolic links. -/
def files (t : Tree) (ht : t.Ok) : Files where
  metadata := t.stat true
  symlink_metadata := t.stat false
  read_dir := t.names
  distinct _ _ _ h := (ht.names h).1
  ordinary _ _ _ h := (ht.names h).2

end Tree

def addpath (s l : Bytes) : Bytes := s ++ l ++ [47]

theorem length_addpath (s l : Bytes) : (addpath s l).length = s.length + l.length + 1 := by
  simp [addpath, Nat.add_assoc]

end Zshrs.Glob.Scan
