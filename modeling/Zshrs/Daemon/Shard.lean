import Mathlib.Data.Char
import Mathlib.Data.List.Lex
import Mathlib.Logic.Function.Basic
import Zshrs.Lib.Runs
import Zshrs.Lib.SortedMap
import Mathlib.Data.List.Infix

namespace Zshrs.Daemon.Shard

open Lib Lib.Runs

abbrev Text := List Char

structure ShardHeader where
  slug : Text
  source_root : Text
  generation : Nat
  built_at_ns : Nat
  entry_count : Nat
  deriving DecidableEq

/-- A file of the images directory: the header that this build reads from it, as a shard or as a
canonical one, and its length. A lock has none, and neither has a temp file before it is renamed. -/
structure ShardFile where
  header : Option ShardHeader
  byte_size : Nat
  deriving DecidableEq

abbrev Images := List (Text × ShardFile)

structure IndexEntry where
  slug : Text
  source_root : Text
  generation : Nat
  built_at_ns : Nat
  entry_count : Nat
  byte_size : Nat
  path : Text
  deriving DecidableEq

/-- What the names of shards end in, and those of their locks. -/
def RKYV : Text := ['.', 'r', 'k', 'y', 'v']

def LOCK : Text := ['.', 'l', 'o', 'c', 'k']

def TMP : Text := ['.', 't', 'm', 'p', '.']

def shard_filename (hash8 : Text → Text) (source_root slug : Text) : Text :=
  hash8 source_root ++ '-' :: slug ++ RKYV

/-- The names that `list_shards` takes. -/
def isShard (name : Text) : Bool :=
  decide (RKYV <:+ name) && !decide (TMP <:+: name)

/-- The shards that are there, beside their locks and temp files. -/
def shards (images : Images) : Images := images.filter fun file => decide (RKYV <:+ file.1)

def list_shards (images : Images) : List Text := (images.map Prod.fst).filter isShard

def entryOf (file : Text × ShardFile) : Option IndexEntry :=
  file.2.header.map fun h =>
    ⟨h.slug, h.source_root, h.generation, h.built_at_ns, h.entry_count, file.2.byte_size, file.1⟩

/-- The entry of a listed shard. One that cannot be read is skipped. -/
def readEntry (images : Images) (path : Text) : Option IndexEntry :=
  (images.find? fun file => file.1 = path).bind entryOf

/-- `index.rkyv`, which reads as an empty one where it is missing, and the time of the directory
listing that it was built from. The clock and the times are not in the source. -/
structure IndexShard where
  entries : List IndexEntry
  listedAt : Nat

/-- Where a call of `write_shard` stands. -/
inductive Phase
  | idle
  | opened
  | locked
  | created
  | written
  | renamed
  | landed
  | reading (listedAt : Nat) (todo : List Text) (entries : List IndexEntry)
  | ready (listedAt : Nat) (entries : List IndexEntry)
  | refreshed
  | failed
  | returned

/-- The shard that a call writes, the name of its file, and the numbers in that of its temp file. -/
structure Call where
  header : ShardHeader
  byte_size : Nat
  final_path : Text
  pid : Nat
  nanos : Nat

def Call.lock_path (c : Call) : Text := c.final_path ++ LOCK

def Call.tmp_path (c : Call) : Text :=
  c.final_path ++ TMP ++ (Nat.toDigits 10 c.pid ++ '.' :: Nat.toDigits 10 c.nanos)

def Call.file (c : Call) : ShardFile := ⟨some c.header, c.byte_size⟩

/-- The steps of a call, and whether the file system lets them succeed. -/
inductive Action
  | openLock (ok : Bool)
  | flock (ok : Bool)
  | createTmp (ok : Bool)
  | writeTmp (ok : Bool)
  | rename (ok : Bool)
  | ensure_file_600 (ok : Bool)
  | list_shards (ok : Bool)
  | readNext
  | writeIndexTmp (ok : Bool)
  | renameIndex (ok : Bool)
  | done

variable {ι : Type} [DecidableEq ι]

structure State (ι : Type) where
  images : Images
  index : IndexShard
  locks : Text → Option ι
  phase : ι → Phase
  clock : Nat
  landedAt : Nat

def State.goto (s : State ι) (i : ι) (p : Phase) : State ι :=
  { s with phase := Function.update s.phase i p }

theorem State.phase_goto_self (s : State ι) (i : ι) (p : Phase) : (s.goto i p).phase i = p := by
  simp [State.goto]

theorem State.phase_goto_ne (s : State ι) {i j : ι} (h : j ≠ i) (p : Phase) :
    (s.goto i p).phase j = s.phase j := by
  simp [State.goto, h]

def bySlug (entries : List IndexEntry) : List IndexEntry :=
  entries.mergeSort fun a b => decide (a.slug ≤ b.slug)

/-- `create(true)`: a file that is there is opened as it is. -/
def create (name : Text) (images : Images) : Images :=
  if images.any (·.1 = name) then images else SortedMap.insert name ⟨none, 0⟩ images

/-- A step of the call `c` of `i`. The lock is per shard, its file stays, and where it cannot be taken at
all the call goes on without it. A temp file stays where the call fails behind it. -/
def act (c : Call) (s : State ι) (i : ι) : Action → Phase → State ι
  | .openLock true, .idle => ({ s with images := create c.lock_path s.images }).goto i .opened
  | .openLock false, .idle => s.goto i .locked
  | .flock true, .opened =>
    if s.locks c.final_path = none then
      ({ s with locks := Function.update s.locks c.final_path (some i) }).goto i .locked
    else s
  | .flock false, .opened => s.goto i .locked
  | .createTmp true, .locked =>
    if s.images.any (·.1 = c.tmp_path) then s.goto i .failed
    else ({ s with images := SortedMap.insert c.tmp_path ⟨none, 0⟩ s.images }).goto i .created
  | .createTmp false, .locked => s.goto i .failed
  | .writeTmp ok, .created =>
    ({ s with images := SortedMap.insert c.tmp_path (if ok then c.file else ⟨none, 0⟩) s.images }).goto i
      (if ok then .written else .failed)
  | .rename true, .written =>
    ({ s with
      images := SortedMap.insert c.final_path c.file (s.images.filter (·.1 ≠ c.tmp_path))
      landedAt := s.clock }).goto i .renamed
  | .rename false, .written => s.goto i .failed
  | .ensure_file_600 ok, .renamed => s.goto i (if ok then .landed else .failed)
  | .list_shards true, .landed => s.goto i (.reading s.clock (list_shards s.images) [])
  | .list_shards false, .landed => s.goto i .refreshed
  | .readNext, .reading t (path :: todo) entries =>
    s.goto i (.reading t todo (entries ++ (readEntry s.images path).toList))
  | .writeIndexTmp true, .reading t [] entries => s.goto i (.ready t (bySlug entries))
  | .writeIndexTmp false, .reading _ [] _ => s.goto i .refreshed
  | .renameIndex true, .ready t entries => ({ s with index := ⟨entries, t⟩ }).goto i .refreshed
  | .renameIndex false, .ready _ _ => s.goto i .refreshed
  | .done, .refreshed | .done, .failed =>
    ({ s with
      locks := if s.locks c.final_path = some i then Function.update s.locks c.final_path none
        else s.locks }).goto i .returned
  | _, _ => s

/-- Any call may be the next to take a step. -/
def step (calls : ι → Call) (s : State ι) (e : ι × Action) : State ι :=
  act (calls e.1) { s with clock := s.clock + 1 } e.1 e.2 (s.phase e.1)

/-- The index lists exactly the shards that are there, as they are. -/
def InSync (s : State ι) : Prop := (s.index.entries.map some).Perm ((shards s.images).map entryOf)

def AllReturned (s : State ι) : Prop := ∀ i, s.phase i = .returned

end Zshrs.Daemon.Shard
