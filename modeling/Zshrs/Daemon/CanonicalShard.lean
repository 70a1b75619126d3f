import Zshrs.Daemon.Canonical
import Mathlib.Algebra.Group.Nat.Defs

namespace Zshrs.Daemon.Canonical

open Lib

/-- `serde_json` on strings: how a string is printed, and the string that a text parses to. -/
structure SerdeJson where
  to_string : Text → Text
  as_str : Text → Option Text

/-- What the catalog relies on: a printed string parses back, it stands between quotes and is not
shorter than the string, and one without quotes, backslashes and control characters is printed as it is. -/
structure SerdeJson.Lawful (json : SerdeJson) : Prop where
  parses : ∀ s, json.as_str (json.to_string s) = some s
  quoted : ∀ s, ∃ body, json.to_string s = '"' :: (body ++ ['"']) ∧ s.length ≤ body.length
  plain : ∀ s, (∀ c ∈ s, c ≠ '"' ∧ c ≠ '\\' ∧ ' ' ≤ c) → json.to_string s = '"' :: (s ++ ['"'])

def json_string (json : SerdeJson) (s : Text) : Text := json.to_string s

def unjson (json : SerdeJson) (s : Text) : Text :=
  if ['"'] <+: s ∧ ['"'] <:+ s ∧ 2 ≤ s.length then (json.as_str s).getD s else s

/-- The string maps of a shard. -/
inductive MapField
  | aliases
  | global_aliases
  | suffix_aliases
  | functions
  | autoload_functions
  | bindkeys
  | named_dirs
  | compdef
  | env_exports
  | params
  deriving DecidableEq

/-- The directory lists of a shard. -/
inductive ListField
  | path
  | fpath
  | manpath
  deriving DecidableEq

def MapField.subsystem : MapField → Text
  | aliases => ['a', 'l', 'i', 'a', 's']
  | global_aliases => ['g', 'a', 'l', 'i', 'a', 's']
  | suffix_aliases => ['s', 'a', 'l', 'i', 'a', 's']
  | functions => ['f', 'u', 'n', 'c', 't', 'i', 'o', 'n']
  | autoload_functions =>
    ['f', 'u', 'n', 'c', 't', 'i', 'o', 'n', '_', 'a', 'u', 't', 'o', 'l', 'o', 'a', 'd']
  | bindkeys => ['b', 'i', 'n', 'd', 'k', 'e', 'y']
  | named_dirs => ['n', 'a', 'm', 'e', 'd', '_', 'd', 'i', 'r']
  | compdef => ['c', 'o', 'm', 'p', 'd', 'e', 'f']
  | env_exports => ['e', 'n', 'v']
  | params => ['p', 'a', 'r', 'a', 'm', 's']

def ListField.subsystem : ListField → Text
  | path => ['p', 'a', 't', 'h']
  | fpath => ['f', 'p', 'a', 't', 'h']
  | manpath => ['m', 'a', 'n', 'p', 'a', 't', 'h']

def setopt : Text := ['s', 'e', 't', 'o', 'p', 't']
def zmodload : Text := ['z', 'm', 'o', 'd', 'l', 'o', 'a', 'd']
def zstyle : Text := ['z', 's', 't', 'y', 'l', 'e']
def source : Text := ['s', 'o', 'u', 'r', 'c', 'e']

def mapFields : List MapField :=
  [.aliases, .global_aliases, .suffix_aliases, .functions, .autoload_functions, .bindkeys, .named_dirs,
    .compdef, .env_exports, .params]

def listFields : List ListField := [.path, .fpath, .manpath]

/-- Where the rows of a subsystem go in a shard. -/
inductive Place
  | map (f : MapField)
  | setopt
  | zmodload
  | list (f : ListField)
  | zstyle
  | extras
  deriving DecidableEq

def place (subsystem : Text) : Place :=
  match mapFields.find? (fun f => f.subsystem = subsystem) with
  | some f => .map f
  | none =>
    match listFields.find? (fun f => f.subsystem = subsystem) with
    | some f => .list f
    | none =>
      if subsystem = Canonical.setopt then .setopt
      else if subsystem = Canonical.zmodload then .zmodload
      else if subsystem = Canonical.zstyle then .zstyle
      else .extras

structure CanonicalShard where
  generation : Nat
  entry_count : UInt32
  maps : MapField → OrdMap Text Text
  setopts : List Text
  unsetopts : List Text
  zmodload : List Text
  lists : ListField → List Text
  zstyle : List (Text × Text)
  sourced_files : List Text
  extras : OrdMap Text (OrdMap Text Text)

def stripPlus : Text → Text
  | '+' :: digits => digits
  | digits => digits

/-- `str::parse::<usize>`. -/
def parse_usize (key : Text) : Option Nat :=
  let digits := stripPlus key
  if digits = [] ∨ ¬ digits.all Char.isDigit then none
  else
    let n := Nat.ofDigitChars 10 digits 0
    if n < 2 ^ 64 then some n else none

def push_indexed (target : List Text) (key value : Text) : List Text :=
  match parse_usize key with
  | some idx => (target ++ List.replicate (idx + 1 - target.length) []).set idx value
  | none => target ++ [value]

def isOn (plain : Text) : Bool := plain = ['o', 'n'] ∨ plain = ['t', 'r', 'u', 'e'] ∨ plain = ['1']

/-- The rows of the catalog, by subsystem and slot. -/
def cells (rows : Rows) : List (Text × Text × CanonicalRow) :=
  rows.entries.flatMap fun p => p.2.slots.entries.map fun q => (p.1, q)

def subsystem_total (rows : Rows) : Nat := (cells rows).length

def addRow (json : SerdeJson) (shard : CanonicalShard) (cell : Text × Text × CanonicalRow) :
    CanonicalShard :=
  let (sub, k, row) := cell
  let plain := unjson json row.value
  match place sub with
  | .map f => { shard with maps := Function.update shard.maps f ((shard.maps f).insert k plain) }
  | .setopt =>
    if isOn plain then { shard with setopts := shard.setopts ++ [k] }
    else { shard with unsetopts := shard.unsetopts ++ [k] }
  | .zmodload => { shard with zmodload := shard.zmodload ++ [k] }
  | .list f => { shard with lists := Function.update shard.lists f (push_indexed (shard.lists f) k plain) }
  | .zstyle => { shard with zstyle := shard.zstyle ++ [(k, plain)] }
  | .extras =>
    { shard with
      extras := shard.extras.insert sub (((shard.extras.get? sub).getD .empty).insert k row.value) }

def emptyShard (generation : Nat) : CanonicalShard :=
  ⟨generation, 0, fun _ => .empty, [], [], [], fun _ => [], [], [], .empty⟩

def snapshot_shard (json : SerdeJson) (rows : Rows) (generation : Nat) : CanonicalShard :=
  { (cells rows).foldl (addRow json) (emptyShard generation) with
    entry_count := UInt32.ofNat (subsystem_total rows) }

def on : Text := ['"', 'o', 'n', '"']
def off : Text := ['"', 'o', 'f', 'f', '"']
def loaded : Text := ['"', 'l', 'o', 'a', 'd', 'e', 'd', '"']

def index (i : Nat) : Text := Nat.toDigits 10 i

/-- The rows that a shard is read back into, as subsystem, key and value, in the order of the reading. -/
def pushes (json : SerdeJson) (shard : CanonicalShard) : List (Text × Text × Text) :=
  (mapFields.flatMap fun f => (shard.maps f).entries.map fun p => (f.subsystem, p.1, json_string json p.2)) ++
  (shard.setopts.map fun opt => (setopt, opt, on)) ++
  (shard.unsetopts.map fun opt => (setopt, opt, off)) ++
  (shard.zmodload.map fun module => (Canonical.zmodload, module, loaded)) ++
  (listFields.flatMap fun f =>
    (shard.lists f).zipIdx.map fun p => (f.subsystem, index p.2, json_string json p.1)) ++
  (shard.zstyle.map fun p => (Canonical.zstyle, p.1, json_string json p.2)) ++
  (shard.extras.entries.flatMap fun p => p.2.entries.map fun q => (p.1, q.1, q.2))

def push (now : Int) (rows : Rows) (p : Text × Text × Text) : Rows :=
  rows.insert p.1 ((table rows p.1).insert ⟨p.2.1, p.2.2, now, none, none, none, none, []⟩)

def ingest_shard_into (json : SerdeJson) (now : Int) (rows : Rows) (shard : CanonicalShard) : Rows :=
  (pushes json shard).foldl (push now) rows

end Zshrs.Daemon.Canonical
