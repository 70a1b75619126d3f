import Mathlib.Data.List.Sort
import Zshrs.Lib.FileTree
import Zshrs.Lib.Utf8
import Mathlib.Data.List.Lex
import Mathlib.Data.Char

namespace Zshrs.Pkg

open Lib.FileTree

abbrev Text := List Char

/-- A text as the machine has it. -/
abbrev OsText := List UInt8

def os (s : Text) : OsText := Lib.Utf8.encode s

def to_string_lossy (s : OsText) : Text := Lib.Utf8.lossy s

/-- One installed plugin. -/
structure InstalledPlugin where
  name : Text
  version : Text
  source : Text
  kind : Text
  integrity : Text
  lib : Text
  source_files : List Text
  fpath : List Text
  deriving DecidableEq

/-- What a file holds: any text, or an index that `toml` has written and reads back. -/
inductive Content
  | text (t : Text)
  | index (packages : List InstalledPlugin)
  deriving DecidableEq

/-- An absolute path, by its components. No node is a symbolic link. -/
abbrev Path := List OsText

abbrev Files := Tree OsText Content

/-- Where a component of a path text leads to. -/
def walk (p : Path) (c : Text) : Path :=
  if c = [] ∨ c = ['.'] then p else if c = ['.', '.'] then p.dropLast else p ++ [os c]

/-- `PathBuf::join`, as the path that the result leads to. -/
def join (p : Path) (s : Text) : Path :=
  (s.splitOn '/').foldl walk (if s.head? = some '/' then [] else p)

def is_dir (t : Files) (p : Path) : Bool := p = [] ∨ nodeAt t p = some .dir

def is_file (t : Files) (p : Path) : Bool :=
  match nodeAt t p with
  | some (.file _) => true
  | _ => false

section Store

variable (root : Path)

def store_dir : Path := root ++ [os ['s', 't', 'o', 'r', 'e']]
def cache_dir : Path := root ++ [os ['c', 'a', 'c', 'h', 'e']]
def git_dir : Path := root ++ [os ['g', 'i', 't']]
def bin_dir : Path := root ++ [os ['b', 'i', 'n']]

/-- `INSTALLED_FILE` under the root. -/
def installed : Path :=
  root ++ [os ['i', 'n', 's', 't', 'a', 'l', 'l', 'e', 'd', '.', 't', 'o', 'm', 'l']]

/-- `name@version`. -/
def key (name version : Text) : Text := name ++ '@' :: version

def package_dir (name version : Text) : Path := join (store_dir root) (key name version)

def InstalledPlugin.key (e : InstalledPlugin) : Text := Pkg.key e.name e.version

def InstalledPlugin.dir (e : InstalledPlugin) : Path := package_dir root e.name e.version

/-- One `create_dir_all`, unless one before it has failed. -/
def createNext (r : Files × Bool) (d : Path) : Files × Bool :=
  if r.2 then
    match createDirAll r.1 d with
    | some t => (t, true)
    | none => (r.1, false)
  else r

def ensure_layout (t : Files) : Files × Bool :=
  [store_dir root, cache_dir root, git_dir root, bin_dir root].foldl createNext (t, true)

def has_package (t : Files) (name version : Text) : Bool := is_dir t (package_dir root name version)

/-- What is copied of a tree: all but the version control and the build scratch. -/
def copied (t : Files) (src : Path) : Files :=
  (below t src).filter fun e =>
    e.1.all fun c => to_string_lossy c ≠ ['.', 'g', 'i', 't'] ∧
      to_string_lossy c ≠ ['t', 'a', 'r', 'g', 'e', 't']

/-- The copy of a directory into itself comes to an error. -/
def copy_dir_filtered (t : Files) (src dst : Path) : Files × Bool :=
  if is_dir t src then (write t dst (copied t src), !(src <+: dst ∧ src ≠ dst)) else (t, false)

/-- The destination is cleared, and the staged tree is copied into it. -/
def install_dir (t : Files) (name version : Text) (src : Path) : Files × Bool :=
  let dst := package_dir root name version
  let t := if (nodeAt t dst).isSome then removeAll t dst else t
  match createDirAll t dst with
  | none => (t, false)
  | some t => copy_dir_filtered t src dst

/-- `InstalledIndex::load_from`. -/
def load_from (t : Files) : Option (List InstalledPlugin) :=
  match nodeAt t (installed root) with
  | some (.file (.index packages)) => some packages
  | some (.file (.text _)) => none
  | _ => some []

def sorted (packages : List InstalledPlugin) : List InstalledPlugin :=
  packages.mergeSort fun a b => a.name ≤ b.name

/-- `InstalledIndex::save_to`. -/
def save_to (t : Files) (packages : List InstalledPlugin) : Files × Bool :=
  match createDirAll t root with
  | none => (t, false)
  | some t => (put t (installed root) (.file (.index (sorted packages))), true)

end Store

def find (packages : List InstalledPlugin) (name : Text) : Option InstalledPlugin :=
  packages.find? fun p => p.name = name

/-- The first entry of the name is replaced, or one is added. -/
def upsert (packages : List InstalledPlugin) (p : InstalledPlugin) : List InstalledPlugin :=
  match packages.findIdx? fun e => e.name = p.name with
  | some i => packages.set i p
  | none => packages ++ [p]

/-- The first entry of the name is taken out. -/
def remove_entry (packages : List InstalledPlugin) (name : Text) :
    Option (InstalledPlugin × List InstalledPlugin) :=
  (find packages name).map fun e => (e, packages.eraseP fun p => p.name = name)

end Zshrs.Pkg
