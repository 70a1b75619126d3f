import Mathlib.Data.List.DropRight
import Zshrs.Pkg.Store

namespace Zshrs.Pkg

open Lib.FileTree

/-- The part behind a prefix. -/
def strip_prefix (pre s : Text) : Option Text := if pre <+: s then some (s.drop pre.length) else none

def stripFront (pre : Text) : Nat → Text → Text
  | 0, s => s
  | n + 1, s => if pre <+: s then stripFront pre n (s.drop pre.length) else s

/-- `trim_end_matches` of a text: it is taken off as often as it stands there. -/
def trim_end (suf s : Text) : Text := (stripFront suf.reverse s.length s.reverse).reverse

def dotGit : Text := ['.', 'g', 'i', 't']
def githubPrefix : Text := ['g', 'i', 't', 'h', 'u', 'b', ':']
def gitPrefix : Text := ['g', 'i', 't', '+']
def pathPrefix : Text := ['p', 'a', 't', 'h', '+', 'f', 'i', 'l', 'e', ':', '/', '/']
def pathSpec : Text := ['p', 'a', 't', 'h', ':']
def githubUrl : Text :=
  ['h', 't', 't', 'p', 's', ':', '/', '/', 'g', 'i', 't', 'h', 'u', 'b', '.', 'c', 'o', 'm', '/']

/-- Where a character stands last. -/
def rfind (c : Char) (s : Text) : Option Nat :=
  (s.reverse.findIdx? (· = c)).map fun k => s.length - 1 - k

/-- A trailing `@REF` is split off, if its `@` stands behind the last slash. -/
def split_ref (spec : Text) : Text × Option Text :=
  match rfind '@' spec with
  | some at_ =>
    let after_slash : Bool := match rfind '/' spec with
      | some s => s < at_
      | none => true
    if after_slash ∧ at_ + 1 < spec.length then (spec.take at_, some (spec.drop (at_ + 1)))
    else (spec, none)
  | none => (spec, none)

/-- `PathBuf::join` on the texts themselves. -/
def pushed (p : OsText) (s : Text) : OsText :=
  if ['/'] <+: s then os s
  else if p = [] ∨ p.getLast? = some 0x2f then p ++ os s
  else p ++ 0x2f :: os s

/-- The local path forms, with the home directory put in for a `~`. -/
def local_path (home : Option OsText) (spec : Text) : Option OsText :=
  match strip_prefix pathSpec spec with
  | some rest => some (os rest)
  | none =>
    if ['/'] <+: spec ∨ ['.', '/'] <+: spec ∨ ['.', '.', '/'] <+: spec ∨ ['~'] <+: spec then
      match strip_prefix ['~', '/'] spec, home with
      | some rest, some home =>
        some (pushed home rest)
      | _, _ => some (os spec)
    else none

/-- What stands behind the last slash or colon of a URL. -/
def repo_basename (url : Text) : Text :=
  (trim_end dotGit (url.rdropWhile (· = '/'))).rtakeWhile fun c => c ≠ '/' ∧ c ≠ ':'

/-- `(clone_url, provenance_label, name)`. -/
def git_url (spec : Text) : Option (Text × Text × Text) :=
  match strip_prefix gitPrefix spec with
  | some rest => some (rest, gitPrefix ++ rest, repo_basename rest)
  | none =>
    match strip_prefix githubPrefix spec with
    | some rest =>
      let url := githubUrl ++ trim_end dotGit rest
      some (url, githubPrefix ++ trim_end dotGit rest, repo_basename url)
    | none =>
      if dotGit <:+ spec ∨ [':', '/', '/'] <:+: spec then
        some (spec, gitPrefix ++ spec, repo_basename spec)
      else if (spec.splitOn '/').length = 2 ∧ ' ' ∉ spec then
        let owner_repo := trim_end dotGit spec
        let url := githubUrl ++ owner_repo
        some (url, githubPrefix ++ owner_repo, repo_basename url)
      else none

def label_with_ref (label : Text) (git_ref : Option Text) : Text :=
  match git_ref with
  | some r => label ++ '@' :: r
  | none => label

/-- A directory that is ready to install. -/
structure Staged where
  dir : Path
  name : Text
  source : Text

structure NativeSpec where
  lib : Text
  build : Option Bool

structure ScriptSpec where
  source : List Text
  fpath : List Text

inductive PluginKind
  | native (spec : NativeSpec)
  | script (spec : ScriptSpec)

/-- A plugin's `znative.toml`. -/
structure PluginManifest where
  name : Text
  version : Text
  native : Option NativeSpec
  script : Option ScriptSpec

/-- What an installation finds around the store: the paths of the machine, what `git` and `cargo`
answer, what `toml` reads from the manifest and what the layout of the tree says, the digest of
the tree, and whether the plugin loads. No call to the file system fails where the tree allows it. -/
structure World where
  home : Option OsText
  canonicalize : OsText → Option Path
  /-- The clone's files, if there are any, and whether `git` says that all went well. -/
  git_clone : Text → Option Text → Option Files × Bool
  manifest : Option (Option PluginManifest)
  layout : Option PluginKind
  /-- What `cargo` writes below the directory that it is run in, and whether it succeeds. -/
  cargo_build : Files × Bool
  is_cdylib : Text → Bool
  integrity : Text
  load_entry : Bool

variable (root : Path) (w : World)

/-- A path as the machine has it. -/
def path_text (p : Path) : OsText := 0x2f :: [0x2f].intercalate p

/-- A path as `display` writes it. -/
def display (p : Path) : Text := to_string_lossy (path_text p)

def basename (p : Path) : Text := (p.getLast?.map to_string_lossy).getD ['p', 'l', 'u', 'g', 'i', 'n']

/-- The directory of a clone is cleared, and `git` fills it. -/
def clone_into (t : Files) (url : Text) (git_ref : Option Text) (dir : Path) : Files × Bool :=
  let t := if (nodeAt t dir).isSome then removeAll t dir else t
  match w.git_clone url git_ref with
  | (none, _) => (t, false)
  | (some files, ok) =>
    match createDirAll t dir with
    | none => (t, false)
    | some t => (write t dir files, ok)

def resolve (t : Files) (spec : Text) : Files × Option Staged :=
  let (base, git_ref) := split_ref spec
  match local_path w.home base with
  | some p =>
    match w.canonicalize p with
    | none => (t, none)
    | some dir =>
      if is_dir t dir then (t, some ⟨dir, basename dir, pathPrefix ++ display dir⟩) else (t, none)
  | none =>
    match git_url base with
    | none => (t, none)
    | some (url, label, name) =>
      let (t, laid) := ensure_layout root t
      if laid then
        let dir := join (git_dir root) name
        let (t, cloned) := clone_into w t url git_ref dir
        (t, if cloned then some ⟨dir, name, label_with_ref label git_ref⟩ else none)
      else (t, none)

/-- The label that a source would be recorded under. -/
def source_label (spec : Text) : Option Text :=
  let (base, git_ref) := split_ref spec
  match local_path w.home base with
  | some p => (w.canonicalize p).map fun dir => pathPrefix ++ display dir
  | none => (git_url base).map fun u => label_with_ref u.2.1 git_ref

/-- `PluginKind::detect`. -/
def detect (manifest : Option PluginManifest) : Option PluginKind :=
  match manifest.bind (·.native), manifest.bind (·.script) with
  | some n, _ => some (.native n)
  | none, some s => some (.script s)
  | none, none => w.layout

end Zshrs.Pkg
