import Zshrs.Pkg.Resolver

namespace Zshrs.Pkg

open Lib.FileTree

variable (root : Path) (w : World)

/-- The name and the version that a plugin is installed under. -/
def identity (manifest : Option PluginManifest) (staged_name : Text) : Text × Text :=
  let name := (manifest.map (·.name)).filter (· ≠ [])
  let version := (manifest.map (·.version)).filter (· ≠ [])
  (name.getD staged_name, version.getD ['0', '.', '0', '.', '0'])

def find_cdylib (t : Files) (dir : Path) : Option Text :=
  ((names t dir).map to_string_lossy).find? w.is_cdylib

def cargoToml : Text := ['C', 'a', 'r', 'g', 'o', '.', 't', 'o', 'm', 'l']

def targetRelease : Path := [os ['t', 'a', 'r', 'g', 'e', 't'], os ['r', 'e', 'l', 'e', 'a', 's', 'e']]

/-- A library that is not there yet is built in the staged directory, and copied to its top. -/
def prepare_native (t : Files) (dir : Path) (spec : NativeSpec) : Files × Bool :=
  if (find_cdylib w t dir).isSome then (t, true)
  else
    let has_cargo := is_file t (dir ++ [os cargoToml])
    let want_build := spec.build.getD has_cargo
    if !want_build ∨ !has_cargo then (t, false)
    else
      let (files, built_ok) := w.cargo_build
      let t := write t dir files
      if !built_ok then (t, false)
      else
        match find_cdylib w t (dir ++ targetRelease) with
        | none => (t, false)
        | some built =>
          match nodeAt t (dir ++ targetRelease ++ [os built]) with
          | some (.file content) => (put t (dir ++ [os built]) (.file content), true)
          | _ => (t, false)

def prepare (t : Files) (dir : Path) (kind : PluginKind) : Files × Bool :=
  match kind with
  | .native spec => prepare_native w t dir spec
  | .script _ => (t, true)

/-- The index record of an installed plugin. -/
def record (t : Files) (staged : Staged) (name version : Text) (kind : PluginKind) :
    Option InstalledPlugin :=
  match kind with
  | .native _ => (find_cdylib w t (package_dir root name version)).map fun lib =>
      ⟨name, version, staged.source, ['n', 'a', 't', 'i', 'v', 'e'], w.integrity, lib, [], []⟩
  | .script s =>
    some ⟨name, version, staged.source, ['s', 'c', 'r', 'i', 'p', 't'], w.integrity, [], s.source,
      s.fpath⟩

/-- The clone is not needed any more. -/
def clean_clone (t : Files) (staged : Staged) : Files :=
  if githubPrefix <+: staged.source ∨ gitPrefix <+: staged.source then removeAll t staged.dir else t

/-- `add` behind its resolution: the staged tree is installed and recorded. -/
def install (t : Files) (staged : Staged) (manifest : Option PluginManifest) (kind : PluginKind) :
    Files × Bool :=
  let (name, version) := identity manifest staged.name
  match prepare w t staged.dir kind with
  | (t, false) => (t, false)
  | (t, true) =>
    match install_dir root t name version staged.dir with
    | (t, false) => (t, false)
    | (t, true) =>
      match record root w t staged name version kind, load_from root t with
      | some entry, some packages =>
        match save_to root t (upsert packages entry) with
        | (t, false) => (t, false)
        | (t, true) => (clean_clone t staged, w.load_entry)
      | _, _ => (t, false)

def add (t : Files) (spec : Text) : Files × Bool :=
  match ensure_layout root t with
  | (t, false) => (t, false)
  | (t, true) =>
    match resolve root w t spec with
    | (t, none) => (t, false)
    | (t, some staged) =>
      match w.manifest with
      | none => (t, false)
      | some manifest =>
        match detect w manifest with
        | none => (t, false)
        | some kind => install root w t staged manifest kind

def remove (t : Files) (name : Text) : Files × Bool :=
  match load_from root t with
  | none => (t, false)
  | some index =>
    match remove_entry index name with
    | none => (t, false)
    | some (entry, index) =>
      let dir := entry.dir root
      let t := if is_dir t dir then removeAll t dir else t
      save_to root t index

/-- Whether a directory holds any bytes. -/
def occupied (t : Files) (d : Path) : Bool :=
  (below t d).any fun e => match e.2 with
    | .file (.text s) => s ≠ []
    | .file (.index _) => true
    | .dir => false

local instance : LawfulBEq Text := inferInstance

/-- One directory of the store, unless it is pinned. -/
def collect (pinned : List Text) (t : Files) (c : OsText) : Files :=
  if is_dir t (store_dir root ++ [c]) ∧ to_string_lossy c ∉ pinned then removeAll t (store_dir root ++ [c]) else t

def gc (t : Files) (dry_run : Bool) : Files × Bool :=
  match load_from root t with
  | none => (t, false)
  | some index =>
    if dry_run then (t, true)
    else
      let pinned := index.map InstalledPlugin.key
      let t := (names t (store_dir root)).foldl (collect root pinned) t
      (if occupied t (git_dir root) then removeAll t (git_dir root) else t, true)

/-- A recorded label as a spec for `add`. -/
def source_to_spec (source : Text) : Text :=
  match strip_prefix pathPrefix source with
  | some rest => pathSpec ++ rest
  | none => source

/-- Whether an entry's store copy is there. -/
def present (t : Files) (p : InstalledPlugin) : Bool :=
  if p.kind = ['n', 'a', 't', 'i', 'v', 'e'] then is_file t (join (p.dir root) p.lib)
  else has_package root t p.name p.version

/-- The spec that `load` of a name or a source installs, if it comes to that. -/
def load_installs (t : Files) (n : Text) : Option Text :=
  (load_from root t).bind fun index =>
    let reinstall (e : InstalledPlugin) : Option Text :=
      if present root t e then none else some (source_to_spec e.source)
    match find index n with
    | some e => reinstall e
    | none => (source_label w n).bind fun label =>
      match index.find? fun e => e.source = label with
      | some e => reinstall e
      | none => some n

/-- The specs that `update` installs: of the plugin that is named, or of all. -/
def update_installs (t : Files) (name : Option Text) : List Text :=
  let index := (load_from root t).getD []
  let targets : List Text := match name with
    | some n => [n]
    | none => index.map InstalledPlugin.name
  targets.filterMap fun n => (find index n).map fun e => source_to_spec e.source

/-- Installations in turn, up to the first that fails. -/
def adds (t : Files) : List (Text × World) → Files
  | [] => t
  | (spec, w) :: rest =>
    match add root w t spec with
    | (t, false) => t
    | (t, true) => adds t rest

/-- A command, with what it finds around the store. -/
inductive Op
  | add (spec : Text) (w : World)
  | remove (name : Text)
  | update (name : Option Text) (w : Nat → World)
  | load (name : Option Text) (w : World)
  | gc (dry_run : Bool)

/-- The installations that a command makes. -/
def installs (t : Files) : Op → List (Text × World)
  | .add spec w => [(spec, w)]
  | .update name w => (update_installs root t name).zipIdx.map fun e => (e.1, w e.2)
  | .load (some n) w => ((load_installs root w t n).map fun spec => (spec, w)).toList
  | .load none _ => []
  | .remove _ => []
  | .gc _ => []

def step (t : Files) (op : Op) : Files :=
  match op with
  | .remove name => (remove root t name).1
  | .gc dry_run => (gc root t dry_run).1
  | op => adds root t (installs root t op)

end Zshrs.Pkg
