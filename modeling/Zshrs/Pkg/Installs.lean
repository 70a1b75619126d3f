import Zshrs.Pkg.Confined

namespace Zshrs.Pkg

open Lib.FileTree

section Sources

variable (w : World) (spec : Text)

/-- The directory of a local source. -/
def local_dir : Option Path := (local_path w.home (split_ref spec).1).bind w.canonicalize

/-- The name that a source is cloned under. -/
def clone_name : Option Text :=
  match local_path w.home (split_ref spec).1 with
  | some _ => none
  | none => (git_url (split_ref spec).1).map fun u => u.2.2

def staged_name : Option Text :=
  match local_path w.home (split_ref spec).1 with
  | some p => (w.canonicalize p).map basename
  | none => clone_name w spec

/-- The name and the version that a source is installed under. -/
def chosen : Option (Text × Text) :=
  match staged_name w spec, w.manifest with
  | some name, some manifest => some (identity manifest name)
  | _, _ => none

/-- Whether a library has to be built in the staged directory. -/
def builds (t : Files) (dir : Path) : Bool :=
  match w.manifest.bind (detect w) with
  | some (.native _) => (find_cdylib w t dir).isNone
  | _ => false

end Sources

def index (root : Path) (t : Files) : List InstalledPlugin := (load_from root t).getD []

/-- When an installation keeps to its own directory. -/
structure AddOk (root : Path) (w : World) (t : Files) (spec : Text) : Prop where
  plain : ∀ name version, chosen w spec = some (name, version) → '/' ∉ name ∧ '/' ∉ version
  unambiguous : ∀ name version, chosen w spec = some (name, version) →
    ∀ e ∈ index root t, e.name ≠ name → e.key ≠ key name version
  clone : clone_name w spec ≠ some ['.', '.']
  in_place : ∀ dir, local_dir w spec = some dir → builds w (ensure_layout root t).1 dir = false

variable {root : Path} {w : World} {t t' : Files}

section Resolving

theorem no_slash_repo_basename (url : Text) : '/' ∉ repo_basename url := by
  intro h
  have kept := List.mem_rtakeWhile_imp h
  simp at kept

theorem git_url_name {spec : Text} {u : Text × Text × Text} (h : git_url spec = some u) :
    '/' ∉ u.2.2 := by
  unfold git_url at h
  split at h
  · cases h
    exact no_slash_repo_basename _
  · split at h
    · cases h
      exact no_slash_repo_basename _
    · split at h
      · cases h
        exact no_slash_repo_basename _
      · split at h
        · cases h
          exact no_slash_repo_basename _
        · cases h

/-- A clone is made at or below `git/`. -/
theorem clone_below {name : Text} (hs : '/' ∉ name) (hup : name ≠ ['.', '.']) :
    git_dir root <+: join (git_dir root) name := by
  rw [join_single hs]
  unfold walk
  split
  · exact List.prefix_rfl
  · exact List.prefix_append _ _

theorem aside_below_git {d : Path} (hd : git_dir root <+: d)
    (h : Outside (fun p => d <+: p) t t') : Aside root t t' :=
  .of_outside (h.mono fun _ hp => .inl (hd.trans hp))

theorem aside_created_git {d : Path} (hd : git_dir root <+: d) (h : createDirAll t d = some t') :
    Aside root t t' := by
  intro p
  rcases (createDirAll_spec h).kept p with same | ⟨⟨c, cs, hcs, rfl⟩, hnone, hdir⟩
  · exact .inl same
  · rcases List.prefix_or_prefix_of_prefix hcs hd with above | below
    · rcases @prefix_layout root _ _ (by simp [layout]) above with scratch | above
      · exact .inr (.inl scratch)
      · exact .inr (.inr ⟨above, hnone, hdir⟩)
    · exact .inr (.inl (.inl below))

theorem clone_into_aside {dir : Path} (hd : git_dir root <+: dir) (url : Text)
    (git_ref : Option Text) : Aside root t (clone_into w t url git_ref dir).1 := by
  unfold clone_into
  have cleared : Aside root t (if (nodeAt t dir).isSome then removeAll t dir else t) := by
    split
    · exact aside_below_git hd (removeAll_outside t dir)
    · exact .refl t
  generalize (if (nodeAt t dir).isSome then removeAll t dir else t) = t₁ at cleared ⊢
  dsimp only
  obtain ⟨files, ok⟩ := w.git_clone url git_ref
  cases files with
  | none => exact cleared
  | some files =>
    dsimp only
    cases heq : createDirAll t₁ dir with
    | none => exact cleared
    | some t₂ =>
      have made := cleared.trans (aside_created_git hd heq)
      exact made.trans (aside_below_git hd (write_outside t₂ dir files))

/-- What `resolve` stages: a local directory, or a clone. -/
inductive Stages (root : Path) (w : World) (spec : Text) (staged : Staged) : Prop
  | local_ : local_dir w spec = some staged.dir → pathPrefix <+: staged.source →
    staged_name w spec = some staged.name → Stages root w spec staged
  | clone : git_dir root <+: staged.dir → staged_name w spec = some staged.name →
    Stages root w spec staged

theorem Stages.named {spec : Text} {staged : Staged} (h : Stages root w spec staged) :
    staged_name w spec = some staged.name := by
  cases h with
  | local_ _ _ hname => exact hname
  | clone _ hname => exact hname

theorem resolve_spec {spec : Text} (hclone : clone_name w spec ≠ some ['.', '.']) :
    Aside root t (resolve root w t spec).1 ∧
      ∀ staged, (resolve root w t spec).2 = some staged → Stages root w spec staged := by
  unfold resolve
  dsimp only
  cases hlocal : local_path w.home (split_ref spec).1 with
  | some p =>
    dsimp only
    cases hdir : w.canonicalize p with
    | none => exact ⟨.refl t, fun staged h => by cases h⟩
    | some dir =>
      dsimp only
      split
      · refine ⟨.refl t, fun staged h => ?_⟩
        cases h
        refine .local_ ?_ (List.prefix_append _ _) ?_
        · unfold local_dir
          rw [hlocal]
          exact hdir
        · unfold staged_name
          rw [hlocal]
          dsimp only
          rw [hdir]
          rfl
      · exact ⟨.refl t, fun staged h => by cases h⟩
  | none =>
    dsimp only
    cases hurl : git_url (split_ref spec).1 with
    | none => exact ⟨.refl t, fun staged h => by cases h⟩
    | some u =>
      obtain ⟨url, label, name⟩ := u
      have hname : clone_name w spec = some name := by
        unfold clone_name
        rw [hlocal, hurl]
        rfl
      have hup : name ≠ ['.', '.'] := by
        rintro rfl
        exact hclone hname
      have hd : git_dir root <+: join (git_dir root) name := clone_below (git_url_name hurl) hup
      have laid := ensure_layout_aside root t
      dsimp only
      generalize ensure_layout root t = r at laid ⊢
      obtain ⟨t₁, ok⟩ := r
      dsimp only at laid ⊢
      cases ok with
      | false => exact ⟨laid, fun staged h => by cases h⟩
      | true =>
        rw [if_pos rfl]
        have cloned := @clone_into_aside root w t₁ _ hd url (split_ref spec).2
        generalize clone_into w t₁ url (split_ref spec).2 (join (git_dir root) name) = r at cloned ⊢
        obtain ⟨t₂, ok⟩ := r
        dsimp only at cloned ⊢
        refine ⟨laid.trans cloned, fun staged h => ?_⟩
        cases ok with
        | false => cases h
        | true =>
          cases h
          refine .clone hd ?_
          unfold staged_name
          rw [hlocal]
          exact hname

end Resolving

section Phases

variable {staged : Staged} {kind : PluginKind} {name version : Text}

theorem prepare_native_outside (t : Files) (dir : Path) (spec : NativeSpec) :
    Outside (fun p => dir <+: p) t (prepare_native w t dir spec).1 := by
  unfold prepare_native
  split
  · exact .refl _ t
  · dsimp only
    split
    · exact .refl _ t
    · have built := write_outside t dir w.cargo_build.1
      split
      · exact built
      · split
        · exact built
        · next lib _ =>
          split
          · refine built.trans ((put_outside _ _ _).mono ?_)
            rintro p rfl
            exact List.prefix_append _ _
          · exact built

/-- A clone is built in place, and a local source has its library. -/
theorem prepare_aside {spec : Text} (hstaged : Stages root w spec staged) {manifest : Option PluginManifest}
    (hm : w.manifest = some manifest) (hk : detect w manifest = some kind)
    (hbuild : ∀ dir, local_dir w spec = some dir → builds w t dir = false) :
    Aside root t (prepare w t staged.dir kind).1 := by
  cases kind with
  | script s => exact .refl t
  | native n =>
    cases hstaged with
    | local_ hdir _ _ =>
      have built := hbuild _ hdir
      unfold builds at built
      rw [hm] at built
      dsimp only [Option.bind_some] at built
      rw [hk] at built
      have found : (find_cdylib w t staged.dir).isSome = true := by simpa using built
      unfold prepare prepare_native
      dsimp only
      rw [if_pos found]
      exact .refl t
    | clone hdir _ => exact aside_below_git hdir (prepare_native_outside t _ n)

theorem createDirs_store (ha : Above root t) (hk : nodeAt t (store_dir root ++ [k]) = none) :
    ∃ t', createDirAll t (store_dir root ++ [k]) = some t' := by
  apply createDirs_of_dirs
  intro c cs hc content hfile
  rw [List.nil_append] at hfile
  rcases List.prefix_concat_iff.mp hc with same | above
  · rw [same, hk] at hfile
    cases hfile
  · rw [ha c cs above] at hfile
    cases hfile

theorem created_outside (ha : Above root t)
    (h : createDirAll t (store_dir root ++ [k]) = some t') :
    Outside (fun p => store_dir root ++ [k] <+: p) t t' := by
  intro p hp
  rcases (createDirAll_spec h).kept p with same | ⟨⟨c, cs, hcs, rfl⟩, hnone, -⟩
  · exact same
  · rcases List.prefix_concat_iff.mp hcs with same | above
    · exact absurd (same ▸ List.prefix_rfl) hp
    · rw [List.nil_append, ha c cs above] at hnone
      cases hnone

theorem mem_copied {src : Path} {e : Path × Node Content} (h : e ∈ copied t src) : e.1 ≠ [] :=
  mem_below _ (List.mem_of_mem_filter h)

/-- The directory of the plugin is there afterwards, and nothing else is written. -/
theorem install_dir_spec (ha : Above root t) (hn : '/' ∉ name) (hv : '/' ∉ version) (src : Path) :
    Outside (fun p => store_dir root ++ [os (key name version)] <+: p) t
        (install_dir root t name version src).1 ∧
      nodeAt (install_dir root t name version src).1 (store_dir root ++ [os (key name version)]) =
        some .dir := by
  unfold install_dir
  rw [package_dir_plain root hn hv]
  generalize os (key name version) = k
  dsimp only
  have cleared : Outside (fun p => store_dir root ++ [k] <+: p) t
      (if (nodeAt t (store_dir root ++ [k])).isSome then removeAll t (store_dir root ++ [k]) else t) ∧
      nodeAt (if (nodeAt t (store_dir root ++ [k])).isSome then removeAll t (store_dir root ++ [k])
        else t) (store_dir root ++ [k]) = none := by
    split
    · refine ⟨removeAll_outside _ _, ?_⟩
      rw [nodeAt_removeAll, if_pos List.prefix_rfl]
    · next hnone => exact ⟨.refl _ t, by simpa using hnone⟩
  generalize (if (nodeAt t (store_dir root ++ [k])).isSome then removeAll t (store_dir root ++ [k])
    else t) = t₁ at cleared ⊢
  obtain ⟨outside, hnone⟩ := cleared
  have above := above_of_outside outside ha
  obtain ⟨t₂, hmade⟩ := createDirs_store above hnone
  rw [hmade]
  dsimp only
  have made := outside.trans (created_outside above hmade)
  have node : nodeAt t₂ (store_dir root ++ [k]) = some .dir := by
    have nodes := (createDirAll_spec hmade).made
    rcases hs : store_dir root ++ [k] with _ | ⟨c, cs⟩
    · simp at hs
    · have last := nodes c cs (by rw [hs])
      exact last
  unfold copy_dir_filtered
  split
  · refine ⟨made.trans (write_outside _ _ _), ?_⟩
    dsimp only
    rw [nodeAt_write_self _ _ _ fun e he => mem_copied he]
    exact node
  · exact ⟨made, node⟩

/-- The index is written, and nothing else. -/
theorem save_to_spec (ha : Above root t) (packages : List InstalledPlugin) :
    save_to root t packages =
      (put t (installed root) (.file (.index (sorted packages))), true) := by
  have made : createDirAll t root = some t := by
    apply createDirs_of_made
    intro c cs hc
    exact ha c cs (hc.trans (List.prefix_append _ _))
  unfold save_to
  rw [made]

theorem clean_clone_aside {spec : Text} (hstaged : Stages root w spec staged) :
    Aside root t (clean_clone t staged) := by
  unfold clean_clone
  split
  · next hgit =>
    cases hstaged with
    | local_ _ hsource _ =>
      obtain ⟨rest, hrest⟩ := hsource
      rw [← hrest] at hgit
      rcases hgit with ⟨other, hother⟩ | ⟨other, hother⟩
      · cases hother
      · cases hother
    | clone hdir _ => exact aside_below_git hdir (removeAll_outside t staged.dir)
  · exact .refl t

end Phases

end Zshrs.Pkg
