import Zshrs.Pkg.SourceForms

namespace Zshrs.Pkg

open Lib.FileTree

/-- Where the tree of a source comes from. -/
inductive Place
  | dir (d : Path)
  | clone (url : Text)
  deriving DecidableEq

/-- What a spec says before anything is fetched. -/
structure Source where
  place : Place
  name : Text
  git_ref : Option Text
  label : Text
  deriving DecidableEq

section Decompose

variable (w : World) (t : Files)

/-- The existing directory of a local path. -/
def directory (path : Text) : Option Path :=
  ((local_path w.home path).bind w.canonicalize).filter fun dir => is_dir t dir

/-- A spec taken apart by `split_ref`, `local_path` and `git_url`. -/
def decompose (spec : Text) : Option Source :=
  let (base, git_ref) := split_ref spec
  match local_path w.home base with
  | some _ => (directory w t base).map fun dir =>
      ⟨.dir dir, basename dir, git_ref, pathPrefix ++ display dir⟩
  | none => (git_url base).map fun u => ⟨.clone u.1, u.2.2, git_ref, label_with_ref u.2.1 git_ref⟩

end Decompose

variable {root : Path} {w : World} {t : Files} {spec base : Text}

theorem decompose_local {p : OsText} (h : local_path w.home (split_ref spec).1 = some p) :
    decompose w t spec = (directory w t (split_ref spec).1).map fun dir =>
      ⟨.dir dir, basename dir, (split_ref spec).2, pathPrefix ++ display dir⟩ := by
  simp only [decompose, h]

theorem decompose_git (h : local_path w.home (split_ref spec).1 = none) :
    decompose w t spec = (git_url (split_ref spec).1).map fun u =>
      ⟨.clone u.1, u.2.2, (split_ref spec).2, label_with_ref u.2.1 (split_ref spec).2⟩ := by
  simp only [decompose, h]

/-- What is staged is recorded under the name and the label of the spec. -/
theorem resolve_decompose {s : Staged} (h : (resolve root w t spec).2 = some s) :
    ∃ d, decompose w t spec = some d ∧ d.name = s.name ∧ d.label = s.source := by
  rw [resolve] at h
  dsimp only at h
  cases hlocal : local_path w.home (split_ref spec).1 with
  | some p =>
      rw [decompose_local hlocal, directory, hlocal, Option.bind_some]
      simp only [hlocal] at h
      cases hdir : w.canonicalize p with
      | none =>
          rw [hdir] at h
          cases h
      | some dir =>
          simp only [hdir] at h
          by_cases his : is_dir t dir = true
          · rw [if_pos his] at h
            cases h
            exact ⟨_, by rw [Option.filter_some_pos his]; rfl, rfl, rfl⟩
          · rw [if_neg his] at h
            cases h
  | none =>
      rw [decompose_git hlocal]
      simp only [hlocal] at h
      cases hurl : git_url (split_ref spec).1 with
      | none =>
          rw [hurl] at h
          cases h
      | some u =>
          obtain ⟨url, label, name⟩ := u
          simp only [hurl] at h
          split at h
          · split at h
            · cases h
              exact ⟨_, rfl, rfl, rfl⟩
            · cases h
          · cases h

theorem strip_prefix_append (pre s : Text) : strip_prefix pre (pre ++ s) = some s := by
  rw [ strip_prefix, if_pos (List.prefix_append pre s), List.drop_left]

theorem eq_append_of_stripped {pre s rest : Text} (h : strip_prefix pre s = some rest) : s = pre ++ rest := by
  rw [ strip_prefix] at h
  split at h
  · rename_i hpre
    cases h
    exact (List.prefix_iff_eq_append.mp hpre).symm
  · cases h

theorem git_url_git (rest : Text) :
    git_url (gitPrefix ++ rest) = some (rest, gitPrefix ++ rest, repo_basename rest) := by
  simp only [git_url, strip_prefix_append]

theorem git_url_github (rest : Text) :
    git_url (githubPrefix ++ rest) = some (githubUrl ++ trim_end dotGit rest,
      githubPrefix ++ trim_end dotGit rest, repo_basename (githubUrl ++ trim_end dotGit rest)) := by
  have hgit : strip_prefix gitPrefix (githubPrefix ++ rest) = none := by
    simp [ strip_prefix, gitPrefix, githubPrefix]
  simp only [git_url, hgit, strip_prefix_append]

/-- The label of a git source is a spec of the same source. -/
theorem git_url_label {u : Text × Text × Text} (h : git_url base = some u) :
    git_url u.2.1 = some u ∧ (¬ TakesRef base → ¬ TakesRef u.2.1) ∧
      (gitPrefix <+: u.2.1 ∨ githubPrefix <+: u.2.1) := by
  have hat : '@' ∉ gitPrefix ∧ '@' ∉ githubPrefix := by decide
  -- a GitHub label, of a spec that has the trimmed path or ends with it
  have github : ∀ rest, (TakesRef rest → TakesRef base) →
      u = (githubUrl ++ trim_end dotGit rest, githubPrefix ++ trim_end dotGit rest,
        repo_basename (githubUrl ++ trim_end dotGit rest)) →
      git_url u.2.1 = some u ∧ (¬ TakesRef base → ¬ TakesRef u.2.1) ∧
        (gitPrefix <+: u.2.1 ∨ githubPrefix <+: u.2.1) := by
    rintro rest hrest rfl
    refine ⟨?_, ?_, Or.inr (List.prefix_append _ _)⟩
    · rw [git_url_github, trim_end_idem]
    · intro hno hlabel
      exact hno (hrest (TakesRef.of_trim_end (hlabel.of_append hat.2)))
  cases hgit : strip_prefix gitPrefix base with
  | some rest =>
      cases eq_append_of_stripped hgit
      rw [git_url_git] at h
      cases h
      exact ⟨git_url_git rest, fun hno => hno, Or.inl (List.prefix_append _ _)⟩
  | none =>
      cases hgithub : strip_prefix githubPrefix base with
      | some rest =>
          cases eq_append_of_stripped hgithub
          rw [git_url_github] at h
          exact github rest (TakesRef.append githubPrefix) (Option.some.inj h).symm
      | none =>
          simp only [git_url, hgit, hgithub] at h
          split at h
          · cases h
            refine ⟨git_url_git base, ?_, Or.inl (List.prefix_append _ _)⟩
            intro hno hlabel
            exact hno (hlabel.of_append hat.1)
          · split at h
            · exact github base id (Option.some.inj h).symm
            · cases h

theorem local_path_none {home : Option OsText} {s : Text} (h : gitPrefix <+: s ∨ githubPrefix <+: s) :
    local_path home s = none := by
  rcases h with ⟨rest, rfl⟩ | ⟨rest, rfl⟩ <;>
    simp [local_path, strip_prefix, pathSpec, gitPrefix, githubPrefix]

theorem source_to_spec_git {s : Text} (h : gitPrefix <+: s ∨ githubPrefix <+: s) : source_to_spec s = s := by
  rcases h with ⟨rest, rfl⟩ | ⟨rest, rfl⟩ <;>
    simp [source_to_spec, strip_prefix, pathPrefix, gitPrefix, githubPrefix]

theorem prefix_label_with_ref (label : Text) (git_ref : Option Text) : label <+: label_with_ref label git_ref := by
  cases git_ref with
  | none => exact List.prefix_rfl
  | some r => exact List.prefix_append label _

/-- A git source is found again from its label, whatever its spec. -/
theorem git_round_trip {d : Source} (hlocal : local_path w.home (split_ref spec).1 = none)
    (h : decompose w t spec = some d) :
    source_label w spec = some d.label ∧ decompose w t (source_to_spec d.label) = some d := by
  rw [decompose_git hlocal] at h
  obtain ⟨u, hu, rfl⟩ := Option.map_eq_some_iff.mp h
  obtain ⟨hlabel, hrefs, hkind⟩ := git_url_label hu
  constructor
  · simp only [source_label, hlocal, hu]
    rfl
  · have hsplit : split_ref (label_with_ref u.2.1 (split_ref spec).2) = (u.2.1, (split_ref spec).2) :=
      split_label rfl hrefs
    have hpre : gitPrefix <+: label_with_ref u.2.1 (split_ref spec).2 ∨
        githubPrefix <+: label_with_ref u.2.1 (split_ref spec).2 := by
      have hext := prefix_label_with_ref u.2.1 (split_ref spec).2
      exact hkind.imp (fun h => h.trans hext) (fun h => h.trans hext)
    dsimp only
    rw [source_to_spec_git hpre, decompose_git, hsplit]
    · rw [hlabel]
      rfl
    · rw [hsplit]
      exact local_path_none hkind

/-- The text that a directory displays as leads back to it. -/
def LeadsBack (w : World) (dir : Path) : Prop := w.canonicalize (os (display dir)) = some dir

/-- A local source is found again from its label if and only if nothing is split off what its directory displays
as, and that leads back to it. -/
theorem local_round_trip {p : OsText} {dir : Path} (hspec : ¬ TakesRef spec)
    (hlocal : local_path w.home spec = some p) (hdir : directory w t spec = some dir) :
    decompose w t (source_to_spec (pathPrefix ++ display dir)) = decompose w t spec ↔
      ¬ TakesRef (display dir) ∧ LeadsBack w dir := by
  have hd : decompose w t spec = some ⟨.dir dir, basename dir, none, pathPrefix ++ display dir⟩ := by
    have hsplit := split_ref_none hspec
    rw [decompose_local (p := p) (by rw [hsplit]; exact hlocal), hsplit, hdir]
    rfl
  have hback : source_to_spec (pathPrefix ++ display dir) = pathSpec ++ display dir := by
    simp only [source_to_spec, strip_prefix_append]
  have hlocal' : local_path w.home (pathSpec ++ display dir) = some (os (display dir)) := by
    simp only [local_path, strip_prefix_append]
  have hplain (hno : ¬ TakesRef (display dir)) : decompose w t (pathSpec ++ display dir) =
      (directory w t (pathSpec ++ display dir)).map fun dir =>
        ⟨.dir dir, basename dir, none, pathPrefix ++ display dir⟩ := by
    have hsplit : split_ref (pathSpec ++ display dir) = (pathSpec ++ display dir, none) := by
      apply split_ref_none
      intro htakes
      exact hno (htakes.of_append (by decide))
    rw [decompose_local (p := os (display dir)) (by rw [hsplit]; exact hlocal'), hsplit]
  rw [hback, hd]
  constructor
  · intro h
    have hno : ¬ TakesRef (display dir) := by
      intro htakes
      obtain ⟨a, b, heq, hb, hslash, hat⟩ := htakes.append pathSpec
      have hsplit := @split_ref_append a b hb hslash hat
      rw [← heq] at hsplit
      have hnone : ∀ d, decompose w t (pathSpec ++ display dir) = some d → d.git_ref = some b := by
        intro d hd
        simp only [decompose, hsplit] at hd
        split at hd
        · obtain ⟨_, _, rfl⟩ := Option.map_eq_some_iff.mp hd
          rfl
        · obtain ⟨_, _, rfl⟩ := Option.map_eq_some_iff.mp hd
          rfl
      cases hnone _ h
    refine ⟨hno, ?_⟩
    rw [hplain hno] at h
    obtain ⟨dir', hfound, heq⟩ := Option.map_eq_some_iff.mp h
    cases heq
    rw [directory, hlocal', Option.bind_some] at hfound
    exact (Option.filter_eq_some_iff.mp hfound).1
  · rintro ⟨hno, hleads⟩
    have his : is_dir t dir = true := (Option.filter_eq_some_iff.mp hdir).2
    have hfound : directory w t (pathSpec ++ display dir) = some dir := by
      rw [directory, hlocal', Option.bind_some, hleads, Option.filter_some_pos his]
    rw [hplain hno, hfound]
    rfl

end Zshrs.Pkg
