import Zshrs.Pkg.Pinned
import Zshrs.Pkg.SourceLabels

namespace Zshrs.Pkg

open Lib.FileTree

/-- A URL, as `scheme://authority/path`, without a path or in the short SSH form `authority:path`. -/
inductive Url
  | full (scheme authority path : Text)
  | bare (scheme authority : Text)
  | ssh (authority path : Text)

def Url.text : Url → Text
  | full scheme authority path => scheme ++ ':' :: '/' :: '/' :: authority ++ '/' :: path
  | bare scheme authority => scheme ++ ':' :: '/' :: '/' :: authority
  | ssh authority path => authority ++ ':' :: path

/-- User and host are all that may have an `@`. -/
def Url.WellFormed : Url → Prop
  | full _ _ path => '@' ∉ path
  | bare _ authority => '/' ∉ authority
  | ssh authority path => '/' ∉ authority ∧ '@' ∉ path

def LocalForm (s : Text) : Prop :=
  pathSpec <+: s ∨ ['/'] <+: s ∨ ['.', '/'] <+: s ∨ ['.', '.', '/'] <+: s ∨ ['~'] <+: s

/-- The forms of a source to be cloned. -/
inductive Base
  | shorthand (owner repo : Text)
  | github (owner repo : Text)
  | git (u : Url)
  | url (u : Url)

def Base.text : Base → Text
  | shorthand owner repo => owner ++ '/' :: repo
  | github owner repo => githubPrefix ++ (owner ++ '/' :: repo)
  | git u => gitPrefix ++ u.text
  | url u => u.text

def Base.WellFormed : Base → Prop
  | shorthand owner repo => '@' ∉ repo ∧ ¬ LocalForm (owner ++ '/' :: repo)
  | github _ repo => '@' ∉ repo
  | git u => u.WellFormed
  | url u => u.WellFormed ∧ ¬ LocalForm u.text

/-- What a user means by a spec. -/
inductive Reading
  | pinned (base : Base) (git_ref : Text)
  | plain (base : Base)
  | path (p : Text)

def Reading.spec : Reading → Text
  | pinned base git_ref => base.text ++ '@' :: git_ref
  | plain base => base.text
  | path p => p

def Reading.split : Reading → Text × Option Text
  | pinned base git_ref => (base.text, some git_ref)
  | plain base => (base.text, none)
  | path p => (p, none)

def Reading.WellFormed : Reading → Prop
  | pinned base git_ref => base.WellFormed ∧ git_ref ≠ []
  | plain base => base.WellFormed
  | path p => LocalForm p

variable (root : Path) (w : World) (t : Files)

/-- What is recorded for a spec is its label, and a spec of the same source. -/
def RoundTrips (spec : Text) : Prop :=
  ∀ s, (resolve root w t spec).2 = some s → source_label w spec = some s.source ∧
    ∃ d, decompose w t spec = some d ∧ d.label = s.source ∧ decompose w t (source_to_spec s.source) = some d

/-- The spec is split as it is meant, and its source is found again from what is recorded. -/
def Reading.Kept (r : Reading) : Prop := split_ref r.spec = r.split ∧ RoundTrips root w t r.spec

def Url.Guarded : Url → Prop
  | full _ _ _ => True
  | bare _ authority => ¬ TakesRef authority
  | ssh authority path => '@' ∈ authority → '/' ∈ path

/-- No `@` stands where the last one is taken for a ref, and one that is meant so stands there. A directory whose
path is no UTF-8 displays as a path that leads back to it. -/
def Reading.Clear : Reading → Prop
  | pinned _ git_ref => '/' ∉ git_ref ∧ '@' ∉ git_ref
  | plain (.git u) => u.Guarded
  | plain (.url u) => u.Guarded
  | plain _ => True
  | path p => ¬ TakesRef p ∧ ∀ dir, directory w t p = some dir →
      ¬ TakesRef (display dir) ∧ (Lib.Utf8.valid (path_text dir) = true ∨ LeadsBack w dir)

theorem takesRef_behind_slash (a p : Text) : TakesRef (a ++ '/' :: p) ↔ TakesRef p := by
  constructor
  · rintro ⟨x, y, heq, hy, hslash, hat⟩
    rcases List.append_eq_append_iff.mp heq with ⟨u, rfl, hp⟩ | ⟨u, rfl, hy'⟩
    · cases u with
      | nil => cases (List.cons.inj hp).1
      | cons c u => exact ⟨u, y, (List.cons.inj hp).2, hy, hslash, hat⟩
    · cases u with
      | nil => cases (List.cons.inj hy').1
      | cons c u =>
          rw [(List.cons.inj hy').2] at hslash
          simp at hslash
  · intro htakes
    have hext := htakes.append (a ++ ['/'])
    rw [List.append_assoc] at hext
    exact hext

theorem not_takesRef_of_slash {a p : Text} (h : '@' ∉ p) : ¬ TakesRef (a ++ '/' :: p) := by
  rw [takesRef_behind_slash]
  rintro ⟨x, y, rfl, -⟩
  simp at h

theorem takesRef_ssh {a p : Text} (ha : '/' ∉ a) (hp : '@' ∉ p) :
    TakesRef (a ++ ':' :: p) ↔ '@' ∈ a ∧ '/' ∉ p := by
  constructor
  · rintro ⟨x, y, heq, -, hslash, -⟩
    rcases List.append_eq_append_iff.mp heq with ⟨u, rfl, hrest⟩ | ⟨u, rfl, hy⟩
    · cases u with
      | nil => cases (List.cons.inj hrest).1
      | cons c u =>
          rw [(List.cons.inj hrest).2] at hp
          simp at hp
    · cases u with
      | nil => cases (List.cons.inj hy).1
      | cons c u =>
          obtain ⟨rfl, rfl⟩ := List.cons.inj hy
          refine ⟨by simp, fun h => hslash ?_⟩
          simp [h]
  · rintro ⟨hat, hslash⟩
    obtain ⟨x, y, rfl, hy⟩ := exists_last hat
    refine ⟨x, y ++ ':' :: p, by simp, by simp, ?_, ?_⟩
    · simp only [List.mem_append, List.mem_cons, not_or] at ha ⊢
      exact ⟨ha.2.2, by decide, hslash⟩
    · simp only [List.mem_append, List.mem_cons, not_or]
      exact ⟨hy, by decide, hp⟩

theorem Url.takesRef_iff {u : Url} (h : u.WellFormed) : TakesRef u.text ↔ ¬ u.Guarded := by
  cases u with
  | full scheme authority path =>
      have hno : ¬ TakesRef (Url.full scheme authority path).text := not_takesRef_of_slash h
      simp [hno, Url.Guarded]
  | bare scheme authority =>
      have hbehind := takesRef_behind_slash (scheme ++ [':', '/']) authority
      rw [List.append_assoc] at hbehind
      rw [Url.Guarded, not_not]
      exact hbehind
  | ssh authority path =>
      rw [Url.text, takesRef_ssh h.1 h.2, Url.Guarded, Classical.not_imp]

/-- A form without a ref is split if and only if it is a URL of a user and no slash stands behind the user. -/
theorem plain_clear_iff {b : Base} (h : b.WellFormed) : (Reading.plain b).Clear w t ↔ ¬ TakesRef b.text := by
  cases b with
  | shorthand owner repo => exact iff_of_true trivial (not_takesRef_of_slash h.1)
  | github owner repo =>
      refine iff_of_true trivial fun htakes => ?_
      exact not_takesRef_of_slash (p := repo) h (htakes.of_append (by decide))
  | git u =>
      have hpre : TakesRef (gitPrefix ++ u.text) ↔ TakesRef u.text :=
        ⟨fun h => h.of_append (by decide), TakesRef.append gitPrefix⟩
      rw [Base.text, hpre, u.takesRef_iff h, not_not]
      rfl
  | url u =>
      rw [Base.text, u.takesRef_iff h.1, not_not]
      rfl

theorem local_path_eq_none_iff {home : Option OsText} {s : Text} : local_path home s = none ↔ ¬ LocalForm s := by
  cases hspec : strip_prefix pathSpec s with
  | some rest =>
      have hpre : pathSpec <+: s := ⟨rest, (eq_append_of_stripped hspec).symm⟩
      simp [local_path, LocalForm, hspec, hpre]
  | none =>
      have hpre : ¬ pathSpec <+: s := by
        rintro ⟨rest, rfl⟩
        rw [strip_prefix_append] at hspec
        cases hspec
      have hform : LocalForm s ↔ ['/'] <+: s ∨ ['.', '/'] <+: s ∨ ['.', '.', '/'] <+: s ∨ ['~'] <+: s :=
        or_iff_right hpre
      rw [hform]
      simp only [local_path, hspec]
      by_cases h : ['/'] <+: s ∨ ['.', '/'] <+: s ∨ ['.', '.', '/'] <+: s ∨ ['~'] <+: s
      · rw [if_pos h]
        cases strip_prefix ['~', '/'] s <;> cases home <;> simp [h]
      · rw [if_neg h]
        exact iff_of_true rfl h

theorem Base.local_path_none {b : Base} (h : b.WellFormed) : local_path w.home b.text = none := by
  cases b with
  | shorthand owner repo => exact local_path_eq_none_iff.mpr h.2
  | github owner repo => exact Pkg.local_path_none (Or.inr (List.prefix_append _ _))
  | git u => exact Pkg.local_path_none (Or.inl (List.prefix_append _ _))
  | url u => exact local_path_eq_none_iff.mpr h.2

theorem split_ref_none_iff {s : Text} : split_ref s = (s, none) ↔ ¬ TakesRef s := by
  constructor
  · rintro h ⟨a, b, rfl, hb, hslash, hat⟩
    rw [split_ref_append hb hslash hat] at h
    cases (Prod.mk.inj h).2
  · exact split_ref_none

theorem split_ref_pinned_iff {a b : Text} (hb : b ≠ []) :
    split_ref (a ++ '@' :: b) = (a, some b) ↔ '/' ∉ b ∧ '@' ∉ b := by
  constructor
  · intro h
    rcases split_ref_cases (a ++ '@' :: b) with ⟨a', b', -, -, hslash, hat, heq⟩ | ⟨-, heq⟩
    · cases h.symm.trans heq
      exact ⟨hslash, hat⟩
    · cases (Prod.mk.inj (h.symm.trans heq)).2
  · rintro ⟨hslash, hat⟩
    exact split_ref_append hb hslash hat

variable {root w t}

theorem roundTrips_git {spec : Text} (h : local_path w.home (split_ref spec).1 = none) :
    RoundTrips root w t spec := by
  intro s hs
  obtain ⟨d, hd, -, hlabel⟩ := resolve_decompose hs
  obtain ⟨hsource, hback⟩ := git_round_trip h hd
  rw [hlabel] at hsource hback
  exact ⟨hsource, d, hd, hlabel, hback⟩

/-- A reading of a source to be cloned is kept as soon as its spec is split as it is meant. -/
theorem kept_git_iff {r : Reading} (h : local_path w.home r.split.1 = none) :
    r.Kept root w t ↔ split_ref r.spec = r.split := by
  constructor
  · exact fun hkept => hkept.1
  · intro hsplit
    exact ⟨hsplit, roundTrips_git (by rw [hsplit]; exact h)⟩

theorem resolve_directory {spec : Text} {p : OsText} {dir : Path} (hlocal : local_path w.home (split_ref spec).1 = some p)
    (hdir : directory w t (split_ref spec).1 = some dir) :
    (resolve root w t spec).2 = some ⟨dir, basename dir, pathPrefix ++ display dir⟩ := by
  rw [directory, hlocal, Option.bind_some] at hdir
  obtain ⟨hcanon, his⟩ := Option.filter_eq_some_iff.mp hdir
  rw [resolve]
  simp only [hlocal, hcanon]
  rw [if_pos his]

/-- A path of UTF-8 is what it displays as. -/
theorem os_display {dir : Path} (h : Lib.Utf8.valid (path_text dir) = true) : os (display dir) = path_text dir := by
  obtain ⟨cs, hcs⟩ := Lib.Utf8.valid_iff.mp h
  rw [display, ← hcs]
  exact congrArg os (lossy_os cs)

theorem kept_path_iff (hcanon : ∀ p dir, w.canonicalize p = some dir → w.canonicalize (path_text dir) = some dir)
    {p : Text} (hp : LocalForm p) : (Reading.path p).Kept root w t ↔ (Reading.path p).Clear w t := by
  obtain ⟨q, hq⟩ := Option.ne_none_iff_exists'.mp (fun h => local_path_eq_none_iff.mp h hp : local_path w.home p ≠ none)
  have hcanonical : ∀ dir, directory w t p = some dir → w.canonicalize q = some dir := by
    intro dir hdir
    rw [directory, hq, Option.bind_some] at hdir
    exact (Option.filter_eq_some_iff.mp hdir).1
  constructor
  · rintro ⟨hsplit, hkept⟩
    have hno : ¬ TakesRef p := split_ref_none_iff.mp hsplit
    refine ⟨hno, ?_⟩
    intro dir hdir
    have hresolve := @resolve_directory root w t p q dir (by rw [split_ref_none hno]; exact hq)
      (by rw [split_ref_none hno]; exact hdir)
    obtain ⟨-, d, hd, -, hback⟩ := hkept _ hresolve
    obtain ⟨hplain, hleads⟩ := (local_round_trip hno hq hdir).mp (hback.trans hd.symm)
    exact ⟨hplain, Or.inr hleads⟩
  · rintro ⟨hno, hdirs⟩
    have hsplit := split_ref_none hno
    refine ⟨hsplit, ?_⟩
    intro s hs
    obtain ⟨d, hd, -, hlabel⟩ := resolve_decompose hs
    have hd' : decompose w t p = some d := hd
    rw [decompose_local (p := q) (by rw [hsplit]; exact hq), hsplit] at hd'
    obtain ⟨dir, hdir, rfl⟩ := Option.map_eq_some_iff.mp hd'
    obtain ⟨hplain, hpath⟩ := hdirs dir hdir
    have hleads : LeadsBack w dir := by
      rcases hpath with hvalid | hleads
      · rw [LeadsBack, os_display hvalid]
        exact hcanon q dir (hcanonical dir hdir)
      · exact hleads
    have hback := (local_round_trip hno hq hdir).mpr ⟨hplain, hleads⟩
    rw [← hlabel]
    refine ⟨?_, _, hd, rfl, hback.trans hd⟩
    simp only [source_label, Reading.spec, hsplit, hq, hcanonical dir hdir]
    rfl

/-- Every source that is cloned is found again from its label. A spec is also split as it is meant, and a local
one found again, if and only if its ref has neither a slash nor an `@`, behind the user of its URL stands a
slash, no `@` with something behind it stands in the last part of its path or of its directory, and what the
directory displays as leads back to it (as it does where its path is UTF-8). -/
theorem sources_kept_iff
    (hcanon : ∀ p dir, w.canonicalize p = some dir → w.canonicalize (path_text dir) = some dir) :
    (∀ spec, local_path w.home (split_ref spec).1 = none → RoundTrips root w t spec) ∧
      ∀ r : Reading, r.WellFormed → (r.Kept root w t ↔ r.Clear w t) := by
  refine ⟨fun spec h => roundTrips_git h, ?_⟩
  intro r hr
  cases r with
  | pinned base git_ref =>
      rw [kept_git_iff (base.local_path_none w hr.1)]
      exact split_ref_pinned_iff hr.2
  | plain base =>
      rw [kept_git_iff (base.local_path_none w hr), plain_clear_iff w t hr]
      exact split_ref_none_iff
  | path p => exact kept_path_iff hcanon hr

section Specs

/-- A machine with the one directory `/s`. -/
def oneDirectory : World :=
  { scripted ['s'] ['1'] with
    canonicalize := fun p => if p = os ['/', 's'] then some [os ['s']] else none }

theorem path_reading_kept : (Reading.path ['/', 's']).Kept [os ['r']] oneDirectory machine := by
  have hform : LocalForm ['/', 's'] := Or.inr (Or.inl (List.prefix_append ['/'] ['s']))
  have hdir : directory oneDirectory machine ['/', 's'] = some [os ['s']] := by decide
  have hno : ¬ TakesRef ['/', 's'] := split_ref_none_iff.mp (by decide)
  have htext : path_text [os ['s']] = os ['/', 's'] := by decide
  refine ((sources_kept_iff ?_).2 (Reading.path ['/', 's']) hform).mpr ⟨hno, ?_⟩
  · intro p dir h
    have hone : (if p = os ['/', 's'] then some [os ['s']] else none) = some dir := h
    split at hone
    · cases hone
      show (if path_text [os ['s']] = os ['/', 's'] then some [os ['s']] else none) = _
      rw [if_pos htext]
    · cases hone
  · intro dir h
    cases hdir.symm.trans h
    have hvalid : Lib.Utf8.valid (path_text [os ['s']]) = true :=
      Lib.Utf8.valid_iff.mpr ⟨['/', 's'], htext.symm⟩
    have hdisplay : display [os ['s']] = ['/', 's'] := os_injective ((os_display hvalid).trans htext)
    refine ⟨?_, Or.inl hvalid⟩
    rw [hdisplay]
    exact hno

def sshReading : Reading :=
  .plain (.url (.ssh ['g', 'i', 't', '@', 'h', 'o', 's', 't'] ['r', 'e', 'p', 'o', '.', 'g', 'i', 't']))

/-- `git@host:repo.git` is split at its user. -/
theorem ssh_reading_not_kept : sshReading.WellFormed ∧ ¬ sshReading.Kept [os ['r']] oneDirectory machine := by
  have hsplit : split_ref sshReading.spec =
      (['g', 'i', 't'], some ['h', 'o', 's', 't', ':', 'r', 'e', 'p', 'o', '.', 'g', 'i', 't']) := by decide
  refine ⟨⟨⟨by decide, by decide⟩, local_path_eq_none_iff.mp (by decide : local_path none sshReading.spec = none)⟩, ?_⟩
  rintro ⟨hmeant, -⟩
  rw [hsplit] at hmeant
  cases hmeant

end Specs

end Zshrs.Pkg
