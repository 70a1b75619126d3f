import Zshrs.Pkg.Commands

namespace Zshrs.Pkg

open Lib.FileTree

section Paths

variable {p : Path} {c : Text}

theorem os_injective {a b : Text} (h : os a = os b) : a = b := Lib.Utf8.encode_injective h

theorem lossy_os (s : Text) : to_string_lossy (os s) = s := Lib.Utf8.lossy_encode s

theorem walk_plain (h : c ≠ []) (h1 : c ≠ ['.']) (h2 : c ≠ ['.', '.']) : walk p c = p ++ [os c] := by
  unfold walk
  rw [if_neg (by simp [h, h1]), if_neg h2]

/-- A text without a slash is one component. -/
theorem join_single (h : '/' ∉ c) : join p c = walk p c := by
  have relative : c.head? ≠ some '/' := by
    intro hc
    cases c with
    | nil => cases hc
    | cons a c =>
      cases hc
      exact h List.mem_cons_self
  unfold join
  rw [if_neg relative, List.splitOn_eq_singleton h]
  rfl

theorem at_mem_key (name version : Text) : '@' ∈ key name version :=
  List.mem_append_right _ List.mem_cons_self

theorem ne_of_at {d : Text} (h : '@' ∈ c) (hd : '@' ∉ d) : c ≠ d := fun hcd => hd (hcd ▸ h)

theorem package_dir_plain (root : Path) {name version : Text} (hn : '/' ∉ name)
    (hv : '/' ∉ version) : package_dir root name version = store_dir root ++ [os (key name version)] := by
  have plain : '/' ∉ key name version := by
    unfold key
    simp [hn, hv]
  have hat := at_mem_key name version
  unfold package_dir
  rw [join_single plain]
  exact walk_plain (List.ne_nil_of_mem hat) (ne_of_at hat (by decide)) (ne_of_at hat (by decide))

/-- Of the names in a directory one only leads to a path. -/
theorem sub_unique {d q : Path} {a b : OsText} (ha : d ++ [a] <+: q) (hb : d ++ [b] <+: q) : a = b := by
  obtain ⟨r, rfl⟩ := ha
  obtain ⟨s, hs⟩ := hb
  rw [List.append_assoc, List.append_assoc] at hs
  have tails := List.append_cancel_left hs
  injection tails with head
  exact head.symm

theorem longer {d q : Path} {a : OsText} (h : d ++ [a] <+: q) : ¬ q <+: d := by
  intro hq
  have length := (h.trans hq).length_le
  rw [List.length_append, List.length_singleton] at length
  omega

end Paths

variable (root : Path)

/-- Strictly below `store/`. -/
def InStore (p : Path) : Prop := store_dir root <+: p ∧ p ≠ store_dir root

/-- At or below `git/`, `cache/` or `bin/`. -/
def Scratch (p : Path) : Prop := git_dir root <+: p ∨ cache_dir root <+: p ∨ bin_dir root <+: p

/-- What a command may do: anything below `store/` and in the scratch directories, and besides make
the layout itself and write the index. -/
def Confined (t t' : Files) : Prop :=
  ∀ p, nodeAt t' p = nodeAt t p ∨ InStore root p ∨ Scratch root p ∨
    (p <+: store_dir root ∧ nodeAt t p = none ∧ nodeAt t' p = some .dir) ∨
    (p = installed root ∧ ∃ packages, nodeAt t' p = some (.file (.index packages)))

/-- Steps that leave the index and what is below `store/` as they are. -/
def Aside (t t' : Files) : Prop :=
  ∀ p, nodeAt t' p = nodeAt t p ∨ Scratch root p ∨
    (p <+: store_dir root ∧ nodeAt t p = none ∧ nodeAt t' p = some .dir)

variable {root} {t t' t'' : Files} {p : Path} {k : OsText}

theorem not_scratch (h : store_dir root <+: p) : ¬ Scratch root p := by
  rintro (hs | hs | hs)
  · exact absurd (sub_unique h hs) (by decide)
  · exact absurd (sub_unique h hs) (by decide)
  · exact absurd (sub_unique h hs) (by decide)

theorem not_scratch_upto (h : p <+: store_dir root) : ¬ Scratch root p := by
  rintro (hs | hs | hs)
  · exact absurd (sub_unique (hs.trans h) List.prefix_rfl) (by decide)
  · exact absurd (sub_unique (hs.trans h) List.prefix_rfl) (by decide)
  · exact absurd (sub_unique (hs.trans h) List.prefix_rfl) (by decide)

theorem not_scratch_installed : ¬ Scratch root (installed root) := by
  rintro (hs | hs | hs)
  · exact absurd (sub_unique hs List.prefix_rfl) (by decide)
  · exact absurd (sub_unique hs List.prefix_rfl) (by decide)
  · exact absurd (sub_unique hs List.prefix_rfl) (by decide)

theorem installed_not_store : ¬ store_dir root <+: installed root := fun h =>
  absurd (sub_unique h List.prefix_rfl) (by decide)

theorem installed_not_layout : ¬ installed root <+: store_dir root := fun h =>
  absurd (sub_unique h List.prefix_rfl) (by decide)

namespace Confined

theorem refl (t : Files) : Confined root t t := fun _ => .inl rfl

theorem trans (h : Confined root t t') (h' : Confined root t' t'') : Confined root t t'' := by
  intro p
  rcases h' p with same' | inStore | scratch | ⟨hp, hnone', hdir'⟩ | index
  · rcases h p with same | inStore | scratch | ⟨hp, hnone, hdir⟩ | ⟨hp, packages, hindex⟩
    · exact .inl (same'.trans same)
    · exact .inr (.inl inStore)
    · exact .inr (.inr (.inl scratch))
    · exact .inr (.inr (.inr (.inl ⟨hp, hnone, same'.trans hdir⟩)))
    · exact .inr (.inr (.inr (.inr ⟨hp, packages, same'.trans hindex⟩)))
  · exact .inr (.inl inStore)
  · exact .inr (.inr (.inl scratch))
  · rcases h p with same | inStore | scratch | ⟨-, -, hdir⟩ | ⟨-, packages, hindex⟩
    · exact .inr (.inr (.inr (.inl ⟨hp, same ▸ hnone', hdir'⟩)))
    · exact .inr (.inl inStore)
    · exact .inr (.inr (.inl scratch))
    · rw [hdir] at hnone'
      cases hnone'
    · rw [hindex] at hnone'
      cases hnone'
  · exact .inr (.inr (.inr (.inr index)))

theorem of_aside (h : Aside root t t') : Confined root t t' := by
  intro p
  rcases h p with same | scratch | layout
  · exact .inl same
  · exact .inr (.inr (.inl scratch))
  · exact .inr (.inr (.inr (.inl layout)))

theorem of_outside (h : Outside (fun p => store_dir root ++ [k] <+: p) t t') :
    Confined root t t' := by
  intro p
  by_cases hp : store_dir root ++ [k] <+: p
  · right
    left
    refine ⟨(List.prefix_append _ _).trans hp, ?_⟩
    rintro rfl
    exact longer hp List.prefix_rfl
  · exact .inl (h p hp)

end Confined

namespace Aside

theorem refl (t : Files) : Aside root t t := fun _ => .inl rfl

theorem trans (h : Aside root t t') (h' : Aside root t' t'') : Aside root t t'' := by
  intro p
  rcases h' p with same' | scratch | ⟨hp, hnone', hdir'⟩
  · rcases h p with same | scratch | ⟨hp, hnone, hdir⟩
    · exact .inl (same'.trans same)
    · exact .inr (.inl scratch)
    · exact .inr (.inr ⟨hp, hnone, same'.trans hdir⟩)
  · exact .inr (.inl scratch)
  · rcases h p with same | scratch | ⟨-, -, hdir⟩
    · exact .inr (.inr ⟨hp, same ▸ hnone', hdir'⟩)
    · exact .inr (.inl scratch)
    · rw [hdir] at hnone'
      cases hnone'

theorem of_outside (h : Outside (Scratch root) t t') : Aside root t t' := by
  intro p
  by_cases hp : Scratch root p
  · exact .inr (.inl hp)
  · exact .inl (h p hp)

theorem store (h : Aside root t t') (hp : store_dir root ++ [k] <+: p) :
    nodeAt t' p = nodeAt t p := by
  rcases h p with same | scratch | ⟨layout, -⟩
  · exact same
  · exact absurd scratch (not_scratch ((List.prefix_append _ _).trans hp))
  · exact absurd layout (longer hp)

theorem index (h : Aside root t t') : load_from root t' = load_from root t := by
  have same : nodeAt t' (installed root) = nodeAt t (installed root) := by
    rcases h (installed root) with same | scratch | ⟨layout, -⟩
    · exact same
    · exact absurd scratch not_scratch_installed
    · exact absurd layout installed_not_layout
  unfold load_from
  rw [same]

end Aside

/-- The directories down to `store/` are there. -/
def Above (root : Path) (t : Files) : Prop :=
  ∀ c cs, c :: cs <+: store_dir root → nodeAt t (c :: cs) = some .dir

theorem Aside.above (h : Aside root t t') (ha : Above root t) : Above root t' := by
  intro c cs hc
  rcases h (c :: cs) with same | scratch | ⟨-, hnone, -⟩
  · exact same.trans (ha c cs hc)
  · exact absurd scratch (not_scratch_upto hc)
  · rw [ha c cs hc] at hnone
    cases hnone

theorem above_of_outside (h : Outside (fun p => store_dir root ++ [k] <+: p) t t')
    (ha : Above root t) : Above root t' := by
  intro c cs hc
  rw [h (c :: cs) fun hp => longer hp hc]
  exact ha c cs hc

section Layout

def layout (root : Path) : List Path :=
  [store_dir root, cache_dir root, git_dir root, bin_dir root]

/-- A part of the layout is a scratch directory, or on the way to `store/`. -/
theorem prefix_layout {d : Path} (hd : d ∈ layout root) (hp : p <+: d) :
    Scratch root p ∨ p <+: store_dir root := by
  have upTo {name : OsText} (h : p <+: root ++ [name]) : p = root ++ [name] ∨ p <+: store_dir root := by
    rcases List.prefix_concat_iff.mp h with same | above
    · exact .inl same
    · exact .inr (above.trans (List.prefix_append _ _))
  simp only [layout, List.mem_cons, List.not_mem_nil, or_false] at hd
  rcases hd with rfl | rfl | rfl | rfl
  · exact .inr hp
  · rcases upTo hp with rfl | h
    · exact .inl (.inr (.inl List.prefix_rfl))
    · exact .inr h
  · rcases upTo hp with rfl | h
    · exact .inl (.inl List.prefix_rfl)
    · exact .inr h
  · rcases upTo hp with rfl | h
    · exact .inl (.inr (.inr List.prefix_rfl))
    · exact .inr h

theorem aside_created {d : Path} (hd : d ∈ layout root) (h : createDirAll t d = some t') :
    Aside root t t' := by
  intro p
  rcases (createDirAll_spec h).kept p with same | ⟨⟨c, cs, hcs, rfl⟩, hnone, hdir⟩
  · exact .inl same
  · rcases prefix_layout hd hcs with scratch | above
    · exact .inr (.inl scratch)
    · exact .inr (.inr ⟨above, hnone, hdir⟩)

theorem aside_layout (ds : List Path) (hds : ∀ d ∈ ds, d ∈ layout root) (r : Files × Bool) :
    Aside root r.1 (ds.foldl createNext r).1 := by
  induction ds generalizing r with
  | nil => exact .refl r.1
  | cons d ds ih =>
    have rest := ih (fun d hd => hds d (List.mem_cons_of_mem _ hd)) (createNext r d)
    refine Aside.trans ?_ rest
    unfold createNext
    split
    · split
      · next t heq => exact aside_created (hds d List.mem_cons_self) heq
      · exact .refl r.1
    · exact .refl r.1

theorem failed_layout (ds : List Path) (t : Files) : ds.foldl createNext (t, false) = (t, false) := by
  induction ds with
  | nil => rfl
  | cons d ds ih => exact ih

theorem ensure_layout_aside (root : Path) (t : Files) : Aside root t (ensure_layout root t).1 :=
  aside_layout _ (fun _ hd => hd) (t, true)

theorem ensure_layout_above (h : (ensure_layout root t).2 = true) :
    Above root (ensure_layout root t).1 := by
  have rest := @aside_layout root [cache_dir root, git_dir root, bin_dir root]
    (fun d hd => List.mem_cons_of_mem _ hd) (createNext (t, true) (store_dir root))
  have unfolded : ensure_layout root t = [cache_dir root, git_dir root, bin_dir root].foldl
      createNext (createNext (t, true) (store_dir root)) := rfl
  rw [unfolded] at h ⊢
  apply rest.above
  cases heq : createDirAll t (store_dir root) with
  | some t₁ =>
    have made : createNext (t, true) (store_dir root) = (t₁, true) := by
      unfold createNext
      rw [if_pos rfl, heq]
    rw [made]
    intro c cs hc
    exact (createDirAll_spec heq).made c cs hc
  | none =>
    have failed : createNext (t, true) (store_dir root) = (t, false) := by
      unfold createNext
      rw [if_pos rfl, heq]
    rw [failed, failed_layout] at h
    cases h

end Layout

end Zshrs.Pkg
