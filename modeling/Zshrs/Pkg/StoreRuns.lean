import Zshrs.Lib.Runs
import Zshrs.Pkg.Installs

namespace Zshrs.Pkg

open Lib.FileTree

section Index

variable {packages : List InstalledPlugin} {p e : InstalledPlugin}

theorem upsert_cons (a : InstalledPlugin) (packages : List InstalledPlugin) (p : InstalledPlugin) :
    upsert (a :: packages) p = if a.name = p.name then p :: packages else a :: upsert packages p := by
  unfold upsert
  rw [List.findIdx?_cons]
  by_cases h : a.name = p.name
  · simp [h]
  · rw [if_neg h]
    simp only [h, decide_false, Bool.false_eq_true, if_false]
    cases packages.findIdx? fun e => e.name = p.name with
    | none => rfl
    | some i => rfl

/-- Names that are written once are so after an insertion, which replaces the entry of its name. -/
theorem upsert_spec (h : (packages.map InstalledPlugin.name).Nodup) :
    ((upsert packages p).map InstalledPlugin.name).Nodup ∧
      ∀ e, e ∈ upsert packages p ↔ e = p ∨ (e ∈ packages ∧ e.name ≠ p.name) := by
  induction packages with
  | nil => simp [upsert]
  | cons a packages ih =>
    rw [List.map_cons, List.nodup_cons] at h
    obtain ⟨fresh, rest⟩ := h
    obtain ⟨nodup, mem⟩ := ih rest
    rw [upsert_cons]
    split
    · next heq =>
      refine ⟨?_, fun e => ?_⟩
      · rw [List.map_cons, List.nodup_cons, ← heq]
        exact ⟨fresh, rest⟩
      · rw [List.mem_cons, List.mem_cons]
        constructor
        · rintro (rfl | he)
          · exact .inl rfl
          · refine .inr ⟨.inr he, fun hname => fresh ?_⟩
            rw [heq, ← hname]
            exact List.mem_map_of_mem he
        · rintro (rfl | ⟨rfl | he, hne⟩)
          · exact .inl rfl
          · exact absurd heq hne
          · exact .inr he
    · next hne =>
      refine ⟨?_, fun e => ?_⟩
      · rw [List.map_cons, List.nodup_cons]
        refine ⟨fun hmem => ?_, nodup⟩
        obtain ⟨e, he, hname⟩ := List.mem_map.mp hmem
        rcases (mem e).mp he with rfl | ⟨he, -⟩
        · exact hne hname.symm
        · exact fresh (hname ▸ List.mem_map_of_mem he)
      · rw [List.mem_cons, mem e, List.mem_cons]
        constructor
        · rintro (rfl | rfl | ⟨he, hname⟩)
          · exact .inr ⟨.inl rfl, hne⟩
          · exact .inl rfl
          · exact .inr ⟨.inr he, hname⟩
        · rintro (rfl | ⟨rfl | he, hname⟩)
          · exact .inr (.inl rfl)
          · exact .inl rfl
          · exact .inr (.inr ⟨he, hname⟩)

theorem mem_sorted : e ∈ sorted packages ↔ e ∈ packages := (List.mergeSort_perm _ _).mem_iff

theorem nodup_sorted (h : (packages.map InstalledPlugin.name).Nodup) :
    ((sorted packages).map InstalledPlugin.name).Nodup :=
  ((List.mergeSort_perm _ _).map _).nodup_iff.mpr h

/-- What is left when the entry of a name is taken out. -/
theorem remove_entry_spec (h : (packages.map InstalledPlugin.name).Nodup) {name : Text}
    {rest : List InstalledPlugin} (hr : remove_entry packages name = some (p, rest)) :
    p ∈ packages ∧ p.name = name ∧ (rest.map InstalledPlugin.name).Nodup ∧
      ∀ e, e ∈ rest ↔ e ∈ packages ∧ e.name ≠ name := by
  obtain ⟨found, hfind, hpair⟩ := Option.map_eq_some_iff.mp hr
  cases hpair
  have hname : p.name = name := by simpa using List.find?_some hfind
  refine ⟨List.mem_of_find?_eq_some hfind, hname, ?_, fun e => ?_⟩
  · exact ((List.eraseP_sublist).map _).nodup h
  · clear hfind hr
    induction packages with
    | nil => simp
    | cons a packages ih =>
      rw [List.map_cons, List.nodup_cons] at h
      obtain ⟨fresh, nodup⟩ := h
      by_cases ha : a.name = name
      · rw [List.eraseP_cons_of_pos (by simpa using ha)]
        constructor
        · intro he
          refine ⟨List.mem_cons_of_mem _ he, fun hne => fresh ?_⟩
          rw [ha, ← hne]
          exact List.mem_map_of_mem he
        · rintro ⟨he, hne⟩
          rcases List.mem_cons.mp he with rfl | he
          · exact absurd ha hne
          · exact he
      · rw [List.eraseP_cons_of_neg (by simpa using ha), List.mem_cons, List.mem_cons, ih nodup]
        constructor
        · rintro (rfl | ⟨he, hne⟩)
          · exact ⟨.inl rfl, ha⟩
          · exact ⟨.inr he, hne⟩
        · rintro ⟨rfl | he, hne⟩
          · exact .inl rfl
          · exact .inr ⟨he, hne⟩

end Index

variable {root : Path} {w : World} {t t' : Files}

/-- What one installation does. -/
structure Added (root : Path) (w : World) (spec : Text) (t t' : Files) : Prop where
  confined : Confined root t t'
  others : ∀ k p, (∀ name version, chosen w spec = some (name, version) → k ≠ key name version) →
    store_dir root ++ [os k] <+: p → nodeAt t' p = nodeAt t p
  index : load_from root t' = load_from root t ∨
    ∃ packages e, chosen w spec = some (e.name, e.version) ∧ load_from root t = some packages ∧
      load_from root t' = some (sorted (upsert packages e)) ∧ Above root t' ∧
      nodeAt t' (store_dir root ++ [os e.key]) = some .dir
  above : Above root t → Above root t'
  standing : ∀ name version, chosen w spec = some (name, version) →
    nodeAt t (store_dir root ++ [os (key name version)]) = some .dir →
    nodeAt t' (store_dir root ++ [os (key name version)]) = some .dir

theorem Added.of_aside {spec : Text} (h : Aside root t t') : Added root w spec t t' where
  confined := .of_aside h
  others := fun _ _ _ hp => h.store hp
  index := .inl h.index
  above := h.above
  standing := fun _ _ _ hdir => (h.store List.prefix_rfl).trans hdir

theorem load_from_outside {k : OsText} (h : Outside (fun p => store_dir root ++ [k] <+: p) t t') :
    load_from root t' = load_from root t := by
  unfold load_from
  rw [h _ fun hp => installed_not_store ((List.prefix_append _ _).trans hp)]

/-- Behind the staging, the directory of the plugin is made. -/
theorem Added.of_install {spec name version : Text} {t₁ : Files} (staged : Aside root t t₁)
    (above : Above root t₁) (hc : chosen w spec = some (name, version))
    (outside : Outside (fun p => store_dir root ++ [os (key name version)] <+: p) t₁ t')
    (hdir : nodeAt t' (store_dir root ++ [os (key name version)]) = some .dir) :
    Added root w spec t t' where
  confined := (Confined.of_aside staged).trans (.of_outside outside)
  others := by
    intro k p hne hp
    rw [outside p fun hq => hne name version hc (os_injective (sub_unique hp hq)), staged.store hp]
  index := .inl ((load_from_outside outside).trans staged.index)
  above := fun _ => above_of_outside outside above
  standing := by
    intro name' version' hc' _
    rw [hc] at hc'
    cases hc'
    exact hdir

theorem load_from_put (packages : List InstalledPlugin) :
    load_from root (put t (installed root) (.file (.index packages))) = some packages := by
  unfold load_from
  rw [nodeAt_put, if_pos rfl]

theorem confined_put (packages : List InstalledPlugin) :
    Confined root t (put t (installed root) (.file (.index packages))) := by
  intro p
  by_cases hp : p = installed root
  · right; right; right; right
    refine ⟨hp, packages, ?_⟩
    rw [nodeAt_put, if_pos hp]
  · left
    rw [nodeAt_put, if_neg hp]

theorem nodeAt_put_store {k : OsText} {p : Path} (packages : List InstalledPlugin)
    (hp : store_dir root ++ [k] <+: p) :
    nodeAt (put t (installed root) (.file (.index packages))) p = nodeAt t p := by
  rw [nodeAt_put, if_neg]
  rintro rfl
  exact installed_not_store ((List.prefix_append _ _).trans hp)

theorem above_put (packages : List InstalledPlugin) (h : Above root t) :
    Above root (put t (installed root) (.file (.index packages))) := by
  intro c cs hc
  rw [nodeAt_put, if_neg]
  · exact h c cs hc
  · intro heq
    exact installed_not_layout (heq ▸ hc)

/-- The index is written, and what is left of a clone removed. -/
theorem Added.saved {spec : Text} {e : InstalledPlugin} {packages : List InstalledPlugin}
    {t₁ t₂ : Files} (h : Added root w spec t t₁) (above : Above root t₁)
    (hc : chosen w spec = some (e.name, e.version)) (hp : load_from root t₁ = some packages)
    (same : load_from root t₁ = load_from root t)
    (hdir : nodeAt t₁ (store_dir root ++ [os e.key]) = some .dir)
    (clean : Aside root (put t₁ (installed root) (.file (.index (sorted (upsert packages e))))) t₂) :
    Added root w spec t t₂ where
  confined := (h.confined.trans (confined_put _)).trans (.of_aside clean)
  others := by
    intro k p hne hk
    rw [clean.store hk, nodeAt_put_store _ hk, h.others k p hne hk]
  index := by
    right
    refine ⟨packages, e, hc, same ▸ hp, ?_, clean.above (above_put _ above), ?_⟩
    · rw [clean.index, load_from_put]
    · rw [clean.store List.prefix_rfl, nodeAt_put_store _ List.prefix_rfl]
      exact hdir
  above := fun _ => clean.above (above_put _ above)
  standing := by
    intro name version hc' hstands
    rw [clean.store List.prefix_rfl, nodeAt_put_store _ List.prefix_rfl]
    exact h.standing name version hc' hstands

theorem resolve_local {spec : Text} {dir : Path} (h : local_dir w spec = some dir) :
    (resolve root w t spec).1 = t := by
  unfold local_dir at h
  obtain ⟨p, hp, hdir⟩ := Option.bind_eq_some_iff.mp h
  unfold resolve
  dsimp only
  rw [hp]
  dsimp only
  rw [hdir]
  dsimp only
  split
  · rfl
  · rfl

theorem record_identity {staged : Staged} {name version : Text} {kind : PluginKind}
    {e : InstalledPlugin} (h : record root w t staged name version kind = some e) :
    e.name = name ∧ e.version = version := by
  cases kind with
  | script s =>
    cases h
    exact ⟨rfl, rfl⟩
  | native n =>
    obtain ⟨lib, -, rfl⟩ := Option.map_eq_some_iff.mp h
    exact ⟨rfl, rfl⟩

/-- Behind the resolution, the phases of `add` come one after the other. -/
theorem install_added {spec : Text} {staged : Staged} {manifest : Option PluginManifest}
    {kind : PluginKind} {t₁ : Files} (resolved : Aside root t t₁) (above : Above root t₁)
    (hstaged : Stages root w spec staged) (hm : w.manifest = some manifest)
    (hk : detect w manifest = some kind)
    (hbuild : ∀ dir, local_dir w spec = some dir → builds w t₁ dir = false)
    (plain : ∀ name version, chosen w spec = some (name, version) → '/' ∉ name ∧ '/' ∉ version) :
    Added root w spec t (install root w t₁ staged manifest kind).1 := by
  have hc : chosen w spec = some (identity manifest staged.name) := by
    unfold chosen
    rw [hstaged.named, hm]
  have prepared := prepare_aside hstaged hm hk hbuild
  unfold install
  generalize identity manifest staged.name = nv at hc ⊢
  obtain ⟨name, version⟩ := nv
  obtain ⟨hn, hv⟩ := plain name version hc
  dsimp only
  generalize prepare w t₁ staged.dir kind = r at prepared ⊢
  obtain ⟨t₂, ok⟩ := r
  have aside := resolved.trans prepared
  dsimp only at aside prepared
  cases ok with
  | false => exact .of_aside aside
  | true =>
    have above₂ := prepared.above above
    obtain ⟨outside, hdir⟩ := install_dir_spec above₂ hn hv staged.dir
    dsimp only
    generalize install_dir root t₂ name version staged.dir = r at outside hdir ⊢
    obtain ⟨t₃, ok⟩ := r
    dsimp only at outside hdir
    have installed : Added root w spec t t₃ := .of_install aside above₂ hc outside hdir
    have above₃ := above_of_outside outside above₂
    cases ok with
    | false => exact installed
    | true =>
      dsimp only
      cases hentry : record root w t₃ staged name version kind with
      | none => exact installed
      | some entry =>
        cases hpackages : load_from root t₃ with
        | none => exact installed
        | some packages =>
          obtain ⟨rfl, rfl⟩ := record_identity hentry
          dsimp only
          rw [save_to_spec above₃]
          have same := (load_from_outside outside).trans aside.index
          exact installed.saved above₃ hc hpackages same hdir (clean_clone_aside hstaged)

/-- `add` does no more than an installation may. -/
theorem add_added {spec : Text} (ok : AddOk root w t spec) :
    Added root w spec t (add root w t spec).1 := by
  have laid := ensure_layout_aside root t
  have above := @ensure_layout_above root t
  have in_place := ok.in_place
  unfold add
  generalize ensure_layout root t = r at laid above in_place ⊢
  obtain ⟨t₁, done⟩ := r
  dsimp only at laid above in_place ⊢
  cases done with
  | false => exact .of_aside laid
  | true =>
    have above₁ := above rfl
    obtain ⟨resolved, stages⟩ := @resolve_spec root w t₁ spec ok.clone
    have hlocal := @resolve_local root w t₁ spec
    dsimp only
    generalize resolve root w t₁ spec = r at resolved stages hlocal ⊢
    obtain ⟨t₂, staged⟩ := r
    dsimp only at resolved stages hlocal
    have aside := laid.trans resolved
    cases staged with
    | none => exact .of_aside aside
    | some staged =>
      dsimp only
      cases hm : w.manifest with
      | none => exact .of_aside aside
      | some manifest =>
        dsimp only
        cases hk : detect w manifest with
        | none => exact .of_aside aside
        | some kind =>
          apply install_added aside (resolved.above above₁) (stages staged rfl) hm hk ?_ ok.plain
          intro dir hdir
          rw [hlocal hdir]
          exact in_place dir hdir

end Zshrs.Pkg
