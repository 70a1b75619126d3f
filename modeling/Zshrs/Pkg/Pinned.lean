import Zshrs.Pkg.StoreRuns

namespace Zshrs.Pkg

open Lib.FileTree Lib.Runs

variable (root : Path)

/-- The entry that `load` of a name or a source finds. -/
def load_target (w : World) (t : Files) (n : Text) : Option InstalledPlugin :=
  match find (index root t) n with
  | some e => some e
  | none => (source_label w n).bind fun label => (index root t).find? fun e => e.source = label

/-- The names of the plugins that a command is about. -/
def concerned (t : Files) : Op → List Text
  | .add spec w => ((chosen w spec).map Prod.fst).toList
  | .remove name => [name]
  | .update (some name) _ => [name]
  | .update none _ => (index root t).map InstalledPlugin.name
  | .load (some n) w =>
    match load_target root w t n with
    | some e => [e.name]
    | none => ((chosen w n).map Prod.fst).toList
  | .load none _ => []
  | .gc _ => []

/-- The installations in turn, up to the first that fails, keep to their directories. -/
def AddsOk : Files → List (Text × World) → Prop
  | _, [] => True
  | t, (spec, w) :: rest =>
    AddOk root w t spec ∧ ((add root w t spec).2 = true → AddsOk (add root w t spec).1 rest)

/-- A command whose installations keep to their directories, and to the plugins it is about. -/
structure OpOk (t : Files) (op : Op) : Prop where
  adds : AddsOk root t (installs root t op)
  about : ∀ i ∈ installs root t op, ∀ name version, chosen i.2 i.1 = some (name, version) →
    ∀ e ∈ index root t, e.name ∉ concerned root t op → e.name ≠ name

/-- What a command does to the store, and what it leaves there. -/
structure Kept (t : Files) (op : Op) : Prop where
  confined : Confined root t (step root t op)
  others : ∀ e ∈ index root t, e.name ∉ concerned root t op →
    ∀ p, e.dir root <+: p → nodeAt (step root t op) p = nodeAt t p
  apart : (index root (step root t op)).Pairwise fun e f =>
    ¬ e.dir root <+: f.dir root ∧ ¬ f.dir root <+: e.dir root
  standing : ∀ e ∈ index root (step root t op),
    nodeAt (step root t op) (e.dir root) = some .dir

/-- An index whose entries have their directories, one each. -/
structure Stands (t : Files) : Prop where
  readable : load_from root t = some (index root t)
  plain : ∀ e ∈ index root t, '/' ∉ e.name ∧ '/' ∉ e.version
  names : ((index root t).map InstalledPlugin.name).Nodup
  keys : ∀ e ∈ index root t, ∀ f ∈ index root t, e.key = f.key → e.name = f.name
  present : ∀ e ∈ index root t, nodeAt t (store_dir root ++ [os e.key]) = some .dir
  above : index root t ≠ [] → Above root t

variable {root} {w : World} {t t' : Files} {spec : Text}

theorem index_of_load {packages : List InstalledPlugin} (h : load_from root t = some packages) :
    index root t = packages := by
  unfold index
  rw [h]
  rfl

theorem index_congr (h : load_from root t' = load_from root t) : index root t' = index root t := by
  unfold index
  rw [h]

namespace Stands

theorem dir_eq (hs : Stands root t) {e : InstalledPlugin} (he : e ∈ index root t) :
    e.dir root = store_dir root ++ [os e.key] :=
  package_dir_plain root (hs.plain e he).1 (hs.plain e he).2

/-- A store without an index. -/
theorem of_missing (h : nodeAt t (installed root) = none) : Stands root t := by
  have hload : load_from root t = some [] := by
    unfold load_from
    rw [h]
  have hindex := index_of_load hload
  constructor
  · rw [hindex]
    exact hload
  · intro e he
    rw [hindex] at he
    cases he
  · rw [hindex]
    exact List.nodup_nil
  · intro e he
    rw [hindex] at he
    cases he
  · intro e he
    rw [hindex] at he
    cases he
  · intro hne
    exact absurd hindex hne

/-- The index is as before, and the directories are there. -/
theorem same_index (hs : Stands root t) (hload : load_from root t' = load_from root t)
    (present : ∀ e ∈ index root t, nodeAt t' (store_dir root ++ [os e.key]) = some .dir)
    (above : Above root t → Above root t') : Stands root t' := by
  have hindex := index_congr hload
  constructor
  · rw [hindex, hload]
    exact hs.readable
  · rw [hindex]
    exact hs.plain
  · rw [hindex]
    exact hs.names
  · rw [hindex]
    exact hs.keys
  · rw [hindex]
    exact present
  · rw [hindex]
    exact fun hne => above (hs.above hne)

theorem apart (hs : Stands root t) :
    (index root t).Pairwise fun e f => ¬ e.dir root <+: f.dir root ∧ ¬ f.dir root <+: e.dir root := by
  have distinct : (index root t).Pairwise fun e f => e.name ≠ f.name := List.pairwise_map.mp hs.names
  refine distinct.imp_of_mem fun {e f} he hf hne => ?_
  rw [hs.dir_eq he, hs.dir_eq hf]
  constructor
  · intro h
    exact hne (hs.keys e he f hf (os_injective (sub_unique h List.prefix_rfl)))
  · intro h
    exact hne (hs.keys e he f hf (os_injective (sub_unique h List.prefix_rfl)).symm)

theorem added (hs : Stands root t) (ok : AddOk root w t spec) (h : Added root w spec t t') :
    Stands root t' := by
  rcases h.index with same | ⟨packages, e, hc, hpackages, hload, habove, hdir⟩
  · refine hs.same_index same (fun f hf => ?_) h.above
    have there := hs.present f hf
    by_cases hk : ∃ name version, chosen w spec = some (name, version) ∧ f.key = key name version
    · obtain ⟨name, version, hc, hkey⟩ := hk
      rw [hkey] at there ⊢
      exact h.standing name version hc there
    · rw [h.others f.key _ (fun name version hc hkey => hk ⟨name, version, hc, hkey⟩) List.prefix_rfl]
      exact there
  · have hold := index_of_load hpackages
    have hnew := index_of_load hload
    obtain ⟨nodup, mem⟩ := @upsert_spec packages e (hold ▸ hs.names)
    have split : ∀ f ∈ index root t', f = e ∨ (f ∈ index root t ∧ f.name ≠ e.name) := by
      intro f hf
      rw [hnew, mem_sorted] at hf
      rw [hold]
      exact (mem f).mp hf
    have foreign : ∀ f ∈ index root t, f.name ≠ e.name → f.key ≠ e.key :=
      ok.unambiguous e.name e.version hc
    constructor
    · rw [hnew]
      exact hload
    · intro f hf
      rcases split f hf with rfl | ⟨hf, -⟩
      · exact ok.plain _ _ hc
      · exact hs.plain f hf
    · rw [hnew]
      exact nodup_sorted nodup
    · intro f hf g hg hkey
      rcases split f hf with rfl | ⟨hf, hfn⟩
      · rcases split g hg with rfl | ⟨hg, hgn⟩
        · rfl
        · exact absurd hkey.symm (foreign g hg hgn)
      · rcases split g hg with rfl | ⟨hg, hgn⟩
        · exact absurd hkey (foreign f hf hfn)
        · exact hs.keys f hf g hg hkey
    · intro f hf
      rcases split f hf with rfl | ⟨hf, hfn⟩
      · exact hdir
      · rw [h.others f.key _ ?_ List.prefix_rfl]
        · exact hs.present f hf
        · intro name version hc'
          rw [hc] at hc'
          cases hc'
          exact foreign f hf hfn
    · exact fun _ => habove

end Stands

/-- An entry of another name stays in the index. -/
theorem Stands.mem_added (hs : Stands root t) (h : Added root w spec t t') {e : InstalledPlugin}
    (he : e ∈ index root t)
    (hne : ∀ name version, chosen w spec = some (name, version) → e.name ≠ name) :
    e ∈ index root t' := by
  rcases h.index with same | ⟨packages, f, hc, hpackages, hload, -, -⟩
  · rw [index_congr same]
    exact he
  · have hold := index_of_load hpackages
    obtain ⟨-, mem⟩ := @upsert_spec packages f (hold ▸ hs.names)
    rw [index_of_load hload, mem_sorted, mem e]
    exact .inr ⟨hold ▸ he, hne f.name f.version hc⟩

section Operations

theorem adds_spec (is : List (Text × World)) {t : Files} (ok : AddsOk root t is)
    (hs : Stands root t) :
    Stands root (adds root t is) ∧ Confined root t (adds root t is) ∧
      ∀ e ∈ index root t,
        (∀ i ∈ is, ∀ name version, chosen i.2 i.1 = some (name, version) → e.name ≠ name) →
        ∀ p, store_dir root ++ [os e.key] <+: p → nodeAt (adds root t is) p = nodeAt t p := by
  induction is generalizing t with
  | nil => exact ⟨hs, .refl t, fun _ _ _ _ _ => rfl⟩
  | cons i is ih =>
    obtain ⟨spec, w⟩ := i
    obtain ⟨first, rest⟩ := ok
    have added := add_added first
    unfold adds
    generalize add root w t spec = r at added rest ⊢
    obtain ⟨t₁, done⟩ := r
    dsimp only at added rest
    have stands := hs.added first added
    have others : ∀ e ∈ index root t,
        (∀ name version, chosen w spec = some (name, version) → e.name ≠ name) →
        ∀ p, store_dir root ++ [os e.key] <+: p → nodeAt t₁ p = nodeAt t p := by
      intro e he hne p hp
      refine added.others e.key p (fun name version hc => ?_) hp
      exact first.unambiguous name version hc e he (hne name version hc)
    cases done with
    | false =>
      refine ⟨stands, added.confined, fun e he hne => others e he ?_⟩
      exact hne (spec, w) List.mem_cons_self
    | true =>
      obtain ⟨stands', confined', others'⟩ := ih (rest rfl) stands
      refine ⟨stands', added.confined.trans confined', fun e he hne p hp => ?_⟩
      have here := hne (spec, w) List.mem_cons_self
      have there := hs.mem_added added he here
      rw [others' e there (fun i hi => hne i (List.mem_cons_of_mem _ hi)) p hp]
      exact others e he here p hp

/-- A removal takes the directory of its plugin and its entry. -/
theorem remove_spec (hs : Stands root t) (name : Text) :
    Stands root (remove root t name).1 ∧ Confined root t (remove root t name).1 ∧
      ∀ e ∈ index root t, e.name ≠ name →
        ∀ p, store_dir root ++ [os e.key] <+: p → nodeAt (remove root t name).1 p = nodeAt t p := by
  unfold remove
  rw [hs.readable]
  dsimp only
  cases hr : remove_entry (index root t) name with
  | none => exact ⟨hs, .refl t, fun _ _ _ _ _ => rfl⟩
  | some r =>
    obtain ⟨entry, rest⟩ := r
    obtain ⟨hmem, hname, nodup, mem⟩ := remove_entry_spec hs.names hr
    have above := hs.above (List.ne_nil_of_mem hmem)
    have foreign : ∀ e ∈ index root t, e.name ≠ name → e.key ≠ entry.key := by
      intro e he hne hkey
      exact hne ((hs.keys e he entry hmem hkey).trans hname)
    dsimp only
    rw [hs.dir_eq hmem]
    have outside : Outside (fun p => store_dir root ++ [os entry.key] <+: p) t
        (if is_dir t (store_dir root ++ [os entry.key]) then
          removeAll t (store_dir root ++ [os entry.key]) else t) := by
      split
      · exact removeAll_outside t _
      · exact .refl _ t
    generalize (if is_dir t (store_dir root ++ [os entry.key]) then
      removeAll t (store_dir root ++ [os entry.key]) else t) = t₁ at outside ⊢
    have above₁ := above_of_outside outside above
    rw [save_to_spec above₁]
    dsimp only
    have hindex := index_of_load (@load_from_put root t₁ (sorted rest))
    have same : ∀ e ∈ index root t, e.name ≠ name → ∀ p, store_dir root ++ [os e.key] <+: p →
        nodeAt (put t₁ (installed root) (.file (.index (sorted rest)))) p = nodeAt t p := by
      intro e he hne p hp
      rw [nodeAt_put_store _ hp, outside p fun hq => foreign e he hne (os_injective (sub_unique hp hq))]
    have old : ∀ e ∈ index root (put t₁ (installed root) (.file (.index (sorted rest)))),
        e ∈ index root t ∧ e.name ≠ name := by
      intro e he
      rw [hindex, mem_sorted] at he
      exact (mem e).mp he
    refine ⟨?_, (Confined.of_outside outside).trans (confined_put _), same⟩
    constructor
    · rw [hindex]
      exact load_from_put _
    · exact fun e he => hs.plain e (old e he).1
    · rw [hindex]
      exact nodup_sorted nodup
    · exact fun e he f hf => hs.keys e (old e he).1 f (old f hf).1
    · intro e he
      obtain ⟨he, hne⟩ := old e he
      rw [same e he hne _ List.prefix_rfl]
      exact hs.present e he
    · exact fun _ => above_put _ above₁

/-- What a collection leaves as it is. -/
structure Spares (root : Path) (pinned : List Text) (t t' : Files) : Prop where
  confined : Confined root t t'
  pinned : ∀ k ∈ pinned, ∀ p, store_dir root ++ [os k] <+: p → nodeAt t' p = nodeAt t p
  index : load_from root t' = load_from root t
  above : Above root t → Above root t'

theorem Spares.refl (pinned : List Text) (t : Files) : Spares root pinned t t :=
  ⟨.refl t, fun _ _ _ _ => rfl, rfl, id⟩

theorem Spares.trans {pinned : List Text} {t'' : Files} (h : Spares root pinned t t')
    (h' : Spares root pinned t' t'') : Spares root pinned t t'' where
  confined := h.confined.trans h'.confined
  pinned := fun k hk p hp => (h'.pinned k hk p hp).trans (h.pinned k hk p hp)
  index := h'.index.trans h.index
  above := h'.above ∘ h.above

theorem Spares.of_aside {pinned : List Text} (h : Aside root t t') : Spares root pinned t t' where
  confined := .of_aside h
  pinned := fun _ _ _ hp => h.store hp
  index := h.index
  above := h.above

theorem collect_spares (pinned : List Text) (t : Files) (c : OsText) :
    Spares root pinned t (collect root pinned t c) := by
  unfold collect
  split
  · next hc =>
    have outside := removeAll_outside t (store_dir root ++ [c])
    refine ⟨.of_outside outside, fun k hk p hp => ?_, load_from_outside outside,
      above_of_outside outside⟩
    apply outside
    intro hq
    apply hc.2
    rw [← sub_unique hp hq, lossy_os]
    exact hk
  · exact .refl pinned t

theorem sweep_spares (pinned : List Text) (cs : List OsText) (t : Files) :
    Spares root pinned t (cs.foldl (collect root pinned) t) := by
  induction cs generalizing t with
  | nil => exact .refl pinned t
  | cons c cs ih => exact (collect_spares pinned t c).trans (ih _)

theorem gc_spares (hs : Stands root t) (dry_run : Bool) :
    Spares root ((index root t).map InstalledPlugin.key) t (gc root t dry_run).1 := by
  unfold gc
  rw [hs.readable]
  dsimp only
  split
  · exact .refl _ t
  · dsimp only
    refine (sweep_spares _ (names t (store_dir root)) t).trans ?_
    split
    · exact .of_aside (aside_below_git List.prefix_rfl (removeAll_outside _ _))
    · exact .refl _ _

theorem gc_spec (hs : Stands root t) (dry_run : Bool) :
    Stands root (gc root t dry_run).1 ∧ Confined root t (gc root t dry_run).1 ∧
      ∀ e ∈ index root t, ∀ p, store_dir root ++ [os e.key] <+: p →
        nodeAt (gc root t dry_run).1 p = nodeAt t p := by
  have spares := gc_spares hs dry_run
  have same : ∀ e ∈ index root t, ∀ p, store_dir root ++ [os e.key] <+: p →
      nodeAt (gc root t dry_run).1 p = nodeAt t p :=
    fun e he => spares.pinned e.key (List.mem_map_of_mem he)
  refine ⟨hs.same_index spares.index (fun e he => ?_) spares.above, spares.confined, same⟩
  rw [same e he _ List.prefix_rfl]
  exact hs.present e he

end Operations

/-- One command keeps the store. -/
theorem step_spec {op : Op} (ok : OpOk root t op) (hs : Stands root t) :
    Stands root (step root t op) ∧ Confined root t (step root t op) ∧
      ∀ e ∈ index root t, e.name ∉ concerned root t op →
        ∀ p, store_dir root ++ [os e.key] <+: p → nodeAt (step root t op) p = nodeAt t p := by
  have installed := adds_spec (installs root t op) ok.adds hs
  obtain ⟨stands, confined, others⟩ := installed
  have others' : ∀ e ∈ index root t, e.name ∉ concerned root t op →
      ∀ p, store_dir root ++ [os e.key] <+: p →
        nodeAt (adds root t (installs root t op)) p = nodeAt t p := by
    intro e he hne
    apply others e he
    intro i hi name version hc
    exact ok.about i hi name version hc e he hne
  cases op with
  | add spec w => exact ⟨stands, confined, others'⟩
  | update name w => exact ⟨stands, confined, others'⟩
  | load name w => exact ⟨stands, confined, others'⟩
  | remove name =>
    obtain ⟨stands, confined, others⟩ := remove_spec hs name
    refine ⟨stands, confined, fun e he hne => others e he fun hname => hne ?_⟩
    exact hname ▸ List.mem_cons_self
  | gc dry_run =>
    obtain ⟨stands, confined, others⟩ := gc_spec hs dry_run
    exact ⟨stands, confined, fun e he _ => others e he⟩

theorem kept_of_ok {op : Op} (ok : OpOk root t op) (hs : Stands root t) : Kept root t op := by
  obtain ⟨stands, confined, others⟩ := step_spec ok hs
  refine ⟨confined, fun e he hne p hp => ?_, stands.apart, fun e he => ?_⟩
  · rw [hs.dir_eq he] at hp
    exact others e he hne p hp
  · rw [stands.dir_eq he]
    exact stands.present e he

/-- In a run from a store without an index, whose installations choose names and versions without a
slash and each a directory of its own, every command keeps the store. -/
theorem store_kept (root : Path) (t : Files) (ops : List Op)
    (fresh : nodeAt t (installed root) = none) (ok : Along (step root) (OpOk root) t ops) :
    Along (step root) (Kept root) t ops :=
  ok.of_invariant (I := Stands root) (fun _ _ hok hs => (step_spec hok hs).1)
    (fun _ _ hok hs => kept_of_ok hok hs) (.of_missing fresh)

section Runs

/-- A script plugin in a directory of the root, with the name and the version of its manifest. -/
def scripted (name version : Text) : World where
  home := none
  canonicalize := fun p => some [p.drop 1]
  git_clone := fun _ _ => (none, false)
  manifest := some (some ⟨name, version, none, some ⟨[], []⟩⟩)
  layout := none
  cargo_build := ([], false)
  is_cdylib := fun _ => false
  integrity := []
  load_entry := true

def machine : Files := [([os ['s']], .dir), ([os ['u']], .dir)]

theorem ok_of_none {op : Op} (h : installs root t op = []) : OpOk root t op := by
  constructor
  · rw [h]
    trivial
  · rw [h]
    intro i hi
    cases hi

/-- A command that installs one plugin of those that it is about. -/
theorem ok_of_one {op : Op} (name version : Text) (h : installs root t op = [(spec, w)])
    (hc : chosen w spec = some (name, version)) (hplain : '/' ∉ name ∧ '/' ∉ version)
    (hkeys : ∀ e ∈ index root t, e.name ≠ name → e.key ≠ Pkg.key name version)
    (hclone : clone_name w spec = none) (hbuilds : ∀ t dir, builds w t dir = false)
    (habout : name ∈ concerned root t op) : OpOk root t op := by
  constructor
  · rw [h]
    refine ⟨⟨?_, ?_, ?_, ?_⟩, fun _ => trivial⟩
    · intro name' version' hc'
      rw [hc] at hc'
      cases hc'
      exact hplain
    · intro name' version' hc' e he
      rw [hc] at hc'
      cases hc'
      exact hkeys e he
    · rw [hclone]
      exact fun h => nomatch h
    · exact fun dir _ => hbuilds _ dir
  · rw [h]
    intro i hi name' version' hc' e _ hne heq
    rw [List.mem_singleton.mp hi, hc] at hc'
    cases hc'
    exact hne (heq ▸ habout)

def xEntry : InstalledPlugin :=
  ⟨['x'], ['1'], pathPrefix ++ ['/', 's'], ['s', 'c', 'r', 'i', 'p', 't'], [], [], [], []⟩

def yEntry : InstalledPlugin :=
  ⟨['y'], ['1'], pathPrefix ++ ['/', 'u'], ['s', 'c', 'r', 'i', 'p', 't'], [], [], [], []⟩

/-- Of two plugins one is updated and the other removed, with a collection between. -/
theorem scripted_kept : Along (step [os ['r']]) (Kept [os ['r']]) machine
    [.add ['/', 's'] (scripted ['x'] ['1']), .add ['/', 'u'] (scripted ['y'] ['1']),
      .update (some ['x']) fun _ => scripted ['x'] ['2'], .gc false, .remove ['y']] := by
  apply store_kept
  · rfl
  · have hone : sorted [xEntry] = [xEntry] := List.mergeSort_singleton _
    have htwo : sorted [xEntry, yEntry] = [xEntry, yEntry] := List.mergeSort_of_pairwise (by decide)
    refine ⟨?_, ?_, ?_, ok_of_none rfl, ok_of_none rfl, trivial⟩
    · refine ok_of_one ['x'] ['1'] rfl rfl (by decide) ?_ rfl (fun _ _ => rfl) (by decide)
      intro e he
      cases he
    · have hload : load_from [os ['r']] (step [os ['r']] machine (.add ['/', 's'] (scripted ['x'] ['1']))) =
          some [xEntry] := Eq.trans rfl (congrArg some hone)
      refine ok_of_one ['y'] ['1'] rfl rfl (by decide) ?_ rfl (fun _ _ => rfl)
        List.mem_cons_self
      rw [index_of_load hload]
      decide
    · generalize hop : Op.add ['/', 's'] (scripted ['x'] ['1']) = op
      have hload : load_from [os ['r']] (step [os ['r']] (step [os ['r']] machine op)
          (.add ['/', 'u'] (scripted ['y'] ['1']))) = some [xEntry, yEntry] := by
        rw [← hop]
        refine Eq.trans rfl (congrArg some (Eq.trans (congrArg (fun l => sorted (upsert l yEntry)) hone) htwo))
      generalize step [os ['r']] (step [os ['r']] machine op) (.add ['/', 'u'] (scripted ['y'] ['1'])) = t at hload ⊢
      have hinstalls : installs [os ['r']] t (.update (some ['x']) fun _ => scripted ['x'] ['2']) =
          [(pathSpec ++ ['/', 's'], scripted ['x'] ['2'])] := by
        simp only [installs, update_installs, hload]
        rfl
      refine ok_of_one ['x'] ['2'] hinstalls rfl (by decide) ?_ rfl (fun _ _ => rfl)
        List.mem_cons_self
      rw [index_of_load hload]
      decide

/-- A name climbs out of the store, and a version with a slash is swept away by `gc`. -/
theorem stores_lost :
    ¬ Along (step [os ['r']]) (Kept [os ['r']]) machine
      [.add ['/', 's'] (scripted ['.', '.', '/', '.', '.', '/', 'x'] ['1'])] ∧
    ¬ Along (step [os ['r']]) (Kept [os ['r']]) machine
      [.add ['/', 's'] (scripted ['x'] ['1', '/', '2']), .gc false] := by
  constructor
  · rintro ⟨kept, -⟩
    have made : nodeAt (step [os ['r']] machine
        (.add ['/', 's'] (scripted ['.', '.', '/', '.', '.', '/', 'x'] ['1'])))
        [os ['x', '@', '1']] = some .dir := rfl
    rcases kept.confined [os ['x', '@', '1']] with same | ⟨store, -⟩ | scratch | ⟨layout, -⟩ | ⟨index, -⟩
    · rw [made] at same
      cases same
    · exact absurd store (by decide)
    · rcases scratch with h | h | h
      · exact absurd h (by decide)
      · exact absurd h (by decide)
      · exact absurd h (by decide)
    · exact absurd layout (by decide)
    · exact absurd index (by decide)
  · rintro ⟨-, kept, -⟩
    let entry : InstalledPlugin := ⟨['x'], ['1', '/', '2'], pathPrefix ++ ['/', 's'],
      ['s', 'c', 'r', 'i', 'p', 't'], [], [], [], []⟩
    have one : sorted [entry] = [entry] := List.mergeSort_singleton _
    generalize hop : Op.add ['/', 's'] (scripted ['x'] ['1', '/', '2']) = op at kept
    have loaded : load_from [os ['r']] (step [os ['r']] machine op) = some [entry] := by
      rw [← hop]
      exact Eq.trans rfl (congrArg some one)
    have gone : nodeAt (gc [os ['r']] (step [os ['r']] machine op) false).1 (entry.dir [os ['r']]) = none := by
      unfold gc
      rw [loaded, ← hop]
      rfl
    have still : load_from [os ['r']] (gc [os ['r']] (step [os ['r']] machine op) false).1 = some [entry] := by
      unfold gc
      rw [loaded, ← hop]
      exact Eq.trans rfl (congrArg some one)
    have indexed : index [os ['r']] (step [os ['r']] (step [os ['r']] machine op) (.gc false)) = [entry] :=
      index_of_load still
    have there := kept.standing entry (indexed ▸ List.mem_cons_self)
    cases gone.symm.trans there

end Runs

end Zshrs.Pkg
