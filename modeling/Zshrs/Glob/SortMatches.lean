import Mathlib.Data.List.Nodup
import Mathlib.Tactic.IntervalCases
import Zshrs.Glob.MatchOrder

namespace Zshrs.Glob

open Std Lib.Comparators

section Condition

/-- The keys in front of the first name key, which decides. -/
def frontKeys (specs : List Tp) : List SortKey := (specs.map sortKey).takeWhile (· ≠ .name)

/-- The keys in front of the first depth key. -/
def beforeDepth (specs : List Tp) : List SortKey := (frontKeys specs).takeWhile (· ≠ .depth)

/-- A key that, behind a depth key, no longer tells two matches apart. -/
def Spent (before : List SortKey) (k : SortKey) : Prop := k = .depth ∨ k = .other ∨ k ∈ before

instance instDecidableSpent (before : List SortKey) (k : SortKey) : Decidable (Spent before k) :=
  inferInstanceAs (Decidable (_ ∨ _ ∨ _))

/-- Between a depth key and the name there is no key that still tells two matches apart. -/
def DepthLast (specs : List Tp) : Prop :=
  ∀ k ∈ (frontKeys specs).dropWhile (· ≠ .depth), Spent (beforeDepth specs) k

instance instDecidableDepthLast (specs : List Tp) : Decidable (DepthLast specs) :=
  inferInstanceAs (Decidable (∀ k ∈ _, _))

theorem sortKey_name {tp : Tp} (h : tp &&& ~~~GS_DESC = GS_NAME) : sortKey tp = .name := by
  unfold sortKey
  rw [h]
  rfl

/-- The tie-break sees to it that there is a name key. -/
theorem exists_name (specs : List Tp) : ∃ tp ∈ tieBreak specs, sortKey tp = .name := by
  unfold tieBreak
  split
  · exact ⟨GS_NAME, List.mem_append_right _ (List.mem_singleton_self _), by decide⟩
  · next h =>
    rw [Option.all_eq_true] at h
    push Not at h
    obtain ⟨last, hl, hn⟩ := h
    refine ⟨last, List.mem_of_getLast? hl, sortKey_name ?_⟩
    simpa using hn

end Condition

section Lawful

variable (m : Modes) (numeric : Bool)

/-- A list of entries, up to the first that decides. -/
abbrev specscmp (specs : List Tp) : Gmatch → Gmatch → Ordering := inTurn (specs.map (spec m numeric))

theorem specscmp_append (specs specs' : List Tp) :
    specscmp m numeric (specs ++ specs') =
      compareLex (specscmp m numeric specs) (specscmp m numeric specs') := by
  unfold specscmp
  rw [List.map_append, inTurn_append]

theorem specscmp_cons (tp : Tp) (specs : List Tp) :
    specscmp m numeric (tp :: specs) = compareLex (spec m numeric tp) (specscmp m numeric specs) := rfl

theorem specscmp_eq_eq {specs : List Tp} {a b : Gmatch} :
    specscmp m numeric specs a b = .eq ↔ ∀ tp ∈ specs, keycmp m numeric (sortKey tp) a b = .eq := by
  unfold specscmp
  rw [inTurn_eq_eq, List.forall_mem_map]
  simp only [spec_eq_eq]

theorem depthcmp_self (s : Bytes) : depthcmp s s = .eq := by
  unfold depthcmp
  exact ReflOrd.compare_self

/-- Behind a name key the depth keys have no say. -/
theorem specscmp_of_name {specs : List Tp} {a b : Gmatch} (h : a.uname = b.uname) :
    specscmp m numeric specs a b =
      specscmp m numeric (specs.filter fun tp => sortKey tp ≠ .depth) a b := by
  induction specs with
  | nil => rfl
  | cons tp specs ih =>
    rw [specscmp_cons, List.filter_cons]
    unfold compareLex
    rw [ih]
    split
    · rfl
    · next hk =>
      have hk : sortKey tp = .depth := by simpa using hk
      have tie : spec m numeric tp a b = .eq := by
        rw [spec_eq_eq, hk, keycmp, h]
        exact depthcmp_self _
      rw [tie]
      rfl

/-- From the first name key on the entries are an order. -/
theorem name_trans {ntp : Tp} (hn : sortKey ntp = .name) (post : List Tp) :
    compareLex (spec m numeric ntp) (specscmp m numeric post) =
        compareLex (spec m numeric ntp)
          (specscmp m numeric (post.filter fun tp => sortKey tp ≠ .depth)) ∧
      TransCmp (specscmp m numeric (post.filter fun tp => sortKey tp ≠ .depth)) := by
  constructor
  · apply compareLex_congr
    intro a b h
    rw [spec_eq_eq, hn] at h
    have names : a.uname.bytes = b.uname.bytes :=
      (reads_namecmp m numeric).eq_of_eq a.uname.no_nul b.uname.no_nul h
    apply specscmp_of_name
    cases ha : a.uname
    cases hb : b.uname
    rw [ha, hb] at names
    congr
  · apply specs_trans
    intro tp htp
    simpa using (List.mem_filter.mp htp).2

/-- A depth key and a name key behind it are one order together. -/
theorem depth_name_trans {dtp ntp : Tp} (hd : sortKey dtp = .depth) (hn : sortKey ntp = .name) :
    TransCmp (compareLex (spec m numeric dtp) (spec m numeric ntp)) := by
  have names := (reads_namecmp m numeric).depth_trans (descending dtp) (descending ntp)
  have same : compareLex (spec m numeric dtp) (spec m numeric ntp) = fun a b : Gmatch =>
      depthThenName (descending dtp) (descending ntp) (namecmp m numeric) a.uname.bytes b.uname.bytes := by
    unfold spec
    rw [hd, hn]
    rfl
  rw [same]
  exact trans_on Gmatch.uname fun a b : FileName =>
    depthThenName (descending dtp) (descending ntp) (namecmp m numeric) a.bytes b.bytes

/-- The list of entries, cut at the first name key and, in front of it, at the first depth key. -/
theorem exists_cut {specs : List Tp} (h : ∃ tp ∈ specs, sortKey tp = .name) :
    ∃ pre mid ntp post, specs = pre ++ (mid ++ ntp :: post) ∧ sortKey ntp = .name ∧
      pre.map sortKey = beforeDepth specs ∧
      mid.map sortKey = (frontKeys specs).dropWhile (· ≠ .depth) := by
  let front := specs.takeWhile fun tp => sortKey tp ≠ .name
  have keys : front.map sortKey = frontKeys specs := by
    unfold frontKeys
    rw [List.takeWhile_map]
    rfl
  have rest : specs.dropWhile (fun tp => sortKey tp ≠ .name) ≠ [] := by
    intro he
    obtain ⟨tp, htp, hk⟩ := h
    rw [List.dropWhile_eq_nil_iff] at he
    exact absurd hk (by simpa using he tp htp)
  obtain ⟨ntp, post, htail⟩ := List.exists_cons_of_ne_nil rest
  refine ⟨front.takeWhile fun tp => sortKey tp ≠ .depth,
    front.dropWhile fun tp => sortKey tp ≠ .depth, ntp, post, ?_, ?_, ?_, ?_⟩
  · rw [← List.append_assoc, List.takeWhile_append_dropWhile, ← htail,
      List.takeWhile_append_dropWhile]
  · have stop := List.head?_dropWhile_not (fun tp => decide (sortKey tp ≠ .name)) specs
    rw [htail] at stop
    simpa using stop
  · unfold beforeDepth
    rw [← keys, List.takeWhile_map]
    rfl
  · rw [← keys, List.dropWhile_map]
    rfl

theorem gmatchcmp_trans {specs : List Tp} (hname : ∃ tp ∈ specs, sortKey tp = .name)
    (h : DepthLast specs) : TransCmp (gmatchcmp m numeric specs) := by
  obtain ⟨pre, mid, ntp, post, hspecs, hn, hpre, hmid⟩ := exists_cut hname
  have pre_trans : TransCmp (specscmp m numeric pre) := by
    apply specs_trans
    intro tp htp
    have hk : sortKey tp ∈ beforeDepth specs := hpre ▸ List.mem_map_of_mem htp
    simpa using List.mem_takeWhile_imp hk
  obtain ⟨cleaned, clean_trans⟩ := name_trans m numeric hn post
  have whole : gmatchcmp m numeric specs = compareLex (specscmp m numeric pre)
      (compareLex (specscmp m numeric mid) (compareLex (spec m numeric ntp)
        (specscmp m numeric (post.filter fun tp => sortKey tp ≠ .depth)))) := by
    rw [gmatchcmp_eq, hspecs, ← cleaned]
    exact (specscmp_append m numeric _ _).trans
      (congrArg (compareLex _) (specscmp_append m numeric _ _))
  rw [whole]
  cases mid with
  | nil =>
    have name_trans := spec_trans m numeric (by rw [hn]; decide : sortKey ntp ≠ .depth)
    exact inferInstanceAs (TransCmp (compareLex (specscmp m numeric pre)
      (compareLex (spec m numeric ntp) (specscmp m numeric _))))
  | cons dtp mid =>
    have hd : sortKey dtp = .depth := by
      have stop := List.head?_dropWhile_not (· ≠ SortKey.depth) (frontKeys specs)
      rw [← hmid] at stop
      simpa using stop
    -- What stands between the depth key and the name key ties wherever the depth does.
    have spent : compareLex (specscmp m numeric pre)
        (compareLex (specscmp m numeric (dtp :: mid)) (compareLex (spec m numeric ntp)
          (specscmp m numeric (post.filter fun tp => sortKey tp ≠ .depth)))) =
        compareLex (specscmp m numeric pre)
          (compareLex (compareLex (spec m numeric dtp) (spec m numeric ntp))
            (specscmp m numeric (post.filter fun tp => sortKey tp ≠ .depth))) := by
      apply compareLex_congr
      intro a b hab
      rw [specscmp_cons]
      unfold compareLex
      cases hda : spec m numeric dtp a b with
      | lt => rfl
      | gt => rfl
      | eq =>
        have tie : specscmp m numeric mid a b = .eq := by
          rw [specscmp_eq_eq]
          intro tp htp
          have mem : sortKey tp ∈ (frontKeys specs).dropWhile (· ≠ .depth) :=
            hmid ▸ List.mem_map_of_mem (List.mem_cons_of_mem dtp htp)
          rcases h _ mem with hk | hk | hk
          · rw [spec_eq_eq, hd] at hda
            rw [hk]
            exact hda
          · rw [hk]
            rfl
          · rw [← hpre] at hk
            obtain ⟨tp', htp', hk⟩ := List.mem_map.mp hk
            rw [← hk]
            exact (specscmp_eq_eq m numeric).mp hab tp' htp'
        rw [tie]
        rfl
    rw [spent]
    have both := depth_name_trans m numeric hd hn
    infer_instance

end Lawful

section Cycle

/-- `a/x/y`, `b/z` and `a/w`: the depth key tells the first from the last, and neither from the
middle one. -/
def deepName : FileName := ⟨[97, 47, 120, 47, 121], by decide⟩
def asideName : FileName := ⟨[98, 47, 122], by decide⟩
def flatName : FileName := ⟨[97, 47, 119], by decide⟩

/-- A match that has its own value for one key only. -/
def sample (k : SortKey) (i : Nat) (uname : FileName) : Gmatch where
  uname := uname
  path := uname
  stat := {
    size := if k = .size false then i else 0
    atime := if k = .atime false then i else 0
    mtime := if k = .mtime false then i else 0
    ctime := if k = .ctime false then i else 0
    links := if k = .links false then i else 0
    ansec := 0
    mnsec := 0
    cnsec := 0 }
  target := {
    size := if k = .size true then i else 0
    atime := if k = .atime true then i else 0
    mtime := if k = .mtime true then i else 0
    ctime := if k = .ctime true then i else 0
    links := if k = .links true then i else 0
    ansec := 0
    mnsec := 0
    cnsec := 0 }
  sort_strings := [[Char.ofNat (97 + if k = .exec then i else 0)]]

variable (m : Modes) (numeric : Bool)

theorem timecmp_of_nsec {time nsec : Stat → Int} {a b : Stat} (h : nsec a = nsec b) :
    timecmp time nsec a b = compare (time b) (time a) := by
  rw [timecmp_eq]
  unfold compareLex compareOn
  dsimp only
  rw [h, ReflOrd.compare_self]
  cases compare (time b) (time a) <;> rfl

theorem sample_tie {k k' : SortKey} (h : k' ≠ k) (hn : k' ≠ .name) (hd : k' ≠ .depth) (i j : Nat)
    (x y : FileName) : keycmp m numeric k' (sample k i x) (sample k j y) = .eq := by
  have off : ¬ k = k' := fun e => h e.symm
  have time {f g : Stat → Int} {a b : Stat} (hf : f a = f b) (hg : g a = g b) :
      timecmp f g a b = .eq := by
    rw [timecmp_of_nsec hg, hf, ReflOrd.compare_self]
  cases k' with
  | name => exact absurd rfl hn
  | depth => exact absurd rfl hd
  | size follow => cases follow <;> simp [keycmp, sample, Gmatch.followed, off]
  | atime follow => cases follow <;> exact time (by simp [sample, Gmatch.followed, off]) rfl
  | mtime follow => cases follow <;> exact time (by simp [sample, Gmatch.followed, off]) rfl
  | ctime follow => cases follow <;> exact time (by simp [sample, Gmatch.followed, off]) rfl
  | links follow => cases follow <;> simp [keycmp, sample, Gmatch.followed, off]
  | exec =>
    have same : (sample k i x).sort_strings = (sample k j y).sort_strings := by simp [sample, off]
    have strings := (reads_zstrcmp m numeric).trans
    unfold keycmp
    rw [same]
    exact @ReflCmp.compare_self FileName (fun a b : FileName =>
      zstrcmp m a.bytes b.bytes (if numeric then SORTIT_NUMERICALLY else 0)) inferInstance
      (metafiedName ((sample k j y).sort_strings.getD 0 []))
  | other => rfl

theorem sample_exec {i j : Nat} (hi : i < 3) (hj : j < 3) (x y : FileName) :
    keycmp m numeric .exec (sample .exec i x) (sample .exec j y) = compare i j := by
  have key (i : Nat) (hi : i < 3) : metafied_key [Char.ofNat (97 + i)] = [UInt8.ofNat (97 + i)] := by
    interval_cases i <;> decide
  have strings (i : Nat) (x : FileName) :
      (sample .exec i x).sort_strings.getD 0 [] = [Char.ofNat (97 + i)] := rfl
  unfold keycmp
  dsimp only
  rw [strings, strings, zstrcmp_eq m numeric (metafied_key_no_nul _) (metafied_key_no_nul _),
    key i hi, key j hj]
  cases numbered m numeric <;> interval_cases i <;> interval_cases j <;> decide

/-- The samples of a key are in the order of their values, or in the reverse one. -/
theorem sample_key {k : SortKey} (hn : k ≠ .name) (hd : k ≠ .depth) (ho : k ≠ .other) :
    ∃ down : Bool, ∀ i j : Nat, i < 3 → j < 3 → ∀ x y : FileName,
      keycmp m numeric k (sample k i x) (sample k j y) = directed down compare i j := by
  have back (i j : Nat) : compare (j : Int) (i : Int) = directed true compare i j := by
    have swap : compare j i = (compare i j).swap := OrientedCmp.eq_swap
    unfold directed
    rw [if_pos rfl, ← swap]
    rcases Nat.lt_trichotomy j i with h | h | h
    · rw [Nat.compare_eq_lt.mpr h]
      exact Std.compare_eq_lt.mpr (Int.ofNat_lt.mpr h)
    · rw [h, ReflOrd.compare_self, ReflOrd.compare_self]
    · rw [Nat.compare_eq_gt.mpr h]
      exact Std.compare_eq_gt.mpr (Int.ofNat_lt.mpr h)
  cases k with
  | name => exact absurd rfl hn
  | depth => exact absurd rfl hd
  | size follow =>
    refine ⟨false, fun i j _ _ x y => ?_⟩
    cases follow <;> rfl
  | links follow =>
    refine ⟨false, fun i j _ _ x y => ?_⟩
    cases follow <;> rfl
  | atime follow =>
    refine ⟨true, fun i j _ _ x y => ?_⟩
    have value := @timecmp_of_nsec Stat.atime Stat.ansec
      ((sample (.atime follow) i x).followed follow) ((sample (.atime follow) j y).followed follow)
    cases follow with
    | false => exact (value rfl).trans (back i j)
    | true => exact (value rfl).trans (back i j)
  | mtime follow =>
    refine ⟨true, fun i j _ _ x y => ?_⟩
    have value := @timecmp_of_nsec Stat.mtime Stat.mnsec
      ((sample (.mtime follow) i x).followed follow) ((sample (.mtime follow) j y).followed follow)
    cases follow with
    | false => exact (value rfl).trans (back i j)
    | true => exact (value rfl).trans (back i j)
  | ctime follow =>
    refine ⟨true, fun i j _ _ x y => ?_⟩
    have value := @timecmp_of_nsec Stat.ctime Stat.cnsec
      ((sample (.ctime follow) i x).followed follow) ((sample (.ctime follow) j y).followed follow)
    cases follow with
    | false => exact (value rfl).trans (back i j)
    | true => exact (value rfl).trans (back i j)
  | exec => exact ⟨false, fun i j hi hj x y => sample_exec m numeric hi hj x y⟩
  | other => exact absurd rfl ho

/-- The first entry that does not tie decides. -/
theorem gmatchcmp_first {before : List Tp} {tp : Tp} (after : List Tp) {a b : Gmatch}
    (tie : ∀ t ∈ before, keycmp m numeric (sortKey t) a b = .eq)
    (decides : keycmp m numeric (sortKey tp) a b ≠ .eq) :
    gmatchcmp m numeric (before ++ tp :: after) a b = spec m numeric tp a b := by
  have ne : spec m numeric tp a b ≠ .eq := fun e => decides ((spec_eq_eq m numeric).mp e)
  have front : inTurn (before.map (spec m numeric)) a b = .eq := (specscmp_eq_eq m numeric).mpr tie
  rw [gmatchcmp_eq, List.map_append, inTurn_append]
  unfold compareLex
  rw [front, List.map_cons, inTurn]
  cases hs : spec m numeric tp a b with
  | eq => exact absurd hs ne
  | lt => rfl
  | gt => rfl

theorem directed_directed {α : Type} (d d' : Bool) (cmp : α → α → Ordering) (a b : α) :
    directed d (directed d' cmp) a b = directed (d ^^ d') cmp a b := by
  unfold directed
  cases d <;> cases d' <;> cases cmp a b <;> rfl

/-- What the samples of a key say, where the key is the first behind a depth key that is not spent. -/
structure Telling (specs : List Tp) (k : SortKey) (d turn : Bool) : Prop where
  aside : ∀ i j : Nat, i < 3 → j < 3 → i ≠ j → ∀ x y : FileName, depthcmp x.bytes y.bytes = .eq →
    gmatchcmp m numeric specs (sample k i x) (sample k j y) = directed turn compare i j
  depth : ∀ i j : Nat, ∀ x y : FileName, depthcmp x.bytes y.bytes ≠ .eq →
    gmatchcmp m numeric specs (sample k i x) (sample k j y) =
      directed d (fun x y : FileName => depthcmp x.bytes y.bytes) x y

theorem exists_telling {specs : List Tp} (hname : ∃ tp ∈ specs, sortKey tp = .name)
    (h : ¬ DepthLast specs) : ∃ k d turn, Telling m numeric specs k d turn := by
  obtain ⟨pre, mid, ntp, post, hspecs, -, hpre, hmid⟩ := exists_cut hname
  let fine : Tp → Bool := fun tp => Spent (beforeDepth specs) (sortKey tp)
  have rest : mid.dropWhile fine ≠ [] := by
    intro he
    rw [List.dropWhile_eq_nil_iff] at he
    apply h
    intro k hk
    rw [← hmid] at hk
    obtain ⟨tp, htp, rfl⟩ := List.mem_map.mp hk
    simpa [fine] using he tp htp
  obtain ⟨btp, more, hrest⟩ := List.exists_cons_of_ne_nil rest
  have cut : mid = mid.takeWhile fine ++ btp :: more := by
    rw [← hrest, List.takeWhile_append_dropWhile]
  have unspent : ¬ Spent (beforeDepth specs) (sortKey btp) := by
    have stop := List.head?_dropWhile_not fine mid
    rw [hrest] at stop
    simpa [fine] using stop
  have unnamed {k : SortKey} (hk : k ∈ frontKeys specs) : k ≠ .name := by
    simpa using List.mem_takeWhile_imp hk
  have mid_front {tp : Tp} (htp : tp ∈ mid) : sortKey tp ∈ frontKeys specs :=
    (List.dropWhile_sublist _).mem (hmid ▸ List.mem_map_of_mem htp)
  have bad : btp ∈ mid := cut ▸ List.mem_append_right _ List.mem_cons_self
  obtain ⟨down, key⟩ := sample_key m numeric (unnamed (mid_front bad))
    (fun e => unspent (.inl e)) fun e => unspent (.inr (.inl e))
  have early {k' : SortKey} (hk : k' ∈ beforeDepth specs) (i j : Nat) (x y : FileName) :
      keycmp m numeric k' (sample (sortKey btp) i x) (sample (sortKey btp) j y) = .eq := by
    refine sample_tie m numeric ?_ (unnamed ((List.takeWhile_sublist _).mem hk))
      (by simpa using List.mem_takeWhile_imp hk) i j x y
    rintro rfl
    exact unspent (.inr (.inr hk))
  have pre_ties (i j : Nat) (x y : FileName) : ∀ tp ∈ pre,
      keycmp m numeric (sortKey tp) (sample (sortKey btp) i x) (sample (sortKey btp) j y) = .eq :=
    fun tp htp => early (hpre ▸ List.mem_map_of_mem htp) i j x y
  obtain ⟨dtp, mid', hcons⟩ : ∃ dtp mid', mid = dtp :: mid' := by
    cases hm : mid with
    | nil => exact absurd bad (hm ▸ List.not_mem_nil)
    | cons dtp mid' => exact ⟨dtp, mid', rfl⟩
  have hd : sortKey dtp = .depth := by
    have stop := List.head?_dropWhile_not (· ≠ SortKey.depth) (frontKeys specs)
    rw [← hmid, hcons] at stop
    simpa using stop
  refine ⟨sortKey btp, descending dtp, descending btp ^^ down, ?_, ?_⟩
  · intro i j hi hj hij x y tie
    have good : ∀ tp ∈ pre ++ mid.takeWhile fine,
        keycmp m numeric (sortKey tp) (sample (sortKey btp) i x) (sample (sortKey btp) j y) = .eq := by
      intro tp htp
      rcases List.mem_append.mp htp with htp | htp
      · exact pre_ties i j x y tp htp
      · have spent : Spent (beforeDepth specs) (sortKey tp) := by
          simpa [fine] using List.mem_takeWhile_imp htp
        rcases spent with hk | hk | hk
        · rw [hk]
          exact tie
        · rw [hk]
          rfl
        · exact early hk i j x y
    have value := key i j hi hj x y
    have decides : keycmp m numeric (sortKey btp) (sample (sortKey btp) i x)
        (sample (sortKey btp) j y) ≠ .eq := by
      rw [value, Ne, directed_eq_eq, Nat.compare_eq_eq]
      exact hij
    have shape : specs = (pre ++ mid.takeWhile fine) ++ btp :: (more ++ ntp :: post) := by
      rw [hspecs, List.append_assoc]
      exact congrArg (pre ++ ·) ((congrArg (· ++ ntp :: post) cut).trans (List.append_assoc _ _ _))
    have first := gmatchcmp_first m numeric (more ++ ntp :: post) good decides
    rw [← shape] at first
    rw [first, ← directed_directed]
    exact directed_congr value
  · intro i j x y hne
    have decides : keycmp m numeric (sortKey dtp) (sample (sortKey btp) i x)
        (sample (sortKey btp) j y) ≠ .eq := by
      rw [hd]
      exact hne
    have first := gmatchcmp_first m numeric (mid' ++ ntp :: post) (pre_ties i j x y) decides
    have shape : specs = pre ++ dtp :: (mid' ++ ntp :: post) := by
      rw [hspecs, hcons]
      rfl
    rw [← shape] at first
    rw [first]
    unfold spec
    rw [hd]
    rfl

/-- A key that is not spent makes a cycle of three matches. -/
theorem depthLast_of_lawful {specs : List Tp} (hname : ∃ tp ∈ specs, sortKey tp = .name)
    (h : ∀ xs : List Gmatch, (xs.map Gmatch.uname).Nodup → LawfulOn (gmatchcmp m numeric specs) xs) :
    DepthLast specs := by
  by_contra hbad
  obtain ⟨k, d, turn, telling⟩ := exists_telling m numeric hname hbad
  obtain ⟨lo, hi, hlo, hhi, hne, first, second⟩ : ∃ lo hi : Nat, lo < 3 ∧ hi < 3 ∧ (lo ≠ 1 ∧ 1 ≠ hi) ∧
      directed turn compare lo 1 = .lt ∧ directed turn compare 1 hi = .lt := by
    cases turn with
    | false => exact ⟨0, 2, by decide⟩
    | true => exact ⟨2, 0, by decide⟩
  have cycle (x y : FileName) (names : [x, asideName, y].Nodup)
      (hx : depthcmp x.bytes asideName.bytes = .eq) (hy : depthcmp asideName.bytes y.bytes = .eq)
      (hxy : depthcmp x.bytes y.bytes ≠ .eq) :
      (directed d (fun x y : FileName => depthcmp x.bytes y.bytes) x y).isLE := by
    have lawful := h [sample k lo x, sample k 1 asideName, sample k hi y] names
    rw [← telling.depth lo hi x y hxy]
    apply lawful.trans (sample k lo x) (by simp) (sample k 1 asideName) (by simp) (sample k hi y)
      (by simp)
    · rw [telling.aside lo 1 hlo (by decide) hne.1 x asideName hx, first]
      rfl
    · rw [telling.aside 1 hi (by decide) hhi hne.2 asideName y hy, second]
      rfl
  cases d with
  | false =>
    have up := cycle flatName deepName (by decide) (by decide) (by decide) (by decide)
    exact absurd up (by decide)
  | true =>
    have down := cycle deepName flatName (by decide) (by decide) (by decide) (by decide)
    exact absurd down (by decide)

end Cycle

section Result

variable (m : Modes) (numeric : Bool)

/-- Matches that compare equal have one name, since there is a name key. -/
theorem uname_eq_of_eq {specs : List Tp} (hname : ∃ tp ∈ specs, sortKey tp = .name) {a b : Gmatch}
    (h : gmatchcmp m numeric specs a b = .eq) : a.uname = b.uname := by
  obtain ⟨tp, htp, hk⟩ := hname
  rw [gmatchcmp_eq] at h
  have tie := (specscmp_eq_eq m numeric).mp h tp htp
  rw [hk] at tie
  have names := (reads_namecmp m numeric).eq_of_eq a.uname.no_nul b.uname.no_nul tie
  cases ha : a.uname
  cases hb : b.uname
  rw [ha, hb] at names
  congr

theorem gmatchcmp_lawfulOn {specs : List Tp} (hname : ∃ tp ∈ specs, sortKey tp = .name)
    (h : DepthLast specs) {xs : List Gmatch} (hxs : (xs.map Gmatch.uname).Nodup) :
    LawfulOn (gmatchcmp m numeric specs) xs := by
  have trans := gmatchcmp_trans m numeric hname h
  apply lawfulOn_of_trans
  intro a ha b hb hab
  exact List.inj_on_of_nodup_map hxs ha hb (uname_eq_of_eq m numeric hname hab)

theorem sort_matches_perm (env : Env) (state : Globdata) (hsort : state.keepsOrder = false)
    (h : DepthLast (tieBreak state.specs)) {found found' : List Gmatch} (hp : found.Perm found')
    (hnames : (found.map fun g => state.sortName env g.path).Nodup) :
    sort_matches env { state with found := found } = sort_matches env { state with found := found' } := by
  let named : List Gmatch → List Gmatch := fun found =>
    found.map fun g => { g with uname := state.sortName env g.path }
  have distinct : ((named found).map Gmatch.uname).Nodup := by
    rw [List.map_map]
    exact hnames
  have trans := gmatchcmp_trans env.toModes (state.numeric env) (exists_name state.specs) h
  have lawful := gmatchcmp_lawfulOn env.toModes (state.numeric env) (exists_name state.specs) h distinct
  have same := mergeSort_eq_of_perm lawful (hp.map fun g : Gmatch =>
    ({ g with uname := state.sortName env g.path } : Gmatch))
  have value (found : List Gmatch) : sort_matches env { state with found := found } =
      ((named found).mergeSort fun a b =>
        (gmatchcmp env.toModes (state.numeric env) (tieBreak state.specs) a b).isLE, state.unsorted) :=
    if_neg (ne_true_of_eq_false hsort)
  rw [value, value]
  exact congrArg (·, state.unsorted) same

/-- The comparator of `sort_matches` is a total order on any matches of distinct names, and the
result does not depend on the order in which they were found, exactly if no key stands between a depth
key and the name that still tells two matches apart. -/
theorem sort_matches_lawful_iff (env : Env) (state : Globdata) (hsort : state.keepsOrder = false) :
    ((∀ xs : List Gmatch, (xs.map Gmatch.uname).Nodup →
        LawfulOn (gmatchcmp env.toModes (state.numeric env) (tieBreak state.specs)) xs) ∧
      ∀ found found' : List Gmatch, found.Perm found' →
        (found.map fun g => state.sortName env g.path).Nodup →
        sort_matches env { state with found := found } =
          sort_matches env { state with found := found' }) ↔
      DepthLast (tieBreak state.specs) := by
  constructor
  · rintro ⟨lawful, -⟩
    exact depthLast_of_lawful env.toModes (state.numeric env) (exists_name state.specs) lawful
  · intro h
    refine ⟨fun xs hxs => ?_, fun found found' hp hnames => ?_⟩
    · exact gmatchcmp_lawfulOn env.toModes (state.numeric env) (exists_name state.specs) h hxs
    · exact sort_matches_perm env state hsort h hp hnames

def plainEnv : Env where
  dash_strict := false
  pdksh_family := false
  ash_mode := false
  markdirs := false
  numericglobsort := false
  symlink_metadata := fun _ => none
  metadata := fun _ => none

/-- `*(oLod)`. -/
def sizeThenDepth : Globdata where
  qualifiers := some ⟨[GS_SIZE, GS_DEPTH], none, none, false, false, none⟩
  found := []

theorem sizeThenDepth_lawful :
    LawfulOn (gmatchcmp plainEnv.toModes false (tieBreak [GS_SIZE, GS_DEPTH]))
      [sample (.size false) 3 deepName, sample (.size false) 2 asideName,
        sample (.size false) 1 flatName] :=
  ((sort_matches_lawful_iff plainEnv sizeThenDepth rfl).mpr (by decide)).1 _ (by decide)

/-- `**/*(odoL)` on files of 3, 2 and 1 bytes: each comes before the next, and the last before the
first. -/
theorem depth_size_cycle :
    ¬ LawfulOn (gmatchcmp plainEnv.toModes false (tieBreak [GS_DEPTH, GS_SIZE]))
      [sample (.size false) 3 deepName, sample (.size false) 2 asideName,
        sample (.size false) 1 flatName] := by
  intro h
  have loop := h.trans (sample (.size false) 1 flatName) (by simp)
    (sample (.size false) 2 asideName) (by simp) (sample (.size false) 3 deepName) (by simp)
    (by decide) (by decide)
  exact absurd loop (by decide)

end Result

end Zshrs.Glob
