import Zshrs.Daemon.Shard

namespace Zshrs.Daemon.Shard

open Lib Lib.Runs

variable {ι : Type} [DecidableEq ι]

/-- When a call that has listed the directory and has not put its index in place did list it. -/
def Phase.listing : Phase → Option Nat
  | .reading t _ _ => some t
  | .ready t _ => some t
  | _ => none

/-- The condition on a step: a refresh does not fail, and the index of a call is put in place only when
no call that has listed before it is still on its way. -/
def NoOvertaking (s : State ι) (e : ι × Action) : Prop :=
  match e.2, s.phase e.1 with
  | .ensure_file_600 false, .renamed => False
  | .list_shards false, .landed => False
  | .writeIndexTmp false, .reading _ [] _ => False
  | .renameIndex false, .ready _ _ => False
  | .renameIndex true, .ready t _ => ∀ j, j ≠ e.1 → ∀ t' ∈ (s.phase j).listing, t ≤ t'
  | _, _ => True

def scan (images : Images) : List IndexEntry := (list_shards images).filterMap (readEntry images)

/-- Every shard that is there is one that `list_shards` takes and this build reads. -/
structure AllShards (images : Images) : Prop where
  sorted : SortedMap.Sorted images
  named : ∀ file ∈ images, RKYV <:+ file.1 → isShard file.1 = true
  readable : ∀ file ∈ images, RKYV <:+ file.1 → (entryOf file).isSome

section Directory

variable {images images' : Images} {name : Text}

theorem rkyv_of_isShard (h : isShard name = true) : RKYV <:+ name := by
  unfold isShard at h
  exact of_decide_eq_true (Bool.and_eq_true_iff.mp h).1

theorem lock_path_not_shard (c : Call) : ¬ RKYV <:+ c.lock_path := by
  intro h
  have same := List.suffix_of_suffix_length_le h (List.suffix_append c.final_path LOCK) (Nat.le_refl 5)
  exact absurd same (by decide)

theorem tmp_path_not_shard (c : Call) : ¬ RKYV <:+ c.tmp_path := by
  rintro ⟨front, h⟩
  have last := congrArg List.getLast? h
  have nonempty : RKYV ≠ [] := List.cons_ne_nil _ _
  rw [List.getLast?_append_of_ne_nil front nonempty, Call.tmp_path, List.append_cons,
    ← List.append_assoc, List.getLast?_append_of_ne_nil _ Nat.toDigits_ne_nil] at last
  have digit : ('v' : Char).isDigit = true :=
    Nat.isDigit_of_mem_toDigits (by decide) (by decide) (List.mem_of_getLast? last.symm)
  exact absurd digit (by decide)

theorem AllShards.insert (h : AllShards images) (c : Call) (hc : isShard c.final_path = true) :
    AllShards (SortedMap.insert c.final_path c.file images) := by
  refine ⟨h.sorted.insert _ _, ?_, ?_⟩
  · intro file hf
    rcases SortedMap.mem_insert hf with rfl | hf
    · exact fun _ => hc
    · exact h.named file hf
  · intro file hf
    rcases SortedMap.mem_insert hf with rfl | hf
    · exact fun _ => rfl
    · exact h.readable file hf

theorem AllShards.insert_beside (h : AllShards images) (hn : ¬ RKYV <:+ name) (file : ShardFile) :
    AllShards (SortedMap.insert name file images) := by
  refine ⟨h.sorted.insert _ _, ?_, ?_⟩
  · intro file hf
    rcases SortedMap.mem_insert hf with rfl | hf
    · exact fun hr => absurd hr hn
    · exact h.named file hf
  · intro file hf
    rcases SortedMap.mem_insert hf with rfl | hf
    · exact fun hr => absurd hr hn
    · exact h.readable file hf

theorem AllShards.filter (h : AllShards images) (p : Text × ShardFile → Bool) : AllShards (images.filter p) :=
  ⟨h.sorted.filter p, fun file hf => h.named file (List.mem_filter.mp hf).1,
    fun file hf => h.readable file (List.mem_filter.mp hf).1⟩

theorem shards_insert_beside (hn : ¬ RKYV <:+ name) (file : ShardFile) (images : Images) :
    shards (SortedMap.insert name file images) = shards images :=
  SortedMap.filter_insert (fun _ => decide_eq_false hn) file images

theorem list_shards_eq (images : Images) : list_shards images = ((shards images).map Prod.fst).filter isShard := by
  unfold list_shards shards
  rw [List.filter_map, List.filter_map, List.filter_filter]
  congr 1
  apply List.filter_congr
  intro file _
  cases hs : isShard file.1 with
  | false => simp [hs]
  | true => simp [hs, rkyv_of_isShard hs]

theorem readEntry_shards (hn : RKYV <:+ name) (images : Images) : readEntry images name = readEntry (shards images) name := by
  unfold readEntry shards
  rw [List.find?_filter]
  congr 2
  funext file
  by_cases heq : file.1 = name
  · simp [heq, hn]
  · simp [heq]

theorem readEntry_congr (hsame : shards images' = shards images) (hn : RKYV <:+ name) :
    readEntry images' name = readEntry images name := by
  rw [readEntry_shards hn, hsame, ← readEntry_shards hn]

theorem scan_congr (hsame : shards images' = shards images) : scan images' = scan images := by
  unfold scan
  rw [list_shards_eq, hsame, ← list_shards_eq]
  apply List.filterMap_congr
  intro path hpath
  exact readEntry_congr hsame (rkyv_of_isShard (List.mem_filter.mp hpath).2)

theorem readEntry_of_mem (h : SortedMap.Sorted images) {file : Text × ShardFile}
    (hf : file ∈ images) : readEntry images file.1 = entryOf file := by
  have found : images.filter (fun f => decide (f.1 = file.1)) = [file] := by
    rw [← h.filter_key hf]
    apply List.filter_congr
    intro f _
    exact decide_eq_decide.mpr Iff.rfl
  unfold readEntry
  rw [← List.head?_filter, found]
  rfl

theorem scan_eq (h : AllShards images) : (scan images).map some = (shards images).map entryOf := by
  have all : list_shards images = (shards images).map Prod.fst := by
    rw [list_shards_eq, List.filter_eq_self]
    intro name hn
    obtain ⟨file, hf, rfl⟩ := List.mem_map.mp hn
    obtain ⟨hf, hr⟩ := List.mem_filter.mp hf
    exact h.named file hf (of_decide_eq_true hr)
  unfold scan
  rw [all, List.filterMap_map, List.map_filterMap]
  rw [← List.filterMap_eq_map]
  apply List.filterMap_congr
  intro file hf
  obtain ⟨hf, hr⟩ := List.mem_filter.mp hf
  rw [Function.comp_apply, Function.comp_apply, readEntry_of_mem h.sorted hf]
  obtain ⟨e, he⟩ := Option.isSome_iff_exists.mp (h.readable file hf (of_decide_eq_true hr))
  rw [he]
  rfl

end Directory

/-- What a call has collected is right as long as no shard has landed since it listed them. -/
def Right (s : State ι) : Phase → Prop
  | .reading t todo entries => t ≤ s.clock ∧ (∀ path ∈ todo, RKYV <:+ path) ∧
      (s.landedAt ≤ t → entries ++ todo.filterMap (readEntry s.images) = scan s.images)
  | .ready t entries => t ≤ s.clock ∧ (s.landedAt ≤ t → entries.Perm (scan s.images))
  | _ => True

/-- A call that will still put a right index in place. -/
def Carries (landedAt : Nat) : Phase → Prop
  | .renamed => True
  | .landed => True
  | .reading t _ _ => landedAt ≤ t
  | .ready t _ => landedAt ≤ t
  | _ => False

def Phase.plain : Phase → Bool
  | .opened | .locked | .created | .written | .failed | .returned => true
  | _ => false

structure Inv (s : State ι) : Prop where
  landed_le : s.landedAt ≤ s.clock
  listed_le : s.index.listedAt ≤ s.clock
  shards : AllShards s.images
  right : ∀ i, Right s (s.phase i)
  behind : ∀ i, ∀ t ∈ (s.phase i).listing, s.index.listedAt ≤ t
  index : s.landedAt ≤ s.index.listedAt → s.index.entries.Perm (scan s.images)
  carried : s.index.listedAt < s.landedAt → ∃ i, Carries s.landedAt (s.phase i)

omit [DecidableEq ι] in
theorem Right.listing_le {s : State ι} {p : Phase} (h : Right s p) : ∀ t ∈ p.listing, t ≤ s.clock := by
  cases p with
  | reading t todo entries =>
    rintro t' ⟨⟩
    exact h.1
  | ready t entries =>
    rintro t' ⟨⟩
    exact h.1
  | idle | opened | locked | created | written | renamed | landed | refreshed | failed | returned => rintro t' ⟨⟩

omit [DecidableEq ι] in
theorem Right.of_before {s s' : State ι} {p : Phase} (h : Right s p) (hclock : s'.clock = s.clock)
    (hold : ∀ t ∈ p.listing, t < s'.landedAt) : Right s' p := by
  cases p with
  | reading t todo entries =>
    exact ⟨hclock ▸ h.1, h.2.1, fun hle => absurd (hold t rfl) (Nat.not_lt.mpr hle)⟩
  | ready t entries =>
    exact ⟨hclock ▸ h.1, fun hle => absurd (hold t rfl) (Nat.not_lt.mpr hle)⟩
  | idle | opened | locked | created | written | renamed | landed | refreshed | failed | returned => trivial

namespace Inv

variable {s : State ι} {i : ι} {p : Phase}

theorem goto (h : Inv s) (hr : Right s p) (hb : ∀ t ∈ p.listing, s.index.listedAt ≤ t)
    (hc : Carries s.landedAt (s.phase i) → Carries s.landedAt p) : Inv (s.goto i p) := by
  refine ⟨h.landed_le, h.listed_le, h.shards, fun j => ?_, fun j => ?_, h.index, fun hlt => ?_⟩
  · by_cases hj : j = i
    · subst hj
      rw [s.phase_goto_self]
      exact hr
    · rw [s.phase_goto_ne hj]
      exact h.right j
  · by_cases hj : j = i
    · subst hj
      rw [s.phase_goto_self]
      exact hb
    · rw [s.phase_goto_ne hj]
      exact h.behind j
  · obtain ⟨j, hj⟩ := h.carried hlt
    refine ⟨j, ?_⟩
    by_cases hji : j = i
    · subst hji
      rw [s.phase_goto_self]
      exact hc hj
    · rw [s.phase_goto_ne hji]
      exact hj

theorem goto_plain (h : Inv s) (hp : p.plain = true) (hc : ¬ Carries s.landedAt (s.phase i)) : Inv (s.goto i p) := by
  refine h.goto ?_ ?_ fun carries => absurd carries hc
  · cases p with
    | reading t todo entries => cases hp
    | ready t entries => cases hp
    | _ => trivial
  · cases p with
    | reading t todo entries => cases hp
    | ready t entries => cases hp
    | _ => rintro t ⟨⟩

omit [DecidableEq ι] in
theorem tick (h : Inv s) : Inv { s with clock := s.clock + 1 } := by
  refine ⟨Nat.le_succ_of_le h.landed_le, Nat.le_succ_of_le h.listed_le, h.shards, fun j => ?_, h.behind,
    h.index, h.carried⟩
  have right := h.right j
  revert right
  cases s.phase j with
  | reading t todo entries => exact fun right => ⟨Nat.le_succ_of_le right.1, right.2⟩
  | ready t entries => exact fun right => ⟨Nat.le_succ_of_le right.1, right.2⟩
  | idle | opened | locked | created | written | renamed | landed | refreshed | failed | returned => exact fun _ => trivial

omit [DecidableEq ι] in
theorem lock (h : Inv s) (locks : Text → Option ι) : Inv { s with locks := locks } :=
  ⟨h.landed_le, h.listed_le, h.shards, h.right, h.behind, h.index, h.carried⟩

omit [DecidableEq ι] in
theorem beside (h : Inv s) {images : Images} (all : AllShards images) (same : Shard.shards images = Shard.shards s.images) :
    Inv { s with images := images } := by
  have scanned := scan_congr same
  refine ⟨h.landed_le, h.listed_le, all, fun j => ?_, h.behind, fun hle => ?_, h.carried⟩
  · have right := h.right j
    revert right
    cases s.phase j with
    | reading t todo entries =>
      rintro ⟨hle, named, right⟩
      refine ⟨hle, named, fun fresh => ?_⟩
      dsimp only
      rw [scanned, ← right fresh]
      congr 1
      apply List.filterMap_congr
      exact fun path hpath => readEntry_congr same (named path hpath)
    | ready t entries =>
      rintro ⟨hle, right⟩
      refine ⟨hle, fun fresh => ?_⟩
      dsimp only
      rw [scanned]
      exact right fresh
    | idle | opened | locked | created | written | renamed | landed | refreshed | failed | returned => exact fun _ => trivial
  · dsimp only
    rw [scanned]
    exact h.index hle

omit [DecidableEq ι] in
theorem put (h : Inv s) {name : Text} (hn : ¬ RKYV <:+ name) (file : ShardFile) :
    Inv { s with images := SortedMap.insert name file s.images } :=
  h.beside (h.shards.insert_beside hn file) (shards_insert_beside hn file s.images)

omit [DecidableEq ι] in
theorem create (h : Inv s) {name : Text} (hn : ¬ RKYV <:+ name) : Inv { s with images := create name s.images } := by
  unfold Shard.create
  split
  · exact h
  · exact h.put hn _

/-- A shard lands. Nothing that was listed before is right any more, and its call carries on. -/
theorem land (h : Inv s) (c : Call) (hc : isShard c.final_path = true) :
    Inv (({ s with
      images := SortedMap.insert c.final_path c.file (s.images.filter (·.1 ≠ c.tmp_path))
      clock := s.clock + 1
      landedAt := s.clock + 1 } : State ι).goto i .renamed) := by
  have before : ∀ j, ∀ t ∈ (s.phase j).listing, t < s.clock + 1 := by
    intro j t ht
    exact Nat.lt_succ_of_le ((h.right j).listing_le t ht)
  refine ⟨Nat.le_refl _, Nat.le_succ_of_le h.listed_le, (h.shards.filter _).insert c hc, fun j => ?_, fun j => ?_,
    fun hle => ?_, fun _ => ?_⟩
  · by_cases hj : j = i
    · subst hj
      rw [State.phase_goto_self]
      trivial
    · rw [State.phase_goto_ne _ hj]
      exact (h.tick.right j).of_before rfl (before j)
  · by_cases hj : j = i
    · subst hj
      rw [State.phase_goto_self]
      rintro t ⟨⟩
    · rw [State.phase_goto_ne _ hj]
      exact h.behind j
  · exact absurd (Nat.lt_succ_of_le h.listed_le) (Nat.not_lt.mpr hle)
  · refine ⟨i, ?_⟩
    rw [State.phase_goto_self]
    trivial

/-- An index is put in place, and no call that listed before is still on its way. -/
theorem publish (h : Inv s) {t : Nat} {entries : List IndexEntry} (hp : s.phase i = .ready t entries)
    (hfirst : ∀ j, j ≠ i → ∀ t' ∈ (s.phase j).listing, t ≤ t') :
    Inv (({ s with index := ⟨entries, t⟩ } : State ι).goto i .refreshed) := by
  have right := h.right i
  have hle := h.behind i
  rw [hp] at right hle
  refine ⟨h.landed_le, right.1, h.shards, fun j => ?_, fun j => ?_, right.2, fun hlt => ?_⟩
  · by_cases hj : j = i
    · subst hj
      rw [State.phase_goto_self]
      trivial
    · rw [State.phase_goto_ne _ hj]
      exact h.right j
  · by_cases hj : j = i
    · subst hj
      rw [State.phase_goto_self]
      rintro t ⟨⟩
    · rw [State.phase_goto_ne _ hj]
      exact hfirst j hj
  · obtain ⟨j, hj⟩ := h.carried (Nat.lt_of_le_of_lt (hle t rfl) hlt)
    refine ⟨j, ?_⟩
    by_cases hji : j = i
    · subst hji
      rw [hp] at hj
      exact absurd hlt (Nat.not_lt.mpr hj)
    · rw [State.phase_goto_ne _ hji]
      exact hj

theorem list (h : Inv s) : Inv (s.goto i (.reading s.clock (list_shards s.images) [])) := by
  have named : ∀ path ∈ list_shards s.images, RKYV <:+ path := fun path hpath =>
    rkyv_of_isShard (List.mem_filter.mp hpath).2
  refine h.goto ⟨Nat.le_refl _, named, fun _ => rfl⟩ ?_ fun _ => h.landed_le
  rintro t ⟨⟩
  exact h.listed_le

theorem read (h : Inv s) {t : Nat} {path : Text} {todo : List Text} {entries : List IndexEntry}
    (hp : s.phase i = .reading t (path :: todo) entries) :
    Inv (s.goto i (.reading t todo (entries ++ (readEntry s.images path).toList))) := by
  have right := h.right i
  have behind := h.behind i
  rw [hp] at right behind
  have named : ∀ p ∈ todo, RKYV <:+ p := fun p hmem => right.2.1 p (List.mem_cons_of_mem path hmem)
  refine h.goto ⟨right.1, named, fun hle => ?_⟩ behind fun carries => by rwa [hp] at carries
  rw [← right.2.2 hle, List.append_assoc]
  congr 1
  cases hr : readEntry s.images path with
  | none => rw [List.filterMap_cons_none hr]; rfl
  | some e => rw [List.filterMap_cons_some hr]; rfl

theorem sort (h : Inv s) {t : Nat} {entries : List IndexEntry}
    (hp : s.phase i = .reading t [] entries) : Inv (s.goto i (.ready t (bySlug entries))) := by
  have right := h.right i
  have behind := h.behind i
  rw [hp] at right behind
  refine h.goto ⟨right.1, fun hle => ?_⟩ behind fun carries => by rwa [hp] at carries
  have all : entries = scan s.images := by
    rw [← right.2.2 hle, List.filterMap_nil, List.append_nil]
  rw [← all]
  exact List.mergeSort_perm _ _

end Inv

theorem inv_step {calls : ι → Call} (hshard : ∀ i, isShard (calls i).final_path = true) {s : State ι}
    {e : ι × Action} (he : NoOvertaking s e) (h : Inv s) : Inv (step calls s e) := by
  obtain ⟨i, a⟩ := e
  have ticked := h.tick
  change Inv (act (calls i) { s with clock := s.clock + 1 } i a (s.phase i))
  unfold NoOvertaking at he
  dsimp only at he
  generalize hp : s.phase i = p at he
  generalize hs' : ({ s with clock := s.clock + 1 } : State ι) = s' at ticked
  have hp' : s'.phase i = p := by rw [← hs', ← hp]
  have hno (hp : ¬ Carries s'.landedAt p) : ¬ Carries s'.landedAt (s'.phase i) := by rwa [hp']
  fun_cases act (calls i) s' i a p with
  | case1 => -- the lock's file is there
    exact (ticked.create (lock_path_not_shard (calls i))).goto_plain rfl (hno id)
  | case2 => exact ticked.goto_plain rfl (hno id)
  | case3 => exact (ticked.lock _).goto_plain rfl (hno id)
  | case4 => exact ticked
  | case5 => exact ticked.goto_plain rfl (hno id)
  | case6 => exact ticked.goto_plain rfl (hno id)
  | case7 => exact (ticked.put (tmp_path_not_shard (calls i)) _).goto_plain rfl (hno id)
  | case8 => exact ticked.goto_plain rfl (hno id)
  | case9 ok => -- the temp file is written, or not
    apply (ticked.put (tmp_path_not_shard (calls i)) _).goto_plain
    · cases ok <;> rfl
    · exact hno id
  | case10 =>
    subst hs'
    exact h.land (calls i) (hshard i)
  | case11 => exact ticked.goto_plain rfl (hno id)
  | case12 ok =>
    cases ok with
    | true => exact ticked.goto trivial (by rintro t ⟨⟩) fun _ => trivial
    | false => exact he.elim
  | case13 => exact ticked.list
  | case14 => exact he.elim
  | case15 => exact ticked.read hp'
  | case16 => exact ticked.sort hp'
  | case17 => exact he.elim
  | case18 =>
    subst hs'
    exact ticked.publish hp' he
  | case19 => exact he.elim
  | case20 => -- the lock is given back
    exact (ticked.lock _).goto_plain rfl (hno id)
  | case21 => exact (ticked.lock _).goto_plain rfl (hno id)
  | case22 => exact ticked

omit [DecidableEq ι] in
theorem Inv.inSync {s : State ι} (h : Inv s) (hno : ∀ i, ¬ Carries s.landedAt (s.phase i)) :
    InSync s := by
  have listed : s.landedAt ≤ s.index.listedAt := by
    by_contra hlt
    obtain ⟨i, hi⟩ := h.carried (Nat.lt_of_not_le hlt)
    exact hno i hi
  unfold InSync
  rw [← scan_eq h.shards]
  exact (h.index listed).map some

/-- A state to start from: no call is under way, and the index is that of a scan. -/
structure Quiet (s : State ι) : Prop where
  idle : ∀ i, s.phase i = .idle
  shards : AllShards s.images
  inSync : InSync s
  landed_le : s.landedAt ≤ s.index.listedAt
  listed_le : s.index.listedAt ≤ s.clock

omit [DecidableEq ι] in
theorem Quiet.inv {s : State ι} (h : Quiet s) : Inv s := by
  refine ⟨h.landed_le.trans h.listed_le, h.listed_le, h.shards, fun i => ?_, fun i => ?_, fun _ => ?_,
    fun hlt => absurd hlt (Nat.not_lt.mpr h.landed_le)⟩
  · rw [h.idle i]
    trivial
  · rw [h.idle i]
    rintro t ⟨⟩
  · have same : (s.index.entries.map some).Perm ((scan s.images).map some) := by
      rw [scan_eq h.shards]
      exact h.inSync
    have back := same.filterMap id
    rwa [List.filterMap_map, List.filterMap_map, Function.id_comp, List.filterMap_some,
      List.filterMap_some] at back

def NotOlder (calls : ι → Call) (s : State ι) (e : ι × Action) : Prop :=
  s.index.listedAt ≤ (step calls s e).index.listedAt

theorem notOlder_of_inv {calls : ι → Call} {s : State ι} (h : Inv s) (e : ι × Action) :
    NotOlder calls s e := by
  obtain ⟨i, a⟩ := e
  change s.index.listedAt ≤
    (act (calls i) { s with clock := s.clock + 1 } i a (s.phase i)).index.listedAt
  have behind := h.behind i
  generalize hs' : ({ s with clock := s.clock + 1 } : State ι) = s'
  have index : s'.index = s.index := by rw [← hs']
  generalize s.phase i = p at behind
  fun_cases act (calls i) s' i a p with
  | case18 t => exact behind t rfl
  | _ => exact Nat.le_of_eq (congrArg IndexShard.listedAt index.symm)

/-- In a run of any calls in which no refresh fails and none overtakes another, the index lists exactly
the shards that are there once every call has returned, and is never replaced by an older one. -/
theorem index_converges (calls : ι → Call) (hshard : ∀ i, isShard (calls i).final_path = true)
    (s : State ι) (hs : Quiet s) (es : List (ι × Action)) (hes : Along (step calls) NoOvertaking s es) :
    (AllReturned (run (step calls) s es) → InSync (run (step calls) s es)) ∧
      Along (step calls) (NotOlder calls) s es := by
  have kept : ∀ s e, NoOvertaking s e → Inv s → Inv (step calls s e) := fun _ _ he h =>
    inv_step hshard he h
  constructor
  · intro returned
    apply (hes.invariant kept hs.inv).inSync
    intro i
    rw [returned i]
    exact id
  · exact hes.of_invariant kept (fun _ e _ h => notOlder_of_inv h e) hs.inv

def twoCalls (second : Bool) : Call :=
  let slug := if second then ['b'] else ['a']
  ⟨⟨slug, slug, 1, 0, 0⟩, 64, shard_filename (fun _ => ['0']) slug slug, 7, if second then 2 else 1⟩

def emptyCache : State Bool :=
  { images := [], index := ⟨[], 0⟩, locks := fun _ => none, phase := fun _ => .idle, clock := 0,
    landedAt := 0 }

def upToListing (who : Bool) : List (Bool × Action) :=
  [(who, .openLock true), (who, .flock true), (who, .createTmp true), (who, .writeTmp true), (who, .rename true),
    (who, .ensure_file_600 true), (who, .list_shards true)]

def fromListing (who : Bool) : List (Bool × Action) :=
  [(who, .readNext), (who, .readNext), (who, .writeIndexTmp true), (who, .renameIndex true), (who, .done)]

def overtaken : List (Bool × Action) :=
  upToListing false ++ (upToListing true ++ fromListing true) ++ fromListing false

/-- The second call lands its shard while the first one reads, but lists behind its index. -/
def inTurn : List (Bool × Action) :=
  upToListing false ++ (upToListing true).take 6 ++ fromListing false ++ (upToListing true).drop 6 ++ fromListing true

instance (s : State Bool) : Decidable (InSync s) := inferInstanceAs (Decidable (List.Perm _ _))

instance (calls : Bool → Call) (s : State Bool) (e : Bool × Action) : Decidable (NotOlder calls s e) :=
  inferInstanceAs (Decidable (_ ≤ _))

theorem emptyCache_quiet : Quiet emptyCache :=
  ⟨fun _ => rfl, ⟨List.Pairwise.nil, by rintro _ ⟨⟩, by rintro _ ⟨⟩⟩, .nil, Nat.le_refl _, Nat.le_refl _⟩

theorem twoCalls_shards : ∀ second, isShard (twoCalls second).final_path = true := by
  decide +kernel

/-- Both calls have returned, and the index lists both shards beside the locks that they leave. -/
theorem inTurn_converges :
    (AllReturned (run (step twoCalls) emptyCache inTurn) ∧ InSync (run (step twoCalls) emptyCache inTurn)) ∧
      Along (step twoCalls) (NotOlder twoCalls) emptyCache inTurn := by
  have along : Along (step twoCalls) NoOvertaking emptyCache inTurn := by
    refine ⟨trivial, trivial, trivial, trivial, trivial, trivial, trivial, trivial, trivial, trivial, trivial, trivial,
      trivial, trivial, trivial, trivial, ?_, trivial, trivial, trivial, trivial, trivial, ?_, trivial, trivial⟩
    · intro j hj t' ht'
      cases j
      · exact absurd rfl hj
      · cases ht'
    · intro j hj t' ht'
      cases j
      · cases ht'
      · exact absurd rfl hj
  obtain ⟨converges, kept⟩ :=
    index_converges twoCalls twoCalls_shards emptyCache emptyCache_quiet inTurn along
  have returned : AllReturned (run (step twoCalls) emptyCache inTurn) := by
    intro i
    cases i
    · rfl
    · rfl
  exact ⟨⟨returned, converges returned⟩, kept⟩

/-- Both calls have returned, both shards are there, and the index lists the first one only: it was put
in place of a later one. -/
theorem overtaken_lost :
    AllReturned (run (step twoCalls) emptyCache overtaken) ∧
      ¬ InSync (run (step twoCalls) emptyCache overtaken) ∧
      ¬ Along (step twoCalls) (NotOlder twoCalls) emptyCache overtaken := by
  refine ⟨?_, by decide +kernel, by decide +kernel⟩
  intro i
  cases i
  · rfl
  · rfl

end Zshrs.Daemon.Shard
