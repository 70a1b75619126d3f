import Mathlib.Data.List.Nodup
import Zshrs.Par.Pfirst

namespace Zshrs.Par.Puniq

variable {α β : Type} [DecidableEq α]

/-- The order in which parallel results come in: any. -/
structure Collect (β : Type) where
  order : List β → List β
  perm : ∀ l, (order l).Perm l

instance : Inhabited (Collect β) := ⟨id, fun l => .refl l⟩

/-- The loop over `seen` and `out`, which both paths run: an item stays if no earlier one has its key. -/
def keep_first (key : β → α) : List α → List β → List β
  | _, [] => []
  | seen, v :: list =>
      if key v ∈ seen then keep_first key seen list
      else v :: keep_first key (key v :: seen) list

def enumerate (list : List α) : List (Nat × α) := list.zipIdx.map Prod.swap

/-- `h` is what `DefaultHasher` gives for a key. -/
def partition_bucket (h : α → Nat) (key : α) (p : Nat) : Nat := if p ≤ 1 then 0 else h key % p

def puniq_sequential (list : List α) : List α := keep_first id [] list

def buckets (h : α → Nat) (p : Nat) (items : List (Nat × α)) : List (List (Nat × α)) :=
  items.foldl (fun buckets q => buckets.modify (partition_bucket h q.2 p) (· ++ [q])) (List.replicate p [])

def puniq_parallel_buckets (h : α → Nat) (c : Collect (List (Nat × α))) (list : List α) (p : Nat) :
    List α :=
  let partials := c.order ((buckets h p (enumerate list)).map (keep_first Prod.snd []))
  let merged := partials.flatten.mergeSort fun a b => a.1 ≤ b.1
  merged.map Prod.snd

def puniq_run (h : α → Nat) (c : Collect (List (Nat × α))) (list : List α) (num_partitions : Nat) :
    List α :=
  let n := list.length
  if n = 0 then []
  else
    let p := max num_partitions 1
    if p ≤ 1 ∨ n < min (p * 4) usize_MAX then puniq_sequential list
    else puniq_parallel_buckets h c list p

/-- The items that no equal item comes before, in order. -/
def distinct (list : List α) : List α :=
  ((enumerate list).filter fun q => q.2 ∉ list.take q.1).map Prod.snd

omit [DecidableEq α] in
theorem mem_enumerate {list : List α} {q : Nat × α} : q ∈ enumerate list ↔ list[q.1]? = some q.2 := by
  obtain ⟨i, v⟩ := q
  rw [enumerate, List.mem_map, ← List.mem_zipIdx_iff_getElem? (x := (v, i))]
  constructor
  · rintro ⟨⟨w, j⟩, hmem, heq⟩
    cases heq
    exact hmem
  · intro hmem
    exact ⟨(v, i), hmem, rfl⟩

omit [DecidableEq α] in
theorem pairwise_zipIdx (list : List α) (n : Nat) : (list.zipIdx n).Pairwise fun a b => a.2 < b.2 := by
  induction list generalizing n with
  | nil => exact List.Pairwise.nil
  | cons v list ih =>
      rw [List.zipIdx_cons, List.pairwise_cons]
      refine ⟨?_, ih (n + 1)⟩
      intro q hq
      exact (List.mem_zipIdx hq).1

omit [DecidableEq α] in
theorem pairwise_enumerate (list : List α) : (enumerate list).Pairwise fun a b => a.1 < b.1 := by
  rw [enumerate, List.pairwise_map]
  exact pairwise_zipIdx list 0

omit [DecidableEq α] in
theorem map_enumerate (list : List α) : (enumerate list).map Prod.snd = list := by
  rw [enumerate, List.map_map]
  exact List.zipIdx_map_fst 0 list

section Kept

theorem keep_first_map {γ : Type} (f : β → γ) (key : γ → α) (seen : List α) (items : List β) :
    (keep_first (fun b => key (f b)) seen items).map f = keep_first key seen (items.map f) := by
  induction items generalizing seen with
  | nil => rfl
  | cons v items ih =>
      rw [List.map_cons, keep_first, keep_first]
      split
      · exact ih seen
      · rw [List.map_cons, ih]

/-- Among numbered items in order, one stays if no item of a lower number has its value. -/
theorem keep_first_numbered {items : List (Nat × α)} (hsorted : items.Pairwise fun a b => a.1 < b.1)
    (seen : List α) :
    keep_first Prod.snd seen items =
      items.filter fun q => q.2 ∉ seen ∧ ∀ r ∈ items, r.1 < q.1 → r.2 ≠ q.2 := by
  induction items generalizing seen with
  | nil => rfl
  | cons v items ih =>
      obtain ⟨hhead, htail⟩ := List.pairwise_cons.mp hsorted
      rw [keep_first]
      split
      · rename_i hseen
        have hdrop : ¬ decide (v.2 ∉ seen ∧ ∀ r ∈ v :: items, r.1 < v.1 → r.2 ≠ v.2) = true := by
          intro hkeep
          exact (of_decide_eq_true hkeep).1 hseen
        rw [List.filter_cons, if_neg hdrop, ih htail]
        apply List.filter_congr
        intro q hq
        rw [decide_eq_decide, List.forall_mem_cons]
        constructor
        · rintro ⟨hnew, hfirst⟩
          refine ⟨hnew, ?_, hfirst⟩
          intro _ heq
          exact hnew (heq ▸ hseen)
        · rintro ⟨hnew, -, hfirst⟩
          exact ⟨hnew, hfirst⟩
      · rename_i hnew
        have hkeep : decide (v.2 ∉ seen ∧ ∀ r ∈ v :: items, r.1 < v.1 → r.2 ≠ v.2) = true := by
          apply decide_eq_true
          refine ⟨hnew, ?_⟩
          intro r hr hlt
          rcases List.mem_cons.mp hr with rfl | hr
          · exact absurd hlt (Nat.lt_irrefl r.1)
          · exact absurd (hhead r hr) (Nat.lt_asymm hlt)
        rw [List.filter_cons, if_pos hkeep, ih htail]
        congr 1
        apply List.filter_congr
        intro q hq
        rw [decide_eq_decide, List.forall_mem_cons, List.mem_cons, not_or]
        constructor
        · rintro ⟨⟨hne, hnew⟩, hfirst⟩
          exact ⟨hnew, fun _ heq => hne heq.symm, hfirst⟩
        · rintro ⟨hnew, hne, hfirst⟩
          exact ⟨⟨fun heq => hne (hhead q hq) heq.symm, hnew⟩, hfirst⟩

theorem mem_keep_first {items : List (Nat × α)} (hsorted : items.Pairwise fun a b => a.1 < b.1)
    {q : Nat × α} :
    q ∈ keep_first Prod.snd [] items ↔ q ∈ items ∧ ∀ r ∈ items, r.1 < q.1 → r.2 ≠ q.2 := by
  rw [keep_first_numbered hsorted, List.mem_filter, decide_eq_true_eq]
  simp only [List.not_mem_nil, not_false_eq_true, true_and]

end Kept

theorem puniq_sequential_eq (list : List α) : puniq_sequential list = distinct list := by
  have hpairs := keep_first_map Prod.snd id [] (enumerate list)
  rw [map_enumerate] at hpairs
  rw [puniq_sequential, distinct, ← hpairs]
  congr 1
  have hnum := keep_first_numbered (pairwise_enumerate list) []
  refine hnum.trans ?_
  apply List.filter_congr
  rintro ⟨i, v⟩ hq
  rw [decide_eq_decide]
  have hi : i < list.length := (List.getElem?_eq_some_iff.mp (mem_enumerate.mp hq)).1
  constructor
  · rintro ⟨-, hfirst⟩ hmem
    obtain ⟨j, hj, hget⟩ := List.getElem_of_mem hmem
    rw [List.length_take] at hj
    rw [List.getElem_take] at hget
    refine hfirst (j, v) ?_ (by omega) rfl
    rw [mem_enumerate, ← hget]
    exact List.getElem?_eq_getElem (by omega)
  · intro hfirst
    refine ⟨List.not_mem_nil, ?_⟩
    rintro ⟨j, w⟩ hr hlt rfl
    apply hfirst
    have hget : list[j]? = some w := mem_enumerate.mp hr
    apply List.mem_of_getElem? (i := j)
    rw [List.getElem?_take_of_lt hlt]
    exact hget

section Buckets

variable (h : α → Nat) {p : Nat}

omit [DecidableEq α] in
theorem partition_bucket_lt (hp : 0 < p) (key : α) : partition_bucket h key p < p := by
  rw [partition_bucket]
  split
  · exact hp
  · exact Nat.mod_lt _ hp

omit [DecidableEq α] in
/-- The loop that fills the buckets adds to each the items that hash to it. -/
theorem foldl_buckets (items : List (Nat × α)) (start : List (List (Nat × α))) (b : Nat) :
    (items.foldl (fun buckets q => buckets.modify (partition_bucket h q.2 p) (· ++ [q])) start)[b]? =
      start[b]?.map (· ++ items.filter fun q => partition_bucket h q.2 p = b) := by
  induction items generalizing start with
  | nil => cases hb : start[b]? <;> simp [hb]
  | cons q items ih =>
      rw [List.foldl_cons, ih]
      by_cases hq : partition_bucket h q.2 p = b
      · subst hq
        rw [List.getElem?_modify_eq, List.filter_cons_of_pos (by simp)]
        cases start[partition_bucket h q.2 p]? with
        | none => rfl
        | some old => simp
      · rw [List.getElem?_modify_ne _ _ hq, List.filter_cons_of_neg (by simpa using hq)]

omit [DecidableEq α] in
theorem buckets_eq (p : Nat) (items : List (Nat × α)) :
    buckets h p items =
      (List.range p).map fun b => items.filter fun q => partition_bucket h q.2 p = b := by
  apply List.ext_getElem?
  intro b
  rw [buckets, foldl_buckets, List.getElem?_map]
  by_cases hb : b < p
  · rw [List.getElem?_replicate_of_lt hb, List.getElem?_range hb]
    rfl
  · rw [List.getElem?_eq_none (by simpa using hb), List.getElem?_eq_none (by simpa using hb)]
    rfl

/-- Equal items share a bucket, so an item is the first of its bucket if it is the first of all. -/
theorem mem_partials (hp : 0 < p) (list : List α) {q : Nat × α} :
    q ∈ ((buckets h p (enumerate list)).map (keep_first Prod.snd [])).flatten ↔
      q ∈ keep_first Prod.snd [] (enumerate list) := by
  have hsorted := pairwise_enumerate list
  rw [buckets_eq, mem_keep_first hsorted]
  simp only [List.mem_flatten, List.map_map, List.mem_map, List.mem_range, Function.comp_def]
  constructor
  · rintro ⟨-, ⟨b, -, rfl⟩, hq⟩
    rw [mem_keep_first (hsorted.filter _)] at hq
    obtain ⟨hmem, hfirst⟩ := hq
    rw [List.mem_filter, decide_eq_true_eq] at hmem
    refine ⟨hmem.1, ?_⟩
    intro r hr hlt heq
    refine hfirst r ?_ hlt heq
    rw [List.mem_filter, decide_eq_true_eq, heq]
    exact ⟨hr, hmem.2⟩
  · rintro ⟨hmem, hfirst⟩
    refine ⟨_, ⟨partition_bucket h q.2 p, partition_bucket_lt h hp q.2, rfl⟩, ?_⟩
    rw [mem_keep_first (hsorted.filter _), List.mem_filter, decide_eq_true_eq]
    refine ⟨⟨hmem, rfl⟩, ?_⟩
    intro r hr
    exact hfirst r (List.mem_filter.mp hr).1

theorem keep_first_sublist (seen : List α) (items : List (Nat × α)) :
    (keep_first Prod.snd seen items).Sublist items := by
  induction items generalizing seen with
  | nil => exact List.Sublist.refl []
  | cons v items ih =>
      rw [keep_first]
      split
      · exact (ih seen).cons v
      · exact (ih _).cons_cons v

omit [DecidableEq α] in
theorem nodup_of_sorted {items : List (Nat × α)} (hsorted : items.Pairwise fun a b => a.1 < b.1) :
    items.Nodup := by
  apply hsorted.imp
  rintro a b hlt rfl
  exact Nat.lt_irrefl a.1 hlt

theorem nodup_partials (list : List α) :
    ((buckets h p (enumerate list)).map (keep_first Prod.snd [])).flatten.Nodup := by
  have hnodup := nodup_of_sorted (pairwise_enumerate list)
  rw [List.nodup_flatten, buckets_eq, List.map_map]
  constructor
  · intro l hl
    obtain ⟨b, -, rfl⟩ := List.mem_map.mp hl
    exact ((keep_first_sublist [] _).trans List.filter_sublist).nodup hnodup
  · rw [List.pairwise_map]
    apply List.nodup_range.imp
    intro b b' hne q hq hq'
    have hb := (List.mem_filter.mp ((keep_first_sublist [] _).subset hq)).2
    have hb' := (List.mem_filter.mp ((keep_first_sublist [] _).subset hq')).2
    exact hne ((of_decide_eq_true hb).symm.trans (of_decide_eq_true hb'))

theorem merged_eq (hp : 0 < p) (c : Collect (List (Nat × α))) (list : List α) :
    (c.order ((buckets h p (enumerate list)).map (keep_first Prod.snd []))).flatten.mergeSort
        (fun a b => a.1 ≤ b.1) =
      keep_first Prod.snd [] (enumerate list) := by
  have hsorted := (pairwise_enumerate list).sublist (keep_first_sublist [] (enumerate list))
  have hperm := (List.mergeSort_perm _ fun a b : Nat × α => decide (a.1 ≤ b.1)).trans
    ((c.perm ((buckets h p (enumerate list)).map (keep_first Prod.snd []))).flatten.trans
      ((List.perm_ext_iff_of_nodup (nodup_partials h list) (nodup_of_sorted hsorted)).mpr
        fun q => mem_partials h hp list))
  have hmerged := List.pairwise_mergeSort
    (fun (a b c : Nat × α) (hab : decide (a.1 ≤ b.1) = true) (hbc : decide (b.1 ≤ c.1) = true) =>
      decide_eq_true (Nat.le_trans (of_decide_eq_true hab) (of_decide_eq_true hbc)))
    (fun a b => by
      rw [Bool.or_eq_true, decide_eq_true_eq, decide_eq_true_eq]
      exact Nat.le_total a.1 b.1)
    (c.order ((buckets h p (enumerate list)).map (keep_first Prod.snd []))).flatten
  have hkept : (keep_first Prod.snd [] (enumerate list)).Pairwise fun a b => decide (a.1 ≤ b.1) = true :=
    hsorted.imp fun hlt => decide_eq_true (Nat.le_of_lt hlt)
  refine List.Perm.eq_of_pairwise ?_ hmerged hkept hperm
  rintro ⟨i, v⟩ ⟨j, w⟩ hmem hmem' hle hle'
  have hij : i = j := Nat.le_antisymm (of_decide_eq_true hle) (of_decide_eq_true hle')
  have hv := mem_enumerate.mp ((keep_first_sublist [] _).subset (hperm.subset hmem))
  have hw := mem_enumerate.mp ((keep_first_sublist [] _).subset hmem')
  subst hij
  rw [hv] at hw
  cases hw
  rfl

end Buckets

theorem puniq_parallel_buckets_eq (h : α → Nat) (c : Collect (List (Nat × α))) (list : List α) {p : Nat}
    (hp : 0 < p) : puniq_parallel_buckets h c list p = puniq_sequential list := by
  have hpairs := keep_first_map Prod.snd id [] (enumerate list)
  rw [map_enumerate] at hpairs
  rw [puniq_parallel_buckets, merged_eq h hp]
  exact hpairs

/-- Both paths give the distinct items, whatever the hash and the order the buckets finish in. -/
theorem puniq_run_distinct (h : α → Nat) (c : Collect (List (Nat × α))) (list : List α)
    (num_partitions : Nat) : puniq_run h c list num_partitions = distinct list := by
  rw [puniq_run]
  dsimp only
  split
  · rename_i hnil
    rw [List.length_eq_zero_iff.mp hnil]
    rfl
  · split
    · exact puniq_sequential_eq list
    · rw [puniq_parallel_buckets_eq h c list (by omega), puniq_sequential_eq]

end Zshrs.Par.Puniq
