import Mathlib.Data.List.Basic
import Mathlib.Data.List.Forall2

namespace Zshrs.Lib.Comparators

open Std

variable {α β : Type}

/-- A comparison, turned round where the order is a descending one. -/
def directed (desc : Bool) (cmp : α → α → Ordering) (a b : α) : Ordering :=
  if desc then (cmp a b).swap else cmp a b

theorem directed_eq_eq {desc : Bool} {cmp : α → α → Ordering} {a b : α} :
    directed desc cmp a b = .eq ↔ cmp a b = .eq := by
  unfold directed
  cases desc with
  | false => rfl
  | true => rw [if_pos rfl, Ordering.swap_eq_eq]

theorem directed_congr {desc : Bool} {cmp : α → α → Ordering} {cmp' : β → β → Ordering} {a b : α}
    {c d : β} (h : cmp a b = cmp' c d) : directed desc cmp a b = directed desc cmp' c d := by
  unfold directed
  rw [h]

instance instTransCmpDirected (desc : Bool) (cmp : α → α → Ordering) [TransCmp cmp] :
    TransCmp (directed desc cmp) := by
  cases desc with
  | false => exact inferInstanceAs (TransCmp cmp)
  | true =>
    have turned : directed true cmp = fun a b => cmp b a := by
      funext a b
      have swap : cmp b a = (cmp a b).swap := OrientedCmp.eq_swap
      exact swap.symm
    rw [turned]
    infer_instance

/-- The comparisons of a list in turn, up to the first that decides. -/
def inTurn : List (α → α → Ordering) → α → α → Ordering
  | [], _, _ => .eq
  | cmp :: cmps, a, b => (cmp a b).then (inTurn cmps a b)

theorem inTurn_cons (cmp : α → α → Ordering) (cmps : List (α → α → Ordering)) :
    inTurn (cmp :: cmps) = compareLex cmp (inTurn cmps) := rfl

theorem inTurn_append (cmps cmps' : List (α → α → Ordering)) :
    inTurn (cmps ++ cmps') = compareLex (inTurn cmps) (inTurn cmps') := by
  induction cmps with
  | nil => rfl
  | cons cmp cmps ih =>
    rw [List.cons_append, inTurn_cons, ih, inTurn_cons]
    funext a b
    exact (Ordering.then_assoc _ _ _).symm

theorem inTurn_eq_eq {cmps : List (α → α → Ordering)} {a b : α} :
    inTurn cmps a b = .eq ↔ ∀ cmp ∈ cmps, cmp a b = .eq := by
  induction cmps with
  | nil => simp [inTurn]
  | cons cmp cmps ih => rw [inTurn, Ordering.then_eq_eq, ih, List.forall_mem_cons]

theorem inTurn_trans {cmps : List (α → α → Ordering)} (h : ∀ cmp ∈ cmps, TransCmp cmp) :
    TransCmp (inTurn cmps) := by
  induction cmps with
  | nil => exact { eq_swap := rfl, isLE_trans := fun _ _ => rfl }
  | cons cmp cmps ih =>
    have head : TransCmp cmp := h cmp List.mem_cons_self
    have tail : TransCmp (inTurn cmps) := ih fun c hc => h c (List.mem_cons_of_mem cmp hc)
    rw [inTurn_cons]
    infer_instance

theorem trans_on (g : α → β) (cmp : β → β → Ordering) [TransCmp cmp] :
    TransCmp fun a b => cmp (g a) (g b) where
  eq_swap := OrientedCmp.eq_swap
  isLE_trans := TransCmp.isLE_trans

/-- A comparison by a key, and then by one that depends on it. -/
theorem trans_within {κ : Type} [Ord κ] [TransOrd κ] [LawfulEqOrd κ] (k : α → κ) (cmp : κ → α → α → Ordering)
    [∀ c, TransCmp (cmp c)] : TransCmp fun a b => (compare (k a) (k b)).then (cmp (k a) a b) where
  eq_swap {a b} := by
    have swap : compare (k a) (k b) = (compare (k b) (k a)).swap := OrientedOrd.eq_swap
    cases hc : compare (k b) (k a) with
    | eq =>
      have turned : cmp (k a) a b = (cmp (k a) b a).swap := OrientedCmp.eq_swap
      rw [swap, hc, LawfulEqOrd.eq_of_compare hc]
      exact turned
    | lt =>
      rw [swap, hc]
      rfl
    | gt =>
      rw [swap, hc]
      rfl
  isLE_trans {a b c} hab hbc := by
    rw [Ordering.isLE_then_iff_or] at hab hbc ⊢
    rcases hab with hab | ⟨hab, hle⟩
    · rcases hbc with hbc | ⟨hbc, -⟩
      · exact .inl (TransCmp.lt_trans hab hbc)
      · exact .inl (LawfulEqOrd.eq_of_compare hbc ▸ hab)
    · have same := LawfulEqOrd.eq_of_compare hab
      rcases hbc with hbc | ⟨hbc, hle'⟩
      · exact .inl (same ▸ hbc)
      · exact .inr ⟨same ▸ hbc, TransCmp.isLE_trans hle (same ▸ hle')⟩

/-- Behind a comparison only what it leaves equal has to agree. -/
theorem compareLex_congr {cmp f g : α → α → Ordering} (h : ∀ a b, cmp a b = .eq → f a b = g a b) :
    compareLex cmp f = compareLex cmp g := by
  funext a b
  unfold compareLex
  cases hc : cmp a b with
  | lt => rfl
  | gt => rfl
  | eq => exact h a b hc

/-- A total order on a set of values, as a sort by comparison asks for. -/
structure LawfulOn (cmp : α → α → Ordering) (xs : List α) : Prop where
  refl : ∀ a ∈ xs, cmp a a = .eq
  swap : ∀ a ∈ xs, ∀ b ∈ xs, cmp b a = (cmp a b).swap
  antisymm : ∀ a ∈ xs, ∀ b ∈ xs, cmp a b = .eq → a = b
  trans : ∀ a ∈ xs, ∀ b ∈ xs, ∀ c ∈ xs, (cmp a b).isLE → (cmp b c).isLE → (cmp a c).isLE

theorem lawfulOn_of_trans {cmp : α → α → Ordering} [TransCmp cmp] {xs : List α}
    (h : ∀ a ∈ xs, ∀ b ∈ xs, cmp a b = .eq → a = b) : LawfulOn cmp xs where
  refl _ _ := ReflCmp.compare_self
  swap _ _ _ _ := OrientedCmp.eq_swap
  antisymm := h
  trans _ _ _ _ _ _ := TransCmp.isLE_trans

/-- A total preorder on a set of values. -/
structure PreorderOn (cmp : α → α → Ordering) (xs : List α) : Prop where
  swap : ∀ a ∈ xs, ∀ b ∈ xs, cmp b a = (cmp a b).swap
  trans : ∀ a ∈ xs, ∀ b ∈ xs, ∀ c ∈ xs, (cmp a b).isLE → (cmp b c).isLE → (cmp a c).isLE

theorem preorderOn_of_trans {cmp : α → α → Ordering} [TransCmp cmp] {xs : List α} : PreorderOn cmp xs where
  swap _ _ _ _ := OrientedCmp.eq_swap
  trans _ _ _ _ _ _ := TransCmp.isLE_trans

namespace PreorderOn

variable {cmp : α → α → Ordering} {xs ys : List α} {a b : α}

theorem mono (h : PreorderOn cmp xs) (hsub : ∀ a ∈ ys, a ∈ xs) : PreorderOn cmp ys where
  swap a ha b hb := h.swap a (hsub a ha) b (hsub b hb)
  trans a ha b hb c hc := h.trans a (hsub a ha) b (hsub b hb) c (hsub c hc)

theorem congr {cmp' : α → α → Ordering} (h : PreorderOn cmp xs)
    (heq : ∀ a ∈ xs, ∀ b ∈ xs, cmp' a b = cmp a b) : PreorderOn cmp' xs where
  swap a ha b hb := by
    rw [heq a ha b hb, heq b hb a ha]
    exact h.swap a ha b hb
  trans a ha b hb c hc := by
    rw [heq a ha b hb, heq b hb c hc, heq a ha c hc]
    exact h.trans a ha b hb c hc

/-- The values that a function gives are compared as their images are. -/
theorem on {f : β → α} {ys : List β} (h : PreorderOn cmp xs) (hf : ∀ b ∈ ys, f b ∈ xs) :
    PreorderOn (fun a b => cmp (f a) (f b)) ys where
  swap a ha b hb := h.swap _ (hf a ha) _ (hf b hb)
  trans a ha b hb c hc := h.trans _ (hf a ha) _ (hf b hb) _ (hf c hc)

theorem directed (h : PreorderOn cmp xs) (desc : Bool) : PreorderOn (directed desc cmp) xs := by
  cases desc with
  | false => exact h
  | true =>
    have turned (a : α) (ha : a ∈ xs) (b : α) (hb : b ∈ xs) :
        Comparators.directed true cmp a b = cmp b a := (h.swap a ha b hb).symm
    refine @PreorderOn.congr _ (fun a b => cmp b a) _ _ ⟨fun a ha b hb => h.swap b hb a ha, ?_⟩ turned
    exact fun a ha b hb c hc hab hbc => h.trans c hc b hb a ha hbc hab

theorem total (h : PreorderOn cmp xs) (ha : a ∈ xs) (hb : b ∈ xs) : (cmp a b).isLE ∨ (cmp b a).isLE := by
  rw [h.swap a ha b hb]
  cases cmp a b with
  | lt => exact .inl rfl
  | eq => exact .inl rfl
  | gt => exact .inr rfl

theorem eq_of_isLE (h : PreorderOn cmp xs) (ha : a ∈ xs) (hb : b ∈ xs) (hab : (cmp a b).isLE)
    (hba : (cmp b a).isLE) : cmp a b = .eq := by
  rw [h.swap a ha b hb] at hba
  cases hc : cmp a b with
  | lt =>
    rw [hc] at hba
    cases hba
  | eq => rfl
  | gt =>
    rw [hc] at hab
    cases hab

theorem self (h : PreorderOn cmp xs) (ha : a ∈ xs) : (cmp a a).isLE := by
  rcases h.total ha ha with hle | hle
  · exact hle
  · exact hle

/-- As many values are up to `a` in one sorted list as in the other. -/
theorem not_lt_of_sorted (h : PreorderOn cmp xs) (hsub : ∀ a ∈ ys, a ∈ xs) {zs : List α} (hp : ys.Perm zs)
    (hys : ys.Pairwise fun a b => (cmp a b).isLE) (hzs : zs.Pairwise fun a b => (cmp a b).isLE)
    {i : Nat} (hi : ys[i]? = some a) (hi' : zs[i]? = some b) : cmp a b ≠ .lt := by
  intro hlt
  obtain ⟨hlen, rfl⟩ := List.getElem?_eq_some_iff.mp hi
  obtain ⟨hlen', rfl⟩ := List.getElem?_eq_some_iff.mp hi'
  have ha := hsub _ (List.getElem_mem hlen)
  have hb := hsub _ (hp.mem_iff.mpr (List.getElem_mem hlen'))
  have front : ∀ c ∈ ys.take (i + 1), (cmp c ys[i]).isLE = true := by
    intro c hc
    obtain ⟨j, hj, rfl⟩ := List.getElem_of_mem hc
    rw [List.length_take] at hj
    rw [List.getElem_take]
    rcases Nat.lt_or_eq_of_le (Nat.lt_succ_iff.mp (Nat.lt_of_lt_of_le hj (Nat.min_le_left _ _))) with hji | rfl
    · exact List.pairwise_iff_getElem.mp hys j i _ hlen hji
    · exact h.self ha
  have back : ∀ c ∈ zs.drop i, ¬ (cmp c ys[i]).isLE = true := by
    intro c hc hle
    have hcx := hsub _ (hp.mem_iff.mpr (List.mem_of_mem_drop hc))
    obtain ⟨j, hj, rfl⟩ := List.getElem_of_mem hc
    rw [List.length_drop] at hj
    rw [List.getElem_drop] at hle hcx
    have hbc : (cmp zs[i] (zs[i + j])).isLE := by
      rcases Nat.eq_zero_or_pos j with rfl | hpos
      · exact h.self hb
      · exact List.pairwise_iff_getElem.mp hzs i (i + j) hlen' (by omega) (by omega)
    have hba := h.trans _ hb _ hcx _ ha hbc hle
    rw [h.swap _ ha _ hb, hlt] at hba
    cases hba
  generalize ys[i] = a at *
  have many : i + 1 ≤ ys.countP fun c => (cmp c a).isLE := by
    rw [← List.take_append_drop (i + 1) ys, List.countP_append, List.countP_eq_length.mpr front,
      List.length_take]
    omega
  have few : (zs.countP fun c => (cmp c a).isLE) ≤ i := by
    rw [← List.take_append_drop i zs, List.countP_append, List.countP_eq_zero.mpr back]
    refine Nat.le_trans (Nat.add_le_add_right List.countP_le_length 0) ?_
    rw [List.length_take]
    omega
  have same := hp.countP_eq fun c => (cmp c a).isLE
  omega

/-- Two sorted lists of the same values agree up to values that compare equal. -/
theorem sorted_agree (h : PreorderOn cmp xs) (hsub : ∀ a ∈ ys, a ∈ xs) {zs : List α} (hp : ys.Perm zs)
    (hys : ys.Pairwise fun a b => (cmp a b).isLE) (hzs : zs.Pairwise fun a b => (cmp a b).isLE) :
    List.Forall₂ (fun a b => cmp a b = .eq) ys zs := by
  rw [List.forall₂_iff_get]
  refine ⟨hp.length_eq, fun i hi hi' => ?_⟩
  rw [List.get_eq_getElem, List.get_eq_getElem]
  have hsub' : ∀ a ∈ zs, a ∈ xs := fun a ha => hsub a (hp.mem_iff.mpr ha)
  have hab := not_lt_of_sorted h hsub hp hys hzs (List.getElem?_eq_getElem hi) (List.getElem?_eq_getElem hi')
  have hba := not_lt_of_sorted h hsub' hp.symm hzs hys (List.getElem?_eq_getElem hi')
    (List.getElem?_eq_getElem hi)
  rw [h.swap _ (hsub _ (List.getElem_mem hi)) _ (hsub' _ (List.getElem_mem hi'))] at hba
  cases hc : cmp ys[i] zs[i] with
  | lt => exact absurd hc hab
  | eq => rfl
  | gt =>
    rw [hc] at hba
    exact absurd rfl hba

end PreorderOn

/-- A sort does not see in what order it was given distinct values. -/
theorem mergeSort_eq_of_perm {cmp : α → α → Ordering} [TransCmp cmp] {xs ys : List α}
    (h : LawfulOn cmp xs) (hp : xs.Perm ys) :
    xs.mergeSort (fun a b => (cmp a b).isLE) = ys.mergeSort (fun a b => (cmp a b).isLE) := by
  have trans : ∀ a b c, (cmp a b).isLE → (cmp b c).isLE → (cmp a c).isLE := fun _ _ _ =>
    TransCmp.isLE_trans
  have total : ∀ a b, ((cmp a b).isLE || (cmp b a).isLE) = true := by
    intro a b
    have swap : cmp b a = (cmp a b).swap := OrientedCmp.eq_swap
    rw [swap]
    cases cmp a b <;> rfl
  have sorted (zs : List α) := List.pairwise_mergeSort trans total zs
  refine List.Perm.eq_of_pairwise ?_ (sorted xs) (sorted ys)
    ((List.mergeSort_perm xs _).trans (hp.trans (List.mergeSort_perm ys _).symm))
  intro a b ha hb hab hba
  have ha : a ∈ xs := List.mem_mergeSort.mp ha
  have hb : b ∈ xs := hp.mem_iff.mpr (List.mem_mergeSort.mp hb)
  exact h.antisymm a ha b hb (OrientedCmp.isLE_antisymm hab hba)

theorem PreorderOn.pairwise_mergeSort {cmp : α → α → Ordering} {xs : List α} (h : PreorderOn cmp xs) :
    (xs.mergeSort fun a b => (cmp a b).isLE).Pairwise fun a b => (cmp a b).isLE := by
  have trans (a b c : {x // x ∈ xs}) (hab : (cmp a b).isLE) (hbc : (cmp b c).isLE) : (cmp a c).isLE :=
    h.trans a a.2 b b.2 c c.2 hab hbc
  have total (a b : {x // x ∈ xs}) : ((cmp a b).isLE || (cmp b a).isLE) = true := by
    rw [Bool.or_eq_true]
    exact h.total a.2 b.2
  have hsorted := List.pairwise_mergeSort trans total xs.attach
  have hmap := @List.map_mergeSort _ _ (fun a b : {x // x ∈ xs} => (cmp a b).isLE) (fun a b => (cmp a b).isLE)
    Subtype.val xs.attach fun _ _ _ _ => rfl
  rw [List.attach_map_subtype_val] at hmap
  rw [← hmap, List.pairwise_map]
  exact hsorted

theorem LawfulOn.preorder {cmp : α → α → Ordering} {xs : List α} (h : LawfulOn cmp xs) : PreorderOn cmp xs :=
  ⟨h.swap, h.trans⟩

/-- A lawful comparison sorts values in one way. -/
theorem LawfulOn.mergeSort_eq {cmp : α → α → Ordering} {xs ys : List α} (h : LawfulOn cmp xs) (hp : xs.Perm ys)
    (hys : ys.Pairwise fun a b => (cmp a b).isLE) : xs.mergeSort (fun a b => (cmp a b).isLE) = ys := by
  refine List.Perm.eq_of_pairwise ?_ h.preorder.pairwise_mergeSort hys ((List.mergeSort_perm xs _).trans hp)
  intro a b ha hb hab hba
  have hax : a ∈ xs := List.mem_mergeSort.mp ha
  have hbx : b ∈ xs := hp.mem_iff.mpr hb
  exact h.antisymm a hax b hbx (h.preorder.eq_of_isLE hax hbx hab hba)

end Zshrs.Lib.Comparators
