import Zshrs.Lib.Binary64
import Zshrs.Lib.Comparators
import Zshrs.Lib.Utf8

namespace Zshrs.Par.Psort

open Lib Lib.Binary64 Lib.Comparators Lib.Utf8 Std

abbrev Text := List Char

structure SortSpec where
  numeric : Bool := false
  reverse : Bool := false

/-- `str::cmp`, byte by byte. -/
def str_cmp (a b : Text) : Ordering := compare (Utf8.encode a) (Utf8.encode b)

def num (s : Text) : F64 := (parse (trim s)).getD (.value 0)

def num_cmp (a b : Text) : Ordering := ((num a).partial_cmp (num b)).getD .eq

/-- The comparison that `psort_run` hands to the sort. -/
def item_cmp (spec : SortSpec) (a b : Text) : Ordering :=
  let ord := if spec.numeric then (num_cmp a b).then (str_cmp a b) else str_cmp a b
  if spec.reverse then ord.swap else ord

/-- A sort by comparison. Only a total order of the items promises anything of the result's order. -/
structure ParSort where
  par_sort_by : (Text → Text → Ordering) → List Text → List Text
  perm : ∀ cmp list, (par_sort_by cmp list).Perm list
  sorted : ∀ cmp list, LawfulOn cmp list → (par_sort_by cmp list).Pairwise fun a b => (cmp a b).isLE

/-- A merge sort of the items is one. -/
instance : Inhabited ParSort where
  default :=
    { par_sort_by := fun cmp list => (list.attach.mergeSort fun a b => (cmp a.1 b.1).isLE).map Subtype.val
      perm := by
        intro cmp list
        have hperm := (List.mergeSort_perm list.attach fun a b => (cmp a.1 b.1).isLE).map Subtype.val
        rwa [List.attach_map_subtype_val] at hperm
      sorted := by
        intro cmp list h
        rw [List.pairwise_map]
        apply List.pairwise_mergeSort
        · exact fun a b c hab hbc => h.trans a.1 a.2 b.1 b.2 c.1 c.2 hab hbc
        · intro a b
          rw [h.swap a.1 a.2 b.1 b.2]
          cases cmp a.1 b.1 <;> rfl }

def psort_run (sort : ParSort) (list : List Text) (spec : SortSpec) : List Text :=
  sort.par_sort_by (item_cmp spec) list

/-- The comparison is a total preorder of the items, and the result has them in its order. -/
structure Ordered (spec : SortSpec) (list out : List Text) : Prop where
  lawful : LawfulOn (item_cmp spec) list
  perm : out.Perm list
  sorted : out.Pairwise fun a b => (item_cmp spec a b).isLE

/-- A NaN that bytes put after the greater and before the lesser of two numbers. -/
structure Cycle (x y n : Text) : Prop where
  nan : num n = .nan
  less : (num x).partial_cmp (num y) = some .lt
  after : str_cmp y n = .lt
  before : str_cmp n x = .lt

def Cyclic (list : List Text) : Prop := ∃ x ∈ list, ∃ y ∈ list, ∃ n ∈ list, Cycle x y n

instance : TransCmp str_cmp := trans_on Utf8.encode compare

theorem eq_of_str_cmp {a b : Text} (h : str_cmp a b = .eq) : a = b := by
  have henc : Utf8.encode a = Utf8.encode b := LawfulEqOrd.eq_of_compare h
  rw [← Utf8.lossy_encode a, henc, Utf8.lossy_encode]

theorem str_cmp_swap (a b : Text) : str_cmp b a = (str_cmp a b).swap := OrientedCmp.eq_swap

/-- Two items, one of them NaN, are compared by their bytes. -/
theorem num_cmp_nan {a b : Text} (h : num a = .nan ∨ num b = .nan) : num_cmp a b = .eq := by
  rw [num_cmp]
  rcases h with h | h
  · rw [h]
    rfl
  · rw [h]
    cases num a <;> rfl

theorem num_cmp_value {a b : Text} {m n : Int} (ha : num a = .value m) (hb : num b = .value n) :
    num_cmp a b = compare m n := by
  rw [num_cmp, ha, hb]
  rfl

theorem num_cmp_swap (a b : Text) : num_cmp b a = (num_cmp a b).swap := by
  cases ha : num a with
  | nan =>
      rw [num_cmp_nan (.inl ha), num_cmp_nan (.inr ha)]
      rfl
  | value m =>
      cases hb : num b with
      | nan =>
          rw [num_cmp_nan (.inl hb), num_cmp_nan (.inr hb)]
          rfl
      | value n =>
          rw [num_cmp_value ha hb, num_cmp_value hb ha]
          exact OrientedCmp.eq_swap

/-- The comparison under `-n`, not reversed. -/
def value_cmp (a b : Text) : Ordering := (num_cmp a b).then (str_cmp a b)

theorem value_cmp_swap (a b : Text) : value_cmp b a = (value_cmp a b).swap := by
  rw [value_cmp, value_cmp, num_cmp_swap a b, str_cmp_swap a b, Ordering.swap_then]

theorem value_cmp_nan {a b : Text} (h : num a = .nan ∨ num b = .nan) : value_cmp a b = str_cmp a b := by
  rw [value_cmp, num_cmp_nan h]
  rfl

theorem value_cmp_isLE {a b : Text} {m n : Int} (ha : num a = .value m) (hb : num b = .value n) :
    (value_cmp a b).isLE ↔ m < n ∨ m = n ∧ (str_cmp a b).isLE := by
  rw [value_cmp, num_cmp_value ha hb]
  rcases Int.lt_trichotomy m n with hlt | rfl | hgt
  · rw [Int.compare_eq_lt.mpr hlt]
    exact ⟨fun _ => .inl hlt, fun _ => rfl⟩
  · rw [Int.compare_eq_eq.mpr rfl]
    simp
  · rw [Int.compare_eq_gt.mpr hgt]
    constructor
    · intro h
      cases h
    · rintro (h | ⟨h, -⟩) <;> omega

theorem less_iff {a b : Text} {m n : Int} (ha : num a = .value m) (hb : num b = .value n) :
    (num a).partial_cmp (num b) = some .lt ↔ m < n := by
  rw [ha, hb, F64.partial_cmp, Option.some.injEq]
  exact Int.compare_eq_lt

theorem ne_of_nan {a b : Text} {m : Int} (ha : num a = .nan) (hb : num b = .value m) : a ≠ b := by
  rintro rfl
  rw [ha] at hb
  cases hb

/-- Different items that are in order are strictly so. -/
theorem str_cmp_lt {a b : Text} (hne : a ≠ b) (h : (str_cmp a b).isLE) : str_cmp a b = .lt := by
  cases hcmp : str_cmp a b with
  | lt => rfl
  | eq => exact absurd (eq_of_str_cmp hcmp) hne
  | gt => rw [hcmp] at h; cases h

theorem str_cmp_lt_of_not_isLE {a b : Text} (h : ¬ (str_cmp a b).isLE = true) : str_cmp b a = .lt := by
  rw [str_cmp_swap a b]
  cases hcmp : str_cmp a b with
  | gt => rfl
  | lt | eq => rw [hcmp] at h; exact absurd rfl h

section Triples

variable {a b c : Text} {m n : Int}

theorem trans_nan_left (ha : num a = .nan) (hb : num b = .value m) (hc : num c = .value n)
    (hfree : ¬ Cycle b c a) (hab : (str_cmp a b).isLE) (hbc : (value_cmp b c).isLE) : (str_cmp a c).isLE := by
  rcases (value_cmp_isLE hb hc).mp hbc with hlt | ⟨-, hbc⟩
  · by_contra hac
    exact hfree ⟨ha, (less_iff hb hc).mpr hlt, str_cmp_lt_of_not_isLE hac, str_cmp_lt (ne_of_nan ha hb) hab⟩
  · exact TransCmp.isLE_trans hab hbc

theorem trans_nan_mid (ha : num a = .value m) (hb : num b = .nan) (hc : num c = .value n)
    (hfree : ¬ Cycle c a b) (hab : (str_cmp a b).isLE) (hbc : (str_cmp b c).isLE) : (value_cmp a c).isLE := by
  rw [value_cmp_isLE ha hc]
  rcases Int.lt_trichotomy m n with hlt | heq | hgt
  · exact .inl hlt
  · exact .inr ⟨heq, TransCmp.isLE_trans hab hbc⟩
  · exact absurd ⟨hb, (less_iff hc ha).mpr hgt, str_cmp_lt (ne_of_nan hb ha).symm hab,
      str_cmp_lt (ne_of_nan hb hc) hbc⟩ hfree

theorem trans_nan_right (ha : num a = .value m) (hb : num b = .value n) (hc : num c = .nan)
    (hfree : ¬ Cycle a b c) (hab : (value_cmp a b).isLE) (hbc : (str_cmp b c).isLE) : (str_cmp a c).isLE := by
  rcases (value_cmp_isLE ha hb).mp hab with hlt | ⟨-, hab⟩
  · by_contra hac
    exact hfree ⟨hc, (less_iff ha hb).mpr hlt, str_cmp_lt (ne_of_nan hc hb).symm hbc, str_cmp_lt_of_not_isLE hac⟩
  · exact TransCmp.isLE_trans hab hbc

theorem trans_values {k : Int} (ha : num a = .value m) (hb : num b = .value n) (hc : num c = .value k)
    (hab : (value_cmp a b).isLE) (hbc : (value_cmp b c).isLE) : (value_cmp a c).isLE := by
  rw [value_cmp_isLE ha hb] at hab
  rw [value_cmp_isLE hb hc] at hbc
  rw [value_cmp_isLE ha hc]
  rcases hab with hab | ⟨rfl, hab⟩
  · rcases hbc with hbc | ⟨rfl, -⟩
    · exact .inl (Int.lt_trans hab hbc)
    · exact .inl hab
  · rcases hbc with hbc | ⟨rfl, hbc⟩
    · exact .inl hbc
    · exact .inr ⟨rfl, TransCmp.isLE_trans hab hbc⟩

/-- Where no NaN lies between two numbers the wrong way round, the comparison is transitive. By which of
the three items are NaN: two of them leave only bytes to compare. -/
theorem value_cmp_trans (hab : ¬ Cycle a b c) (hbc : ¬ Cycle b c a) (hca : ¬ Cycle c a b)
    (h : (value_cmp a b).isLE) (h' : (value_cmp b c).isLE) : (value_cmp a c).isLE := by
  cases ha : num a with
  | nan =>
      rw [value_cmp_nan (.inl ha)] at h ⊢
      cases hb : num b with
      | nan =>
          rw [value_cmp_nan (.inl hb)] at h'
          exact TransCmp.isLE_trans h h'
      | value m =>
          cases hc : num c with
          | nan =>
              rw [value_cmp_nan (.inr hc)] at h'
              exact TransCmp.isLE_trans h h'
          | value n => exact trans_nan_left ha hb hc hbc h h'
  | value k =>
      cases hb : num b with
      | nan =>
          rw [value_cmp_nan (.inr hb)] at h
          rw [value_cmp_nan (.inl hb)] at h'
          cases hc : num c with
          | nan =>
              rw [value_cmp_nan (.inr hc)]
              exact TransCmp.isLE_trans h h'
          | value n => exact trans_nan_mid ha hb hc hca h h'
      | value m =>
          cases hc : num c with
          | nan =>
              rw [value_cmp_nan (.inr hc)] at h' ⊢
              exact trans_nan_right ha hb hc hab h h'
          | value n => exact trans_values ha hb hc h h'

end Triples

theorem item_cmp_eq (spec : SortSpec) :
    item_cmp spec = directed spec.reverse (if spec.numeric then value_cmp else str_cmp) := by
  funext a b
  rw [item_cmp, directed]
  cases spec.numeric <;> rfl

theorem lawfulOn_directed {cmp : Text → Text → Ordering} {desc : Bool} {list : List Text} :
    LawfulOn (directed desc cmp) list ↔ LawfulOn cmp list := by
  cases desc with
  | false => exact Iff.rfl
  | true =>
      have turn : ∀ {cmp : Text → Text → Ordering}, LawfulOn cmp list → LawfulOn (directed true cmp) list := by
        intro cmp h
        have hswap : ∀ a ∈ list, ∀ b ∈ list, directed true cmp a b = cmp b a := fun a ha b hb =>
          (h.swap a ha b hb).symm
        refine ⟨?_, ?_, ?_, ?_⟩
        · intro a ha
          rw [hswap a ha a ha]
          exact h.refl a ha
        · intro a ha b hb
          rw [hswap b hb a ha, hswap a ha b hb]
          exact h.swap b hb a ha
        · intro a ha b hb heq
          exact h.antisymm a ha b hb (directed_eq_eq.mp heq)
        · intro a ha b hb c hc hab hbc
          rw [hswap a ha b hb] at hab
          rw [hswap b hb c hc] at hbc
          rw [hswap a ha c hc]
          exact h.trans c hc b hb a ha hbc hab
      have twice : directed true (directed true cmp) = cmp := by
        funext a b
        exact Ordering.swap_swap
      refine ⟨fun h => ?_, turn⟩
      rw [← twice]
      exact turn h

theorem value_cmp_lawful {list : List Text} : LawfulOn value_cmp list ↔ ¬ Cyclic list := by
  constructor
  · rintro h ⟨x, hx, y, hy, n, hn, hcycle⟩
    have hxy : (value_cmp x y).isLE := by
      rw [value_cmp, num_cmp, hcycle.less]
      rfl
    have hyn : (value_cmp y n).isLE := by
      rw [value_cmp_nan (.inr hcycle.nan), hcycle.after]
      rfl
    have hxn := h.trans x hx y hy n hn hxy hyn
    rw [value_cmp_nan (.inr hcycle.nan), str_cmp_swap n x, hcycle.before] at hxn
    cases hxn
  · intro hfree
    refine ⟨?_, ?_, ?_, ?_⟩
    · intro a _
      have hself := value_cmp_swap a a
      cases hcmp : value_cmp a a with
      | eq => rfl
      | lt | gt => rw [hcmp] at hself; cases hself
    · exact fun a _ b _ => value_cmp_swap a b
    · intro a _ b _ heq
      exact eq_of_str_cmp (Ordering.then_eq_eq.mp heq).2
    · intro a ha b hb c hc
      apply value_cmp_trans
      · exact fun h => hfree ⟨a, ha, b, hb, c, hc, h⟩
      · exact fun h => hfree ⟨b, hb, c, hc, a, ha, h⟩
      · exact fun h => hfree ⟨c, hc, a, ha, b, hb, h⟩

theorem item_cmp_lawful (spec : SortSpec) {list : List Text} :
    LawfulOn (item_cmp spec) list ↔ (spec.numeric = true → ¬ Cyclic list) := by
  rw [item_cmp_eq, lawfulOn_directed]
  cases spec.numeric with
  | false =>
      rw [if_neg Bool.false_ne_true]
      refine ⟨fun _ h => (Bool.false_ne_true h).elim, fun _ => ?_⟩
      exact lawfulOn_of_trans fun a _ b _ heq => eq_of_str_cmp heq
  | true =>
      rw [if_pos rfl, value_cmp_lawful]
      exact ⟨fun h _ => h, fun h => h rfl⟩

/-- `psort` orders a list if, under `-n`, no NaN lies between two of its numbers the wrong way round, and
only then. -/
theorem psort_orders_iff (sort : ParSort) (list : List Text) (spec : SortSpec) :
    Ordered spec list (psort_run sort list spec) ↔ (spec.numeric = true → ¬ Cyclic list) := by
  constructor
  · intro h
    exact (item_cmp_lawful spec).mp h.lawful
  · intro h
    have hlawful := (item_cmp_lawful spec).mpr h
    exact ⟨hlawful, sort.perm _ _, sort.sorted _ _ hlawful⟩

/-- `z` counts as 0 and is before `10`, which is before `nan` in bytes, which is before `z`. -/
theorem nan_cycle :
    ¬ ∃ out, Ordered { numeric := true } [['z'], ['1', '0'], ['n', 'a', 'n']] out := by
  rintro ⟨out, h⟩
  refine (item_cmp_lawful { numeric := true }).mp h.lawful rfl
    ⟨['z'], by decide, ['1', '0'], by decide, ['n', 'a', 'n'], by decide, ?_, ?_, ?_, ?_⟩
  · decide +kernel
  · decide +kernel
  · decide +kernel
  · decide +kernel

end Zshrs.Par.Psort
