import Mathlib.Data.Finset.Basic
import Mathlib.Data.Finset.Card
import Mathlib.Data.Finset.Dedup
import Mathlib.Data.Finset.SDiff
import Mathlib.Order.Bounds.Basic
import Zshrs.Lib.OrdMap

namespace Zshrs.Lib.MapDiff

open SortedMap

variable {κ α : Type} [LinearOrder κ] [DecidableEq α]

/-- A key at which two maps differ, with what each of them has there. -/
structure Change (κ α : Type) where
  key : κ
  left : Option α
  right : Option α

def lookup (key : κ) (ms : List (κ × α)) : Option α := (ms.find? (fun p => p.1 = key)).map Prod.snd

/-- The differences of two maps, from one pass over both. -/
def changes : List (κ × α) → List (κ × α) → List (Change κ α)
  | [], [] => []
  | p :: ms, [] => ⟨p.1, some p.2, none⟩ :: changes ms []
  | [], q :: ns => ⟨q.1, none, some q.2⟩ :: changes [] ns
  | p :: ms, q :: ns =>
      if p.1 < q.1 then ⟨p.1, some p.2, none⟩ :: changes ms (q :: ns)
      else if q.1 < p.1 then ⟨q.1, none, some q.2⟩ :: changes (p :: ms) ns
      else if p.2 = q.2 then changes ms ns
      else ⟨p.1, some p.2, some q.2⟩ :: changes ms ns
termination_by ms ns => ms.length + ns.length

omit [DecidableEq α] in
theorem lookup_cons (key : κ) (p : κ × α) (ms : List (κ × α)) :
    lookup key (p :: ms) = if p.1 = key then some p.2 else lookup key ms := by
  by_cases h : p.1 = key <;> simp [lookup, h]

omit [DecidableEq α] in
theorem lookup_head (p : κ × α) (ms : List (κ × α)) : lookup p.1 (p :: ms) = some p.2 := by
  rw [lookup_cons, if_pos rfl]

omit [DecidableEq α] in
theorem lookup_none {key : κ} {ms : List (κ × α)} (h : ∀ p ∈ ms, key < p.1) : lookup key ms = none := by
  rw [lookup, Option.map_eq_none_iff, List.find?_eq_none]
  intro p hp
  simpa using (ne_of_lt (h p hp)).symm

omit [DecidableEq α] in
theorem after_of_lt {key : κ} {q : κ × α} {ns : List (κ × α)} (hn : Sorted (q :: ns)) (h : key < q.1) :
    ∀ r ∈ q :: ns, key < r.1 := by
  intro r hr
  rcases List.mem_cons.mp hr with rfl | hr
  · exact h
  · exact lt_trans h ((List.pairwise_cons.mp hn).1 r hr)

/-- A change that says what two maps have at its key, and that they differ there. -/
def Describes (l r : κ → Option α) (c : Change κ α) : Prop :=
  c.left = l c.key ∧ c.right = r c.key ∧ c.left ≠ c.right

omit [LinearOrder κ] [DecidableEq α] in
theorem Change.ext_of_describes {l r : κ → Option α} {c d : Change κ α} (hc : Describes l r c)
    (hd : Describes l r d) (h : c.key = d.key) : c = d := by
  have hleft : c.left = d.left := by rw [hc.1, hd.1, h]
  have hright : c.right = d.right := by rw [hc.2.1, hd.2.1, h]
  cases c
  cases d
  simp_all

omit [DecidableEq α] in
/-- A list of changes extended by one before all the others. -/
theorem mem_cons_iff {l r : κ → Option α} {x : Change κ α} {cs : List (Change κ α)}
    (hafter : ∀ c ∈ cs, x.key < c.key) (hx : Describes l r x)
    (hcs : ∀ c, c.key ≠ x.key → (c ∈ cs ↔ Describes l r c)) (c : Change κ α) :
    c ∈ x :: cs ↔ Describes l r c := by
  by_cases hkey : c.key = x.key
  · constructor
    · intro hc
      rcases List.mem_cons.mp hc with rfl | hc
      · exact hx
      · exact absurd hkey (ne_of_gt (hafter c hc))
    · intro hc
      rw [Change.ext_of_describes hc hx hkey]
      exact List.mem_cons_self
  · rw [List.mem_cons, ← hcs c hkey]
    apply or_iff_right
    rintro rfl
    exact hkey rfl

section Walk

variable {ms ns : List (κ × α)}

theorem changes_after {key : κ} (hm : ∀ p ∈ ms, key < p.1) (hn : ∀ q ∈ ns, key < q.1) :
    ∀ c ∈ changes ms ns, key < c.key := by
  induction ms, ns using changes.induct with
  | case1 => simp [changes]
  | case2 p ms ih =>
      rw [changes]
      simp only [List.forall_mem_cons] at hm ⊢
      exact ⟨hm.1, ih hm.2 hn⟩
  | case3 q ns ih =>
      rw [changes]
      simp only [List.forall_mem_cons] at hn ⊢
      exact ⟨hn.1, ih hm hn.2⟩
  | case4 p ms q ns hlt ih =>
      rw [changes, if_pos hlt, List.forall_mem_cons]
      exact ⟨hm p List.mem_cons_self, ih (List.forall_mem_cons.mp hm).2 hn⟩
  | case5 p ms q ns hle hgt ih =>
      rw [changes, if_neg hle, if_pos hgt, List.forall_mem_cons]
      exact ⟨hn q List.mem_cons_self, ih hm (List.forall_mem_cons.mp hn).2⟩
  | case6 p ms q ns hle hge hval ih =>
      rw [changes, if_neg hle, if_neg hge, if_pos hval]
      exact ih (List.forall_mem_cons.mp hm).2 (List.forall_mem_cons.mp hn).2
  | case7 p ms q ns hle hge hval ih =>
      rw [changes, if_neg hle, if_neg hge, if_neg hval, List.forall_mem_cons]
      exact ⟨hm p List.mem_cons_self, ih (List.forall_mem_cons.mp hm).2 (List.forall_mem_cons.mp hn).2⟩

/-- The differences come in key order. -/
theorem changes_sorted (hm : Sorted ms) (hn : Sorted ns) :
    (changes ms ns).Pairwise (fun c d => c.key < d.key) := by
  induction ms, ns using changes.induct with
  | case1 => simp [changes]
  | case2 p ms ih =>
      obtain ⟨hp, hms⟩ := List.pairwise_cons.mp hm
      rw [changes]
      apply List.pairwise_cons.mpr
      exact ⟨changes_after hp (by simp), ih hms hn⟩
  | case3 q ns ih =>
      obtain ⟨hq, hns⟩ := List.pairwise_cons.mp hn
      rw [changes]
      apply List.pairwise_cons.mpr
      exact ⟨changes_after (by simp) hq, ih hm hns⟩
  | case4 p ms q ns hlt ih =>
      obtain ⟨hp, hms⟩ := List.pairwise_cons.mp hm
      rw [changes, if_pos hlt]
      apply List.pairwise_cons.mpr
      exact ⟨changes_after hp (after_of_lt hn hlt), ih hms hn⟩
  | case5 p ms q ns hle hgt ih =>
      obtain ⟨hq, hns⟩ := List.pairwise_cons.mp hn
      rw [changes, if_neg hle, if_pos hgt]
      apply List.pairwise_cons.mpr
      exact ⟨changes_after (after_of_lt hm hgt) hq, ih hm hns⟩
  | case6 p ms q ns hle hge hval ih =>
      rw [changes, if_neg hle, if_neg hge, if_pos hval]
      exact ih (List.pairwise_cons.mp hm).2 (List.pairwise_cons.mp hn).2
  | case7 p ms q ns hle hge hval ih =>
      obtain ⟨hp, hms⟩ := List.pairwise_cons.mp hm
      obtain ⟨hq, hns⟩ := List.pairwise_cons.mp hn
      have hkey : p.1 = q.1 := le_antisymm (not_lt.mp hge) (not_lt.mp hle)
      rw [changes, if_neg hle, if_neg hge, if_neg hval]
      apply List.pairwise_cons.mpr
      exact ⟨changes_after hp (hkey ▸ hq), ih hms hns⟩

/-- The changes are all the differences, each with what the maps have at its key. -/
theorem mem_changes (hm : Sorted ms) (hn : Sorted ns) (c : Change κ α) :
    c ∈ changes ms ns ↔ Describes (fun k => lookup k ms) (fun k => lookup k ns) c := by
  induction ms, ns using changes.induct generalizing c with
  | case1 =>
      rw [changes]
      simp only [List.not_mem_nil, false_iff]
      rintro ⟨hl, hr, hne⟩
      exact hne (hl.trans hr.symm)
  | case2 p ms ih =>
      obtain ⟨hp, hms⟩ := List.pairwise_cons.mp hm
      rw [changes]
      apply mem_cons_iff (changes_after hp (by simp))
      · simp [Describes, lookup]
      · intro c hc
        rw [ih hms hn c, Describes, Describes, lookup_cons, if_neg (Ne.symm hc)]
  | case3 q ns ih =>
      obtain ⟨hq, hns⟩ := List.pairwise_cons.mp hn
      rw [changes]
      apply mem_cons_iff (changes_after (by simp) hq)
      · simp [Describes, lookup]
      · intro c hc
        rw [ih hm hns c, Describes, Describes, lookup_cons c.key q, if_neg (Ne.symm hc)]
  | case4 p ms q ns hlt ih =>
      obtain ⟨hp, hms⟩ := List.pairwise_cons.mp hm
      have hq : ∀ r ∈ q :: ns, p.1 < r.1 := after_of_lt hn hlt
      rw [changes, if_pos hlt]
      apply mem_cons_iff (changes_after hp hq)
      · simp [Describes, lookup_head, lookup_none hq]
      · intro c hc
        rw [ih hms hn c, Describes, Describes, lookup_cons c.key p, if_neg (Ne.symm hc)]
  | case5 p ms q ns hle hgt ih =>
      obtain ⟨hq, hns⟩ := List.pairwise_cons.mp hn
      have hp : ∀ r ∈ p :: ms, q.1 < r.1 := after_of_lt hm hgt
      rw [changes, if_neg hle, if_pos hgt]
      apply mem_cons_iff (changes_after hp hq)
      · simp [Describes, lookup_head, lookup_none hp]
      · intro c hc
        rw [ih hm hns c, Describes, Describes, lookup_cons c.key q, if_neg (Ne.symm hc)]
  | case6 p ms q ns hle hge hval ih =>
      obtain ⟨hp, hms⟩ := List.pairwise_cons.mp hm
      obtain ⟨hq, hns⟩ := List.pairwise_cons.mp hn
      have hkey : p.1 = q.1 := le_antisymm (not_lt.mp hge) (not_lt.mp hle)
      rw [changes, if_neg hle, if_neg hge, if_pos hval, ih hms hns c, Describes, Describes, lookup_cons c.key p,
        lookup_cons c.key q, hkey, hval]
      by_cases hc : q.1 = c.key
      · rw [if_pos hc, if_pos hc, lookup_none (hc ▸ hkey ▸ hp), lookup_none (hc ▸ hq)]
        constructor
        · rintro ⟨hl, hr, hne⟩
          exact absurd (hl.trans hr.symm) hne
        · rintro ⟨hl, hr, hne⟩
          exact absurd (hl.trans hr.symm) hne
      · rw [if_neg hc, if_neg hc]
  | case7 p ms q ns hle hge hval ih =>
      obtain ⟨hp, hms⟩ := List.pairwise_cons.mp hm
      obtain ⟨hq, hns⟩ := List.pairwise_cons.mp hn
      have hkey : p.1 = q.1 := le_antisymm (not_lt.mp hge) (not_lt.mp hle)
      rw [changes, if_neg hle, if_neg hge, if_neg hval]
      apply mem_cons_iff (changes_after hp (hkey ▸ hq))
      · refine ⟨(lookup_head p ms).symm, ?_, by simpa using hval⟩
        dsimp only
        rw [hkey, lookup_head]
      · intro c hc
        have hc : p.1 ≠ c.key := Ne.symm hc
        rw [ih hms hns c, Describes, Describes, lookup_cons c.key p, lookup_cons c.key q, if_neg hc,
          if_neg (hkey ▸ hc)]

end Walk

variable (m n : OrdMap κ α)

def keys (m : OrdMap κ α) : Finset κ := (m.entries.map Prod.fst).toFinset

/-- The keys of the first map alone. -/
def onlyIn : Finset κ := keys m \ keys n

/-- The common keys with different values. -/
def unlike : Finset κ := (keys m ∩ keys n).filter (fun k => m.get? k ≠ n.get? k)

/-- The keys at which the maps differ. -/
def differing : Set κ := {k | m.get? k ≠ n.get? k}

def diff : List (Change κ α) := changes m.entries n.entries

omit [DecidableEq α] in
theorem mem_keys {m : OrdMap κ α} {k : κ} : k ∈ keys m ↔ m.get? k ≠ none := by
  rw [keys, List.mem_toFinset, List.mem_map, Option.ne_none_iff_exists']
  constructor
  · rintro ⟨p, hp, rfl⟩
    exact ⟨p.2, OrdMap.get?_eq_some_iff.mpr hp⟩
  · rintro ⟨v, hv⟩
    exact ⟨(k, v), OrdMap.get?_eq_some_iff.mp hv, rfl⟩

theorem mem_diff {m n : OrdMap κ α} {c : Change κ α} : c ∈ diff m n ↔ Describes m.get? n.get? c :=
  mem_changes m.sorted n.sorted c

theorem diff_sorted : (diff m n).Pairwise (fun c d => c.key < d.key) := changes_sorted m.sorted n.sorted

theorem differing_iff {m n : OrdMap κ α} {k : κ} : k ∈ differing m n ↔ ⟨k, m.get? k, n.get? k⟩ ∈ diff m n := by
  rw [mem_diff]
  constructor
  · intro h
    exact ⟨rfl, rfl, h⟩
  · intro h
    exact h.2.2

/-- Equal maps are those with no difference. -/
theorem diff_eq_nil_iff {m n : OrdMap κ α} : diff m n = [] ↔ m = n := by
  constructor
  · intro h
    apply OrdMap.eq_of_get?
    intro k
    by_contra hne
    have hmem := differing_iff.mp hne
    rw [h] at hmem
    cases hmem
  · rintro rfl
    apply List.eq_nil_iff_forall_not_mem.mpr
    intro c hc
    obtain ⟨hl, hr, hne⟩ := mem_diff.mp hc
    exact hne (hl.trans hr.symm)

/-- The first change is at the least key at which the maps differ. -/
theorem isLeast_head {m n : OrdMap κ α} {c : Change κ α} {cs : List (Change κ α)} (h : diff m n = c :: cs) :
    IsLeast (differing m n) c.key := by
  have hsorted := diff_sorted m n
  rw [h] at hsorted
  have hc : Describes m.get? n.get? c := mem_diff.mp (h ▸ List.mem_cons_self)
  constructor
  · intro heq
    exact hc.2.2 (hc.1.trans (heq.trans hc.2.1.symm))
  · intro k hk
    have hmem := differing_iff.mp hk
    rw [h] at hmem
    rcases List.mem_cons.mp hmem with heq | hmem
    · exact le_of_eq (congrArg Change.key heq.symm)
    · exact le_of_lt ((List.pairwise_cons.mp hsorted).1 _ hmem)

/-- Changes of a kind are counted by their keys. -/
theorem countP_diff {m n : OrdMap κ α} {kind : Change κ α → Bool} {s : Finset κ}
    (h : ∀ k, k ∈ s ↔ k ∈ differing m n ∧ kind ⟨k, m.get? k, n.get? k⟩) :
    (diff m n).countP kind = s.card := by
  have hnodup : (((diff m n).filter kind).map Change.key).Nodup := by
    apply List.pairwise_map.mpr
    apply ((diff_sorted m n).filter kind).imp
    intro c d hlt
    exact ne_of_lt hlt
  have hset : s = (((diff m n).filter kind).map Change.key).toFinset := by
    ext k
    rw [h, List.mem_toFinset, List.mem_map, differing_iff]
    constructor
    · rintro ⟨hmem, hkind⟩
      exact ⟨_, List.mem_filter.mpr ⟨hmem, hkind⟩, rfl⟩
    · rintro ⟨c, hc, rfl⟩
      obtain ⟨hmem, hkind⟩ := List.mem_filter.mp hc
      obtain ⟨hl, hr, -⟩ := mem_diff.mp hmem
      rw [← hl, ← hr]
      exact ⟨hmem, hkind⟩
  rw [hset, List.toFinset_card_of_nodup hnodup, List.length_map, List.countP_eq_length_filter]

theorem card_removed : (diff m n).countP (fun c => c.right.isNone) = (onlyIn m n).card := by
  apply countP_diff
  intro k
  rw [onlyIn, Finset.mem_sdiff, mem_keys, mem_keys, not_not, Option.isNone_iff_eq_none]
  apply and_congr_left
  intro hn
  rw [differing, Set.mem_ofPred_eq, hn]

theorem card_added : (diff m n).countP (fun c => c.left.isNone) = (onlyIn n m).card := by
  apply countP_diff
  intro k
  rw [onlyIn, Finset.mem_sdiff, mem_keys, mem_keys, not_not, Option.isNone_iff_eq_none]
  apply and_congr_left
  intro hm
  rw [differing, Set.mem_ofPred_eq, hm, ne_comm]

theorem card_changed : (diff m n).countP (fun c => c.left.isSome && c.right.isSome) = (unlike m n).card := by
  apply countP_diff
  intro k
  rw [unlike, Finset.mem_filter, Finset.mem_inter, mem_keys, mem_keys, Bool.and_eq_true,
    Option.isSome_iff_ne_none, Option.isSome_iff_ne_none]
  exact and_comm

end Zshrs.Lib.MapDiff
