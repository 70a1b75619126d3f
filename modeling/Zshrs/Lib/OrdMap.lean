import Mathlib.Data.List.Nodup
import Mathlib.Data.List.Perm.Subperm
import Mathlib.Data.Nat.Basic
import Zshrs.Lib.SortedMap

namespace Zshrs.Lib

open SortedMap

/-- A finite map, by its entries in key order. -/
structure OrdMap (κ α : Type) [LinearOrder κ] where
  entries : List (κ × α)
  sorted : Sorted entries

namespace OrdMap

variable {κ α : Type} [LinearOrder κ]

def empty : OrdMap κ α := ⟨[], List.Pairwise.nil⟩

def get? (m : OrdMap κ α) (key : κ) : Option α :=
  (m.entries.find? (fun p => p.1 = key)).map Prod.snd

def values (m : OrdMap κ α) : List α := m.entries.map Prod.snd

def insert (m : OrdMap κ α) (key : κ) (value : α) : OrdMap κ α :=
  ⟨SortedMap.insert key value m.entries, m.sorted.insert key value⟩

def retain (m : OrdMap κ α) (keep : κ → α → Bool) : OrdMap κ α :=
  ⟨m.entries.filter (fun p => keep p.1 p.2), m.sorted.filter _⟩

def erase (m : OrdMap κ α) (key : κ) : OrdMap κ α := m.retain (fun k _ => k ≠ key)

def modify (m : OrdMap κ α) (key : κ) (f : α → α) : OrdMap κ α :=
  match m.get? key with
  | some value => m.insert key (f value)
  | none => m

theorem get?_eq_some_iff {m : OrdMap κ α} {key : κ} {value : α} :
    m.get? key = some value ↔ (key, value) ∈ m.entries := by
  constructor
  · intro h
    obtain ⟨p, hp, rfl⟩ := Option.map_eq_some_iff.mp h
    have hkey : p.1 = key := by simpa using List.find?_some hp
    subst hkey
    exact List.mem_of_find?_eq_some hp
  · intro h
    have hone := m.sorted.filter_key h
    rw [get?, ← List.head?_filter, hone]
    rfl

@[simp] theorem get?_empty (key : κ) : (empty : OrdMap κ α).get? key = none := rfl

theorem get?_insert (m : OrdMap κ α) (key : κ) (value : α) (k : κ) :
    (m.insert key value).get? k = if k = key then some value else m.get? k := by
  ext v
  rw [get?_eq_some_iff, insert, m.sorted.mem_insert_iff]
  split
  · rename_i hk
    subst hk
    simp [eq_comm]
  · rename_i hk
    simp [hk, get?_eq_some_iff]

theorem get?_retain (m : OrdMap κ α) (keep : κ → α → Bool) (k : κ) :
    (m.retain keep).get? k = (m.get? k).filter (keep k) := by
  ext v
  rw [get?_eq_some_iff, retain, List.mem_filter, Option.filter_eq_some_iff, get?_eq_some_iff]

theorem get?_erase (m : OrdMap κ α) (key k : κ) :
    (m.erase key).get? k = if k = key then none else m.get? k := by
  rw [erase, get?_retain]
  by_cases hk : k = key
  · subst hk
    cases m.get? k <;> simp
  · cases m.get? k <;> simp [hk]

theorem get?_modify (m : OrdMap κ α) (key : κ) (f : α → α) (k : κ) :
    (m.modify key f).get? k = if k = key then (m.get? k).map f else m.get? k := by
  rw [modify]
  cases h : m.get? key with
  | none =>
      by_cases hk : k = key
      · subst hk
        simp [h]
      · simp [hk]
  | some v =>
      rw [get?_insert]
      by_cases hk : k = key
      · subst hk
        simp [h]
      · simp [hk]

theorem mem_values {m : OrdMap κ α} {value : α} :
    value ∈ m.values ↔ ∃ key, m.get? key = some value := by
  simp [values, get?_eq_some_iff]

def mapValues (m : OrdMap κ α) (f : α → α) : OrdMap κ α :=
  ⟨m.entries.map (Prod.map id f), List.pairwise_map.mpr m.sorted⟩

theorem get?_mapValues (m : OrdMap κ α) (f : α → α) (k : κ) :
    (m.mapValues f).get? k = (m.get? k).map f := by
  unfold get? mapValues
  rw [List.find?_map, Option.map_map, Option.map_map]
  rfl

/-- The entries of one key. -/
theorem filter_key (m : OrdMap κ α) {k : κ} {q : κ × α → Bool} (hq : ∀ p, q p = true ↔ p.1 = k) :
    m.entries.filter q = ((m.get? k).map (Prod.mk k)).toList := by
  cases h : m.get? k with
  | some value =>
      have hone := m.sorted.filter_key (get?_eq_some_iff.mp h)
      refine Eq.trans (List.filter_congr ?_) hone
      intro p _
      rw [Bool.eq_iff_iff, hq, decide_eq_true_iff]
  | none =>
      apply List.filter_eq_nil_iff.mpr
      intro p hp hk
      have hp : (k, p.2) ∈ m.entries := by
        rw [← (hq p).mp hk]
        exact hp
      rw [get?_eq_some_iff.mpr hp] at h
      cases h

/-- What an inserting loop leaves under a key. -/
theorem get?_insertAll {β : Type} (g : β → α) (es : List (κ × β)) (m : OrdMap κ α) (k : κ) :
    (es.foldl (fun m p => m.insert p.1 (g p.2)) m).get? k =
      ((es.filter (fun p => p.1 = k)).getLast?.map (fun p => g p.2)).or (m.get? k) := by
  induction es generalizing m with
  | nil => rfl
  | cons p es ih =>
      rw [List.foldl_cons, ih, get?_insert]
      by_cases hk : p.1 = k
      · rw [List.filter_cons_of_pos (by simpa using hk), List.getLast?_cons, if_pos hk.symm]
        cases (es.filter fun p => p.1 = k).getLast? <;> rfl
      · rw [List.filter_cons_of_neg (by simpa using hk), if_neg (Ne.symm hk)]

/-- Where no key comes with two values, what is inserted is what the map holds. -/
theorem get?_insertAll_of_functional {es : List (κ × α)} (h : ∀ p ∈ es, ∀ q ∈ es, p.1 = q.1 → p = q)
    (k : κ) (v : α) :
    (es.foldl (fun m p => m.insert p.1 p.2) (empty : OrdMap κ α)).get? k = some v ↔ (k, v) ∈ es := by
  have hget := get?_insertAll (fun v : α => v) es empty k
  rw [hget, get?_empty, Option.or_none]
  constructor
  · intro hlast
    obtain ⟨p, hp, rfl⟩ := Option.map_eq_some_iff.mp hlast
    obtain ⟨hmem, hkey⟩ := List.mem_filter.mp (List.mem_of_getLast? hp)
    rw [← of_decide_eq_true hkey]
    exact hmem
  · intro hmem
    have hin : (k, v) ∈ es.filter (fun p => p.1 = k) := List.mem_filter.mpr ⟨hmem, decide_eq_true rfl⟩
    have hlast := List.getLast?_eq_some_getLast (List.ne_nil_of_mem hin)
    obtain ⟨hpmem, hkey⟩ := List.mem_filter.mp (List.mem_of_getLast? hlast)
    rw [hlast, h _ hpmem (k, v) hmem (of_decide_eq_true hkey)]
    rfl

/-- A map is rebuilt from its entries. -/
theorem get?_rebuild {β : Type} (g : β → α) (m : OrdMap κ β) (k : κ) :
    (m.entries.foldl (fun n p => n.insert p.1 (g p.2)) (empty : OrdMap κ α)).get? k = (m.get? k).map g := by
  rw [get?_insertAll, m.filter_key (fun p => decide_eq_true_iff), get?_empty, Option.or_none]
  cases m.get? k <;> rfl

theorem nodup_keys (m : OrdMap κ α) : (m.entries.map Prod.fst).Nodup := by
  rw [List.Nodup, List.pairwise_map]
  exact m.sorted.imp fun hlt => ne_of_lt hlt

/-- Maps that agree on every key, as far as `f` sees, list the same entries. -/
theorem entries_map_eq {β : Type} (f : α → β) {m m' : OrdMap κ α}
    (h : ∀ k, (m.get? k).map f = (m'.get? k).map f) :
    m.entries.map (fun p => (p.1, f p.2)) = m'.entries.map (fun p => (p.1, f p.2)) := by
  have hmem : ∀ (n : OrdMap κ α) (k : κ) (b : β),
      (k, b) ∈ n.entries.map (fun p => (p.1, f p.2)) ↔ (n.get? k).map f = some b := by
    intro n k b
    rw [List.mem_map, Option.map_eq_some_iff]
    constructor
    · rintro ⟨p, hp, heq⟩
      cases heq
      exact ⟨p.2, get?_eq_some_iff.mpr hp, rfl⟩
    · rintro ⟨a, ha, rfl⟩
      exact ⟨(k, a), get?_eq_some_iff.mp ha, rfl⟩
  have hsorted : ∀ n : OrdMap κ α,
      (n.entries.map (fun p => (p.1, f p.2))).Pairwise (fun p q => p.1 < q.1) := by
    intro n
    exact List.pairwise_map.mpr n.sorted
  have hnodup : ∀ n : OrdMap κ α, (n.entries.map (fun p => (p.1, f p.2))).Nodup := by
    intro n
    refine (hsorted n).imp ?_
    rintro p q hlt rfl
    exact lt_irrefl _ hlt
  have hperm : (m.entries.map (fun p => (p.1, f p.2))).Perm (m'.entries.map (fun p => (p.1, f p.2))) := by
    rw [List.perm_ext_iff_of_nodup (hnodup m) (hnodup m')]
    rintro ⟨k, b⟩
    rw [hmem, hmem, h]
  refine hperm.eq_of_pairwise ?_ (hsorted m) (hsorted m')
  intro p q _ _ hpq hqp
  exact absurd hqp (not_lt_of_gt hpq)

theorem eq_of_get? {m m' : OrdMap κ α} (h : ∀ k, m.get? k = m'.get? k) : m = m' := by
  have hentries : m.entries.map (fun p => p) = m'.entries.map (fun p => p) := by
    apply entries_map_eq (fun v : α => v)
    intro k
    rw [h k]
  rw [List.map_id', List.map_id'] at hentries
  cases m
  cases m'
  congr

/-- The entries that `f` keeps, with what it makes of them. -/
def filterMap {β : Type} (m : OrdMap κ α) (f : α → Option β) : OrdMap κ β :=
  ⟨m.entries.filterMap (fun p => (f p.2).map (Prod.mk p.1)), by
    refine m.sorted.filterMap _ ?_
    intro p q hlt r hr t ht
    obtain ⟨v, _, rfl⟩ := Option.map_eq_some_iff.mp hr
    obtain ⟨w, _, rfl⟩ := Option.map_eq_some_iff.mp ht
    exact hlt⟩

/-- Inserting as many entries as a map has builds that map if and only if they are its entries. -/
theorem insertAll_eq_iff {es : List (κ × α)} {m : OrdMap κ α} (hlen : es.length ≤ m.entries.length) :
    es.foldl (fun n p => n.insert p.1 p.2) (empty : OrdMap κ α) = m ↔ es.Perm m.entries := by
  have hget := get?_insertAll (fun v : α => v) es (empty : OrdMap κ α)
  constructor
  · intro heq
    have hsub : m.entries ⊆ es := by
      intro p hp
      have hp := get?_eq_some_iff.mpr hp
      rw [← heq, hget, get?_empty, Option.or_none] at hp
      obtain ⟨q, hq, hval⟩ := Option.map_eq_some_iff.mp hp
      have hmem := List.mem_filter.mp (List.mem_of_getLast? hq)
      have hkey : q.1 = p.1 := of_decide_eq_true hmem.2
      have hqp : q = p := Prod.ext hkey hval
      rw [← hqp]
      exact hmem.1
    have hnodup : m.entries.Nodup := List.Nodup.of_map Prod.fst m.nodup_keys
    have hsubperm := List.subperm_of_subset hnodup hsub
    exact (hsubperm.perm_of_length_le hlen).symm
  · intro hperm
    apply eq_of_get?
    intro k
    rw [hget, get?_empty, Option.or_none]
    have hone := hperm.filter (fun p => decide (p.1 = k))
    rw [m.filter_key (fun p => decide_eq_true_iff)] at hone
    cases h : m.get? k with
    | none =>
        rw [h] at hone
        rw [hone.eq_nil]
        rfl
    | some v =>
        rw [h] at hone
        have hsingle := List.perm_singleton.mp hone
        rw [hsingle]
        rfl

/-- The largest key, or the least one there is. -/
def maxKey (m : OrdMap Nat α) : Nat := (m.entries.map Prod.fst).foldr max 0

theorem le_maxKey {m : OrdMap Nat α} {k : Nat} (h : m.get? k ≠ none) : k ≤ m.maxKey := by
  obtain ⟨value, hvalue⟩ := Option.ne_none_iff_exists'.mp h
  have mem : k ∈ m.entries.map Prod.fst :=
    List.mem_map.mpr ⟨(k, value), get?_eq_some_iff.mp hvalue, rfl⟩
  unfold maxKey
  generalize m.entries.map Prod.fst = keys at mem
  induction keys with
  | nil => cases mem
  | cons key keys ih =>
      rcases List.mem_cons.mp mem with rfl | mem
      · exact Nat.le_max_left _ _
      · exact Nat.le_trans (ih mem) (Nat.le_max_right _ _)

end OrdMap

end Zshrs.Lib
