import Zshrs.Terminfo.RoundTrip

namespace Zshrs.Terminfo

open Lib Lib.Bytes

/-- Start and size of the string table, as the header gives them. -/
def table_span (b : Bytes) : Option (Nat × Nat) := do
  let wide ← wide_of (← read_i16 b 0)
  let name_size ← count_at b 2
  let bool_count ← count_at b 4
  let num_count ← count_at b 6
  let str_count ← count_at b 8
  let table_size ← count_at b 10
  some (even (12 + name_size + bool_count) + num_count * num_width wide + str_count * 2, table_size)

def ext_span_at (b : Bytes) (p : Nat) (wide : Bool) : Option (Nat × Nat) := do
  let ext_bool ← count_at b (even p)
  let ext_num ← count_at b (even p + 2)
  let ext_off ← count_at b (even p + 6)
  let ext_size ← count_at b (even p + 8)
  some (even (even p + 10 + ext_bool) + ext_num * num_width wide + ext_off * 2, ext_size)

/-- Start and size of the extended string table. -/
def ext_table_span (b : Bytes) : Option (Nat × Nat) := do
  let wide ← wide_of (← read_i16 b 0)
  let span ← table_span b
  ext_span_at b (span.1 + span.2) wide

/-- `v` lies inside the span. -/
def Inside (b : Bytes) (span : Nat × Nat) (v : Bytes) : Prop :=
  span.1 + span.2 ≤ b.length ∧
    ∃ off, off + v.length ≤ span.2 ∧ v = (b.drop (span.1 + off)).take v.length

theorem getRange_eq_some {b : Bytes} {p n : Nat} {s : Bytes} (h : getRange b p n = some s) :
    p + n ≤ b.length ∧ s = (b.drop p).take n := by
  rw [getRange] at h
  split at h
  · rename_i hle
    exact ⟨hle, (Option.some.inj h).symm⟩
  · cases h

theorem inside_of_value_at {b : Bytes} {p n : Nat} {table v : Bytes} {o : Int}
    (htable : getRange b p n = some table) (hv : value_at table o = some v) : Inside b (p, n) v := by
  obtain ⟨hle, rfl⟩ := getRange_eq_some htable
  have hlen : ((b.drop p).take n).length = n := by
    rw [List.length_take, List.length_drop]
    omega
  rw [value_at] at hv
  split at hv
  · cases hv
  · rw [cstr_at] at hv
    split at hv
    · rename_i hoff
      have hv := Option.some.inj hv
      have hprefix := List.takeWhile_prefix (l := ((b.drop p).take n).drop o.toNat) (fun c => decide (c ≠ 0))
      rw [hv] at hprefix
      have hvlen := hprefix.length_le
      rw [List.length_drop, hlen] at hvlen
      rw [hlen] at hoff
      refine ⟨hle, o.toNat, by omega, ?_⟩
      rw [List.prefix_iff_eq_take.mp hprefix, List.length_take, List.drop_take, List.take_take,
        List.drop_drop]
      congr 1
      rw [List.length_take, List.length_drop]
      omega
    · cases hv

theorem insert_one_get? {α : Type} {m : OrdMap Text α} {n k : Text} {value : Option α} {v : α}
    (h : (insert_one m n value).get? k = some v) : m.get? k = some v ∨ k = n ∧ k ≠ [] ∧ value = some v := by
  cases value with
  | none =>
      rw [insert_one] at h
      split at h <;> exact .inl h
  | some w =>
      rw [insert_one] at h
      by_cases hn : n = []
      · rw [if_pos hn] at h
        exact .inl h
      · rw [if_neg hn, OrdMap.get?_insert] at h
        split at h
        · rename_i hk
          subst hk
          exact .inr ⟨rfl, hn, h⟩
        · exact .inl h

theorem insert_loop_get? {α : Type} {names : List Text} {value : Nat → Option α} (is : List Nat)
    (m : OrdMap Text α) (hm : ∀ k v, m.get? k = some v → k ∈ names ∧ k ≠ [] ∧ ∃ i, value i = some v) :
    ∀ k v, (is.foldl (fun m i =>
      match names[i]? with
      | none => m
      | some n => insert_one m n (value i)) m).get? k = some v →
      k ∈ names ∧ k ≠ [] ∧ ∃ i, value i = some v := by
  induction is generalizing m with
  | nil => exact hm
  | cons i is ih =>
      apply ih
      intro k v hkv
      cases hn : names[i]? with
      | none =>
          simp only [hn] at hkv
          exact hm k v hkv
      | some n =>
          simp only [hn] at hkv
          rcases insert_one_get? hkv with hkv | ⟨rfl, hne, hval⟩
          · exact hm k v hkv
          · exact ⟨List.mem_of_getElem? hn, hne, i, hval⟩

theorem insert_named_get? {α : Type} {count : Nat} {names : List Text} {value : Nat → Option α}
    {k : Text} {v : α} (h : (insert_named count names value .empty).get? k = some v) :
    k ∈ names ∧ k ≠ [] ∧ ∃ i, value i = some v := by
  refine insert_loop_get? _ .empty ?_ k v h
  intro k v hkv
  rw [OrdMap.get?_empty] at hkv
  cases hkv

/-- `n` is the text of a string inside the span. -/
def NameInside (b : Bytes) (span : Nat × Nat) (n : Text) : Prop := ∃ v, Inside b span v ∧ n = Utf8.lossy v

/-- The extended strings of an entry, names included, lie inside the extended table. -/
structure ExtContained (b : Bytes) (t : TermEntry) (span : Option (Nat × Nat)) : Prop where
  bools : ∀ n v, t.ext_bools.get? n = some v → ∃ s, span = some s ∧ NameInside b s n
  nums : ∀ n v, t.ext_nums.get? n = some v → ∃ s, span = some s ∧ NameInside b s n
  texts : ∀ n v, t.ext_strs.get? n = some v → ∃ s, span = some s ∧ NameInside b s n ∧ Inside b s v

theorem nameInside_of_mem {b : Bytes} {p n : Nat} {table : Bytes} (htable : getRange b p n = some table)
    {os : List Int} {k : Text} (hk : k ∈ os.map (name_at table)) (hne : k ≠ []) :
    NameInside b (p, n) k := by
  obtain ⟨o, _, rfl⟩ := List.mem_map.mp hk
  rw [name_at_eq] at hne ⊢
  cases hv : value_at table o with
  | none =>
      rw [hv] at hne
      exact absurd rfl hne
  | some v => exact ⟨v, inside_of_value_at htable hv, rfl⟩

theorem getD_cases {α : Type} {P : α → Prop} {o : Option α} {d : α} (hnone : P d)
    (hsome : ∀ a, o = some a → P a) : P (o.getD d) := by
  cases o with
  | none => exact hnone
  | some a => exact hsome a rfl

theorem mem_of_getD {α : Type} {xs : List (Option α)} {i : Nat} {v : α} (h : xs.getD i none = some v) :
    some v ∈ xs := by
  rw [List.getD_eq_getElem?_getD] at h
  cases hx : xs[i]? with
  | none =>
      rw [hx] at h
      cases h
  | some x =>
      rw [hx] at h
      have hv : x = some v := h
      rw [← hv]
      exact List.mem_of_getElem? hx

theorem parse_extended_strs (t : TermEntry) (b : Bytes) (p : Nat) (wide : Bool) :
    (parse_extended t b p wide).strs = t.strs := by
  unfold parse_extended
  apply getD_cases (P := fun t' : TermEntry => t'.strs = t.strs)
  · rfl
  · intro t' h
    simp only [Option.bind_eq_bind, Option.bind_eq_some_iff] at h
    obtain ⟨_, _, _, _, _, _, _, _, _, _, _, _, _, _, _, _, _, _, h⟩ := h
    rw [← Option.some.inj h]

theorem parse_extended_contained {t : TermEntry} (b : Bytes) (p : Nat) (wide : Bool)
    (ht : t.ext_bools = .empty ∧ t.ext_nums = .empty ∧ t.ext_strs = .empty) :
    ExtContained b (parse_extended t b p wide) (ext_span_at b p wide) := by
  obtain ⟨hb, hn, hs⟩ := ht
  unfold parse_extended
  apply getD_cases (P := fun t' => ExtContained b t' (ext_span_at b p wide))
  · constructor
    · intro n v hv
      rw [hb, OrdMap.get?_empty] at hv
      cases hv
    · intro n v hv
      rw [hn, OrdMap.get?_empty] at hv
      cases hv
    · intro n v hv
      rw [hs, OrdMap.get?_empty] at hv
      cases hv
  · intro t' h
    simp only [Option.bind_eq_bind, Option.bind_eq_some_iff] at h
    obtain ⟨ext_bool, h₀, ext_num, h₁, ext_str, h₂, ext_off, h₃, ext_size, h₄, bools, h₅, nums, h₆,
      offs, h₇, table, h₈, h⟩ := h
    have h := Option.some.inj h
    subst h
    have hspan : ext_span_at b p wide =
        some (even (even p + 10 + ext_bool) + ext_num * num_width wide + ext_off * 2, ext_size) := by
      simp only [ext_span_at, h₀, h₁, h₃, h₄, Option.bind_eq_bind, Option.bind_some]
    constructor
    · intro n v hv
      rw [hb] at hv
      obtain ⟨hmem, hne, _⟩ := insert_named_get? hv
      exact ⟨_, hspan, nameInside_of_mem h₈ hmem hne⟩
    · intro n v hv
      rw [hn] at hv
      obtain ⟨hmem, hne, _⟩ := insert_named_get? hv
      exact ⟨_, hspan, nameInside_of_mem h₈ (List.mem_of_mem_drop hmem) hne⟩
    · intro n v hv
      rw [hs] at hv
      obtain ⟨hmem, hne, i, hval⟩ := insert_named_get? hv
      refine ⟨_, hspan, nameInside_of_mem h₈ (List.mem_of_mem_drop hmem) hne, ?_⟩
      obtain ⟨o, _, ho⟩ := List.mem_map.mp (mem_of_getD hval)
      exact inside_of_value_at h₈ ho

/-- Every string of an entry lies inside the string tables of its file. -/
structure Contained (b : Bytes) (t : TermEntry) : Prop extends ExtContained b t (ext_table_span b) where
  strs : ∀ v, some v ∈ t.strs → ∃ span, table_span b = some span ∧ Inside b span v

theorem parse_contained {b : Bytes} {t : TermEntry} (h : parse b = some t) : Contained b t := by
  simp only [parse, Option.bind_eq_bind, Option.bind_eq_some_iff] at h
  obtain ⟨magic, hmagic, wide, hwide, name_size, h₁, bool_count, h₂, num_count, h₃, str_count, h₄,
    table_size, h₅, names_raw, h₆, bools, h₇, nums, h₈, offs, h₉, table, h₁₀, h⟩ := h
  have h := Option.some.inj h
  subst h
  have hspan : table_span b = some
      (even (12 + name_size + bool_count) + num_count * num_width wide + str_count * 2, table_size) := by
    simp only [table_span, hmagic, hwide, h₁, h₂, h₃, h₄, h₅, Option.bind_eq_bind, Option.bind_some]
  refine ⟨?_, ?_⟩
  · rw [ext_table_span, hmagic]
    simp only [hwide, hspan, Option.bind_eq_bind, Option.bind_some]
    exact parse_extended_contained b _ wide ⟨rfl, rfl, rfl⟩
  · intro v hv
    rw [parse_extended_strs] at hv
    obtain ⟨o, _, ho⟩ := List.mem_map.mp hv
    exact ⟨_, hspan, inside_of_value_at h₁₀ ho⟩

/-- Reading inverts writing exactly where the reader looks for the names in their places (so it does without
extended strings), and what is read from any file lies inside its tables. -/
theorem reads_back_iff (e : Entry) (b : Bytes) :
    (parse e.write = some e.term ↔ Undisturbed e) ∧ (e.ext.strs.entries = [] → Undisturbed e) ∧
      ∀ t, parse b = some t → Contained b t := by
  refine ⟨?_, undisturbed_of_no_strs, ?_⟩
  · rw [parse_write, Option.some_inj, read_eq_term_iff]
  · intro t h
    exact parse_contained h

/-- An entry with the flag `AX` and the string `XM`. -/
def flagged : Entry where
  wide := false
  names := [['x']]
  bools := []
  nums := []
  strs := []
  ext := ⟨⟨[(['A', 'X'], 1)], List.pairwise_singleton _ _⟩, .empty,
    ⟨[(['X', 'M'], .present [27])], List.pairwise_singleton _ _⟩⟩
  names_ne := by decide
  names_plain := by decide
  bools_fit := by decide
  nums_fit := by decide
  strs_plain := by simp
  ext_names_plain := by simp [Extended.names, OrdMap.empty, Plain]
  ext_bools_fit := by simp; decide
  ext_nums_fit := by simp [OrdMap.empty]
  ext_strs_plain := by simp [Extended.caps]
  names_size := by decide
  bools_size := by decide
  nums_size := by decide
  strs_size := by decide
  table_size := by decide
  ext_size := by decide
  ext_bools_size := by decide
  ext_nums_size := by decide
  ext_strs_size := by decide
  ext_items_size := by decide

/-- The flag is read under the name that the value of `XM` spells. -/
theorem flagged_misread :
    flagged.found = [['\x1b'], ['X']] ∧ parse flagged.write ≠ some flagged.term := by
  have hfound : flagged.found = [['\x1b'], ['X']] := by decide
  refine ⟨hfound, ?_⟩
  intro h
  rw [parse_write] at h
  have hbools := ((read_eq_term_iff flagged).mp (Option.some.inj h)).bools
  rw [hfound] at hbools
  have hmem : (['\x1b'], true) ∈ flagged.term.ext_bools.entries := hbools.subset List.mem_cons_self
  exact absurd hmem (by decide)

end Zshrs.Terminfo
