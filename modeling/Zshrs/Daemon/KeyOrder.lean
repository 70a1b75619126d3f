import Mathlib.Data.List.TakeWhile
import Zshrs.Daemon.CanonicalRestart
import Zshrs.Lib.Comparators
import Mathlib.Algebra.Group.Nat.Defs

namespace Zshrs.Daemon.Canonical

open Lib Lib.Comparators

section Textual

variable {a b : Text}

theorem text_isLE : (compareOfLessAndEq a b).isLE ↔ a ≤ b :=
  isLE_compareOfLessAndEq le_antisymm not_le le_total

theorem text_eq : compareOfLessAndEq a b = .eq ↔ a = b := compareOfLessAndEq_eq_eq le_refl not_le

theorem text_swap : compareOfLessAndEq b a = (compareOfLessAndEq a b).swap :=
  compareOfLessAndEq_eq_swap le_antisymm le_total not_le

theorem number_swap {x y : Nat} : compareOfLessAndEq y x = (compareOfLessAndEq x y).swap :=
  compareOfLessAndEq_eq_swap le_antisymm le_total not_le

theorem number_eq {x y : Nat} : compareOfLessAndEq x y = .eq ↔ x = y := compareOfLessAndEq_eq_eq le_refl not_le

end Textual

section Order

variable {a b c : Text} {x y : Nat}

theorem key_order_numbers (ha : lead a = some x) (hb : lead b = some y) :
    (key_order a b).isLE ↔ x < y ∨ x = y ∧ a ≤ b := by
  unfold key_order
  rw [ha, hb]
  dsimp only
  rw [Ordering.isLE_then_iff_or, compareOfLessAndEq_eq_lt, number_eq, text_isLE]

theorem key_order_left (ha : lead a = none) : key_order a b = compareOfLessAndEq a b := by
  unfold key_order
  rw [ha]

theorem key_order_right (hb : lead b = none) : key_order a b = compareOfLessAndEq a b := by
  unfold key_order
  rw [hb]
  cases lead a with
  | none => rfl
  | some x => rfl

theorem key_order_swap (a b : Text) : key_order b a = (key_order a b).swap := by
  cases ha : lead a with
  | none => rw [key_order_left ha, key_order_right ha, text_swap]
  | some x =>
      cases hb : lead b with
      | none => rw [key_order_left hb, key_order_right hb, text_swap]
      | some y =>
          unfold key_order
          rw [ha, hb]
          dsimp only
          rw [Ordering.swap_then, ← number_swap, ← text_swap]

theorem key_order_eq : key_order a b = .eq ↔ a = b := by
  constructor
  · intro h
    unfold key_order at h
    split at h
    · exact text_eq.mp (Ordering.then_eq_eq.mp h).2
    · exact text_eq.mp h
  · rintro rfl
    unfold key_order
    split
    · next heq heq' =>
      rw [heq] at heq'
      cases heq'
      exact Ordering.then_eq_eq.mpr ⟨number_eq.mpr rfl, text_eq.mpr rfl⟩
    · exact text_eq.mpr rfl

/-- A key whose number is too long for a `u64` stands between two keys that the numbers order the other way. -/
def Drift (low high odd : Text) : Prop :=
  ∃ x y, lead low = some x ∧ lead high = some y ∧ x < y ∧ lead odd = none ∧ high < odd ∧ odd < low

/-- No three of the keys drift. -/
def Steady (keys : List Text) : Prop := ∀ low ∈ keys, ∀ high ∈ keys, ∀ odd ∈ keys, ¬ Drift low high odd

/-- A key without a number can only be passed the wrong way in a drift. -/
theorem drift_of_between (ha : lead a = some x) (hb : lead b = some y) (hc : lead c = none)
    (hle : x < y ∨ x = y ∧ a ≤ b) (hbc : b ≤ c) (hca : c < a) : Drift a b c := by
  have hne : b ≠ c := by
    rintro rfl
    rw [hb] at hc
    cases hc
  have hlt : b < c := lt_of_le_of_ne hbc hne
  refine ⟨x, y, ha, hb, hle.resolve_right fun h => ?_, hc, hlt, hca⟩
  exact absurd (lt_trans hlt hca) (not_lt.mpr h.2)

theorem drift_of_ends (ha : lead a = some x) (hb : lead b = some y) (hc : lead c = none)
    (hle : x < y ∨ x = y ∧ a ≤ b) (hbc : b < c) (hca : c ≤ a) : Drift a b c := by
  have hne : c ≠ a := by
    rintro rfl
    rw [ha] at hc
    cases hc
  exact drift_of_between ha hb hc hle (le_of_lt hbc) (lt_of_le_of_ne hca hne)

theorem key_order_trans (hdrift : ∀ low ∈ [a, b, c], ∀ high ∈ [a, b, c], ∀ odd ∈ [a, b, c], ¬ Drift low high odd)
    (hab : (key_order a b).isLE) (hbc : (key_order b c).isLE) : (key_order a c).isLE := by
  have ma : a ∈ [a, b, c] := by simp
  have mb : b ∈ [a, b, c] := by simp
  have mc : c ∈ [a, b, c] := by simp
  cases ha : lead a with
  | none =>
      rw [key_order_left ha, text_isLE] at hab
      rw [key_order_left ha, text_isLE]
      cases hb : lead b with
      | none =>
          rw [key_order_left hb, text_isLE] at hbc
          exact le_trans hab hbc
      | some y =>
          cases hc : lead c with
          | none =>
              rw [key_order_right hc, text_isLE] at hbc
              exact le_trans hab hbc
          | some z =>
              rw [key_order_numbers hb hc] at hbc
              refine le_of_not_gt fun hca => ?_
              exact hdrift b mb c mc a ma (drift_of_ends hb hc ha hbc hca hab)
  | some x =>
      cases hb : lead b with
      | none =>
          rw [key_order_right hb, text_isLE] at hab
          rw [key_order_left hb, text_isLE] at hbc
          cases hc : lead c with
          | none =>
              rw [key_order_right hc, text_isLE]
              exact le_trans hab hbc
          | some z =>
              rw [key_order_numbers ha hc]
              by_contra hnot
              rw [not_or, not_and] at hnot
              have hle : z < x ∨ z = x ∧ c ≤ a := by
                refine (lt_or_eq_of_le (not_lt.mp hnot.1)).imp_right fun h => ⟨h, ?_⟩
                exact absurd (le_trans hab hbc) (hnot.2 h.symm)
              have hne : a ≠ b := by
                rintro rfl
                rw [ha] at hb
                cases hb
              exact hdrift c mc a ma b mb (drift_of_ends hc ha hb hle (lt_of_le_of_ne hab hne) hbc)
      | some y =>
          rw [key_order_numbers ha hb] at hab
          cases hc : lead c with
          | none =>
              rw [key_order_right hc, text_isLE] at hbc ⊢
              refine le_of_not_gt fun hca => ?_
              exact hdrift a ma b mb c mc (drift_of_between ha hb hc hab hbc hca)
          | some z =>
              rw [key_order_numbers hb hc] at hbc
              rw [key_order_numbers ha hc]
              obtain hxy | ⟨rfl, hab⟩ := hab
              · obtain hyz | ⟨rfl, -⟩ := hbc
                · exact .inl (lt_trans hxy hyz)
                · exact .inl hxy
              · exact hbc.imp_right fun h => ⟨h.1, le_trans hab h.2⟩

/-- In a drift the order goes round. -/
theorem not_trans_of_drift (h : Drift a b c) :
    (key_order a b).isLE ∧ (key_order b c).isLE ∧ ¬ (key_order a c).isLE := by
  obtain ⟨x, y, ha, hb, hxy, hc, hbc, hca⟩ := h
  rw [key_order_numbers ha hb, key_order_right hc, key_order_right hc, text_isLE, text_isLE]
  exact ⟨.inl hxy, le_of_lt hbc, not_le.mpr hca⟩

theorem lawful_iff_steady (keys : List Text) : LawfulOn key_order keys ↔ Steady keys := by
  constructor
  · intro h low hlow high hhigh odd hodd hdrift
    obtain ⟨hab, hbc, hac⟩ := not_trans_of_drift hdrift
    exact hac (h.trans low hlow high hhigh odd hodd hab hbc)
  · intro h
    refine ⟨fun a _ => key_order_eq.mpr rfl, fun a _ b _ => key_order_swap a b, fun a _ b _ => key_order_eq.mp, ?_⟩
    intro a ha b hb c hc
    have hsub : ∀ k ∈ [a, b, c], k ∈ keys := by
      intro k hk
      simp only [List.mem_cons, List.not_mem_nil, or_false] at hk
      obtain rfl | rfl | rfl := hk
      · exact ha
      · exact hb
      · exact hc
    exact key_order_trans fun low hl high hh odd ho => h low (hsub low hl) high (hsub high hh) odd (hsub odd ho)

end Order

section Positions

theorem lead_index {i : Nat} (hi : i < 2 ^ 64) : lead (index i) = some i := by
  have hdigits : (index i).takeWhile Char.isDigit = index i :=
    List.takeWhile_eq_self_iff.mpr fun c hc => index_digits hc
  have hnil : index i ≠ [] := Nat.toDigits_ne_nil
  have hvalue : Nat.ofDigitChars 10 (index i) 0 = i := Nat.ofDigitChars_ten_toDigits
  unfold lead
  rw [hdigits, if_neg hnil, hvalue]
  exact if_pos hi

theorem steady_of_lead {keys : List Text} (h : ∀ k ∈ keys, (lead k).isSome) : Steady keys := by
  rintro low - high - odd hodd ⟨x, y, -, -, -, hnone, -⟩
  have hsome := h odd hodd
  rw [hnone] at hsome
  cases hsome

/-- The keys of a list of `n` entries. -/
def positions (n : Nat) : List Text := (List.range n).map index

theorem positions_sorted {n : Nat} (hn : n ≤ 2 ^ 64) :
    (positions n).Pairwise fun a b => (key_order a b).isLE := by
  rw [positions, List.pairwise_map]
  refine List.Pairwise.imp_of_mem ?_ (List.pairwise_lt_range (n := n))
  intro i j hi hj hij
  have hi' := List.mem_range.mp hi
  have hj' := List.mem_range.mp hj
  exact (key_order_numbers (lead_index (by omega)) (lead_index (by omega))).mpr (.inl hij)

/-- The rows that zshrs has in a subsystem are keyed `0`, `1`, … -/
def Positional (rows : Rows) (sub : Text) (n : Nat) : Prop :=
  ∀ slot, SHELL_ID_SEP ∉ slot → (((table rows sub).slots.get? slot).isSome ↔ slot ∈ positions n)

theorem bare_key {row : CanonicalRow} (h : SHELL_ID_SEP ∉ row.slot) : row.slot = row.key := by
  rw [row.slot_eq, slotOf] at h ⊢
  split
  · rfl
  · next hwho =>
    rw [if_neg hwho] at h
    exact absurd (List.mem_append_right _ List.mem_cons_self) h

variable {rows : Rows} {sub : Text} {n : Nat}

/-- The keys of zshrs's rows are their slots. -/
theorem bare_keys (rows : Rows) (sub : Text) :
    (((table rows sub).slots.entries.filter fun p => SHELL_ID_SEP ∉ p.1).map Prod.snd).map (·.key) =
      ((table rows sub).slots.entries.map Prod.fst).filter fun slot => SHELL_ID_SEP ∉ slot := by
  rw [List.map_map, List.filter_map]
  apply List.map_congr_left
  intro p hp
  obtain ⟨hmem, hbare⟩ := List.mem_filter.mp hp
  have hslot := (table rows sub).filed p.1 p.2 (OrdMap.get?_eq_some_iff.mpr hmem)
  have hbare' : SHELL_ID_SEP ∉ p.2.slot := by
    rw [hslot]
    exact of_decide_eq_true hbare
  exact (bare_key hbare').symm.trans hslot

theorem index_bare (i : Nat) : SHELL_ID_SEP ∉ index i := fun h => absurd (index_digits h) (by decide)

theorem Positional.perm (h : Positional rows sub n) :
    (((table rows sub).slots.entries.map Prod.fst).filter fun slot => SHELL_ID_SEP ∉ slot).Perm (positions n) := by
  have hnodup : (positions n).Nodup := List.nodup_range.map fun i j hij => index_inj hij
  refine (List.perm_ext_iff_of_nodup ((OrdMap.nodup_keys _).filter _) hnodup).mpr fun slot => ?_
  rw [List.mem_filter, decide_eq_true_iff]
  constructor
  · rintro ⟨hmem, hbare⟩
    obtain ⟨p, hp, rfl⟩ := List.mem_map.mp hmem
    exact (h p.1 hbare).mp (Option.isSome_of_mem (OrdMap.get?_eq_some_iff.mpr hp))
  · intro hmem
    obtain ⟨i, -, rfl⟩ := List.mem_map.mp hmem
    obtain ⟨row, hrow⟩ := Option.isSome_iff_exists.mp ((h _ (index_bare i)).mpr hmem)
    exact ⟨List.mem_map.mpr ⟨(index i, row), OrdMap.get?_eq_some_iff.mp hrow, rfl⟩, index_bare i⟩

theorem rows_for_positions (hn : n ≤ 2 ^ 64) (h : Positional rows sub n) :
    (rows_for rows sub).map (·.key) = positions n := by
  have hsort : (rows_for rows sub).map (·.key) =
      ((((table rows sub).slots.entries.filter fun p => SHELL_ID_SEP ∉ p.1).map Prod.snd).map (·.key)).mergeSort
        fun a b => (key_order a b).isLE := List.map_mergeSort fun _ _ _ _ => rfl
  have hlead : ∀ k ∈ ((table rows sub).slots.entries.map Prod.fst).filter fun slot => SHELL_ID_SEP ∉ slot,
      (lead k).isSome := by
    intro k hk
    obtain ⟨i, hi, rfl⟩ := List.mem_map.mp (h.perm.mem_iff.mp hk)
    have hi' := List.mem_range.mp hi
    rw [lead_index (by omega)]
    rfl
  rw [hsort, bare_keys]
  exact ((lawful_iff_steady _).mpr (steady_of_lead hlead)).mergeSort_eq h.perm (positions_sorted hn)

end Positions

/-- The order is lawful on the keys that no overlong number stands between, and positional rows are listed in turn. -/
theorem key_order_lawful (keys : List Text) :
    (LawfulOn key_order keys ↔ Steady keys) ∧
      ∀ rows sub n, n ≤ 2 ^ 64 → Positional rows sub n → (rows_for rows sub).map (·.key) = positions n :=
  ⟨lawful_iff_steady keys, fun _ _ _ => rows_for_positions⟩

def path : Text := ['p', 'a', 't', 'h']

/-- The entries of a path. -/
def pathRows : Nat → Rows
  | 0 => .empty
  | n + 1 => upsert 0 (pathRows n) path (index n) [] none

theorem pathRows_filed (n : Nat) (slot : Text) :
    ((table (pathRows n) path).slots.get? slot).isSome ↔ slot ∈ positions n := by
  induction n with
  | zero => simp [pathRows, table, positions]
  | succ n ih =>
    have last : positions (n + 1) = positions n ++ [index n] := by
      rw [positions, List.range_succ, List.map_append]
      rfl
    have bare : (CanonicalRow.mk (index n) [] 0 none none none none []).slot = index n := rfl
    unfold pathRows upsert upsert_tagged upsert_tagged_with_attrs
    rw [table_insert, if_pos rfl, Table.get?_insert, last, List.mem_append, List.mem_singleton, ← ih]
    simp only [Option.map_none, bare]
    by_cases h : slot = index n
    · simp [h]
    · simp [h]

/-- The entry 10 comes behind the entry 9. -/
theorem pathRows_listed : (rows_for (pathRows 11) path).map (·.key) =
    [['0'], ['1'], ['2'], ['3'], ['4'], ['5'], ['6'], ['7'], ['8'], ['9'], ['1', '0']] :=
  (key_order_lawful []).2 (pathRows 11) path 11 (by omega) fun slot _ => pathRows_filed 11 slot

/-- `2` comes before `10`, `10` before 2^64, and 2^64 before `2`. -/
theorem key_order_cycle :
    ¬ ∀ keys, LawfulOn key_order keys := by
  intro h
  have hdrift : Drift ['2'] ['1', '0'] "18446744073709551616".toList :=
    ⟨2, 10, by decide, by decide, by decide, by decide, by decide, by decide⟩
  exact (lawful_iff_steady [['2'], ['1', '0'], "18446744073709551616".toList]).mp (h _) _ (by simp) _ (by simp) _
    (by simp) hdrift

end Zshrs.Daemon.Canonical
