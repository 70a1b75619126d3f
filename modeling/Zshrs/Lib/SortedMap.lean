import Mathlib.Order.Defs.LinearOrder
import Mathlib.Data.List.Basic
import Mathlib.Order.Lattice

namespace Zshrs.Lib.SortedMap

variable {κ α : Type} [LinearOrder κ]

/-- Key order, strict: the keys are distinct. -/
def Sorted (fields : List (κ × α)) : Prop := fields.Pairwise (fun p q => p.1 < q.1)

def insert (key : κ) (value : α) : List (κ × α) → List (κ × α)
  | [] => [(key, value)]
  | (k, v) :: rest =>
      if key < k then (key, value) :: (k, v) :: rest
      else if key = k then (key, value) :: rest
      else (k, v) :: insert key value rest

theorem mem_insert {key : κ} {value : α} {fields : List (κ × α)} {p : κ × α}
    (h : p ∈ insert key value fields) : p = (key, value) ∨ p ∈ fields := by
  induction fields with
  | nil => exact Or.inl (by simpa [insert] using h)
  | cons q rest ih =>
      simp only [insert] at h
      split at h
      · exact List.mem_cons.mp h
      · split at h
        · rcases List.mem_cons.mp h with rfl | h
          · exact Or.inl rfl
          · exact Or.inr (List.mem_cons_of_mem _ h)
        · rcases List.mem_cons.mp h with rfl | h
          · exact Or.inr List.mem_cons_self
          · exact (ih h).imp_right (List.mem_cons_of_mem _)

theorem Sorted.insert {fields : List (κ × α)} (h : Sorted fields) (key : κ) (value : α) :
    Sorted (insert key value fields) := by
  induction fields with
  | nil => simp [SortedMap.insert, Sorted]
  | cons q rest ih =>
      obtain ⟨hq, hrest⟩ := List.pairwise_cons.mp h
      simp only [SortedMap.insert]
      split
      · rename_i hlt
        refine List.pairwise_cons.mpr ⟨?_, h⟩
        intro p hp
        rcases List.mem_cons.mp hp with rfl | hp
        · exact hlt
        · exact lt_trans hlt (hq p hp)
      · split
        · rename_i heq
          subst heq
          exact List.pairwise_cons.mpr ⟨hq, hrest⟩
        · rename_i hle hne
          refine List.pairwise_cons.mpr ⟨?_, ih hrest⟩
          intro p hp
          rcases mem_insert hp with rfl | hp
          · exact lt_of_le_of_ne (not_lt.mp hle) (Ne.symm hne)
          · exact hq p hp

/-- A filter that the key does not pass sees nothing of an insertion. -/
theorem filter_insert {p : κ × α → Bool} {key : κ} (hp : ∀ value, p (key, value) = false) (value : α)
    (fields : List (κ × α)) : (insert key value fields).filter p = fields.filter p := by
  induction fields with
  | nil => rw [insert, List.filter_cons_of_neg (by simp [hp])]
  | cons q rest ih =>
      obtain ⟨k, v⟩ := q
      rw [insert]
      split
      · rw [List.filter_cons_of_neg (by simp [hp])]
      · split
        · next heq =>
          rw [List.filter_cons_of_neg (by simp [hp]), List.filter_cons_of_neg (by simp [← heq, hp])]
        · rw [List.filter_cons, List.filter_cons, ih]

/-- Inserting a key past all others appends. -/
theorem insert_last {fields : List (κ × α)} {key : κ} (h : ∀ p ∈ fields, p.1 < key) (value : α) :
    insert key value fields = fields ++ [(key, value)] := by
  induction fields with
  | nil => rfl
  | cons q rest ih =>
      have hq := h q List.mem_cons_self
      rw [insert, if_neg (not_lt_of_gt hq), if_neg (ne_of_gt hq),
        ih (fun p hp => h p (List.mem_cons_of_mem _ hp))]
      rfl

theorem Sorted.lt_of_append {fields rest : List (κ × α)} {p : κ × α}
    (h : Sorted (fields ++ p :: rest)) : ∀ q ∈ fields, q.1 < p.1 := by
  intro q hq
  exact (List.pairwise_append.mp h).2.2 q hq p List.mem_cons_self

/-- A key of a sorted map occurs once. -/
theorem Sorted.filter_key {fields : List (κ × α)} (h : Sorted fields) {p : κ × α} (hp : p ∈ fields) :
    fields.filter (fun q => q.1 = p.1) = [p] := by
  induction fields with
  | nil => simp at hp
  | cons q rest ih =>
      obtain ⟨hq, hrest⟩ := List.pairwise_cons.mp h
      rcases List.mem_cons.mp hp with rfl | hp
      · have hnone : rest.filter (fun q => q.1 = p.1) = [] := by
          apply List.filter_eq_nil_iff.mpr
          intro r hr
          simpa using (ne_of_lt (hq r hr)).symm
        simp [hnone]
      · rw [List.filter_cons_of_neg (by simpa using ne_of_lt (hq p hp))]
        exact ih hrest hp

theorem Sorted.mem_insert_iff {fields : List (κ × α)} (h : Sorted fields) {key : κ} {value : α}
    {p : κ × α} : p ∈ SortedMap.insert key value fields ↔ p = (key, value) ∨ p ∈ fields ∧ p.1 ≠ key := by
  induction fields with
  | nil => simp [SortedMap.insert]
  | cons q rest ih =>
      obtain ⟨hq, hrest⟩ := List.pairwise_cons.mp h
      have hgt : ∀ r ∈ rest, r.1 ≠ q.1 := fun r hr => (ne_of_lt (hq r hr)).symm
      simp only [SortedMap.insert]
      split
      · rename_i hlt
        have hne : ∀ r ∈ q :: rest, r.1 ≠ key := by
          intro r hr
          rcases List.mem_cons.mp hr with rfl | hr
          · exact (ne_of_lt hlt).symm
          · exact (ne_of_lt (lt_trans hlt (hq r hr))).symm
        rw [List.mem_cons]
        exact or_congr_right ⟨fun hr => ⟨hr, hne p hr⟩, fun hr => hr.1⟩
      · split
        · rename_i heq
          subst heq
          rw [List.mem_cons, List.mem_cons]
          refine or_congr_right ⟨fun hr => ⟨Or.inr hr, hgt p hr⟩, ?_⟩
          rintro ⟨rfl | hr, hne⟩
          · exact absurd rfl hne
          · exact hr
        · rename_i hne
          rw [List.mem_cons, ih hrest, List.mem_cons]
          constructor
          · rintro (rfl | rfl | ⟨hr, hk⟩)
            · exact Or.inr ⟨Or.inl rfl, Ne.symm hne⟩
            · exact Or.inl rfl
            · exact Or.inr ⟨Or.inr hr, hk⟩
          · rintro (rfl | ⟨rfl | hr, hk⟩)
            · exact Or.inr (Or.inl rfl)
            · exact Or.inl rfl
            · exact Or.inr (Or.inr ⟨hr, hk⟩)

end Zshrs.Lib.SortedMap
