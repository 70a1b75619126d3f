import Zshrs.Daemon.CanonicalShard

namespace Zshrs.Daemon.Canonical

open Lib Lib.Runs

theorem place_map (f : MapField) : place f.subsystem = .map f := by
  cases f <;> decide

theorem place_list (f : ListField) : place f.subsystem = .list f := by
  cases f <;> decide

theorem place_eq_map {sub : Text} {f : MapField} : place sub = .map f ↔ sub = f.subsystem := by
  constructor
  · intro h
    rw [place] at h
    split at h
    · rename_i g hg
      cases h
      have hsub := List.find?_some hg
      exact (of_decide_eq_true hsub).symm
    · split at h
      · cases h
      · split at h
        · cases h
        · split at h
          · cases h
          · split at h <;> cases h
  · rintro rfl
    exact place_map f

theorem place_eq_list {sub : Text} {f : ListField} : place sub = .list f ↔ sub = f.subsystem := by
  constructor
  · intro h
    rw [place] at h
    split at h
    · cases h
    · split at h
      · rename_i g hg
        cases h
        have hsub := List.find?_some hg
        exact (of_decide_eq_true hsub).symm
      · split at h
        · cases h
        · split at h
          · cases h
          · split at h <;> cases h
  · rintro rfl
    exact place_list f

theorem place_named {sub : Text} :
    (place sub = .setopt ↔ sub = setopt) ∧ (place sub = .zmodload ↔ sub = zmodload) ∧
      (place sub = .zstyle ↔ sub = zstyle) := by
  refine ⟨?_, ?_, ?_⟩ <;>
  · constructor
    · intro h
      rw [place] at h
      split at h
      · cases h
      · split at h
        · cases h
        · split at h
          · cases h <;> assumption
          · split at h
            · cases h <;> assumption
            · split at h
              · cases h <;> assumption
              · cases h
    · rintro rfl
      decide

theorem place_eq_setopt {sub : Text} : place sub = .setopt ↔ sub = setopt := place_named.1
theorem place_eq_zmodload {sub : Text} : place sub = .zmodload ↔ sub = zmodload := place_named.2.1
theorem place_eq_zstyle {sub : Text} : place sub = .zstyle ↔ sub = zstyle := place_named.2.2

/-- The rows of a subsystem in slot order. -/
def entriesOf (rows : Rows) (sub : Text) : List (Text × CanonicalRow) := (table rows sub).slots.entries

theorem flatMap_ite {α β : Type} (l : List α) (q : α → Bool) (h : α → List β) :
    l.flatMap (fun a => if q a then h a else []) = (l.filter q).flatMap h := by
  induction l with
  | nil => rfl
  | cons a l ih =>
      rw [List.flatMap_cons, ih]
      cases hq : q a <;> simp [hq]

/-- The cells of one subsystem. -/
theorem filter_block {α β : Type} (l : List α) (c sub : Text) (g : α → β) :
    (l.map fun a => (c, g a)).filter (fun p => p.1 = sub) =
      if c = sub then l.map (fun a => (sub, g a)) else [] := by
  by_cases h : c = sub
  · subst h
    rw [if_pos rfl, List.filter_eq_self]
    intro p hp
    obtain ⟨a, -, rfl⟩ := List.mem_map.mp hp
    exact decide_eq_true rfl
  · rw [if_neg h, List.filter_eq_nil_iff]
    intro p hp hc
    obtain ⟨a, -, rfl⟩ := List.mem_map.mp hp
    exact h (of_decide_eq_true hc)

theorem filter_cells (rows : Rows) (sub : Text) :
    (cells rows).filter (fun c => c.1 = sub) = (entriesOf rows sub).map fun q => (sub, q) := by
  have hblock : (fun p : Text × Table => (p.2.slots.entries.map fun q => (p.1, q)).filter
      (fun c => c.1 = sub)) = fun p => if decide (p.1 = sub) then p.2.slots.entries.map (fun q => (sub, q)) else [] := by
    funext p
    rw [filter_block]
    simp
  rw [cells, List.filter_flatMap, hblock, flatMap_ite, rows.filter_key (fun p => decide_eq_true_iff),
    entriesOf, table]
  cases rows.get? sub with
  | some t => simp
  | none => rfl

section Snapshot

variable (json : SerdeJson) (rows : Rows) (generation : Nat)

/-- A field of the shard that one subsystem fills is filled from its rows. -/
theorem snapshot_field {τ : Type} (field : CanonicalShard → τ) (act : τ → Text × CanonicalRow → τ) (sub : Text)
    (hcount : ∀ s n, field { s with entry_count := n } = field s)
    (hin : ∀ s q, field (addRow json s (sub, q)) = act (field s) q)
    (hout : ∀ s c, c.1 ≠ sub → field (addRow json s c) = field s) :
    field (snapshot_shard json rows generation) =
      (entriesOf rows sub).foldl act (field (emptyShard generation)) := by
  rw [snapshot_shard, hcount]
  have hrun := @run_project _ _ _ (addRow json) field (fun t c => act t c.2) (fun c => decide (c.1 = sub))
    (by
      rintro s ⟨sub', q⟩ h
      have hsub : sub' = sub := of_decide_eq_true h
      subst hsub
      exact hin s q)
    (by
      intro s c h
      exact hout s c (of_decide_eq_false h))
    (emptyShard generation) (cells rows)
  refine hrun.trans ?_
  rw [filter_cells, run, List.foldl_map]

theorem snapshot_maps (f : MapField) :
    (snapshot_shard json rows generation).maps f =
      (entriesOf rows f.subsystem).foldl (fun m p => m.insert p.1 (unjson json p.2.value)) .empty := by
  refine snapshot_field json rows generation (fun s => s.maps f) _ f.subsystem (fun _ _ => rfl) ?_ ?_
  · intro s q
    simp [addRow, place_map]
  · intro s c hc
    have hplace : place c.1 ≠ .map f := fun h => hc (place_eq_map.mp h)
    rw [addRow]
    split
    · rename_i g hg
      have hne : f ≠ g := fun h => hplace (h ▸ hg)
      simp [hne]
    all_goals first | rfl | (split <;> rfl)

theorem snapshot_lists (f : ListField) :
    (snapshot_shard json rows generation).lists f =
      (entriesOf rows f.subsystem).foldl (fun t p => push_indexed t p.1 (unjson json p.2.value)) [] := by
  refine snapshot_field json rows generation (fun s => s.lists f) _ f.subsystem (fun _ _ => rfl) ?_ ?_
  · intro s q
    simp [addRow, place_list]
  · intro s c hc
    have hplace : place c.1 ≠ .list f := fun h => hc (place_eq_list.mp h)
    rw [addRow]
    split
    case h_4 g hg =>
      have hne : f ≠ g := fun h => hplace (h ▸ hg)
      simp [hne]
    all_goals first | rfl | (split <;> rfl)

theorem foldl_ite_append {α β : Type} (p : α → Bool) (g : α → β) (l : List α) (init : List β) :
    l.foldl (fun acc a => if p a then acc ++ [g a] else acc) init = init ++ (l.filter p).map g := by
  induction l generalizing init with
  | nil => simp
  | cons a l ih =>
      rw [List.foldl_cons, ih]
      cases h : p a <;> simp [h]

theorem foldl_append {α β : Type} (g : α → β) (l : List α) (init : List β) :
    l.foldl (fun acc a => acc ++ [g a]) init = init ++ l.map g := by
  induction l generalizing init with
  | nil => simp
  | cons a l ih => simp [ih]

theorem snapshot_setopts :
    (snapshot_shard json rows generation).setopts =
      ((entriesOf rows setopt).filter fun p => isOn (unjson json p.2.value)).map Prod.fst := by
  refine (snapshot_field json rows generation (fun s => s.setopts)
    (fun acc p => if isOn (unjson json p.2.value) then acc ++ [p.1] else acc) setopt (fun _ _ => rfl) ?_ ?_).trans ?_
  · intro s q
    simp only [addRow, place_eq_setopt.mpr]
    split <;> rfl
  · intro s c hc
    have hplace : place c.1 ≠ .setopt := fun h => hc (place_eq_setopt.mp h)
    rw [addRow]
    split
    case h_2 hg => exact absurd hg hplace
    all_goals rfl
  · exact foldl_ite_append _ _ _ _

theorem snapshot_unsetopts :
    (snapshot_shard json rows generation).unsetopts =
      ((entriesOf rows setopt).filter fun p => !isOn (unjson json p.2.value)).map Prod.fst := by
  refine (snapshot_field json rows generation (fun s => s.unsetopts)
    (fun acc p => if !isOn (unjson json p.2.value) then acc ++ [p.1] else acc) setopt (fun _ _ => rfl) ?_ ?_).trans ?_
  · intro s q
    simp only [addRow, place_eq_setopt.mpr]
    cases h : isOn (unjson json q.2.value) <;> simp
  · intro s c hc
    have hplace : place c.1 ≠ .setopt := fun h => hc (place_eq_setopt.mp h)
    rw [addRow]
    split
    case h_2 hg => exact absurd hg hplace
    all_goals rfl
  · exact foldl_ite_append _ _ _ _

theorem snapshot_zmodload :
    (snapshot_shard json rows generation).zmodload = (entriesOf rows zmodload).map Prod.fst := by
  refine (snapshot_field json rows generation (fun s => s.zmodload) (fun acc p => acc ++ [p.1]) zmodload
    (fun _ _ => rfl) ?_ ?_).trans ?_
  · intro s q
    simp only [addRow, place_eq_zmodload.mpr]
  · intro s c hc
    have hplace : place c.1 ≠ .zmodload := fun h => hc (place_eq_zmodload.mp h)
    rw [addRow]
    split
    case h_3 hg => exact absurd hg hplace
    all_goals first | rfl | (split <;> rfl)
  · exact foldl_append _ _ _

theorem snapshot_zstyle :
    (snapshot_shard json rows generation).zstyle =
      (entriesOf rows zstyle).map fun p => (p.1, unjson json p.2.value) := by
  refine (snapshot_field json rows generation (fun s => s.zstyle)
    (fun acc p => acc ++ [(p.1, unjson json p.2.value)]) zstyle (fun _ _ => rfl) ?_ ?_).trans ?_
  · intro s q
    simp only [addRow, place_eq_zstyle.mpr]
  · intro s c hc
    have hplace : place c.1 ≠ .zstyle := fun h => hc (place_eq_zstyle.mp h)
    rw [addRow]
    split
    case h_5 hg => exact absurd hg hplace
    all_goals first | rfl | (split <;> rfl)
  · exact foldl_append _ _ _

theorem snapshot_extras {sub : Text} (h : place sub = .extras) :
    (snapshot_shard json rows generation).extras.get? sub =
      (entriesOf rows sub).foldl (fun m p => some ((m.getD .empty).insert p.1 p.2.value)) none := by
  refine snapshot_field json rows generation (fun s => s.extras.get? sub) _ sub (fun _ _ => rfl) ?_ ?_
  · intro s q
    simp [addRow, h, OrdMap.get?_insert]
  · intro s c hc
    rw [addRow]
    split
    case h_6 hg => simp [OrdMap.get?_insert, Ne.symm hc]
    all_goals first | rfl | (split <;> rfl)

theorem snapshot_extras_none {sub : Text} (h : place sub ≠ .extras) :
    (snapshot_shard json rows generation).extras.get? sub = none := by
  refine @run_invariant _ _ (addRow json) (fun s => s.extras.get? sub = none) ?_ _ rfl (cells rows)
  intro s c hs
  rw [addRow]
  split
  case h_6 hg =>
    have hne : sub ≠ c.1 := fun h' => h (h' ▸ hg)
    simpa [OrdMap.get?_insert, hne] using hs
  all_goals first | exact hs | (split <;> exact hs)

theorem snapshot_sourced_files : (snapshot_shard json rows generation).sourced_files = [] := by
  refine @run_invariant _ _ (addRow json) (fun s => s.sourced_files = []) ?_ _ rfl (cells rows)
  intro s c hs
  rw [addRow]
  split
  all_goals first | exact hs | (split <;> exact hs)

end Snapshot

section Reading

variable (json : SerdeJson) (shard : CanonicalShard)

/-- The rows that a shard holds for a subsystem, as they are read back. -/
def pushesOf (sub : Text) : List (Text × Text) :=
  match place sub with
  | .map f => (shard.maps f).entries.map fun p => (p.1, json_string json p.2)
  | .setopt => (shard.setopts.map fun opt => (opt, on)) ++ shard.unsetopts.map fun opt => (opt, off)
  | .zmodload => shard.zmodload.map fun module => (module, loaded)
  | .list f => (shard.lists f).zipIdx.map fun p => (index p.2, json_string json p.1)
  | .zstyle => shard.zstyle.map fun p => (p.1, json_string json p.2)
  | .extras => ((shard.extras.get? sub).getD .empty).entries

theorem filter_fields {φ α β : Type} (fields : List φ) (name : φ → Text) (l : φ → List α) (g : α → β)
    (sub : Text) :
    (fields.flatMap fun f => (l f).map fun a => (name f, g a)).filter (fun p => p.1 = sub) =
      (fields.filter fun f => name f = sub).flatMap fun f => (l f).map fun a => (sub, g a) := by
  rw [List.filter_flatMap, ← flatMap_ite]
  apply List.flatMap_congr
  intro f _
  rw [filter_block]
  simp

theorem filter_mapFields {sub : Text} :
    mapFields.filter (fun f => f.subsystem = sub) = match place sub with | .map f => [f] | _ => [] := by
  cases hp : place sub with
  | map f =>
      obtain rfl := place_eq_map.mp hp
      cases f <;> decide
  | setopt | zmodload | list | zstyle | extras =>
      apply List.filter_eq_nil_iff.mpr
      intro f _ hf
      rw [← of_decide_eq_true hf, place_map] at hp
      cases hp

theorem filter_listFields {sub : Text} :
    listFields.filter (fun f => f.subsystem = sub) = match place sub with | .list f => [f] | _ => [] := by
  cases hp : place sub with
  | list f =>
      obtain rfl := place_eq_list.mp hp
      cases f <;> decide
  | map | setopt | zmodload | zstyle | extras =>
      apply List.filter_eq_nil_iff.mpr
      intro f _ hf
      rw [← of_decide_eq_true hf, place_list] at hp
      cases hp

theorem filter_pushes (hextras : ∀ sub, place sub ≠ .extras → shard.extras.get? sub = none) (sub : Text) :
    (pushes json shard).filter (fun p => p.1 = sub) = (pushesOf json shard sub).map fun p => (sub, p) := by
  have hmaps := filter_fields mapFields MapField.subsystem (fun f => (shard.maps f).entries)
    (fun p => (p.1, json_string json p.2)) sub
  have hlists := filter_fields listFields ListField.subsystem (fun f => (shard.lists f).zipIdx)
    (fun p => (index p.2, json_string json p.1)) sub
  have hrest := filter_fields shard.extras.entries Prod.fst (fun p => p.2.entries) id sub
  rw [filter_mapFields] at hmaps
  rw [filter_listFields] at hlists
  rw [shard.extras.filter_key (fun p => decide_eq_true_iff)] at hrest
  simp only [pushes, List.filter_append]
  rw [hmaps, hlists, filter_block, filter_block, filter_block, filter_block]
  have hrest' : (shard.extras.entries.flatMap fun p => p.2.entries.map fun q => (p.1, q.1, q.2)).filter
      (fun p => p.1 = sub) = (((shard.extras.get? sub).getD .empty).entries.map fun q => (sub, q)) := by
    refine hrest.trans ?_
    cases shard.extras.get? sub with
    | some m => simp
    | none => rfl
  rw [hrest', pushesOf]
  have hsetopt : setopt = sub ↔ place sub = .setopt := eq_comm.trans place_eq_setopt.symm
  have hzmodload : Canonical.zmodload = sub ↔ place sub = .zmodload := eq_comm.trans place_eq_zmodload.symm
  have hzstyle : Canonical.zstyle = sub ↔ place sub = .zstyle := eq_comm.trans place_eq_zstyle.symm
  have hnone : place sub ≠ .extras → ((shard.extras.get? sub).getD .empty).entries = [] := by
    intro h
    rw [hextras sub h]
    rfl
  cases hp : place sub with
  | extras => simp [hsetopt, hzmodload, hzstyle, hp]
  | map | setopt | zmodload | list | zstyle =>
      rw [hnone (by simp [hp])]
      simp [hsetopt, hzmodload, hzstyle, hp, Function.comp_def]

end Reading

end Zshrs.Daemon.Canonical
