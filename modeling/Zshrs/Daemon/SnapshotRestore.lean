import Zshrs.Daemon.CanonicalRestart
import Mathlib.Algebra.GroupWithZero.Nat
import Mathlib.Algebra.Order.BigOperators.Group.List
import Mathlib.Algebra.Order.Group.Nat

namespace Zshrs.Daemon.Snapshot

open Lib Lib.Runs Canonical

/-- The map fields that a load replaces, in its order. -/
def restoredMaps : List MapField :=
  [.aliases, .global_aliases, .suffix_aliases, .functions, .env_exports, .params, .bindkeys, .compdef,
    .named_dirs]

def restoredLists : List ListField := [.path, .fpath]

def json_str (json : SerdeJson) (s : Text) : Text := json.to_string s

/-- The replacements that a load makes, in order: subsystem, and rows as key and value. -/
def restores (json : SerdeJson) (shard : CanonicalShard) : List (Text × List (Text × Text)) :=
  (restoredMaps.map fun f => (f.subsystem, (shard.maps f).entries.map fun p => (p.1, json_str json p.2))) ++
  [(zstyle, shard.zstyle.zipIdx.map fun p => (index p.2 ++ ':' :: p.1.1, json_str json p.1.2)),
    (zmodload, shard.zmodload.map fun module => (module, json_str json [])),
    (setopt, (shard.setopts.map fun opt => (opt, on)) ++ shard.unsetopts.map fun opt => (opt, off)),
    (source, shard.sourced_files.zipIdx.map fun p => (index p.2, json_str json p.1))] ++
  (restoredLists.map fun f =>
    (f.subsystem, (shard.lists f).zipIdx.map fun p => (index p.2, json_str json p.1))) ++
  shard.extras.entries.map fun p => (p.1, p.2.entries.map fun q => (q.1, json_str json q.2))

/-- `op_snapshot_load` past the reading of the file: the catalog it leaves and `rows_restored`. -/
def op_snapshot_load (json : SerdeJson) (now : Int) (rows : Rows) (shard : CanonicalShard) : Rows × Nat :=
  ((restores json shard).foldl (fun rows p => replace_subsystem now rows p.1 p.2 none) rows,
    ((restores json shard).map fun p => p.2.length).sum)

/-- The rows of zshrs, by slot, as key and value. -/
def ownAt (t : Table) (slot : Text) : Option (Text × Text) :=
  ((t.slots.get? slot).filter fun r => r.identity = zshrs).map CanonicalRow.entry

/-- The rows of other shells, by slot. -/
def foreignAt (t : Table) (slot : Text) : Option CanonicalRow :=
  (t.slots.get? slot).filter fun r => r.identity ≠ zshrs

/-- What a load of the snapshot of `saved` asks of the catalog that it finds. -/
structure Restored (json : SerdeJson) (now : Int) (generation : Nat) (saved later : Rows) : Prop where
  own : ∀ sub slot,
    ownAt (table (op_snapshot_load json now later (snapshot_shard json saved generation)).1 sub) slot =
      ownAt (table saved sub) slot
  others : ∀ sub slot,
    foreignAt (table (op_snapshot_load json now later (snapshot_shard json saved generation)).1 sub) slot =
      foreignAt (table later sub) slot
  order : ∀ sub,
    (rows_for (op_snapshot_load json now later (snapshot_shard json saved generation)).1 sub).map
      CanonicalRow.entry = (rows_for saved sub).map CanonicalRow.entry

/-- The saved rows are zshrs's own; a later row in a slot that a replacement leaves alone is zshrs's exactly
if a saved one takes its place. -/
structure Whole (saved later : Table) : Prop where
  own : ∀ slot row, saved.slots.get? slot = some row → row.identity = zshrs
  apart : ∀ slot row, SHELL_ID_SEP ∈ slot → later.slots.get? slot = some row →
    (row.identity = zshrs ↔ (saved.slots.get? slot).isSome)

/-- The numbered rows fill the list, up to the rows whose slots are no numbers. -/
structure Filled (saved later : Table) (n : Nat) : Prop where
  numbered : ∀ slot, SHELL_ID_SEP ∉ slot → ((saved.slots.get? slot).isSome ↔ ∃ i < n, slot = index i)
  positions : (saved.slots.entries.map Prod.fst).foldl grown 0 = n
  apart : ∀ slot, SHELL_ID_SEP ∈ slot → ownAt later slot = ownAt saved slot

/-- The catalogs that a snapshot restores. -/
structure Restorable (json : SerdeJson) (saved later : Rows) : Prop where
  maps : ∀ f ∈ restoredMaps, Whole (table saved f.subsystem) (table later f.subsystem)
  setopt : Whole (table saved setopt) (table later setopt) ∧
    ∀ slot row, (table saved setopt).slots.get? slot = some row → row.value = on ∨ row.value = off
  zmodload : Whole (table saved zmodload) (table later zmodload) ∧
    ∀ slot row, (table saved zmodload).slots.get? slot = some row → row.value = json_str json []
  lists : ∀ f ∈ restoredLists, ∃ n, Filled (table saved f.subsystem) (table later f.subsystem) n
  cleared : ∀ sub, sub = zstyle ∨ sub = source →
    Whole (table saved sub) (table later sub) ∧ ∀ slot, (table saved sub).slots.get? slot = none
  unsaved : ∀ sub, sub = MapField.autoload_functions.subsystem ∨ sub = ListField.manpath.subsystem →
    ∀ slot, ownAt (table later sub) slot = ownAt (table saved sub) slot
  extras : ∀ sub, place sub = .extras → sub ≠ source →
    (∀ slot, (table saved sub).slots.get? slot = none) ∧ ∀ slot, ownAt (table later sub) slot = none

/-- A table after its rows of zshrs are replaced. -/
def replaced (now : Int) (t : Table) (given : List (Text × Text)) : Table :=
  (given.map (pushed now)).foldl Table.insert (t.retain (keeps none))

theorem table_replace (now : Int) (rows : Rows) (sub sub' : Text) (given : List (Text × Text)) :
    table (replace_subsystem now rows sub given none) sub' =
      if sub' = sub then replaced now (table rows sub') given else table rows sub' := by
  rw [replace_subsystem, replace_subsystem_tagged, replace_subsystem_with_attrs, table_insert]
  by_cases h : sub' = sub
  · subst h
    rw [if_pos rfl, if_pos rfl, replaced, List.foldl_map, List.foldl_map]
    rfl
  · rw [if_neg h, if_neg h]

theorem keeps_none (slot : Text) : keeps none slot = decide (SHELL_ID_SEP ∈ slot) := rfl

section Slots

variable (now : Int) {saved later : Table} {given : List (Text × Text)} {slot v : Text}

/-- A slot without the separator is one of zshrs. -/
theorem own_of_slot {t : Table} {row : CanonicalRow} (hrow : t.slots.get? slot = some row)
    (hsep : SHELL_ID_SEP ∉ slot) : row.identity = zshrs := by
  by_contra hz
  rw [← t.filed slot row hrow, CanonicalRow.slot_eq, slotOf_foreign hz] at hsep
  simp at hsep

theorem foreignAt_eq_none {t : Table} : foreignAt t slot = none ↔
    ∀ row, t.slots.get? slot = some row → row.identity = zshrs := by
  rw [foreignAt, Option.filter_eq_none_iff]
  simp

theorem ownAt_eq_none {t : Table} : ownAt t slot = none ↔
    ∀ row, t.slots.get? slot = some row → row.identity ≠ zshrs := by
  rw [ownAt, Option.map_eq_none_iff, Option.filter_eq_none_iff]
  simp

theorem ownAt_eq_some {t : Table} {e : Text × Text} : ownAt t slot = some e ↔
    ∃ row, t.slots.get? slot = some row ∧ row.identity = zshrs ∧ row.entry = e := by
  rw [ownAt, Option.map_eq_some_iff]
  constructor
  · rintro ⟨row, hrow, he⟩
    obtain ⟨hget, hz⟩ := Option.filter_eq_some_iff.mp hrow
    exact ⟨row, hget, of_decide_eq_true hz, he⟩
  · rintro ⟨row, hget, hz, he⟩
    exact ⟨row, Option.filter_eq_some_iff.mpr ⟨hget, decide_eq_true hz⟩, he⟩

theorem replaced_mem (hnodup : (given.map Prod.fst).Nodup) (h : (slot, v) ∈ given) :
    (replaced now later given).slots.get? slot = some (pushed now (slot, v)) := by
  have hslot : (fun r => decide (r.slot = slot)) ∘ pushed now = fun p => decide (p.1 = slot) := rfl
  have hlast : (given.filter fun p => p.1 = slot).getLast? = some (slot, v) :=
    (@getLast?_filter_key _ _ hnodup (slot, v)).mpr h
  rw [replaced, Table.get?_insertAll, List.filter_map, hslot, List.getLast?_map, hlast]
  rfl

theorem replaced_of_mem (h : slot ∈ given.map Prod.fst) : ∃ v,
    (replaced now later given).slots.get? slot = some (pushed now (slot, v)) := by
  have hslot : (fun r => decide (r.slot = slot)) ∘ pushed now = fun p => decide (p.1 = slot) := rfl
  rw [replaced, Table.get?_insertAll, List.filter_map, hslot, List.getLast?_map]
  obtain ⟨p, hp, rfl⟩ := List.mem_map.mp h
  have hmem : p ∈ given.filter fun q => q.1 = p.1 := List.mem_filter.mpr ⟨hp, decide_eq_true rfl⟩
  cases hlast : (given.filter fun q => q.1 = p.1).getLast? with
  | none =>
      rw [List.getLast?_eq_none_iff.mp hlast] at hmem
      cases hmem
  | some q =>
      have hkey := of_decide_eq_true (List.mem_filter.mp (List.mem_of_getLast? hlast)).2
      refine ⟨q.2, ?_⟩
      rw [← hkey]
      rfl

theorem replaced_not_mem (h : slot ∉ given.map Prod.fst) :
    (replaced now later given).slots.get? slot =
      if SHELL_ID_SEP ∈ slot then later.slots.get? slot else none := by
  have hslot : (fun r => decide (r.slot = slot)) ∘ pushed now = fun p => decide (p.1 = slot) := rfl
  have hnone : given.filter (fun p => p.1 = slot) = [] := by
    apply List.filter_eq_nil_iff.mpr
    intro p hp hk
    exact h (List.mem_map.mpr ⟨p, hp, of_decide_eq_true hk⟩)
  rw [replaced, Table.get?_insertAll, List.filter_map, hslot, hnone, Table.get?_retain, keeps_none]
  by_cases hsep : SHELL_ID_SEP ∈ slot
  · rw [if_pos hsep, decide_eq_true hsep]
    cases later.slots.get? slot <;> rfl
  · rw [if_neg hsep, decide_eq_false hsep]
    cases later.slots.get? slot <;> rfl

/-- A replacement restores a table. -/
def Restores (loaded saved later : Table) : Prop :=
  (∀ slot, ownAt loaded slot = ownAt saved slot) ∧ ∀ slot, foreignAt loaded slot = foreignAt later slot

theorem restores_replaced (hnodup : (given.map Prod.fst).Nodup) :
    Restores (replaced now later given) saved later ↔
      (∀ slot v, (slot, v) ∈ given → ownAt saved slot = some (slot, v) ∧ foreignAt later slot = none) ∧
      ∀ slot, slot ∉ given.map Prod.fst →
        ownAt saved slot = if SHELL_ID_SEP ∈ slot then ownAt later slot else none := by
  have hin : ∀ slot v, (slot, v) ∈ given → ownAt (replaced now later given) slot = some (slot, v) ∧
      foreignAt (replaced now later given) slot = none := by
    intro slot v h
    rw [ownAt, foreignAt, replaced_mem now hnodup h]
    exact ⟨rfl, rfl⟩
  have hout : ∀ slot, slot ∉ given.map Prod.fst →
      ownAt (replaced now later given) slot = (if SHELL_ID_SEP ∈ slot then ownAt later slot else none) ∧
        foreignAt (replaced now later given) slot = foreignAt later slot := by
    intro slot h
    rw [ownAt, foreignAt, replaced_not_mem now h]
    by_cases hsep : SHELL_ID_SEP ∈ slot
    · rw [if_pos hsep, if_pos hsep]
      exact ⟨rfl, rfl⟩
    · rw [if_neg hsep, if_neg hsep]
      refine ⟨rfl, Eq.symm ?_⟩
      rw [Option.filter_none, foreignAt_eq_none]
      exact fun row hrow => own_of_slot hrow hsep
  constructor
  · rintro ⟨hown, hforeign⟩
    refine ⟨?_, ?_⟩
    · intro slot v h
      rw [← hown, ← hforeign]
      exact hin slot v h
    · intro slot h
      rw [← hown]
      exact (hout slot h).1
  · rintro ⟨hgiven, hrest⟩
    refine ⟨?_, ?_⟩
    · intro slot
      by_cases h : slot ∈ given.map Prod.fst
      · obtain ⟨⟨k, v⟩, hp, rfl⟩ := List.mem_map.mp h
        rw [(hin k v hp).1, (hgiven k v hp).1]
      · rw [(hout slot h).1, hrest slot h]
    · intro slot
      by_cases h : slot ∈ given.map Prod.fst
      · obtain ⟨⟨k, v⟩, hp, rfl⟩ := List.mem_map.mp h
        rw [(hin k v hp).2, (hgiven k v hp).2]
      · exact (hout slot h).2

/-- Where the saved rows are the ones given, with their values remade. -/
theorem restores_whole (remade : Text → Text) (hnodup : (given.map Prod.fst).Nodup)
    (hgiven : ∀ slot v, (slot, v) ∈ given ↔ ∃ row, saved.slots.get? slot = some row ∧ v = remade row.value) :
    Restores (replaced now later given) saved later ↔
      Whole saved later ∧ ∀ slot row, saved.slots.get? slot = some row → row.value = remade row.value := by
  have hkeys : ∀ slot, slot ∈ given.map Prod.fst ↔ (saved.slots.get? slot).isSome := by
    intro slot
    rw [List.mem_map, Option.isSome_iff_exists]
    constructor
    · rintro ⟨⟨k, v⟩, hp, rfl⟩
      obtain ⟨row, hrow, -⟩ := (hgiven k v).mp hp
      exact ⟨row, hrow⟩
    · rintro ⟨row, hrow⟩
      exact ⟨(slot, _), (hgiven slot _).mpr ⟨row, hrow, rfl⟩, rfl⟩
  rw [restores_replaced now hnodup]
  constructor
  · rintro ⟨hin, hout⟩
    have hfound : ∀ slot row, saved.slots.get? slot = some row →
        row.identity = zshrs ∧ row.value = remade row.value ∧ foreignAt later slot = none := by
      intro slot row hrow
      obtain ⟨hown, hforeign⟩ := hin slot _ ((hgiven slot _).mpr ⟨row, hrow, rfl⟩)
      obtain ⟨row', hrow', hz, he⟩ := ownAt_eq_some.mp hown
      rw [hrow] at hrow'
      obtain rfl := Option.some.inj hrow'
      exact ⟨hz, (Prod.mk.inj he).2, hforeign⟩
    refine ⟨⟨fun slot row hrow => (hfound slot row hrow).1, ?_⟩, fun slot row hrow => (hfound slot row hrow).2.1⟩
    intro slot row hsep hrow
    constructor
    · intro hz
      by_contra hnone
      have hrest := hout slot (fun h => hnone ((hkeys slot).mp h))
      rw [if_pos hsep, ownAt, Option.not_isSome_iff_eq_none.mp hnone] at hrest
      exact ownAt_eq_none.mp hrest.symm row hrow hz
    · intro hsome
      obtain ⟨row', hrow'⟩ := Option.isSome_iff_exists.mp hsome
      exact foreignAt_eq_none.mp (hfound slot row' hrow').2.2 row hrow
  · rintro ⟨hwhole, hvalue⟩
    refine ⟨?_, ?_⟩
    · intro slot v hp
      obtain ⟨row, hrow, rfl⟩ := (hgiven slot v).mp hp
      have hz := hwhole.own slot row hrow
      refine ⟨ownAt_eq_some.mpr ⟨row, hrow, hz, ?_⟩, ?_⟩
      · exact Prod.ext ((own_iff_key (saved.filed slot row hrow)).mp hz) (hvalue slot row hrow)
      · rw [foreignAt_eq_none]
        intro row' hrow'
        by_cases hsep : SHELL_ID_SEP ∈ slot
        · exact (hwhole.apart slot row' hsep hrow').mpr (by rw [hrow]; rfl)
        · exact own_of_slot hrow' hsep
    · intro slot h
      have hnone : saved.slots.get? slot = none :=
        Option.not_isSome_iff_eq_none.mp (fun hsome => h ((hkeys slot).mpr hsome))
      have hsaved : ownAt saved slot = none := by rw [ownAt, hnone]; rfl
      rw [hsaved]
      by_cases hsep : SHELL_ID_SEP ∈ slot
      · rw [if_pos hsep, eq_comm, ownAt_eq_none]
        intro row hrow hz
        have hsome := (hwhole.apart slot row hsep hrow).mp hz
        rw [hnone] at hsome
        cases hsome
      · rw [if_neg hsep]

theorem restores_nothing (hgiven : given = []) :
    (Restores (replaced now later given) saved later ∧ ∀ slot, saved.slots.get? slot = none) ↔
      Whole saved later ∧ ∀ slot, saved.slots.get? slot = none := by
  subst hgiven
  refine and_congr_left fun hnone => ?_
  have hwhole := @restores_whole now saved later [] id List.nodup_nil (by simp [hnone])
  exact hwhole.trans (and_iff_left fun slot row _ => rfl)

/-- Where nothing is replaced. -/
theorem restores_self : Restores later saved later ↔ ∀ slot, ownAt later slot = ownAt saved slot :=
  and_iff_left fun _ => rfl

end Slots

theorem parse_of_sep {key : Text} (h : SHELL_ID_SEP ∈ key) : parse_usize key = none := by
  have hdigits : SHELL_ID_SEP ∈ stripPlus key := by
    rw [stripPlus.eq_def]
    split
    · rename_i digits
      rcases List.mem_cons.mp h with heq | hmem
      · exact absurd heq (by decide)
      · exact hmem
    · exact h
  have hall : ¬ (stripPlus key).all Char.isDigit = true := by
    intro hall
    exact absurd (List.all_eq_true.mp hall _ hdigits) (by decide)
  rw [parse_usize]
  exact if_pos (Or.inr hall)

theorem sep_not_mem_index (i : Nat) : SHELL_ID_SEP ∉ index i :=
  fun h => absurd (index_digits h) (by decide)

section Lists

variable {json : SerdeJson} (hjson : json.Lawful) (now : Int) (generation : Nat) {saved : Rows}
  (he : Encoded json saved) {later : Table}

include hjson he

theorem restores_filled (f : ListField) :
    Restores (replaced now later (pushesOf json (snapshot_shard json saved generation) f.subsystem))
        (table saved f.subsystem) later ↔
      ∃ n, Filled (table saved f.subsystem) later n := by
  let entries := entriesOf saved f.subsystem
  let list := (snapshot_shard json saved generation).lists f
  have hlength : list.length = (entries.map Prod.fst).foldl grown 0 := by
    have hrun := length_push_indexed_run (entries.map fun p => (p.1, unjson json p.2.value)) []
    rw [List.foldl_map, List.map_map] at hrun
    exact (congrArg List.length (snapshot_lists json saved generation f)).trans hrun
  have hsep : ∀ slot, SHELL_ID_SEP ∈ slot →
      slot ∉ (pushesOf json (snapshot_shard json saved generation) f.subsystem).map Prod.fst := by
    intro slot hslot hmem
    obtain ⟨p, hp, rfl⟩ := List.mem_map.mp hmem
    obtain ⟨i, s, -, rfl⟩ := (mem_listed generation saved).mp hp
    exact sep_not_mem_index i hslot
  rw [restores_replaced now (nodup_pushesOf json saved generation f.subsystem)]
  constructor
  · rintro ⟨hin, hout⟩
    refine ⟨list.length, ?_, hlength.symm, ?_⟩
    · intro slot hslot
      constructor
      · intro hsome
        obtain ⟨row, hrow⟩ := Option.isSome_iff_exists.mp hsome
        have hmem : slot ∈ (pushesOf json (snapshot_shard json saved generation) f.subsystem).map Prod.fst := by
          by_contra hmem
          have hnone := hout slot hmem
          rw [if_neg hslot] at hnone
          exact ownAt_eq_none.mp hnone row hrow (own_of_slot hrow hslot)
        obtain ⟨p, hp, rfl⟩ := List.mem_map.mp hmem
        obtain ⟨i, s, hs, rfl⟩ := (mem_listed generation saved).mp hp
        exact ⟨i, (List.getElem?_eq_some_iff.mp hs).1, rfl⟩
      · rintro ⟨i, hi, rfl⟩
        have hmem := (mem_listed generation saved).mpr ⟨i, list[i], List.getElem?_eq_getElem hi, rfl⟩
        obtain ⟨row, hrow, -⟩ := ownAt_eq_some.mp (hin _ _ hmem).1
        exact Option.isSome_iff_exists.mpr ⟨row, hrow⟩
    · intro slot hslot
      have hown := hout slot (hsep slot hslot)
      rw [if_pos hslot] at hown
      exact hown.symm
  · rintro ⟨n, hn⟩
    have hn' : list.length = n := hlength.trans hn.positions
    have hle : n ≤ entries.length := by
      have hsub : (List.range n).map index ⊆ entries.map Prod.fst := by
        intro slot hslot
        obtain ⟨i, hi, rfl⟩ := List.mem_map.mp hslot
        have hsome := (hn.numbered _ (sep_not_mem_index i)).mpr ⟨i, List.mem_range.mp hi, rfl⟩
        obtain ⟨row, hrow⟩ := Option.isSome_iff_exists.mp hsome
        exact List.mem_map.mpr ⟨(index i, row), mem_entriesOf.mpr hrow, rfl⟩
      have hnodup : ((List.range n).map index).Nodup := List.nodup_range.map fun i j hij => index_inj hij
      simpa using (List.subperm_of_subset hnodup hsub).length_le
    have hsize : entries.length < 2 ^ 64 := he.size f.subsystem
    have hlisted : ∀ i row, i < n → (table saved f.subsystem).slots.get? (index i) = some row →
        list[i]? = some (unjson json row.value) := by
      intro i row hi hrow
      have hkeys : ∀ p ∈ entries.map (fun p => (p.1, unjson json p.2.value)),
          ∀ j, parse_usize p.1 = some j → p.1 = index j := by
        intro p hp j hj
        obtain ⟨q, hq, rfl⟩ := List.mem_map.mp hp
        by_cases hslot : SHELL_ID_SEP ∈ q.1
        · rw [parse_of_sep hslot] at hj
          cases hj
        · have hsome := Option.isSome_iff_exists.mpr ⟨q.2, mem_entriesOf.mp hq⟩
          obtain ⟨k, hk, hindex⟩ := (hn.numbered q.1 hslot).mp hsome
          change parse_usize q.1 = some j at hj
          rw [hindex, parse_index (by omega)] at hj
          exact hindex.trans (congrArg index (Option.some.inj hj))
      have hnodup : ((entries.map fun p => (p.1, unjson json p.2.value)).map Prod.fst).Nodup := by
        rw [List.map_map]
        exact OrdMap.nodup_keys _
      have hmem := (@push_indexed_run _ [] hkeys hnodup).1 i (unjson json row.value) (by omega)
        (List.mem_map.mpr ⟨(index i, row), mem_entriesOf.mpr hrow, rfl⟩)
      rw [List.foldl_map] at hmem
      exact (congrArg (·[i]?) (snapshot_lists json saved generation f)).trans hmem
    have hfound : ∀ i < n, ∃ row, (table saved f.subsystem).slots.get? (index i) = some row := by
      intro i hi
      exact Option.isSome_iff_exists.mp ((hn.numbered _ (sep_not_mem_index i)).mpr ⟨i, hi, rfl⟩)
    refine ⟨?_, ?_⟩
    · intro slot v hp
      obtain ⟨i, s, hs, heq⟩ := (mem_listed generation saved).mp hp
      obtain ⟨rfl, rfl⟩ := Prod.mk.inj heq
      have hi : i < n := hn' ▸ (List.getElem?_eq_some_iff.mp hs).1
      obtain ⟨row, hrow⟩ := hfound i hi
      obtain rfl := Option.some.inj (hs.symm.trans (hlisted i row hi hrow))
      have hz := own_of_slot hrow (sep_not_mem_index i)
      have hstring : json_string json (unjson json row.value) = row.value := by
        obtain ⟨s, hs⟩ := he.values _ _ row hrow
        rw [hs, unjson_json_string hjson]
      refine ⟨ownAt_eq_some.mpr ⟨row, hrow, hz, ?_⟩, ?_⟩
      · rw [hstring]
        exact Prod.ext ((own_iff_key ((table saved f.subsystem).filed _ row hrow)).mp hz) rfl
      · rw [foreignAt_eq_none]
        exact fun row' hrow' => own_of_slot hrow' (sep_not_mem_index i)
    · intro slot hmem
      by_cases hslot : SHELL_ID_SEP ∈ slot
      · rw [if_pos hslot]
        exact (hn.apart slot hslot).symm
      · rw [if_neg hslot, ownAt_eq_none]
        intro row hrow _
        obtain ⟨i, hi, rfl⟩ := (hn.numbered slot hslot).mp (Option.isSome_iff_exists.mpr ⟨row, hrow⟩)
        exact hmem (List.mem_map.mpr ⟨_, (mem_listed generation saved).mpr
          ⟨i, _, hlisted i row hi hrow, rfl⟩, rfl⟩)

end Lists

/-- The styles as a load keys them, with their positions. -/
def styles (json : SerdeJson) (shard : CanonicalShard) : List (Text × Text) :=
  shard.zstyle.zipIdx.map fun p => (index p.2 ++ ':' :: p.1.1, json_str json p.1.2)

section Load

variable (json : SerdeJson) (now : Int) (shard : CanonicalShard) (sub : Text)

/-- The replacements of one subsystem. -/
def givens : List (List (Text × Text)) := ((restores json shard).filter fun p => p.1 = sub).map Prod.snd

theorem table_load (rows : Rows) :
    table (op_snapshot_load json now rows shard).1 sub =
      (givens json shard sub).foldl (replaced now) (table rows sub) := by
  rw [op_snapshot_load, givens]
  generalize restores json shard = calls
  rw [List.foldl_map]
  refine @run_project _ _ _ (fun rows p => replace_subsystem now rows p.1 p.2 none)
    (fun rows => table rows sub) (fun t p => replaced now t p.2) (fun p => decide (p.1 = sub)) ?_ ?_ rows calls
  · intro rows p h
    rw [table_replace, if_pos (of_decide_eq_true h).symm]
  · intro rows p h
    rw [table_replace, if_neg (Ne.symm (of_decide_eq_false h))]

theorem filter_named {φ : Type} (fields : List φ) (name : φ → Text) (g : φ → List (Text × Text)) :
    ((fields.map fun f => (name f, g f)).filter fun p => p.1 = sub).map Prod.snd =
      (fields.filter fun f => name f = sub).map g := by
  rw [List.filter_map, List.map_map]
  rfl

theorem givens_eq : givens json shard sub =
    ((restoredMaps.filter fun f => f.subsystem = sub).map
      fun f => (shard.maps f).entries.map fun p => (p.1, json_str json p.2)) ++
    ((if zstyle = sub then [styles json shard] else []) ++
    ((if zmodload = sub then [shard.zmodload.map fun module => (module, json_str json [])] else []) ++
    ((if setopt = sub then
        [(shard.setopts.map fun opt => (opt, on)) ++ shard.unsetopts.map fun opt => (opt, off)] else []) ++
    (if source = sub then [shard.sourced_files.zipIdx.map fun p => (index p.2, json_str json p.1)] else [])))) ++
    ((restoredLists.filter fun f => f.subsystem = sub).map
      fun f => (shard.lists f).zipIdx.map fun p => (index p.2, json_str json p.1)) ++
    ((shard.extras.get? sub).map fun m => m.entries.map fun q => (q.1, json_str json q.2)).toList := by
  have hone : ∀ (name : Text) (given : List (Text × Text)) (rest : List (Text × List (Text × Text))),
      (((name, given) :: rest).filter fun p => p.1 = sub).map Prod.snd =
        (if name = sub then [given] else []) ++ (rest.filter fun p => p.1 = sub).map Prod.snd := by
    intro name given rest
    by_cases h : name = sub
    · rw [List.filter_cons_of_pos (by simpa using h), if_pos h]
      rfl
    · rw [List.filter_cons_of_neg (by simpa using h), if_neg h]
      rfl
  have hextras := filter_named sub shard.extras.entries Prod.fst
    fun p => p.2.entries.map fun q => (q.1, json_str json q.2)
  rw [shard.extras.filter_key (fun p => decide_eq_true_iff)] at hextras
  have hextras' : ((shard.extras.entries.map fun p => (p.1, p.2.entries.map fun q => (q.1, json_str json q.2))).filter
      fun p => p.1 = sub).map Prod.snd =
        ((shard.extras.get? sub).map fun m => m.entries.map fun q => (q.1, json_str json q.2)).toList := by
    refine hextras.trans ?_
    cases shard.extras.get? sub <;> rfl
  rw [givens, restores, List.filter_append, List.filter_append, List.filter_append, List.map_append,
    List.map_append, List.map_append, filter_named, filter_named, hextras', hone, hone, hone, hone]
  simp [styles]

end Load

section Catalog

variable {json : SerdeJson} (hjson : json.Lawful) (now : Int) (generation : Nat) {saved : Rows}

/-- A style never comes back under its key: the load puts its position before it. -/
theorem styles_vacant {later : Table}
    (h : Restores (replaced now later (styles json (snapshot_shard json saved generation))) (table saved zstyle) later)
    (slot : Text) : (table saved zstyle).slots.get? slot = none := by
  let entries := entriesOf saved zstyle
  have hlonger : ∀ slot, ((table saved zstyle).slots.get? slot).isSome →
      ∃ slot', ((table saved zstyle).slots.get? slot').isSome ∧ slot.length < slot'.length := by
    intro slot hsome
    obtain ⟨row, hrow⟩ := Option.isSome_iff_exists.mp hsome
    have hstyle : (slot, unjson json row.value) ∈ (snapshot_shard json saved generation).zstyle := by
      rw [snapshot_zstyle]
      exact List.mem_map.mpr ⟨(slot, row), mem_entriesOf.mpr hrow, rfl⟩
    obtain ⟨i, hi⟩ := List.mem_iff_getElem?.mp hstyle
    have hmem : index i ++ ':' :: slot ∈ (styles json (snapshot_shard json saved generation)).map Prod.fst := by
      rw [styles, List.map_map]
      exact List.mem_map.mpr ⟨((slot, unjson json row.value), i), List.mem_zipIdx_iff_getElem?.mpr hi, rfl⟩
    obtain ⟨v, hloaded⟩ := @replaced_of_mem now later _ _ hmem
    have hown := h.1 (index i ++ ':' :: slot)
    rw [ownAt, hloaded] at hown
    obtain ⟨row', hrow', -⟩ := ownAt_eq_some.mp hown.symm
    refine ⟨_, Option.isSome_iff_exists.mpr ⟨row', hrow'⟩, ?_⟩
    rw [List.length_append, List.length_cons]
    omega
  have hbound : ∀ slot, ((table saved zstyle).slots.get? slot).isSome →
      slot.length ≤ (entries.map fun p => p.1.length).sum := by
    intro slot hsome
    obtain ⟨row, hrow⟩ := Option.isSome_iff_exists.mp hsome
    exact List.le_sum_of_mem (List.mem_map.mpr ⟨(slot, row), mem_entriesOf.mpr hrow, rfl⟩)
  have hlong : ∀ m, ((table saved zstyle).slots.get? slot).isSome →
      ∃ slot', ((table saved zstyle).slots.get? slot').isSome ∧ m ≤ slot'.length := by
    intro m hsome
    induction m with
    | zero => exact ⟨slot, hsome, Nat.zero_le _⟩
    | succ m ih =>
        obtain ⟨slot', hsome', hlen⟩ := ih
        obtain ⟨slot'', hsome'', hlt⟩ := hlonger slot' hsome'
        exact ⟨slot'', hsome'', by omega⟩
  apply Option.not_isSome_iff_eq_none.mp
  intro hsome
  obtain ⟨slot', hsome', hlen⟩ := hlong ((entries.map fun p => p.1.length).sum + 1) hsome
  have hle := hbound slot' hsome'
  omega

theorem entriesOf_nil {sub : Text} (h : ∀ slot, (table saved sub).slots.get? slot = none) :
    entriesOf saved sub = [] := by
  apply List.eq_nil_iff_forall_not_mem.mpr
  intro p hp
  have hget := mem_entriesOf.mp hp
  rw [h] at hget
  cases hget

theorem styles_nil (h : ∀ slot, (table saved zstyle).slots.get? slot = none) :
    styles json (snapshot_shard json saved generation) = [] := by
  rw [styles, snapshot_zstyle, entriesOf_nil h]
  rfl

/-- A catch-all subsystem is in the shard exactly if it has rows. -/
theorem extras_eq_none {sub : Text} (hplace : place sub = .extras) :
    (snapshot_shard json saved generation).extras.get? sub = none ↔
      ∀ slot, (table saved sub).slots.get? slot = none := by
  constructor
  · intro h slot
    have hget := snapshot_extra_get? json saved generation hplace slot
    rw [h] at hget
    exact Option.map_eq_none_iff.mp hget.symm
  · intro h
    rw [snapshot_extras json saved generation hplace, entriesOf_nil h]
    rfl

include hjson

/-- A string is not its own JSON text. -/
theorem json_str_ne (s : Text) : json_str json s ≠ s := by
  intro h
  obtain ⟨body, hbody, hlen⟩ := hjson.quoted s
  have hlength := congrArg List.length (hbody.symm.trans h)
  rw [List.length_cons, List.length_append] at hlength
  simp only [List.length_singleton] at hlength
  omega

/-- A row of the catch-all subsystems never comes back: its value is encoded once more. -/
theorem extras_vacant {sub : Text} (hplace : place sub = .extras) {m : OrdMap Text Text}
    (hm : (snapshot_shard json saved generation).extras.get? sub = some m) {t later : Table}
    (h : Restores (replaced now t (m.entries.map fun q => (q.1, json_str json q.2))) (table saved sub) later)
    (slot : Text) : (table saved sub).slots.get? slot = none := by
  apply Option.eq_none_iff_forall_ne_some.mpr
  intro row hrow
  have hget := snapshot_extra_get? json saved generation hplace slot
  rw [hm, hrow, Option.getD_some, Option.map_some] at hget
  have hmem : (slot, json_str json row.value) ∈ m.entries.map fun q => (q.1, json_str json q.2) :=
    List.mem_map.mpr ⟨(slot, row.value), OrdMap.get?_eq_some_iff.mp hget, rfl⟩
  have hnodup : ((m.entries.map fun q => (q.1, json_str json q.2)).map Prod.fst).Nodup := by
    rw [List.map_map]
    exact m.nodup_keys
  have hown := h.1 slot
  rw [ownAt, @replaced_mem now t _ _ _ hnodup hmem] at hown
  obtain ⟨row', hrow', -, he⟩ := ownAt_eq_some.mp hown.symm
  rw [hrow] at hrow'
  obtain rfl := Option.some.inj hrow'
  exact json_str_ne hjson row.value (Prod.mk.inj he).2.symm

end Catalog

section Restore

variable {json : SerdeJson} (now : Int) (generation : Nat) (saved later : Rows)

/-- A load restores one subsystem. -/
def RestoresAt (json : SerdeJson) (now : Int) (generation : Nat) (saved later : Rows) (sub : Text) : Prop :=
  Restores (table (op_snapshot_load json now later (snapshot_shard json saved generation)).1 sub)
    (table saved sub) (table later sub)

theorem restoresAt_one {sub : Text} {given : List (Text × Text)}
    (h : givens json (snapshot_shard json saved generation) sub = [given]) :
    RestoresAt json now generation saved later sub ↔
      Restores (replaced now (table later sub) given) (table saved sub) (table later sub) := by
  rw [RestoresAt, table_load, h]
  rfl

theorem restoresAt_none {sub : Text} (h : givens json (snapshot_shard json saved generation) sub = []) :
    RestoresAt json now generation saved later sub ↔
      ∀ slot, ownAt (table later sub) slot = ownAt (table saved sub) slot := by
  rw [RestoresAt, table_load, h]
  exact restores_self

theorem restoresAt_unsaved {sub : Text}
    (h : sub = MapField.autoload_functions.subsystem ∨ sub = ListField.manpath.subsystem) :
    RestoresAt json now generation saved later sub ↔
      ∀ slot, ownAt (table later sub) slot = ownAt (table saved sub) slot := by
  apply restoresAt_none
  have hextras : (snapshot_shard json saved generation).extras.get? sub = none := by
    apply snapshot_extras_none
    rcases h with rfl | rfl <;> decide
  rw [givens_eq, hextras]
  rcases h with rfl | rfl <;> rfl

theorem restoresAt_zstyle :
    RestoresAt json now generation saved later zstyle ↔
      Whole (table saved zstyle) (table later zstyle) ∧ ∀ slot, (table saved zstyle).slots.get? slot = none := by
  have hgivens : givens json (snapshot_shard json saved generation) zstyle =
      [styles json (snapshot_shard json saved generation)] := by
    rw [givens_eq, snapshot_extras_none json saved generation (by decide)]
    rfl
  rw [restoresAt_one now generation saved later hgivens]
  constructor
  · intro h
    have hnone := styles_vacant now generation h
    exact (restores_nothing now (styles_nil generation hnone)).mp ⟨h, hnone⟩
  · intro h
    exact ((restores_nothing now (styles_nil generation h.2)).mpr h).1

theorem restoresAt_zmodload :
    RestoresAt json now generation saved later zmodload ↔
      Whole (table saved zmodload) (table later zmodload) ∧
        ∀ slot row, (table saved zmodload).slots.get? slot = some row → row.value = json_str json [] := by
  have hgivens : givens json (snapshot_shard json saved generation) zmodload =
      [(snapshot_shard json saved generation).zmodload.map fun module => (module, json_str json [])] := by
    rw [givens_eq, snapshot_extras_none json saved generation (by decide)]
    rfl
  rw [restoresAt_one now generation saved later hgivens, snapshot_zmodload, List.map_map]
  refine restores_whole now (fun _ => json_str json []) ?_ ?_
  · rw [List.map_map]
    exact OrdMap.nodup_keys _
  · intro slot v
    rw [List.mem_map]
    constructor
    · rintro ⟨p, hp, heq⟩
      obtain ⟨rfl, rfl⟩ := Prod.mk.inj heq
      exact ⟨p.2, mem_entriesOf.mp hp, rfl⟩
    · rintro ⟨row, hrow, rfl⟩
      exact ⟨(slot, row), mem_entriesOf.mpr hrow, rfl⟩

variable (hjson : json.Lawful) {saved} (he : Encoded json saved)

include hjson he

theorem json_string_unjson {sub slot : Text} {row : CanonicalRow}
    (hrow : (table saved sub).slots.get? slot = some row) :
    row.value = json_string json (unjson json row.value) := by
  obtain ⟨s, hs⟩ := he.values sub slot row hrow
  rw [hs, unjson_json_string hjson]

theorem restoresAt_map {f : MapField} (hf : f ∈ restoredMaps) :
    RestoresAt json now generation saved later f.subsystem ↔
      Whole (table saved f.subsystem) (table later f.subsystem) := by
  have hgivens : givens json (snapshot_shard json saved generation) f.subsystem =
      [pushesOf json (snapshot_shard json saved generation) f.subsystem] := by
    rw [givens_eq, snapshot_extras_none json saved generation (by simp [place_map]), pushesOf, place_map]
    revert hf
    cases f <;> intro hf <;> first | rfl | exact absurd hf (by decide)
  have hplace : ∀ g, place f.subsystem ≠ .list g := by simp [place_map]
  rw [restoresAt_one now generation saved later hgivens,
    restores_whole now (readBack json (place f.subsystem)) (nodup_pushesOf json saved generation _)
      (fun slot v => mem_pushesOf json saved generation hplace)]
  apply and_iff_left
  intro slot row hrow
  rw [place_map]
  exact json_string_unjson hjson he hrow

omit he in
theorem restoresAt_setopt :
    RestoresAt json now generation saved later setopt ↔
      Whole (table saved setopt) (table later setopt) ∧
        ∀ slot row, (table saved setopt).slots.get? slot = some row → row.value = on ∨ row.value = off := by
  have hgivens : givens json (snapshot_shard json saved generation) setopt =
      [pushesOf json (snapshot_shard json saved generation) setopt] := by
    rw [givens_eq, snapshot_extras_none json saved generation (by decide)]
    rfl
  rw [restoresAt_one now generation saved later hgivens,
    restores_whole now (readBack json (place setopt)) (nodup_pushesOf json saved generation _)
      (fun slot v => mem_pushesOf json saved generation (by simp [place_eq_setopt.mpr]))]
  refine and_congr_right fun _ => forall₃_congr fun slot row hrow => ?_
  constructor
  · intro h
    rw [h]
    exact readBack_setopt json row.value
  · rintro (h | h)
    · rw [h, place_eq_setopt.mpr rfl, readBack, unjson_on hjson]
      rfl
    · rw [h, place_eq_setopt.mpr rfl, readBack, unjson_off hjson]
      rfl

theorem restoresAt_list {f : ListField} (hf : f ∈ restoredLists) :
    RestoresAt json now generation saved later f.subsystem ↔
      ∃ n, Filled (table saved f.subsystem) (table later f.subsystem) n := by
  have hgivens : givens json (snapshot_shard json saved generation) f.subsystem =
      [pushesOf json (snapshot_shard json saved generation) f.subsystem] := by
    rw [givens_eq, snapshot_extras_none json saved generation (by simp [place_list]), pushesOf, place_list]
    revert hf
    cases f <;> intro hf <;> first | rfl | exact absurd hf (by decide)
  rw [restoresAt_one now generation saved later hgivens]
  exact restores_filled hjson now generation he f

omit he in
theorem restoresAt_source :
    RestoresAt json now generation saved later source ↔
      Whole (table saved source) (table later source) ∧ ∀ slot, (table saved source).slots.get? slot = none := by
  have hplace : place source = .extras := by decide
  have hgivens : givens json (snapshot_shard json saved generation) source = [[]] ++
      (((snapshot_shard json saved generation).extras.get? source).map
        fun m => m.entries.map fun q => (q.1, json_str json q.2)).toList := by
    rw [givens_eq, snapshot_sourced_files]
    rfl
  cases hextras : (snapshot_shard json saved generation).extras.get? source with
  | none =>
      rw [hextras] at hgivens
      have hnone := (extras_eq_none generation hplace).mp hextras
      rw [restoresAt_one now generation saved later hgivens]
      constructor
      · exact fun h => (restores_nothing now rfl).mp ⟨h, hnone⟩
      · exact fun h => ((restores_nothing now rfl).mpr h).1
  | some m =>
      have hsome : ¬ ∀ slot, (table saved source).slots.get? slot = none := by
        intro hnone
        rw [(extras_eq_none generation hplace).mpr hnone] at hextras
        cases hextras
      constructor
      · intro h
        rw [RestoresAt, table_load, hgivens, hextras] at h
        exact absurd (extras_vacant hjson now generation hplace hextras h) hsome
      · exact fun h => absurd h.2 hsome

omit he in
theorem restoresAt_extras {sub : Text} (hplace : place sub = .extras) (hsource : sub ≠ source) :
    RestoresAt json now generation saved later sub ↔
      (∀ slot, (table saved sub).slots.get? slot = none) ∧ ∀ slot, ownAt (table later sub) slot = none := by
  have hmaps : restoredMaps.filter (fun f => f.subsystem = sub) = [] := by
    apply List.filter_eq_nil_iff.mpr
    intro f _ hf
    rw [← of_decide_eq_true hf, place_map] at hplace
    cases hplace
  have hlists : restoredLists.filter (fun f => f.subsystem = sub) = [] := by
    apply List.filter_eq_nil_iff.mpr
    intro f _ hf
    rw [← of_decide_eq_true hf, place_list] at hplace
    cases hplace
  have hnames : zstyle ≠ sub ∧ zmodload ≠ sub ∧ setopt ≠ sub := by
    refine ⟨?_, ?_, ?_⟩ <;>
    · rintro rfl
      revert hplace
      decide
  have hgivens : givens json (snapshot_shard json saved generation) sub =
      (((snapshot_shard json saved generation).extras.get? sub).map
        fun m => m.entries.map fun q => (q.1, json_str json q.2)).toList := by
    rw [givens_eq, hmaps, hlists, if_neg hnames.1, if_neg hnames.2.1, if_neg hnames.2.2,
      if_neg (Ne.symm hsource)]
    rfl
  cases hextras : (snapshot_shard json saved generation).extras.get? sub with
  | none =>
      rw [hextras] at hgivens
      have hnone := (extras_eq_none generation hplace).mp hextras
      have hown : ∀ slot, ownAt (table saved sub) slot = none := by
        intro slot
        rw [ownAt, hnone]
        rfl
      rw [restoresAt_none now generation saved later hgivens]
      constructor
      · exact fun h => ⟨hnone, fun slot => (h slot).trans (hown slot)⟩
      · exact fun h slot => (h.2 slot).trans (hown slot).symm
  | some m =>
      have hsome : ¬ ∀ slot, (table saved sub).slots.get? slot = none := by
        intro hnone
        rw [(extras_eq_none generation hplace).mpr hnone] at hextras
        cases hextras
      constructor
      · intro h
        rw [RestoresAt, table_load, hgivens, hextras] at h
        exact absurd (extras_vacant hjson now generation hplace hextras h) hsome
      · exact fun h => absurd h.1 hsome

omit hjson he in
theorem restored_iff_forall :
    Restored json now generation saved later ↔ ∀ sub, RestoresAt json now generation saved later sub := by
  constructor
  · exact fun h sub => ⟨h.own sub, h.others sub⟩
  · intro h
    refine ⟨fun sub => (h sub).1, fun sub => (h sub).2, fun sub => rows_for_entries ?_⟩
    intro slot hsep
    have hown := (h sub).1 slot
    have hall : ∀ t : Table, ownAt t slot = (t.slots.get? slot).map CanonicalRow.entry := by
      intro t
      cases hrow : t.slots.get? slot with
      | none =>
          rw [ownAt, hrow]
          rfl
      | some row =>
          rw [ownAt, hrow]
          exact congrArg _ (Option.filter_some_pos (decide_eq_true (own_of_slot hrow hsep)))
    rw [hall, hall] at hown
    exact hown

/-- A snapshot restores a catalog exactly where the load reads back what the snapshot wrote. -/
theorem restored_iff : Restored json now generation saved later ↔ Restorable json saved later := by
  rw [restored_iff_forall]
  constructor
  · intro h
    exact {
      maps := fun f hf => (restoresAt_map now generation later hjson he hf).mp (h _)
      setopt := (restoresAt_setopt now generation later hjson).mp (h _)
      zmodload := (restoresAt_zmodload now generation saved later).mp (h _)
      lists := fun f hf => (restoresAt_list now generation later hjson he hf).mp (h _)
      cleared := by
        rintro sub (rfl | rfl)
        · exact (restoresAt_zstyle now generation saved later).mp (h _)
        · exact (restoresAt_source now generation later hjson).mp (h _)
      unsaved := fun sub hsub => (restoresAt_unsaved now generation saved later hsub).mp (h _)
      extras := fun sub hplace hsource =>
        (restoresAt_extras now generation later hjson hplace hsource).mp (h _) }
  · intro h sub
    cases hp : place sub with
    | map f =>
        obtain rfl := place_eq_map.mp hp
        by_cases hf : f ∈ restoredMaps
        · exact (restoresAt_map now generation later hjson he hf).mpr (h.maps f hf)
        · have hauto : f = .autoload_functions := by
            revert hf
            cases f <;> decide
          subst hauto
          exact (restoresAt_unsaved now generation saved later (Or.inl rfl)).mpr (h.unsaved _ (Or.inl rfl))
    | list f =>
        obtain rfl := place_eq_list.mp hp
        by_cases hf : f ∈ restoredLists
        · exact (restoresAt_list now generation later hjson he hf).mpr (h.lists f hf)
        · have hman : f = .manpath := by
            revert hf
            cases f <;> decide
          subst hman
          exact (restoresAt_unsaved now generation saved later (Or.inr rfl)).mpr (h.unsaved _ (Or.inr rfl))
    | setopt =>
        obtain rfl := place_eq_setopt.mp hp
        exact (restoresAt_setopt now generation later hjson).mpr h.setopt
    | zmodload =>
        obtain rfl := place_eq_zmodload.mp hp
        exact (restoresAt_zmodload now generation saved later).mpr h.zmodload
    | zstyle =>
        obtain rfl := place_eq_zstyle.mp hp
        exact (restoresAt_zstyle now generation saved later).mpr (h.cleared _ (Or.inl rfl))
    | extras =>
        by_cases hsource : sub = source
        · subst hsource
          exact (restoresAt_source now generation later hjson).mpr (h.cleared _ (Or.inr rfl))
        · exact (restoresAt_extras now generation later hjson hp hsource).mpr (h.extras sub hp hsource)

end Restore

/-- Behind the snapshot an alias and a twelfth directory came in, and bash put a directory of its own at 10. -/
def changedPaths : Rows :=
  upsert_tagged 3
    (upsert 2 (upsert 1 elevenPaths ListField.path.subsystem (index 11) (json_string quotes ['/', 'x']) none)
      MapField.aliases.subsystem ['l', 's'] (json_string quotes ['l', 's', ' ', '-', 'F']) none)
    ListField.path.subsystem (index 10) (json_string quotes ['/', 'b', 'i', 'n']) none (some ['b', 'a', 's', 'h'])

theorem changedPaths_cells : ∀ c ∈ cells changedPaths, (SHELL_ID_SEP ∈ c.2.1 → c.2.2.identity ≠ zshrs) ∧
    c.1 ∈ [ListField.path.subsystem, setopt, MapField.aliases.subsystem] := by
  decide +kernel

theorem elevenPaths_apart {sub slot : Text} (h : SHELL_ID_SEP ∈ slot) :
    (table elevenPaths sub).slots.get? slot = none := by
  apply Option.eq_none_iff_forall_ne_some.mpr
  intro row hrow
  exact (elevenPaths_cells _ (mem_cells.mpr hrow)).2.1 h

theorem whole_paths (sub : Text) : Whole (table elevenPaths sub) (table changedPaths sub) where
  own := fun slot row h => (elevenPaths_cells _ (mem_cells.mpr h)).1
  apart := by
    intro slot row hsep hrow
    rw [elevenPaths_apart hsep]
    exact iff_of_false ((changedPaths_cells _ (mem_cells.mpr hrow)).1 hsep) (by simp)

theorem own_changed_none {sub : Text}
    (h : sub ∉ [ListField.path.subsystem, setopt, MapField.aliases.subsystem]) (slot : Text) :
    ownAt (table changedPaths sub) slot = none := by
  have hnone : (table changedPaths sub).slots.get? slot = none := by
    apply Option.eq_none_iff_forall_ne_some.mpr
    intro row hrow
    exact h (changedPaths_cells _ (mem_cells.mpr hrow)).2
  rw [ownAt, hnone]
  rfl

theorem own_none {t : Table} {slot : Text} (h : t.slots.get? slot = none) : ownAt t slot = none := by
  rw [ownAt, h]
  rfl

theorem paths_restorable : Restorable quotes elevenPaths changedPaths where
  maps := fun f _ => whole_paths _
  setopt := ⟨whole_paths _, elevenPaths_storable.setopt⟩
  zmodload := by
    refine ⟨whole_paths _, ?_⟩
    intro slot row h
    rw [elevenPaths_none (by decide)] at h
    cases h
  lists := by
    have happart (sub slot : Text) (h : SHELL_ID_SEP ∈ slot) :
        ownAt (table changedPaths sub) slot = ownAt (table elevenPaths sub) slot := by
      rw [own_none (elevenPaths_apart h), ownAt, Option.map_eq_none_iff, Option.filter_eq_none_iff]
      intro row hrow
      exact decide_eq_true_iff.not.mpr ((changedPaths_cells _ (mem_cells.mpr hrow)).1 h)
    intro f hf
    by_cases hpath : f = .path
    · subst hpath
      have hpositions : ((entriesOf elevenPaths ListField.path.subsystem).map Prod.fst).foldl grown 0 = 11 := by
        decide +kernel
      exact ⟨11, fun slot _ => elevenPaths_numbered slot, hpositions, happart _⟩
    · have hnone : ∀ slot, (table elevenPaths f.subsystem).slots.get? slot = none :=
        elevenPaths_none (by revert hpath; cases f <;> decide)
      refine ⟨0, fun slot _ => ?_, ?_, happart _⟩
      · rw [hnone]
        simp
      · have hnil : (table elevenPaths f.subsystem).slots.entries = [] := entriesOf_nil hnone
        rw [hnil]
        rfl
  cleared := by
    rintro sub (rfl | rfl)
    · exact ⟨whole_paths _, elevenPaths_none (by decide)⟩
    · exact ⟨whole_paths _, elevenPaths_none (by decide)⟩
  unsaved := by
    rintro sub (rfl | rfl) slot
    · rw [own_changed_none (by decide), own_none (elevenPaths_none (by decide) slot)]
    · rw [own_changed_none (by decide), own_none (elevenPaths_none (by decide) slot)]
  extras := by
    intro sub hplace _
    have hother : sub ∉ [ListField.path.subsystem, setopt, MapField.aliases.subsystem] := by
      intro h
      have hplaces : ∀ sub ∈ [ListField.path.subsystem, setopt, MapField.aliases.subsystem], place sub ≠ .extras := by
        decide
      exact hplaces sub h hplace
    exact ⟨elevenPaths_none hother, own_changed_none hother⟩

/-- The directories are restored in their order, what was not saved goes, and what bash put in stays. -/
theorem paths_restored : Restored quotes 5 7 elevenPaths changedPaths :=
  (restored_iff 5 7 changedPaths quotes_lawful elevenPaths_encoded).mpr paths_restorable

/-- A directory of `manpath` is saved and not restored. -/
theorem manpath_lost :
    ¬ ∀ (json : SerdeJson) (now : Int) (generation : Nat) (saved later : Rows), json.Lawful →
      Encoded json saved → Restored json now generation saved later := by
  intro h
  let saved := oneRow ListField.manpath.subsystem (index 0) (json_string quotes ['/', 'm', 'a', 'n'])
  have hrestored := h quotes 0 0 saved .empty quotes_lawful (oneRow_encoded _ _ _)
  have hunsaved := (restoresAt_unsaved 0 0 saved .empty (Or.inr rfl)).mp
    (restored_iff_forall 0 0 .empty |>.mp hrestored _) (index 0)
  rw [eq_comm, ownAt, oneRow_slot, if_pos ⟨rfl, rfl⟩] at hunsaved
  cases hunsaved

end Zshrs.Daemon.Snapshot
