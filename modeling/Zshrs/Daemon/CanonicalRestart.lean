import Mathlib.Data.List.Nodup
import Mathlib.Data.List.Perm.Subperm
import Zshrs.Daemon.CanonicalFields
import Mathlib.Algebra.Group.Nat.Defs

namespace Zshrs.Daemon.Canonical

open Lib Lib.Runs

/-- The catalog after a restart: written to its shard and read back. -/
def reload (json : SerdeJson) (now : Int) (generation : Nat) (rows : Rows) : Rows :=
  ingest_shard_into json now .empty (snapshot_shard json rows generation)

def CanonicalRow.entry (r : CanonicalRow) : Text × Text := (r.key, r.value)

/-- A row as it is read back. -/
def pushed (now : Int) (p : Text × Text) : CanonicalRow := ⟨p.1, p.2, now, none, none, none, none, []⟩

/-- At most one entry of a list has a given key. -/
theorem getLast?_filter_key {β : Type} {l : List (Text × β)} (h : (l.map Prod.fst).Nodup) {p : Text × β} :
    (l.filter (fun q => q.1 = p.1)).getLast? = some p ↔ p ∈ l := by
  constructor
  · intro hlast
    exact (List.mem_filter.mp (List.mem_of_getLast? hlast)).1
  · intro hp
    have hmem : p ∈ l.filter (fun q => q.1 = p.1) := List.mem_filter.mpr ⟨hp, decide_eq_true rfl⟩
    cases hlast : (l.filter (fun q => q.1 = p.1)).getLast? with
    | none =>
        rw [List.getLast?_eq_none_iff.mp hlast] at hmem
        cases hmem
    | some q =>
        obtain ⟨hq, hkey⟩ := List.mem_filter.mp (List.mem_of_getLast? hlast)
        rw [List.inj_on_of_nodup_map h hq hp (of_decide_eq_true hkey)]

section Ingest

variable (json : SerdeJson) (now : Int) (shard : CanonicalShard)

theorem table_ingest (hextras : ∀ sub, place sub ≠ .extras → shard.extras.get? sub = none) (sub : Text) :
    table (ingest_shard_into json now .empty shard) sub =
      ((pushesOf json shard sub).map (pushed now)).foldl Table.insert .empty := by
  have hrun := @run_project _ _ _ (push now) (fun rows => table rows sub)
    (fun t p => t.insert (pushed now p.2)) (fun p => decide (p.1 = sub))
    (by
      rintro rows p h
      rw [push, table_insert, of_decide_eq_true h, if_pos rfl]
      rfl)
    (by
      intro rows p h
      rw [push, table_insert, if_neg (Ne.symm (of_decide_eq_false h))])
    .empty (pushes json shard)
  refine hrun.trans ?_
  rw [filter_pushes json shard hextras, run, List.foldl_map, List.foldl_map]
  rfl

/-- What a reload finds in a slot, where no key is read twice. -/
theorem ingest_slot (hextras : ∀ sub, place sub ≠ .extras → shard.extras.get? sub = none) {sub : Text}
    (hnodup : ((pushesOf json shard sub).map Prod.fst).Nodup) {slot : Text} {e : Text × Text} :
    ((table (ingest_shard_into json now .empty shard) sub).slots.get? slot).map CanonicalRow.entry = some e ↔
      e.1 = slot ∧ e ∈ pushesOf json shard sub := by
  rw [table_ingest json now shard hextras, Table.get?_insertAll, Table.get?_empty, Option.or_none, List.filter_map,
    List.getLast?_map, Option.map_map]
  have hslot : (fun r => decide (r.slot = slot)) ∘ pushed now = fun p => decide (p.1 = slot) := rfl
  have hentry : CanonicalRow.entry ∘ pushed now = id := rfl
  rw [hslot, hentry, Option.map_id, id]
  constructor
  · intro h
    obtain ⟨hmem, hkey⟩ := List.mem_filter.mp (List.mem_of_getLast? h)
    exact ⟨of_decide_eq_true hkey, hmem⟩
  · rintro ⟨rfl, hmem⟩
    exact (getLast?_filter_key hnodup).mpr hmem

end Ingest

theorem index_digits {i : Nat} {c : Char} (h : c ∈ index i) : c.isDigit = true :=
  Nat.isDigit_of_mem_toDigits (by decide) (by decide) h

theorem index_inj {i j : Nat} (h : index i = index j) : i = j := by
  have hi := @Nat.ofDigitChars_ten_toDigits i
  have hj := @Nat.ofDigitChars_ten_toDigits j
  rw [← hi, ← hj]
  exact congrArg (fun cs => Nat.ofDigitChars 10 cs 0) h

theorem parse_index {i : Nat} (h : i < 2 ^ 64) : parse_usize (index i) = some i := by
  have hdigits : stripPlus (index i) = index i := by
    rw [stripPlus.eq_def]
    split
    · rename_i rest heq
      have hplus := index_digits (heq ▸ List.mem_cons_self : '+' ∈ index i)
      exact absurd hplus (by decide)
    · rfl
  have hnil : index i ≠ [] := Nat.toDigits_ne_nil
  have hall : (index i).all Char.isDigit = true := List.all_eq_true.mpr fun c hc => index_digits hc
  have hvalue : Nat.ofDigitChars 10 (index i) 0 = i := Nat.ofDigitChars_ten_toDigits
  have hfine : ¬ (index i = [] ∨ ¬ (index i).all Char.isDigit = true) := by
    rw [not_or, not_not]
    exact ⟨hnil, hall⟩
  rw [parse_usize, hdigits, if_neg hfine, hvalue]
  exact if_pos h

/-- The length of a list after a row is written to it. -/
def grown (len : Nat) (key : Text) : Nat :=
  match parse_usize key with
  | some idx => max len (idx + 1)
  | none => len + 1

theorem length_push_indexed (t : List Text) (key value : Text) :
    (push_indexed t key value).length = grown t.length key := by
  rw [push_indexed, grown]
  cases parse_usize key with
  | none => exact List.length_append
  | some idx =>
      rw [List.length_set, List.length_append, List.length_replicate]
      change t.length + (idx + 1 - t.length) = max t.length (idx + 1)
      omega

theorem length_push_indexed_run (es : List (Text × Text)) (t : List Text) :
    (es.foldl (fun t p => push_indexed t p.1 p.2) t).length =
      (es.map Prod.fst).foldl grown t.length := by
  induction es generalizing t with
  | nil => rfl
  | cons p es ih => rw [List.foldl_cons, ih, length_push_indexed, List.map_cons, List.foldl_cons]

theorem push_indexed_self {t : List Text} {i : Nat} (hi : i < 2 ^ 64) (v : Text) :
    (push_indexed t (index i) v)[i]? = some v := by
  rw [push_indexed, parse_index hi]
  apply List.getElem?_set_self
  rw [List.length_append, List.length_replicate]
  omega

theorem push_indexed_other {t : List Text} {j : Nat} {key w : Text} (v : Text) (hkey : parse_usize key ≠ some j)
    (hw : t[j]? = some w) : (push_indexed t key v)[j]? = some w := by
  have hlen : j < t.length := (List.getElem?_eq_some_iff.mp hw).1
  rw [push_indexed]
  cases hp : parse_usize key with
  | none =>
      refine (List.getElem?_append_left hlen).trans hw
  | some idx =>
      have hne : idx ≠ j := fun h => hkey (by rw [hp, h])
      refine (List.getElem?_set_ne hne).trans ?_
      exact (List.getElem?_append_left hlen).trans hw

/-- A number that is written once stays where it was written. -/
theorem push_indexed_run {es : List (Text × Text)} {t : List Text}
    (hkeys : ∀ p ∈ es, ∀ i, parse_usize p.1 = some i → p.1 = index i) (hnodup : (es.map Prod.fst).Nodup) :
    (∀ i v, i < 2 ^ 64 → (index i, v) ∈ es →
      (es.foldl (fun t p => push_indexed t p.1 p.2) t)[i]? = some v) ∧
      ∀ i v, t[i]? = some v → index i ∉ es.map Prod.fst →
        (es.foldl (fun t p => push_indexed t p.1 p.2) t)[i]? = some v := by
  induction es generalizing t with
  | nil => exact ⟨by simp, fun _ _ hv _ => hv⟩
  | cons p es ih =>
      obtain ⟨k, v⟩ := p
      obtain ⟨hfresh, hnodup⟩ := List.nodup_cons.mp hnodup
      obtain ⟨hmem, hkept⟩ := @ih (push_indexed t k v)
        (fun q hq => hkeys q (List.mem_cons_of_mem _ hq)) hnodup
      refine ⟨?_, ?_⟩
      · intro j w hj hw
        rcases List.mem_cons.mp hw with heq | hw
        · obtain ⟨rfl, rfl⟩ := Prod.mk.inj heq
          exact hkept j w (push_indexed_self hj w) hfresh
        · exact hmem j w hj hw
      · intro j w hw hfree
        rw [List.map_cons, List.mem_cons, not_or] at hfree
        refine hkept j w (push_indexed_other v ?_ hw) hfree.2
        intro hp
        exact hfree.1 (hkeys (k, v) List.mem_cons_self j hp).symm

theorem grown_run_le {n : Nat} {keys : List Text} (hkeys : ∀ k ∈ keys, ∃ i < n, parse_usize k = some i)
    {len : Nat} (hlen : len ≤ n) : keys.foldl grown len ≤ n := by
  induction keys generalizing len with
  | nil => exact hlen
  | cons k keys ih =>
      obtain ⟨i, hi, hk⟩ := hkeys k List.mem_cons_self
      refine ih (fun k' hk' => hkeys k' (List.mem_cons_of_mem _ hk')) ?_
      rw [grown, hk]
      exact Nat.max_le.mpr ⟨hlen, hi⟩

/-- The rows of a subsystem are keyed `0`, `1`, … -/
def Numbered (rows : Rows) (sub : Text) (n : Nat) : Prop :=
  ∀ slot, ((table rows sub).slots.get? slot).isSome ↔ ∃ i < n, slot = index i

theorem mem_entriesOf {rows : Rows} {sub slot : Text} {row : CanonicalRow} :
    (slot, row) ∈ entriesOf rows sub ↔ (table rows sub).slots.get? slot = some row :=
  OrdMap.get?_eq_some_iff.symm

theorem mem_cells {rows : Rows} {sub slot : Text} {row : CanonicalRow} :
    (sub, slot, row) ∈ cells rows ↔ (table rows sub).slots.get? slot = some row := by
  have hfilter : (sub, slot, row) ∈ (cells rows).filter (fun c => c.1 = sub) ↔
      (sub, slot, row) ∈ (entriesOf rows sub).map fun q => (sub, q) := by
    rw [filter_cells]
  rw [List.mem_filter, and_iff_left (decide_eq_true rfl), List.mem_map] at hfilter
  rw [hfilter, ← mem_entriesOf]
  constructor
  · rintro ⟨q, hq, heq⟩
    cases heq
    exact hq
  · exact fun h => ⟨_, h, rfl⟩

theorem Numbered.le_length {rows : Rows} {sub : Text} {n : Nat} (h : Numbered rows sub n) :
    n ≤ (entriesOf rows sub).length := by
  have hsub : (List.range n).map index ⊆ (entriesOf rows sub).map Prod.fst := by
    intro slot hslot
    obtain ⟨i, hi, rfl⟩ := List.mem_map.mp hslot
    obtain ⟨row, hrow⟩ := Option.isSome_iff_exists.mp ((h (index i)).mpr ⟨i, List.mem_range.mp hi, rfl⟩)
    exact List.mem_map.mpr ⟨(index i, row), mem_entriesOf.mpr hrow, rfl⟩
  have hnodup : ((List.range n).map index).Nodup := List.nodup_range.map fun i j hij => index_inj hij
  have hle := (List.subperm_of_subset hnodup hsub).length_le
  simpa using hle

section Snapshot

variable (json : SerdeJson) {rows : Rows} (generation : Nat)

/-- Numbered rows are listed in the order of their numbers. -/
theorem numbered_lists {f : ListField} {n : Nat} (h : Numbered rows f.subsystem n)
    (hsize : (entriesOf rows f.subsystem).length < 2 ^ 64) :
    ((snapshot_shard json rows generation).lists f).length = n ∧
      ∀ i row, (table rows f.subsystem).slots.get? (index i) = some row →
        ((snapshot_shard json rows generation).lists f)[i]? = some (unjson json row.value) := by
  have hle := h.le_length
  have hnumber : ∀ p ∈ (entriesOf rows f.subsystem).map (fun p => (p.1, unjson json p.2.value)),
      ∃ i < n, p.1 = index i := by
    intro p hp
    obtain ⟨q, hq, rfl⟩ := List.mem_map.mp hp
    exact (h q.1).mp (Option.isSome_iff_exists.mpr ⟨q.2, mem_entriesOf.mp hq⟩)
  have hkeys : ∀ p ∈ (entriesOf rows f.subsystem).map (fun p => (p.1, unjson json p.2.value)),
      ∀ i, parse_usize p.1 = some i → p.1 = index i := by
    intro p hp i hi
    obtain ⟨j, hj, hindex⟩ := hnumber p hp
    rw [hindex, parse_index (by omega)] at hi
    rw [hindex, Option.some.inj hi]
  have hnodup : (((entriesOf rows f.subsystem).map (fun p => (p.1, unjson json p.2.value))).map Prod.fst).Nodup := by
    rw [List.map_map]
    exact (table rows f.subsystem).slots.nodup_keys
  have hlen := length_push_indexed_run ((entriesOf rows f.subsystem).map fun p => (p.1, unjson json p.2.value)) []
  have hle' : (((entriesOf rows f.subsystem).map fun p => (p.1, unjson json p.2.value)).map Prod.fst).foldl
      grown 0 ≤ n := by
    apply grown_run_le _ (Nat.zero_le n)
    intro k hk
    obtain ⟨p, hp, rfl⟩ := List.mem_map.mp hk
    obtain ⟨i, hi, hindex⟩ := hnumber p hp
    exact ⟨i, hi, by rw [hindex, parse_index (by omega)]⟩
  obtain ⟨hmem, -⟩ := @push_indexed_run _ [] hkeys hnodup
  rw [List.foldl_map] at hlen hmem
  rw [snapshot_lists]
  have hlisted : ∀ i row, (table rows f.subsystem).slots.get? (index i) = some row →
      ((entriesOf rows f.subsystem).foldl (fun t p => push_indexed t p.1 (unjson json p.2.value)) [])[i]? =
        some (unjson json row.value) := by
    intro i row hrow
    obtain ⟨j, hj, hindex⟩ := (h (index i)).mp (Option.isSome_iff_exists.mpr ⟨row, hrow⟩)
    obtain rfl := index_inj hindex
    exact hmem i _ (by omega) (List.mem_map.mpr ⟨(index i, row), mem_entriesOf.mpr hrow, rfl⟩)
  refine ⟨Nat.le_antisymm (hlen.trans_le hle') ?_, hlisted⟩
  cases n with
  | zero => exact Nat.zero_le _
  | succ n =>
      obtain ⟨row, hrow⟩ := Option.isSome_iff_exists.mp ((h (index n)).mpr ⟨n, Nat.lt_succ_self n, rfl⟩)
      exact (List.getElem?_eq_some_iff.mp (hlisted n row hrow)).1

variable (rows) in
theorem snapshot_map_get? (f : MapField) (slot : Text) :
    ((snapshot_shard json rows generation).maps f).get? slot =
      ((table rows f.subsystem).slots.get? slot).map fun row => unjson json row.value := by
  rw [snapshot_maps]
  exact OrdMap.get?_rebuild (fun row : CanonicalRow => unjson json row.value) _ slot

theorem getD_foldl (es : List (Text × CanonicalRow)) (o : Option (OrdMap Text Text)) :
    (es.foldl (fun m p => some ((m.getD .empty).insert p.1 p.2.value)) o).getD .empty =
      es.foldl (fun m p => m.insert p.1 p.2.value) (o.getD .empty) := by
  induction es generalizing o with
  | nil => rfl
  | cons p es ih => exact ih _

variable (rows) in
theorem snapshot_extra_get? {sub : Text} (h : place sub = .extras) (slot : Text) :
    (((snapshot_shard json rows generation).extras.get? sub).getD .empty).get? slot =
      ((table rows sub).slots.get? slot).map CanonicalRow.value := by
  rw [snapshot_extras json rows generation h, getD_foldl]
  exact OrdMap.get?_rebuild CanonicalRow.value _ slot

/-- What a reload makes of a value. -/
def readBack (p : Place) (value : Text) : Text :=
  match p with
  | .setopt => if isOn (unjson json value) then on else off
  | .zmodload => loaded
  | .extras => value
  | .map _ | .list _ | .zstyle => json_string json (unjson json value)

variable (rows) in
/-- The options that are on come first. -/
theorem pushesOf_setopt :
    (pushesOf json (snapshot_shard json rows generation) setopt).Perm
      ((entriesOf rows setopt).map fun p => (p.1, readBack json .setopt p.2.value)) := by
  let isSet := fun p : Text × CanonicalRow => isOn (unjson json p.2.value)
  have hon : ((entriesOf rows setopt).filter isSet).map (fun p => (p.1, on)) =
      ((entriesOf rows setopt).filter isSet).map fun p => (p.1, readBack json .setopt p.2.value) := by
    apply List.map_congr_left
    intro p hp
    rw [readBack, if_pos (List.mem_filter.mp hp).2]
  have hoff : ((entriesOf rows setopt).filter fun p => !isSet p).map (fun p => (p.1, off)) =
      ((entriesOf rows setopt).filter fun p => !isSet p).map
        fun p => (p.1, readBack json .setopt p.2.value) := by
    apply List.map_congr_left
    intro p hp
    have hp := (List.mem_filter.mp hp).2
    rw [readBack, if_neg (by simpa [isSet] using hp)]
  rw [pushesOf, place_eq_setopt.mpr rfl]
  simp only [snapshot_setopts, snapshot_unsetopts, List.map_map]
  refine List.Perm.trans ?_ ((List.filter_append_perm isSet (entriesOf rows setopt)).map _)
  rw [List.map_append, ← hon, ← hoff]
  exact List.Perm.refl _

variable (rows) in
theorem mem_pushesOf {sub : Text} (h : ∀ f, place sub ≠ .list f) {e : Text × Text} :
    e ∈ pushesOf json (snapshot_shard json rows generation) sub ↔
      ∃ row, (table rows sub).slots.get? e.1 = some row ∧ e.2 = readBack json (place sub) row.value := by
  obtain ⟨slot, v⟩ := e
  have hentries : ∀ {α : Type} (m : OrdMap Text α) (g : α → Text),
      (slot, v) ∈ m.entries.map (fun p => (p.1, g p.2)) ↔ ∃ a, m.get? slot = some a ∧ v = g a := by
    intro α m g
    rw [List.mem_map]
    constructor
    · rintro ⟨⟨k, a⟩, hmem, heq⟩
      obtain ⟨rfl, rfl⟩ := Prod.mk.inj heq
      exact ⟨a, OrdMap.get?_eq_some_iff.mpr hmem, rfl⟩
    · rintro ⟨a, hget, rfl⟩
      exact ⟨(slot, a), OrdMap.get?_eq_some_iff.mp hget, rfl⟩
  cases hp : place sub with
  | setopt =>
      obtain rfl := place_eq_setopt.mp hp
      rw [(pushesOf_setopt json rows generation).mem_iff]
      exact hentries _ (fun row : CanonicalRow => readBack json .setopt row.value)
  | list f => exact absurd hp (h f)
  | map f =>
      obtain rfl := place_eq_map.mp hp
      rw [pushesOf, hp]
      refine (hentries _ (json_string json)).trans ?_
      rw [snapshot_map_get?]
      simp [readBack]
  | zmodload =>
      obtain rfl := place_eq_zmodload.mp hp
      rw [pushesOf, hp]
      simp only [snapshot_zmodload, List.map_map]
      exact hentries _ (fun _ => loaded)
  | zstyle =>
      obtain rfl := place_eq_zstyle.mp hp
      rw [pushesOf, hp]
      simp only [snapshot_zstyle, List.map_map]
      exact hentries _ (fun row : CanonicalRow => json_string json (unjson json row.value))
  | extras =>
      rw [pushesOf, hp]
      refine OrdMap.get?_eq_some_iff.symm.trans ?_
      rw [snapshot_extra_get? json rows generation hp, Option.map_eq_some_iff]
      exact exists_congr fun row => and_congr_right fun _ => eq_comm

variable (rows) in
theorem nodup_pushesOf (sub : Text) :
    ((pushesOf json (snapshot_shard json rows generation) sub).map Prod.fst).Nodup := by
  have hkeys : ((entriesOf rows sub).map Prod.fst).Nodup := (table rows sub).slots.nodup_keys
  cases hp : place sub with
  | setopt =>
      obtain rfl := place_eq_setopt.mp hp
      rw [((pushesOf_setopt json rows generation).map Prod.fst).nodup_iff, List.map_map]
      exact hkeys
  | map f =>
      rw [pushesOf, hp, List.map_map]
      exact OrdMap.nodup_keys _
  | zmodload =>
      obtain rfl := place_eq_zmodload.mp hp
      rw [pushesOf, hp, snapshot_zmodload, List.map_map, List.map_map]
      exact hkeys
  | list f =>
      rw [pushesOf, hp]
      have hindex : (((snapshot_shard json rows generation).lists f).zipIdx.map
          fun p => (index p.2, json_string json p.1)).map Prod.fst =
          (((snapshot_shard json rows generation).lists f).zipIdx.map Prod.snd).map index := by
        rw [List.map_map, List.map_map]
        rfl
      rw [hindex, List.zipIdx_map_snd]
      exact List.Nodup.map (fun i j hij => index_inj hij) (List.nodup_range' 1)
  | zstyle =>
      obtain rfl := place_eq_zstyle.mp hp
      rw [pushesOf, hp, snapshot_zstyle, List.map_map, List.map_map]
      exact hkeys
  | extras =>
      rw [pushesOf, hp]
      exact OrdMap.nodup_keys _

end Snapshot

/-- The values are JSON strings, and the rows of a subsystem can be counted. -/
structure Encoded (json : SerdeJson) (rows : Rows) : Prop where
  values : ∀ sub slot row, (table rows sub).slots.get? slot = some row → ∃ s, row.value = json_string json s
  size : ∀ sub, (entriesOf rows sub).length < 2 ^ 64

/-- What a restart asks of the catalog. -/
structure Survives (json : SerdeJson) (now : Int) (generation : Nat) (rows : Rows) : Prop where
  kept : ∀ sub slot, ((table (reload json now generation rows) sub).slots.get? slot).map CanonicalRow.entry =
    ((table rows sub).slots.get? slot).map CanonicalRow.entry
  order : ∀ sub, (rows_for (reload json now generation rows) sub).map CanonicalRow.entry =
    (rows_for rows sub).map CanonicalRow.entry
  listed : ∀ f i row, (table rows (ListField.subsystem f)).slots.get? (index i) = some row →
    ((snapshot_shard json rows generation).lists f)[i]? = some (unjson json row.value)
  written : ∀ f, ((snapshot_shard json rows generation).lists f).length ≤ (entriesOf rows f.subsystem).length
  read : ∀ sub, (entriesOf (reload json now generation rows) sub).length ≤ (entriesOf rows sub).length

/-- A catalog that its shard can hold. -/
structure Storable (rows : Rows) : Prop where
  own : ∀ sub slot row, (table rows sub).slots.get? slot = some row → row.identity = zshrs
  setopt : ∀ slot row, (table rows setopt).slots.get? slot = some row → row.value = on ∨ row.value = off
  zmodload : ∀ slot row, (table rows zmodload).slots.get? slot = some row → row.value = loaded
  numbered : ∀ f, ∃ n, Numbered rows (ListField.subsystem f) n

/-- The chars that serde writes as they are, tested one by one. -/
theorem plain_of_all {s : Text}
    (h : s.all (fun c => decide (c ≠ '"') && decide (c ≠ '\\') && decide (32 ≤ c.toNat)) = true) :
    ∀ c ∈ s, c ≠ '"' ∧ c ≠ '\\' ∧ ' ' ≤ c := by
  intro c hc
  have hone := List.all_eq_true.mp h c hc
  rw [Bool.and_eq_true, Bool.and_eq_true, decide_eq_true_iff, decide_eq_true_iff, decide_eq_true_iff] at hone
  exact ⟨hone.1.1, hone.1.2, Char.le_def.mpr (UInt32.le_iff_toNat_le.mpr hone.2)⟩

section Restart

variable {json : SerdeJson} (hjson : json.Lawful)

include hjson

theorem unjson_json_string (s : Text) : unjson json (json_string json s) = s := by
  obtain ⟨body, hbody, -⟩ := hjson.quoted s
  have hquoted : ['"'] <+: json_string json s ∧ ['"'] <:+ json_string json s ∧ 2 ≤ (json_string json s).length := by
    rw [json_string, hbody]
    refine ⟨⟨body ++ ['"'], rfl⟩, ⟨'"' :: body, rfl⟩, ?_⟩
    simp
  rw [unjson, if_pos hquoted, json_string, hjson.parses, Option.getD_some]

theorem unjson_on : unjson json on = ['o', 'n'] := by
  have hplain := hjson.plain ['o', 'n'] (plain_of_all rfl)
  have hon : on = json_string json ['o', 'n'] := hplain.symm
  rw [hon, unjson_json_string hjson]

theorem unjson_off : unjson json off = ['o', 'f', 'f'] := by
  have hplain := hjson.plain ['o', 'f', 'f'] (plain_of_all rfl)
  have hoff : off = json_string json ['o', 'f', 'f'] := hplain.symm
  rw [hoff, unjson_json_string hjson]

end Restart

theorem readBack_setopt (json : SerdeJson) (value : Text) :
    readBack json .setopt value = on ∨ readBack json .setopt value = off := by
  rw [readBack]
  split
  · exact Or.inl rfl
  · exact Or.inr rfl

theorem own_iff_key {row : CanonicalRow} {slot : Text} (h : row.slot = slot) :
    row.identity = zshrs ↔ row.key = slot := by
  rw [CanonicalRow.slot_eq] at h
  constructor
  · intro hz
    rw [hz, slotOf_zshrs] at h
    exact h
  · intro hkey
    by_contra hz
    rw [slotOf_foreign hz, hkey] at h
    simp at h

/-- A reader sees the same rows in the same order where the slots of zshrs hold the same keys and values. -/
theorem rows_for_entries {rows rows' : Rows} {sub : Text}
    (h : ∀ slot, SHELL_ID_SEP ∉ slot → ((table rows sub).slots.get? slot).map CanonicalRow.entry =
      ((table rows' sub).slots.get? slot).map CanonicalRow.entry) :
    (rows_for rows sub).map CanonicalRow.entry = (rows_for rows' sub).map CanonicalRow.entry := by
  let bare := fun (rows : Rows) => (table rows sub).slots.retain fun slot _ => SHELL_ID_SEP ∉ slot
  have hview : ∀ rows : Rows, (rows_for rows sub).map CanonicalRow.entry =
      (((bare rows).entries.map fun p => (p.1, p.2.entry)).map Prod.snd).mergeSort
        fun a b => (key_order a.1 b.1).isLE := by
    intro rows
    have hsort : ∀ l : List CanonicalRow, (sortByKey l).map CanonicalRow.entry =
        (l.map CanonicalRow.entry).mergeSort fun a b => (key_order a.1 b.1).isLE :=
      fun l => List.map_mergeSort fun _ _ _ _ => rfl
    rw [rows_for, hsort, List.map_map, List.map_map]
    rfl
  have hbare : ∀ slot, ((bare rows).get? slot).map CanonicalRow.entry =
      ((bare rows').get? slot).map CanonicalRow.entry := by
    intro slot
    rw [OrdMap.get?_retain, OrdMap.get?_retain]
    by_cases hsep : SHELL_ID_SEP ∈ slot
    · simp [hsep]
    · have hkeep : ∀ o : Option CanonicalRow, o.filter (fun _ => decide (SHELL_ID_SEP ∉ slot)) = o := by
        intro o
        rw [decide_eq_true hsep]
        cases o <;> rfl
      rw [hkeep, hkeep]
      exact h slot hsep
  rw [hview, hview, OrdMap.entries_map_eq CanonicalRow.entry hbare]

section Restart

variable {json : SerdeJson} (now : Int) (generation : Nat) (rows : Rows)

theorem reload_slot {sub slot : Text} {e : Text × Text} :
    ((table (reload json now generation rows) sub).slots.get? slot).map CanonicalRow.entry = some e ↔
      e.1 = slot ∧ e ∈ pushesOf json (snapshot_shard json rows generation) sub :=
  ingest_slot json now _ (fun _ h => snapshot_extras_none json rows generation h)
    (nodup_pushesOf json rows generation sub)

theorem mem_listed {f : ListField} {e : Text × Text} :
    e ∈ pushesOf json (snapshot_shard json rows generation) f.subsystem ↔
      ∃ i s, ((snapshot_shard json rows generation).lists f)[i]? = some s ∧ e = (index i, json_string json s) := by
  rw [pushesOf, place_list, List.mem_map]
  constructor
  · rintro ⟨⟨s, i⟩, hmem, rfl⟩
    exact ⟨i, s, List.mem_zipIdx_iff_getElem?.mp hmem, rfl⟩
  · rintro ⟨i, s, hget, rfl⟩
    exact ⟨(s, i), List.mem_zipIdx_iff_getElem?.mpr hget, rfl⟩

variable {now generation rows}

theorem Survives.found (h : Survives json now generation rows) {sub slot : Text} {row : CanonicalRow}
    (hrow : (table rows sub).slots.get? slot = some row) :
    row.key = slot ∧ row.entry ∈ pushesOf json (snapshot_shard json rows generation) sub := by
  have hkept := h.kept sub slot
  rw [hrow] at hkept
  exact (reload_slot now generation rows).mp hkept

theorem Survives.storable (h : Survives json now generation rows) : Storable rows where
  own := by
    intro sub slot row hrow
    exact (own_iff_key ((table rows sub).filed slot row hrow)).mpr (h.found hrow).1
  setopt := by
    intro slot row hrow
    have hplace := place_eq_setopt.mpr (rfl : setopt = setopt)
    obtain ⟨row', -, hvalue⟩ := (mem_pushesOf json rows generation (by simp [hplace])).mp (h.found hrow).2
    rw [hplace] at hvalue
    rw [show row.value = _ from hvalue]
    exact readBack_setopt json row'.value
  zmodload := by
    intro slot row hrow
    have hplace := place_eq_zmodload.mpr (rfl : zmodload = zmodload)
    obtain ⟨row', -, hvalue⟩ := (mem_pushesOf json rows generation (by simp [hplace])).mp (h.found hrow).2
    rw [hplace] at hvalue
    exact hvalue
  numbered := by
    intro f
    refine ⟨((snapshot_shard json rows generation).lists f).length, ?_⟩
    intro slot
    have hsome : ((table rows f.subsystem).slots.get? slot).isSome ↔
        ∃ e, ((table (reload json now generation rows) f.subsystem).slots.get? slot).map CanonicalRow.entry = some e := by
      rw [h.kept, ← Option.isSome_iff_exists, Option.isSome_map]
    rw [hsome]
    constructor
    · rintro ⟨e, he⟩
      obtain ⟨rfl, hmem⟩ := (reload_slot now generation rows).mp he
      obtain ⟨i, s, hget, rfl⟩ := (mem_listed generation rows).mp hmem
      exact ⟨i, (List.getElem?_eq_some_iff.mp hget).1, rfl⟩
    · rintro ⟨i, hi, rfl⟩
      refine ⟨(index i, json_string json ((snapshot_shard json rows generation).lists f)[i]), ?_⟩
      refine (reload_slot now generation rows).mpr ⟨rfl, (mem_listed generation rows).mpr ?_⟩
      exact ⟨i, _, List.getElem?_eq_getElem hi, rfl⟩

theorem readBack_eq (hjson : json.Lawful) (he : Encoded json rows) (h : Storable rows) {sub slot : Text}
    {row : CanonicalRow} (hrow : (table rows sub).slots.get? slot = some row) :
    readBack json (place sub) row.value = row.value := by
  have hstring : json_string json (unjson json row.value) = row.value := by
    obtain ⟨s, hs⟩ := he.values sub slot row hrow
    rw [hs, unjson_json_string hjson]
  cases hp : place sub with
  | map | list | zstyle => exact hstring
  | extras => rfl
  | zmodload =>
      obtain rfl := place_eq_zmodload.mp hp
      exact (h.zmodload slot row hrow).symm
  | setopt =>
      obtain rfl := place_eq_setopt.mp hp
      rcases h.setopt slot row hrow with hvalue | hvalue
      · rw [hvalue, readBack, unjson_on hjson]
        rfl
      · rw [hvalue, readBack, unjson_off hjson]
        rfl

theorem Storable.kept (hjson : json.Lawful) (he : Encoded json rows) (h : Storable rows) (sub slot : Text) :
    ((table (reload json now generation rows) sub).slots.get? slot).map CanonicalRow.entry =
      ((table rows sub).slots.get? slot).map CanonicalRow.entry := by
  have hkey : ∀ {slot row}, (table rows sub).slots.get? slot = some row → row.key = slot := by
    intro slot row hrow
    exact (own_iff_key ((table rows sub).filed slot row hrow)).mp (h.own sub slot row hrow)
  apply Option.ext
  intro e
  rw [reload_slot, Option.map_eq_some_iff]
  by_cases hlist : ∃ f, place sub = .list f
  · obtain ⟨f, hf⟩ := hlist
    obtain rfl := place_eq_list.mp hf
    obtain ⟨n, hn⟩ := h.numbered f
    obtain ⟨hlen, hget⟩ := numbered_lists json generation hn (he.size _)
    rw [mem_listed]
    constructor
    · rintro ⟨rfl, i, s, hs, rfl⟩
      have hi := (List.getElem?_eq_some_iff.mp hs).1
      obtain ⟨row, hrow⟩ := Option.isSome_iff_exists.mp ((hn (index i)).mpr ⟨i, by omega, rfl⟩)
      refine ⟨row, hrow, ?_⟩
      have hvalue := readBack_eq hjson he h hrow
      rw [place_list] at hvalue
      rw [hget i row hrow] at hs
      obtain rfl := Option.some.inj hs
      exact Prod.ext (hkey hrow) hvalue.symm
    · rintro ⟨row, hrow, rfl⟩
      obtain ⟨i, hi, rfl⟩ := (hn slot).mp (Option.isSome_iff_exists.mpr ⟨row, hrow⟩)
      have hvalue := readBack_eq hjson he h hrow
      rw [place_list] at hvalue
      exact ⟨hkey hrow, i, _, hget i row hrow, Prod.ext (hkey hrow) hvalue.symm⟩
  · rw [mem_pushesOf json rows generation (fun f hf => hlist ⟨f, hf⟩)]
    constructor
    · rintro ⟨rfl, row, hrow, hvalue⟩
      rw [readBack_eq hjson he h hrow] at hvalue
      exact ⟨row, hrow, Prod.ext (hkey hrow) hvalue.symm⟩
    · rintro ⟨row, hrow, rfl⟩
      refine ⟨hkey hrow, row, ?_, (readBack_eq hjson he h hrow).symm⟩
      rw [CanonicalRow.entry, hkey hrow]
      exact hrow

/-- A restart keeps the catalog exactly if its shard can hold it. -/
theorem survives_iff (hjson : json.Lawful) (he : Encoded json rows) :
    Survives json now generation rows ↔ Storable rows := by
  constructor
  · exact Survives.storable
  · intro h
    have hkept : ∀ sub slot,
        ((table (reload json now generation rows) sub).slots.get? slot).map CanonicalRow.entry =
          ((table rows sub).slots.get? slot).map CanonicalRow.entry := h.kept hjson he
    refine ⟨hkept, fun sub => rows_for_entries fun slot _ => hkept sub slot, ?_, ?_, ?_⟩
    · intro f i row hrow
      obtain ⟨n, hn⟩ := h.numbered f
      exact (numbered_lists json generation hn (he.size _)).2 i row hrow
    · intro f
      obtain ⟨n, hn⟩ := h.numbered f
      rw [(numbered_lists json generation hn (he.size _)).1]
      exact hn.le_length
    · intro sub
      have hlen := congrArg List.length (OrdMap.entries_map_eq CanonicalRow.entry (hkept sub))
      rw [List.length_map, List.length_map] at hlen
      exact Nat.le_of_eq hlen

end Restart

def escape (c : Char) : Text := if c = '"' ∨ c = '\\' then ['\\', c] else [c]

def unescape : Text → Option Text
  | ['"'] => some []
  | '\\' :: c :: rest => (unescape rest).map (c :: ·)
  | c :: rest => if c = '"' then none else (unescape rest).map (c :: ·)
  | [] => none

/-- Strings without control characters, as JSON writes them. -/
def quotes : SerdeJson where
  to_string s := '"' :: (s.flatMap escape ++ ['"'])
  as_str
    | '"' :: rest => unescape rest
    | _ => none

theorem unescape_escape (s : Text) : unescape (s.flatMap escape ++ ['"']) = some s := by
  induction s with
  | nil => rfl
  | cons c s ih =>
      have hcons : (c :: s).flatMap escape ++ ['"'] = escape c ++ (s.flatMap escape ++ ['"']) := by simp
      rw [hcons, escape]
      split
      · rw [List.cons_append, List.cons_append, List.nil_append, unescape, ih]
        rfl
      · rename_i hc
        rw [not_or] at hc
        rw [List.cons_append, List.nil_append, unescape.eq_def]
        split
        · rename_i heq
          exact absurd (List.cons.inj heq).1 hc.1
        · rename_i heq
          exact absurd (List.cons.inj heq).1 hc.2
        · rename_i heq
          obtain ⟨rfl, rfl⟩ := List.cons.inj heq
          rw [if_neg hc.1, ih]
          rfl
        · rename_i heq
          cases heq

theorem quotes_lawful : quotes.Lawful where
  parses := unescape_escape
  quoted := by
    intro s
    refine ⟨s.flatMap escape, rfl, ?_⟩
    induction s with
    | nil => exact Nat.le_refl 0
    | cons c s ih =>
        have hc : 1 ≤ (escape c).length := by
          rw [escape]
          split <;> simp
        rw [List.flatMap_cons, List.length_append, List.length_cons]
        omega
  plain := by
    intro s hs
    have hself : s.flatMap escape = s := by
      induction s with
      | nil => rfl
      | cons c s ih =>
          have hc := hs c List.mem_cons_self
          rw [List.flatMap_cons, ih fun d hd => hs d (List.mem_cons_of_mem _ hd), escape,
            if_neg (not_or.mpr ⟨hc.1, hc.2.1⟩)]
          rfl
    exact congrArg (fun body => '"' :: (body ++ ['"'])) hself

/-- A catalog of a single row. -/
def oneRow (sub key value : Text) : Rows := upsert 0 .empty sub key value none

theorem oneRow_slot (sub key value sub' slot : Text) :
    (table (oneRow sub key value) sub').slots.get? slot =
      if sub' = sub ∧ slot = key then some ⟨key, value, 0, none, none, none, none, []⟩ else none := by
  rw [oneRow, upsert, upsert_tagged, upsert_tagged_with_attrs, table_insert]
  by_cases hsub : sub' = sub
  · rw [if_pos hsub, Table.get?_insert]
    have hempty : (table (OrdMap.empty : Rows) sub).slots.get? slot = none := rfl
    rw [hempty]
    by_cases hslot : slot = key
    · exact (if_pos hslot).trans (if_pos ⟨hsub, hslot⟩).symm
    · exact (if_neg hslot).trans (if_neg fun h => hslot h.2).symm
  · rw [if_neg hsub, if_neg fun h => hsub h.1]
    rfl

theorem oneRow_encoded (sub key s : Text) : Encoded quotes (oneRow sub key (json_string quotes s)) where
  values := by
    intro sub' slot row h
    rw [oneRow_slot] at h
    split at h
    · obtain rfl := Option.some.inj h
      exact ⟨s, rfl⟩
    · cases h
  size := by
    intro sub'
    have hkeys : (entriesOf (oneRow sub key (json_string quotes s)) sub').map Prod.fst ⊆ [key] := by
      intro slot hslot
      obtain ⟨p, hp, rfl⟩ := List.mem_map.mp hslot
      have hget := mem_entriesOf.mp hp
      rw [oneRow_slot] at hget
      split at hget
      · rename_i h
        exact List.mem_singleton.mpr h.2
      · cases hget
    have hle := (List.subperm_of_subset (OrdMap.nodup_keys _) hkeys).length_le
    rw [List.length_map] at hle
    exact Nat.lt_of_le_of_lt hle (by simp)

/-- An option, an alias, and the directories `/0` to `/10`, whose rows are listed as 0, 1, 10, 2, … -/
def elevenPaths : Rows :=
  (List.range 11).foldl
    (fun rows i => upsert 0 rows ListField.path.subsystem (index i) (json_string quotes ('/' :: index i)) none)
    (upsert 0 (oneRow setopt ['a', 'u', 't', 'o', 'c', 'd'] on) MapField.aliases.subsystem ['l', 'l']
      (json_string quotes ['l', 's', ' ', '-', 'l']) none)

theorem elevenPaths_encoded : Encoded quotes elevenPaths where
  values := by
    intro sub slot row h
    have hall : ∀ c ∈ cells elevenPaths, c.2.2.value = json_string quotes (unjson quotes c.2.2.value) := by
      decide +kernel
    exact ⟨_, hall _ (mem_cells.mpr h)⟩
  size := by
    intro sub
    have hle := (List.filter_sublist (p := fun c => c.1 = sub) (l := cells elevenPaths)).length_le
    have hcells : (cells elevenPaths).length < 2 ^ 64 := by decide +kernel
    rw [filter_cells, List.length_map] at hle
    exact Nat.lt_of_le_of_lt hle hcells

theorem elevenPaths_numbered : Numbered elevenPaths ListField.path.subsystem 11 := by
  have hkeys : (entriesOf elevenPaths ListField.path.subsystem).map Prod.fst ⊆ (List.range 11).map index := by
    decide +kernel
  have hindices : (List.range 11).map index ⊆ (entriesOf elevenPaths ListField.path.subsystem).map Prod.fst := by
    decide +kernel
  intro slot
  constructor
  · intro h
    obtain ⟨row, hrow⟩ := Option.isSome_iff_exists.mp h
    obtain ⟨i, hi, heq⟩ := List.mem_map.mp (hkeys (List.mem_map_of_mem (mem_entriesOf.mpr hrow)))
    exact ⟨i, List.mem_range.mp hi, heq.symm⟩
  · rintro ⟨i, hi, rfl⟩
    obtain ⟨p, hp, heq⟩ := List.mem_map.mp (hindices (List.mem_map_of_mem (List.mem_range.mpr hi)))
    exact Option.isSome_iff_exists.mpr ⟨p.2, mem_entriesOf.mp (heq ▸ hp)⟩

/-- What its rows are, one by one. -/
theorem elevenPaths_cells : ∀ c ∈ cells elevenPaths, c.2.2.identity = zshrs ∧ SHELL_ID_SEP ∉ c.2.1 ∧
    (c.1 = setopt → c.2.2.value = on) ∧
    c.1 ∈ [ListField.path.subsystem, setopt, MapField.aliases.subsystem] := by
  decide +kernel

theorem elevenPaths_none {sub : Text} (h : sub ∉ [ListField.path.subsystem, setopt, MapField.aliases.subsystem])
    (slot : Text) : (table elevenPaths sub).slots.get? slot = none := by
  apply Option.eq_none_iff_forall_ne_some.mpr
  intro row hrow
  exact h (elevenPaths_cells _ (mem_cells.mpr hrow)).2.2.2

theorem elevenPaths_storable : Storable elevenPaths where
  own := fun sub slot row h => (elevenPaths_cells _ (mem_cells.mpr h)).1
  setopt := fun slot row h => .inl ((elevenPaths_cells _ (mem_cells.mpr h)).2.2.1 rfl)
  zmodload := by
    intro slot row h
    rw [elevenPaths_none (by decide)] at h
    cases h
  numbered := by
    intro f
    by_cases hf : f = .path
    · subst hf
      exact ⟨11, elevenPaths_numbered⟩
    · refine ⟨0, fun slot => ?_⟩
      rw [elevenPaths_none (by revert hf; cases f <;> decide)]
      simp

/-- Paths from 0 to 10 come back, and so do the options that the daemon itself writes. -/
theorem paths_survive : Survives quotes 5 7 elevenPaths :=
  (survives_iff quotes_lawful elevenPaths_encoded).mpr elevenPaths_storable

/-- A directory keyed `2` comes back with two empty ones before it. -/
theorem gap_not_survived :
    ¬ ∀ (json : SerdeJson) (now : Int) (generation : Nat) (rows : Rows), json.Lawful → Encoded json rows →
      Survives json now generation rows := by
  intro h
  have hsurvives := h quotes 0 0 _ quotes_lawful
    (oneRow_encoded ListField.path.subsystem (index 2) ['/', 'b', 'i', 'n'])
  obtain ⟨n, hn⟩ := hsurvives.storable.numbered .path
  obtain ⟨i, hi, hindex⟩ := (hn (index 2)).mp (by rw [oneRow_slot]; rfl)
  obtain rfl := index_inj hindex
  have hzero := (hn (index 0)).mpr ⟨0, by omega, rfl⟩
  rw [oneRow_slot] at hzero
  revert hzero
  decide

end Zshrs.Daemon.Canonical
