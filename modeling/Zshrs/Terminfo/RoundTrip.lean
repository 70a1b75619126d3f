import Mathlib.Data.List.GetD
import Zshrs.Terminfo.Blocks

namespace Zshrs.Terminfo

open Lib Lib.Bytes

/-- Kind by kind, the texts that stand where the reader looks are the names of the same capabilities. -/
structure Undisturbed (e : Entry) : Prop where
  bools : (handed e.found (e.ext.bools.values.map fun v => some (decide (v = 1)))).Perm
    e.term.ext_bools.entries
  nums : (handed (e.found.drop e.ext.bools.entries.length) (e.ext.nums.values.map some)).Perm
    e.term.ext_nums.entries
  strs : (handed (e.found.drop (e.ext.bools.entries.length + e.ext.nums.entries.length)) e.found_values).Perm
    e.term.ext_strs.entries

theorem length_handed_le {α : Type} (names : List Text) (values : List (Option α)) :
    (handed names values).length ≤ values.countP Option.isSome := by
  induction values generalizing names with
  | nil =>
      rw [handed_nil]
      exact Nat.le_refl 0
  | cons v values ih =>
      cases names with
      | nil =>
          rw [handed]
          exact Nat.zero_le _
      | cons n names =>
          have hrest := ih names
          cases v with
          | none => exact hrest
          | some v =>
              rw [handed, List.countP_cons_of_pos rfl]
              split
              · exact Nat.le_succ_of_le hrest
              · exact Nat.succ_le_succ hrest

theorem length_filterMap_entries {α β : Type} (f : β → Option α) (m : OrdMap Text β) :
    (m.filterMap f).entries.length = (m.values.map f).countP Option.isSome := by
  rw [OrdMap.values, List.map_map, List.countP_map]
  show (m.entries.filterMap fun p => (f p.2).map (Prod.mk p.1)).length = _
  induction m.entries with
  | nil => rfl
  | cons p es ih =>
      cases hv : f p.2 with
      | none =>
          rw [List.filterMap_cons_none (by rw [hv]; rfl), List.countP_cons_of_neg (by simp [hv]), ih]
      | some v =>
          rw [List.filterMap_cons_some (b := (p.1, v)) (by rw [hv]; rfl),
            List.countP_cons_of_pos (by simp [hv]), List.length_cons, ih]

theorem getD_map_of_lt {α β : Type} (f : α → β) {xs : List α} {i : Nat} (hi : i < xs.length) (d : α) (d' : β) :
    f (xs.getD i d) = (xs.map f).getD i d' := by
  have hmap : i < (xs.map f).length := by
    rw [List.length_map]
    exact hi
  rw [List.getD_eq_getElem _ _ hi, List.getD_eq_getElem _ _ hmap, List.getElem_map]

/-- A loop makes the map that it should if and only if it hands out the right entries. -/
theorem insert_named_iff {α β : Type} {m : OrdMap Text β} {f : β → Option α} {values : List (Option α)}
    (names : List Text) {value : Nat → Option α} (hlen : values.length ≤ m.entries.length)
    (hfew : values.countP Option.isSome ≤ (m.values.map f).countP Option.isSome)
    (hvalue : ∀ i < m.entries.length, value i = values.getD i none) :
    insert_named m.entries.length names value .empty = m.filterMap f ↔
      (handed names values).Perm (m.filterMap f).entries := by
  rw [insert_named_eq hlen hvalue]
  apply OrdMap.insertAll_eq_iff
  rw [length_filterMap_entries]
  exact Nat.le_trans (length_handed_le names values) hfew

/-- The loops over the flags and the numbers, whose values the reader has right. -/
theorem insert_own_iff {α β : Type} (m : OrdMap Text β) (f : β → Option α) (d : β) (names : List Text) :
    insert_named m.entries.length names (fun i => f (m.values.getD i d)) .empty = m.filterMap f ↔
      (handed names (m.values.map f)).Perm (m.filterMap f).entries := by
  have hlen := length_values m
  apply insert_named_iff names
  · rw [List.length_map, hlen]
  · exact Nat.le_refl _
  · intro i hi
    exact getD_map_of_lt f (by rw [hlen]; exact hi) d none

/-- Of a capability that is not present the reader finds no value either. -/
theorem few_values (table : Bytes) (off : Nat) (caps : List StrCap) :
    ((offsets off caps).map (value_at table)).countP Option.isSome ≤
      (caps.map StrCap.value).countP Option.isSome := by
  induction caps generalizing off with
  | nil => exact Nat.le_refl 0
  | cons cap caps ih =>
      cases cap with
      | present v =>
          have hrest := ih (off + (v.length + 1))
          have hvalue : ((caps.map StrCap.value).countP Option.isSome) + 1 =
              ((StrCap.present v :: caps).map StrCap.value).countP Option.isSome :=
            (List.countP_cons_of_pos rfl).symm
          rw [offsets, List.map_cons, List.countP_cons]
          split <;> omega
      | absent => exact ih off
      | cancelled => exact ih off

theorem few_found_values (e : Entry) :
    e.found_values.countP Option.isSome ≤ (e.ext.strs.values.map StrCap.value).countP Option.isSome := by
  have hlen : (offsets 0 e.ext.caps).length = e.ext.strs.entries.length := by
    rw [offsets_length, e.ext.length_caps]
  have hprefix : e.ext.taken.take e.ext.strs.entries.length = (offsets 0 e.ext.caps).take e.ext.items := by
    rw [Extended.taken, List.take_take, Nat.min_comm, ← List.take_take, Extended.offsets, ← hlen, List.take_left]
  have hsub := ((List.take_sublist e.ext.items (offsets 0 e.ext.caps)).map
    (value_at e.ext.table_taken)).countP_le (p := Option.isSome)
  rw [← hprefix] at hsub
  exact Nat.le_trans hsub (few_values _ _ _)

theorem read_eq_term_iff (e : Entry) : e.read = e.term ↔ Undisturbed e := by
  have hbools := insert_own_iff e.ext.bools (fun v => some (decide (v = 1))) 0 e.found
  have hnums := insert_own_iff e.ext.nums some ABSENT (e.found.drop e.ext.bools.entries.length)
  have hlen : e.found_values.length ≤ e.ext.strs.entries.length := by
    rw [Entry.found_values, List.length_map]
    exact List.length_take_le _ _
  have hstrs := insert_named_iff (f := StrCap.value) (m := e.ext.strs)
    (e.found.drop (e.ext.bools.entries.length + e.ext.nums.entries.length)) hlen (few_found_values e)
    fun i _ => rfl
  constructor
  · intro h
    exact ⟨hbools.mp (congrArg TermEntry.ext_bools h), hnums.mp (congrArg TermEntry.ext_nums h),
      hstrs.mp (congrArg TermEntry.ext_strs h)⟩
  · rintro ⟨hb, hn, hs⟩
    have hb := hbools.mpr hb
    have hn := hnums.mpr hn
    have hs := hstrs.mpr hs
    rw [Entry.read, hb, hn, hs]
    rfl

theorem handed_own {α β : Type} (f : β → Option α) {es : List (Text × β)} (hes : ∀ p ∈ es, p.1 ≠ [])
    (more : List Text) :
    handed (es.map Prod.fst ++ more) ((es.map Prod.snd).map f) =
      es.filterMap fun p => (f p.2).map (Prod.mk p.1) := by
  induction es with
  | nil => exact handed_nil _
  | cons p es ih =>
      have hrest := ih fun q hq => hes q (List.mem_cons_of_mem p hq)
      rw [List.map_cons, List.map_cons, List.map_cons, List.cons_append]
      cases hv : f p.2 with
      | none =>
          rw [handed, List.filterMap_cons_none (by rw [hv]; rfl)]
          exact hrest
      | some v =>
          rw [handed, List.filterMap_cons_some (b := (p.1, v)) (by rw [hv]; rfl),
            if_neg (hes p List.mem_cons_self), hrest]

theorem name_at_eq (table : Bytes) (o : Int) :
    name_at table o = ((value_at table o).map Utf8.lossy).getD [] := by
  rw [name_at, value_at]
  split <;> rfl

theorem name_caps_plain (e : Entry) : ∀ v, StrCap.present v ∈ e.ext.name_caps → 0 ∉ v := by
  intro v hv hzero
  obtain ⟨n, hn, heq⟩ := List.mem_map.mp hv
  cases heq
  exact (e.ext_names_plain n hn).2 (Utf8.zero_mem_encode hzero)

/-- Without extended strings the reader takes all the offsets, and the names are where it looks. -/
theorem found_of_no_strs {e : Entry} (h : e.ext.strs.entries = []) : e.found = e.ext.names := by
  have hcaps : e.ext.caps = [] := by
    rw [Extended.caps, h]
    rfl
  have htable : e.ext.table = text_table e.ext.name_caps := by
    rw [Extended.table, hcaps]
    rfl
  have hoffsets : e.ext.offsets = offsets 0 e.ext.name_caps := by
    rw [Extended.offsets, hcaps]
    rfl
  have hitems : e.ext.offsets.length ≤ e.ext.items := by
    rw [e.ext.length_offsets, h, Extended.items]
    simp only [List.length_nil, Nat.zero_add, Nat.le_add_left]
  have htaken : e.ext.table_taken = text_table e.ext.name_caps := by
    rw [Extended.table_taken, List.drop_eq_nil_of_le hitems]
    exact List.take_length.trans htable
  have hread := value_at_offsets (name_caps_plain e) [] []
  rw [List.append_nil, List.nil_append] at hread
  have hnames : name_at (text_table e.ext.name_caps) =
      fun o => ((value_at (text_table e.ext.name_caps) o).map Utf8.lossy).getD [] :=
    funext (name_at_eq _)
  have hvalues : e.found = ((offsets 0 e.ext.name_caps).map (value_at (text_table e.ext.name_caps))).map
      (fun v => (v.map Utf8.lossy).getD []) := by
    rw [Entry.found, Extended.taken, List.take_of_length_le hitems, h, htaken, hoffsets, List.map_map]
    exact congrArg (List.map · _) hnames
  rw [hvalues]
  refine (congrArg _ hread).trans ?_
  rw [Extended.name_caps, List.map_map, List.map_map]
  refine (List.map_congr_left ?_).trans (List.map_id _)
  intro n _
  exact Utf8.lossy_encode n

/-- An entry without extended strings is read back. -/
theorem undisturbed_of_no_strs {e : Entry} (h : e.ext.strs.entries = []) : Undisturbed e := by
  have hfound := found_of_no_strs h
  have hplain : ∀ n ∈ e.ext.names, n ≠ [] := fun n hn => (e.ext_names_plain n hn).1
  have hb : ∀ p ∈ e.ext.bools.entries, p.1 ≠ [] := by
    intro p hp
    exact hplain p.1 (List.mem_append_left _ (List.mem_map_of_mem hp))
  have hn : ∀ p ∈ e.ext.nums.entries, p.1 ≠ [] := by
    intro p hp
    exact hplain p.1 (List.mem_append_right _ (List.mem_append_left _ (List.mem_map_of_mem hp)))
  have hdrop : e.found.drop e.ext.bools.entries.length = e.ext.nums.entries.map Prod.fst ++ [] := by
    rw [hfound, Extended.names, List.drop_left' (List.length_map _), h]
    rfl
  constructor
  · rw [hfound]
    exact .of_eq (handed_own _ hb _)
  · rw [hdrop]
    exact .of_eq (handed_own _ hn _)
  · have hvalues : e.found_values = [] := by
      rw [Entry.found_values, h]
      rfl
    have hterm : e.term.ext_strs.entries = [] := by
      show e.ext.strs.entries.filterMap _ = []
      rw [h]
      rfl
    rw [hvalues, hterm, handed_nil]

end Zshrs.Terminfo
