import Zshrs.Daemon.Canonical

namespace Zshrs.Daemon.Canonical

open Lib Lib.Runs

/-- The row of a key that a reader finds for a shell. -/
def find (rows : Rows) (subsystem key who : Text) : Option CanonicalRow :=
  (rows_for_all_shells rows subsystem).find? (fun r => r.key = key ∧ r.identity = who)

namespace Op

def subsystem : Op → Text
  | .upsert sub .. | .upsert_tagged_with_attrs sub .. | .replace_subsystem_tagged sub ..
  | .replace_subsystem_with_attrs sub .. | .set_history sub .. => sub

def shell_id : Op → Option Text
  | .upsert .. => none
  | .upsert_tagged_with_attrs _ _ _ _ sid .. | .replace_subsystem_tagged _ _ _ sid
  | .replace_subsystem_with_attrs _ _ _ sid | .set_history _ _ sid _ => sid

def identity (op : Op) : Text := op.shell_id.getD zshrs

/-- The keys that a call names. -/
def keys : Op → List Text
  | .upsert _ key .. | .upsert_tagged_with_attrs _ key .. | .set_history _ key .. => [key]
  | .replace_subsystem_tagged _ given .. => given.map Prod.fst
  | .replace_subsystem_with_attrs _ given .. => given.map Prod.fst

/-- What a call leaves under a key of its shell and subsystem, from what was there before. -/
def leaves (now : Int) (before : Text → Option CanonicalRow) : Op → Text → Option CanonicalRow
  | .upsert _ k v by_shell, key =>
    if key = k then some ⟨k, v, now, by_shell.map UInt64.toInt64, none, none, none, []⟩ else before key
  | .upsert_tagged_with_attrs _ k v by_shell sid file line, key =>
    if key = k then some ⟨k, v, now, by_shell.map UInt64.toInt64, sid, file, line, []⟩ else before key
  | .replace_subsystem_tagged _ given by_shell sid, key =>
    (given.filter (fun p => p.1 = key)).getLast?.map
      fun p => ⟨p.1, p.2, now, by_shell.map UInt64.toInt64, sid, none, none, []⟩
  | .replace_subsystem_with_attrs _ given by_shell sid, key =>
    (given.filter (fun p => p.1 = key)).getLast?.map (CatalogRow.row now by_shell sid)
  | .set_history _ k _ history, key =>
    if key = k then (before key).map (fun r => { r with history := history }) else before key

end Op

/-- What federation asks of a call. -/
structure Isolated (rows : Rows) (e : Int × Op) : Prop where
  others : ∀ sub key who, who ≠ e.2.identity → find (step rows e) sub key who = find rows sub key who
  own : ∀ sub key, find (step rows e) sub key e.2.identity =
    if sub = e.2.subsystem then e.2.leaves e.1 (fun k => find rows sub k e.2.identity) key
    else find rows sub key e.2.identity
  unique : ∀ sub key who, ((rows_for_all_shells (step rows e) sub).filter
    fun r => r.key = key ∧ r.identity = who).length ≤ 1
  zshrs_view : ∀ sub, (rows_for (step rows e) sub).Perm
    ((rows_for_all_shells (step rows e) sub).filter fun r => r.identity = zshrs)
  direct : e.2.identity = zshrs → ∀ key ∈ e.2.keys,
    row (step rows e) e.2.subsystem key = find (step rows e) e.2.subsystem key zshrs

/-- The names that calls may use: subsystem, key and shell. -/
abbrev Names := Text → Text → Text → Prop

structure Op.Over (V : Names) (op : Op) : Prop where
  keys : ∀ key ∈ op.keys, V op.subsystem key op.identity
  shell : ∃ key, V op.subsystem key op.identity

/-- No key of zshrs holds the separator, and no slot of another shell ends as the slots of a third do. -/
structure Separable (V : Names) : Prop where
  bare : ∀ sub key, V sub key zshrs → SHELL_ID_SEP ∉ key
  tagged : ∀ sub key who key' who', V sub key who → V sub key' who' → who ≠ zshrs → who' ≠ zshrs →
    SHELL_ID_SEP :: who' <:+ composite_storage_key key (some who) → who = who'

theorem slotOf_key_inj {key key' who : Text} (h : slotOf key who = slotOf key' who) : key = key' := by
  by_cases hwho : who = zshrs
  · simpa [slotOf, hwho] using h
  · simpa [slotOf, hwho] using h

section Separable

variable {V : Names} (hs : Separable V) {sub key who key' who' : Text}

include hs

theorem Separable.mem_slotOf (hv : V sub key who) : SHELL_ID_SEP ∉ slotOf key who ↔ who = zshrs := by
  by_cases hwho : who = zshrs
  · subst hwho
    simpa [slotOf_zshrs] using hs.bare sub key hv
  · simp [slotOf_foreign hwho, hwho]

theorem Separable.slot_inj (hv : V sub key who) (hv' : V sub key' who')
    (h : slotOf key who = slotOf key' who') : key = key' ∧ who = who' := by
  have hiff : who = zshrs ↔ who' = zshrs := by
    rw [← hs.mem_slotOf hv, ← hs.mem_slotOf hv', h]
  have hwho : who = who' := by
    by_cases hz : who = zshrs
    · rw [hz, hiff.mp hz]
    · have hz' : who' ≠ zshrs := fun h' => hz (hiff.mpr h')
      refine hs.tagged sub key who key' who' hv hv' hz hz' ?_
      rw [composite_eq_slotOf, Option.getD_some, h, slotOf_foreign hz']
      exact List.suffix_append _ _
  subst hwho
  exact ⟨slotOf_key_inj h, rfl⟩

/-- A replace clears the slots of its own shell and no others. -/
theorem Separable.keeps (hv : V sub key who) {shell_id : Option Text}
    (hv' : V sub key' (shell_id.getD zshrs)) :
    keeps shell_id (slotOf key who) = true ↔ who ≠ shell_id.getD zshrs := by
  have hbare := hs.mem_slotOf hv
  cases shell_id with
  | none =>
      rw [Canonical.keeps, Option.getD_none, decide_eq_true_iff, ne_eq, ← hbare, not_not]
  | some sid =>
      rw [Canonical.keeps, Option.getD_some]
      rw [Option.getD_some] at hv'
      by_cases hsid : sid = zshrs
      · rw [if_pos hsid, decide_eq_true_iff, hsid, ne_eq, ← hbare, not_not]
      · rw [if_neg hsid, Bool.not_eq_true', decide_eq_false_iff_not]
        constructor
        · rintro hno rfl
          apply hno
          rw [slotOf_foreign hsid]
          exact List.suffix_append _ _
        · intro hne hsuffix
          by_cases hz : who = zshrs
          · exact (hbare.mpr hz) (hsuffix.subset List.mem_cons_self)
          · apply hne
            refine hs.tagged sub key who key' sid hv hv' hz hsid ?_
            rw [composite_eq_slotOf]
            exact hsuffix

end Separable

/-- A reader finds the row of a key in the key's slot, unless another name has taken the slot. -/
theorem find_eq_filter (rows : Rows) (sub key who : Text) :
    find rows sub key who = ((table rows sub).slots.get? (slotOf key who)).filter
      (fun r => r.key = key ∧ r.identity = who) := by
  ext r
  rw [Option.filter_eq_some_iff]
  constructor
  · intro h
    have hname := List.find?_some h
    have hmem := mem_rows_for_all_shells.mp (List.mem_of_find?_eq_some h)
    refine ⟨?_, hname⟩
    obtain ⟨hkey, hwho⟩ := of_decide_eq_true hname
    rw [← hkey, ← hwho, ← CanonicalRow.slot_eq]
    exact hmem
  · rintro ⟨hget, hname⟩
    obtain ⟨hkey, hwho⟩ := of_decide_eq_true hname
    have hslot : r.slot = slotOf key who := by rw [CanonicalRow.slot_eq, hkey, hwho]
    cases h : find rows sub key who with
    | none =>
        have hmem : r ∈ rows_for_all_shells rows sub := mem_rows_for_all_shells.mpr (by rw [hslot, hget])
        exact absurd hname (List.find?_eq_none.mp h r hmem)
    | some r' =>
        rw [find] at h
        have hname' := List.find?_some h
        obtain ⟨hkey', hwho'⟩ := of_decide_eq_true hname'
        have hget' := mem_rows_for_all_shells.mp (List.mem_of_find?_eq_some h)
        rw [CanonicalRow.slot_eq, hkey', hwho', hget] at hget'
        exact hget'.symm

/-- A key of a shell names one row. -/
theorem unique_row (rows : Rows) (sub key who : Text) :
    ((rows_for_all_shells rows sub).filter fun r => r.key = key ∧ r.identity = who).length ≤ 1 := by
  have hperm : (rows_for_all_shells rows sub).Perm (table rows sub).slots.values :=
    List.mergeSort_perm _ _
  rw [(hperm.filter _).length_eq, OrdMap.values, List.filter_map, List.length_map]
  have hsub : ((table rows sub).slots.entries.filter
      ((fun r : CanonicalRow => decide (r.key = key ∧ r.identity = who)) ∘ Prod.snd)).Pairwise
      (fun _ _ => False) := by
    refine ((table rows sub).slots.sorted.filter _).imp_of_mem ?_
    intro p q hp hq hlt
    have hslot : ∀ p ∈ (table rows sub).slots.entries.filter
        ((fun r : CanonicalRow => decide (r.key = key ∧ r.identity = who)) ∘ Prod.snd),
        p.1 = slotOf key who := by
      intro p hp
      obtain ⟨hmem, hname⟩ := List.mem_filter.mp hp
      obtain ⟨hkey, hwho⟩ := of_decide_eq_true hname
      rw [← (table rows sub).filed p.1 p.2 (OrdMap.get?_eq_some_iff.mpr hmem), CanonicalRow.slot_eq,
        hkey, hwho]
    rw [hslot p hp, hslot q hq] at hlt
    exact lt_irrefl _ hlt
  rcases h : (table rows sub).slots.entries.filter
      ((fun r : CanonicalRow => decide (r.key = key ∧ r.identity = who)) ∘ Prod.snd) with
    _ | ⟨p, _ | ⟨q, rest⟩⟩
  · simp
  · simp
  · rw [h] at hsub
    exact ((List.pairwise_cons.mp hsub).1 q List.mem_cons_self).elim

/-- Every row is under one of the names. -/
def Within (V : Names) (rows : Rows) : Prop :=
  ∀ sub r, (table rows sub).slots.get? r.slot = some r → V sub r.key r.identity

theorem within_empty (V : Names) : Within V .empty := by
  intro sub r h
  simp [table] at h

/-- The three things that a call does to the table of its subsystem. -/
inductive Change
  | put (row : CanonicalRow)
  | replace (given : List CanonicalRow)
  | annotate (key : Text) (history : List Definition)

def Change.apply (shell_id : Option Text) (t : Table) : Change → Table
  | .put row => t.insert row
  | .replace given => given.foldl Table.insert (t.retain (Canonical.keeps shell_id))
  | .annotate key history => t.set_history (composite_storage_key key shell_id) history

def Op.change (now : Int) : Op → Change
  | .upsert _ k v by_shell => .put ⟨k, v, now, by_shell.map UInt64.toInt64, none, none, none, []⟩
  | .upsert_tagged_with_attrs _ k v by_shell sid file line =>
    .put ⟨k, v, now, by_shell.map UInt64.toInt64, sid, file, line, []⟩
  | .replace_subsystem_tagged _ given by_shell sid =>
    .replace (given.map fun p => ⟨p.1, p.2, now, by_shell.map UInt64.toInt64, sid, none, none, []⟩)
  | .replace_subsystem_with_attrs _ given by_shell sid => .replace (given.map (CatalogRow.row now by_shell sid))
  | .set_history _ k _ history => .annotate k history

theorem table_step_self (rows : Rows) (e : Int × Op) :
    table (step rows e) e.2.subsystem =
      (e.2.change e.1).apply e.2.shell_id (table rows e.2.subsystem) := by
  obtain ⟨now, op⟩ := e
  cases op with
  | upsert | upsert_tagged_with_attrs => exact (table_insert ..).trans (if_pos rfl)
  | replace_subsystem_tagged =>
      rw [Op.change, Change.apply, List.foldl_map]
      refine (table_insert ..).trans ((if_pos rfl).trans ?_)
      rw [List.foldl_map]
      rfl
  | replace_subsystem_with_attrs =>
      rw [Op.change, Change.apply, List.foldl_map]
      exact (table_insert ..).trans (if_pos rfl)
  | set_history => exact (table_modify _ _ _ _ rfl).trans (if_pos rfl)

theorem table_step_ne (rows : Rows) (e : Int × Op) {sub : Text} (h : sub ≠ e.2.subsystem) :
    table (step rows e) sub = table rows sub := by
  obtain ⟨now, op⟩ := e
  cases op with
  | upsert | upsert_tagged_with_attrs | replace_subsystem_tagged | replace_subsystem_with_attrs =>
      exact (table_insert ..).trans (if_neg h)
  | set_history => exact (table_modify _ _ _ _ rfl).trans (if_neg h)

namespace Change

def leaves (before : Text → Option CanonicalRow) : Change → Text → Option CanonicalRow
  | .put row, key => if key = row.key then some row else before key
  | .replace given, key => (given.filter (fun r => r.key = key)).getLast?
  | .annotate k history, key =>
    if key = k then (before key).map (fun r => { r with history := history }) else before key

/-- A change that the shell `who` makes in a subsystem, to keys among the names. -/
def Of (V : Names) (sub who : Text) : Change → Prop
  | .put row => V sub row.key who ∧ row.identity = who
  | .replace given => ∀ r ∈ given, V sub r.key who ∧ r.identity = who
  | .annotate key _ => V sub key who

theorem leaves_congr {before before' : Text → Option CanonicalRow} (c : Change) {key : Text}
    (h : before key = before' key) : c.leaves before key = c.leaves before' key := by
  cases c <;> simp [leaves, h]

variable {V : Names} {sub : Text} {shell_id : Option Text} {c : Change} {t : Table}

theorem leaves_of_not {who key : Text} (hc : c.Of V sub who) (hv : ¬ V sub key who)
    {before : Text → Option CanonicalRow} (hbefore : before key = none) : c.leaves before key = none := by
  cases c with
  | put row =>
      have hne : key ≠ row.key := fun h => hv (h ▸ hc.1)
      rw [leaves, if_neg hne, hbefore]
  | replace given =>
      have hnone : given.filter (fun r => r.key = key) = [] := by
        apply List.filter_eq_nil_iff.mpr
        intro r hr h
        exact hv (of_decide_eq_true h ▸ (hc r hr).1)
      rw [leaves, hnone, List.getLast?_nil]
  | annotate k history =>
      have hne : key ≠ k := fun h => hv (h ▸ hc)
      rw [leaves, if_neg hne, hbefore]

theorem within_apply (hc : c.Of V sub (shell_id.getD zshrs))
    (ht : ∀ r, t.slots.get? r.slot = some r → V sub r.key r.identity) (r : CanonicalRow)
    (hr : (c.apply shell_id t).slots.get? r.slot = some r) : V sub r.key r.identity := by
  cases c with
  | put row =>
      rw [apply, Table.get?_insert] at hr
      split at hr
      · cases hr
        rw [hc.2]
        exact hc.1
      · exact ht r hr
  | replace given =>
      rw [apply, Table.get?_insertAll, Option.or_eq_some_iff] at hr
      rcases hr with hr | ⟨-, hr⟩
      · obtain ⟨hv, hwho⟩ := hc r (List.mem_filter.mp (List.mem_of_getLast? hr)).1
        rw [hwho]
        exact hv
      · rw [Table.get?_retain] at hr
        exact ht r (Option.filter_eq_some_iff.mp hr).1
  | annotate key history =>
      rw [apply, Table.get?_set_history] at hr
      split at hr
      · obtain ⟨row, hrow, rfl⟩ := Option.map_eq_some_iff.mp hr
        exact ht row hrow
      · exact ht r hr

theorem get?_apply (hs : Separable V) (hc : c.Of V sub (shell_id.getD zshrs)) {key' : Text}
    (hv' : V sub key' (shell_id.getD zshrs)) {key who : Text} (hv : V sub key who) :
    (c.apply shell_id t).slots.get? (slotOf key who) =
      if who = shell_id.getD zshrs then c.leaves (fun k => t.slots.get? (slotOf k who)) key
      else t.slots.get? (slotOf key who) := by
  cases c with
  | put row =>
      have hslot : slotOf key who = row.slot ↔ key = row.key ∧ who = shell_id.getD zshrs := by
        rw [CanonicalRow.slot_eq, hc.2]
        constructor
        · exact hs.slot_inj hv hc.1
        · rintro ⟨rfl, rfl⟩
          rfl
      rw [apply, Table.get?_insert]
      by_cases hwho : who = shell_id.getD zshrs
      · rw [if_pos hwho, leaves]
        exact if_congr (hslot.trans (and_iff_left hwho)) rfl rfl
      · rw [if_neg hwho, if_neg (fun h => hwho (hslot.mp h).2)]
  | replace given =>
      rw [apply, Table.get?_insertAll, Table.get?_retain]
      have hkeeps := hs.keeps hv hv'
      by_cases hwho : who = shell_id.getD zshrs
      · have hcleared : Canonical.keeps shell_id (slotOf key who) = false := by
          rw [← Bool.not_eq_true, hkeeps]
          exact not_not.mpr hwho
        have hsame : given.filter (fun r => r.slot = slotOf key who) =
            given.filter (fun r => r.key = key) := by
          apply List.filter_congr
          intro r hr
          rw [decide_eq_decide, CanonicalRow.slot_eq, (hc r hr).2, ← hwho]
          exact ⟨slotOf_key_inj, fun h => by rw [h]⟩
        rw [if_pos hwho, leaves, hsame, hcleared]
        simp
      · have hkept : Canonical.keeps shell_id (slotOf key who) = true := hkeeps.mpr hwho
        have hnone : given.filter (fun r => r.slot = slotOf key who) = [] := by
          apply List.filter_eq_nil_iff.mpr
          intro r hr h
          obtain ⟨hvr, hwr⟩ := hc r hr
          have hslot := of_decide_eq_true h
          rw [CanonicalRow.slot_eq, hwr] at hslot
          exact hwho (hs.slot_inj hvr hv hslot).2.symm
        rw [if_neg hwho, hnone, hkept]
        cases t.slots.get? (slotOf key who) <;> rfl
  | annotate k history =>
      have hslot : slotOf key who = composite_storage_key k shell_id ↔
          key = k ∧ who = shell_id.getD zshrs := by
        rw [composite_eq_slotOf]
        constructor
        · exact hs.slot_inj hv hc
        · rintro ⟨rfl, rfl⟩
          rfl
      rw [apply, Table.get?_set_history]
      by_cases hwho : who = shell_id.getD zshrs
      · rw [if_pos hwho, leaves]
        exact if_congr (hslot.trans (and_iff_left hwho)) rfl rfl
      · rw [if_neg hwho, if_neg (fun h => hwho (hslot.mp h).2)]

end Change

theorem Op.Over.change {V : Names} {op : Op} (h : op.Over V) (now : Int) :
    (op.change now).Of V op.subsystem op.identity := by
  have hkeys := h.keys
  cases op with
  | upsert | upsert_tagged_with_attrs => exact ⟨hkeys _ List.mem_cons_self, rfl⟩
  | set_history => exact hkeys _ List.mem_cons_self
  | replace_subsystem_tagged | replace_subsystem_with_attrs =>
      intro r hr
      obtain ⟨p, hp, rfl⟩ := List.mem_map.mp hr
      exact ⟨hkeys _ (List.mem_map.mpr ⟨p, hp, rfl⟩), rfl⟩

theorem Op.leaves_eq (now : Int) (before : Text → Option CanonicalRow) (op : Op) (key : Text) :
    op.leaves now before key = (op.change now).leaves before key := by
  cases op with
  | upsert | upsert_tagged_with_attrs | set_history => rfl
  | replace_subsystem_tagged _ given | replace_subsystem_with_attrs _ given =>
      rw [Op.leaves, Op.change, Change.leaves, List.filter_map, List.getLast?_map]
      rfl

section Step

variable {V : Names} {rows : Rows} {e : Int × Op}

theorem Within.step (hw : Within V rows) (he : e.2.Over V) : Within V (step rows e) := by
  intro sub r hr
  by_cases hsub : sub = e.2.subsystem
  · subst hsub
    rw [table_step_self] at hr
    exact Change.within_apply (he.change e.1) (hw _) r hr
  · rw [table_step_ne rows e hsub] at hr
    exact hw sub r hr

theorem find_of_not (hw : Within V rows) {sub key who : Text} (hv : ¬ V sub key who) :
    find rows sub key who = none := by
  rw [find_eq_filter, Option.filter_eq_none_iff]
  rintro r hget hname
  obtain ⟨hkey, hwho⟩ := of_decide_eq_true hname
  apply hv
  rw [← hkey, ← hwho]
  apply hw sub r
  rw [CanonicalRow.slot_eq, hkey, hwho]
  exact hget

theorem find_of_name (hs : Separable V) (hw : Within V rows) {sub key who : Text} (hv : V sub key who) :
    find rows sub key who = (table rows sub).slots.get? (slotOf key who) := by
  rw [find_eq_filter]
  cases hget : (table rows sub).slots.get? (slotOf key who) with
  | none => rfl
  | some r =>
  have hslot : slotOf r.key r.identity = slotOf key who := by
    rw [← CanonicalRow.slot_eq]
    exact (table rows sub).filed _ r hget
  have hvr : V sub r.key r.identity := by
    apply hw sub r
    rw [CanonicalRow.slot_eq, hslot]
    exact hget
  exact Option.filter_some_pos (decide_eq_true (hs.slot_inj hvr hv hslot))

theorem zshrs_view (hs : Separable V) (hw : Within V rows) (sub : Text) :
    (rows_for rows sub).Perm ((rows_for_all_shells rows sub).filter fun r => r.identity = zshrs) := by
  have hsame : (table rows sub).slots.entries.filter (fun p => SHELL_ID_SEP ∉ p.1) =
      (table rows sub).slots.entries.filter ((fun r => decide (r.identity = zshrs)) ∘ Prod.snd) := by
    apply List.filter_congr
    intro p hp
    have hget := OrdMap.get?_eq_some_iff.mpr hp
    have hslot := (table rows sub).filed p.1 p.2 hget
    rw [← hslot] at hget
    rw [← hslot, Function.comp_apply, decide_eq_decide, CanonicalRow.slot_eq]
    exact hs.mem_slotOf (hw sub p.2 hget)
  have hall : (rows_for_all_shells rows sub).Perm (table rows sub).slots.values :=
    List.mergeSort_perm _ _
  refine (List.mergeSort_perm _ _).trans (List.Perm.trans ?_ (hall.filter _).symm)
  rw [hsame, OrdMap.values, List.filter_map]

theorem isolated_step (hs : Separable V) (hw : Within V rows) (he : e.2.Over V) : Isolated rows e := by
  have hw' := hw.step he
  obtain ⟨key', hkey'⟩ := he.shell
  refine ⟨?_, ?_, unique_row _, ?_, ?_⟩
  · intro sub key who hwho
    by_cases hv : V sub key who
    · rw [find_of_name hs hw' hv, find_of_name hs hw hv]
      by_cases hsub : sub = e.2.subsystem
      · subst hsub
        rw [table_step_self, Change.get?_apply hs (he.change e.1) hkey' hv]
        exact if_neg hwho
      · rw [table_step_ne rows e hsub]
    · rw [find_of_not hw' hv, find_of_not hw hv]
  · intro sub key
    by_cases hsub : sub = e.2.subsystem
    · subst hsub
      rw [if_pos rfl, Op.leaves_eq]
      by_cases hv : V e.2.subsystem key e.2.identity
      · rw [find_of_name hs hw' hv, table_step_self, Change.get?_apply hs (he.change e.1) hkey' hv]
        refine (if_pos rfl).trans (Change.leaves_congr _ ?_)
        exact (find_of_name hs hw hv).symm
      · rw [find_of_not hw' hv]
        refine (Change.leaves_of_not (he.change e.1) hv ?_).symm
        exact find_of_not hw hv
    · rw [if_neg hsub]
      by_cases hv : V sub key e.2.identity
      · rw [find_of_name hs hw' hv, find_of_name hs hw hv, table_step_ne rows e hsub]
      · rw [find_of_not hw' hv, find_of_not hw hv]
  · exact fun sub => zshrs_view hs hw' sub
  · intro hz key hkey
    have hv := he.keys key hkey
    rw [hz] at hv
    rw [find_of_name hs hw' hv, slotOf_zshrs]
    rfl

end Step

/-- A name and a value are written. -/
def put (sub key who : Text) : Int × Op := (0, .upsert_tagged_with_attrs sub key [] none (some who) none none)

theorem find_put (sub key who : Text) (rows : Rows) :
    find (step rows (put sub key who)) sub key who =
      some ⟨key, [], 0, none, some who, none, none, []⟩ := by
  have htable : table (step rows (put sub key who)) sub = _ := table_step_self rows (put sub key who)
  rw [find_eq_filter, htable, put, Op.change, Change.apply, Table.get?_insert]
  refine (congrArg _ (if_pos (composite_eq_slotOf key (some who)).symm)).trans ?_
  exact Option.filter_some_pos (decide_eq_true ⟨rfl, rfl⟩)

theorem over_put {V : Names} {sub key who : Text} (h : V sub key who) : (put sub key who).2.Over V where
  keys := by
    intro k hk
    rw [List.mem_singleton.mp hk]
    exact h
  shell := ⟨key, h⟩

/-- The catalog is federated, over some names, exactly if the storage tells their rows apart. -/
theorem federated_iff (V : Names) :
    (∀ es : List (Int × Op), (∀ e ∈ es, e.2.Over V) → Along step Isolated .empty es) ↔ Separable V := by
  constructor
  · intro h
    refine ⟨?_, ?_⟩
    · intro sub key hv hsep
      have hiso := (h [put sub key zshrs] (by simpa using over_put hv)).1
      have hrow := find_put sub key zshrs .empty
      have hmem := List.mem_of_find?_eq_some hrow
      have hview := (hiso.zshrs_view sub).mem_iff.mpr
        (List.mem_filter.mpr ⟨hmem, decide_eq_true rfl⟩)
      exact (mem_rows_for.mp hview).2 hsep
    · intro sub key who key' who' hv hv' hwho hwho' hsuffix
      by_contra hne
      have hover : (Op.replace_subsystem_tagged sub [] none (some who')).Over V :=
        ⟨by simp [Op.keys], key', hv'⟩
      have hrun := h [put sub key who, (0, .replace_subsystem_tagged sub [] none (some who'))] (by
        intro e he
        rcases List.mem_cons.mp he with rfl | he
        · exact over_put hv
        · rw [List.mem_singleton.mp he]
          exact hover)
      have hkept := hrun.2.1.others sub key who hne
      have htable : table (step (step .empty (put sub key who))
          (0, .replace_subsystem_tagged sub [] none (some who'))) sub = _ := table_step_self _ _
      rw [find_put, find_eq_filter, htable] at hkept
      have hcleared : keeps (some who') (slotOf key who) = false := by
        rw [keeps, if_neg hwho', Bool.not_eq_false', decide_eq_true_iff]
        rw [composite_eq_slotOf] at hsuffix
        exact hsuffix
      rw [Op.change, Change.apply, List.map_nil, List.foldl_nil, Table.get?_retain, Op.shell_id,
        hcleared] at hkept
      simp at hkept
  · intro hs es hover
    refine Along.of_invariant (P := fun _ e => e.2.Over V) (I := Within V) ?_ ?_
      (along_events.mpr hover) (within_empty V)
    · exact fun rows e he hw => hw.step he
    · exact fun rows e he hw => isolated_step hs hw he

theorem separable_of_free {V : Names} (hkey : ∀ sub key, V sub key zshrs → SHELL_ID_SEP ∉ key)
    (hwho : ∀ sub key who, V sub key who → SHELL_ID_SEP ∉ who) : Separable V where
  bare := hkey
  tagged := by
    intro sub key who key' who' hv hv' hne hne' hsuffix
    rw [composite_eq_slotOf, Option.getD_some, slotOf_foreign hne] at hsuffix
    -- Both ids stand after the last separator of the slot.
    rcases List.suffix_or_suffix_of_suffix hsuffix (List.suffix_append key _) with h | h
    · rcases List.suffix_cons_iff.mp h with h | h
      · exact (List.cons.inj h).2.symm
      · exact absurd (h.subset List.mem_cons_self) (hwho sub key who hv)
    · rcases List.suffix_cons_iff.mp h with h | h
      · exact (List.cons.inj h).2
      · exact absurd (h.subset List.mem_cons_self) (hwho sub key' who' hv')

/-- A key of zshrs that spells another shell's slot takes its row. -/
theorem bash_row_taken : ¬ ∀ es : List (Int × Op), Along step Isolated .empty es := by
  intro h
  let bash : Text := ['b', 'a', 's', 'h']
  let write : Op := .upsert_tagged_with_attrs ['a', 'l', 'i', 'a', 's'] ['l', 'l'] ['1'] none (some bash) none none
  let taken : Op := .upsert ['a', 'l', 'i', 'a', 's'] ['l', 'l', SHELL_ID_SEP, 'b', 'a', 's', 'h'] ['2'] none
  have hrun := h [(1, write), (2, taken)]
  have hkept := hrun.2.1.others ['a', 'l', 'i', 'a', 's'] ['l', 'l'] bash (by decide)
  rw [find_eq_filter, find_eq_filter] at hkept
  revert hkept
  decide

end Zshrs.Daemon.Canonical
