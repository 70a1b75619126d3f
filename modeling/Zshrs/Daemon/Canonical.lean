import Mathlib.Data.Char
import Mathlib.Data.List.Lex
import Mathlib.Data.Option.Basic
import Zshrs.Lib.OrdMap
import Zshrs.Lib.Runs
import Mathlib.Algebra.Group.Nat.Defs

namespace Zshrs.Daemon.Canonical

open Lib Lib.Runs

abbrev Text := List Char

def SHELL_ID_SEP : Char := '\x1f'

def zshrs : Text := ['z', 's', 'h', 'r', 's']

/-- The storage slot of a key that the shell `who` defines. -/
def slotOf (key who : Text) : Text := if who = zshrs then key else key ++ SHELL_ID_SEP :: who

theorem slotOf_zshrs (key : Text) : slotOf key zshrs = key := by simp [slotOf]

theorem slotOf_foreign {who : Text} (h : who ≠ zshrs) (key : Text) :
    slotOf key who = key ++ SHELL_ID_SEP :: who := by simp [slotOf, h]

def composite_storage_key (key : Text) (shell_id : Option Text) : Text :=
  match shell_id with
  | none => key
  | some sid => if sid = zshrs then key else key ++ SHELL_ID_SEP :: sid

theorem composite_eq_slotOf (key : Text) (shell_id : Option Text) :
    composite_storage_key key shell_id = slotOf key (shell_id.getD zshrs) := by
  cases shell_id with
  | none => simp [composite_storage_key, slotOf]
  | some sid => rfl

/-- The number that a key starts with, where it is a `u64`. -/
def lead (key : Text) : Option Nat :=
  let digits := key.takeWhile Char.isDigit
  if digits = [] then none
  else
    let n := Nat.ofDigitChars 10 digits 0
    if n < 2 ^ 64 then some n else none

def key_order (a b : Text) : Ordering :=
  match lead a, lead b with
  | some x, some y => (compareOfLessAndEq x y).then (compareOfLessAndEq a b)
  | _, _ => compareOfLessAndEq a b

/-- One definition of a key: its value, file, line and call chain. -/
abbrev Definition := Text × Option Text × Option UInt32 × Option Text

structure CanonicalRow where
  key : Text
  value : Text
  set_at_ns : Int
  set_by_shell : Option Int64
  shell_id : Option Text
  file : Option Text
  line : Option UInt32
  history : List Definition
  deriving DecidableEq

/-- The shell that a row belongs to: a row without an id is one of zshrs. -/
def CanonicalRow.identity (row : CanonicalRow) : Text := row.shell_id.getD zshrs

def CanonicalRow.slot (row : CanonicalRow) : Text := composite_storage_key row.key row.shell_id

theorem CanonicalRow.slot_eq (row : CanonicalRow) : row.slot = slotOf row.key row.identity :=
  composite_eq_slotOf row.key row.shell_id

/-- The rows of a subsystem, each in its own slot. -/
structure Table where
  slots : OrdMap Text CanonicalRow
  filed : ∀ slot row, slots.get? slot = some row → row.slot = slot

namespace Table

def empty : Table := ⟨.empty, by simp⟩

def insert (t : Table) (row : CanonicalRow) : Table where
  slots := t.slots.insert row.slot row
  filed := by
    intro slot r h
    rw [OrdMap.get?_insert] at h
    split at h
    · rename_i hslot
      cases h
      exact hslot.symm
    · exact t.filed slot r h

def retain (t : Table) (keep : Text → Bool) : Table where
  slots := t.slots.retain (fun slot _ => keep slot)
  filed := by
    intro slot r h
    rw [OrdMap.get?_retain] at h
    exact t.filed slot r (Option.filter_eq_some_iff.mp h).1

def set_history (t : Table) (slot : Text) (history : List Definition) : Table where
  slots := t.slots.modify slot (fun row => { row with history := history })
  filed := by
    intro k r h
    rw [OrdMap.get?_modify] at h
    split at h
    · obtain ⟨row, hrow, rfl⟩ := Option.map_eq_some_iff.mp h
      exact t.filed k row hrow
    · exact t.filed k r h

@[simp] theorem get?_empty (slot : Text) : empty.slots.get? slot = none := rfl

@[simp] theorem get?_insert (t : Table) (row : CanonicalRow) (slot : Text) :
    (t.insert row).slots.get? slot = if slot = row.slot then some row else t.slots.get? slot := by
  rw [insert, OrdMap.get?_insert]
  congr

@[simp] theorem get?_retain (t : Table) (keep : Text → Bool) (slot : Text) :
    (t.retain keep).slots.get? slot = (t.slots.get? slot).filter (fun _ => keep slot) :=
  OrdMap.get?_retain _ _ _

@[simp] theorem get?_set_history (t : Table) (k : Text) (history : List Definition) (slot : Text) :
    (t.set_history k history).slots.get? slot =
      if slot = k then (t.slots.get? slot).map (fun row => { row with history := history })
      else t.slots.get? slot := by
  rw [set_history, OrdMap.get?_modify]
  congr

/-- What an inserting loop leaves in a slot. -/
theorem get?_insertAll (given : List CanonicalRow) (t : Table) (slot : Text) :
    (given.foldl Table.insert t).slots.get? slot =
      (given.filter (fun r => r.slot = slot)).getLast?.or (t.slots.get? slot) := by
  induction given generalizing t with
  | nil => rfl
  | cons r given ih =>
      rw [List.foldl_cons, ih, Table.get?_insert]
      by_cases hslot : r.slot = slot
      · rw [List.filter_cons_of_pos (by simpa using hslot), List.getLast?_cons, if_pos hslot.symm]
        cases (given.filter fun r => r.slot = slot).getLast? <;> rfl
      · rw [List.filter_cons_of_neg (by simpa using hslot), if_neg (Ne.symm hslot)]

/-- A row is found in its slot and nowhere else. -/
theorem mem_values (t : Table) {row : CanonicalRow} :
    row ∈ t.slots.values ↔ t.slots.get? row.slot = some row := by
  rw [OrdMap.mem_values]
  constructor
  · rintro ⟨slot, h⟩
    rw [t.filed slot row h]
    exact h
  · intro h
    exact ⟨_, h⟩

end Table

/-- subsystem → slot → row -/
abbrev Rows := OrdMap Text Table

def table (rows : Rows) (subsystem : Text) : Table := (rows.get? subsystem).getD .empty

@[simp] theorem table_insert (rows : Rows) (subsystem sub : Text) (t : Table) :
    table (rows.insert subsystem t) sub = if sub = subsystem then t else table rows sub := by
  rw [table, OrdMap.get?_insert]
  split <;> rfl

@[simp] theorem table_modify (rows : Rows) (subsystem sub : Text) (f : Table → Table)
    (hf : f .empty = .empty) :
    table (rows.modify subsystem f) sub = if sub = subsystem then f (table rows sub) else table rows sub := by
  rw [table, OrdMap.get?_modify]
  split
  · rw [table]
    cases rows.get? sub with
    | none => exact hf.symm
    | some t => rfl
  · rfl

def upsert_tagged_with_attrs (now : Int) (rows : Rows) (subsystem key json_value : Text)
    (set_by_shell : Option UInt64) (shell_id file : Option Text) (line : Option UInt32) : Rows :=
  let row : CanonicalRow :=
    ⟨key, json_value, now, set_by_shell.map UInt64.toInt64, shell_id, file, line, []⟩
  rows.insert subsystem ((table rows subsystem).insert row)

def upsert_tagged (now : Int) (rows : Rows) (subsystem key json_value : Text)
    (set_by_shell : Option UInt64) (shell_id : Option Text) : Rows :=
  upsert_tagged_with_attrs now rows subsystem key json_value set_by_shell shell_id none none

def upsert (now : Int) (rows : Rows) (subsystem key json_value : Text)
    (set_by_shell : Option UInt64) : Rows :=
  upsert_tagged now rows subsystem key json_value set_by_shell none

def set_history (rows : Rows) (subsystem key : Text) (shell_id : Option Text)
    (history : List Definition) : Rows :=
  rows.modify subsystem (·.set_history (composite_storage_key key shell_id) history)

/-- The slots that a replace for a shell leaves alone. -/
def keeps (shell_id : Option Text) (slot : Text) : Bool :=
  match shell_id with
  | none => SHELL_ID_SEP ∈ slot
  | some sid =>
    if sid = zshrs then SHELL_ID_SEP ∈ slot else !decide (SHELL_ID_SEP :: sid <:+ slot)

/-- A row as the callers give it: key, value, file, line. -/
abbrev CatalogRow := Text × Text × Option Text × Option UInt32

def CatalogRow.row (now : Int) (set_by_shell : Option UInt64) (shell_id : Option Text) :
    CatalogRow → CanonicalRow
  | (k, v, file, line) => ⟨k, v, now, set_by_shell.map UInt64.toInt64, shell_id, file, line, []⟩

def replace_subsystem_with_attrs (now : Int) (rows : Rows) (subsystem : Text) (given : List CatalogRow)
    (set_by_shell : Option UInt64) (shell_id : Option Text) : Rows :=
  let cleared := (table rows subsystem).retain (keeps shell_id)
  rows.insert subsystem
    (given.foldl (fun t r => t.insert (CatalogRow.row now set_by_shell shell_id r)) cleared)

def replace_subsystem_tagged (now : Int) (rows : Rows) (subsystem : Text) (given : List (Text × Text))
    (set_by_shell : Option UInt64) (shell_id : Option Text) : Rows :=
  replace_subsystem_with_attrs now rows subsystem (given.map fun p => (p.1, p.2, none, none)) set_by_shell
    shell_id

def replace_subsystem (now : Int) (rows : Rows) (subsystem : Text) (given : List (Text × Text))
    (set_by_shell : Option UInt64) : Rows :=
  replace_subsystem_tagged now rows subsystem given set_by_shell none

def sortByKey (rows : List CanonicalRow) : List CanonicalRow :=
  rows.mergeSort (fun a b => (key_order a.key b.key).isLE)

def rows_for (rows : Rows) (subsystem : Text) : List CanonicalRow :=
  sortByKey (((table rows subsystem).slots.entries.filter fun p => SHELL_ID_SEP ∉ p.1).map Prod.snd)

def rows_for_all_shells (rows : Rows) (subsystem : Text) : List CanonicalRow :=
  sortByKey (table rows subsystem).slots.values

def row (rows : Rows) (subsystem key : Text) : Option CanonicalRow :=
  (table rows subsystem).slots.get? key

/-- The calls that change the catalog. -/
inductive Op
  | upsert (subsystem key json_value : Text) (set_by_shell : Option UInt64)
  | upsert_tagged_with_attrs (subsystem key json_value : Text) (set_by_shell : Option UInt64)
      (shell_id file : Option Text) (line : Option UInt32)
  | replace_subsystem_tagged (subsystem : Text) (given : List (Text × Text))
      (set_by_shell : Option UInt64) (shell_id : Option Text)
  | replace_subsystem_with_attrs (subsystem : Text) (given : List CatalogRow)
      (set_by_shell : Option UInt64) (shell_id : Option Text)
  | set_history (subsystem key : Text) (shell_id : Option Text) (history : List Definition)

/-- A call and the time it is made at. -/
def step (rows : Rows) (e : Int × Op) : Rows :=
  match e.2 with
  | .upsert subsystem key json_value by_shell =>
    upsert e.1 rows subsystem key json_value by_shell
  | .upsert_tagged_with_attrs subsystem key json_value by_shell shell_id file line =>
    upsert_tagged_with_attrs e.1 rows subsystem key json_value by_shell shell_id file line
  | .replace_subsystem_tagged subsystem given by_shell shell_id =>
    replace_subsystem_tagged e.1 rows subsystem given by_shell shell_id
  | .replace_subsystem_with_attrs subsystem given by_shell shell_id =>
    replace_subsystem_with_attrs e.1 rows subsystem given by_shell shell_id
  | .set_history subsystem key shell_id history => set_history rows subsystem key shell_id history

theorem mem_rows_for_all_shells {rows : Rows} {subsystem : Text} {r : CanonicalRow} :
    r ∈ rows_for_all_shells rows subsystem ↔ (table rows subsystem).slots.get? r.slot = some r := by
  rw [rows_for_all_shells, sortByKey, List.mem_mergeSort, Table.mem_values]

theorem mem_rows_for {rows : Rows} {subsystem : Text} {r : CanonicalRow} :
    r ∈ rows_for rows subsystem ↔ r ∈ rows_for_all_shells rows subsystem ∧ SHELL_ID_SEP ∉ r.slot := by
  rw [mem_rows_for_all_shells, rows_for, sortByKey, List.mem_mergeSort, List.mem_map]
  constructor
  · rintro ⟨⟨slot, row⟩, h, rfl⟩
    obtain ⟨hmem, hslot⟩ := List.mem_filter.mp h
    have hget := OrdMap.get?_eq_some_iff.mpr hmem
    rw [(table rows subsystem).filed slot row hget]
    exact ⟨hget, by simpa using hslot⟩
  · rintro ⟨hget, hslot⟩
    exact ⟨(r.slot, r), List.mem_filter.mpr ⟨OrdMap.get?_eq_some_iff.mp hget, by simpa using hslot⟩, rfl⟩

end Zshrs.Daemon.Canonical
