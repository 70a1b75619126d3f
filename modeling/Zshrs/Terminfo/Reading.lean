import Mathlib.Data.Char
import Mathlib.Data.List.DropRight
import Mathlib.Data.List.Lex
import Zshrs.Lib.Bytes
import Zshrs.Lib.OrdMap
import Zshrs.Lib.Utf8
import Mathlib.Algebra.Group.Nat.Defs

namespace Zshrs.Terminfo

open Lib Lib.Bytes

abbrev Text := List Char

abbrev Bytes := List UInt8

/-- One compiled entry, as the file stores it. The tables that `tgetent` fills are not here. -/
structure TermEntry where
  names : List Text
  bools : List Int
  nums : List Int
  strs : List (Option Bytes)
  ext_bools : OrdMap Text Bool
  ext_nums : OrdMap Text Int
  ext_strs : OrdMap Text Bytes
  fix_sgr0 : Option Bytes

def MAGIC_16 : Int := 0o432

def MAGIC_32 : Int := 0o1036

def ABSENT : Int := -1

def read_i16 (b : Bytes) (p : Nat) : Option Int := do
  let hi ← b[p + 1]?
  let lo ← b[p]?
  return signed [lo, hi]

def read_i32 (b : Bytes) (p : Nat) : Option Int := (getRange b p 4).map signed

def num_at (b : Bytes) (p : Nat) (wide : Bool) : Option Int := if wide then read_i32 b p else read_i16 b p

def cstr_at (table : Bytes) (off : Nat) : Option Bytes :=
  if off ≤ table.length then some ((table.drop off).takeWhile (· ≠ 0)) else none

/-- A count of a header: a negative one counts nothing. -/
def count_at (b : Bytes) (p : Nat) : Option Nat := (read_i16 b p).map Int.toNat

def wide_of (magic : Int) : Option Bool :=
  if magic % 2 ^ 16 = MAGIC_16 then some false
  else if magic % 2 ^ 16 = MAGIC_32 then some true
  else none

def num_width (wide : Bool) : Nat := if wide then 4 else 2

def even (p : Nat) : Nat := if p % 2 ≠ 0 then p + 1 else p

def names_of (names_raw : Bytes) : List Text :=
  ((Utf8.lossy names_raw).rdropWhile (· = '\x00')).splitOn '|'

/-- A string value: a negative offset is an absent or a cancelled one. -/
def value_at (table : Bytes) (o : Int) : Option Bytes := if o < 0 then none else cstr_at table o.toNat

/-- An extended name. -/
def name_at (table : Bytes) (o : Int) : Text :=
  if o < 0 then [] else ((cstr_at table o.toNat).map Utf8.lossy).getD []

def insert_one {α : Type} (m : OrdMap Text α) (n : Text) (value : Option α) : OrdMap Text α :=
  if n = [] then m
  else
    match value with
    | none => m
    | some v => m.insert n v

/-- One of the three loops that hand out the extended names, each to its value. -/
def insert_named {α : Type} (count : Nat) (names : List Text) (value : Nat → Option α)
    (m : OrdMap Text α) : OrdMap Text α :=
  (List.range count).foldl (fun m i =>
    match names[i]? with
    | none => m
    | some n => insert_one m n (value i)) m

/-- The extended block at `p`; a truncated one leaves the entry as it is. -/
def parse_extended (e : TermEntry) (b : Bytes) (p : Nat) (wide : Bool) : TermEntry :=
  Option.getD (do
    let p := even p
    let ext_bool ← count_at b p
    let ext_num ← count_at b (p + 2)
    let ext_str ← count_at b (p + 4)
    let ext_off ← count_at b (p + 6)
    let ext_size ← count_at b (p + 8)
    let p := p + 10
    let bools ← getRange b p ext_bool
    let p := even (p + ext_bool)
    let nums ← (List.range ext_num).mapM fun i => num_at b (p + i * num_width wide) wide
    let p := p + ext_num * num_width wide
    let offsets ← (List.range ext_off).mapM fun i => read_i16 b (p + i * 2)
    let p := p + ext_off * 2
    let table ← getRange b p ext_size
    let values := (offsets.take ext_str).map (value_at table)
    -- every offset counts from the start of the table, those of the names too
    let names := (offsets.drop ext_str).map (name_at table)
    some { e with
      ext_bools := insert_named ext_bool names
        (fun i => some ((bools.map fun v => signed [v]).getD i 0 = 1)) e.ext_bools
      ext_nums := insert_named ext_num (names.drop ext_bool)
        (fun i => some (nums.getD i ABSENT)) e.ext_nums
      ext_strs := insert_named ext_str (names.drop (ext_bool + ext_num))
        (fun i => values.getD i none) e.ext_strs }) e

def parse (b : Bytes) : Option TermEntry := do
  let magic ← read_i16 b 0
  let wide ← wide_of magic
  let name_size ← count_at b 2
  let bool_count ← count_at b 4
  let num_count ← count_at b 6
  let str_count ← count_at b 8
  let table_size ← count_at b 10
  let p := 12
  let names_raw ← getRange b p name_size
  let p := p + name_size
  let bools ← getRange b p bool_count
  let p := even (p + bool_count)
  let nums ← (List.range num_count).mapM fun i => num_at b (p + i * num_width wide) wide
  let p := p + num_count * num_width wide
  let offsets ← (List.range str_count).mapM fun i => read_i16 b (p + i * 2)
  let p := p + str_count * 2
  let table ← getRange b p table_size
  let p := p + table_size
  let e := {
    names := names_of names_raw
    bools := bools.map fun v => signed [v]
    nums
    strs := offsets.map (value_at table)
    ext_bools := .empty
    ext_nums := .empty
    ext_strs := .empty
    fix_sgr0 := none }
  some (parse_extended e b p wide)

/-- A string capability: a description may leave it out or cancel it. -/
inductive StrCap where
  | present (v : Bytes)
  | absent
  | cancelled
  deriving DecidableEq

def StrCap.value : StrCap → Option Bytes
  | .present v => some v
  | .absent => none
  | .cancelled => none

/-- The bytes of a capability in its string table. -/
def StrCap.text : StrCap → Bytes
  | .present v => v ++ [0]
  | .absent => []
  | .cancelled => []

def text_table (caps : List StrCap) : Bytes := caps.flatMap StrCap.text

/-- The offsets of capabilities whose texts start at `off`. -/
def offsets : Nat → List StrCap → List Int
  | _, [] => []
  | off, .present v :: caps => off :: offsets (off + (v.length + 1)) caps
  | off, .absent :: caps => ABSENT :: offsets off caps
  | off, .cancelled :: caps => -2 :: offsets off caps

def shorts (ns : List Int) : Bytes := ns.flatMap (ofSigned 2)

def pad (n : Nat) : Bytes := if n % 2 ≠ 0 then [0] else []

def name_cap (n : Text) : StrCap := .present (Utf8.encode n)

/-- A name that a compiled entry can hold. -/
def Plain (n : Text) : Prop := n ≠ [] ∧ '\x00' ∉ n

/-- The three kinds of extended capabilities. -/
structure Extended where
  bools : OrdMap Text Int
  nums : OrdMap Text Int
  strs : OrdMap Text StrCap

def Extended.names (x : Extended) : List Text :=
  x.bools.entries.map Prod.fst ++ (x.nums.entries.map Prod.fst ++ x.strs.entries.map Prod.fst)

def Extended.name_caps (x : Extended) : List StrCap := x.names.map name_cap

def Extended.caps (x : Extended) : List StrCap := x.strs.entries.map Prod.snd

/-- The extended string table: the values, and behind them the names. -/
def Extended.table (x : Extended) : Bytes := text_table x.caps ++ text_table x.name_caps

/-- How many texts the extended string table holds. -/
def Extended.items (x : Extended) : Nat := (x.caps.filterMap StrCap.value).length + x.names.length

def size_fits (n : Nat) : Prop := n < 2 ^ 15

instance (n : Nat) : Decidable (size_fits n) := inferInstanceAs (Decidable (n < 2 ^ 15))

/-- An entry that the format has room for. -/
structure Entry where
  wide : Bool
  names : List Text
  bools : List Int
  nums : List Int
  strs : List StrCap
  ext : Extended
  names_ne : names ≠ []
  names_plain : ∀ n ∈ names, '|' ∉ n ∧ '\x00' ∉ n
  bools_fit : ∀ v ∈ bools, Fits 1 v
  nums_fit : ∀ v ∈ nums, Fits (num_width wide) v
  strs_plain : ∀ v, StrCap.present v ∈ strs → 0 ∉ v
  ext_names_plain : ∀ n ∈ ext.names, Plain n
  ext_bools_fit : ∀ p ∈ ext.bools.entries, Fits 1 p.2
  ext_nums_fit : ∀ p ∈ ext.nums.entries, Fits (num_width wide) p.2
  ext_strs_plain : ∀ v, StrCap.present v ∈ ext.caps → 0 ∉ v
  names_size : size_fits ((Utf8.encode (['|'].intercalate names)).length + 1)
  bools_size : size_fits bools.length
  nums_size : size_fits nums.length
  strs_size : size_fits strs.length
  table_size : size_fits (text_table strs).length
  ext_size : size_fits ext.table.length
  ext_bools_size : size_fits ext.bools.entries.length
  ext_nums_size : size_fits ext.nums.entries.length
  ext_strs_size : size_fits ext.strs.entries.length
  ext_items_size : size_fits ext.items

/-- What a reader of the entry should hold. -/
def Entry.term (e : Entry) : TermEntry where
  names := e.names
  bools := e.bools
  nums := e.nums
  strs := e.strs.map StrCap.value
  ext_bools := e.ext.bools.filterMap fun v => some (decide (v = 1))
  ext_nums := e.ext.nums.filterMap some
  ext_strs := e.ext.strs.filterMap StrCap.value
  fix_sgr0 := none

def Entry.names_raw (e : Entry) : Bytes := Utf8.encode (['|'].intercalate e.names) ++ [0]

def Entry.magic (e : Entry) : Int := if e.wide then MAGIC_32 else MAGIC_16

def Entry.header (e : Entry) : Bytes :=
  shorts [e.magic, e.names_raw.length, e.bools.length, e.nums.length, e.strs.length,
    (text_table e.strs).length]

def Entry.num_bytes (e : Entry) (ns : List Int) : Bytes := ns.flatMap (ofSigned (num_width e.wide))

def Extended.header (x : Extended) : Bytes :=
  shorts [x.bools.entries.length, x.nums.entries.length, x.strs.entries.length,
    x.items, x.table.length]

/-- The offsets of the values, the absent ones too, count from the start of the table, those of the names from
the end of the values. -/
def Extended.offsets (x : Extended) : List Int := Terminfo.offsets 0 x.caps ++ Terminfo.offsets 0 x.name_caps

def Entry.ext_block (e : Entry) : Bytes :=
  e.ext.header ++ ((e.ext.bools.values.flatMap (ofSigned 1) ++ pad e.ext.bools.values.length) ++
    (e.num_bytes e.ext.nums.values ++
      (shorts e.ext.offsets ++ e.ext.table)))

def Entry.standard (e : Entry) : Bytes :=
  e.header ++ (e.names_raw ++ ((e.bools.flatMap (ofSigned 1) ++ pad (e.names_raw.length + e.bools.length)) ++
    (e.num_bytes e.nums ++ (shorts (offsets 0 e.strs) ++ text_table e.strs))))

/-- The compiled form; an entry of the predefined capabilities alone has no extended block. -/
def Entry.write (e : Entry) : Bytes :=
  e.standard ++ if e.ext.names = [] then [] else pad e.standard.length ++ e.ext_block

theorem read_i16_stands {b : Bytes} {p : Nat} {v : Int} (h : Stands b p (ofSigned 2 v)) (hv : Fits 2 v) :
    read_i16 b p = some v := by
  have hsigned := signed_ofSigned hv
  have hlen := length_ofSigned 2 v
  generalize ofSigned 2 v = s at h hsigned hlen
  obtain ⟨lo, hi, rfl⟩ := List.length_eq_two.mp hlen
  have hlo : b[p]? = some lo := h.getElem? (i := 0) (by rw [hlen]; decide)
  have hhi : b[p + 1]? = some hi := h.getElem? (i := 1) (by rw [hlen]; decide)
  rw [read_i16, hhi, hlo]
  exact congrArg some hsigned

theorem num_at_stands {b : Bytes} {p : Nat} {wide : Bool} {v : Int}
    (h : Stands b p (ofSigned (num_width wide) v)) (hv : Fits (num_width wide) v) :
    num_at b p wide = some v := by
  cases wide with
  | false => exact read_i16_stands h hv
  | true =>
      have hv : Fits 4 v := hv
      have h : Stands b p (ofSigned 4 v) := h
      have hlen := length_ofSigned 4 v
      show (getRange b p 4).map signed = some v
      rw [h.getRange hlen.symm, Option.map_some, signed_ofSigned hv]

theorem fits_of_size {n : Nat} (h : size_fits n) : Fits 2 (n : Int) := by
  have h : n < 2 ^ 15 := h
  constructor <;> omega

theorem count_at_stands {b : Bytes} {p n : Nat} (h : Stands b p (ofSigned 2 n)) (hn : size_fits n) :
    count_at b p = some n := by
  rw [count_at, read_i16_stands h (fits_of_size hn)]
  rfl

/-- A short of a header. -/
theorem Stands.short {b : Bytes} {p : Nat} {ns : List Int} (h : Stands b p (shorts ns)) {i : Nat}
    (hi : i < ns.length) : Stands b (p + i * 2) (ofSigned 2 (ns.get ⟨i, hi⟩)) :=
  h.field (fun _ _ => length_ofSigned 2 _) hi

theorem nums_stand {b : Bytes} {p : Nat} {wide : Bool} {ns : List Int}
    (h : Stands b p (ns.flatMap (ofSigned (num_width wide)))) (hns : ∀ v ∈ ns, Fits (num_width wide) v) :
    (List.range ns.length).mapM (fun i => num_at b (p + i * num_width wide) wide) = some ns := by
  apply mapM_range
  intro i hi
  have hfield := h.field (fun _ _ => length_ofSigned (num_width wide) _) hi
  exact num_at_stands hfield (hns _ (List.get_mem ns ⟨i, hi⟩))

theorem shorts_stand {b : Bytes} {p : Nat} {ns : List Int} (h : Stands b p (shorts ns))
    (hns : ∀ v ∈ ns, Fits 2 v) :
    (List.range ns.length).mapM (fun i => read_i16 b (p + i * 2)) = some ns := by
  apply mapM_range
  intro i hi
  exact read_i16_stands (Stands.short h hi) (hns _ (List.get_mem ns ⟨i, hi⟩))

theorem length_shorts (ns : List Int) : (shorts ns).length = ns.length * 2 :=
  length_flatMap_width fun _ _ => length_ofSigned 2 _

theorem map_signed_bytes {ns : List Int} (hns : ∀ v ∈ ns, Fits 1 v) :
    (ns.flatMap (ofSigned 1)).map (fun v => signed [v]) = ns := by
  induction ns with
  | nil => rfl
  | cons n ns ih =>
      have hsigned := signed_ofSigned (hns n List.mem_cons_self)
      have hlen := length_ofSigned 1 n
      rw [List.flatMap_cons]
      generalize ofSigned 1 n = s at hsigned hlen ⊢
      obtain ⟨v, rfl⟩ := List.length_eq_one_iff.mp hlen
      rw [List.map_append, ih fun m hm => hns m (List.mem_cons_of_mem n hm)]
      show signed [v] :: ns = n :: ns
      rw [hsigned]

theorem offsets_length (off : Nat) (caps : List StrCap) : (offsets off caps).length = caps.length := by
  induction caps generalizing off with
  | nil => rfl
  | cons cap caps ih => cases cap <;> exact congrArg (· + 1) (ih _)

theorem length_text_present (v : Bytes) (caps : List StrCap) :
    (text_table (.present v :: caps)).length = v.length + 1 + (text_table caps).length := by
  show (v ++ [0] ++ text_table caps).length = _
  rw [List.length_append, List.length_append, List.length_singleton]

theorem offsets_fit {off n : Nat} {caps : List StrCap} (h : off + (text_table caps).length ≤ n)
    (hn : size_fits n) : ∀ o ∈ offsets off caps, Fits 2 o := by
  induction caps generalizing off with
  | nil => exact fun o ho => absurd ho List.not_mem_nil
  | cons cap caps ih =>
      intro o ho
      cases cap with
      | present v =>
          rw [length_text_present] at h
          rcases List.mem_cons.mp ho with rfl | ho
          · have hoff : size_fits off := Nat.lt_of_le_of_lt (by omega) hn
            exact fits_of_size hoff
          · exact ih (by omega) o ho
      | absent =>
          rcases List.mem_cons.mp ho with rfl | ho
          · exact (by decide : Fits 2 ABSENT)
          · exact ih h o ho
      | cancelled =>
          rcases List.mem_cons.mp ho with rfl | ho
          · exact (by decide : Fits 2 (-2))
          · exact ih h o ho

theorem cstr_at_stands (pre : Bytes) {v : Bytes} (hv : 0 ∉ v) (post : Bytes) :
    cstr_at (pre ++ (v ++ [0] ++ post)) pre.length = some v := by
  have hle : pre.length ≤ (pre ++ (v ++ [0] ++ post)).length := by
    rw [List.length_append]
    exact Nat.le_add_right _ _
  have hne : ∀ x ∈ v, decide (x ≠ 0) = true := by
    intro x hx
    exact decide_eq_true (by rintro rfl; exact hv hx)
  rw [cstr_at, if_pos hle, List.drop_left, List.append_assoc,
    List.takeWhile_append_of_pos hne]
  show some (v ++ []) = some v
  rw [List.append_nil]

/-- Every text of a table is found at its offset, whatever stands before and after the table. -/
theorem value_at_offsets {caps : List StrCap} (hplain : ∀ v, StrCap.present v ∈ caps → 0 ∉ v)
    (pre post : Bytes) :
    (offsets pre.length caps).map (value_at (pre ++ (text_table caps ++ post))) =
      caps.map StrCap.value := by
  induction caps generalizing pre with
  | nil => rfl
  | cons cap caps ih =>
      have hrest : ∀ v, StrCap.present v ∈ caps → 0 ∉ v :=
        fun v hv => hplain v (List.mem_cons_of_mem cap hv)
      cases cap with
      | present v =>
          have htable : pre ++ (text_table (.present v :: caps) ++ post) =
              (pre ++ (v ++ [0])) ++ (text_table caps ++ post) := by
            show pre ++ ((v ++ [0]) ++ text_table caps ++ post) = _
            simp only [List.append_assoc]
          have hlen : pre.length + (v.length + 1) = (pre ++ (v ++ [0])).length := by
            rw [List.length_append, List.length_append, List.length_singleton]
          have hfirst : value_at (pre ++ (text_table (.present v :: caps) ++ post)) pre.length =
              some v := by
            have hneg : ¬ ((pre.length : Int) < 0) := Int.not_lt.mpr (Int.natCast_nonneg _)
            rw [value_at, if_neg hneg, Int.toNat_natCast, htable, List.append_assoc pre]
            exact cstr_at_stands pre (hplain v List.mem_cons_self) _
          rw [offsets, List.map_cons, List.map_cons, hfirst, htable, hlen, ih hrest]
          rfl
      | absent => exact congrArg (none :: ·) (ih hrest pre)
      | cancelled => exact congrArg (none :: ·) (ih hrest pre)

end Zshrs.Terminfo
