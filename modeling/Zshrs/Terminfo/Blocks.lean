import Zshrs.Terminfo.Reading

namespace Zshrs.Terminfo

open Lib Lib.Bytes

/-- What the loops hand out: each name with its value, up to empty names and missing values. -/
def handed {α : Type} : List Text → List (Option α) → List (Text × α)
  | n :: names, some v :: values => if n = [] then handed names values else (n, v) :: handed names values
  | _ :: names, none :: values => handed names values
  | [], _ => []
  | _, [] => []

theorem handed_nil {α : Type} (names : List Text) : handed names ([] : List (Option α)) = [] := by
  cases names <;> rfl

theorem foldl_handed_cons {α : Type} (n : Text) (v : Option α) (names : List Text)
    (values : List (Option α)) (m : OrdMap Text α) :
    (handed (n :: names) (v :: values)).foldl (fun m p => m.insert p.1 p.2) m =
      (handed names values).foldl (fun m p => m.insert p.1 p.2) (insert_one m n v) := by
  cases v with
  | none =>
      rw [insert_one]
      split <;> rfl
  | some v =>
      rw [handed, insert_one]
      by_cases hn : n = []
      · rw [if_pos hn, if_pos hn]
      · rw [if_neg hn, if_neg hn]
        rfl

theorem insert_named_nil {α : Type} (count : Nat) (value : Nat → Option α) (m : OrdMap Text α) :
    insert_named count [] value m = m := by
  rw [insert_named]
  induction List.range count with
  | nil => rfl
  | cons i is ih => exact ih

theorem insert_named_cons {α : Type} (count : Nat) (n : Text) (names : List Text)
    (value : Nat → Option α) (m : OrdMap Text α) :
    insert_named (count + 1) (n :: names) value m =
      insert_named count names (fun i => value (i + 1)) (insert_one m n (value 0)) := by
  rw [insert_named, List.range_succ_eq_map, List.foldl_cons, List.foldl_map]
  rfl

theorem insert_named_none {α : Type} {count : Nat} {value : Nat → Option α}
    (hvalue : ∀ i < count, value i = none) (names : List Text) (m : OrdMap Text α) :
    insert_named count names value m = m := by
  induction count generalizing names value m with
  | zero => rfl
  | succ count ih =>
      cases names with
      | nil => exact insert_named_nil _ _ _
      | cons n names =>
          have hfirst : insert_one m n none = m := by
            rw [insert_one.eq_def]
            exact ite_self m
          rw [insert_named_cons, ih fun i hi => hvalue (i + 1) (Nat.succ_lt_succ hi),
            hvalue 0 (Nat.succ_pos _), hfirst]

theorem insert_named_eq {α : Type} {count : Nat} {values : List (Option α)} {value : Nat → Option α}
    (hcount : values.length ≤ count) (hvalue : ∀ i < count, value i = values.getD i none)
    (names : List Text) (m : OrdMap Text α) :
    insert_named count names value m =
      (handed names values).foldl (fun m p => m.insert p.1 p.2) m := by
  induction values generalizing count names value m with
  | nil =>
      rw [handed_nil, insert_named_none fun i hi => hvalue i hi]
      rfl
  | cons v values ih =>
      obtain ⟨count, rfl⟩ : ∃ n, count = n + 1 := ⟨count - 1, (Nat.sub_add_cancel (Nat.one_le_of_lt hcount)).symm⟩
      cases names with
      | nil =>
          rw [insert_named_nil]
          cases v <;> rfl
      | cons n names =>
          have hfirst : value 0 = v := hvalue 0 (Nat.succ_pos _)
          have hrest : ∀ i < count, value (i + 1) = values.getD i none :=
            fun i hi => hvalue (i + 1) (Nat.succ_lt_succ hi)
          rw [insert_named_cons, hfirst, ih (Nat.le_of_succ_le_succ hcount) hrest, foldl_handed_cons]

/-- The offsets that the reader takes: as many as the table has texts. -/
def Extended.taken (x : Extended) : List Int := x.offsets.take x.items

/-- The table that the reader takes: it begins right behind those offsets. -/
def Extended.table_taken (x : Extended) : Bytes :=
  (shorts (x.offsets.drop x.items) ++ x.table).take x.table.length

/-- The names that the reader finds: it looks for each of them at its offset from the start of the table. -/
def Entry.found (e : Entry) : List Text :=
  (e.ext.taken.drop e.ext.strs.entries.length).map (name_at e.ext.table_taken)

/-- The values of the extended strings that the reader finds. -/
def Entry.found_values (e : Entry) : List (Option Bytes) :=
  (e.ext.taken.take e.ext.strs.entries.length).map (value_at e.ext.table_taken)

/-- What the reader makes of an entry. -/
def Entry.read (e : Entry) : TermEntry :=
  { e.term with
    ext_bools := insert_named e.ext.bools.entries.length e.found
      (fun i => some (e.ext.bools.values.getD i 0 = 1)) .empty
    ext_nums := insert_named e.ext.nums.entries.length (e.found.drop e.ext.bools.entries.length)
      (fun i => some (e.ext.nums.values.getD i ABSENT)) .empty
    ext_strs := insert_named e.ext.strs.entries.length
      (e.found.drop (e.ext.bools.entries.length + e.ext.nums.entries.length))
      (fun i => e.found_values.getD i none) .empty }

theorem even_mod (p : Nat) : even p % 2 = 0 := by
  unfold even
  split <;> omega

theorem even_add {q : Nat} (hq : q % 2 = 0) (n : Nat) : even (q + n) = q + (n + (pad n).length) := by
  by_cases hn : n % 2 ≠ 0
  · rw [even, if_pos (by omega), pad, if_pos hn, List.length_singleton, Nat.add_assoc]
  · rw [even, if_neg (by omega), pad, if_neg hn, List.length_nil, Nat.add_zero]

theorem length_values {α : Type} (m : OrdMap Text α) : m.values.length = m.entries.length :=
  List.length_map _

theorem bool_bytes_length (ns : List Int) : (ns.flatMap (ofSigned 1)).length = ns.length := by
  rw [length_flatMap_width (fun _ _ => length_ofSigned 1 _), Nat.mul_one]

theorem num_bytes_length (e : Entry) (ns : List Int) :
    (e.num_bytes ns).length = ns.length * num_width e.wide :=
  length_flatMap_width fun _ _ => length_ofSigned _ _

/-- The flags of a block, and where the numbers start behind them. -/
theorem even_flags {q : Nat} (hq : q % 2 = 0) (ns : List Int) (n : Nat) :
    even (q + n + ns.length) = q + n + (ns.flatMap (ofSigned 1) ++ pad (n + ns.length)).length := by
  have hlen := bool_bytes_length ns
  rw [List.length_append, hlen, Nat.add_assoc, even_add hq]
  omega

namespace Extended

variable (x : Extended)

theorem length_caps : x.caps.length = x.strs.entries.length := List.length_map _

theorem length_name_caps : x.name_caps.length = x.names.length := List.length_map _

theorem length_offsets : x.offsets.length = x.strs.entries.length + x.names.length := by
  rw [offsets, List.length_append, offsets_length, offsets_length, length_caps, length_name_caps]

theorem length_table :
    x.table.length = (text_table x.caps).length + (text_table x.name_caps).length :=
  List.length_append

theorem offsets_fit (hsize : size_fits x.table.length) : ∀ o ∈ x.offsets, Fits 2 o := by
  intro o ho
  have hlen := x.length_table
  rcases List.mem_append.mp ho with ho | ho
  · exact Terminfo.offsets_fit (by omega) hsize o ho
  · exact Terminfo.offsets_fit (by omega) hsize o ho

theorem items_le : x.items ≤ x.offsets.length := by
  have hle := List.length_filterMap_le StrCap.value x.caps
  have hcaps := x.length_caps
  rw [length_offsets, items]
  omega

theorem length_taken : x.taken.length = x.items := List.length_take_of_le x.items_le

theorem shorts_offsets : shorts x.offsets = shorts x.taken ++ shorts (x.offsets.drop x.items) := by
  rw [shorts, shorts, shorts, ← List.flatMap_append, taken, List.take_append_drop]

end Extended

theorem parse_extended_block {e : Entry} {t : TermEntry} {b : Bytes} {p : Nat}
    (h : Stands b (even p) e.ext_block)
    (ht : t.ext_bools = .empty ∧ t.ext_nums = .empty ∧ t.ext_strs = .empty) :
    parse_extended t b p e.wide =
      { t with
        ext_bools := e.read.ext_bools
        ext_nums := e.read.ext_nums
        ext_strs := e.read.ext_strs } := by
  have hheader : Stands b (even p) e.ext.header := h.left
  have hlt {n : Nat} {m : Nat} (hn : 0 < m - n) : n < m := Nat.lt_of_sub_pos hn
  have h₀ : count_at b (even p) = some e.ext.bools.entries.length :=
    count_at_stands (Stands.short hheader (i := 0) (hlt (Nat.succ_pos _))) e.ext_bools_size
  have h₁ : count_at b (even p + 2) = some e.ext.nums.entries.length :=
    count_at_stands (Stands.short hheader (i := 1) (hlt (Nat.succ_pos _))) e.ext_nums_size
  have h₂ : count_at b (even p + 4) = some e.ext.strs.entries.length :=
    count_at_stands (Stands.short hheader (i := 2) (hlt (Nat.succ_pos _))) e.ext_strs_size
  have h₃ : count_at b (even p + 6) = some e.ext.items :=
    count_at_stands (Stands.short hheader (i := 3) (hlt (Nat.succ_pos _))) e.ext_items_size
  have h₄ : count_at b (even p + 8) = some e.ext.table.length :=
    count_at_stands (Stands.short hheader (i := 4) (hlt (Nat.succ_pos _))) e.ext_size
  have hbody := h.right (q := even p + 10) (by rw [Extended.header, length_shorts]; rfl)
  have h₅ := hbody.left.left.getRange (bool_bytes_length _).symm
  have hflags : even (even p + 10 + e.ext.bools.entries.length) = even p + 10 +
      (e.ext.bools.values.flatMap (ofSigned 1) ++ pad e.ext.bools.values.length).length := by
    have hq := even_mod p
    have heven := even_flags (q := even p + 10) (by omega) e.ext.bools.values 0
    rw [Nat.zero_add, length_values] at heven
    rw [length_values]
    exact heven
  have hnums := hbody.right hflags
  have h₆ := nums_stand hnums.left (by
    intro v hv
    obtain ⟨q, hq, rfl⟩ := List.mem_map.mp hv
    exact e.ext_nums_fit q hq)
  have hshorts := hnums.right (congrArg _ (num_bytes_length e e.ext.nums.values).symm)
  rw [e.ext.shorts_offsets, List.append_assoc] at hshorts
  have h₇ := shorts_stand hshorts.left fun o ho => e.ext.offsets_fit e.ext_size o (List.mem_of_mem_take ho)
  have htable := hshorts.right (congrArg _ (length_shorts e.ext.taken).symm)
  -- of what stands behind the offsets the reader takes as many bytes as the table has
  rw [← List.take_append_drop e.ext.table.length (shorts _ ++ e.ext.table)] at htable
  have h₈ := htable.left.getRange (n := e.ext.table.length) (by
    rw [List.length_take_of_le]
    rw [List.length_append]
    exact Nat.le_add_left _ _)
  rw [e.ext.length_taken] at h₇ h₈
  rw [length_values] at h₅ h₆ h₇ h₈
  have hbools : (e.ext.bools.values.flatMap (ofSigned 1)).map (fun v => signed [v]) = e.ext.bools.values := by
    apply map_signed_bytes
    intro v hv
    obtain ⟨q, hq, rfl⟩ := List.mem_map.mp hv
    exact e.ext_bools_fit q hq
  obtain ⟨hb, hn, hs⟩ := ht
  simp only [parse_extended, h₀, h₁, h₂, h₃, h₄, h₅, h₆, h₇, h₈, Option.bind_eq_bind, Option.bind_some,
    hbools, Option.getD_some, hb, hn, hs]
  rfl

theorem encode_nul (cs : List Char) : Utf8.encode cs ++ [0] = Utf8.encode (cs ++ ['\x00']) := by
  rw [Utf8.encode, Utf8.encode, List.flatMap_append]
  rfl

theorem nul_not_mem_join {names : List Text} (h : ∀ n ∈ names, '|' ∉ n ∧ '\x00' ∉ n) :
    '\x00' ∉ ['|'].intercalate names := by
  induction names with
  | nil => exact List.not_mem_nil
  | cons n names ih =>
      cases names with
      | nil =>
          rw [List.intercalate_singleton]
          exact (h n List.mem_cons_self).2
      | cons n' names =>
          intro hmem
          rw [List.intercalate_cons_cons, List.append_assoc] at hmem
          rcases List.mem_append.mp hmem with hmem | hmem
          · exact (h n List.mem_cons_self).2 hmem
          · rcases List.mem_append.mp hmem with hmem | hmem
            · exact absurd hmem (by decide)
            · exact ih (fun m hm => h m (List.mem_cons_of_mem n hm)) hmem

theorem names_of_raw (e : Entry) : names_of e.names_raw = e.names := by
  have hnul := nul_not_mem_join e.names_plain
  have hself : (['|'].intercalate e.names).rdropWhile (fun c => decide (c = '\x00')) =
      ['|'].intercalate e.names := by
    rw [List.rdropWhile_eq_self_iff]
    intro hne hlast
    apply hnul
    rw [← of_decide_eq_true hlast]
    exact List.getLast_mem hne
  rw [names_of, Entry.names_raw, encode_nul, Utf8.lossy_encode, List.rdropWhile_concat_pos _ _ _ rfl, hself,
    List.splitOn_intercalate _ (fun n hn => (e.names_plain n hn).1) e.names_ne]

theorem magic_fits (e : Entry) : Fits 2 e.magic := by
  rw [Entry.magic]
  split <;> decide

theorem wide_of_magic (e : Entry) : wide_of e.magic = some e.wide := by
  rw [Entry.magic]
  cases e.wide <;> rfl

/-- Without an extended block the reader finds no header for one. -/
theorem parse_extended_nothing {t : TermEntry} {b : Bytes} {p : Nat} (hp : b.length ≤ p) (wide : Bool) :
    parse_extended t b p wide = t := by
  have hle : p ≤ even p := by
    unfold even
    split <;> omega
  have hhi : b[even p + 1]? = none := List.getElem?_eq_none (by omega)
  have hcount : count_at b (even p) = none := by
    rw [count_at, read_i16, hhi]
    rfl
  simp only [parse_extended, hcount, Option.bind_eq_bind, Option.bind_none, Option.getD_none]

theorem write_stands (e : Entry) : Stands e.write 0 (e.header ++ (e.names_raw ++
    ((e.bools.flatMap (ofSigned 1) ++ pad (e.names_raw.length + e.bools.length)) ++
      (e.num_bytes e.nums ++ (shorts (offsets 0 e.strs) ++ (text_table e.strs ++
        if e.ext.names = [] then [] else pad e.standard.length ++ e.ext_block)))))) := by
  have hwrite : ∀ rest, e.standard ++ rest = e.header ++ (e.names_raw ++
      ((e.bools.flatMap (ofSigned 1) ++ pad (e.names_raw.length + e.bools.length)) ++
        (e.num_bytes e.nums ++ (shorts (offsets 0 e.strs) ++ (text_table e.strs ++ rest))))) := by
    intro rest
    rw [Entry.standard]
    simp only [List.append_assoc]
  rw [← hwrite]
  exact stands_zero e.write

theorem length_standard (e : Entry) : e.standard.length =
    even (12 + e.names_raw.length + e.bools.length) + e.nums.length * num_width e.wide +
      e.strs.length * 2 + (text_table e.strs).length := by
  have hheader : e.header.length = 12 := by
    rw [Entry.header, length_shorts]
    rfl
  have hflags := even_flags (q := 12) rfl e.bools e.names_raw.length
  rw [hflags, Entry.standard, List.length_append, List.length_append, List.length_append, List.length_append,
    List.length_append, List.length_append, hheader, num_bytes_length, length_shorts, offsets_length]
  omega

theorem Entry.read_of_no_names (e : Entry) (h : e.ext.names = []) :
    e.read =
      { e.term with
        ext_bools := .empty
        ext_nums := .empty
        ext_strs := .empty } := by
  obtain ⟨hb, h⟩ := List.append_eq_nil_iff.mp h
  obtain ⟨hn, hs⟩ := List.append_eq_nil_iff.mp h
  rw [Entry.read, List.map_eq_nil_iff.mp hb, List.map_eq_nil_iff.mp hn, List.map_eq_nil_iff.mp hs]
  rfl

theorem parse_write (e : Entry) : parse e.write = some e.read := by
  have h := write_stands e
  have hheader : Stands e.write 0 e.header := h.left
  have hlt {n : Nat} {m : Nat} (hn : 0 < m - n) : n < m := Nat.lt_of_sub_pos hn
  have hsize : e.names_raw.length = (Utf8.encode (['|'].intercalate e.names)).length + 1 :=
    List.length_append
  have h₀ : read_i16 e.write 0 = some e.magic :=
    read_i16_stands (Stands.short hheader (i := 0) (hlt (Nat.succ_pos _))) (magic_fits e)
  have h₁ : count_at e.write 2 = some e.names_raw.length :=
    count_at_stands (Stands.short hheader (i := 1) (hlt (Nat.succ_pos _))) (by rw [hsize]; exact e.names_size)
  have h₂ : count_at e.write 4 = some e.bools.length :=
    count_at_stands (Stands.short hheader (i := 2) (hlt (Nat.succ_pos _))) e.bools_size
  have h₃ : count_at e.write 6 = some e.nums.length :=
    count_at_stands (Stands.short hheader (i := 3) (hlt (Nat.succ_pos _))) e.nums_size
  have h₄ : count_at e.write 8 = some e.strs.length :=
    count_at_stands (Stands.short hheader (i := 4) (hlt (Nat.succ_pos _))) e.strs_size
  have h₅ : count_at e.write 10 = some (text_table e.strs).length :=
    count_at_stands (Stands.short hheader (i := 5) (hlt (Nat.succ_pos _))) e.table_size
  have hnames := h.right (q := 12) (by rw [Entry.header, length_shorts]; rfl)
  have h₆ := hnames.left.getRange rfl
  have hbools := hnames.right rfl
  have h₇ := hbools.left.left.getRange (bool_bytes_length _).symm
  have hnums := (hbools.right (q := even (12 + e.names_raw.length + e.bools.length)) (even_flags rfl _ _))
  have h₈ := nums_stand hnums.left e.nums_fit
  have hshorts := hnums.right (congrArg _ (num_bytes_length e e.nums).symm)
  have h₉ := shorts_stand hshorts.left (offsets_fit (by omega) e.table_size)
  have htable := hshorts.right (congrArg _ (length_shorts (offsets 0 e.strs)).symm)
  have h₁₀ := htable.left.getRange rfl
  rw [offsets_length] at h₉ h₁₀ htable
  have hflags := map_signed_bytes e.bools_fit
  have hvalues : (offsets 0 e.strs).map (value_at (text_table e.strs)) = e.strs.map StrCap.value := by
    have h := value_at_offsets e.strs_plain [] []
    rw [List.append_nil] at h
    exact h
  simp only [parse, h₀, wide_of_magic, h₁, h₂, h₃, h₄, h₅, h₆, h₇, h₈, h₉, h₁₀, Option.bind_eq_bind,
    Option.bind_some, hflags, hvalues, names_of_raw]
  refine congrArg some ?_
  rw [← length_standard]
  by_cases hext : e.ext.names = []
  · rw [parse_extended_nothing, e.read_of_no_names hext]
    · rfl
    · rw [Entry.write, if_pos hext, List.append_nil]
  · have hblock := htable.right rfl
    rw [if_neg hext, ← length_standard] at hblock
    have heven : even e.standard.length = e.standard.length + (pad e.standard.length).length := by
      have h := even_add (q := 0) rfl e.standard.length
      rw [Nat.zero_add, Nat.zero_add] at h
      exact h
    rw [parse_extended_block (hblock.right heven) ⟨rfl, rfl, rfl⟩]
    rfl

end Zshrs.Terminfo
