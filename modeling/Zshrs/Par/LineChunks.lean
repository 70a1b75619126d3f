import Mathlib.Data.List.TakeDrop
import Mathlib.Data.List.GetD
import Zshrs.Lib.Lines
import Zshrs.Par.Pfirst
import Mathlib.Algebra.Group.Nat.Defs

namespace Zshrs.Par.LineChunks

open Lib

abbrev Bytes := List UInt8

def NEWLINE : UInt8 := 10

def RETURN : UInt8 := 13

/-- `a * b` of a release build. -/
def usize_mul (a b : Nat) : Nat := a * b % 2 ^ 64

/-- The loop that moves a split forward to the start of a line. -/
def to_line_start (data : Bytes) (p : Nat) : Nat :=
  if p < data.length ∧ 0 < p ∧ data[p - 1]? ≠ some NEWLINE then to_line_start data (p + 1) else p
termination_by data.length - p

/-- The loop that lifts each split to the one before it. -/
def raise : Nat → List Nat → List Nat
  | _, [] => []
  | prev, s :: splits =>
      let s := if s < prev then prev else s
      s :: raise s splits

def chunk_count (len max_chunks : Nat) : Nat := min (max max_chunks 1) len

/-- The splits by division, those inside moved to line starts. -/
def splits_at (data : Bytes) (k : Nat) : List Nat :=
  let len := data.length
  let splits := (List.range (k + 1)).map fun i => usize_mul i len / k
  splits.mapIdx fun i s => if 1 ≤ i ∧ i < k then to_line_start data s else s

def ranges (splits : List Nat) : List (Nat × Nat) := (splits.zip splits.tail).filter fun c => c.1 < c.2

def line_aligned_chunks (data : Slice UInt8) (max_chunks : Nat) : List (Nat × Nat) :=
  if data.len = 0 then []
  else
    let out := ranges (raise 0 (splits_at data.items (chunk_count data.len max_chunks)))
    if out.isEmpty then [(0, data.len)] else out

def chomp (line : Bytes) : Bytes := if line.getLast? = some RETURN then line.dropLast else line

/-- The newline at or after `s`, or the end. -/
def line_end (slice : Bytes) (s : Nat) : Nat :=
  match (slice.drop s).findIdx? (· == NEWLINE) with
  | some p => s + p
  | none => slice.length

theorem le_line_end {slice : Bytes} {s : Nat} (h : s < slice.length) : s ≤ line_end slice s := by
  rw [line_end]
  split <;> omega

def lines_from (slice : Bytes) (s : Nat) : List Bytes :=
  if h : s < slice.length then
    let e := line_end slice s
    have : s ≤ e := le_line_end h
    chomp ((slice.drop s).take (e - s)) :: (if slice.length ≤ e then [] else lines_from slice (e + 1))
  else []
termination_by slice.length - s

/-- `none` where the slice `data[start..end]` panics. -/
def lines_in_range (data : Bytes) (start stop : Nat) : Option (List Bytes) :=
  if start ≤ stop ∧ stop ≤ data.length then some (lines_from ((data.take stop).drop start) 0) else none

/-- The ranges lead from `a` to `b`, none of them empty and none apart from the next. -/
def Covers (a : Nat) : List (Nat × Nat) → Nat → Prop
  | [], b => a = b
  | c :: chunks, b => c.1 = a ∧ a < c.2 ∧ Covers c.2 chunks b

def LineStart (data : Bytes) (s : Nat) : Prop := s = 0 ∨ data[s - 1]? = some NEWLINE

structure Lossless (data : Bytes) (chunks : List (Nat × Nat)) : Prop where
  covers : Covers 0 chunks data.length
  starts : ∀ c ∈ chunks, LineStart data c.1
  lines : (chunks.mapM fun c => lines_in_range data c.1 c.2).map List.flatten =
    lines_in_range data 0 data.length

/-- No line starts from `p` on. -/
def InLastLine (data : Bytes) (p : Nat) : Prop :=
  0 < p ∧ ∀ j < data.length, p ≤ j → data[j - 1]? ≠ some NEWLINE

/-- The products do not overflow, or a split that one of them gives is in the last line. -/
def Reaches (data : Bytes) (k : Nat) : Prop :=
  k * data.length < 2 ^ 64 ∨ ∃ i < k, 0 < i ∧ InLastLine data (usize_mul i data.length / k)

/-- What a line loop finds at `s`: the line up to the next newline, or all that is left. -/
theorem drop_line (slice : Bytes) {s : Nat} (h : s < slice.length) :
    NEWLINE ∉ (slice.drop s).take (line_end slice s - s) ∧
      (slice.length ≤ line_end slice s ∧ (slice.drop s).take (line_end slice s - s) = slice.drop s ∨
        line_end slice s < slice.length ∧
          slice.drop s =
            (slice.drop s).take (line_end slice s - s) ++ NEWLINE :: slice.drop (line_end slice s + 1)) := by
  rw [line_end]
  cases hfind : (slice.drop s).findIdx? (· == NEWLINE) with
  | none =>
      have hwhole : (slice.drop s).take (slice.length - s) = slice.drop s := by
        rw [List.take_of_length_le (Nat.le_of_eq List.length_drop)]
      dsimp only
      rw [hwhole]
      refine ⟨?_, .inl ⟨Nat.le_refl _, rfl⟩⟩
      intro hmem
      exact absurd (List.findIdx?_eq_none_iff.mp hfind NEWLINE hmem) (by decide)
  | some p =>
      obtain ⟨hp, hnl, hbefore⟩ := List.findIdx?_eq_some_iff_getElem.mp hfind
      have hlen : p < slice.length - s := by rwa [List.length_drop] at hp
      have hat : (slice.drop s)[p] = NEWLINE := eq_of_beq hnl
      have hdrop := List.drop_eq_getElem_cons hp
      rw [hat, List.drop_drop, List.drop_drop, ← Nat.add_assoc] at hdrop
      have hsplit := (List.take_append_drop p (slice.drop s)).symm
      rw [List.drop_drop, hdrop] at hsplit
      dsimp only
      rw [Nat.add_sub_cancel_left]
      refine ⟨?_, .inr ⟨by omega, hsplit⟩⟩
      intro hmem
      obtain ⟨j, hj, hget⟩ := List.getElem_of_mem hmem
      rw [List.length_take] at hj
      rw [List.getElem_take] at hget
      exact hbefore j (by omega) (by rw [hget]; rfl)

theorem lines_from_eq (slice : Bytes) (s : Nat) :
    lines_from slice s = (Lines.lines NEWLINE (slice.drop s)).map chomp := by
  fun_induction lines_from slice s with
  | case1 s h e he ih =>
      obtain ⟨hno, ⟨hend, hall⟩ | ⟨hlt, hsplit⟩⟩ := drop_line slice h
      · have hne : slice.drop s ≠ [] := by
          rw [Ne, List.drop_eq_nil_iff]
          exact Nat.not_le.mpr h
        rw [if_pos hend]
        rw [hall] at hno ⊢
        rw [Lines.lines_unterminated hno hne]
        rfl
      · rw [if_neg (Nat.not_le.mpr hlt), ih (Nat.not_le.mpr hlt)]
        conv => rhs; rw [hsplit]
        rw [Lines.lines_terminated hno]
        rfl
  | case2 s h =>
      rw [List.drop_eq_nil_of_le (Nat.le_of_not_lt h)]
      rfl

theorem lines_in_range_eq {data : Bytes} {start stop : Nat} (hle : start ≤ stop) (hstop : stop ≤ data.length) :
    lines_in_range data start stop =
      some ((Lines.lines NEWLINE ((data.take stop).drop start)).map chomp) := by
  rw [lines_in_range, if_pos ⟨hle, hstop⟩, lines_from_eq]
  rfl

section Splits

variable {data : Bytes}

theorem le_to_line_start (data : Bytes) (p : Nat) : p ≤ to_line_start data p := by
  fun_induction to_line_start data p with
  | case1 p h ih => omega
  | case2 p h => exact Nat.le_refl p

theorem to_line_start_le {p : Nat} (h : p ≤ data.length) : to_line_start data p ≤ data.length := by
  fun_induction to_line_start data p with
  | case1 p hp ih => exact ih (by omega)
  | case2 p hp => exact h

/-- A moved split is at the start of a line or at the end. -/
theorem to_line_start_stops {p : Nat} (h : p ≤ data.length) :
    LineStart data (to_line_start data p) ∨ to_line_start data p = data.length := by
  fun_induction to_line_start data p with
  | case1 p hp ih => exact ih (by omega)
  | case2 p hp =>
      by_cases hlt : p < data.length
      · by_cases hpos : 0 < p
        · exact .inl (.inr (by_contra fun hne => hp ⟨hlt, hpos, hne⟩))
        · exact .inl (.inl (by omega))
      · exact .inr (by omega)

theorem to_line_start_eq_end {p : Nat} (h : p < data.length) :
    to_line_start data p = data.length ↔ InLastLine data p := by
  fun_induction to_line_start data p with
  | case1 p hp ih =>
      obtain ⟨-, hpos, hne⟩ := hp
      by_cases hlt : p + 1 < data.length
      · rw [ih hlt]
        constructor
        · rintro ⟨-, hrest⟩
          refine ⟨hpos, ?_⟩
          intro j hj hpj
          rcases Nat.eq_or_lt_of_le hpj with rfl | hpj
          · exact hne
          · exact hrest j hj hpj
        · rintro ⟨-, hrest⟩
          exact ⟨Nat.succ_pos p, fun j hj hpj => hrest j hj (Nat.le_of_succ_le hpj)⟩
      · have hend : p + 1 = data.length := by omega
        have hstop : to_line_start data (p + 1) = data.length := by
          rw [to_line_start, if_neg (fun hin => hlt hin.1), hend]
        refine ⟨fun _ => ⟨hpos, ?_⟩, fun _ => hstop⟩
        intro j hj hpj
        have hjp : j = p := by omega
        rw [hjp]
        exact hne
  | case2 p hp =>
      constructor
      · intro heq
        omega
      · rintro ⟨hpos, hrest⟩
        exact absurd ⟨h, hpos, hrest p h (Nat.le_refl p)⟩ hp

theorem usize_mul_div_le {i len k : Nat} (hik : i ≤ k) : usize_mul i len / k ≤ len := by
  apply Nat.div_le_of_le_mul
  exact Nat.le_trans (Nat.mod_le _ _) (Nat.mul_le_mul_right len hik)

theorem usize_mul_div_lt {i len k : Nat} (hik : i < k) (hlen : 0 < len) : usize_mul i len / k < len := by
  apply Nat.div_lt_of_lt_mul
  exact Nat.lt_of_le_of_lt (Nat.mod_le _ _) (Nat.mul_lt_mul_of_pos_right hik hlen)

theorem getElem?_splits_at (data : Bytes) {k i : Nat} (hi : i ≤ k) :
    (splits_at data k)[i]? =
      some (if 1 ≤ i ∧ i < k then to_line_start data (usize_mul i data.length / k)
        else usize_mul i data.length / k) := by
  rw [splits_at, List.getElem?_mapIdx, List.getElem?_map, List.getElem?_range (Nat.lt_succ_of_le hi)]
  rfl

theorem length_splits_at (k : Nat) : (splits_at data k).length = k + 1 := by
  rw [splits_at, List.length_mapIdx, List.length_map, List.length_range]

theorem splits_at_cons (data : Bytes) (k : Nat) : ∃ rest, splits_at data k = 0 :: rest := by
  have hhead := getElem?_splits_at data (Nat.zero_le k)
  rw [if_neg (by omega), usize_mul, Nat.zero_mul, Nat.zero_mod, Nat.zero_div] at hhead
  cases hs : splits_at data k with
  | nil => rw [hs] at hhead; cases hhead
  | cons s rest =>
      rw [hs] at hhead
      cases hhead
      exact ⟨rest, rfl⟩

theorem splits_at_le {k s : Nat} (h : s ∈ splits_at data k) : s ≤ data.length := by
  obtain ⟨i, hi⟩ := List.mem_iff_getElem?.mp h
  have hik : i < (splits_at data k).length := (List.getElem?_eq_some_iff.mp hi).1
  rw [length_splits_at] at hik
  rw [getElem?_splits_at data (Nat.le_of_lt_succ hik)] at hi
  have hle : usize_mul i data.length / k ≤ data.length := usize_mul_div_le (Nat.le_of_lt_succ hik)
  cases hi
  split
  · exact to_line_start_le hle
  · exact hle

/-- All splits but the last are at starts of lines or at the end. -/
theorem splits_at_stops {k : Nat} (hk : 0 < k) {s : Nat} (h : s ∈ (splits_at data k).dropLast) :
    LineStart data s ∨ s = data.length := by
  obtain ⟨i, hi⟩ := List.mem_iff_getElem?.mp h
  have hik : i < (splits_at data k).dropLast.length := (List.getElem?_eq_some_iff.mp hi).1
  rw [List.length_dropLast, length_splits_at, Nat.add_sub_cancel] at hik
  rw [List.getElem?_dropLast, if_pos (by rw [length_splits_at]; omega),
    getElem?_splits_at data (Nat.le_of_lt hik)] at hi
  cases hi
  split
  · exact to_line_start_stops (usize_mul_div_le (Nat.le_of_lt hik))
  · have hzero : i = 0 := by omega
    subst hzero
    left; left
    rw [usize_mul, Nat.zero_mul, Nat.zero_mod, Nat.zero_div]

/-- The end is a split: the last one, or one that was moved there. -/
theorem end_mem_splits_at {k : Nat} (hlen : 0 < data.length) (hk : 0 < k) :
    data.length ∈ splits_at data k ↔ Reaches data k := by
  have hlast : usize_mul k data.length / k = data.length ↔ k * data.length < 2 ^ 64 := by
    rw [usize_mul]
    constructor
    · intro heq
      by_contra hover
      have hmod : k * data.length % 2 ^ 64 < k * data.length :=
        Nat.lt_of_lt_of_le (Nat.mod_lt _ (by decide)) (Nat.le_of_not_lt hover)
      have hlt := Nat.div_lt_of_lt_mul hmod
      omega
    · intro hfits
      rw [Nat.mod_eq_of_lt hfits, Nat.mul_div_cancel_left _ hk]
  constructor
  · intro h
    obtain ⟨i, hi⟩ := List.mem_iff_getElem?.mp h
    have hik : i < (splits_at data k).length := (List.getElem?_eq_some_iff.mp hi).1
    rw [length_splits_at] at hik
    rw [getElem?_splits_at data (Nat.le_of_lt_succ hik)] at hi
    have heq := Option.some.inj hi
    split at heq
    · rename_i hin
      exact .inr ⟨i, hin.2, hin.1, (to_line_start_eq_end (usize_mul_div_lt hin.2 hlen)).mp heq⟩
    · rcases Nat.eq_zero_or_pos i with rfl | hpos
      · rw [usize_mul, Nat.zero_mul, Nat.zero_mod, Nat.zero_div] at heq
        omega
      · have hlasti : i = k := by omega
        rw [hlasti] at heq
        exact .inl (hlast.mp heq)
  · rintro (hfits | ⟨i, hik, hpos, hin⟩)
    · have hget := getElem?_splits_at data (Nat.le_refl k)
      rw [if_neg (by omega), hlast.mpr hfits] at hget
      exact List.mem_of_getElem? hget
    · have hget := getElem?_splits_at data (Nat.le_of_lt hik)
      rw [if_pos ⟨hpos, hik⟩, (to_line_start_eq_end (usize_mul_div_lt hik hlen)).mpr hin] at hget
      exact List.mem_of_getElem? hget

end Splits

section Ranges

theorem Covers.le {a b : Nat} {chunks : List (Nat × Nat)} (h : Covers a chunks b) : a ≤ b := by
  induction chunks generalizing a with
  | nil => exact Nat.le_of_eq h
  | cons c chunks ih =>
      obtain ⟨-, hlt, hrest⟩ := h
      exact Nat.le_trans (Nat.le_of_lt hlt) (ih hrest)

theorem Covers.unique {a b b' : Nat} {chunks : List (Nat × Nat)} (h : Covers a chunks b)
    (h' : Covers a chunks b') : b = b' := by
  induction chunks generalizing a with
  | nil => exact h.symm.trans h'
  | cons c chunks ih => exact ih h.2.2 h'.2.2

theorem ranges_cons (a b : Nat) (splits : List Nat) :
    ranges (a :: b :: splits) = if a < b then (a, b) :: ranges (b :: splits) else ranges (b :: splits) := by
  by_cases hab : a < b
  · rw [if_pos hab, ranges, List.tail_cons, List.zip_cons_cons, List.filter_cons_of_pos (by simpa using hab)]
    rfl
  · rw [if_neg hab, ranges, List.tail_cons, List.zip_cons_cons, List.filter_cons_of_neg (by simpa using hab)]
    rfl

theorem raise_cons (prev s : Nat) (splits : List Nat) :
    raise prev (s :: splits) = max prev s :: raise (max prev s) splits := by
  have hmax : (if s < prev then prev else s) = max prev s := by
    split <;> omega
  simp only [raise, hmax]

theorem covers_ranges (prev : Nat) (splits : List Nat) :
    Covers prev (ranges (prev :: raise prev splits)) (splits.foldl max prev) := by
  induction splits generalizing prev with
  | nil => rfl
  | cons s splits ih =>
      rw [raise_cons, ranges_cons, List.foldl_cons]
      split
      · rename_i hlt
        exact ⟨rfl, hlt, ih (max prev s)⟩
      · rename_i hge
        have hsame : max prev s = prev := by omega
        rw [hsame]
        exact ih prev

theorem ranges_starts {P : Nat → Prop} {prev : Nat} {splits : List Nat} (hprev : P prev)
    (h : ∀ s ∈ splits.dropLast, P s) : ∀ c ∈ ranges (prev :: raise prev splits), P c.1 := by
  induction splits generalizing prev with
  | nil => exact fun c hc => absurd hc List.not_mem_nil
  | cons s splits ih =>
      intro c hc
      rw [raise_cons, ranges_cons] at hc
      have htail : c ∈ ranges (max prev s :: raise (max prev s) splits) → P c.1 := by
        cases splits with
        | nil => exact fun hin => absurd hin List.not_mem_nil
        | cons t splits =>
            rw [List.dropLast_cons_cons] at h
            refine ih ?_ (fun r hr => h r (List.mem_cons_of_mem s hr)) c
            rcases Nat.le_total prev s with hle | hle
            · rw [Nat.max_eq_right hle]
              exact h s List.mem_cons_self
            · rw [Nat.max_eq_left hle]
              exact hprev
      split at hc
      · rcases List.mem_cons.mp hc with rfl | hc
        · exact hprev
        · exact htail hc
      · exact htail hc

theorem le_foldl_max (prev : Nat) (splits : List Nat) :
    prev ≤ splits.foldl max prev ∧ ∀ s ∈ splits, s ≤ splits.foldl max prev := by
  induction splits generalizing prev with
  | nil => exact ⟨Nat.le_refl prev, fun s hs => absurd hs List.not_mem_nil⟩
  | cons s splits ih =>
      obtain ⟨hhead, htail⟩ := ih (max prev s)
      rw [List.foldl_cons, List.forall_mem_cons]
      exact ⟨Nat.le_trans (Nat.le_max_left prev s) hhead, Nat.le_trans (Nat.le_max_right prev s) hhead, htail⟩

theorem foldl_max_eq {prev top : Nat} {splits : List Nat} (hprev : prev ≤ top) (h : ∀ s ∈ splits, s ≤ top) :
    splits.foldl max prev = top ↔ prev = top ∨ top ∈ splits := by
  induction splits generalizing prev with
  | nil => simp
  | cons s splits ih =>
      have hs := h s List.mem_cons_self
      rw [List.foldl_cons, ih (Nat.max_le.mpr ⟨hprev, hs⟩) fun r hr => h r (List.mem_cons_of_mem s hr),
        List.mem_cons, ← or_assoc]
      apply or_congr_left
      omega

end Ranges

/-- The lines of ranges that lead to the end, each from the start of a line. -/
theorem lines_covered {data : Bytes} {chunks : List (Nat × Nat)} {a : Nat}
    (hc : Covers a chunks data.length) (hs : ∀ c ∈ chunks, LineStart data c.1) :
    (chunks.mapM fun c => lines_in_range data c.1 c.2).map List.flatten =
      some ((Lines.lines NEWLINE (data.drop a)).map chomp) := by
  induction chunks generalizing a with
  | nil =>
      have ha : a = data.length := hc
      rw [ha, List.drop_length]
      rfl
  | cons c chunks ih =>
      obtain ⟨hstart, hlt, hrest⟩ := hc
      have hend : c.2 ≤ data.length := hrest.le
      have htail := ih hrest fun r hr => hs r (List.mem_cons_of_mem c hr)
      have hcut : data.drop a = (data.take c.2).drop a ++ data.drop c.2 := by
        conv => lhs; rw [← List.take_append_drop c.2 data]
        rw [List.drop_append_of_le_length (by rw [List.length_take]; omega)]
      have hlines : Lines.lines NEWLINE (data.drop a) =
          Lines.lines NEWLINE ((data.take c.2).drop a) ++ Lines.lines NEWLINE (data.drop c.2) := by
        rw [hcut]
        cases chunks with
        | nil =>
            have hlast : c.2 = data.length := hrest
            rw [hlast, List.drop_length, List.append_nil]
            exact (List.append_nil _).symm
        | cons d chunks =>
            apply Lines.lines_append
            right
            have hnext : LineStart data c.2 := by
              have := hs d (List.mem_cons_of_mem c List.mem_cons_self)
              rwa [hrest.1] at this
            have hnl : data[c.2 - 1]? = some NEWLINE := hnext.resolve_left (by omega)
            rw [List.getLast?_eq_getElem?, List.length_drop, List.length_take, List.getElem?_drop,
              List.getElem?_take_of_lt (by omega)]
            rw [← hnl]
            congr 1
            omega
      rw [List.mapM_cons, hstart, lines_in_range_eq (Nat.le_of_lt hlt) hend]
      cases hm : chunks.mapM fun c => lines_in_range data c.1 c.2 with
      | none => rw [hm] at htail; cases htail
      | some ls =>
          rw [hm] at htail
          have hflat := Option.some.inj htail
          rw [hlines, List.map_append, ← hflat]
          rfl

theorem lines_whole (data : Bytes) :
    lines_in_range data 0 data.length = some ((Lines.lines NEWLINE data).map chomp) := by
  rw [lines_in_range_eq (Nat.zero_le _) (Nat.le_refl _), List.take_length]
  rfl

theorem Lossless.of_covers {data : Bytes} {chunks : List (Nat × Nat)} (hc : Covers 0 chunks data.length)
    (hs : ∀ c ∈ chunks, LineStart data c.1) : Lossless data chunks := by
  refine ⟨hc, hs, ?_⟩
  rw [lines_covered hc hs, lines_whole]
  rfl

section Chunks

variable {data : Bytes} {k : Nat}

/-- The ranges lead from the start to the highest split. -/
theorem covers_splits (data : Bytes) (k : Nat) :
    Covers 0 (ranges (raise 0 (splits_at data k))) ((splits_at data k).foldl max 0) := by
  obtain ⟨rest, hrest⟩ := splits_at_cons data k
  rw [hrest, raise_cons, List.foldl_cons]
  exact covers_ranges 0 rest

theorem ranges_line_starts (hk : 0 < k) {c : Nat × Nat} (hc : c ∈ ranges (raise 0 (splits_at data k)))
    (hend : c.1 < data.length) : LineStart data c.1 := by
  have hstops : ∀ s ∈ (splits_at data k).dropLast, LineStart data s ∨ s = data.length :=
    fun s hs => splits_at_stops hk hs
  obtain ⟨rest, hrest⟩ := splits_at_cons data k
  rw [hrest] at hc hstops
  rw [raise_cons] at hc
  have hstarts : ∀ s ∈ rest.dropLast, LineStart data s ∨ s = data.length := by
    intro s hs
    apply hstops
    cases rest with
    | nil => cases hs
    | cons t rest => exact List.mem_cons_of_mem 0 hs
  rcases ranges_starts (P := fun s => LineStart data s ∨ s = data.length) (.inl (.inl rfl)) hstarts c hc with
    hstart | heq
  · exact hstart
  · omega

theorem Covers.starts_lt {a b : Nat} {chunks : List (Nat × Nat)} (h : Covers a chunks b) :
    ∀ c ∈ chunks, c.1 < b := by
  induction chunks generalizing a with
  | nil => exact fun c hc => absurd hc List.not_mem_nil
  | cons d chunks ih =>
      obtain ⟨hstart, hlt, hrest⟩ := h
      intro c hc
      rcases List.mem_cons.mp hc with rfl | hc
      · rw [hstart]
        exact Nat.lt_of_lt_of_le hlt hrest.le
      · exact ih hrest c hc

/-- A buffer has fewer than `2 ^ 63` bytes, so the first product is exact and its split is not 0. -/
theorem ranges_ne_nil (hfits : data.length < 2 ^ 63) (hk : 0 < k)
    (hkl : k ≤ data.length) : ranges (raise 0 (splits_at data k)) ≠ [] := by
  intro hnil
  have hcovers := covers_splits data k
  rw [hnil] at hcovers
  have htop : (splits_at data k).foldl max 0 = 0 := Eq.symm hcovers
  have hsplit := getElem?_splits_at (i := 1) data hk
  have hpos : 0 < usize_mul 1 data.length / k := by
    rw [usize_mul, Nat.one_mul, Nat.mod_eq_of_lt (Nat.lt_trans hfits (by decide))]
    exact Nat.div_pos hkl hk
  have hzero := (le_foldl_max 0 (splits_at data k)).2 _ (List.mem_of_getElem? hsplit)
  rw [htop] at hzero
  split at hzero
  · have := le_to_line_start data (usize_mul 1 data.length / k)
    omega
  · omega

/-- The ranges cut the data without loss when one of the splits is its end, and only then. -/
theorem ranges_lossless (hlen : 0 < data.length) (hk : 0 < k) :
    Lossless data (ranges (raise 0 (splits_at data k))) ↔ Reaches data k := by
  have hcovers := covers_splits data k
  have htop : (splits_at data k).foldl max 0 = data.length ↔ Reaches data k := by
    rw [foldl_max_eq (Nat.zero_le _) (fun s hs => splits_at_le hs), ← end_mem_splits_at hlen hk]
    exact or_iff_right (Nat.ne_of_lt hlen)
  constructor
  · intro h
    exact htop.mp (hcovers.unique h.covers)
  · intro h
    rw [htop.mpr h] at hcovers
    apply Lossless.of_covers hcovers
    intro c hc
    exact ranges_line_starts hk hc (hcovers.starts_lt c hc)

theorem chunk_count_pos {len : Nat} (hlen : 0 < len) (max_chunks : Nat) : 0 < chunk_count len max_chunks := by
  rw [chunk_count]
  omega

end Chunks

/-- The splits of a buffer that is not empty give a range, so the whole is never pushed in their place. -/
theorem line_aligned_chunks_eq {data : Slice UInt8} (hlen : 0 < data.items.length) (max_chunks : Nat) :
    line_aligned_chunks data max_chunks =
      ranges (raise 0 (splits_at data.items (chunk_count data.items.length max_chunks))) := by
  have hk := chunk_count_pos hlen max_chunks
  have hout := ranges_ne_nil data.fits hk (Nat.min_le_right _ _)
  have hempty : ¬ (ranges (raise 0 (splits_at data.items
      (chunk_count data.items.length max_chunks)))).isEmpty = true := by
    rw [List.isEmpty_iff]
    exact hout
  rw [line_aligned_chunks, if_neg (show ¬ data.len = 0 from Nat.ne_of_gt hlen)]
  exact if_neg hempty

/-- Cut at the starts of its lines, a buffer loses nothing, if its end is among the splits and only then. -/
theorem chunks_lossless (data : Slice UInt8) (max_chunks : Nat) :
    Lossless data.items (line_aligned_chunks data max_chunks) ↔
      Reaches data.items (chunk_count data.items.length max_chunks) := by
  rcases Nat.eq_zero_or_pos data.items.length with hzero | hlen
  · have hnil : data.items = [] := List.length_eq_zero_iff.mp hzero
    rw [line_aligned_chunks, if_pos (show data.len = 0 from hzero), hnil]
    constructor
    · exact fun _ => .inl (Nat.two_pow_pos 64)
    · intro _
      apply Lossless.of_covers
      · rfl
      · exact fun c hc => absurd hc List.not_mem_nil
  · rw [line_aligned_chunks_eq hlen]
    exact ranges_lossless hlen (chunk_count_pos hlen max_chunks)

/-- As many newlines as chunks: every split of the division is already at the start of a line. -/
theorem newlines_lost {n : Nat} (hover : 2 ^ 64 ≤ n * n) :
    ¬ Reaches (List.replicate n NEWLINE) (chunk_count n n) := by
  have hpos : 0 < n := by
    rcases Nat.eq_zero_or_pos n with rfl | hpos
    · exact absurd hover (by decide)
    · exact hpos
  have hcount : chunk_count n n = n := by
    rw [chunk_count]
    omega
  rw [Reaches, hcount, List.length_replicate]
  rintro (hfits | ⟨i, hi, -, hsplit, hlast⟩)
  · omega
  · rw [List.length_replicate] at hlast
    have hlt := usize_mul_div_lt hi hpos
    apply hlast _ hlt (Nat.le_refl _)
    rw [List.getElem?_replicate_of_lt (by omega)]

def newlines (n : Nat) (hn : n < 2 ^ 63) : Slice UInt8 where
  items := List.replicate n NEWLINE
  fits := by
    rw [List.length_replicate]
    exact hn

theorem newlines_not_lossless {n : Nat} (hn : n < 2 ^ 63) (hover : 2 ^ 64 ≤ n * n) :
    ¬ Lossless (newlines n hn).items (line_aligned_chunks (newlines n hn) n) := by
  have hitems : (newlines n hn).items.length = n := List.length_replicate
  have hpos : 0 < (newlines n hn).items.length := by
    rw [hitems]
    rcases Nat.eq_zero_or_pos n with rfl | hpos
    · exact absurd hover (by decide)
    · exact hpos
  rw [line_aligned_chunks_eq hpos, ranges_lossless hpos (chunk_count_pos hpos n), hitems]
  exact newlines_lost hover

/-- At `2 ^ 32` empty lines and as many chunks the last product is `2 ^ 64`. -/
theorem empty_lines_lost :
    ¬ Lossless (newlines (2 ^ 32) (by decide)).items
      (line_aligned_chunks (newlines (2 ^ 32) (by decide)) (2 ^ 32)) :=
  newlines_not_lossless (by decide) (by decide)

end Zshrs.Par.LineChunks
