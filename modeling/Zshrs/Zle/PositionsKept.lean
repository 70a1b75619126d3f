import Zshrs.Zle.Positions
import Zshrs.Zle.UndoRuns

namespace Zshrs.Zle.Positions

open Lib Runs

/-- Where a highlight is, measured in the line. -/
def Under (s : ZleState) (len : Nat) : Prop :=
  ∀ rh ∈ s.region_highlights,
    rh.start - rh.sub s.predisplay.length ≤ len ∧ rh.end_ - rh.sub s.predisplay.length ≤ len

/-- The mark and the highlights fit a line of a length. -/
def Fits (s : ZleState) (len : Nat) : Prop := s.mark ≤ len ∧ Under s len

/-- No position leaves the line. -/
structure Inside (s : ZleState) : Prop where
  zlell : s.zlell = s.zleline.length
  zlecs : s.zlecs ≤ s.zleline.length
  fits : Fits s s.zleline.length

instance (s : ZleState) (len : Nat) : Decidable (Under s len) := by
  unfold Under
  infer_instance

instance (s : ZleState) (len : Nat) : Decidable (Fits s len) := by
  unfold Fits
  infer_instance

/-- The cursors that a history keeps are in its lines. -/
structure CursorsIn (start : Line) (s : Editor) : Prop where
  changes : ∀ i ch, s.undo_stack[i]? = some ch →
    as_usize ch.old_cs ≤ (line_at start s.undo_stack i).length ∧
    as_usize ch.new_cs ≤ (line_at start s.undo_stack (i + 1)).length
  lastcs : s.lastcs ≤ s.lastline.length

/-- What every operation keeps. -/
structure Sane (start : Line) (s : ZleState) : Prop extends Inside s where
  history : Faithful start s.toEditor
  cursors : CursorsIn start s.toEditor

section

variable {start : Line} {s t : ZleState} {n len : Nat}

theorem as_i32_le {x : Int} (h : 0 ≤ x) : as_i32 x ≤ x := by
  rcases Int.lt_or_le x (2 ^ 31) with hx | hx
  · exact Int.le_of_eq (as_i32_of_lt (by omega) hx)
  · exact (Int.le_of_lt (as_i32_lt x)).trans hx

/-- A longer line, with the cursor in it. -/
theorem Sane.edit (h : Sane start s) (line : Line) (cs : Nat) (hline : line.length < 2 ^ 31)
    (hcs : cs ≤ line.length) (ht : t.toEditor = { s.toEditor with zleline := line, zlell := line.length, zlecs := cs })
    (hfits : Fits t line.length) : Sane start t where
  zlell := by
    rw [ht]
  zlecs := by
    rw [ht]
    exact hcs
  fits := by
    rw [ht]
    exact hfits
  history := by
    rw [ht]
    exact { h.history with zlell := rfl, short := hline, zlecs := Nat.lt_of_le_of_lt hcs hline }
  cursors := by
    rw [ht]
    exact { h.cursors with }

theorem Fits.mono (h : Fits s n) (hle : n ≤ len) : Fits s len := by
  refine ⟨h.1.trans hle, ?_⟩
  intro rh hrh
  obtain ⟨hstart, hend⟩ := h.2 rh hrh
  omega

theorem vec_insert_eq {line : Line} {i : Nat} (h : i ≤ line.length) (c : Char) :
    vec_insert line i c = some (line.take i ++ c :: line.drop i) := by
  have hsplit := insertIdx_mid (line.take i) (line.drop i) c
  rw [List.take_append_drop, List.length_take_of_le h] at hsplit
  rw [vec_insert, if_pos h, hsplit]

theorem insert_nuls_eq (pre suf : Line) (n : Nat) :
    insert_nuls pre.length n (pre ++ suf) = some (pre ++ List.replicate n '\x00' ++ suf) := by
  induction n generalizing suf with
  | zero => rw [insert_nuls, List.replicate_zero, List.append_nil]
  | succ n ih =>
      have hle : pre.length ≤ (pre ++ suf).length := by
        rw [List.length_append]
        omega
      rw [insert_nuls, vec_insert_eq hle, List.take_left, List.drop_left, Option.bind_some, ih]
      congr 1
      rw [List.replicate_succ', List.append_assoc, List.append_assoc, List.append_assoc]
      rfl

theorem insert_nuls_take_drop {line : Line} {i : Nat} (h : i ≤ line.length) (n : Nat) :
    insert_nuls i n line = some (line.take i ++ List.replicate n '\x00' ++ line.drop i) := by
  have hins := insert_nuls_eq (line.take i) (line.drop i) n
  rw [List.take_append_drop, List.length_take_of_le h] at hins
  exact hins

/-- The mark after `spaceinline` in a line that an `i32` measures. -/
theorem mark_spaced (h : Sane start s) {ct : Int} (hct : 0 < ct) (hroom : s.zleline.length + ct < 2 ^ 31) :
    (if as_i32 s.zlecs < as_i32 s.mark then as_usize (as_i32 (as_i32 s.mark + ct)) else s.mark) =
      if s.zlecs < s.mark then s.mark + ct.toNat else s.mark := by
  have hcs := h.zlecs
  have hmark := h.fits.1
  rw [as_i32_of_lt (n := s.zlecs) (by omega) (by omega), as_i32_of_lt (n := s.mark) (by omega) (by omega)]
  by_cases hlt : s.zlecs < s.mark
  · have hsum : (s.mark : Int) + ct = (s.mark + ct.toNat : Nat) := by omega
    rw [if_pos hlt, if_pos (by omega), hsum, as_usize_as_i32 (by omega)]
  · rw [if_neg hlt, if_neg (by omega)]

theorem space_le (rhp : RegionHighlight) {predisplaylen : Nat} (zlecs : Nat) {ct : Int} (hct : 0 ≤ ct) {len : Int}
    (hstart : rhp.start - rhp.sub predisplaylen ≤ len) (hend : rhp.end_ - rhp.sub predisplaylen ≤ len) :
    (rhp.space predisplaylen zlecs ct).start - rhp.sub predisplaylen ≤ len + ct ∧
    (rhp.space predisplaylen zlecs ct).end_ - rhp.sub predisplaylen ≤ len + ct := by
  have hsub : 0 ≤ rhp.sub predisplaylen := by
    rw [RegionHighlight.sub]
    split
    · exact Int.natCast_nonneg _
    · exact Int.le_refl 0
  have hone : ∀ x : Int, (zlecs : Int) ≤ x - rhp.sub predisplaylen → x - rhp.sub predisplaylen ≤ len →
      as_i32 (x + ct) - rhp.sub predisplaylen ≤ len + ct := by
    intro x hlow hx
    have hle := as_i32_le (x := x + ct) (by omega)
    omega
  dsimp only [RegionHighlight.space]
  constructor
  · split
    next hmoved => exact hone _ hmoved hstart
    next => omega
  · split
    next hmoved => exact hone _ hmoved.1 hend
    next => omega

theorem space_sub (rhp : RegionHighlight) (predisplaylen zlecs : Nat) (ct : Int) :
    (rhp.space predisplaylen zlecs ct).sub predisplaylen = rhp.sub predisplaylen := rfl

/-- What `spaceinline` makes of a line that is not metafied. -/
def spaced (ct : Nat) (s : ZleState) : ZleState :=
  { s with
    zleline := s.zleline.take s.zlecs ++ List.replicate ct '\x00' ++ s.zleline.drop s.zlecs
    zlell := s.zleline.length + ct
    mark := if s.zlecs < s.mark then s.mark + ct else s.mark
    viinsbegin := if s.zlecs < s.viinsbegin then 0 else s.viinsbegin
    region_highlights := s.region_highlights.map (·.space s.predisplay.length s.zlecs ct)
    region_active := 0 }

theorem length_spaced {line : Line} {i : Nat} (h : i ≤ line.length) (n : Nat) :
    (line.take i ++ List.replicate n '\x00' ++ line.drop i).length = line.length + n := by
  rw [List.length_append, List.length_append, List.length_take_of_le h, List.length_replicate,
    List.length_drop]
  omega

theorem spaceinline_eq (h : Sane start s) {ct : Int} (hct : 0 < ct) (hroom : s.zleline.length + ct < 2 ^ 31)
    (hmeta : metaline s = none) : spaceinline ct s = some (spaced ct.toNat s) := by
  have hnat : ((ct.toNat : Nat) : Int) = ct := Int.toNat_of_nonneg (Int.le_of_lt hct)
  rw [spaceinline, if_neg (Int.not_le.mpr hct), hmeta]
  dsimp only
  rw [insert_nuls_take_drop h.zlecs, Option.bind_eq_bind, Option.bind_some, length_spaced h.zlecs,
    mark_spaced h hct hroom]
  rw [spaced, hnat]

theorem spaced_sane (h : Sane start s) {n : Nat} (hroom : s.zleline.length + n < 2 ^ 31) :
    Sane start (spaced n s) := by
  have hlen := length_spaced h.zlecs n
  have hcs := h.zlecs
  have hmark := h.fits.1
  apply h.edit (s.zleline.take s.zlecs ++ List.replicate n '\x00' ++ s.zleline.drop s.zlecs) s.zlecs
  · omega
  · omega
  · rw [hlen]
    rfl
  · rw [hlen]
    constructor
    · show (if s.zlecs < s.mark then s.mark + n else s.mark) ≤ s.zleline.length + n
      split
      · omega
      · omega
    · intro rh hrh
      obtain ⟨rhp, hrhp, rfl⟩ := List.mem_map.mp hrh
      obtain ⟨hstart, hend⟩ := h.fits.2 rhp hrhp
      have hle := space_le rhp s.zlecs (Int.natCast_nonneg n) hstart hend
      have hpre : (spaced n s).predisplay = s.predisplay := rfl
      rw [hpre, space_sub]
      omega

/-- In a metafied line the mark moves by the cursor there. -/
def MetaRoom (ct : Int) (s : ZleState) : Prop :=
  metaline s = none ∨ (s.mark : Int) ≤ s.zlemetacs ∨ s.mark + ct ≤ s.zleline.length

theorem spaceinline_meta_eq (line : Bytes) (ct : Int) (s : ZleState) :
    ∃ g ll, spaceinline_meta line ct s =
      { s with
        mark := if s.zlemetacs < as_i32 s.mark then as_usize (as_i32 (as_i32 s.mark + ct)) else s.mark
        zlemetaline := g
        zlemetall := ll
        region_active := 0 } := by
  rw [spaceinline_meta]
  generalize (if s.zlemetacs < as_i32 s.mark then as_usize (as_i32 (as_i32 s.mark + ct)) else s.mark) = mark
  generalize is_char_boundary line _ = b
  cases b with
  | false => exact ⟨s.zlemetaline, s.zlemetall, rfl⟩
  | true => exact ⟨_, _, rfl⟩

theorem mark_meta_le (h : Sane start s) {ct : Int} (hct : 0 < ct)
    (hroom : (s.mark : Int) ≤ s.zlemetacs ∨ s.mark + ct ≤ s.zleline.length) :
    (if s.zlemetacs < as_i32 s.mark then as_usize (as_i32 (as_i32 s.mark + ct)) else s.mark) ≤
      s.zleline.length := by
  have hshort := h.history.short
  have hmark := h.fits.1
  rw [as_i32_of_lt (n := s.mark) (by omega) (by omega)]
  by_cases hlt : s.zlemetacs < s.mark
  · have hsum : (s.mark : Int) + ct = (s.mark + ct.toNat : Nat) := by omega
    rw [if_pos hlt, hsum, as_usize_as_i32 (by omega)]
    omega
  · rw [if_neg hlt]
    exact hmark

theorem Sane.set_mark (h : Sane start s) {mark : Nat} (hmark : mark ≤ s.zleline.length) (g : Option Bytes)
    (ll : Int) :
    Sane start { s with mark := mark, zlemetaline := g, zlemetall := ll, region_active := 0 } := by
  apply h.edit s.zleline s.zlecs h.history.short h.zlecs
  · rw [← h.zlell]
  · exact ⟨hmark, h.fits.2⟩

theorem spaceinline_meta_sane (h : Sane start s) (line : Bytes) {ct : Int} (hct : 0 < ct)
    (hroom : (s.mark : Int) ≤ s.zlemetacs ∨ s.mark + ct ≤ s.zleline.length) :
    Sane start (spaceinline_meta line ct s) := by
  obtain ⟨g, ll, heq⟩ := spaceinline_meta_eq line ct s
  rw [heq]
  exact h.set_mark (mark_meta_le h hct hroom) g ll

theorem spaceinline_sane (h : Sane start s) {ct : Int} (hroom : s.zleline.length + ct < 2 ^ 31)
    (hmeta : 0 < ct → MetaRoom ct s) : ∃ t, spaceinline ct s = some t ∧ Sane start t := by
  by_cases hct : ct ≤ 0
  · rw [spaceinline, if_pos hct]
    exact ⟨s, rfl, h⟩
  · have hpos := Int.not_le.mp hct
    cases hline : metaline s with
    | none =>
        refine ⟨_, spaceinline_eq h hpos hroom hline, spaced_sane h ?_⟩
        omega
    | some line =>
        rw [spaceinline, if_neg hct, hline]
        refine ⟨_, rfl, spaceinline_meta_sane h line hpos ?_⟩
        rcases hmeta hpos with hnone | hroom
        · rw [hline] at hnone
          exact absurd hnone (Option.some_ne_none line)
        · exact hroom

theorem shift_offset_le {to_ cnt sub offset len : Int} (hto : 0 ≤ to_) (hsub : 0 ≤ sub)
    (hoffset : offset - sub ≤ len) :
    shift_offset to_ cnt sub offset - sub ≤ if len ≤ to_ then len else max to_ (len - cnt) := by
  by_cases hmoved : to_ < offset - sub
  · rw [shift_offset, if_pos hmoved, if_neg (show ¬ len ≤ to_ by omega)]
    split
    · have hle := as_i32_le (x := offset - cnt) (by omega)
      omega
    · have hle := as_i32_le (x := to_ + sub) (by omega)
      omega
  · rw [shift_offset, if_neg hmoved]
    split
    · exact hoffset
    · omega

theorem sub_nonneg (rhp : RegionHighlight) (predisplaylen : Nat) : 0 ≤ rhp.sub predisplaylen := by
  rw [RegionHighlight.sub]
  split
  · exact Int.natCast_nonneg _
  · exact Int.le_refl 0

theorem as_usize_toNat {x : Int} (hlow : 0 ≤ x) (hhigh : x < 2 ^ 31) : as_usize x = x.toNat := by
  have hnat : ((x.toNat : Nat) : Int) = x := Int.toNat_of_nonneg hlow
  rw [← hnat, as_usize_of_lt (by omega), Int.toNat_natCast]

/-- What `shiftchars` makes of a line. -/
theorem length_shifted (line : Line) (start cnt : Nat) :
    (if line.length ≤ start then line
      else if line.length ≤ start + cnt then line.take start
      else line.take start ++ line.drop (start + cnt)).length =
      if line.length ≤ start then line.length else max start (line.length - cnt) := by
  split
  · rfl
  · split
    · rw [List.length_take]
      omega
    · rw [List.length_append, List.length_take, List.length_drop]
      omega

theorem shiftchars_sane (h : Sane start s) {to_ cnt : Int} (hto : 0 ≤ to_) (hcnt : 0 ≤ cnt)
    (hroom : to_ + cnt < 2 ^ 31) (hcs : (s.zlecs : Int) ≤ to_ ∨ s.zlecs + cnt ≤ s.zlell) :
    Sane start (shiftchars to_ cnt s) := by
  have hshort := h.history.short
  have hzlell := h.zlell
  have hzlecs := h.zlecs
  have hmark := h.fits.1
  have hto' : as_usize to_ = to_.toNat := as_usize_toNat hto (by omega)
  have hcnt' : as_usize cnt = cnt.toNat := as_usize_toNat hcnt (by omega)
  have hlen := length_shifted s.zleline to_.toNat cnt.toNat
  rw [← hto', ← hcnt'] at hlen
  apply h.edit (shiftchars to_ cnt s).zleline s.zlecs
  · dsimp only [shiftchars]
    rw [hlen]
    split
    · exact hshort
    · omega
  · dsimp only [shiftchars]
    rw [hlen]
    split
    · exact hzlecs
    · omega
  · rfl
  · constructor
    · dsimp only [shiftchars]
      rw [hlen, as_i32_of_lt (n := s.mark) (by omega) (by omega),
        as_i32_of_lt (n := to_ + cnt) (by omega) (by omega)]
      split
      · rw [as_i32_of_lt (n := s.mark - cnt) (by omega) (by omega),
          as_usize_toNat (by omega) (by omega)]
        split
        · omega
        · omega
      · split
        · rw [as_usize_toNat (by omega) (by omega)]
          split
          · omega
          · omega
        · split
          · omega
          · omega
    · intro rh hrh
      obtain ⟨rhp, hrhp, rfl⟩ := List.mem_map.mp hrh
      obtain ⟨hstart, hend⟩ := h.fits.2 rhp hrhp
      have hsub := sub_nonneg rhp s.predisplay.length
      have hnew : ((shiftchars to_ cnt s).zleline.length : Int) =
          if (s.zleline.length : Int) ≤ to_ then (s.zleline.length : Int)
          else max to_ (s.zleline.length - cnt) := by
        dsimp only [shiftchars]
        rw [hlen, hto', hcnt']
        split
        · rw [if_pos (by omega)]
        · rw [if_neg (by omega)]
          omega
      rw [hnew]
      exact ⟨shift_offset_le hto hsub hstart, shift_offset_le hto hsub hend⟩

end

end Zshrs.Zle.Positions
