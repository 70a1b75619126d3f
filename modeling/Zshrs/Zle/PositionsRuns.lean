import Zshrs.Zle.PositionsEdit

namespace Zshrs.Zle.Positions

open Lib Runs Undo

inductive Event where
  | spaceinline (ct : Int)
  | shiftchars (to_ cnt : Int)
  | insert_str (text : List Char)
  | insert_chars (text : List Char)
  | delete_chars (n : Nat)
  | backspace_chars (n : Nat)
  | set_line_keep_cursor (text : List Char)
  | clear_line
  | handleundo
  | undo (args : List (List Char))
  | redo
  | viundochange (args : List (List Char))

def step (s : ZleState) : Event → Option ZleState
  | .spaceinline ct => spaceinline ct s
  | .shiftchars to_ cnt => some (shiftchars to_ cnt s)
  | .insert_str text => insert_str text s
  | .insert_chars text => insert_chars text s
  | .delete_chars n => delete_chars n s
  | .backspace_chars n => backspace_chars n s
  | .set_line_keep_cursor text => some (set_line_keep_cursor text s)
  | .clear_line => some (clear_line s)
  | .handleundo => some (on_editor Zle.handleundo s)
  | .undo args => some (on_editor (fun e => (Zle.undo args e).1) s)
  | .redo => some (on_editor (fun e => (Zle.redo e).1) s)
  | .viundochange args => some (on_editor (fun e => (Zle.viundochange args e).1) s)

/-- A step of a run, which a panic ends. -/
def act (s : Option ZleState) (e : Event) : Option ZleState := s.bind fun s => step s e

/-- The mark and the highlights fit the line at a position of the committed history. -/
def FitsAt (start : Line) (s : ZleState) (i : Nat) : Prop :=
  Fits s (line_at start (Zle.handleundo s.toEditor).undo_stack i).length

/-- The steps on which no position leaves the line that has the undo history `start`. -/
def Meets (start : Line) (s : ZleState) : Event → Prop
  | .spaceinline ct => s.zleline.length + ct < 2 ^ 31 ∧ (0 < ct → MetaRoom ct s)
  | .shiftchars to_ cnt =>
      0 ≤ to_ ∧ 0 ≤ cnt ∧ to_ + cnt < 2 ^ 31 ∧ ((s.zlecs : Int) ≤ to_ ∨ s.zlecs + cnt ≤ s.zlell)
  | .insert_str text | .insert_chars text => s.zleline.length + text.length < 2 ^ 31
  | .delete_chars n => Fits s (s.zlell - min n (s.zlell - s.zlecs))
  | .backspace_chars n => Fits s (s.zlell - min n s.zlecs)
  | .set_line_keep_cursor text => text.length < 2 ^ 31 ∧ Fits s text.length
  | .clear_line => Under s 0
  | .handleundo => Room s.toEditor
  | .undo args =>
      Undo.Meets s.toEditor (.undo args) ∧ FitsAt start s (undo_end (Zle.handleundo s.toEditor) args)
  | .redo =>
      Room s.toEditor ∧ ∀ i ≤ (Zle.handleundo s.toEditor).undo_stack.length,
        (Zle.handleundo s.toEditor).curchange < i →
        group_start (Zle.handleundo s.toEditor).undo_stack i = (Zle.handleundo s.toEditor).curchange →
        joined (Zle.handleundo s.toEditor).undo_stack i = false → FitsAt start s i
  | .viundochange args =>
      Undo.Meets s.toEditor (.viundochange args) ∧
        FitsAt start s
          (if (Zle.handleundo s.toEditor).curchange < (Zle.handleundo s.toEditor).undo_stack.length then
            (Zle.handleundo s.toEditor).undo_stack.length
          else undo_end (Zle.handleundo s.toEditor) args)

instance (ct : Int) (s : ZleState) : Decidable (MetaRoom ct s) := inferInstanceAs (Decidable (_ ∨ _ ∨ _))

instance (start : Line) (s : ZleState) (i : Nat) : Decidable (FitsAt start s i) :=
  inferInstanceAs (Decidable (Fits _ _))

instance (start : Line) (s : ZleState) (e : Event) : Decidable (Meets start s e) :=
  match e with
  | .spaceinline _ | .set_line_keep_cursor _ | .undo _ | .viundochange _ | .redo =>
      inferInstanceAs (Decidable (_ ∧ _))
  | .shiftchars _ _ => inferInstanceAs (Decidable (_ ∧ _ ∧ _ ∧ (_ ∨ _)))
  | .insert_str _ | .insert_chars _ => inferInstanceAs (Decidable (_ < _))
  | .delete_chars _ | .backspace_chars _ => inferInstanceAs (Decidable (Fits _ _))
  | .clear_line => inferInstanceAs (Decidable (Under _ _))
  | .handleundo => inferInstanceAs (Decidable (Room _))

section

variable {start : Line} {s t : ZleState} {e r : Editor} {i n : Nat}

/-- A commit records cursors that are in its lines. -/
theorem handleundo_cursors (h : Faithful start e) (hc : CursorsIn start e) (hcs : e.zlecs ≤ e.zleline.length)
    (hroom : Room e) : CursorsIn start (Zle.handleundo e) := by
  by_cases hs : e.lastline = e.zleline
  · rw [h.handleundo_settled hs]
    exact ⟨hc.changes, hcs⟩
  · have hclean := (clean_handleundo h hroom).toFaithful
    have hline : (Zle.handleundo e).zleline = e.zleline := handleundo_zleline e
    have hend : line_at start (Zle.handleundo e).undo_stack (e.curchange + 1) = e.zleline := by
      have hlast := (clean_handleundo h hroom).settled
      rw [hclean.lastline, hline, (handleundo_top h hroom hs).2.1] at hlast
      exact hlast
    rw [h.handleundo_pending hs hroom] at hend ⊢
    have hlen : (e.undo_stack.take e.curchange).length = e.curchange := List.length_take_of_le h.within
    have hat : ∀ i ≤ e.curchange, line_at start (e.undo_stack.take e.curchange ++ [recorded e]) i =
        line_at start e.undo_stack i := by
      intro i hi
      rw [line_at_append (by omega), line_at_take hi]
    refine ⟨?_, hcs⟩
    intro i ch hch
    rcases Nat.lt_trichotomy i e.curchange with hi | rfl | hi
    · have hold : e.undo_stack[i]? = some ch := by
        dsimp only [Zle.setlastline] at hch
        rw [List.getElem?_append_left (by omega), List.getElem?_take_of_lt hi] at hch
        exact hch
      show as_usize ch.old_cs ≤
          (line_at start (e.undo_stack.take e.curchange ++ [recorded e]) i).length ∧
        as_usize ch.new_cs ≤ (line_at start (e.undo_stack.take e.curchange ++ [recorded e]) (i + 1)).length
      rw [hat i (by omega), hat (i + 1) (by omega)]
      exact hc.changes i ch hold
    · have htop : ch = recorded e := by
        dsimp only [Zle.setlastline] at hch
        rw [List.getElem?_append_right (by omega), hlen, Nat.sub_self] at hch
        exact (Option.some.inj hch).symm
      rw [hend]
      show as_usize ch.old_cs ≤
          (line_at start (e.undo_stack.take e.curchange ++ [recorded e]) e.curchange).length ∧ _
      rw [hat _ (Nat.le_refl _), ← h.lastline, htop, h.recorded_cursors.1, h.recorded_cursors.2]
      exact ⟨hc.lastcs, hcs⟩
    · have hlt := (List.getElem?_eq_some_iff.mp hch).1
      dsimp only [Zle.setlastline] at hlt
      rw [List.length_append, hlen, List.length_singleton] at hlt
      omega

/-- A walk along the history lands on a cursor that is in its line. -/
theorem walked_cursors (ht : Clean start e) (hc : CursorsIn start e) (hcs : e.zlecs ≤ e.zleline.length)
    (hwalk : Walked start e r i) :
    CursorsIn start r ∧ r.zlecs ≤ r.zleline.length ∧ r.zleline = line_at start e.undo_stack i := by
  obtain ⟨-, -, cs, hat, rfl⟩ := hwalk
  have hle : cs ≤ (line_at start e.undo_stack i).length := by
    rcases hat with ⟨rfl, rfl⟩ | ⟨ch, hch, rfl⟩ | ⟨m, ch, rfl, hch, rfl⟩
    · rw [← ht.lastline, ht.settled]
      exact hcs
    · exact (hc.changes i ch hch).1
    · exact (hc.changes m ch hch).2
  exact ⟨⟨hc.changes, hle⟩, hle, rfl⟩

/-- An undo or redo keeps the positions in the line, when the mark and the highlights fit where it lands. -/
theorem Sane.walk (h : Sane start s) (hroom : Room s.toEditor)
    (hwalk : Walked start (Zle.handleundo s.toEditor) r i) (hfits : FitsAt start s i) :
    Sane start { s with toEditor := r } := by
  have hclean := clean_handleundo h.history hroom
  have hcursors := handleundo_cursors h.history h.cursors h.zlecs hroom
  have hcs : (Zle.handleundo s.toEditor).zlecs ≤ (Zle.handleundo s.toEditor).zleline.length := by
    rw [handleundo_zlecs, handleundo_zleline]
    exact h.zlecs
  obtain ⟨hin, hle, hline⟩ := walked_cursors hclean hcursors hcs hwalk
  have hfaithful := (hwalk.clean hclean.toFaithful).toFaithful
  exact
    { zlell := hfaithful.zlell
      zlecs := hle
      fits := by
        show Fits s r.zleline.length
        rw [hline]
        exact hfits
      history := hfaithful
      cursors := hin }

theorem Sane.fitsAt_curchange (h : Sane start s) (hroom : Room s.toEditor) :
    FitsAt start s (Zle.handleundo s.toEditor).curchange := by
  have hclean := clean_handleundo h.history hroom
  rw [FitsAt, ← hclean.lastline, hclean.settled, handleundo_zleline]
  exact h.fits

/-- A step that meets the condition does not panic and leaves the positions in the line. -/
theorem step_sane (h : Sane start s) {ev : Event} (hmeets : Meets start s ev) :
    ∃ t, step s ev = some t ∧ Sane start t := by
  cases ev with
  | spaceinline ct => exact spaceinline_sane h hmeets.1 hmeets.2
  | shiftchars to_ cnt =>
      obtain ⟨hto, hcnt, hroom, hcs⟩ := hmeets
      exact ⟨_, rfl, shiftchars_sane h hto hcnt hroom hcs⟩
  | insert_str text => exact insert_chars_sane h text hmeets
  | insert_chars text => exact insert_chars_sane h text hmeets
  | delete_chars n => exact delete_chars_sane h hmeets
  | backspace_chars n => exact backspace_chars_sane h hmeets
  | set_line_keep_cursor text => exact ⟨_, rfl, set_line_keep_cursor_sane h hmeets.1 hmeets.2⟩
  | clear_line => exact ⟨_, rfl, clear_line_sane h hmeets⟩
  | handleundo =>
      have hwalk := (clean_handleundo h.history hmeets).walked
      exact ⟨_, rfl, h.walk hmeets hwalk (h.fitsAt_curchange hmeets)⟩
  | undo args =>
      have hwalk := undo_walked h.history hmeets.1.1 hmeets.1.2
      exact ⟨_, rfl, h.walk hmeets.1.1 hwalk hmeets.2⟩
  | redo =>
      obtain ⟨i, hwalk, hwhere, hstay⟩ := redo_walked h.history hmeets.1
      refine ⟨_, rfl, h.walk hmeets.1 hwalk ?_⟩
      rcases Nat.lt_or_ge (Zle.handleundo s.toEditor).curchange
        (Zle.handleundo s.toEditor).undo_stack.length with hlt | hge
      · obtain ⟨hgroup, hi⟩ := hwhere hlt
        exact hmeets.2 i hwalk.1 hi hgroup hwalk.2.1
      · rw [hstay hge]
        exact h.fitsAt_curchange hmeets.1
  | viundochange args =>
      have hwalk := viundochange_walked h.history hmeets.1.1 hmeets.1.2
      exact ⟨_, rfl, h.walk hmeets.1.1 hwalk hmeets.2⟩

/-- The highlights whose ends `spaceinline` moves with the text. -/
def EndsMove (s : ZleState) (n : Nat) : Prop :=
  n = 0 ∨ s.predisplay = [] ∨ s.zlecs ≠ 0 ∨ ∀ rh ∈ s.region_highlights, rh.end_ ≤ rh.sub s.predisplay.length

/-- An offset that was moved goes back. -/
theorem shift_offset_back {to_ cnt sub offset : Int} (hto : 0 ≤ to_) (hcnt : 0 ≤ cnt) (hsub : 0 ≤ sub)
    (hat : to_ ≤ offset - sub) (hroom : offset + cnt < 2 ^ 31) :
    shift_offset to_ cnt sub (as_i32 (offset + cnt)) = offset := by
  rw [as_i32_of_lt (by omega) hroom, shift_offset]
  split
  · split
    · rw [Int.add_sub_cancel]
      exact as_i32_of_lt (by omega) (by omega)
    · rw [as_i32_of_lt (by omega) (by omega)]
      omega
  · omega

theorem shift_offset_stay {to_ cnt sub offset : Int} (hat : offset - sub ≤ to_) :
    shift_offset to_ cnt sub offset = offset := by rw [shift_offset, if_neg (Int.not_lt.mpr hat)]

/-- The end of a highlight is shifted back, unless it was left behind at the start of the line. -/
theorem shift_end_back {predisplaylen zlecs n len : Nat} {sub offset : Int} (hsub : 0 ≤ sub)
    (hsub' : sub ≤ predisplaylen) (hin : offset - sub ≤ len) (hroom : len + predisplaylen + n < 2 ^ 31) :
    shift_offset zlecs n sub
        (if zlecs ≤ offset - sub ∧ (predisplaylen = 0 ∨ zlecs ≠ 0) then as_i32 (offset + n) else offset) =
      offset ↔ n = 0 ∨ predisplaylen = 0 ∨ zlecs ≠ 0 ∨ offset ≤ sub := by
  by_cases hmoved : (zlecs : Int) ≤ offset - sub ∧ (predisplaylen = 0 ∨ zlecs ≠ 0)
  · rw [if_pos hmoved, shift_offset_back (Int.natCast_nonneg _) (Int.natCast_nonneg _) hsub hmoved.1 (by omega)]
    exact iff_of_true rfl (Or.inr (hmoved.2.imp_right Or.inl))
  · rw [if_neg hmoved]
    by_cases hle : offset - sub ≤ zlecs
    · rw [shift_offset_stay hle]
      refine iff_of_true rfl ?_
      omega
    · have hlow : (zlecs : Int) < offset - sub := Int.not_le.mp hle
      have hzero : zlecs = 0 := by omega
      rw [shift_offset, if_pos hlow]
      split
      · rw [as_i32_of_lt (by omega) (by omega)]
        omega
      · rw [as_i32_of_lt (by omega) (by omega)]
        omega

/-- The start of a highlight is shifted back. -/
theorem shift_start_back {predisplaylen zlecs n len : Nat} {sub offset : Int} (hsub : 0 ≤ sub)
    (hsub' : sub ≤ predisplaylen) (hin : offset - sub ≤ len) (hroom : len + predisplaylen + n < 2 ^ 31) :
    shift_offset zlecs n sub (if zlecs ≤ offset - sub then as_i32 (offset + n) else offset) = offset := by
  split
  next hmoved =>
      exact shift_offset_back (Int.natCast_nonneg _) (Int.natCast_nonneg _) hsub hmoved (by omega)
  next hmoved => exact shift_offset_stay (Int.le_of_lt (Int.not_le.mp hmoved))

theorem sub_le (rhp : RegionHighlight) (predisplaylen : Nat) : rhp.sub predisplaylen ≤ predisplaylen := by
  rw [RegionHighlight.sub]
  split
  · exact Int.le_refl _
  · exact Int.natCast_nonneg _

theorem shift_space (rhp : RegionHighlight) {predisplaylen zlecs n len : Nat}
    (hstart : rhp.start - rhp.sub predisplaylen ≤ len) (hend : rhp.end_ - rhp.sub predisplaylen ≤ len)
    (hroom : len + predisplaylen + n < 2 ^ 31) :
    (rhp.space predisplaylen zlecs n).shift predisplaylen zlecs n = rhp ↔
      n = 0 ∨ predisplaylen = 0 ∨ zlecs ≠ 0 ∨ rhp.end_ ≤ rhp.sub predisplaylen := by
  have hsub := sub_nonneg rhp predisplaylen
  have hsub' := sub_le rhp predisplaylen
  rw [← shift_end_back hsub hsub' hend hroom]
  have hsame : shift_offset zlecs n (rhp.sub predisplaylen)
      (if zlecs ≤ rhp.start - rhp.sub predisplaylen then as_i32 (rhp.start + n) else rhp.start) = rhp.start :=
    shift_start_back hsub hsub' hstart hroom
  constructor
  · intro heq
    exact congrArg RegionHighlight.end_ heq
  · intro heq
    calc
      (rhp.space predisplaylen zlecs n).shift predisplaylen zlecs n =
          { rhp with
            start := shift_offset zlecs n (rhp.sub predisplaylen)
              (if zlecs ≤ rhp.start - rhp.sub predisplaylen then as_i32 (rhp.start + n) else rhp.start)
            end_ := shift_offset zlecs n (rhp.sub predisplaylen)
              (if zlecs ≤ rhp.end_ - rhp.sub predisplaylen ∧ (predisplaylen = 0 ∨ zlecs ≠ 0) then
                as_i32 (rhp.end_ + n)
              else rhp.end_) } := rfl
      _ = rhp := by rw [hsame, heq]

/-- What the space and the shift at the same place bring back. -/
structure Restores (s : ZleState) (n : Nat) : Prop where
  zleline : ∀ t, spaceinline n s = some t → (shiftchars s.zlecs n t).zleline = s.zleline
  zlell : ∀ t, spaceinline n s = some t → (shiftchars s.zlecs n t).zlell = s.zlell
  mark : ∀ t, spaceinline n s = some t → (shiftchars s.zlecs n t).mark = s.mark
  region_highlights : ∀ t, spaceinline n s = some t →
    ((shiftchars s.zlecs n t).region_highlights = s.region_highlights ↔ EndsMove s n)

theorem map_eq_iff {α : Type} {f : α → α} {l : List α} : l.map f = l ↔ ∀ x ∈ l, f x = x := by
  rw [show (l.map f = l) = (l.map f = l.map id) by rw [List.map_id], List.map_inj_left]
  exact Iff.rfl

theorem space_zero (rhp : RegionHighlight) {predisplaylen zlecs len : Nat}
    (hstart : rhp.start - rhp.sub predisplaylen ≤ len) (hend : rhp.end_ - rhp.sub predisplaylen ≤ len)
    (hroom : len + predisplaylen < 2 ^ 31) : rhp.space predisplaylen zlecs 0 = rhp := by
  have hsub := sub_nonneg rhp predisplaylen
  have hsub' := sub_le rhp predisplaylen
  have hone : ∀ x : Int, x - rhp.sub predisplaylen ≤ len → (zlecs : Int) ≤ x - rhp.sub predisplaylen →
      as_i32 (x + 0) = x := by
    intro x hx hlow
    rw [Int.add_zero]
    exact as_i32_of_lt (by omega) (by omega)
  have hs : (rhp.space predisplaylen zlecs 0).start = rhp.start := by
    dsimp only [RegionHighlight.space]
    split
    next hmoved => exact hone _ hstart hmoved
    next => rfl
  have he : (rhp.space predisplaylen zlecs 0).end_ = rhp.end_ := by
    dsimp only [RegionHighlight.space]
    split
    next hmoved => exact hone _ hend hmoved.1
    next => rfl
  calc
    rhp.space predisplaylen zlecs 0 =
        { rhp with
          start := (rhp.space predisplaylen zlecs 0).start
          end_ := (rhp.space predisplaylen zlecs 0).end_ } := rfl
    _ = rhp := by rw [hs, he]

/-- What `shiftchars` reads of the state that `spaceinline` leaves. -/
theorem spaceinline_reads (h : Sane start s) (hmeta : metaline s = none)
    (hroom : s.zleline.length + s.predisplay.length + n < 2 ^ 31) (ht : spaceinline n s = some t) :
    t.zleline = s.zleline.take s.zlecs ++ List.replicate n '\x00' ++ s.zleline.drop s.zlecs ∧
    t.mark = (if s.zlecs < s.mark then s.mark + n else s.mark) ∧ t.predisplay = s.predisplay ∧
    t.region_highlights = s.region_highlights.map (·.space s.predisplay.length s.zlecs n) := by
  rcases Nat.eq_zero_or_pos n with rfl | hpos
  · rw [spaceinline, if_pos (by omega)] at ht
    rw [← Option.some.inj ht]
    refine ⟨?_, ?_, rfl, ?_⟩
    · rw [List.replicate_zero, List.append_nil, List.take_append_drop]
    · rw [Nat.add_zero, ite_self]
    · symm
      apply map_eq_iff.mpr
      intro rhp hrhp
      obtain ⟨hstart, hend⟩ := h.fits.2 rhp hrhp
      exact space_zero rhp hstart hend hroom
  · rw [spaceinline_eq h (by omega) (by omega) hmeta] at ht
    rw [← Option.some.inj ht]
    exact ⟨rfl, rfl, rfl, rfl⟩

theorem restores (h : Sane start s) (hmeta : metaline s = none)
    (hroom : s.zleline.length + s.predisplay.length + n < 2 ^ 31) : Restores s n := by
  have hcs := h.zlecs
  have hmark := h.fits.1
  have husize : as_usize s.zlecs = s.zlecs := as_usize_of_lt (by omega)
  have husize' : as_usize n = n := as_usize_of_lt (by omega)
  have hline : ∀ t, spaceinline n s = some t → (shiftchars s.zlecs n t).zleline = s.zleline := by
    intro t ht
    have hread := (spaceinline_reads h hmeta hroom ht).1
    have hlen := length_spaced hcs n
    dsimp only [shiftchars]
    rw [husize, husize', hread, hlen]
    split
    next hle =>
        have hz : n = 0 := by omega
        rw [hz, List.replicate_zero, List.append_nil, List.take_append_drop]
    next =>
        have hpre : s.zlecs = (s.zleline.take s.zlecs).length := (List.length_take_of_le hcs).symm
        have hmid : s.zlecs + n = (s.zleline.take s.zlecs ++ List.replicate n '\x00').length := by
          rw [List.length_append, ← hpre, List.length_replicate]
        have htake : (s.zleline.take s.zlecs ++ List.replicate n '\x00' ++ s.zleline.drop s.zlecs).take s.zlecs =
            s.zleline.take s.zlecs := by
          rw [List.append_assoc, List.take_append_of_le_length (Nat.le_of_eq hpre), List.take_take,
            Nat.min_self]
        have hdrop : (s.zleline.take s.zlecs ++ List.replicate n '\x00' ++ s.zleline.drop s.zlecs).drop
            (s.zlecs + n) = s.zleline.drop s.zlecs := by
          rw [hmid, List.drop_left]
        rw [htake, hdrop]
        split
        next hle => rw [List.take_of_length_le (by omega)]
        next => rw [List.take_append_drop]
  constructor
  · exact hline
  · intro t ht
    rw [h.zlell, ← hline t ht]
    rfl
  · intro t ht
    have hread := (spaceinline_reads h hmeta hroom ht).2.1
    dsimp only [shiftchars]
    rw [hread]
    by_cases hlt : s.zlecs < s.mark
    · rw [if_pos hlt, as_i32_of_lt (n := (s.mark + n : Nat)) (by omega) (by omega),
        as_i32_of_lt (n := (s.zlecs : Int) + n) (by omega) (by omega), if_pos (by omega),
        as_i32_of_lt (by omega) (by omega), as_usize_toNat (by omega) (by omega)]
      omega
    · rw [if_neg hlt, as_i32_of_lt (n := s.mark) (by omega) (by omega),
        as_i32_of_lt (n := (s.zlecs : Int) + n) (by omega) (by omega)]
      split
      · rw [as_i32_of_lt (by omega) (by omega), as_usize_toNat (by omega) (by omega)]
        omega
      · rw [if_neg (by omega)]
  · intro t ht
    obtain ⟨-, -, hpre, hread⟩ := spaceinline_reads h hmeta hroom ht
    dsimp only [shiftchars]
    rw [hread, hpre, List.map_map, map_eq_iff]
    have hone : ∀ rhp ∈ s.region_highlights,
        ((rhp.space s.predisplay.length s.zlecs n).shift s.predisplay.length s.zlecs n = rhp ↔
          n = 0 ∨ s.predisplay.length = 0 ∨ s.zlecs ≠ 0 ∨ rhp.end_ ≤ rhp.sub s.predisplay.length) := by
      intro rhp hrhp
      obtain ⟨hstart, hend⟩ := h.fits.2 rhp hrhp
      exact shift_space rhp hstart hend hroom
    refine (forall₂_congr hone).trans ?_
    rw [EndsMove, List.length_eq_zero_iff]
    constructor
    · intro hall
      by_cases hfree : n = 0 ∨ s.predisplay = [] ∨ s.zlecs ≠ 0
      · rcases hfree with hz | hnil | hne
        · exact Or.inl hz
        · exact Or.inr (Or.inl hnil)
        · exact Or.inr (Or.inr (Or.inl hne))
      · refine Or.inr (Or.inr (Or.inr ?_))
        intro rhp hrhp
        rcases hall rhp hrhp with hz | hnil | hne | hle
        · exact absurd (Or.inl hz) hfree
        · exact absurd (Or.inr (Or.inl hnil)) hfree
        · exact absurd (Or.inr (Or.inr hne)) hfree
        · exact hle
    · rintro (hz | hnil | hne | hall) rhp hrhp
      · exact Or.inl hz
      · exact Or.inr (Or.inl hnil)
      · exact Or.inr (Or.inr (Or.inl hne))
      · exact Or.inr (Or.inr (Or.inr (hall rhp hrhp)))

/-- A state in which every slice by a position is in range. -/
structure Good (s : ZleState) : Prop extends Inside s where
  region : ∃ text, get_region s = some text
  cut : ∀ buf append, ∃ t, cut_to_buffer buf append s = some t
  restores : ∀ n, metaline s = none → s.zleline.length + s.predisplay.length + n < 2 ^ 31 → Restores s n

theorem Inside.region (h : Inside s) : ∃ text, Zle.region s = some text := by
  have hcs := h.zlecs
  have hmark := h.fits.1
  rw [Zle.region]
  split
  · exact ⟨_, if_pos ⟨by omega, hmark⟩⟩
  · exact ⟨_, if_pos ⟨by omega, hcs⟩⟩

theorem Sane.good (h : Sane start s) : Good s where
  toInside := h.toInside
  region := h.toInside.region
  cut := by
    intro buf append
    obtain ⟨text, htext⟩ := h.toInside.region
    rw [cut_to_buffer]
    cases s.vibuf[buf]? with
    | none => exact ⟨_, rfl⟩
    | some slot =>
        dsimp only
        rw [htext, Option.bind_eq_bind, Option.bind_some]
        exact ⟨_, rfl⟩
  restores := fun n hmeta hroom => Positions.restores h hmeta hroom

end

/-- The condition at a step of a run that has not panicked. -/
def MeetsAt (start : Line) (s : Option ZleState) (e : Event) : Prop := ∀ t, s = some t → Meets start t e

instance (start : Line) (s : Option ZleState) (e : Event) : Decidable (MeetsAt start s e) :=
  match s with
  | none => isTrue fun t ht => absurd ht.symm (Option.some_ne_none t)
  | some s => decidable_of_iff (Meets start s e) (by
      constructor
      · intro h t ht
        rw [← Option.some.inj ht]
        exact h
      · intro h
        exact h s rfl)

/-- No position leaves the line along a run whose steps meet the condition. -/
theorem positions_inside {start : Line} {s : ZleState} (h : Sane start s) {es : List Event}
    (hmeets : Along act (MeetsAt start) (some s) es) : ∃ t, run act (some s) es = some t ∧ Good t := by
  obtain ⟨t, ht, hsane⟩ : ∃ t, run act (some s) es = some t ∧ Sane start t := by
    apply hmeets.invariant (I := fun o => ∃ t, o = some t ∧ Sane start t)
    · rintro o e hm ⟨t, rfl, ht⟩
      exact step_sane ht (hm t rfl)
    · exact ⟨s, rfl, h⟩
  exact ⟨t, ht, hsane.good⟩

/-- A line that was just opened, with positions in it. -/
theorem opened_sane {s : ZleState} (h : Inside s) (hshort : s.zleline.length < 2 ^ 31) :
    Sane s.zleline { s with toEditor := initundo s.toEditor } where
  zlell := h.zlell
  zlecs := h.zlecs
  fits := h.fits
  history := Opened.faithful ⟨h.zlell, hshort, Nat.lt_of_le_of_lt h.zlecs hshort⟩
  cursors :=
    { changes := fun i ch hch => absurd hch (by
        show ¬ ([] : List Change)[i]? = some ch
        rw [List.getElem?_nil]
        exact Option.some_ne_none ch ∘ Eq.symm)
      lastcs := h.zlecs }

/-- Three chars, the cursor at their start, the mark at their end and a highlight over the first two. -/
def abc : ZleState :=
  { toEditor := initundo { blank with zleline := ['a', 'b', 'c'], zlell := 3 }
    mark := 3
    region_highlights := [⟨0, 2, 0⟩]
    predisplay := []
    viinsbegin := 0
    region_active := 0
    zlemetaline := none
    zlemetall := 0
    zlemetacs := 0
    vibuf := [] }

theorem abc_sane : Sane ['a', 'b', 'c'] abc :=
  opened_sane (s := { abc with toEditor := { blank with zleline := ['a', 'b', 'c'], zlell := 3 } })
    ⟨rfl, by decide, by decide⟩ (by decide)

/-- Space that is taken back, the deletion undone and redone, and an insertion cut short again. -/
def edits : List Event :=
  [.spaceinline 2, .handleundo, .shiftchars 0 2, .undo [], .redo, .insert_str ['x', 'y'], .backspace_chars 1,
    .viundochange [['7']]]

theorem edits_inside :
    Along act (MeetsAt ['a', 'b', 'c']) (some abc) edits ∧ ∃ t, run act (some abc) edits = some t ∧ Good t :=
  have hmeets : Along act (MeetsAt ['a', 'b', 'c']) (some abc) edits := by decide
  ⟨hmeets, positions_inside abc_sane hmeets⟩

/-- An undo takes the inserted char back and leaves the mark, so that the region is sliced out of the line. -/
theorem undo_leaves_mark :
    Inside abc ∧
      ∃ t, run act (some abc) [.spaceinline 1, .undo []] = some t ∧ ¬ Inside t ∧ get_region t = none := by
  refine ⟨abc_sane.toInside, _, rfl, ?_, rfl⟩
  intro h
  exact absurd h.fits.1 (by decide)

end Zshrs.Zle.Positions
