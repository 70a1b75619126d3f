import Zshrs.Zle.UndoHistory

namespace Zshrs.Zle

open Lib

/-- The history and the snapshot stand for the line since the edit began. -/
structure Faithful (start : Line) (s : Editor) : Prop where
  trail : Trail start s.undo_stack
  zlell : s.zlell = s.zleline.length
  lastll : s.lastll = s.lastline.length
  within : s.curchange ≤ s.undo_stack.length
  lastline : s.lastline = line_at start s.undo_stack s.curchange
  whole : joined s.undo_stack s.curchange = false
  few : s.undo_stack.length ≤ s.undo_changeno
  counted : s.undo_changeno < 2 ^ 31
  short : s.zleline.length < 2 ^ 31
  zlecs : s.zlecs < 2 ^ 31
  lastcs : s.lastcs < 2 ^ 31

/-- An editor that a walk along the history has brought to a position. -/
def placed (start : Line) (s : Editor) (i cs : Nat) : Editor :=
  { s with
    zleline := line_at start s.undo_stack i
    zlell := (line_at start s.undo_stack i).length
    zlecs := cs
    curchange := i }

/-- Whether `undo` without arguments stops above a change. -/
def past_limit (s : Editor) (i : Nat) : Bool :=
  s.undo_stack[i]?.any fun ch => as_usize ch.changeno ≤ s.undo_limitno

/-- The cursor that the history has for a position, or that the editor has there. -/
def CursorAt (s : Editor) (i cs : Nat) : Prop :=
  i = s.curchange ∧ cs = s.zlecs ∨ (∃ ch, s.undo_stack[i]? = some ch ∧ cs = as_usize ch.old_cs) ∨
    ∃ m ch, i = m + 1 ∧ s.undo_stack[m]? = some ch ∧ cs = as_usize ch.new_cs

/-- Where an undo to a change number stops. -/
def undone_to (stack : List Change) (target : Int) : Nat → Nat
  | 0 => 0
  | i + 1 => if stack[i]?.any fun ch => target < ch.changeno then undone_to stack target i else i + 1

theorem undone_to_succ {stack : List Change} {i : Nat} {ch : Change} (h : stack[i]? = some ch)
    (target : Int) :
    undone_to stack target (i + 1) = if target < ch.changeno then undone_to stack target i else i + 1 := by
  rw [undone_to, h]
  simp only [Option.any_some, decide_eq_true_iff]

theorem undone_to_le (stack : List Change) (target : Int) (i : Nat) : undone_to stack target i ≤ i := by
  induction i with
  | zero => exact Nat.le_refl 0
  | succ i ih =>
      rw [undone_to]
      split
      · exact Nat.le_succ_of_le ih
      · exact Nat.le_refl _

section

variable {start : Line} {s : Editor} {i k cs fuel : Nat} {ch : Change}

theorem Faithful.settled_placed (h : Faithful start s) (hs : s.lastline = s.zleline) :
    s = placed start s s.curchange s.zlecs := by
  have hline : s.zleline = line_at start s.undo_stack s.curchange := hs.symm.trans h.lastline
  rw [placed, ← hline, ← h.zlell]

theorem Faithful.setlastline_placed (h : Faithful start s) (hi : i ≤ s.undo_stack.length)
    (hj : joined s.undo_stack i = false) (hcs : cs < 2 ^ 31) :
    Faithful start (setlastline (placed start s i cs)) where
  trail := h.trail
  zlell := rfl
  lastll := rfl
  within := hi
  lastline := rfl
  whole := hj
  few := h.few
  counted := h.counted
  short := h.trail.short i
  zlecs := hcs
  lastcs := hcs

theorem Faithful.cursorAt_lt (h : Faithful start s) (hcs : CursorAt s i cs) : cs < 2 ^ 31 := by
  rcases hcs with ⟨-, rfl⟩ | ⟨ch, hch, rfl⟩ | ⟨m, ch, -, hch, rfl⟩
  · exact h.zlecs
  · exact (h.trail.cursors ch (List.mem_of_getElem? hch)).1
  · exact (h.trail.cursors ch (List.mem_of_getElem? hch)).2

theorem Faithful.setlastline (h : Faithful start s) (hs : s.lastline = s.zleline) :
    Faithful start (setlastline s) := by
  rw [h.settled_placed hs]
  exact h.setlastline_placed h.within h.whole h.zlecs

/-- The change that a commit of the pending edit records. -/
def recorded (s : Editor) : Change :=
  new_change s.lastline s.zleline s.lastcs s.zlecs (s.undo_changeno + 1)

theorem Faithful.handleundo_settled (h : Faithful start s) (hs : s.lastline = s.zleline) :
    handleundo s = Zle.setlastline s := by
  have hsame : s.lastline.take s.lastll = s.zleline.take s.zlell := by
    rw [h.lastll, h.zlell, List.take_length, List.take_length, hs]
  rw [handleundo, mkundoent, if_pos hsame]
  rfl

theorem Faithful.handleundo_pending (h : Faithful start s) (hs : s.lastline ≠ s.zleline)
    (hroom : s.undo_changeno + 1 < 2 ^ 31) :
    handleundo s = Zle.setlastline
      { s with
        undo_changeno := s.undo_changeno + 1
        undo_stack := s.undo_stack.take s.curchange ++ [recorded s]
        curchange := s.curchange + 1 } := by
  have hzle : s.zleline.take s.zlell = s.zleline := by rw [h.zlell, List.take_length]
  have hlast : s.lastline.take s.lastll = s.lastline := by rw [h.lastll, List.take_length]
  have hno : (s.undo_changeno + 1) % 2 ^ 64 = s.undo_changeno + 1 := Nat.mod_eq_of_lt (by omega)
  have hlen : (s.undo_stack.take s.curchange ++ [recorded s]).length = s.curchange + 1 := by
    rw [List.length_append, List.length_take_of_le h.within, List.length_singleton]
  rw [handleundo, mkundoent, hzle, hlast, if_neg hs, hno]
  dsimp only [recorded] at hlen ⊢
  rw [hlen]

theorem handleundo_zleline (s : Editor) : (handleundo s).zleline = s.zleline := by
  rw [handleundo, mkundoent]
  split
  · rfl
  · rfl

theorem handleundo_zlecs (s : Editor) : (handleundo s).zlecs = s.zlecs := by
  rw [handleundo, mkundoent]
  split
  · rfl
  · rfl

theorem Faithful.recorded_acts (h : Faithful start s) :
    (recorded s).act s.lastline = s.zleline ∧ (recorded s).back s.zleline = s.lastline := by
  have hlast : s.lastline.length < 2 ^ 31 := by
    rw [h.lastline]
    exact h.trail.short _
  exact new_change_acts hlast h.short _ _ _

theorem Faithful.recorded_cursors (h : Faithful start s) :
    as_usize (recorded s).old_cs = s.lastcs ∧ as_usize (recorded s).new_cs = s.zlecs := by
  have hold : (recorded s).old_cs = as_i32 s.lastcs := by dsimp only [recorded, new_change]
  have hnew : (recorded s).new_cs = as_i32 s.zlecs := by dsimp only [recorded, new_change]
  rw [hold, hnew]
  exact ⟨as_usize_as_i32 h.lastcs, as_usize_as_i32 h.zlecs⟩

/-- A commit leaves the snapshot at the line and keeps the history. -/
theorem Faithful.handleundo (h : Faithful start s) (hroom : s.undo_changeno + 1 < 2 ^ 31) :
    Faithful start (handleundo s) := by
  by_cases hs : s.lastline = s.zleline
  · rw [h.handleundo_settled hs]
    exact h.setlastline hs
  · rw [h.handleundo_pending hs hroom]
    have hlen : (s.undo_stack.take s.curchange).length = s.curchange := List.length_take_of_le h.within
    have hat : line_at start (s.undo_stack.take s.curchange) (s.undo_stack.take s.curchange).length =
        s.lastline := by
      rw [hlen, line_at_take (Nat.le_refl _), ← h.lastline]
    obtain ⟨hact, hback⟩ := h.recorded_acts
    obtain ⟨hold, hnew⟩ := h.recorded_cursors
    have htrail : Trail start (s.undo_stack.take s.curchange ++ [recorded s]) := by
      apply (h.trail.take h.whole).push
      · rw [hat, hact, hback]
      · rfl
      · have hno : (recorded s).changeno = as_i64 (s.undo_changeno + 1 : Nat) := by
          dsimp only [recorded, new_change]
        rw [hno, as_i64, Int.bmod_eq_of_le_mul_two (by omega) (by omega)]
        exact Int.natCast_nonneg _
      · rw [hat, hact]
        exact h.short
      · rw [hold, hnew]
        exact ⟨h.lastcs, h.zlecs⟩
    have hall : (s.undo_stack.take s.curchange ++ [recorded s]).length = s.curchange + 1 := by
      rw [List.length_append, hlen, List.length_singleton]
    exact
      { trail := htrail
        zlell := h.zlell
        lastll := h.zlell
        within := Nat.le_of_eq hall.symm
        lastline := by
          have hend : line_at start (s.undo_stack.take s.curchange ++ [recorded s]) (s.curchange + 1) =
              (recorded s).act s.lastline := by
            rw [line_at_length_le (Nat.le_of_eq hall), Patches.replay_push, ← hat,
              ← line_at_length_le (Nat.le_refl _)]
          exact (hend.trans hact).symm
        whole := joined_of_ge (Nat.le_of_eq hall)
        few := by
          have hfew := h.few
          have hwithin := h.within
          show (s.undo_stack.take s.curchange ++ [recorded s]).length ≤ s.undo_changeno + 1
          omega
        counted := hroom
        short := h.short
        zlecs := h.zlecs
        lastcs := h.zlecs }

theorem unapplychange_placed (h : Faithful start s) (hch : s.undo_stack[i]? = some ch) :
    unapplychange (placed start s (i + 1) cs) (as_i32 i) =
      ({ placed start s i (as_usize ch.old_cs) with curchange := i + 1 }, 1) := by
  have hlt := (List.getElem?_eq_some_iff.mp hch).1
  have hfew := h.few
  have hcounted := h.counted
  have hidx : (placed start s (i + 1) cs).undo_stack[as_usize (as_i32 i)]? = some ch := by
    rw [as_usize_as_i32 (by omega)]
    exact hch
  have hline : ch.back (placed start s (i + 1) cs).zleline = line_at start s.undo_stack i :=
    h.trail.back hch
  rw [unapplychange, hidx]
  dsimp only
  rw [hline]
  rfl

/-- One round of the loop of `undo` on a change that it takes back. -/
theorem undo_loop_succ (h : Faithful start s) (hch : s.undo_stack[i]? = some ch) {last_change : Int}
    {args_empty : Bool} (htarget : last_change < ch.changeno)
    (hlimit : ¬ (as_usize ch.changeno ≤ s.undo_limitno ∧ args_empty = true)) :
    undo_loop last_change args_empty (fuel + 1) (placed start s (i + 1) cs) =
      if 0 ≤ last_change ∨ ch.flags &&& CH_PREV ≠ 0 then
        undo_loop last_change args_empty fuel (placed start s i (as_usize ch.old_cs))
      else (setlastline (placed start s i (as_usize ch.old_cs)), 0) := by
  have hget : (placed start s (i + 1) cs).undo_stack[(placed start s (i + 1) cs).curchange - 1]? =
      some ch := hch
  have hidx : (placed start s (i + 1) cs).curchange - 1 = i := rfl
  have hpos : ¬ (placed start s (i + 1) cs).curchange = 0 := Nat.succ_ne_zero i
  have hun : unapplychange (placed start s (i + 1) cs) (as_i32 i) =
      ({ placed start s i (as_usize ch.old_cs) with curchange := i + 1 }, 1) := unapplychange_placed h hch
  rw [undo_loop, if_neg hpos]
  dsimp only
  rw [hget]
  dsimp only
  have hfree : ¬ (as_usize ch.changeno ≤ (placed start s (i + 1) cs).undo_limitno ∧ args_empty = true) :=
    hlimit
  rw [if_neg (Int.not_le.mpr htarget), if_neg hfree, hidx, hun]
  rfl

theorem past_limit_eq (hch : s.undo_stack[i]? = some ch) :
    past_limit s i = decide (as_usize ch.changeno ≤ s.undo_limitno) := by
  rw [past_limit, hch]
  rfl

/-- Without a target, `undo` takes back the group that ends at the position. -/
theorem undo_loop_group (h : Faithful start s) {last_change : Int} {args_empty : Bool}
    (hneg : last_change < 0) (hk : k < s.undo_stack.length) (hfuel : k < fuel)
    (hlimit : args_empty = true → ∀ m, group_start s.undo_stack (k + 1) ≤ m → m ≤ k → past_limit s m = false) :
    ∃ ch, s.undo_stack[group_start s.undo_stack (k + 1)]? = some ch ∧
      undo_loop last_change args_empty fuel (placed start s (k + 1) cs) =
        (setlastline (placed start s (group_start s.undo_stack (k + 1)) (as_usize ch.old_cs)), 0) := by
  induction k generalizing fuel cs with
  | zero =>
      obtain ⟨fuel, rfl⟩ := Nat.exists_eq_add_one.mpr hfuel
      obtain ⟨ch, hch⟩ : ∃ ch, s.undo_stack[0]? = some ch := ⟨_, List.getElem?_eq_getElem hk⟩
      have hfirst := h.trail.first
      have hstart : group_start s.undo_stack 1 = 0 := by
        rw [group_start, if_neg (Bool.eq_false_iff.mp hfirst)]
      have hno := h.trail.numbered ch (List.mem_of_getElem? hch)
      rw [hstart] at hlimit ⊢
      rw [joined_eq hch, decide_eq_false_iff_not] at hfirst
      refine ⟨ch, hch, ?_⟩
      rw [undo_loop_succ h hch (by omega) (by
        rintro ⟨hle, hempty⟩
        have hfree := hlimit hempty 0 (Nat.le_refl 0) (Nat.le_refl 0)
        rw [past_limit_eq hch, decide_eq_false_iff_not] at hfree
        exact hfree hle)]
      rw [if_neg]
      rintro (hpos | hprev)
      · omega
      · exact hfirst hprev
  | succ k ih =>
      obtain ⟨fuel, rfl⟩ := Nat.exists_eq_add_one.mpr (Nat.lt_of_le_of_lt (Nat.zero_le _) hfuel)
      obtain ⟨ch, hch⟩ : ∃ ch, s.undo_stack[k + 1]? = some ch := ⟨_, List.getElem?_eq_getElem hk⟩
      have hno := h.trail.numbered ch (List.mem_of_getElem? hch)
      have hle : group_start s.undo_stack (k + 1 + 1) ≤ k + 1 :=
        Nat.lt_succ_iff.mp (group_start_lt (Nat.succ_pos _))
      rw [undo_loop_succ h hch (by omega) (by
        rintro ⟨hle', hempty⟩
        have hfree := hlimit hempty (k + 1) hle (Nat.le_refl _)
        rw [past_limit_eq hch, decide_eq_false_iff_not] at hfree
        exact hfree hle')]
      by_cases hj : joined s.undo_stack (k + 1) = true
      · have hstart : group_start s.undo_stack (k + 1 + 1) = group_start s.undo_stack (k + 1) := by
          rw [group_start, if_pos hj]
        rw [hstart] at hlimit ⊢
        rw [joined_eq hch, decide_eq_true_iff] at hj
        rw [if_pos (Or.inr hj)]
        exact ih (by omega) (by omega) fun hempty m hlow hm =>
          hlimit hempty m hlow (Nat.le_succ_of_le hm)
      · have hstart : group_start s.undo_stack (k + 1 + 1) = k + 1 := by
          rw [group_start, if_neg hj]
        rw [joined_eq hch, decide_eq_true_iff] at hj
        rw [hstart, if_neg (by
          rintro (hpos | hprev)
          · omega
          · exact hj hprev)]
        exact ⟨ch, hch, rfl⟩

/-- With a target that some applied change has reached, `undo` stops there. -/
theorem undo_loop_target (h : Faithful start s) {target : Int} (hpos : 0 ≤ target)
    (hk : k ≤ s.undo_stack.length) (hfuel : k < fuel) (hstop : 0 < undone_to s.undo_stack target k) :
    ∃ cs', (undone_to s.undo_stack target k = k ∧ cs' = cs ∨
        ∃ ch, s.undo_stack[undone_to s.undo_stack target k]? = some ch ∧ cs' = as_usize ch.old_cs) ∧
      undo_loop target false fuel (placed start s k cs) =
        (setlastline (placed start s (undone_to s.undo_stack target k) cs'), 0) := by
  induction k generalizing fuel cs with
  | zero => exact absurd hstop (Nat.lt_irrefl 0)
  | succ k ih =>
      obtain ⟨fuel, rfl⟩ := Nat.exists_eq_add_one.mpr (Nat.lt_of_le_of_lt (Nat.zero_le _) hfuel)
      obtain ⟨ch, hch⟩ : ∃ ch, s.undo_stack[k]? = some ch := ⟨_, List.getElem?_eq_getElem hk⟩
      rw [undone_to_succ hch] at hstop ⊢
      by_cases hlt : target < ch.changeno
      · rw [if_pos hlt] at hstop ⊢
        rw [undo_loop_succ h hch hlt (by
          rintro ⟨-, hempty⟩
          exact Bool.false_ne_true hempty), if_pos (Or.inl hpos)]
        obtain ⟨cs', hcs', hloop⟩ : ∃ cs', (undone_to s.undo_stack target k = k ∧ cs' = as_usize ch.old_cs ∨
              ∃ ch, s.undo_stack[undone_to s.undo_stack target k]? = some ch ∧ cs' = as_usize ch.old_cs) ∧
            undo_loop target false fuel (placed start s k (as_usize ch.old_cs)) =
              (setlastline (placed start s (undone_to s.undo_stack target k) cs'), 0) :=
          ih (by omega) (by omega) hstop
        refine ⟨cs', Or.inr ?_, hloop⟩
        rcases hcs' with ⟨hk', rfl⟩ | hcs'
        · rw [hk']
          exact ⟨ch, hch, rfl⟩
        · exact hcs'
      · rw [if_neg hlt]
        have hget : (placed start s (k + 1) cs).undo_stack[(placed start s (k + 1) cs).curchange - 1]? =
            some ch := hch
        have hne : ¬ (placed start s (k + 1) cs).curchange = 0 := Nat.succ_ne_zero k
        refine ⟨cs, Or.inl ⟨rfl, rfl⟩, ?_⟩
        rw [undo_loop, if_neg hne]
        dsimp only
        rw [hget]
        dsimp only
        rw [if_pos (Int.not_lt.mp hlt)]

theorem applychange_placed (h : Faithful start s) (hch : s.undo_stack[i]? = some ch) :
    applychange (placed start s i cs) (as_i32 i) =
      ({ placed start s (i + 1) (as_usize ch.new_cs) with curchange := i }, 1) := by
  have hlt := (List.getElem?_eq_some_iff.mp hch).1
  have hfew := h.few
  have hcounted := h.counted
  have hidx : (placed start s i cs).undo_stack[as_usize (as_i32 i)]? = some ch := by
    rw [as_usize_as_i32 (by omega)]
    exact hch
  have hline : ch.act (placed start s i cs).zleline = line_at start s.undo_stack (i + 1) := Trail.act hch
  rw [applychange, hidx]
  dsimp only
  rw [hline]
  rfl

/-- One round of the loop of `redo`, which goes on while the next change is joined to this one. -/
theorem redo_loop_succ (h : Faithful start s) (hch : s.undo_stack[i]? = some ch) :
    redo_loop (fuel + 1) (placed start s i cs) =
      if joined s.undo_stack (i + 1) then redo_loop fuel (placed start s (i + 1) (as_usize ch.new_cs))
      else (setlastline (placed start s (i + 1) (as_usize ch.new_cs)), 0) := by
  have hget : (placed start s i cs).undo_stack[(placed start s i cs).curchange]? = some ch := hch
  have hidx : (placed start s i cs).curchange = i := rfl
  have happly : applychange (placed start s i cs) (as_i32 i) =
      ({ placed start s (i + 1) (as_usize ch.new_cs) with curchange := i }, 1) := applychange_placed h hch
  rw [← h.trail.linked, joins_eq hch, redo_loop]
  dsimp only
  rw [hget]
  dsimp only
  rw [hidx, happly]
  dsimp only
  rw [if_neg Nat.one_ne_zero]
  by_cases hnext : ch.flags &&& CH_NEXT ≠ 0
  · rw [if_pos hnext, if_pos (decide_eq_true hnext)]
    rfl
  · rw [if_neg hnext, if_neg (by rw [decide_eq_true_iff]; exact hnext)]
    rfl

/-- `redo` applies a group to its end. -/
theorem redo_loop_group (h : Faithful start s) (hik : i < k) (hk : k ≤ s.undo_stack.length)
    (hend : joined s.undo_stack k = false) (hmid : ∀ m, i < m → m < k → joined s.undo_stack m = true)
    (hfuel : k - i ≤ fuel) :
    ∃ ch, s.undo_stack[k - 1]? = some ch ∧
      redo_loop fuel (placed start s i cs) = (setlastline (placed start s k (as_usize ch.new_cs)), 0) := by
  induction fuel generalizing i cs with
  | zero => omega
  | succ fuel ih =>
      obtain ⟨ch, hch⟩ : ∃ ch, s.undo_stack[i]? = some ch :=
        ⟨_, List.getElem?_eq_getElem (Nat.lt_of_lt_of_le hik hk)⟩
      rw [redo_loop_succ h hch]
      rcases Nat.lt_or_eq_of_le (Nat.succ_le_of_lt hik) with hlt | heq
      · rw [if_pos (hmid (i + 1) (Nat.lt_succ_self i) hlt)]
        apply ih hlt
        · intro m hlow hm
          exact hmid m (by omega) hm
        · omega
      · have hstop : joined s.undo_stack (i + 1) = false := by
          rw [← heq] at hend
          exact hend
        have hlast : k - 1 = i := by omega
        rw [if_neg (Bool.eq_false_iff.mp hstop), hlast]
        refine ⟨ch, hch, ?_⟩
        rw [← heq]

theorem redo_loop_end (hi : s.undo_stack.length ≤ s.curchange) : redo_loop fuel s = (s, 1) := by
  cases fuel with
  | zero => rfl
  | succ fuel =>
      rw [redo_loop]
      dsimp only
      rw [List.getElem?_eq_none hi]

theorem reapply_placed (h : Faithful start s) {n : Nat} (hn : i + n ≤ s.undo_stack.length) :
    ∃ cs', (n = 0 ∧ cs' = cs ∨
        ∃ m ch, i + n = m + 1 ∧ s.undo_stack[m]? = some ch ∧ cs' = as_usize ch.new_cs) ∧
      reapply n (placed start s i cs) = placed start s (i + n) cs' := by
  induction n generalizing i cs with
  | zero => exact ⟨cs, Or.inl ⟨rfl, rfl⟩, rfl⟩
  | succ n ih =>
      obtain ⟨ch, hch⟩ : ∃ ch, s.undo_stack[i]? = some ch := ⟨_, List.getElem?_eq_getElem (by omega)⟩
      have happly : applychange (placed start s i cs) (as_i32 i) =
          ({ placed start s (i + 1) (as_usize ch.new_cs) with curchange := i }, 1) :=
        applychange_placed h hch
      have hidx : (placed start s i cs).curchange = i := rfl
      have hnext : i + (n + 1) = i + 1 + n := by omega
      rw [reapply, hnext]
      dsimp only
      rw [hidx, happly]
      obtain ⟨cs', hcs', hre⟩ : ∃ cs', (n = 0 ∧ cs' = as_usize ch.new_cs ∨
            ∃ m ch, i + 1 + n = m + 1 ∧ s.undo_stack[m]? = some ch ∧ cs' = as_usize ch.new_cs) ∧
          reapply n (placed start s (i + 1) (as_usize ch.new_cs)) = placed start s (i + 1 + n) cs' :=
        ih (by omega)
      refine ⟨cs', Or.inr ?_, hre⟩
      rcases hcs' with ⟨rfl, rfl⟩ | hcs'
      · exact ⟨i, ch, rfl, hch, rfl⟩
      · exact hcs'

end

end Zshrs.Zle
