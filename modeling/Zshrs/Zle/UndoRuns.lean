import Zshrs.Lib.Runs
import Zshrs.Zle.UndoMerge

namespace Zshrs.Zle.Undo

open Lib Runs

inductive Event where
  /-- Any edit of the line and the cursor. -/
  | edit (line : Line) (cs : Nat)
  | handleundo
  | mkundoent
  | undo (args : List (List Char))
  | redo
  | viundochange (args : List (List Char))
  | splitundo
  | mergeundo
  | startvitext
  | set_undo_limit_change (value : Int)
  deriving DecidableEq

def step (s : Editor) : Event → Editor
  | .edit line cs => { s with zleline := line, zlell := line.length, zlecs := cs }
  | .handleundo => handleundo s
  | .mkundoent => mkundoent s
  | .undo args => (undo args s).1
  | .redo => (redo s).1
  | .viundochange args => (viundochange args s).1
  | .splitundo => splitundo s
  | .mergeundo => mergeundo s
  | .startvitext => startvitext s
  | .set_undo_limit_change value => set_undo_limit_change value s

/-- Whether an event ends with the snapshot of the line. -/
def Event.commits : Event → Bool
  | .handleundo | .undo _ | .redo | .viundochange _ | .splitundo => true
  | _ => false

/-- Where `undo` ends in a committed line's history. -/
def undo_end (s : Editor) (args : List (List Char)) : Nat :=
  if last_change args < 0 then
    if args = [] ∧ past_limit s (s.curchange - 1) = true then s.curchange
    else group_start s.undo_stack s.curchange
  else undone_to s.undo_stack (last_change args) s.curchange

/-- From a committed line, `undo` returns where it sets the snapshot or has taken nothing back, and stops
between two groups. -/
def Stops (s : Editor) (args : List (List Char)) : Prop :=
  if last_change args < 0 then
    args = [] → past_limit s (s.curchange - 1) = true ∨
      ∀ i < s.curchange, group_start s.undo_stack s.curchange ≤ i → past_limit s i = false
  else
    undone_to s.undo_stack (last_change args) s.curchange = s.curchange ∨
      0 < undone_to s.undo_stack (last_change args) s.curchange ∧
        joined s.undo_stack (undone_to s.undo_stack (last_change args) s.curchange) = false

instance (s : Editor) (args : List (List Char)) : Decidable (Stops s args) := by
  unfold Stops
  infer_instance

/-- One more change has a number that an `i32` index holds. -/
def Room (s : Editor) : Prop := s.undo_changeno + 1 < 2 ^ 31

/-- The steps on which the history stays faithful. -/
def Meets (s : Editor) : Event → Prop
  | .edit line cs => line.length < 2 ^ 31 ∧ cs < 2 ^ 31
  | .mkundoent => s.lastline = s.zleline
  | .undo args => Room s ∧ Stops (handleundo s) args
  | .viundochange args =>
      Room s ∧ ((handleundo s).curchange < (handleundo s).undo_stack.length ∨ Stops (handleundo s) args)
  | .handleundo | .redo | .splitundo => Room s
  | .mergeundo | .startvitext | .set_undo_limit_change _ => True

instance (s : Editor) : Decidable (Room s) := inferInstanceAs (Decidable (_ < _))

instance (s : Editor) (e : Event) : Decidable (Meets s e) :=
  match e with
  | .edit _ _ => inferInstanceAs (Decidable (_ ∧ _))
  | .mkundoent => inferInstanceAs (Decidable (_ = _))
  | .undo _ => inferInstanceAs (Decidable (_ ∧ _))
  | .viundochange _ => inferInstanceAs (Decidable (_ ∧ (_ ∨ _)))
  | .handleundo | .redo | .splitundo => inferInstanceAs (Decidable (Room s))
  | .mergeundo | .startvitext | .set_undo_limit_change _ => isTrue trivial

/-- What a redo after an undo of one group brings back. -/
structure Restored (s t : Editor) : Prop where
  redone : (redo t).2 = 0
  zleline : (redo t).1.zleline = s.zleline
  curchange : (redo t).1.curchange = (handleundo s).curchange
  /-- The cursor is where the last change left it, and there it was unless it has moved since. -/
  zlecs : ∃ ch, (handleundo s).undo_stack[(handleundo s).curchange - 1]? = some ch ∧
    ((redo t).1.zlecs = s.zlecs ↔ as_usize ch.new_cs = s.zlecs)
  pending : s.lastline ≠ s.zleline → (redo t).1.zlecs = s.zlecs

/-- A faithful history, at one step of a run that began with the line `start`. -/
structure Kept (start : Line) (s : Editor) (e : Event) : Prop where
  replayed : (step s e).lastline = (step s e).zleline →
    (step s e).zleline = line_at start (step s e).undo_stack (step s e).curchange
  settled : e.commits = true →
    (step s e).lastline = (step s e).zleline ∧ (step s e).lastll = (step s e).zlell
  restored : ∀ args, e = .undo args ∨ e = .viundochange args →
    (step s e).curchange < (handleundo s).curchange →
    group_start (step s e).undo_stack (handleundo s).curchange = (step s e).curchange →
    Restored s (step s e)
  recorded : e = .handleundo → s.lastline ≠ s.zleline →
    ∃ ch, (step s e).undo_stack = s.undo_stack.take s.curchange ++ [ch] ∧
      (step s e).curchange = s.curchange + 1
  unrecorded : e = .handleundo → s.lastline = s.zleline →
    (step s e).undo_stack = s.undo_stack ∧ (step s e).curchange = s.curchange
  /-- No step ends inside a group. -/
  whole : joined (step s e).undo_stack (step s e).curchange = false
  undone : ∀ args, e = .undo args → last_change args < 0 →
    (step s e).curchange = group_start (step s e).undo_stack (handleundo s).curchange ∨
      args = [] ∧ (step s e).curchange = (handleundo s).curchange ∧
        past_limit (handleundo s) ((handleundo s).curchange - 1) = true
  redone : e = .redo → (handleundo s).curchange < (handleundo s).undo_stack.length →
    group_start (step s e).undo_stack (step s e).curchange = (handleundo s).curchange ∧
      (handleundo s).curchange < (step s e).curchange
  merged : e = .mergeundo → ∀ i, 0 < i → i < s.curchange → Since s.vistartchange s.undo_stack i s.curchange →
    joined (step s e).undo_stack i = true

section

variable {start : Line} {s t : Editor} {e : Event} {i : Nat} {args : List (List Char)}

/-- A faithful history whose snapshot was just taken. -/
structure Clean (start : Line) (t : Editor) : Prop extends Faithful start t where
  clean : setlastline t = t

theorem Clean.settled (h : Clean start t) : t.lastline = t.zleline := by
  rw [← h.clean]
  rfl

theorem clean_handleundo (h : Faithful start s) (hroom : Room s) : Clean start (handleundo s) where
  toFaithful := h.handleundo hroom
  clean := rfl

theorem Clean.handleundo_eq (h : Clean start t) : handleundo t = t :=
  (h.toFaithful.handleundo_settled h.settled).trans h.clean

theorem Clean.at_place (h : Clean start t) : t = setlastline (placed start t t.curchange t.zlecs) := by
  rw [← h.settled_placed h.settled, h.clean]

theorem clean_placed (h : Faithful start s) (hi : i ≤ s.undo_stack.length)
    (hj : joined s.undo_stack i = false) {cs : Nat} (hcs : cs < 2 ^ 31) :
    Clean start (setlastline (placed start s i cs)) where
  toFaithful := h.setlastline_placed hi hj hcs
  clean := rfl

/-- What a walk along a clean history leaves. -/
def Walked (start : Line) (t r : Editor) (i : Nat) : Prop :=
  i ≤ t.undo_stack.length ∧ joined t.undo_stack i = false ∧
    ∃ cs, CursorAt t i cs ∧ r = setlastline (placed start t i cs)

theorem Walked.clean {r : Editor} (h : Walked start t r i) (ht : Faithful start t) : Clean start r := by
  obtain ⟨hi, hj, cs, hcs, rfl⟩ := h
  exact clean_placed ht hi hj (ht.cursorAt_lt hcs)

theorem Clean.walked (h : Clean start t) : Walked start t t t.curchange :=
  ⟨h.within, h.whole, t.zlecs, Or.inl ⟨rfl, rfl⟩, h.at_place⟩

theorem Walked.undo_stack {r : Editor} (h : Walked start t r i) : r.undo_stack = t.undo_stack := by
  obtain ⟨-, -, cs, -, rfl⟩ := h
  rfl

theorem Walked.curchange {r : Editor} (h : Walked start t r i) : r.curchange = i := by
  obtain ⟨-, -, cs, -, rfl⟩ := h
  rfl

theorem undo_loop_zero {last_change : Int} {args_empty : Bool} {fuel : Nat} (hz : t.curchange = 0) :
    undo_loop last_change args_empty (fuel + 1) t = (t, 1) := by rw [undo_loop, if_pos hz]

theorem undo_loop_limited (h : Clean start t) {fuel : Nat} (hpos : 0 < t.curchange)
    (hlimit : past_limit t (t.curchange - 1) = true) :
    undo_loop (-1) true (fuel + 1) t = (t, 1) := by
  have hwithin := h.within
  obtain ⟨ch, hch⟩ : ∃ ch, t.undo_stack[t.curchange - 1]? = some ch :=
    ⟨_, List.getElem?_eq_getElem (by omega)⟩
  have hno := h.trail.numbered ch (List.mem_of_getElem? hch)
  rw [past_limit_eq hch, decide_eq_true_iff] at hlimit
  rw [undo_loop, if_neg (Nat.ne_of_gt hpos)]
  dsimp only
  rw [hch]
  dsimp only
  rw [if_neg (by omega), if_pos ⟨hlimit, rfl⟩]

theorem undo_end_le (hfirst : 0 < t.curchange) (args : List (List Char)) : undo_end t args ≤ t.curchange := by
  rw [undo_end]
  split
  · split
    · exact Nat.le_refl _
    · exact Nat.le_of_lt (group_start_lt hfirst)
  · exact undone_to_le _ _ _

/-- An undo without a target goes back one group, unless the limit is in the way. -/
theorem Clean.undo_group (h : Clean start t) (hneg : last_change args < 0) (hpos : 0 < t.curchange)
    (hlimit : args = [] → ∀ i < t.curchange, group_start t.undo_stack t.curchange ≤ i → past_limit t i = false) :
    Walked start t (undo_loop (last_change args) args.isEmpty (t.curchange + 1) t).1
      (group_start t.undo_stack t.curchange) := by
  obtain ⟨k, hk⟩ := Nat.exists_eq_add_one.mpr hpos
  have hplaced := h.settled_placed h.settled
  have hwithin := h.within
  have hfree : args.isEmpty = true →
      ∀ m, group_start t.undo_stack (k + 1) ≤ m → m ≤ k → past_limit t m = false := by
    intro hempty m hlow hm
    have hfree := hlimit (List.isEmpty_iff.mp hempty)
    rw [hk] at hfree
    exact hfree m (Nat.lt_succ_of_le hm) hlow
  obtain ⟨ch, hch, hloop⟩ : ∃ ch, t.undo_stack[group_start t.undo_stack (k + 1)]? = some ch ∧
      undo_loop (last_change args) args.isEmpty (k + 1 + 1) (placed start t (k + 1) t.zlecs) =
        (setlastline (placed start t (group_start t.undo_stack (k + 1)) (as_usize ch.old_cs)), 0) :=
    undo_loop_group h.toFaithful hneg (by omega) (by omega) hfree
  have hlt : group_start t.undo_stack t.curchange < t.curchange := group_start_lt hpos
  rw [← hk, ← hplaced] at hloop
  rw [← hk] at hch
  rw [hloop]
  exact ⟨by omega, joined_group_start h.trail.first _, _, Or.inr (Or.inl ⟨ch, hch, rfl⟩), rfl⟩

/-- Where an undo that meets the condition ends. -/
theorem Clean.undo (h : Clean start t) (hstops : Stops t args) :
    Walked start t (undo_loop (last_change args) args.isEmpty (t.curchange + 1) t).1 (undo_end t args) := by
  have hzero : t.curchange = 0 → undo_end t args = t.curchange := by
    intro hz
    rw [undo_end, hz]
    split
    · split
      · rfl
      · rfl
    · rfl
  rcases Nat.eq_zero_or_pos t.curchange with hz | hpos
  · rw [undo_loop_zero hz, hzero hz]
    exact h.walked
  · by_cases hneg : last_change args < 0
    · rw [Stops, if_pos hneg] at hstops
      rw [undo_end, if_pos hneg]
      by_cases hlimit : args = [] ∧ past_limit t (t.curchange - 1) = true
      · rw [if_pos hlimit]
        obtain ⟨rfl, hlimit⟩ := hlimit
        have hret : undo_loop (-1) true (t.curchange + 1) t = (t, 1) := undo_loop_limited h hpos hlimit
        rw [show last_change [] = -1 from rfl, List.isEmpty_nil, hret]
        exact h.walked
      · rw [if_neg hlimit]
        apply h.undo_group hneg hpos
        intro hnil
        rcases hstops hnil with htop | hfree
        · exact absurd ⟨hnil, htop⟩ hlimit
        · exact hfree
    · rw [Stops, if_neg hneg] at hstops
      have hle := undone_to_le t.undo_stack (last_change args) t.curchange
      have hempty : args.isEmpty = false := by
        cases args with
        | nil => exact absurd (show last_change [] < 0 by decide) hneg
        | cons => rfl
      obtain ⟨hstop, hj⟩ : 0 < undone_to t.undo_stack (last_change args) t.curchange ∧
          joined t.undo_stack (undone_to t.undo_stack (last_change args) t.curchange) = false := by
        rcases hstops with heq | hstops
        · rw [heq]
          exact ⟨hpos, h.whole⟩
        · exact hstops
      obtain ⟨cs, hcs, hloop⟩ := @undo_loop_target start t t.curchange t.zlecs (t.curchange + 1) h.toFaithful _
        (Int.not_lt.mp hneg) h.within (Nat.lt_succ_self _) hstop
      rw [← h.settled_placed h.settled] at hloop
      rw [undo_end, if_neg hneg, hempty, hloop]
      refine ⟨hle.trans h.within, hj, cs, ?_, rfl⟩
      rcases hcs with hcs | hcs
      · exact Or.inl hcs
      · exact Or.inr (Or.inl hcs)

/-- Where a redo ends, when something is left to redo. -/
theorem Clean.redo (h : Clean start t) (hlt : t.curchange < t.undo_stack.length) :
    ∃ i ch, t.curchange < i ∧ group_start t.undo_stack i = t.curchange ∧ i ≤ t.undo_stack.length ∧
      joined t.undo_stack i = false ∧ t.undo_stack[i - 1]? = some ch ∧
      redo_loop (t.undo_stack.length + 1) t =
        (setlastline (placed start t i (as_usize ch.new_cs)), 0) := by
  have hplaced := h.settled_placed h.settled
  obtain ⟨i, hi, hle, hend, hmid⟩ := exists_group_end hlt
  obtain ⟨ch, hch, hloop⟩ : ∃ ch, t.undo_stack[i - 1]? = some ch ∧
      redo_loop (t.undo_stack.length + 1) (placed start t t.curchange t.zlecs) =
        (setlastline (placed start t i (as_usize ch.new_cs)), 0) :=
    redo_loop_group h.toFaithful hi hle hend hmid (by omega)
  rw [← hplaced] at hloop
  exact ⟨i, ch, hi, group_start_of_joined h.whole hi hmid, hle, hend, hch, hloop⟩

theorem group_end_unique {stack : List Change} {j i k : Nat} (hi : j < i) (hi' : joined stack i = false)
    (hiend : group_start stack i = j) (hk : j < k) (hk' : joined stack k = false)
    (hkend : group_start stack k = j) : i = k := by
  rcases Nat.lt_trichotomy i k with hlt | heq | hgt
  · have hj : joined stack i = true := joined_of_group_start (by rw [hkend]; exact hi) hlt
    rw [hi'] at hj
    exact absurd hj Bool.false_ne_true
  · exact heq
  · have hj : joined stack k = true := joined_of_group_start (by rw [hiend]; exact hk) hgt
    rw [hk'] at hj
    exact absurd hj Bool.false_ne_true

/-- The change on top of a committed edit is the edit. -/
theorem handleundo_top (h : Faithful start s) (hroom : Room s) (hs : s.lastline ≠ s.zleline) :
    (handleundo s).undo_stack = s.undo_stack.take s.curchange ++ [recorded s] ∧
    (handleundo s).curchange = s.curchange + 1 ∧
    (handleundo s).undo_stack[(handleundo s).curchange - 1]? = some (recorded s) := by
  have hlen : (s.undo_stack.take s.curchange).length = s.curchange := List.length_take_of_le h.within
  rw [h.handleundo_pending hs hroom]
  refine ⟨rfl, rfl, ?_⟩
  show (s.undo_stack.take s.curchange ++ [recorded s])[s.curchange]? = some (recorded s)
  rw [List.getElem?_append_right (Nat.le_of_eq hlen), hlen, Nat.sub_self]
  rfl

/-- One group back and one group forward is where the line was. -/
theorem Walked.restored {r : Editor} (hs : Faithful start s) (hroom : Room s)
    (hr : Walked start (handleundo s) r i) (hi : i < (handleundo s).curchange)
    (hgroup : group_start (handleundo s).undo_stack (handleundo s).curchange = i) : Restored s r := by
  have ht := clean_handleundo hs hroom
  have hclean := hr.clean ht.toFaithful
  have hcur : r.curchange < r.undo_stack.length := by
    rw [hr.curchange, hr.undo_stack]
    exact Nat.lt_of_lt_of_le hi ht.within
  obtain ⟨k, ch, hk, hkgroup, -, hkend, hch, hloop⟩ := hclean.redo hcur
  rw [hr.curchange] at hk hkgroup
  rw [hr.undo_stack] at hkgroup hkend hch
  have heq : k = (handleundo s).curchange :=
    group_end_unique hk hkend hkgroup hi ht.whole hgroup
  have hredo : redo r = (setlastline (placed start r k (as_usize ch.new_cs)), 0) := by
    rw [Zle.redo, hclean.handleundo_eq, hloop]
  rw [heq] at hch hredo
  have hline : line_at start r.undo_stack (handleundo s).curchange = s.zleline := by
    rw [hr.undo_stack, ← ht.lastline, ht.settled, handleundo_zleline]
  constructor
  · rw [hredo]
  · rw [hredo]
    exact hline
  · rw [hredo]
    rfl
  · rw [hredo]
    exact ⟨ch, hch, Iff.rfl⟩
  · intro hpending
    have htop := (handleundo_top hs hroom hpending).2.2
    rw [hch] at htop
    rw [hredo, Option.some.inj htop, hs.recorded_cursors.2]
    rfl

theorem undo_walked (h : Faithful start s) (hroom : Room s) (hstops : Stops (handleundo s) args) :
    Walked start (handleundo s) (undo args s).1 (undo_end (handleundo s) args) :=
  (clean_handleundo h hroom).undo hstops

theorem redo_walked (h : Faithful start s) (hroom : Room s) :
    ∃ i, Walked start (handleundo s) (redo s).1 i ∧
      ((handleundo s).curchange < (handleundo s).undo_stack.length →
        group_start (handleundo s).undo_stack i = (handleundo s).curchange ∧
          (handleundo s).curchange < i) ∧
      ((handleundo s).undo_stack.length ≤ (handleundo s).curchange → i = (handleundo s).curchange) := by
  have ht := clean_handleundo h hroom
  rcases Nat.lt_or_ge (handleundo s).curchange (handleundo s).undo_stack.length with hlt | hge
  · obtain ⟨i, ch, hi, hgroup, hle, hend, hch, hloop⟩ := ht.redo hlt
    refine ⟨i, ?_, fun _ => ⟨hgroup, hi⟩, fun hge => absurd hlt (Nat.not_lt.mpr hge)⟩
    rw [redo, hloop]
    exact ⟨hle, hend, _, Or.inr (Or.inr ⟨i - 1, ch, by omega, hch, rfl⟩), rfl⟩
  · refine ⟨(handleundo s).curchange, ?_, fun hlt => absurd hlt (Nat.not_lt.mpr hge), fun _ => rfl⟩
    rw [redo, redo_loop_end hge]
    exact ht.walked

theorem viundochange_walked (h : Faithful start s) (hroom : Room s)
    (hmeets : (handleundo s).curchange < (handleundo s).undo_stack.length ∨ Stops (handleundo s) args) :
    Walked start (handleundo s) (viundochange args s).1
      (if (handleundo s).curchange < (handleundo s).undo_stack.length then (handleundo s).undo_stack.length
        else undo_end (handleundo s) args) := by
  have ht := clean_handleundo h hroom
  by_cases hlt : (handleundo s).curchange < (handleundo s).undo_stack.length
  · have hadd : (handleundo s).curchange +
        ((handleundo s).undo_stack.length - (handleundo s).curchange) = (handleundo s).undo_stack.length := by
      omega
    obtain ⟨cs, hcs, hre⟩ := @reapply_placed start (handleundo s) (handleundo s).curchange
      (handleundo s).zlecs ht.toFaithful _ (Nat.le_of_eq hadd)
    rw [← ht.settled_placed ht.settled] at hre
    rw [hadd] at hcs hre
    rw [if_pos hlt, viundochange, if_pos hlt, hre]
    refine ⟨Nat.le_refl _, joined_of_ge (Nat.le_refl _), cs, ?_, rfl⟩
    rcases hcs with ⟨hz, -⟩ | hcs
    · omega
    · exact Or.inr (Or.inr hcs)
  · have hstops := hmeets.resolve_left hlt
    have hundo : undo args (handleundo s) = undo args s := by
      rw [Zle.undo, ht.handleundo_eq]
      rfl
    rw [if_neg hlt, viundochange, if_neg hlt, hundo]
    exact undo_walked h hroom hstops

theorem splitundo_clean (h : Faithful start s) (hroom : Room s) : Clean start (splitundo s) := by
  rw [splitundo]
  split
  next =>
      have hm := h.mergeundo
      have hno : (mergeundo s).undo_changeno = s.undo_changeno := by
        rw [mergeundo]
        split
        · rfl
        · rfl
      apply clean_handleundo
      · exact { hm with }
      · rw [Room]
        dsimp only
        rw [hno]
        exact hroom
  next => exact clean_handleundo h hroom

/-- A step that meets the condition keeps the history faithful. -/
theorem step_faithful (h : Faithful start s) (hmeets : Meets s e) : Faithful start (step s e) := by
  cases e with
  | edit line cs => exact { h with zlell := rfl, short := hmeets.1, zlecs := hmeets.2 }
  | handleundo => exact h.handleundo hmeets
  | mkundoent =>
      have hsame : s.lastline.take s.lastll = s.zleline.take s.zlell := by
        rw [h.lastll, h.zlell, List.take_length, List.take_length]
        exact hmeets
      rw [step, mkundoent, if_pos hsame]
      exact { h with lastcs := h.zlecs }
  | undo args =>
      have hwalk := undo_walked h hmeets.1 hmeets.2
      exact (hwalk.clean (h.handleundo hmeets.1)).toFaithful
  | redo =>
      obtain ⟨i, hwalk, -⟩ := redo_walked h hmeets
      exact (hwalk.clean (h.handleundo hmeets)).toFaithful
  | viundochange args =>
      have hwalk := viundochange_walked h hmeets.1 hmeets.2
      exact (hwalk.clean (h.handleundo hmeets.1)).toFaithful
  | splitundo => exact (splitundo_clean h hmeets).toFaithful
  | mergeundo => exact h.mergeundo
  | startvitext => exact { h with }
  | set_undo_limit_change value =>
      rw [step, set_undo_limit_change]
      generalize as_usize (min (max value 0) (as_i64 s.undo_changeno)) = limit
      exact { h with }

theorem commits_settled (h : Faithful start s) (hmeets : Meets s e) (hcommits : e.commits = true) :
    (step s e).lastline = (step s e).zleline ∧ (step s e).lastll = (step s e).zlell := by
  have hclean : ∀ t, Clean start t → t.lastline = t.zleline ∧ t.lastll = t.zlell := by
    intro t ht
    rw [← ht.clean]
    exact ⟨rfl, rfl⟩
  apply hclean
  cases e with
  | handleundo => exact clean_handleundo h hmeets
  | undo args =>
      have hwalk := undo_walked h hmeets.1 hmeets.2
      exact hwalk.clean (h.handleundo hmeets.1)
  | redo =>
      obtain ⟨i, hwalk, -⟩ := redo_walked h hmeets
      exact hwalk.clean (h.handleundo hmeets)
  | viundochange args =>
      have hwalk := viundochange_walked h hmeets.1 hmeets.2
      exact hwalk.clean (h.handleundo hmeets.1)
  | splitundo => exact splitundo_clean h hmeets
  | edit | mkundoent | mergeundo | startvitext | set_undo_limit_change => exact absurd hcommits Bool.false_ne_true

/-- A step that meets the condition is a step of a faithful history. -/
theorem step_kept (h : Faithful start s) (hmeets : Meets s e) : Kept start s e where
  replayed := fun hsame => hsame.symm.trans (step_faithful h hmeets).lastline
  settled := commits_settled h hmeets
  restored := by
    rintro args (rfl | rfl) hlt hgroup
    · have hwalk := undo_walked h hmeets.1 hmeets.2
      rw [step, hwalk.curchange] at hlt hgroup
      rw [hwalk.undo_stack] at hgroup
      exact hwalk.restored h hmeets.1 hlt hgroup
    · have hwalk := viundochange_walked h hmeets.1 hmeets.2
      rw [step, hwalk.curchange] at hlt hgroup
      rw [hwalk.undo_stack] at hgroup
      exact hwalk.restored h hmeets.1 hlt hgroup
  recorded := by
    rintro rfl hs
    obtain ⟨hstack, hcur, -⟩ := handleundo_top h hmeets hs
    exact ⟨recorded s, hstack, hcur⟩
  unrecorded := by
    rintro rfl hs
    rw [step, h.handleundo_settled hs]
    exact ⟨rfl, rfl⟩
  whole := (step_faithful h hmeets).whole
  undone := by
    rintro args rfl hneg
    have hwalk := undo_walked h hmeets.1 hmeets.2
    rw [step, hwalk.curchange, hwalk.undo_stack, undo_end, if_pos hneg]
    split
    next hlimit => exact Or.inr ⟨hlimit.1, rfl, hlimit.2⟩
    next => exact Or.inl rfl
  redone := by
    rintro rfl hlt
    obtain ⟨i, hwalk, hwhere, -⟩ := redo_walked h hmeets
    rw [step, hwalk.curchange, hwalk.undo_stack]
    exact hwhere hlt
  merged := by
    rintro rfl i hpos hi hfrom
    exact (mergeundo_merged h (Nat.lt_trans hpos hi)).since i hpos hi hfrom

end

/-- An editor that `zleread` opens. -/
structure Opened (s : Editor) : Prop where
  zlell : s.zlell = s.zleline.length
  short : s.zleline.length < 2 ^ 31
  zlecs : s.zlecs < 2 ^ 31

theorem Opened.faithful {s : Editor} (h : Opened s) : Faithful s.zleline (initundo s) where
  trail :=
    { sound := trivial
      first := rfl
      linked := fun i => rfl
      numbered := fun ch hch => absurd hch List.not_mem_nil
      short := by
        intro i
        rw [line_at_length_le (Nat.zero_le i)]
        exact h.short
      cursors := fun ch hch => absurd hch List.not_mem_nil }
  zlell := h.zlell
  lastll := h.zlell
  within := Nat.le_refl 0
  lastline := rfl
  whole := rfl
  few := Nat.le_refl 0
  counted := Nat.two_pow_pos 31
  short := h.short
  zlecs := h.zlecs
  lastcs := h.zlecs

/-- The history stays faithful along every run whose steps meet the condition. -/
theorem history_faithful {s : Editor} (h : Opened s) {es : List Event}
    (hmeets : Along step Meets (initundo s) es) : Along step (Kept s.zleline) (initundo s) es :=
  hmeets.of_invariant (fun _ _ hm hf => step_faithful hf hm) (fun _ _ hm hf => step_kept hf hm) h.faithful

/-- An empty line, with no change recorded and no insertion begun. -/
def blank : Editor :=
  { zleline := []
    zlell := 0
    zlecs := 0
    lastline := []
    lastll := 0
    lastcs := 0
    undo_stack := []
    curchange := 0
    undo_changeno := 0
    undo_limitno := 0
    vistartchange := u64_MAX }

/-- Three edits, the last two of them merged, then undone, redone and edited over. -/
def session : List Event :=
  [.edit ['a'] 1, .handleundo, .startvitext, .edit ['a', 'b'] 2, .handleundo, .edit ['a', 'b', 'c'] 3,
    .handleundo, .mergeundo, .undo [], .redo, .undo [['1']], .edit ['b'] 0, .handleundo, .viundochange []]

theorem session_faithful :
    Along step Meets (initundo blank) session ∧ Along step (Kept []) (initundo blank) session :=
  have hopen : Opened blank := ⟨rfl, Nat.two_pow_pos 31, Nat.two_pow_pos 31⟩
  have hmeets : Along step Meets (initundo blank) session := by decide
  ⟨hmeets, history_faithful hopen hmeets⟩

/-- An undo to the number at which the line was opened takes the edit back, and leaves the snapshot. -/
theorem undo_all_unsettled : ¬ Kept [] (run step (initundo blank) [.edit ['a'] 1]) (.undo [['0']]) := by
  intro h
  have hsettled := (h.settled rfl).1
  exact absurd hsettled (by decide)

end Zshrs.Zle.Undo
