import Zshrs.Zle.UndoSteps

namespace Zshrs.Zle

open Lib

/-- A change without its flags, which is all that the appliers read. -/
def Change.core (ch : Change) : Change := { ch with flags := 0 }

theorem core_act (ch : Change) : ch.act = ch.core.act := rfl

theorem core_back (ch : Change) : ch.back = ch.core.back := rfl

/-- One round of `mergeundo`: both flags between two changes. -/
def link (stack : List Change) (i : Nat) : List Change :=
  (stack.modify (i + 1) (Change.flag CH_PREV)).modify i (Change.flag CH_NEXT)

theorem flag_and (f g : Nat) (ch : Change) : (ch.flag f).flags &&& g = (ch.flags &&& g) ||| (f &&& g) :=
  Nat.and_or_distrib_right _ _ _

section

variable {start : Line} {stack stack' : List Change} {i m : Nat}

theorem modify_core (stack : List Change) (i f : Nat) :
    (stack.modify i (Change.flag f)).map Change.core = stack.map Change.core := by
  induction stack generalizing i with
  | nil => rw [List.modify_nil]
  | cons ch stack ih =>
      cases i with
      | zero => rfl
      | succ i =>
          rw [List.modify_succ_cons, List.map_cons, ih]
          rfl

theorem link_core (stack : List Change) (i : Nat) : (link stack i).map Change.core = stack.map Change.core :=
  (modify_core _ _ _).trans (modify_core _ _ _)

theorem length_of_core (h : stack'.map Change.core = stack.map Change.core) :
    stack'.length = stack.length := by
  have hlen := congrArg List.length h
  rw [List.length_map, List.length_map] at hlen
  exact hlen

theorem line_at_core (h : stack'.map Change.core = stack.map Change.core) (i : Nat) :
    line_at start stack' i = line_at start stack i := by
  have hmap : ∀ st : List Change, line_at start st i =
      Patches.replay Change.act start ((st.map Change.core).take i) := by
    intro st
    rw [line_at, Patches.replay_map core_act, List.map_take]
  rw [hmap, hmap, h]

/-- Flags alone do not end a trail, when both sides of each pair agree. -/
theorem Trail.of_core (h : Trail start stack) (hcore : stack'.map Change.core = stack.map Change.core)
    (hfirst : joined stack' 0 = false) (hlinked : ∀ i, joins stack' i = joined stack' (i + 1)) :
    Trail start stack' where
  sound := by
    rw [Patches.sound_map core_act core_back, hcore, ← Patches.sound_map core_act core_back]
    exact h.sound
  first := hfirst
  linked := hlinked
  numbered := by
    intro ch hch
    have hmem : ch.core ∈ stack.map Change.core := hcore ▸ List.mem_map_of_mem hch
    obtain ⟨ch', hch', heq⟩ := List.mem_map.mp hmem
    have hno : ch'.core.changeno = ch.core.changeno := congrArg Change.changeno heq
    exact (h.numbered ch' hch').trans_eq hno
  short := by
    intro i
    rw [line_at_core hcore]
    exact h.short i
  cursors := by
    intro ch hch
    have hmem : ch.core ∈ stack.map Change.core := hcore ▸ List.mem_map_of_mem hch
    obtain ⟨ch', hch', heq⟩ := List.mem_map.mp hmem
    have hold : ch'.core.old_cs = ch.core.old_cs := congrArg Change.old_cs heq
    have hnew : ch'.core.new_cs = ch.core.new_cs := congrArg Change.new_cs heq
    have hcs : as_usize ch'.core.old_cs < 2 ^ 31 ∧ as_usize ch'.core.new_cs < 2 ^ 31 := h.cursors ch' hch'
    rw [hold, hnew] at hcs
    exact hcs

theorem joined_modify_next (stack : List Change) (i m : Nat) :
    joined (stack.modify i (Change.flag CH_NEXT)) m = joined stack m := by
  have hnone : CH_NEXT &&& CH_PREV = 0 := rfl
  by_cases h : i = m
  · rw [← h, joined, joined, List.getElem?_modify_eq]
    cases stack[i]? with
    | none => rfl
    | some ch =>
        have hflags : (ch.flag CH_NEXT).flags &&& CH_PREV = ch.flags &&& CH_PREV := by
          rw [flag_and, hnone, Nat.or_zero]
        exact congrArg (fun n => decide (n ≠ 0)) hflags
  · rw [joined, joined, List.getElem?_modify_ne _ _ h]

theorem joins_modify_prev (stack : List Change) (i m : Nat) :
    joins (stack.modify i (Change.flag CH_PREV)) m = joins stack m := by
  have hnone : CH_PREV &&& CH_NEXT = 0 := rfl
  by_cases h : i = m
  · rw [← h, joins, joins, List.getElem?_modify_eq]
    cases stack[i]? with
    | none => rfl
    | some ch =>
        have hflags : (ch.flag CH_PREV).flags &&& CH_NEXT = ch.flags &&& CH_NEXT := by
          rw [flag_and, hnone, Nat.or_zero]
        exact congrArg (fun n => decide (n ≠ 0)) hflags
  · rw [joins, joins, List.getElem?_modify_ne _ _ h]

theorem joined_modify_prev (hi : i < stack.length) (m : Nat) :
    joined (stack.modify i (Change.flag CH_PREV)) m = (joined stack m || decide (m = i)) := by
  by_cases h : i = m
  · have hflagged : (stack.modify i (Change.flag CH_PREV))[i]? = some (stack[i].flag CH_PREV) := by
      rw [List.getElem?_modify_eq, List.getElem?_eq_getElem hi]
      rfl
    rw [← h, joined_eq hflagged, flag_and, decide_eq_true rfl, Bool.or_true, decide_eq_true_iff]
    intro hz
    exact absurd (Nat.or_eq_zero_iff.mp hz).2 (by decide)
  · rw [joined, List.getElem?_modify_ne _ _ h, decide_eq_false (Ne.symm h), Bool.or_false]
    rfl

theorem joins_modify_next (hi : i < stack.length) (m : Nat) :
    joins (stack.modify i (Change.flag CH_NEXT)) m = (joins stack m || decide (m = i)) := by
  by_cases h : i = m
  · have hflagged : (stack.modify i (Change.flag CH_NEXT))[i]? = some (stack[i].flag CH_NEXT) := by
      rw [List.getElem?_modify_eq, List.getElem?_eq_getElem hi]
      rfl
    rw [← h, joins_eq hflagged, flag_and, decide_eq_true rfl, Bool.or_true, decide_eq_true_iff]
    intro hz
    exact absurd (Nat.or_eq_zero_iff.mp hz).2 (by decide)
  · rw [joins, List.getElem?_modify_ne _ _ h, decide_eq_false (Ne.symm h), Bool.or_false]
    rfl

theorem joined_link (hi : i + 1 < stack.length) (m : Nat) :
    joined (link stack i) m = (joined stack m || decide (m = i + 1)) := by
  rw [link, joined_modify_next, joined_modify_prev hi]

theorem joins_link (hi : i + 1 < stack.length) (m : Nat) :
    joins (link stack i) m = (joins stack m || decide (m = i)) := by
  have hlen : i < (stack.modify (i + 1) (Change.flag CH_PREV)).length := by
    rw [List.length_modify]
    omega
  rw [link, joins_modify_next hlen, joins_modify_prev]

theorem Trail.link (h : Trail start stack) (hi : i + 1 < stack.length) : Trail start (link stack i) := by
  apply h.of_core (link_core stack i)
  · rw [joined_link hi, h.first, decide_eq_false (Nat.succ_ne_zero i).symm]
    rfl
  · intro m
    rw [joins_link hi, joined_link hi, h.linked]
    exact congrArg _ (decide_eq_decide.mpr Nat.succ_inj.symm)

end

/-- The changes that `mergeundo` joins: those that the bound leaves, up to the position. -/
def Since (vistartchange : Nat) (stack : List Change) (i k : Nat) : Prop :=
  ∀ m, i ≤ m → m < k → stack[m]?.any (fun ch => as_i64 (as_i64 vistartchange + 1) < ch.changeno) = true

structure Merged (start : Line) (vistartchange : Nat) (stack stack' : List Change) (k : Nat) : Prop where
  trail : Trail start stack'
  core : stack'.map Change.core = stack.map Change.core
  above : ∀ m, k ≤ m → joined stack' m = joined stack m
  kept : ∀ m, joined stack m = true → joined stack' m = true
  since : ∀ i, 0 < i → i < k → Since vistartchange stack i k → joined stack' i = true

theorem changeno_core {stack stack' : List Change} (h : stack'.map Change.core = stack.map Change.core)
    (p : Int → Bool) (m : Nat) :
    stack'[m]?.any (fun ch => p ch.changeno) = stack[m]?.any (fun ch => p ch.changeno) := by
  have hmap : ∀ st : List Change, st[m]?.any (fun ch => p ch.changeno) =
      (st.map Change.core)[m]?.any (fun ch => p ch.changeno) := by
    intro st
    rw [List.getElem?_map, Option.any_map]
    rfl
  rw [hmap stack', hmap stack, h]

/-- The loop keeps the trail, and joins what it passes. -/
theorem merge_loop_merged {start : Line} (vistartchange : Nat) {stack : List Change}
    (h : Trail start stack) {current : Nat} (hlt : current < stack.length) :
    Merged start vistartchange stack (merge_loop vistartchange current stack) (current + 1) := by
  induction current generalizing stack with
  | zero => exact ⟨h, rfl, fun _ _ => rfl, fun _ hm => hm, fun i hpos hi => by omega⟩
  | succ current ih =>
      obtain ⟨ch, hch⟩ : ∃ ch, stack[current + 1]? = some ch := ⟨_, List.getElem?_eq_getElem hlt⟩
      rw [merge_loop, hch]
      dsimp only
      by_cases hsince : as_i64 (as_i64 vistartchange + 1) < ch.changeno
      · rw [if_pos hsince]
        have hlen := length_of_core (link_core stack current)
        have hm := ih (h.link hlt) (by omega)
        constructor
        · exact hm.trail
        · exact hm.core.trans (link_core stack current)
        · intro m hle
          refine (hm.above m (by omega)).trans ?_
          rw [joined_link hlt, decide_eq_false (by omega), Bool.or_false]
        · intro m hj
          apply hm.kept
          rw [joined_link hlt, hj, Bool.true_or]
        · intro i hpos hi hfrom
          rcases Nat.lt_or_eq_of_le (Nat.lt_succ_iff.mp hi) with hi | rfl
          · apply hm.since i hpos hi
            intro m hle hm'
            have hsame := changeno_core (link_core stack current)
              (fun n => decide (as_i64 (as_i64 vistartchange + 1) < n)) m
            exact hsame.trans (hfrom m hle (by omega))
          · apply hm.kept
            rw [joined_link hlt, decide_eq_true rfl, Bool.or_true]
      · rw [if_neg hsince]
        refine ⟨h, rfl, fun _ _ => rfl, fun _ hj => hj, ?_⟩
        intro i _ hi hfrom
        have hlast := hfrom (current + 1) (by omega) (by omega)
        rw [hch, Option.any_some, decide_eq_true_iff] at hlast
        exact absurd hlast hsince

section

variable {start : Line} {s : Editor}

theorem mergeundo_merged (h : Faithful start s) (hpos : 0 < s.curchange) :
    Merged start s.vistartchange s.undo_stack (mergeundo s).undo_stack s.curchange := by
  have hwithin := h.within
  have hm := merge_loop_merged s.vistartchange h.trail (show s.curchange - 1 < s.undo_stack.length by omega)
  rw [Nat.sub_add_cancel hpos] at hm
  rw [mergeundo, if_neg (Nat.ne_of_gt hpos)]
  exact hm

/-- Merging joins changes and leaves the line, the snapshot and the position. -/
theorem Faithful.mergeundo (h : Faithful start s) : Faithful start (mergeundo s) := by
  rcases Nat.eq_zero_or_pos s.curchange with hz | hpos
  · rw [Zle.mergeundo, if_pos hz]
    exact h
  · have hm := mergeundo_merged h hpos
    have hlen := length_of_core hm.core
    rw [Zle.mergeundo, if_neg (Nat.ne_of_gt hpos)] at hm hlen ⊢
    exact
      { trail := hm.trail
        zlell := h.zlell
        lastll := h.lastll
        within := h.within.trans (Nat.le_of_eq hlen.symm)
        lastline := h.lastline.trans (line_at_core hm.core _).symm
        whole := (hm.above s.curchange (Nat.le_refl _)).trans h.whole
        few := (Nat.le_of_eq hlen).trans h.few
        counted := h.counted
        short := h.short
        zlecs := h.zlecs
        lastcs := h.lastcs }

end

end Zshrs.Zle
