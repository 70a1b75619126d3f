import Zshrs.Zle.LineEncode
import Zshrs.Zle.Undo
import Zshrs.Lib.Patches

namespace Zshrs.Zle

open Lib

theorem as_usize_of_lt {n : Nat} (h : n < 2 ^ 64) : as_usize n = n := by
  rw [as_usize, Int.emod_eq_of_lt (Int.natCast_nonneg n) (by omega)]
  exact Int.toNat_natCast n

/-- A length that an `i32` holds comes back. -/
theorem as_usize_as_i32 {n : Nat} (h : n < 2 ^ 31) : as_usize (as_i32 n) = n := by
  rw [as_i32_of_lt (by omega) (by omega)]
  exact as_usize_of_lt (by omega)

theorem agree_split (zle last : Line) :
    ∃ pre x y, zle = pre ++ x ∧ last = pre ++ y ∧ pre.length = agree zle last := by
  induction zle generalizing last with
  | nil => exact ⟨[], [], last, rfl, rfl, rfl⟩
  | cons c zle ih =>
      cases last with
      | nil => exact ⟨[], c :: zle, [], rfl, rfl, rfl⟩
      | cons d last =>
          by_cases h : c = d
          · obtain ⟨pre, x, y, rfl, rfl, hlen⟩ := ih last
            refine ⟨c :: pre, x, y, rfl, ?_, ?_⟩
            · rw [h]
              rfl
            · rw [agree, if_pos h, List.length_cons, hlen]
          · refine ⟨[], c :: zle, d :: last, rfl, rfl, ?_⟩
            rw [agree, if_neg h]
            rfl

theorem agree_split_end (zle last : Line) :
    ∃ x y suf, zle = x ++ suf ∧ last = y ++ suf ∧ suf.length = agree zle.reverse last.reverse := by
  obtain ⟨pre, x, y, hzle, hlast, hlen⟩ := agree_split zle.reverse last.reverse
  refine ⟨x.reverse, y.reverse, pre.reverse, ?_, ?_, ?_⟩
  · rw [← List.reverse_append, ← hzle, List.reverse_reverse]
  · rw [← List.reverse_append, ← hlast, List.reverse_reverse]
  · rw [List.length_reverse, hlen]

/-- What stands between a prefix and a suffix of known lengths. -/
theorem slice_mid (pre mid suf : Line) :
    (if suf.length + pre.length = (pre ++ (mid ++ suf)).length then []
      else ((pre ++ (mid ++ suf)).take ((pre ++ (mid ++ suf)).length - suf.length)).drop pre.length) = mid := by
  split
  next h =>
      rw [List.length_append, List.length_append] at h
      exact (List.length_eq_zero_iff.mp (by omega)).symm
  next =>
      have hlen : (pre ++ (mid ++ suf)).length - suf.length = (pre ++ mid).length := by
        simp only [List.length_append]
        omega
      rw [hlen, ← List.append_assoc, List.take_left, List.drop_left]

/-- A new change replaces what is between the common prefix and the common suffix. -/
theorem new_change_split (last zle : Line) (old_cs new_cs changeno : Nat) :
    ∃ pre suf : Line,
      last = pre ++ (new_change last zle old_cs new_cs changeno).del ++ suf ∧
      zle = pre ++ (new_change last zle old_cs new_cs changeno).ins ++ suf ∧
      (new_change last zle old_cs new_cs changeno).off = as_i32 pre.length := by
  obtain ⟨pre, x, y, rfl, rfl, hpre⟩ := agree_split zle last
  obtain ⟨ins, del, suf, rfl, rfl, hsuf⟩ := agree_split_end x y
  have hsuf' : agree ((pre ++ (ins ++ suf)).drop pre.length).reverse
      ((pre ++ (del ++ suf)).drop pre.length).reverse = suf.length := by
    rw [List.drop_left, List.drop_left, hsuf]
  have hdel : (new_change (pre ++ (del ++ suf)) (pre ++ (ins ++ suf)) old_cs new_cs changeno).del = del := by
    dsimp only [new_change]
    rw [← hpre, hsuf']
    exact slice_mid pre del suf
  have hins : (new_change (pre ++ (del ++ suf)) (pre ++ (ins ++ suf)) old_cs new_cs changeno).ins = ins := by
    dsimp only [new_change]
    rw [← hpre, hsuf']
    exact slice_mid pre ins suf
  refine ⟨pre, suf, ?_, ?_, ?_⟩
  · rw [hdel, List.append_assoc]
  · rw [hins, List.append_assoc]
  · dsimp only [new_change]
    rw [hpre]

theorem insertIdx_mid (pre suf : Line) (c : Char) :
    (pre ++ suf).insertIdx pre.length c = pre ++ c :: suf := by
  induction pre with
  | nil => rfl
  | cons d pre ih => exact congrArg (List.cons d) ih

/-- The loop has inserted `pre'` when it goes on with the rest. -/
theorem insert_loop_mid (pre pre' text suf : Line) :
    insert_loop pre.length pre'.length text (pre ++ pre' ++ suf) = pre ++ pre' ++ text ++ suf := by
  induction text generalizing pre' with
  | nil => rw [insert_loop, List.append_nil]
  | cons c text ih =>
      have hlen : pre.length + pre'.length = (pre ++ pre').length := List.length_append.symm
      have hle : (pre ++ pre').length ≤ (pre ++ pre' ++ suf).length := by
        simp only [List.length_append]
        omega
      have hnext : pre'.length + 1 = (pre' ++ [c]).length := by
        rw [List.length_append]
        rfl
      rw [insert_loop, hlen, if_pos hle, insertIdx_mid, hnext]
      have hmove : pre ++ pre' ++ c :: suf = pre ++ (pre' ++ [c]) ++ suf := by
        simp only [List.append_assoc, List.singleton_append]
      rw [hmove, ih]
      simp only [List.append_assoc, List.singleton_append]

theorem swap_in_mid (pre old suf text : Line) :
    swap_in (pre ++ old ++ suf) pre.length old.length text = pre ++ text ++ suf := by
  have hlen : pre.length + old.length = (pre ++ old).length := List.length_append.symm
  have hle : (pre ++ old).length ≤ (pre ++ old ++ suf).length := by
    simp only [List.length_append]
    omega
  have htake : (pre ++ old ++ suf).take pre.length = pre := by
    rw [List.append_assoc, List.take_left]
  rw [swap_in, hlen, if_pos hle, htake, List.drop_left]
  have h := insert_loop_mid pre [] text suf
  rw [List.append_nil] at h
  exact h

section

variable {last zle : Line} (hlast : last.length < 2 ^ 31) (hzle : zle.length < 2 ^ 31)
  (old_cs new_cs changeno : Nat)

include hlast hzle

/-- A change makes the new line of the old one, and takes it back. -/
theorem new_change_acts :
    (new_change last zle old_cs new_cs changeno).act last = zle ∧
    (new_change last zle old_cs new_cs changeno).back zle = last := by
  obtain ⟨pre, suf, hl, hz, hoff⟩ := new_change_split last zle old_cs new_cs changeno
  have hdell : (new_change last zle old_cs new_cs changeno).dell =
      as_i32 (new_change last zle old_cs new_cs changeno).del.length := by
    dsimp only [new_change]
  have hinsl : (new_change last zle old_cs new_cs changeno).insl =
      as_i32 (new_change last zle old_cs new_cs changeno).ins.length := by
    dsimp only [new_change]
  generalize new_change last zle old_cs new_cs changeno = ch at *
  have hlen := congrArg List.length hl
  have hlen' := congrArg List.length hz
  simp only [List.length_append] at hlen hlen'
  rw [Change.act, Change.back, hoff, hdell, hinsl, as_usize_as_i32 (by omega),
    as_usize_as_i32 (by omega), as_usize_as_i32 (by omega)]
  constructor
  · rw [hl, swap_in_mid, ← hz]
  · rw [hz, swap_in_mid, ← hl]

end

/-- Whether the change at an index goes with the one before it. -/
def joined (stack : List Change) (i : Nat) : Bool := stack[i]?.any fun ch => ch.flags &&& CH_PREV ≠ 0

/-- Whether the change at an index goes with the one after it. -/
def joins (stack : List Change) (i : Nat) : Bool := stack[i]?.any fun ch => ch.flags &&& CH_NEXT ≠ 0

/-- Where the group begins that ends at a position. -/
def group_start (stack : List Change) : Nat → Nat
  | 0 => 0
  | i + 1 => if joined stack i then group_start stack i else i

/-- The line that the first changes of a stack lead to. -/
def line_at (start : Line) (stack : List Change) (i : Nat) : Line :=
  Patches.replay Change.act start (stack.take i)

/-- A stack whose changes are taken back where they were made, in groups that both flags agree on. -/
structure Trail (start : Line) (stack : List Change) : Prop where
  sound : Patches.Sound Change.act Change.back start stack
  first : joined stack 0 = false
  linked : ∀ i, joins stack i = joined stack (i + 1)
  numbered : ∀ ch ∈ stack, 0 ≤ ch.changeno
  short : ∀ i, (line_at start stack i).length < 2 ^ 31
  cursors : ∀ ch ∈ stack, as_usize ch.old_cs < 2 ^ 31 ∧ as_usize ch.new_cs < 2 ^ 31

theorem joined_of_ge {stack : List Change} {i : Nat} (h : stack.length ≤ i) : joined stack i = false := by
  rw [joined, List.getElem?_eq_none h]
  rfl

theorem joins_of_ge {stack : List Change} {i : Nat} (h : stack.length ≤ i) : joins stack i = false := by
  rw [joins, List.getElem?_eq_none h]
  rfl

section

variable {stack : List Change} {ch : Change} {i : Nat}

theorem joined_eq (h : stack[i]? = some ch) : joined stack i = decide (ch.flags &&& CH_PREV ≠ 0) := by
  rw [joined, h]
  rfl

theorem joins_eq (h : stack[i]? = some ch) : joins stack i = decide (ch.flags &&& CH_NEXT ≠ 0) := by
  rw [joins, h]
  rfl

theorem group_start_lt (hi : 0 < i) : group_start stack i < i := by
  induction i with
  | zero => exact absurd hi (Nat.lt_irrefl 0)
  | succ i ih =>
      rw [group_start]
      split
      next hj =>
          cases i with
          | zero => exact Nat.one_pos
          | succ i => exact Nat.lt_succ_of_lt (ih (Nat.succ_pos i))
      next => exact Nat.lt_succ_self i

theorem joined_group_start (hfirst : joined stack 0 = false) (i : Nat) :
    joined stack (group_start stack i) = false := by
  induction i with
  | zero => exact hfirst
  | succ i ih =>
      rw [group_start]
      split
      next => exact ih
      next h => exact Bool.eq_false_iff.mpr h

/-- All the changes of a group but its first go with the one before. -/
theorem joined_of_group_start {m : Nat} (hlow : group_start stack i < m) (hm : m < i) :
    joined stack m = true := by
  induction i with
  | zero => exact absurd hm (Nat.not_lt_zero m)
  | succ i ih =>
      rw [group_start] at hlow
      split at hlow
      next h =>
          rcases Nat.lt_succ_iff_lt_or_eq.mp hm with hm | rfl
          · exact ih hlow hm
          · exact h
      next => omega

/-- A position with no boundary after the start of its group. -/
theorem group_start_of_joined {j : Nat} (hj : joined stack j = false) (hlt : j < i)
    (hmid : ∀ m, j < m → m < i → joined stack m = true) : group_start stack i = j := by
  induction i with
  | zero => exact absurd hlt (Nat.not_lt_zero j)
  | succ i ih =>
      rw [group_start]
      rcases Nat.lt_succ_iff_lt_or_eq.mp hlt with hlt | rfl
      · rw [if_pos (hmid i hlt (Nat.lt_succ_self i))]
        exact ih hlt fun m hlow hm => hmid m hlow (Nat.lt_succ_of_lt hm)
      · rw [if_neg (Bool.eq_false_iff.mp hj)]

/-- Every position before the end is in a group that ends. -/
theorem exists_group_end {j : Nat} (hj : j < stack.length) :
    ∃ i, j < i ∧ i ≤ stack.length ∧ joined stack i = false ∧ ∀ m, j < m → m < i → joined stack m = true := by
  have hex : ∃ i, j < i ∧ joined stack i = false := ⟨stack.length, hj, joined_of_ge (Nat.le_refl _)⟩
  have hspec := Nat.find_spec hex
  refine ⟨Nat.find hex, hspec.1, ?_, hspec.2, ?_⟩
  · exact Nat.find_min' hex ⟨hj, joined_of_ge (Nat.le_refl _)⟩
  · intro m hlow hm
    have hnot := Nat.find_min hex hm
    rw [not_and, Bool.not_eq_false] at hnot
    exact hnot hlow

end

section

variable {start : Line} {stack : List Change} {ch : Change} {i : Nat}

theorem line_at_length_le (h : stack.length ≤ i) : line_at start stack i = Patches.replay Change.act start stack := by
  rw [line_at, List.take_of_length_le h]

theorem line_at_take {k : Nat} (h : i ≤ k) : line_at start (stack.take k) i = line_at start stack i := by
  rw [line_at, List.take_take, Nat.min_eq_left h]
  rfl

theorem line_at_append (h : i ≤ stack.length) (stack' : List Change) :
    line_at start (stack ++ stack') i = line_at start stack i := by
  rw [line_at, List.take_append_of_le_length h]
  rfl

theorem Trail.back (h : Trail start stack) (hch : stack[i]? = some ch) :
    ch.back (line_at start stack (i + 1)) = line_at start stack i := h.sound.back_take hch

theorem Trail.act (hch : stack[i]? = some ch) :
    ch.act (line_at start stack i) = line_at start stack (i + 1) := (Patches.replay_take_succ hch).symm

theorem joined_take {k : Nat} (h : i < k) : joined (stack.take k) i = joined stack i := by
  rw [joined, List.getElem?_take_of_lt h]
  rfl

theorem joins_take {k : Nat} (h : i < k) : joins (stack.take k) i = joins stack i := by
  rw [joins, List.getElem?_take_of_lt h]
  rfl

theorem joined_push_lt (h : i < stack.length) : joined (stack ++ [ch]) i = joined stack i := by
  rw [joined, List.getElem?_append_left h]
  rfl

theorem joins_push_lt (h : i < stack.length) : joins (stack ++ [ch]) i = joins stack i := by
  rw [joins, List.getElem?_append_left h]
  rfl

/-- The first changes of a trail are one, when they end with a group. -/
theorem Trail.take (h : Trail start stack) {k : Nat} (hk : joined stack k = false) :
    Trail start (stack.take k) where
  sound := h.sound.take k
  first := by
    rcases Nat.eq_zero_or_pos k with rfl | hpos
    · exact joined_of_ge (Nat.zero_le 0)
    · rw [joined_take hpos]
      exact h.first
  linked := by
    intro i
    have hlen : (stack.take k).length ≤ k := List.length_take_le k stack
    by_cases hi : i < k
    · rw [joins_take hi, h.linked]
      by_cases hi' : i + 1 < k
      · rw [joined_take hi']
      · have heq : i + 1 = k := by omega
        rw [heq, hk, joined_of_ge hlen]
    · rw [joins_of_ge (by omega), joined_of_ge (by omega)]
  numbered := fun ch hch => h.numbered ch (List.mem_of_mem_take hch)
  short := by
    intro i
    rw [line_at, List.take_take]
    exact h.short (min i k)
  cursors := fun ch hch => h.cursors ch (List.mem_of_mem_take hch)

/-- A change that is recorded on its own ends a trail. -/
theorem Trail.push (h : Trail start stack) (hback : ch.back (ch.act (line_at start stack stack.length)) =
      line_at start stack stack.length) (hflags : ch.flags = 0) (hno : 0 ≤ ch.changeno)
    (hlen : (ch.act (line_at start stack stack.length)).length < 2 ^ 31)
    (hcs : as_usize ch.old_cs < 2 ^ 31 ∧ as_usize ch.new_cs < 2 ^ 31) :
    Trail start (stack ++ [ch]) where
  sound := by
    rw [line_at_length_le (Nat.le_refl _)] at hback
    exact h.sound.push hback
  first := by
    rcases Nat.eq_zero_or_pos stack.length with hz | hpos
    · rw [List.length_eq_zero_iff.mp hz, joined, List.nil_append, List.getElem?_cons_zero, Option.any_some,
        hflags, Nat.zero_and]
      rfl
    · rw [joined_push_lt hpos]
      exact h.first
  linked := by
    have hlast : (stack ++ [ch])[stack.length]? = some ch := List.getElem?_concat_length
    intro i
    rcases Nat.lt_trichotomy (i + 1) stack.length with hi | hi | hi
    · rw [joins_push_lt (by omega), joined_push_lt hi, h.linked]
    · rw [joins_push_lt (by omega), h.linked, hi, joined_of_ge (Nat.le_refl _), joined_eq hlast, hflags,
        Nat.zero_and]
      rfl
    · rw [joined_of_ge (by rw [List.length_append, List.length_singleton]; omega)]
      rcases Nat.lt_or_eq_of_le (Nat.lt_succ_iff.mp hi) with hi | hi
      · rw [joins_of_ge (by rw [List.length_append, List.length_singleton]; omega)]
      · rw [← hi, joins_eq hlast, hflags, Nat.zero_and]
        rfl
  numbered := by
    intro c hc
    rcases List.mem_append.mp hc with hc | hc
    · exact h.numbered c hc
    · rw [List.mem_singleton.mp hc]
      exact hno
  short := by
    intro i
    rcases Nat.lt_or_ge stack.length i with hi | hi
    · rw [line_at_length_le (by rw [List.length_append, List.length_singleton]; omega), Patches.replay_push,
        ← line_at_length_le (Nat.le_refl _)]
      exact hlen
    · rw [line_at_append hi]
      exact h.short i
  cursors := by
    intro c hc
    rcases List.mem_append.mp hc with hc | hc
    · exact h.cursors c hc
    · rw [List.mem_singleton.mp hc]
      exact hcs

end

end Zshrs.Zle
