import Mathlib.Data.List.InsertIdx
import Zshrs.Lib.Runs
import Zshrs.Parse.Ecbuf

namespace Zshrs.Parse.Wordcode

open Lib.Runs

/-- What a parse does to the buffer. -/
inductive Call
  | ecadd (c : wordcode)
  | ecispace (p n : Nat)
  | ecdel (p : Nat)
  | heredoc (r : Nat) (htype fd1 : wordcode) (id : Option wordcode) (str : Str)
  | patch (p : Nat) (c : wordcode)
  | yyerror (o : Nat)
  | unadd (o : Nat)
  | setheredoc (doc term munged : wordcode)
  | clear_hdocs
  deriving DecidableEq

def exec (e : Ec) : Call → Ec
  | .ecadd c => e.ecadd c
  | .ecispace p n => e.ecispace p n
  | .ecdel p => e.ecdel p
  | .heredoc r htype fd1 id str => e.heredoc r htype fd1 id str
  | .patch p c => e.patch p c
  | .yyerror o => e.rollback o
  | .unadd o => e.unadd o
  | .setheredoc doc term munged => e.setheredoc doc term munged
  | .clear_hdocs => { e with hdocs := [] }

/-- The places behind the `WC_REDIR` word of a here-document. -/
def reserved (id n : Nat) : List Slot := (List.range (n - 1)).map fun j => .tail id (j + 1)

/-- Every `WC_REDIR` word of a here-document has its reserved places behind it. -/
def Whole : List Slot → Prop
  | [] => True
  | .head id n :: l => (reserved id n).Sublist l ∧ Whole l
  | _ :: l => Whole l

section Whole

variable {a b m l : List Slot}

theorem whole_cons (s : Slot) (l : List Slot) :
    Whole (s :: l) ↔ (∀ id n, s = .head id n → (reserved id n).Sublist l) ∧ Whole l := by
  cases s with
  | plain => exact ⟨fun h => ⟨fun _ _ hs => (by cases hs), h⟩, fun h => h.2⟩
  | tail id j => exact ⟨fun h => ⟨fun _ _ hs => (by cases hs), h⟩, fun h => h.2⟩
  | head id n =>
    refine ⟨fun h => ⟨fun _ _ hs => ?_, h.2⟩, fun h => ⟨h.1 id n rfl, h.2⟩⟩
    cases hs
    exact h.1

/-- Places may be put in anywhere. -/
theorem whole_insert (h : Whole (a ++ b)) (hm : ∀ b', Whole b' → Whole (m ++ b')) :
    Whole (a ++ (m ++ b)) := by
  induction a with
  | nil => exact hm b h
  | cons s a ih =>
    rw [List.cons_append, whole_cons] at h ⊢
    refine ⟨fun id n hs => (h.1 id n hs).trans ?_, ih h.2⟩
    exact (List.Sublist.refl a).append (List.sublist_append_right m b)

theorem plain_not_reserved (id n : Nat) : Slot.plain ∉ reserved id n := by
  intro h
  obtain ⟨j, -, hj⟩ := List.mem_map.mp h
  cases hj

theorem sublist_without {x : Slot} (hx : x ∉ l) (h : l.Sublist (a ++ x :: b)) : l.Sublist (a ++ b) := by
  obtain ⟨l₁, l₂, rfl, h₁, h₂⟩ := List.sublist_append_iff.mp h
  rcases List.sublist_cons_iff.mp h₂ with h₂ | ⟨l₃, rfl, -⟩
  · exact h₁.append h₂
  · exact absurd (List.mem_append_right l₁ List.mem_cons_self) hx

/-- A place that is not reserved may be taken out. -/
theorem whole_delete (h : Whole (a ++ .plain :: b)) : Whole (a ++ b) := by
  induction a with
  | nil => exact h
  | cons s a ih =>
    rw [List.cons_append, whole_cons] at h ⊢
    exact ⟨fun id n hs => sublist_without (plain_not_reserved id n) (h.1 id n hs), ih h.2⟩

theorem whole_cut (h : Whole (a ++ b)) (hb : ∀ s ∈ b, s = .plain) : Whole a := by
  induction b with
  | nil => rwa [List.append_nil] at h
  | cons s b ih =>
    have hs := hb s List.mem_cons_self
    subst hs
    exact ih (whole_delete h) fun s hs => hb s (List.mem_cons_of_mem _ hs)

theorem whole_plain (n : Nat) (h : Whole b) : Whole (List.replicate n .plain ++ b) := by
  induction n with
  | zero => exact h
  | succ n ih =>
    rw [List.replicate_succ]
    exact ih

theorem whole_tails {l : List Slot} (hl : ∀ s ∈ l, ∀ id n, s ≠ .head id n) (h : Whole b) :
    Whole (l ++ b) := by
  induction l with
  | nil => exact h
  | cons s l ih =>
    rw [List.cons_append, whole_cons]
    refine ⟨fun id n hs => absurd hs (hl s List.mem_cons_self id n), ih fun s hs => ?_⟩
    exact hl s (List.mem_cons_of_mem _ hs)

/-- The places of a new here-document. -/
theorem whole_heredoc (id n : Nat) (h : Whole b) : Whole (.head id n :: reserved id n ++ b) := by
  rw [List.cons_append, whole_cons]
  refine ⟨fun id' n' hs => ?_, whole_tails (fun s hs id n he => ?_) h⟩
  · cases hs
    exact List.sublist_append_left _ b
  · obtain ⟨j, -, hj⟩ := List.mem_map.mp hs
    rw [he] at hj
    cases hj

theorem whole_sublist (h : Whole l) {k id n : Nat} (hk : l[k]? = some (.head id n)) :
    (reserved id n).Sublist (l.drop (k + 1)) := by
  induction l generalizing k with
  | nil => cases hk
  | cons s l ih =>
    rw [whole_cons] at h
    cases k with
    | zero =>
      have hs : s = .head id n := by simpa using hk
      exact h.1 id n hs
    | succ k => exact ih h.2 hk

end Whole

section Slots

variable {e : Ec} {p n : Nat}

theorem Fits.length_slots (h : e.Fits) : e.slots.length = e.ecused := by
  unfold Ec.slots
  rw [List.length_map]
  exact Ec.length_live h

theorem map_insertAt {α β : Type} (f : α → β) (l : List α) (p : Nat) (m : List α) :
    (insertAt l p m).map f = insertAt (l.map f) p (m.map f) := by
  unfold insertAt
  rw [List.map_append, List.map_append, List.map_take, List.map_drop]

theorem slots_ecadd (h : e.Fits) (c : wordcode) : (e.ecadd c).slots = e.slots ++ [.plain] := by
  unfold Ec.slots
  rw [Ec.ecadd_live h, List.map_append]
  rfl

theorem slots_ecispace (h : e.Fits) (hp : p ≤ e.ecused) (n : Nat) :
    (e.ecispace p n).slots = insertAt e.slots p (List.replicate n .plain) := by
  unfold Ec.slots
  by_cases hlt : p < e.ecused
  · rw [Ec.ecispace_live h hlt, map_insertAt, List.map_replicate]
    rfl
  · have hend : p = e.ecused := by omega
    obtain ⟨stale, length, plain, hlive⟩ := Ec.ecispace_end h n
    have marks : stale.map Cell.slot = List.replicate n .plain := by
      rw [List.eq_replicate_iff]
      refine ⟨by rw [List.length_map, length], fun s hs => ?_⟩
      obtain ⟨c, hc, rfl⟩ := List.mem_map.mp hs
      exact plain c hc
    have all : (e.live.map Cell.slot).length ≤ e.ecused := Nat.le_of_eq (Fits.length_slots h)
    rw [hend, hlive, List.map_append, marks]
    unfold insertAt
    rw [List.take_of_length_le all, List.drop_of_length_le all, List.append_nil]

theorem slots_ecdel (h : e.Fits) (hp : p < e.ecused) : (e.ecdel p).slots = e.slots.eraseIdx p := by
  unfold Ec.slots
  rw [Ec.ecdel_live h hp]
  exact (List.eraseIdx_map Cell.slot e.live p).symm

theorem slots_patch (p : Nat) (c : wordcode) : (e.patch p c).slots = e.slots := by
  unfold Ec.slots Ec.live Ec.patch
  dsimp only
  apply List.ext_getElem?
  intro k
  rw [List.getElem?_map, List.getElem?_map, List.getElem?_take, List.getElem?_take,
    List.getElem?_modify]
  split
  · cases e.ecbuf[k]? with
    | none => rfl
    | some cell =>
      by_cases hk : p = k
      · simp [hk]
      · simp [hk]
  · rfl

theorem slots_rollback {o : Nat} (ho : o ≤ e.ecused) :
    (e.rollback o).slots = e.slots.take o := by
  unfold Ec.slots Ec.live Ec.rollback
  dsimp only
  rw [← List.map_take, List.take_take, Nat.min_eq_left ho]

theorem slots_reserve (r n : Nat) : (e.reserve r n).slots = e.slots.mapIdx fun i s =>
    if i = r then .head e.made n else if r < i ∧ i < r + n then .tail e.made (i - r) else s := by
  unfold Ec.slots Ec.live Ec.reserve
  dsimp only
  apply List.ext_getElem?
  intro k
  rw [List.getElem?_map, List.getElem?_take, List.getElem?_mapIdx, List.getElem?_mapIdx,
    List.getElem?_map, List.getElem?_take]
  split
  · cases e.ecbuf[k]? with
    | none => rfl
    | some cell =>
      simp only [Option.map_some]
      split
      · rfl
      · split
        · rfl
        · rfl
  · rfl

theorem getElem?_places {id n k : Nat} (hn : 0 < n) (hk : k < n) :
    (Slot.head id n :: reserved id n)[k]? = some (if k = 0 then .head id n else .tail id k) := by
  cases k with
  | zero => rfl
  | succ k =>
    rw [List.getElem?_cons_succ, if_neg (by omega)]
    unfold reserved
    rw [List.getElem?_map, List.getElem?_range (by omega)]
    rfl

theorem ncodes_pos (id : Option wordcode) : 0 < ncodes id := by
  unfold ncodes
  split
  · omega
  · omega

theorem slots_opened (e : Ec) (r : Nat) (htype fd1 : wordcode) (id : Option wordcode) :
    (e.openHeredoc r htype fd1 id).slots = (e.ecispace r (ncodes id)).slots := by
  unfold Ec.openHeredoc
  cases id with
  | none =>
    dsimp only
    rw [slots_patch, slots_patch]
  | some coded =>
    dsimp only
    rw [slots_patch, slots_patch, slots_patch]

theorem made_opened (e : Ec) (r : Nat) (htype fd1 : wordcode) (id : Option wordcode) :
    (e.openHeredoc r htype fd1 id).made = e.made := by
  have grown : (e.grow (ncodes id)).made = e.made := by
    unfold Ec.grow
    split
    · rfl
    · rfl
  unfold Ec.openHeredoc
  cases id with
  | none => exact grown
  | some coded => exact grown

theorem slots_heredoc (h : e.Fits) {r : Nat} (hr : r ≤ e.ecused) (htype fd1 : wordcode)
    (id : Option wordcode) (str : Str) : (e.heredoc r htype fd1 id str).slots =
      insertAt e.slots r (.head e.made (ncodes id) :: reserved e.made (ncodes id)) := by
  have hn := ncodes_pos id
  have length := Fits.length_slots h
  have made : (e.heredoc r htype fd1 id str).slots =
      ((e.openHeredoc r htype fd1 id).reserve r (ncodes id)).slots := rfl
  rw [made, slots_reserve, slots_opened, made_opened, slots_ecispace h hr]
  apply List.ext_getElem?
  intro k
  have places : (Slot.head e.made (ncodes id) :: reserved e.made (ncodes id)).length = ncodes id := by
    unfold reserved
    rw [List.length_cons, List.length_map, List.length_range]
    omega
  rw [List.getElem?_mapIdx, getElem?_insertAt (by omega), getElem?_insertAt (by omega),
    List.length_replicate, places]
  by_cases hfront : k < r
  · rw [if_pos hfront, if_pos hfront]
    cases e.slots[k]? with
    | none => rfl
    | some s => rw [Option.map_some, if_neg (by omega), if_neg (by omega)]
  · rw [if_neg hfront, if_neg hfront]
    by_cases hnew : k < r + ncodes id
    · rw [if_pos hnew, if_pos hnew, List.getElem?_replicate, if_pos (by omega),
        getElem?_places hn (by omega), Option.map_some]
      by_cases hself : k = r
      · rw [if_pos hself, if_pos (by omega)]
      · rw [if_neg hself, if_pos (by omega), if_neg (by omega)]
    · rw [if_neg hnew, if_neg hnew]
      cases e.slots[k - ncodes id]? with
      | none => rfl
      | some s => rw [Option.map_some, if_neg (by omega), if_neg (by omega)]

end Slots

end Zshrs.Parse.Wordcode
