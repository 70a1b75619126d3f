import Mathlib.Logic.Function.Basic
import Mathlib.Algebra.Group.Nat.Defs
import Zshrs.Lib.Runs

namespace Zshrs.Par

/-- `usize::MAX` of a 64-bit target. -/
def usize_MAX : Nat := 2 ^ 64 - 1

/-- A slice: no allocation is longer than `isize::MAX`. -/
structure Slice (α : Type) where
  items : List α
  fits : items.length < 2 ^ 63

def Slice.len {α : Type} (s : Slice α) : Nat := s.items.length

theorem Slice.len_lt_max {α : Type} (s : Slice α) : s.len < usize_MAX :=
  Nat.lt_of_lt_of_le s.fits (by decide)

namespace Pfirst

open Lib

variable {α : Type}

/-- Where the closure of one item is: before its first load of `best`, before the test, before the
second load, in the loop with the value it compares with, or returned. -/
inductive Stage
  | start
  | testing
  | loading
  | trying (b : Nat)
  | done
  deriving DecidableEq

structure State where
  best : Nat
  stage : Nat → Stage

def State.init : State := ⟨usize_MAX, fun _ => .start⟩

def State.go (s : State) (i : Nat) (stage : Stage) : State :=
  { s with stage := Function.update s.stage i stage }

/-- Whose turn it is, and whether a `compare_exchange_weak` there fails though it finds what it expects. -/
structure Turn where
  item : Nat
  spurious : Bool

/-- One atomic step of item `i` of the list. -/
def advance (test : α → Bool) (v : α) (s : State) (t : Turn) : State :=
  match s.stage t.item with
  | .start => s.go t.item (if s.best ≤ t.item then .done else .testing)
  | .testing => s.go t.item (if test v then .loading else .done)
  | .loading => s.go t.item (.trying s.best)
  | .trying b =>
      if t.item < b then
        if s.best = b ∧ t.spurious = false then { s.go t.item .done with best := t.item }
        else s.go t.item (.trying s.best)
      else s.go t.item .done
  | .done => s

def step (list : Slice α) (test : α → Bool) (s : State) (t : Turn) : State :=
  match list.items[t.item]? with
  | some v => advance test v s t
  | none => s

/-- All items have returned. -/
def Finished (list : Slice α) (s : State) : Prop := ∀ i < list.len, s.stage i = .done

instance (list : Slice α) (s : State) : Decidable (Finished list s) :=
  inferInstanceAs (Decidable (∀ i < list.len, s.stage i = .done))

/-- What `pfirst_run` gives for the last value of `best`. -/
def answer (s : State) : Option Nat := if s.best = usize_MAX then none else some s.best

def pfirst_run (list : Slice α) (test : α → Bool) (turns : List Turn) : Option Nat :=
  if list.items.isEmpty then none else answer (Runs.run (step list test) .init turns)

/-- The item at an index passes. -/
def Passes (list : Slice α) (test : α → Bool) (i : Nat) : Prop := ∃ v, list.items[i]? = some v ∧ test v = true

/-- What the bound may be while an item is at a stage. -/
def Owes (list : Slice α) (test : α → Bool) (best i : Nat) : Stage → Prop
  | .start | .testing => True
  | .loading => Passes list test i
  | .trying b => Passes list test i ∧ best ≤ b
  | .done => Passes list test i → best ≤ i

structure Inv (list : Slice α) (test : α → Bool) (s : State) : Prop where
  best : s.best = usize_MAX ∨ Passes list test s.best
  items : ∀ i, Owes list test s.best i (s.stage i)

variable {list : Slice α} {test : α → Bool} {s : State}

theorem Passes.lt_len {i : Nat} (h : Passes list test i) : i < list.len := by
  obtain ⟨v, hv, -⟩ := h
  exact (List.getElem?_eq_some_iff.mp hv).1

/-- A lower bound owes no more. -/
theorem Owes.mono {best best' i : Nat} {stage : Stage} (hle : best' ≤ best)
    (h : Owes list test best i stage) : Owes list test best' i stage := by
  cases stage with
  | start | testing | loading => exact h
  | trying b => exact ⟨h.1, Nat.le_trans hle h.2⟩
  | done => exact fun hp => Nat.le_trans hle (h hp)

theorem Inv.init : Inv list test .init where
  best := .inl rfl
  items _ := trivial

theorem Inv.go {i : Nat} {stage : Stage} (h : Inv list test s) (hi : Owes list test s.best i stage) :
    Inv list test (s.go i stage) where
  best := h.best
  items := by
    intro j
    by_cases hj : j = i
    · subst hj
      simpa only [State.go, Function.update_self] using hi
    · simpa only [State.go, Function.update_of_ne hj] using h.items j

/-- The exchange puts a passing index in place of a higher bound. -/
theorem Inv.exchange {i : Nat} (h : Inv list test s) (hp : Passes list test i) (hlt : i < s.best) :
    Inv list test { s.go i .done with best := i } where
  best := .inr hp
  items := by
    intro j
    by_cases hj : j = i
    · subst hj
      simp only [State.go, Function.update_self]
      exact fun _ => Nat.le_refl j
    · simp only [State.go, Function.update_of_ne hj]
      exact (h.items j).mono (Nat.le_of_lt hlt)

theorem Inv.advance {v : α} {t : Turn} (hv : list.items[t.item]? = some v) (h : Inv list test s) :
    Inv list test (advance test v s t) := by
  have howes := h.items t.item
  rw [Pfirst.advance]
  cases hstage : s.stage t.item with
  | start =>
      apply h.go
      split
      · rename_i hle
        exact fun _ => hle
      · trivial
  | testing =>
      apply h.go
      split
      · rename_i htest
        exact ⟨v, hv, htest⟩
      · rename_i htest
        rintro ⟨w, hw, hpass⟩
        rw [hv] at hw
        cases hw
        exact absurd hpass htest
  | loading =>
      rw [hstage] at howes
      exact h.go ⟨howes, Nat.le_refl _⟩
  | trying b =>
      rw [hstage] at howes
      obtain ⟨hpass, hle⟩ := howes
      dsimp only
      split
      · rename_i hlt
        split
        · rename_i hfound
          exact h.exchange hpass (hfound.1 ▸ hlt)
        · exact h.go ⟨hpass, Nat.le_refl _⟩
      · rename_i hge
        exact h.go fun _ => Nat.le_trans hle (Nat.le_of_not_lt hge)
  | done => exact h

theorem Inv.step (t : Turn) (h : Inv list test s) : Inv list test (step list test s t) := by
  rw [Pfirst.step]
  split
  · rename_i v hv
    exact h.advance hv
  · exact h

theorem Inv.run (turns : List Turn) : Inv list test (Runs.run (Pfirst.step list test) .init turns) :=
  Runs.run_invariant (fun _ t h => h.step t) Inv.init turns

/-- Once all have returned, no passing index is under the bound, and the bound is one. -/
theorem Inv.best_eq (h : Inv list test s) (hfin : Finished list s) :
    s.best = (list.items.findIdx? test).getD usize_MAX := by
  have hall : ∀ i, Passes list test i → s.best ≤ i := by
    intro i hp
    have howes := h.items i
    rw [hfin i hp.lt_len] at howes
    exact howes hp
  cases hfind : list.items.findIdx? test with
  | none =>
      rcases h.best with hmax | ⟨v, hv, hpass⟩
      · exact hmax
      · have hno := List.findIdx?_eq_none_iff.mp hfind v (List.mem_of_getElem? hv)
        rw [hno] at hpass
        cases hpass
  | some m =>
      obtain ⟨hm, hpass, hleast⟩ := List.findIdx?_eq_some_iff_getElem.mp hfind
      have hle : s.best ≤ m := hall m ⟨_, List.getElem?_eq_getElem hm, hpass⟩
      have hmax : m < usize_MAX := Nat.lt_trans hm list.len_lt_max
      rw [Option.getD_some]
      rcases h.best with hbest | ⟨v, hv, hv'⟩
      · omega
      · apply Nat.le_antisymm hle
        by_contra hlt
        have hlt : s.best < m := Nat.lt_of_not_le hlt
        obtain ⟨hin, rfl⟩ := List.getElem?_eq_some_iff.mp hv
        exact hleast s.best hlt hv'

/-- Whatever the schedule, the bound ends as the least passing index, and the answer follows it. -/
theorem lowest_passing_index (list : Slice α) (test : α → Bool) (turns : List Turn)
    (hfin : Finished list (Runs.run (step list test) .init turns)) :
    (Runs.run (step list test) .init turns).best = (list.items.findIdx? test).getD usize_MAX ∧
      pfirst_run list test turns = list.items.findIdx? test := by
  have hbest := (Inv.run turns).best_eq hfin
  refine ⟨hbest, ?_⟩
  rw [pfirst_run, answer, hbest]
  cases hfind : list.items.findIdx? test with
  | none => simp
  | some m =>
      have hm : m < list.len := (List.findIdx?_eq_some_iff_getElem.mp hfind).1
      have hne : ¬ list.items.isEmpty := by
        intro hempty
        rw [Slice.len, List.isEmpty_iff.mp hempty] at hm
        exact Nat.not_lt_zero m hm
      rw [if_neg hne, Option.getD_some, if_neg (Nat.ne_of_lt (Nat.lt_trans hm list.len_lt_max))]

/-- The item after the least one gets its exchange in first, and a failed exchange is tried again. -/
theorem lowest_passing_index_of_three :
    (Runs.run (step ⟨[1, 5, 7], by decide⟩ fun v => 4 < v) .init
        [⟨1, false⟩, ⟨1, false⟩, ⟨2, false⟩, ⟨2, false⟩, ⟨2, false⟩, ⟨1, false⟩, ⟨2, true⟩, ⟨2, false⟩,
          ⟨1, false⟩, ⟨0, false⟩, ⟨0, false⟩, ⟨1, false⟩]).best = 1 ∧
      pfirst_run ⟨[1, 5, 7], by decide⟩ (fun v => 4 < v)
        [⟨1, false⟩, ⟨1, false⟩, ⟨2, false⟩, ⟨2, false⟩, ⟨2, false⟩, ⟨1, false⟩, ⟨2, true⟩, ⟨2, false⟩,
          ⟨1, false⟩, ⟨0, false⟩, ⟨0, false⟩, ⟨1, false⟩] = some 1 :=
  lowest_passing_index _ _ _ (by decide)

end Pfirst

end Zshrs.Par
