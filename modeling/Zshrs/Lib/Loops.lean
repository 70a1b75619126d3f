import Zshrs.Lib.CharBoundary
import Mathlib.Logic.Relation

namespace Zshrs.Lib

/-- A `while` loop whose body may panic, with a measure that each round makes smaller. -/
structure Loop (σ : Type) where
  guard : σ → Bool
  step : σ → Option σ
  measure : σ → Nat
  decreases : ∀ s t, guard s = true → step s = some t → measure t < measure s

namespace Loop

variable {σ : Type} (L : Loop σ)

def run (s : σ) : Option σ :=
  if _hg : L.guard s = true then
    match _hs : L.step s with
    | none => none
    | some t => run t
  else some s
termination_by L.measure s
decreasing_by exact L.decreases s t _hg _hs

/-- One round of the loop. -/
def Round (s t : σ) : Prop := L.guard s = true ∧ L.step s = some t

def Reaches : σ → σ → Prop := Relation.ReflTransGen L.Round

variable {L} {s t u : σ}

theorem run_done (h : L.guard s = false) : L.run s = some s := by
  rw [run, dif_neg (by simp [h])]

theorem run_round (h : L.Round s t) : L.run s = L.run t := by
  rw [run, dif_pos h.1]
  split
  · rename_i hs
    cases hs.symm.trans h.2
  · rename_i t' hs
    cases hs.symm.trans h.2
    rfl

theorem run_panic (hg : L.guard s = true) (hs : L.step s = none) : L.run s = none := by
  rw [run, dif_pos hg]
  split
  · rfl
  · rename_i t hs'
    cases hs.symm.trans hs'

theorem run_reaches (h : L.Reaches s t) : L.run s = L.run t := by
  induction h with
  | refl => rfl
  | tail _ hround ih => rw [ih, run_round hround]

/-- At most `n` rounds. -/
def rounds (L : Loop σ) : Nat → σ → Option σ
  | 0, s => if L.guard s then none else some s
  | n + 1, s => if L.guard s then (L.step s).bind (rounds L n) else some s

/-- Rounds that end the loop are its run. -/
theorem run_of_rounds {n : Nat} (h : L.rounds n s = some t) : L.run s = some t := by
  induction n generalizing s with
  | zero =>
      cases hg : L.guard s with
      | true => simp [rounds, hg] at h
      | false =>
          rw [run_done hg]
          simpa [rounds, hg] using h
  | succ n ih =>
      cases hg : L.guard s with
      | true =>
          rw [rounds, if_pos hg] at h
          obtain ⟨u, hu, h⟩ := Option.bind_eq_some_iff.mp h
          rw [run_round ⟨hg, hu⟩]
          exact ih h
      | false =>
          rw [run_done hg]
          simpa [rounds, hg] using h

theorem map_run_of_rounds {α : Type} {f : σ → α} {a : α} (n : Nat) (h : (L.rounds n s).map f = some a) :
    (L.run s).map f = some a := by
  obtain ⟨t, ht, rfl⟩ := Option.map_eq_some_iff.mp h
  rw [run_of_rounds ht]
  rfl

/-- A run that returns ends in a state that is reached and that the guard refuses. -/
theorem run_eq_some_iff : L.run s = some t ↔ L.Reaches s t ∧ L.guard t = false := by
  constructor
  · intro h
    induction hm : L.measure s using Nat.strongRecOn generalizing s with
    | ind m ih =>
        cases hg : L.guard s with
        | false =>
            cases (run_done hg).symm.trans h
            exact ⟨Relation.ReflTransGen.refl, hg⟩
        | true =>
            cases hs : L.step s with
            | none => cases (run_panic hg hs).symm.trans h
            | some u =>
                have hlt := L.decreases s u hg hs
                obtain ⟨hreach, hdone⟩ := ih (L.measure u) (hm ▸ hlt) ((run_round ⟨hg, hs⟩).symm.trans h) rfl
                exact ⟨Relation.ReflTransGen.head ⟨hg, hs⟩ hreach, hdone⟩
  · rintro ⟨hreach, hdone⟩
    rw [run_reaches hreach, run_done hdone]

/-- A run returns if and only if no state that it reaches panics. -/
theorem run_ne_none_iff : L.run s ≠ none ↔ ∀ t, L.Reaches s t → L.guard t = true → L.step t ≠ none := by
  constructor
  · intro h t hreach hg hs
    exact h ((run_reaches hreach).trans (run_panic hg hs))
  · intro h
    induction hm : L.measure s using Nat.strongRecOn generalizing s with
    | ind m ih =>
        cases hg : L.guard s with
        | false =>
            rw [run_done hg]
            exact Option.some_ne_none s
        | true =>
            obtain ⟨u, hu⟩ := Option.ne_none_iff_exists'.mp (h s Relation.ReflTransGen.refl hg)
            rw [run_round ⟨hg, hu⟩]
            apply ih (L.measure u) (hm ▸ L.decreases s u hg hu) _ rfl
            intro t hreach
            exact h t (Relation.ReflTransGen.head ⟨hg, hu⟩ hreach)

/-- What every round keeps holds wherever a run gets. -/
theorem Reaches.invariant {I : σ → Prop} (h : L.Reaches s t) (hstep : ∀ u v, L.Round u v → I u → I v) (hs : I s) :
    I t := by
  induction h with
  | refl => exact hs
  | tail _ hround ih => exact hstep _ _ hround ih

/-- A loop that takes the rounds of another one, seen through `f`, has its run. -/
theorem run_bind {τ : Type} {M : Loop τ} (f : σ → Option τ)
    (hguard : ∀ s t, f s = some t → M.guard t = L.guard s)
    (hstep : ∀ s, L.guard s = true → (L.step s).bind f = (f s).bind M.step) (s : σ) :
    (L.run s).bind f = (f s).bind M.run := by
  induction hm : L.measure s using Nat.strongRecOn generalizing s with
  | ind m ih =>
      cases hg : L.guard s with
      | false =>
          rw [run_done hg, Option.bind_some]
          cases hf : f s with
          | none => rfl
          | some t => exact (run_done ((hguard s t hf).trans hg)).symm
      | true =>
          have hround := hstep s hg
          cases hs : L.step s with
          | none =>
              rw [run_panic hg hs]
              rw [hs] at hround
              cases hf : f s with
              | none => rfl
              | some t =>
                  rw [hf] at hround
                  exact (run_panic ((hguard s t hf).trans hg) hround.symm).symm
          | some u =>
              rw [run_round ⟨hg, hs⟩, ih (L.measure u) (hm ▸ L.decreases s u hg hs) u rfl]
              rw [hs, Option.bind_some] at hround
              rw [hround]
              cases hf : f s with
              | none => rfl
              | some t =>
                  have hgt := (hguard s t hf).trans hg
                  rw [Option.bind_some, Option.bind_some]
                  cases ht : M.step t with
                  | none => exact (run_panic hgt ht).symm
                  | some v => exact (run_round ⟨hgt, ht⟩).symm

end Loop

section Text

open Utf8

/-- A loop that goes over the bytes of a text, where one byte escapes the next one: past it the index goes on by two,
past all else it comes to the end of a char. A round panics inside a char, and in the states that are `Over`. -/
structure Scanner (body : List Char) (σ : Type) extends Loop σ where
  index : σ → Nat
  escape : UInt8
  Over : σ → Prop
  escape_ascii : escape < 0x80
  guard_iff : ∀ s, guard s = true ↔ index s < (encode body).length
  step_ne_none_iff : ∀ s, index s < (encode body).length → (step s ≠ none ↔ Aligned (encode body) (index s) ∧ ¬ Over s)
  index_escape : ∀ s t, step s = some t → (encode body)[index s]? = some escape → index t = index s + 2
  aligned_step : ∀ s t, step s = some t → (encode body)[index s]? ≠ some escape → Aligned (encode body) (index t)

namespace Scanner

variable {body : List Char} {σ : Type} (S : Scanner body σ)

/-- A char of several bytes is escaped next. -/
def CutsChar (s : σ) : Prop := (encode body)[S.index s]? = some S.escape ∧
  ∃ b, (encode body)[S.index s + 1]? = some b ∧ ¬ b < 0x80

/-- What the scanner cannot go past. -/
def Stuck (s : σ) : Prop := S.index s < (encode body).length ∧ (S.CutsChar s ∨ S.Over s)

variable {S} {s t : σ}

theorem aligned_of_step (hround : S.Round s t) (hcuts : ¬ S.CutsChar s) : Aligned (encode body) (S.index t) := by
  obtain ⟨-, hstep⟩ := hround
  by_cases hescape : (encode body)[S.index s]? = some S.escape
  · rw [S.index_escape s t hstep hescape]
    cases hnext : (encode body)[S.index s + 1]? with
    | none =>
        apply aligned_of_length_le
        have hlen := List.getElem?_eq_none_iff.mp hnext
        omega
    | some b =>
        by_cases hb : b < 0x80
        · exact aligned_behind_ascii hnext hb
        · exact absurd ⟨hescape, b, hnext, hb⟩ hcuts
  · exact S.aligned_step s t hstep hescape

/-- The round behind an escaped char of several bytes starts inside it. -/
theorem step_eq_none_of_cuts (hround : S.Round s t) (hcuts : S.CutsChar s) : S.guard t = true ∧ S.step t = none := by
  obtain ⟨-, hstep⟩ := hround
  obtain ⟨hescape, b, hb, hwide⟩ := hcuts
  have hbehind := aligned_behind_ascii hescape S.escape_ascii
  obtain ⟨hlt, hno⟩ := not_aligned_behind_wide hb hbehind hwide
  have hindex := S.index_escape s t hstep hescape
  have hguard : S.index t < (encode body).length := by
    rw [hindex]
    exact hlt
  refine ⟨(S.guard_iff t).mpr hguard, ?_⟩
  by_contra hsome
  have haligned := ((S.step_ne_none_iff t hguard).mp hsome).1
  rw [hindex] at haligned
  exact hno haligned

/-- A scanner gets to the end if and only if it is stuck nowhere on its way. -/
theorem run_ne_none_iff (hs : Aligned (encode body) (S.index s)) :
    S.run s ≠ none ↔ ∀ t, S.Reaches s t → ¬ S.Stuck t := by
  rw [Loop.run_ne_none_iff]
  constructor
  · rintro h t hreach ⟨hlt, hstuck⟩
    have hguard := (S.guard_iff t).mpr hlt
    have hstep := h t hreach hguard
    rcases hstuck with hcuts | hover
    · obtain ⟨u, hu⟩ := Option.ne_none_iff_exists'.mp hstep
      obtain ⟨hguard', hnone⟩ := step_eq_none_of_cuts ⟨hguard, hu⟩ hcuts
      exact h u (hreach.tail ⟨hguard, hu⟩) hguard' hnone
    · exact ((S.step_ne_none_iff t hlt).mp hstep).2 hover
  · intro h t hreach hguard
    have hlt := (S.guard_iff t).mp hguard
    have haligned : Aligned (encode body) (S.index t) := by
      cases hreach with
      | refl => exact hs
      | @tail u _ hreach hround =>
          apply aligned_of_step hround
          intro hcuts
          exact h u hreach ⟨(S.guard_iff u).mp hround.1, Or.inl hcuts⟩
    apply (S.step_ne_none_iff t hlt).mpr
    exact ⟨haligned, fun hover => h t hreach ⟨hlt, Or.inr hover⟩⟩

end Scanner

end Text

end Zshrs.Lib
