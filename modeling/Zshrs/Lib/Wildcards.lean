import Mathlib.Data.List.Basic
import Mathlib.Algebra.GroupWithZero.Nat

namespace Zshrs.Lib.Wildcards

variable {α β : Type}

/-- A symbol of a pattern: any run, one letter, or a letter that stands for itself. -/
inductive Sym (α : Type) where
  | any
  | one
  | lit (a : α)
  deriving DecidableEq

/-- The language of a pattern. -/
inductive Globs : List (Sym α) → List α → Prop where
  | nil : Globs [] []
  | any {p : List (Sym α)} {s : List α} (run : List α) (rest : Globs p s) : Globs (.any :: p) (run ++ s)
  | one {p : List (Sym α)} {s : List α} (a : α) (rest : Globs p s) : Globs (.one :: p) (a :: s)
  | lit {p : List (Sym α)} {s : List α} (a : α) (rest : Globs p s) : Globs (.lit a :: p) (a :: s)

section Globs

variable {p q : List (Sym α)} {s t : List α} {a : α}

theorem globs_nil : Globs [] s ↔ s = [] := by
  constructor
  · intro h
    cases h
    rfl
  · rintro rfl
    exact .nil

theorem globs_any : Globs (.any :: p) s ↔ ∃ run t, s = run ++ t ∧ Globs p t := by
  constructor
  · intro h
    cases h with
    | any run rest => exact ⟨run, _, rfl, rest⟩
  · rintro ⟨run, t, rfl, rest⟩
    exact .any run rest

theorem globs_one : Globs (.one :: p) s ↔ ∃ a t, s = a :: t ∧ Globs p t := by
  constructor
  · intro h
    cases h with
    | one a rest => exact ⟨a, _, rfl, rest⟩
  · rintro ⟨a, t, rfl, rest⟩
    exact .one a rest

theorem globs_lit : Globs (.lit a :: p) s ↔ ∃ t, s = a :: t ∧ Globs p t := by
  constructor
  · intro h
    cases h with
    | lit _ rest => exact ⟨_, rfl, rest⟩
  · rintro ⟨t, rfl, rest⟩
    exact .lit a rest

/-- A run is either empty, or one letter longer than another run. -/
theorem globs_any_step : Globs (.any :: p) s ↔ Globs p s ∨ ∃ a t, s = a :: t ∧ Globs (.any :: p) t := by
  rw [globs_any]
  constructor
  · rintro ⟨run, t, rfl, rest⟩
    cases run with
    | nil => exact .inl rest
    | cons a run => exact .inr ⟨a, run ++ t, rfl, .any run rest⟩
  · rintro (rest | ⟨a, t, rfl, h⟩)
    · exact ⟨[], s, rfl, rest⟩
    · obtain ⟨run, t, rfl, rest⟩ := globs_any.mp h
      exact ⟨a :: run, t, rfl, rest⟩

theorem globs_lits (l : List α) : Globs (l.map .lit ++ p) s ↔ ∃ t, s = l ++ t ∧ Globs p t := by
  induction l generalizing s with
  | nil => exact ⟨fun h => ⟨s, rfl, h⟩, fun ⟨_, hs, h⟩ => hs ▸ h⟩
  | cons a l ih =>
      rw [List.map_cons, List.cons_append, globs_lit]
      constructor
      · rintro ⟨t, rfl, h⟩
        obtain ⟨u, rfl, rest⟩ := ih.mp h
        exact ⟨u, rfl, rest⟩
      · rintro ⟨u, rfl, rest⟩
        exact ⟨l ++ u, rfl, ih.mpr ⟨u, rfl, rest⟩⟩

end Globs

/-- Whether a run is one for `k` letters, or for more of them if it is open. -/
def Meets (k : Nat) (open_ : Bool) (n : Nat) : Prop := n = k ∨ open_ = true ∧ k ≤ n

/-- A pattern fits a text when every run between its letters has the weight that the wildcards there ask
for. Those that have been passed ask for `k`, and for more if there was an open one. -/
def FitsFrom (weight : α → Nat) : List (Sym α) → Nat → Bool → List α → Prop
  | [], k, open_, s => Meets k open_ (s.map weight).sum
  | .any :: p, k, _, s => FitsFrom weight p k true s
  | .one :: p, k, open_, s => FitsFrom weight p (k + 1) open_ s
  | .lit a :: p, k, open_, s =>
      ∃ run rest, s = run ++ a :: rest ∧ Meets k open_ (run.map weight).sum ∧ FitsFrom weight p 0 false rest

def Fits (weight : α → Nat) (p : List (Sym α)) (s : List α) : Prop := FitsFrom weight p 0 false s

section Weights

variable {v w : α → Nat} {p : List (Sym α)} {k : Nat} {open_ : Bool} {s : List α}

/-- Wherever the letters of a pattern can be laid on a text by one weight, the run in front of the next letter
meets what the wildcards there ask for exactly if it does by the other weight. -/
def AlikeFrom (v w : α → Nat) : List (Sym α) → Nat → Bool → List α → Prop
  | [], k, open_, s => Meets k open_ (s.map v).sum ↔ Meets k open_ (s.map w).sum
  | .any :: p, k, _, s => AlikeFrom v w p k true s
  | .one :: p, k, open_, s => AlikeFrom v w p (k + 1) open_ s
  | .lit a :: p, k, open_, s => ∀ run rest, s = run ++ a :: rest →
      (Meets k open_ (run.map v).sum ↔ Meets k open_ (run.map w).sum) ∧
        (Meets k open_ (run.map w).sum → AlikeFrom v w p 0 false rest)

theorem fitsFrom_iff_of_alike (h : AlikeFrom v w p k open_ s) : FitsFrom v p k open_ s ↔ FitsFrom w p k open_ s := by
  induction p generalizing k open_ s with
  | nil => exact h
  | cons x p ih =>
      cases x with
      | any => exact ih (show AlikeFrom v w p k true s from h)
      | one => exact ih (k := k + 1) h
      | lit a =>
          constructor
          · rintro ⟨run, rest, hs, hrun, hrest⟩
            obtain ⟨hmeets, halike⟩ := h run rest hs
            have hmet := hmeets.mp hrun
            exact ⟨run, rest, hs, hmet, (ih (halike hmet)).mp hrest⟩
          · rintro ⟨run, rest, hs, hrun, hrest⟩
            obtain ⟨hmeets, halike⟩ := h run rest hs
            exact ⟨run, rest, hs, hmeets.mpr hrun, (ih (halike hrun)).mpr hrest⟩

/-- Weights that agree on the letters of a text are alike on it. -/
theorem alikeFrom_of_agree (p : List (Sym α)) (k : Nat) (open_ : Bool) (h : ∀ a ∈ s, v a = w a) :
    AlikeFrom v w p k open_ s := by
  induction p generalizing k open_ s with
  | nil =>
      rw [AlikeFrom, List.map_congr_left h]
  | cons x p ih =>
      cases x with
      | any => exact ih k true h
      | one => exact ih (k + 1) open_ h
      | lit a =>
          rintro run rest rfl
          refine ⟨?_, fun _ => ih 0 false fun b hb => ?_⟩
          · rw [List.map_congr_left fun b hb => h b (List.mem_append_left _ hb)]
          · exact h b (List.mem_append_right run (List.mem_cons_of_mem a hb))

/-- A demand that no weight can tell from another: none, or one and any more. -/
def Lax (k : Nat) (open_ : Bool) : Prop := k = 0 ∨ k = 1 ∧ open_ = true

instance : Decidable (Lax k open_) := inferInstanceAs (Decidable (_ ∨ _))

/-- A pattern all of whose runs of wildcards are such. -/
def LaxFrom : List (Sym α) → Nat → Bool → Prop
  | [], k, open_ => Lax k open_
  | .any :: p, k, _ => LaxFrom p k true
  | .one :: p, k, open_ => LaxFrom p (k + 1) open_
  | .lit _ :: p, k, open_ => Lax k open_ ∧ LaxFrom p 0 false

theorem sum_eq_zero_iff (hw : ∀ a, 0 < w a) (s : List α) : (s.map w).sum = 0 ↔ s = [] := by
  cases s with
  | nil => simp
  | cons a s =>
      have ha := hw a
      rw [List.map_cons, List.sum_cons]
      exact iff_of_false (by omega) (List.cons_ne_nil a s)

theorem meets_of_lax (hw : ∀ a, 0 < w a) (h : Lax k open_) (s : List α) :
    Meets k open_ (s.map w).sum ↔ k = 0 ∧ (open_ = true ∨ s = []) ∨ k = 1 ∧ s ≠ [] := by
  have hzero := sum_eq_zero_iff hw s
  unfold Meets
  rcases h with rfl | ⟨rfl, rfl⟩
  · rw [hzero]
    simp [or_comm]
  · rw [ne_eq, ← hzero]
    simp only [true_and, Nat.one_ne_zero, false_and, false_or]
    omega

theorem alikeFrom_of_lax (hv : ∀ a, 0 < v a) (hw : ∀ a, 0 < w a) (h : LaxFrom p k open_) (s : List α) :
    AlikeFrom v w p k open_ s := by
  induction p generalizing k open_ s with
  | nil =>
      rw [AlikeFrom, meets_of_lax hv h, meets_of_lax hw h]
  | cons x p ih =>
      cases x with
      | any => exact ih (show LaxFrom p k true from h) s
      | one => exact ih (k := k + 1) h s
      | lit a =>
          intro run rest _
          refine ⟨?_, fun _ => ih h.2 rest⟩
          rw [meets_of_lax hv h.1, meets_of_lax hw h.1]

/-- How many letters a pattern asks for at least. -/
def least : List (Sym α) → Nat
  | [] => 0
  | .any :: p => least p
  | .one :: p => least p + 1
  | .lit _ :: p => least p + 1

/-- The largest demand of a pattern. -/
def most : List (Sym α) → Nat → Nat
  | [], k => k
  | .any :: p, k => most p k
  | .one :: p, k => most p (k + 1)
  | .lit _ :: p, k => max k (most p 0)

/-- The shortest text of a pattern, with `x` for each single wildcard. -/
def fill (x : α) : List (Sym α) → List α
  | [] => []
  | .any :: p => fill x p
  | .one :: p => x :: fill x p
  | .lit a :: p => a :: fill x p

theorem le_most (p : List (Sym α)) (k : Nat) : k ≤ most p k := by
  induction p generalizing k with
  | nil => exact Nat.le_refl k
  | cons x p ih =>
      cases x with
      | any => exact ih k
      | one => exact Nat.le_of_succ_le (ih (k + 1))
      | lit a => exact Nat.le_max_left _ _

theorem length_fill (x : α) (p : List (Sym α)) : (fill x p).length = least p := by
  induction p with
  | nil => rfl
  | cons y p ih =>
      cases y with
      | any => exact ih
      | one => exact congrArg (· + 1) ih
      | lit a => exact congrArg (· + 1) ih

theorem sum_replicate_one {x : α} (hx : w x = 1) (k : Nat) : ((List.replicate k x).map w).sum = k := by
  rw [List.map_replicate, hx, List.sum_replicate_nat, Nat.mul_one]

theorem replicate_fill (x : α) (k : Nat) (p : List (Sym α)) :
    List.replicate k x ++ x :: fill x p = List.replicate (k + 1) x ++ fill x p := by
  rw [List.replicate_succ', List.append_assoc, List.singleton_append]

/-- The shortest text fits, where each single wildcard asks for just its letter. -/
theorem fitsFrom_fill {x : α} (hx : w x = 1) (p : List (Sym α)) (k : Nat) (open_ : Bool) :
    FitsFrom w p k open_ (List.replicate k x ++ fill x p) := by
  induction p generalizing k open_ with
  | nil =>
      rw [fill, List.append_nil, FitsFrom, sum_replicate_one hx]
      exact .inl rfl
  | cons y p ih =>
      cases y with
      | any => exact ih k true
      | one =>
          rw [fill, replicate_fill]
          exact ih (k + 1) open_
      | lit a =>
          refine ⟨List.replicate k x, fill x p, rfl, .inl (sum_replicate_one hx k), ?_⟩
          have h := ih 0 false
          rwa [List.replicate_zero, List.nil_append] at h

theorem le_of_meets {n : Nat} (h : Meets k open_ n) : k ≤ n := by
  rcases h with rfl | ⟨-, h⟩
  · exact Nat.le_refl n
  · exact h

theorem length_le_sum (hw : ∀ a, 0 < w a) (s : List α) : s.length ≤ (s.map w).sum := by
  induction s with
  | nil => exact Nat.le_refl 0
  | cons a s ih =>
      have ha := hw a
      rw [List.length_cons, List.map_cons, List.sum_cons]
      omega

/-- A run that holds one letter of any weight is long enough where no more than one is asked for. -/
theorem le_length_of_meets (hk : k ≤ 1) {run : List α} (h : Meets k open_ (run.map w).sum) : k ≤ run.length := by
  have hle := le_of_meets h
  cases run with
  | nil => exact hle
  | cons a run =>
      rw [List.length_cons]
      omega

theorem least_le_length (hmost : most p k ≤ 1 ∨ ∀ a, w a = 1) (h : FitsFrom w p k open_ s) :
    k + least p ≤ s.length := by
  -- By either bound a run is as long as its demand.
  have enough {k : Nat} {open_ : Bool} (hk : k ≤ 1 ∨ ∀ a, w a = 1) {run : List α}
      (hrun : Meets k open_ (run.map w).sum) : k ≤ run.length := by
    rcases hk with hk | hw
    · exact le_length_of_meets hk hrun
    · have hle := le_of_meets hrun
      rwa [List.map_congr_left fun a _ => hw a, List.map_const', List.sum_replicate_nat, Nat.mul_one] at hle
  induction p generalizing k open_ s with
  | nil => exact enough (hmost.imp_left fun h => h) h
  | cons x p ih =>
      cases x with
      | any => exact ih hmost (show FitsFrom w p k true s from h)
      | one =>
          have hrest := ih (k := k + 1) hmost h
          rw [least]
          omega
      | lit a =>
          obtain ⟨run, rest, rfl, hrun, hrest⟩ := h
          have hfront := enough (hmost.imp_left fun h => Nat.le_trans (Nat.le_max_left _ _) h) hrun
          have hback := ih (hmost.imp_left fun h => Nat.le_trans (Nat.le_max_right _ _) h) hrest
          rw [List.length_append, List.length_cons, least]
          omega

/-- Where two letters are asked for at once, one letter of weight two makes a text that fits and is too short. -/
theorem exists_short {x y : α} (hx : w x = 1) (hy : w y = 2) (h : 2 ≤ most p k) :
    ∃ s, FitsFrom w p k open_ s ∧ s.length < k + least p := by
  have run {k : Nat} (hk : 2 ≤ k) : ((y :: List.replicate (k - 2) x).map w).sum = k := by
    rw [List.map_cons, List.sum_cons, sum_replicate_one hx, hy]
    omega
  induction p generalizing k open_ with
  | nil =>
      rw [most] at h
      refine ⟨y :: List.replicate (k - 2) x, .inl (run h), ?_⟩
      rw [List.length_cons, List.length_replicate, least]
      omega
  | cons z p ih =>
      cases z with
      | any =>
          obtain ⟨s, hs, hshort⟩ : ∃ s, FitsFrom w p k true s ∧ s.length < k + least p := ih h
          exact ⟨s, hs, hshort⟩
      | one =>
          obtain ⟨s, hs, hshort⟩ : ∃ s, FitsFrom w p (k + 1) open_ s ∧ s.length < k + 1 + least p := ih h
          refine ⟨s, hs, ?_⟩
          rw [least]
          omega
      | lit a =>
          have hmax : 2 ≤ k ∨ 2 ≤ most p 0 := by
            rw [most] at h
            omega
          rcases hmax with hk | hp
          · have hfill := fitsFrom_fill hx p 0 false
            rw [List.replicate_zero, List.nil_append] at hfill
            refine ⟨_, ⟨y :: List.replicate (k - 2) x, fill x p, rfl, .inl (run hk), hfill⟩, ?_⟩
            rw [List.length_append, List.length_cons, List.length_cons, List.length_replicate, length_fill, least]
            omega
          · obtain ⟨s, hs, hshort⟩ : ∃ s, FitsFrom w p 0 false s ∧ s.length < 0 + least p := ih hp
            refine ⟨_, ⟨List.replicate k x, s, rfl, .inl (sum_replicate_one hx k), hs⟩, ?_⟩
            rw [List.length_append, List.length_cons, List.length_replicate, least]
            omega

/-- Where a single letter is asked for, the shortest text with a letter of weight two there does not fit: no run
has a letter to spare. -/
theorem not_fitsFrom_fill {y : α} (hy : w y = 2) (hmost : most p k ≤ 1) (h : ¬ LaxFrom p k open_) :
    ¬ FitsFrom w p k open_ (List.replicate k y ++ fill y p) := by
  have closed {k : Nat} {open_ : Bool} (hk : k ≤ 1) (hlax : ¬ Lax k open_) :
      ¬ Meets k open_ ((List.replicate k y).map w).sum := by
    rw [List.map_replicate, hy, List.sum_replicate_nat]
    unfold Lax at hlax
    unfold Meets
    cases open_ <;> simp at hlax ⊢ <;> omega
  induction p generalizing k open_ with
  | nil =>
      rw [fill, List.append_nil]
      exact closed hmost h
  | cons x p ih =>
      cases x with
      | any => exact ih hmost (show ¬ LaxFrom p k true from h)
      | one =>
          rw [fill, replicate_fill]
          exact ih (k := k + 1) hmost h
      | lit a =>
          rintro ⟨run, rest, hs, hrun, hrest⟩
          have hk : k ≤ 1 := Nat.le_trans (Nat.le_max_left _ _) hmost
          have hp : most p 0 ≤ 1 := Nat.le_trans (Nat.le_max_right _ _) hmost
          have hfront := le_length_of_meets hk hrun
          have hback := least_le_length (.inl hp) hrest
          have hlength := congrArg List.length hs
          simp only [fill, List.length_append, List.length_cons, List.length_replicate, length_fill] at hlength
          obtain ⟨rfl, hcons⟩ := List.append_inj hs (by rw [List.length_replicate]; omega)
          obtain ⟨-, rfl⟩ := List.cons.inj hcons
          by_cases hlax : Lax k open_
          · refine ih hp (fun hrest' => h ⟨hlax, hrest'⟩) ?_
            rwa [List.replicate_zero, List.nil_append]
          · exact closed hk hlax hrun

/-- Every other pattern fits some text by one weight alone. -/
theorem fits_iff_lax {x y : α} (hw : ∀ a, 0 < w a) (hx : w x = 1) (hy : w y = 2) :
    (∀ s, Fits w p s ↔ Fits (fun _ => 1) p s) ↔ LaxFrom p 0 false := by
  constructor
  · intro h
    by_contra hlax
    rcases Nat.lt_or_ge 1 (most p 0) with hmost | hmost
    · obtain ⟨s, hs, hshort⟩ : ∃ s, FitsFrom w p 0 false s ∧ s.length < 0 + least p := exists_short hx hy hmost
      have hlong := least_le_length (.inr fun _ => rfl) ((h s).mp hs)
      omega
    · have hfill := fitsFrom_fill (w := fun _ => 1) (x := y) rfl p 0 false
      exact not_fitsFrom_fill hy hmost hlax ((h _).mpr hfill)
  · exact fun h s => fitsFrom_iff_of_alike (alikeFrom_of_lax hw (fun _ => Nat.one_pos) h s)

/-- A pattern of single letters alone asks for their number. -/
theorem fits_ones (n : Nat) :
    Fits w (List.replicate n .one) s ↔ (s.map w).sum = n := by
  have passed (k : Nat) : FitsFrom w (List.replicate n .one) k false s ↔ (s.map w).sum = k + n := by
    induction n generalizing k with
    | zero =>
        rw [List.replicate_zero, FitsFrom, Meets]
        simp
    | succ n ih =>
        rw [List.replicate_succ, FitsFrom, ih]
        omega
  rw [Fits, passed, Nat.zero_add]

/-- A text that a pattern of single letters alone fits by its length holds letters of weight one only. -/
theorem weights_one (hw : ∀ a, 0 < w a)
    (h : Fits w (List.replicate s.length .one) s ↔ Fits (fun _ => 1) (List.replicate s.length .one) s) :
    ∀ a ∈ s, w a = 1 := by
  rw [fits_ones, fits_ones, List.map_const', List.sum_replicate_nat, Nat.mul_one] at h
  have hsum := h.mpr rfl
  clear h
  induction s with
  | nil => exact fun a ha => by cases ha
  | cons a s ih =>
      have hrest := length_le_sum hw s
      have ha := hw a
      rw [List.map_cons, List.sum_cons, List.length_cons] at hsum
      intro b hb
      rcases List.mem_cons.mp hb with rfl | hb
      · omega
      · exact ih (by omega) b hb

end Weights

section Runs

variable {p : List (Sym α)} {s : List α} {a : α} {k : Nat} {open_ : Bool}

/-- A run for the wildcards that have been passed, and then the rest of the pattern. -/
def GlobsFrom (p : List (Sym α)) (k : Nat) (open_ : Bool) (s : List α) : Prop :=
  ∃ run rest, s = run ++ rest ∧ Meets k open_ run.length ∧ Globs p rest

theorem globsFrom_zero : GlobsFrom p 0 false s ↔ Globs p s := by
  constructor
  · rintro ⟨run, rest, rfl, hrun | ⟨hopen, -⟩, h⟩
    · obtain rfl := List.length_eq_zero_iff.mp hrun
      exact h
    · cases hopen
  · exact fun h => ⟨[], s, rfl, .inl rfl, h⟩

theorem globsFrom_nil : GlobsFrom [] k open_ s ↔ Meets k open_ s.length := by
  constructor
  · rintro ⟨run, rest, rfl, hrun, h⟩
    obtain rfl := globs_nil.mp h
    rwa [List.append_nil]
  · exact fun h => ⟨s, [], (List.append_nil s).symm, h, .nil⟩

theorem globsFrom_any : GlobsFrom (.any :: p) k open_ s ↔ GlobsFrom p k true s := by
  constructor
  · rintro ⟨run, rest, rfl, hrun, h⟩
    obtain ⟨more, tail, rfl, htail⟩ := globs_any.mp h
    refine ⟨run ++ more, tail, (List.append_assoc ..).symm, .inr ⟨rfl, ?_⟩, htail⟩
    rw [List.length_append]
    rcases hrun with hrun | ⟨-, hrun⟩
    · omega
    · omega
  · rintro ⟨run, rest, rfl, hrun, h⟩
    have hlen : k ≤ run.length := by
      rcases hrun with hrun | ⟨-, hrun⟩
      · omega
      · exact hrun
    refine ⟨run.take k, run.drop k ++ rest, ?_, .inl ?_, .any _ h⟩
    · rw [← List.append_assoc, List.take_append_drop]
    · rw [List.length_take]
      omega

theorem globsFrom_one : GlobsFrom (.one :: p) k open_ s ↔ GlobsFrom p (k + 1) open_ s := by
  constructor
  · rintro ⟨run, rest, rfl, hrun, h⟩
    obtain ⟨a, tail, rfl, htail⟩ := globs_one.mp h
    refine ⟨run ++ [a], tail, by rw [List.append_assoc]; rfl, ?_, htail⟩
    rw [List.length_append, List.length_singleton]
    rcases hrun with hrun | ⟨hopen, hrun⟩
    · exact .inl (by omega)
    · exact .inr ⟨hopen, by omega⟩
  · rintro ⟨run, rest, rfl, hrun, h⟩
    have hne : run ≠ [] := by
      rintro rfl
      rcases hrun with hrun | ⟨-, hrun⟩
      · cases hrun
      · cases hrun
    refine ⟨run.dropLast, run.getLast hne :: rest, ?_, ?_, .one _ h⟩
    · rw [List.append_cons, List.dropLast_append_getLast hne]
    · rw [List.length_dropLast]
      rcases hrun with hrun | ⟨hopen, hrun⟩
      · exact .inl (by omega)
      · exact .inr ⟨hopen, by omega⟩

theorem globsFrom_lits (l : List α) : GlobsFrom (l.map .lit ++ p) k open_ s ↔
    ∃ run rest, s = run ++ l ++ rest ∧ Meets k open_ run.length ∧ GlobsFrom p 0 false rest := by
  constructor
  · rintro ⟨run, rest, rfl, hrun, h⟩
    obtain ⟨tail, rfl, htail⟩ := (globs_lits l).mp h
    exact ⟨run, tail, (List.append_assoc ..).symm, hrun, globsFrom_zero.mpr htail⟩
  · rintro ⟨run, rest, rfl, hrun, h⟩
    exact ⟨run, l ++ rest, List.append_assoc .., hrun, (globs_lits l).mpr ⟨rest, rfl, globsFrom_zero.mp h⟩⟩

end Runs

/-- A code whose words are found in an encoded text only where they were put. -/
structure Code (enc : α → List β) : Prop where
  sync : ∀ {s : List α} {a : α} {run rest : List β}, s.flatMap enc = run ++ enc a ++ rest →
    ∃ s₁ s₂, s = s₁ ++ a :: s₂ ∧ s₁.flatMap enc = run ∧ s₂.flatMap enc = rest

/-- A pattern with its letters encoded. -/
def encodeSym (enc : α → List β) : Sym α → List (Sym β)
  | .any => [.any]
  | .one => [.one]
  | .lit a => (enc a).map .lit

theorem code_singleton : Code (fun a : α => [a]) where
  sync {s a run rest} h := by
    rw [List.flatMap_singleton', List.append_assoc] at h
    exact ⟨run, rest, h, List.flatMap_singleton' run, List.flatMap_singleton' rest⟩

theorem sum_length_eq (enc : α → List β) (s : List α) :
    (s.map fun a => (enc a).length).sum = (s.flatMap enc).length := by
  rw [List.length_flatMap]

theorem globsFrom_encode {enc : α → List β} (code : Code enc) (p : List (Sym α)) (k : Nat) (open_ : Bool)
    (s : List α) : GlobsFrom (p.flatMap (encodeSym enc)) k open_ (s.flatMap enc) ↔
      FitsFrom (fun a => (enc a).length) p k open_ s := by
  induction p generalizing k open_ s with
  | nil => rw [List.flatMap_nil, globsFrom_nil, FitsFrom, sum_length_eq]
  | cons x p ih =>
      rw [List.flatMap_cons]
      cases x with
      | any =>
          rw [FitsFrom, ← ih]
          exact globsFrom_any
      | one =>
          rw [FitsFrom, ← ih]
          exact globsFrom_one
      | lit a =>
          rw [FitsFrom, encodeSym, globsFrom_lits]
          constructor
          · rintro ⟨run, rest, hs, hrun, h⟩
            obtain ⟨s₁, s₂, rfl, rfl, rfl⟩ := code.sync hs
            refine ⟨s₁, s₂, rfl, ?_, (ih ..).mp h⟩
            rwa [sum_length_eq]
          · rintro ⟨s₁, s₂, rfl, hrun, h⟩
            rw [sum_length_eq] at hrun
            refine ⟨s₁.flatMap enc, s₂.flatMap enc, ?_, hrun, (ih ..).mpr h⟩
            rw [List.flatMap_append, List.flatMap_cons, List.append_assoc]

/-- An encoded pattern takes the encoded texts that it fits by the length of their codes. -/
theorem globs_encode {enc : α → List β} (code : Code enc) (p : List (Sym α)) (s : List α) :
    Globs (p.flatMap (encodeSym enc)) (s.flatMap enc) ↔ Fits (fun a => (enc a).length) p s := by
  rw [← globsFrom_zero]
  exact globsFrom_encode code p 0 false s

/-- A pattern takes the texts that it fits by the number of letters. -/
theorem globs_iff_fits (p : List (Sym α)) (s : List α) : Globs p s ↔ Fits (fun _ => 1) p s := by
  have same : p.flatMap (encodeSym fun a => [a]) = p := by
    have single : encodeSym (fun a : α => [a]) = fun x => [x] := by
      funext x
      cases x with
      | any => rfl
      | one => rfl
      | lit a => rfl
    rw [single, List.flatMap_singleton']
  have h := globs_encode code_singleton p s
  rwa [same, List.flatMap_singleton'] at h

end Zshrs.Lib.Wildcards
