import Mathlib.Data.List.Induction
import Mathlib.Tactic.Ring

namespace Zshrs.Lib.Decimal

/-- The number that a row of decimal digits spells. -/
def value (ds : List Nat) : Nat := ds.foldl (fun v d => v * 10 + d) 0

@[simp] theorem value_nil : value [] = 0 := rfl

theorem value_append_singleton (ds : List Nat) (d : Nat) : value (ds ++ [d]) = value ds * 10 + d := by
  rw [value, List.foldl_append]
  rfl

theorem value_append (ds es : List Nat) : value (ds ++ es) = value ds * 10 ^ es.length + value es := by
  induction es using List.reverseRecOn with
  | nil => simp
  | append_singleton es e ih =>
      rw [← List.append_assoc, value_append_singleton, value_append_singleton, ih, List.length_append,
        List.length_singleton]
      ring

theorem value_lt {ds : List Nat} (h : ∀ d ∈ ds, d < 10) : value ds < 10 ^ ds.length := by
  induction ds using List.reverseRecOn with
  | nil => exact Nat.one_pos
  | append_singleton ds d ih =>
      have hd : d < 10 := h d (by simp)
      have hds := ih fun e he => h e (List.mem_append_left _ he)
      rw [value_append_singleton, List.length_append, List.length_singleton, Nat.pow_succ]
      omega

theorem value_le_prefixed {ds es : List Nat} (h : ds <+: es) : value ds ≤ value es := by
  obtain ⟨t, rfl⟩ := h
  rw [value_append]
  exact Nat.le_add_right_of_le (Nat.le_mul_of_pos_right _ (Nat.pow_pos (by decide)))

/-- Digits cut off at the end are digits divided away. -/
theorem value_div {ds es : List Nat} (h : ∀ e ∈ es, e < 10) : value (ds ++ es) / 10 ^ es.length = value ds := by
  rw [value_append, Nat.mul_comm, Nat.mul_add_div (Nat.pow_pos (by decide)), Nat.div_eq_of_lt (value_lt h),
    Nat.add_zero]

theorem value_take {ds : List Nat} (h : ∀ d ∈ ds, d < 10) (j : Nat) :
    value (ds.take j) = value ds / 10 ^ (ds.length - j) := by
  have hdrop : ∀ d ∈ ds.drop j, d < 10 := fun d hd => h d (List.mem_of_mem_drop hd)
  have hdiv := @value_div (ds.take j) (ds.drop j) hdrop
  rw [List.take_append_drop, List.length_drop] at hdiv
  exact hdiv.symm

theorem value_take_le (ds : List Nat) {i j : Nat} (hij : i ≤ j) : value (ds.take i) ≤ value (ds.take j) :=
  value_le_prefixed (List.take_prefix_take_left hij)

/-- Dividing by a power of ten leaves a start of the digits. -/
theorem value_div_prefix {ds : List Nat} (h : ∀ d ∈ ds, d < 10) (i : Nat) :
    ∃ front, front <+: ds ∧ value front = value ds / 10 ^ i := by
  obtain hi | hi := Nat.le_total i ds.length
  · refine ⟨ds.take (ds.length - i), List.take_prefix _ _, ?_⟩
    rw [value_take h, Nat.sub_sub_self hi]
  · refine ⟨[], List.nil_prefix, ?_⟩
    rw [Nat.div_eq_of_lt ((value_lt h).trans_le (Nat.pow_le_pow_right (by decide) hi))]
    rfl

section Held

variable (limit : Nat)

/-- One more digit where the number stays within the limit; the number as it is where it would not. -/
def hold (v d : Nat) : Nat := if v * 10 + d ≤ limit then v * 10 + d else v

def held (ds : List Nat) : Nat := ds.foldl (hold limit) 0

/-- The digits put the number past the limit and go on, after digits that do not fit, with one that does:
`w` is the number with that digit. -/
def Resumes (ds : List Nat) (w : Nat) : Prop :=
  ∃ front skipped y rest, ds = front ++ skipped ++ y :: rest ∧ value front = limit / 10 ∧ skipped ≠ [] ∧
    (∀ d ∈ skipped, limit % 10 < d) ∧ y ≤ limit % 10 ∧ w = limit / 10 * 10 + y

variable {limit} {ds : List Nat}

theorem held_append_singleton (ds : List Nat) (d : Nat) : held limit (ds ++ [d]) = hold limit (held limit ds) d := by
  rw [held, List.foldl_append]
  rfl

theorem held_le (ds : List Nat) : held limit ds ≤ limit := by
  induction ds using List.reverseRecOn with
  | nil => exact Nat.zero_le limit
  | append_singleton ds d ih =>
      rw [held_append_singleton, hold]
      split
      · assumption
      · exact ih

theorem held_eq_value (h : value ds ≤ limit) : held limit ds = value ds := by
  induction ds using List.reverseRecOn with
  | nil => rfl
  | append_singleton ds d ih =>
      rw [value_append_singleton] at h
      rw [held_append_singleton, value_append_singleton, ih (by omega), hold, if_pos h]

/-- Past the limit the number stops at the digits before, unless it resumes. -/
theorem held_past (hlimit : 10 ≤ limit) (hds : ∀ d ∈ ds, d < 10) (h : limit < value ds) :
    ∃ front x rest, ds = front ++ x :: rest ∧ value front ≤ limit ∧ limit < value front * 10 + x ∧
      (held limit ds = value front ∧ (∀ d ∈ x :: rest, limit < value front * 10 + d) ∨
        Resumes limit ds (held limit ds) ∧ value front = limit / 10) := by
  induction ds using List.reverseRecOn with
  | nil => simp at h
  | append_singleton ds d ih =>
      have hd : d < 10 := hds d (by simp)
      rw [value_append_singleton] at h
      rw [held_append_singleton]
      by_cases hbefore : value ds ≤ limit
      · refine ⟨ds, d, [], rfl, hbefore, h, .inl ⟨?_, by simpa using h⟩⟩
        rw [held_eq_value hbefore, hold, if_neg (by omega)]
      · obtain ⟨front, x, rest, rfl, hfront, hx, hcases⟩ :=
          ih (fun e he => hds e (List.mem_append_left _ he)) (by omega)
        refine ⟨front, x, rest ++ [d], by simp, hfront, hx, ?_⟩
        obtain ⟨hheld, hall⟩ | ⟨⟨front', skipped, y, rest', hsplit, hvalue, hne, hskip, hy, hw⟩, hq⟩ := hcases
        · rw [hheld, hold]
          by_cases hfits : value front * 10 + d ≤ limit
          · have hx10 : x < 10 := hds x (by simp)
            have hq : value front = limit / 10 := by omega
            rw [if_pos hfits]
            refine .inr ⟨⟨front, x :: rest, d, [], by simp, hq, List.cons_ne_nil x rest, ?_, by omega, by omega⟩, hq⟩
            intro e he
            have := hall e he
            omega
          · rw [if_neg hfits]
            refine .inl ⟨rfl, ?_⟩
            rw [← List.cons_append]
            intro e he
            obtain he | he := List.mem_append.mp he
            · exact hall e he
            · rw [List.mem_singleton.mp he]
              omega
        · rw [hold, if_neg (by omega)]
          exact .inr ⟨⟨front', skipped, y, rest' ++ [d], by rw [hsplit]; simp, hvalue, hne, hskip, hy, hw⟩, hq⟩

theorem held_resumes (hlimit : 10 ≤ limit) {w : Nat} (h : Resumes limit ds w) : held limit ds = w := by
  obtain ⟨front, skipped, y, rest, rfl, hvalue, -, hskip, hy, rfl⟩ := h
  have hfront : held limit front = limit / 10 := by
    rw [held_eq_value (by omega), hvalue]
  have hskipped : held limit (front ++ skipped) = limit / 10 := by
    clear hvalue
    induction skipped using List.reverseRecOn with
    | nil => rwa [List.append_nil]
    | append_singleton skipped d ih =>
        have hd := hskip d (by simp)
        rw [← List.append_assoc, held_append_singleton, ih fun e he => hskip e (List.mem_append_left _ he), hold,
          if_neg (by omega)]
  induction rest using List.reverseRecOn with
  | nil => rw [held_append_singleton, hskipped, hold, if_pos (by omega)]
  | append_singleton rest d ih =>
      rw [← List.cons_append, ← List.append_assoc, held_append_singleton, ih, hold, if_neg (by omega)]

/-- Past the limit the number held lags a digit behind at least. -/
theorem held_lags (hlimit : 10 ≤ limit) (hds : ∀ d ∈ ds, d < 10) (h : limit < value ds) :
    held limit ds ≤ value ds / 10 := by
  obtain ⟨front, x, rest, hsplit, _, _, ⟨hheld, _⟩ | ⟨hres, _⟩⟩ := held_past hlimit hds h
  · have hle : value (front ++ [x]) ≤ value ds := value_le_prefixed ⟨rest, by rw [hsplit]; simp⟩
    rw [value_append_singleton] at hle
    omega
  · obtain ⟨front, skipped, y, rest, hsplit, hvalue, hne, hskip, -, -⟩ := hres
    obtain ⟨d, skipped, rfl⟩ := List.exists_cons_of_ne_nil hne
    have hd := hskip d List.mem_cons_self
    have hpast : value (front ++ [d]) ≤ value (front ++ d :: skipped) :=
      value_le_prefixed ⟨skipped, by simp⟩
    have hle : value (front ++ d :: skipped ++ [y]) ≤ value ds := value_le_prefixed ⟨rest, by rw [hsplit]; simp⟩
    rw [value_append_singleton] at hpast hle
    have := @held_le limit ds
    omega

/-- The number held, divided digit by digit, picks out the same starts of the digits as their values do,
exactly if the number stays within the limit or there is nothing to pick out on either side. -/
theorem held_agrees (hlimit : 10 ≤ limit) (hds : ∀ d ∈ ds, d < 10) {m n : Nat} (hn : n ≤ limit) :
    (∀ j, 1 ≤ j → j ≤ ds.length → (m ≤ held limit ds / 10 ^ (ds.length - j) ∧ held limit ds / 10 ^ (ds.length - j) ≤ n ↔
      m ≤ value (ds.take j) ∧ value (ds.take j) ≤ n)) ↔
      value ds ≤ limit ∨ ∀ x, m ≤ x → x ≤ n → (∀ d, d <+: ds → value d ≠ x) ∧ ¬ Resumes limit ds x := by
  by_cases hvalue : value ds ≤ limit
  · refine iff_of_true (fun j _ hj => ?_) (.inl hvalue)
    rw [held_eq_value hvalue, value_take hds]
  · have hpast : limit < value ds := Nat.lt_of_not_le hvalue
    rw [or_iff_right hvalue]
    constructor
    · intro hagree
      have hlag {j : Nat} (hj : j < ds.length) :
          held limit ds / 10 ^ (ds.length - (j + 1)) ≤ value (ds.take j) := by
        have hexp : ds.length - j = 1 + (ds.length - (j + 1)) := by omega
        rw [value_take hds, hexp, Nat.pow_add, Nat.pow_one, ← Nat.div_div_eq_div_mul]
        exact Nat.div_le_div_right (held_lags hlimit hds hpast)
      have hmono {i j : Nat} (hij : i ≤ j) :
          held limit ds / 10 ^ (ds.length - i) ≤ held limit ds / 10 ^ (ds.length - j) :=
        Nat.div_le_div_left (Nat.pow_le_pow_right (by decide) (by omega)) (Nat.pow_pos (by decide))
      -- a start within the bounds would make every longer one so
      have hnone {j : Nat} (hj : 1 ≤ j) (hjlen : j ≤ ds.length) :
          ¬ (m ≤ value (ds.take j) ∧ value (ds.take j) ≤ n) := by
        intro hin
        have hall (i : Nat) (hi : j + i ≤ ds.length) :
            m ≤ value (ds.take (j + i)) ∧ value (ds.take (j + i)) ≤ n := by
          induction i with
          | zero => exact hin
          | succ i ih =>
              have hbefore := ih (by omega)
              have hkept := (hagree (j + i) (by omega) (by omega)).mpr hbefore
              refine (hagree (j + (i + 1)) (by omega) hi).mp ⟨hkept.1.trans (hmono (Nat.le_succ (j + i))), ?_⟩
              exact (hlag (Nat.lt_of_succ_le hi)).trans hbefore.2
        have hend := (hall (ds.length - j) (by omega)).2
        rw [Nat.add_sub_cancel' hjlen, List.take_length] at hend
        omega
      have hlen : 1 ≤ ds.length := by
        cases ds with
        | nil => simp at hpast
        | cons d ds => exact Nat.succ_pos _
      intro x hm hx
      constructor
      · intro d hd hdx
        have htake := List.prefix_iff_eq_take.mp hd
        obtain hzero | hpos := Nat.eq_zero_or_pos d.length
        · have hx0 : x = 0 := by rw [← hdx, List.length_eq_zero_iff.mp hzero, value_nil]
          have hfirst := hlag (Nat.lt_of_succ_le hlen)
          rw [List.take_zero, value_nil, Nat.zero_add] at hfirst
          exact hnone (Nat.le_refl 1) hlen ((hagree 1 (Nat.le_refl 1) hlen).mp
            ⟨(hx0 ▸ hm).trans (Nat.zero_le _), hfirst.trans (Nat.zero_le n)⟩)
        · rw [htake] at hdx
          exact hnone hpos hd.length_le ⟨by omega, by omega⟩
      · intro hres
        have hheld := held_resumes hlimit hres
        refine hnone hlen (Nat.le_refl _) ((hagree _ hlen (Nat.le_refl _)).mp ?_)
        rw [Nat.sub_self, Nat.pow_zero, Nat.div_one, hheld]
        exact ⟨hm, hx⟩
    · intro hcond j _ _
      refine iff_of_false (fun hkept => ?_) fun hin => (hcond _ hin.1 hin.2).1 _ (List.take_prefix j ds) rfl
      obtain ⟨hstart, hres⟩ := hcond _ hkept.1 hkept.2
      obtain ⟨front, x, rest, hsplit, _, _, hcases⟩ := held_past hlimit hds hpast
      have hfront : front <+: ds := ⟨x :: rest, hsplit.symm⟩
      have hdigits : ∀ d ∈ front, d < 10 := fun d hd => hds d (hfront.subset hd)
      obtain ⟨hheld, _⟩ | ⟨hresumes, hq⟩ := hcases
      · obtain ⟨d, hd, hdvalue⟩ := value_div_prefix hdigits (ds.length - j)
        exact hstart d (hd.trans hfront) (by rw [hdvalue, hheld])
      · cases hexp : ds.length - j with
        | zero =>
            rw [hexp, Nat.pow_zero, Nat.div_one] at hres
            exact hres hresumes
        | succ i =>
            obtain ⟨d, hd, hdvalue⟩ := value_div_prefix hdigits i
            obtain ⟨_, _, y, _, _, _, _, _, hy, hw⟩ := hresumes
            refine hstart d (hd.trans hfront) ?_
            have hten : held limit ds / 10 = value front := by omega
            rw [hdvalue, hexp, Nat.pow_succ', ← Nat.div_div_eq_div_mul, hten]

end Held

end Zshrs.Lib.Decimal
