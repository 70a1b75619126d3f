import Zshrs.Lib.Loops

namespace Zshrs.Fmt

open Lib Lib.Utf8

abbrev Bytes := List UInt8

def byte (c : Char) : UInt8 := UInt8.ofNat c.toNat

theorem backslash_ascii : byte '\\' < 0x80 := by decide

/-- `b as char`. -/
def asChar (b : UInt8) : Char := Char.ofNat b.toNat

def isBlank (b : UInt8) : Bool := decide (b = byte ' ') || decide (b = byte '\t')

/-- Where a run of bytes ends that starts at `i`. -/
def runEnd (p : UInt8 → Bool) (b : Bytes) (i : Nat) : Nat := i + ((b.drop i).takeWhile p).length

/-- How many bytes stand before a closing byte, where a backslash takes the byte behind it along. -/
def escaped (closing : UInt8) : Bytes → Nat
  | [] => 0
  | b :: rest =>
    if b = closing then 0
    else if b = byte '\\' then
      match rest with
      | [] => 2
      | _ :: rest => escaped closing rest + 2
    else escaped closing rest + 1

def escapedEnd (closing : UInt8) (b : Bytes) (i : Nat) : Nat := i + escaped closing (b.drop i)

/-- How many bytes a brace region takes, its last `}` included. -/
def braced : Nat → Bytes → Nat
  | 0, _ => 0
  | _ + 1, [] => 0
  | depth + 1, b :: rest =>
    if b = byte '{' then braced (depth + 2) rest + 1
    else if b = byte '}' then braced depth rest + 1
    else if b = byte '\\' then
      match rest with
      | [] => 2
      | _ :: rest => braced (depth + 1) rest + 2
    else braced (depth + 1) rest + 1

/-- Where a `${` region ends whose inside starts at `i`. -/
def bracedEnd (b : Bytes) (i : Nat) : Nat := i + braced 1 (b.drop i)

theorem le_runEnd (p : UInt8 → Bool) (b : Bytes) (i : Nat) : i ≤ runEnd p b i := Nat.le_add_right i _

theorem le_escapedEnd (closing : UInt8) (b : Bytes) (i : Nat) : i ≤ escapedEnd closing b i := Nat.le_add_right i _

theorem le_bracedEnd (b : Bytes) (i : Nat) : i ≤ bracedEnd b i := Nat.le_add_right i _

theorem runEnd_le_length (p : UInt8 → Bool) {b : Bytes} {i : Nat} (hi : i ≤ b.length) : runEnd p b i ≤ b.length := by
  have hlen := (List.takeWhile_prefix (l := b.drop i) p).length_le
  rw [List.length_drop] at hlen
  rw [runEnd]
  omega

theorem getElem?_length_takeWhile {α : Type} (p : α → Bool) (s : List α) {a : α}
    (h : s[(s.takeWhile p).length]? = some a) : p a = false := by
  induction s with
  | nil => cases h
  | cons b s ih =>
      by_cases hb : p b = true
      · rw [List.takeWhile_cons_of_pos hb, List.length_cons, List.getElem?_cons_succ] at h
        exact ih h
      · rw [List.takeWhile_cons_of_neg hb] at h
        cases h
        exact Bool.not_eq_true _ ▸ hb

/-- A run ends in front of a byte that is not in it. -/
theorem read_runEnd {p : UInt8 → Bool} {b : Bytes} {i : Nat} {c : UInt8} (h : b[runEnd p b i]? = some c) :
    p c = false := by
  rw [runEnd, ← List.getElem?_drop] at h
  exact getElem?_length_takeWhile p (b.drop i) h

theorem lt_runEnd {p : UInt8 → Bool} {b : Bytes} {i : Nat} {c : UInt8} (h : b[i]? = some c) (hc : p c = true) :
    i < runEnd p b i := by
  obtain ⟨hi, rfl⟩ := List.getElem?_eq_some_iff.mp h
  rw [runEnd, List.drop_eq_getElem_cons hi, List.takeWhile_cons_of_pos hc, List.length_cons]
  omega

theorem read_last_takeWhile {α : Type} (p : α → Bool) (s : List α) (h : 0 < (s.takeWhile p).length) :
    ∃ a, s[(s.takeWhile p).length - 1]? = some a ∧ p a = true := by
  induction s with
  | nil => exact absurd h (Nat.lt_irrefl 0)
  | cons b s ih =>
      by_cases hb : p b = true
      · rw [List.takeWhile_cons_of_pos hb, List.length_cons, Nat.add_sub_cancel]
        cases hk : (s.takeWhile p).length with
        | zero => exact ⟨b, rfl, hb⟩
        | succ k =>
            obtain ⟨a, hread, ha⟩ := ih (by omega)
            rw [hk, Nat.add_sub_cancel] at hread
            exact ⟨a, hread, ha⟩
      · rw [List.takeWhile_cons_of_neg hb] at h
        exact absurd h (Nat.lt_irrefl 0)

/-- The last byte of a run is in it. -/
theorem read_before_runEnd {p : UInt8 → Bool} {b : Bytes} {i : Nat} (h : i < runEnd p b i) :
    ∃ c, b[runEnd p b i - 1]? = some c ∧ p c = true := by
  have hpos : 0 < ((b.drop i).takeWhile p).length := by
    rw [runEnd] at h
    omega
  obtain ⟨c, hread, hc⟩ := read_last_takeWhile p (b.drop i) hpos
  have hindex : i + (((b.drop i).takeWhile p).length - 1) = runEnd p b i - 1 := by
    rw [runEnd]
    omega
  rw [List.getElem?_drop, hindex] at hread
  exact ⟨c, hread, hc⟩

/-- A quoted text ends in front of its closing byte, or the text is over. -/
theorem read_escaped (closing : UInt8) (s : Bytes) :
    s[escaped closing s]? = some closing ∨ s.length ≤ escaped closing s := by
  induction hn : s.length using Nat.strongRecOn generalizing s with
  | ind n ih =>
      subst hn
      cases s with
      | nil => exact Or.inr (Nat.le_refl 0)
      | cons b rest =>
          rw [escaped.eq_def]
          dsimp only
          by_cases hb : b = closing
          · rw [if_pos hb]
            exact Or.inl (by rw [hb]; rfl)
          · rw [if_neg hb]
            by_cases hslash : b = byte '\\'
            · rw [if_pos hslash]
              cases rest with
              | nil => exact Or.inr (Nat.le_succ 1)
              | cons c rest =>
                  rcases ih rest.length (Nat.lt_succ_of_lt (Nat.lt_succ_self _)) rest rfl with hread | hover
                  · exact Or.inl hread
                  · exact Or.inr (by simpa using hover)
            · rw [if_neg hslash]
              rcases ih rest.length (by simp) rest rfl with hread | hover
              · exact Or.inl hread
              · exact Or.inr (by simpa using hover)

theorem read_escapedEnd (closing : UInt8) (b : Bytes) (i : Nat) :
    b[escapedEnd closing b i]? = some closing ∨ b.length ≤ escapedEnd closing b i := by
  rcases read_escaped closing (b.drop i) with hread | hover
  · rw [List.getElem?_drop] at hread
    exact Or.inl hread
  · rw [List.length_drop] at hover
    rw [escapedEnd]
    exact Or.inr (by omega)

theorem read_quoteEnd (b : Bytes) (i : Nat) :
    b[runEnd (fun c => decide (c ≠ byte '\'')) b i]? = some (byte '\'') ∨
      b.length ≤ runEnd (fun c => decide (c ≠ byte '\'')) b i := by
  cases hend : b[runEnd (fun c => decide (c ≠ byte '\'')) b i]? with
  | none => exact Or.inr (List.getElem?_eq_none_iff.mp hend)
  | some c =>
      have hc := read_runEnd hend
      rw [decide_eq_false_iff_not, Decidable.not_not] at hc
      exact Or.inl (by rw [hc])

/-- A brace region ends behind a `}`, or the text is over. -/
theorem read_braced (depth : Nat) (s : Bytes) : s.length ≤ braced (depth + 1) s ∨
    0 < braced (depth + 1) s ∧ s[braced (depth + 1) s - 1]? = some (byte '}') := by
  induction hn : s.length using Nat.strongRecOn generalizing s depth with
  | ind n ih =>
      subst hn
      cases s with
      | nil => exact Or.inl (Nat.le_refl 0)
      | cons b rest =>
          have hshift : ∀ k, rest.length ≤ k ∨ 0 < k ∧ rest[k - 1]? = some (byte '}') →
              rest.length + 1 ≤ k + 1 ∨ 0 < k + 1 ∧ (b :: rest)[k + 1 - 1]? = some (byte '}') := by
            rintro k (hover | ⟨hpos, hread⟩)
            · exact Or.inl (by omega)
            · refine Or.inr ⟨Nat.succ_pos k, ?_⟩
              obtain ⟨j, rfl⟩ := Nat.exists_eq_succ_of_ne_zero (Nat.ne_of_gt hpos)
              exact hread
          rw [braced.eq_def]
          dsimp only
          rw [List.length_cons]
          by_cases hopen : b = byte '{'
          · rw [if_pos hopen]
            exact hshift _ (ih rest.length (by simp) (depth + 1) rest rfl)
          · rw [if_neg hopen]
            by_cases hclose : b = byte '}'
            · rw [if_pos hclose]
              cases depth with
              | zero =>
                  have hzero : braced 0 rest = 0 := by rw [braced]
                  rw [hzero]
                  exact Or.inr ⟨Nat.succ_pos 0, by rw [hclose]; rfl⟩
              | succ depth => exact hshift _ (ih rest.length (by simp) depth rest rfl)
            · rw [if_neg hclose]
              by_cases hslash : b = byte '\\'
              · rw [if_pos hslash]
                cases rest with
                | nil => exact Or.inl (Nat.le_succ 1)
                | cons c rest =>
                    rcases ih rest.length (Nat.lt_succ_of_lt (Nat.lt_succ_self _)) depth rest rfl with hover | ⟨hpos, hread⟩
                    · exact Or.inl (by simpa using hover)
                    · refine Or.inr ⟨Nat.succ_pos _, ?_⟩
                      dsimp only
                      obtain ⟨j, hj⟩ := Nat.exists_eq_succ_of_ne_zero (Nat.ne_of_gt hpos)
                      rw [hj] at hread ⊢
                      exact hread
              · rw [if_neg hslash]
                exact hshift _ (ih rest.length (by simp) depth rest rfl)

theorem read_bracedEnd (b : Bytes) (i : Nat) : b.length ≤ bracedEnd b i ∨
    0 < bracedEnd b i ∧ b[bracedEnd b i - 1]? = some (byte '}') := by
  have hread := read_braced 0 (b.drop i)
  rw [Nat.zero_add] at hread
  rcases hread with hover | ⟨hpos, hread⟩
  · rw [List.length_drop] at hover
    rw [bracedEnd]
    exact Or.inl (by omega)
  · rw [List.getElem?_drop] at hread
    have hindex : i + (braced 1 (b.drop i) - 1) = i + braced 1 (b.drop i) - 1 := by omega
    rw [hindex] at hread
    exact Or.inr ⟨by rw [bracedEnd]; omega, hread⟩

section Aligned

variable {body : List Char} {i : Nat}

/-- A run that any byte outside ASCII goes on ends between two chars. -/
theorem aligned_runEnd {p : UInt8 → Bool} (hp : ∀ c, p c = false → c < 0x80) :
    Aligned (encode body) (runEnd p (encode body) i) := by
  intro c hc
  exact isCont_eq_false_of_ascii (hp c (read_runEnd hc))

/-- A run of ASCII bytes keeps the alignment. -/
theorem aligned_runEnd_of_ascii {p : UInt8 → Bool} (hp : ∀ c, p c = true → c < 0x80)
    (hi : Aligned (encode body) i) : Aligned (encode body) (runEnd p (encode body) i) := by
  by_cases hrun : i < runEnd p (encode body) i
  · obtain ⟨c, hread, hc⟩ := read_before_runEnd hrun
    have hbehind := aligned_behind_ascii hread (hp c hc)
    have hindex : runEnd p (encode body) i - 1 + 1 = runEnd p (encode body) i := by omega
    rwa [hindex] at hbehind
  · have hstay : runEnd p (encode body) i = i := Nat.le_antisymm (Nat.not_lt.mp hrun) (le_runEnd p _ i)
    rwa [hstay]

/-- What stands behind a closing byte, or the end of the text. -/
theorem aligned_closed {j : Nat} {closing : UInt8} (hclosing : closing < 0x80)
    (h : (encode body)[j]? = some closing ∨ (encode body).length ≤ j) :
    Aligned (encode body) (min (j + 1) (encode body).length) ∧ Aligned (encode body) (j + 1) := by
  rcases h with hread | hover
  · have hlt := (List.getElem?_eq_some_iff.mp hread).1
    rw [Nat.min_eq_left hlt]
    exact ⟨aligned_behind_ascii hread hclosing, aligned_behind_ascii hread hclosing⟩
  · exact ⟨aligned_of_length_le (by omega), aligned_of_length_le (by omega)⟩

theorem aligned_bracedEnd : Aligned (encode body) (bracedEnd (encode body) i) := by
  rcases read_bracedEnd (encode body) i with hover | ⟨hpos, hread⟩
  · exact aligned_of_length_le hover
  · have hbehind := aligned_behind_ascii hread (by decide)
    rwa [Nat.sub_add_cancel hpos] at hbehind

end Aligned

end Zshrs.Fmt
