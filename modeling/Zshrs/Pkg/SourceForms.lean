import Zshrs.Pkg.Commands

namespace Zshrs.Pkg

section Last

variable {c : Char} {s a b : Text}

theorem findIdx?_reverse (h : c ∉ s) : s.reverse.findIdx? (· = c) = none := by
  apply List.findIdx?_eq_none_iff.mpr
  intro x hx
  apply decide_eq_false
  rintro rfl
  exact h (List.mem_reverse.mp hx)

theorem rfind_none (h : c ∉ s) : rfind c s = none := by
  rw [rfind, findIdx?_reverse h]
  rfl

theorem rfind_append (h : c ∉ b) : rfind c (a ++ c :: b) = some a.length := by
  have hrev : (a ++ c :: b).reverse = b.reverse ++ c :: a.reverse := by simp
  rw [rfind, hrev, List.findIdx?_append, findIdx?_reverse h]
  simp only [List.findIdx?_cons, decide_true, if_true, Option.map_some, Option.none_or, List.length_reverse,
    List.length_append, List.length_cons]
  congr 1
  omega

/-- The last place of a character. -/
theorem exists_last (h : c ∈ s) : ∃ a b, s = a ++ c :: b ∧ c ∉ b := by
  obtain ⟨u, v, huv, hu⟩ := List.eq_append_cons_of_mem (List.mem_reverse.mpr h)
  refine ⟨v.reverse, u.reverse, ?_, fun hc => hu (List.mem_reverse.mp hc)⟩
  rw [← List.reverse_reverse s, huv]
  simp

end Last

/-- A text with an `@` behind which something stands, but no slash and no other `@`. -/
def TakesRef (s : Text) : Prop := ∃ a b, s = a ++ '@' :: b ∧ b ≠ [] ∧ '/' ∉ b ∧ '@' ∉ b

section Splitting

variable {s a b pre : Text}

theorem rfind_slash_lt (hslash : '/' ∉ b) : (match rfind '/' (a ++ '@' :: b) with
    | some s => decide (s < a.length)
    | none => true) = true := by
  by_cases h : '/' ∈ a
  · obtain ⟨u, v, rfl, hv⟩ := exists_last h
    have hrest : '/' ∉ v ++ '@' :: b := by simp [hv, hslash]
    rw [List.append_assoc, List.cons_append, rfind_append hrest]
    simp
  · rw [rfind_none (by simp [h, hslash])]

theorem split_ref_append (hb : b ≠ []) (hslash : '/' ∉ b) (hat : '@' ∉ b) :
    split_ref (a ++ '@' :: b) = (a, some b) := by
  have hlen : a.length + 1 < (a ++ '@' :: b).length := by
    have := List.length_pos_iff.mpr hb
    simp
    omega
  rw [split_ref, rfind_append hat]
  dsimp only
  rw [if_pos ⟨rfind_slash_lt hslash, hlen⟩]
  simp

theorem split_ref_none (h : ¬ TakesRef s) : split_ref s = (s, none) := by
  by_cases hat : '@' ∈ s
  · obtain ⟨a, b, rfl, hb⟩ := exists_last hat
    rw [split_ref, rfind_append hb]
    dsimp only
    apply if_neg
    rintro ⟨hafter, hlen⟩
    apply h
    refine ⟨a, b, rfl, ?_, ?_, hb⟩
    · rintro rfl
      simp at hlen
    · intro hslash
      obtain ⟨u, v, rfl, hv⟩ := exists_last hslash
      have happend : a ++ '@' :: (u ++ '/' :: v) = (a ++ '@' :: u) ++ '/' :: v := by simp
      rw [happend, rfind_append hv] at hafter
      have hlt : (a ++ '@' :: u).length < a.length := of_decide_eq_true hafter
      rw [List.length_append] at hlt
      omega
  · rw [split_ref, rfind_none hat]

theorem TakesRef.append (pre : Text) (h : TakesRef s) : TakesRef (pre ++ s) := by
  obtain ⟨a, b, rfl, hb⟩ := h
  exact ⟨pre ++ a, b, by simp, hb⟩

theorem TakesRef.of_append (hpre : '@' ∉ pre) (h : TakesRef (pre ++ s)) : TakesRef s := by
  obtain ⟨a, b, heq, hb⟩ := h
  rcases List.append_eq_append_iff.mp heq with ⟨u, rfl, hs⟩ | ⟨u, rfl, hs⟩
  · exact ⟨u, b, hs, hb⟩
  · cases u with
    | nil => exact ⟨[], b, hs.symm, hb⟩
    | cons c u =>
        cases (List.cons.inj hs).1
        exact absurd (by simp) hpre

theorem TakesRef.extend {tail : Text} (hslash : '/' ∉ tail) (hat : '@' ∉ tail) (h : TakesRef s) :
    TakesRef (s ++ tail) := by
  obtain ⟨a, b, rfl, hb, hs, ha⟩ := h
  exact ⟨a, b ++ tail, by simp, by simp [hb], by simp [hs, hslash], by simp [ha, hat]⟩

/-- What is split off has no slash and no `@`; where nothing is split off, nothing could be. -/
theorem split_ref_cases (s : Text) :
    (∃ a b, s = a ++ '@' :: b ∧ b ≠ [] ∧ '/' ∉ b ∧ '@' ∉ b ∧ split_ref s = (a, some b)) ∨
      (¬ TakesRef s ∧ split_ref s = (s, none)) := by
  by_cases h : TakesRef s
  · obtain ⟨a, b, rfl, hb, hslash, hat⟩ := h
    exact Or.inl ⟨a, b, rfl, hb, hslash, hat, split_ref_append hb hslash hat⟩
  · exact Or.inr ⟨h, split_ref_none h⟩

/-- A label without a ref of its own is split where its ref was put. -/
theorem split_label {label base spec : Text} {git_ref : Option Text} (hspec : split_ref spec = (base, git_ref))
    (hlabel : ¬ TakesRef base → ¬ TakesRef label) :
    split_ref (label_with_ref label git_ref) = (label, git_ref) := by
  rcases split_ref_cases spec with ⟨a, b, -, hb, hslash, hat, heq⟩ | ⟨hno, heq⟩
  · cases hspec.symm.trans heq
    exact split_ref_append hb hslash hat
  · cases hspec.symm.trans heq
    exact split_ref_none (hlabel hno)

end Splitting

section Trimming

variable {pre s : Text}

theorem stripFront_eq (pre : Text) (n : Nat) (s : Text) :
    ∃ k, s = (List.replicate k pre).flatten ++ stripFront pre n s := by
  induction n generalizing s with
  | zero => exact ⟨0, rfl⟩
  | succ n ih =>
      rw [stripFront]
      split
      · rename_i h
        obtain ⟨rest, rfl⟩ := h
        rw [List.drop_left]
        obtain ⟨k, hk⟩ := ih rest
        refine ⟨k + 1, ?_⟩
        rw [List.replicate_succ, List.flatten_cons, List.append_assoc, ← hk]
      · exact ⟨0, rfl⟩

theorem stripFront_done (hpre : pre ≠ []) {n : Nat} (hn : s.length ≤ n) : ¬ pre <+: stripFront pre n s := by
  induction n generalizing s with
  | zero =>
      cases List.length_eq_zero_iff.mp (Nat.le_zero.mp hn)
      intro h
      exact hpre (List.prefix_nil.mp h)
  | succ n ih =>
      rw [stripFront]
      split
      · apply ih
        have := List.length_pos_iff.mpr hpre
        rw [List.length_drop]
        omega
      · assumption

theorem stripFront_of_not (h : ¬ pre <+: s) (n : Nat) : stripFront pre n s = s := by
  cases n with
  | zero => rfl
  | succ n => rw [stripFront, if_neg h]

theorem trim_end_idem (s : Text) : trim_end dotGit (trim_end dotGit s) = trim_end dotGit s := by
  have hdone : ¬ dotGit.reverse <+: stripFront dotGit.reverse s.length s.reverse := by
    apply stripFront_done (by decide)
    rw [List.length_reverse]
  rw [trim_end, trim_end, List.reverse_reverse, stripFront_of_not hdone]

/-- Only copies of `.git` are trimmed. -/
theorem trim_end_eq (s : Text) : ∃ tail, s = trim_end dotGit s ++ tail ∧ '/' ∉ tail ∧ '@' ∉ tail := by
  obtain ⟨k, hk⟩ := stripFront_eq dotGit.reverse s.length s.reverse
  have hchars : ∀ c ∈ (List.replicate k dotGit.reverse).flatten, c ∈ dotGit.reverse := by
    intro c hc
    obtain ⟨l, hl, hc⟩ := List.mem_flatten.mp hc
    rw [List.eq_of_mem_replicate hl] at hc
    exact hc
  refine ⟨(List.replicate k dotGit.reverse).flatten.reverse, ?_, ?_, ?_⟩
  · rw [trim_end, ← List.reverse_append, ← hk, List.reverse_reverse]
  · intro h
    exact absurd (hchars _ (List.mem_reverse.mp h)) (by decide)
  · intro h
    exact absurd (hchars _ (List.mem_reverse.mp h)) (by decide)

theorem TakesRef.of_trim_end (h : TakesRef (trim_end dotGit s)) : TakesRef s := by
  obtain ⟨tail, heq, hslash, hat⟩ := trim_end_eq s
  rw [heq]
  exact h.extend hslash hat

end Trimming

end Zshrs.Pkg
