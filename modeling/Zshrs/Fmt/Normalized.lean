import Zshrs.Fmt.NormalizeSpacing

namespace Zshrs.Fmt

open Lib Lib.Utf8

section Bytes

theorem isBlank_ascii (c : UInt8) (h : isBlank c = true) : c < 0x80 := by
  simp only [isBlank, Bool.or_eq_true, decide_eq_true_eq] at h
  rcases h with rfl | rfl <;> decide

theorem isRedirect_ascii (c : UInt8) (h : isRedirect c = true) : c < 0x80 := by
  simp only [isRedirect, decide_eq_true_eq, List.mem_cons, List.not_mem_nil, or_false] at h
  rcases h with rfl | rfl | rfl | rfl | rfl <;> decide

theorem isDigit_ascii (c : UInt8) (h : isDigit c = true) : c < 0x80 := by
  simp only [isDigit, Bool.and_eq_true, decide_eq_true_eq] at h
  exact UInt8.lt_of_le_of_lt h.2 (by decide)

theorem isSpecial_ascii (c : UInt8) (h : isSpecial c = true) : c < 0x80 := by
  have hall : ∀ c ∈ special, c < 0x80 := ascii_of_mem (by decide)
  exact hall c (of_decide_eq_true h)

end Bytes

section Arms

variable {body : List Char} {s : Norm}

/-- A state further on, at the end of a char. -/
def Advances (body : List Char) (s t : Norm) : Prop := s.i < t.i ∧ Aligned (encode body) t.i

theorem aligned_two {i : Nat} {c : UInt8} (hnext : (encode body)[i + 1]? = some c) (hc : c < 0x80) :
    Aligned (encode body) (i + 2) := aligned_behind_ascii hnext hc

theorem spaced_advances {j : Nat} {out : List Char} (hj : s.i < j) (haligned : Aligned (encode body) j) :
    Advances body s (s.spaced (encode body) j out) :=
  ⟨Nat.lt_of_lt_of_le hj (le_runEnd _ _ j), aligned_runEnd_of_ascii isBlank_ascii haligned⟩

theorem openParen_advances (uni : Unicode) (hone : Aligned (encode body) (s.i + 1)) :
    Advances body s (s.openParen uni (encode body)) := by
  have hle := le_runEnd isBlank (encode body) (s.i + 1)
  rw [Norm.openParen]
  split
  · rename_i hpair
    exact ⟨by dsimp only; omega, aligned_behind_ascii hpair.1 (by decide)⟩
  · exact ⟨Nat.lt_succ_self _, hone⟩

theorem ampersand_advances (hone : Aligned (encode body) (s.i + 1)) :
    Advances body s (s.ampersand (encode body)) := by
  have htwo : s.i < s.i + 2 := by omega
  rw [Norm.ampersand]
  split
  · rename_i hnext
    have haligned := aligned_two hnext (by decide)
    split
    · exact spaced_advances htwo haligned
    · exact ⟨htwo, haligned⟩
  · split
    · rename_i hnext
      exact ⟨htwo, aligned_two hnext (by decide)⟩
    · split
      · rename_i hnext
        exact ⟨htwo, aligned_two hnext (by decide)⟩
      · split
        · rename_i hnext
          exact ⟨htwo, aligned_two hnext (by decide)⟩
        · exact ⟨Nat.lt_succ_self _, hone⟩

theorem pipe_advances (hone : Aligned (encode body) (s.i + 1)) : Advances body s (s.pipe (encode body)) := by
  have htwo : s.i < s.i + 2 := by omega
  rw [Norm.pipe]
  split
  · split
    · rename_i hnext
      exact spaced_advances htwo (aligned_two hnext (by decide))
    · split
      · rename_i hnext
        exact spaced_advances htwo (aligned_two hnext (by decide))
      · exact spaced_advances (Nat.lt_succ_self _) hone
  · exact ⟨Nat.lt_succ_self _, hone⟩

theorem semicolon_advances (hone : Aligned (encode body) (s.i + 1)) :
    Advances body s (s.semicolon (encode body)) := by
  rw [Norm.semicolon]
  split
  · rename_i nx hnext
    obtain ⟨hread, hnx⟩ := Option.filter_eq_some_iff.mp hnext
    have hall : ∀ c ∈ [byte ';', byte '&', byte '|'], c < 0x80 := ascii_of_mem (by decide)
    exact @spaced_advances body s (s.i + 2) s.out (by omega) (aligned_two hread (hall nx (of_decide_eq_true hnx)))
  · split
    · exact spaced_advances (Nat.lt_succ_self _) hone
    · exact ⟨Nat.lt_succ_self _, hone⟩

/-- A redirection cluster ends in the text, and between two chars. -/
theorem redirectEnd_spec {i : Nat} (hi : i < (encode body).length) (hone : Aligned (encode body) (i + 1)) :
    i < redirectEnd (encode body) i ∧ redirectEnd (encode body) i ≤ (encode body).length ∧
      Aligned (encode body) (redirectEnd (encode body) i) := by
  have hcluster := le_runEnd isRedirect (encode body) (i + 1)
  have hclusterEnd := runEnd_le_length isRedirect (Nat.succ_le_of_lt hi)
  have hclusterAligned := aligned_runEnd_of_ascii isRedirect_ascii hone
  rw [redirectEnd]
  dsimp only
  split
  · have hdigits := le_runEnd isDigit (encode body) (runEnd isRedirect (encode body) (i + 1))
    have hdigitsEnd := runEnd_le_length isDigit hclusterEnd
    have hdigitsAligned := aligned_runEnd_of_ascii isDigit_ascii hclusterAligned
    split
    · rename_i hdash
      exact ⟨by omega, (List.getElem?_eq_some_iff.mp hdash).1, aligned_behind_ascii hdash (by decide)⟩
    · exact ⟨by omega, hdigitsEnd, hdigitsAligned⟩
  · exact ⟨by omega, hclusterEnd, hclusterAligned⟩

theorem protect_ne_none_iff {stop : Nat} (hstop : s.i ≤ stop) : s.protect body stop ≠ none ↔
    stop ≤ (encode body).length ∧ Aligned (encode body) s.i ∧ Aligned (encode body) stop := by
  rw [Norm.protect, ne_eq, Option.map_eq_none_iff, ← ne_eq, slice_ne_none_iff]
  exact and_iff_right hstop

theorem protect_advances {stop : Nat} {t : Norm} (hstop : s.i < stop) (h : s.protect body stop = some t) :
    Advances body s t := by
  have hne : s.protect body stop ≠ none := by simp [h]
  obtain ⟨-, -, haligned⟩ := (protect_ne_none_iff (Nat.le_of_lt hstop)).mp hne
  obtain ⟨text, -, rfl⟩ := Option.map_eq_some_iff.mp h
  exact ⟨hstop, haligned⟩

/-- A `${` region that the text ends in, escaping what is not there. -/
def RunsOver (b : Bytes) (i : Nat) : Prop :=
  b[i]? = some (byte '$') ∧ b[i + 1]? = some (byte '{') ∧ b.length < bracedEnd b (i + 2)

theorem dollar_ne_none_iff (hread : (encode body)[s.i]? = some (byte '$')) :
    s.dollar body (encode body) ≠ none ↔ ¬ RunsOver (encode body) s.i := by
  have hi := (List.getElem?_eq_some_iff.mp hread).1
  have haligned := aligned_of_ascii hread (by decide)
  rw [Norm.dollar]
  by_cases hquote : (encode body)[s.i + 1]? = some (byte '\'')
  · have hno : ¬ RunsOver (encode body) s.i := by
      rintro ⟨-, hbrace, -⟩
      cases hquote.symm.trans hbrace
    have hle := le_escapedEnd (byte '\'') (encode body) (s.i + 2)
    rw [if_pos hquote, protect_ne_none_iff (by omega)]
    exact iff_of_true ⟨Nat.min_le_right _ _, haligned,
      (aligned_closed (by decide) (read_escapedEnd (byte '\'') (encode body) (s.i + 2))).1⟩ hno
  · rw [if_neg hquote]
    by_cases hbrace : (encode body)[s.i + 1]? = some (byte '{')
    · have hle := le_bracedEnd (encode body) (s.i + 2)
      rw [if_pos hbrace, protect_ne_none_iff (by omega)]
      simp only [RunsOver, hread, hbrace, true_and, haligned, aligned_bracedEnd, and_true, not_lt]
    · rw [if_neg hbrace]
      exact iff_of_true (Option.some_ne_none _) fun h => hbrace h.2.1

theorem dollar_advances {t : Norm} (hread : (encode body)[s.i]? = some (byte '$'))
    (h : s.dollar body (encode body) = some t) : Advances body s t := by
  have hi := (List.getElem?_eq_some_iff.mp hread).1
  rw [Norm.dollar] at h
  split at h
  · have hle := le_escapedEnd (byte '\'') (encode body) (s.i + 2)
    exact protect_advances (by omega) h
  · split at h
    · have hle := le_bracedEnd (encode body) (s.i + 2)
      exact protect_advances (by omega) h
    · cases h
      exact ⟨Nat.lt_succ_self _, aligned_behind_ascii hread (by decide)⟩

variable {c : UInt8}

theorem lt_wordEnd (hread : (encode body)[s.i]? = some c) (hc : isSpecial c = false) :
    s.i < runEnd (fun c => !isSpecial c) (encode body) s.i := lt_runEnd hread (by simp [hc])

theorem aligned_wordEnd (i : Nat) : Aligned (encode body) (runEnd (fun c => !isSpecial c) (encode body) i) := by
  apply aligned_runEnd
  intro c hc
  exact isSpecial_ascii c (by simpa using hc)

theorem word_ne_none_iff (hread : (encode body)[s.i]? = some c) (hc : isSpecial c = false) :
    s.word body (encode body) c ≠ none ↔ Aligned (encode body) s.i := by
  have hlt := lt_wordEnd hread hc
  have hend := runEnd_le_length (fun c => !isSpecial c) (Nat.le_of_lt (List.getElem?_eq_some_iff.mp hread).1)
  rw [Norm.word]
  dsimp only
  rw [if_neg (Nat.ne_of_gt hlt), ne_eq, Option.map_eq_none_iff, ← ne_eq, slice_ne_none_iff]
  simp [Nat.le_of_lt hlt, hend, aligned_wordEnd]

theorem word_advances {t : Norm} (hread : (encode body)[s.i]? = some c) (hc : isSpecial c = false)
    (h : s.word body (encode body) c = some t) : Advances body s t := by
  have hlt := lt_wordEnd hread hc
  rw [Norm.word] at h
  dsimp only at h
  rw [if_neg (Nat.ne_of_gt hlt)] at h
  obtain ⟨word, -, rfl⟩ := Option.map_eq_some_iff.mp h
  have hadvances : ∀ t : Norm, t.i = runEnd (fun c => !isSpecial c) (encode body) s.i → Advances body s t := by
    intro t ht
    rw [Advances, ht]
    exact ⟨hlt, aligned_wordEnd s.i⟩
  apply hadvances
  split
  · rfl
  · split <;> rfl

theorem isSpecial_of_arms {c : UInt8} (hblank : ¬ isBlank c = true)
    (h : ∀ d ∈ special, d ≠ byte ' ' → d ≠ byte '\t' → c ≠ d) : isSpecial c = false := by
  rw [isSpecial, decide_eq_false_iff_not]
  intro hmem
  rw [isBlank, Bool.or_eq_true, decide_eq_true_eq, decide_eq_true_eq, not_or] at hblank
  exact h c hmem hblank.1 hblank.2 rfl

/-- What a round makes of a byte: it always gets on, but for a char that is cut, and for a `${` that runs over. -/
theorem step_spec (uni : Unicode) (hread : (encode body)[s.i]? = some c) :
    (s.step body uni ≠ none ↔ Aligned (encode body) s.i ∧ ¬ RunsOver (encode body) s.i) ∧
      ∀ t, s.step body uni = some t → if c = byte '\\' then t.i = s.i + 2 else Advances body s t := by
  have hi := (List.getElem?_eq_some_iff.mp hread).1
  have hother : c ≠ byte '$' → ¬ RunsOver (encode body) s.i := by
    intro hne hover
    exact hne (Option.some.inj (hread.symm.trans hover.1))
  have hmoves : ∀ t : Norm, c < 0x80 → c ≠ byte '$' → c ≠ byte '\\' → Advances body s t →
      (some t ≠ none ↔ Aligned (encode body) s.i ∧ ¬ RunsOver (encode body) s.i) ∧
        ∀ t', some t = some t' → if c = byte '\\' then t'.i = s.i + 2 else Advances body s t' := by
    intro t hascii hdollar hslash ht
    refine ⟨iff_of_true (Option.some_ne_none t) ⟨aligned_of_ascii hread hascii, hother hdollar⟩, ?_⟩
    intro t' ht'
    cases ht'
    rw [if_neg hslash]
    exact ht
  have hcopies : ∀ stop, c < 0x80 → c ≠ byte '$' → c ≠ byte '\\' → s.i < stop → stop ≤ (encode body).length →
      Aligned (encode body) stop →
      (s.protect body stop ≠ none ↔ Aligned (encode body) s.i ∧ ¬ RunsOver (encode body) s.i) ∧
        ∀ t, s.protect body stop = some t → if c = byte '\\' then t.i = s.i + 2 else Advances body s t := by
    intro stop hascii hdollar hslash hlt hle haligned
    rw [protect_ne_none_iff (Nat.le_of_lt hlt)]
    refine ⟨iff_of_true ⟨hle, aligned_of_ascii hread hascii, haligned⟩
      ⟨aligned_of_ascii hread hascii, hother hdollar⟩, ?_⟩
    intro t ht
    rw [if_neg hslash]
    exact protect_advances hlt ht
  have hone : c < 0x80 → Aligned (encode body) (s.i + 1) := aligned_behind_ascii hread
  rw [Norm.step]
  simp only [hread]
  by_cases hblank : isBlank c = true
  · rw [if_pos hblank]
    have hascii := isBlank_ascii c hblank
    have hdollar : c ≠ byte '$' := by rintro rfl; cases hblank
    have hslash : c ≠ byte '\\' := by rintro rfl; cases hblank
    exact hmoves _ hascii hdollar hslash
      ⟨lt_runEnd hread hblank, aligned_runEnd_of_ascii isBlank_ascii (aligned_of_ascii hread hascii)⟩
  rw [if_neg hblank]
  by_cases hslash : c = byte '\\'
  · subst hslash
    rw [if_pos rfl]
    refine ⟨iff_of_true (Option.some_ne_none _) ⟨aligned_of_ascii hread (by decide), hother (by decide)⟩, ?_⟩
    rintro t ht
    cases ht
    rw [if_pos rfl]
    rfl
  rw [if_neg hslash]
  by_cases hquote : c = byte '\''
  · subst hquote
    have hle := le_runEnd (fun c => decide (c ≠ byte '\'')) (encode body) (s.i + 1)
    rw [if_pos rfl]
    apply hcopies _ (by decide) (by decide) (by decide) (by omega) (Nat.min_le_right _ _)
    exact (aligned_closed (by decide) (read_quoteEnd _ _)).1
  rw [if_neg hquote]
  by_cases hdouble : c = byte '\x22'
  · subst hdouble
    have hle := le_escapedEnd (byte '\x22') (encode body) (s.i + 1)
    rw [if_pos rfl]
    exact hcopies _ (by decide) (by decide) (by decide) (by omega) (Nat.min_le_right _ _)
      (aligned_closed (by decide) (read_escapedEnd _ _ _)).1
  rw [if_neg hdouble]
  by_cases htick : c = byte '\x60'
  · subst htick
    have hle := le_escapedEnd (byte '\x60') (encode body) (s.i + 1)
    rw [if_pos rfl]
    exact hcopies _ (by decide) (by decide) (by decide) (by omega) (Nat.min_le_right _ _)
      (aligned_closed (by decide) (read_escapedEnd _ _ _)).1
  rw [if_neg htick]
  by_cases hhash : c = byte '#'
  · subst hhash
    rw [if_pos rfl, Norm.comment]
    have haligned := aligned_of_ascii hread (by decide)
    have hend : Aligned (encode body) (encode body).length := aligned_of_length_le (Nat.le_refl _)
    refine ⟨?_, ?_⟩
    · rw [ne_eq, Option.map_eq_none_iff, ← ne_eq, slice_ne_none_iff]
      exact iff_of_true ⟨Nat.le_of_lt hi, Nat.le_refl _, haligned, hend⟩ ⟨haligned, hother (by decide)⟩
    · intro t ht
      obtain ⟨text, -, rfl⟩ := Option.map_eq_some_iff.mp ht
      rw [if_neg (by decide)]
      exact ⟨hi, hend⟩
  rw [if_neg hhash]
  by_cases hdollar : c = byte '$'
  · subst hdollar
    rw [if_pos rfl, dollar_ne_none_iff hread]
    refine ⟨(and_iff_right (aligned_of_ascii hread (by decide))).symm, ?_⟩
    intro t ht
    rw [if_neg hslash]
    exact dollar_advances hread ht
  rw [if_neg hdollar]
  by_cases hopen : c = byte '('
  · subst hopen
    rw [if_pos rfl]
    exact hmoves _ (by decide) hdollar hslash (openParen_advances uni (hone (by decide)))
  rw [if_neg hopen]
  by_cases hclose : c = byte ')'
  · subst hclose
    rw [if_pos rfl]
    exact hmoves _ (by decide) hdollar hslash ⟨Nat.lt_succ_self _, hone (by decide)⟩
  rw [if_neg hclose]
  by_cases hamp : c = byte '&'
  · subst hamp
    rw [if_pos rfl]
    exact hmoves _ (by decide) hdollar hslash (ampersand_advances (hone (by decide)))
  rw [if_neg hamp]
  by_cases hpipe : c = byte '|'
  · subst hpipe
    rw [if_pos rfl]
    exact hmoves _ (by decide) hdollar hslash (pipe_advances (hone (by decide)))
  rw [if_neg hpipe]
  by_cases hsemi : c = byte ';'
  · subst hsemi
    rw [if_pos rfl]
    exact hmoves _ (by decide) hdollar hslash (semicolon_advances (hone (by decide)))
  rw [if_neg hsemi]
  by_cases hangle : c = byte '<' ∨ c = byte '>'
  · have hascii : c < 0x80 := by rcases hangle with rfl | rfl <;> decide
    obtain ⟨hlt, hle, haligned⟩ := redirectEnd_spec hi (hone hascii)
    rw [if_pos hangle]
    exact hcopies _ hascii hdollar hslash hlt hle haligned
  rw [if_neg hangle]
  rw [not_or] at hangle
  have hspecial : isSpecial c = false := by
    apply isSpecial_of_arms hblank
    simp only [special, List.forall_mem_cons]
    exact ⟨fun h => absurd rfl h, fun _ h => absurd rfl h, fun _ _ => hslash, fun _ _ => hquote, fun _ _ => hdouble,
      fun _ _ => htick, fun _ _ => hhash, fun _ _ => hdollar, fun _ _ => hopen, fun _ _ => hclose, fun _ _ => hamp,
      fun _ _ => hpipe, fun _ _ => hsemi, fun _ _ => hangle.1, fun _ _ => hangle.2, by simp⟩
  rw [word_ne_none_iff hread hspecial]
  refine ⟨(and_iff_left (hother hdollar)).symm, ?_⟩
  intro t ht
  rw [if_neg hslash]
  exact word_advances hread hspecial ht

end Arms

variable (uni : Unicode) (body : List Char)

/-- The loop of `normalize_spacing`. -/
def normalizing : Scanner body Norm where
  guard s := s.i < (encode body).length
  step s := s.step body uni
  measure s := (encode body).length - s.i
  decreases s t hg hs := by
    have hg : s.i < (encode body).length := of_decide_eq_true hg
    have hread := List.getElem?_eq_getElem hg
    have hstep := (step_spec uni hread).2 t hs
    split at hstep
    · omega
    · have hlt := hstep.1
      omega
  index := Norm.i
  escape := byte '\\'
  Over s := RunsOver (encode body) s.i
  escape_ascii := backslash_ascii
  guard_iff s := decide_eq_true_iff
  step_ne_none_iff s hs := (step_spec uni (List.getElem?_eq_getElem hs)).1
  index_escape s t hs hread := by
    have hstep := (step_spec uni hread).2 t hs
    rwa [if_pos rfl] at hstep
  aligned_step s t hs hread := by
    cases hc : (encode body)[s.i]? with
    | none =>
        rw [Norm.step] at hs
        simp [hc] at hs
    | some c =>
        have hne : c ≠ byte '\\' := fun h => hread (h ▸ hc)
        have hstep := (step_spec uni hc).2 t hs
        rw [if_neg hne] at hstep
        exact hstep.2

def startNorm (ctx : NormCtx) : Norm := ⟨0, [], ctx.paren_depth, ctx.in_case_pattern, false⟩

/-- Normalize inner spacing on one line. -/
def normalize_spacing (ctx : NormCtx) : Option (List Char) :=
  ((normalizing uni body).run (startNorm ctx)).map Norm.out

/-- The normalizer returns if and only if it is stuck nowhere on the line. -/
theorem normalize_spacing_ne_none_iff (ctx : NormCtx) : normalize_spacing uni body ctx ≠ none ↔
    ∀ s, (normalizing uni body).Reaches (startNorm ctx) s → ¬ (normalizing uni body).Stuck s := by
  rw [normalize_spacing, ne_eq, Option.map_eq_none_iff, ← ne_eq]
  exact Scanner.run_ne_none_iff (aligned_encode_zero body)

end Zshrs.Fmt
