import Zshrs.Fmt.ScanLine

namespace Zshrs.Fmt

open Lib Lib.Utf8

section Ends

theorem isTagEnd_ascii (c : UInt8) (h : isTagEnd c = true) : c < 0x80 := by
  rw [isTagEnd, Bool.or_eq_true] at h
  have hall : ∀ c ∈ [byte ';', byte '&', byte '|', byte '<', byte '>', byte '(', byte ')'], c < 0x80 := ascii_of_mem (by decide)
  exact h.elim (isBlank_ascii c) fun h => hall c (of_decide_eq_true h)

theorem isBreak_ascii (c : UInt8) (h : isBreak c = true) : c < 0x80 := by
  rw [isBreak, Bool.or_eq_true] at h
  have hall : ∀ c ∈ [byte ';', byte '(', byte ')', byte '<', byte '>', byte '\'', byte '\x22', byte '\x60', byte '\\'],
    c < 0x80 := ascii_of_mem (by decide)
  exact h.elim (isBlank_ascii c) fun h => hall c (of_decide_eq_true h)

/-- A text read up to `k` ends there, or goes on with an ASCII byte. -/
def EndsAt (s : Bytes) (k : Nat) : Prop := s.length ≤ k ∨ ∃ c, s[k]? = some c ∧ c < 0x80

theorem EndsAt.cons {s : Bytes} {k : Nat} (h : EndsAt s k) (c : UInt8) : EndsAt (c :: s) (k + 1) :=
  h.imp Nat.succ_le_succ id

theorem endsAt_heredocTag (q : Option UInt8) (s : Bytes) : EndsAt s (heredocTag q s).1 := by
  fun_induction heredocTag q s with
  | case1 q => exact Or.inl (Nat.le_refl 0)
  | case2 q rest ih => exact ih.cons q
  | case3 q ch rest hne ih => exact ih.cons ch
  | case4 ch rest hquote ih => exact ih.cons ch
  | case5 hquote => exact Or.inl (Nat.le_refl 1)
  | case6 hquote d rest ih => exact (ih.cons _).cons _
  | case7 ch rest hquote hslash hend => exact Or.inr ⟨ch, rfl, isTagEnd_ascii ch hend⟩
  | case8 ch rest hquote hslash hend ih => exact ih.cons ch

theorem aligned_heredocTag {body : List Char} {j : Nat} :
    Aligned (encode body) (j + (heredocTag none ((encode body).drop j)).1) := by
  rcases endsAt_heredocTag none ((encode body).drop j) with hover | ⟨c, hread, hc⟩
  · apply aligned_of_length_le
    rw [List.length_drop] at hover
    omega
  · rw [List.getElem?_drop] at hread
    exact aligned_of_ascii hread hc

end Ends

section Arms

variable {body : List Char} {s : Scan}

/-- A state further on, at the end of a char. -/
def Moves (body : List Char) (s t : Scan) : Prop := s.i < t.i ∧ Aligned (encode body) t.i

theorem past_moves {s' : Scan} {j : Nat} (hj : s.i < j) (haligned : Aligned (encode body) j) :
    Moves body s (s'.past j) := ⟨hj, haligned⟩

theorem dollar_moves (hone : Aligned (encode body) (s.i + 1)) : Moves body s (s.dollar (encode body)) := by
  rw [Scan.dollar]
  split
  · have hle := le_escapedEnd (byte '\'') (encode body) (s.i + 2)
    exact past_moves (by omega) (aligned_closed (by decide) (read_escapedEnd _ _ _)).2
  · split
    · have hle := le_bracedEnd (encode body) (s.i + 2)
      exact past_moves (by omega) aligned_bracedEnd
    · exact past_moves (Nat.lt_succ_self _) hone

theorem semicolon_moves (hone : Aligned (encode body) (s.i + 1)) : Moves body s (s.semicolon (encode body)) := by
  have hall : ∀ c ∈ [byte ';', byte '&', byte '|'], c < 0x80 := ascii_of_mem (by decide)
  rw [Scan.semicolon]
  split
  · rename_i hnext
    cases hread : (encode body)[s.i + 1]? with
    | none =>
        rw [hread] at hnext
        cases hnext
    | some c =>
        rw [hread] at hnext
        exact past_moves (by omega) (aligned_behind_ascii hread (hall c (of_decide_eq_true hnext)))
  · exact past_moves (Nat.lt_succ_self _) hone

theorem heredoc_moves (hone : Aligned (encode body) (s.i + 1)) : Moves body s (s.heredoc (encode body)) := by
  rw [Scan.heredoc]
  split
  · rename_i hnext
    split
    · rename_i hthird
      exact past_moves (by omega) (aligned_behind_ascii hthird (by decide))
    · apply past_moves _ aligned_heredocTag
      have hle := le_runEnd isBlank (encode body)
        (if decide ((encode body)[s.i + 2]? = some (byte '-')) then s.i + 3 else s.i + 2)
      have hstart : s.i + 2 ≤ if decide ((encode body)[s.i + 2]? = some (byte '-')) then s.i + 3 else s.i + 2 := by
        split <;> omega
      omega
  · exact past_moves (Nat.lt_succ_self _) hone

theorem openBracket_moves (hone : Aligned (encode body) (s.i + 1)) : Moves body s (s.openBracket (encode body)) := by
  rw [Scan.openBracket]
  split
  · rename_i hnext
    exact past_moves (by omega) (aligned_behind_ascii hnext.1 (by decide))
  · exact past_moves (Nat.lt_succ_self _) hone

theorem closeBracket_moves (hone : Aligned (encode body) (s.i + 1)) :
    Moves body s (s.closeBracket (encode body)) := by
  rw [Scan.closeBracket]
  split
  · rename_i hnext
    exact past_moves (by omega) (aligned_behind_ascii hnext.1 (by decide))
  · exact past_moves (Nat.lt_succ_self _) hone

variable {c : UInt8}

theorem aligned_breakEnd (i : Nat) : Aligned (encode body) (runEnd (fun c => !isBreak c) (encode body) i) := by
  apply aligned_runEnd
  intro c hc
  exact isBreak_ascii c (by simpa using hc)

theorem scanWord_spec (hread : (encode body)[s.i]? = some c) (hc : isBreak c = false) :
    (s.word body (encode body) ≠ none ↔ Aligned (encode body) s.i) ∧
      ∀ t, s.word body (encode body) = some t → Moves body s t := by
  have hlt : s.i < runEnd (fun c => !isBreak c) (encode body) s.i := lt_runEnd hread (by simp [hc])
  have hend := runEnd_le_length (fun c => !isBreak c) (Nat.le_of_lt (List.getElem?_eq_some_iff.mp hread).1)
  rw [Scan.word, if_neg (Nat.ne_of_gt hlt)]
  refine ⟨?_, ?_⟩
  · rw [ne_eq, Option.map_eq_none_iff, ← ne_eq, slice_ne_none_iff]
    simp [Nat.le_of_lt hlt, hend, aligned_breakEnd]
  · intro t ht
    obtain ⟨word, -, rfl⟩ := Option.map_eq_some_iff.mp ht
    exact past_moves hlt (aligned_breakEnd s.i)

/-- What a round makes of a byte: it always gets on, but for a char that is cut. -/
theorem scanStep_spec (hread : (encode body)[s.i]? = some c) :
    (s.step body ≠ none ↔ Aligned (encode body) s.i) ∧
      ∀ t, s.step body = some t → if c = byte '\\' then t.i = s.i + 2 else Moves body s t := by
  have hi := (List.getElem?_eq_some_iff.mp hread).1
  have hmoves : ∀ t : Scan, c < 0x80 → c ≠ byte '\\' → Moves body s t →
      (some t ≠ none ↔ Aligned (encode body) s.i) ∧
        ∀ t', some t = some t' → if c = byte '\\' then t'.i = s.i + 2 else Moves body s t' := by
    intro t hascii hslash ht
    refine ⟨iff_of_true (Option.some_ne_none t) (aligned_of_ascii hread hascii), ?_⟩
    intro t' ht'
    cases ht'
    rw [if_neg hslash]
    exact ht
  have hone : c < 0x80 → Aligned (encode body) (s.i + 1) := aligned_behind_ascii hread
  rw [Scan.step]
  simp only [hread]
  by_cases hblank : isBlank c = true
  · rw [if_pos hblank]
    have hascii := isBlank_ascii c hblank
    have hslash : c ≠ byte '\\' := by rintro rfl; cases hblank
    exact hmoves _ hascii hslash ⟨Nat.lt_succ_self _, hone hascii⟩
  rw [if_neg hblank]
  by_cases hslash : c = byte '\\'
  · subst hslash
    rw [if_pos rfl]
    refine ⟨iff_of_true (Option.some_ne_none _) (aligned_of_ascii hread (by decide)), ?_⟩
    intro t ht
    cases ht
    rw [if_pos rfl]
    rfl
  rw [if_neg hslash]
  by_cases hquote : c = byte '\''
  · subst hquote
    have hle := le_runEnd (fun c => decide (c ≠ byte '\'')) (encode body) (s.i + 1)
    rw [if_pos rfl]
    exact hmoves _ (by decide) hslash (past_moves (by omega) (aligned_closed (by decide) (read_quoteEnd _ _)).2)
  rw [if_neg hquote]
  by_cases hdouble : c = byte '\x22'
  · subst hdouble
    have hle := le_escapedEnd (byte '\x22') (encode body) (s.i + 1)
    rw [if_pos rfl]
    exact hmoves _ (by decide) hslash (past_moves (by omega) (aligned_closed (by decide) (read_escapedEnd _ _ _)).2)
  rw [if_neg hdouble]
  by_cases htick : c = byte '\x60'
  · subst htick
    have hle := le_escapedEnd (byte '\x60') (encode body) (s.i + 1)
    rw [if_pos rfl]
    exact hmoves _ (by decide) hslash (past_moves (by omega) (aligned_closed (by decide) (read_escapedEnd _ _ _)).2)
  rw [if_neg htick]
  by_cases hhash : c = byte '#'
  · subst hhash
    rw [if_pos rfl]
    exact hmoves _ (by decide) hslash ⟨hi, aligned_of_length_le (Nat.le_refl _)⟩
  rw [if_neg hhash]
  by_cases hdollar : c = byte '$'
  · subst hdollar
    rw [if_pos rfl]
    exact hmoves _ (by decide) hslash (dollar_moves (hone (by decide)))
  rw [if_neg hdollar]
  by_cases hbrace : c = byte '{'
  · subst hbrace
    rw [if_pos rfl]
    exact hmoves _ (by decide) hslash (past_moves (Nat.lt_succ_self _) (hone (by decide)))
  rw [if_neg hbrace]
  by_cases hend : c = byte '}'
  · subst hend
    rw [if_pos rfl]
    exact hmoves _ (by decide) hslash (past_moves (Nat.lt_succ_self _) (hone (by decide)))
  rw [if_neg hend]
  by_cases hopen : c = byte '('
  · subst hopen
    rw [if_pos rfl]
    exact hmoves _ (by decide) hslash (past_moves (Nat.lt_succ_self _) (hone (by decide)))
  rw [if_neg hopen]
  by_cases hclose : c = byte ')'
  · subst hclose
    rw [if_pos rfl]
    exact hmoves _ (by decide) hslash (past_moves (Nat.lt_succ_self _) (hone (by decide)))
  rw [if_neg hclose]
  by_cases hsemi : c = byte ';'
  · subst hsemi
    rw [if_pos rfl]
    exact hmoves _ (by decide) hslash (semicolon_moves (hone (by decide)))
  rw [if_neg hsemi]
  by_cases hless : c = byte '<'
  · subst hless
    rw [if_pos rfl]
    exact hmoves _ (by decide) hslash (heredoc_moves (hone (by decide)))
  rw [if_neg hless]
  by_cases hgreater : c = byte '>'
  · subst hgreater
    rw [if_pos rfl]
    exact hmoves _ (by decide) hslash (past_moves (Nat.lt_succ_self _) (hone (by decide)))
  rw [if_neg hgreater]
  by_cases hbracket : c = byte '['
  · subst hbracket
    rw [if_pos rfl]
    exact hmoves _ (by decide) hslash (openBracket_moves (hone (by decide)))
  rw [if_neg hbracket]
  by_cases hclosing : c = byte ']'
  · subst hclosing
    rw [if_pos rfl]
    exact hmoves _ (by decide) hslash (closeBracket_moves (hone (by decide)))
  rw [if_neg hclosing]
  have hbreak : isBreak c = false := by
    rw [isBreak, Bool.or_eq_false_iff]
    refine ⟨Bool.not_eq_true _ ▸ hblank, ?_⟩
    simp [hsemi, hopen, hclose, hless, hgreater, hquote, hdouble, htick, hslash]
  refine ⟨(scanWord_spec hread hbreak).1, ?_⟩
  intro t ht
  rw [if_neg hslash]
  exact (scanWord_spec hread hbreak).2 t ht

end Arms

variable (body : List Char)

/-- The loop of `scan_line`. -/
def scanning : Scanner body Scan where
  guard s := s.i < (encode body).length
  step s := s.step body
  measure s := (encode body).length - s.i
  decreases s t hg hs := by
    have hg : s.i < (encode body).length := of_decide_eq_true hg
    have hread := List.getElem?_eq_getElem hg
    have hstep := (scanStep_spec hread).2 t hs
    split at hstep
    · omega
    · have hlt := hstep.1
      omega
  index := Scan.i
  escape := byte '\\'
  Over _ := False
  escape_ascii := backslash_ascii
  guard_iff s := decide_eq_true_iff
  step_ne_none_iff s hs := by
    rw [(scanStep_spec (List.getElem?_eq_getElem hs)).1]
    exact (and_iff_left not_false).symm
  index_escape s t hs hread := by
    have hstep := (scanStep_spec hread).2 t hs
    rwa [if_pos rfl] at hstep
  aligned_step s t hs hread := by
    cases hc : (encode body)[s.i]? with
    | none =>
        rw [Scan.step] at hs
        simp [hc] at hs
    | some c =>
        have hne : c ≠ byte '\\' := fun h => hread (h ▸ hc)
        have hstep := (scanStep_spec hc).2 t hs
        rw [if_neg hne] at hstep
        exact hstep.2

def startScan (stack : List Block) (heredocs : List Heredoc) : Scan :=
  ⟨0, false, stack_indent stack, false, stack, heredocs⟩

/-- Scan one line for the tokens that drive the indentation. -/
def scan_line (stack : List Block) (heredocs : List Heredoc) : Option Scan :=
  (scanning body).run (startScan stack heredocs)

/-- The scanner returns if and only if it is stuck nowhere on the line. -/
theorem scan_line_ne_none_iff (stack : List Block) (heredocs : List Heredoc) : scan_line body stack heredocs ≠ none ↔
    ∀ s, (scanning body).Reaches (startScan stack heredocs) s → ¬ (scanning body).Stuck s :=
  Scanner.run_ne_none_iff (aligned_encode_zero body)

end Zshrs.Fmt
