import Zshrs.Tparm.Skipping

namespace Zshrs.Tparm

/-- The text ends, or goes on with a directive of its own. -/
def Bounds (rest : Bytes) : Prop := ∀ b, rest.head? = some b → b = byte '%'

theorem bounds_nil : Bounds [] := by
  intro b hb
  cases hb

theorem bounds_percent (s : Bytes) : Bounds (byte '%' :: s) := by
  intro b hb
  exact (Option.some.inj hb).symm

theorem Else.bounds_render (e : Else) (rest : Bytes) : Bounds (e.render ++ rest) := by
  cases e <;> exact bounds_percent _

section Runs

variable {rest : Bytes}

theorem dropWhile_isRun_append {s : Bytes} (h : Bounds rest) :
    ((s ++ rest).dropWhile isRun).head? = some (byte '%') ∨
      ((s ++ rest).dropWhile isRun).head? = (s.dropWhile isRun).head? := by
  have hpercent : ¬ isRun (byte '%') = true := by decide
  rw [List.dropWhile_append]
  by_cases hs : (s.dropWhile isRun).isEmpty = true
  · rw [if_pos hs]
    cases rest with
    | nil =>
        right
        rw [List.isEmpty_iff.mp hs, List.dropWhile_nil]
    | cons b rest =>
        left
        cases h b rfl
        rw [List.dropWhile_cons_of_neg hpercent]
        rfl
  · rw [if_neg hs]
    right
    rw [List.head?_append]
    cases hdrop : s.dropWhile isRun with
    | nil => simp [hdrop] at hs
    | cons b s => rfl

theorem isConversion_not_isRun {conv : UInt8} (h : isConversion (asChar conv) = true) : ¬ isRun conv = true := by
  intro hrun
  rw [isRun_eq] at hrun
  simp only [isConversion, Bool.or_eq_true, decide_eq_true_eq] at h
  rcases h with (((hc | hc) | hc) | hc) | hc <;> rw [hc] at hrun <;> revert hrun <;> decide

theorem dropWhile_run {run : Bytes} {conv : UInt8} (hrun : run.all isRun = true)
    (hconv : isConversion (asChar conv) = true) (rest : Bytes) :
    (run ++ conv :: rest).dropWhile isRun = conv :: rest := by
  rw [List.dropWhile_append_of_pos (List.all_eq_true.mp hrun),
    List.dropWhile_cons_of_neg (isConversion_not_isRun hconv)]

/-- No flag and no conversion is a colon. -/
theorem head_run_ne_colon {run : Bytes} {conv : UInt8} (hrun : run.all isRun = true)
    (hconv : isConversion (asChar conv) = true) (rest : Bytes) :
    (run ++ conv :: rest).head? ≠ some (byte ':') := by
  cases run with
  | nil =>
      intro h
      cases h
      revert hconv
      decide
  | cons b run =>
      intro h
      cases h
      rw [List.all_cons, Bool.and_eq_true] at hrun
      exact absurd hrun.1 (by decide)

/-- A run of flags ends at its conversion. -/
theorem afterRun_print {run : Bytes} {conv : UInt8} (hrun : run.all isRun = true)
    (hconv : isConversion (asChar conv) = true) (colon : Bool) (rest : Bytes) :
    afterRun (flagColon colon ++ (run ++ conv :: rest)) = conv :: rest := by
  rw [afterRun]
  cases colon with
  | true =>
      have hhead : (flagColon true ++ (run ++ conv :: rest)).head? = some (byte ':') := rfl
      rw [if_pos hhead]
      exact dropWhile_run hrun hconv rest
  | false =>
      have hhead : (flagColon false ++ (run ++ conv :: rest)).head? ≠ some (byte ':') :=
        head_run_ne_colon hrun hconv rest
      rw [if_neg hhead]
      exact dropWhile_run hrun hconv rest

/-- A directive is read the same with text behind it that ends it. -/
theorem Directive.Readable.append {converts : Char → Bool} {s : Bytes} {d : Directive} (h : d.Readable converts s)
    (hpercent : converts '%' = false) (hrest : Bounds rest) : d.Readable converts (s ++ rest) := by
  cases d with
  | op c hc =>
      intro hrun b hb
      rcases dropWhile_isRun_append (s := s) hrest with hdrop | hdrop
      · cases hdrop.symm.trans hb
        exact hpercent
      · exact h hrun b (hdrop.symm.trans hb)
  | print colon run conv hrun hconv => exact h
  | lit | percent | chr | param | char | const | strlen | setVar | getVar | not | compl | incr => trivial

end Runs

section Counts

theorem count_text {b : UInt8} (hb : b ≠ byte '%') (rest : Bytes) :
    count_conversions (b :: rest) = count_conversions rest := by
  cases rest with
  | nil => simp [count_conversions]
  | cons c rest =>
      rw [count_conversions.eq_def]
      exact if_pos hb

theorem count_texts {s : Bytes} (h : ∀ b ∈ s, b ≠ byte '%') (rest : Bytes) :
    count_conversions (s ++ rest) = count_conversions rest := by
  induction s with
  | nil => rfl
  | cons b s ih =>
      rw [List.forall_mem_cons] at h
      rw [List.cons_append, count_text h.1, ih h.2]

theorem count_pair (c : UInt8) (rest : Bytes) : count_conversions (byte '%' :: c :: rest) =
    match afterRun (c :: rest) with
    | [] => count_conversions rest
    | conv :: behind => if isCounted (asChar conv) then count_conversions behind + 1 else count_conversions rest := by
  rw [count_conversions.eq_def]
  simp only [ne_eq, not_true_eq_false, if_false]
  split <;> rename_i h <;> simp [h]

theorem count_other {c : UInt8} (hrun : ¬ isRun c = true) (hcolon : c ≠ byte ':')
    (hcount : isCounted (asChar c) = false) (rest : Bytes) :
    count_conversions (byte '%' :: c :: rest) = count_conversions rest := by
  have hafter : afterRun (c :: rest) = c :: rest := by
    rw [afterRun, if_neg (by simp [hcolon]), List.dropWhile_cons_of_neg hrun]
  rw [count_pair, hafter]
  simp [hcount]

theorem count_chr (rest : Bytes) :
    count_conversions (byte '%' :: byte 'c' :: rest) = 1 + count_conversions rest := by
  have hafter : afterRun (byte 'c' :: rest) = byte 'c' :: rest := by
    rw [afterRun, if_neg (by simp [byte]), List.dropWhile_cons_of_neg (by decide)]
  have hcount : isCounted (asChar (byte 'c')) = true := by decide
  rw [count_pair, hafter]
  simp [hcount, Nat.add_comm]

theorem count_print {run : Bytes} {conv : UInt8} (hrun : run.all isRun = true)
    (hconv : isConversion (asChar conv) = true) (colon : Bool) (rest : Bytes) :
    count_conversions (byte '%' :: (flagColon colon ++ (run ++ conv :: rest))) =
      1 + count_conversions rest := by
  have hafter := afterRun_print hrun hconv colon rest
  have hcount : isCounted (asChar conv) = true := by rw [isCounted, hconv, Bool.true_or]
  cases hs : flagColon colon ++ (run ++ conv :: rest) with
  | nil => simp at hs
  | cons c s =>
      rw [hs] at hafter
      rw [count_pair, hafter]
      simp [hcount, Nat.add_comm]

theorem count_op {c : UInt8} (hc : isArith (asChar c) = true) {rest : Bytes}
    (h : isRun c = true → ∀ b, (rest.dropWhile isRun).head? = some b → isCounted (asChar b) = false) :
    count_conversions (byte '%' :: c :: rest) = count_conversions rest := by
  have hcolon : c ≠ byte ':' := by
    rintro rfl
    revert hc
    decide
  by_cases hrun : isRun c = true
  · have hafter : afterRun (c :: rest) = rest.dropWhile isRun := by
      rw [afterRun, if_neg (by simp [hcolon]), List.dropWhile_cons_of_pos hrun]
    rw [count_pair, hafter]
    cases hdrop : rest.dropWhile isRun with
    | nil => rfl
    | cons b behind =>
        have hb := h hrun b (by rw [hdrop]; rfl)
        simp [hb]
  · apply count_other hrun hcolon
    simp only [isArith, Bool.or_eq_true, decide_eq_true_eq] at hc
    rcases hc with (((((((((((hc | hc) | hc) | hc) | hc) | hc) | hc) | hc) | hc) | hc) | hc) | hc) | hc <;>
      rw [hc] <;> decide

/-- What `count_conversions` counts of a directive. -/
theorem count_directive {d : Directive} {rest : Bytes} (h : d.Readable isCounted rest) :
    count_conversions (d.render ++ rest) = d.conversions + count_conversions rest := by
  have hword : ∀ (c : UInt8) (s : Bytes), ¬ isRun c = true ∧ c ≠ byte ':' ∧ isCounted (asChar c) = false →
      (∀ b ∈ s, b ≠ byte '%') → count_conversions ((byte '%' :: c :: s) ++ rest) = 0 + count_conversions rest := by
    rintro c s ⟨hrun, hcolon, hcount⟩ hs
    rw [List.cons_append, List.cons_append, count_other hrun hcolon hcount, count_texts hs, Nat.zero_add]
  have hnone : ∀ b ∈ ([] : Bytes), b ≠ byte '%' := by simp
  cases d with
  | lit b hb =>
      rw [Directive.render, List.singleton_append, count_text hb]
      exact (Nat.zero_add _).symm
  | percent => exact hword (byte '%') [] (by decide) hnone
  | print colon run conv hrun hconv =>
      rw [Directive.render, List.cons_append, List.append_assoc, List.append_assoc, List.singleton_append]
      exact count_print hrun hconv colon rest
  | chr => exact count_chr rest
  | param k =>
      have hdigit : ∀ k : Fin 9, UInt8.ofNat (49 + k.val) ≠ byte '%' := by decide
      apply hword (byte 'p') [UInt8.ofNat (49 + k.val)] (by decide)
      intro b hb
      rw [List.mem_singleton.mp hb]
      exact hdigit k
  | char b =>
      by_cases hb : b = byte '%'
      · subst hb
        have hquote := hword (byte '\'') [] (by decide) hnone
        rw [Directive.render, List.cons_append, List.cons_append, count_other (by decide) (by decide) (by decide)]
        exact hquote
      · apply hword (byte '\'') [b, byte '\''] (by decide)
        simp only [List.forall_mem_cons]
        exact ⟨hb, by decide, by simp⟩
  | const negative ds hds hrange =>
      have hs : ∀ b ∈ bytes (numeral negative ds) ++ [byte '}'], b ≠ byte '%' := by
        intro b hb
        rcases List.mem_append.mp hb with hb | hb
        · exact bytes_numeral_ne hds.2 '%' (by decide) (by decide) (by decide) b hb
        · rw [List.mem_singleton.mp hb]
          decide
      exact hword (byte '{') (bytes (numeral negative ds) ++ [byte '}']) (by decide) hs
  | strlen => exact hword (byte 'l') [] (by decide) hnone
  | setVar x hx =>
      apply hword (byte 'P') [x] (by decide)
      intro b hb
      rw [List.mem_singleton.mp hb]
      exact ne_percent_of hx (by decide)
  | getVar x hx =>
      apply hword (byte 'g') [x] (by decide)
      intro b hb
      rw [List.mem_singleton.mp hb]
      exact ne_percent_of hx (by decide)
  | op c hc =>
      have hcount := count_op hc h
      rw [Directive.render, List.cons_append, List.cons_append, List.nil_append, hcount]
      exact (Nat.zero_add _).symm
  | not => exact hword (byte '!') [] (by decide) hnone
  | compl => exact hword (byte '~') [] (by decide) hnone
  | incr => exact hword (byte 'i') [] (by decide) hnone

/-- The marks of a conditional are no conversions. -/
theorem count_mark {c : UInt8} (hc : ¬ isRun c = true ∧ c ≠ byte ':' ∧ isCounted (asChar c) = false) (rest : Bytes) :
    count_conversions (byte '%' :: c :: rest) = count_conversions rest := count_other hc.1 hc.2.1 hc.2.2 rest

end Counts

mutual

theorem Prog.count_render {rest : Bytes} (hrest : Bounds rest) : ∀ P : Prog, P.Readable isCounted →
    count_conversions (P.render ++ rest) = P.conversions + count_conversions rest
  | .nil, _ => by simp [Prog.render, Prog.conversions]
  | .seq d P, h => by
      rw [Prog.render, List.append_assoc, count_directive (h.1.append (by decide) hrest),
        Prog.count_render hrest P h.2, Prog.conversions]
      omega
  | .cond c a e P, h => by
      obtain ⟨hc, ha, he, hP⟩ := h
      simp only [Prog.render, List.cons_append, List.append_assoc]
      rw [count_mark (by decide), Prog.count_render (bounds_percent _) c hc, count_mark (by decide),
        Prog.count_render (e.bounds_render _) a ha, Else.count_render _ e he, Prog.count_render hrest P hP,
        Prog.conversions]
      omega

theorem Else.count_render (rest : Bytes) : ∀ e : Else, e.Readable isCounted →
    count_conversions (e.render ++ rest) = e.conversions + count_conversions rest
  | .fi, _ => by
      rw [Else.render, List.cons_append, List.cons_append, List.nil_append, count_mark (by decide), Else.conversions]
      omega
  | .els b, h => by
      simp only [Else.render, List.cons_append, List.append_assoc, List.nil_append]
      rw [count_mark (by decide), Prog.count_render (bounds_percent _) b h, count_mark (by decide), Else.conversions]
  | .elif c a e, h => by
      obtain ⟨hc, ha, he⟩ := h
      simp only [Else.render, List.cons_append, List.append_assoc]
      rw [count_mark (by decide), Prog.count_render (bounds_percent _) c hc, count_mark (by decide),
        Prog.count_render (e.bounds_render _) a ha, Else.count_render rest e he, Else.conversions]
      omega

end

/-- A call starts as the program does. -/
theorem Prog.startMachine_render {P : Prog} (h : P.termcap = true → P.Readable isCounted) (params : List V)
    (statics : Variables) : startMachine P.render params statics = P.start params statics := by
  rw [startMachine, Prog.start, Prog.termcap]
  cases hp : says_p P.render with
  | true => simp
  | false =>
      have hcount := Prog.count_render bounds_nil P (h (by rw [Prog.termcap, hp]; rfl))
      rw [List.append_nil] at hcount
      have hnil : count_conversions [] = 0 := by simp [count_conversions]
      simp [prepushed, hcount, hnil]

end Zshrs.Tparm
