import Zshrs.Tparm.Counting

namespace Zshrs.Tparm

section Reading

variable {cap s rest : Bytes} {i : Nat}

theorem getElem?_of_drop (h : cap.drop i = s) (j : Nat) : cap[i + j]? = s[j]? := by
  rw [← h, List.getElem?_drop]

theorem getElem?_zero_of_drop (h : cap.drop i = s) : cap[i]? = s[0]? := getElem?_of_drop h 0

theorem drop_of_drop (h : cap.drop i = s) (j : Nat) : cap.drop (i + j) = s.drop j := by
  rw [← h, List.drop_drop]

theorem drop_pair {b c : UInt8} (h : cap.drop i = b :: c :: s) : cap.drop (i + 2) = s := drop_of_drop h 2

theorem drop_text (h : cap.drop i = s ++ rest) : cap.drop (i + s.length) = rest := by
  rw [drop_of_drop h, List.drop_left]

theorem length_of_drop (h : cap.drop i = s) (hs : s ≠ []) : cap.length = i + s.length := by
  have hlen := congrArg List.length h
  have hpos := List.length_pos_iff.mpr hs
  rw [List.length_drop] at hlen
  omega

theorem getElem?_length_takeWhile (p : UInt8 → Bool) (s : Bytes) :
    s[(s.takeWhile p).length]? = (s.dropWhile p).head? := by
  have hcut := List.takeWhile_append_dropWhile (p := p) (l := s)
  have hread : (s.takeWhile p ++ s.dropWhile p)[(s.takeWhile p).length]? = (s.dropWhile p)[0]? := by
    rw [List.getElem?_append_right (Nat.le_refl _), Nat.sub_self]
  rw [hcut] at hread
  rw [hread, List.head?_eq_getElem?]

theorem slice_of_drop (h : cap.drop i = s ++ rest) (hrest : rest ≠ []) :
    slice cap i (i + s.length) = some (s.map asChar) := by
  have hlen := length_of_drop h (by simp [hrest])
  rw [List.length_append] at hlen
  have htake : (cap.take (i + s.length)).drop i = s := by
    rw [← List.take_drop, h, List.take_left]
  rw [slice, if_pos ⟨Nat.le_add_right i _, by omega⟩, htake]

end Reading

section Runs

variable {cap rest : Bytes} {i : Nat} {c : UInt8}

theorem formatted_other (hrun : ¬ isRun c = true) (hcolon : c ≠ byte ':') : formatted cap i c = some none := by
  have hne : asChar c ≠ ':' := fun h => hcolon ((asChar_eq_iff (by decide)).mp h)
  rw [formatted, if_neg]
  rintro (h | h)
  · exact hne h
  · exact hrun h

/-- An operator that is also a flag is read as the operator where no conversion comes of the text behind it. -/
theorem formatted_op (h : cap.drop i = c :: rest) (hrun : isRun c = true) (hcolon : c ≠ byte ':')
    (hrest : ∀ b, (rest.dropWhile isRun).head? = some b → isConversion (asChar b) = false) :
    formatted cap i c = some none := by
  have hhead : cap[i]? ≠ some (byte ':') := by
    rw [getElem?_zero_of_drop h]
    simpa using hcolon
  have hread : cap[i + ((cap.drop i).takeWhile isRun).length]? = (rest.dropWhile isRun).head? := by
    rw [getElem?_of_drop rfl, getElem?_length_takeWhile, h, List.dropWhile_cons_of_pos hrun]
  rw [formatted, if_pos (Or.inr hrun), if_neg hhead]
  dsimp only
  rw [hread]
  cases hdrop : (rest.dropWhile isRun).head? with
  | none => rfl
  | some b => simp [hrest b hdrop]

theorem takeWhile_run {run : Bytes} {conv : UInt8} (hrun : run.all isRun = true)
    (hconv : isConversion (asChar conv) = true) : (run ++ conv :: rest).takeWhile isRun = run := by
  rw [List.takeWhile_append_of_pos (List.all_eq_true.mp hrun),
    List.takeWhile_cons_of_neg (isConversion_not_isRun hconv), List.append_nil]

/-- A flag run is read up to its conversion. -/
theorem formatted_print {run : Bytes} {conv : UInt8} {colon : Bool} (hrun : run.all isRun = true)
    (hconv : isConversion (asChar conv) = true) (hc : c = byte ':' ∨ isRun c = true)
    (h : cap.drop i = c :: rest)
    (htext : c :: rest = flagColon colon ++ (run ++ conv :: s)) :
    formatted cap i c = some (some ((flagColon colon ++ run).map asChar, asChar conv,
      i + (flagColon colon ++ run).length + 1)) := by
  have hc' : asChar c = ':' ∨ isRun c = true := hc.imp (fun h => (asChar_eq_iff (by decide)).mpr h) id
  have hslice : slice cap i (i + (flagColon colon ++ run).length) =
      some ((flagColon colon ++ run).map asChar) := by
    have hcut : cap.drop i = (flagColon colon ++ run) ++ conv :: s := by rw [h, htext, List.append_assoc]
    exact slice_of_drop hcut (by simp)
  have hstart : (if cap[i]? = some (byte ':') then i + 1 else i) = i + (flagColon colon).length := by
    rw [getElem?_zero_of_drop h, htext]
    cases colon with
    | true => rfl
    | false =>
        have hhead := head_run_ne_colon hrun hconv s
        rw [List.head?_eq_getElem?] at hhead
        rw [if_neg]
        · rfl
        · exact hhead
  have hdrop : cap.drop (i + (flagColon colon).length) = run ++ conv :: s := by
    rw [drop_of_drop h, htext, List.drop_left]
  have hread : cap[i + (flagColon colon).length + run.length]? = some conv := by
    rw [getElem?_of_drop hdrop, List.getElem?_append_right (Nat.le_refl _), Nat.sub_self]
    rfl
  rw [List.length_append, ← Nat.add_assoc] at hslice ⊢
  rw [formatted, if_pos hc']
  dsimp only
  rw [hstart, hdrop, takeWhile_run hrun hconv, hread]
  dsimp only
  rw [if_pos hconv, hslice]
  rfl

end Runs

section Values

theorem fmt_int_congr {spec spec' : List Char} (h : readFormat spec = readFormat spec') (conv : Char) (v : Int64) :
    fmt_int spec conv v = fmt_int spec' conv v := by
  rw [fmt_int, h, ← fmt_int]

/-- The colon in front of a run says nothing. -/
theorem readFormat_colon {run : Bytes} (hrun : run.all isRun = true) (colon : Bool) :
    readFormat ((flagColon colon ++ run).map asChar) = readFormat (run.map asChar) := by
  cases colon with
  | false => rfl
  | true =>
      have hhead : (run.map asChar).head? ≠ some ':' := by
        cases run with
        | nil => simp
        | cons b run =>
            intro h
            have hb : asChar b = ':' := Option.some.inj h
            rw [List.all_cons, Bool.and_eq_true, isRun_eq, hb] at hrun
            exact absurd hrun.1 (by decide)
      have htext : (flagColon true ++ run).map asChar = ':' :: run.map asChar := rfl
      rw [htext, readFormat, readFormat]
      simp only [List.head?_cons, if_true, List.tail_cons, if_neg hhead]

theorem convert_eq {run : Bytes} {conv : Char} {m : Machine} {spec : List Char}
    (hspec : readFormat spec = readFormat (run.map asChar))
    (h : conv = 's' → (readFormat (run.map asChar)).width = none ∧ (readFormat (run.map asChar)).precision = none) :
    convert spec conv m = m.print (run.map asChar) conv := by
  rw [convert, Machine.print]
  by_cases hs : conv = 's'
  · obtain ⟨hwidth, hprecision⟩ := h hs
    rw [if_pos hs, if_pos hs, fmt_string, hwidth, hprecision]
    simp
  · rw [if_neg hs, if_neg hs, fmt_int_congr hspec]

theorem parse_numeral {negative : Bool} {ds : List Char} (h : ds ≠ [] ∧ ds.all Char.isDigit = true)
    (hrange : InRange (constant negative ds)) :
    parse_i64 (numeral negative ds) = some (Int64.ofInt (constant negative ds)) := by
  have hdigits : parse_digits ds = some (Nat.ofDigitChars 10 ds 0) := by
    rw [parse_digits, if_pos h]
  rw [inRange_iff] at hrange
  cases negative with
  | true =>
      have hvalue : constant true ds = -(Nat.ofDigitChars 10 ds 0 : Int) := rfl
      rw [hvalue] at hrange ⊢
      have hle : Nat.ofDigitChars 10 ds 0 ≤ 2 ^ 63 := by omega
      have htext : numeral true ds = '-' :: ds := rfl
      rw [htext, parse_i64, hdigits, Option.bind_some, if_pos hle]
  | false =>
      have hvalue : constant false ds = (Nat.ofDigitChars 10 ds 0 : Int) := rfl
      rw [hvalue] at hrange ⊢
      have hlt : Nat.ofDigitChars 10 ds 0 < 2 ^ 63 := by omega
      have htext : numeral false ds = ds := rfl
      rw [htext, parse_i64.eq_def]
      split
      · exact absurd h.2 (by simp)
      · exact absurd h.2 (by simp)
      · rw [hdigits, Option.bind_some, if_pos hlt]
        rfl

end Values

section Rounds

variable {cap rest : Bytes} {hack : Bool} {i : Nat} {m : Machine}

theorem step_text {b : UInt8} (h : cap.drop i = b :: rest) (hb : b ≠ byte '%') :
    step cap hack (i, m) = some (i + 1, m.emit [b]) := by
  have hread : cap[i]? = some b := getElem?_zero_of_drop h
  simp only [step, hread]
  exact if_pos hb

theorem step_directive {c : UInt8} (h : cap.drop i = byte '%' :: c :: rest)
    (hf : formatted cap (i + 1) c = some none) :
    step cap hack (i, m) = directive cap hack (asChar c) (i + 2) m := by
  have hpercent : cap[i]? = some (byte '%') := getElem?_zero_of_drop h
  have hread : cap[i + 1]? = some c := getElem?_of_drop h 1
  simp only [step, hpercent, hread, hf]
  exact if_neg (by simp)

/-- A directive that no flag run starts. -/
theorem step_plain {c : UInt8} (h : cap.drop i = byte '%' :: c :: rest) (hc : ¬ isRun c = true ∧ c ≠ byte ':') :
    step cap hack (i, m) = directive cap hack (asChar c) (i + 2) m :=
  step_directive h (formatted_other hc.1 hc.2)

theorem step_print {run : Bytes} {conv : UInt8} {colon : Bool} (hrun : run.all isRun = true)
    (hconv : isConversion (asChar conv) = true)
    (hs : asChar conv = 's' → (readFormat (run.map asChar)).width = none ∧ (readFormat (run.map asChar)).precision = none)
    (h : cap.drop i = byte '%' :: (flagColon colon ++ (run ++ conv :: rest))) :
    step cap hack (i, m) =
      (m.print (run.map asChar) (asChar conv)).map (Prod.mk (i + ((flagColon colon ++ run).length + 2))) := by
  have hflagged : ∀ c s, flagColon colon ++ (run ++ conv :: rest) = c :: s → c = byte ':' ∨ isRun c = true →
      step cap hack (i, m) =
        (m.print (run.map asChar) (asChar conv)).map (Prod.mk (i + ((flagColon colon ++ run).length + 2))) := by
    intro c s htext hc
    rw [htext] at h
    have hpercent : cap[i]? = some (byte '%') := getElem?_zero_of_drop h
    have hread : cap[i + 1]? = some c := getElem?_of_drop h 1
    have hf := formatted_print hrun hconv hc (drop_of_drop h 1) htext.symm
    simp only [step, hpercent, hread, hf, Option.bind_some]
    rw [if_neg (by simp), convert_eq (readFormat_colon hrun colon) hs]
    congr 2
    omega
  cases colon with
  | true => exact hflagged (byte ':') _ rfl (Or.inl rfl)
  | false =>
      cases run with
      | cons c run =>
          rw [List.all_cons, Bool.and_eq_true] at hrun
          exact hflagged c _ rfl (Or.inr hrun.1)
      | nil =>
          have hplain : ¬ isRun conv = true ∧ conv ≠ byte ':' := by
            refine ⟨isConversion_not_isRun hconv, ?_⟩
            rintro rfl
            revert hconv
            decide
          have hdirective : directive cap hack (asChar conv) (i + 2) m =
              (convert [] (asChar conv) m).map (Prod.mk (i + 2)) := by
            simp only [isConversion, Bool.or_eq_true, decide_eq_true_eq] at hconv
            rcases hconv with (((hc | hc) | hc) | hc) | hc <;> rw [hc] <;> rfl
          have hempty : readFormat [] = readFormat (([] : Bytes).map asChar) := rfl
          rw [step_plain h hplain, hdirective, convert_eq hempty hs]
          rfl

end Rounds

end Zshrs.Tparm
