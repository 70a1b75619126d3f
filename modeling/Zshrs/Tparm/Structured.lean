import Zshrs.Tparm.Directives

namespace Zshrs.Tparm

open Lib

section Directives

variable {cap rest : Bytes} {hack : Bool} {i : Nat} {m : Machine}

theorem directive_arith {c : Char} (h : isArith c = true) :
    directive cap hack c i m =
      some (i, m.popped.popped.push (.Int (arith c m.popped.top.int m.top.int))) := by
  simp only [isArith, Bool.or_eq_true, decide_eq_true_eq] at h
  rcases h with (((((((((((rfl | rfl) | rfl) | rfl) | rfl) | rfl) | rfl) | rfl) | rfl) | rfl) | rfl) | rfl) | rfl <;> rfl

theorem directive_p : directive cap hack 'p' i m = (match cap[i]? with
    | none => some (i, m)
    | some n => some (i + 1, if 1 ≤ toDigit n then m.push (m.param (toDigit n - 1)) else m)) :=
  rfl

theorem directive_quote : directive cap hack '\'' i m = (match cap[i]? with
    | none => some (i, m)
    | some ch => some (if cap[i + 1]? = some (byte '\'') then i + 2 else i + 1,
        m.push (.Int (Int64.ofNat ch.toNat)))) :=
  rfl

theorem directive_P : directive cap hack 'P' i m = (match cap[i]? with
    | none => some (i, m)
    | some n => (setVar n m.top.int m.popped).map (Prod.mk (i + 1))) :=
  rfl

theorem directive_g : directive cap hack 'g' i m = (match cap[i]? with
    | none => some (i, m)
    | some n => (getVar n m).map fun v => (i + 1, m.push (.Int v))) :=
  rfl

theorem step_param {k : Fin 9} (h : cap.drop i = byte '%' :: byte 'p' :: UInt8.ofNat (49 + k.val) :: rest) :
    step cap hack (i, m) = some (i + 3, m.push (m.param k)) := by
  have hdigit : ∀ k : Fin 9, toDigit (UInt8.ofNat (49 + k.val)) = k.val + 1 := by decide
  have hread : cap[i + 2]? = some (UInt8.ofNat (49 + k.val)) := getElem?_of_drop h 2
  have hdirective : directive cap hack 'p' (i + 2) m = some (i + 3, m.push (m.param k)) := by
    simp only [directive_p, hread, hdigit, Nat.add_sub_cancel]
    rw [if_pos (Nat.le_add_left 1 _)]
  rw [step_plain h (by decide)]
  exact hdirective

theorem step_char {b : UInt8} (h : cap.drop i = byte '%' :: byte '\'' :: b :: byte '\'' :: rest) :
    step cap hack (i, m) = some (i + 4, m.push (.Int (Int64.ofNat b.toNat))) := by
  have hread : cap[i + 2]? = some b := getElem?_of_drop h 2
  have hquote : cap[i + 2 + 1]? = some (byte '\'') := getElem?_of_drop h 3
  have hdirective : directive cap hack '\'' (i + 2) m = some (i + 4, m.push (.Int (Int64.ofNat b.toNat))) := by
    simp only [directive_quote, hread, hquote]
    rw [if_pos trivial]
  rw [step_plain h (by decide)]
  exact hdirective

theorem step_const {negative : Bool} {ds : List Char} (hds : ds ≠ [] ∧ ds.all Char.isDigit = true)
    (hrange : InRange (constant negative ds))
    (h : cap.drop i = byte '%' :: byte '{' :: (bytes (numeral negative ds) ++ byte '}' :: rest)) :
    step cap hack (i, m) = some (i + ((bytes (numeral negative ds)).length + 3),
      m.push (.Int (Int64.ofInt (constant negative ds)))) := by
  have hdrop : cap.drop (i + 2) = bytes (numeral negative ds) ++ byte '}' :: rest := drop_pair h
  have hclosing : ∀ b ∈ bytes (numeral negative ds), (decide (b ≠ byte '}')) = true := by
    intro b hb
    exact decide_eq_true (bytes_numeral_ne hds.2 '}' (by decide) (by decide) (by decide) b hb)
  have htake : (cap.drop (i + 2)).takeWhile (fun b => decide (b ≠ byte '}')) = bytes (numeral negative ds) := by
    rw [hdrop, List.takeWhile_append_of_pos hclosing, List.takeWhile_cons_of_neg (by simp), List.append_nil]
  have hslice := slice_of_drop hdrop (by simp)
  have hback : (bytes (numeral negative ds)).map asChar = numeral negative ds := by
    rw [bytes, List.map_map]
    conv_rhs => rw [← List.map_id (numeral negative ds)]
    apply List.map_congr_left
    intro c hc
    exact asChar_byte (numeral_lt hds.2 c hc)
  have hlen := length_of_drop hdrop (by simp)
  rw [List.length_append, List.length_cons] at hlen
  have hdirective : directive cap hack '{' (i + 2) m = some (i + ((bytes (numeral negative ds)).length + 3),
      m.push (.Int (Int64.ofInt (constant negative ds)))) := by
    have harm : directive cap hack '{' (i + 2) m =
        (slice cap (i + 2) (i + 2 + ((cap.drop (i + 2)).takeWhile fun b => decide (b ≠ byte '}')).length)).map fun n =>
          (if i + 2 + ((cap.drop (i + 2)).takeWhile fun b => decide (b ≠ byte '}')).length < cap.length then
            i + 2 + ((cap.drop (i + 2)).takeWhile fun b => decide (b ≠ byte '}')).length + 1
          else i + 2 + ((cap.drop (i + 2)).takeWhile fun b => decide (b ≠ byte '}')).length,
            m.push (.Int ((parse_i64 n).getD 0))) := rfl
    rw [harm, htake, hslice, Option.map_some, hback, parse_numeral hds hrange, Option.getD_some, if_pos (by omega)]
    congr 2
    omega
  rw [step_plain h (by decide)]
  exact hdirective

theorem step_op {c : UInt8} (hc : isArith (asChar c) = true)
    (hrest : isRun c = true → ∀ b, (rest.dropWhile isRun).head? = some b → isConversion (asChar b) = false)
    (h : cap.drop i = byte '%' :: c :: rest) : step cap hack (i, m) =
      some (i + 2, m.popped.popped.push (.Int (arith (asChar c) m.popped.top.int m.top.int))) := by
  have hcolon : c ≠ byte ':' := by
    rintro rfl
    revert hc
    decide
  have hf : formatted cap (i + 1) c = some none := by
    by_cases hrun : isRun c = true
    · exact formatted_op (drop_of_drop h 1) hrun hcolon (hrest hrun)
    · exact formatted_other hrun hcolon
  rw [step_directive h hf, directive_arith hc]

/-- One round of the evaluator does what the directive that is next says. -/
theorem step_render {d : Directive} (hread : d.Readable isConversion rest) (h : cap.drop i = d.render ++ rest) :
    step cap hack (i, m) = (d.exec hack m).map (Prod.mk (i + d.render.length)) := by
  cases d with
  | lit b hb => exact step_text h hb
  | percent => exact step_plain h (by decide)
  | print colon run conv hrun hconv =>
      rw [Directive.render, List.cons_append, List.append_assoc, List.append_assoc] at h
      rw [step_print hrun hconv hread h, Directive.exec, Directive.render]
      simp only [List.length_cons, List.length_append, List.length_nil]
      congr 3
  | chr => exact step_plain h (by decide)
  | param k => exact step_param h
  | char b => exact step_char h
  | const negative ds hds hrange =>
      have htext : cap.drop i = byte '%' :: byte '{' :: (bytes (numeral negative ds) ++ byte '}' :: rest) := by
        rw [h, Directive.render, ← numeral]
        simp
      rw [step_const hds hrange htext, Directive.exec, Directive.render, ← numeral]
      simp
  | strlen => exact step_plain h (by decide)
  | setVar x hx =>
      have hname : cap[i + 2]? = some x := getElem?_of_drop h 2
      have hdirective : directive cap hack 'P' (i + 2) m =
          (setVar x m.top.int m.popped).map (Prod.mk (i + 3)) := by
        simp only [directive_P, hname]
      rw [step_plain h (by decide)]
      exact hdirective
  | getVar x hx =>
      have hname : cap[i + 2]? = some x := getElem?_of_drop h 2
      have hdirective : directive cap hack 'g' (i + 2) m =
          (getVar x m).map fun v => (i + 3, m.push (.Int v)) := by
        simp only [directive_g, hname]
      rw [step_plain h (by decide), Directive.exec, Option.map_map]
      exact hdirective
  | op c hc => exact step_op hc hread h
  | not => exact step_plain h (by decide)
  | compl => exact step_plain h (by decide)
  | incr => exact step_plain h (by decide)

end Directives

section Runs

variable {cap : Bytes} {hack : Bool}

theorem reaches_one {i j : Nat} {m m' : Machine} {rest : Bytes} (h : cap.drop i = rest) (hne : rest ≠ [])
    (hstep : step cap hack (i, m) = some (j, m')) : (evaluation cap hack).Reaches (i, m) (j, m') := by
  have hlt : i < cap.length := by
    have hlen := length_of_drop h hne
    have hpos := List.length_pos_iff.mpr hne
    omega
  exact Relation.ReflTransGen.single ⟨decide_eq_true hlt, hstep⟩

/-- The marks of a conditional that do nothing of themselves. -/
theorem reaches_if {i : Nat} {m : Machine} {rest : Bytes} (h : cap.drop i = byte '%' :: byte '?' :: rest) :
    (evaluation cap hack).Reaches (i, m) (i + 2, m) :=
  reaches_one h (by simp) (step_plain h (by decide))

theorem reaches_fi {i : Nat} {m : Machine} {rest : Bytes} (h : cap.drop i = byte '%' :: byte ';' :: rest) :
    (evaluation cap hack).Reaches (i, m) (i + 2, m) :=
  reaches_one h (by simp) (step_plain h (by decide))

/-- `%t` pops the condition and goes on with the branch, or skips it. -/
theorem reaches_then {i : Nat} {m : Machine} {rest : Bytes} (h : cap.drop i = byte '%' :: byte 't' :: rest) :
    (evaluation cap hack).Reaches (i, m) (if m.top.int ≠ 0 then i + 2 else i + 2 + skip true 0 rest, m.popped) := by
  apply reaches_one h (by simp)
  have hstep : step cap hack (i, m) = _ := step_plain h (by decide)
  have hdrop : cap.drop (i + 2) = rest := drop_pair h
  rw [hstep, ← hdrop]
  rfl

/-- `%e` is come to behind a taken branch. -/
theorem reaches_else {i : Nat} {m : Machine} {rest : Bytes} (h : cap.drop i = byte '%' :: byte 'e' :: rest) :
    (evaluation cap hack).Reaches (i, m) (i + 2 + skip false 0 rest, m) := by
  apply reaches_one h (by simp)
  have hstep : step cap hack (i, m) = _ := step_plain h (by decide)
  have hdrop : cap.drop (i + 2) = rest := drop_pair h
  rw [hstep, ← hdrop]
  rfl

/-- Behind a taken branch the rest of the conditional is passed by. -/
theorem Else.reaches_end {e : Else} {i : Nat} {m : Machine} {rest : Bytes} (h : cap.drop i = e.render ++ rest) :
    (evaluation cap hack).Reaches (i, m) (i + e.render.length, m) := by
  have hskip := e.skip_to_end_render rest
  cases e with
  | fi => exact reaches_fi h
  | els b =>
      rw [Else.render, List.cons_append, List.cons_append] at h hskip
      rw [skip_past_else] at hskip
      have hreach : (evaluation cap hack).Reaches (i, m) _ := reaches_else h
      rw [Nat.add_assoc, Nat.add_comm 2, hskip] at hreach
      exact hreach
  | elif c a e =>
      rw [Else.render, List.cons_append, List.cons_append] at h hskip
      rw [skip_past_else] at hskip
      have hreach : (evaluation cap hack).Reaches (i, m) _ := reaches_else h
      rw [Nat.add_assoc, Nat.add_comm 2, hskip] at hreach
      exact hreach

/-- From `%t` on: the branch and then the end of the conditional, or what follows the `%e`. -/
theorem reaches_branch {i : Nat} {m m' : Machine} {a : Prog} {e : Else} {rest : Bytes}
    (h : cap.drop i = byte '%' :: byte 't' :: (a.render ++ (e.render ++ rest)))
    (ha : ∀ j n n', cap.drop j = a.render ++ (e.render ++ rest) → a.exec hack n = some n' →
      (evaluation cap hack).Reaches (j, n) (j + a.render.length, n'))
    (he : ∀ j n n', cap.drop j = e.render ++ rest → e.exec hack n = some n' →
      (evaluation cap hack).Reaches (j + 2, n) (j + e.render.length, n'))
    (hexec : (if m.top.int ≠ 0 then a.exec hack m.popped else e.exec hack m.popped) = some m') :
    (evaluation cap hack).Reaches (i, m) (i + (a.render.length + e.render.length + 2), m') := by
  have hreach : (evaluation cap hack).Reaches (i, m) _ := reaches_then h
  have hdrop : cap.drop (i + 2) = a.render ++ (e.render ++ rest) := drop_pair h
  have hbehind := drop_text hdrop
  have hend : i + 2 + a.render.length + e.render.length = i + (a.render.length + e.render.length + 2) := by omega
  by_cases htop : m.top.int ≠ 0
  · rw [if_pos htop] at hreach hexec
    have hbranch := ha (i + 2) m.popped m' hdrop hexec
    have hfi : (evaluation cap hack).Reaches (_, m') _ := Else.reaches_end hbehind
    rw [hend] at hfi
    exact hreach.trans (hbranch.trans hfi)
  · rw [if_neg htop] at hreach hexec
    have hskip : skip true 0 (a.render ++ (e.render ++ rest)) = a.render.length + 2 := by
      rw [Prog.skip_render, Else.skip_to_else_render]
    rw [hskip, ← Nat.add_assoc] at hreach
    have helse := he (i + 2 + a.render.length) m.popped m' hbehind hexec
    rw [hend] at helse
    exact hreach.trans helse

mutual

/-- The evaluator runs through a program as the program says. -/
theorem Prog.reaches : ∀ (P : Prog) (i : Nat) (m m' : Machine) (rest : Bytes), P.Readable isConversion →
    Bounds rest → cap.drop i = P.render ++ rest → P.exec hack m = some m' →
    (evaluation cap hack).Reaches (i, m) (i + P.render.length, m')
  | .nil, i, m, m', rest, _, _, _, hexec => by
      cases hexec
      exact Relation.ReflTransGen.refl
  | .seq d P, i, m, m', rest, hread, hrest, h, hexec => by
      rw [Prog.render, List.append_assoc] at h
      obtain ⟨n, hd, hP⟩ := Option.bind_eq_some_iff.mp hexec
      have hstep : step cap hack (i, m) = _ := step_render (hread.1.append (by decide) hrest) h
      rw [hd, Option.map_some] at hstep
      have hdrop := drop_text h
      have hne : d.render ++ (P.render ++ rest) ≠ [] := by cases d <;> simp [Directive.render]
      have htail := Prog.reaches P (i + d.render.length) n m' rest hread.2 hrest hdrop hP
      rw [Prog.render, List.length_append, ← Nat.add_assoc]
      exact (reaches_one h hne hstep).trans htail
  | .cond c a e P, i, m, m', rest, hread, hrest, h, hexec => by
      obtain ⟨hc, ha, he, hP⟩ := hread
      simp only [Prog.render, List.cons_append, List.append_assoc] at h
      obtain ⟨n, hcond, hbehind⟩ := Option.bind_eq_some_iff.mp hexec
      obtain ⟨t, htest, hbranch⟩ := Option.bind_eq_some_iff.mp hcond
      have hcdrop := drop_pair h
      have htdrop := drop_text hcdrop
      have hif : (evaluation cap hack).Reaches (i, m) _ := reaches_if h
      have htest := Prog.reaches c (i + 2) m t _ hc (bounds_percent _) hcdrop htest
      have hbranch := reaches_branch htdrop
        (fun j n n' hj hn => Prog.reaches a j n n' _ ha (e.bounds_render _) hj hn)
        (fun j n n' hj hn => Else.reaches e j n n' _ he hj hn) hbranch
      have hPdrop : cap.drop (i + 2 + c.render.length + (a.render.length + e.render.length + 2)) =
          P.render ++ rest := by
        have hindex : i + 2 + c.render.length + (a.render.length + e.render.length + 2) =
            i + 2 + c.render.length + 2 + a.render.length + e.render.length := by omega
        rw [hindex]
        exact drop_text (drop_text (drop_pair htdrop))
      have htail := Prog.reaches P _ n m' rest hP hrest hPdrop hbehind
      have hend : i + (Prog.cond c a e P).render.length =
          i + 2 + c.render.length + (a.render.length + e.render.length + 2) + P.render.length := by
        simp only [Prog.render, List.length_cons, List.length_append]
        omega
      rw [hend]
      exact hif.trans (htest.trans (hbranch.trans htail))

/-- The same behind the `%e` of a conditional. -/
theorem Else.reaches : ∀ (e : Else) (i : Nat) (m m' : Machine) (rest : Bytes), e.Readable isConversion →
    cap.drop i = e.render ++ rest → e.exec hack m = some m' →
    (evaluation cap hack).Reaches (i + 2, m) (i + e.render.length, m')
  | .fi, i, m, m', rest, _, _, hexec => by
      cases hexec
      exact Relation.ReflTransGen.refl
  | .els b, i, m, m', rest, hread, h, hexec => by
      simp only [Else.render, List.cons_append, List.append_assoc, List.nil_append] at h
      have hbdrop := drop_pair h
      have hfdrop := drop_text hbdrop
      have hbranch := Prog.reaches b (i + 2) m m' _ hread (bounds_percent _) hbdrop hexec
      have hfi : (evaluation cap hack).Reaches (_, m') _ := reaches_fi hfdrop
      have hend : i + (Else.els b).render.length = i + 2 + b.render.length + 2 := by
        simp only [Else.render, List.length_cons, List.length_append, List.length_nil]
        omega
      rw [hend]
      exact hbranch.trans hfi
  | .elif c a e, i, m, m', rest, hread, h, hexec => by
      obtain ⟨hc, ha, he⟩ := hread
      simp only [Else.render, List.cons_append, List.append_assoc] at h
      obtain ⟨t, htest, hbranch⟩ := Option.bind_eq_some_iff.mp hexec
      have hcdrop := drop_pair h
      have htdrop := drop_text hcdrop
      have htest := Prog.reaches c (i + 2) m t _ hc (bounds_percent _) hcdrop htest
      have hbranch := reaches_branch htdrop
        (fun j n n' hj hn => Prog.reaches a j n n' _ ha (e.bounds_render _) hj hn)
        (fun j n n' hj hn => Else.reaches e j n n' _ he hj hn) hbranch
      have hend : i + (Else.elif c a e).render.length =
          i + 2 + c.render.length + (a.render.length + e.render.length + 2) := by
        simp only [Else.render, List.length_cons, List.length_append]
        omega
      rw [hend]
      exact htest.trans hbranch

end

/-- A call does what its program means. -/
theorem tparm_params_render {P : Prog} (hP : P.Plain) {params : List V} {statics : Variables}
    {r : Bytes × Variables} (h : P.meaning params statics = some r) :
    tparm_params P.render params statics = some r := by
  obtain ⟨m, hm, hr⟩ := Option.map_eq_some_iff.mp h
  have hdrop : P.render.drop 0 = P.render ++ [] := by rw [List.append_nil, List.drop_zero]
  have hreach := Prog.reaches P 0 _ m [] hP.1 bounds_nil hdrop hm
  rw [Nat.zero_add] at hreach
  have hdone : (evaluation P.render P.termcap).guard (P.render.length, m) = false := decide_eq_false (lt_irrefl _)
  have hrun := Loop.run_eq_some_iff.mpr ⟨hreach, hdone⟩
  rw [tparm_params, Prog.startMachine_render hP.2 params statics, ← Prog.termcap, hrun]
  exact congrArg some hr

end Runs

/-- Capabilities evaluated one after the other emit what their programs mean, the static variables handed on. -/
theorem calls_emit_meanings {programs : List (Prog × List V)} (hplain : ∀ c ∈ programs, c.1.Plain)
    {statics : Variables} {r : List Bytes × Variables} (h : calls Prog.meaning programs statics = some r) :
    calls tparm_params (programs.map fun c => (c.1.render, c.2)) statics = some r := by
  induction programs generalizing statics r with
  | nil => exact h
  | cons c programs ih =>
      obtain ⟨P, params⟩ := c
      rw [List.forall_mem_cons] at hplain
      obtain ⟨first, hfirst, h⟩ := Option.bind_eq_some_iff.mp h
      obtain ⟨others, hothers, hr⟩ := Option.map_eq_some_iff.mp h
      have hcall := tparm_params_render hplain.1 hfirst
      have hrest := ih hplain.2 hothers
      rw [List.map_cons, calls, hcall, Option.bind_some, hrest]
      exact congrArg some hr

/-- `%p1` compared with a number. -/
def below (ds : List Char) (h : ds ≠ [] ∧ ds.all Char.isDigit) (hrange : InRange (constant false ds)) : Prog :=
  .seq (.param 0) (.seq (.const false ds h hrange) (.seq (.op (byte '<') (by decide)) .nil))

def printed (rest : Prog) : Prog := .seq (.print false [] (byte 'd') (by decide) (by decide)) rest

/-- The digits that choose the color in xterm's `setaf`, each branch of the nested conditional. -/
def setaf : Prog :=
  .cond (below ['8'] (by decide) (by decide))
    (.seq (.lit (byte '3') (by decide)) (.seq (.param 0) (printed .nil)))
    (.elif (below ['1', '6'] (by decide) (by decide))
      (.seq (.lit (byte '9') (by decide)) (.seq (.param 0) (.seq (.const false ['8'] (by decide) (by decide))
        (.seq (.op (byte '-') (by decide)) (printed .nil)))))
      (.els (.seq (.lit (byte '8') (by decide)) (.seq (.lit (byte ';') (by decide)) (.seq (.param 0) (printed .nil))))))
    (.seq (.lit (byte 'm') (by decide)) .nil)

/-- `%{42}%PZ` and `%gZ%d`. -/
def storeZ : Prog := .seq (.const false ['4', '2'] (by decide) (by decide)) (.seq (.setVar (byte 'Z') (by decide)) .nil)

def loadZ : Prog := .seq (.getVar (byte 'Z') (by decide)) (printed .nil)

theorem setaf_emits : ∃ statics, calls tparm_params
    [(setaf.render, [.Int 9]), (storeZ.render, []), (loadZ.render, [])] (Vector.replicate 26 0) =
      some ([bytes ['9', '1', 'm'], [], bytes ['4', '2']], statics) := by
  refine ⟨_, @calls_emit_meanings [(setaf, [.Int 9]), (storeZ, []), (loadZ, [])] ?_ _ _ rfl⟩
  simp only [List.forall_mem_cons]
  exact ⟨by decide +kernel, by decide +kernel, by decide +kernel, by simp⟩

/-- `%p1%p2%-d`, with a subtraction and a `d`, and `%p1%5s`. -/
def minusThenD : Prog :=
  .seq (.param 0) (.seq (.param 1) (.seq (.op (byte '-') (by decide)) (.seq (.lit (byte 'd') (by decide)) .nil)))

def wideString : Prog :=
  .seq (.param 0) (.seq (.print false [byte '5'] (byte 's') (by decide) (by decide)) .nil)

/-- The first is read as a conversion with the flag `-`, and the second prints its string as it is. -/
theorem text_read_otherwise :
    ((minusThenD.meaning [.Int 7, .Int 3] (Vector.replicate 26 0)).map Prod.fst = some (bytes ['d']) ∧
      (tparm_params minusThenD.render [.Int 7, .Int 3] (Vector.replicate 26 0)).map Prod.fst = some (bytes ['3'])) ∧
    (wideString.meaning [.Str (bytes ['a'])] (Vector.replicate 26 0)).map Prod.fst =
        some (bytes [' ', ' ', ' ', ' ', 'a']) ∧
      (tparm_params wideString.render [.Str (bytes ['a'])] (Vector.replicate 26 0)).map Prod.fst =
        some (bytes ['a']) := by
  refine ⟨⟨by decide +kernel, ?_⟩, by decide +kernel, ?_⟩
  · rw [tparm_params, Option.map_map]
    exact Loop.map_run_of_rounds 5 (by decide +kernel)
  · rw [tparm_params, Option.map_map]
    exact Loop.map_run_of_rounds 5 (by decide +kernel)

end Zshrs.Tparm
