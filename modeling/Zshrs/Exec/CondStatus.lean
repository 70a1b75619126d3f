import Zshrs.Exec.Evalcond
import Zshrs.Parse.CondExpr
import Mathlib.Algebra.Group.Nat.Defs

namespace Zshrs.Exec.Cond

open Parse.Cond

variable {F : Type}

section

variable (T : Tests F) (fromtest : Bool)

def doubleStatus (a b : Str) : Nat :=
  match a with
  | [_, op] =>
      if op ∈ unarySet then T.unary op (T.operand fromtest b) else T.module false false a [b]
  | _ => T.module false false a [b]

def tripleStatus (a b c : Str) : Nat :=
  match patternOp b with
  | some op =>
      if op = COND_STRGTR then T.binary fromtest op (T.operand fromtest a) (T.operand fromtest c)
      else T.pattern op (T.operand fromtest a) c
  | none =>
      if regexOp b then T.module true true T.regexName [a, c]
      else if b.head?.any IS_DASH then
        match get_cond_num b.tail with
        | some t => T.binary fromtest (t + COND_NT) (T.operand fromtest a) (T.operand fromtest c)
        | none => T.module true false b [a, c]
      else T.module false false a [b, c]

/-- What an operator says of its operands. -/
def primaryStatus : Primary → Nat
  | .double a b => doubleStatus T fromtest a b
  | .triple a b c => tripleStatus T fromtest a b c
  | .multi a l => T.module false false a l
  | .order lt s1 s3 =>
      T.binary fromtest (if lt then COND_STRLT else COND_STRGTR) (T.operand fromtest s1)
        (T.operand fromtest s3)

/-- Whether a status on the left of `&&` or `||` makes the right one be evaluated. -/
def goesOn : Connective → Nat → Bool
  | .and, ret => ret = 0
  | .or, ret => ret = 1 ∨ ret = 3

/-- The recursive evaluation of an expression. -/
def status : Condition → Nat
  | .prim p => primaryStatus T fromtest p
  | .not c => if status c = 0 then 1 else if status c = 1 then 0 else status c
  | .chain op a b => if goesOn op (status a) then status b else status a

/-- A bad pattern ends the reading before it. -/
def badPattern : Primary → Bool
  | .triple _ b c => (patternOp b).any (· ≠ COND_STRGTR) && (T.patcompile (T.singsub c)).isNone
  | _ => false

/-- Where the words of an operator stop being read. -/
def primaryStop (pc : Nat) (p : Primary) : Nat :=
  if badPattern T p then pc + 2 else pc + (p.code 0).length

/-- The operators that the evaluation comes to, in order, with the words emitted for each. -/
def readsOf (pc : Nat) : Condition → List (Nat × Nat)
  | .prim p => [(pc, primaryStop T pc p)]
  | .not c => readsOf (pc + 1) c
  | .chain op a b =>
      readsOf (pc + 1) a ++
        if goesOn op (status T fromtest a) then readsOf (pc + 1 + (a.code 0).length) b else []

/-- The evaluation comes to no string order with a pattern slot. -/
def Slotless : Condition → Prop
  | .prim p => ∀ a b c, p = .triple a b c → patternOp b ≠ some COND_STRGTR
  | .not c => Slotless c
  | .chain op a b => Slotless a ∧ (goesOn op (status T fromtest a) → Slotless b)

/-- The distances and operand counts that the evaluation uses are in the field for them. -/
def InField : Condition → Prop
  | .prim p => ∀ a l, p = .multi a l → l.length < 2 ^ 20
  | .not c => InField c
  | .chain op a b =>
      InField a ∧ if goesOn op (status T fromtest a) then InField b
        else (a.code 0 ++ b.code 0).length < 2 ^ 20

end

/-- The words `ws` are in the program from `pc` on. -/
def Loaded (prog : List Word) : Nat → List Word → Prop
  | _, [] => True
  | pc, w :: ws => prog[pc]? = some w ∧ Loaded prog (pc + 1) ws

theorem loaded_append {prog a b : List Word} {pc : Nat} :
    Loaded prog pc (a ++ b) ↔ Loaded prog pc a ∧ Loaded prog (pc + a.length) b := by
  induction a generalizing pc with
  | nil => simp [Loaded]
  | cons w a ih =>
      simp only [List.cons_append, Loaded, ih, and_assoc, List.length_cons]
      rw [show pc + 1 + a.length = pc + (a.length + 1) by omega]

theorem loaded_of_append (before ws after : List Word) :
    Loaded (before ++ ws ++ after) before.length ws := by
  induction ws generalizing before with
  | nil => trivial
  | cons w ws ih =>
      refine ⟨by simp, ?_⟩
      have h := ih (before ++ [w])
      simpa using h

theorem length_primary_code (p : Primary) (np np' : Nat) :
    (p.code np).length = (p.code np').length := by
  cases p with
  | triple a b c =>
      simp only [Primary.code]
      cases patternOp b with
      | some op => rfl
      | none => rfl
  | _ => rfl

theorem length_code (c : Condition) (np np' : Nat) : (c.code np).length = (c.code np').length := by
  induction c generalizing np np' with
  | prim p => exact length_primary_code p np np'
  | not c ih => simp only [Condition.code, List.length_cons, ih np np']
  | chain op a b iha ihb =>
      simp only [Condition.code, List.length_cons, List.length_append]
      rw [iha np np', ihb (np + a.npats) (np' + a.npats)]

section

variable {T : Tests F} {fromtest : Bool} {prog : List Word}

theorem ecgetarr_loaded {pc : Nat} {l : List Str} (h : Loaded prog pc (l.map .str)) :
    ecgetarr prog pc l.length = some l := by
  induction l generalizing pc with
  | nil => rfl
  | cons s l ih =>
      obtain ⟨hs, hl⟩ := h
      simp [ecgetarr, ecgetstr, hs, ih hl]

/-- The operators that `evalcond` takes apart by their type, not the connectives. -/
theorem evalcond_operator {fuel pc ctype skip : Nat} (hhead : header prog pc = some (ctype, skip))
    (hop : COND_OR < ctype) :
    evalcond T fromtest prog (fuel + 1) pc =
      (if ctype = COND_REGEX ∨ ctype = COND_MOD ∨ ctype = COND_MODI then
          evalModule T prog ctype skip (pc + 1)
        else evalTest T fromtest prog ctype (pc + 1)).map
        (fun r => ⟨r.1, r.2, [(pc, r.2)]⟩) := by
  have hnot : ctype ≠ COND_NOT := by
    rintro rfl
    exact absurd hop (by decide)
  have hand : ctype ≠ COND_AND := by
    rintro rfl
    exact absurd hop (by decide)
  have hor : ctype ≠ COND_OR := by
    rintro rfl
    exact absurd hop (by decide)
  rw [evalcond, hhead]
  simp only [Option.bind_eq_bind, Option.bind_some, hnot, hand, hor, if_false]
  split
  · cases evalModule T prog ctype skip (pc + 1) <;> rfl
  · cases evalTest T fromtest prog ctype (pc + 1) <;> rfl

theorem evalcond_chain {fuel pc skip : Nat} {op : Connective}
    (hhead : header prog pc = some (op.type, skip)) :
    evalcond T fromtest prog (fuel + 1) pc =
      (evalcond T fromtest prog fuel (pc + 1)).bind (fun o =>
        if goesOn op o.status then
          (evalcond T fromtest prog fuel o.pc).map (fun o' => { o' with reads := o.reads ++ o'.reads })
        else some { o with pc := pc + (skip + 1) }) := by
  rw [evalcond, hhead]
  cases op with
  | and =>
      have hnot : COND_AND ≠ COND_NOT := by decide
      simp only [Connective.type, Option.bind_eq_bind, Option.bind_some, hnot, if_false, if_true]
      congr 1
      funext o
      by_cases hgo : o.status = 0
      · simp only [hgo, goesOn, decide_true, if_true]
        cases evalcond T fromtest prog fuel o.pc <;> rfl
      · simp only [hgo, goesOn, decide_false, if_false, Bool.false_eq_true]
  | or =>
      have hnot : COND_OR ≠ COND_NOT := by decide
      have hand : COND_OR ≠ COND_AND := by decide
      simp only [Connective.type, Option.bind_eq_bind, Option.bind_some, hnot, hand, if_false, if_true]
      congr 1
      funext o
      by_cases hgo : o.status = 1 ∨ o.status = 3
      · simp only [hgo, goesOn, decide_true, if_true]
        cases evalcond T fromtest prog fuel o.pc <;> rfl
      · simp only [hgo, goesOn, decide_false, if_false, Bool.false_eq_true]

theorem header_wcb {pc t o : Nat} (h : prog[pc]? = some (WCB_COND t o)) :
    header prog pc = some (t, o % 2 ^ 20) := by
  rw [header, h]
  rfl

theorem ecgetstr_str {pc : Nat} {s : Str} (h : prog[pc]? = some (.str s)) :
    ecgetstr prog pc = some s := by
  rw [ecgetstr, h]

theorem evalcond_mod {fuel pc : Nat} {name : Str} {l : List Str} (hlen : l.length < 2 ^ 20)
    (h : Loaded prog pc (WCB_COND COND_MOD l.length :: .str name :: l.map .str)) :
    evalcond T fromtest prog (fuel + 1) pc =
      some ⟨T.module false false name l, pc + (l.length + 2), [(pc, pc + (l.length + 2))]⟩ := by
  obtain ⟨hhead, hname, hl⟩ := h
  rw [evalcond_operator (header_wcb hhead) (by decide), if_pos (by decide), Nat.mod_eq_of_lt hlen]
  have hne : COND_MOD ≠ COND_REGEX := by decide
  simp only [evalModule, hne, if_false, if_true, ecgetstr_str hname, ecgetarr_loaded hl,
    Option.bind_eq_bind, Option.bind_some, Option.map_some]
  rw [show pc + 1 + 1 + l.length = pc + (l.length + 2) by omega]

theorem evalcond_regex {fuel pc : Nat} {a c : Str}
    (h : Loaded prog pc [WCB_COND COND_REGEX 0, .str a, .str c]) :
    evalcond T fromtest prog (fuel + 1) pc =
      some ⟨T.module true true T.regexName [a, c], pc + 3, [(pc, pc + 3)]⟩ := by
  obtain ⟨hhead, ha, hc, -⟩ := h
  rw [evalcond_operator (header_wcb hhead) (by decide), if_pos (by decide)]
  simp only [evalModule, if_true, ecgetstr_str ha, ecgetstr_str hc, Option.bind_eq_bind,
    Option.bind_some, Option.map_some]

theorem evalcond_modi {fuel pc : Nat} {name a c : Str}
    (h : Loaded prog pc [WCB_COND COND_MODI 0, .str name, .str a, .str c]) :
    evalcond T fromtest prog (fuel + 1) pc =
      some ⟨T.module true false name [a, c], pc + 4, [(pc, pc + 4)]⟩ := by
  obtain ⟨hhead, hname, ha, hc, -⟩ := h
  rw [evalcond_operator (header_wcb hhead) (by decide), if_pos (by decide)]
  have hne : COND_MODI ≠ COND_REGEX := by decide
  have hne' : COND_MODI ≠ COND_MOD := by decide
  simp only [evalModule, hne, hne', if_false, ecgetstr_str hname, ecgetstr_str ha, ecgetstr_str hc,
    Option.bind_eq_bind, Option.bind_some, Option.map_some]

/-- An operator with two expanded operands: whatever follows them is not read. -/
theorem evalcond_binary {fuel pc ctype : Nat} {a c : Str} {rest : List Word}
    (hlo : COND_STRLT ≤ ctype) (hhi : ctype ≤ COND_GE)
    (h : Loaded prog pc (WCB_COND ctype 0 :: .str a :: .str c :: rest)) :
    evalcond T fromtest prog (fuel + 1) pc =
      some ⟨T.binary fromtest ctype (T.operand fromtest a) (T.operand fromtest c), pc + 3,
        [(pc, pc + 3)]⟩ := by
  obtain ⟨hhead, ha, hc, -⟩ := h
  simp only [COND_STRLT, COND_GE] at hlo hhi
  have hmod : ¬ (ctype = COND_REGEX ∨ ctype = COND_MOD ∨ ctype = COND_MODI) := by
    simp only [COND_REGEX, COND_MOD, COND_MODI]
    omega
  have hpat : ¬ (ctype = COND_STREQ ∨ ctype = COND_STRDEQ ∨ ctype = COND_STRNEQ) := by
    simp only [COND_STREQ, COND_STRDEQ, COND_STRNEQ]
    omega
  have hop : COND_OR < ctype := by
    simp only [COND_OR]
    omega
  rw [evalcond_operator (header_wcb hhead) hop, if_neg hmod]
  simp only [evalTest, ecgetstr_str ha, ecgetstr_str hc, Option.bind_eq_bind, Option.bind_some,
    hpat, if_false, COND_GE, hhi, if_true, Option.map_some]

theorem evalcond_pattern {fuel pc ctype np : Nat} {a c : Str}
    (hop : ctype = COND_STREQ ∨ ctype = COND_STRDEQ ∨ ctype = COND_STRNEQ)
    (h : Loaded prog pc [WCB_COND ctype 0, .str a, .str c, .npat np]) :
    evalcond T fromtest prog (fuel + 1) pc =
      some ⟨T.pattern ctype (T.operand fromtest a) c,
        if (T.patcompile (T.singsub c)).isNone then pc + 2 else pc + 4,
        [(pc, if (T.patcompile (T.singsub c)).isNone then pc + 2 else pc + 4)]⟩ := by
  obtain ⟨hhead, ha, hc, -⟩ := h
  have hrange : COND_STREQ ≤ ctype ∧ ctype ≤ COND_STRNEQ := by
    rcases hop with rfl | rfl | rfl <;> decide
  simp only [COND_STREQ, COND_STRNEQ] at hrange
  have hmod : ¬ (ctype = COND_REGEX ∨ ctype = COND_MOD ∨ ctype = COND_MODI) := by
    simp only [COND_REGEX, COND_MOD, COND_MODI]
    omega
  have hor : COND_OR < ctype := by
    simp only [COND_OR]
    omega
  rw [evalcond_operator (header_wcb hhead) hor, if_neg hmod]
  simp only [evalTest, ecgetstr_str ha, ecgetstr_str hc, Option.bind_eq_bind, Option.bind_some,
    hop, if_true, Option.map_some]

theorem evalcond_letter {fuel pc : Nat} {op : Char} {b : Str} (hop : op ∈ unarySet)
    (h : Loaded prog pc [WCB_COND op.toNat 0, .str b]) :
    evalcond T fromtest prog (fuel + 1) pc =
      some ⟨T.unary op (T.operand fromtest b), pc + 2, [(pc, pc + 2)]⟩ := by
  obtain ⟨hhead, hb, -⟩ := h
  have hlo : unarySet.all (fun c => decide (COND_MODI < c.toNat)) = true := by rfl
  have hlt : COND_MODI < op.toNat := of_decide_eq_true (List.all_eq_true.mp hlo op hop)
  simp only [COND_MODI] at hlt
  have hmod : ¬ (op.toNat = COND_REGEX ∨ op.toNat = COND_MOD ∨ op.toNat = COND_MODI) := by
    simp only [COND_REGEX, COND_MOD, COND_MODI]
    omega
  have hpat : ¬ (op.toNat = COND_STREQ ∨ op.toNat = COND_STRDEQ ∨ op.toNat = COND_STRNEQ) := by
    simp only [COND_STREQ, COND_STRDEQ, COND_STRNEQ]
    omega
  have hge : ¬ op.toNat ≤ COND_GE := by
    simp only [COND_GE]
    omega
  have hor : COND_OR < op.toNat := by
    simp only [COND_OR]
    omega
  rw [evalcond_operator (header_wcb hhead) hor, if_neg hmod]
  simp only [evalTest, ecgetstr_str hb, Option.bind_eq_bind, Option.bind_some, hpat, hge, if_false,
    Option.map_some, Char.ofNat_toNat]

end

end Zshrs.Exec.Cond
