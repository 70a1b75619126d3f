import Zshrs.Parse.Cond

namespace Zshrs.Parse.Cond

inductive Connective
  | and | or
  deriving DecidableEq

def Connective.type : Connective → Nat
  | .and => COND_AND
  | .or => COND_OR

/-- A condition as an expression. -/
inductive Condition
  | prim (p : Primary)
  | not (c : Condition)
  | chain (op : Connective) (a b : Condition)
  deriving DecidableEq

/-- Whether the operands are not refused with `condition expected`. -/
def Primary.accepted : Primary → Bool
  | .double a _ => dashed a
  | .triple a b _ => (patternOp b).isSome || regexOp b || b.head?.any IS_DASH || dashed a
  | .multi a _ => dashed a
  | .order _ _ _ => true

/-- The pattern slots of a condition. -/
def Primary.npats : Primary → Nat
  | .triple _ b _ => if (patternOp b).isSome then 1 else 0
  | _ => 0

def doubleCode (a b : Str) : List Word :=
  match a with
  | [_, op] =>
      if op ∈ unarySet then [WCB_COND op.toNat 0, .str b] else [WCB_COND COND_MOD 1, .str a, .str b]
  | _ => [WCB_COND COND_MOD 1, .str a, .str b]

/-- The words after the string operators. -/
def tripleCode (a b c : Str) : List Word :=
  if regexOp b then [WCB_COND COND_REGEX 0, .str a, .str c]
  else if b.head?.any IS_DASH then
    match get_cond_num b.tail with
    | some t => [WCB_COND (t + COND_NT) 0, .str a, .str c]
    | none => [WCB_COND COND_MODI 0, .str b, .str a, .str c]
  else [WCB_COND COND_MOD 2, .str a, .str b, .str c]

/-- The words of an operator, when the next pattern is number `np`. -/
def Primary.code (np : Nat) : Primary → List Word
  | .double a b => doubleCode a b
  | .triple a b c =>
      match patternOp b with
      | some op => [WCB_COND op 0, .str a, .str c, .npat np]
      | none => tripleCode a b c
  | .multi a l => WCB_COND COND_MOD l.length :: .str a :: l.map .str
  | .order lt s1 s3 => [WCB_COND (if lt then COND_STRLT else COND_STRGTR) 0, .str s1, .str s3]

namespace Condition

def npats : Condition → Nat
  | prim p => p.npats
  | not c => c.npats
  | chain _ a b => a.npats + b.npats

/-- The words of a condition: a header before its parts, with the distance over them. -/
def code (np : Nat) : Condition → List Word
  | prim p => p.code np
  | not c => WCB_COND COND_NOT 0 :: c.code np
  | chain op a b =>
      let ws := a.code np ++ b.code (np + a.npats)
      WCB_COND op.type ws.length :: ws

end Condition

/-- The levels of the grammar, by how tight the operators bind. -/
inductive Level
  | term | conj | disj

section

variable (posixbuiltins : Bool)

/-- Where a term begins. -/
def start (x : Lexer) : Lexer := if x.nTestargs ≠ 0 then x else x.skipSep

/-- `Parses l x c y`: the tokens from `x` to `y` are the expression `c` of level `l`. `!` takes a
term, `&&` a term on its left, `||` a conjunction on its left; both take the rest on their right. -/
inductive Parses : Level → Lexer → Condition → Lexer → Prop
  | counted {x y : Lexer} {p : Primary} (h : byCount posixbuiltins x = some (p, y))
      (hp : p.accepted) : Parses .term x (.prim p) y
  | not {x y : Lexer} {c : Condition} (h : byCount posixbuiltins x = none) (htok : (start x).tok = .bang)
      (hneg : negates x.nTestargs (start x)) (hc : Parses .term (start x).condlex c y) :
      Parses .term x (.not c) y
  | paren {x y : Lexer} {c : Condition} (h : byCount posixbuiltins x = none) (htok : (start x).tok = .inpar)
      (hc : Parses .disj (start x).condlex.skipSep c y) (hclose : y.skipSep.tok = .outpar) :
      Parses .term x c y.skipSep.condlex
  | operands {x y : Lexer} {p : Primary} (h : byCount posixbuiltins x = none)
      (hbang : ¬ ((start x).tok = .bang ∧ negates x.nTestargs (start x)))
      (hpar : (start x).tok ≠ .inpar) (hscan : scanOperands x.nTestargs (start x) = (some p, y))
      (hp : p.accepted) : Parses .term x (.prim p) y
  | conj {x y z : Lexer} {a b : Condition} (ha : Parses .term x a y) (htok : y.skipSep.tok = .damper)
      (hb : Parses .conj y.skipSep.condlex.skipSep b z) : Parses .conj x (.chain .and a b) z
  | conjEnd {x y : Lexer} {a : Condition} (ha : Parses .term x a y) (htok : y.skipSep.tok ≠ .damper) :
      Parses .conj x a y.skipSep
  | disj {x y z : Lexer} {a b : Condition} (ha : Parses .conj x a y) (htok : y.skipSep.tok = .dbar)
      (hb : Parses .disj y.skipSep.condlex.skipSep b z) : Parses .disj x (.chain .or a b) z
  | disjEnd {x y : Lexer} {a : Condition} (ha : Parses .conj x a y) (htok : y.skipSep.tok ≠ .dbar) :
      Parses .disj x a y.skipSep

end

theorem Lexer.skipSep_of_lexerr {x : Lexer} (h : x.tok = .lexerr) : x.skipSep = x := by
  obtain ⟨testlex, token, rest⟩ := x
  have htok : token.tok = .lexerr := h
  unfold skipSep
  cases testlex with
  | true => rfl
  | false => simp [htok]

@[simp] theorem tok_YYERROR (p : Parser) : p.YYERROR.1.tok = .lexerr := rfl

@[simp] theorem tok_COND_ERROR (p : Parser) : p.COND_ERROR.1.tok = .lexerr := rfl

/-- What has been emitted for `c`, from `p` to `p'`. -/
structure Emitted (p p' : Parser) (c : Condition) : Prop where
  ecbuf : p'.ecbuf = p.ecbuf ++ c.code p.ecnpats
  ecnpats : p'.ecnpats = p.ecnpats + c.npats

theorem foldl_ecstr (p : Parser) (l : List Str) :
    l.foldl Parser.ecstr p = { p with ecbuf := p.ecbuf ++ l.map .str } := by
  induction l generalizing p with
  | nil => simp
  | cons s l ih =>
      rw [List.foldl_cons, ih]
      simp [Parser.ecstr, Parser.ecadd]

theorem emit_double (p : Parser) (a b : Str) (h : dashed a = true) :
    par_cond_double p a b = ({ p with ecbuf := p.ecbuf ++ doubleCode a b }, 1) := by
  unfold par_cond_double doubleCode
  rw [h]
  simp only [Bool.not_true, Bool.false_eq_true, if_false]
  split
  next op =>
    by_cases hop : op ∈ unarySet
    · simp [hop, Parser.ecstr, Parser.ecadd]
    · simp [hop, Parser.ecstr, Parser.ecadd]
  next => simp [Parser.ecstr, Parser.ecadd]

theorem emit_triple (p : Parser) (a b c : Str) (hop : patternOp b = none)
    (h : (regexOp b || b.head?.any IS_DASH || dashed a) = true) :
    par_cond_triple p a b c = ({ p with ecbuf := p.ecbuf ++ tripleCode a b c }, 1) := by
  unfold par_cond_triple tripleCode
  rw [hop]
  cases hre : regexOp b with
  | true => simp [Parser.ecstr, Parser.ecadd]
  | false =>
      rw [hre, Bool.false_or] at h
      cases b with
      | nil =>
          have ha : dashed a = true := by simpa using h
          simp [ha, Parser.ecstr, Parser.ecadd]
      | cons d rest =>
          cases hd : IS_DASH d with
          | true =>
              cases hnum : get_cond_num rest with
              | some t => simp [hd, hnum, Parser.ecstr, Parser.ecadd]
              | none => simp [hd, hnum, Parser.ecstr, Parser.ecadd]
          | false =>
              have ha : dashed a = true := by simpa [hd] using h
              simp [hd, ha, Parser.ecstr, Parser.ecadd]

theorem emit_triple_refused (p : Parser) (a b c : Str) (hop : patternOp b = none)
    (h : (regexOp b || b.head?.any IS_DASH || dashed a) = false) :
    par_cond_triple p a b c = p.COND_ERROR := by
  unfold par_cond_triple
  rw [hop]
  cases b with
  | nil => simp_all
  | cons d rest => simp_all

/-- An operator's routine refuses its operands, or emits its words. -/
theorem emit_cases (p : Parser) (prim : Primary) :
    emit p prim = p.COND_ERROR ∨
      prim.accepted ∧ (emit p prim).1.lexer = p.lexer ∧ Emitted p (emit p prim).1 (.prim prim) := by
  cases prim with
  | double a b =>
      simp only [emit, Primary.accepted]
      cases h : dashed a with
      | true =>
          right
          rw [emit_double p a b h]
          exact ⟨rfl, rfl, rfl, rfl⟩
      | false =>
          left
          simp [par_cond_double, h]
  | triple a b c =>
      simp only [emit, Primary.accepted]
      cases hop : patternOp b with
      | some op =>
          right
          refine ⟨rfl, ?_, ?_, ?_⟩
          · simp [par_cond_triple, hop, Parser.ecnpat, Parser.ecstr, Parser.ecadd]
          · simp [par_cond_triple, hop, Parser.ecnpat, Parser.ecstr, Parser.ecadd, Condition.code,
              Primary.code]
          · simp [par_cond_triple, hop, Parser.ecnpat, Parser.ecstr, Parser.ecadd, Condition.npats,
              Primary.npats]
      | none =>
          cases h : (regexOp b || b.head?.any IS_DASH || dashed a) with
          | true =>
              right
              rw [emit_triple p a b c hop h]
              refine ⟨by simpa using h, rfl, ?_, ?_⟩
              · simp [Condition.code, Primary.code, hop]
              · simp [Condition.npats, Primary.npats, hop]
          | false =>
              left
              exact emit_triple_refused p a b c hop h
  | multi a l =>
      simp only [emit, Primary.accepted, par_cond_multi]
      cases h : dashed a with
      | true =>
          right
          simp only [Bool.not_true, Bool.false_eq_true, if_false, foldl_ecstr]
          refine ⟨trivial, rfl, ?_, rfl⟩
          simp [Parser.ecstr, Parser.ecadd, Condition.code, Primary.code]
      | false =>
          left
          simp
  | order lt s1 s3 =>
      right
      refine ⟨rfl, rfl, ?_, rfl⟩
      simp [emit, Parser.ecstr, Parser.ecadd, Condition.code, Primary.code]

/-- The routines of the grammar refuse, or emit the words of the expression that they parsed. -/
def Parsed (posixbuiltins : Bool) (l : Level) (p p' : Parser) : Prop :=
  p'.tok = .lexerr ∨
    ∃ c, Parses posixbuiltins l p.lexer c p'.lexer ∧ Emitted p p' c

section

variable {posixbuiltins : Bool}

theorem parsed_of_emit {p q : Parser} {prim : Primary} (hbuf : q.ecbuf = p.ecbuf)
    (hpats : q.ecnpats = p.ecnpats)
    (h : prim.accepted → Parses posixbuiltins .term p.lexer (.prim prim) q.lexer) :
    Parsed posixbuiltins .term p (emit q prim).1 := by
  rcases emit_cases q prim with herr | ⟨hacc, hlex, hcode, hslots⟩
  · left
    rw [herr, tok_COND_ERROR]
  · refine Or.inr ⟨.prim prim, ?_, ?_, ?_⟩
    · rw [hlex]
      exact h hacc
    · rw [hcode, hbuf, hpats]
    · rw [hslots, hpats]

/-- The header put in front of the first part, once the second is there. -/
theorem emitted_header {p q r : Parser} {a b : Condition} {t : Nat} (ha : Emitted p q a) {x : Lexer}
    (hb : Emitted ({ q with lexer := x }.ecispace p.ecbuf.length) r b) :
    (r.setAt p.ecbuf.length (WCB_COND t (r.ecbuf.length - 1 - p.ecbuf.length))).ecbuf =
      p.ecbuf ++ WCB_COND t (a.code p.ecnpats ++ b.code (p.ecnpats + a.npats)).length ::
        (a.code p.ecnpats ++ b.code (p.ecnpats + a.npats)) := by
  have hbuf := hb.ecbuf
  simp only [Parser.ecispace, ha.ecbuf, ha.ecnpats, List.take_left, List.drop_left] at hbuf
  have hlen : r.ecbuf.length - 1 - p.ecbuf.length =
      (a.code p.ecnpats ++ b.code (p.ecnpats + a.npats)).length := by
    rw [hbuf]
    simp only [List.length_append, List.length_cons]
    omega
  rw [Parser.setAt, hlen, hbuf]
  simp

theorem tok_skipSep_of_lexerr {p : Parser} (h : p.tok = .lexerr) : p.skipSep = p := by
  obtain ⟨lexer, ecbuf, ecnpats, errflag⟩ := p
  simp only [Parser.skipSep, Lexer.skipSep_of_lexerr h]

/-- A chain of `&&` or `||`: the first part, and the rest when the operator follows. -/
theorem parsed_chain {l l' : Level} {tok : Tok} (op : Connective)
    (hend : ∀ {x a y}, Parses posixbuiltins l x a y → y.skipSep.tok ≠ tok →
      Parses posixbuiltins l' x a y.skipSep)
    (hnode : ∀ {x a y b z}, Parses posixbuiltins l x a y → y.skipSep.tok = tok →
      Parses posixbuiltins l' y.skipSep.condlex.skipSep b z → Parses posixbuiltins l' x (.chain op a b) z)
    (htoken : tok ≠ .lexerr) {p q : Parser} (hfirst : Parsed posixbuiltins l p q) :
    (q.skipSep.tok ≠ tok → Parsed posixbuiltins l' p q.skipSep) ∧
    (q.skipSep.tok = tok → ∀ r,
      Parsed posixbuiltins l' (q.skipSep.condlex.skipSep.ecispace p.ecbuf.length) r →
        Parsed posixbuiltins l' p
          (r.setAt p.ecbuf.length (WCB_COND op.type (r.ecbuf.length - 1 - p.ecbuf.length)))) := by
  rcases hfirst with herr | ⟨a, ha, hea⟩
  · have hskip := tok_skipSep_of_lexerr herr
    constructor
    · intro _
      left
      rw [hskip]
      exact herr
    · intro htok
      rw [hskip, herr] at htok
      exact absurd htok.symm htoken
  · constructor
    · intro htok
      exact Or.inr ⟨a, hend ha htok, hea.ecbuf, hea.ecnpats⟩
    · intro htok r hrest
      rcases hrest with herr | ⟨b, hb, heb⟩
      · exact Or.inl herr
      · refine Or.inr ⟨.chain op a b, hnode ha htok hb, ?_, ?_⟩
        · exact emitted_header hea heb
        · have hpats := heb.ecnpats
          have hpats' := hea.ecnpats
          simp only [Parser.ecispace, Parser.skipSep, Parser.condlex, Parser.setAt,
            Condition.npats] at hpats ⊢
          omega

theorem parsed_top {fuel : Nat}
    (ihtop : ∀ p p' r, par_cond_top posixbuiltins fuel p = some (p', r) → Parsed posixbuiltins .disj p p')
    (ih1 : ∀ p p' r, par_cond_1 posixbuiltins fuel p = some (p', r) → Parsed posixbuiltins .conj p p')
    {p p' : Parser} {r : Nat} (h : par_cond_top posixbuiltins (fuel + 1) p = some (p', r)) :
    Parsed posixbuiltins .disj p p' := by
  rw [par_cond_top] at h
  simp only [Option.bind_eq_bind, Option.bind_eq_some_iff] at h
  obtain ⟨⟨q, r1⟩, hq, h⟩ := h
  have hchain := @parsed_chain posixbuiltins .conj .disj .dbar .or .disjEnd .disj (by decide) p q
    (ih1 p q r1 hq)
  by_cases htok : q.skipSep.tok = .dbar
  · simp only [htok, if_true, Option.bind_eq_some_iff] at h
    obtain ⟨⟨q2, r2⟩, hq2, h⟩ := h
    cases h
    exact hchain.2 htok q2 (ihtop _ _ _ hq2)
  · simp only [htok, if_false] at h
    cases h
    exact hchain.1 htok

theorem parsed_1 {fuel : Nat}
    (ih1 : ∀ p p' r, par_cond_1 posixbuiltins fuel p = some (p', r) → Parsed posixbuiltins .conj p p')
    (ih2 : ∀ p p' r, par_cond_2 posixbuiltins fuel p = some (p', r) → Parsed posixbuiltins .term p p')
    {p p' : Parser} {r : Nat} (h : par_cond_1 posixbuiltins (fuel + 1) p = some (p', r)) :
    Parsed posixbuiltins .conj p p' := by
  rw [par_cond_1] at h
  simp only [Option.bind_eq_bind, Option.bind_eq_some_iff] at h
  obtain ⟨⟨q, r1⟩, hq, h⟩ := h
  have hchain := @parsed_chain posixbuiltins .term .conj .damper .and .conjEnd .conj (by decide) p q
    (ih2 p q r1 hq)
  by_cases htok : q.skipSep.tok = .damper
  · simp only [htok, if_true, Option.bind_eq_some_iff] at h
    obtain ⟨⟨q2, r2⟩, hq2, h⟩ := h
    cases h
    exact hchain.2 htok q2 (ih1 _ _ _ hq2)
  · simp only [htok, if_false] at h
    cases h
    exact hchain.1 htok

theorem tok_mk (x : Lexer) (ecbuf : List Word) (ecnpats : Nat) (errflag : Bool) :
    Parser.tok ⟨x, ecbuf, ecnpats, errflag⟩ = x.tok := rfl

theorem start_eq (p : Parser) :
    (if p.lexer.nTestargs ≠ 0 then p else p.skipSep) = { p with lexer := start p.lexer } := by
  unfold start
  split <;> rfl

theorem parsed_2 {fuel : Nat}
    (ihtop : ∀ p p' r, par_cond_top posixbuiltins fuel p = some (p', r) → Parsed posixbuiltins .disj p p')
    (ih2 : ∀ p p' r, par_cond_2 posixbuiltins fuel p = some (p', r) → Parsed posixbuiltins .term p p')
    {p p' : Parser} {r : Nat} (h : par_cond_2 posixbuiltins (fuel + 1) p = some (p', r)) :
    Parsed posixbuiltins .term p p' := by
  rw [par_cond_2] at h
  simp only [start_eq, tok_mk] at h
  cases hcount : byCount posixbuiltins p.lexer with
  | some found =>
      obtain ⟨prim, x⟩ := found
      simp only [hcount, Option.some.injEq] at h
      obtain rfl : (emit _ prim).1 = p' := congrArg Prod.fst h
      exact parsed_of_emit rfl rfl (.counted hcount)
  | none =>
      simp only [hcount] at h
      by_cases hbang : (start p.lexer).tok = .bang ∧ negates p.lexer.nTestargs (start p.lexer)
      · rw [if_pos hbang] at h
        rcases ih2 _ _ _ h with herr | ⟨c, hc, hcode, hpats⟩
        · exact Or.inl herr
        · refine Or.inr ⟨.not c, .not hcount hbang.1 hbang.2 hc, ?_, hpats⟩
          rw [hcode]
          simp [Parser.condlex, Parser.ecadd, Condition.code]
      · rw [if_neg hbang] at h
        by_cases hpar : (start p.lexer).tok = .inpar
        · rw [if_pos hpar] at h
          simp only [Option.bind_eq_bind, Option.bind_eq_some_iff] at h
          obtain ⟨⟨q, r1⟩, hq, h⟩ := h
          by_cases hclose : q.skipSep.tok = .outpar
          · simp only [hclose, ne_eq, not_true, if_false] at h
            cases h
            rcases ihtop _ _ _ hq with herr | ⟨c, hc, hcode⟩
            · rw [tok_skipSep_of_lexerr herr, herr] at hclose
              cases hclose
            · exact Or.inr ⟨c, .paren hcount hpar hc hclose, hcode.ecbuf, hcode.ecnpats⟩
          · simp only [hclose, ne_eq, not_false_eq_true, if_true] at h
            cases h
            exact Or.inl rfl
        · rw [if_neg hpar] at h
          cases hscan : scanOperands p.lexer.nTestargs (start p.lexer) with
          | mk found x =>
              simp only [hscan, Option.some.injEq] at h
              obtain rfl : (emitScanned _ (found, x)).1 = p' := congrArg Prod.fst h
              cases found with
              | none => exact Or.inl rfl
              | some prim => exact parsed_of_emit rfl rfl (.operands hcount hbang hpar hscan)

theorem parsed_all (fuel : Nat) :
    (∀ p p' r, par_cond_top posixbuiltins fuel p = some (p', r) → Parsed posixbuiltins .disj p p') ∧
    (∀ p p' r, par_cond_1 posixbuiltins fuel p = some (p', r) → Parsed posixbuiltins .conj p p') ∧
    (∀ p p' r, par_cond_2 posixbuiltins fuel p = some (p', r) → Parsed posixbuiltins .term p p') := by
  induction fuel with
  | zero =>
      refine ⟨?_, ?_, ?_⟩
      all_goals
        intro p p' r h
        cases h
  | succ fuel ih =>
      obtain ⟨ihtop, ih1, ih2⟩ := ih
      exact ⟨fun _ _ _ => parsed_top ihtop ih1, fun _ _ _ => parsed_1 ih1 ih2,
        fun _ _ _ => parsed_2 ihtop ih2⟩

/-- What is accepted is an expression, and its words are what has been emitted. -/
theorem par_cond_top_accepted {fuel : Nat} {p p' : Parser} {r : Nat}
    (h : par_cond_top posixbuiltins fuel p = some (p', r)) (hacc : p'.tok ≠ .lexerr) :
    ∃ c, Parses posixbuiltins .disj p.lexer c p'.lexer ∧ Emitted p p' c := by
  rcases (parsed_all fuel).1 p p' r h with herr | hc
  · exact absurd herr hacc
  · exact hc

/-- Tokens are at most one expression of a level, with one end. -/
theorem Parses.unique {l : Level} {x y y' : Lexer} {c c' : Condition}
    (h : Parses posixbuiltins l x c y) (h' : Parses posixbuiltins l x c' y') : c = c' ∧ y = y' := by
  induction h generalizing c' y' with
  | counted h hp =>
      cases h' with
      | counted h' _ =>
          rw [h] at h'
          cases h'
          exact ⟨rfl, rfl⟩
      | not h' _ _ _ => rw [h] at h'; cases h'
      | paren h' _ _ _ => rw [h] at h'; cases h'
      | operands h' _ _ _ _ => rw [h] at h'; cases h'
  | not h htok hneg hc ih =>
      cases h' with
      | counted h' _ => rw [h] at h'; cases h'
      | not _ _ _ hc' =>
          obtain ⟨rfl, rfl⟩ := ih hc'
          exact ⟨rfl, rfl⟩
      | paren _ htok' _ _ => rw [htok] at htok'; cases htok'
      | operands _ hbang _ _ _ => exact absurd ⟨htok, hneg⟩ hbang
  | paren h htok hc hclose ih =>
      cases h' with
      | counted h' _ => rw [h] at h'; cases h'
      | not _ htok' _ _ => rw [htok] at htok'; cases htok'
      | paren _ _ hc' _ =>
          obtain ⟨rfl, rfl⟩ := ih hc'
          exact ⟨rfl, rfl⟩
      | operands _ _ hpar _ _ => exact absurd htok hpar
  | operands h hbang hpar hscan hp =>
      cases h' with
      | counted h' _ => rw [h] at h'; cases h'
      | not _ htok' hneg' _ => exact absurd ⟨htok', hneg'⟩ hbang
      | paren _ htok' _ _ => exact absurd htok' hpar
      | operands _ _ _ hscan' _ =>
          rw [hscan] at hscan'
          cases hscan'
          exact ⟨rfl, rfl⟩
  | conj ha htok hb iha ihb =>
      cases h' with
      | conj ha' _ hb' =>
          obtain ⟨rfl, rfl⟩ := iha ha'
          obtain ⟨rfl, rfl⟩ := ihb hb'
          exact ⟨rfl, rfl⟩
      | conjEnd ha' htok' =>
          obtain ⟨rfl, rfl⟩ := iha ha'
          exact absurd htok htok'
  | conjEnd ha htok iha =>
      cases h' with
      | conj ha' htok' _ =>
          obtain ⟨rfl, rfl⟩ := iha ha'
          exact absurd htok' htok
      | conjEnd ha' _ =>
          obtain ⟨rfl, rfl⟩ := iha ha'
          exact ⟨rfl, rfl⟩
  | disj ha htok hb iha ihb =>
      cases h' with
      | disj ha' _ hb' =>
          obtain ⟨rfl, rfl⟩ := iha ha'
          obtain ⟨rfl, rfl⟩ := ihb hb'
          exact ⟨rfl, rfl⟩
      | disjEnd ha' htok' =>
          obtain ⟨rfl, rfl⟩ := iha ha'
          exact absurd htok htok'
  | disjEnd ha htok iha =>
      cases h' with
      | disj ha' htok' _ =>
          obtain ⟨rfl, rfl⟩ := iha ha'
          exact absurd htok' htok
      | disjEnd ha' _ =>
          obtain ⟨rfl, rfl⟩ := iha ha'
          exact ⟨rfl, rfl⟩

end

end Zshrs.Parse.Cond
