import Zshrs.Parse.CondExpr

namespace Zshrs.Parse.Cond

/-- The tokens after which the grammar calls itself. -/
def opens (t : Tok) : Bool := t = .bang || t = .inpar || t = .damper || t = .dbar

namespace Lexer

/-- What is left to read, with the current token when the grammar goes on from it. -/
def size (x : Lexer) : Nat := x.rest.length + if opens x.tok then 1 else 0

theorem size_le (x : Lexer) : x.size ≤ x.rest.length + 1 := by
  unfold size
  split <;> omega

theorem size_condlex (x : Lexer) (h : x.tok ≠ .lexerr) : x.condlex.size ≤ x.rest.length := by
  obtain ⟨testlex, token, rest⟩ := x
  unfold condlex
  rw [if_neg h]
  cases rest with
  | cons t rest => exact size_le _
  | nil =>
      cases testlex with
      | true =>
          by_cases hnull : token.tok = .nulltok
          · simp [size, hnull, tok, opens]
          · simp [size, hnull, tok, opens]
      | false => simp [size, tok, opens]

theorem size_condlex_le (x : Lexer) : x.condlex.size ≤ x.size := by
  by_cases h : x.tok = .lexerr
  · have heq : x.condlex = x := by rw [condlex, if_pos h]
    exact Nat.le_of_eq (congrArg size heq)
  · exact Nat.le_trans (size_condlex x h) (Nat.le_add_right _ _)

theorem size_condlex_lt {x : Lexer} (h : opens x.tok = true) : x.condlex.size < x.size := by
  have hne : x.tok ≠ .lexerr := by
    intro heq
    rw [heq] at h
    cases h
  have hle := size_condlex x hne
  have hsize : x.size = x.rest.length + 1 := by simp [size, h]
  omega

theorem size_skipSep (x : Lexer) : x.skipSep.size ≤ x.size := by
  unfold skipSep
  split
  · exact Nat.le_refl _
  · cases htok : decide (x.token.tok = .newlin) with
    | false =>
        have heq : (x.token :: x.rest).dropWhile (fun t => t.tok = .newlin) = x.token :: x.rest :=
          List.dropWhile_cons_of_neg (by simp [htok])
        exact Nat.le_of_eq (by rw [heq])
    | true =>
        rw [List.dropWhile_cons_of_pos (by simp [htok])]
        have hlen := (List.dropWhile_sublist (l := x.rest) (fun t => decide (t.tok = .newlin))).length_le
        split
        next t rest heq =>
          rw [heq] at hlen
          simp only [List.length_cons] at hlen
          refine Nat.le_trans (size_le _) ?_
          simp only [size]
          omega
        next => simp [size, tok, opens]

theorem size_setTok_lexerr (x : Lexer) : (x.setTok .lexerr).size ≤ x.size := by
  simp only [size, setTok, tok, opens]
  simp

theorem size_setTok_string (x : Lexer) : (x.setTok .string).size ≤ x.size := by
  simp only [size, setTok, tok, opens]
  simp

/-- The next token, past newlines. -/
theorem size_next (x : Lexer) : x.condlex.skipSep.size ≤ x.size :=
  Nat.le_trans (size_skipSep _) (size_condlex_le x)

theorem size_next_lt {x : Lexer} (h : opens x.tok = true) : x.condlex.skipSep.size < x.size :=
  Nat.lt_of_le_of_lt (size_skipSep _) (size_condlex_lt h)

end Lexer

open Lexer

theorem size_strings (n : Nat) (x : Lexer) : (strings n x).2.size ≤ x.size := by
  induction n generalizing x with
  | zero => exact Nat.le_refl _
  | succ n ih =>
      unfold strings
      split
      · exact Nat.le_trans (ih _) (size_next x)
      · exact Nat.le_refl _

theorem size_scanThird (n : Nat) (dble : Bool) (s1 s2 : Str) (x : Lexer) :
    (scanThird n dble s1 s2 x).2.size ≤ x.size := by
  unfold scanThird
  dsimp only
  split
  · split
    · exact Nat.le_trans (size_strings n _) (size_next x)
    · exact size_next x
  · exact Nat.le_refl _

theorem size_scanOperands (n : Nat) (x : Lexer) : (scanOperands n x).2.size ≤ x.size := by
  unfold scanOperands
  dsimp only
  split
  · split
    · exact size_next x
    · exact Nat.le_refl _
  · generalize hy : (if n = 2 ∧ x.condlex.tok ≠ .string ∧ x.condlex.token.tokstr.isSome ∧
      x.tokstr.head?.any IS_DASH then x.condlex.setTok .string else x.condlex.skipSep) = y
    have hle : y.size ≤ x.size := by
      rw [← hy]
      split
      · exact Nat.le_trans (size_setTok_string _) (size_condlex_le x)
      · exact size_next x
    split
    · split
      · exact Nat.le_trans (size_next y) hle
      · exact Nat.le_trans (size_next _) (Nat.le_trans (size_next y) hle)
    · split
      · split
        · split
          · exact hle
          · exact hle
        · exact hle
      · exact Nat.le_trans (size_scanThird _ _ _ _ _) (Nat.le_trans (size_next y) hle)

theorem size_byCount {posixbuiltins : Bool} {x y : Lexer} {p : Primary}
    (h : byCount posixbuiltins x = some (p, y)) : y.size ≤ x.size := by
  have h1 := size_condlex_le x
  have h2 := size_condlex_le x.condlex
  have h3 := size_condlex_le x.condlex.condlex
  unfold byCount at h
  split at h
  · unfold scanTestargs at h
    split at h
    · cases h
      exact Nat.le_refl _
    · split at h
      · simp only at h
        split at h
        · cases h
          exact h1
        · cases h
          exact h1
      · split at h
        · cases h
          omega
        · cases h
  · cases h

theorem size_start (x : Lexer) : (start x).size ≤ x.size := by
  unfold start
  split
  · exact Nat.le_refl _
  · exact size_skipSep x

theorem size_emit (p : Parser) (prim : Primary) : (emit p prim).1.lexer.size ≤ p.lexer.size := by
  rcases emit_cases p prim with herr | ⟨-, hlex, -⟩
  · rw [herr]
    exact size_setTok_lexerr _
  · exact Nat.le_of_eq (congrArg size hlex)

theorem size_emitScanned (p : Parser) (found : Option Primary) (x : Lexer) :
    (emitScanned p (found, x)).1.lexer.size ≤ x.size := by
  cases found with
  | some prim => exact size_emit { p with lexer := x } prim
  | none => exact size_setTok_lexerr x

/-- The routine returns, with no more left to read. -/
def Returns (parse : Parser → Option (Parser × Nat)) (p : Parser) : Prop :=
  ∃ p' r, parse p = some (p', r) ∧ p'.lexer.size ≤ p.lexer.size

section

variable {posixbuiltins : Bool}

theorem returns_chain {first rest : Parser → Option (Parser × Nat)} {tok : Tok} (op : Connective)
    (hopens : opens tok = true) {p : Parser} (hfirst : Returns first p)
    (hrest : ∀ q : Parser, q.lexer.size < p.lexer.size → Returns rest q) :
    Returns (fun p => do
      let pos := p.ecbuf.length
      let (p, r) ← first p
      let p := p.skipSep
      if p.tok = tok then
        let p := p.condlex.skipSep
        let (p, _) ← rest (p.ecispace pos)
        some (p.setAt pos (WCB_COND op.type (p.ecbuf.length - 1 - pos)), 1)
      else some (p, r)) p := by
  obtain ⟨q, r, hq, hsize⟩ := hfirst
  have hskip : q.skipSep.lexer.size ≤ p.lexer.size := Nat.le_trans (size_skipSep q.lexer) hsize
  by_cases htok : q.skipSep.tok = tok
  · have hlt : q.skipSep.condlex.skipSep.lexer.size < q.skipSep.lexer.size := by
      apply size_next_lt
      rw [← htok] at hopens
      exact hopens
    obtain ⟨q', r', hq', hsize'⟩ := hrest (q.skipSep.condlex.skipSep.ecispace p.ecbuf.length)
      (Nat.lt_of_lt_of_le hlt hskip)
    refine ⟨q'.setAt p.ecbuf.length (WCB_COND op.type (q'.ecbuf.length - 1 - p.ecbuf.length)), 1, ?_,
      Nat.le_trans hsize' (Nat.le_of_lt (Nat.lt_of_lt_of_le hlt hskip))⟩
    simp only [hq, htok, hq', Option.bind_eq_bind, Option.bind_some, if_true]
  · refine ⟨q.skipSep, r, ?_, hskip⟩
    simp only [hq, htok, Option.bind_eq_bind, Option.bind_some, if_false]

theorem returns_2 {fuel : Nat} {p : Parser}
    (ihtop : ∀ q : Parser, q.lexer.size < p.lexer.size → Returns (par_cond_top posixbuiltins fuel) q)
    (ih2 : ∀ q : Parser, q.lexer.size < p.lexer.size → Returns (par_cond_2 posixbuiltins fuel) q) :
    Returns (par_cond_2 posixbuiltins (fuel + 1)) p := by
  have hstart := size_start p.lexer
  rw [Returns, par_cond_2]
  simp only [start_eq, tok_mk]
  cases hcount : byCount posixbuiltins p.lexer with
  | some found =>
      obtain ⟨prim, x⟩ := found
      exact ⟨_, _, rfl, Nat.le_trans (size_emit { p with lexer := x } prim) (size_byCount hcount)⟩
  | none =>
      by_cases hbang : (start p.lexer).tok = .bang ∧ negates p.lexer.nTestargs (start p.lexer)
      · have hlt : (start p.lexer).condlex.size < (start p.lexer).size :=
          size_condlex_lt (by rw [hbang.1]; rfl)
        obtain ⟨q, r, hq, hsize⟩ := ih2
          (Parser.ecadd { p with lexer := (start p.lexer).condlex } (WCB_COND COND_NOT 0))
          (Nat.lt_of_lt_of_le hlt hstart)
        refine ⟨q, r, ?_, Nat.le_trans hsize (Nat.le_trans (Nat.le_of_lt hlt) hstart)⟩
        simp only [if_pos hbang]
        exact hq
      · simp only [if_neg hbang]
        by_cases hpar : (start p.lexer).tok = .inpar
        · have hlt : (start p.lexer).condlex.skipSep.size < (start p.lexer).size :=
            size_next_lt (by rw [hpar]; rfl)
          obtain ⟨q, r, hq, hsize⟩ := ihtop { p with lexer := (start p.lexer).condlex.skipSep }
            (Nat.lt_of_lt_of_le hlt hstart)
          have hle : q.skipSep.lexer.size ≤ p.lexer.size :=
            Nat.le_trans (size_skipSep _) (Nat.le_trans hsize
              (Nat.le_trans (Nat.le_of_lt hlt) hstart))
          simp only [if_pos hpar]
          by_cases hclose : q.skipSep.tok = .outpar
          · refine ⟨q.skipSep.condlex, r, ?_, Nat.le_trans (size_condlex_le _) hle⟩
            simp only [Parser.condlex, Parser.skipSep] at hq hclose ⊢
            simp [hq, hclose]
          · refine ⟨q.skipSep.YYERROR.1, 0, ?_, Nat.le_trans (size_setTok_lexerr _) hle⟩
            simp only [Parser.condlex, Parser.skipSep] at hq hclose ⊢
            simp [hq, hclose, Parser.YYERROR]
        · simp only [if_neg hpar]
          refine ⟨_, _, rfl, ?_⟩
          cases hscan : scanOperands p.lexer.nTestargs (start p.lexer) with
          | mk found x =>
              have hle := size_scanOperands p.lexer.nTestargs (start p.lexer)
              rw [hscan] at hle
              exact Nat.le_trans (size_emitScanned _ found x) (Nat.le_trans hle hstart)

theorem returns_all (fuel : Nat) (p : Parser) :
    (3 * p.lexer.size + 3 ≤ fuel → Returns (par_cond_top posixbuiltins fuel) p) ∧
    (3 * p.lexer.size + 2 ≤ fuel → Returns (par_cond_1 posixbuiltins fuel) p) ∧
    (3 * p.lexer.size + 1 ≤ fuel → Returns (par_cond_2 posixbuiltins fuel) p) := by
  induction fuel generalizing p with
  | zero =>
      refine ⟨?_, ?_, ?_⟩
      all_goals
        intro h
        omega
  | succ fuel ih =>
      refine ⟨?_, ?_, ?_⟩
      · intro h
        rw [Returns, par_cond_top]
        exact returns_chain .or (show opens .dbar = true from rfl) ((ih p).2.1 (by omega))
          (fun q hq => (ih q).1 (by omega))
      · intro h
        rw [Returns, par_cond_1]
        exact returns_chain .and (show opens .damper = true from rfl) ((ih p).2.2 (by omega))
          (fun q hq => (ih q).2.1 (by omega))
      · intro h
        exact returns_2 (fun q hq => (ih q).1 (by omega)) (fun q hq => (ih q).2.2 (by omega))

/-- `par_cond_top` with fuel for all that is left to read. -/
def par_cond (posixbuiltins : Bool) (p : Parser) : Option (Parser × Nat) :=
  par_cond_top posixbuiltins (3 * p.lexer.size + 3) p

theorem par_cond_returns (p : Parser) : Returns (par_cond posixbuiltins) p :=
  (returns_all (3 * p.lexer.size + 3) p).1 (Nat.le_refl _)

theorem emit_accepted (p : Parser) {prim : Primary} (h : prim.accepted) : (emit p prim).1.lexer = p.lexer := by
  cases prim with
  | double a b =>
      have value : emit p (.double a b) = _ := emit_double p a b h
      rw [value]
  | triple a b c =>
      cases hop : patternOp b with
      | some op => simp [emit, par_cond_triple, hop, Parser.ecnpat, Parser.ecstr, Parser.ecadd]
      | none =>
          have value : emit p (.triple a b c) = _ := emit_triple p a b c hop (by simpa [Primary.accepted, hop] using h)
          rw [value]
  | multi a l =>
      have dash : dashed a = true := h
      simp [emit, par_cond_multi, dash, foldl_ecstr, Parser.ecadd, Parser.ecstr]
  | order lt s1 s3 => rfl

/-- The routine of a level, by its name. -/
def routine (posixbuiltins : Bool) : Level → Nat → Parser → Option (Parser × Nat)
  | .disj => par_cond_top posixbuiltins
  | .conj => par_cond_1 posixbuiltins
  | .term => par_cond_2 posixbuiltins

/-- Where the grammar has an expression, the routine of its level comes to the end of it. -/
theorem lexer_of_parses {l : Level} {x y : Lexer} {c : Condition} (h : Parses posixbuiltins l x c y)
    {fuel : Nat} {p p' : Parser} {r : Nat} (hx : p.lexer = x) (hp : routine posixbuiltins l fuel p = some (p', r)) :
    p'.lexer = y := by
  induction h generalizing fuel p p' r with
  | counted hcount hacc =>
      subst hx
      cases fuel with
      | zero => cases hp
      | succ fuel =>
          rw [routine, par_cond_2] at hp
          simp only [hcount, Option.some.injEq] at hp
          obtain rfl : (emit _ _).1 = p' := congrArg Prod.fst hp
          exact emit_accepted _ hacc
  | not hcount htok hneg _ ih =>
      subst hx
      cases fuel with
      | zero => cases hp
      | succ fuel =>
          rw [routine, par_cond_2] at hp
          simp only [start_eq, tok_mk, hcount, htok, hneg, and_self, if_true] at hp
          exact ih rfl hp
  | paren hcount htok _ hclose ih =>
      subst hx
      cases fuel with
      | zero => cases hp
      | succ fuel =>
          have hbang : ¬ ((start p.lexer).tok = .bang ∧ negates p.lexer.nTestargs (start p.lexer)) := by
            rw [htok]
            exact fun h => absurd h.1 (by decide)
          rw [routine, par_cond_2] at hp
          simp only [start_eq, tok_mk, hcount] at hp
          rw [if_neg hbang, if_pos htok] at hp
          simp only [Option.bind_eq_bind, Option.bind_eq_some_iff] at hp
          obtain ⟨⟨q, r1⟩, hq, hp⟩ := hp
          have stop : q.lexer = _ := ih rfl hq
          have close : q.skipSep.tok = .outpar := by
            rw [← hclose, ← stop]
            rfl
          simp only [close, ne_eq, not_true, if_false] at hp
          cases hp
          rw [← stop]
          rfl
  | operands hcount hbang hpar hscan hacc =>
      subst hx
      cases fuel with
      | zero => cases hp
      | succ fuel =>
          rw [routine, par_cond_2] at hp
          simp only [start_eq, tok_mk, hcount, hbang, hpar, if_false, hscan, Option.some.injEq] at hp
          obtain rfl : (emit _ _).1 = p' := congrArg Prod.fst hp
          exact emit_accepted _ hacc
  | conj _ htok _ iha ihb =>
      subst hx
      cases fuel with
      | zero => cases hp
      | succ fuel =>
          rw [routine, par_cond_1] at hp
          simp only [Option.bind_eq_bind, Option.bind_eq_some_iff] at hp
          obtain ⟨⟨q, r1⟩, hq, hp⟩ := hp
          have stop : q.lexer = _ := iha rfl hq
          have tok : q.skipSep.tok = .damper := by
            rw [← htok, ← stop]
            rfl
          simp only [tok, if_true, Option.bind_eq_some_iff] at hp
          obtain ⟨⟨q2, r2⟩, hq2, hp⟩ := hp
          cases hp
          have rest : q2.lexer = _ :=
            ihb (p := q.skipSep.condlex.skipSep.ecispace p.ecbuf.length) (by rw [← stop]; rfl) hq2
          exact rest
  | conjEnd _ htok ih =>
      subst hx
      cases fuel with
      | zero => cases hp
      | succ fuel =>
          rw [routine, par_cond_1] at hp
          simp only [Option.bind_eq_bind, Option.bind_eq_some_iff] at hp
          obtain ⟨⟨q, r1⟩, hq, hp⟩ := hp
          have stop : q.lexer = _ := ih rfl hq
          have tok : ¬ q.skipSep.tok = .damper := by
            rw [← stop] at htok
            exact htok
          simp only [tok, if_false] at hp
          cases hp
          rw [← stop]
          rfl
  | disj _ htok _ iha ihb =>
      subst hx
      cases fuel with
      | zero => cases hp
      | succ fuel =>
          rw [routine, par_cond_top] at hp
          simp only [Option.bind_eq_bind, Option.bind_eq_some_iff] at hp
          obtain ⟨⟨q, r1⟩, hq, hp⟩ := hp
          have stop : q.lexer = _ := iha rfl hq
          have tok : q.skipSep.tok = .dbar := by
            rw [← htok, ← stop]
            rfl
          simp only [tok, if_true, Option.bind_eq_some_iff] at hp
          obtain ⟨⟨q2, r2⟩, hq2, hp⟩ := hp
          cases hp
          have rest : q2.lexer = _ :=
            ihb (p := q.skipSep.condlex.skipSep.ecispace p.ecbuf.length) (by rw [← stop]; rfl) hq2
          exact rest
  | disjEnd _ htok ih =>
      subst hx
      cases fuel with
      | zero => cases hp
      | succ fuel =>
          rw [routine, par_cond_top] at hp
          simp only [Option.bind_eq_bind, Option.bind_eq_some_iff] at hp
          obtain ⟨⟨q, r1⟩, hq, hp⟩ := hp
          have stop : q.lexer = _ := ih rfl hq
          have tok : ¬ q.skipSep.tok = .dbar := by
            rw [← stop] at htok
            exact htok
          simp only [tok, if_false] at hp
          cases hp
          rw [← stop]
          rfl

end

end Zshrs.Parse.Cond
