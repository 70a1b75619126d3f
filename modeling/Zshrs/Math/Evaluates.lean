import Zshrs.Math.Lexemes
import Zshrs.Math.NoevalFrame

namespace Zshrs.Math.Tree

open Shape Lib.Utf8

/-- The state in which a tree is parsed with a table. -/
structure Context (S : Shell) (begun : History) (names : List Text) (p : PrecTable) (st : St) : Prop where
  prec : st.prec = p
  c_precedences : st.c_precedences = isC p
  noeval : 0 ≤ st.noeval
  caches : Caches S begun names st

theorem Context.kept {S : Shell} {begun : History} {names : List Text} {p : PrecTable} {st st' : St}
    (h : Context S begun names p st) (k : Kept st st') (c : Caches S begun names st') :
    Context S begun names p st' where
  prec := k.prec.trans h.prec
  c_precedences := k.c_precedences.trans h.c_precedences
  noeval := k.noeval ▸ h.noeval
  caches := c

theorem Still.caches {S : Shell} {begun : History} {names : List Text} {st st' : St} (still : Still st st')
    (h : Caches S begun names st) : Caches S begun names st' :=
  h.congr still.hist still.cache still.force_float

theorem muted_kept {st st' : St} (k : Kept st st') : muted st' = muted st := by
  unfold muted
  rw [k.noeval]

/-- The parser has come to `k` with an operand on `base`, or has stopped at the first error. -/
inductive Comes (S : Shell) (begun : History) (names : List Text) (st : St) (base : List Mathvalue) (k : Lexeme)
    (ks : List Lexeme) : Run → St → Prop
  | done {st' : St} {h : History} {mv : Mathvalue} (here : At S st' k ks)
      (stack : st'.stack = mv :: base) (hist : st'.hist = h) (kept : Kept st st') (plain : Plain names mv)
      (caches : Caches S begun names st') : Comes S begun names st base k ks (h, .ok mv) st'
  | failed {st' : St} {h : History} {msg : String} (hist : st'.hist = h)
      (error : st'.error = some msg) : Comes S begun names st base k ks (h, .error msg) st'

variable {S : Shell} {room : Nat} {me : Matheval} {begun : History} {names : List Text}
  {lookup : History → Text → Mnumber} {st : St} {base : List Mathvalue} {k : Lexeme} {ks : List Lexeme}

theorem Comes.of_kept {st₁ st' : St} {r : Run} (hk : Kept st st₁) (h : Comes S begun names st₁ base k ks r st') :
    Comes S begun names st base k ks r st' := by
  cases h with
  | done here stack hist kept plain caches => exact .done here stack hist (hk.trans kept) plain caches
  | failed hist error => exact .failed hist error

/-- An operator is applied where its last operand ends. -/
theorem Lands.comes {st₁ st' : St} {r : Run} (h : Lands S begun names st₁ base r st') (here : At S st₁ k ks)
    (hk : Kept st st₁) : Comes S begun names st base k ks r st' := by
  cases h with
  | pushed steady hist error stack plain caches =>
    exact .done (here.of_steady steady error) stack hist (hk.trans (.of_steady steady)) plain caches
  | failed hist error => exact .failed hist error

/-- The loop goes on behind a tree, with fuel for what is left. -/
def Passes (S : Shell) (begun : History) (names : List Text) (room : Nat) (me : Matheval) (pc : Nat) (st : St) (base : List Mathvalue)
    (k : Lexeme) (ks : List Lexeme) (r : Run) (run : St) : Prop :=
  ∃ m st', ks.length ≤ m ∧ Comes S begun names st base k ks r st' ∧
    run = St.parseLoop S room me (m + 1) pc st'

/-- The loop parses the tree, and then goes on at the lexeme behind it. -/
def Parses (S : Shell) (begun : History) (names : List Text) (room : Nat) (me : Matheval)
    (lookup : History → Text → Mnumber) (e : Expr) : Prop :=
  ∀ (p : PrecTable) (pc : Nat) (st : St) (x : Lexeme) (xs : List Lexeme) (k : Lexeme)
    (ks : List Lexeme) (n : Nat), e.names ⊆ names → e.Fits S p pc → Context S begun names p st → e.lexemes = x :: xs →
    At S st x (xs ++ k :: ks) → (OP_TYPE k.tok).is_op_token = true →
    e.Stops S p (p.at k.tok) → (xs ++ k :: ks).length ≤ n →
    Passes S begun names room me pc st st.stack k ks (e.eval S lookup (muted st) st.hist)
      (St.parseLoop S room me (n + 1) pc st)

section Loop

theorem parseLoop_round {n pc : Nat} (h : st.prec.at st.mtok ≤ pc) (he : st.error = none) :
    St.parseLoop S room me (n + 1) pc st =
      St.parseLoop S room me n pc (St.round S room me (St.parseLoop S room me n) st) := by
  have hp : ¬ pc < st.prec.at st.mtok := by omega
  have hf : ¬ st.error.isSome = true := by simp [he]
  conv_lhs => unfold St.parseLoop
  rw [if_neg hp, if_neg hf]

theorem parseLoop_stop {n pc : Nat} (h : pc < st.prec.at st.mtok) :
    St.parseLoop S room me (n + 1) pc st = st := by
  unfold St.parseLoop
  exact if_pos h

theorem parseLoop_failed {n pc : Nat} (he : st.error ≠ none) :
    St.parseLoop S room me (n + 1) pc st = st := by
  unfold St.parseLoop
  split
  · rfl
  · exact if_pos (Option.isSome_iff_ne_none.mpr he)

theorem round_operator {loop : Nat → St → St} {what : Token} (hm : st.mtok = what)
    (hw : what ∉ [Token.NUM, .ID, .CID, .FUNC, .M_INPAR, .QUEST]) :
    St.round S room me loop st = St.operator S room me loop st what := by
  unfold St.round
  rw [hm]
  cases what <;> first | rfl | exact absurd (by decide) hw

/-- A call comes back from the lexeme behind the tree if that stands above its level. -/
theorem Comes.stops {st' : St} {r : Run} {p : PrecTable} {n pc : Nat}
    (h : Comes S begun names st base k ks r st') (hc : Context S begun names p st) (hlt : pc < p.at k.tok) :
    St.parseLoop S room me (n + 1) pc st' = st' := by
  cases h with
  | done here stack hist kept plain caches =>
    apply parseLoop_stop
    rw [(hc.kept kept caches).prec, here.tok]
    exact hlt
  | failed hist error =>
    apply parseLoop_failed
    simp [error]

/-- `mathparse` as a call, at a tree. -/
theorem Parses.enter {e : Expr} (he : Parses S begun names room me lookup e) {p : PrecTable} {pc n : Nat}
    (hnames : e.names ⊆ names) (hf : e.Fits S p pc) (hc : Context S begun names p st) (herr : st.error = none) (hu : st.unary = true)
    (hs : Spelled S st.toLex (e.lexemes ++ k :: ks)) (hk : (OP_TYPE k.tok).is_op_token = true)
    (hstop : e.Stops S p (p.at k.tok)) (hlt : pc < p.at k.tok)
    (hn : (e.lexemes ++ k :: ks).length ≤ n + 1) :
    Comes S begun names st st.stack k ks (e.eval S lookup (muted st) st.hist)
      (St.enter S (St.parseLoop S room me (n + 1)) pc st) := by
  obtain ⟨x, xs, hx, hop⟩ := hf.lexemes_cons
  rw [hx] at hs hn
  obtain ⟨here, still⟩ := nextToken_at hs (by rw [hop, hu]; rfl)
  have enter : St.enter S (St.parseLoop S room me (n + 1)) pc st =
      St.parseLoop S room me (n + 1) pc (st.nextToken S) := by
    have hmtok : (st.lexToken S).mtok = x.tok := by
      have tok := here.tok
      unfold St.nextToken at tok
      rwa [(checkunary_eq _).2.1] at tok
    have heoi : ¬ (pc = (st.lexToken S).prec.top_prec ∧ (st.lexToken S).mtok = .EOI) := by
      rintro ⟨-, heoi⟩
      rw [hmtok] at heoi
      rw [heoi] at hop
      exact absurd hop (by decide)
    unfold St.enter
    rw [if_neg (by simp [herr])]
    exact if_neg heoi
  rw [List.cons_append, List.length_cons] at hn
  obtain ⟨m, st', -, comes, run⟩ :=
    he p pc _ x xs k ks n hnames hf (hc.kept still.kept (still.caches hc.caches)) hx here hk hstop (by omega)
  rw [muted_kept still.kept, still.stack, still.hist] at comes
  have back := comes.of_kept still.kept
  rw [enter, run, back.stops hc hlt]
  exact back

end Loop

/-- The parse of a tree goes on in the loop with its next part. -/
theorem passes_round {p : PrecTable} {n pc : Nat} {r : Run} (hc : Context S begun names p st)
    (herr : st.error = none) (hp : p.at st.mtok ≤ pc) (hn : ks.length + 1 ≤ n)
    (h : ∀ m, n = m + 1 → Comes S begun names st base k ks r
      (St.round S room me (St.parseLoop S room me (m + 1)) st)) :
    Passes S begun names room me pc st base k ks r (St.parseLoop S room me (n + 1) pc st) := by
  obtain ⟨m, rfl⟩ : ∃ m, n = m + 1 := ⟨n - 1, by omega⟩
  refine ⟨m, _, by omega, h m rfl, ?_⟩
  apply parseLoop_round _ herr
  rw [hc.prec]
  exact hp

section Leaves

theorem leaf_comes (hc : Caches S begun names st) {x : Lexeme} {mv : Mathvalue} (here : At S st x (k :: ks))
    (hx : (OP_TYPE x.tok).OP_OPF = true) (hk : (OP_TYPE k.tok).is_op_token = true)
    (hp : Plain names mv) :
    Comes S begun names st st.stack k ks (st.hist, .ok mv) ((st.push mv.val mv.lval).nextToken S) := by
  have rest : Spelled S (st.push mv.val mv.lval).toLex (k :: ks) := here.rest
  have unary : (st.push mv.val mv.lval).unary = false := here.unary.trans (by rw [hx]; rfl)
  obtain ⟨there, still⟩ := nextToken_at rest (by rw [hk, unary]; rfl)
  have pushed : Caches S begun names (st.push mv.val mv.lval) := hc.congr rfl rfl rfl
  exact .done there still.stack still.hist ⟨still.kept.noeval, still.kept.prec,
    still.kept.c_precedences⟩ hp (still.caches pushed)

theorem parses_num (val : Mnumber) : Parses S begun names room me lookup (.num val) := by
  intro p pc st x xs k ks n hnames hf hc hx here hk hstop hn
  cases hx
  have seen : st.yyval = val := here.seen
  apply passes_round hc here.error _ hn
  · intro m _
    have step := leaf_comes hc.caches here rfl hk (.none val)
    unfold St.round
    rw [here.tok]
    dsimp only [Lexeme.tok]
    rw [seen]
    exact step
  · rw [here.tok]
    cases p <;> exact Nat.zero_le pc

theorem pushId_muted (st : St) :
    st.pushId = st.push (if muted st then .integer 0 else .unset) (some st.yylval) := by
  unfold St.pushId
  cases hm : muted st with
  | true =>
    have raised : st.noeval > 0 := of_decide_eq_true hm
    rw [if_pos raised]
    rfl
  | false =>
    have lowered : ¬ st.noeval > 0 := of_decide_eq_false hm
    rw [if_neg lowered]
    rfl

theorem parses_var (name : Text) : Parses S begun names room me lookup (.var name) := by
  intro p pc st x xs k ks n hnames hf hc hx here hk hstop hn
  cases hx
  have seen : st.yylval = name := here.seen
  apply passes_round hc here.error _ hn
  · intro m _
    have named : name ∈ names := hnames List.mem_cons_self
    have step := leaf_comes hc.caches here rfl hk (.some ⟨hf, named⟩ (if muted st then .integer 0 else .unset))
    unfold St.round
    rw [here.tok]
    dsimp only [Lexeme.tok]
    rw [pushId_muted, seen]
    exact step
  · rw [here.tok]
    cases p <;> exact Nat.zero_le pc

end Leaves

section Parts

variable {k₁ : Lexeme} {ks₁ : List Lexeme} {base₁ : List Mathvalue} {r : Run}
  {f : Mathvalue → History → Run}

/-- Behind a part of a tree the rest of it follows, unless the part has failed. -/
theorem Comes.andThen {st₀ st₁ st' : St} (h : Comes S begun names st₀ base₁ k₁ ks₁ r st₁)
    (hfail : ∀ msg, st₁.error = some msg → st'.error = some msg ∧ st'.hist = st₁.hist)
    (hdone : ∀ mv, At S st₁ k₁ ks₁ → st₁.stack = mv :: base₁ → Kept st₀ st₁ → Plain names mv →
      Caches S begun names st₁ → Comes S begun names st base k ks (f mv st₁.hist) st') :
    Comes S begun names st base k ks (andThen r f) st' := by
  cases h with
  | done here stack hist kept plain caches =>
    subst hist
    exact hdone _ here stack kept plain caches
  | failed hist error =>
    obtain ⟨same, still⟩ := hfail _ error
    exact .failed (still.trans hist) same

theorem Passes.andThen {pc : Nat} {run : St} (h : Passes S begun names room me pc st base₁ k₁ ks₁ r run)
    (hle : ks.length ≤ ks₁.length)
    (hdone : ∀ m st₁ mv, ks₁.length ≤ m → At S st₁ k₁ ks₁ → st₁.stack = mv :: base₁ →
      Kept st st₁ → Plain names mv → Caches S begun names st₁ → Passes S begun names room me pc st base k ks (f mv st₁.hist)
        (St.parseLoop S room me (m + 1) pc st₁)) :
    Passes S begun names room me pc st base k ks (andThen r f) run := by
  obtain ⟨m, st₁, hm, comes, rfl⟩ := h
  cases comes with
  | done here stack hist kept plain caches =>
    subst hist
    exact hdone m st₁ _ hm here stack kept plain caches
  | failed hist error => exact ⟨m, st₁, Nat.le_trans hle hm, .failed hist error, rfl⟩

theorem Passes.of_kept {st₁ run : St} {pc : Nat} (hk : Kept st st₁)
    (h : Passes S begun names room me pc st₁ base k ks r run) : Passes S begun names room me pc st base k ks r run := by
  obtain ⟨m, st', hm, comes, hrun⟩ := h
  exact ⟨m, st', hm, comes.of_kept hk, hrun⟩

theorem At.noeval_set {x : Lexeme} {xs : List Lexeme} (h : At S st x xs) (n : Int) :
    At S { st with noeval := n } x xs :=
  ⟨h.tok, h.seen, h.unary, h.rest, h.error⟩

/-- An operator on its last operand, with `noeval` set back. -/
theorem Comes.op {st₀ st₁ : St} {what : Token} {n : Int} (h : Comes S begun names st₀ base₁ k ks r st₁)
    (hk : Kept st₀ st₁ → Kept st { st₁ with noeval := n })
    (hop : ∀ mv, st₁.error = none → st₁.stack = mv :: base₁ → Plain names mv →
      Caches S begun names ({ st₁ with noeval := n } : St) → Lands S begun names { st₁ with noeval := n } base (f mv st₁.hist)
        (({ st₁ with noeval := n } : St).op S room me what)) :
    Comes S begun names st base k ks (Tree.andThen r f) (({ st₁ with noeval := n } : St).op S room me what) := by
  apply h.andThen
  · intro msg error
    have failed : ({ st₁ with noeval := n } : St).error ≠ none := by simp [error]
    rw [op_failed S room me failed]
    exact ⟨error, rfl⟩
  · intro mv here stack kept plain caches
    exact (hop mv here.error stack plain (caches.congr rfl rfl rfl)).comes (here.noeval_set n) (hk kept)

theorem operator_eq {loop : Nat → St → St} {what : Token} {st₁ : St}
    (hs : st.stack ≠ [] ∨ (OP_TYPE what).is_binary = false)
    (hb : (if (OP_TYPE what).assoc = .BOOL then st.bop S room what else st) = st₁) :
    St.operator S room me loop st what =
      ({ St.enter S loop (st₁.prec.rightOf what) st₁ with noeval := st.noeval } : St).op S room me
        what := by
  have present : ¬ (st.stack = [] ∧ (OP_TYPE what).is_binary = true) := by
    rintro ⟨hnil, hbin⟩
    rcases hs with hs | hs
    · exact hs hnil
    · rw [hs] at hbin
      exact absurd hbin (by decide)
  subst hb
  unfold St.operator
  exact if_neg present

end Parts

theorem enter_below {loop : Nat → St → St} {pc : Nat} (he : st.error = none)
    (hlt : pc < st.prec.top_prec) :
    St.enter S loop pc st = loop pc (st.nextToken S) := by
  have below : ¬ (pc = (st.lexToken S).prec.top_prec ∧ (st.lexToken S).mtok = .EOI) := by
    rintro ⟨heq, -⟩
    have same : (st.lexToken S).prec = st.prec := rfl
    rw [same] at heq
    omega
  unfold St.enter
  rw [if_neg (by simp [he])]
  exact if_neg below

section Operators

variable {e : Expr} {what : Token}

theorem stops_of_isAtom {p : PrecTable} {level : Nat} (h : e.isAtom = true) :
    e.Stops S p level := by
  cases e with
  | num val | var name | paren e => trivial
  | before what e | behind what e | binary what l r | ternary c yes no => cases h

theorem parses_paren (he : Parses S begun names room me lookup e) : Parses S begun names room me lookup (.paren e) := by
  intro p pc st x xs k ks n hnames hf hc hx here hk hstop hn
  cases hx
  simp only [List.append_assoc, List.cons_append, List.nil_append] at here hn
  have closes : 19 ≤ p.at .M_OUTPAR := by cases p <;> decide
  have above : p.top_prec < p.at .M_OUTPAR := by cases p <;> decide
  apply passes_round hc here.error
  · rw [here.tok]
    exact hf.1
  · rw [List.length_append, List.length_cons, List.length_cons] at hn
    omega
  · rintro m rfl
    have inside := he.enter hnames hf.2 hc here.error here.unary here.rest rfl (hf.2.stops closes) above hn
    unfold St.round
    rw [here.tok]
    dsimp only [Lexeme.tok]
    unfold St.paren
    rw [hc.prec]
    generalize St.enter S (St.parseLoop S room me (m + 1)) p.top_prec st = st₁ at inside ⊢
    dsimp only
    simp only [Expr.eval]
    generalize e.eval S lookup (muted st) st.hist = r at inside ⊢
    cases inside with
    | done there stack hist kept plain caches =>
      obtain ⟨next, still⟩ := nextToken_at there.rest (by rw [hk, there.unary]; rfl)
      rw [if_neg (by simp [there.tok, Lexeme.tok])]
      exact .done next (still.stack.trans stack) (still.hist.trans hist) (kept.trans still.kept) plain
        (still.caches caches)
    | failed hist error =>
      refine .failed ?_ ?_
      · split
        · exact hist
        · exact (hist_nextToken S st₁).trans hist
      · split
        · simp [St.m_error_set, error]
        · exact sticks_nextToken S error

/-- A sign in front of its operand. -/
theorem parses_before (hr : Readable S room begun names lookup) (he : Parses S begun names room me lookup e) :
    Parses S begun names room me lookup (.before what e) := by
  intro p pc st x xs k ks n hnames hf hc hx here hk hstop hn
  cases hx
  obtain ⟨hw, hp, hfe⟩ := hf
  have plain : (OP_TYPE what).is_binary = false ∧ (OP_TYPE what).assoc ≠ .BOOL ∧
      (OP_TYPE what).OP_OPF = false ∧ what ∉ [Token.NUM, .ID, .CID, .FUNC, .M_INPAR, .QUEST] := by
    revert hw
    cases what <;> decide
  apply passes_round hc here.error
  · rw [here.tok]
    exact hp
  · rw [List.length_append, List.length_cons] at hn
    omega
  · rintro m rfl
    have unary : st.unary = true := by
      rw [here.unary]
      simp [Lexeme.tok, plain.2.2.1]
    have right := he.enter hnames hfe hc here.error unary here.rest hk hstop.2 hstop.1 hn
    have tok : st.mtok = what := here.tok
    rw [round_operator tok plain.2.2.2, operator_eq (.inr plain.1) (if_neg plain.2.1), hc.prec]
    apply right.op
    · intro kept
      exact ⟨rfl, kept.prec, kept.c_precedences⟩
    · intro mv error stack hplain caches
      apply op_unary me hr caches
      · exact stack
      · exact error
      · exact hc.noeval
      · exact hplain
      · exact .inl hw

/-- A postfix operator behind an operand. Its call of the parser finds the next token. -/
theorem parses_behind (hr : Readable S room begun names lookup) (he : Parses S begun names room me lookup e) :
    Parses S begun names room me lookup (.behind what e) := by
  intro p pc st x xs k ks n hnames hf hc hx here hk hstop hn
  obtain ⟨hw, hp, hatom, hfe⟩ := hf
  obtain ⟨y, ys, hy, -⟩ := hfe.lexemes_cons
  have split : y = x ∧ ys ++ [.op what] = xs := by
    simpa [Expr.lexemes, hy] using hx
  obtain ⟨rfl, rfl⟩ := split
  have plain : (OP_TYPE what).is_binary = false ∧ (OP_TYPE what).assoc ≠ .BOOL ∧
      (OP_TYPE what).OP_OPF = true ∧ (OP_TYPE what).is_op_token = true ∧
      what ∉ [Token.NUM, .ID, .CID, .FUNC, .M_INPAR, .QUEST] := by
    revert hw
    cases what <;> decide
  have low : p.rightOf what < p.top_prec := by
    revert hw
    cases p <;> cases what <;> decide
  simp only [List.append_assoc, List.cons_append, List.nil_append] at here hn
  have operand := he p pc st y ys (.op what) (k :: ks) n hnames hfe hc hy here plain.2.2.2.1
    (stops_of_isAtom hatom) hn
  apply operand.andThen
  · simp
  · intro m st₁ mv hm there stack kept hplain caches
    have context := hc.kept kept caches
    apply Passes.of_kept kept
    apply passes_round context there.error
    · rw [there.tok]
      exact hp
    · exact hm
    · rintro m rfl
      have tok : st₁.mtok = what := there.tok
      obtain ⟨next, still⟩ := nextToken_at there.rest (by rw [hk, there.unary]; simp [Lexeme.tok, plain])
      have back : St.enter S (St.parseLoop S room me (m + 1)) (p.rightOf what) st₁ =
          st₁.nextToken S := by
        rw [enter_below there.error (context.prec.symm ▸ low)]
        apply parseLoop_stop
        rw [(context.kept still.kept (still.caches caches)).prec, next.tok]
        exact hstop
      rw [round_operator tok plain.2.2.2.2, operator_eq (.inr plain.1) (if_neg plain.2.1),
        context.prec, back]
      have op : Lands S begun names { st₁.nextToken S with noeval := st₁.noeval } st.stack
          (applyUnary S lookup (muted st₁) (st₁.nextToken S).hist what mv)
          (({ st₁.nextToken S with noeval := st₁.noeval } : St).op S room me what) := by
        have behind : Caches S begun names { st₁.nextToken S with noeval := st₁.noeval } :=
          (still.caches caches).congr rfl rfl rfl
        apply op_unary me hr behind
        · exact still.stack.trans stack
        · exact next.error
        · exact context.noeval
        · exact hplain
        · exact .inr hw
      have same : Kept st₁ { st₁.nextToken S with noeval := st₁.noeval } :=
        ⟨rfl, still.kept.prec, still.kept.c_precedences⟩
      rw [← muted_kept kept, ← still.hist]
      exact op.comes (next.noeval_set st₁.noeval) same

/-- A short circuit raises `noeval` where its left side decides. -/
theorem bop_cuts (hr : Readable S room begun names lookup) (hc : Caches S begun names st) {a : Mathvalue}
    (hs : st.stack = a :: base) (hp : Plain names a) :
    (if (OP_TYPE what).assoc = .BOOL then st.bop S room what else st) =
      { st with
        noeval := if cuts S what (valueOf lookup st.hist a) then st.noeval + 1 else st.noeval } := by
  by_cases hb : (OP_TYPE what).assoc = .BOOL
  · rw [if_pos hb]
    unfold St.bop
    split
    · next heq => exact absurd (hs.symm.trans heq) (by simp)
    · next mv stack heq =>
      obtain ⟨rfl, -⟩ := List.cons.inj (hs.symm.trans heq)
      rw [value_of_eq hr hc hp]
      dsimp only
      cases what
      case DAND | DANDEQ | DOR | DOREQ =>
        by_cases hz : asInt S (valueOf lookup st.hist a) = 0
        · simp [cuts, hz]
        · simp [cuts, hz]
      all_goals exact absurd hb (by decide)
  · rw [if_neg hb]
    cases what
    case DAND | DANDEQ | DOR | DOREQ => exact absurd rfl hb
    all_goals rfl

theorem muted_cuts (hn : 0 ≤ st.noeval) (c : Bool) :
    muted { st with noeval := if c then st.noeval + 1 else st.noeval } = (muted st || c) := by
  cases c with
  | true =>
    have raised : 0 < st.noeval + 1 := by omega
    simp [muted, raised]
  | false => simp [muted]

/-- A binary operator behind its left operand. -/
theorem binary_comes (hr : Readable S room begun names lookup) {r : Expr} (ih : Parses S begun names room me lookup r)
    {p : PrecTable} {n : Nat} (hnames : r.names ⊆ names) (hf : r.Fits S p (p.rightOf what)) (hc : Context S begun names p st)
    (here : At S st (.op what) (r.lexemes ++ k :: ks)) {a : Mathvalue}
    (hs : st.stack = a :: base) (hp : Plain names a) (hb : (OP_TYPE what).is_binary = true)
    (hk : (OP_TYPE k.tok).is_op_token = true) (hstop : r.Stops S p (p.at k.tok))
    (hlt : p.rightOf what < p.at k.tok) (hn : (r.lexemes ++ k :: ks).length ≤ n + 1) :
    Comes S begun names st base k ks
      (andThen (r.eval S lookup (muted st || cuts S what (valueOf lookup st.hist a)) st.hist)
        fun b h => applyBinary S lookup (muted st) h what a b)
      (St.operator S room me (St.parseLoop S room me (n + 1)) st what) := by
  have present : st.stack ≠ [] := by simp [hs]
  have unary : st.unary = true := by
    rw [here.unary]
    revert hb
    cases what <;> decide
  have level := hc.noeval
  have silent := muted_cuts level (cuts S what (valueOf lookup st.hist a))
  obtain ⟨st₁, hst⟩ : ∃ st₁ : St, st₁ = { st with
      noeval := if cuts S what (valueOf lookup st.hist a) then st.noeval + 1 else st.noeval } :=
    ⟨_, rfl⟩
  have context : Context S begun names p st₁ := by
    rw [hst]
    refine ⟨hc.prec, hc.c_precedences, ?_, hc.caches.congr rfl rfl rfl⟩
    dsimp only
    split <;> omega
  have stack : st₁.stack = a :: base := by rw [hst, ← hs]
  have right := ih.enter hnames hf context (hst ▸ here.error) (hst ▸ unary) (hst ▸ here.rest) hk hstop hlt hn
  have hist : st₁.hist = st.hist := by rw [hst]
  rw [operator_eq (.inl present) (bop_cuts hr hc.caches hs hp), ← hst, context.prec, ← silent, ← hst, ← hist]
  rw [stack] at right
  apply right.op
  · intro kept
    refine ⟨rfl, ?_, ?_⟩
    · exact kept.prec.trans (context.prec.trans hc.prec.symm)
    · exact kept.c_precedences.trans (context.c_precedences.trans hc.c_precedences.symm)
  · intro b error stack hpb caches
    apply op_binary me hr caches
    · exact stack
    · exact error
    · exact level
    · exact hp
    · exact hpb
    · exact hb

theorem parses_binary (hr : Readable S room begun names lookup) {l r : Expr} (ihl : Parses S begun names room me lookup l)
    (ihr : Parses S begun names room me lookup r) : Parses S begun names room me lookup (.binary what l r) := by
  intro p pc st x xs k ks n hnames hf hc hx here hk hstop hn
  obtain ⟨hb, hp, hfl, hl, hfr⟩ := hf
  obtain ⟨y, ys, hy, -⟩ := hfl.lexemes_cons
  have split : y = x ∧ ys ++ .op what :: r.lexemes = xs := by
    simpa [Expr.lexemes, hy] using hx
  obtain ⟨rfl, rfl⟩ := split
  have plain : (OP_TYPE what).is_op_token = true ∧
      what ∉ [Token.NUM, .ID, .CID, .FUNC, .M_INPAR, .QUEST] := by
    revert hb
    cases what <;> decide
  simp only [List.append_assoc, List.cons_append] at here hn
  obtain ⟨hnl, hnr⟩ := List.append_subset.mp hnames
  have left := ihl p pc st y ys (.op what) (r.lexemes ++ k :: ks) n hnl hfl hc hy here plain.1 hl hn
  apply left.andThen
  · simp only [List.length_append, List.length_cons]
    omega
  · intro m st₁ mv hm there stack kept hplain caches
    apply Passes.of_kept kept
    apply passes_round (hc.kept kept caches) there.error
    · rw [there.tok]
      exact hp
    · rw [List.length_append, List.length_cons] at hm
      omega
    · rintro m rfl
      have tok : st₁.mtok = what := there.tok
      rw [round_operator tok plain.2, ← muted_kept kept]
      exact binary_comes hr ihr hnr hfr (hc.kept kept caches) there stack hplain hb hk hstop.2 hstop.1 hm

end Operators

section Ternary

variable {yes no : Expr} {p : PrecTable} {n : Nat}

theorem Context.raise (hc : Context S begun names p st) (b : Bool) : Context S begun names p (st.raise b) := by
  cases b with
  | false => exact hc
  | true =>
    have level := hc.noeval
    refine ⟨hc.prec, hc.c_precedences, ?_, hc.caches.congr rfl rfl rfl⟩
    have raised : (st.raise true).noeval = st.noeval + 1 := rfl
    omega

theorem muted_raise (hn : 0 ≤ st.noeval) (b : Bool) : muted (st.raise b) = (muted st || b) := by
  cases b with
  | false => simp [St.raise]
  | true =>
    have raised : 0 < st.noeval + 1 := by omega
    simp [muted, St.raise, raised]

/-- A side of a ternary, with `noeval` raised for it and lowered again. -/
theorem Comes.lower {b : Bool} {r : Run} {st₁ : St} (h : Comes S begun names (st.raise b) base k ks r st₁) :
    Comes S begun names st base k ks r (st₁.lower b) := by
  obtain ⟨n, raised⟩ := Shape.raise_eq st b
  cases h with
  | done here stack hist kept plain caches =>
    rw [lower_raise kept.noeval]
    refine .done (here.noeval_set _) stack hist ⟨rfl, ?_, ?_⟩ plain (caches.congr rfl rfl rfl)
    · rw [kept.prec, raised]
    · rw [kept.c_precedences, raised]
  | failed hist error =>
    refine .failed ?_ ?_
    · cases b <;> exact hist
    · cases b <;> exact error

theorem At.prec_set {x : Lexeme} {xs : List Lexeme} (h : At S st x xs) (p : PrecTable) :
    At S { st with prec := p } x xs :=
  ⟨h.tok, h.seen, h.unary, h.rest, h.error⟩

/-- The table of the middle operand is put back behind it. -/
theorem Comes.prec_back {r : Run} {st₁ : St} {q : PrecTable}
    (h : Comes S begun names { st with prec := q } base k ks r st₁) :
    Comes S begun names st base k ks r { st₁ with prec := st.prec } := by
  cases h with
  | done here stack hist kept plain caches =>
    exact .done (here.prec_set _) stack hist ⟨kept.noeval, rfl, kept.c_precedences⟩ plain
      (caches.congr rfl rfl rfl)
  | failed hist error => exact .failed hist error

theorem middle_comes (ih : Parses S begun names room me lookup yes) (hnames : yes.names ⊆ names)
    (hf : yes.Fits S (middleTable S p) (middleLevel S p)) (hc : Context S begun names p st)
    (he : st.error = none) (hu : st.unary = true)
    (hs : Spelled S st.toLex (yes.lexemes ++ .op .COLON :: ks))
    (hstop : yes.Stops S (middleTable S p) ((middleTable S p).at .COLON))
    (hn : (yes.lexemes ++ .op .COLON :: ks).length ≤ n + 1) :
    Comes S begun names st st.stack (.op .COLON) ks (yes.eval S lookup (muted st) st.hist)
      (St.questMiddle S (St.parseLoop S room me (n + 1)) st) := by
  have level : middleLevel S p < (middleTable S p).at .COLON := by
    unfold middleLevel middleTable
    split
    · split <;> decide
    · cases p <;> decide
  unfold St.questMiddle
  by_cases hb : S.bash_mode ∨ S.posix_faithful
  · rw [if_pos hb]
    have table : (if st.c_precedences then PrecTable.C_PREC_TERNARY_MIDDLE
        else .Z_PREC_TERNARY_MIDDLE) = middleTable S p := by
      unfold middleTable
      rw [if_pos hb, hc.c_precedences]
    have there : middleLevel S p = (middleTable S p).at .EQ := if_pos hb
    have context : Context S begun names (middleTable S p) { st with prec := middleTable S p } := by
      refine ⟨rfl, ?_, hc.noeval, hc.caches.congr rfl rfl rfl⟩
      unfold middleTable
      rw [if_pos hb]
      cases hi : isC p with
      | true => exact hc.c_precedences.trans hi
      | false => exact hc.c_precedences.trans hi
    have inside := ih.enter hnames hf context he hu hs rfl hstop level hn
    dsimp only
    rw [table, ← there]
    exact inside.prec_back
  · rw [if_neg hb]
    have table : middleTable S p = p := if_neg hb
    have there : middleLevel S p = p.at .COLON - 1 := if_neg hb
    rw [table, there] at hf level
    rw [table] at hstop
    rw [hc.prec]
    exact ih.enter hnames hf hc he hu hs rfl hstop (there ▸ level) hn

theorem last_comes (ih : Parses S begun names room me lookup no) (hnames : no.names ⊆ names) (hf : no.Fits S p (lastLevel S p))
    (hc : Context S begun names p st) (he : st.error = none) (hu : st.unary = true)
    (hs : Spelled S st.toLex (no.lexemes ++ k :: ks)) (hk : (OP_TYPE k.tok).is_op_token = true)
    (hstop : no.Stops S p (p.at k.tok)) (hlt : lastLevel S p < p.at k.tok)
    (hn : (no.lexemes ++ k :: ks).length ≤ n + 1) :
    Comes S begun names st st.stack k ks (no.eval S lookup (muted st) st.hist)
      (St.questElse S (St.parseLoop S room me (n + 1)) st) := by
  unfold St.questElse
  rw [hc.prec]
  exact ih.enter hnames hf hc he hu hs hk hstop hlt hn

/-- A ternary behind its condition. -/
theorem quest_comes (hr : Readable S room begun names lookup) (ihy : Parses S begun names room me lookup yes)
    (ihn : Parses S begun names room me lookup no) (hny : yes.names ⊆ names) (hnn : no.names ⊆ names) (hfy : yes.Fits S (middleTable S p) (middleLevel S p))
    (hy : yes.Stops S (middleTable S p) ((middleTable S p).at .COLON))
    (hfn : no.Fits S p (lastLevel S p)) (hc : Context S begun names p st)
    (here : At S st (.op .QUEST) (yes.lexemes ++ .op .COLON :: (no.lexemes ++ k :: ks)))
    {c : Mathvalue} (hs : st.stack = c :: base) (hp : Plain names c) (hk : (OP_TYPE k.tok).is_op_token = true)
    (hstop : no.Stops S p (p.at k.tok)) (hlt : lastLevel S p < p.at k.tok)
    (hn : (yes.lexemes ++ .op .COLON :: (no.lexemes ++ k :: ks)).length ≤ n + 1) :
    Comes S begun names st base k ks
      (andThen (yes.eval S lookup (muted st || isZero (get lookup st.hist c)) st.hist) fun t h =>
        andThen (no.eval S lookup (muted st || !isZero (get lookup st.hist c)) h) fun f h =>
          (h, .ok ⟨if isZero (get lookup h c) then valueOf lookup h f else get lookup h t, none⟩))
      (St.quest S room me (St.parseLoop S room me (n + 1)) st) := by
  unfold St.quest
  split
  · next heq => exact absurd (hs.symm.trans heq) (by simp)
  · next mv stack heq =>
    obtain ⟨rfl, -⟩ := List.cons.inj (hs.symm.trans heq)
    rw [get_value_eq hr hc.caches hp]
    dsimp only
    rw [Bool.not_not]
    generalize isZero (get lookup st.hist c) = zero
    have middle := middle_comes ihy hny hfy (hc.raise zero) (by cases zero <;> exact here.error) (by cases zero <;> exact here.unary)
      (by cases zero <;> exact here.rest) hy hn
    have hist : (st.raise zero).hist = st.hist := by cases zero <;> rfl
    rw [muted_raise hc.noeval, hist, stack_raise, hs] at middle
    apply middle.lower.andThen
    · intro msg error
      split
      · simp [St.m_error_set, error]
      · rw [questElse_failed S (by simp [error]), op_failed S room me (by simp [error])]
        exact ⟨error, rfl⟩
    · intro t there stack kept hpt caches
      rw [if_neg (by simp [there.tok, Lexeme.tok])]
      generalize (St.questMiddle S (St.parseLoop S room me (n + 1)) (st.raise zero)).lower zero = st₁
        at there stack kept caches ⊢
      have context := hc.kept kept caches
      have fuel : (no.lexemes ++ k :: ks).length ≤ n + 1 := by
        rw [List.length_append, List.length_cons] at hn
        omega
      have last := last_comes (n := n) ihn hnn hfn (context.raise !zero) (by cases zero <;> exact there.error) (by cases zero <;> exact there.unary)
        (by cases zero <;> exact there.rest) hk hstop hlt fuel
      have hist₁ : (st₁.raise !zero).hist = st₁.hist := by cases zero <;> rfl
      rw [muted_raise context.noeval, hist₁, stack_raise, stack, muted_kept kept] at last
      apply last.lower.andThen
      · intro msg error
        rw [op_failed S room me (by simp [error])]
        exact ⟨error, rfl⟩
      · intro f behind stack₂ kept₂ hpf caches₂
        have op := op_quest me hr caches₂ stack₂ behind.error hpf hpt hp
        exact op.comes behind (kept.trans kept₂)

theorem parses_ternary (hr : Readable S room begun names lookup) {c : Expr} (ihc : Parses S begun names room me lookup c)
    (ihy : Parses S begun names room me lookup yes) (ihn : Parses S begun names room me lookup no) :
    Parses S begun names room me lookup (.ternary c yes no) := by
  intro p pc st x xs k ks n hnames hf hc hx here hk hstop hn
  obtain ⟨hp, hfc, hsc, hfy, hsy, hfn⟩ := hf
  obtain ⟨y, ys, hy, -⟩ := hfc.lexemes_cons
  have split : y = x ∧ ys ++ .op .QUEST :: (yes.lexemes ++ .op .COLON :: no.lexemes) = xs := by
    simpa [Expr.lexemes, hy] using hx
  obtain ⟨rfl, rfl⟩ := split
  simp only [List.append_assoc, List.cons_append] at here hn
  obtain ⟨hnc, hn₁⟩ := List.append_subset.mp hnames
  obtain ⟨hny, hnn⟩ := List.append_subset.mp hn₁
  have condition := ihc p pc st y ys (.op .QUEST)
    (yes.lexemes ++ .op .COLON :: (no.lexemes ++ k :: ks)) n hnc hfc hc hy here rfl hsc hn
  apply condition.andThen
  · simp only [List.length_append, List.length_cons]
    omega
  · intro m st₁ mv hm there stack kept hplain caches
    apply Passes.of_kept kept
    apply passes_round (hc.kept kept caches) there.error
    · rw [there.tok]
      exact hp
    · simp only [List.length_append, List.length_cons] at hm
      omega
    · rintro m rfl
      have tok : st₁.mtok = .QUEST := there.tok
      have quest := quest_comes hr ihy ihn hny hnn hfy hsy hfn (hc.kept kept caches) there stack hplain hk hstop.2
        hstop.1 hm
      unfold St.round
      rw [tok, ← muted_kept kept]
      exact quest

end Ternary

/-- Every tree is parsed as it stands. -/
theorem parses (hr : Readable S room begun names lookup) (e : Expr) : Parses S begun names room me lookup e := by
  induction e with
  | num val => exact parses_num val
  | var name => exact parses_var name
  | before what e ih => exact parses_before hr ih
  | behind what e ih => exact parses_behind hr ih
  | binary what l r ihl ihr => exact parses_binary hr ihl ihr
  | ternary c yes no ihc ihy ihn => exact parses_ternary hr ihc ihy ihn
  | paren e ih => exact parses_paren ih

section Evaluation

/-- The lexer where an evaluation of `s` starts. -/
def starts (S : Shell) (before : St) (s : Text) : St := ((before.new s).syncOptions S).skipBlanks

/-- `s` spells the tree, with a character for each lexeme at least. -/
structure Spells (S : Shell) (before : St) (s : Text) (e : Expr) : Prop where
  lexemes : Spelled S (starts S before s).toLex (e.lexemes ++ [.op .EOI])
  length : e.lexemes.length ≤ s.length

def table (S : Shell) (h : History) : PrecTable := if S.cprecedences h then .C_PREC else .Z_PREC

/-- There is a character to read where a lexeme starts. -/
theorem Spelled.within {lx : Lex} {x : Lexeme} {xs : List Lexeme} (h : Spelled S lx (x :: xs))
    (hx : x.tok ≠ .EOI) : lx.pos < lx.input.length := by
  obtain ⟨lx', reads, -⟩ := h
  by_contra hpos
  have none : lx.peek = none := by simpa [Lex.peek] using Nat.le_of_not_lt hpos
  have eoi := reads []
  unfold zzlex zzlexLoop at eoi
  have peek : ({ lx with yyval := .integer 0 } : Lex).peek = Option.none := none
  rw [peek] at eoi
  exact hx (congrArg Prod.fst eoi).symm

theorem starts_caches (before : St) (s : Text) : Caches S before.hist names (starts S before s) := by
  refine ⟨⟨[], fun _ h => absurd h List.not_mem_nil, ?_⟩, ?_, rfl⟩
  · exact (List.append_nil before.hist).symm
  · have same : (starts S before s).hist.drop before.hist.length = [] := List.drop_length
    rw [same]
    rfl

theorem starts_context (before : St) (s : Text) :
    Context S before.hist names (table S before.hist) (starts S before s) := by
  refine ⟨rfl, ?_, Int.le_refl 0, starts_caches before s⟩
  have options : (starts S before s).c_precedences = S.cprecedences before.hist := rfl
  rw [options]
  unfold table
  cases S.cprecedences before.hist with
  | true => rfl
  | false => rfl

/-- What an evaluation comes to: the effects, and the value or the first error. -/
def comesTo (r : St × Except String Mnumber) : History × Except String Mnumber := (r.1.hist, r.2)

theorem result_eq (hr : Readable S room begun names lookup) (hc : Caches S begun names st) {mv : Mathvalue}
    (hs : st.stack = [mv]) (he : st.error = none) (hp : Plain names mv) :
    st.result S room = ({ st with stack := [] }, .ok (valueOf lookup st.hist mv)) := by
  unfold St.result
  split
  · next heq => exact absurd (hs.symm.trans heq) (by simp)
  · next top rest heq =>
    obtain ⟨rfl, rfl⟩ := List.cons.inj (hs.symm.trans heq)
    rw [value_of_eq hr (hc.with_stack _) hp]
    dsimp only
    rw [he]

/-- Behind the whole expression its value is read, if nothing is left of the text. -/
theorem Comes.outcome (hr : Readable S room begun names lookup) {r : Run} {st' : St}
    (h : Comes S begun names st [] (.op .EOI) [] r st') :
    comesTo (st'.outcome S room .MPREC_TOP) =
      (r.1, r.2.map (valueOf lookup r.1)) := by
  cases h with
  | done here stack hist kept plain caches =>
    subst hist
    have close : ¬ st'.mtok = .M_OUTPAR := by simp [here.tok, Lexeme.tok]
    have trail : st'.trailing S .MPREC_TOP =
        ({ st' with toLex := st'.toLex.skipWhile is_whitespace }, none) := by
      unfold St.trailing
      rw [if_pos rfl]
      dsimp only
      rw [here.rest]
    unfold St.outcome
    rw [here.error]
    dsimp only
    rw [if_neg close, trail]
    dsimp only
    obtain ⟨st₂, hst⟩ : ∃ st₂ : St, st₂ =
        { st' with toLex := st'.toLex.skipWhile is_whitespace } := ⟨_, rfl⟩
    have left : st₂.stack = _ := (congrArg (fun s : St => s.stack) hst).trans stack
    have fine : st₂.error = none := (congrArg (fun s : St => s.error) hst).trans here.error
    have behind : Caches S begun names st₂ := hst ▸ caches.congr rfl rfl rfl
    rw [← hst, result_eq hr behind left fine plain, hst]
    rfl
  | failed hist error =>
    unfold St.outcome
    rw [error]
    exact Prod.ext hist rfl

/-- The value of a text is that of the tree it spells: the parser groups as its tables say,
evaluates the sides that are taken in order, mutes the others, reads a parameter as what it has itself
assigned to it or else as the number in the table, and stops at the first error. -/
theorem spelled_text_evaluates {numbers : History → Text → Mnumber} {before : St} {s : Text} {e : Expr}
    (numeric : Numeric S room before.hist e.names numbers) (hs : Spells S before s e)
    (hf : e.Fits S (table S before.hist) (table S before.hist).top_prec) :
    comesTo (mathevall S (room + 1) .MPREC_TOP (before.new s)) =
      e.run S (reading S numbers before.hist) before.hist := by
  obtain ⟨x, xs, hx, hop⟩ := hf.lexemes_cons
  have within : (starts S before s).pos < (starts S before s).input.length := by
    have spelled := hs.lexemes
    rw [hx] at spelled
    apply Spelled.within spelled
    intro heoi
    rw [heoi] at hop
    exact absurd hop (by decide)
  have closes : 19 ≤ (table S before.hist).at .EOI := by
    cases table S before.hist <;> decide
  have above : (table S before.hist).top_prec < (table S before.hist).at .EOI := by
    cases table S before.hist <;> decide
  have fuel : (e.lexemes ++ [Lexeme.op .EOI]).length ≤ s.length + 1 := by
    have length := hs.length
    rw [List.length_append, List.length_singleton]
    omega
  have readable := numeric.readable
  have tree : Parses S before.hist e.names room (St.matheval S (mathevall S room) (room = MAX_MLEVEL))
      (reading S numbers before.hist) e := parses readable e
  have parsed := tree.enter (List.Subset.refl _) hf (starts_context before s) rfl rfl hs.lexemes rfl (hf.stops closes)
    above fuel
  have begun : ¬ ((.MPREC_TOP : PrecType) = .MPREC_TOP ∧
      (starts S before s).input.length ≤ (starts S before s).pos) := by
    rintro ⟨-, hle⟩
    omega
  have entered : mathevall S (room + 1) .MPREC_TOP (before.new s) =
      (St.enter S (St.parseLoop S room (St.matheval S (mathevall S room) (room = MAX_MLEVEL))
        (s.length + 1)) (table S before.hist).top_prec (starts S before s)).outcome S room
          .MPREC_TOP := by
    unfold mathevall evalWith
    exact if_neg begun
  rw [entered]
  exact parsed.outcome readable

def integerTable (h : History) (name : Text) : Mnumber := (assigned h name).getD (.integer 0)

/-- A shell whose parameters are integers, 0 where nothing has been assigned. -/
def integerShell : Shell :=
  { plainShell with
    getmathparam := fun _ st name =>
      ⟨[], forced st.force_float ((st.m_variables name).getD (integerTable st.hist name)), none⟩ }

/-- `(x=2)+x*3`. -/
def sumText : Text := ['(', 'x', '=', '2', ')', '+', 'x', '*', '3']

def sumTree : Expr :=
  .binary .PLUS (.paren (.binary .EQ (.var ['x']) (.num (.integer 2))))
    (.binary .MUL (.var ['x']) (.num (.integer 3)))

theorem sum_spelled : Spells integerShell idle sumText sumTree where
  lexemes := by
    refine ⟨_, fun _ => rfl, trivial, rfl, _, fun _ => rfl, rfl, rfl, _, fun _ => rfl, trivial, rfl, ?_⟩
    refine ⟨_, fun _ => rfl, rfl, rfl, _, fun _ => rfl, trivial, rfl, _, fun _ => rfl, trivial, rfl, ?_⟩
    refine ⟨_, fun _ => rfl, rfl, rfl, _, fun _ => rfl, trivial, rfl, _, fun _ => rfl, rfl, rfl, ?_⟩
    exact ⟨_, fun _ => rfl, trivial, rfl, rfl⟩
  length := Nat.le_refl 9

/-- The second `x` is read as what the evaluation has just assigned. -/
theorem sum_evaluates :
    comesTo (mathevall integerShell 256 .MPREC_TOP (idle.new sumText)) =
      ([.assign ['x'] (.integer 2)], .ok (.integer 8)) := by
  have numeric : Numeric integerShell 255 idle.hist sumTree.names integerTable := fun _ _ _ _ _ => rfl
  apply (spelled_text_evaluates numeric sum_spelled _).trans
  · rfl
  · have stored : Expr.Fits integerShell .Z_PREC 18 (.binary .EQ (.var ['x']) (.num (.integer 2))) :=
      ⟨rfl, by decide, rfl, trivial, trivial⟩
    exact ⟨rfl, by decide, ⟨by decide, stored⟩, trivial, rfl, by decide, rfl, trivial, trivial⟩

end Evaluation

end Zshrs.Math.Tree
