import Zshrs.Parse.CondFuel
import Zshrs.Exec.CondRuns

namespace Zshrs.Exec.Cond

open Parse.Cond

variable {F : Type}

/-- The words emitted from `p` to `p'`, wherever the program goes on, are evaluated as `c` is: the same
status, each operator over its own words, and the end when the status is 0 or 1. -/
def Faithful (T : Tests F) (p p' : Parser) (c : Condition) : Prop :=
  ∀ after, ∃ fuel stop,
    evalcond T p.lexer.testlex (p'.ecbuf ++ after) fuel p.ecbuf.length =
        some ⟨status T p.lexer.testlex c, stop, readsOf T p.lexer.testlex p.ecbuf.length c⟩ ∧
      (status T p.lexer.testlex c ≤ 1 → stop = p'.ecbuf.length)

/-- The tokens are an expression, and their words mean it. -/
def Means (posixbuiltins : Bool) (T : Tests F) (p p' : Parser) : Prop :=
  ∃ c, Parses posixbuiltins .disj p.lexer c p'.lexer ∧ Faithful T p p' c

theorem loaded_of_emitted {p p' : Parser} {c : Condition} (h : Emitted p p' c) (after : List Word) :
    Loaded (p'.ecbuf ++ after) p.ecbuf.length (c.code p.ecnpats) := by
  rw [h.ecbuf]
  exact loaded_of_append _ _ _

theorem faithful_of_slotless {T : Tests F} {p p' : Parser} {c : Condition} (h : Emitted p p' c)
    (hslot : Slotless T p.lexer.testlex c) (hfield : InField T p.lexer.testlex c) :
    Faithful T p p' c := by
  intro after
  obtain ⟨stop, heval, hstop⟩ := evalcond_condition (loaded_of_emitted h after) hslot hfield
    (Nat.le_refl _)
  refine ⟨height c, stop, heval, ?_⟩
  intro hs
  rw [hstop (by omega), h.ecbuf, List.length_append, length_code c p.ecnpats 0]

theorem slotless_of_faithful {T : Tests F} {p p' : Parser} {c : Condition} (h : Emitted p p' c)
    (hfield : InField T p.lexer.testlex c) (hfaith : Faithful T p p' c) :
    Slotless T p.lexer.testlex c := by
  by_contra hslot
  obtain ⟨fuel, stop, heval, -⟩ := hfaith []
  exact (mismatch_of_slot (loaded_of_emitted h []) hfield hslot heval).ne rfl

/-- Where an accepted condition means its expression. -/
theorem means_accepted {posixbuiltins : Bool} {T : Tests F} {p p' : Parser} {r : Nat}
    (h : par_cond posixbuiltins p = some (p', r)) (hacc : p'.tok ≠ .lexerr) :
    ∃ c, Parses posixbuiltins .disj p.lexer c p'.lexer ∧
      (Slotless T p.lexer.testlex c ∧ InField T p.lexer.testlex c → Means posixbuiltins T p p') ∧
      (InField T p.lexer.testlex c → Means posixbuiltins T p p' → Slotless T p.lexer.testlex c) := by
  obtain ⟨c, hc, hemit⟩ := par_cond_top_accepted h hacc
  refine ⟨c, hc, ?_, ?_⟩
  · rintro ⟨hslot, hfield⟩
    exact ⟨c, hc, faithful_of_slotless hemit hslot hfield⟩
  · rintro hfield ⟨c', hc', hfaith⟩
    obtain ⟨rfl, -⟩ := hc.unique hc'
    exact slotless_of_faithful hemit hfield hfaith

/-- `test` with these arguments, at the first of them. -/
def testArgs (arg : Str) (args : List Str) : Parser :=
  ⟨⟨true, testlexToken arg, args.map testlexToken⟩, [], 0, false⟩

/-- `[[`, at the token after it. -/
def dinbrack (token : Token) (rest : List Token) : Parser :=
  ⟨⟨false, token, rest⟩, [], 0, false⟩

/-- Words as they stand, no modules, and a file of every kind. -/
def plainTests : Tests Int where
  condSubst _ s := s
  singsub s := s
  untokenize s := s
  patcompile s := some (· = s)
  zstrtol s := (s.length, [])
  matheval _ := none
  ofInt l := l
  feq l r := l = r
  flt l r := l < r
  fle l r := l ≤ r
  letter _ _ := 0
  newer _ _ _ := true
  getconddef _ _ := none
  regexName := "-regex-match".toList

/-- `[[ ! ( a == b ) && -n c ]]` -/
def negatedGroup : Parser :=
  dinbrack ⟨.bang, none⟩ [⟨.inpar, none⟩, ⟨.string, some ['a']⟩, ⟨.string, some ['=', '=']⟩,
    ⟨.string, some ['b']⟩, ⟨.outpar, none⟩, ⟨.damper, none⟩, ⟨.string, some ['-', 'n']⟩,
    ⟨.string, some ['c']⟩, ⟨.doutbrack, none⟩]

def negatedGroupEnd : Parser :=
  ⟨⟨false, ⟨.doutbrack, none⟩, []⟩,
    [.cond COND_AND 7, .cond COND_NOT 0, .cond COND_STRDEQ 0, .str ['a'], .str ['b'], .npat 0,
      .cond 'n'.toNat 0, .str ['c']], 1, false⟩

theorem negatedGroup_means :
    ∃ c, Parses false .disj negatedGroup.lexer c negatedGroupEnd.lexer ∧
      (Slotless plainTests false c ∧ InField plainTests false c →
        Means false plainTests negatedGroup negatedGroupEnd) ∧
      (InField plainTests false c → Means false plainTests negatedGroup negatedGroupEnd →
        Slotless plainTests false c) :=
  means_accepted (r := 1) (by decide) (by decide)

/-- `[ b < a -a -n c ]` with the token character `U+E194` for the order. -/
def slotTest : Parser := testArgs ['b'] [[Inang], ['a'], ['-', 'a'], ['-', 'n'], ['c']]

def slotTestEnd : Parser :=
  ⟨⟨true, ⟨.nulltok, none⟩, []⟩,
    [.cond COND_AND 6, .cond COND_STRGTR 0, .str ['b'], .str ['a'], .npat 0, .cond 'n'.toNat 0,
      .str ['c']], 1, false⟩

def slotCondition : Condition :=
  .chain .and (.prim (.triple ['b'] [Inang] ['a'])) (.prim (.double ['-', 'n'] ['c']))

theorem slotCondition_parses : Parses false .disj slotTest.lexer slotCondition slotTestEnd.lexer := by
  have hb' : Parses false .term ⟨true, ⟨.string, some ['-', 'n']⟩, [⟨.string, some ['c']⟩]⟩
      (.prim (.double ['-', 'n'] ['c'])) slotTestEnd.lexer :=
    .operands rfl (by decide) (by decide) rfl rfl
  have hb : Parses false .conj ⟨true, ⟨.string, some ['-', 'n']⟩, [⟨.string, some ['c']⟩]⟩
      (.prim (.double ['-', 'n'] ['c'])) slotTestEnd.lexer :=
    .conjEnd hb' (by decide)
  have ha : Parses false .term slotTest.lexer (.prim (.triple ['b'] [Inang] ['a']))
      ⟨true, ⟨.damper, some ['-', 'a']⟩, [⟨.string, some ['-', 'n']⟩, ⟨.string, some ['c']⟩]⟩ :=
    .operands rfl (by decide) (by decide) rfl rfl
  exact .disjEnd (.conj ha rfl hb) (by decide)

/-- The slot is read as a `!` before the second operand. -/
theorem slotTest_not_means :
    par_cond false slotTest = some (slotTestEnd, 1) ∧ ¬ Means false plainTests slotTest slotTestEnd := by
  refine ⟨by decide, ?_⟩
  rintro ⟨c, hc, hfaith⟩
  obtain ⟨rfl, -⟩ := hc.unique slotCondition_parses
  obtain ⟨fuel, stop, heval, -⟩ := hfaith []
  have hrun : evalcond plainTests true (slotTestEnd.ecbuf ++ []) 10 0 =
      some ⟨1, 7, [(1, 4), (5, 7)]⟩ := by decide
  have hstatus : status plainTests true slotCondition = 1 :=
    congrArg Outcome.status (evalcond_unique heval hrun)
  exact absurd hstatus (by decide)

end Zshrs.Exec.Cond
