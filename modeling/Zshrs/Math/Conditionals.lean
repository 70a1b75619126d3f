import Zshrs.Math.Visits
import Zshrs.Math.NoevalFrame

namespace Zshrs.Math.Shape

section Decisions

variable (S : Shell) (room : Nat) (me : Matheval)

instance (mv : Mathvalue) : Decidable mv.Settled :=
  inferInstanceAs (Decidable (mv.lval = none ∨ mv.val.type_ ≠ .MN_UNSET))

def readings (mv : Mathvalue) : Nat := if mv.Settled then 0 else 1

/-- An operand's truth for `&&` and `||`, which the mode of ksh93 rounds. -/
def truth (n : Mnumber) : Bool := asInt S (if S.ksh93_mode then S.round_int n else n) ≠ 0

def joined (otok : Token) (left right : Bool) : Mnumber :=
  ofBool (if otok = .DAND then left && right else left || right)

/-- A conditional behind its sides. -/
structure Decision where
  looked : Mathvalue
  first : Bool
  popped : Mathvalue
  again : Bool
  value : Bool → Mnumber

/-- What `op` reads behind the sides of `c ? a : b`. The middle operand was parsed with `noeval` at
0 exactly if `first`. -/
def ternary (loop : Nat → St → St) (st : St) : Option Decision :=
  match st.stack with
  | [] => none
  | mv :: _ =>
    let (st, cond) := st.get_value S room mv
    let first : Bool := (st.raise (isZero cond)).noeval = 0
    let middle := behindMiddle S loop st cond
    let st := behindElse S loop middle cond
    if middle.mtok ≠ .COLON ∨ st.error.isSome then none
    else
      match st.stack with
      | f :: t :: c :: base =>
        let (_, no, yes, again) := questPops S room st f t c base
        some ⟨mv, first, c, !isZero again, fun q => if q then yes else no⟩
      | _ => none

/-- What `&&` and `||` pop and read: their right operand and their left one. -/
def junctionPops (st : St) (b c : Mathvalue) (base : List Mathvalue) : Mnumber × Mnumber :=
  let (st, right) := ({ st with stack := c :: base } : St).get_value S room b
  (right, (({ st with stack := base } : St).value_of S room c).2)

/-- What `op` reads behind the right side of `c && d` and `c || d`. -/
def junction (loop : Nat → St → St) (st : St) : Option Decision :=
  match st.stack with
  | [] => none
  | mv :: _ =>
    let first := truth S (st.value_of S room mv).2
    let side := behindRight S room loop st st.mtok
    if side.error.isSome then none
    else
      match side.stack with
      | b :: c :: base =>
        let (right, again) := junctionPops S room side b c base
        some ⟨mv, first, c, truth S again, fun q => joined st.mtok q (truth S right)⟩
      | _ => none

def decision (loop : Nat → St → St) (st : St) : Option Decision :=
  match st.mtok with
  | .QUEST => ternary S room loop st
  | .DAND | .DOR => junction S room loop st
  | _ => none

/-- The law of a decision: the condition is read once, and the value is the one that this reading
selects. -/
def Lawful (d : Decision) (st : St) : Prop :=
  readings d.looked + readings d.popped ≤ 1 ∧
    st.stack.head? = some ⟨d.value d.first, none⟩

structure Decides (d : Decision) (st : St) : Prop where
  same : d.popped = d.looked
  pushed : st.stack.head? = some ⟨d.value d.again, none⟩
  settled : d.looked.Settled → d.again = d.first

theorem Decides.lawful_iff {d : Decision} {st : St} (h : Decides d st) :
    Lawful d st ↔ d.looked.Settled := by
  unfold Lawful
  constructor
  · rintro ⟨once, -⟩
    rw [h.same] at once
    unfold readings at once
    by_contra hset
    rw [if_neg hset] at once
    exact absurd once (by decide)
  · intro hset
    rw [h.same, h.pushed, h.settled hset]
    unfold readings
    rw [if_pos hset]
    exact ⟨by decide, rfl⟩

theorem Decides.value_iff {d : Decision} {st : St} (h : Decides d st) :
    st.stack.head? = some ⟨d.value d.first, none⟩ ↔
      d.again = d.first ∨ d.value true = d.value false := by
  have value : st.stack.head? = some ⟨d.value d.first, none⟩ ↔ d.value d.again = d.value d.first := by
    rw [h.pushed]
    constructor
    · intro heq
      injection heq with heq
      injection heq
    · intro heq
      rw [heq]
  rw [value]
  cases d.again with
  | true =>
    cases d.first with
    | true => simp
    | false => simp
  | false =>
    cases d.first with
    | true => simp [eq_comm]
    | false => simp

variable {S room me} {loop : Nat → St → St} {base : List Mathvalue} {st : St}

theorem noeval_raise (hn : st.noeval = 0) (b : Bool) :
    decide ((st.raise b).noeval = 0) = !b := by
  cases b with
  | true =>
    have raised : (st.raise true).noeval = 1 := congrArg (· + 1) hn
    rw [raised]
    rfl
  | false =>
    have same : (st.raise false).noeval = 0 := hn
    rw [same]
    rfl

theorem ternary_decides (hl : LoopSpec loop) (hn : st.noeval = 0) (hm : st.mtok = .QUEST)
    (hh : Head base st) {d : Decision} (hd : ternary S room loop st = some d) :
    Decides d (St.round S room me loop st) := by
  obtain ⟨hu, mv, hs⟩ := hh.quest hm
  have round : St.round S room me loop st = St.quest S room me loop st := by
    unfold St.round
    rw [hm]
  rw [round, quest_eq S room me loop hs]
  have read := reads_get_value S room st mv
  have settled (hset : mv.Settled) : st.get_value S room mv = (st, mv.val) :=
    get_value_settled S room hset
  unfold ternary at hd
  rw [hs] at hd
  revert hd
  dsimp only
  generalize st.get_value S room mv = p at read settled ⊢
  obtain ⟨st₁, cond⟩ := p
  dsimp only at read ⊢
  have first := noeval_raise ((Kept.of_steady read.steady).noeval.trans hn) (isZero cond)
  rw [first]
  have middle := behindMiddle_ends S hl cond ((unary_of_steady read.steady).trans hu)
    (read.stack.trans hs)
  generalize behindMiddle S loop st₁ cond = st₂ at middle ⊢
  intro hd
  by_cases hcolon : st₂.mtok = .COLON
  · rw [if_neg (by simpa using hcolon)]
    have fine : (behindElse S loop st₂ cond).error = none := by
      by_contra he
      rw [if_pos (.inr (Option.isSome_iff_ne_none.mpr he))] at hd
      cases hd
    have he₂ : st₂.error = none := by
      by_contra he
      rw [behindElse_failed S he] at fine
      exact he fine
    obtain ⟨hu₂, t, hs₂⟩ := middle.colon hcolon he₂
    have other := behindElse_ends S hl cond hu₂ hs₂
    rw [if_neg (by simp [hcolon, fine])] at hd
    revert hd fine other
    generalize behindElse S loop st₂ cond = st₃
    intro hd fine other
    obtain ⟨f, hs₃⟩ := (other.operand fine).stack
    rw [hs₃] at hd
    rw [op_quest_eq S room me hs₃ fine]
    dsimp only at hd ⊢
    cases hd
    have reading := (questPops_spec S room st₃ f t mv base).2.2
    generalize questPops S room st₃ f t mv base = p at reading ⊢
    obtain ⟨st₄, no, yes, again⟩ := p
    refine ⟨rfl, ?_, fun hset => ?_⟩
    · dsimp only [St.push]
      cases isZero again with
      | true => rfl
      | false => rfl
    · have hcond : cond = mv.val := congrArg Prod.snd (settled hset)
      have hagain : again = mv.val := reading hset
      dsimp only
      rw [hcond, hagain]
  · rw [if_pos (.inl hcolon)] at hd
    cases hd

theorem binary_joined {otok : Token} (ht : otok = .DAND ∨ otok = .DOR) (a b : Int64) :
    binary S otok (.integer a) (.integer b) = .ok (joined otok (a ≠ 0) (b ≠ 0)) := by
  rcases ht with rfl | rfl
  · rfl
  · rfl

theorem coerce_joined {otok : Token} (ht : otok = .DAND ∨ otok = .DOR) (a b : Mnumber) :
    coerce S otok a b = (.integer (asInt S a), .integer (asInt S b)) := by
  rcases ht with rfl | rfl
  · rfl
  · rfl

theorem finish_joined {otok : Token} (ht : otok = .DAND ∨ otok = .DOR) (st : St)
    (lval : Option Text) (left right : Bool) :
    st.finish S me otok lval (joined otok left right) = st.push (joined otok left right) none := by
  have plain : (OP_TYPE otok).assigns = false := by
    rcases ht with rfl | rfl
    · rfl
    · rfl
  have wrapped : ∀ b : Bool, { ofBool b with l := wrap32 (ofBool b).l } = ofBool b := by
    intro b
    cases b with
    | true => rfl
    | false => rfl
  unfold St.finish
  dsimp only
  rw [plain, if_neg Bool.false_ne_true]
  split
  · exact congrArg (fun n => st.push n none) (wrapped _)
  · rfl

theorem op_joined {otok : Token} (ht : otok = .DAND ∨ otok = .DOR) {b c : Mathvalue}
    (hs : st.stack = b :: c :: base) (he : st.error = none) (hn : st.noeval = 0) :
    (st.op S room me otok).stack.head? =
      let (right, again) := junctionPops S room st b c base
      some ⟨joined otok (truth S again) (truth S right), none⟩ := by
  have binary : (OP_TYPE otok).is_binary = true := by
    rcases ht with rfl | rfl
    · rfl
    · rfl
  have reads_only : St.writes otok = false := by
    rcases ht with rfl | rfl
    · rfl
    · rfl
  have hne : otok ≠ .EQ := by
    rcases ht with rfl | rfl
    · exact fun h => Token.noConfusion h
    · exact fun h => Token.noConfusion h
  have hlen : ¬ st.stack.length < 2 := by simp [hs]
  have first := reads_get_value S room { st with stack := c :: base } b
  rw [op_fine S room me he, if_pos binary]
  unfold St.opBinary junctionPops
  rw [if_neg hlen, pop_cons S room hs]
  generalize ({ st with stack := c :: base } : St).get_value S room b = p at first ⊢
  obtain ⟨st₁, right⟩ := p
  dsimp only at first ⊢
  rw [pop_with_lval_cons first.stack]
  dsimp only
  have target : ({ st₁ with stack := base } : St).target S me otok c =
      ({ st₁ with stack := base }, c) := by
    unfold St.target
    rw [reads_only]
    rfl
  rw [target]
  unfold St.applyBinary
  rw [if_neg hne]
  have second := reads_value_of S room { st₁ with stack := base } c
  generalize ({ st₁ with stack := base } : St).value_of S room c = p at second ⊢
  obtain ⟨st₂, again⟩ := p
  dsimp only at second ⊢
  have unraised : ¬ st₂.noeval > 0 := by
    have kept : st₂.noeval = st.noeval :=
      (Kept.of_steady (second.steady.trans first.steady)).noeval
    omega
  rw [if_neg unraised, coerce_joined ht, binary_joined ht]
  dsimp only
  rw [finish_joined ht]
  unfold truth
  split
  · rfl
  · rfl

theorem value_of_snd {st : St} {mv : Mathvalue} (h : mv.Settled) :
    (st.value_of S room mv).2 =
      if mv.val.type_ = .MN_UNSET ∧ mv.lval = none then .integer 0 else mv.val := by
  unfold St.value_of
  split
  · rfl
  · rw [get_value_settled S room h]

theorem junction_decides (hl : LoopSpec loop) (hn : st.noeval = 0) {otok : Token}
    (ht : otok = .DAND ∨ otok = .DOR) (hm : st.mtok = otok) (hh : Head base st)
    (htop : st.prec.at st.mtok ≤ st.prec.top_prec) {d : Decision}
    (hd : junction S room loop st = some d) : Decides d (St.round S room me loop st) := by
  have class_ : (OP_TYPE otok).is_op_token = true ∧ (OP_TYPE otok).OP_OPF = false ∧
      otok ≠ .M_INPAR ∧ otok ∉ [Token.NUM, .ID, .CID, .FUNC] := by
    rcases ht with rfl | rfl
    · decide
    · decide
  obtain ⟨hop, hopf, hp, ho⟩ := class_
  have hstack := hh.stack
  have hunary := hh.unary
  rw [hm, if_pos hop] at hstack
  rw [hm, hopf] at hunary
  obtain ⟨mv, hs⟩ := hstack
  have hleft : ¬ (st.stack = [] ∧ (OP_TYPE otok).is_binary = true) := by simp [hs]
  have round : St.round S room me loop st = St.operator S room me loop st otok := by
    unfold St.round
    rcases ht with rfl | rfl
    · rw [hm]
    · rw [hm]
  rw [hm] at htop
  have side := side_ends S room hl (Entry.of_unary hunary hs) htop hp ho
  rw [round, operator_eq S room me loop otok hleft]
  unfold junction at hd
  rw [hs, hm] at hd
  dsimp only at hd
  generalize behindRight S room loop st otok = st₂ at side hd ⊢
  by_cases fine : st₂.error = none
  · rw [if_neg (by simp [fine])] at hd
    obtain ⟨b, hs₂⟩ := (side.operand fine).stack
    rw [hs₂] at hd
    cases hd
    refine ⟨rfl, ?_, fun hset => ?_⟩
    · exact op_joined ht hs₂ fine (side.kept.noeval.trans hn)
    · unfold junctionPops
      dsimp only
      rw [value_of_snd hset, value_of_snd hset]
  · rw [if_pos (Option.isSome_iff_ne_none.mpr fine)] at hd
    cases hd

theorem junction_evaluated (hn : st.noeval = 0) {otok : Token} (ht : otok = .DAND ∨ otok = .DOR)
    (hksh : S.ksh93_mode = false) {mv : Mathvalue} (hs : st.stack = mv :: base) :
    (opened S room st otok).noeval = 0 ↔
      truth S (st.value_of S room mv).2 = decide (otok = .DAND) := by
  have read := reads_value_of S room st mv
  unfold opened St.bop truth
  rw [hs, hksh]
  dsimp only
  generalize st.value_of S room mv = p at read ⊢
  obtain ⟨st₁, val⟩ := p
  have kept : st₁.noeval = 0 := (Kept.of_steady read.steady).noeval.trans hn
  have raised : st₁.noeval + 1 ≠ 0 := by omega
  rcases ht with rfl | rfl
  · by_cases htst : asInt S val ≠ 0
    · simp [OP_TYPE, OpType.a2io, OpType.plain, htst, kept]
    · simp [OP_TYPE, OpType.a2io, OpType.plain, htst, kept]
  · by_cases htst : asInt S val ≠ 0
    · simp [OP_TYPE, OpType.a2io, OpType.plain, htst, kept]
    · simp [OP_TYPE, OpType.a2io, OpType.plain, htst, kept]

theorem decision_decides (hl : LoopSpec loop) (hn : st.noeval = 0) (hh : Head base st)
    (htop : st.prec.at st.mtok ≤ st.prec.top_prec) {d : Decision}
    (hd : decision S room loop st = some d) : Decides d (St.round S room me loop st) := by
  unfold decision at hd
  split at hd
  · next hm => exact ternary_decides hl hn hm hh hd
  · next hm => exact junction_decides hl hn (.inl rfl) hm hh htop hd
  · next hm => exact junction_decides hl hn (.inr rfl) hm hh htop hd
  · cases hd

end Decisions

/-- A round of an evaluation that has `left` fuel for the calls in it. -/
def roundOf (S : Shell) (room left : Nat) (st : St) : St :=
  St.round S room (matheval S room) (St.parseLoop S room (matheval S room) left) st

def decisionOf (S : Shell) (room left : Nat) (st : St) : Option Decision :=
  decision S room (St.parseLoop S room (matheval S room) left) st

/-- A conditional reads its condition once, and its value is that of the side that was evaluated,
exactly if the condition is not a parameter that is still to be read. Its value alone is right also
where the second reading says the same, or where it does not matter. -/
theorem conditional_decided_once {S : Shell} {room : Nat} {prec_tp : PrecType} {before : St}
    {s : Text} {left : Nat} {st : St} {d : Decision}
    (met : Meets S room prec_tp (before.new s) left st) (evaluated : st.noeval = 0)
    (decided : decisionOf S room left st = some d) :
    (Lawful d (roundOf S room left st) ↔ d.looked.Settled) ∧
      ((roundOf S room left st).stack.head? = some ⟨d.value d.first, none⟩ ↔
        d.again = d.first ∨ d.value true = d.value false) := by
  obtain ⟨base, head, htop, -⟩ := met.head rfl
  have loop := parseLoop_spec S room (matheval S room) left
  have decides : Decides d (roundOf S room left st) :=
    decision_decides loop evaluated head htop decided
  exact ⟨decides.lawful_iff, decides.value_iff⟩

def topRoom : Nat := MAX_MLEVEL - 1

def oneShell : Shell :=
  { plainShell with
    getmathparam := fun _ st name => ⟨[], (st.m_variables name).getD (.integer 1), none⟩ }

/-- `x+0?(x=0,5):7`, whose condition is a value. -/
def settledTernary : Text := ['x', '+', '0', '?', '(', 'x', '=', '0', ',', '5', ')', ':', '7']

def flippedTernary : Text := ['x', '?', '(', 'x', '=', '0', ',', '5', ')', ':', '7']

def roundAt (s : Text) : Nat → St
  | 0 => (parsing oneShell (idle.new s)).nextToken oneShell
  | n + 1 => roundOf oneShell topRoom (s.length - n) (roundAt s n)

theorem settled_met :
    Meets oneShell topRoom .MPREC_TOP (idle.new settledTernary) 11 (roundAt settledTernary 2) where
  begins := by
    rintro ⟨-, h⟩
    exact absurd h (by decide)
  entered := by
    refine ⟨rfl, fun h => ?_⟩
    exact Token.noConfusion h.2
  comes := by
    refine .later ⟨by decide, rfl⟩ (.later ⟨by decide, rfl⟩ (.here ⟨by decide, rfl⟩))

theorem settled_decided : ∃ d, decisionOf oneShell topRoom 11 (roundAt settledTernary 2) = some d ∧
    Lawful d (roundOf oneShell topRoom 11 (roundAt settledTernary 2)) := by
  refine ⟨_, rfl, ?_⟩
  exact (conditional_decided_once settled_met rfl rfl).1.mpr (.inl rfl)

theorem flipped_met :
    Meets oneShell topRoom .MPREC_TOP (idle.new flippedTernary) 10 (roundAt flippedTernary 1) where
  begins := by
    rintro ⟨-, h⟩
    exact absurd h (by decide)
  entered := by
    refine ⟨rfl, fun h => ?_⟩
    exact Token.noConfusion h.2
  comes := .later ⟨by decide, rfl⟩ (.here ⟨by decide, rfl⟩)

/-- The condition is true when the middle operand is evaluated, and false when it is popped. -/
def flippedDecision : Decision :=
  ⟨⟨.unset, some ['x']⟩, true, ⟨.unset, some ['x']⟩, false,
    fun q => if q then .integer 5 else .integer 7⟩

theorem flipped_unlawful :
    ¬ Lawful flippedDecision (roundOf oneShell topRoom 10 (roundAt flippedTernary 1)) := by
  rintro ⟨-, selected⟩
  have pushed : (roundOf oneShell topRoom 10 (roundAt flippedTernary 1)).stack.head? =
      some ⟨.integer 7, none⟩ := rfl
  have heq : some (⟨.integer 7, none⟩ : Mathvalue) = some ⟨.integer 5, none⟩ :=
    pushed.symm.trans selected
  have values : some (7 : Int64) = some 5 := congrArg (Option.map fun v : Mathvalue => v.val.l) heq
  exact absurd values (by decide)

/-- With `x` at 1, `x?(x=0,5):7` evaluates its middle operand, and has the value of the last one. -/
theorem ternary_flipped :
    (∃ left st d, Meets oneShell topRoom .MPREC_TOP (idle.new flippedTernary) left st ∧
      st.noeval = 0 ∧ decisionOf oneShell topRoom left st = some d ∧
      d.value d.first = .integer 5 ∧ ¬ Lawful d (roundOf oneShell topRoom left st)) ∧
    (matheval oneShell MAX_MLEVEL idle flippedTernary).2 = .ok (.integer 7) := by
  refine ⟨⟨10, roundAt flippedTernary 1, flippedDecision, flipped_met, rfl, rfl, rfl, ?_⟩, rfl⟩
  exact flipped_unlawful

end Zshrs.Math.Shape
