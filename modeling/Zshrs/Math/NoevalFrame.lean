import Zshrs.Math.Noeval

namespace Zshrs.Math

open Lib.Lockstep

section Subscripts

variable (S : Shell)

/-- Evaluated on its own, a subscript has no effect on the shell. -/
def Harmless (room : Nat) (h : History) (body : Text) : Prop :=
  ∀ st : St, st.hist = h → (matheval S room st body).1.hist = h

theorem new_congr {st st' : St} (h : st.hist = st'.hist) (s : Text) : st.new s = st'.new s := by
  unfold St.new
  rw [h]

theorem hist_matheval_congr (room : Nat) {st st' : St} (h : st.hist = st'.hist) (s : Text) :
    (matheval S room st s).1.hist = (matheval S room st' s).1.hist := by
  unfold matheval St.matheval
  dsimp only
  rw [h, new_congr h]
  split
  · exact h
  · split
    · exact h
    · split
      · rfl
      · rfl

theorem harmless_iff (room : Nat) {h : History} (st : St) (s : Text) (hh : st.hist = h) :
    (matheval S room st s).1.hist = h ↔ Harmless S room h s := by
  constructor
  · intro quiet st' hh'
    exact (hist_matheval_congr S room (hh'.trans hh.symm) s).trans quiet
  · intro harmless
    exact harmless st hh

/-- The walk of an evaluation over its text, with the nested evaluations muted. -/
def walk : Nat → St → St × Except String Mnumber
  | 0, st => mathevall S 0 .MPREC_TOP st
  | room + 1, st => evalWith S room (mute (matheval S room)) .MPREC_TOP st

/-- `mathevali_noeval` as far as its own walk goes. -/
def skim (room : Nat) (st : St) (s : Text) : St × Except String Int64 :=
  noevalWith S (walk S room) st s

/-- The subscripts of the assignments that `mathevali_noeval` walks over. -/
def subscripts (room : Nat) (st : St) (s : Text) : List Text :=
  if St.stripNularg s = [] then [] else (skim S room st s).1.subs

end Subscripts

section Outcome

variable (S : Shell) (room : Nat) {st : St}

theorem trailing_frame (prec_tp : PrecType) (st : St) :
    (st.trailing S prec_tp).1.hist = st.hist ∧ (st.trailing S prec_tp).1.subs = st.subs ∧
      (st.trailing S prec_tp).1.stack = st.stack := by
  unfold St.trailing
  split
  · dsimp only
    split
    · exact ⟨rfl, rfl, rfl⟩
    · exact ⟨rfl, rfl, rfl⟩
    · exact ⟨rfl, rfl, rfl⟩
  · exact ⟨rfl, rfl, rfl⟩

def Drained (stack : List Mathvalue) : Prop := ∀ mv, stack.head? = some mv → mv.Settled

theorem result_still (h : Drained st.stack) :
    (st.result S room).1.hist = st.hist ∧ (st.result S room).1.subs = st.subs := by
  unfold St.result
  split
  · exact ⟨rfl, rfl⟩
  · next mv stack hs =>
    have settled : mv.Settled := h mv (by rw [hs]; rfl)
    have read : (({ st with stack := stack } : St).value_of S room mv).1 = { st with stack := stack } :=
      value_of_settled S room settled
    revert read
    generalize ({ st with stack := stack } : St).value_of S room mv = p
    obtain ⟨st₁, val⟩ := p
    rintro rfl
    dsimp only
    split
    · exact ⟨rfl, rfl⟩
    · exact ⟨rfl, rfl⟩

theorem outcome_still (prec_tp : PrecType) (h : st.error = none → Drained st.stack) :
    (st.outcome S room prec_tp).1.hist = st.hist ∧
      (st.outcome S room prec_tp).1.subs = st.subs := by
  have rest := trailing_frame S prec_tp st
  unfold St.outcome
  split
  · exact ⟨rfl, rfl⟩
  · next he =>
    split
    · exact ⟨rfl, rfl⟩
    · split
      · next heq =>
        rw [heq] at rest
        exact ⟨rest.1, rest.2.1⟩
      · next st₁ heq =>
        rw [heq] at rest
        have drained : Drained st₁.stack := by
          rw [show st₁.stack = st.stack from rest.2.2]
          exact h he
        have still := result_still S room drained
        exact ⟨still.1.trans rest.1, still.2.trans rest.2.1⟩

end Outcome

section Walk

variable (S : Shell) (room : Nat)

theorem agree_evalWith (st : St) (hn : 0 < st.noeval) (hu : st.unary = true) (hs : st.stack = []) :
    Agree (paired (Except String Mnumber)) (Harmless S room st.hist) st.hist st.subs
      (evalWith S room (matheval S room) .MPREC_TOP st)
      (evalWith S room (mute (matheval S room)) .MPREC_TOP st) := by
  have adds := adds_mathevall S room
  unfold evalWith
  dsimp only
  split
  · exact .still _ rfl rfl
  · let begun : St := (st.syncOptions S).skipBlanks
    have callable : Callable begun.prec.top_prec [] begun :=
      ⟨top_ge _, Nat.le_refl _, hn, List.nil_suffix, fun _ => .of_unary hu hs⟩
    have agree : Agree recorder (Harmless S room st.hist) st.hist st.subs _ _ :=
      agree_mathparse S room adds (harmless_iff S room) (begun.input.length + 1) begun callable rfl
    rw [if_pos rfl]
    refine agree.bind (fun s => s.outcome S room .MPREC_TOP) (fun s => s.outcome S room .MPREC_TOP)
      ?_ ?_ ?_
    · intro s
      exact ⟨(grew_outcome S room _ s).log, (grew_outcome S room _ s).marks⟩
    · intro s
      exact ⟨(grew_outcome S room _ s).log, (grew_outcome S room _ s).marks⟩
    · intro same quiet
      have parsed := enter_spec S (parseLoop_spec S room (mute (matheval S room))
        (begun.input.length + 1)) callable
      have drained : (begun.mathparse S room (mute (matheval S room)) (begun.input.length + 1)
          begun.prec.top_prec).error = none → Drained (begun.mathparse S room
            (mute (matheval S room)) (begun.input.length + 1) begun.prec.top_prec).stack := by
        intro he mv hmv
        rcases parsed with ends | ⟨-, -, -, hstack⟩
        · obtain ⟨v, hv, hstack⟩ := (ends.operand he).stack
          have head : some v = some mv := by
            rw [← hmv]
            exact (congrArg List.head? hstack).symm
          exact Option.some.inj head ▸ hv
        · have hstack' := hstack.trans hs
          have absent : none = some mv := by
            rw [← hmv]
            exact (congrArg List.head? hstack').symm
          exact nomatch absent
      have still := outcome_still S room .MPREC_TOP drained
      exact .still _ (still.1.trans quiet) still.2

theorem agree_noeval (st : St) (s : Text) (hs : St.stripNularg s ≠ []) :
    Agree (paired (Except String Int64)) (Harmless S (room - 1) st.hist) st.hist []
      (mathevali_noeval S room st s) (skim S room st s) := by
  unfold mathevali_noeval skim noevalWith
  dsimp only
  rw [if_neg hs, if_neg hs]
  let fresh : St := { st.new (St.stripNularg s) with noeval := 1 }
  have agree : Agree (paired (Except String Mnumber)) (Harmless S (room - 1) st.hist) st.hist []
      (mathevall S room .MPREC_TOP fresh) (walk S room fresh) := by
    cases room with
    | zero => exact .still _ rfl rfl
    | succ room => exact agree_evalWith S room fresh Int.one_pos rfl rfl
  exact agree.map (fun p : St × Except String Mnumber => (({ p.1 with
      noeval := 0, m_variables := st.m_variables, m_string_variables := st.m_string_variables
      mtok := st.mtok } : St), p.2.map (asInt S))) (fun _ => rfl) (fun _ => rfl)

theorem skim_of_nil (st : St) (s : Text) (hs : St.stripNularg s = []) :
    mathevali_noeval S room st s = (st, .ok 0) ∧ skim S room st s = (st, .ok 0) := by
  unfold mathevali_noeval skim noevalWith
  exact ⟨if_pos hs, if_pos hs⟩

theorem noeval_quiet_iff (st : St) (s : Text) :
    (mathevali_noeval S room st s).1.hist = st.hist ↔
      ∀ body ∈ subscripts S room st s, Harmless S (room - 1) st.hist body := by
  by_cases hs : St.stripNularg s = []
  · unfold subscripts
    rw [(skim_of_nil S room st s hs).1, if_pos hs]
    exact ⟨fun _ body h => absurd h List.not_mem_nil, fun _ => rfl⟩
  · have quiet := (agree_noeval S room st s hs).quiet_iff
    rw [List.length_nil, List.drop_zero] at quiet
    unfold subscripts
    rw [if_neg hs]
    exact quiet

theorem noeval_eq_skim (st : St) (s : Text) (h : (mathevali_noeval S room st s).1.hist = st.hist) :
    mathevali_noeval S room st s = skim S room st s := by
  by_cases hs : St.stripNularg s = []
  · rw [(skim_of_nil S room st s hs).1, (skim_of_nil S room st s hs).2]
  · exact (agree_noeval S room st s hs).eq_of_quiet h

end Walk

structure SameFrame (st st' : St) : Prop where
  noeval : st'.noeval = st.noeval
  stack : st'.stack = st.stack
  input : st'.input = st.input
  pos : st'.pos = st.pos
  m_variables : st'.m_variables = st.m_variables
  m_string_variables : st'.m_string_variables = st.m_string_variables

section Frame

variable (S : Shell) (room : Nat)

/-- The evaluation around is not muted, and stands where the walk over `s` comes to its end. -/
structure AtEnd (st : St) (s : Text) : Prop where
  noeval : st.noeval = 0
  stack : (skim S room st s).1.stack = st.stack
  input : (skim S room st s).1.input = st.input
  pos : (skim S room st s).1.pos = st.pos

theorem skim_frame (st : St) (s : Text) :
    SameFrame st (skim S room st s).1 ↔ St.stripNularg s = [] ∨ AtEnd S room st s := by
  constructor
  · intro h
    by_cases hs : St.stripNularg s = []
    · exact .inl hs
    · right
      refine ⟨?_, h.stack, h.input, h.pos⟩
      rw [← h.noeval]
      unfold skim noevalWith
      rw [if_neg hs]
  · rintro (hs | h)
    · rw [(skim_of_nil S room st s hs).2]
      exact ⟨rfl, rfl, rfl, rfl, rfl, rfl⟩
    · by_cases hs : St.stripNularg s = []
      · rw [(skim_of_nil S room st s hs).2]
        exact ⟨rfl, rfl, rfl, rfl, rfl, rfl⟩
      · refine ⟨?_, h.stack, h.input, h.pos, ?_, ?_⟩
        · rw [h.noeval]
          unfold skim noevalWith
          rw [if_neg hs]
        · unfold skim noevalWith
          rw [if_neg hs]
        · unfold skim noevalWith
          rw [if_neg hs]

/-- A sub-expression that is skipped, at a level: what it leaves as it was, and one operand more on
the stack where nothing is wrong. -/
structure Skipped (me : Matheval) (fuel pc : Nat) (st : St) : Prop where
  hist : (st.mathparse S room me fuel pc).hist = st.hist
  held : Held st (st.mathparse S room me fuel pc)
  below : st.stack <:+ (st.mathparse S room me fuel pc).stack
  operand : (st.mathparse S room me fuel pc).error = none →
    (st.mathparse S room me fuel pc).stack = st.stack ∨
      ∃ v, (st.mathparse S room me fuel pc).stack = v :: st.stack
  cursor : (st.mathparse S room me fuel pc).toLex = (st.mathparse S room (mute me) fuel pc).toLex

def subscriptsOf (fuel pc : Nat) (st : St) : List Text :=
  (st.mathparse S room (mute (matheval S room)) fuel pc).subs.drop st.subs.length

theorem skipped_iff {fuel pc : Nat} {st : St} (h : Callable pc st.stack st) :
    Skipped S room (matheval S room) fuel pc st ↔
      ∀ body ∈ subscriptsOf S room fuel pc st, Harmless S room st.hist body := by
  have agree := agree_mathparse S room (adds_mathevall S room) (harmless_iff S room) fuel st h rfl
  constructor
  · intro skipped
    exact agree.quiet_iff.mp skipped.hist
  · intro harmless
    have quiet := agree.quiet_iff.mpr harmless
    have same := agree.eq_of_quiet quiet
    rcases enter_spec S (parseLoop_spec S room (matheval S room) fuel) h with
      ends | ⟨-, -, held, hstack⟩
    · refine ⟨quiet, ends.held, ends.below, fun he => .inr ?_, congrArg (fun s : St => s.toLex) same⟩
      obtain ⟨v, -, hv⟩ := (ends.operand he).stack
      exact ⟨v, hv⟩
    · exact ⟨quiet, held, hstack ▸ List.suffix_rfl, fun _ => .inl hstack,
        congrArg (fun s : St => s.toLex) same⟩

end Frame

/-- `noeval` means no effect, for `mathevali_noeval` and for a sub-expression that is skipped,
exactly if the subscripts of the assignments it walks over have none of their own. The evaluation
around is left as it was only where the walk ends at its cursor. -/
theorem noeval_effect_iff (S : Shell) :
    (∀ (room : Nat) (st : St) (s : Text),
      ((mathevali_noeval S room st s).1.hist = st.hist ∧
          (room < MAX_MLEVEL → SameFrame st (mathevali_noeval S room st s).1)) ↔
        (∀ body ∈ subscripts S room st s, Harmless S (room - 1) st.hist body) ∧
          (room < MAX_MLEVEL → St.stripNularg s = [] ∨ AtEnd S room st s)) ∧
    ∀ (room fuel pc : Nat) (st : St), 0 < st.noeval → st.unary = true → 2 ≤ pc →
      pc ≤ st.prec.top_prec →
      (Skipped S room (matheval S room) fuel pc st ↔
        ∀ body ∈ subscriptsOf S room fuel pc st, Harmless S room st.hist body) := by
  refine ⟨fun room st s => ?_, fun room fuel pc st hn hu hpc htop => ?_⟩
  · rw [← noeval_quiet_iff S room st s]
    constructor
    · rintro ⟨quiet, frame⟩
      refine ⟨quiet, fun h => (skim_frame S room st s).mp ?_⟩
      rw [← noeval_eq_skim S room st s quiet]
      exact frame h
    · rintro ⟨quiet, frame⟩
      refine ⟨quiet, fun h => ?_⟩
      rw [noeval_eq_skim S room st s quiet]
      exact (skim_frame S room st s).mpr (frame h)
  · exact skipped_iff S room ⟨hpc, htop, hn, List.suffix_rfl, fun _ => .of_unary hu rfl⟩

def plainShell : Shell where
  bash_mode := false
  posix_faithful := false
  korn_mode := false
  ksh93_mode := false
  pdksh_family := false
  sh_mode := false
  dash_faithful := false
  dash_strict := false
  emulate_sh := false
  emulating_592 := false
  x86 := false
  cprecedences := fun _ => false
  forcefloat := fun _ => false
  octalzeroes := fun _ => false
  lastval := fun _ => 0
  mypid := 1
  poundgetfn := fun _ => 0
  lexconstant := fun lx =>
    let digits := lx.rest.takeWhile is_digit
    ⟨.NUM, .integer (Int64.ofNat (decimal digits)), lx.input, lx.pos + digits.length, -1, none⟩
  decode_math_keychar := fun _ => none
  itype_end := fun t => (t.takeWhile is_ident).length
  zstrtol := fun t _ => Int64.ofNat (decimal t)
  zlong_from_double := Float.toInt64
  fmod := fun a _ => a
  ksh_arith := fun _ a _ => a
  ksh_float_cmp := fun _ _ => none
  ksh_float_neg := id
  round_int := id
  is_hashed := fun _ _ => false
  is_set := fun _ _ => false
  setnparam := fun _ _ _ => none
  getmathparam := fun _ _ _ => ⟨[], .integer 0, none⟩
  getcvar := fun _ _ _ => ⟨[], .integer 0, none⟩
  callmathfunc := fun _ _ s => ⟨[.call s], .integer 0, none⟩
  shortcut := fun _ _ => none

def idle : St where
  input := []
  pos := 0
  tok_start := 0
  yyval := .integer 0
  yylval := []
  unary := true
  lastbase := -1
  error := none
  force_float := false
  octal_zeroes := false
  mtok := .EOI
  stack := []
  noeval := 0
  m_variables := fun _ => none
  m_string_variables := fun _ => none
  prec := .Z_PREC
  c_precedences := false
  hist := []
  subs := []

def skipping : St := { idle with input := ['b', '=', '1'], noeval := 1 }

theorem skipping_no_effect :
    Skipped plainShell MAX_MLEVEL (matheval plainShell MAX_MLEVEL) 4 17 skipping := by
  refine ((noeval_effect_iff plainShell).2 MAX_MLEVEL 4 17 skipping (by decide) rfl (by decide)
    (by decide)).mpr ?_
  have none : subscriptsOf plainShell MAX_MLEVEL 4 17 skipping = [] := rfl
  rw [none]
  exact fun _ h => absurd h List.not_mem_nil

/-- `a[x=5]=1` assigns `x` under `mathevali_noeval`, and on the side of `&&` that is not taken. -/
theorem noeval_subscript_assigns :
    (mathevali_noeval plainShell MAX_MLEVEL idle ['a', '[', 'x', '=', '5', ']', '=', '1']).1.hist ≠
        idle.hist ∧
      (matheval plainShell MAX_MLEVEL idle
        ['0', '&', '&', '(', 'a', '[', 'x', '=', '5', ']', '=', '1', ')']).1.hist ≠ idle.hist := by
  constructor
  · intro h
    have length : 1 = 0 := congrArg List.length h
    exact absurd length (by decide)
  · intro h
    have length : 1 = 0 := congrArg List.length h
    exact absurd length (by decide)

end Zshrs.Math
