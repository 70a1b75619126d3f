import Zshrs.Parse.GrammarSteps
import Zshrs.Parse.Productions

namespace Zshrs.Parse.Wordcode

variable {u n : Nat} {r : Rec} {s : St} (env : Env)

section Lists

/-- The sublist of a list, whose head is at `u`. -/
theorem Head.sublist {α : Type} {f : Bool × Bool → ParseM α} {R : α → St → Prop} (sound : r.Sound)
    (head : Head u s) (used : s.ec.ecused = u + 1) (c : Bool)
    (found : ∀ c s', Head u s' → s'.ec.slots[u + 1]? = some .plain → Does u s' (f (true, c)) R)
    (missing : ∀ c s', Head u s' → s'.ec.ecused = u + 1 → Does u s' (f (false, c)) R) :
    Does u s (r.par_sublist c >>= f) R := by
  have sub := sound.par_sublist c s head.ready.inv head.sober
  rw [used] at sub
  apply (head.does sub).bind
  rintro ⟨b, c⟩ s' - ⟨head', none, plain⟩
  cases b with
  | true => exact found c s' head' (plain rfl)
  | false => exact missing c s' head' (none rfl)

theorem par_list_production (sound : r.Sound) (cmplx : Bool) : Production (par_list_wordcode env n r cmplx) := by
  apply Production.of_good
  intro u
  apply Good.iterate
  rintro ⟨lp, cmplx⟩
  refine .bind (.skipSeper env n) fun _ => .of_production ?_
  intro s inv sober
  apply Does.head inv sober
  intro s₁ head used
  apply head.sublist sound used
  · intro c s₂ head plain
    apply Does.bind (Q := fun _ s₃ => s₃ = s₂) (.get rfl)
    rintro t s₃ - rfl
    have code (z : wordcode) := set_list_code_does (Nat.le_refl _) plain head.sober z c
    split
    · apply (code _).bind
      intro _ s₄ reach _
      apply (Good.zshlex env).next (reach.ready head.ready_start).1 (reach.2 head.sober)
      intro _ s₅ hs₅ sober₅
      apply (Good.skipSeper env n).next hs₅ sober₅
      exact fun _ _ _ _ => .pure trivial
    · apply (code _).bind
      exact fun _ _ _ _ => .pure trivial
  · intro c s₂ head used
    apply (head.unadd used).bind
    intro _ s₃ reach _
    cases lp with
    | none => exact .pure trivial
    | some lp =>
      have mark : Good s.ec.ecused (do
          let w ← word lp
          patch lp (w ||| wc_bdata Z_END)
          pure (Sum.inr cmplx : (Option Nat × Bool) ⊕ Bool)) :=
        .bind (.word lp) fun w => .bind (.patch lp _) fun _ => .pure _
      exact mark s₃ (reach.ready head.ready_start).1 (reach.2 head.sober)

theorem par_list1_production (sound : r.Sound) (cmplx : Bool) : Production (par_list1_wordcode r cmplx) := by
  intro s inv sober
  apply Does.head inv sober
  intro s₁ head used
  apply head.sublist sound used
  · intro c s₂ head plain
    apply (set_list_code_does (Nat.le_refl _) plain head.sober _ c).bind
    exact fun _ _ _ _ => .pure trivial
  · intro c s₂ head used
    apply (head.unadd used).bind
    exact fun _ _ _ _ => .pure trivial

theorem save_list_production {list : Bool → ParseM Bool} (h : ∀ c, Production (list c)) (cmplx : Bool) :
    Production (save_list list cmplx) := by
  apply Production.of_ecused
  intro u
  refine .bind (.of_production (h cmplx)) fun c => .bind .used fun used => .ite ?_ (.pure c)
  exact .bind (.add _) fun _ => .pure c

theorem save_list_good (sound : r.Sound) (cmplx : Bool) : Good u (par_save_list_wordcode r cmplx) :=
  .of_production (save_list_production sound.par_list cmplx)

theorem save_list1_good (sound : r.Sound) (cmplx : Bool) : Good u (par_save_list1_wordcode r cmplx) :=
  .of_production (save_list_production sound.par_list1 cmplx)

/-- A pipeline that is not there has left nothing. -/
theorem par_sublist2_does (sound : r.Sound) (cmplx : Bool) (inv : Inv s.ec) (sober : Sober s) :
    Does s.ec.ecused s (par_sublist2 env r cmplx) fun a s' => a.1 = none → s'.ec.ecused = s.ec.ecused := by
  apply Does.bind (Q := fun _ s' => s' = s) (.get rfl)
  rintro t s' - rfl
  split
  · apply (Good.zshlex env).next (.start inv) sober
    intro _ s₁ hs₁ sober₁
    apply (Good.of_production (sound.par_pipe true).production).next hs₁ sober₁
    rintro ⟨found, c⟩ s₂ - -
    exact .pure nofun
  · apply (sound.par_pipe cmplx s' inv sober).bind
    rintro ⟨found, c⟩ s₁ - missing
    cases found with
    | true => exact .pure nofun
    | false => exact .pure fun _ => missing rfl

theorem par_sublist_headed (sound : r.Sound) (cmplx : Bool) : Headed (par_sublist_wordcode env n r cmplx) := by
  intro s inv sober
  apply Does.head inv sober
  intro s₁ head used
  have sub := par_sublist2_does env sound false head.ready.inv head.sober
  rw [used] at sub
  apply (head.does sub).bind
  rintro ⟨f, c⟩ s₂ - ⟨head, none⟩
  cases f with
  | none =>
    apply (head.unadd (none rfl)).bind
    exact fun _ s₃ _ used => .pure ⟨fun _ => used, nofun⟩
  | some f =>
    apply head.next .used
    intro e s₃ head
    apply head.next .tok
    intro qtok s₄ head
    split
    · apply head.next (.zshlex env)
      intro _ s₅ head
      apply head.next (.skipSeper env n)
      intro _ s₆ head
      apply head.next (.of_production (sound.par_sublist _).part.production)
      rintro ⟨sl, c'⟩ s₇ head
      apply head.next (.set_sublist_code _ _ _ _ _)
      exact fun _ s₈ head => .pure ⟨nofun, fun _ => head.plain⟩
    · apply head.next (.set_sublist_code _ _ _ _ _)
      exact fun _ s₅ head => .pure ⟨nofun, fun _ => head.plain⟩

theorem par_pipe_rest_does {p line : Nat} (sound : r.Sound) (hp : u ≤ p) (hs : Ready u s.ec) (sober : Sober s) :
    Does u s (par_pipe_rest env n r p line) fun a _ => a.1 = true := by
  apply (Good.zshlex env).next hs sober
  intro _ s₁ hs₁ sober₁
  apply (Good.skipSeper env n).next hs₁ sober₁
  intro _ s₂ hs₂ sober₂
  apply (Good.patch p _).next hs₂ sober₂
  intro _ s₃ hs₃ sober₃
  apply (Good.ecispace (Nat.le_succ_of_le hp) 1).next hs₃ sober₃
  intro _ s₄ hs₄ sober₄
  apply Good.used.next hs₄ sober₄
  intro used s₅ hs₅ sober₅
  apply (Good.patch (p + 1) _).next hs₅ sober₅
  intro _ s₆ hs₆ sober₆
  apply (Good.of_production (sound.par_pipe true).production).next hs₆ sober₆
  rintro ⟨found, c⟩ s₇ hs₇ sober₇
  cases found with
  | true => exact .pure rfl
  | false =>
    apply Still.error.good.next hs₇ sober₇
    exact fun _ _ _ _ => .pure rfl

/-- The redirections in front of a command are passed over. -/
theorem passRedirs_does {q : Nat} (hq : u ≤ q) (hs : Ready u s.ec) (sober : Sober s) :
    Does u s (iterate n (fun q => do
      let code ← word q
      if wc_code code = WC_REDIR then pure (.inl (q + WC_REDIR_WORDS code)) else pure (.inr q)) q)
      fun q s' => u ≤ q ∧ Ready u s'.ec ∧ Sober s' := by
  apply Does.iterate (I := fun q s => u ≤ q ∧ Ready u s.ec ∧ Sober s) (fun q s hI => ?_) n q ⟨hq, hs, sober⟩
  apply Does.bind (Q := fun _ s' => s' = s) (.get rfl)
  rintro code s' - rfl
  split
  · exact .pure ⟨Nat.le_add_right_of_le hI.1, hI.2⟩
  · exact .pure hI

theorem par_pipe_part (sound : r.Sound) (cmplx : Bool) : Part (par_pipe_wordcode env n r cmplx) := by
  intro s inv sober
  apply Does.bind (Q := fun _ s' => s' = s) (.get rfl)
  rintro line s' - rfl
  apply Does.head inv sober
  intro s₁ head used
  have cmd := sound.par_cmd cmplx s₁ head.ready.inv head.sober
  rw [used] at cmd
  apply (head.does cmd).bind
  rintro ⟨found, c⟩ s₂ - ⟨head, missing⟩
  cases found with
  | false =>
    apply (head.unadd (missing rfl)).bind
    exact fun _ s₃ _ used => .pure fun _ => used
  | true =>
    have rest {s : St} (hs : Ready s'.ec.ecused s.ec) (sober : Sober s) :
        Does s'.ec.ecused s (par_pipe_rest env n r s'.ec.ecused line)
          fun a s₁ => a.1 = false → s₁.ec.ecused = s'.ec.ecused := by
      refine (par_pipe_rest_does env sound (Nat.le_refl _) hs sober).weaken fun a s₁ _ h => ?_
      rw [h]
      exact nofun
    apply Does.bind (Q := fun _ s₃ => s₃ = s₂) (.get rfl)
    rintro t s₃ - rfl
    split
    · exact rest head.ready_start head.sober
    · split
      · apply (passRedirs_does (Nat.le_succ _) head.ready_start head.sober).bind
        intro q s₄ _ hq
        apply (Good.ecispace hq.1 3).next hq.2.1 hq.2.2
        intro _ s₅ hs₅ sober₅
        apply (Still.ecstrcode env ['1']).good.next hs₅ sober₅
        intro one s₆ hs₆ sober₆
        apply (Good.patch q _).next hs₆ sober₆
        intro _ s₇ hs₇ sober₇
        apply (Good.patch (q + 1) _).next hs₇ sober₇
        intro _ s₈ hs₈ sober₈
        apply (Good.patch (q + 2) _).next hs₈ sober₈
        exact fun _ _ hs₉ sober₉ => rest hs₉ sober₉
      · apply (Good.patch _ _).next head.ready_start head.sober
        exact fun _ _ _ _ => .pure nofun

end Lists

section Loops

theorem loop_body_good (sound : r.Sound) (cmplx csh short : Bool) :
    Good u (loop_body env r cmplx csh short u) := by
  have body (close : lextok) : Good u (do
      let cmplx ← par_save_list_wordcode r cmplx
      if (← tok) ≠ close then YYERROR u (false, cmplx)
      else do
        zshlex env
        pure (true, cmplx)) :=
    .bind (save_list_good sound cmplx) fun c => .bind .tok fun t =>
      .ite (.yyerror _) (.bind (.zshlex env) fun _ => .pure _)
  refine .bind .tok fun t => .ite (.bind (.zshlex env) fun _ => body _) (.ite (body _) (.ite (.yyerror _) ?_))
  exact .bind (save_list1_good sound cmplx) fun c => .pure _

theorem par_loop_body_good (sound : r.Sound) (cmplx csh : Bool) :
    Good u (par_loop_body_wordcode env r cmplx csh u) := by
  apply Good.bind (loop_body_good env sound cmplx _ _)
  rintro ⟨_, c⟩
  exact .pure c

theorem par_for_cond_good : Good u (par_for_cond env u) := by
  have part {m : ParseM Bool} (h : Good u m) (close : lextok) : Good u (do
      if (← tok) ≠ close then YYERROR u false
      else do
        ecstr env (← tokstr)
        zshlex env
        m) :=
    .bind .tok fun t => .ite (.yyerror _) (.bind .tokstr fun s => .bind (.ecstr env s) fun _ =>
      .bind (.zshlex env) fun _ => h)
  refine .ite (.yyerror _) (.bind (.zshlex env) fun _ => ?_)
  exact part (part (part (.pure true) _) _) _

theorem par_for_names_good (sel : Bool) : Good u (par_for_names env n sel) := by
  apply Good.iterate
  intro k
  refine .bind .tokstr fun s => .bind (.ecstr env s) fun _ => .bind (.zshlex env) fun _ =>
    .bind .tokstr fun s => .bind .tok fun t => .ite (.pure _) ?_
  exact .bind (.get _) fun err => .ite (.pure _) (.pure _)

theorem par_for_words_good (posix_in : Bool) : Good u (par_for_words env n u posix_in) := by
  refine .bind .tok fun t => .bind .tokstr fun s => .ite ?_ (.ite ?_ (.pure _))
  · refine .bind (.zshlex env) fun _ => .bind (.ecadd 0) fun np => .bind (par_wordlist_good env) fun k =>
      .bind .tok fun t => .ite (.yyerror _) ?_
    exact .bind (.patch np _) fun _ => .pure _
  · refine .bind (.zshlex env) fun _ => .bind (.ecadd 0) fun np => .bind (par_nl_wordlist_good env) fun k =>
      .bind .tok fun t => .ite (.yyerror _) ?_
    exact .bind (.patch np _) fun _ => .bind (.zshlex env) fun _ => .pure _

theorem countPlace_good (sel : Bool) : Good u (countPlace sel) := .ite (.pure 0) (.ecadd 0)

theorem par_for_head_good (sel : Bool) : Good u (par_for_head env n u sel) := by
  refine .bind .tok fun t => .bind .tokstr fun s => .ite (.yyerror _) ?_
  refine .bind (countPlace_good sel) fun np => .bind (par_for_names_good env sel) fun k => ?_
  cases k with
  | none => exact .yyerror _
  | some k =>
    refine .bind (.when (.patch np _)) fun _ => .bind (.get _) fun posix_in =>
      .bind (Still.skipNewlin env n).good fun _ => .bind (par_for_words_good env posix_in) fun words => ?_
    cases words with
    | none => exact .pure none
    | some found =>
      cases found with
      | true => exact .pure _
      | false => exact .pure _

theorem par_for_type_good (sel : Bool) : Good u (par_for_type env n u sel) :=
  .bind .tok fun _ => .ite (.bind (par_for_cond_good env) fun _ => .pure _) (par_for_head_good env sel)

theorem par_for_production (sound : r.Sound) (cmplx : Bool) : Production (par_for_wordcode env n r cmplx) := by
  apply Production.of_ecused
  intro u
  refine .bind .tok fun t => .bind (.ecadd 0) fun p => .bind (.zshlex env) fun _ =>
    .bind (par_for_type_good env _) fun type => ?_
  cases type with
  | none => exact .pure cmplx
  | some type =>
    refine .bind (.skipSeper env n) fun _ => .bind (par_loop_body_good env sound _ _) fun c =>
      .bind .used fun used => ?_
    exact .bind (.patch p _) fun _ => .pure c

theorem par_while_production (sound : r.Sound) (cmplx : Bool) :
    Production (par_while_wordcode env n r cmplx) := by
  apply Production.of_ecused
  intro u
  refine .bind .tok fun t => .bind (.ecadd 0) fun p => .bind (.zshlex env) fun _ =>
    .bind (save_list_good sound cmplx) fun c => .bind (.skipSeper env n) fun _ =>
    .bind (loop_body_good env sound c _ _) fun body => ?_
  obtain ⟨ok, c⟩ := body
  exact .ite (.pure c) (.bind .used fun used => .bind (.patch p _) fun _ => .pure c)

theorem par_repeat_production (sound : r.Sound) (cmplx : Bool) :
    Production (par_repeat_wordcode env n r cmplx) := by
  apply Production.of_ecused
  intro u
  refine .bind (.ecadd 0) fun p => .bind (.zshlex env) fun _ => .bind .tok fun t => .ite (.yyerror _) ?_
  refine .bind .tokstr fun s => .bind (.ecstr env s) fun _ => .bind (.zshlex env) fun _ =>
    .bind (.skipSeper env n) fun _ => .bind (loop_body_good env sound cmplx _ _) fun body => ?_
  obtain ⟨ok, c⟩ := body
  exact .ite (.pure c) (.bind .used fun used => .bind (.patch p _) fun _ => .pure c)

end Loops

section Case

theorem casePattern_good (str : Str) : Good u (casePattern env str) :=
  .bind (.ecstr env str) fun _ => ecnpat_good

theorem par_case_patterns_good (str : Str) : Good u (par_case_patterns env n u str) := by
  apply Good.iterate
  rintro ⟨nalts, str⟩
  refine .bind .tok fun t => .ite ?_ (.ite ?_ (.ite ?_ (.yyerror _)))
  · exact .bind (casePattern_good env str) fun _ => .bind (.zshlex env) fun _ => .pure _
  · refine .bind (casePattern_good env str) fun _ => .bind (.zshlex env) fun _ => .bind .tok fun t =>
      .ite ?_ (.ite (.pure _) (.yyerror _))
    exact .bind .tokstr fun str => .bind (.zshlex env) fun _ => .pure _
  · cases stripBlanks str.length 0 [] str with
    | none => exact .yyerror _
    | some str => exact .bind (casePattern_good env _) fun _ => .pure _

theorem par_case_arm_good (sound : r.Sound) (brflag cmplx : Bool) :
    Good u (par_case_arm env n r u brflag cmplx) := by
  refine .bind (.skipSeper env n) fun _ => .bind .tok fun t => .ite (.pure _) ?_
  refine .bind .tok fun t => .bind (.when (.zshlex env)) fun _ => .bind .tok fun t => .bind .tokstr fun str =>
    .ite (.yyerror _) (.ite (.pure _) ?_)
  refine .bind (.ecadd 0) fun pp => .bind (.ecadd 0) fun palts => .bind (.when (.zshlex env)) fun _ =>
    .bind (par_case_patterns_good env _) fun alts => ?_
  cases alts with
  | none => exact .pure _
  | some nalts =>
    refine .bind (save_list_good sound cmplx) fun c => .bind .tok fun t => .bind .used fun used =>
      .bind (.patch pp _) fun _ => .bind (.patch palts _) fun _ => .ite (.pure _) (.ite (.yyerror _) ?_)
    exact .bind (.zshlex env) fun _ => .pure _

theorem par_case_production (sound : r.Sound) (cmplx : Bool) : Production (par_case_wordcode env n r cmplx) := by
  apply Production.of_ecused
  intro u
  refine .bind (.ecadd 0) fun p => .bind (.zshlex env) fun _ => .bind .tok fun t => .ite (.yyerror _) ?_
  refine .bind .tokstr fun s => .bind (.ecstr env s) fun _ => .bind (.zshlex env) fun _ =>
    .bind (.skipSeper env n) fun _ => .bind .tok fun t => .bind .tokstr fun s => .ite (.yyerror _) ?_
  refine .bind (.zshlex env) fun _ => .bind (.iterate (fun c => ?_) n cmplx) fun body => ?_
  · refine .bind (par_case_arm_good env sound _ c) fun arm => ?_
    obtain ⟨again, c⟩ := arm
    cases again with
    | none => exact .pure _
    | some again =>
      cases again with
      | true => exact .pure _
      | false => exact .pure _
  · obtain ⟨ok, c⟩ := body
    refine .ite (.pure c) (.bind (.zshlex env) fun _ => .bind .used fun used => ?_)
    exact .bind (.patch p _) fun _ => .pure c

end Case

section If

theorem par_if_body_good {pp : Nat} (sound : r.Sound) (type : wordcode) (usebrace cmplx : Bool) :
    Good u (par_if_body env r u pp type usebrace cmplx) := by
  have close : Good u (do
      let used ← ecused
      patch pp (WCB_IF type (ofn (used - (1 + pp))))) := .bind .used fun used => .patch pp _
  refine .bind .tok fun t => .ite ?_ (.ite ?_ (.ite (.yyerror _) ?_))
  · refine .bind (.zshlex env) fun _ => .bind (save_list_good sound cmplx) fun c => ?_
    exact .bind close fun _ => .pure _
  · refine .bind (.zshlex env) fun _ => .bind (save_list_good sound cmplx) fun c => .bind .tok fun t =>
      .ite (.yyerror _) ?_
    exact .bind close fun _ => .bind (.zshlex env) fun _ => .bind .tok fun t => .ite (.pure _) (.pure _)
  · exact .bind (save_list1_good sound cmplx) fun c => .bind close fun _ => .pure _

theorem par_if_turn_good (sound : r.Sound) (usebrace cmplx : Bool) :
    Good u (par_if_turn env n r u usebrace cmplx) := by
  refine .bind .tok fun xtok => .bind (.zshlex env) fun _ => .ite (.pure _) ?_
  refine .bind (.skipSeper env n) fun _ => .ite (.yyerror _) ?_
  refine .bind (.ecadd 0) fun pp => .bind (save_list_good sound cmplx) fun c => .bind .tok fun t =>
    .ite (.yyerror _) ?_
  exact .bind (.skipSeper env n) fun _ => par_if_body_good env sound _ _ _

theorem par_if_else_good (sound : r.Sound) (usebrace cmplx : Bool) :
    Good u (par_if_else env n r u usebrace cmplx) := by
  refine .bind (.ecadd 0) fun pp => .bind (.skipSeper env n) fun _ => .bind .tok fun t =>
    .bind (.when (.zshlex env)) fun _ => .bind (save_list_good sound cmplx) fun c => .bind .tok fun t =>
    .ite (.yyerror _) ?_
  exact .bind .used fun used => .bind (.patch pp _) fun _ => .bind (.zshlex env) fun _ => .pure _

theorem par_if_production (sound : r.Sound) (cmplx : Bool) : Production (par_if_wordcode env n r cmplx) := by
  apply Production.of_ecused
  intro u
  refine .bind (.ecadd 0) fun p => .bind (.iterate (fun before => ?_) n (false, cmplx)) fun turn => ?_
  · obtain ⟨usebrace, c⟩ := before
    refine .bind (par_if_turn_good env sound usebrace c) fun turn => ?_
    obtain ⟨turn, c⟩ := turn
    cases turn with
    | next usebrace => exact .pure _
    | done xtok usebrace => exact .pure _
    | failed => exact .pure _
  · obtain ⟨turn, c⟩ := turn
    cases turn with
    | next usebrace => exact .pure c
    | failed => exact .pure c
    | done xtok usebrace =>
      have last : Good u (par_if_last env n r u xtok usebrace c) :=
        .bind .tok fun t => .ite (par_if_else_good env sound usebrace c) (.pure _)
      refine .bind last fun last => ?_
      obtain ⟨ok, c⟩ := last
      exact .ite (.pure c) (.bind .used fun used => .bind (.patch p _) fun _ => .pure c)

end If

section Groups

theorem par_subsh_production (sound : r.Sound) (cmplx : Bool) :
    Production (par_subsh_wordcode env n r cmplx) := by
  apply Production.of_ecused
  intro u
  refine .bind .tok fun otok => .bind (.ecadd 0) fun p => .bind (.ecadd 0) fun pp => .bind (.zshlex env) fun _ =>
    .bind (.of_production (sound.par_list cmplx)) fun c => .bind (.add _) fun _ => .bind .tok fun t =>
    .ite (.yyerror _) ?_
  refine .bind (.zshlex env) fun _ => .bind .tok fun t => .bind .tokstr fun s => .ite ?_ ?_
  · refine .bind .used fun used => .bind (.patch pp _) fun _ => .bind (.zshlex env) fun _ =>
      .bind (.skipSeper env n) fun _ => .bind .tok fun t => .ite (.yyerror _) ?_
    refine .bind (.zshlex env) fun _ => .bind (save_list_good sound c) fun c =>
      .bind (.skipSeper env n) fun _ => .bind .tok fun t => .ite (.yyerror _) ?_
    exact .bind (.zshlex env) fun _ => .bind .used fun used => .bind (.patch p _) fun _ => .pure c
  · exact .bind .used fun used => .bind (.patch p _) fun _ => .pure c

theorem par_arith_good : Good u (par_arith_wordcode env) :=
  .bind (.add _) fun _ => .bind .tokstr fun s => .bind (.ecstr env s) fun _ => .zshlex env

/-- A command whose time is taken. Its second head goes where there is no pipeline. -/
theorem par_time_production (sound : r.Sound) : Production (par_time_wordcode env r) := by
  apply Production.of_good
  intro u
  refine .bind (.zshlex env) fun _ => .of_production ?_
  intro s inv sober
  apply Does.head inv sober
  intro s₁ head used
  apply Does.mono (v := s.ec.ecused + 1) (Nat.le_succ _)
  rw [← used]
  apply Does.head head.ready.inv head.sober
  intro s₂ head₂ used₂
  have sub := par_sublist2_does env sound false head₂.ready.inv head₂.sober
  rw [used₂] at sub
  apply (head₂.does sub).bind
  rintro ⟨f, c⟩ s₃ - ⟨head₃, none⟩
  cases f with
  | some flags =>
    apply head₃.next (.patch _ _)
    intro _ s₄ head₄
    apply head₄.next .used
    intro used s₅ head₅
    exact (Good.set_sublist_code _ _ _ _ _) s₅ head₅.ready_start head₅.sober
  | none =>
    apply (head₃.unadd (none rfl)).bind
    intro _ s₄ reach _
    exact Good.patch _ _ s₄ (reach.ready head₃.ready_start).1 (reach.2 head₃.sober)

end Groups

section Functions

theorem enterBody_good : Good u (enterBody env) :=
  .bind (.get _) fun _ => .bind (.get _) fun _ => .bind (.get _) fun _ =>
    .bind (.modify (fun _ => rfl) (fun _ => rfl) fun _ => rfl) fun _ => .pure _

theorem leaveBody_good (o : Outer) : Good u (leaveBody o) :=
  .modify (fun _ => rfl) (fun _ => rfl) fun _ => rfl

theorem patchBody_good (m : Nat) (o : Outer) (do_tracing : wordcode) : Good u (patchBody env m o do_tracing) :=
  .bind (.get _) fun _ => .bind (.get _) fun _ => .bind (.patch _ _) fun _ => .bind (.patch _ _) fun _ =>
    .bind (.patch _ _) fun _ => .patch _ _

theorem par_funcdef_options_good : Good u (par_funcdef_options env) := by
  refine .bind .tokstr fun s => .bind .tok fun t => .ite ?_ (.pure 0)
  exact .bind (.when (.zshlex env)) fun _ => .bind .tokstr fun s => .bind .tok fun t =>
    .bind (.when (.zshlex env)) fun _ => .pure _

/-- The name that is a brace is the only token that is read anew. -/
theorem par_funcdef_names_good : Good u (par_funcdef_names env n) := by
  apply Good.iterate
  intro num s hs sober
  apply Does.bind (Q := fun t s' => t = s.tok ∧ s' = s) (.get ⟨rfl, rfl⟩)
  rintro t s' - ⟨rfl, rfl⟩
  split
  · apply Does.bind (Q := fun _ s₁ => s₁ = s') (.get rfl)
    rintro str s₁ - rfl
    split
    · apply Does.bind (Q := fun _ _ => True)
      · refine .set_tok (.inr fun error => ?_) trivial
        have string : s₁.tok = .string := ‹_›
        rw [string] at error
        cases error
      · exact fun _ _ _ _ => .pure trivial
    · have name : Good u (do
          ecstr env str
          zshlex env
          pure (Sum.inl (num + 1) : Nat ⊕ Nat)) :=
        .bind (.ecstr env str) fun _ => .bind (.zshlex env) fun _ => .pure _
      exact name s₁ hs sober
  · exact .pure trivial

theorem par_funcdef_body_good (sound : r.Sound) (o : Outer) : Good u (par_funcdef_body env r u o) := by
  refine .bind .tok fun t => .ite ?_ (.ite ?_ ?_)
  · refine .bind (.zshlex env) fun _ => .bind (.of_production (sound.par_list false)) fun _ => .bind .tok fun t =>
      .ite ?_ (.bind (.zshlex env) fun _ => .pure true)
    exact .bind (leaveBody_good o) fun _ => .yyerror _
  · exact .bind (leaveBody_good o) fun _ => .yyerror _
  · exact .bind (.of_production (sound.par_list1 false)) fun _ => .pure true

theorem par_funcdef_args_good (cmplx : Bool) : Good u (par_funcdef_args env n cmplx) :=
  .bind (.ecadd 0) fun _ => .bind (.ecadd 0) fun _ => .bind (par_wordlist_good env) fun _ =>
    .bind .used fun _ => .bind (.patch _ _) fun _ => .bind (.patch _ _) fun _ => .pure _

theorem par_funcdef_production (sound : r.Sound) (cmplx : Bool) :
    Production (par_funcdef_wordcode env n r cmplx) := by
  apply Production.of_ecused
  intro u
  refine .bind (.zshlex env) fun _ => .bind (.ecadd 0) fun p => .bind (.ecadd 0) fun p1 =>
    .bind (par_funcdef_options_good env) fun do_tracing => .bind (par_funcdef_names_good env) fun num =>
    .bind (.ecadd 0) fun m2 => .bind (.add 0) fun _ => .bind (.add 0) fun _ => .bind (.add 0) fun _ =>
    .bind .tok fun t => .bind (.when (.zshlex env)) fun _ => .bind (.skipSeper env n) fun _ =>
    .bind (enterBody_good env) fun o => .bind (par_funcdef_body_good env sound o) fun ok => .ite (.pure _) ?_
  refine .bind (.add _) fun _ => .bind (patchBody_good env _ _ _) fun _ => .bind (.patch _ _) fun _ =>
    .bind (leaveBody_good o) fun _ => .bind .used fun used => .bind (.patch _ _) fun _ => ?_
  exact .ite (par_funcdef_args_good env cmplx) (.pure _)

end Functions

end Zshrs.Parse.Wordcode
