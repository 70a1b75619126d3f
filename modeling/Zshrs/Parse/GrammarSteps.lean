import Zshrs.Parse.Grammar
import Zshrs.Parse.Steps

namespace Zshrs.Parse.Wordcode

section Heads

variable {α β : Type} {u p : Nat} {s s' : St} {m : ParseM α} {f : Nat → ParseM β}

/-- A production has put the word of its head at `u`, where nothing is reserved. -/
structure Head (u : Nat) (s : St) : Prop where
  ready : Ready (u + 1) s.ec
  plain : s.ec.slots[u]? = some .plain
  sober : Sober s

/-- The last word may be taken back where nothing is reserved. -/
theorem allowed_unadd {e : Ec} (inv : Inv e) (used : e.ecused = u + 1) (plain : e.slots[u]? = some .plain) :
    Allowed u e (.unadd u) := by
  have length := Fits.length_slots inv.fits
  have hu : u < e.slots.length := by omega
  have last : e.slots.drop u = [.plain] := by
    rw [List.drop_eq_getElem_cons hu, (List.getElem?_eq_some_iff.mp plain).2]
    rw [List.drop_eq_nil_of_le (by omega)]
  refine ⟨Nat.le_refl u, by omega, fun s hs => ?_⟩
  rw [last] at hs
  exact List.mem_singleton.mp hs

namespace Head

theorem reaches (h : Head u s) (reach : Reaches (u + 1) s s') : Head u s' := by
  obtain ⟨ready, kept⟩ := reach.ready h.ready
  refine ⟨ready, ?_, reach.2 h.sober⟩
  have same := congrArg (·[u]?) kept
  rw [List.getElem?_take_of_lt (Nat.lt_succ_self u), List.getElem?_take_of_lt (Nat.lt_succ_self u)] at same
  rw [same, h.plain]

/-- What is done behind the head leaves the head. -/
theorem does {Q : α → St → Prop} (h : Head u s) (hm : Does (u + 1) s m Q) :
    Does u s m fun a s' => Head u s' ∧ Q a s' :=
  (hm.weaken fun _ _ reach hQ => ⟨h.reaches reach, hQ⟩).mono (Nat.le_succ u)

theorem ready_start (h : Head u s) : Ready u s.ec where
  inv := h.ready.inv
  used := Nat.le_of_succ_le h.ready.used
  whole := by
    have whole := h.ready.whole
    rw [List.take_add_one, h.plain] at whole
    exact whole_cut whole fun s hs => List.mem_singleton.mp hs

/-- Behind such a step the head is there. -/
theorem next {f : α → ParseM β} {R : β → St → Prop} (h : Head u s) (hm : Good (u + 1) m)
    (hf : ∀ a s', Head u s' → Does u s' (f a) R) : Does u s (m >>= f) R :=
  (h.does (hm s h.ready h.sober)).bind fun a s' _ h' => hf a s' h'.1

/-- The head is taken back. -/
theorem unadd (h : Head u s) (used : s.ec.ecused = u + 1) :
    Does u s unadd fun _ s' => s'.ec.ecused = u := by
  apply Does.bind (Q := fun k s' => k = s.ec.ecused ∧ s' = s) (.get ⟨rfl, rfl⟩)
  rintro k s' - ⟨rfl, rfl⟩
  rw [used, Nat.add_sub_cancel]
  exact .call (allowed_unadd h.ready.inv used h.plain) nofun rfl

end Head

/-- The word that is added is a head. -/
theorem ecadd_does (c : wordcode) (inv : Inv s.ec) (sober : Sober s) :
    Does s.ec.ecused s (ecadd c) fun p s' =>
      p = s.ec.ecused ∧ Head s.ec.ecused s' ∧ s'.ec.ecused = s.ec.ecused + 1 := by
  apply Does.bind (Q := fun p s' => p = s.ec.ecused ∧ s' = s) (.get ⟨rfl, rfl⟩)
  rintro p s' - ⟨rfl, rfl⟩
  apply Does.bind (Q := fun _ s₁ => Head s'.ec.ecused s₁ ∧ s₁.ec.ecused = s'.ec.ecused + 1)
  · obtain ⟨-, -, lost, used⟩ := ecadd_fields s'.ec c
    have slots := slots_ecadd inv.fits c
    have length := Fits.length_slots inv.fits
    have inv' := inv.ecadd c
    refine .call (c := .ecadd c) trivial nofun ⟨⟨⟨inv', Nat.le_of_eq used.symm, ?_⟩, ?_, ?_⟩, used⟩
    · change Whole ((s'.ec.ecadd c).slots.take _)
      rw [List.take_of_length_le (Nat.le_of_eq ((Fits.length_slots inv'.fits).trans used))]
      exact inv'.whole
    · change (s'.ec.ecadd c).slots[s'.ec.ecused]? = some .plain
      rw [slots, ← length, List.getElem?_concat_length]
    · exact sober.imp id lost.trans
  · exact fun _ s₁ _ h => .pure ⟨rfl, h⟩

/-- A production that begins with its head. -/
theorem Does.head {R : β → St → Prop} {c : wordcode} (inv : Inv s.ec) (sober : Sober s)
    (h : ∀ s', Head s.ec.ecused s' → s'.ec.ecused = s.ec.ecused + 1 → Does s.ec.ecused s' (f s.ec.ecused) R) :
    Does s.ec.ecused s (ecadd c >>= f) R := by
  apply (ecadd_does c inv sober).bind
  rintro p s' - ⟨rfl, head, used⟩
  exact h s' head used

/-- Whether a production has found anything. If not, it has left nothing. -/
def Part (m : ParseM (Bool × Bool)) : Prop :=
  ∀ s, Inv s.ec → Sober s → Does s.ec.ecused s m fun a s' => a.1 = false → s'.ec.ecused = s.ec.ecused

/-- The same, where what it has found begins with a head. -/
def Headed (m : ParseM (Bool × Bool)) : Prop :=
  ∀ s, Inv s.ec → Sober s → Does s.ec.ecused s m fun a s' =>
    (a.1 = false → s'.ec.ecused = s.ec.ecused) ∧ (a.1 = true → s'.ec.slots[s.ec.ecused]? = some .plain)

theorem Headed.part {m : ParseM (Bool × Bool)} (h : Headed m) : Part m :=
  fun s inv sober => (h s inv sober).weaken fun _ _ _ h => h.1

theorem Part.production {m : ParseM (Bool × Bool)} (h : Part m) : Production m :=
  fun s inv sober => (h s inv sober).weaken fun _ _ _ _ => trivial

/-- What is required of the productions one level down. -/
structure Rec.Sound (r : Rec) : Prop where
  par_list : ∀ c, Production (r.par_list c)
  par_list1 : ∀ c, Production (r.par_list1 c)
  par_sublist : ∀ c, Headed (r.par_sublist c)
  par_pipe : ∀ c, Part (r.par_pipe c)
  par_cmd : ∀ c, Part (r.par_cmd c)
  par_cond_top : Production r.par_cond_top
  par_cond_1 : Production r.par_cond_1
  par_cond_2 : Production r.par_cond_2

end Heads

section Calls

variable {u p : Nat} {s : St} (env : Env)

theorem Good.word (p : Nat) : Good u (word p) := .get _

theorem Still.patch (p : Nat) (c : wordcode) : Still (Wordcode.patch p c) :=
  .call (fun _ _ => trivial) nofun (fun _ => slots_patch p c) fun _ => rfl

theorem Good.patch (p : Nat) (c : wordcode) : Good u (Wordcode.patch p c) := (Still.patch p c).good

theorem Good.add (c : wordcode) : Good u (Wordcode.call (.ecadd c)) := .call (fun _ _ => trivial) nofun

theorem Good.used : Good u Wordcode.ecused := .get _

theorem Good.tok : Good u Wordcode.tok := .get _

theorem Good.tokstr : Good u Wordcode.tokstr := .get _

theorem Good.zshlex : Good u (Wordcode.zshlex env) := (Still.zshlex env).good

theorem Good.skipSeper (n : Nat) : Good u (Wordcode.skipSeper env n) := (Still.skipSeper env n).good

theorem Good.ecstr (s : Str) : Good u (Wordcode.ecstr env s) :=
  .bind (Still.ecstrcode env s).good fun _ => .add _

theorem Good.ecispace (hp : u ≤ p) (n : Nat) : Good u (Wordcode.ecispace p n) := by
  intro s _ _
  apply Does.bind (Q := fun k s' => k = s.ec.ecused ∧ s' = s) (.get ⟨rfl, rfl⟩)
  rintro k s' - ⟨rfl, rfl⟩
  split
  · exact .call ⟨hp, ‹_›⟩ nofun trivial
  · exact .stop

/-- The word behind the head of a list is taken out where it is simple. -/
theorem set_list_code_does (hp : u ≤ p) (hs : s.ec.slots[p + 1]? = some .plain) (sober : Sober s)
    (z : wordcode) (cmplx : Bool) : Does u s (set_list_code p z cmplx) fun _ _ => True := by
  apply Does.bind (Q := fun _ s' => s' = s) (.get rfl)
  rintro w s' - rfl
  split
  · apply Does.bind (Q := fun _ s₁ => s₁ = s') (.get rfl)
    rintro used s₁ - rfl
    apply (Still.patch p _ u s₁ sober).bind
    intro _ s₂ reach h₂
    apply Does.bind (Q := fun _ _ => True)
    · exact .call (c := .ecdel (p + 1)) ⟨Nat.le_succ_of_le hp, by rw [h₂.1, hs]⟩ nofun trivial
    intro _ s₃ reach' _
    unfold when
    split
    · apply Does.bind (Q := fun _ s₄ => s₄ = s₃) (.get rfl)
      rintro w s₄ - rfl
      exact (Still.patch _ _ u s₄ (reach'.2 (reach.2 sober))).weaken fun _ _ _ _ => trivial
    · exact .pure trivial
  · exact (Still.patch p _ u s' sober).weaken fun _ _ _ _ => trivial

theorem Good.set_sublist_code (p : Nat) (type flags skip : wordcode) (cmplx : Bool) :
    Good u (set_sublist_code p type flags skip cmplx) :=
  .ite (.patch _ _) (.bind (.patch _ _) fun _ => .bind (.word _) fun _ => .patch _ _)

end Calls

section Words

variable {u n : Nat} (env : Env)

theorem par_wordlist_good : Good u (par_wordlist_wordcode env n) := by
  apply Good.iterate
  intro num
  refine .bind .tok fun t => .ite ?_ (.pure _)
  refine .bind .tokstr fun s => .bind (.ecstr env s) fun _ => .bind (.zshlex env) fun _ => .pure _

theorem par_nl_wordlist_good : Good u (par_nl_wordlist_wordcode env n) := by
  apply Good.iterate
  intro num
  refine .bind .tok fun t => .ite ?_ (.ite ?_ (.pure _))
  · exact .bind .tokstr fun s => .bind (.ecstr env s) fun _ => .bind (.zshlex env) fun _ => .pure _
  · exact .bind (.zshlex env) fun _ => .pure _

end Words

section Redirections

variable {u rp : Nat} {s : St} (env : Env)

theorem ecstrcode?_still (s : Option Str) : Still (ecstrcode? env s) := by
  cases s with
  | none => exact .pure none
  | some s => exact .bind (.ecstrcode env s) fun c => .pure (some c)

/-- What a redirection has put in at `rp`. After an error it has put in nothing. -/
def Redirected (rp : Nat) (s : St) (a : Nat × Nat) (s' : St) : Prop :=
  a.2 = rp + a.1 ∧ (a.1 = 0 → s'.ec.slots = s.ec.slots ∧ s'.ec.ecused = s.ec.ecused)

theorem par_heredoc_does (hrp : u ≤ rp) (type fd1 : wordcode) (idstring : Option Str) (name : Str)
    (hs : Ready u s.ec) (sober : Sober s) :
    Does u s (par_heredoc env rp type fd1 idstring name) (Redirected rp s) := by
  unfold par_heredoc
  split
  · refine (Does.yyerror_here hs).weaken fun a s' _ h => ?_
    obtain ⟨rfl, same⟩ := h
    exact ⟨rfl, fun _ => same⟩
  · apply (ecstrcode?_still env idstring u s sober).bind
    intro id s₁ reach h₁
    apply Does.bind (Q := fun k s₂ => k = s₁.ec.ecused ∧ s₂ = s₁) (.get ⟨rfl, rfl⟩)
    rintro k s₂ - ⟨rfl, rfl⟩
    split
    · apply Does.bind (Q := fun _ s₃ => Sober s₃)
      · refine .call (c := .heredoc rp type fd1 id name) ⟨hrp, ‹_›⟩ nofun ?_
        exact (reach.2 sober).imp_right (lost_exec (c := .heredoc rp type fd1 id name) nofun).trans
      · intro _ s₃ _ sober₃
        apply (Still.zshlex env u s₃ sober₃).bind
        exact fun _ _ _ _ => .pure ⟨rfl, fun h => absurd h (Nat.ne_of_gt (ncodes_pos id))⟩
    · exact .stop

theorem par_redir_does (hrp : u ≤ rp) (idstring : Option Str) (hs : Ready u s.ec) (sober : Sober s) :
    Does u s (par_redir_wordcode env rp idstring) (Redirected rp s) := by
  apply Does.bind (Q := fun _ s' => s' = s) (.get rfl)
  rintro t s' - rfl
  cases redirType t with
  | none => exact .pure ⟨rfl, fun _ => ⟨rfl, rfl⟩⟩
  | some type =>
    apply Does.bind (Q := fun _ s₁ => s₁ = s') (.get rfl)
    rintro fd1 s₁ - rfl
    apply (Still.zshlex env u s₁ sober).bind
    intro _ s₂ reach h₂
    have hs₂ := (reach.ready hs).1
    have sober₂ := reach.2 sober
    apply Does.bind (Q := fun _ s₃ => s₃ = s₂) (.get rfl)
    rintro t s₃ - rfl
    split
    · apply (Still.error u s₃ sober₂).bind
      exact fun _ s₄ _ h₄ => .pure ⟨rfl, fun _ => ⟨h₄.1.trans h₂.1, h₄.2.trans h₂.2⟩⟩
    apply Does.bind (Q := fun _ s₄ => s₄ = s₃) (.get rfl)
    rintro name s₄ - rfl
    split
    · refine (par_heredoc_does env hrp _ _ idstring name hs₂ sober₂).weaken fun a s₅ _ h => ?_
      exact ⟨h.1, fun none => ⟨(h.2 none).1.trans h₂.1, (h.2 none).2.trans h₂.2⟩⟩
    cases procRedir type name with
    | none =>
      refine (Does.yyerror_here hs₂).weaken fun a s₅ _ h => ?_
      obtain ⟨rfl, same⟩ := h
      exact ⟨rfl, fun _ => ⟨same.1.trans h₂.1, same.2.trans h₂.2⟩⟩
    | some type =>
      apply (Good.zshlex env).next hs₂ sober₂
      intro _ s₄ hs₄ sober₄
      apply (Good.ecispace hrp _).next hs₄ sober₄
      intro _ s₅ hs₅ sober₅
      apply (Still.ecstrcode env name).good.next hs₅ sober₅
      intro coded s₆ hs₆ sober₆
      apply (Good.patch rp _).next hs₆ sober₆
      intro _ s₇ hs₇ sober₇
      apply (Good.patch _ _).next hs₇ sober₇
      intro _ s₈ hs₈ sober₈
      apply (Good.patch _ _).next hs₈ sober₈
      intro _ s₉ hs₉ sober₉
      apply (ecstrcode?_still env idstring).good.next hs₉ sober₉
      have some_words : (if idstring.isSome then 4 else 3) ≠ 0 := by
        split
        · exact Nat.succ_ne_zero 3
        · exact Nat.succ_ne_zero 2
      intro id s₁₀ hs₁₀ sober₁₀
      cases id with
      | none => exact .pure ⟨rfl, fun h => absurd h some_words⟩
      | some id =>
        apply (Good.patch _ _).next hs₁₀ sober₁₀
        exact fun _ _ _ _ => .pure ⟨rfl, fun h => absurd h some_words⟩

end Redirections

section Conditions

variable {u n : Nat} {r : Rec} (env : Env)

theorem skipSep_good : Good u (skipSep env n) := by
  apply Good.iterate
  intro _
  refine .bind (.bind .tok fun t => .bind (.get _) fun k => .pure _) fun sep => .ite ?_ (.pure _)
  exact .bind (.zshlex env) fun _ => .pure _

theorem condError_good : Good u condError := .yyerror_here ()

theorem ecstrs_good (l : List Str) : Good u (ecstrs env l) := by
  induction l with
  | nil => exact .pure ()
  | cons s l ih => exact .bind (.ecstr env s) fun _ => ih

theorem par_cond_double_good (a b : Str) : Good u (par_cond_double env a b) := by
  have plain : Good u (do
      call (.ecadd (WCB_COND 18 1))
      ecstr env a
      ecstr env b) :=
    .bind (.add _) fun _ => .bind (.ecstr env a) fun _ => .ecstr env b
  unfold par_cond_double
  refine .ite condError_good ?_
  split
  · exact .ite (.bind (.add _) fun _ => .ecstr env b) plain
  · exact plain

theorem ecnpat_good : Good u ecnpat :=
  .bind (.get _) fun _ => .bind (.modify (fun _ => rfl) (fun _ => rfl) fun _ => rfl) fun _ => .add _

theorem par_cond_triple_good (a b c : Str) : Good u (par_cond_triple env a b c) := by
  have two (code : wordcode) {m : ParseM Unit} (h : Good u m) : Good u (do
      call (.ecadd code)
      ecstr env a
      m) :=
    .bind (.add _) fun _ => .bind (.ecstr env a) fun _ => h
  unfold par_cond_triple
  split
  · exact two _ (.bind (.ecstr env c) fun _ => ecnpat_good)
  · refine .ite (.ite condError_good (two _ (.ecstr env c))) (.ite ?_ (.ite ?_ condError_good))
    · split
      · exact two _ (.ecstr env c)
      · exact .bind (.add _) fun _ => .bind (.ecstr env b) fun _ => .bind (.ecstr env a) fun _ => .ecstr env c
    · exact two _ (.bind (.ecstr env b) fun _ => .ecstr env c)

theorem par_cond_multi_good (a : Str) (l : List Str) : Good u (par_cond_multi env a l) :=
  .ite condError_good (.bind (.add _) fun _ => .bind (.ecstr env a) fun _ => ecstrs_good env l)

theorem operands_good (l : List Str) : Good u (operands env n l) := by
  apply Good.iterate
  intro l
  refine .bind .tok fun t => .ite ?_ (.pure _)
  exact .bind .tokstr fun s => .bind (.zshlex env) fun _ => .bind (skipSep_good env) fun _ => .pure _

theorem par_cond_operands_good : Good u (par_cond_operands env n) := by
  refine .bind .tokstr fun s1 => .bind .tok fun t => .ite (.ite ?_ condError_good) ?_
  · exact .bind (.zshlex env) fun _ => .bind (skipSep_good env) fun _ => par_cond_double_good env _ _
  refine .bind (.zshlex env) fun _ => .bind (skipSep_good env) fun _ => .bind .tok fun xtok => .ite ?_ (.ite ?_ ?_)
  · refine .bind (.zshlex env) fun _ => .bind (skipSep_good env) fun _ => .bind .tok fun t =>
      .ite condError_good ?_
    refine .bind .tokstr fun s3 => .bind (.zshlex env) fun _ => .bind (skipSep_good env) fun _ => ?_
    exact .bind (.add _) fun _ => .bind (.ecstr env s1) fun _ => .ecstr env s3
  · exact .ite (.ite (par_cond_double_good env _ _) (par_cond_multi_good env _ _)) condError_good
  · refine .bind .tokstr fun s2 => .bind (.zshlex env) fun _ => .bind (skipSep_good env) fun _ =>
      .bind .tok fun t => .ite ?_ (par_cond_double_good env _ _)
    refine .bind .tokstr fun s3 => .bind (.zshlex env) fun _ => .bind (skipSep_good env) fun _ =>
      .bind .tok fun t => .ite ?_ (par_cond_triple_good env _ _ _)
    exact .bind (operands_good env _) fun l => par_cond_multi_good env _ l

theorem par_cond_2_good (sound : r.Sound) : Good u (par_cond_2 env n r) := by
  refine .bind (skipSep_good env) fun _ => .bind .tok fun t => .ite ?_ (.ite ?_ (par_cond_operands_good env))
  · exact .bind (.zshlex env) fun _ => .bind (.add _) fun _ => .of_production sound.par_cond_2
  · refine .bind (.zshlex env) fun _ => .bind (skipSep_good env) fun _ =>
      .bind (.of_production sound.par_cond_top) fun _ => .bind (skipSep_good env) fun _ => ?_
    exact .bind .tok fun t => .ite condError_good (.zshlex env)

theorem par_cond_chain_production {part rest : ParseM Unit} (hpart : Production part)
    (hrest : Production rest) (op : lextok) (code : wordcode) :
    Production (par_cond_chain env n part op code rest) := by
  apply Production.of_ecused
  intro u
  refine .bind (.of_production hpart) fun _ => .bind (skipSep_good env) fun _ => .bind .tok fun t => .when ?_
  refine .bind (.zshlex env) fun _ => .bind (skipSep_good env) fun _ =>
    .bind (.ecispace (Nat.le_refl u) 1) fun _ => .bind (.of_production hrest) fun _ => ?_
  exact .bind .used fun used => .patch _ _

theorem par_cond_production (sound : r.Sound) : Production (par_cond_wordcode env r) := by
  apply Production.of_ecused
  intro u
  refine .bind (.zshlex env) fun _ => .bind (.of_production sound.par_cond_top) fun _ => ?_
  exact .bind .tok fun t => .ite (.yyerror ()) (.zshlex env)

end Conditions

end Zshrs.Parse.Wordcode
