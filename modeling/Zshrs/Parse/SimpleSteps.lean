import Zshrs.Parse.ProductionSteps
import Zshrs.Parse.Simple

namespace Zshrs.Parse.Wordcode

variable {u n : Nat} {r : Rec} {v : Simple} {s : St} (env : Env)

/-- The rollback of a production to its start leaves nothing of it. -/
theorem Does.undone {α : Type} {a : α} {Q : α → St → Prop} (hs : Ready u s.ec)
    (h : ∀ s' : St, s'.ec.ecused = u → Q a s') : Does u s (YYERROR u a) Q :=
  .yyerror ⟨Nat.le_refl u, hs.used, hs.whole⟩ fun s' hec _ => h s' (by rw [hec]; rfl)

/-- How a turn ends: with what holds between two turns, or with the rollback of the command. -/
def Turned (I : Simple → St → Prop) (u : Nat) (t : Turn) (s : St) : Prop :=
  match t with
  | .inl v => I v s
  | .inr (true, v) => I v s
  | .inr (false, _) => s.ec.ecused = u

/-- The rule of a loop over the parts of a simple command. -/
theorem Does.turns {I : Simple → St → Prop} {body : Simple → ParseM Turn}
    (h : ∀ v s, I v s → Does u s (body v) (Turned I u)) (n : Nat) (hI : I v s) :
    Does u s (Wordcode.iterate n body v)
      fun a s' => (a.1 = true → I a.2 s') ∧ (a.1 = false → s'.ec.ecused = u) := by
  apply Does.iterate (I := I) (fun v s hI => (h v s hI).weaken fun t s' _ ht => ?_) n v hI
  cases t with
  | inl v => exact ht
  | inr a =>
    obtain ⟨ok, v⟩ := a
    cases ok with
    | true => exact ⟨fun _ => ht, nofun⟩
    | false => exact ⟨nofun, fun _ => ht⟩

section Front

/-- What holds in front of the command: unless a redirection or an assignment has been found, nothing
has been added. -/
structure Front (u : Nat) (v : Simple) (s : St) : Prop where
  ready : Ready u s.ec
  sober : Sober s
  hr : u ≤ v.r
  bare : v.nr = 0 → v.assignments = false → s.ec.ecused = u

theorem par_envstring_does (h : Front u v s) : Does u s (par_envstring env v) (Turned (Front u) u) := by
  apply Good.tokstr.next h.ready h.sober
  intro raw s₁ hs₁ sober₁
  apply (Good.add _).next hs₁ sober₁
  intro _ s₂ hs₂ sober₂
  apply (Good.ecstr env _).next hs₂ sober₂
  intro _ s₃ hs₃ sober₃
  apply (Good.ecstr env _).next hs₃ sober₃
  intro _ s₄ hs₄ sober₄
  apply (Good.zshlex env).next hs₄ sober₄
  exact fun _ s₅ hs₅ sober₅ => .pure ⟨hs₅, sober₅, h.hr, fun _ none => by cases none⟩

theorem par_array_does (hs : Ready u s.ec) (sober : Sober s) :
    Does u s (par_array env n u) fun ok s' => ok = false → s'.ec.ecused = u := by
  apply (Good.ecadd 0).next hs sober
  intro p s₁ hs₁ sober₁
  apply Good.tokstr.next hs₁ sober₁
  intro raw s₂ hs₂ sober₂
  apply (Good.ecstr env _).next hs₂ sober₂
  intro _ s₃ hs₃ sober₃
  apply (Good.zshlex env).next hs₃ sober₃
  intro _ s₄ hs₄ sober₄
  apply (par_nl_wordlist_good env).next hs₄ sober₄
  intro k s₅ hs₅ sober₅
  apply (Good.patch p _).next hs₅ sober₅
  intro _ s₆ hs₆ sober₆
  apply Good.tok.next hs₆ sober₆
  intro t s₇ hs₇ sober₇
  split
  · exact .undone hs₇ fun s' h _ => h
  · apply (Good.zshlex env).next hs₇ sober₇
    exact fun _ _ _ _ => .pure nofun

theorem simplePrefix_does (h : Front u v s) : Does u s (simplePrefix env n u v) (Turned (Front u) u) := by
  apply Does.bind (Q := fun _ s' => s' = s) (.get rfl)
  rintro t s' - rfl
  split
  · apply (Still.zshlex env u s' h.sober).bind
    intro _ s₁ reach same
    exact .pure ⟨(reach.ready h.ready).1, reach.2 h.sober, h.hr, fun nr as => same.2.trans (h.bare nr as)⟩
  split
  · exact par_envstring_does env h
  split
  · apply (par_array_does env h.ready h.sober).bind
    intro ok s₁ reach failed
    cases ok with
    | true => exact .pure ⟨(reach.ready h.ready).1, reach.2 h.sober, h.hr, fun _ none => by cases none⟩
    | false => exact .pure (failed rfl)
  split
  · apply (par_redir_does env h.hr none h.ready h.sober).bind
    rintro ⟨added, r⟩ s₁ reach ⟨hr, same⟩
    have hs₁ := (reach.ready h.ready).1
    change r = v.r + added at hr
    dsimp only
    split
    · have none : added = 0 := ‹_›
      exact .pure ⟨hs₁, reach.2 h.sober, h.hr, fun nr as => (same none).2.trans (h.bare nr as)⟩
    · refine .pure ⟨hs₁, reach.2 h.sober, ?_, fun (nr : v.nr + added = 0) _ => ?_⟩
      · rw [hr]
        exact Nat.le_add_right_of_le h.hr
      · omega
  · exact .pure h

end Front

section Words

/-- What holds among the words of the command, whose header is at `v.p`: unless something has been
found, it is all that has been added. -/
structure Among (u : Nat) (v : Simple) (s : St) : Prop where
  ready : Ready u s.ec
  sober : Sober s
  hr : u ≤ v.r
  hp : u ≤ v.p
  bare : v.isnull = true → v.sr + v.nr = 0 → v.assignments = false →
    v.p = u ∧ s.ec.ecused = u + 1 ∧ s.ec.slots[u]? = some .plain

theorem Among.of_found {v' : Simple} (hs : Ready u s.ec) (sober : Sober s) (hr : u ≤ v'.r) (hp : u ≤ v'.p)
    (found : v'.isnull = false) : Among u v' s :=
  ⟨hs, sober, hr, hp, fun none => by rw [found] at none; cases none⟩

/-- A word changes none of the places. -/
theorem par_word_does (str : Str) (hs : Ready u s.ec) (sober : Sober s) :
    Does u s (par_word env v str) fun v' _ => v'.r = v.r ∧ v'.p = v.p := by
  unfold par_word
  split
  · apply (Good.add _).next hs sober
    intro _ s₁ hs₁ sober₁
    apply (Good.ecstr env str).next hs₁ sober₁
    intro _ s₂ hs₂ sober₂
    apply (Good.ecstr env []).next hs₂ sober₂
    exact fun _ _ _ _ => .pure ⟨rfl, rfl⟩
  · apply (Good.ecstr env str).next hs sober
    exact fun _ _ _ _ => .pure ⟨rfl, rfl⟩

theorem par_string_does (h : Among u v s) : Does u s (par_string env v) (Turned (Among u) u) := by
  have word {v' : Simple} {s' : St} (hr : u ≤ v'.r) (hp : u ≤ v'.p) (hs' : Ready u s'.ec) (sober' : Sober s')
      (str : Str) {f : Simple → ParseM Turn}
      (hf : ∀ v'' s'', Ready u s''.ec → Sober s'' → u ≤ v''.r → u ≤ v''.p →
        Does u s'' (f v'') (Turned (Among u) u)) :
      Does u s' (par_word env v' str >>= f) (Turned (Among u) u) := by
    apply (par_word_does env str hs' sober').bind
    rintro v'' s'' reach ⟨hr', hp'⟩
    exact hf v'' s'' (reach.ready hs').1 (reach.2 sober') (hr' ▸ hr) (hp' ▸ hp)
  apply Good.tok.next h.ready h.sober
  intro t s₁ hs₁ sober₁
  apply Good.tokstr.next hs₁ sober₁
  intro str s₂ hs₂ sober₂
  cases redirVar env str with
  | none =>
    refine word ?_ ?_ hs₂ sober₂ str ?_
    · exact h.hr
    · exact h.hp
    intro v' s₃ hs₃ sober₃ hr hp
    apply (Good.zshlex env).next hs₃ sober₃
    exact fun _ _ hs₄ sober₄ => .pure (Among.of_found hs₄ sober₄ hr hp rfl)
  | some idstring =>
    apply (Good.zshlex env).next hs₂ sober₂
    intro _ s₃ hs₃ sober₃
    apply (Good.get _).next hs₃ sober₃
    intro fd s₄ hs₄ sober₄
    apply Good.tok.next hs₄ sober₄
    intro t s₅ hs₅ sober₅
    split
    · apply (par_redir_does env h.hr (some idstring) hs₅ sober₅).bind
      rintro ⟨added, r⟩ s₆ reach ⟨hr, -⟩
      change r = v.r + added at hr
      refine .pure (Among.of_found (reach.ready hs₅).1 (reach.2 sober₅) ?_ (Nat.le_add_right_of_le h.hp) rfl)
      change u ≤ r
      rw [hr]
      exact Nat.le_add_right_of_le h.hr
    · refine word ?_ ?_ hs₅ sober₅ str ?_
      · exact h.hr
      · exact h.hp
      exact fun v' s₆ hs₆ sober₆ hr hp => .pure (Among.of_found hs₆ sober₆ hr hp rfl)

theorem postPlace_does (hs : Ready u s.ec) (sober : Sober s) :
    Does u s (postPlace v) fun v' _ => v'.r = v.r ∧ v'.p = v.p := by
  unfold postPlace
  split
  · apply (Good.ecadd 0).next hs sober
    exact fun _ _ _ _ => .pure ⟨rfl, rfl⟩
  · exact .pure ⟨rfl, rfl⟩

theorem par_postassign_does (h : Among u v s) : Does u s (par_postassign env v) (Turned (Among u) u) := by
  apply (postPlace_does h.ready h.sober).bind
  rintro v' s₁ reach ⟨hr, hp⟩
  apply Good.tokstr.next (reach.ready h.ready).1 (reach.2 h.sober)
  intro raw s₂ hs₂ sober₂
  apply (Good.add _).next hs₂ sober₂
  intro _ s₃ hs₃ sober₃
  apply (Good.ecstr env _).next hs₃ sober₃
  intro _ s₄ hs₄ sober₄
  apply (Good.ecstr env _).next hs₄ sober₄
  intro _ s₅ hs₅ sober₅
  apply (Good.zshlex env).next hs₅ sober₅
  exact fun _ _ hs₆ sober₆ => .pure (Among.of_found hs₆ sober₆ (hr ▸ h.hr) (hp ▸ h.hp) rfl)

end Words

section Functions

/-- The short body of a function: its list and sublist are simple where the command is. -/
theorem par_short_body_does (sound : r.Sound) (hs : Ready u s.ec) (sober : Sober s) :
    Does u s (par_short_body r u) fun ok s' => ok = false → s'.ec.ecused = u := by
  apply ((ecadd_does 0 hs.inv sober).mono hs.used).bind
  rintro ll s₁ reach ⟨rfl, head, used⟩
  have hs₁ := (reach.ready hs).1
  apply ((ecadd_does 0 head.ready.inv head.sober).mono hs₁.used).bind
  rintro sl s₂ reach₂ ⟨rfl, head₂, -⟩
  -- What is done behind the two heads leaves the second one.
  have behind {α : Type} {m : ParseM α} {s₃ : St} (h : Head s₁.ec.ecused s₃) (hm : Good (s₁.ec.ecused + 1) m) :
      Does u s₃ m fun _ s₄ => Head s₁.ec.ecused s₄ :=
    ((h.does (hm s₃ h.ready h.sober)).mono hs₁.used).weaken fun _ _ _ h => h.1
  apply (behind head₂ (.add _)).bind
  intro _ s₃ reach₃ head₃
  apply (behind head₃ (.of_production (sound.par_cmd false).production)).bind
  rintro ⟨ok, c⟩ s₄ reach₄ head₄
  have hs₄ := (reach₄.ready (reach₃.ready (reach₂.ready hs₁).1).1).1
  cases ok with
  | false => exact .undone hs₄ fun s' h _ => h
  | true =>
    apply (behind head₄ .used).bind
    intro used' s₅ _ head₅
    apply (behind head₅ (.set_sublist_code _ _ _ _ _)).bind
    intro _ s₆ _ head₆
    have plain := head₆.plain
    rw [used] at plain
    apply (set_list_code_does hs.used plain head₆.sober _ c).bind
    exact fun _ _ _ _ => .pure nofun

theorem par_simple_body_does (sound : r.Sound) (o : Outer) (hs : Ready u s.ec) (sober : Sober s) :
    Does u s (par_simple_body env r u o) fun ok s' => ok = false → s'.ec.ecused = u := by
  apply Good.tok.next hs sober
  intro t s₁ hs₁ sober₁
  split
  · apply (Good.zshlex env).next hs₁ sober₁
    intro _ s₂ hs₂ sober₂
    apply (Good.of_production (sound.par_list false)).next hs₂ sober₂
    intro _ s₃ hs₃ sober₃
    apply Good.tok.next hs₃ sober₃
    intro t s₄ hs₄ sober₄
    split
    · apply (leaveBody_good o).next hs₄ sober₄
      exact fun _ _ hs₅ _ => .undone hs₅ fun s' h _ => h
    · apply (Good.zshlex env).next hs₄ sober₄
      exact fun _ _ _ _ => .pure nofun
  · exact par_short_body_does sound hs₁ sober₁

/-- The arguments of a function without a name. -/
theorem par_simple_args_does (hs : Ready u s.ec) (sober : Sober s) (hr : u ≤ v.r) (hp : u ≤ v.p) :
    Does u s (par_simple_args env n v) fun v' s' => Ready u s'.ec ∧ Sober s' ∧ u ≤ v'.r ∧ u ≤ v'.p := by
  apply (Good.ecadd 0).next hs sober
  intro parg s₁ hs₁ sober₁
  apply (Good.ecadd 0).next hs₁ sober₁
  intro _ s₂ hs₂ sober₂
  apply Does.bind (Q := fun a s' => Ready u s'.ec ∧ Sober s' ∧ u ≤ a.1.r ∧ u ≤ a.1.p)
  · apply Does.iterate (I := fun a s' => Ready u s'.ec ∧ Sober s' ∧ u ≤ a.1.r ∧ u ≤ a.1.p) ?_ n (v, parg)
      ⟨hs₂, sober₂, hr, hp⟩
    rintro ⟨v', parg'⟩ s₃ ⟨hs₃, sober₃, hr', hp'⟩
    apply Good.tok.next hs₃ sober₃
    intro t s₄ hs₄ sober₄
    split
    · apply Good.tokstr.next hs₄ sober₄
      intro str s₅ hs₅ sober₅
      apply (Good.ecstr env str).next hs₅ sober₅
      intro _ s₆ hs₆ sober₆
      apply (Good.zshlex env).next hs₆ sober₆
      exact fun _ _ hs₇ sober₇ => .pure ⟨hs₇, sober₇, hr', hp'⟩
    split
    · apply (par_redir_does env hr' none hs₄ sober₄).bind
      rintro ⟨added, r⟩ s₅ reach ⟨behind, -⟩
      change r = v'.r + added at behind
      have hs₅ := (reach.ready hs₄).1
      dsimp only
      split
      · exact .pure ⟨hs₅, reach.2 sober₄, hr', hp'⟩
      · refine .pure ⟨hs₅, reach.2 sober₄, ?_, Nat.le_add_right_of_le hp'⟩
        change u ≤ r
        rw [behind]
        exact Nat.le_add_right_of_le hr'
    · exact .pure ⟨hs₄, sober₄, hr', hp'⟩
  · rintro ⟨v', parg'⟩ s₃ - ⟨hs₃, sober₃, hr', hp'⟩
    apply Good.used.next hs₃ sober₃
    intro used s₄ hs₄ sober₄
    apply (Good.patch _ _).next hs₄ sober₄
    intro _ s₅ hs₅ sober₅
    apply (Good.patch _ _).next hs₅ sober₅
    exact fun _ _ hs₆ sober₆ => .pure ⟨hs₆, sober₆, hr', hp'⟩

theorem par_simple_func_does (sound : r.Sound) (c_saved : Bool) (h : Among u v s) :
    Does u s (par_simple_func env n r u c_saved v) (Turned (Among u) u) := by
  unfold par_simple_func
  split
  · exact .undone h.ready fun s' h => h
  apply (Good.zshlex env).next h.ready h.sober
  intro _ s₁ hs₁ sober₁
  apply (Good.skipSeper env n).next hs₁ sober₁
  intro _ s₂ hs₂ sober₂
  apply (Good.ecispace (Nat.le_succ_of_le h.hp) 1).next hs₂ sober₂
  intro _ s₃ hs₃ sober₃
  apply (Good.patch _ _).next hs₃ sober₃
  intro _ s₄ hs₄ sober₄
  apply (Good.add 0).next hs₄ sober₄
  intro _ s₅ hs₅ sober₅
  apply (Good.add 0).next hs₅ sober₅
  intro _ s₆ hs₆ sober₆
  apply (Good.add 0).next hs₆ sober₆
  intro _ s₇ hs₇ sober₇
  apply (Good.add 0).next hs₇ sober₇
  intro _ s₈ hs₈ sober₈
  apply (enterBody_good env).next hs₈ sober₈
  intro o s₉ hs₉ sober₉
  apply (par_simple_body_does env sound o hs₉ sober₉).bind
  intro ok t reach failed
  cases ok with
  | false => exact .pure (failed rfl)
  | true =>
    apply (Good.add _).next (reach.ready hs₉).1 (reach.2 sober₉)
    intro _ t₁ ht₁ sober₁
    apply (patchBody_good env _ o 0).next ht₁ sober₁
    intro _ t₂ ht₂ sober₂
    apply (leaveBody_good o).next ht₂ sober₂
    intro _ t₃ ht₃ sober₃
    apply Good.used.next ht₃ sober₃
    intro used t₄ ht₄ sober₄
    apply (Good.patch _ _).next ht₄ sober₄
    intro _ t₅ ht₅ sober₅
    apply Does.bind (Q := fun v' s' => Ready u s'.ec ∧ Sober s' ∧ u ≤ v'.r ∧ u ≤ v'.p)
    · unfold par_simple_unnamed
      split
      · exact par_simple_args_does env ht₅ sober₅ h.hr h.hp
      · exact .pure ⟨ht₅, sober₅, h.hr, h.hp⟩
    · rintro v' t₆ - ⟨ht₆, sober₆, hr, hp⟩
      exact .pure (Among.of_found ht₆ sober₆ hr hp rfl)

end Functions

section Commands

theorem simpleWords_does (sound : r.Sound) (c_saved : Bool) (h : Among u v s) :
    Does u s (simpleWords env n r u c_saved v) (Turned (Among u) u) := by
  apply Does.bind (Q := fun _ s' => s' = s) (.get rfl)
  rintro t s' - rfl
  split
  · exact par_string_does env h
  split
  · exact par_postassign_does env h
  split
  · apply (postPlace_does h.ready h.sober).bind
    rintro v' s₁ reach ⟨hr, hp⟩
    have hs₁ := (reach.ready h.ready).1
    apply (par_array_does env hs₁ (reach.2 h.sober)).bind
    intro ok s₂ reach₂ failed
    cases ok with
    | true =>
      have sober₂ := reach₂.2 (reach.2 h.sober)
      exact .pure (Among.of_found (reach₂.ready hs₁).1 sober₂ (hr ▸ h.hr) (hp ▸ h.hp) rfl)
    | false => exact .pure (failed rfl)
  split
  · apply (par_redir_does env h.hr none h.ready h.sober).bind
    rintro ⟨added, r⟩ s₁ reach ⟨hr, same⟩
    change r = v.r + added at hr
    have hs₁ := (reach.ready h.ready).1
    dsimp only
    split
    · have none : added = 0 := ‹_›
      refine .pure ⟨hs₁, reach.2 h.sober, h.hr, h.hp, fun null sr as => ?_⟩
      rw [(same none).1, (same none).2]
      exact h.bare null sr as
    · refine .pure ⟨hs₁, reach.2 h.sober, ?_, Nat.le_add_right_of_le h.hp, fun _ sr _ => ?_⟩
      · change u ≤ r
        rw [hr]
        exact Nat.le_add_right_of_le h.hr
      · change v.sr + added + v.nr = 0 at sr
        omega
  split
  · exact par_simple_func_does env sound c_saved h
  · exact .pure h

theorem par_simple_header_good : Good u (par_simple_header v) := by
  unfold par_simple_header
  split
  · exact .pure ()
  split
  · split
    · exact .bind (.patch _ _) fun _ => .patch _ _
    · exact .bind (.add _) fun _ => .patch _ _
  · exact .patch _ _

/-- A simple command that is not there has left nothing. -/
theorem par_simple_does (sound : r.Sound) (cmplx : Bool) (nr : Nat) (inv : Inv s.ec) (sober : Sober s) :
    Does s.ec.ecused s (par_simple_wordcode env n r cmplx nr)
      fun a s' => a.1 = 0 → s'.ec.ecused = s.ec.ecused := by
  apply Does.bind (Q := fun u s' => u = s.ec.ecused ∧ s' = s) (.get ⟨rfl, rfl⟩)
  rintro u s' - ⟨rfl, rfl⟩
  apply (Does.turns (fun v s h => simplePrefix_does env h) n
    ⟨Ready.start inv, sober, Nat.le_refl _, fun _ _ => rfl⟩).bind
  rintro ⟨ok, v⟩ s₁ - ⟨front, failed⟩
  cases ok with
  | false => exact .pure fun _ => failed rfl
  | true =>
    have front := front rfl
    apply Does.bind (Q := fun _ s₂ => s₂ = s₁) (.get rfl)
    rintro t s₂ - rfl
    split
    · exact .undone front.ready fun s₃ h _ => h
    · apply ((ecadd_does _ front.ready.inv front.sober).mono front.ready.used).bind
      rintro p s₃ reach ⟨rfl, head, used⟩
      have among : Among s'.ec.ecused { v with p := s₂.ec.ecused } s₃ := by
        refine ⟨(reach.ready front.ready).1, reach.2 front.sober, front.hr, front.ready.used, fun _ sr as => ?_⟩
        have start := front.bare (Nat.eq_zero_of_add_eq_zero_left sr) as
        rw [← start]
        exact ⟨rfl, used, head.plain⟩
      apply (Does.turns (fun v s h => simpleWords_does env sound cmplx h) n among).bind
      rintro ⟨ok, v⟩ s₄ - ⟨among, failed⟩
      cases ok with
      | false => exact .pure fun _ => failed rfl
      | true =>
        have among := among rfl
        dsimp only
        split
        · have no : (!true) = true := ‹_›
          cases no
        split
        · have bare : v.isnull = true ∧ v.sr + v.nr = 0 ∧ (!v.assignments) = true := ‹_›
          obtain ⟨hp, used, plain⟩ := among.bare bare.1 bare.2.1 (by simpa using bare.2.2)
          rw [hp]
          apply Does.bind (Q := fun _ s₅ => s₅.ec.ecused = s'.ec.ecused)
          · exact .call (allowed_unadd among.ready.inv used plain) nofun rfl
          · exact fun _ s₅ _ undone => .pure fun _ => undone
        · apply par_simple_header_good.next among.ready among.sober
          exact fun _ _ _ _ => .pure fun none => absurd none (Nat.ne_of_gt (Nat.add_pos_left Nat.one_pos _))

/-- Redirections put in nothing that is counted as nothing. -/
theorem par_redirs_does {rp : Nat} (hs : Ready u s.ec) (sober : Sober s) (hr : u ≤ rp) :
    Does u s (par_redirs env n rp) fun a s' => u ≤ a.2 ∧ (a.1 = 0 → s'.ec.ecused = s.ec.ecused) := by
  apply Does.iterate (I := fun a s' => Ready u s'.ec ∧ Sober s' ∧ u ≤ a.2 ∧ (a.1 = 0 → s'.ec.ecused = s.ec.ecused))
    ?_ n (0, rp) ⟨hs, sober, hr, fun _ => rfl⟩
  rintro ⟨nr, rp⟩ s₁ ⟨hs₁, sober₁, hr, none⟩
  apply Does.bind (Q := fun _ s₂ => s₂ = s₁) (.get rfl)
  rintro t s₂ - rfl
  split
  · apply (par_redir_does env hr Option.none hs₁ sober₁).bind
    rintro ⟨added, r⟩ s₃ reach ⟨behind, same⟩
    change r = rp + added at behind
    refine .pure ⟨(reach.ready hs₁).1, reach.2 sober₁, ?_, fun (sum : nr + added = 0) => ?_⟩
    · change u ≤ r
      rw [behind]
      exact Nat.le_add_right_of_le hr
    · rw [(same (Nat.eq_zero_of_add_eq_zero_left sum)).2]
      exact none (Nat.eq_zero_of_add_eq_zero_right sum)
  · exact .pure ⟨hr, none⟩

/-- The command behind its first redirections. What is not there has left nothing. -/
def Commanded (u nr : Nat) (s : St) (a : Bool × Bool × Nat) (s' : St) : Prop :=
  (a.1 = false → nr = 0 ∧ s'.ec.ecused = s.ec.ecused) ∧ u ≤ a.2.2

theorem par_cmd_body_does {nr rp : Nat} (sound : r.Sound) (cmplx : Bool) (hs : Ready u s.ec) (sober : Sober s)
    (hr : u ≤ rp) : Does u s (par_cmd_body env n r cmplx nr rp) (Commanded u nr s) := by
  have simple {s' : St} (hs' : Ready u s'.ec) (sober' : Sober s') (used : s'.ec.ecused = s.ec.ecused) :
      Does u s' (do
        let body ← par_simple_wordcode env n r cmplx nr
        if body.1 = 0 then pure (decide (nr ≠ 0), body.2, rp)
        else pure (true, body.2 || body.1 > 1, rp + (body.1 - 1))) (Commanded u nr s) := by
    apply ((par_simple_does env sound cmplx nr hs'.inv sober').mono hs'.used).bind
    rintro ⟨sr, c⟩ s₁ - none
    dsimp only
    split
    · refine .pure ⟨fun absent => ⟨?_, (none ‹_›).trans used⟩, hr⟩
      simpa using absent
    · exact .pure ⟨nofun, Nat.le_add_right_of_le hr⟩
  have compound {m : ParseM Bool} {s' : St} (hs' : Ready u s'.ec) (sober' : Sober s') (h : Production m) :
      Does u s' (do
        let cmplx ← m
        pure (true, cmplx, rp)) (Commanded u nr s) := by
    apply (Good.of_production h).next hs' sober'
    exact fun _ _ _ _ => .pure ⟨nofun, hr⟩
  have inpartime (b : Bool) {v : Nat} : Good v (modify fun s => { s with inpartime := b }) :=
    .modify (fun _ => rfl) (fun _ => rfl) fun _ => rfl
  have timed : Production (do
      modify fun s => { s with inpartime := true }
      par_time_wordcode env r
      modify fun s => { s with inpartime := false }
      pure true) :=
    .of_good fun v => .bind (inpartime true) fun _ => .bind (.of_production (par_time_production env sound)) fun _ =>
      .bind (inpartime false) fun _ => .pure true
  have cond : Production (do
      par_cond_wordcode env r
      pure cmplx) :=
    .of_good fun v => .bind (.of_production (par_cond_production env sound)) fun _ => .pure cmplx
  have arith : Production (do
      par_arith_wordcode env
      pure cmplx) :=
    .of_good fun v => .bind (par_arith_good env) fun _ => .pure cmplx
  apply Does.bind (Q := fun t s' => t = s.tok ∧ s' = s) (.get ⟨rfl, rfl⟩)
  rintro t s' - ⟨ht, rfl⟩
  dsimp only
  split
  · exact compound hs sober (par_for_production env sound cmplx)
  · exact compound hs sober (par_for_production env sound cmplx)
  · exact compound hs sober (par_for_production env sound true)
  · exact compound hs sober (par_case_production env sound cmplx)
  · exact compound hs sober (par_if_production env sound cmplx)
  · exact compound hs sober (par_while_production env sound cmplx)
  · exact compound hs sober (par_while_production env sound cmplx)
  · exact compound hs sober (par_repeat_production env sound cmplx)
  · exact compound hs sober (par_subsh_production env sound true)
  · exact compound hs sober (par_subsh_production env sound cmplx)
  · exact compound hs sober (par_funcdef_production env sound cmplx)
  · exact compound hs sober cond
  · exact compound hs sober arith
  · apply Does.bind (Q := fun _ s₁ => s₁ = s') (.get rfl)
    rintro timing s₁ - rfl
    split
    · have fine : s₁.tok ≠ .lexerr := by
        rw [← ht]
        exact nofun
      apply Does.bind (Q := fun _ s₂ => Ready u s₂.ec ∧ Sober s₂ ∧ s₂.ec.ecused = s₁.ec.ecused)
      · exact .set_tok (.inr fine) ⟨hs, .inr (sober.resolve_left fine), rfl⟩
      · exact fun _ s₂ _ h => simple h.1 h.2.1 h.2.2
    · exact compound hs sober timed
  · exact simple hs sober rfl

theorem par_cmd_part (sound : r.Sound) (cmplx : Bool) : Part (par_cmd_wordcode env n r cmplx) := by
  intro s inv sober
  apply Does.bind (Q := fun u s' => u = s.ec.ecused ∧ s' = s) (.get ⟨rfl, rfl⟩)
  rintro u s' - ⟨rfl, rfl⟩
  apply Does.bind (Q := fun _ s₁ => s₁ = s') (.get rfl)
  rintro t s₁ - rfl
  have hs := Ready.start inv
  apply (par_redirs_does env hs sober (Nat.le_refl _)).bind
  rintro ⟨nr, rp⟩ s₂ reach ⟨hr, none⟩
  have hs₂ := (reach.ready hs).1
  apply (par_cmd_body_does env sound _ hs₂ (reach.2 sober) hr).bind
  rintro ⟨found, c, rp'⟩ s₃ reach₃ ⟨absent, hr'⟩
  have hs₃ := (reach₃.ready hs₂).1
  cases found with
  | false =>
    obtain ⟨nr0, used⟩ := absent rfl
    exact .pure fun _ => used.trans (none nr0)
  | true =>
    apply Good.tok.next hs₃ (reach₃.2 (reach.2 sober))
    intro t s₄ hs₄ sober₄
    apply (par_redirs_does env hs₄ sober₄ hr').bind
    exact fun _ _ _ _ => .pure nofun

end Commands

/-- The productions of every level make the calls of productions only. -/
theorem level_sound (k : Nat) : (level env n k).Sound := by
  induction k with
  | zero =>
    have nothing {α : Type} : Production (stop : ParseM α) := .of_good fun _ => .stop
    exact ⟨fun _ => nothing, fun _ => nothing, fun _ _ _ _ => .stop, fun _ _ _ _ => .stop, fun _ _ _ _ => .stop,
      nothing, nothing, nothing⟩
  | succ k sound =>
    constructor
    · exact par_list_production env sound
    · exact par_list1_production sound
    · exact par_sublist_headed env sound
    · exact par_pipe_part env sound
    · exact par_cmd_part env sound
    · exact par_cond_chain_production env sound.par_cond_1 sound.par_cond_top _ _
    · exact par_cond_chain_production env sound.par_cond_2 sound.par_cond_1 _ _
    · exact .of_good fun u => par_cond_2_good env sound

end Zshrs.Parse.Wordcode
