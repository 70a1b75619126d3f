import Zshrs.Pattern.PatCache

namespace Zshrs.Pattern

open Lib.Runs

/-- Two environments that a compile cannot tell apart. -/
structure SameReads (e e' : Env) : Prop where
  fingerprint : opt_fingerprint e = opt_fingerprint e'
  disables : savepatterndisables e = savepatterndisables e'
  modes : e.modes = e'.modes
  mbrtowc : e.mbrtowc = e'.mbrtowc

theorem SameReads.refl (e : Env) : SameReads e e := ⟨rfl, rfl, rfl, rfl⟩

theorem SameReads.trans {e₁ e₂ e₃ : Env} (h : SameReads e₁ e₂) (h' : SameReads e₂ e₃) : SameReads e₁ e₃ :=
  ⟨h.fingerprint.trans h'.fingerprint, h.disables.trans h'.disables, h.modes.trans h'.modes,
    h.mbrtowc.trans h'.mbrtowc⟩

theorem SameReads.symm {e e' : Env} (h : SameReads e e') : SameReads e' e :=
  ⟨h.fingerprint.symm, h.disables.symm, h.modes.symm, h.mbrtowc.symm⟩

theorem SameReads.keyOf {e e' : Env} (h : SameReads e e') (exp : Str) (inflags : Flags) :
    keyOf e exp inflags = keyOf e' exp inflags := by
  rw [Pattern.keyOf, Pattern.keyOf, h.fingerprint, h.disables]

section Congr

variable {e e' : Env}

theorem isset_congr (h : opt_fingerprint e = opt_fingerprint e') :
    e.isset .EXTENDEDGLOB = e'.isset .EXTENDEDGLOB ∧ e.isset .KSHGLOB = e'.isset .KSHGLOB ∧
      e.isset .SHGLOB = e'.isset .SHGLOB ∧ e.isset .CASEGLOB = e'.isset .CASEGLOB ∧
      e.isset .CASEPATHS = e'.isset .CASEPATHS ∧ e.isset .MULTIBYTE = e'.isset .MULTIBYTE := by
  simpa [opt_fingerprint] using h

theorem zpc_disables_congr (h : savepatterndisables e = savepatterndisables e') (z : Zpc) :
    e.zpc_disables z = e'.zpc_disables z :=
  List.map_inj_left.mp h z z.mem_all

theorem masked_congr (h : opt_fingerprint e = opt_fingerprint e') (z : Zpc) : masked e z = masked e' z := by
  obtain ⟨ext, ksh, sh, _⟩ := isset_congr h
  cases z <;> simp only [masked, ext, ksh, sh]

theorem zpc_special_congr (h : SameReads e e') (inflags : Flags) :
    zpc_special e inflags = zpc_special e' inflags := by
  funext z
  simp only [zpc_special, patcompcharsset, masked_congr h.fingerprint, zpc_disables_congr h.disables]

theorem patcompstart_congr (h : opt_fingerprint e = opt_fingerprint e') :
    patcompstart e = patcompstart e' := by
  obtain ⟨_, _, _, caseglob, casepaths, multibyte⟩ := isset_congr h
  simp only [patcompstart, caseglob, casepaths, multibyte]

theorem seededGlobflags_congr (h : SameReads e e') {inflags incoming incoming' : Flags}
    (hin : isFile inflags = true → incoming = incoming') :
    seededGlobflags e inflags incoming = seededGlobflags e' inflags incoming' := by
  unfold seededGlobflags
  split
  · exact hin ‹_›
  · rw [patcompstart_congr h.fingerprint]

theorem compileFrom_congr (h : SameReads e e') (special : Zpc → UInt8) (seeded : Flags)
    (exp : Str) (inflags patglobflags : Flags) :
    compileFrom e special seeded exp inflags patglobflags =
      compileFrom e' special seeded exp inflags patglobflags := by
  obtain ⟨_, ksh, _⟩ := isset_congr h.fingerprint
  simp only [compileFrom, h.modes, h.mbrtowc, ksh]

/-- A compile reads the six options, the disabled tokens, the emulation and the locale, and the incoming
flags for a file glob. -/
theorem compileText_congr (h : SameReads e e') {inflags incoming incoming' : Flags}
    (hin : isFile inflags = true → incoming = incoming') (text : Str) :
    compileText e incoming text inflags = compileText e' incoming' text inflags := by
  simp only [compileText, zpc_special_congr h, seededGlobflags_congr h hin, compileFrom_congr h]

end Congr

variable {τ : Type}

/-- What the calls that are under way need the environment for. -/
def Phase.reads : Phase → Bool
  | .called _ => true
  | .missed _ => true
  | .seeded _ _ _ _ => true
  | .compiled _ _ _ => true
  | _ => false

variable [DecidableEq τ]

/-- The condition on a step. The environment changes only while no call reads it, and the flags are
stored from outside only while nobody compiles; a lookup finds only what was compiled under the same
emulation and locale and, for a file glob, from the same flags. -/
def Undisturbed (s : State τ) : Event τ → Prop
  | .change env => SameReads s.env env ∨ ∀ t, (s.phase t).reads = false
  | .store _ => s.lock = none
  | .next t => match s.phase t with
    | .called q => ∀ entry ∈ s.found t (keyOf s.env q.text q.inflags),
        entry.modes = s.env.modes ∧ entry.mbrtowc = s.env.mbrtowc ∧
          (isFile q.inflags = true → entry.incoming = s.patglobflags)
    | .hit _ _ _ => s.lock = none
    | _ => True
  | .call _ _ _ => True

/-- An entry is what a compile gives in every environment that it can be found in, and that it was
compiled in. -/
def Valid (key : Key) (entry : Entry) : Prop :=
  ∀ env incoming, keyOf env key.exp key.inflags = key → env.modes = entry.modes →
    env.mbrtowc = entry.mbrtowc → (isFile key.inflags = true → incoming = entry.incoming) →
    compileText env incoming key.exp key.inflags = some (some entry.prog, entry.prog.globend)

def PhaseOk (s : State τ) (t : τ) : Phase → Prop
  | .idle => True
  | .called q => SameReads q.env s.env
  | .hit q incoming prog => compileText q.env incoming q.text q.inflags = some (some prog, prog.globend)
  | .missed q => SameReads q.env s.env
  | .seeded q incoming special seeded => s.lock = some t ∧ SameReads q.env s.env ∧
      special = zpc_special q.env q.inflags ∧ seeded = seededGlobflags q.env q.inflags incoming ∧
      s.patglobflags = seeded
  | .compiled q incoming prog => s.lock = some t ∧ SameReads q.env s.env ∧
      compileText q.env incoming q.text q.inflags = some (prog, s.patglobflags)
  | .returned q incoming prog patglobflags =>
      compileText q.env incoming q.text q.inflags = some (prog, patglobflags)

structure Inv (s : State τ) : Prop where
  L1 : ∀ t, ∀ p ∈ s.L1 t, Valid p.1 p.2
  L2 : ∀ p ∈ s.L2, Valid p.1 p.2
  phase : ∀ t, PhaseOk s t (s.phase t)

omit [DecidableEq τ] in
/-- A call goes on undisturbed while the environment stays, and the flags do under its lock. -/
theorem PhaseOk.frame {s s' : State τ} {t : τ} {p : Phase} (h : PhaseOk s t p)
    (henv : p.reads = true → SameReads s.env s'.env)
    (hlock : s.lock = some t → s'.lock = some t ∧ s'.patglobflags = s.patglobflags) :
    PhaseOk s' t p := by
  cases p with
  | idle | hit | returned => exact h
  | called q | missed q => exact SameReads.trans h (henv rfl)
  | seeded q incoming special seeded =>
    obtain ⟨locked, same, hspecial, hseeded, flags⟩ := h
    obtain ⟨locked', flags'⟩ := hlock locked
    exact ⟨locked', same.trans (henv rfl), hspecial, hseeded, flags'.trans flags⟩
  | compiled q incoming prog =>
    obtain ⟨locked, same, result⟩ := h
    obtain ⟨locked', flags'⟩ := hlock locked
    exact ⟨locked', same.trans (henv rfl), flags' ▸ result⟩

namespace Inv

variable {s : State τ}

/-- One thread moves on, and the others are not disturbed. -/
theorem goto (h : Inv s) {t : τ} {p : Phase} {s' : State τ} (hp : PhaseOk (s'.goto t p) t p)
    (hphase : s'.phase = s.phase) (henv : s'.env = s.env)
    (hlock : ∀ u, u ≠ t → s.lock = some u → s'.lock = some u ∧ s'.patglobflags = s.patglobflags)
    (hL1 : ∀ u, ∀ x ∈ s'.L1 u, Valid x.1 x.2) (hL2 : ∀ x ∈ s'.L2, Valid x.1 x.2) :
    Inv (s'.goto t p) := by
  refine ⟨hL1, hL2, fun u => ?_⟩
  by_cases hu : u = t
  · subst hu
    rw [State.phase_goto_self]
    exact hp
  · rw [State.phase_goto_ne _ hu, hphase]
    apply (h.phase u).frame
    · intro _
      change SameReads s.env s'.env
      rw [henv]
      exact .refl _
    · exact hlock u hu

theorem mem_update_put {c : τ → Cache} {t u : τ} {key : Key} {entry : Entry} {x : Key × Entry}
    (h : x ∈ Function.update c t ((c t).put key entry) u) : x = (key, entry) ∨ x ∈ c u := by
  by_cases hu : u = t
  · subst hu
    rw [Function.update_self] at h
    exact Cache.mem_put h
  · rw [Function.update_of_ne hu] at h
    exact .inr h

theorem get (h : Inv s) {t : τ} {q : Request} (hq : SameReads q.env s.env)
    (hfound : ∀ entry ∈ s.found t (keyOf s.env q.text q.inflags),
      entry.modes = s.env.modes ∧ entry.mbrtowc = s.env.mbrtowc ∧
        (isFile q.inflags = true → entry.incoming = s.patglobflags)) :
    Inv (get s t q) := by
  have hit : ∀ entry, s.found t (keyOf s.env q.text q.inflags) = some entry →
      Valid (keyOf s.env q.text q.inflags) entry →
      compileText q.env s.patglobflags q.text q.inflags = some (some entry.prog, entry.prog.globend) := by
    intro entry hentry valid
    obtain ⟨modes, mbrtowc, incoming⟩ := hfound entry hentry
    rw [compileText_congr hq fun _ => rfl]
    exact valid s.env s.patglobflags rfl modes.symm mbrtowc.symm fun hfile => (incoming hfile).symm
  unfold Pattern.get
  dsimp only
  split
  · rename_i entry hL1
    have mem := Cache.get_mem hL1
    refine h.goto (hit entry ?_ (h.L1 t _ mem)) rfl rfl (fun _ _ hl => ⟨hl, rfl⟩) h.L1 h.L2
    rw [State.found, hL1]
    rfl
  · rename_i hL1
    split
    · rename_i entry hL2
      have mem := Cache.get_mem hL2
      refine h.goto (hit entry ?_ (h.L2 _ mem)) rfl rfl (fun _ _ hl => ⟨hl, rfl⟩) ?_ h.L2
      · rw [State.found, hL1]
        exact hL2
      · intro u x hx
        rcases mem_update_put hx with rfl | hx
        · exact h.L2 _ mem
        · exact h.L1 u x hx
    · exact h.goto hq rfl rfl (fun _ _ hl => ⟨hl, rfl⟩) h.L1 h.L2

theorem put (h : Inv s) {t : τ} {q : Request} {incoming : Flags} {prog : Option Patprog}
    (hp : PhaseOk s t (.compiled q incoming prog)) : Inv (put s t q incoming prog) := by
  obtain ⟨locked, same, result⟩ := hp
  have others : ∀ u, u ≠ t → ¬ s.lock = some u := by
    intro u hu hl
    rw [locked] at hl
    exact hu (Option.some.inj hl).symm
  unfold Pattern.put
  dsimp only
  split
  · rename_i p
    have globend : p.globend = s.patglobflags := compileFrom_globend result
    have valid : Valid (keyOf s.env q.text q.inflags) ⟨p, s.env.modes, s.env.mbrtowc, incoming⟩ := by
      intro env incoming' hkey hmodes hmbrtowc hin
      have reads : SameReads env s.env :=
        ⟨congrArg Key.fingerprint hkey, congrArg Key.disables hkey, hmodes, hmbrtowc⟩
      rw [compileText_congr (reads.trans same.symm) hin]
      change compileText q.env incoming q.text q.inflags = some (some p, p.globend)
      rw [result, globend]
    refine h.goto result rfl rfl (fun u hu hl => absurd hl (others u hu)) ?_ ?_
    · intro u x hx
      rcases mem_update_put hx with rfl | hx
      · exact valid
      · exact h.L1 u x hx
    · intro x hx
      rcases Cache.mem_put hx with rfl | hx
      · exact valid
      · exact h.L2 x hx
  · exact h.goto result rfl rfl (fun u hu hl => absurd hl (others u hu)) h.L1 h.L2

end Inv

theorem inv_next {s : State τ} {t : τ} (ht : Undisturbed s (.next t)) (h : Inv s) :
    Inv (next s t) := by
  have ok := h.phase t
  unfold next
  unfold Undisturbed at ht
  dsimp only at ht
  generalize hp : s.phase t = p at ok ht
  cases p with
  | idle | returned => exact h
  | called q => exact h.get ok ht
  | hit q incoming prog =>
    refine h.goto ok rfl rfl ?_ h.L1 h.L2
    intro u _ hl
    rw [show s.lock = none from ht] at hl
    cases hl
  | missed q =>
    dsimp only
    split
    · rename_i unlocked
      refine h.goto ⟨rfl, ok, (zpc_special_congr ok q.inflags).symm, ?_, rfl⟩ rfl rfl ?_ h.L1 h.L2
      · exact (seededGlobflags_congr ok fun _ => rfl).symm
      · intro u _ hl
        rw [unlocked] at hl
        cases hl
    · exact h
  | seeded q incoming special seeded =>
    obtain ⟨locked, same, hspecial, hseeded, flags⟩ := ok
    dsimp only
    split
    · rename_i prog left hcompile
      refine h.goto ⟨locked, same, ?_⟩ rfl rfl ?_ h.L1 h.L2
      · change compileText q.env incoming q.text q.inflags = some (prog, left)
        rw [← hcompile, ← compileFrom_congr same, flags, hspecial, hseeded]
        rfl
      · intro u hu hl
        rw [locked] at hl
        exact absurd (Option.some.inj hl).symm hu
    · exact h
  | compiled q incoming prog => exact h.put ok

theorem inv_step {s : State τ} {e : Event τ} (he : Undisturbed s e) (h : Inv s) :
    Inv (step s e) := by
  cases e with
  | call t exp inflags =>
    simp only [step]
    split
    · exact h.goto (.refl s.env) rfl rfl (fun _ _ hl => ⟨hl, rfl⟩) h.L1 h.L2
    · exact h.goto (.refl s.env) rfl rfl (fun _ _ hl => ⟨hl, rfl⟩) h.L1 h.L2
    · exact h
  | next t => exact inv_next he h
  | change env =>
    refine ⟨h.L1, h.L2, fun t => (h.phase t).frame ?_ fun hl => ⟨hl, rfl⟩⟩
    intro reads
    rcases he with same | none
    · exact same
    · rw [none t] at reads
      cases reads
  | store patglobflags =>
    refine ⟨h.L1, h.L2, fun t => (h.phase t).frame (fun _ => .refl _) ?_⟩
    intro hl
    rw [show s.lock = none from he] at hl
    cases hl

/-- A shell that has compiled nothing yet. -/
def fresh (env : Env) (patglobflags : Flags) : State τ :=
  ⟨env, patglobflags, none, fun _ => [], [], fun _ => .idle⟩

omit [DecidableEq τ] in
theorem inv_fresh (env : Env) (patglobflags : Flags) : Inv (fresh env patglobflags : State τ) :=
  ⟨fun _ _ hp => (List.not_mem_nil hp).elim, fun _ hp => (List.not_mem_nil hp).elim, fun _ => trivial⟩

omit [DecidableEq τ] in
theorem Inv.transparent {s : State τ} (h : Inv s) : Transparent s := by
  intro t q incoming prog patglobflags hp
  have ok := h.phase t
  rw [hp] at ok
  exact ok

/-- In every run of any threads in which no call is disturbed, the cache is transparent. -/
theorem pat_cache_transparent (env : Env) (patglobflags : Flags) (es : List (Event τ))
    (hes : Along step Undisturbed (fresh env patglobflags) es) :
    Transparent (run step (fresh env patglobflags) es) :=
  (hes.invariant (fun _ _ => inv_step) (inv_fresh env patglobflags)).transparent

/-- zsh with its options off, in the C locale. -/
def plainEnv : Env :=
  ⟨fun _ => false, fun _ => false, ⟨false, false, false, false, false⟩, fun raw =>
    match raw with
    | b :: _ => if b < 0x80 then .char b.toNat (if b = 0 then 0 else 1) else .invalid
    | [] => .incomplete⟩

/-- `a*` as the lexer hands it over. -/
def aStar : Str := ['a', '\ue187']

/-- Two threads compile `a*`. Between them flags are stored and EXTENDED_GLOB is set and unset. -/
def starTwice : List (Event Bool) :=
  [.call false aStar 0, .next false, .next false, .next false, .next false, .store GF_LCMATCHUC,
    .change { plainEnv with isset := fun o => match o with | .EXTENDEDGLOB => true | _ => false },
    .change plainEnv, .call true aStar 0, .next true, .next true]

/-- The second thread finds the program of the first. -/
theorem starTwice_transparent :
    Transparent (run step (fresh plainEnv 0) starTwice) ∧
      ∃ prog, (run step (fresh plainEnv 0) (starTwice.take 10)).phase true =
        .hit ⟨aStar, 0, plainEnv⟩ GF_LCMATCHUC prog := by
  refine ⟨pat_cache_transparent plainEnv 0 starTwice
    ⟨trivial, ?miss, trivial, trivial, trivial, rfl, .inr ?_, .inr ?_, trivial, ?hit, rfl, trivial⟩, _, rfl⟩
  case miss => rintro entry ⟨⟩
  case hit =>
    rintro entry ⟨⟩
    exact ⟨rfl, rfl, nofun⟩
  all_goals
    intro t
    cases t <;> rfl

/-- The file component `.`, compiled once plainly and once behind a pattern-level `(#i)`. -/
def dotTwice : List (Event Unit) :=
  [.call () ['.'] PAT_FILE, .next (), .next (), .next (), .next (), .store GF_IGNCASE,
    .call () ['.'] PAT_FILE, .next (), .next ()]

/-- The second call is given the program, and left the flags, of the first. -/
theorem dotTwice_stale : ¬ Transparent (run step (fresh plainEnv 0) dotTwice) := by
  intro transparent
  have same := transparent () ⟨['.'], PAT_FILE, plainEnv⟩ GF_IGNCASE
    (some ⟨0, 1, 0, 1, 0, 0, PAT_FILE ||| PAT_PURES, 0, 46, [46]⟩) 0 (by with_unfolding_all rfl)
  revert same
  with_unfolding_all decide

end Zshrs.Pattern
