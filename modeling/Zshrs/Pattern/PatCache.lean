import Mathlib.Logic.Function.Basic
import Zshrs.Lib.Runs
import Zshrs.Pattern.Patcompile

namespace Zshrs.Pattern

/-- The six options as the bits of the fingerprint. -/
def opt_fingerprint (env : Env) : List Bool :=
  [env.isset .EXTENDEDGLOB, env.isset .KSHGLOB, env.isset .SHGLOB, env.isset .CASEGLOB,
    env.isset .CASEPATHS, env.isset .MULTIBYTE]

/-- The bits of the mask, by slot. -/
def savepatterndisables (env : Env) : List Bool := Zpc.all.map env.zpc_disables

structure Key where
  exp : Str
  inflags : Flags
  fingerprint : List Bool
  disables : List Bool
  deriving DecidableEq

def keyOf (env : Env) (exp : Str) (inflags : Flags) : Key :=
  ⟨exp, inflags, opt_fingerprint env, savepatterndisables env⟩

/-- A cached program. What it was compiled under is not in the source. -/
structure Entry where
  prog : Patprog
  modes : Modes
  mbrtowc : Bytes → Mbrtowc
  incoming : Flags

abbrev Cache := List (Key × Entry)

def MAX_ENTRIES : Nat := 8192

def Cache.get (c : Cache) (key : Key) : Option Entry := (c.find? fun p => p.1 = key).map Prod.snd

/-- A cache that is full is emptied first. -/
def Cache.put (c : Cache) (key : Key) (entry : Entry) : Cache :=
  let c := if MAX_ENTRIES ≤ c.length then [] else c
  (key, entry) :: c.filter fun p => p.1 ≠ key

theorem Cache.mem_put {c : Cache} {key : Key} {entry : Entry} {p : Key × Entry}
    (h : p ∈ c.put key entry) : p = (key, entry) ∨ p ∈ c := by
  rcases List.mem_cons.mp h with rfl | h
  · exact .inl rfl
  · right
    have mem := (List.mem_filter.mp h).1
    split at mem
    · cases mem
    · exact mem

theorem Cache.get_mem {c : Cache} {key : Key} {entry : Entry} (h : c.get key = some entry) :
    (key, entry) ∈ c := by
  obtain ⟨⟨k, e⟩, hfind, rfl⟩ := Option.map_eq_some_iff.mp h
  have hk : k = key := by simpa using List.find?_some hfind
  rw [← hk]
  exact List.mem_of_find?_eq_some hfind

/-- What a call of `patcompile` was asked, and in which environment. -/
structure Request where
  exp : Str
  inflags : Flags
  env : Env

/-- The text of a call. -/
def Request.text (q : Request) : Str := spell q.env q.exp

/-- Where a call of `patcompile` without `endexp` is. The incoming flags are those at its lookup when it
hits, and those at its start under the lock when it compiles. -/
inductive Phase
  | idle
  | called (q : Request)
  | hit (q : Request) (incoming : Flags) (prog : Patprog)
  | missed (q : Request)
  | seeded (q : Request) (incoming : Flags) (special : Zpc → UInt8) (seeded : Flags)
  | compiled (q : Request) (incoming : Flags) (prog : Option Patprog)
  | returned (q : Request) (incoming : Flags) (prog : Option Patprog) (patglobflags : Flags)

variable {τ : Type} [DecidableEq τ]

/-- The threads share everything but the first level of the cache. The other statics of the compiler
(`zpc_special`, `patparse`, `patout`, `patflags`, `patnpar`) are set at the start of a compile, under its lock. -/
structure State (τ : Type) where
  env : Env
  patglobflags : Flags
  lock : Option τ
  L1 : τ → Cache
  L2 : Cache
  phase : τ → Phase

def State.goto (s : State τ) (t : τ) (p : Phase) : State τ :=
  { s with phase := Function.update s.phase t p }

@[simp] theorem State.phase_goto_self (s : State τ) (t : τ) (p : Phase) : (s.goto t p).phase t = p := by
  simp [State.goto]

theorem State.phase_goto_ne (s : State τ) {t u : τ} (h : u ≠ t) (p : Phase) :
    (s.goto t p).phase u = s.phase u := by
  simp [State.goto, h]

/-- The first level, and then the second. -/
def State.found (s : State τ) (t : τ) (key : Key) : Option Entry := (s.L1 t).get key <|> s.L2.get key

/-- `get`: what is found in the second level goes to the first. -/
def get (s : State τ) (t : τ) (q : Request) : State τ :=
  let key := keyOf s.env q.text q.inflags
  match (s.L1 t).get key with
  | some entry => s.goto t (.hit q s.patglobflags entry.prog)
  | none =>
    match s.L2.get key with
    | some entry =>
      ({ s with L1 := Function.update s.L1 t ((s.L1 t).put key entry) }).goto t
        (.hit q s.patglobflags entry.prog)
    | none => s.goto t (.missed q)

/-- `put`, and the end of a compile. The key is made anew. -/
def put (s : State τ) (t : τ) (q : Request) (incoming : Flags) (prog : Option Patprog) : State τ :=
  let key := keyOf s.env q.text q.inflags
  match prog with
  | some p =>
    ({ s with
      lock := none
      L2 := s.L2.put key ⟨p, s.env.modes, s.env.mbrtowc, incoming⟩
      L1 := Function.update s.L1 t ((s.L1 t).put key ⟨p, s.env.modes, s.env.mbrtowc, incoming⟩) }).goto t
        (.returned q incoming prog s.patglobflags)
  | none => ({ s with lock := none }).goto t (.returned q incoming prog s.patglobflags)

/-- The next step of the call of a thread. A compile that never ends keeps the lock. -/
def next (s : State τ) (t : τ) : State τ :=
  match s.phase t with
  | .called q => get s t q
  | .hit q incoming prog =>
    ({ s with patglobflags := prog.globend }).goto t (.returned q incoming (some prog) prog.globend)
  | .missed q =>
    if s.lock = none then
      let seeded := seededGlobflags s.env q.inflags s.patglobflags
      ({ s with lock := some t, patglobflags := seeded }).goto t
        (.seeded q s.patglobflags (zpc_special s.env q.inflags) seeded)
    else s
  | .seeded q incoming special seeded =>
    match compileFrom s.env special seeded q.text q.inflags s.patglobflags with
    | some (prog, patglobflags) => ({ s with patglobflags }).goto t (.compiled q incoming prog)
    | none => s
  | .compiled q incoming prog => put s t q incoming prog
  | _ => s

inductive Event (τ : Type)
  | call (t : τ) (exp : Str) (inflags : Flags)
  | next (t : τ)
  | change (env : Env)
  | store (patglobflags : Flags)

/-- A thread makes one call after another. Options, disabled tokens, the emulation and the locale change at
any time, and the rest of the shell stores flags. -/
def step (s : State τ) : Event τ → State τ
  | .call t exp inflags => match s.phase t with
    | .idle | .returned _ _ _ _ => s.goto t (.called ⟨exp, inflags, s.env⟩)
    | _ => s
  | .next t => next s t
  | .change env => { s with env := env }
  | .store patglobflags => { s with patglobflags := patglobflags }

/-- Every call that has returned gave, and left, what a compile gives and leaves. -/
def Transparent (s : State τ) : Prop :=
  ∀ t q incoming prog patglobflags, s.phase t = .returned q incoming prog patglobflags →
    patcompile q.env incoming q.exp q.inflags = some (prog, patglobflags)

end Zshrs.Pattern
