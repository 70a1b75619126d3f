import Zshrs.Parse.DumpRoundTrip
import Zshrs.Lib.Runs

namespace Zshrs.Parse.Dump

open Lib Lib.Words Lib.Runs
open Wordcode (wordcode Str)

/-- A regular file, with its second of modification. -/
structure File where
  mtime : Int
  content : Bytes

/-- The files by path. -/
structure Fs where
  files : Str → Option File
  path : ∀ p, files p ≠ none → p ≠ [] ∧ '\x00' ∉ p

section Files

variable (fs : Fs)

def Fs.remove (p : Str) : Fs where
  files := fun q => if q = p then none else fs.files q
  path := by
    intro q hq
    apply fs.path
    intro none_
    apply hq
    split
    · rfl
    · exact none_

/-- A path that is empty or has a NUL is not written. -/
def Fs.write (p : Str) (f : File) : Fs :=
  if valid : p ≠ [] ∧ '\x00' ∉ p then
    { files := fun q => if q = p then some f else fs.files q
      path := by
        intro q hq
        by_cases same : q = p
        · rw [same]
          exact valid
        · apply fs.path
          rwa [if_neg same] at hq }
  else fs

def Fs.empty : Fs := ⟨fun _ => none, fun _ h => absurd rfl h⟩

def sources (parse : Bytes → Option Compiled) : Sources where
  read := fun p => (fs.files p).map File.content
  parse := parse
  path := by
    intro p hp
    apply fs.path
    intro none_
    rw [none_] at hp
    exact hp rfl

end Files

section Loading

variable (fs : Fs)

/-- What `check_dump_file` returns for a file. -/
def checked (file : Str) (f : File) (name : Str) (testOnly : Bool) : Option (Option (Eprog × Nat)) :=
  (checkDumpFile file (some f.content) name testOnly).map Except.toOption

/-- Not older than a file that may be missing. -/
def notOlder (t : Int) : Option File → Bool
  | none => true
  | some f => f.mtime ≤ t

def tryDumpFile (path name file : Str) (testOnly : Bool) : Option (Option (Eprog × Nat)) :=
  if FD_EXT.isSuffixOf path then
    match fs.files path with
    | none => some none
    | some f => checked path f name testOnly
  else
    let dig := path ++ FD_EXT
    let wc := file ++ FD_EXT
    let std := fs.files dig
    let stc := fs.files wc
    let stn := fs.files file
    let own : Option (Option (Eprog × Nat)) :=
      match stc with
      | some c => if notOlder c.mtime stn then checked wc c name testOnly else some none
      | none => some none
    match std with
    | none => own
    | some d =>
        if notOlder d.mtime stc && notOlder d.mtime stn then
          match checked dig d name testOnly with
          | some none => own
          | found => found
        else own

def trySourceFile (file : Str) : Option (Option (Eprog × Nat)) :=
  let name := basename file
  if FD_EXT.isSuffixOf file then
    match fs.files file with
    | none => some none
    | some f => checked file f name false
  else
    let wc := file ++ FD_EXT
    match fs.files wc with
    | some c => if notOlder c.mtime (fs.files file) then checked wc c name false else some none
    | none => some none

end Loading

/-- Somebody edits a file, deletes one, or runs `zcompile`, in some second. -/
inductive Event
  | write (p : Str) (content : Bytes) (now : Int)
  | remove (p : Str) (now : Int)
  | zcompile (dump : Str) (args : List Str) (ali k z M R : Bool) (now : Int)

def Event.now : Event → Int
  | .write _ _ now => now
  | .remove _ now => now
  | .zcompile _ _ _ _ _ _ _ now => now

structure Disk where
  fs : Fs
  clock : Int

def withExt (dump : Str) : Str := if FD_EXT.isSuffixOf dump then dump else dump ++ FD_EXT

variable (parse : Bool → Bytes → Option Compiled)

/-- `build_dump`: the old dump goes first, and a dump that fails is taken away. -/
def zcompile (fs : Fs) (dump : Str) (args : List Str) (ali k z M R : Bool) (now : Int) : Fs :=
  let fs := fs.remove (withExt dump)
  match buildDump (sources fs (parse ali)) args (mapMode M R) (loadFlags k z) with
  | .error _ => fs
  | .ok bytes => fs.write (withExt dump) ⟨now, bytes⟩

def step (d : Disk) : Event → Disk
  | .write p content now => ⟨d.fs.write p ⟨now, content⟩, now⟩
  | .remove p now => ⟨d.fs.remove p, now⟩
  | .zcompile dump args ali k z M R now => ⟨zcompile parse d.fs dump args ali k z M R now, now⟩

section Frame

variable {fs : Fs} {p q : Str} {f g : File}

theorem files_remove (h : (fs.remove p).files q = some g) : q ≠ p ∧ fs.files q = some g := by
  by_cases same : q = p
  · have gone : (fs.remove p).files q = none := if_pos same
    rw [gone] at h
    cases h
  · have kept : (fs.remove p).files q = fs.files q := if_neg same
    exact ⟨same, kept.symm.trans h⟩

theorem files_write (h : (fs.write p f).files q = some g) : q = p ∧ g = f ∨ q ≠ p ∧ fs.files q = some g := by
  rw [Fs.write] at h
  split at h
  · dsimp only at h
    split at h
    · next same => exact .inl ⟨same, (Option.some.inj h).symm⟩
    · next other => exact .inr ⟨other, h⟩
  · next invalid =>
    refine .inr ⟨?_, h⟩
    rintro rfl
    apply invalid (fs.path q _)
    rw [h]
    exact Option.some_ne_none g

end Frame

section Invariant

/-- A dump, and the files that it was made of: one of another content now was written in the dump's
second or later. -/
structure Made (fs : Fs) (f : File) (S : Sources) (ali : Bool) : Prop where
  parse : S.parse = parse ali
  content : ∃ args map k z, buildDump S args map (loadFlags k z) = .ok f.content
  small : f.content.length < 2 ^ 31
  fresh : ∀ q g content, fs.files q = some g → S.read q = some content →
    g.content = content ∨ f.mtime ≤ g.mtime

/-- The state that a run from an empty disk comes to. -/
def disk (clock : Int) (es : List Event) : Disk := run (step parse) ⟨Fs.empty, clock⟩ es

/-- The call of `zcompile` that has written the dump at `p` in the second `t`, and the files as it found them. -/
def Origin (clock : Int) (es : List Event) (p : Str) (t : Int) (S : Sources) (ali : Bool) : Prop :=
  ∃ before dump args k z M R after, es = before ++ .zcompile dump args ali k z M R t :: after ∧ withExt dump = p ∧
    S = sources ((disk parse clock before).fs.remove p) (parse ali)

/-- Every dump on the disk comes from a call of the run. -/
structure Sound (clock : Int) (es : List Event) (d : Disk) : Prop where
  past : ∀ p f, d.fs.files p = some f → f.mtime ≤ d.clock
  made : ∀ p f, FD_EXT.isSuffixOf p = true → d.fs.files p = some f →
    ∃ S ali, Origin parse clock es p f.mtime S ali ∧ Made parse d.fs f S ali

/-- The clock does not go back, nobody but `zcompile` writes dumps, and they stay below 2 GiB. -/
def Honest (d : Disk) (e : Event) : Prop :=
  d.clock ≤ e.now ∧
    match e with
    | .write p _ _ => ¬ FD_EXT.isSuffixOf p = true
    | .remove _ _ => True
    | .zcompile dump args ali k z M R _ => ∀ bytes,
        buildDump (sources (d.fs.remove (withExt dump)) (parse ali)) args (mapMode M R) (loadFlags k z) =
          .ok bytes → bytes.length < 2 ^ 31

variable {parse} {d : Disk} {fs fs' : Fs} {f : File}

theorem Made.later {S : Sources} {ali : Bool} (h : Made parse fs f S ali)
    (hfs : ∀ q g, fs'.files q = some g → fs.files q = some g ∨ f.mtime ≤ g.mtime) :
    Made parse fs' f S ali := by
  refine ⟨h.parse, h.content, h.small, ?_⟩
  intro q g content hg hread
  rcases hfs q g hg with same | later
  · exact h.fresh q g content same hread
  · exact .inr later

theorem Origin.later {clock : Int} {es : List Event} {p : Str} {t : Int} {S : Sources} {ali : Bool}
    (h : Origin parse clock es p t S ali) (e : Event) : Origin parse clock (es ++ [e]) p t S ali := by
  obtain ⟨before, dump, args, k, z, M, R, after, rfl, hp, hS⟩ := h
  exact ⟨before, dump, args, k, z, M, R, after ++ [e], by rw [List.append_assoc, List.cons_append], hp, hS⟩

variable {clock : Int} {es : List Event}

theorem Sound.remove (h : Sound parse clock es d) (p : Str) {now : Int} (tick : d.clock ≤ now) :
    Sound parse clock es ⟨d.fs.remove p, now⟩ := by
  constructor
  · intro q g hg
    exact Int.le_trans (h.past q g (files_remove hg).2) tick
  · intro q g hq hg
    obtain ⟨S, ali, origin, made⟩ := h.made q g hq (files_remove hg).2
    exact ⟨S, ali, origin, made.later fun q' g' hg' => .inl (files_remove hg').2⟩

/-- A file written now leaves the older dumps as they were. -/
theorem Sound.write (h : Sound parse clock es d) {p : Str} {now : Int} (tick : d.clock ≤ now)
    (hf : f.mtime = now)
    (new : FD_EXT.isSuffixOf p = true →
      ∃ S ali, Origin parse clock es p f.mtime S ali ∧ Made parse (d.fs.write p f) f S ali) :
    Sound parse clock es ⟨d.fs.write p f, now⟩ := by
  constructor
  · intro q g hg
    rcases files_write hg with ⟨-, rfl⟩ | ⟨-, old⟩
    · exact Int.le_of_eq hf
    · exact Int.le_trans (h.past q g old) tick
  · intro q g hq hg
    rcases files_write hg with ⟨rfl, rfl⟩ | ⟨-, old⟩
    · exact new hq
    · obtain ⟨S, ali, origin, made⟩ := h.made q g hq old
      refine ⟨S, ali, origin, made.later ?_⟩
      intro q' g' hg'
      rcases files_write hg' with ⟨-, rfl⟩ | ⟨-, old'⟩
      · right
        rw [hf]
        exact Int.le_trans (h.past q g old) tick
      · exact .inl old'

theorem Sound.later (h : Sound parse clock es d) (e : Event) : Sound parse clock (es ++ [e]) d where
  past := h.past
  made p f hp hf := by
    obtain ⟨S, ali, origin, made⟩ := h.made p f hp hf
    exact ⟨S, ali, origin.later e, made⟩

theorem withExt_suffix (dump : Str) : FD_EXT.isSuffixOf (withExt dump) = true := by
  rw [withExt]
  split
  · next h => exact h
  · exact List.isSuffixOf_iff_suffix.mpr (List.suffix_append dump FD_EXT)

/-- A dump is made of the files as they are. -/
theorem made_zcompile {fs : Fs} {p : Str} {args : List Str} {ali k z : Bool} {map : Nat} {now : Int}
    {bytes : Bytes} (gone : fs.files p = none)
    (built : buildDump (sources fs (parse ali)) args map (loadFlags k z) = .ok bytes)
    (small : bytes.length < 2 ^ 31) :
    Made parse (fs.write p ⟨now, bytes⟩) ⟨now, bytes⟩ (sources fs (parse ali)) ali := by
  refine ⟨rfl, ⟨args, map, k, z, built⟩, small, ?_⟩
  intro q g content hg hread
  rcases files_write hg with ⟨rfl, rfl⟩ | ⟨-, old⟩
  · have none_ : (sources fs (parse ali)).read q = none := by
      show (fs.files q).map File.content = none
      rw [gone]
      rfl
    rw [none_] at hread
    cases hread
  · have same : (sources fs (parse ali)).read q = some g.content := by
      show (fs.files q).map File.content = some g.content
      rw [old]
      rfl
    exact .inl (Option.some.inj (same.symm.trans hread))

theorem sound_step (h : Sound parse clock es (disk parse clock es)) {e : Event}
    (honest : Honest parse (disk parse clock es) e) :
    Sound parse clock (es ++ [e]) (step parse (disk parse clock es) e) := by
  obtain ⟨tick, ok⟩ := honest
  cases e with
  | write p content now => exact (h.later _).write tick rfl fun hp => absurd hp ok
  | remove p now => exact (h.later _).remove p tick
  | zcompile dump args ali k z M R now =>
    have removed := (h.later (.zcompile dump args ali k z M R now)).remove (withExt dump) tick
    have gone : ((disk parse clock es).fs.remove (withExt dump)).files (withExt dump) = none := if_pos rfl
    show Sound parse clock _ ⟨zcompile parse (disk parse clock es).fs dump args ali k z M R now, now⟩
    rw [zcompile]
    split
    · exact removed
    · next bytes built =>
      apply removed.write (Int.le_refl now) rfl
      intro _
      exact ⟨_, ali, ⟨es, dump, args, k, z, M, R, [], rfl, rfl, rfl⟩, made_zcompile gone built (ok bytes built)⟩

theorem sound_empty (clock : Int) : Sound parse clock [] ⟨Fs.empty, clock⟩ := by
  constructor
  · rintro p f ⟨⟩
  · rintro p f - ⟨⟩

/-- The induction is from the run's end: a call's origin is the run in front of it. -/
theorem sound_run (along : Along (step parse) (Honest parse) ⟨Fs.empty, clock⟩ es) :
    Sound parse clock es (disk parse clock es) := by
  induction es using List.reverseRecOn with
  | nil => exact sound_empty clock
  | append_singleton es e ih =>
    obtain ⟨front, honest, -⟩ := along_append.mp along
    rw [disk, run_append]
    exact sound_step (ih front) honest

end Invariant

section Fresh

/-- The program of a file that a call has read at the second `t`. What the file says now, if not what the call
read, was written at `t` or later. -/
structure CompiledFrom (fs : Fs) (S : Sources) (ali : Bool) (src name : Str) (t : Int) (prog : Eprog) : Prop where
  name : basename src = name
  code : ∃ content c, S.read src = some content ∧ parse ali content = some c ∧
    prog = { bldEprog c with flags := EF_REAL } ∧ ∀ g, fs.files src = some g → g.content = content ∨ t ≤ g.mtime

variable {parse} {fs : Fs} {f : File} {S : Sources} {ali : Bool}

/-- Where the first header would be, a dump without functions has its second magic. -/
theorem loadDumpHeader_empty (name : Str) (map : Bool) :
    ∃ w, loadDumpHeader name false (some (bytesOf (prelude false map 48) ++ bytesOf (prelude true map 48))) =
      .error w := by
  cases map with
  | false => exact ⟨_, rfl⟩
  | true => exact ⟨_, rfl⟩

theorem checkDumpFile_empty (file name : Str) (map : Nat) (testOnly : Bool) :
    ∃ w, checkDumpFile file (some (dumpOf [] map)) name testOnly = some (.error w) := by
  have dump : dumpOf [] map =
      bytesOf (prelude false (mapped map 48) 48) ++ bytesOf (prelude true (mapped map 48) 48) := by
    have size : tlenOf [] = 48 := rfl
    rw [dumpOf, writeDump, writePass, writePass, size]
    simp only [List.map_nil, writeHeads, List.flatMap_nil, List.append_nil]
    rfl
  obtain ⟨w, hw⟩ := loadDumpHeader_empty file (mapped map 48)
  refine ⟨w, ?_⟩
  rw [checkDumpFile, dump, hw]

theorem checked_compiled (made : Made parse fs f S ali) {file name : Str} (plain : '\x00' ∉ name)
    {prog : Eprog} {ksh : Nat} (h : checked file f name false = some (some (prog, ksh))) :
    ∃ src, CompiledFrom parse fs S ali src name f.mtime prog := by
  obtain ⟨args, map, k, z, written⟩ := made.content
  obtain ⟨es, compiles, hbytes⟩ := buildDump_dumpOf written
  have fits := made.small
  rw [hbytes] at fits
  rw [checked, hbytes] at h
  by_cases filled : es = []
  · subst filled
    obtain ⟨w, hw⟩ := checkDumpFile_empty file name map false
    rw [hw] at h
    cases h
  · rw [checkDumpFile_eq compiles filled fits plain, answer] at h
    cases hq : (plan (loadFlags k z) args).find? fun q => basename q.1 = name with
    | none =>
      rw [hq] at h
      cases h
    | some q =>
      have named := List.find?_some hq
      rw [decide_eq_true_eq] at named
      cases hread : S.read q.1 with
      | none =>
        simp only [hq, hread, Option.bind_none] at h
        cases h
      | some content =>
        cases hparse : S.parse content with
        | none =>
          simp only [hq, hread, Option.bind_some, hparse] at h
          cases h
        | some c =>
          simp only [hq, hread, Option.bind_some, hparse, Bool.false_eq_true, if_false] at h
          split at h
          · cases h
          · cases h
            rw [made.parse] at hparse
            exact ⟨q.1, named, content, c, hread, hparse, rfl, fun g hg => made.fresh _ _ _ hg hread⟩

theorem notOlder_iff {t : Int} {stn : Option File} :
    notOlder t stn = true ↔ ∀ g, stn = some g → g.mtime ≤ t := by
  cases stn with
  | none => simp [notOlder]
  | some g => simp [notOlder]

/-- What the two loaders choose between: a dump that is not older than the source. -/
structure Chosen (fs : Fs) (file name : Str) (prog : Eprog) (ksh : Nat) (p : Str) (f : File) : Prop where
  dump : FD_EXT.isSuffixOf p = true
  there : fs.files p = some f
  found : checked p f name false = some (some (prog, ksh))
  young : ∀ g, fs.files file = some g → g.mtime ≤ f.mtime

theorem tryDumpFile_chosen {path name file : Str} {prog : Eprog} {ksh : Nat}
    (dir : ¬ FD_EXT.isSuffixOf path = true)
    (h : tryDumpFile fs path name file false = some (some (prog, ksh))) :
    ∃ p f, (p = path ++ FD_EXT ∨ p = file ++ FD_EXT) ∧ Chosen fs file name prog ksh p f := by
  have ext : ∀ p : Str, FD_EXT.isSuffixOf (p ++ FD_EXT) = true := fun p =>
    List.isSuffixOf_iff_suffix.mpr (List.suffix_append p FD_EXT)
  have own : ∀ (r : Option (Option (Eprog × Nat))), r = some (some (prog, ksh)) →
      (r = match fs.files (file ++ FD_EXT) with
        | some c => if notOlder c.mtime (fs.files file) then checked (file ++ FD_EXT) c name false
            else some none
        | none => some none) →
      ∃ p f, (p = path ++ FD_EXT ∨ p = file ++ FD_EXT) ∧ Chosen fs file name prog ksh p f := by
    intro r hr heq
    rw [hr] at heq
    split at heq
    · next c hc =>
      split at heq
      · next young => exact ⟨_, c, .inr rfl, ext file, hc, heq.symm, notOlder_iff.mp young⟩
      · cases heq
    · cases heq
  rw [tryDumpFile, if_neg dir] at h
  dsimp only at h
  split at h
  · exact own _ h rfl
  · next d hd =>
    split at h
    · next young =>
      rw [Bool.and_eq_true] at young
      split at h
      · exact own _ h rfl
      · exact ⟨_, d, .inl rfl, ext path, hd, h, notOlder_iff.mp young.2⟩
    · exact own _ h rfl

theorem trySourceFile_chosen {file : Str} {prog : Eprog} {ksh : Nat} (plain : ¬ FD_EXT.isSuffixOf file = true)
    (h : trySourceFile fs file = some (some (prog, ksh))) :
    ∃ f, Chosen fs file (basename file) prog ksh (file ++ FD_EXT) f := by
  rw [trySourceFile, if_neg plain] at h
  dsimp only at h
  split at h
  · next c hc =>
    split at h
    · next young =>
      exact ⟨c, List.isSuffixOf_iff_suffix.mpr (List.suffix_append file FD_EXT), hc, h,
        notOlder_iff.mp young⟩
    · cases h
  · cases h

/-- `d/fn` is written, and compiled a second later. -/
def oneRun : List Event :=
  [.write "d/fn".toList [] 1, .zcompile "d/fn".toList ["d/fn".toList] false true false false false 2]

def oneParse (_ : Bool) (_ : Bytes) : Option Compiled := some oneCode

theorem oneRun_honest : Along (step oneParse) (Honest oneParse) ⟨Fs.empty, 0⟩ oneRun := by
  refine ⟨⟨by decide, by decide⟩, ⟨by decide, ?_⟩, trivial⟩
  intro bytes hbytes
  have dump : bytes = dumpOf [oneEntry] 1 := (Except.ok.inj hbytes).symm
  rw [dump]
  exact one_fits

end Fresh

end Zshrs.Parse.Dump
