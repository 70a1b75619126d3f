import Zshrs.Lib.Enumerates
import Zshrs.Glob.ScanChoices

namespace Zshrs.Glob.Scan

open Lib

instance (env : Env) (cwd : Loc) (q : Comp) (p : Bytes) : Decidable (Short env cwd q p) :=
  inferInstanceAs (Decidable (∀ n ∈ names env cwd q p, p.length + n.length + 1 < PATH_MAX))

/-- The state with more paths found. -/
def State.gain (st : State) (paths : List Bytes) : State :=
  { st with found := st.found ++ paths, matchct := st.matchct + paths.length }

@[simp] theorem State.gain_nil (st : State) : st.gain [] = st := by
  simp [State.gain]

@[simp] theorem State.gain_gain (st : State) (as bs : List Bytes) :
    (st.gain as).gain bs = st.gain (as ++ bs) := by
  simp [State.gain, Int.add_assoc]

@[simp] theorem State.enough_zero (st : State) : st.enough 0 = false := rfl

/-- A state that scans a directory, no error having been raised. -/
structure At (env : Env) (cwd : Loc) (p : Bytes) (st : State) : Prop where
  pathbuf : st.pathbuf = p
  pathpos : st.pathpos = p.length
  pathbufcwd : st.pathbufcwd = 0
  cwd : st.cwd = cwd
  errflag : st.errflag = false
  steady : st.fanned = true → Steady env

namespace At

variable {env : Env} {cwd : Loc} {p : Bytes} {st : State}

theorem gain (h : At env cwd p st) (paths : List Bytes) : At env cwd p (st.gain paths) :=
  ⟨h.pathbuf, h.pathpos, h.pathbufcwd, h.cwd, h.errflag, h.steady⟩

theorem enter (h : At env cwd p st) (d : Bytes) : At env cwd (addpath p d) (st.enter d) := by
  obtain ⟨rfl, -, h₁, h₂, h₃, h₄⟩ := h
  exact ⟨rfl, rfl, h₁, h₂, h₃, h₄⟩

theorem child (h : At env cwd p st) (steady : Steady env) (d : Bytes) :
    At env cwd (addpath p d) (child st d) := by
  obtain ⟨rfl, -, h₁, h₂, h₃, -⟩ := h
  exact ⟨rfl, rfl, h₁, h₂, h₃, fun _ => steady⟩

theorem leave (h : At env cwd p st) (d : Bytes) (paths : List Bytes) :
    ((st.enter d).gain paths).leave st.pathpos = st.gain paths := by
  obtain ⟨rfl, hpos, -⟩ := h
  simp [State.gain, State.enter, State.leave, addpath, hpos, List.append_assoc]

theorem extend (h : At env cwd p st) {st' : State} (d : Bytes) (paths : List Bytes) :
    extend st' ((Scan.child st d).gain paths) = st'.gain paths := by
  simp [Scan.extend, Scan.child, State.gain, h.errflag]

theorem anchor (h : At env cwd p st) : anchor st = p := by
  simp [Scan.anchor, h.pathbuf, h.pathbufcwd]

end At

theorem check_qualifiers_congr {cells cells' : Qual → Cells} {cwd : Loc} {s : Bytes}
    {quals : List (List Qual)}
    (h : ∀ qn ∈ quals.flatten, qn.func (cells qn) cwd s = qn.func (cells' qn) cwd s) :
    check_qualifiers cells cwd s quals = check_qualifiers cells' cwd s quals := by
  rw [Bool.eq_iff_iff]
  simp only [check_qualifiers, List.any_eq_true, List.all_eq_true]
  apply exists_congr
  intro chain
  apply and_congr_right
  intro hchain
  apply forall₂_congr
  intro qn hqn
  rw [h qn (List.mem_flatten_of_mem hchain hqn)]

theorem insert_eq (env : Env) {cwd : Loc} {p : Bytes} {st : State} (h : At env cwd p st) (s : Bytes)
    (checked : Bool) :
    insert env st s checked = st.gain (if accepts env Qual.cells cwd s checked then [s] else []) := by
  have haccepts : accepts env (if st.fanned then env.race st s else Qual.cells) cwd s checked =
      accepts env Qual.cells cwd s checked := by
    by_cases hf : st.fanned = true
    · rw [if_pos hf]
      cases hq : env.quals with
      | none => simp only [accepts, hq]
      | some alts =>
          have hcheck : check_qualifiers (env.race st s) cwd s alts = check_qualifiers Qual.cells cwd s alts :=
            check_qualifiers_congr fun qn hqn =>
              h.steady hf alts hq qn hqn _ (env.left alts hq st s qn hqn) cwd s
          simp only [accepts, hq, hcheck]
    · rw [if_neg hf]
  obtain rfl := h.cwd
  unfold insert
  rw [haccepts]
  split <;> simp [State.gain]

section

variable {env : Env} {cwd : Loc} {q : Comp} {p : Bytes}

theorem scanEntries_dirs (env : Env) (q : Comp) (pattry : Bytes → Bool) (b : Bytes) {st : State} (h : At env cwd p st)
    (ds : Dirsav) (ns subdirs : List Bytes)
    (hs : ∀ n ∈ ns, pattry n → p.length + n.length + 1 < PATH_MAX) :
    scanEntries env q pattry b true 0 0 ns st ds subdirs =
      .ok (st, ds, subdirs ++ ns.filter fun n =>
        pattry n && (q.closure == 0 || is_dir (probe env cwd q (join b n)))) := by
  induction ns generalizing subdirs with
  | nil => simp [scanEntries]
  | cons n ns ih =>
      have ih := fun subdirs => ih subdirs fun m hm => hs m (List.mem_cons_of_mem _ hm)
      rw [scanEntries, if_neg (by simp [h.errflag])]
      by_cases hn : pattry n
      · have hlen := hs n List.mem_cons_self hn
        have hguard : ¬(0 = st.pathbufcwd ∧ PATH_MAX ≤ n.length + st.pathpos - st.pathbufcwd) := by
          rw [h.pathpos, h.pathbufcwd]
          omega
        obtain rfl := h.cwd
        simp only [hguard, hn]
        by_cases hc : q.closure = 0
        · simp [hc, hn, ih]
        · cases hd : is_dir (probe env st.cwd q (join b n)) <;> simp [hc, hn, hd, ih]
      · simp [hn, ih]

theorem scanEntries_last (env : Env) (q : Comp) (pattry : Bytes → Bool) (b : Bytes) {st : State} (h : At env cwd p st)
    (ds : Dirsav) (ns subdirs : List Bytes)
    (hs : ∀ n ∈ ns, pattry n → p.length + n.length + 1 < PATH_MAX) :
    scanEntries env q pattry b false 0 0 ns st ds subdirs =
      .ok (st.gain ((ns.filter fun n => pattry n && accepts env Qual.cells cwd (join b n) true).map (join b)),
        ds, subdirs) := by
  induction ns generalizing st with
  | nil => simp [scanEntries]
  | cons n ns ih =>
      have hs' := fun m hm => hs m (List.mem_cons_of_mem _ hm)
      rw [scanEntries, if_neg (by simp [h.errflag])]
      by_cases hn : pattry n
      · have hlen := hs n List.mem_cons_self hn
        have hguard : ¬(0 = st.pathbufcwd ∧ PATH_MAX ≤ n.length + st.pathpos - st.pathbufcwd) := by
          rw [h.pathpos, h.pathbufcwd]
          omega
        have hinsert := insert_eq env h (join b n) true
        simp only [hguard, hn]
        by_cases ha : accepts env Qual.cells cwd (join b n) true
        · simp [hn, ha, hinsert, ih (h.gain _) hs']
        · simp [hn, ha, hinsert, ih h hs']
      · simp [hn, ih h hs']

/-- The directories one after the other give what they give each. -/
theorem descend_eq {scan : Nat → State → Option State} {ps : Bytes → List Bytes} {ds : List Bytes}
    (hscan : ∀ d ∈ ds, ∀ st, At env cwd (addpath p d) st →
      ∃ N, ∀ n ≥ N, scan n st = some (st.gain (ps d)))
    {st : State} (h : At env cwd p st) :
    ∃ N, ∀ n ≥ N, descend (scan n) 0 p.length ds st = some (.ok (st.gain (ds.flatMap ps))) := by
  induction ds generalizing st with
  | nil => exact ⟨0, fun n _ => by simp [descend]⟩
  | cons d ds ih =>
      obtain ⟨N, hN⟩ := hscan d List.mem_cons_self _ (h.enter d)
      obtain ⟨M, hM⟩ := ih (fun d' hd' => hscan d' (List.mem_cons_of_mem _ hd')) (h.gain (ps d))
      refine ⟨max N M, ?_⟩
      intro n hn
      have hleave := h.leave d (ps d)
      rw [h.pathpos] at hleave
      rw [descend, hN n (Nat.le_trans (Nat.le_max_left _ _) hn)]
      simp only [State.enough_zero, Bool.false_eq_true, if_false, hleave]
      rw [hM n (Nat.le_trans (Nat.le_max_right _ _) hn)]
      simp

/-- So do the workers. -/
theorem fanOut_eq {scan : Nat → State → Option State} {ps : Bytes → List Bytes} {ds : List Bytes}
    (hscan : ∀ d ∈ ds, ∀ st, At env cwd (addpath p d) st →
      ∃ N, ∀ n ≥ N, scan n st = some (st.gain (ps d)))
    {shared : State} (h : At env cwd p shared) (steady : Steady env) (st : State) :
    ∃ N, ∀ n ≥ N, fanOut (scan n) shared ds st = some (st.gain (ds.flatMap ps)) := by
  induction ds generalizing st with
  | nil => exact ⟨0, fun n _ => by simp [fanOut]⟩
  | cons d ds ih =>
      obtain ⟨N, hN⟩ := hscan d List.mem_cons_self _ (h.child steady d)
      obtain ⟨M, hM⟩ := ih (fun d' hd' => hscan d' (List.mem_cons_of_mem _ hd')) (st.gain (ps d))
      refine ⟨max N M, ?_⟩
      intro n hn
      rw [fanOut, hN n (Nat.le_trans (Nat.le_max_left _ _) hn)]
      simp only [h.extend]
      rw [hM n (Nat.le_trans (Nat.le_max_right _ _) hn)]
      simp

/-- The qualifiers may be tested wherever the directories are fanned out. -/
def Calm (env : Env) (pool : Bytes → Bool) : Prop := ∀ text, pool text = true → Steady env

/-- The components give these paths from a path text on, fanned out or not. -/
def Scans (env : Env) (cwd : Loc) (comps : List Comp) (again : Bool) (p : Bytes)
    (paths : List Bytes) : Prop :=
  ∀ pool st, Calm env pool → At env cwd p st →
    ∃ N, ∀ n ≥ N, scanner env pool 0 n comps again st = some (st.gain paths)

theorem scans_nil (again : Bool) : Scans env cwd [] again p [] := by
  intro pool st calm h
  refine ⟨1, ?_⟩
  intro n hn
  obtain ⟨n, rfl⟩ : ∃ k, n = k + 1 := ⟨n - 1, by omega⟩
  simp [scanner]

theorem scanZero_eq (scan : Nat → List Comp → Bool → State → Option State) {next : List Comp}
    {again : Bool} {zs : List Bytes} {st : State}
    (hzero : (q.closure ≠ 0 ∧ ¬(q.closure = 2 ∧ !again)) →
      ∃ N, ∀ n ≥ N, scan n next false st = some (st.gain zs))
    (hskip : ¬(q.closure ≠ 0 ∧ ¬(q.closure = 2 ∧ !again)) → zs = []) :
    ∃ N, ∀ n ≥ N, scanZero (scan n) q next 0 again st = some (.ok (st.gain zs)) := by
  by_cases hz : q.closure ≠ 0 ∧ ¬(q.closure = 2 ∧ !again)
  · obtain ⟨N, hN⟩ := hzero hz
    refine ⟨N, ?_⟩
    intro n hn
    rw [scanZero, if_pos hz, hN n hn]
    simp
  · refine ⟨0, ?_⟩
    intro n _
    rw [scanZero, if_neg hz, hskip hz, State.gain_nil]

/-- The guard does not fire below `PATH_MAX`. -/
theorem guard_false {st : State} (h : At env cwd p st) {s : Bytes} (hs : p.length + s.length + 1 < PATH_MAX) :
    ¬PATH_MAX ≤ s.length + (if s.length = 0 then 1 else 0) + st.pathpos - st.pathbufcwd := by
  rw [h.pathpos, h.pathbufcwd]
  split <;> omega

theorem scanLiteral_last {scan : List Comp → Bool → State → Option State} {s : Bytes} {st : State}
    (h : At env cwd p st) (hpat : q.pat = .literal s) (hs : Short env cwd q p) (ds : Dirsav) :
    scanLiteral env scan q [] s 0 st ds =
      some (.ok (st.gain ((ends env cwd q p).map (endpath q p)), ds)) := by
  have hlen := hs s (by simp [names, hpat])
  have hguard := guard_false h hlen
  have hinsert := insert_eq env h (join st.pathbuf s) false
  rw [h.pathbuf] at hinsert
  simp only [scanLiteral, hguard, if_false, h.pathbuf, hinsert, ends, hpat]
  by_cases ha : accepts env Qual.cells cwd (join p s) false <;> simp [ha, endpath, hpat]

theorem scanLiteral_next {scan : Nat → List Comp → Bool → State → Option State} {s : Bytes}
    {st : State} {next : List Comp} {ps : Bytes → List Bytes} (hnext : next ≠ [])
    (h : At env cwd p st) (hpat : q.pat = .literal s) (hs : Short env cwd q p) (ds : Dirsav)
    (hscan : ∀ d ∈ taken env cwd q p, ∀ st, At env cwd (addpath p d) st →
      ∃ N, ∀ n ≥ N, scan n (if q.closure ≠ 0 then q :: next else next) (q.closure ≠ 0) st =
        some (st.gain (ps d))) :
    ∃ N, ∀ n ≥ N, scanLiteral env (scan n) q next s 0 st ds =
      some (.ok (st.gain ((taken env cwd q p).flatMap ps), ds)) := by
  have hlen := hs s (by simp [names, hpat])
  have hguard := guard_false h hlen
  have henter := h.enter s
  by_cases hadd : adds env cwd q.closure p s
  · by_cases hdir : q.closure = 0 ∨ is_dir (env.metadata cwd (addpath p s))
    · have htaken : taken env cwd q p = [s] := by
        simp [taken, dirs, hpat, hadd, hdir]
      obtain ⟨N, hN⟩ := hscan s (by simp [htaken]) _ henter
      refine ⟨N, ?_⟩
      intro n hn
      simp only [scanLiteral, hguard, if_false, h.errflag, h.pathbuf, h.cwd, hadd, hnext,
        henter.pathbuf, henter.cwd, hdir, if_true, hN n hn, h.leave, htaken]
      simp
    · have htaken : taken env cwd q p = [] := by
        simp [taken, dirs, hpat, hdir]
      refine ⟨0, ?_⟩
      intro n _
      have hleave := h.leave s []
      rw [State.gain_nil, State.gain_nil] at hleave
      simp only [scanLiteral, hguard, if_false, h.errflag, h.pathbuf, h.cwd, hadd, hnext,
        henter.pathbuf, henter.cwd, hdir, hleave, htaken]
      simp
  · have htaken : taken env cwd q p = [] := by
      simp [taken, hpat, hadd]
    refine ⟨0, ?_⟩
    intro n _
    simp only [scanLiteral, hguard, if_false, h.errflag, h.pathbuf, h.cwd, hadd, hnext, htaken]
    simp

theorem scanPattern_closed {pool : Bytes → Bool} {scan : List Comp → Bool → State → Option State}
    {next : List Comp} {pattry : Bytes → Bool} {st : State} (h : At env cwd p st) (ds : Dirsav)
    (hread : env.read_dir cwd (base p) = none) :
    scanPattern env pool scan q next pattry 0 0 st ds = some (.error st) := by
  have hbase : (if anchor st = [] then [46] else anchor st) = base p := by
    rw [h.anchor, base]
  simp only [scanPattern, hbase, h.cwd, hread]

theorem scanPattern_last {pool : Bytes → Bool} {scan : List Comp → Bool → State → Option State}
    {pattry : Bytes → Bool} {st : State} {l : List Bytes} (h : At env cwd p st)
    (hpat : q.pat = .pattern pattry) (hs : Short env cwd q p) (ds : Dirsav)
    (hread : env.read_dir cwd (base p) = some l) :
    scanPattern env pool scan q [] pattry 0 0 st ds =
      some (.ok (st.gain ((ends env cwd q p).map (endpath q p)), ds)) := by
  have hbase : (if anchor st = [] then [46] else anchor st) = base p := by
    rw [h.anchor, base]
  have hlist : listing env cwd p = env.dots ++ l := by simp [listing, hread]
  have hshort : ∀ n ∈ env.dots ++ l, pattry n → p.length + n.length + 1 < PATH_MAX := by
    intro n hn hp
    apply hs
    simp [names, hpat, hlist, hp, List.mem_append.mp hn]
  have hend : endpath q p = join (base p) := by
    funext n
    simp [endpath, hpat]
  have hscan := scanEntries_last env q pattry (base p) h ds (env.dots ++ l) [] hshort
  simp only [scanPattern, hbase, h.cwd, hread, List.isEmpty_nil, Bool.not_true, hscan, hend]
  simp [descend, ends, hpat, hlist]

theorem scanPattern_next {pool : Bytes → Bool} (calm : Calm env pool)
    {scan : Nat → List Comp → Bool → State → Option State} {pattry : Bytes → Bool} {st : State}
    {next : List Comp} {ps : Bytes → List Bytes} {l : List Bytes} (hnext : next ≠ [])
    (h : At env cwd p st) (hpat : q.pat = .pattern pattry) (hs : Short env cwd q p) (ds : Dirsav)
    (hread : env.read_dir cwd (base p) = some l)
    (hscan : ∀ d ∈ taken env cwd q p, ∀ st, At env cwd (addpath p d) st →
      ∃ N, ∀ n ≥ N, scan n (if q.closure ≠ 0 then q :: next else next) (q.closure ≠ 0) st =
        some (st.gain (ps d))) :
    ∃ N, ∀ n ≥ N, scanPattern env pool (scan n) q next pattry 0 0 st ds =
      some (.ok (st.gain ((taken env cwd q p).flatMap ps), ds)) := by
  have hbase : (if anchor st = [] then [46] else anchor st) = base p := by
    rw [h.anchor, base]
  have hlist : listing env cwd p = env.dots ++ l := by simp [listing, hread]
  have hshort : ∀ n ∈ env.dots ++ l, pattry n → p.length + n.length + 1 < PATH_MAX := by
    intro n hn hp
    apply hs
    simp [names, hpat, hlist, hp, List.mem_append.mp hn]
  have hentries := scanEntries_dirs env q pattry (base p) h ds (env.dots ++ l) [] hshort
  have htaken : taken env cwd q p = (env.dots ++ l).filter fun n =>
      pattry n && (q.closure == 0 || is_dir (probe env cwd q (join (base p) n))) := by
    simp [taken, dirs, hpat, hlist]
  have hdirs : (!next.isEmpty) = true := by simp [hnext]
  rw [List.nil_append, ← htaken] at hentries
  obtain ⟨N, hN⟩ := descend_eq hscan h
  rw [← h.pathpos] at hN
  by_cases hpool : q.closure ≠ 0 ∧ True ∧ 2 ≤ (taken env cwd q p).length ∧ pool st.pathbuf
  · obtain ⟨M, hM⟩ := fanOut_eq hscan h (calm _ hpool.2.2.2) st
    refine ⟨M, ?_⟩
    intro n hn
    have hfan := hM n hn
    rw [if_pos hpool.1, decide_eq_true hpool.1] at hfan
    simp only [scanPattern, hbase, h.cwd, hread, hdirs, hentries]
    rw [if_pos hpool, hfan]
    rfl
  · refine ⟨N, ?_⟩
    intro n hn
    simp only [scanPattern, hbase, h.cwd, hread, hdirs, hentries]
    rw [if_neg hpool, hN n hn]

/-- The part of the scan after the attempt with no directory. -/
def body (env : Env) (pool : Bytes → Bool) (scan : List Comp → Bool → State → Option State) (q : Comp)
    (next : List Comp) (st : State) : Option (Flow (State × Dirsav)) :=
  match q.pat with
  | .literal str_lit => scanLiteral env scan q next str_lit 0 st init_dirsav
  | .pattern pattry => scanPattern env pool scan q next pattry 0 0 st init_dirsav

/-- The body gives more paths, or returns for a directory that is not there. -/
def Gains (st : State) (paths : List Bytes) (r : Option (Flow (State × Dirsav))) : Prop :=
  (∃ ds, r = some (.ok (st.gain paths, ds))) ∨ r = some (.error st) ∧ paths = []

theorem scanner_cons {pool : Bytes → Bool} {n : Nat} {next : List Comp} {again : Bool} {st st' : State}
    (hflag : st.errflag = false) (hcwd : st.pathbufcwd = 0)
    (hself : ¬(q.closure = BASH_STAR_DIR_SELF ∧ (!again) = true ∧ st.pathbuf ≠ []))
    (hzero : scanZero (scanner env pool 0 n) q next 0 again st = some (.ok st')) :
    scanner env pool 0 (n + 1) (q :: next) again st =
      (match body env pool (scanner env pool 0 n) q next st' with
      | none => none
      | some (.error st) => some st
      | some (.ok (st, ds)) => some (restore env 0 st ds)) := by
  rw [scanner]
  simp only [hflag, Bool.false_eq_true, if_false, hself, hzero, hcwd]
  rfl

theorem scanner_succ {pool : Bytes → Bool} {n : Nat} {next : List Comp} {again : Bool}
    {zs paths : List Bytes} {st : State} (h : At env cwd p st) (hq : q.closure < 3)
    (hzero : scanZero (scanner env pool 0 n) q next 0 again st = some (.ok (st.gain zs)))
    (hbody : Gains (st.gain zs) paths (body env pool (scanner env pool 0 n) q next (st.gain zs))) :
    scanner env pool 0 (n + 1) (q :: next) again st = some (st.gain (zs ++ paths)) := by
  have hself : ¬(q.closure = BASH_STAR_DIR_SELF ∧ (!again) = true ∧ st.pathbuf ≠ []) := by
    rw [BASH_STAR_DIR_SELF]
    omega
  have hrest : ∀ ps ds, restore env 0 ((st.gain zs).gain ps) ds = st.gain (zs ++ ps) := by
    intro ps ds
    have hcwd := ((h.gain zs).gain ps).pathbufcwd
    rw [restore, if_neg (by omega), State.gain_gain]
  rw [scanner_cons h.errflag h.pathbufcwd hself hzero]
  rcases hbody with ⟨ds, hb⟩ | ⟨hb, rfl⟩
  · rw [hb]
    exact congrArg some (hrest paths ds)
  · rw [hb, List.append_nil]

theorem body_last {pool : Bytes → Bool} {scan : List Comp → Bool → State → Option State} {st : State}
    (h : At env cwd p st) (hs : Short env cwd q p) :
    Gains st ((ends env cwd q p).map (endpath q p)) (body env pool scan q [] st) := by
  unfold body
  cases hpat : q.pat with
  | literal s => exact Or.inl ⟨_, scanLiteral_last h hpat hs _⟩
  | pattern pattry =>
      cases hread : env.read_dir cwd (base p) with
      | none =>
          refine Or.inr ⟨scanPattern_closed h _ hread, ?_⟩
          simp [ends, hpat, listing, hread]
      | some l => exact Or.inl ⟨_, scanPattern_last h hpat hs _ hread⟩

theorem body_next {pool : Bytes → Bool} (calm : Calm env pool) (scan : Nat → List Comp → Bool → State → Option State)
    {next : List Comp} {ps : Bytes → List Bytes} {st : State} (hnext : next ≠ [])
    (h : At env cwd p st) (hs : Short env cwd q p)
    (hscan : ∀ d ∈ taken env cwd q p, ∀ st, At env cwd (addpath p d) st →
      ∃ N, ∀ n ≥ N, scan n (if q.closure ≠ 0 then q :: next else next) (q.closure ≠ 0) st =
        some (st.gain (ps d))) :
    ∃ N, ∀ n ≥ N, Gains st ((taken env cwd q p).flatMap ps) (body env pool (scan n) q next st) := by
  unfold body
  cases hpat : q.pat with
  | literal s =>
      obtain ⟨N, hN⟩ := scanLiteral_next hnext h hpat hs init_dirsav hscan
      exact ⟨N, fun n hn => Or.inl ⟨_, hN n hn⟩⟩
  | pattern pattry =>
      cases hread : env.read_dir cwd (base p) with
      | none =>
          refine ⟨0, fun n _ => Or.inr ⟨scanPattern_closed h _ hread, ?_⟩⟩
          simp [taken, dirs, hpat, listing, hread]
      | some l =>
          obtain ⟨N, hN⟩ := scanPattern_next calm hnext h hpat hs init_dirsav hread hscan
          exact ⟨N, fun n hn => Or.inl ⟨_, hN n hn⟩⟩

theorem scans_last (hq : q.closure < 3) (hs : Short env cwd q p) (again : Bool) :
    Scans env cwd [q] again p ((ends env cwd q p).map (endpath q p)) := by
  intro pool st calm h
  have hnil : (q.closure ≠ 0 ∧ ¬(q.closure = 2 ∧ !again)) →
      ∃ N, ∀ n ≥ N, scanner env pool 0 n [] false st = some (st.gain []) :=
    fun _ => scans_nil false pool st calm h
  obtain ⟨N, hN⟩ := scanZero_eq (scanner env pool 0) hnil (fun _ => rfl)
  refine ⟨N + 1, ?_⟩
  intro n hn
  obtain ⟨n, rfl⟩ : ∃ k, n = k + 1 := ⟨n - 1, by omega⟩
  rw [scanner_succ h hq (hN n (by omega)) (body_last (h.gain []) hs), List.nil_append]

theorem scans_next (again : Bool) (zs : List Bytes) {next : List Comp} {ps : Bytes → List Bytes}
    (hnext : next ≠ []) (hq : q.closure < 3) (hs : Short env cwd q p)
    (hzero : (q.closure ≠ 0 ∧ ¬(q.closure = 2 ∧ !again)) → Scans env cwd next false p zs)
    (hskip : ¬(q.closure ≠ 0 ∧ ¬(q.closure = 2 ∧ !again)) → zs = [])
    (hsub : ∀ d ∈ taken env cwd q p, Scans env cwd (if q.closure ≠ 0 then q :: next else next)
      (q.closure ≠ 0) (addpath p d) (ps d)) :
    Scans env cwd (q :: next) again p (zs ++ (taken env cwd q p).flatMap ps) := by
  intro pool st calm h
  obtain ⟨N, hN⟩ := scanZero_eq (scanner env pool 0) (fun hz => hzero hz pool st calm h) hskip
  obtain ⟨M, hM⟩ := body_next calm (scanner env pool 0) hnext (h.gain zs) hs
    (fun d hd st' h' => hsub d hd pool st' calm h')
  refine ⟨max N M + 1, ?_⟩
  intro n hn
  obtain ⟨n, rfl⟩ : ∃ k, n = k + 1 := ⟨n - 1, by omega⟩
  exact scanner_succ h hq (hN n (by omega)) (hM n (by omega))

end

/-- The choices from a path text on, with the paths that the scan gives for them. -/
def Enumerated (env : Env) (cwd : Loc) (comps : List Comp) (p : Bytes) (cs : List Choice) : Prop :=
  Enumerates (Chosen (taken env cwd) (ends env cwd) comps p) cs ∧
    Scans env cwd comps false p (cs.map (text comps p))

/-- The directories of a closure that has to take at least so many, with a choice for the rest. -/
def Walked (env : Env) (cwd : Loc) (q : Comp) (next : List Comp) (least : Nat) (p : Bytes)
    (x : List Bytes × Choice) : Prop :=
  Chain (taken env cwd q) p x.1 ∧ least ≤ x.1.length ∧
    Chosen (taken env cwd) (ends env cwd) next (path p x.1) x.2

section

variable {env : Env} {cwd : Loc} {q : Comp} {p : Bytes}

theorem enumerated_nil : Enumerated env cwd [] p [] :=
  ⟨Enumerates.nil fun _ h => h, scans_nil false⟩

theorem enumerated_last (hq : q.closure < 3) (hs : Short env cwd q p) :
    Enumerated env cwd [q] p ((ends env cwd q p).map fun name => [[name]]) := by
  constructor
  · apply ((Enumerates.self (ends_nodup q p)).map fun a b h => by simpa using h).congr
    intro c
    simp only [Chosen, eq_comm]
  · rw [List.map_map]
    exact scans_last hq hs false

theorem enumerated_single {q' : Comp} {rest : List Comp} {f : Bytes → List Choice}
    (hc : q.closure = 0) (hs : Short env cwd q p)
    (hf : ∀ d ∈ taken env cwd q p, Enumerated env cwd (q' :: rest) (addpath p d) (f d)) :
    Enumerated env cwd (q :: q' :: rest) p
      ((taken env cwd q p).flatMap fun d => (f d).map ([d] :: ·)) := by
  constructor
  · apply (Enumerates.flatMap (fun d c => [d] :: c) (taken_nodup q p)
      (fun d hd => (hf d hd).1) (by simp)).congr
    intro c
    simp only [Chosen, Comp.Count, hc]
    constructor
    · rintro ⟨d, hd, cs, hcs, rfl⟩
      exact ⟨[d], cs, rfl, ⟨hd, trivial⟩, rfl, hcs⟩
    · rintro ⟨ds, cs, rfl, hds, hlen, hcs⟩
      obtain ⟨d, rfl⟩ := List.length_eq_one_iff.mp hlen
      exact ⟨d, hds.1, cs, hcs, rfl⟩
  · have hsteps : ∀ d ∈ taken env cwd q p,
        Scans env cwd (if q.closure ≠ 0 then q :: q' :: rest else q' :: rest) (q.closure ≠ 0)
          (addpath p d) ((f d).map (text (q' :: rest) (addpath p d))) := by
      intro d hd
      simpa [hc] using (hf d hd).2
    have hscan := scans_next false [] (by simp) (by omega) hs (fun h => absurd hc h.1) (fun _ => rfl)
      hsteps
    rw [List.nil_append] at hscan
    simp only [List.map_flatMap, List.map_map]
    exact hscan

theorem walked_one {next : List Comp} (x : List Bytes × Choice) :
    (∃ d ∈ taken env cwd q p, ∃ y, Walked env cwd q next 0 (addpath p d) y ∧ (d :: y.1, y.2) = x) ↔
      Walked env cwd q next 1 p x := by
  obtain ⟨ds, cs⟩ := x
  constructor
  · rintro ⟨d, hd, y, hy, h⟩
    cases h
    exact ⟨⟨hd, hy.1⟩, by simp, hy.2.2⟩
  · rintro ⟨hchain, hlen, hcs⟩
    cases ds with
    | nil => cases hlen
    | cons d ds => exact ⟨d, hchain.1, (ds, cs), ⟨hchain.2, Nat.zero_le _, hcs⟩, rfl⟩

theorem walked_zero {next : List Comp} (x : List Bytes × Choice) :
    ((∃ c, Chosen (taken env cwd) (ends env cwd) next p c ∧ (([] : List Bytes), c) = x) ∨
      Walked env cwd q next 1 p x) ↔ Walked env cwd q next 0 p x := by
  obtain ⟨ds, cs⟩ := x
  constructor
  · rintro (⟨c, hc, h⟩ | h)
    · cases h
      exact ⟨trivial, Nat.zero_le _, hc⟩
    · exact ⟨h.1, Nat.zero_le _, h.2.2⟩
  · intro h
    cases ds with
    | nil => exact Or.inl ⟨cs, h.2.2, rfl⟩
    | cons d ds => exact Or.inr ⟨h.1, by simp, h.2.2⟩

/-- How many directories a closure has to take when it is entered. -/
def least (q : Comp) (again : Bool) : Nat := if q.closure = 2 ∧ !again then 1 else 0

theorem walked_enumerates {q' : Comp} {rest : List Comp} (hq : q.closure < 3) (hc : q.closure ≠ 0)
    (hzero : ∀ ds, Chain (taken env cwd q) p ds →
      ∃ cs, Enumerated env cwd (q' :: rest) (path p ds) cs)
    (hs : ∀ ds, Chain (taken env cwd q) p ds → Short env cwd q (path p ds))
    (hacc : Acc (Below env cwd q) p) (again : Bool) :
    ∃ xs, Enumerates (Walked env cwd q (q' :: rest) (least q again) p) xs ∧
      Scans env cwd (q :: q' :: rest) again p
        (xs.map fun x => text (q' :: rest) (path p x.1) x.2) := by
  induction hacc generalizing again with
  | intro p _ ih =>
      have hsub : ∀ d, ∃ xs, d ∈ taken env cwd q p →
          Enumerates (Walked env cwd q (q' :: rest) 0 (addpath p d)) xs ∧
            Scans env cwd (q :: q' :: rest) true (addpath p d)
              (xs.map fun x => text (q' :: rest) (path (addpath p d) x.1) x.2) := by
        intro d
        by_cases hd : d ∈ taken env cwd q p
        · obtain ⟨xs, hxs⟩ := ih _ ⟨d, hd, rfl⟩ (fun ds hds => hzero (d :: ds) ⟨hd, hds⟩)
            (fun ds hds => hs (d :: ds) ⟨hd, hds⟩) true
          exact ⟨xs, fun _ => by simpa [least] using hxs⟩
        · exact ⟨[], fun h => absurd h hd⟩
      choose f hf using hsub
      obtain ⟨cs, hcs, hscan⟩ := hzero [] trivial
      have hlater := Enumerates.flatMap (fun d (x : List Bytes × Choice) => (d :: x.1, x.2))
        (taken_nodup q p) (fun d hd => (hf d hd).1) (by simp [Prod.ext_iff])
      have hsteps : ∀ d ∈ taken env cwd q p,
          Scans env cwd (if q.closure ≠ 0 then q :: q' :: rest else q' :: rest) (q.closure ≠ 0)
            (addpath p d) ((f d).map fun x => text (q' :: rest) (path (addpath p d) x.1) x.2) := by
        intro d hd
        simpa [hc] using (hf d hd).2
      have hone := hlater.congr walked_one
      by_cases hskip : q.closure = 2 ∧ !again
      · rw [least, if_pos hskip]
        refine ⟨_, hone, ?_⟩
        have := scans_next again [] (by simp) hq (hs [] trivial)
          (fun h => absurd hskip h.2) (fun _ => rfl) hsteps
        rw [List.nil_append] at this
        simp only [List.map_flatMap, List.map_map]
        exact this
      · rw [least, if_neg hskip]
        have hnow := hcs.map (f := fun c => (([] : List Bytes), c)) (fun a b h => (Prod.mk.inj h).2)
        refine ⟨_, (hnow.append hone ?_).congr walked_zero, ?_⟩
        · rintro _ ⟨c, -, rfl⟩ h
          exact absurd h.2.1 (by simp)
        · have := scans_next again _ (by simp) hq (hs [] trivial)
            (fun _ => hscan) (fun h => absurd ⟨hc, hskip⟩ h) hsteps
          simp only [List.map_append, List.map_flatMap, List.map_map]
          exact this

theorem enumerated_closure {q' : Comp} {rest : List Comp} (hq : q.closure < 3) (hc : q.closure ≠ 0)
    (hzero : ∀ ds, Chain (taken env cwd q) p ds →
      ∃ cs, Enumerated env cwd (q' :: rest) (path p ds) cs)
    (hs : ∀ ds, Chain (taken env cwd q) p ds → Short env cwd q (path p ds))
    (hacc : Acc (Below env cwd q) p) :
    ∃ cs, Enumerated env cwd (q :: q' :: rest) p cs := by
  obtain ⟨xs, hxs, hscan⟩ := walked_enumerates hq hc hzero hs hacc false
  have hcount : ∀ k, q.Count k ↔ least q false ≤ k := by
    intro k
    rcases q with ⟨pat, closure, follow⟩
    have : closure = 1 ∨ closure = 2 := by simp at hq hc; omega
    rcases this with rfl | rfl <;> simp [Comp.Count, least]
  refine ⟨xs.map fun x => x.1 :: x.2, ?_, ?_⟩
  · apply (hxs.map fun x y h => Prod.ext (List.cons.inj h).1 (List.cons.inj h).2).congr
    intro c
    constructor
    · rintro ⟨⟨ds, cs⟩, h, rfl⟩
      exact ⟨ds, cs, rfl, h.1, (hcount _).mpr h.2.1, h.2.2⟩
    · rintro ⟨ds, cs, rfl, h⟩
      exact ⟨(ds, cs), ⟨h.1, (hcount _).mp h.2.1, h.2.2⟩, rfl⟩
  · rw [List.map_map]
    exact hscan

theorem enumerated_exists {comps : List Comp} (hclosures : ∀ q ∈ comps, q.closure < 3)
    (hfits : Fits env cwd comps p) : ∃ cs, Enumerated env cwd comps p cs := by
  induction comps generalizing p with
  | nil => exact ⟨_, enumerated_nil⟩
  | cons q next ih =>
      have hq := hclosures q List.mem_cons_self
      have ih := fun p => @ih p (fun q' hq' => hclosures q' (List.mem_cons_of_mem _ hq'))
      have hs : Short env cwd q p := by
        by_cases hc : q.closure = 0
        · rw [Fits, if_pos hc] at hfits
          exact hfits.1
        · rw [Fits, if_neg hc] at hfits
          exact (hfits [] trivial).1
      cases next with
      | nil => exact ⟨_, enumerated_last hq hs⟩
      | cons q' rest =>
          by_cases hc : q.closure = 0
          · rw [Fits, if_pos hc] at hfits
            have hsub : ∀ d, ∃ cs, d ∈ taken env cwd q p →
                Enumerated env cwd (q' :: rest) (addpath p d) cs := by
              intro d
              by_cases hd : d ∈ taken env cwd q p
              · obtain ⟨cs, hcs⟩ := ih _ (hfits.2 d hd)
                exact ⟨cs, fun _ => hcs⟩
              · exact ⟨[], fun h => absurd h hd⟩
            choose f hf using hsub
            exact ⟨_, enumerated_single hc hs hf⟩
          · rw [Fits, if_neg hc] at hfits
            apply enumerated_closure hq hc
            · intro ds hds
              exact ih _ (hfits ds hds).2
            · intro ds hds
              exact (hfits ds hds).1
            · exact below_acc PATH_MAX (Nat.le_add_left _ _) fun ds hds => (hfits ds hds).1

end

/-- A directory `a` with a file `x`, a link `b` to the directory, and a file `x` beside them. -/
def twoLevels : Tree :=
  .dir [([97], .dir [([120], .file)]), ([98], .link [97]), ([120], .file)]

theorem twoLevels_ok : twoLevels.Ok := by
  refine .dir (by decide) (by decide) ?_
  intro e he
  simp only [List.mem_cons, List.not_mem_nil, or_false] at he
  rcases he with rfl | rfl | rfl
  · refine .dir (by decide) (by decide) ?_
    intro e he
    cases List.mem_singleton.mp he
    exact .file
  · exact .link
  · exact .file

/-- A qualifier that asks for more than its number. -/
def above : Qual := ⟨fun c _ _ => 0 < c.g_range, ⟨1, 0, 0⟩⟩

def sample : Env where
  toFiles := twoLevels.files twoLevels_ok
  quals := some [[above]]
  race _ _ qn := qn.cells
  left alts h st s qn hqn := by
    cases h
    exact ⟨qn, hqn, qn, hqn, qn, hqn, rfl⟩
  marks := false
  sh := false
  lchdir cwd _ ds := (-1, cwd, ds)
  restoredir cwd _ := (-1, cwd)

def start : State := ⟨[], 0, [], 0, 0, [], false, false, []⟩

def stars : Comp := ⟨.pattern fun _ => true, 1, true⟩

/-- `***/x`. -/
def starsX : List Comp := [stars, ⟨.literal [120], 0, false⟩]

theorem starsX_taken : ∀ ds, Chain (taken sample [] stars) [] ds → ds = [] ∨ ds = [[97]] ∨ ds = [[98]] := by
  intro ds h
  cases ds with
  | nil => exact Or.inl rfl
  | cons d ds =>
      have htop : taken sample [] stars [] = [[97], [98]] := by decide
      have ha : taken sample [] stars (addpath [] [97]) = [] := by decide
      have hb : taken sample [] stars (addpath [] [98]) = [] := by decide
      obtain ⟨hd, hds⟩ := h
      rw [htop, List.mem_cons, List.mem_singleton] at hd
      cases ds with
      | nil =>
          rcases hd with rfl | rfl
          · exact Or.inr (Or.inl rfl)
          · exact Or.inr (Or.inr rfl)
      | cons e ds =>
          have hnext := hds.1
          rcases hd with rfl | rfl
          · rw [ha] at hnext
            cases hnext
          · rw [hb] at hnext
            cases hnext

theorem starsX_fits : Fits sample [] starsX [] := by
  intro ds hds
  rcases starsX_taken ds hds with rfl | rfl | rfl
  · exact ⟨by decide, by decide, fun _ _ => trivial⟩
  · exact ⟨by decide, by decide, fun _ _ => trivial⟩
  · exact ⟨by decide, by decide, fun _ _ => trivial⟩

theorem sample_steady : Steady sample := by
  intro alts h qn hqn c hc cwd s
  cases h
  obtain ⟨a, ha, b, -, d, -, rfl⟩ := hc
  cases List.mem_singleton.mp ha
  cases List.mem_singleton.mp hqn
  rfl

/-- `(./)#x`. -/
def dotsX : List Comp := [⟨.literal [46], 1, false⟩, ⟨.literal [120], 0, false⟩]

end Zshrs.Glob.Scan
