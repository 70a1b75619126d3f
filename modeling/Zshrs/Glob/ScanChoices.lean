import Zshrs.Glob.Scanner

namespace Zshrs.Glob.Scan

/-- One list of directories for each component before the last, and the entry that is found. -/
abbrev Choice := List (List Bytes)

def path (p : Bytes) (ds : List Bytes) : Bytes := ds.foldl addpath p

@[simp] theorem path_nil (p : Bytes) : path p [] = p := rfl

@[simp] theorem path_cons (p d : Bytes) (ds : List Bytes) : path p (d :: ds) = path (addpath p d) ds := rfl

/-- Directories each of which is there below the ones before. -/
def Chain (dirs : Bytes → List Bytes) : Bytes → List Bytes → Prop
  | _, [] => True
  | p, d :: ds => d ∈ dirs p ∧ Chain dirs (addpath p d) ds

/-- How many directories a component is chosen. -/
def Comp.Count (q : Comp) (k : Nat) : Prop :=
  match q.closure with
  | 0 => k = 1
  | 2 => 1 ≤ k
  | _ => True

/-- The choices of entries for the components from a path text on, where `dirs` are the directories
that a component may be chosen and `ends` the entries that the last one may. -/
def Chosen (dirs ends : Comp → Bytes → List Bytes) : List Comp → Bytes → Choice → Prop
  | [], _, _ => False
  | [q], p, c => ∃ name ∈ ends q p, c = [[name]]
  | q :: q' :: rest, p, c => ∃ ds cs, c = ds :: cs ∧ Chain (dirs q) p ds ∧ q.Count ds.length ∧
      Chosen dirs ends (q' :: rest) (path p ds) cs

/-- The path text of a directory, as it is opened and as names are joined to it. -/
def base (p : Bytes) : Bytes := if p = [] then [46] else p

def endpath (q : Comp) (p name : Bytes) : Bytes :=
  match q.pat with
  | .literal _ => join p name
  | .pattern _ => join (base p) name

/-- The path that a choice stands for. -/
def text : List Comp → Bytes → Choice → Bytes
  | [q], p, [[name]] => endpath q p name
  | _ :: q' :: rest, p, ds :: cs => text (q' :: rest) (path p ds) cs
  | _, _, _ => []

section

variable (env : Env) (cwd : Loc)

/-- The entries of a directory. -/
def listing (p : Bytes) : List Bytes := ((env.read_dir cwd (base p)).map (env.dots ++ ·)).getD []

/-- The directories that a component stands for. A closure takes only what is one. -/
def dirs (q : Comp) (p : Bytes) : List Bytes :=
  match q.pat with
  | .literal s =>
    if q.closure = 0 ∨ is_dir (env.metadata cwd (addpath p s)) then [s] else []
  | .pattern pattry => (listing env cwd p).filter fun n =>
      pattry n && (q.closure == 0 || is_dir (probe env cwd q (join (base p) n)))

/-- Those of them that the scan takes. -/
def taken (q : Comp) (p : Bytes) : List Bytes :=
  match q.pat with
  | .literal s => if adds env cwd q.closure p s then dirs env cwd q p else []
  | .pattern _ => dirs env cwd q p

/-- The entries that a last component stands for. -/
def ends (q : Comp) (p : Bytes) : List Bytes :=
  match q.pat with
  | .literal s => if accepts env Qual.cells cwd (join p s) false then [s] else []
  | .pattern pattry => (listing env cwd p).filter fun n =>
      pattry n && accepts env Qual.cells cwd (join (base p) n) true

/-- The names that a path text is made longer by. -/
def names (q : Comp) (p : Bytes) : List Bytes :=
  match q.pat with
  | .literal s => [s]
  | .pattern pattry => (listing env cwd p).filter pattry

def Short (q : Comp) (p : Bytes) : Prop := ∀ n ∈ names env cwd q p, p.length + n.length + 1 < PATH_MAX

/-- No path text that the scan makes reaches `PATH_MAX`. -/
def Fits : List Comp → Bytes → Prop
  | [], _ => True
  | q :: next, p =>
    if q.closure = 0 then Short env cwd q p ∧ ∀ d ∈ taken env cwd q p, Fits next (addpath p d)
    else ∀ ds, Chain (taken env cwd q) p ds → Short env cwd q (path p ds) ∧ Fits next (path p ds)

end

/-- What the workers leave in the cells makes no difference to a test. -/
def Steady (env : Env) : Prop :=
  ∀ alts, env.quals = some alts → ∀ qn ∈ alts.flatten, ∀ c, Left alts c → ∀ cwd s,
    qn.func c cwd s = qn.func qn.cells cwd s

section

variable {env : Env} {cwd : Loc}

theorem mem_dots {n : Bytes} (h : n ∈ env.dots) : n = [46] ∨ n = [46, 46] := by
  unfold Env.dots at h
  split at h
  · simpa using h
  · cases h

theorem listing_nodup (p : Bytes) : (listing env cwd p).Nodup := by
  unfold listing
  cases h : env.read_dir cwd (base p) with
  | none => exact List.nodup_nil
  | some l =>
      apply List.Nodup.append
      · unfold Env.dots
        split <;> decide
      · exact env.distinct cwd _ l h
      · intro n hn hn'
        have := env.ordinary cwd _ l h n hn'
        rcases mem_dots hn with rfl | rfl
        · exact this.2.1 rfl
        · exact this.2.2.1 rfl

theorem dirs_nodup (q : Comp) (p : Bytes) : (dirs env cwd q p).Nodup := by
  unfold dirs
  split
  · split
    · exact List.nodup_singleton _
    · exact List.nodup_nil
  · exact (listing_nodup p).filter _

theorem taken_nodup (q : Comp) (p : Bytes) : (taken env cwd q p).Nodup := by
  unfold taken
  split
  · split
    · exact dirs_nodup q p
    · exact List.nodup_nil
  · exact dirs_nodup q p

theorem ends_nodup (q : Comp) (p : Bytes) : (ends env cwd q p).Nodup := by
  unfold ends
  split
  · split
    · exact List.nodup_singleton _
    · exact List.nodup_nil
  · exact (listing_nodup p).filter _

theorem mem_names {q : Comp} {p d : Bytes} (h : d ∈ taken env cwd q p) : d ∈ names env cwd q p := by
  unfold taken dirs at h
  unfold names
  cases hpat : q.pat with
  | literal s =>
      simp only [hpat] at h
      split at h
      · split at h
        · exact h
        · cases h
      · cases h
  | pattern pattry =>
      simp only [hpat, List.mem_filter, Bool.and_eq_true] at h
      exact List.mem_filter.mpr ⟨h.1, h.2.1⟩

/-- A closure goes from a path text to one that is a directory longer. -/
def Below (env : Env) (cwd : Loc) (q : Comp) (p' p : Bytes) : Prop :=
  ∃ d ∈ taken env cwd q p, p' = addpath p d

/-- The path texts have no room for a closure to go down for ever. -/
theorem below_acc {q : Comp} (m : Nat) {p : Bytes} (hm : PATH_MAX ≤ p.length + m)
    (hs : ∀ ds, Chain (taken env cwd q) p ds → Short env cwd q (path p ds)) :
    Acc (Below env cwd q) p := by
  induction m generalizing p with
  | zero =>
      refine ⟨_, ?_⟩
      rintro _ ⟨d, hd, rfl⟩
      have hlen := hs [] trivial d (mem_names hd)
      rw [path_nil] at hlen
      omega
  | succ m ih =>
      refine ⟨_, ?_⟩
      rintro _ ⟨d, hd, rfl⟩
      apply ih
      · rw [length_addpath]
        omega
      · exact fun ds hds => hs (d :: ds) ⟨hd, hds⟩

end

end Zshrs.Glob.Scan
