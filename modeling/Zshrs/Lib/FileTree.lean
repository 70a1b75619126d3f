import Mathlib.Data.List.Basic
import Mathlib.Data.List.Infix

namespace Zshrs.Lib.FileTree

variable {κ φ : Type}

inductive Node (φ : Type)
  | dir
  | file (content : φ)
  deriving DecidableEq

/-- A file tree, by the nodes that stand at its paths. -/
abbrev Tree (κ φ : Type) := List (List κ × Node φ)

variable [DecidableEq κ]

def nodeAt (t : Tree κ φ) (p : List κ) : Option (Node φ) := (t.find? fun e => e.1 = p).map Prod.snd

def put (t : Tree κ φ) (p : List κ) (n : Node φ) : Tree κ φ := (p, n) :: t.filter fun e => e.1 ≠ p

/-- What is at `d` and below it is removed. -/
def removeAll (t : Tree κ φ) (d : List κ) : Tree κ φ := t.filter fun e => ¬ d <+: e.1

/-- The directories of a path are created below one that is there. It fails on a file. -/
def createDirs (t : Tree κ φ) (base : List κ) : List κ → Option (Tree κ φ)
  | [] => some t
  | c :: cs =>
    let p := base ++ [c]
    match nodeAt t p with
    | some .dir => createDirs t p cs
    | some (.file _) => none
    | none => createDirs (put t p .dir) p cs

def createDirAll (t : Tree κ φ) (d : List κ) : Option (Tree κ φ) := createDirs t [] d

/-- Nodes are written below a directory. -/
def write (t : Tree κ φ) (d : List κ) (nodes : Tree κ φ) : Tree κ φ :=
  nodes.foldr (fun e t => put t (d ++ e.1) e.2) t

/-- What is below a directory, by the paths from there. -/
def below (t : Tree κ φ) (d : List κ) : Tree κ φ :=
  t.filterMap fun e => if d <+: e.1 ∧ d ≠ e.1 then some (e.1.drop d.length, e.2) else none

/-- The names in a directory. -/
def names (t : Tree κ φ) (d : List κ) : List κ :=
  (below t d).filterMap fun e => match e.1 with
    | [c] => some c
    | _ => none

/-- Trees that differ at paths in `P` only. -/
def Outside (P : List κ → Prop) (t t' : Tree κ φ) : Prop := ∀ p, ¬ P p → nodeAt t' p = nodeAt t p

namespace Outside

variable {P Q : List κ → Prop} {t t' t'' : Tree κ φ}

theorem refl (P : List κ → Prop) (t : Tree κ φ) : Outside P t t := fun _ _ => rfl

theorem trans (h : Outside P t t') (k : Outside P t' t'') : Outside P t t'' :=
  fun p hp => (k p hp).trans (h p hp)

theorem mono (hPQ : ∀ p, P p → Q p) (h : Outside P t t') : Outside Q t t' :=
  fun p hq => h p fun hp => hq (hPQ p hp)

end Outside

section Nodes

variable (t : Tree κ φ) (p q : List κ)

theorem nodeAt_filter (keep : List κ → Bool) :
    nodeAt (t.filter fun e => keep e.1) p = if keep p then nodeAt t p else none := by
  unfold nodeAt
  rw [List.find?_filter]
  split
  · next hkeep =>
    have same : (fun e : List κ × Node φ => decide (keep e.1 = true ∧ decide (e.1 = p) = true)) =
        fun e => decide (e.1 = p) := by
      funext e
      by_cases he : e.1 = p
      · simp [he, hkeep]
      · simp [he]
    rw [same]
  · next hkeep =>
    rw [Option.map_eq_none_iff, List.find?_eq_none]
    intro e _
    by_cases he : e.1 = p
    · simp [he, hkeep]
    · simp [he]

theorem nodeAt_put (n : Node φ) : nodeAt (put t p n) q = if q = p then some n else nodeAt t q := by
  by_cases h : q = p
  · rw [if_pos h]
    subst h
    unfold nodeAt put
    rw [List.find?_cons_of_pos (by simp)]
    rfl
  · have rest := nodeAt_filter t q fun e => e ≠ p
    rw [if_pos (by simpa using h)] at rest
    rw [if_neg h, ← rest]
    unfold nodeAt put
    rw [List.find?_cons_of_neg (by simpa using Ne.symm h)]

theorem nodeAt_removeAll : nodeAt (removeAll t p) q = if p <+: q then none else nodeAt t q := by
  have rest := nodeAt_filter t q fun e => ¬ p <+: e
  unfold removeAll
  rw [rest]
  by_cases h : p <+: q
  · simp [h]
  · simp [h]

theorem put_outside (n : Node φ) : Outside (fun q => q = p) t (put t p n) := by
  intro q hq
  rw [nodeAt_put, if_neg hq]

theorem removeAll_outside : Outside (fun q => p <+: q) t (removeAll t p) := by
  intro q hq
  rw [nodeAt_removeAll, if_neg hq]

theorem write_outside (d : List κ) (nodes : Tree κ φ) :
    Outside (fun q => d <+: q) t (write t d nodes) := by
  induction nodes with
  | nil => exact .refl _ t
  | cons e nodes ih =>
    refine ih.trans ((put_outside _ _ e.2).mono ?_)
    rintro q rfl
    exact List.prefix_append d e.1

/-- A node below a directory stays where the written ones are elsewhere. -/
theorem nodeAt_write_self (d : List κ) (nodes : Tree κ φ) (hn : ∀ e ∈ nodes, e.1 ≠ []) :
    nodeAt (write t d nodes) d = nodeAt t d := by
  induction nodes with
  | nil => rfl
  | cons e nodes ih =>
    have hne : d ≠ d ++ e.1 := by
      intro h
      have length := congrArg List.length h
      rw [List.length_append] at length
      have empty : e.1 = [] := List.length_eq_zero_iff.mp (by omega)
      exact hn e List.mem_cons_self empty
    have rest := ih fun e he => hn e (List.mem_cons_of_mem _ he)
    change nodeAt (put (write t d nodes) (d ++ e.1) e.2) d = nodeAt t d
    rw [nodeAt_put, if_neg hne, rest]

theorem mem_below {d : List κ} {e : List κ × Node φ} (h : e ∈ below t d) : e.1 ≠ [] := by
  obtain ⟨e', -, he⟩ := List.mem_filterMap.mp h
  split at he
  · next hd =>
    cases he
    obtain ⟨rest, hrest⟩ := hd.1
    rw [← hrest, List.drop_left]
    rintro rfl
    exact hd.2 (by simpa using hrest)
  · cases he

end Nodes

section Directories

variable {t t' : Tree κ φ} {base d : List κ}

/-- What `createDirs` has made: the directories that were missing on the way. -/
structure Created (base : List κ) (cs : List κ) (t t' : Tree κ φ) : Prop where
  made : ∀ c cs', c :: cs' <+: cs → nodeAt t' (base ++ c :: cs') = some .dir
  kept : ∀ p, nodeAt t' p = nodeAt t p ∨
    ((∃ c cs', c :: cs' <+: cs ∧ p = base ++ c :: cs') ∧ nodeAt t p = none ∧
      nodeAt t' p = some .dir)

theorem createDirs_spec (cs : List κ) {t t' : Tree κ φ} {base : List κ}
    (h : createDirs t base cs = some t') : Created base cs t t' := by
  induction cs generalizing t base with
  | nil =>
    cases h
    exact ⟨fun c cs' hc => absurd (List.prefix_nil.mp hc) (by simp), fun p => .inl rfl⟩
  | cons c cs ih =>
    -- One directory is made or found, and the rest below it.
    have step {t₁ : Tree κ φ} (hnode : nodeAt t₁ (base ++ [c]) = some .dir)
        (hkept : ∀ p, nodeAt t₁ p = nodeAt t p ∨
          (p = base ++ [c] ∧ nodeAt t p = none ∧ nodeAt t₁ p = some .dir))
        (hrest : Created (base ++ [c]) cs t₁ t') : Created base (c :: cs) t t' := by
      constructor
      · intro c' cs' hc
        obtain ⟨rest, hrest'⟩ := hc
        rw [List.cons_append] at hrest'
        injection hrest' with hhead htail
        subst hhead
        cases cs' with
        | nil =>
          rcases hrest.kept (base ++ [c']) with same | ⟨-, hnone, -⟩
          · exact same.trans hnode
          · rw [hnode] at hnone
            cases hnone
        | cons c'' cs' =>
          have made := hrest.made c'' cs' ⟨rest, htail⟩
          rwa [List.append_assoc] at made
      · intro p
        rcases hrest.kept p with same | ⟨⟨c', cs', hpre, rfl⟩, hnone, hmade⟩
        · rcases hkept p with same' | ⟨rfl, hnone, hmade⟩
          · exact .inl (same.trans same')
          · exact .inr ⟨⟨c, [], by simp, rfl⟩, hnone, same.trans hmade⟩
        · right
          refine ⟨⟨c, c' :: cs', (List.prefix_cons_inj c).mpr hpre, by simp⟩, ?_, hmade⟩
          rcases hkept (base ++ [c] ++ c' :: cs') with same' | ⟨-, hnone', -⟩
          · rw [← same']
            exact hnone
          · exact hnone'
    unfold createDirs at h
    dsimp only at h
    split at h
    · next hnode => exact step hnode (fun p => .inl rfl) (ih h)
    · cases h
    · next hnode =>
      refine step ?_ ?_ (ih h)
      · rw [nodeAt_put, if_pos rfl]
      · intro p
        rw [nodeAt_put]
        split
        · next hp => exact .inr ⟨hp, hp ▸ hnode, rfl⟩
        · exact .inl rfl

/-- A directory that is there, or missing with all above it there, can be created. -/
theorem createDirs_of_dirs (cs : List κ) {t : Tree κ φ} {base : List κ}
    (h : ∀ c cs', c :: cs' <+: cs → ∀ content, nodeAt t (base ++ c :: cs') ≠ some (.file content)) :
    ∃ t', createDirs t base cs = some t' := by
  induction cs generalizing t base with
  | nil => exact ⟨t, rfl⟩
  | cons c cs ih =>
    have rest {t₁ : Tree κ φ} (hkept : ∀ p, p ≠ base ++ [c] → nodeAt t₁ p = nodeAt t p) :
        ∃ t', createDirs t₁ (base ++ [c]) cs = some t' := by
      apply ih
      intro c' cs' hpre content
      have hne : base ++ [c] ++ c' :: cs' ≠ base ++ [c] := by simp
      rw [hkept _ hne, List.append_assoc]
      exact h c (c' :: cs') ((List.prefix_cons_inj c).mpr hpre) content
    unfold createDirs
    dsimp only
    split
    · exact rest fun _ _ => rfl
    · next content hfile =>
      have first : [c] <+: c :: cs := by simp
      exact absurd hfile (h c [] first content)
    · apply rest
      intro p hp
      rw [nodeAt_put, if_neg hp]

/-- Nothing is made where all is there. -/
theorem createDirs_of_made (cs : List κ) {base : List κ}
    (h : ∀ c cs', c :: cs' <+: cs → nodeAt t (base ++ c :: cs') = some .dir) :
    createDirs t base cs = some t := by
  induction cs generalizing base with
  | nil => rfl
  | cons c cs ih =>
    have first : nodeAt t (base ++ [c]) = some .dir := h c [] (by simp)
    unfold createDirs
    dsimp only
    rw [first]
    apply ih
    intro c' cs' hpre
    rw [List.append_assoc]
    exact h c (c' :: cs') ((List.prefix_cons_inj c).mpr hpre)

theorem createDirAll_spec (h : createDirAll t d = some t') : Created [] d t t' :=
  createDirs_spec d h

end Directories

end Zshrs.Lib.FileTree
