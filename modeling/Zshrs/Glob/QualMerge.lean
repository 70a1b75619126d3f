import Zshrs.Glob.QualParse

namespace Zshrs.Glob.Quals

open Lib.Links

/-- The alternatives of an arena, at most `n`. -/
def altsFrom (nodes : List Qual) : Nat → Option Nat → Option (List (List Qual))
  | _, none => some []
  | 0, some _ => none
  | n + 1, some hi => do
      let chain ← follow nodes Qual.next nodes.length (some hi)
      let head ← nodes[hi]?
      let out ← altsFrom nodes n head.or
      return chain :: out

def alts (a : QualArena) : Option (List (List Qual)) := altsFrom a.nodes a.nodes.length a.head

/-- The nodes of a pair of alternatives, each linked to the next place. -/
def copies (base : Nat) (row : List Qual) : List Qual :=
  row.mapIdx fun k node => { node with or := none, next := some (base + k + 1) }

def push_pair (s : Linking) (row : List Qual) : Linking :=
  let base := s.nodes.length
  let nodes := s.nodes ++ copies base row
  let nodes := nodes.modify (nodes.length - 1) (setNext none)
  match s.prev with
  | none => { nodes, head := some base, prev := some base }
  | some p => { nodes := nodes.modify p (setOr base), head := s.head, prev := some base }

def merge_arenas (old newq : QualArena) : Option QualArena := do
  let na ← alts newq
  let oa ← alts old
  if oa.isEmpty then return newq
  let news := if na.isEmpty then [[]] else na
  let s := news.foldl (fun s qn => oa.foldl (fun s qo => push_pair s (qn ++ qo)) s) {}
  return ⟨s.nodes, s.head⟩

section Groups

variable {σ : Type} (R : Reader σ)

def merge_colon_mods : Option Text → Option Text → Option Text
  | some n, some o => some (n ++ o)
  | n, o => n.or o

def merge_settings (old q : Settings σ) : Settings σ where
  colon_mods := merge_colon_mods q.colon_mods old.colon_mods
  mark_dirs := q.mark_dirs.or old.mark_dirs
  list_types := q.list_types || old.list_types
  mark_follow := q.mark_follow || old.mark_follow
  nullglob := q.nullglob || old.nullglob
  globdots := q.globdots || old.globdots
  numsort := q.numsort.or old.numsort
  argued := R.join old.argued q.argued

def pairs {α : Type} (news olds : List (List α)) : List (List α) := news.flatMap fun n => olds.map (n ++ ·)

/-- The alternatives of `new`, each in front of each of `old`. -/
def distribute {α : Type} (old new : List (List α)) : List (List α) :=
  if old.isEmpty then new else pairs (if new.isEmpty then [[]] else new) old

def merge_qualifier_groups (old newq : QualifierSet σ) : Option (QualifierSet σ) := do
  let quals ← merge_arenas old.quals newq.quals
  return ⟨distribute old.alternatives newq.alternatives, quals, merge_settings R old.settings newq.settings⟩

end Groups

variable {nodes : List Qual} {p : Option Nat} {rows : List (List Test)}

theorem altsFrom_eq (h : Alternatives nodes p rows) {n : Nat} (hn : rows.length ≤ n) :
    ∃ qrows, altsFrom nodes n p = some qrows ∧ qrows.map (List.map Qual.test) = rows.map (List.map some) := by
  induction h generalizing n with
  | nil => exact ⟨[], by cases n <;> rfl, rfl⟩
  | @cons i q qs ts rows hread hrow htests hrest ih =>
      cases n with
      | zero => exact absurd hn (Nat.not_succ_le_zero _)
      | succ n =>
          obtain ⟨qrows, hqrows, hmap⟩ := ih (Nat.le_of_succ_le_succ hn)
          refine ⟨qs :: qrows, ?_, ?_⟩
          · simp [altsFrom, follow_of_chain hrow (chain_length_le hrow), hread, hqrows]
          · rw [List.map_cons, List.map_cons, htests, hmap]

theorem alts_arenaOf {rows : List (List Test)} (hne : ∀ row ∈ rows, row ≠ []) :
    ∃ qrows, alts (arenaOf rows) = some qrows ∧ qrows.map (List.map Qual.test) = rows.map (List.map some) :=
  altsFrom_eq (alternatives_arenaOf hne) (rows_length_le (alternatives_arenaOf hne))

theorem copies_cons (base : Nat) (q : Qual) (qs : List Qual) :
    copies base (q :: qs) = { q with or := none, next := some (base + 1) } :: copies (base + 1) qs := by
  rw [copies, copies, List.mapIdx_cons]
  congr 2
  funext k node
  rw [Nat.add_right_comm base 1 k, Nat.add_assoc base k 1]

theorem eq_node {q : Qual} {t : Test} (h : q.test = some t) (next or : Option Nat) :
    { q with next, or } = t.node next or := by
  obtain ⟨hleaf, hsense⟩ := leaf_of_test h
  rw [Test.node, hleaf, hsense]

/-- The copies with the last link cut. -/
theorem copied_row (pre : List Qual) {row : List Qual} {ts : List Test} (htests : row.map Qual.test = ts.map some)
    (hne : ts ≠ []) :
    (pre ++ copies pre.length row).modify ((pre ++ copies pre.length row).length - 1) (setNext none) =
      pre ++ rowNodes pre.length none ts := by
  induction row generalizing pre ts with
  | nil =>
      cases ts with
      | nil => exact absurd rfl hne
      | cons => cases htests
  | cons q row ih =>
      cases ts with
      | nil => cases htests
      | cons t ts =>
          obtain ⟨ht, hts⟩ := List.cons.inj htests
          cases ts with
          | nil =>
              obtain rfl := List.map_eq_nil_iff.mp hts
              have hlast : (pre ++ copies pre.length [q]).length - 1 = pre.length := by simp [copies]
              rw [hlast, copies_cons, modify_append_length, rowNodes]
              have hnode := eq_node ht none none
              simpa [setNext, start, copies, rowNodes] using hnode
          | cons u us =>
              have hih := ih (pre ++ [t.node (some (pre.length + 1)) none]) hts (List.cons_ne_nil u us)
              have hnode := eq_node ht (some (pre.length + 1)) none
              rw [List.length_append, List.length_singleton, List.append_assoc, List.append_assoc] at hih
              rw [copies_cons]
              simpa only [hnode, rowNodes, start, List.cons_append, List.nil_append] using hih

theorem push_pair_layout {rows : List (List Test)} (hrows : ∀ row ∈ rows, row ≠ []) {row : List Qual} {ts : List Test}
    (htests : row.map Qual.test = ts.map some) (hne : ts ≠ []) :
    push_pair (layout rows) row = layout (rows ++ [ts]) := by
  have hcopied := copied_row (grid 0 rows) htests hne
  have hlinked := linkRow_layout hrows ts
  rw [linkRow, layout] at hlinked
  rw [← hlinked]
  simp only [push_pair, layout]
  rw [hcopied]
  cases rows with
  | nil => rfl
  | cons r rows =>
      have hprev : lastHead 0 (r :: rows) ≠ none := by
        rcases (r :: rows).eq_nil_or_concat' with hnil | ⟨front, last, hlast⟩
        · cases hnil
        · rw [hlast, lastHead_append_singleton]
          exact Option.some_ne_none _
      obtain ⟨p, hp⟩ := Option.ne_none_iff_exists'.mp hprev
      have hlink := linkPrev_append hrows (grid 0 (r :: rows)).length (rowNodes (grid 0 (r :: rows)).length none ts)
      rw [hp] at hlink
      simp only [hp, start, Option.some_or]
      rw [← hlink]
      rfl

theorem foldl_push_pair {qrows : List (List Qual)} {trows : List (List Test)}
    (hmap : qrows.map (List.map Qual.test) = trows.map (List.map some)) (htrows : ∀ row ∈ trows, row ≠ [])
    {rows : List (List Test)} (hrows : ∀ row ∈ rows, row ≠ []) :
    qrows.foldl push_pair (layout rows) = layout (rows ++ trows) := by
  induction qrows generalizing trows rows with
  | nil =>
      obtain rfl := List.map_eq_nil_iff.mp hmap.symm
      rw [List.append_nil]
      rfl
  | cons row qrows ih =>
      cases trows with
      | nil => cases hmap
      | cons ts trows =>
          obtain ⟨htests, hrest⟩ := List.cons.inj hmap
          have hts := htrows ts (List.mem_cons_self ..)
          rw [List.foldl_cons, push_pair_layout hrows htests hts, ih hrest, List.append_assoc, List.singleton_append]
          · intro r hr
            exact htrows r (List.mem_cons_of_mem ts hr)
          · intro r hr
            rcases List.mem_append.mp hr with hr | hr
            · exact hrows r hr
            · obtain rfl := List.mem_singleton.mp hr
              exact hts

theorem map_pairs {α β : Type} (f : α → β) (news olds : List (List α)) :
    (pairs news olds).map (List.map f) = pairs (news.map (List.map f)) (olds.map (List.map f)) := by
  simp [pairs, List.map_flatMap, List.flatMap_map, Function.comp_def]

theorem pairs_ne_nil {α : Type} {news olds : List (List α)} (holds : ∀ o ∈ olds, o ≠ []) :
    ∀ row ∈ pairs news olds, row ≠ [] := by
  intro row hrow
  obtain ⟨n, -, hrow⟩ := List.mem_flatMap.mp hrow
  obtain ⟨o, ho, rfl⟩ := List.mem_map.mp hrow
  exact List.append_ne_nil_of_right_ne_nil n (holds o ho)

theorem distribute_ne_nil {α : Type} {old new : List (List α)} (hold : ∀ o ∈ old, o ≠ []) (hnew : ∀ n ∈ new, n ≠ []) :
    ∀ row ∈ distribute old new, row ≠ [] := by
  rw [distribute]
  split
  · exact hnew
  · exact pairs_ne_nil hold

/-- Merging lays out the alternatives of both groups. -/
theorem merge_arenas_eq {old new : List (List Test)} (hold : ∀ row ∈ old, row ≠ []) (hnew : ∀ row ∈ new, row ≠ []) :
    merge_arenas (arenaOf old) (arenaOf new) = some (arenaOf (distribute old new)) := by
  obtain ⟨oa, hoa, hoamap⟩ := alts_arenaOf hold
  obtain ⟨na, hna, hnamap⟩ := alts_arenaOf hnew
  have hlength : ∀ {qrows : List (List Qual)} {rows : List (List Test)},
      qrows.map (List.map Qual.test) = rows.map (List.map some) → qrows.isEmpty = rows.isEmpty := by
    intro qrows rows h
    rw [← List.isEmpty_map (f := List.map Qual.test), h, List.isEmpty_map]
  simp only [merge_arenas, hna, hoa, Option.bind_eq_bind, Option.bind_some]
  cases hempty : old.isEmpty with
  | true => simp [hlength hoamap, hempty, distribute]
  | false =>
      have hpairs : (pairs (if na.isEmpty then [[]] else na) oa).map (List.map Qual.test) =
          (pairs (if new.isEmpty then [[]] else new) old).map (List.map some) := by
        rw [map_pairs, map_pairs, hoamap, hlength hnamap]
        split
        · rfl
        · rw [hnamap]
      have hnone : ∀ row ∈ ([] : List (List Test)), row ≠ [] := by simp
      have hfold := foldl_push_pair hpairs (pairs_ne_nil hold) hnone
      rw [pairs, List.foldl_flatMap] at hfold
      simp only [List.foldl_map] at hfold
      simp only [hlength hoamap, hempty, distribute]
      change some (QualArena.mk (List.foldl _ (layout []) _).nodes (List.foldl _ (layout []) _).head) = _
      rw [hfold]
      rfl

section Accepts

variable {S : Type} {env : Tests S} {file : File S}

theorem any_pairs {α : Type} (f : α → Bool) (news olds : List (List α)) :
    (pairs news olds).any (·.all f) = (news.any (·.all f) && olds.any (·.all f)) := by
  induction news with
  | nil => rfl
  | cons n news ih =>
      have hrow : (olds.map (n ++ ·)).any (·.all f) = (n.all f && olds.any (·.all f)) := by
        rw [List.any_map]
        simp only [Function.comp_def, List.all_append, List.and_any_distrib_left]
      rw [pairs, List.flatMap_cons, List.any_append, hrow, List.any_cons, ← pairs, ih, Bool.and_or_distrib_right]

/-- The merged tests let through what both groups let through. -/
theorem accepted_distribute {old new : List (List Test)} :
    accepted env file (distribute old new) = (accepted env file old && accepted env file new) := by
  cases hold : old.isEmpty with
  | true => simp [distribute, accepted, hold]
  | false =>
      have hpairs : ∀ news : List (List Test), news ≠ [] → (pairs news old).isEmpty = false := by
        intro news hnews
        obtain ⟨n, news, rfl⟩ := List.exists_cons_of_ne_nil hnews
        obtain ⟨o, olds, rfl⟩ := List.exists_cons_of_ne_nil (List.isEmpty_eq_false_iff.mp hold)
        rfl
      cases hnew : new.isEmpty with
      | true =>
          have hone := hpairs [[]] (List.cons_ne_nil _ _)
          simp [distribute, accepted, hold, hnew, hone, any_pairs]
      | false =>
          have hall := hpairs new (List.isEmpty_eq_false_iff.mp hnew)
          cases hst : file.symlink_metadata with
          | none => simp [distribute, accepted, hold, hnew, hall, hst]
          | some st => simp [distribute, accepted, hold, hnew, hall, hst, any_pairs, Bool.and_comm]

end Accepts

end Zshrs.Glob.Quals
