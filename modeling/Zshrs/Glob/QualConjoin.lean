import Zshrs.Glob.QualAccepts

namespace Zshrs.Glob.Quals

open Lib

section Bodies

variable {σ S : Type} {R : Reader σ} {env : Tests S} {file : File S}

theorem wellRead_append {alt : List Item} (halt : WellRead alt) {item : Item}
    (hitem : ∀ q, item = .test q → q ≠ .ToggleSense ∧ q ≠ .ToggleFollow) : WellRead (alt ++ [item]) := by
  intro q hq
  rcases List.mem_append.mp hq with hq | hq
  · exact halt q hq
  · exact hitem q (List.mem_singleton.mp hq).symm

theorem wellRead_round {s t : Reading σ} (hround : (readLoop R).Round s t)
    (hs : ∀ alt ∈ s.before ++ [s.current], WellRead alt) : ∀ alt ∈ t.before ++ [t.current], WellRead alt := by
  obtain ⟨-, hstep⟩ := hround
  change read_step R s = some t at hstep
  unfold read_step at hstep
  cases hrest : s.rest with
  | nil => simp [hrest] at hstep
  | cons c rest =>
      rw [hrest] at hstep
      obtain ⟨⟨item, g, rest'⟩, hitem, rfl⟩ := Option.map_eq_some_iff.mp hstep
      have htest : ∀ q, item = .test q → q ≠ .ToggleSense ∧ q ≠ .ToggleFollow := by
        rintro q rfl
        exact next_item_test hitem
      have hnil : WellRead [] := fun q hq => absurd hq List.not_mem_nil
      have hgrown := wellRead_append (hs s.current (by simp)) htest
      have hbefore : ∀ alt ∈ s.before, WellRead alt := fun alt halt => hs alt (List.mem_append_left _ halt)
      intro alt halt
      rcases List.mem_append.mp halt with halt | halt
      · cases item with
        | comma => exact hs alt halt
        | caret => exact hbefore alt halt
        | dash => exact hbefore alt halt
        | setting => exact hbefore alt halt
        | test q => exact hbefore alt halt
      · obtain rfl := List.mem_singleton.mp halt
        cases item with
        | comma => exact hnil
        | caret => exact hgrown
        | dash => exact hgrown
        | setting => exact hgrown
        | test q => exact hgrown

theorem wellRead_alternativesOf {body : Text} {alts : List (List Item)} (h : alternativesOf R body = some alts) :
    ∀ alt ∈ alts, WellRead alt := by
  obtain ⟨s, hrun, rfl⟩ := Option.map_eq_some_iff.mp h
  apply (Loop.run_eq_some_iff.mp hrun).1.invariant (fun _ _ => wellRead_round)
  intro alt halt
  obtain rfl := List.mem_singleton.mp halt
  exact fun q hq => absurd hq List.not_mem_nil

/-- An arena that is laid out from alternatives with tests. -/
def LaidOut (quals : QualArena) : Prop := ∃ rows, (∀ row ∈ rows, row ≠ []) ∧ quals = arenaOf rows

theorem check_arenaOf {rows : List (List Test)} (hne : ∀ row ∈ rows, row ≠ []) :
    check_qualifiers env file (some (arenaOf rows)) = some (accepted env file rows) :=
  check_qualifiers_eq (alternatives_arenaOf hne)

theorem laidOut_parse {body : Text} {qs : QualifierSet σ} (h : parse_qualifier_string R body = some qs) :
    LaidOut qs.quals := by
  have hparse := parse_qualifier_string_eq (R := R) body
  rw [h] at hparse
  obtain ⟨alts, -, hquals⟩ := Option.map_eq_some_iff.mp hparse.symm
  exact ⟨_, rowsOf_ne_nil _, hquals.symm⟩

/-- A body accepts what its alternatives mean; the arena fails where the alternatives do. -/
theorem body_accepts (body : Text) :
    Option.Rel (fun qs alts => ∃ b, check_qualifiers env file (some qs.quals) = some b ∧
        (b = true ↔ Accepts R env file alts))
      (parse_qualifier_string R body) (alternativesOf R body) := by
  have hparse := parse_qualifier_string_eq (R := R) body
  cases halts : alternativesOf R body with
  | none =>
      rw [halts, Option.map_none, Option.map_eq_none_iff] at hparse
      rw [hparse]
      exact .none
  | some alts =>
      rw [halts] at hparse
      obtain ⟨qs, hqs, hquals⟩ := Option.map_eq_some_iff.mp hparse
      rw [hqs]
      apply Option.Rel.some
      refine ⟨accepted env file (rowsOf R (alts.map qualifiersOf)), ?_, ?_⟩
      · rw [hquals]
        exact check_arenaOf (rowsOf_ne_nil _)
      · exact accepted_rowsOf_iff (wellRead_alternativesOf halts)

end Bodies

section Groups

variable {σ S : Type} (R : Reader σ) (o : Options)

/-- The groups of a word, added from the last one on. -/
def add_groups (acc : Option (QualifierSet σ)) : List Text → Option (Option (QualifierSet σ))
  | [] => some acc
  | body :: bodies => (add_group R acc body).bind fun qs => add_groups (some qs) bodies

variable {R o} {P : Peeler}

theorem bodiesFrom_stop {nobareglob : Bool} {word : Text}
    (h : ((!nobareglob || o.hash_live) && (P.peel nobareglob word).isSome) = false) :
    bodiesFrom o P nobareglob word = [] := by
  rw [bodiesFrom]
  split_ifs with hlive
  · rw [hlive, Bool.true_and] at h
    split
    · rfl
    · rename_i hpeel
      rw [hpeel] at h
      cases h
  · rfl

theorem bodiesFrom_group {nobareglob : Bool} {word rest body : Text} (hlive : (!nobareglob || o.hash_live) = true)
    (hpeel : P.peel nobareglob word = some (rest, body)) :
    bodiesFrom o P nobareglob word = body :: bodiesFrom o P true rest := by
  rw [bodiesFrom, if_pos hlive]
  split
  · rename_i hnone
    cases hnone.symm.trans hpeel
  · rename_i hsome
    cases hsome.symm.trans hpeel
    rfl

/-- The loop over a word adds the groups that are taken off it. -/
theorem run_peelLoop (s : Peeling σ) :
    ((peelLoop o R P).run s).map Peeling.acc = add_groups R s.acc (bodiesFrom o P s.nobareglob s.word) := by
  induction hm : s.word.length using Nat.strongRecOn generalizing s with
  | ind m ih =>
      cases hguard : (peelLoop o R P).guard s with
      | false =>
          rw [Loop.run_done hguard, bodiesFrom_stop hguard]
          rfl
      | true =>
          obtain ⟨hlive, hsome⟩ := Bool.and_eq_true_iff.mp hguard
          obtain ⟨⟨rest, body⟩, hpeel⟩ := Option.isSome_iff_exists.mp hsome
          have hlt := P.peel_lt _ _ _ _ hpeel
          rw [bodiesFrom_group hlive hpeel, add_groups]
          cases hadd : add_group R s.acc body with
          | none =>
              have hstep : (peelLoop o R P).step s = none := by
                simp [peelLoop, hpeel, hadd]
              rw [Loop.run_panic hguard hstep]
              rfl
          | some qs =>
              have hstep : (peelLoop o R P).step s = some { word := rest, acc := some qs, nobareglob := true } := by
                simp [peelLoop, hpeel, hadd]
              rw [Loop.run_round ⟨hguard, hstep⟩, ih rest.length (hm ▸ hlt) _ rfl]
              rfl

theorem parse_qualifiers_eq (pattern : Text) :
    (parse_qualifiers o R pattern).map Prod.snd = add_groups R none (groups o pattern) := by
  have hrun := run_peelLoop (R := R) (o := o) (P := (peeler o pattern).1)
    { word := pattern, nobareglob := (peeler o pattern).2 }
  rw [groups, ← hrun, parse_qualifiers, Option.map_map]
  congr 1
  funext s
  rw [Function.comp_apply]
  cases s.acc <;> rfl

variable {env : Tests S} {file : File S}

theorem merge_laidOut {old newq : QualifierSet σ} (hold : LaidOut old.quals) (hnew : LaidOut newq.quals) :
    ∃ qs, merge_qualifier_groups R old newq = some qs ∧ LaidOut qs.quals ∧
      ∀ b b', check_qualifiers env file (some old.quals) = some b →
        check_qualifiers env file (some newq.quals) = some b' →
        check_qualifiers env file (some qs.quals) = some (b && b') := by
  obtain ⟨orows, hone, horows⟩ := hold
  obtain ⟨nrows, hnne, hnrows⟩ := hnew
  have hmerge := merge_arenas_eq hone hnne
  rw [← horows, ← hnrows] at hmerge
  refine ⟨_, by rw [merge_qualifier_groups, hmerge]; rfl, ⟨_, distribute_ne_nil hone hnne, rfl⟩, ?_⟩
  intro b b' hb hb'
  rw [horows, check_arenaOf hone] at hb
  rw [hnrows, check_arenaOf hnne] at hb'
  rw [check_arenaOf (distribute_ne_nil hone hnne), accepted_distribute, Option.some.inj hb, Option.some.inj hb']

/-- One group more conjoins. -/
theorem add_group_accepts {acc : Option (QualifierSet σ)} (hacc : ∀ qs, acc = some qs → LaidOut qs.quals) {b : Bool}
    (hb : check_qualifiers env file (acc.map QualifierSet.quals) = some b) {body : Text} {newq : QualifierSet σ}
    (hnewq : parse_qualifier_string R body = some newq) :
    ∃ qs, add_group R acc body = some qs ∧ LaidOut qs.quals ∧
      check_qualifiers env file (some qs.quals) =
        some (b && check_qualifiers env file (some newq.quals) == some true) := by
  have hlaid := laidOut_parse hnewq
  obtain ⟨rows, hne, hrows⟩ := hlaid
  have hcheck : check_qualifiers env file (some newq.quals) = some (accepted env file rows) := by
    rw [hrows]
    exact check_arenaOf hne
  have hbeq : (some (accepted env file rows) == some true) = accepted env file rows := by
    cases accepted env file rows <;> rfl
  rw [hcheck, hbeq]
  cases acc with
  | none =>
      obtain rfl := Option.some.inj hb
      refine ⟨newq, by simp [add_group, hnewq], ⟨rows, hne, hrows⟩, ?_⟩
      rw [hcheck, Bool.true_and]
  | some old =>
      obtain ⟨qs, hmerge, hqs, hconj⟩ := @merge_laidOut σ S R env file old newq (hacc old rfl) ⟨rows, hne, hrows⟩
      refine ⟨qs, by simp [add_group, hnewq, hmerge], hqs, ?_⟩
      exact hconj b _ hb hcheck

theorem add_groups_accept {acc : Option (QualifierSet σ)} (hacc : ∀ qs, acc = some qs → LaidOut qs.quals) {b : Bool}
    (hb : check_qualifiers env file (acc.map QualifierSet.quals) = some b) (bodies : List Text) :
    (add_groups R acc bodies).map (fun acc => check_qualifiers env file (acc.map QualifierSet.quals)) =
      (bodies.mapM (parse_qualifier_string R)).map fun sets =>
        some (b && sets.all fun qs => check_qualifiers env file (some qs.quals) == some true) := by
  induction bodies generalizing acc b with
  | nil =>
      rw [add_groups, Option.map_some, hb, List.mapM_nil]
      simp
  | cons body bodies ih =>
      rw [List.mapM_cons, add_groups]
      cases hnewq : parse_qualifier_string R body with
      | none => simp [add_group, hnewq]
      | some newq =>
          obtain ⟨qs, hadd, hqs, hcheck⟩ := add_group_accepts hacc hb hnewq
          have hlaid : ∀ q, some qs = some q → LaidOut q.quals := by
            intro q hq
            cases hq
            exact hqs
          have hnext := ih hlaid hcheck
          rw [hadd, Option.bind_some, hnext]
          cases bodies.mapM (parse_qualifier_string R) with
          | none => rfl
          | some sets => simp [Bool.and_assoc]

/-- The merged tests of a word accept what each group of it accepts on its own; they fail where a group does. -/
theorem word_accepts (pattern : Text) :
    (parse_qualifiers o R pattern).map (fun r => check_qualifiers env file (r.2.map QualifierSet.quals)) =
      ((groups o pattern).mapM (parse_qualifier_string R)).map fun sets =>
        some (sets.all fun qs => check_qualifiers env file (some qs.quals) == some true) := by
  have hnone : ∀ qs, (none : Option (QualifierSet σ)) = some qs → LaidOut qs.quals := nofun
  have hall := @add_groups_accept σ S R env file none hnone true rfl (groups o pattern)
  rw [← parse_qualifiers_eq, Option.map_map] at hall
  simpa only [Bool.true_and, Function.comp_def] using hall

/-- Qualifiers are a disjunction of conjunctions, and the groups that are taken off a word conjoin. -/
theorem qualifiers_accept (R : Reader σ) (o : Options) (env : Tests S) (file : File S) :
    (∀ body, Option.Rel (fun qs alts => ∃ b, check_qualifiers env file (some qs.quals) = some b ∧
        (b = true ↔ Accepts R env file alts))
      (parse_qualifier_string R body) (alternativesOf R body)) ∧
    ∀ pattern, (parse_qualifiers o R pattern).map (fun r => check_qualifiers env file (r.2.map QualifierSet.quals)) =
      ((groups o pattern).mapM (parse_qualifier_string R)).map fun sets =>
        some (sets.all fun qs => check_qualifiers env file (some qs.quals) == some true) :=
  ⟨body_accepts, word_accepts⟩

end Groups

section Cases

/-- No letter reads an argument. -/
def bare : Reader Unit where
  euid := 0
  egid := 0
  initial := ()
  join _ _ := ()
  read _ _ _ _ _ := none
  read_length_le := nofun
  read_test := nofun

/-- A file's stat says whether it is a directory. -/
def kindTests : Tests Bool where
  is_symlink _ := false
  call leaf _ st := if leaf.func = .qualisdir ∧ st = true ∨ leaf.func = .qualisreg ∧ st = false then 1 else 0

def regular : File Bool := ⟨['f'], some false, some false⟩

def globOptions : Options := ⟨true, true, false, false, false⟩

/-- `(,/)` rejects a regular file, though its first alternative asks for nothing; `*(/)(#q.)` accepts one, as `(/)` is
no group there. -/
theorem empty_alternative_rejects :
    alternativesOf bare [',', '/'] = some [[], [.test .IsDirectory]] ∧
    Satisfied bare kindTests regular false [] ∧
    (parse_qualifier_string bare [',', '/']).map
      (fun qs => check_qualifiers kindTests regular (some qs.quals)) = some (some false) ∧
    (parse_qualifiers globOptions bare [Star, Inpar, '/', Outpar, Inpar, Pound, 'q', '.', Outpar]).map
      (fun r => check_qualifiers kindTests regular (r.2.map QualifierSet.quals)) = some (some true) ∧
    (parse_qualifier_string bare ['/']).map
      (fun qs => check_qualifiers kindTests regular (some qs.quals)) = some (some false) := by
  refine ⟨Loop.map_run_of_rounds 2 (by decide), ?_, by decide +kernel, by decide +kernel, by decide +kernel⟩
  intro i q hiq
  simp at hiq

end Cases

section Explicit

variable {o : Options}

def explicit_group (body : Text) : Text := Inpar :: Pound :: 'q' :: body ++ [Outpar]

/-- Back over a text without parentheses. -/
theorem scan_back_flat (w xs post : Text) (hflat : ∀ c ∈ xs, c ≠ Inpar ∧ c ≠ Outpar) {k : Nat} (hk : k ≤ xs.length)
    (nobareglob : Bool) :
    ∃ nob, scan_back o (w ++ Inpar :: (xs ++ post)) (w.length + k) 0 nobareglob = some (w.length, nob) := by
  induction k generalizing nobareglob with
  | zero =>
      have hopen : (w ++ Inpar :: (xs ++ post)).getD w.length '\x00' = Inpar := by simp
      refine ⟨nobareglob, ?_⟩
      cases hw : w.length with
      | zero =>
          rw [hw] at hopen
          rw [Nat.add_zero, scan_back, if_pos ⟨hopen, rfl⟩]
      | succ n =>
          rw [hw] at hopen
          rw [Nat.add_zero, scan_back, if_pos ⟨hopen, rfl⟩]
  | succ k ih =>
      have hplace : (w ++ Inpar :: (xs ++ post)).getD (w.length + k + 1) '\x00' = xs[k] := by
        simp [List.getElem?_append, Nat.add_assoc, Nat.lt_of_succ_le hk]
      obtain ⟨hin, hout⟩ := hflat xs[k] (List.getElem_mem _)
      obtain ⟨nob, hback⟩ := ih (Nat.le_of_succ_le hk) (nobareglob || xs[k] == Outpar || xs[k] == Bar ||
        (xs[k] == Tilde && o.extendedglob))
      refine ⟨nob, ?_⟩
      rw [← Nat.add_assoc, scan_back, hplace, if_neg (fun h => hin h.1), if_neg hout, if_neg hin]
      exact hback

theorem peel_explicit (hext : o.extendedglob = true) (w : Text) {body : Text}
    (hflat : ∀ c ∈ body, c ≠ Inpar ∧ c ≠ Outpar) (nobareglob : Bool) :
    peel_tokens o nobareglob (w ++ explicit_group body) = some (w, body) := by
  have hflat' : ∀ c ∈ Pound :: 'q' :: body, c ≠ Inpar ∧ c ≠ Outpar := by
    intro c hc
    simp only [List.mem_cons] at hc
    rcases hc with rfl | rfl | hc
    · decide
    · decide
    · exact hflat c hc
  have hword : w ++ explicit_group body = w ++ Inpar :: (Pound :: 'q' :: body ++ [Outpar]) := rfl
  have hlength : (w ++ explicit_group body).length - 2 = w.length + (Pound :: 'q' :: body).length := by
    simp only [explicit_group, List.length_append, List.length_cons, List.length_nil]
    omega
  obtain ⟨nob, hback⟩ := scan_back_flat (o := o) w (Pound :: 'q' :: body) [Outpar] hflat' (Nat.le_refl _) nobareglob
  rw [← hword, ← hlength] at hback
  have hend : ¬ ((w ++ explicit_group body).length < 2 ∨ (w ++ explicit_group body).getLast? ≠ some Outpar) := by
    apply not_or.mpr
    constructor
    · simp only [explicit_group, List.length_append, List.length_cons]
      omega
    · simp [explicit_group, List.getLast?_append, List.getLast?_cons]
  have hcheck : checkglobqual o (w ++ explicit_group body) nobareglob = some (w.length, true) := by
    rw [checkglobqual, if_neg hend, hback]
    simp [hext, explicit_group]
  have hcut : cut (w ++ explicit_group body) w.length (w.length + 3) = (w, body) := by
    simp [cut, explicit_group, List.take_append, List.drop_append]
  rw [peel_tokens, hcheck, Option.map_some]
  exact congrArg some hcut

end Explicit

end Zshrs.Glob.Quals
