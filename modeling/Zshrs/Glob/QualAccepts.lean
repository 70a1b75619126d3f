import Zshrs.Glob.QualGroups

namespace Zshrs.Glob.Quals

open Lib

def odd (n : Nat) : Bool := n % 2 == 1

@[simp] theorem odd_zero : odd 0 = false := rfl

theorem odd_succ (n : Nat) : odd (n + 1) = !odd n := by
  unfold odd
  rcases Nat.mod_two_eq_zero_or_one n with h | h <;> simp [Nat.add_mod, h]

section Reading

variable {σ : Type} (R : Reader σ)

/-- A body while it is read: the alternatives before the last comma, and the one behind it. -/
structure Reading (σ : Type) where
  rest : Text
  before : List (List Item) := []
  current : List Item := []
  settings : Settings σ

def Reading.read (s : Reading σ) (item : Item) (g : Settings σ) (rest : Text) : Reading σ :=
  match item with
  | .comma => { rest, before := s.before ++ [s.current], settings := g }
  | item => { rest, before := s.before, current := s.current ++ [item], settings := g }

def read_step (s : Reading σ) : Option (Reading σ) :=
  match s.rest with
  | [] => none
  | c :: rest =>
      (next_item R (odd (s.current.count .caret)) (odd (s.current.count .dash)) s.settings c rest).map
        fun (item, g, rest) => s.read item g rest

theorem read_rest (s : Reading σ) (item : Item) (g : Settings σ) (rest : Text) : (s.read item g rest).rest = rest := by
  cases item <;> rfl

def readLoop : Loop (Reading σ) where
  guard s := !s.rest.isEmpty
  step := read_step R
  measure s := s.rest.length
  decreases := by
    intro s t _ hstep
    unfold read_step at hstep
    cases hrest : s.rest with
    | nil => simp [hrest] at hstep
    | cons c rest =>
        rw [hrest] at hstep
        obtain ⟨⟨item, g, rest'⟩, hitem, rfl⟩ := Option.map_eq_some_iff.mp hstep
        rw [read_rest, List.length_cons]
        exact Nat.lt_succ_of_le (next_item_length_le hitem)

/-- A body before it is read. -/
def unread (body : Text) : Reading σ where
  rest := body.map fun c => if c = Dash then '-' else c
  settings := { argued := R.initial }

/-- The comma-separated alternatives of a body; `none` is an error. -/
def alternativesOf (body : Text) : Option (List (List Item)) :=
  ((readLoop R).run (unread R body)).map fun s => s.before ++ [s.current]

def Item.qualifier : Item → Option Qualifier
  | .caret => some .ToggleSense
  | .dash => some .ToggleFollow
  | .test q => some q
  | .comma => none
  | .setting => none

def qualifiersOf (alt : List Item) : List Qualifier := alt.filterMap Item.qualifier

/-- What the switch has built where the body is read up to the same place. -/
def parsed (s : Reading σ) : Parsing σ where
  rest := s.rest
  qualifiers := qualifiersOf s.current
  alternatives := (s.before.map qualifiersOf).filter (· ≠ [])
  negated := odd (s.current.count .caret)
  follow := odd (s.current.count .dash)
  settings := s.settings

theorem push_alternative_filter (alts : List (List Qualifier)) (qs : List Qualifier) :
    push_alternative (alts.filter (· ≠ [])) qs = (alts ++ [qs]).filter (· ≠ []) := by
  cases qs <;> simp [push_alternative]

theorem act_parsed (s : Reading σ) (item : Item) (g : Settings σ) (rest : Text) :
    act (parsed s) item g rest = parsed (s.read item g rest) := by
  cases item with
  | caret => simp [act, parsed, Reading.read, qualifiersOf, Item.qualifier, odd_succ]
  | dash => simp [act, parsed, Reading.read, qualifiersOf, Item.qualifier, odd_succ]
  | setting => simp [act, parsed, Reading.read, qualifiersOf, Item.qualifier]
  | test q => simp [act, parsed, Reading.read, qualifiersOf, Item.qualifier]
  | comma =>
      simp only [act, parsed, Reading.read, push_alternative_filter]
      simp [qualifiersOf]

variable {R}

theorem parse_step_parsed (s : Reading σ) : (read_step R s).map parsed = parse_step R (parsed s) := by
  unfold read_step parse_step
  cases hrest : s.rest with
  | nil => simp [parsed, hrest]
  | cons c rest =>
      have hcongr : (parsed s).rest = c :: rest := hrest
      rw [hcongr, Option.map_map]
      simp only [Function.comp_def, ← act_parsed]
      rfl

theorem run_parsed (s : Reading σ) : ((readLoop R).run s).map parsed = (parseLoop R).run (parsed s) := by
  have hrun := Loop.run_bind (L := readLoop R) (M := parseLoop R) (fun s => some (parsed s))
    (fun s t hst => by cases hst; rfl)
    (fun s _ => by
      rw [Option.bind_some]
      exact (Option.map_eq_bind ..).symm.trans (parse_step_parsed s)) s
  rw [Option.bind_some] at hrun
  exact (Option.map_eq_bind ..).trans hrun

theorem rowsOf_filter (alts : List (List Qualifier)) : rowsOf R (alts.filter (· ≠ [])) = rowsOf R alts := by
  induction alts with
  | nil => rfl
  | cons alt alts ih =>
      rw [rowsOf, rowsOf] at ih ⊢
      cases alt with
      | nil => simpa [testsFrom] using ih
      | cons q alt =>
          rw [List.filter_cons_of_pos (by simp), List.map_cons, List.map_cons, List.filter_cons, List.filter_cons, ih]

theorem quals_finish_parsed (s : Reading σ) :
    (finish R (parsed s)).quals = arenaOf (rowsOf R ((s.before ++ [s.current]).map qualifiersOf)) := by
  simp only [finish, parsed, push_alternative_filter, build_arena_eq, rowsOf_filter]
  rw [List.map_append, List.map_singleton]

/-- The arena of a body is laid out from the alternatives that its letters spell. -/
theorem parse_qualifier_string_eq (body : Text) :
    (parse_qualifier_string R body).map QualifierSet.quals =
      (alternativesOf R body).map fun alts => arenaOf (rowsOf R (alts.map qualifiersOf)) := by
  have hrun := run_parsed (R := R) (unread R body)
  have hparse : parse_qualifier_string R body = (((readLoop R).run (unread R body)).map parsed).map (finish R) := by
    rw [hrun]
    rfl
  rw [hparse, alternativesOf, Option.map_map, Option.map_map, Option.map_map]
  congr 1
  funext s
  exact quals_finish_parsed s

end Reading

section Meaning

variable {σ S : Type} (R : Reader σ) (env : Tests S) (file : File S)

def HasTest (alt : List Item) : Prop := ∃ q, Item.test q ∈ alt

/-- The test that `q` stands for holds of the file, or of what it links to. -/
def Holds (st : S) (q : Qualifier) (follow : Bool) : Prop :=
  ∃ leaf, fields R q = some leaf ∧ env.call leaf file.name (if follow then buf2 env file st else st) ≠ 0

/-- Every test holds that an even number of `^` stands before, and no other one; an odd number of `-` makes it follow
links. -/
def Satisfied (st : S) (alt : List Item) : Prop :=
  ∀ i q, alt[i]? = some (.test q) →
    (Holds R env file st q (odd ((alt.take i).count .dash)) ↔ odd ((alt.take i).count .caret) = false)

/-- No alternative holds a test, or one that does is satisfied. -/
def Accepts (alts : List (List Item)) : Prop :=
  (∀ alt ∈ alts, ¬ HasTest alt) ∨
    ∃ st, file.symlink_metadata = some st ∧ ∃ alt ∈ alts, HasTest alt ∧ Satisfied R env file st alt

/-- The tests of an alternative are tests. -/
def WellRead (alt : List Item) : Prop := ∀ q, Item.test q ∈ alt → q ≠ .ToggleSense ∧ q ≠ .ToggleFollow

variable {R env file}

theorem fields_ne_none {q : Qualifier} (h : q ≠ .ToggleSense ∧ q ≠ .ToggleFollow) : ∃ leaf, fields R q = some leaf := by
  obtain ⟨hsense, hfollow⟩ := h
  cases q
  case ToggleSense => exact absurd rfl hsense
  case ToggleFollow => exact absurd rfl hfollow
  all_goals exact ⟨_, rfl⟩

theorem toggled_test {q : Qualifier} (h : q ≠ .ToggleSense ∧ q ≠ .ToggleFollow) (sense : Nat) :
    toggled sense q = sense := by
  obtain ⟨hsense, hfollow⟩ := h
  cases q
  case ToggleSense => exact absurd rfl hsense
  case ToggleFollow => exact absurd rfl hfollow
  all_goals rfl

/-- The sense behind so many `^` and `-`. -/
def senseOf (carets dashes : Nat) : Nat := carets % 2 + 2 * (dashes % 2)

theorem senseOf_caret (c d : Nat) : senseOf c d ^^^ 1 = senseOf (c + 1) d := by
  unfold senseOf
  rcases Nat.mod_two_eq_zero_or_one c with hc | hc <;>
  rcases Nat.mod_two_eq_zero_or_one d with hd | hd <;>
  simp [Nat.add_mod, hc, hd]

theorem senseOf_dash (c d : Nat) : senseOf c d ^^^ 2 = senseOf c (d + 1) := by
  unfold senseOf
  rcases Nat.mod_two_eq_zero_or_one c with hc | hc <;>
  rcases Nat.mod_two_eq_zero_or_one d with hd | hd <;>
  simp [Nat.add_mod, hc, hd]

/-- A node lets a file through if its test holds or is negated, not both. -/
theorem passes_senseOf (st : S) (leaf : Leaf) (c d : Nat) :
    passes env file st ⟨leaf, senseOf c d⟩ = true ↔
      (env.call leaf file.name (if odd d then buf2 env file st else st) ≠ 0 ↔ odd c = false) := by
  have hfollow : (senseOf c d &&& 2 ≠ 0) ↔ odd d = true := by
    unfold senseOf odd
    rcases Nat.mod_two_eq_zero_or_one c with hc | hc <;>
    rcases Nat.mod_two_eq_zero_or_one d with hd | hd <;>
    simp [hc, hd]
  have hsense : senseOf c d &&& 1 = c % 2 := by
    unfold senseOf
    rcases Nat.mod_two_eq_zero_or_one c with hc | hc <;>
    rcases Nat.mod_two_eq_zero_or_one d with hd | hd <;>
    simp [hc, hd]
  have hstat : (if senseOf c d &&& 2 ≠ 0 then buf2 env file st else st) = if odd d then buf2 env file st else st := by
    simp only [hfollow]
  simp only [passes, rejects, hstat, hsense]
  generalize env.call leaf file.name (if odd d then buf2 env file st else st) = r
  unfold odd
  by_cases hr : r = 0 <;> rcases Nat.mod_two_eq_zero_or_one c with hc | hc <;> simp [hr, hc]

theorem testsFrom_cons_test {q : Qualifier} (hq : q ≠ .ToggleSense ∧ q ≠ .ToggleFollow) {leaf : Leaf}
    (hleaf : fields R q = some leaf) (sense : Nat) (qs : List Qualifier) :
    testsFrom R sense (q :: qs) = ⟨leaf, sense⟩ :: testsFrom R sense qs := by
  simp only [testsFrom, hleaf, toggled_test hq]

/-- An alternative whose first `c` carets and `d` dashes are gone. -/
theorem all_passes_iff (st : S) {alt : List Item} (hread : WellRead alt) (c d : Nat) :
    (testsFrom R (senseOf c d) (qualifiersOf alt)).all (passes env file st) = true ↔
      ∀ i q, alt[i]? = some (.test q) →
        (Holds R env file st q (odd (d + (alt.take i).count .dash)) ↔
          odd (c + (alt.take i).count .caret) = false) := by
  induction alt generalizing c d with
  | nil => simp [qualifiersOf, testsFrom]
  | cons item alt ih =>
      have hrest : WellRead alt := fun q hq => hread q (List.mem_cons_of_mem item hq)
      -- the tests behind the first item, for the counts that the item leaves
      have hbehind : ∀ c' d',
          (∀ n, c' + n = c + ([item].count .caret + n)) → (∀ n, d' + n = d + ([item].count .dash + n)) →
          ((testsFrom R (senseOf c' d') (qualifiersOf alt)).all (passes env file st) = true ↔
            ∀ i q, (item :: alt)[i + 1]? = some (.test q) →
              (Holds R env file st q (odd (d + ((item :: alt).take (i + 1)).count .dash)) ↔
                odd (c + ((item :: alt).take (i + 1)).count .caret) = false)) := by
        intro c' d' hc hd
        have hcount : ∀ (x : Item) (i : Nat),
            ((item :: alt).take (i + 1)).count x = [item].count x + (alt.take i).count x := by
          intro x i
          rw [List.take_succ_cons, ← List.singleton_append, List.count_append]
        rw [ih hrest c' d']
        simp only [hcount, List.getElem?_cons_succ, hc, hd]
      have hsplit : ∀ P : Nat → Qualifier → Prop,
          (∀ i q, (item :: alt)[i]? = some (.test q) → P i q) ↔
            (∀ q, item = .test q → P 0 q) ∧ ∀ i q, (item :: alt)[i + 1]? = some (.test q) → P (i + 1) q := by
        intro P
        constructor
        · intro h
          exact ⟨fun q hq => h 0 q (congrArg some hq), fun i => h (i + 1)⟩
        · rintro ⟨hzero, hsucc⟩ i q hiq
          cases i with
          | zero => exact hzero q (Option.some.inj hiq)
          | succ i => exact hsucc i q hiq
      rw [hsplit]
      cases item with
      | caret =>
          have htests : testsFrom R (senseOf c d) (qualifiersOf (.caret :: alt)) =
              testsFrom R (senseOf (c + 1) d) (qualifiersOf alt) := by
            rw [← senseOf_caret]
            rfl
          rw [htests, hbehind (c + 1) d (fun n => by simp; omega) (fun n => by simp)]
          simp
      | dash =>
          have htests : testsFrom R (senseOf c d) (qualifiersOf (.dash :: alt)) =
              testsFrom R (senseOf c (d + 1)) (qualifiersOf alt) := by
            rw [← senseOf_dash]
            rfl
          rw [htests, hbehind c (d + 1) (fun n => by simp) (fun n => by simp; omega)]
          simp
      | comma =>
          have htests : testsFrom R (senseOf c d) (qualifiersOf (.comma :: alt)) =
              testsFrom R (senseOf c d) (qualifiersOf alt) := rfl
          rw [htests, hbehind c d (fun n => by simp) (fun n => by simp)]
          simp
      | setting =>
          have htests : testsFrom R (senseOf c d) (qualifiersOf (.setting :: alt)) =
              testsFrom R (senseOf c d) (qualifiersOf alt) := rfl
          rw [htests, hbehind c d (fun n => by simp) (fun n => by simp)]
          simp
      | test q =>
          have hq := hread q (List.mem_cons_self ..)
          obtain ⟨leaf, hleaf⟩ := fields_ne_none (R := R) hq
          have htests : testsFrom R (senseOf c d) (qualifiersOf (.test q :: alt)) =
              ⟨leaf, senseOf c d⟩ :: testsFrom R (senseOf c d) (qualifiersOf alt) :=
            testsFrom_cons_test hq hleaf _ _
          rw [htests, List.all_cons, Bool.and_eq_true, passes_senseOf]
          rw [hbehind c d (fun n => by simp) (fun n => by simp)]
          apply and_congr_left'
          simp [Holds, hleaf]

theorem satisfied_iff (st : S) {alt : List Item} (hread : WellRead alt) :
    (testsFrom R 0 (qualifiersOf alt)).all (passes env file st) = true ↔ Satisfied R env file st alt := by
  have h := @all_passes_iff σ S R env file st alt hread 0 0
  simp only [Nat.zero_add] at h
  exact h

theorem testsFrom_eq_nil_iff {alt : List Item} (hread : WellRead alt) (sense : Nat) :
    testsFrom R sense (qualifiersOf alt) = [] ↔ ¬ HasTest alt := by
  induction alt generalizing sense with
  | nil => simp [qualifiersOf, testsFrom, HasTest]
  | cons item alt ih =>
      have hrest : WellRead alt := fun q hq => hread q (List.mem_cons_of_mem item hq)
      have hskip : (∀ q, item ≠ .test q) → (HasTest (item :: alt) ↔ HasTest alt) := by
        intro hno
        constructor
        · rintro ⟨q, hq⟩
          rcases List.mem_cons.mp hq with hq | hq
          · exact absurd hq.symm (hno q)
          · exact ⟨q, hq⟩
        · rintro ⟨q, hq⟩
          exact ⟨q, List.mem_cons_of_mem item hq⟩
      cases item with
      | caret =>
          rw [hskip (by simp)]
          exact ih hrest _
      | dash =>
          rw [hskip (by simp)]
          exact ih hrest _
      | comma =>
          rw [hskip (by simp)]
          exact ih hrest _
      | setting =>
          rw [hskip (by simp)]
          exact ih hrest _
      | test q =>
          have hq := hread q (List.mem_cons_self ..)
          obtain ⟨leaf, hleaf⟩ := fields_ne_none (R := R) hq
          have hcons := testsFrom_cons_test hq hleaf sense (qualifiersOf alt)
          have htest : HasTest (.test q :: alt) := ⟨q, List.mem_cons_self ..⟩
          have hne : testsFrom R sense (qualifiersOf (.test q :: alt)) ≠ [] := by
            intro hnil
            exact List.cons_ne_nil _ _ (hcons.symm.trans hnil)
          exact iff_of_false hne (not_not_intro htest)

/-- The laid out tests accept what the alternatives mean. -/
theorem accepted_rowsOf_iff {alts : List (List Item)} (hread : ∀ alt ∈ alts, WellRead alt) :
    accepted env file (rowsOf R (alts.map qualifiersOf)) = true ↔ Accepts R env file alts := by
  have hmem : ∀ row, row ∈ rowsOf R (alts.map qualifiersOf) ↔
      ∃ alt ∈ alts, HasTest alt ∧ testsFrom R 0 (qualifiersOf alt) = row := by
    intro row
    rw [rowsOf, List.map_map, List.mem_filter, List.mem_map]
    constructor
    · rintro ⟨⟨alt, halt, rfl⟩, hne⟩
      refine ⟨alt, halt, ?_, rfl⟩
      by_contra htest
      exact of_decide_eq_true hne ((testsFrom_eq_nil_iff (hread alt halt) 0).mpr htest)
    · rintro ⟨alt, halt, htest, rfl⟩
      refine ⟨⟨alt, halt, rfl⟩, ?_⟩
      apply decide_eq_true
      intro hnil
      exact (testsFrom_eq_nil_iff (hread alt halt) 0).mp hnil htest
  have hempty : (rowsOf R (alts.map qualifiersOf)).isEmpty = true ↔ ∀ alt ∈ alts, ¬ HasTest alt := by
    rw [List.isEmpty_iff, List.eq_nil_iff_forall_not_mem]
    constructor
    · intro h alt halt htest
      exact h _ ((hmem _).mpr ⟨alt, halt, htest, rfl⟩)
    · intro h row hrow
      obtain ⟨alt, halt, htest, -⟩ := (hmem row).mp hrow
      exact h alt halt htest
  rw [accepted, Bool.or_eq_true, hempty, Accepts]
  apply or_congr_right
  cases file.symlink_metadata with
  | none => simp
  | some st =>
      rw [Option.any_some, List.any_eq_true]
      constructor
      · rintro ⟨row, hrow, hall⟩
        obtain ⟨alt, halt, htest, rfl⟩ := (hmem row).mp hrow
        exact ⟨st, rfl, alt, halt, htest, (satisfied_iff st (hread alt halt)).mp hall⟩
      · rintro ⟨st', hst, alt, halt, htest, hsat⟩
        cases hst
        exact ⟨_, (hmem _).mpr ⟨alt, halt, htest, rfl⟩, (satisfied_iff st (hread alt halt)).mpr hsat⟩

end Meaning

end Zshrs.Glob.Quals
