import Mathlib.Algebra.Group.Action.Defs
import Mathlib.Algebra.Order.BigOperators.Group.List
import Mathlib.Algebra.Order.Ring.Nat
import Zshrs.Glob.Gmatchcmp
import Zshrs.Lib.Links

namespace Zshrs.Glob.Quals

open Lib.Links

inductive TestMatchFunc
  | qualisreg | qualisdir | qualislnk | qualissock | qualisfifo | qualisblk | qualischr | qualisdev | qualiscom
  | qualflags | qualuid | qualgid | qualsize | qualnlink | qualtime | qualmodeflags | qualdev | qualnonemptydir
  | qualsheval
  deriving DecidableEq

/-- A test function with all that its node hands to it. -/
structure Leaf where
  func : TestMatchFunc
  data : Int := 0
  range : Int := 0
  amc : Int := 0
  units : Int := 0
  sdata : Option Text := none
  deriving DecidableEq

/-- A node; without a `leaf` it ends the walk. -/
structure Qual where
  next : Option Nat := none
  or : Option Nat := none
  leaf : Option Leaf := none
  sense : Nat := 0
  deriving DecidableEq

structure QualArena where
  nodes : List Qual := []
  head : Option Nat := none
  deriving DecidableEq

structure Test where
  leaf : Leaf
  sense : Nat
  deriving DecidableEq

def Qual.test (q : Qual) : Option Test := q.leaf.map (⟨·, q.sense⟩)

/-- The two stats of a file. -/
structure File (S : Type) where
  name : Text
  symlink_metadata : Option S
  metadata : Option S

/-- The leaf tests, any functions of the file and the node's data. -/
structure Tests (S : Type) where
  is_symlink : S → Bool
  call : Leaf → Text → S → Int

section Walk

variable {S : Type} (env : Tests S) (file : File S)

/-- A broken symlink keeps its `lstat`. -/
def buf2 (st : S) : S := if env.is_symlink st then file.metadata.getD st else st

def rejects (st : S) (leaf : Leaf) (sense : Nat) : Bool :=
  let bp := if sense &&& 2 ≠ 0 then buf2 env file st else st
  let r := env.call leaf file.name bp
  ((if r = 0 then 1 else 0) ^^^ (sense &&& 1)) &&& 1 == 1

/-- At most `n` rounds of the walk: `qo` heads the alternative that `qn` is in. -/
def walk (st : S) (nodes : List Qual) : Nat → Option Nat → Option Nat → Option Bool
  | 0, _, _ => none
  | _ + 1, _, none => some true
  | n + 1, qo, some qn_i => do
      let q ← nodes[qn_i]?
      match q.leaf with
      | none => some true
      | some leaf =>
          if rejects env file st leaf q.sense then do
            let i ← qo
            let alternative ← nodes[i]?
            match alternative.or with
            | some or_i => walk st nodes n (some or_i) (some or_i)
            | none => some false
          else walk st nodes n qo q.next

/-- The rounds that all alternatives can take. -/
def roundsOf (nodes : List Qual) : Nat := nodes.length * nodes.length + 1

def check_qualifiers (qualifiers : Option QualArena) : Option Bool :=
  match qualifiers with
  | none => some true
  | some arena =>
      if arena.head = none then some true
      else
        match file.symlink_metadata with
        | none => some false
        | some st => walk env file st arena.nodes (roundsOf arena.nodes) arena.head arena.head

end Walk

/-- The alternatives that `or` leads over, each with the tests that `next` leads over. -/
inductive Alternatives (nodes : List Qual) : Option Nat → List (List Test) → Prop
  | nil : Alternatives nodes none []
  | cons {i : Nat} {q : Qual} {qs : List Qual} {ts : List Test} {rows : List (List Test)}
      (hread : nodes[i]? = some q) (hrow : Chain nodes Qual.next (some i) qs)
      (htests : qs.map Qual.test = ts.map some) (hrest : Alternatives nodes q.or rows) :
      Alternatives nodes (some i) (ts :: rows)

variable {nodes : List Qual} {p : Option Nat} {rows : List (List Test)}

theorem head_eq_none_iff (h : Alternatives nodes p rows) : p = none ↔ rows = [] := by
  cases h <;> simp

/-- The heads of the alternatives are a chain of their own. -/
theorem exists_heads (h : Alternatives nodes p rows) : ∃ qs, Chain nodes Qual.or p qs ∧ qs.length = rows.length := by
  induction h with
  | nil => exact ⟨[], .nil, rfl⟩
  | cons hread hrow htests hrest ih =>
      obtain ⟨qs, hchain, hlength⟩ := ih
      exact ⟨_ :: qs, .cons hread hchain, congrArg Nat.succ hlength⟩

theorem rows_length_le (h : Alternatives nodes p rows) : rows.length ≤ nodes.length := by
  obtain ⟨qs, hchain, hlength⟩ := exists_heads h
  rw [← hlength]
  exact chain_length_le hchain

theorem row_length_le (h : Alternatives nodes p rows) : ∀ ts ∈ rows, ts.length ≤ nodes.length := by
  induction h with
  | nil => simp
  | @cons i q qs ts rows hread hrow htests hrest ih =>
      intro us hus
      rcases List.mem_cons.mp hus with rfl | hus
      · have hlength := congrArg List.length htests
        rw [List.length_map, List.length_map] at hlength
        rw [← hlength]
        exact chain_length_le hrow
      · exact ih us hus

theorem tests_le_rounds (h : Alternatives nodes p rows) : (rows.map List.length).sum < roundsOf nodes := by
  have hsum : (rows.map List.length).sum ≤ (rows.map List.length).length • nodes.length := by
    apply List.sum_le_card_nsmul
    intro k hk
    obtain ⟨ts, hts, rfl⟩ := List.mem_map.mp hk
    exact row_length_le h ts hts
  have hrows := Nat.mul_le_mul_right nodes.length (rows_length_le h)
  rw [List.length_map, smul_eq_mul] at hsum
  exact Nat.lt_succ_of_le (Nat.le_trans hsum hrows)

section Accepts

variable {S : Type} {env : Tests S} {file : File S} {st : S}

theorem leaf_of_test {q : Qual} {t : Test} (h : q.test = some t) : q.leaf = some t.leaf ∧ q.sense = t.sense := by
  obtain ⟨leaf, hleaf, rfl⟩ := Option.map_eq_some_iff.mp h
  exact ⟨hleaf, rfl⟩

/-- A round at a node with a test. -/
theorem walk_at {i : Nat} {q : Qual} {t : Test} (hread : nodes[i]? = some q) (ht : q.test = some t)
    {o : Nat} {head : Qual} (ho : nodes[o]? = some head) (n : Nat) :
    walk env file st nodes (n + 1) (some o) (some i) =
      if rejects env file st t.leaf t.sense then
        match head.or with
        | some j => walk env file st nodes n (some j) (some j)
        | none => some false
      else walk env file st nodes n (some o) q.next := by
  obtain ⟨hleaf, hsense⟩ := leaf_of_test ht
  simp [walk, hread, ho, hleaf, hsense]

theorem walk_accepted {qs : List Qual} {ts : List Test} (hrow : Chain nodes Qual.next p qs)
    (htests : qs.map Qual.test = ts.map some) {o : Nat} {head : Qual} (ho : nodes[o]? = some head)
    (hpass : ∀ t ∈ ts, rejects env file st t.leaf t.sense = false) {n : Nat} (hn : ts.length < n) :
    walk env file st nodes n (some o) p = some true := by
  obtain ⟨n, rfl⟩ := Nat.exists_eq_add_one_of_ne_zero (Nat.ne_zero_of_lt hn)
  induction hrow generalizing ts n with
  | nil => rfl
  | @cons i q qs hread htail ih =>
      cases ts with
      | nil => cases htests
      | cons t ts =>
          obtain ⟨ht, hts⟩ := List.cons.inj htests
          rw [walk_at hread ht ho, hpass t (List.mem_cons_self ..), if_neg (Bool.false_ne_true)]
          rw [List.length_cons] at hn
          obtain ⟨n, rfl⟩ := Nat.exists_eq_add_one_of_ne_zero (show n ≠ 0 by omega)
          apply ih hts _ n (by omega)
          intro u hu
          exact hpass u (List.mem_cons_of_mem t hu)

theorem walk_rejected {qs : List Qual} {ts : List Test} (hrow : Chain nodes Qual.next p qs)
    (htests : qs.map Qual.test = ts.map some) {o : Nat} {head : Qual} (ho : nodes[o]? = some head)
    (hfail : ∃ t ∈ ts, rejects env file st t.leaf t.sense = true) :
    ∃ k ≤ ts.length, ∀ n, walk env file st nodes (n + k) (some o) p =
      match head.or with
      | some j => walk env file st nodes n (some j) (some j)
      | none => some false := by
  induction hrow generalizing ts with
  | nil =>
      obtain ⟨t, ht, -⟩ := hfail
      cases ts with
      | nil => cases ht
      | cons => cases htests
  | @cons i q qs hread htail ih =>
      cases ts with
      | nil => cases htests
      | cons t ts =>
          obtain ⟨ht, hts⟩ := List.cons.inj htests
          cases hr : rejects env file st t.leaf t.sense with
          | true =>
              refine ⟨1, by simp, ?_⟩
              intro n
              rw [walk_at hread ht ho, hr, if_pos rfl]
          | false =>
              have hrest : ∃ u ∈ ts, rejects env file st u.leaf u.sense = true := by
                obtain ⟨u, hu, hur⟩ := hfail
                rcases List.mem_cons.mp hu with rfl | hu
                · rw [hr] at hur
                  cases hur
                · exact ⟨u, hu, hur⟩
              obtain ⟨k, hk, hwalk⟩ := ih hts hrest
              refine ⟨k + 1, Nat.succ_le_succ hk, ?_⟩
              intro n
              rw [← Nat.add_assoc, walk_at hread ht ho, hr, if_neg Bool.false_ne_true]
              exact hwalk n

variable (env file st)

def passes (t : Test) : Bool := !rejects env file st t.leaf t.sense

variable {env file st}

/-- The walk accepts with one alternative all of whose tests pass. -/
theorem walk_eq (h : Alternatives nodes p rows) (hp : p ≠ none) {n : Nat} (hn : (rows.map List.length).sum < n) :
    walk env file st nodes n p p = some (rows.any (·.all (passes env file st))) := by
  induction h generalizing n with
  | nil => exact absurd rfl hp
  | @cons i q qs ts rows hread hrow htests hrest ih =>
      rw [List.map_cons, List.sum_cons] at hn
      by_cases hpass : ∀ t ∈ ts, rejects env file st t.leaf t.sense = false
      · have hall : ts.all (passes env file st) = true := by
          apply List.all_eq_true.mpr
          intro t ht
          simp [passes, hpass t ht]
        rw [walk_accepted hrow htests hread hpass (by omega), List.any_cons, hall, Bool.true_or]
      · obtain ⟨k, hk, hwalk⟩ := walk_rejected hrow htests hread (by simpa using hpass)
        have hall : ts.all (passes env file st) = false := by
          apply Bool.eq_false_iff.mpr
          intro hall
          apply hpass
          intro t ht
          simpa [passes] using List.all_eq_true.mp hall t ht
        rw [List.any_cons, hall, Bool.false_or]
        obtain ⟨m, rfl⟩ : ∃ m, n = m + k := ⟨n - k, by omega⟩
        rw [hwalk m]
        cases hor : q.or with
        | none =>
            obtain rfl := (head_eq_none_iff hrest).mp hor
            rfl
        | some j =>
            rw [hor] at ih
            exact ih (Option.some_ne_none j) (by omega)

/-- Which files an arena lets through, whose alternatives are `rows`. -/
def accepted (env : Tests S) (file : File S) (rows : List (List Test)) : Bool :=
  rows.isEmpty || file.symlink_metadata.any fun st => rows.any (·.all (passes env file st))

theorem check_qualifiers_eq {arena : QualArena} (h : Alternatives arena.nodes arena.head rows) :
    check_qualifiers env file (some arena) = some (accepted env file rows) := by
  rw [check_qualifiers]
  by_cases hhead : arena.head = none
  · obtain rfl := (head_eq_none_iff h).mp hhead
    rw [if_pos hhead]
    rfl
  · have hrows : rows ≠ [] := fun hnil => hhead ((head_eq_none_iff h).mpr hnil)
    rw [if_neg hhead, accepted, List.isEmpty_eq_false_iff.mpr hrows, Bool.false_or]
    cases file.symlink_metadata with
    | none => rfl
    | some st => exact walk_eq h hhead (tests_le_rounds h)

end Accepts

def start {α : Type} (base : Nat) : List α → Option Nat
  | [] => none
  | _ :: _ => some base

theorem start_append_singleton {α : Type} (base : Nat) (xs : List α) (x : α) :
    start base (xs ++ [x]) = (start base xs).or (some base) := by
  cases xs <;> rfl

def Test.node (t : Test) (next or : Option Nat) : Qual := ⟨next, or, some t.leaf, t.sense⟩

def rowNodes (base : Nat) (or : Option Nat) : List Test → List Qual
  | [] => []
  | t :: ts => t.node (start (base + 1) ts) or :: rowNodes (base + 1) none ts

def grid (base : Nat) : List (List Test) → List Qual
  | [] => []
  | row :: rows => rowNodes base (start (base + row.length) rows) row ++ grid (base + row.length) rows

@[simp] theorem length_rowNodes (base : Nat) (or : Option Nat) (ts : List Test) :
    (rowNodes base or ts).length = ts.length := by
  induction ts generalizing base or with
  | nil => rfl
  | cons t ts ih => rw [rowNodes, List.length_cons, List.length_cons, ih]

theorem map_test_rowNodes (base : Nat) (or : Option Nat) (ts : List Test) :
    (rowNodes base or ts).map Qual.test = ts.map some := by
  induction ts generalizing base or with
  | nil => rfl
  | cons t ts ih => rw [rowNodes, List.map_cons, List.map_cons, ih, Test.node, Qual.test, Option.map_some]

theorem chain_rowNodes (pre : List Qual) (or : Option Nat) (ts : List Test) (post : List Qual) :
    Chain (pre ++ rowNodes pre.length or ts ++ post) Qual.next (start pre.length ts) (rowNodes pre.length or ts) := by
  induction ts generalizing pre or with
  | nil => exact .nil
  | cons t ts ih =>
      have htail := ih (pre ++ [t.node (start (pre.length + 1) ts) or]) none
      rw [List.length_append, List.length_singleton, List.append_assoc pre, List.singleton_append] at htail
      apply Chain.cons _ htail
      simp [rowNodes]

/-- What is laid out is read back. -/
theorem alternatives_grid (pre : List Qual) {rows : List (List Test)} (hne : ∀ row ∈ rows, row ≠ []) :
    Alternatives (pre ++ grid pre.length rows) (start pre.length rows) rows := by
  induction rows generalizing pre with
  | nil => exact .nil
  | cons row rows ih =>
      cases row with
      | nil => exact absurd rfl (hne [] (List.mem_cons_self ..))
      | cons t ts =>
          have hrest := ih (pre ++ rowNodes pre.length (start (pre.length + (t :: ts).length) rows) (t :: ts))
            (fun r hr => hne r (List.mem_cons_of_mem _ hr))
          rw [List.length_append, length_rowNodes, List.append_assoc] at hrest
          have hrow := chain_rowNodes pre (start (pre.length + (t :: ts).length) rows) (t :: ts)
            (grid (pre.length + (t :: ts).length) rows)
          rw [List.append_assoc] at hrow
          have hread : (pre ++ grid pre.length ((t :: ts) :: rows))[pre.length]? =
              some (t.node (start (pre.length + 1) ts) (start (pre.length + (t :: ts).length) rows)) := by
            simp [grid, rowNodes]
          exact .cons hread hrow (map_test_rowNodes ..) hrest

/-- The head of the last alternative. -/
def lastHead (base : Nat) : List (List Test) → Option Nat
  | [] => none
  | [_] => some base
  | row :: rows => lastHead (base + row.length) rows

/-- An arena while its alternatives are linked. -/
structure Linking where
  nodes : List Qual := []
  head : Option Nat := none
  prev : Option Nat := none

def layout (rows : List (List Test)) : Linking := ⟨grid 0 rows, start 0 rows, lastHead 0 rows⟩

def setOr (or : Nat) (q : Qual) : Qual := { q with or := some or }

/-- `nodes[prev].or = base`, for the previous alternative if there is one. -/
def linkPrev (nodes : List Qual) (prev : Option Nat) (base : Nat) : List Qual :=
  match prev with
  | none => nodes
  | some p => nodes.modify p (setOr base)

def linkRow (s : Linking) (row : List Test) : Linking where
  nodes := linkPrev s.nodes s.prev s.nodes.length ++ rowNodes s.nodes.length none row
  head := s.head.or (some s.nodes.length)
  prev := some s.nodes.length

theorem modify_append_length (pre : List Qual) (q : Qual) (post : List Qual) (f : Qual → Qual) :
    (pre ++ q :: post).modify pre.length f = pre ++ f q :: post := by
  induction pre with
  | nil => rfl
  | cons a pre ih => rw [List.cons_append, List.length_cons, List.modify_succ_cons, ih, List.cons_append]

theorem modify_append_left {pre : List Qual} {i : Nat} (hi : i < pre.length) (post : List Qual) (f : Qual → Qual) :
    (pre ++ post).modify i f = pre.modify i f ++ post := by
  induction pre generalizing i with
  | nil => exact absurd hi (Nat.not_lt_zero i)
  | cons a pre ih =>
      cases i with
      | zero => rfl
      | succ i =>
          rw [List.cons_append, List.modify_succ_cons, List.modify_succ_cons, List.cons_append]
          rw [ih (Nat.lt_of_succ_lt_succ hi)]

/-- A row more, behind rows that start at `pre`. -/
theorem link_grid (pre : List Qual) {rows : List (List Test)} (hne : ∀ row ∈ rows, row ≠ []) {p : Nat}
    (hp : lastHead pre.length rows = some p) (row : List Test) :
    (pre ++ grid pre.length rows).modify p (setOr (pre ++ grid pre.length rows).length) ++
        rowNodes (pre ++ grid pre.length rows).length none row =
      pre ++ grid pre.length (rows ++ [row]) := by
  induction rows generalizing pre with
  | nil => cases hp
  | cons r rows ih =>
      cases rows with
      | nil =>
          obtain rfl := Option.some.inj hp
          cases r with
          | nil => exact absurd rfl (hne [] (List.mem_cons_self ..))
          | cons t ts =>
              simp only [grid, rowNodes, List.append_nil, modify_append_length, List.cons_append, List.nil_append]
              simp [Test.node, setOr, start]
      | cons r' rows =>
          have hih := ih (pre ++ rowNodes pre.length (some (pre.length + r.length)) r)
            (fun x hx => hne x (List.mem_cons_of_mem _ hx))
          rw [List.length_append, length_rowNodes, List.append_assoc] at hih
          have hlinked := hih hp
          simp only [List.append_assoc] at hlinked ⊢
          simpa only [grid, start, List.cons_append, List.append_assoc] using hlinked

theorem lastHead_append_singleton (base : Nat) (rows : List (List Test)) (row : List Test) :
    lastHead base (rows ++ [row]) = some (base + (grid base rows).length) := by
  induction rows generalizing base with
  | nil => rfl
  | cons r rows ih =>
      have hnext : lastHead base (r :: (rows ++ [row])) = lastHead (base + r.length) (rows ++ [row]) := by
        cases rows <;> rfl
      rw [List.cons_append, hnext, ih, grid, List.length_append, length_rowNodes, Nat.add_assoc]

theorem length_grid (base : Nat) (rows : List (List Test)) : (grid base rows).length = (rows.map List.length).sum := by
  induction rows generalizing base with
  | nil => rfl
  | cons row rows ih => rw [grid, List.length_append, length_rowNodes, ih, List.map_cons, List.sum_cons]

theorem lastHead_lt {rows : List (List Test)} (hne : ∀ row ∈ rows, row ≠ []) {p : Nat} (hp : lastHead 0 rows = some p) :
    p < (grid 0 rows).length := by
  rcases rows.eq_nil_or_concat' with rfl | ⟨front, last, rfl⟩
  · cases hp
  · rw [lastHead_append_singleton, Nat.zero_add] at hp
    obtain rfl := Option.some.inj hp
    have hlast := List.length_pos_of_ne_nil (hne last (by simp))
    simp only [length_grid, List.map_append, List.sum_append, List.map_cons, List.map_nil, List.sum_cons, List.sum_nil]
    omega

/-- The link may be set before the row is there or after. -/
theorem linkPrev_append {rows : List (List Test)} (hne : ∀ row ∈ rows, row ≠ []) (base : Nat) (post : List Qual) :
    linkPrev (grid 0 rows ++ post) (lastHead 0 rows) base = linkPrev (grid 0 rows) (lastHead 0 rows) base ++ post := by
  cases hp : lastHead 0 rows with
  | none => rfl
  | some p => exact modify_append_left (lastHead_lt hne hp) post (setOr base)

theorem linkRow_layout {rows : List (List Test)} (hne : ∀ row ∈ rows, row ≠ []) (row : List Test) :
    linkRow (layout rows) row = layout (rows ++ [row]) := by
  have hnodes : linkPrev (grid 0 rows) (lastHead 0 rows) (grid 0 rows).length ++
      rowNodes (grid 0 rows).length none row = grid 0 (rows ++ [row]) := by
    rcases rows.eq_nil_or_concat' with rfl | ⟨front, last, rfl⟩
    · simp [linkPrev, lastHead, grid, start]
    · have hlast := lastHead_append_singleton 0 front last
      have hlinked := link_grid [] hne hlast row
      rw [hlast]
      exact hlinked
  have hhead : (start 0 rows).or (some (grid 0 rows).length) = start 0 (rows ++ [row]) := by
    cases rows <;> rfl
  have hprev := (lastHead_append_singleton 0 rows row).symm
  rw [Nat.zero_add] at hprev
  simp only [linkRow, layout]
  rw [hnodes, hhead, hprev]

/-- The arena of `rows`. -/
def arenaOf (rows : List (List Test)) : QualArena := ⟨grid 0 rows, start 0 rows⟩

theorem alternatives_arenaOf {rows : List (List Test)} (hne : ∀ row ∈ rows, row ≠ []) :
    Alternatives (arenaOf rows).nodes (arenaOf rows).head rows :=
  alternatives_grid [] hne

end Zshrs.Glob.Quals
