import Zshrs.Glob.QualArena
import Zshrs.Lib.Loops

namespace Zshrs.Glob.Quals

open Lib

def Pound : Char := '\uE184'
def Hat : Char := '\uE186'
def Star : Char := '\uE187'
def Inpar : Char := '\uE188'
def Outpar : Char := '\uE18A'
def Equals : Char := '\uE18D'
def Bar : Char := '\uE18E'
def Inbrack : Char := '\uE191'
def Tilde : Char := '\uE198'
def Dash : Char := '\uE19B'

inductive Qualifier
  | IsRegular | IsDirectory | IsSymlink | IsSocket | IsFifo | IsBlockDev | IsCharDev | IsDevice | IsExecutable
  | Readable | Writable | Executable | WorldReadable | WorldWritable | WorldExecutable
  | GroupReadable | GroupWritable | GroupExecutable | Setuid | Setgid | Sticky
  | OwnedByEuid | OwnedByEgid
  | OwnedByUid (uid : Nat)
  | OwnedByGid (gid : Nat)
  | Size (value : Nat) (unit : Int) (op : Char)
  | Links (value : Nat) (op : Char)
  | Atime (value unit : Int) (op : Char)
  | Mtime (value unit : Int) (op : Char)
  | Ctime (value unit : Int) (op : Char)
  | Mode (yes no : Nat)
  | Device (dev : Nat)
  | NonEmptyDir
  | Eval (code : Text)
  | ToggleSense | ToggleFollow
  deriving DecidableEq

/-- The flags of a group; `argued` holds those whose letters read an argument. -/
structure Settings (σ : Type) where
  colon_mods : Option Text := none
  mark_dirs : Option Bool := none
  list_types : Bool := false
  mark_follow : Bool := false
  nullglob : Bool := false
  globdots : Bool := false
  numsort : Option Bool := none
  argued : σ

/-- The arms whose letters read an argument, each with what it reads: a test, a setting, or an error that
aborts the glob. -/
structure Reader (σ : Type) where
  euid : Nat
  egid : Nat
  initial : σ
  join : σ → σ → σ
  read : Char → Bool → Bool → σ → Text → Option (Option Qualifier × σ × Text)
  read_length_le : ∀ c negated follow s rest q s' rest',
    read c negated follow s rest = some (q, s', rest') → rest'.length ≤ rest.length
  read_test : ∀ c negated follow s rest q s' rest',
    read c negated follow s rest = some (some q, s', rest') → q ≠ .ToggleSense ∧ q ≠ .ToggleFollow

/-- The letters that stand for a test on their own. -/
def plain_test (c : Char) : Option Qualifier :=
  if c = Equals then some .IsSocket
  else if c = Star then some .IsExecutable
  else
    match c with
    | '/' => some .IsDirectory
    | '.' => some .IsRegular
    | '@' => some .IsSymlink
    | '=' => some .IsSocket
    | 'p' => some .IsFifo
    | '*' => some .IsExecutable
    | 'r' => some .Readable
    | 'w' => some .Writable
    | 'x' => some .Executable
    | 'R' => some .WorldReadable
    | 'W' => some .WorldWritable
    | 'X' => some .WorldExecutable
    | 'A' => some .GroupReadable
    | 'I' => some .GroupWritable
    | 'E' => some .GroupExecutable
    | 's' => some .Setuid
    | 'S' => some .Setgid
    | 't' => some .Sticky
    | 'U' => some .OwnedByEuid
    | 'G' => some .OwnedByEgid
    | 'F' => some .NonEmptyDir
    | _ => none

theorem plain_test_ne {c : Char} {q : Qualifier} (h : plain_test c = some q) : q ≠ .ToggleSense ∧ q ≠ .ToggleFollow := by
  unfold plain_test at h
  split_ifs at h
  · cases h
    exact ⟨nofun, nofun⟩
  · cases h
    exact ⟨nofun, nofun⟩
  · split at h
    all_goals cases h
    all_goals exact ⟨nofun, nofun⟩

/-- The letters with an argument. -/
def argued_letters : List Char :=
  ['f', 'u', 'g', 'L', 'l', 'd', 'a', 'm', 'c', 'o', 'O', 'P', '[', Inbrack, 'Y', 'e', '+']

/-- What one round of the switch reads. -/
inductive Item
  | caret | dash | comma | setting
  | test (q : Qualifier)
  deriving DecidableEq

section Switch

variable {σ : Type} (R : Reader σ)

/-- The letters that set a flag. -/
def flag_letter (c : Char) (negated follow : Bool) (g : Settings σ) : Option (Settings σ) :=
  match c with
  | 'N' => some { g with nullglob := !negated }
  | 'D' => some { g with globdots := !negated }
  | 'n' => some { g with numsort := some !negated }
  | 'M' => some { g with mark_dirs := some !negated, mark_follow := if negated then g.mark_follow else follow }
  | 'T' => some { g with list_types := !negated, mark_follow := if negated then g.mark_follow else follow }
  | '\x00' => some g
  | _ => none

/-- The arms of the switch; `none` is an error. -/
def next_item (negated follow : Bool) (g : Settings σ) (c : Char) (rest : Text) : Option (Item × Settings σ × Text) :=
  if c = '^' ∨ c = Hat then some (.caret, g, rest)
  else if c = '-' then some (.dash, g, rest)
  else if c = ',' then some (.comma, g, rest)
  else if c = ':' then some (.setting, { g with colon_mods := some (':' :: rest) }, [])
  else if c = '%' then
    if rest.head? = some 'b' then some (.test .IsBlockDev, g, rest.tail)
    else if rest.head? = some 'c' then some (.test .IsCharDev, g, rest.tail)
    else some (.test .IsDevice, g, rest)
  else if c ∈ argued_letters then
    match R.read c negated follow g.argued rest with
    | none => none
    | some (none, s, rest) => some (.setting, { g with argued := s }, rest)
    | some (some q, s, rest) => some (.test q, { g with argued := s }, rest)
  else
    match plain_test c, flag_letter c negated follow g with
    | some q, _ => some (.test q, g, rest)
    | none, some g => some (.setting, g, rest)
    | none, none => none

variable {R}

theorem next_item_length_le {negated follow : Bool} {g g' : Settings σ} {c : Char} {rest rest' : Text} {item : Item}
    (h : next_item R negated follow g c rest = some (item, g', rest')) : rest'.length ≤ rest.length := by
  unfold next_item at h
  split_ifs at h
  · cases h
    exact Nat.le_refl _
  · cases h
    exact Nat.le_refl _
  · cases h
    exact Nat.le_refl _
  · cases h
    exact Nat.zero_le _
  · cases h
    rw [List.length_tail]
    exact Nat.sub_le _ _
  · cases h
    rw [List.length_tail]
    exact Nat.sub_le _ _
  · cases h
    exact Nat.le_refl _
  · cases hread : R.read c negated follow g.argued rest with
    | none => simp [hread] at h
    | some x =>
        obtain ⟨q, s, rest₁⟩ := x
        have hle := R.read_length_le _ _ _ _ _ _ _ _ hread
        cases q <;> · simp only [hread] at h; cases h; exact hle
  · split at h
    all_goals cases h
    all_goals exact Nat.le_refl _

theorem next_item_test {negated follow : Bool} {g g' : Settings σ} {c : Char} {rest rest' : Text} {q : Qualifier}
    (h : next_item R negated follow g c rest = some (.test q, g', rest')) :
    q ≠ .ToggleSense ∧ q ≠ .ToggleFollow := by
  unfold next_item at h
  split_ifs at h
  · cases h
  · cases h
  · cases h
  · cases h
  · cases h
    exact ⟨nofun, nofun⟩
  · cases h
    exact ⟨nofun, nofun⟩
  · cases h
    exact ⟨nofun, nofun⟩
  · cases hread : R.read c negated follow g.argued rest with
    | none => simp [hread] at h
    | some x =>
        obtain ⟨q', s, rest₁⟩ := x
        cases q' with
        | none =>
            simp only [hread] at h
            cases h
        | some q' =>
            simp only [hread] at h
            cases h
            exact R.read_test _ _ _ _ _ _ _ _ hread
  · cases hp : plain_test c with
    | none =>
        rw [hp] at h
        split at h
        all_goals cases h
        simp_all
    | some q' =>
        rw [hp] at h
        cases h
        exact plain_test_ne hp

end Switch

structure Parsing (σ : Type) where
  rest : Text
  qualifiers : List Qualifier := []
  alternatives : List (List Qualifier) := []
  negated : Bool := false
  follow : Bool := false
  settings : Settings σ

structure QualifierSet (σ : Type) where
  alternatives : List (List Qualifier)
  quals : QualArena
  settings : Settings σ

section Parse

variable {σ : Type} (R : Reader σ)

/-- An alternative is kept unless it is empty. -/
def push_alternative (alternatives : List (List Qualifier)) (qualifiers : List Qualifier) : List (List Qualifier) :=
  if qualifiers.isEmpty then alternatives else alternatives ++ [qualifiers]

def act (s : Parsing σ) (item : Item) (g : Settings σ) (rest : Text) : Parsing σ :=
  match item with
  | .caret => { s with
      rest, settings := g, negated := !s.negated, qualifiers := s.qualifiers ++ [.ToggleSense] }
  | .dash => { s with
      rest, settings := g, follow := !s.follow, qualifiers := s.qualifiers ++ [.ToggleFollow] }
  | .comma => { s with
      rest, settings := g, alternatives := push_alternative s.alternatives s.qualifiers, qualifiers := [],
      negated := false, follow := false }
  | .test q => { s with rest, settings := g, qualifiers := s.qualifiers ++ [q] }
  | .setting => { s with rest, settings := g }

@[simp] theorem act_rest (s : Parsing σ) (item : Item) (g : Settings σ) (rest : Text) :
    (act s item g rest).rest = rest := by
  cases item <;> rfl

def parse_step (s : Parsing σ) : Option (Parsing σ) :=
  match s.rest with
  | [] => none
  | c :: rest => (next_item R s.negated s.follow s.settings c rest).map fun (item, g, rest) => act s item g rest

def parseLoop : Loop (Parsing σ) where
  guard s := !s.rest.isEmpty
  step := parse_step R
  measure s := s.rest.length
  decreases := by
    intro s t _ hstep
    unfold parse_step at hstep
    cases hrest : s.rest with
    | nil => simp [hrest] at hstep
    | cons c rest =>
        rw [hrest] at hstep
        obtain ⟨⟨item, g, rest'⟩, hitem, rfl⟩ := Option.map_eq_some_iff.mp hstep
        rw [act_rest, List.length_cons]
        exact Nat.lt_succ_of_le (next_item_length_le hitem)

def op_range (o : Char) : Int := if o = '<' then -1 else if o = '>' then 1 else 0

def fields : Qualifier → Option Leaf
  | .ToggleSense => none
  | .ToggleFollow => none
  | .IsRegular => some { func := .qualisreg }
  | .IsDirectory => some { func := .qualisdir }
  | .IsSymlink => some { func := .qualislnk }
  | .IsSocket => some { func := .qualissock }
  | .IsFifo => some { func := .qualisfifo }
  | .IsBlockDev => some { func := .qualisblk }
  | .IsCharDev => some { func := .qualischr }
  | .IsDevice => some { func := .qualisdev }
  | .IsExecutable => some { func := .qualiscom }
  | .Readable => some { func := .qualflags, data := 0o400 }
  | .Writable => some { func := .qualflags, data := 0o200 }
  | .Executable => some { func := .qualflags, data := 0o100 }
  | .WorldReadable => some { func := .qualflags, data := 0o004 }
  | .WorldWritable => some { func := .qualflags, data := 0o002 }
  | .WorldExecutable => some { func := .qualflags, data := 0o001 }
  | .GroupReadable => some { func := .qualflags, data := 0o040 }
  | .GroupWritable => some { func := .qualflags, data := 0o020 }
  | .GroupExecutable => some { func := .qualflags, data := 0o010 }
  | .Setuid => some { func := .qualflags, data := 0o4000 }
  | .Setgid => some { func := .qualflags, data := 0o2000 }
  | .Sticky => some { func := .qualflags, data := 0o1000 }
  | .OwnedByEuid => some { func := .qualuid, data := R.euid }
  | .OwnedByEgid => some { func := .qualgid, data := R.egid }
  | .OwnedByUid uid => some { func := .qualuid, data := uid }
  | .OwnedByGid gid => some { func := .qualgid, data := gid }
  | .Size value unit op => some { func := .qualsize, data := value, range := op_range op, amc := -1, units := unit }
  | .Links value op => some { func := .qualnlink, data := value, range := op_range op }
  | .Atime value unit op => some { func := .qualtime, data := value, range := op_range op, amc := 0, units := unit }
  | .Mtime value unit op => some { func := .qualtime, data := value, range := op_range op, amc := 1, units := unit }
  | .Ctime value unit op => some { func := .qualtime, data := value, range := op_range op, amc := 2, units := unit }
  | .Mode yes no => some { func := .qualmodeflags, data := (yes ||| (no <<< 12) : Nat) }
  | .Device dev => some { func := .qualdev, data := dev }
  | .NonEmptyDir => some { func := .qualnonemptydir }
  | .Eval code => some { func := .qualsheval, sdata := some code }

/-- The running sense behind a qualifier. -/
def toggled (sense : Nat) : Qualifier → Nat
  | .ToggleSense => sense ^^^ 1
  | .ToggleFollow => sense ^^^ 2
  | _ => sense

/-- An alternative while its nodes are chained. -/
structure Chaining where
  nodes : List Qual
  sense : Nat := 0
  chain_tail : Option Nat := none
  chain_head : Option Nat := none

def setNext (next : Option Nat) (q : Qual) : Qual := { q with next }

def chain_step (s : Chaining) (q : Qualifier) : Chaining :=
  let sense := toggled s.sense q
  match fields R q with
  | none => { s with sense }
  | some leaf =>
      let idx := s.nodes.length
      let nodes := s.nodes ++ [{ leaf := some leaf, sense }]
      { nodes := match s.chain_tail with
          | some t => nodes.modify t (setNext (some idx))
          | none => nodes
        sense
        chain_tail := some idx
        chain_head := s.chain_head.or (some idx) }

def alternative_step (s : Linking) (alt : List Qualifier) : Linking :=
  let c := alt.foldl (chain_step R) { nodes := s.nodes }
  match c.chain_head with
  | none => { s with nodes := c.nodes }
  | some h => { nodes := linkPrev c.nodes s.prev h, head := s.head.or (some h), prev := some h }

def build_arena (alternatives : List (List Qualifier)) : QualArena :=
  let s := alternatives.foldl (alternative_step R) {}
  ⟨s.nodes, s.head⟩

def finish (s : Parsing σ) : QualifierSet σ :=
  let alternatives := push_alternative s.alternatives s.qualifiers
  ⟨alternatives, build_arena R alternatives, s.settings⟩

def parse_qualifier_string (s : Text) : Option (QualifierSet σ) :=
  ((parseLoop R).run { rest := s.map fun c => if c = Dash then '-' else c, settings := { argued := R.initial } }).map
    (finish R)

end Parse

section Build

variable {σ : Type} {R : Reader σ}

/-- The tests of an alternative, from a sense on. -/
def testsFrom (R : Reader σ) (sense : Nat) : List Qualifier → List Test
  | [] => []
  | q :: qs =>
      match fields R q with
      | none => testsFrom R (toggled sense q) qs
      | some leaf => ⟨leaf, toggled sense q⟩ :: testsFrom R (toggled sense q) qs

/-- A node more, at the end of a row that starts at `pre`. -/
theorem chain_row (pre : List Qual) (or : Option Nat) {ts : List Test} (hne : ts ≠ []) (t : Test) :
    (pre ++ rowNodes pre.length or ts ++ [t.node none none]).modify (pre.length + ts.length - 1)
        (setNext (some (pre.length + ts.length))) =
      pre ++ rowNodes pre.length or (ts ++ [t]) := by
  induction ts generalizing pre or with
  | nil => exact absurd rfl hne
  | cons u ts ih =>
      cases ts with
      | nil =>
          rw [List.append_assoc]
          exact modify_append_length pre _ _ _
      | cons u' ts =>
          have hih := ih (pre ++ [u.node (some (pre.length + 1)) or]) none (List.cons_ne_nil u' ts)
          rw [List.length_append, List.length_singleton, List.append_assoc pre, List.append_assoc pre] at hih
          have hplace : pre.length + 1 + (u' :: ts).length = pre.length + (u :: u' :: ts).length := by
            simp only [List.length_cons]
            omega
          rw [hplace] at hih
          simpa only [rowNodes, start, List.append_assoc, List.cons_append, List.nil_append] using hih

/-- The state of an alternative whose tests so far are `ts`. -/
def chained (pre : List Qual) (sense : Nat) (ts : List Test) : Chaining where
  nodes := pre ++ rowNodes pre.length none ts
  sense := sense
  chain_tail := start (pre.length + ts.length - 1) ts
  chain_head := start pre.length ts

theorem chain_step_chained (pre : List Qual) (sense : Nat) (ts : List Test) (q : Qualifier) :
    chain_step R (chained pre sense ts) q =
      chained pre (toggled sense q) (ts ++ ((fields R q).map (⟨·, toggled sense q⟩)).toList) := by
  cases hq : fields R q with
  | none => simp [chain_step, hq, chained]
  | some leaf =>
      have hlength : (pre ++ rowNodes pre.length none ts).length = pre.length + ts.length := by simp
      have htail : pre.length + (ts ++ [(⟨leaf, toggled sense q⟩ : Test)]).length - 1 = pre.length + ts.length := by
        simp
      cases ts with
      | nil =>
          simp [chain_step, hq, chained, rowNodes, start, Test.node]
      | cons t ts =>
          have hnodes := chain_row pre none (List.cons_ne_nil t ts) ⟨leaf, toggled sense q⟩
          simp only [chain_step, hq, chained, start, hlength, Option.map_some, Option.toList_some]
          rw [← hnodes, htail]
          rfl

theorem foldl_chain_step (pre : List Qual) (sense : Nat) (ts : List Test) (alt : List Qualifier) :
    alt.foldl (chain_step R) (chained pre sense ts) =
      chained pre (alt.foldl toggled sense) (ts ++ testsFrom R sense alt) := by
  induction alt generalizing sense ts with
  | nil => simp [testsFrom]
  | cons q alt ih =>
      rw [List.foldl_cons, List.foldl_cons, chain_step_chained, ih]
      cases hq : fields R q <;> simp [testsFrom, hq]

/-- The tests of the alternatives that have any. -/
def rowsOf (R : Reader σ) (alternatives : List (List Qualifier)) : List (List Test) :=
  (alternatives.map (testsFrom R 0)).filter (· ≠ [])

theorem rowsOf_ne_nil (alternatives : List (List Qualifier)) : ∀ row ∈ rowsOf R alternatives, row ≠ [] := by
  intro row hrow
  simpa using (List.mem_filter.mp hrow).2

theorem alternative_step_layout {rows : List (List Test)} (hne : ∀ row ∈ rows, row ≠ []) (alt : List Qualifier) :
    alternative_step R (layout rows) alt = layout (rows ++ [testsFrom R 0 alt].filter (· ≠ [])) := by
  have hstart : ({ nodes := (layout rows).nodes } : Chaining) = chained (grid 0 rows) 0 [] := by
    simp [chained, layout, rowNodes, start]
  have hchain := foldl_chain_step (R := R) (grid 0 rows) 0 [] alt
  rw [alternative_step, hstart, hchain, List.nil_append]
  cases hrow : testsFrom R 0 alt with
  | nil => simp [chained, layout, rowNodes, start]
  | cons t ts =>
      have hlinked := linkRow_layout hne (t :: ts)
      rw [linkRow] at hlinked
      have hkeep : [t :: ts].filter (· ≠ []) = [t :: ts] := rfl
      rw [hkeep, ← hlinked]
      simp only [chained, layout, start]
      rw [linkPrev_append hne]

theorem build_arena_eq (alternatives : List (List Qualifier)) :
    build_arena R alternatives = arenaOf (rowsOf R alternatives) := by
  have hfold : ∀ (alts : List (List Qualifier)) (rows : List (List Test)), (∀ row ∈ rows, row ≠ []) →
      alts.foldl (alternative_step R) (layout rows) = layout (rows ++ rowsOf R alts) := by
    intro alts
    induction alts with
    | nil => simp [rowsOf]
    | cons alt alts ih =>
        intro rows hne
        rw [List.foldl_cons, alternative_step_layout hne, ih]
        · rw [List.append_assoc, rowsOf, rowsOf, ← List.filter_append, List.singleton_append, List.map_cons]
        · intro row hrow
          rcases List.mem_append.mp hrow with hrow | hrow
          · exact hne row hrow
          · simpa using (List.mem_filter.mp hrow).2
  have hall := hfold alternatives [] (by simp)
  rw [List.nil_append] at hall
  rw [build_arena]
  change QualArena.mk (alternatives.foldl (alternative_step R) (layout [])).nodes
    (alternatives.foldl (alternative_step R) (layout [])).head = _
  rw [hall]
  rfl

end Build

end Zshrs.Glob.Quals
