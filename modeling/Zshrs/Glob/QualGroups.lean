import Zshrs.Glob.QualMerge

namespace Zshrs.Glob.Quals

open Lib

/-- The options, and the tokens that `disable -p` turned off. -/
structure Options where
  bareglobqual : Bool
  extendedglob : Bool
  hash_disabled : Bool
  bar_disabled : Bool
  tilde_disabled : Bool

variable (o : Options)

def Options.hash_live : Bool := o.extendedglob && !o.hash_disabled

/-- Back from `i` to the parenthesis that the group opens with; a nested group, a bar or an exclusion on the way
makes it no bare group. -/
def scan_back (str : Text) : Nat → Int → Bool → Option (Nat × Bool)
  | i, paren, nobareglob =>
      let c := str.getD i '\x00'
      if c = Inpar ∧ paren = 0 then some (i, nobareglob)
      else
        match i with
        | 0 => none
        | i + 1 =>
            scan_back str i (if c = Outpar then paren + 1 else if c = Inpar then paren - 1 else paren)
              (nobareglob || c == Outpar || c == Bar || (c == Tilde && o.extendedglob))

/-- Where the group at the end opens, and whether it is explicit. -/
def checkglobqual (str : Text) (nobareglob : Bool) : Option (Nat × Bool) :=
  if str.length < 2 ∨ str.getLast? ≠ some Outpar then none
  else
    match scan_back o str (str.length - 2) 0 nobareglob with
    | none => none
    | some (start, nobareglob) =>
        if o.extendedglob && str[start + 1]? == some Pound then
          if str[start + 2]? ≠ some 'q' then none else some (start, true)
        else if nobareglob then none
        else some (start, false)

/-- The word in front of the last group, and the group's body. -/
def cut (word : Text) (start body_start : Nat) : Text × Text :=
  (word.take start, (word.take (word.length - 1)).drop body_start)

def peel_tokens (nobareglob : Bool) (word : Text) : Option (Text × Text) :=
  (checkglobqual o word nobareglob).map fun (start, explicit) =>
    cut word start (if explicit then start + 3 else start + 1)

/-- An odd number of backslashes stands in front. -/
def is_escaped (word : Text) (idx : Nat) : Bool :=
  ((word.take idx).reverse.takeWhile (· == '\\')).length % 2 == 1

/-- The parenthesis that opens what the last one closes, among the first `n` chars. -/
def qual_start (word : Text) : Nat → Int → Option Nat
  | 0, _ => none
  | i + 1, depth =>
      if word[i]? = some ')' ∧ is_escaped word i = false then qual_start word i (depth + 1)
      else if word[i]? = some '(' ∧ is_escaped word i = false then
        if depth - 1 = 0 then some i else qual_start word i (depth - 1)
      else qual_start word i depth

/-- What makes a group one of alternatives or exclusions. -/
def forces_nobareglob (word : Text) (start : Nat) : Bool :=
  (List.range' (start + 1) (word.length - 1 - (start + 1))).any fun k =>
    !is_escaped word k &&
      ((word[k]? == some ')' || word[k]? == some '|') && !o.bar_disabled ||
        word[k]? == some '~' && o.extendedglob && !o.tilde_disabled)

def parse_qualifiers_raw (nobareglob_in : Bool) (word : Text) : Option (Text × Text) :=
  if word.getLast? ≠ some ')' ∨ is_escaped word (word.length - 1) = true then none
  else
    match qual_start word word.length 0 with
    | none => none
    | some start =>
        if o.extendedglob && word[start + 1]? == some '#' then
          if word[start + 2]? = some 'q' then some (cut word start (start + 3)) else none
        else if o.bareglobqual && !nobareglob_in then
          if forces_nobareglob o word start then none else some (cut word start (start + 1))
        else none

/-- A way to take the last group off a word. -/
structure Peeler where
  peel : Bool → Text → Option (Text × Text)
  peel_lt : ∀ nobareglob word rest body, peel nobareglob word = some (rest, body) → rest.length < word.length

variable {o}

theorem scan_back_le {str : Text} {i : Nat} {paren : Int} {nobareglob : Bool} {start : Nat} {nob : Bool}
    (h : scan_back o str i paren nobareglob = some (start, nob)) : start ≤ i := by
  induction i generalizing paren nobareglob with
  | zero =>
      rw [scan_back] at h
      split_ifs at h
      cases h
      exact Nat.le_refl _
  | succ i ih =>
      by_cases hopen : str.getD (i + 1) '\x00' = Inpar ∧ paren = 0
      · rw [scan_back, if_pos hopen] at h
        cases h
        exact Nat.le_refl _
      · rw [scan_back, if_neg hopen] at h
        exact Nat.le_succ_of_le (ih h)

theorem checkglobqual_lt {str : Text} {nobareglob : Bool} {start : Nat} {explicit : Bool}
    (h : checkglobqual o str nobareglob = some (start, explicit)) : start + 1 < str.length := by
  unfold checkglobqual at h
  split_ifs at h with hend
  obtain ⟨hlength, -⟩ := not_or.mp hend
  cases hscan : scan_back o str (str.length - 2) 0 nobareglob with
  | none =>
      rw [hscan] at h
      cases h
  | some x =>
      obtain ⟨i, nob⟩ := x
      have hle := scan_back_le hscan
      rw [hscan] at h
      have hstart : i = start := by
        simp only at h
        split_ifs at h <;> cases h <;> rfl
      omega

theorem qual_start_lt {word : Text} {n : Nat} {depth : Int} {start : Nat} (h : qual_start word n depth = some start) :
    start < n := by
  induction n generalizing depth with
  | zero => cases h
  | succ i ih =>
      rw [qual_start] at h
      split_ifs at h
      · exact Nat.lt_succ_of_lt (ih h)
      · cases h
        exact Nat.lt_succ_self _
      · exact Nat.lt_succ_of_lt (ih h)
      · exact Nat.lt_succ_of_lt (ih h)

theorem take_length_lt {word : Text} {start : Nat} (h : start < word.length) : (word.take start).length < word.length := by
  rw [List.length_take]
  omega

variable (o)

def tokenPeeler : Peeler where
  peel := peel_tokens o
  peel_lt := by
    intro nobareglob word rest body h
    obtain ⟨⟨start, explicit⟩, hcheck, hcut⟩ := Option.map_eq_some_iff.mp h
    cases hcut
    exact take_length_lt (Nat.lt_of_succ_lt (checkglobqual_lt hcheck))

def rawPeeler : Peeler where
  peel := parse_qualifiers_raw o
  peel_lt := by
    intro nobareglob word rest body h
    rw [parse_qualifiers_raw] at h
    by_cases hend : word.getLast? ≠ some ')' ∨ is_escaped word (word.length - 1) = true
    · rw [if_pos hend] at h
      cases h
    rw [if_neg hend] at h
    cases hstart : qual_start word word.length 0 with
    | none =>
        rw [hstart] at h
        cases h
    | some start =>
        rw [hstart] at h
        have hlt := take_length_lt (qual_start_lt hstart)
        simp only at h
        split_ifs at h
        all_goals cases h
        all_goals exact hlt

section Parse

variable {σ : Type} (R : Reader σ) (P : Peeler)

structure Peeling (σ : Type) where
  word : Text
  acc : Option (QualifierSet σ) := none
  nobareglob : Bool

/-- One more group; an error in it aborts the glob. -/
def add_group (acc : Option (QualifierSet σ)) (body : Text) : Option (QualifierSet σ) := do
  let newq ← parse_qualifier_string R body
  match acc with
  | none => newq
  | some old => merge_qualifier_groups R old newq

def peelLoop : Loop (Peeling σ) where
  guard s := (!s.nobareglob || o.hash_live) && (P.peel s.nobareglob s.word).isSome
  step s := do
    let (rest, body) ← P.peel s.nobareglob s.word
    let acc ← add_group R s.acc body
    return { word := rest, acc := some acc, nobareglob := true }
  measure s := s.word.length
  decreases := by
    intro s t _ hstep
    obtain ⟨⟨rest, body⟩, hpeel, hstep⟩ := Option.bind_eq_some_iff.mp hstep
    obtain ⟨acc, -, hstep⟩ := Option.bind_eq_some_iff.mp hstep
    cases hstep
    exact P.peel_lt _ _ _ _ hpeel

/-- How a word's groups are taken off: a tokenized word by its tokens, any other by its escapes. -/
def peeler (pattern : Text) : Peeler × Bool :=
  if pattern.getLast? = some Outpar then (tokenPeeler o, !o.bareglobqual) else (rawPeeler o, false)

def parse_qualifiers (pattern : Text) : Option (Text × Option (QualifierSet σ)) :=
  let (P, nobareglob) := peeler o pattern
  ((peelLoop o R P).run { word := pattern, nobareglob }).map fun s =>
    match s.acc with
    | some qs => (s.word, some qs)
    | none => (pattern, none)

/-- The bodies of the groups that are taken off a word, the last one first. -/
def bodiesFrom (nobareglob : Bool) (word : Text) : List Text :=
  if !nobareglob || o.hash_live then
    match _h : P.peel nobareglob word with
    | none => []
    | some (rest, body) => body :: bodiesFrom true rest
  else []
termination_by word.length
decreasing_by exact P.peel_lt _ _ _ _ _h

def groups (pattern : Text) : List Text :=
  let (P, nobareglob) := peeler o pattern
  bodiesFrom o P nobareglob pattern

end Parse

end Zshrs.Glob.Quals
