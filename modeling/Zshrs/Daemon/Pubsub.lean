import Zshrs.Lib.CharBoundary
import Zshrs.Lib.Wildcards
import Mathlib.Algebra.GroupWithZero.Nat

namespace Zshrs.Daemon.Pubsub

open Lib Lib.Utf8 Lib.Wildcards

abbrev Str := List Char

def star : UInt8 := 0x2a

def question : UInt8 := 0x3f

/-- `&s[1..]`, a panic on an empty slice. -/
def from1 (s : List UInt8) : Option {t : List UInt8 // t.length < s.length} :=
  if h : 1 ≤ s.length then some ⟨s.drop 1, by rw [List.length_drop]; omega⟩ else none

/-- The inner `rec` of `glob_match`. -/
def globRec (pat txt : List UInt8) : Option Bool :=
  match pat.head?, txt.head? with
  | none, none => some true
  | none, some _ => some false
  | some p, c =>
      if p = star then do
        let pat' ← from1 pat
        if ← globRec pat'.1 txt then some true
        else if txt.isEmpty then some false
        else do
          let txt' ← from1 txt
          globRec pat txt'.1
      else
        match c with
        | none => some false
        | some c =>
            if p = question ∨ p = c then do
              let pat' ← from1 pat
              let txt' ← from1 txt
              globRec pat'.1 txt'.1
            else some false
termination_by pat.length + txt.length
decreasing_by
  · have := pat'.2
    omega
  · have := txt'.2
    omega
  · have := pat'.2
    have := txt'.2
    omega

def glob_match (pattern s : Str) : Option Bool := globRec (encode pattern) (encode s)

/-- What a letter of a pattern stands for. -/
def sym {α : Type} [DecidableEq α] (any one a : α) : Sym α :=
  if a = any then .any else if a = one then .one else .lit a

/-- The language of a pattern: every `?` is one char, and every `*` any run of them. -/
def Topic (pattern s : Str) : Prop := Globs (pattern.map (sym '*' '?')) s

section Scopes

/-- Where an event comes from. -/
structure Scope where
  shell_id : UInt64
  tags : List Str
  user : Option Str
  job_id : Option UInt64

def decimal (n : UInt64) : Str := (toString n.toNat).toList

def Scope.canonical (e : Scope) : Str :=
  match e.job_id with
  | some id => "job:".toList ++ decimal id
  | none => "shell:".toList ++ decimal e.shell_id

/-- Whether one of the names matches, up to the first that does. -/
def anyMatch (pattern : Str) : List Str → Option Bool
  | [] => some false
  | name :: names => do
      if ← glob_match pattern name then some true else anyMatch pattern names

def Scope.matches_scope (e : Scope) (scope_pat : Str) : Option Bool :=
  if scope_pat = ['*'] then some true
  else anyMatch scope_pat
    (e.canonical :: (e.tags.map ("tag:".toList ++ ·) ++ (e.user.map ("user:".toList ++ ·)).toList))

end Scopes

section Bytes

variable {pat txt : List UInt8} {p c : UInt8}

theorem globRec_star (pat txt : List UInt8) : globRec (star :: pat) txt = (do
    if ← globRec pat txt then some true
    else if txt.isEmpty then some false
    else globRec (star :: pat) (txt.drop 1)) := by
  rw [globRec]
  simp only [List.head?_cons, if_pos, from1]
  cases txt with
  | nil => rfl
  | cons c txt => rfl

theorem globRec_nil (pat : List UInt8) (hp : p ≠ star) : globRec (p :: pat) [] = some false := by
  rw [globRec]
  simp only [List.head?_cons, List.head?_nil, if_neg hp]

theorem globRec_cons (pat txt : List UInt8) (hp : p ≠ star) : globRec (p :: pat) (c :: txt) =
    if p = question ∨ p = c then globRec pat txt else some false := by
  rw [globRec]
  simp only [List.head?_cons, if_neg hp]
  rfl

/-- The matcher comes to an end without a panic, and takes the language of the pattern over bytes. -/
theorem globRec_iff (pat txt : List UInt8) :
    ∃ b, globRec pat txt = some b ∧ (b = true ↔ Globs (pat.map (sym star question)) txt) := by
  induction pat generalizing txt with
  | nil =>
      rw [globRec, List.map_nil, globs_nil]
      cases txt with
      | nil => exact ⟨true, rfl, by simp⟩
      | cons c txt => exact ⟨false, rfl, by simp⟩
  | cons p pat ih =>
      rw [List.map_cons]
      by_cases hstar : p = star
      · subst hstar
        have hsym : sym star question star = .any := rfl
        rw [hsym]
        induction txt with
        | nil =>
            obtain ⟨b, hb, hiff⟩ := ih []
            rw [globRec_star, hb, globs_any_step]
            cases b with
            | true => exact ⟨true, rfl, iff_of_true rfl (.inl (hiff.mp rfl))⟩
            | false =>
                refine ⟨false, rfl, iff_of_false (by decide) ?_⟩
                rintro (h | ⟨a, t, h, -⟩)
                · exact absurd (hiff.mpr h) (by decide)
                · cases h
        | cons c txt ihtxt =>
            obtain ⟨b, hb, hiff⟩ := ih (c :: txt)
            obtain ⟨b', hb', hiff'⟩ := ihtxt
            rw [globRec_star, hb, globs_any_step]
            cases b with
            | true => exact ⟨true, rfl, iff_of_true rfl (.inl (hiff.mp rfl))⟩
            | false =>
                refine ⟨b', hb', hiff'.trans ⟨fun h => .inr ⟨c, txt, rfl, h⟩, ?_⟩⟩
                rintro (h | ⟨a, t, h, ht⟩)
                · exact absurd (hiff.mpr h) (by decide)
                · cases h
                  exact ht
      · cases txt with
        | nil =>
            refine ⟨false, globRec_nil pat hstar, iff_of_false (by decide) fun h => ?_⟩
            unfold sym at h
            rw [if_neg hstar] at h
            split at h
            · obtain ⟨a, t, h, -⟩ := globs_one.mp h
              cases h
            · obtain ⟨t, h, -⟩ := globs_lit.mp h
              cases h
        | cons c txt =>
            obtain ⟨b, hb, hiff⟩ := ih txt
            rw [globRec_cons pat txt hstar]
            unfold sym
            rw [if_neg hstar]
            by_cases hone : p = question
            · rw [if_pos (.inl hone), if_pos hone]
              refine ⟨b, hb, hiff.trans ⟨fun h => .one c h, fun h => ?_⟩⟩
              obtain ⟨a, t, ht, h⟩ := globs_one.mp h
              cases ht
              exact h
            · rw [if_neg hone]
              by_cases hlit : p = c
              · subst hlit
                rw [if_pos (.inr rfl)]
                refine ⟨b, hb, hiff.trans ⟨fun h => .lit p h, fun h => ?_⟩⟩
                obtain ⟨t, ht, h⟩ := globs_lit.mp h
                cases ht
                exact h
              · rw [if_neg (not_or_intro hone hlit)]
                refine ⟨false, rfl, iff_of_false (by decide) fun h => ?_⟩
                obtain ⟨t, ht, -⟩ := globs_lit.mp h
                exact hlit (List.cons_eq_cons.mp ht).1.symm

end Bytes

section Encoding

/-- Two texts that begin with a char each begin with the same one. -/
theorem encode_char_front {c a : Char} {s t : List UInt8}
    (h : String.utf8EncodeChar c ++ s = String.utf8EncodeChar a ++ t) : c = a ∧ s = t := by
  have same := (look_encode c s).symm.trans ((congrArg look h).trans (look_encode a t))
  obtain ⟨rfl, -⟩ := Look.char.inj same
  exact ⟨rfl, List.append_cancel_left h⟩

/-- A char is found in encoded text only where it was put. -/
theorem code_utf8 : Code String.utf8EncodeChar where
  sync {s a run rest} h := by
    obtain ⟨b, more, hword, hfirst, -⟩ := encode_char_bytes a
    induction s generalizing run with
    | nil =>
        rw [List.flatMap_nil, hword, List.append_assoc] at h
        exact absurd h.symm (List.append_ne_nil_of_right_ne_nil run (List.cons_ne_nil b _))
    | cons c s ih =>
        rw [List.flatMap_cons, List.append_assoc] at h
        cases run with
        | nil =>
            obtain ⟨rfl, hrest⟩ := encode_char_front h
            exact ⟨[], s, rfl, rfl, hrest⟩
        | cons r run =>
            rcases List.append_eq_append_iff.mp h with ⟨u, hrun, hs⟩ | ⟨u, hc, hs⟩
            · obtain ⟨s₁, s₂, rfl, rfl, rfl⟩ := @ih u (by rw [List.append_assoc, hs])
              exact ⟨c :: s₁, s₂, rfl, hrun.symm, rfl⟩
            · cases u with
              | nil =>
                  obtain ⟨s₁, s₂, rfl, hnil, rfl⟩ := @ih [] hs.symm
                  refine ⟨c :: s₁, s₂, rfl, ?_, rfl⟩
                  rw [List.flatMap_cons, hnil, hc, List.append_nil, List.append_nil]
              | cons b' u =>
                  -- A first byte would stand inside a char.
                  obtain ⟨b₀, more₀, hword₀, -, hmore⟩ := encode_char_bytes c
                  rw [hword₀, List.cons_append] at hc
                  rw [hword, List.cons_append, List.cons_append] at hs
                  obtain rfl := (List.cons_eq_cons.mp hs).1
                  have inside := hmore b
                    ((List.cons_eq_cons.mp hc).2 ▸ List.mem_append_right run List.mem_cons_self)
                  omega

theorem sym_lit {b : UInt8} (hstar : b ≠ star) (hone : b ≠ question) : sym star question b = .lit b := by
  unfold sym
  rw [if_neg hstar, if_neg hone]

/-- The bytes of a pattern stand for what its chars stand for. -/
theorem sym_encode (pattern : Str) : (encode pattern).map (sym star question) =
    (pattern.map (sym '*' '?')).flatMap (encodeSym String.utf8EncodeChar) := by
  induction pattern with
  | nil => rfl
  | cons c pattern ih =>
      rw [encode_cons, List.map_append, ih, List.map_cons, List.flatMap_cons]
      congr 1
      by_cases hstar : c = '*'
      · subst hstar
        rfl
      by_cases hone : c = '?'
      · subst hone
        rfl
      have other (b : UInt8) (hb : b < 0x80) (d : Char) (hd : String.utf8EncodeChar d = [b]) (hc : c ≠ d)
          (h : b ∈ String.utf8EncodeChar c) : False := by
        have same := (encode_char_of_ascii hb h).trans hd.symm
        exact hc (encode_char_front (congrArg (· ++ []) same)).1
      unfold sym
      rw [if_neg hstar, if_neg hone, encodeSym]
      apply List.map_congr_left
      intro b hb
      apply sym_lit
      · rintro rfl
        exact other star (by decide) '*' rfl hstar hb
      · rintro rfl
        exact other question (by decide) '?' rfl hone hb

/-- How many bytes a char is long. -/
def bytes (c : Char) : Nat := (String.utf8EncodeChar c).length

theorem bytes_pos (c : Char) : 0 < bytes c := List.length_pos_iff.mpr (encode_ne_nil c)

/-- The matcher takes a text whose runs are as long in bytes as the pattern asks for. -/
theorem glob_match_iff (pattern s : Str) : ∃ b, glob_match pattern s = some b ∧
    (b = true ↔ Fits bytes (pattern.map (sym '*' '?')) s) := by
  obtain ⟨b, hb, hiff⟩ := globRec_iff (encode pattern) (encode s)
  rw [sym_encode] at hiff
  exact ⟨b, hb, hiff.trans (globs_encode code_utf8 _ s)⟩

theorem topic_iff (pattern s : Str) : Topic pattern s ↔ Fits (fun _ => 1) (pattern.map (sym '*' '?')) s :=
  globs_iff_fits _ s

theorem anyMatch_total (pattern : Str) (names : List Str) : ∃ b, anyMatch pattern names = some b := by
  induction names with
  | nil => exact ⟨false, rfl⟩
  | cons name names ih =>
      obtain ⟨b, hb, -⟩ := glob_match_iff pattern name
      rw [anyMatch, hb]
      cases b with
      | true => exact ⟨true, rfl⟩
      | false => exact ih

theorem matches_scope_total (e : Scope) (scope_pat : Str) : ∃ b, e.matches_scope scope_pat = some b := by
  unfold Scope.matches_scope
  by_cases hany : scope_pat = ['*']
  · exact ⟨true, if_pos hany⟩
  · rw [if_neg hany]
    exact anyMatch_total scope_pat _

/-- The matcher comes to an end without a panic, and takes the text exactly if the pattern's language does. -/
def Right (pattern s : Str) : Prop := ∃ b, glob_match pattern s = some b ∧ (b = true ↔ Topic pattern s)

theorem right_iff (pattern s : Str) : Right pattern s ↔
    (Fits bytes (pattern.map (sym '*' '?')) s ↔ Fits (fun _ => 1) (pattern.map (sym '*' '?')) s) := by
  obtain ⟨b, hb, hiff⟩ := glob_match_iff pattern s
  rw [← topic_iff, ← hiff]
  constructor
  · rintro ⟨b', hb', h⟩
    rw [hb] at hb'
    cases hb'
    exact h
  · exact fun h => ⟨b, hb, h⟩

end Encoding

end Zshrs.Daemon.Pubsub
