import Zshrs.Glob.Igetmatch
import Zshrs.Pattern.Approx

namespace Zshrs.Glob.Igetmatch

open Pattern (Str Flags)
open Lib (Span find_preferred)

variable {Patprog σ : Type} (sh : Shell Patprog σ) (prog : Option Patprog)

section Tries

/-- Whether the pattern matches a text that is tried by itself. -/
def tried (s : Str) : Bool := prog.any (sh.pattry · s)

/-- A state right after a try that has matched `s`. -/
def Noted (s : Str) (st : σ) : Prop := ∃ pp ∈ prog, ∃ before, st = sh.matched pp s before

theorem pat_try_cases (s : Str) (st : σ) :
    (tried sh prog s = true ∧ ∃ st', pat_try sh prog s st = (true, st') ∧ Noted sh prog s st') ∨
      (tried sh prog s = false ∧ pat_try sh prog s st = (false, st)) := by
  cases prog with
  | none => exact .inr ⟨rfl, rfl⟩
  | some pp =>
      rw [tried, Option.any_some, pat_try]
      by_cases h : sh.pattry pp s = true
      · exact .inl ⟨h, sh.matched pp s st, by rw [if_pos h], pp, rfl, st, rfl⟩
      · exact .inr ⟨Bool.eq_false_iff.mpr h, by rw [if_neg h]⟩

theorem ordered_true (ns : List Nat) : ordered true ns = ns := rfl

theorem mem_ordered {first : Bool} {ns : List Nat} {n : Nat} : n ∈ ordered first ns ↔ n ∈ ns := by
  cases first with
  | true => exact Iff.rfl
  | false => exact List.mem_reverse

theorem probe_spec (text : Nat → Str) (first : Bool) (ns : List Nat) {found : Option Nat} {st : σ}
    (hfound : ∀ n ∈ found, Noted sh prog (text n) st) :
    ∃ st', probe sh prog text first ns found st =
        (((ordered first ns).find? fun n => tried sh prog (text n)).or found, st') ∧
      ∀ n ∈ ((ordered first ns).find? fun n => tried sh prog (text n)).or found, Noted sh prog (text n) st' := by
  induction ns generalizing found st with
  | nil => exact ⟨st, by cases first <;> rfl, by cases first <;> exact hfound⟩
  | cons n ns ih =>
      rw [probe]
      obtain ⟨htried, st', htry, hnoted⟩ | ⟨htried, htry⟩ := pat_try_cases sh prog (text n) st
      · rw [htry]
        cases first with
        | true =>
            refine ⟨st', ?_, ?_⟩
            · simp [ordered, htried]
            · simpa [ordered, htried] using hnoted
        | false =>
            obtain ⟨st'', heq, hnoted'⟩ := @ih (some n) st' (by simpa using hnoted)
            refine ⟨st'', ?_, ?_⟩
            · simpa [ordered, htried] using heq
            · simpa [ordered, htried] using hnoted'
      · rw [htry]
        obtain ⟨st', heq, hnoted⟩ := ih hfound
        refine ⟨st', ?_, ?_⟩
        · cases first <;> simpa [ordered, htried] using heq
        · cases first <;> simpa [ordered, htried] using hnoted

/-- The pairs of positions of the substring walk. -/
def walk (len : Nat) (shortest : Bool) (starts : List Nat) : List (Nat × Nat) :=
  starts.flatMap fun start => (ordered shortest (ends len start)).map (start, ·)

theorem first_from_spec (chars : Str) (shortest : Bool) (starts : List Nat) (st : σ) :
    ∃ st', first_from sh prog chars shortest starts st =
        ((walk chars.length shortest starts).find? fun m => tried sh prog (slice chars m.1 m.2), st') ∧
      ∀ m ∈ (walk chars.length shortest starts).find? fun m => tried sh prog (slice chars m.1 m.2),
        Noted sh prog (slice chars m.1 m.2) st' := by
  induction starts generalizing st with
  | nil => exact ⟨st, rfl, by simp [walk]⟩
  | cons start starts ih =>
      obtain ⟨st', heq, hnoted⟩ := @probe_spec _ _ sh prog (slice chars start) true
        (ordered shortest (ends chars.length start)) none st (by simp)
      have hwalk : (walk chars.length shortest (start :: starts)).find?
            (fun m => tried sh prog (slice chars m.1 m.2)) =
          (((ordered shortest (ends chars.length start)).find? fun stop => tried sh prog (slice chars start stop)).map
              (start, ·)).or
            ((walk chars.length shortest starts).find? fun m => tried sh prog (slice chars m.1 m.2)) := by
        rw [walk, List.flatMap_cons, List.find?_append, List.find?_map]
        rfl
      rw [Option.or_none, ordered_true] at heq hnoted
      rw [first_from, hwalk, heq]
      cases hfind : (ordered shortest (ends chars.length start)).find?
          fun stop => tried sh prog (slice chars start stop) with
      | some stop =>
          rw [hfind] at hnoted
          refine ⟨st', rfl, fun m hm => ?_⟩
          cases hm
          exact hnoted stop rfl
      | none => exact ih st'

end Tries

section Preference

variable {s : Str}

/-- Which spans of the subject may be replaced. -/
def Allowed (fl : Flags) (x : Span s) : Prop :=
  if fl &&& SUB_ALL ≠ 0 ∨ s = [] ∨ (fl &&& SUB_START ≠ 0 ∧ fl &&& SUB_END ≠ 0) then
    x.start = 0 ∧ x.stop = s.length
  else if fl &&& SUB_START ≠ 0 then x.start = 0
  else if fl &&& SUB_END ≠ 0 then x.stop = s.length
  else x.start < x.stop

/-- The shorter span, or the longer one for `SUB_LONG`. -/
def Fitter (fl : Flags) (x y : Nat × Nat) : Prop :=
  if fl &&& SUB_LONG = 0 then x.2 - x.1 ≤ y.2 - y.1 else y.2 - y.1 ≤ x.2 - x.1

/-- At the end only the length counts; elsewhere the span further left comes first. -/
def Prefers (fl : Flags) (x y : Nat × Nat) : Prop :=
  if fl &&& SUB_START = 0 ∧ fl &&& SUB_END ≠ 0 then Fitter fl x y
  else x.1 < y.1 ∨ (x.1 = y.1 ∧ Fitter fl x y)

theorem fitter_refl (fl : Flags) (x : Nat × Nat) : Fitter fl x x := by
  rw [Fitter]
  split <;> exact Nat.le_refl _

theorem prefers_refl (fl : Flags) (x : Nat × Nat) : Prefers fl x x := by
  rw [Prefers]
  split
  · exact fitter_refl fl x
  · exact .inr ⟨rfl, fitter_refl fl x⟩

/-- Whether a pattern matches a text where it stands: what is in front of it in the subject, the text, and what is
behind it. -/
abbrev Placed := Str → Str → Str → Bool

/-- Whether the span matches behind `pre`. -/
def Placed.hits (at_ : Placed) (pre : Str) (x : Span s) : Bool := at_ (pre ++ x.before) x.text x.after

/-- A text is matched as it is tried, whatever stands around it. -/
def alone : Placed := fun _ mid _ => tried sh prog mid

/-- The span that is to be replaced. -/
def Chosen (at_ : Placed) (pre : Str) (fl : Flags) (x : Span s) : Prop :=
  Allowed fl x ∧ at_.hits pre x = true ∧
    ∀ y : Span s, Allowed fl y → at_.hits pre y = true → Prefers fl x.bounds y.bounds

/-- The spans of the arms that make one match, in the order of preference. -/
def candidates (fl : Flags) (len : Nat) : List (Nat × Nat) :=
  let shortest := fl &&& SUB_LONG = 0
  if fl &&& SUB_START ≠ 0 ∧ fl &&& SUB_END ≠ 0 then [(0, len)]
  else if fl &&& SUB_START ≠ 0 then (ordered shortest (List.range (len + 1))).map (0, ·)
  else if fl &&& SUB_END ≠ 0 then (ordered shortest (List.range (len + 1)).reverse).map (·, len)
  else walk len shortest (List.range len)

theorem mem_walk {len : Nat} {shortest : Bool} {starts : List Nat} {m : Nat × Nat} :
    m ∈ walk len shortest starts ↔ m.1 ∈ starts ∧ m.1 < m.2 ∧ m.2 < m.1 + 1 + (len - m.1) := by
  simp only [walk, List.mem_flatMap, List.mem_map, mem_ordered, ends, List.mem_range'_1]
  constructor
  · rintro ⟨start, hstart, stop, hstop, rfl⟩
    exact ⟨hstart, hstop.1, hstop.2⟩
  · rintro ⟨hstart, hstop⟩
    exact ⟨m.1, hstart, m.2, hstop, rfl⟩

theorem allowed_iff {fl : Flags} (hall : fl &&& SUB_ALL = 0) (hs : s ≠ []) (x : Span s) : Allowed fl x ↔
    if fl &&& SUB_START = 0 then if fl &&& SUB_END = 0 then x.start < x.stop else x.stop = s.length
    else if fl &&& SUB_END = 0 then x.start = 0 else x.start = 0 ∧ x.stop = s.length := by
  rw [Allowed]
  by_cases hstart : fl &&& SUB_START = 0 <;> by_cases hend : fl &&& SUB_END = 0 <;>
    simp only [hall, hs, hstart, hend, ne_eq, not_true_eq_false, not_false_eq_true, and_self, and_true, and_false,
      or_false, or_true, if_true, if_false]

theorem mem_candidates {fl : Flags} (hall : fl &&& SUB_ALL = 0) (hs : s ≠ []) (m : Nat × Nat) :
    m ∈ candidates fl s.length ↔ ∃ x : Span s, Allowed fl x ∧ x.bounds = m := by
  simp only [allowed_iff hall hs]
  refine Iff.trans ?_ (@Span.exists_bounds _ s (fun start stop =>
    if fl &&& SUB_START = 0 then if fl &&& SUB_END = 0 then start < stop else stop = s.length
    else if fl &&& SUB_END = 0 then start = 0 else start = 0 ∧ stop = s.length) m).symm
  by_cases hstart : fl &&& SUB_START = 0
  · rw [candidates, if_neg (fun h => h.1 hstart), if_neg (not_not.mpr hstart), if_pos hstart]
    by_cases hend : fl &&& SUB_END = 0
    · rw [if_neg (not_not.mpr hend), if_pos hend, mem_walk, List.mem_range]
      omega
    · rw [if_pos hend, if_neg hend, List.mem_map]
      simp only [mem_ordered, List.mem_reverse, List.mem_range]
      constructor
      · rintro ⟨start, hlt, rfl⟩
        exact ⟨Nat.le_of_lt_succ hlt, Nat.le_refl _, rfl⟩
      · rintro ⟨hle, -, hstop⟩
        exact ⟨m.1, Nat.lt_succ_of_le (hstop ▸ hle), by rw [← hstop]⟩
  · by_cases hend : fl &&& SUB_END = 0
    · rw [candidates, if_neg (fun h => h.2 hend), if_pos hstart, if_neg hstart, if_pos hend, List.mem_map]
      simp only [mem_ordered, List.mem_range]
      constructor
      · rintro ⟨stop, hlt, rfl⟩
        exact ⟨Nat.zero_le _, Nat.le_of_lt_succ hlt, rfl⟩
      · rintro ⟨-, hlen, hzero⟩
        exact ⟨m.2, Nat.lt_succ_of_le hlen, by rw [← hzero]⟩
    · rw [candidates, if_pos ⟨hstart, hend⟩, if_neg hstart, if_neg hend, List.mem_singleton, Prod.ext_iff]
      dsimp only
      omega

theorem ordered_pairwise {R : Nat → Nat → Prop} {first : Bool} {ns : List Nat}
    (hup : first = true → ns.Pairwise R) (hdown : first = false → ns.Pairwise fun a b => R b a) :
    (ordered first ns).Pairwise R := by
  cases first with
  | true => exact hup rfl
  | false => exact List.pairwise_reverse.mpr (hdown rfl)

theorem ends_pairwise (len start : Nat) : (ends len start).Pairwise (· < ·) := List.pairwise_lt_range' 1

theorem candidates_preferred (fl : Flags) (len : Nat) : (candidates fl len).Pairwise (Prefers fl) := by
  have hlong {R : Nat → Nat → Prop} {ns : List Nat} (hup : fl &&& SUB_LONG = 0 → ns.Pairwise R)
      (hdown : fl &&& SUB_LONG ≠ 0 → ns.Pairwise fun a b => R b a) :
      (ordered (fl &&& SUB_LONG = 0) ns).Pairwise R :=
    ordered_pairwise (fun h => hup (of_decide_eq_true h)) fun h => hdown (of_decide_eq_false h)
  by_cases hstart : fl &&& SUB_START = 0
  · by_cases hend : fl &&& SUB_END = 0
    · rw [candidates, if_neg (fun h => h.1 hstart), if_neg (not_not.mpr hstart), if_neg (not_not.mpr hend), walk,
        List.pairwise_flatMap]
      simp only [List.pairwise_map, Prefers, hend, ne_eq, not_true_eq_false, and_false, if_false]
      constructor
      · intro start _
        refine (hlong (fun h => ?_) fun h => ?_).imp fun h => .inr ⟨trivial, h⟩
        · refine (ends_pairwise len start).imp fun hlt => ?_
          rw [Fitter, if_pos h]
          exact Nat.sub_le_sub_right (Nat.le_of_lt hlt) start
        · refine (ends_pairwise len start).imp fun hlt => ?_
          rw [Fitter, if_neg h]
          exact Nat.sub_le_sub_right (Nat.le_of_lt hlt) start
      · refine List.pairwise_lt_range.imp fun hlt m hm m' hm' => .inl ?_
        obtain ⟨_, _, rfl⟩ := List.mem_map.mp hm
        obtain ⟨_, _, rfl⟩ := List.mem_map.mp hm'
        exact hlt
    · rw [candidates, if_neg (fun h => h.1 hstart), if_neg (not_not.mpr hstart), if_pos hend, List.pairwise_map]
      simp only [Prefers, hstart, hend, ne_eq, not_false_eq_true, and_self, if_true]
      refine hlong (fun h => ?_) fun h => ?_
      · refine List.pairwise_reverse.mpr (List.pairwise_lt_range.imp fun hlt => ?_)
        rw [Fitter, if_pos h]
        exact Nat.sub_le_sub_left (Nat.le_of_lt hlt) len
      · refine List.pairwise_reverse.mpr (List.pairwise_lt_range.imp fun hlt => ?_)
        rw [Fitter, if_neg h]
        exact Nat.sub_le_sub_left (Nat.le_of_lt hlt) len
  · by_cases hend : fl &&& SUB_END = 0
    · rw [candidates, if_neg (fun h => h.2 hend), if_pos hstart, List.pairwise_map]
      simp only [Prefers, hstart, false_and, if_false]
      refine (hlong (fun h => ?_) fun h => ?_).imp fun h => .inr ⟨trivial, h⟩
      · refine List.pairwise_lt_range.imp fun hlt => ?_
        rw [Fitter, if_pos h]
        exact Nat.le_of_lt hlt
      · refine List.pairwise_lt_range.imp fun hlt => ?_
        rw [Fitter, if_neg h]
        exact Nat.le_of_lt hlt
    · rw [candidates, if_pos ⟨hstart, hend⟩]
      exact List.pairwise_singleton _ _

/-- What the search through the candidates finds is the span that is to be replaced. -/
theorem find_chosen {fl : Flags} (hall : fl &&& SUB_ALL = 0) (hs : s ≠ []) :
    match (candidates fl s.length).find? fun m => tried sh prog (slice s m.1 m.2) with
    | some m => ∃ x : Span s, x.bounds = m ∧ Chosen (alone sh prog) [] fl x
    | none => ∀ x : Span s, Allowed fl x → tried sh prog x.text = false := by
  cases hfind : (candidates fl s.length).find? fun m => tried sh prog (slice s m.1 m.2) with
  | some m =>
      obtain ⟨x, hx, rfl⟩ := (mem_candidates hall hs m).mp (List.mem_of_find?_eq_some hfind)
      have hxtried := List.find?_some hfind
      refine ⟨x, rfl, hx, hxtried, fun y hy hytried => ?_⟩
      have hmem : y.bounds ∈ candidates fl s.length := (mem_candidates hall hs _).mpr ⟨y, hy, rfl⟩
      obtain heq | h := find_preferred (candidates_preferred fl s.length) hfind hmem hytried
      · rw [heq]
        exact prefers_refl fl _
      · exact h
  | none =>
      intro x hx
      have hmem : x.bounds ∈ candidates fl s.length := (mem_candidates hall hs _).mpr ⟨x, hx, rfl⟩
      exact Bool.eq_false_iff.mpr (List.find?_eq_none.mp hfind _ hmem)

end Preference

section Arms

variable (fl : Flags) (replstr : Option Str)

theorem one_match_spec (chars : Str) (st : σ) :
    ∃ st', one_match sh prog fl chars st =
        ((candidates fl chars.length).find? fun m => tried sh prog (slice chars m.1 m.2), st') ∧
      ∀ m ∈ (candidates fl chars.length).find? fun m => tried sh prog (slice chars m.1 m.2),
        Noted sh prog (slice chars m.1 m.2) st' := by
  have hwhole : slice chars 0 chars.length = chars := List.take_length
  rw [one_match, candidates]
  by_cases hboth : fl &&& SUB_START ≠ 0 ∧ fl &&& SUB_END ≠ 0
  · rw [if_pos hboth, if_pos hboth, List.find?_singleton]
    dsimp only
    rw [hwhole]
    obtain ⟨htried, st', htry, hnoted⟩ | ⟨htried, htry⟩ := pat_try_cases sh prog chars st
    · rw [htry, if_pos htried]
      refine ⟨st', rfl, fun m hm => ?_⟩
      cases hm
      rwa [hwhole]
    · rw [htry, htried]
      exact ⟨st, rfl, by simp⟩
  · rw [if_neg hboth, if_neg hboth]
    by_cases hstart : fl &&& SUB_START ≠ 0
    · rw [if_pos hstart, if_pos hstart, List.find?_map]
      obtain ⟨st', heq, hnoted⟩ := @probe_spec _ _ sh prog (fun stop => slice chars 0 stop) (fl &&& SUB_LONG = 0)
        (List.range (chars.length + 1)) none st (by simp)
      rw [Option.or_none] at heq hnoted
      dsimp only
      rw [heq]
      refine ⟨st', rfl, fun m hm => ?_⟩
      obtain ⟨stop, hstop, rfl⟩ := Option.map_eq_some_iff.mp hm
      exact hnoted stop hstop
    · rw [if_neg hstart, if_neg hstart]
      by_cases hend : fl &&& SUB_END ≠ 0
      · rw [if_pos hend, if_pos hend, List.find?_map]
        obtain ⟨st', heq, hnoted⟩ := @probe_spec _ _ sh prog (fun start => slice chars start chars.length)
          (fl &&& SUB_LONG = 0) (List.range (chars.length + 1)).reverse none st (by simp)
        rw [Option.or_none] at heq hnoted
        dsimp only
        rw [heq]
        refine ⟨st', rfl, fun m hm => ?_⟩
        obtain ⟨start, hstart, rfl⟩ := Option.map_eq_some_iff.mp hm
        exact hnoted start hstart
      · rw [if_neg hend, if_neg hend]
        exact first_from_spec sh prog chars _ _ st

theorem list_any_spec (chars : Str) (shortest substr_mode : Bool) (starts : List Nat) (found : Bool) (st : σ) :
    (list_any sh prog chars shortest substr_mode starts found st).1 = true ↔ found = true ∨
      ∃ start ∈ if substr_mode then starts else starts.take 1, ∃ stop ∈ ends chars.length start,
        tried sh prog (slice chars start stop) = true := by
  induction starts generalizing found st with
  | nil => cases substr_mode <;> simp [list_any]
  | cons start starts ih =>
      obtain ⟨st', heq, -⟩ := @probe_spec _ _ sh prog (slice chars start) shortest (ends chars.length start) none st
        (by simp)
      have hhere : (((ordered shortest (ends chars.length start)).find? fun stop =>
          tried sh prog (slice chars start stop)).isSome = true) ↔
          ∃ stop ∈ ends chars.length start, tried sh prog (slice chars start stop) = true := by
        simp [List.find?_isSome, mem_ordered]
      rw [Option.or_none] at heq
      rw [list_any, heq]
      cases hfind : (ordered shortest (ends chars.length start)).find?
          fun stop => tried sh prog (slice chars start stop) with
      | some stop =>
          have hsome := hhere.mp (by rw [hfind]; rfl)
          cases substr_mode with
          | true => simp [ih, hsome]
          | false => simpa using .inr hsome
      | none =>
          have hnone := mt hhere.mpr (by rw [hfind]; exact Bool.false_ne_true)
          cases substr_mode with
          | true => simp [ih, hnone]
          | false => simp [hnone]

/-- What a match of `mid` gives way to. Without a replacement it goes, or stays for `SUB_ALL`. -/
def Substituted (mid r : Str) : Prop :=
  ∃ st, Noted sh prog mid st ∧ r = (resolve_repl sh fl replstr st).1.getD (if fl &&& SUB_ALL = 0 then [] else mid)

variable (at_ : Placed)

def Replaced (s out : Str) : Prop :=
  ∃ x : Span s, Chosen at_ [] fl x ∧ ∃ r, Substituted sh prog fl replstr x.text r ∧ out = x.before ++ r ++ x.after

/-- One replacement after the other, each in what the one before has left behind `pre`. -/
inductive Rewritten : Str → Str → Str → Prop
  | unmatched {pre s : Str} (h : ∀ x : Span s, x.start < x.stop → at_.hits pre x = false) : Rewritten pre s s
  | replaced {pre s r out : Str} (x : Span s) (hx : x.start < x.stop) (hchosen : Chosen at_ pre fl x)
      (hr : Substituted sh prog fl replstr x.text r) (hrest : Rewritten (pre ++ x.before ++ x.text) x.after out) :
      Rewritten pre s (x.before ++ r ++ out)

end Arms

section Global

variable {fl : Flags} {replstr : Option Str}

/-- The flags of a walk over the substrings. -/
structure Unanchored (fl : Flags) : Prop where
  all : fl &&& SUB_ALL = 0
  start : fl &&& SUB_START = 0
  tail : fl &&& SUB_END = 0

variable (hfl : Unanchored fl)
include hfl

theorem Unanchored.allowed {s : Str} (hs : s ≠ []) (x : Span s) : Allowed fl x ↔ x.start < x.stop := by
  rw [allowed_iff hfl.all hs, if_pos hfl.start, if_pos hfl.tail]

theorem Unanchored.prefers (x y : Nat × Nat) :
    Prefers fl x y ↔ x.1 < y.1 ∨ (x.1 = y.1 ∧ Fitter fl x y) := by
  rw [Prefers, if_neg (fun h => h.2 hfl.tail)]

omit hfl in
/-- What stands in front does not count for texts that are tried alone. -/
theorem Rewritten.anywhere {pre pre' s out : Str} (h : Rewritten sh prog fl replstr (alone sh prog) pre s out) :
    Rewritten sh prog fl replstr (alone sh prog) pre' s out := by
  induction h generalizing pre' with
  | unmatched h => exact .unmatched h
  | replaced x hx hchosen hr _ ih => exact .replaced x hx hchosen hr ih

/-- Where no match starts a character stays. -/
theorem Rewritten.skip {c : Char} {pre s out : Str} (h : Rewritten sh prog fl replstr (alone sh prog) pre s out)
    (hno : ∀ x : Span (c :: s), x.start = 0 → x.start < x.stop → tried sh prog x.text = false) :
    Rewritten sh prog fl replstr (alone sh prog) pre (c :: s) (c :: out) := by
  cases h with
  | unmatched h =>
      refine .unmatched fun x hx => ?_
      obtain hzero | ⟨y, rfl⟩ := x.start_zero_or_shift
      · exact hno x hzero hx
      · exact h y (Nat.lt_of_succ_lt_succ hx)
  | @replaced _ _ r out x hx hchosen hr hrest =>
      have hs : s ≠ [] := by
        rintro rfl
        exact absurd (Nat.lt_of_lt_of_le hx x.stop_le) (Nat.not_lt_zero _)
      refine .replaced (x.shift c) (Nat.succ_lt_succ hx) ⟨?_, hchosen.2.1, fun y hy hytried => ?_⟩ hr hrest.anywhere
      · rw [hfl.allowed (List.cons_ne_nil c s)]
        exact Nat.succ_lt_succ hx
      · rw [hfl.allowed (List.cons_ne_nil c s)] at hy
        obtain hzero | ⟨z, rfl⟩ := y.start_zero_or_shift
        · cases (hno y hzero hy).symm.trans hytried
        · have hz := hchosen.2.2 z ((hfl.allowed hs z).mpr (Nat.lt_of_succ_lt_succ hy)) hytried
          rw [hfl.prefers] at hz ⊢
          simpa only [Fitter, Span.bounds, Span.shift, Nat.add_sub_add_right, Nat.add_lt_add_iff_right,
            Nat.add_right_cancel_iff] using hz

/-- A match found at the first character is the one to be replaced. -/
theorem Unanchored.found_first {c : Char} {s : Str} {stop : Nat}
    (hfind : ((ordered (fl &&& SUB_LONG = 0) (ends (c :: s).length 0)).find? fun stop =>
      tried sh prog (slice (c :: s) 0 stop)) = some stop) :
    ∃ x : Span (c :: s), x.bounds = (0, stop) ∧ Chosen (alone sh prog) [] fl x := by
  have hchosen := find_chosen sh prog hfl.all (List.cons_ne_nil c s)
  have hcandidates : candidates fl (c :: s).length =
      walk (c :: s).length (fl &&& SUB_LONG = 0) (List.range (c :: s).length) := by
    rw [candidates, if_neg (fun h => h.1 hfl.start), if_neg (not_not.mpr hfl.start), if_neg (not_not.mpr hfl.tail)]
  have hfirst : (candidates fl (c :: s).length).find? (fun m => tried sh prog (slice (c :: s) m.1 m.2)) =
      some (0, stop) := by
    rw [hcandidates, walk, List.length_cons, List.range_succ_eq_map, List.flatMap_cons, List.find?_append,
      List.find?_map]
    rw [List.length_cons] at hfind
    change ((((ordered _ _).find? fun stop => tried sh prog (slice (c :: s) 0 stop)).map _).or _) = _
    rw [hfind]
    rfl
  rwa [hfirst] at hchosen

theorem replace_all_spec (rest : Str) (st : σ) :
    ∃ out any st', replace_all sh prog fl replstr rest st = ((out, any), st') ∧
      Rewritten sh prog fl replstr (alone sh prog) [] rest out ∧
      (any = true ↔ ∃ x : Span rest, x.start < x.stop ∧ tried sh prog x.text = true) := by
  induction hlen : rest.length using Nat.strong_induction_on generalizing rest st with
  | _ n ih =>
      cases rest with
      | nil =>
          have hnone (x : Span ([] : Str)) : ¬ x.start < x.stop :=
            fun hx => absurd (Nat.lt_of_lt_of_le hx x.stop_le) (Nat.not_lt_zero _)
          refine ⟨[], false, st, by rw [replace_all], .unmatched fun x hx => absurd hx (hnone x), ?_⟩
          refine iff_of_false Bool.false_ne_true ?_
          rintro ⟨x, hx, -⟩
          exact hnone x hx
      | cons c cs =>
          obtain ⟨st₁, heq, hnoted⟩ := @probe_spec _ _ sh prog (slice (c :: cs) 0) (fl &&& SUB_LONG = 0)
            (ends (c :: cs).length 0) none st (by simp)
          rw [Option.or_none] at heq hnoted
          rw [replace_all]
          split
          next stop' st₂ hfound =>
            rw [heq] at hfound
            obtain ⟨hfind, rfl⟩ := Prod.mk.inj hfound
            obtain ⟨⟨start, stop, hle, hstop⟩, hbounds, hchosen⟩ := hfl.found_first sh prog hfind
            cases hbounds
            have hx : 0 < stop := (hfl.allowed (List.cons_ne_nil c cs) _).mp hchosen.1
            have hlt : ((c :: cs).drop stop).length < n := by
              rw [List.length_drop, hlen]
              have : 0 < n := hlen ▸ Nat.succ_pos cs.length
              omega
            obtain ⟨out, any, st₃, hrest, hrewritten, -⟩ :=
              ih _ hlt ((c :: cs).drop stop) (resolve_repl sh fl replstr st₁).2 rfl
            refine ⟨(resolve_repl sh fl replstr st₁).1.getD [] ++ out, true, st₃, ?_, ?_,
              iff_of_true rfl ⟨_, hx, hchosen.2.1⟩⟩
            · dsimp only
              rw [hrest]
            · have hr : Substituted sh prog fl replstr (slice (c :: cs) 0 stop)
                  ((resolve_repl sh fl replstr st₁).1.getD []) :=
                ⟨st₁, hnoted stop hfind, by rw [if_pos hfl.all]⟩
              exact .replaced ⟨0, stop, hle, hstop⟩ hx hchosen hr hrewritten.anywhere
          next st₂ hfound =>
            rw [heq] at hfound
            obtain ⟨hfind, rfl⟩ := Prod.mk.inj hfound
            have hno (x : Span (c :: cs)) (hzero : x.start = 0) (hx : x.start < x.stop) :
                tried sh prog x.text = false := by
              have hmem : x.stop ∈ ordered (fl &&& SUB_LONG = 0) (ends (c :: cs).length 0) := by
                rw [mem_ordered, ends, List.mem_range'_1]
                have := x.stop_le
                omega
              have := List.find?_eq_none.mp hfind x.stop hmem
              rw [Span.text, hzero]
              exact Bool.eq_false_iff.mpr this
            obtain ⟨out, any, st₃, hrest, hrewritten, hany⟩ :=
              ih cs.length (hlen ▸ Nat.lt_succ_self _) cs st₁ rfl
            refine ⟨c :: out, any, st₃, by rw [hrest], hrewritten.skip sh prog hfl hno, ?_⟩
            rw [hany]
            constructor
            · rintro ⟨x, hx, htried⟩
              exact ⟨x.shift c, Nat.succ_lt_succ hx, htried⟩
            · rintro ⟨x, hx, htried⟩
              obtain hzero | ⟨y, rfl⟩ := x.start_zero_or_shift
              · rw [hno x hzero hx] at htried
                cases htried
              · exact ⟨y, Nat.lt_of_succ_lt_succ hx, htried⟩

end Global

section Verdict

variable (fl : Flags) (replstr : Option Str)

/-- The arm that only looks for a match. -/
def Lists (s : Str) : Prop := fl &&& SUB_ALL = 0 ∧ s ≠ [] ∧ fl &&& SUB_LIST ≠ 0

/-- The arm that makes more than one replacement. -/
def Repeats (s : Str) : Prop := Unanchored fl ∧ s ≠ [] ∧ fl &&& SUB_LIST = 0 ∧ fl &&& SUB_GLOBAL ≠ 0

/-- The spans whose text may match. -/
def Counts {s : Str} (x : Span s) : Prop :=
  (Lists fl s → x.start < x.stop ∧ (fl &&& SUB_SUBSTR ≠ 0 ∨ x.start = 0)) ∧ (¬ Lists fl s → Allowed fl x)

structure Expected (at_ : Placed) (s out : Str) : Prop where
  kept : Lists fl s → out = s
  rewritten : Repeats fl s → Rewritten sh prog fl replstr at_ [] s out
  replaced : ¬ Lists fl s → ¬ Repeats fl s → Replaced sh prog fl replstr at_ s out

/-- Some span matches and the subject is as it should be, or none does and it is as it was. For `SUB_ALL` this
says nothing of the status. -/
def Settled (at_ : Placed) (s : Str) (out : Outcome σ) : Prop :=
  ((∃ x : Span s, Counts fl x ∧ at_.hits [] x = true) ∧ Expected sh prog fl replstr at_ s out.sp ∧
      (fl &&& SUB_ALL = 0 → out.status = 0)) ∨
    ((∀ x : Span s, Counts fl x → at_.hits [] x = false) ∧ out.sp = s ∧
      (fl &&& SUB_ALL = 0 → out.status = 1))

variable {fl replstr}

/-- A match of an arm that makes one. -/
theorem Settled.one {s : Str} {out : Outcome σ} (hlists : ¬ Lists fl s) (hrepeats : ¬ Repeats fl s) {x : Span s}
    (hx : Chosen (alone sh prog) [] fl x) {r : Str} (hr : Substituted sh prog fl replstr x.text r)
    (hsp : out.sp = x.before ++ r ++ x.after) (hstatus : fl &&& SUB_ALL = 0 → out.status = 0) :
    Settled sh prog fl replstr (alone sh prog) s out :=
  .inl ⟨⟨x, ⟨fun h => absurd h hlists, fun _ => hx.1⟩, hx.2.1⟩,
    ⟨fun h => absurd h hlists, fun h => absurd h hrepeats, fun _ _ => ⟨x, hx, r, hr, hsp⟩⟩, hstatus⟩

theorem Settled.no_match {s : Str} {st : σ} (hmatch : fl &&& SUB_MATCH = 0)
    (hno : ∀ x : Span s, Counts fl x → tried sh prog x.text = false) :
    Settled sh prog fl replstr (alone sh prog) s (no_match fl s st) := by
  rw [Igetmatch.no_match, if_neg (not_not.mpr hmatch)]
  exact .inr ⟨hno, rfl, fun _ => rfl⟩

/-- Only the whole of the subject is tried. -/
def OnlyWhole (fl : Flags) (s : Str) : Prop :=
  fl &&& SUB_ALL ≠ 0 ∨ s = [] ∨ (fl &&& SUB_START ≠ 0 ∧ fl &&& SUB_END ≠ 0)

theorem OnlyWhole.allowed {s : Str} (h : OnlyWhole fl s) {x : Span s} :
    Allowed fl x ↔ x.start = 0 ∧ x.stop = s.length :=
  iff_of_eq (if_pos h)

theorem OnlyWhole.eq_whole {s : Str} (h : OnlyWhole fl s) {x : Span s} (hx : Allowed fl x) : x = .whole s := by
  rw [h.allowed] at hx
  exact Span.eq_whole hx.1 hx.2

theorem OnlyWhole.chosen {s : Str} (h : OnlyWhole fl s) (htried : tried sh prog s = true) :
    Chosen (alone sh prog) [] fl (.whole s) := by
  refine ⟨h.allowed.mpr ⟨rfl, rfl⟩, ?_, fun y hy _ => ?_⟩
  · rwa [Placed.hits, alone, Span.text_whole]
  · rw [h.eq_whole hy]
    exact prefers_refl fl _

theorem OnlyWhole.none {s : Str} (h : OnlyWhole fl s) (hlists : ¬ Lists fl s) (htried : tried sh prog s = false)
    (x : Span s) (hx : Counts fl x) : tried sh prog x.text = false := by
  rw [h.eq_whole (hx.2 hlists), Span.text_whole]
  exact htried

theorem match_all_settled (hmatch : fl &&& SUB_MATCH = 0) (hall : fl &&& SUB_ALL ≠ 0) (s : Str) (st : σ) :
    Settled sh prog fl replstr (alone sh prog) s (match_all sh prog fl replstr s st) := by
  have hlists : ¬ Lists fl s := fun h => hall h.1
  have hrepeats : ¬ Repeats fl s := fun h => hall h.1.all
  have hwhole : OnlyWhole fl s := .inl hall
  rw [match_all]
  obtain ⟨htried, st', htry, hnoted⟩ | ⟨htried, htry⟩ := pat_try_cases sh prog s st
  · rw [htry]
    refine Settled.one sh prog hlists hrepeats (hwhole.chosen sh prog htried) ⟨st', ?_, rfl⟩ ?_ fun h => absurd h hall
    · rwa [Span.text_whole]
    · rw [if_neg hall]
      simp
  · rw [htry]
    exact Settled.no_match sh prog hmatch (hwhole.none sh prog hlists htried)

theorem match_empty_settled (hmatch : fl &&& SUB_MATCH = 0) (hall : fl &&& SUB_ALL = 0) (st : σ) :
    Settled sh prog fl replstr (alone sh prog) [] (match_empty sh prog fl replstr st) := by
  have hlists : ¬ Lists fl [] := fun h => h.2.1 rfl
  have hrepeats : ¬ Repeats fl [] := fun h => h.2.1 rfl
  have hwhole : OnlyWhole fl [] := .inr (.inl rfl)
  rw [match_empty]
  obtain ⟨htried, st', htry, hnoted⟩ | ⟨htried, htry⟩ := pat_try_cases sh prog [] st
  · rw [htry]
    dsimp only
    rw [if_pos hmatch]
    refine Settled.one sh prog hlists hrepeats (hwhole.chosen sh prog htried) ⟨st', hnoted, rfl⟩ ?_ fun _ => rfl
    rw [if_pos hall]
    simp
  · rw [htry]
    exact .inr ⟨hwhole.none sh prog hlists htried, rfl, fun _ => rfl⟩

theorem list_settled (hall : fl &&& SUB_ALL = 0) {s : Str} (hs : s ≠ []) (hlist : fl &&& SUB_LIST ≠ 0) (st : σ) :
    Settled sh prog fl replstr (alone sh prog) s
      (match list_any sh prog s (fl &&& SUB_LONG = 0) (fl &&& SUB_SUBSTR ≠ 0) (List.range s.length) false st with
      | (found, st) => ⟨s, if found then 0 else 1, st⟩) := by
  have hlists : Lists fl s := ⟨hall, hs, hlist⟩
  have hpos := List.length_pos_iff.mpr hs
  have hfound := list_any_spec sh prog s (fl &&& SUB_LONG = 0) (fl &&& SUB_SUBSTR ≠ 0) (List.range s.length) false st
  have hstart (start : Nat) : (start ∈ if (decide (fl &&& SUB_SUBSTR ≠ 0)) = true then List.range s.length
      else (List.range s.length).take 1) ↔ start < s.length ∧ (fl &&& SUB_SUBSTR ≠ 0 ∨ start = 0) := by
    by_cases hsub : fl &&& SUB_SUBSTR ≠ 0
    · rw [if_pos (decide_eq_true hsub), List.mem_range, and_iff_left (.inl hsub)]
    · rw [if_neg (by simpa using hsub), List.take_range, List.mem_range, or_iff_right hsub]
      omega
  have hspan : (∃ start, (start < s.length ∧ (fl &&& SUB_SUBSTR ≠ 0 ∨ start = 0)) ∧ ∃ stop ∈ ends s.length start,
      tried sh prog (slice s start stop) = true) ↔ ∃ x : Span s, Counts fl x ∧ tried sh prog x.text = true := by
    constructor
    · rintro ⟨start, ⟨hlt, hsub⟩, stop, hstop, htried⟩
      rw [ends, List.mem_range'_1] at hstop
      have hlt' : start < stop := hstop.1
      exact ⟨⟨start, stop, by omega, by omega⟩, ⟨fun _ => ⟨hlt', hsub⟩, fun h => absurd hlists h⟩, htried⟩
    · rintro ⟨x, hx, htried⟩
      obtain ⟨hlt, hsub⟩ := hx.1 hlists
      have := x.stop_le
      refine ⟨x.start, ⟨by omega, hsub⟩, x.stop, ?_, htried⟩
      rw [ends, List.mem_range'_1]
      omega
  simp only [hstart, Bool.false_eq_true, false_or, hspan] at hfound
  generalize list_any sh prog s (fl &&& SUB_LONG = 0) (fl &&& SUB_SUBSTR ≠ 0) (List.range s.length) false st = walked
    at hfound ⊢
  obtain ⟨found, st'⟩ := walked
  cases found with
  | true =>
      exact .inl ⟨hfound.mp rfl, ⟨fun _ => rfl, fun h => absurd h.2.2.1 hlist, fun h => absurd hlists h⟩, fun _ => rfl⟩
  | false =>
      refine .inr ⟨fun x hx => ?_, rfl, fun _ => rfl⟩
      exact Bool.eq_false_iff.mpr fun htried => Bool.false_ne_true (hfound.mpr ⟨x, hx, htried⟩)

theorem replace_all_settled {s : Str} (hrepeats : Repeats fl s) (st : σ) :
    Settled sh prog fl replstr (alone sh prog) s
      (match replace_all sh prog fl replstr s st with
      | ((out, any), st) => if any then ⟨out, 0, st⟩ else ⟨s, 1, st⟩) := by
  obtain ⟨hfl, hs, hlist, hglobal⟩ := hrepeats
  have hlists : ¬ Lists fl s := fun h => h.2.2 hlist
  have hcounts (x : Span s) : Counts fl x ↔ x.start < x.stop := by
    rw [Counts, and_iff_right (fun h => absurd h hlists), forall_prop_of_true hlists, hfl.allowed hs]
  obtain ⟨out, any, st', heq, hrewritten, hany⟩ := @replace_all_spec _ _ sh prog fl replstr hfl s st
  simp only [← hcounts] at hany
  rw [heq]
  cases any with
  | true =>
      exact .inl ⟨hany.mp rfl, ⟨fun h => absurd h hlists, fun _ => hrewritten,
        fun _ h => absurd ⟨hfl, hs, hlist, hglobal⟩ h⟩, fun _ => rfl⟩
  | false =>
      refine .inr ⟨fun x hx => ?_, rfl, fun _ => rfl⟩
      exact Bool.eq_false_iff.mpr fun htried => Bool.false_ne_true (hany.mpr ⟨x, hx, htried⟩)

theorem one_match_settled (hmatch : fl &&& SUB_MATCH = 0) (hall : fl &&& SUB_ALL = 0) {s : Str} (hs : s ≠ [])
    (hlist : fl &&& SUB_LIST = 0) (hrepeats : ¬ Repeats fl s) (st : σ) :
    Settled sh prog fl replstr (alone sh prog) s
      (match one_match sh prog fl s st with
      | (some m, st) => rewrite sh fl replstr s m st
      | (none, st) => no_match fl s st) := by
  have hlists : ¬ Lists fl s := fun h => h.2.2 hlist
  obtain ⟨st', heq, hnoted⟩ := one_match_spec sh prog fl s st
  have hchosen := find_chosen sh prog hall hs
  rw [heq]
  cases hfind : (candidates fl s.length).find? fun m => tried sh prog (slice s m.1 m.2) with
  | some m =>
      rw [hfind] at hchosen
      obtain ⟨x, rfl, hx⟩ := hchosen
      have hr : Substituted sh prog fl replstr x.text ((resolve_repl sh fl replstr st').1.getD []) :=
        ⟨st', hnoted x.bounds hfind, by rw [if_pos hall]⟩
      dsimp only
      rw [rewrite, if_neg (not_not.mpr hmatch)]
      exact Settled.one sh prog hlists hrepeats hx hr rfl fun _ => rfl
  | none =>
      rw [hfind] at hchosen
      exact Settled.no_match sh prog hmatch fun x hx => hchosen x (hx.2 hlists)

theorem settled (hmatch : fl &&& SUB_MATCH = 0) (s p : Str) (st : σ) :
    Settled sh (sh.patcompile p PAT_HEAPDUP) fl replstr (alone sh (sh.patcompile p PAT_HEAPDUP)) s (igetmatch sh s p fl replstr st) := by
  rw [igetmatch]
  by_cases hall : fl &&& SUB_ALL ≠ 0
  · rw [if_pos hall]
    exact match_all_settled sh _ hmatch hall s st
  · rw [if_neg hall]
    rw [not_not] at hall
    by_cases hs : s = []
    · rw [if_pos hs, hs]
      exact match_empty_settled sh _ hmatch hall st
    · rw [if_neg hs]
      by_cases hlist : fl &&& SUB_LIST ≠ 0
      · rw [if_pos hlist]
        exact list_settled sh _ hall hs hlist st
      · rw [if_neg hlist]
        rw [not_not] at hlist
        have hnone : fl &&& (SUB_MATCH ||| SUB_LIST) = 0 := by
          rw [BitVec.and_or_distrib_left, hmatch, hlist]
          rfl
        by_cases hglobal : fl &&& SUB_GLOBAL ≠ 0 ∧ fl &&& SUB_START = 0 ∧ fl &&& SUB_END = 0 ∧
            fl &&& (SUB_MATCH ||| SUB_LIST) = 0
        · rw [if_pos hglobal]
          exact replace_all_settled sh _ ⟨⟨hall, hglobal.2.1, hglobal.2.2.1⟩, hs, hlist, hglobal.1⟩ st
        · rw [if_neg hglobal]
          refine one_match_settled sh _ hmatch hall hs hlist (fun h => hglobal ?_) st
          exact ⟨h.2.2.2, h.1.start, h.1.tail, hnone⟩

theorem dosubst_masked {k : Flags} (hk : SUB_DOSUBST &&& k = 0) (fl : Flags) :
    (fl ||| SUB_DOSUBST) &&& k = fl &&& k := by
  rw [BitVec.and_or_distrib_right, hk]
  exact BitVec.or_zero

theorem counts_dosubst {s : Str} (x : Span s) : Counts (fl ||| SUB_DOSUBST) x ↔ Counts fl x := by
  have hall := @dosubst_masked SUB_ALL (by decide) fl
  have hlist := @dosubst_masked SUB_LIST (by decide) fl
  have hsub := @dosubst_masked SUB_SUBSTR (by decide) fl
  have hstart := @dosubst_masked SUB_START (by decide) fl
  have hend := @dosubst_masked SUB_END (by decide) fl
  simp only [Counts, Lists, Allowed, hall, hlist, hsub, hstart, hend]

theorem compgetmatch_flags {pat : Str} {st st' : σ} {p : Patprog} {fl' : Flags} {replstr' : Option Str}
    (h : compgetmatch sh pat fl replstr st = (some (p, fl', replstr'), st')) : fl' = fl ∨ fl' = fl ||| SUB_DOSUBST := by
  rw [compgetmatch] at h
  split at h
  · cases h
  · split at h
    · cases h
      exact .inl rfl
    · split at h
      · cases h
        exact .inr rfl
      · cases h
        exact .inl rfl

/-- Under `SUB_RETFAIL` the status of `getmatch` tells whether a span matches. -/
theorem getmatch_tells (hmatch : fl &&& SUB_MATCH = 0) (hall : fl &&& SUB_ALL = 0) (hfail : fl &&& SUB_RETFAIL ≠ 0)
    {sp pat : Str} {st : σ} (hpat : (compgetmatch sh pat fl replstr st).1 ≠ none) :
    (getmatch sh sp pat fl replstr st).status = 1 ↔
      ∃ x : Span sp, Counts fl x ∧ tried sh (sh.patcompile pat PAT_HEAPDUP) x.text = true := by
  rw [getmatch]
  split
  next heq => exact absurd (congrArg Prod.fst heq) hpat
  next p fl' replstr' st' heq =>
    have hsame (k : Flags) (hk : SUB_DOSUBST &&& k = 0) : fl' &&& k = fl &&& k := by
      obtain rfl | rfl := compgetmatch_flags sh heq
      · rfl
      · exact dosubst_masked hk fl
    have hcounts (x : Span sp) : Counts fl' x ↔ Counts fl x := by
      obtain rfl | rfl := compgetmatch_flags sh heq
      · exact Iff.rfl
      · exact counts_dosubst x
    have hmatch' : fl' &&& SUB_MATCH = 0 := (hsame _ (by decide)).trans hmatch
    have hall' : fl' &&& SUB_ALL = 0 := (hsame _ (by decide)).trans hall
    have hfail' : fl' &&& SUB_RETFAIL ≠ 0 := by rwa [hsame _ (by decide)]
    obtain ⟨hsome, -, hstatus⟩ | ⟨hnone, -, hstatus⟩ := @settled Patprog σ sh fl' replstr' hmatch' sp pat st'
    · rw [if_pos (hstatus hall')]
      simp only [hcounts] at hsome
      exact iff_of_true rfl hsome
    · rw [if_neg (by rw [hstatus hall']; exact Nat.one_ne_zero), if_pos hfail']
      refine iff_of_false Nat.zero_ne_one ?_
      rintro ⟨x, hx, htried⟩
      cases (hnone x ((hcounts x).mpr hx)).symm.trans htried

/-- For every flag set without `SUB_MATCH` and every subject, replacement and pattern that asserts nothing of what
stands around a text, the subject is as it should be, and the status tells a match from none, that of `getmatch`
under `SUB_RETFAIL`. -/
theorem igetmatch_selects (hmatch : fl &&& SUB_MATCH = 0) (s p : Str) (st : σ) (at_ : Placed)
    (hfree : ∀ pre mid post, at_ pre mid post = tried sh (sh.patcompile p PAT_HEAPDUP) mid) :
    Settled sh (sh.patcompile p PAT_HEAPDUP) fl replstr at_ s (igetmatch sh s p fl replstr st) ∧
      (fl &&& SUB_ALL = 0 → fl &&& SUB_RETFAIL ≠ 0 → (compgetmatch sh p fl replstr st).1 ≠ none →
        ((getmatch sh s p fl replstr st).status = 1 ↔ ∃ x : Span s, Counts fl x ∧ at_.hits [] x = true)) := by
  obtain rfl : at_ = alone sh (sh.patcompile p PAT_HEAPDUP) := by
    funext pre mid post
    exact hfree pre mid post
  refine ⟨settled sh hmatch s p st, ?_⟩
  intro hall hfail hpat
  exact getmatch_tells sh hmatch hall hfail hpat

end Verdict

section Programs

open Pattern

def Star : Char := Char.ofNat 0xe187

/-- The program of a literal. -/
def literal_program (lit : Str) : Program := ⟨0, GF_MULTIBYTE, .branch :: literal_nodes [lit]⟩

/-- The shell with the matcher as it is, a compiler for literals and for a star, and no state. -/
def program_shell : Shell Program Unit where
  patcompile p _ :=
    if p = [Star] then some ⟨0, GF_MULTIBYTE, [.branch, .star, .pEnd]⟩ else some (literal_program p)
  pattry prog s := pattry prog utf8_tables (-1) (Lib.Utf8.encode s)
  refs _ := false
  matched _ _ st := st
  singsub r st := (r, st)
  untokenize r := r
  zerr _ st := st

/-- The program of a literal takes that literal alone. -/
theorem pattry_literal (tables : Tables) (lit s : Str) :
    pattry (literal_program lit) tables (-1) (Lib.Utf8.encode s) = true ↔ lit = s := by
  have hshape : shape (literal_program lit) = none := by
    simp [shape, literal_program, literal_nodes, skip_branch, skip_flags]
  have hfast : fast_path (literal_program lit) false 0 (Lib.Utf8.encode s) = none := by
    rw [fast_path, hshape]
    split <;> rfl
  have hanch : anchored ((literal_program lit).statics tables (-1) (Lib.Utf8.encode s)) = true := by
    simp [anchored, Program.statics, literal_program]
  have hrun := run_exact (budget 0 (by decide)) rfl hanch rfl
    (patmatch ((literal_program lit).statics tables (-1) (Lib.Utf8.encode s)) 127) [lit] s
  have hwalk : patmatch ((literal_program lit).statics tables (-1) (Lib.Utf8.encode s)) PATMATCH_MAX_DEPTH
      (literal_program lit).nodes (Lib.Utf8.encode s) 0 (literal_program lit).globflags =
        if lit = s then some ([], 0) else none := by
    rw [List.flatten_singleton] at hrun
    have hglob : (literal_program lit).globflags = GF_MULTIBYTE ||| BitVec.ofNat 32 0 := rfl
    rw [PATMATCH_MAX_DEPTH, patmatch, ← hrun, hglob, literal_program, run]
    simp [Node.notdot]
  have hflags : (literal_program lit).flags = 0 := rfl
  rw [pattry, pattryrefs, hfast, hflags, Program.walk, hwalk]
  by_cases h : lit = s <;> simp [h]

theorem letters_replaced :
    Settled program_shell (program_shell.patcompile ['a'] PAT_HEAPDUP) (SUB_LONG ||| SUB_SUBSTR ||| SUB_GLOBAL)
        (some ['b']) (fun _ mid _ => mid = ['a']) ['a', 'x', 'a']
        (igetmatch program_shell ['a', 'x', 'a'] ['a'] (SUB_LONG ||| SUB_SUBSTR ||| SUB_GLOBAL) (some ['b']) ()) ∧
      ((getmatch program_shell ['a', 'x', 'a'] ['a'] (SUB_LONG ||| SUB_SUBSTR ||| SUB_RETFAIL) (some ['b'])
          ()).status = 1 ↔
        ∃ x : Span ['a', 'x', 'a'], Counts (SUB_LONG ||| SUB_SUBSTR ||| SUB_RETFAIL) x ∧ x.text = ['a']) := by
  have hfree : ∀ pre mid post : Str, decide (mid = ['a']) =
      tried program_shell (program_shell.patcompile ['a'] PAT_HEAPDUP) mid := by
    intro _ mid _
    have hprog : program_shell.patcompile ['a'] PAT_HEAPDUP = some (literal_program ['a']) := rfl
    rw [hprog, tried, Option.any_some, Bool.eq_iff_iff, decide_eq_true_iff, eq_comm]
    exact (pattry_literal utf8_tables ['a'] mid).symm
  refine ⟨(igetmatch_selects program_shell (by decide) _ _ _ _ hfree).1, ?_⟩
  have hmatch : (SUB_LONG ||| SUB_SUBSTR ||| SUB_RETFAIL) &&& SUB_MATCH = 0 := by decide
  have hpat : (compgetmatch program_shell ['a'] (SUB_LONG ||| SUB_SUBSTR ||| SUB_RETFAIL) (some ['b']) ()).1 ≠ none :=
    Option.some_ne_none _
  have h := (igetmatch_selects program_shell hmatch ['a', 'x', 'a'] ['a'] () _ hfree).2 (by decide) (by decide) hpat
  simpa [Placed.hits] using h

/-- A star replaces an empty subject although it has no span that is not empty, and under `SUB_LIST` a subject
that matches stays. -/
theorem subject_kept : (igetmatch program_shell [] [Star] (SUB_LONG ||| SUB_SUBSTR) (some ['X']) ()).sp = ['X'] ∧
    (¬ ∃ x : Span ([] : Str), x.start < x.stop) ∧
    (igetmatch program_shell ['a'] ['a'] (SUB_LONG ||| SUB_SUBSTR ||| SUB_LIST) (some ['X']) ()).sp = ['a'] ∧
    tried program_shell (program_shell.patcompile ['a'] PAT_HEAPDUP) ['a'] = true := by
  refine ⟨by decide +kernel, ?_, by decide +kernel, by decide +kernel⟩
  rintro ⟨x, hx⟩
  exact absurd (Nat.lt_of_lt_of_le hx x.stop_le) (Nat.not_lt_zero _)

end Programs

end Zshrs.Glob.Igetmatch
