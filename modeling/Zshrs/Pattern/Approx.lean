import Mathlib.Data.Bool.AllAny
import Mathlib.Data.List.SplitBy
import Zshrs.Lib.EditDistance
import Zshrs.Pattern.Patmatch

namespace Zshrs.Pattern

open Lib (Utf8.encode Utf8.text Utf8.textWithin_encode Utf8.look Utf8.look_encode Utf8.encode_cons
  Utf8.encode_ne_nil Utf8.encode_append Utf8.encode_prefix)
open Lib.EditDistance

/-- The characters that the compiler quotes, each as a literal of its own. -/
def metachar (c : Char) : Bool :=
  c ∈ ['*', '?', '[', '(', ')', '|', '~', '^', '#', '<', '\\']

/-- A text of characters that stand for themselves: none is a token or the `Meta` of a raw byte. -/
structure LiteralText where
  chars : Str
  plain : ∀ c ∈ chars, c ≠ Meta ∧ is_token_char c = false

/-- The literals that a text is compiled to. -/
def literals (p : Str) : List Str := p.splitBy fun c d => !metachar c && !metachar d

/-- The program of `(#aN)p`. -/
def approx_program (n : Nat) (p : LiteralText) : Program where
  flags := 0
  globflags := GF_MULTIBYTE ||| BitVec.ofNat 32 n
  nodes := .branch ::
    (if p.chars = [] then [.nothing] else (literals p.chars).map (.exactly ∘ Utf8.encode)) ++ [.pEnd]

/-- No metafied byte stands in the text. -/
def Unmetafied : Str → Prop
  | [] => True
  | c :: s => (c = Meta → ∀ d ∈ s.head?, d.toNat < 0x80) ∧ Unmetafied s

theorem encode_eq_nil {s : Str} : Utf8.encode s = [] ↔ s = [] := by
  cases s with
  | nil => simp [Utf8.encode]
  | cons c s => simp [Utf8.encode_cons, Utf8.encode_ne_nil c]

theorem encode_nil : Utf8.encode [] = [] := rfl

theorem encode_cons_ne_nil {c : Char} {s : Str} : Utf8.encode (c :: s) ≠ [] := by
  rw [Ne, encode_eq_nil]
  exact List.cons_ne_nil c s

theorem unmetafied_of_forall {s : Str} (h : ∀ c ∈ s, c ≠ Meta) : Unmetafied s := by
  induction s with
  | nil => trivial
  | cons c s ih =>
      rw [List.forall_mem_cons] at h
      exact ⟨fun hc => absurd hc h.1, ih h.2⟩

theorem Unmetafied.suffix {s t : Str} (h : Unmetafied s) (ht : t <:+ s) : Unmetafied t := by
  induction s with
  | nil => rwa [List.suffix_nil.mp ht]
  | cons c s ih =>
      obtain rfl | ht := List.suffix_cons_iff.mp ht
      · exact h
      · exact ih h.2 ht

section Units

variable {flags : Flags} (hflags : flags &&& GF_MULTIBYTE ≠ 0)

include hflags

theorem char_at_encode (c : Char) (s : Str) :
    char_at flags (Utf8.encode (c :: s)) = (c.toNat, (String.utf8EncodeChar c).length) := by
  obtain ⟨b, tail, hb⟩ := List.exists_cons_of_ne_nil (Utf8.encode_ne_nil c)
  have hlook := Utf8.look_encode c (Utf8.encode s)
  rw [Utf8.encode_cons, hb, List.cons_append] at *
  rw [char_at, if_pos hflags, hlook]

theorem char_front_encode (c : Char) (s : Str) : char_front flags (Utf8.encode (c :: s)) = c.toNat := by
  rw [char_front, char_at_encode hflags]

theorem char_rest_encode (c : Char) (s : Str) : char_rest flags (Utf8.encode (c :: s)) = Utf8.encode s := by
  rw [char_rest, char_at_encode hflags, Utf8.encode_cons, List.drop_left]

theorem charinc_encode (mbrtowc : Bytes → MbRet) {c : Char} {s : Str} (h : Unmetafied (c :: s)) :
    (Utf8.encode (c :: s)).drop (charinc mbrtowc flags (Utf8.encode (c :: s))) = Utf8.encode s := by
  have hwidth : charinc mbrtowc flags (Utf8.encode (c :: s)) = (String.utf8EncodeChar c).length := by
    rw [charinc, Utf8.text, Utf8.textWithin_encode _ (Nat.le_refl _), String.length_utf8EncodeChar]
    · rw [decide_eq_true hflags]
      dsimp only
      rw [assemble.eq_def]
      by_cases hc : c = Meta
      · cases s with
        | nil => exact if_pos hc
        | cons d s => exact (if_pos hc).trans (if_neg (Nat.not_le.mpr (h.1 hc d rfl)))
      · exact if_neg hc
    · exact fun hnil => by simp [encode_eq_nil] at hnil
  rw [hwidth, Utf8.encode_cons, List.drop_left]

end Units

/-- The flags in force: characters as they are, and a budget of `n` errors. -/
structure Budget (flags : Flags) (n : Nat) : Prop where
  multibyte : flags &&& GF_MULTIBYTE ≠ 0
  igncase : flags &&& GF_IGNCASE = 0
  lcmatchuc : flags &&& GF_LCMATCHUC = 0
  case_flags : flags &&& (GF_IGNCASE ||| GF_LCMATCHUC) = 0
  errors : (flags &&& 0xff).toNat = n

theorem budget : ∀ n < 255, Budget (GF_MULTIBYTE ||| BitVec.ofNat 32 n) n := by
  have masks : ∀ n < 255, (GF_MULTIBYTE ||| BitVec.ofNat 32 n) &&& GF_MULTIBYTE ≠ 0 ∧
      (GF_MULTIBYTE ||| BitVec.ofNat 32 n) &&& GF_IGNCASE = 0 ∧
      (GF_MULTIBYTE ||| BitVec.ofNat 32 n) &&& GF_LCMATCHUC = 0 ∧
      (GF_MULTIBYTE ||| BitVec.ofNat 32 n) &&& (GF_IGNCASE ||| GF_LCMATCHUC) = 0 ∧
      ((GF_MULTIBYTE ||| BitVec.ofNat 32 n) &&& 0xff).toNat = n := by decide +kernel
  intro n hn
  obtain ⟨h₁, h₂, h₃, h₄, h₅⟩ := masks n hn
  exact ⟨h₁, h₂, h₃, h₄, h₅⟩

section Walk

variable {env : Statics} {flags : Flags} {max_errs : Nat} (hb : Budget flags max_errs) (hforce : env.forceerrs = -1)

include hb in
theorem charmatch_iff {c d : Char} : charmatch env flags c.toNat d.toNat = true ↔ c = d := by
  rw [charmatch, if_neg (not_not.mpr hb.igncase), if_neg (not_not.mpr hb.lcmatchuc), Bool.or_false,
    decide_eq_true_iff]
  exact ⟨Char.toNat_inj.mp, congrArg _⟩

include hforce in
theorem spare_iff {errs : Nat} : spare env max_errs errs = true ↔ errs < max_errs := by
  simp [spare, hforce]

theorem walk_mismatch {next : Bytes → Nat → Option Reach} {p s : Bytes} {errs : Nat} (hp : p ≠ []) (hs : s ≠ [])
    (hne : ¬ charmatch env flags (char_front flags s) (char_front flags p) = true)
    (hspare : spare env max_errs errs = true) : walk env flags max_errs next p s errs =
      (walk env flags max_errs next p (char_rest flags s) (errs + 1)).or
        ((if char_rest flags s ≠ [] ∧ char_rest flags p ≠ [] then
          if (charmatch env flags (char_front flags s) (char_front flags (char_rest flags p)) &&
              charmatch env flags (char_front flags (char_rest flags s)) (char_front flags p)) = true then
            walk env flags max_errs next (char_rest flags (char_rest flags p))
              (char_rest flags (char_rest flags s)) (errs + 1)
          else none
        else none).or
          ((walk env flags max_errs next (char_rest flags p) (char_rest flags s) (errs + 1)).or
            (walk env flags max_errs next (char_rest flags p) s (errs + 1)))) := by
  rw [walk.eq_def, dif_neg hp, dif_neg hs, if_neg hne, if_pos hspare]
  rfl

include hb hforce

/-- On texts the walk is the greedy search, with the errors still allowed as the edits to spend. -/
theorem walk_eq_search (next : Bytes → Nat → Option Reach) (p s : Str) {errs : Nat}
    (herrs : errs ≤ max_errs) : walk env flags max_errs next (Utf8.encode p) (Utf8.encode s) errs =
      search (fun s n => next (Utf8.encode s) (max_errs - n)) p s (max_errs - errs) := by
  generalize hn : max_errs - errs = n
  induction p, s, n using search.induct generalizing errs with
  | case1 s n =>
      have hspent : max_errs - n = errs := by omega
      rw [search, walk.eq_def, dif_pos encode_nil, hspent]
  | case2 a p =>
      rw [search, walk.eq_def, dif_neg encode_cons_ne_nil, dif_pos encode_nil, if_neg]
      rw [spare_iff hforce]
      omega
  | case3 a p n ih =>
      rw [search, walk.eq_def, dif_neg encode_cons_ne_nil, dif_pos encode_nil,
        if_pos ((spare_iff hforce).mpr (by omega)), char_rest_encode hb.multibyte]
      exact ih (by omega) (by omega)
  | case4 p a s n ih =>
      rw [search_keep, walk.eq_def, dif_neg encode_cons_ne_nil, dif_neg encode_cons_ne_nil,
        char_front_encode hb.multibyte, char_front_encode hb.multibyte, if_pos ((charmatch_iff hb).mpr rfl),
        char_rest_encode hb.multibyte, char_rest_encode hb.multibyte]
      exact ih herrs hn
  | case5 a p b s hba =>
      rw [search_mismatch_zero hba, walk.eq_def, dif_neg encode_cons_ne_nil, dif_neg encode_cons_ne_nil,
        char_front_encode hb.multibyte, char_front_encode hb.multibyte, if_neg (mt (charmatch_iff hb).mp hba), if_neg]
      rw [spare_iff hforce]
      omega
  | case6 a p b s hba n ihinsert ihswap ihreplace ihdelete =>
      have hne : ¬ charmatch env flags (char_front flags (Utf8.encode (b :: s)))
          (char_front flags (Utf8.encode (a :: p))) = true := by
        rw [char_front_encode hb.multibyte, char_front_encode hb.multibyte]
        exact mt (charmatch_iff hb).mp hba
      rw [walk_mismatch encode_cons_ne_nil encode_cons_ne_nil hne ((spare_iff hforce).mpr (by omega)),
        char_rest_encode hb.multibyte, char_rest_encode hb.multibyte, ihinsert (by omega) (by omega),
        ihreplace (by omega) (by omega), ihdelete (by omega) (by omega),
        search_mismatch hba]
      congr 2
      cases p with
      | nil => simp [encode_nil]
      | cons c p =>
          cases s with
          | nil => simp [encode_nil]
          | cons d s =>
              have hswap := @ihswap (errs + 1) (by omega) (by omega)
              simp only [if_pos (And.intro encode_cons_ne_nil encode_cons_ne_nil), char_front_encode hb.multibyte,
                char_rest_encode hb.multibyte, Bool.and_eq_true, charmatch_iff hb, hswap]

end Walk

section Program

variable {env : Statics} {flags : Flags} {max_errs : Nat} (hb : Budget flags max_errs) (hforce : env.forceerrs = -1)
  (hanch : anchored env = true)

include hb hforce hanch

/-- At the end of the program every character left costs an error and a frame. -/
theorem patmatch_end {s : Str} (hs : Unmetafied s) {frames errs : Nat} (herrs : errs ≤ max_errs) :
    patmatch env (frames + 1) [.pEnd] (Utf8.encode s) errs flags =
      if s.length ≤ frames ∧ errs + s.length ≤ max_errs then some ([], errs + s.length) else none := by
  induction s generalizing frames errs with
  | nil => simp [patmatch, run, Node.notdot, encode_nil, herrs]
  | cons c s ih =>
      have hstep : patmatch env (frames + 1) [.pEnd] (Utf8.encode (c :: s)) errs flags =
          if errs < max_errs then patmatch env frames [.pEnd] (Utf8.encode s) (errs + 1) flags else none := by
        rw [patmatch, run]
        simp only [Node.notdot, Bool.and_false, Bool.false_and, Bool.false_eq_true, if_false, hanch,
          charinc_encode hb.multibyte env.mbrtowc hs, hb.errors]
        rw [if_pos (by simp [encode_cons_ne_nil])]
        simp only [spare_iff hforce]
      rw [hstep, List.length_cons]
      by_cases hlt : errs < max_errs
      · rw [if_pos hlt]
        cases frames with
        | zero =>
            rw [patmatch, if_neg]
            omega
        | succ frames =>
            rw [ih hs.2 (by omega)]
            congr 1
            · simp only [eq_iff_iff]
              omega
            · rw [Nat.add_assoc, Nat.add_comm 1]
      · rw [if_neg hlt, if_neg]
        omega

/-- The nodes of a row of literals up to the end. -/
def literal_nodes (ps : List Str) : List Node := ps.map (.exactly ∘ Utf8.encode) ++ [.pEnd]

omit hanch in
theorem patmatch_literal (hmax : 0 < max_errs) (p : Str) (ps : List Str) (s : Str) {frames errs : Nat}
    (herrs : errs ≤ max_errs) :
    patmatch env (frames + 1) (literal_nodes (p :: ps)) (Utf8.encode s) errs flags =
      search (fun s n => patmatch env frames (literal_nodes ps) (Utf8.encode s) (max_errs - n) flags) p s
        (max_errs - errs) := by
  have hmore : literal_nodes ps ≠ [] := by simp [literal_nodes]
  have hsearch := walk_eq_search hb hforce (fun s errs => patmatch env frames (literal_nodes ps) s errs flags)
    p s herrs
  rw [← hsearch, patmatch, literal_nodes, List.map_cons, List.cons_append, Function.comp_apply, run]
  simp only [Node.notdot, Bool.and_false, Bool.false_and, Bool.false_eq_true, if_false, hb.errors, if_pos hmax]
  rw [← literal_nodes]
  simp only [if_neg hmore]

/-- What the literals match, an alignment with the errors still allowed leads to. -/
theorem patmatch_sound (hmax : 0 < max_errs) {ps : List Str} {s : Str} (hs : Unmetafied s) {frames errs : Nat}
    (herrs : errs ≤ max_errs) (h : (patmatch env frames (literal_nodes ps) (Utf8.encode s) errs flags).isSome) :
    ∃ k ≤ max_errs - errs, Within ps s k := by
  induction ps generalizing s frames errs with
  | nil =>
      cases frames with
      | zero => cases h
      | succ frames =>
          have hend : s.length ≤ frames ∧ errs + s.length ≤ max_errs := by
            by_contra hno
            rw [literal_nodes, List.map_nil, List.nil_append, patmatch_end hb hforce hanch hs herrs, if_neg hno] at h
            cases h
          exact ⟨s.length, by omega, within_nil.mpr rfl⟩
  | cons p ps ih =>
      cases frames with
      | zero => cases h
      | succ frames =>
          rw [patmatch_literal hb hforce hmax p ps s herrs] at h
          obtain ⟨s', m, hs', hdone, hm, hw⟩ := search_sound h
          obtain ⟨k, hk, hwithin⟩ := ih (hs.suffix hs') (by omega) hdone
          exact ⟨_, by omega, hw ps k hwithin⟩

/-- What an alignment leads to, the literals match, if the frames last. -/
theorem patmatch_complete (hmax : 0 < max_errs) {limit : Nat} {ps : List Str} {s : Str} (hs : Unmetafied s)
    {errs k : Nat} (herrs : errs ≤ max_errs) (h : Within ps s k) (hk : k ≤ max_errs - errs)
    (room : Room limit (max_errs - errs) ps.flatten.length s.length) :
    (patmatch env (ps.length + limit + 1) (literal_nodes ps) (Utf8.encode s) errs flags).isSome := by
  induction ps generalizing s errs k with
  | nil =>
      have hlen := within_nil.mp h
      simp only [Room, List.flatten_nil, List.length_nil] at room
      rw [literal_nodes, List.map_nil, List.nil_append, List.length_nil, Nat.zero_add,
        patmatch_end hb hforce hanch hs herrs, if_pos (by omega)]
      rfl
  | cons p ps ih =>
      rw [List.length_cons, Nat.add_right_comm ps.length, Nat.add_right_comm _ 1,
        patmatch_literal hb hforce hmax p ps s herrs]
      rw [List.flatten_cons, List.length_append] at room
      refine search_complete (fun t m k ht hm hw hkm hroom => ?_) h hk room
      have hback : max_errs - (max_errs - m) = m := by omega
      refine ih (hs.suffix ht) (Nat.sub_le _ _) hw ?_ ?_
      · rwa [hback]
      · rwa [hback]

omit hb hforce in
theorem patmatch_end_reach {frames errs : Nat} {s : Bytes} {r : Reach}
    (h : patmatch env frames [.pEnd] s errs flags = some r) : r.1 = [] := by
  induction frames generalizing s errs with
  | zero => cases h
  | succ frames ih =>
      rw [patmatch, run] at h
      simp only [Node.notdot, Bool.and_false, Bool.false_and, Bool.false_eq_true, if_false, hanch, Bool.and_true,
        decide_eq_true_eq] at h
      split at h
      · exact ih (Option.ite_none_right_eq_some.mp h).2
      next hs =>
        cases h
        exact not_not.mp hs

/-- The literals match to the end of the subject or not at all. -/
theorem patmatch_reach (hmax : 0 < max_errs) {ps : List Str} {s : Str} {frames errs : Nat}
    (herrs : errs ≤ max_errs) {r : Reach}
    (h : patmatch env frames (literal_nodes ps) (Utf8.encode s) errs flags = some r) : r.1 = [] := by
  induction ps generalizing s frames errs with
  | nil => exact patmatch_end_reach hanch h
  | cons p ps ih =>
      cases frames with
      | zero => cases h
      | succ frames =>
          rw [patmatch_literal hb hforce hmax p ps s herrs] at h
          obtain ⟨s', m, hdone⟩ := search_answer h
          exact ih (Nat.sub_le _ _) hdone

omit hforce hanch in
theorem exactly_at_iff {p s : Str} : exactly_at env flags (Utf8.encode p) (Utf8.encode s) = true ↔ p <+: s := by
  rw [exactly_at_plain hb.case_flags, Utf8.encode_prefix]

/-- Without a budget the literals are compared as they are. -/
theorem run_exact (hmax : max_errs = 0) (again : List Node → Bytes → Nat → Flags → Option Reach) (ps : List Str)
    (s : Str) : run env again (literal_nodes ps) (Utf8.encode s) 0 flags =
      if ps.flatten = s then some ([], 0) else none := by
  induction ps generalizing s with
  | nil =>
      rw [literal_nodes, List.map_nil, List.nil_append, run]
      simp only [Node.notdot, Bool.and_false, Bool.false_and, Bool.false_eq_true, if_false, hanch, Bool.and_true,
        decide_eq_true_eq]
      cases s with
      | nil => rfl
      | cons c s =>
          have hno : ¬ spare env (flags &&& 0xff).toNat 0 = true := by
            rw [hb.errors, hmax, spare_iff hforce]
            exact Nat.lt_irrefl 0
          rw [if_pos encode_cons_ne_nil, if_neg hno]
          rfl
  | cons p ps ih =>
      rw [literal_nodes, List.map_cons, List.cons_append, Function.comp_apply, run]
      simp only [Node.notdot, Bool.and_false, Bool.false_and, Bool.false_eq_true, if_false, hb.errors, hmax,
        Nat.lt_irrefl]
      rw [← literal_nodes]
      by_cases hp : p <+: s
      · obtain ⟨t, rfl⟩ := hp
        rw [if_pos ((exactly_at_iff hb).mpr (List.prefix_append p t)), Utf8.encode_append, List.drop_left, ih]
        simp only [List.flatten_cons, List.append_cancel_left_eq]
      · rw [if_neg (mt (exactly_at_iff hb).mp hp), if_neg]
        rintro rfl
        exact hp (List.prefix_append p ps.flatten)

end Program

theorem literals_flatten (p : Str) : (literals p).flatten = p := List.flatten_splitBy _ p

theorem literals_plain {p : Str} (hp : p ≠ []) (h : ∀ c ∈ p, metachar c = false) : literals p = [p] := by
  apply List.splitBy_of_isChain hp
  have hpairs : p.Pairwise fun c d => (!metachar c && !metachar d) = true :=
    List.pairwise_of_forall_mem_list fun c hc d hd => by rw [h c hc, h d hd]; rfl
  exact hpairs.isChain

theorem shape_approx (n : Nat) (p : LiteralText) : shape (approx_program n p) = none := by
  unfold shape approx_program
  by_cases hp : p.chars = []
  · rw [if_pos hp]
    exact ite_self _
  · obtain ⟨q, qs, hq⟩ := List.exists_cons_of_ne_nil (List.splitBy_ne_nil.mpr hp)
    rw [if_neg hp, literals, hq]
    simp [skip_branch, skip_flags]

section Try

variable (tables : Tables) {n : Nat}

theorem approx_anchored (n : Nat) (p : LiteralText) (s : Bytes) :
    anchored ((approx_program n p).statics tables (-1) s) = true := by
  simp [anchored, Program.statics, approx_program]

theorem patmatch_nodes (env : Statics) (p : LiteralText) (s : Bytes) (frames errs : Nat) (flags : Flags) :
    patmatch env (frames + 1) (approx_program n p).nodes s errs flags =
      patmatch env (frames + 1) (literal_nodes (literals p.chars)) s errs flags := by
  rw [patmatch, patmatch, approx_program]
  by_cases hp : p.chars = []
  · rw [if_pos hp, hp]
    simp [run, literal_nodes, literals, Node.notdot]
  · rw [if_neg hp, List.cons_append, run]
    simp [literal_nodes, Node.notdot]

/-- What a try of `(#aN)p` comes down to. -/
theorem pattry_approx (hn : n < 255) (p : LiteralText) (s : Str) :
    pattry (approx_program n p) tables (-1) (Utf8.encode s) =
      (patmatch ((approx_program n p).statics tables (-1) (Utf8.encode s)) PATMATCH_MAX_DEPTH
        (literal_nodes (literals p.chars)) (Utf8.encode s) 0 (GF_MULTIBYTE ||| BitVec.ofNat 32 n)).isSome := by
  have hfast : fast_path (approx_program n p) false 0 (Utf8.encode s) = none := by
    rw [fast_path, shape_approx]
    split <;> rfl
  have hflags : (approx_program n p).flags = 0 := rfl
  rw [pattry, pattryrefs, hfast, hflags, Program.walk, PATMATCH_MAX_DEPTH, patmatch_nodes]
  simp only [ne_eq, Option.getD_none]
  have hglob : (approx_program n p).globflags = GF_MULTIBYTE ||| BitVec.ofNat 32 n := rfl
  rw [hglob]
  cases h : patmatch ((approx_program n p).statics tables (-1) (Utf8.encode s)) (127 + 1)
    (literal_nodes (literals p.chars)) (Utf8.encode s) 0 (GF_MULTIBYTE ||| BitVec.ofNat 32 n) with
  | none => rfl
  | some r =>
      have hr : r.1 = [] := by
        obtain rfl | hpos := Nat.eq_zero_or_pos n
        · rw [patmatch, run_exact (budget 0 hn) rfl (approx_anchored tables _ p _) rfl] at h
          split at h
          · cases h; rfl
          · cases h
        · exact patmatch_reach (budget n hn) rfl (approx_anchored tables _ p _) hpos (Nat.zero_le n) h
      simp [hr]

theorem pattry_exact (p : LiteralText) (s : Str) :
    pattry (approx_program 0 p) tables (-1) (Utf8.encode s) = true ↔ p.chars = s := by
  rw [pattry_approx tables (by decide), PATMATCH_MAX_DEPTH, patmatch,
    run_exact (budget 0 (by decide)) rfl (approx_anchored tables _ p _) rfl, literals_flatten]
  split
  next h => simp [h]
  next h => simp [h]

/-- Characters are matched with at most `n` edits to the optimal string alignment, whatever is quoted, and
a literal without quoted characters is matched whenever there are, as long as the frames last. -/
theorem pattry_distance (hn : n ≤ 254) (p : LiteralText) {s : Str} (hs : Unmetafied s) :
    (pattry (approx_program n p) tables (-1) (Utf8.encode s) = true → distance p.chars s ≤ n) ∧
      ((∀ c ∈ p.chars, metachar c = false) → n ≤ 126 ∨ s.length ≤ 126 ∨ n + s.length ≤ p.chars.length + 253 →
        distance p.chars s ≤ n → pattry (approx_program n p) tables (-1) (Utf8.encode s) = true) := by
  have hb := budget n (by omega)
  obtain rfl | hpos := Nat.eq_zero_or_pos n
  · rw [pattry_exact, Nat.le_zero, distance_eq_zero]
    exact ⟨id, fun _ _ h => h⟩
  · rw [pattry_approx tables (by omega)]
    constructor
    · intro h
      obtain ⟨k, hk, hw⟩ := patmatch_sound hb rfl (approx_anchored tables _ p _) hpos hs (Nat.zero_le n) h
      have hedits := hw.edits
      rw [literals_flatten] at hedits
      exact (distance_le hedits).trans hk
    · intro hplain hroom hdist
      obtain ⟨k, hk, hedits⟩ := distance_le_iff.mp hdist
      have hwithin := hedits.within
      by_cases hp : p.chars = []
      · rw [hp] at hwithin hroom ⊢
        have hroom : Room 127 (n - 0) (([] : List Str).flatten.length) s.length := by
          simp only [Room, List.flatten_nil, List.length_nil] at hroom ⊢
          omega
        exact patmatch_complete hb rfl (approx_anchored tables _ p _) hpos hs (Nat.zero_le n)
          (within_next.mp hwithin) hk hroom
      · have hroom : Room 126 (n - 0) ([p.chars].flatten.length) s.length := by
          simp only [Room, List.flatten_cons, List.flatten_nil, List.append_nil] at hroom ⊢
          omega
        rw [literals_plain hp hplain]
        exact patmatch_complete hb rfl (approx_anchored tables _ p _) hpos hs (Nat.zero_le n) hwithin hk hroom

end Try

/-- The tables of a UTF-8 locale, with case as ASCII has it. -/
def utf8_tables : Tables where
  mbrtowc raw :=
    match Utf8.look raw with
    | .char c len => .len (if c = '\x00' then 0 else len)
    | .incomplete => .incomplete
    | .invalid _ => .invalid
  upper n := if 97 ≤ n && n ≤ 122 then n - 32 else n
  is_lower n := 97 ≤ n && n ≤ 122
  to_lowercase c := [c.toLower]
  other _ _ _ _ _ := none

def text_abc : LiteralText := ⟨"abc".toList, List.all_iff_forall_prop.mp (by decide)⟩

theorem swapped_found : pattry (approx_program 1 text_abc) utf8_tables (-1) (Utf8.encode "acb".toList) = true :=
  (pattry_distance utf8_tables (by decide) text_abc
    (unmetafied_of_forall (List.all_iff_forall_prop.mp (by decide)))).2 (List.all_iff_forall_prop.mp (by decide))
    (by decide)
    (distance_le (.keep 'a' (.swap 'b' 'c' .nil)))

def text_a : LiteralText := ⟨['a'], List.all_iff_forall_prop.mp (by decide)⟩
def text_star_a : LiteralText := ⟨['*', 'a'], List.all_iff_forall_prop.mp (by decide)⟩

/-- The frames give out on 127 characters too many, and characters of two literals are not swapped. -/
theorem pattry_no_distance :
    ¬ (pattry (approx_program 127 text_a) utf8_tables (-1) (Utf8.encode ('a' :: List.replicate 127 'x')) = true ↔
        distance text_a.chars ('a' :: List.replicate 127 'x') ≤ 127) ∧
      ¬ (pattry (approx_program 1 text_star_a) utf8_tables (-1) (Utf8.encode ['a', '*']) = true ↔
        distance text_star_a.chars ['a', '*'] ≤ 1) := by
  constructor
  · intro h
    have hdist : distance ['a'] ('a' :: List.replicate 127 'x') ≤ 127 :=
      distance_le (.keep 'a' (edits_nil_left (List.replicate 127 'x')))
    have hfound := h.mpr hdist
    have hs : Unmetafied (List.replicate 127 'x') :=
      unmetafied_of_forall fun c hc => List.eq_of_mem_replicate hc ▸ by decide
    have hone : literals text_a.chars = [['a']] := literals_plain (by decide) (List.all_iff_forall_prop.mp (by decide))
    have hb := budget 127 (by decide)
    have hanch := approx_anchored utf8_tables 127 text_a (Utf8.encode ('a' :: List.replicate 127 'x'))
    rw [pattry_approx utf8_tables (by decide), hone, PATMATCH_MAX_DEPTH,
      patmatch_literal hb rfl (by decide) _ _ _ (Nat.zero_le _), search_keep, search, literal_nodes, List.map_nil,
      List.nil_append, patmatch_end hb rfl hanch hs (by decide), if_neg (by simp)] at hfound
    cases hfound
  · intro h
    have hdist : distance ['*', 'a'] ['a', '*'] ≤ 1 := distance_le (.swap '*' 'a' .nil)
    have hfound := h.mpr hdist
    rw [pattry_approx utf8_tables (by decide)] at hfound
    obtain ⟨k, hk, hw⟩ := patmatch_sound (budget 1 (by decide)) rfl (approx_anchored utf8_tables _ _ _) Nat.one_pos
      (unmetafied_of_forall (List.all_iff_forall_prop.mp (by decide))) (Nat.zero_le 1) hfound
    have htwo : literals text_star_a.chars = [['*'], ['a']] := by decide
    have exact_ {ps : List Str} {s : Str} {m : Nat} (h : Within ps s m) (hm : m + 1 ≤ 1) : ps.flatten = s :=
      edits_zero.mp (Nat.le_zero.mp (Nat.le_of_succ_le_succ hm) ▸ h.edits)
    rw [htwo] at hw
    cases hw with
    | replace _ _ hw => exact absurd (exact_ hw hk) (by decide)
    | delete _ hw => exact absurd (exact_ hw hk) (by decide)
    | insert _ hw => exact absurd (exact_ hw hk) (by decide)

end Zshrs.Pattern
