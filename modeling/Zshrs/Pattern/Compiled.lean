import Zshrs.Lib.Fuel
import Zshrs.Pattern.Approx
import Zshrs.Pattern.Chains
import Zshrs.Pattern.Patcompile

namespace Zshrs.Pattern

open Lib (Utf8.encode Utf8.encode_cons Utf8.encode_append Utf8.encode_ne_nil)
open Lib.Bytes Lib.Fuel

section Text

/-- What the compiler reads where flags, groups and exclusions are special, in a pattern of no file. -/
structure Extended (R : Reads) : Prop where
  hash : R.zpc_special .HASH = byte '#'
  inpar : R.zpc_special .INPAR = byte '('
  tilde : R.zpc_special .TILDE = byte '~'
  hat : R.zpc_special .HAT = byte '^'
  slash : R.zpc_special .SLASH ≠ byte '/'
  backslash : ∀ z, R.zpc_special z ≠ byte '\\'
  counts : ksh_count_active R = false

/-- A byte that is none of the quoted characters. -/
def Verbatim (b : UInt8) : Prop := ∀ c, metachar c = true → b ≠ byte c

def quoted (p : Str) : Str := p.flatMap fun c => if metachar c then ['\\', c] else [c]

theorem encode_metachar {c : Char} (hc : metachar c = true) :
    byte c < 0x80 ∧ String.utf8EncodeChar c = [byte c] := by
  have hall : ∀ c ∈ ['*', '?', '[', '(', ')', '|', '~', '^', '#', '<', '\\'],
      byte c < 0x80 ∧ String.utf8EncodeChar c = [byte c] :=
    List.all_iff_forall_prop.mp (by decide)
  rw [metachar, decide_eq_true_eq] at hc
  exact hall c hc

theorem verbatim_of_mem {c : Char} (hc : metachar c = false) {b : UInt8} (hb : b ∈ String.utf8EncodeChar c) :
    Verbatim b := by
  rintro d hd rfl
  obtain ⟨hascii, hd'⟩ := encode_metachar hd
  have hc' := Lib.Utf8.encode_char_of_ascii hascii hb
  have heq : Utf8.encode [c] = Utf8.encode [d] := by
    rw [Utf8.encode_cons, Utf8.encode_cons, hc', hd']
  cases Lib.Utf8.encode_injective heq
  rw [hc] at hd
  cases hd

theorem verbatim_encode {p : Str} (hp : ∀ c ∈ p, metachar c = false) : ∀ b ∈ Utf8.encode p, Verbatim b := by
  intro b hb
  obtain ⟨c, hc, hbc⟩ := List.mem_flatMap.mp hb
  exact verbatim_of_mem (hp c hc) hbc

variable {R : Reads}

theorem kshcharOf_plain {counted : Bool} {b : UInt8} {rest : Bytes} (hrest : rest.head? ≠ some (byte '(')) :
    kshcharOf R counted (b :: rest) = 0 := by
  unfold kshcharOf
  split
  · rename_i h
    cases h
    exact absurd rfl hrest
  · rfl

variable (hR : Extended R)

include hR

theorem literalEnds_verbatim {b : UInt8} {rest : Bytes} (hb : Verbatim b)
    (hrest : rest.head? ≠ some (byte '(')) : literalEnds R false b rest = false := by
  have hslash : ¬ (b = byte '/' ∧ R.zpc_special .SLASH = byte '/') := fun h => hR.slash h.2
  simp [literalEnds, endsAtTilde, hb '(' rfl, hb ')' rfl, hb '?' rfl, hb '*' rfl, hb '[' rfl, hb '|' rfl,
    hb '\\' rfl, hb '<' rfl, hb '^' rfl, hb '#' rfl, hb '~' rfl, hR.tilde, hR.slash, hR.counts,
    kshcharOf_plain hrest]

theorem literalRun_verbatim {run rest : Bytes} (hrun : ∀ b ∈ run, Verbatim b)
    (hrest : rest.head? = none ∨ rest.head? = some (byte '\\')) : literalRun R false (run ++ rest) = (run, rest) := by
  induction run with
  | nil =>
      cases rest with
      | nil => rfl
      | cons b rest =>
          obtain h | h := hrest
          · cases h
          · cases h
            rw [List.nil_append, literalRun, if_pos (by simp [literalEnds])]
  | cons b run ih =>
      rw [List.forall_mem_cons] at hrun
      have hhead : (run ++ rest).head? ≠ some (byte '(') := by
        cases run with
        | nil =>
            rw [List.nil_append]
            obtain h | h := hrest <;> rw [h] <;> decide
        | cons d run =>
            rw [List.cons_append, List.head?_cons]
            exact fun h => hrun.2 d List.mem_cons_self '(' rfl (Option.some.inj h)
      have hgo : ¬ literalEnds R false b (run ++ rest) = true := by
        rw [literalEnds_verbatim hR hrun.1 hhead]
        exact Bool.false_ne_true
      rw [List.cons_append, literalRun, if_neg hgo, ih hrun.2]

theorem no_trailing_quantifier {rest : Bytes} (hrest : rest.head? = none ∨ rest.head? = some (byte '\\')) :
    has_trailing_quantifier R rest = false := by
  cases rest with
  | nil => simp [has_trailing_quantifier, byte]
  | cons b rest =>
      obtain h | h := hrest
      · cases h
      · cases h
        have hat : ¬ byte '\\' = R.zpc_special .KSH_AT := fun h => hR.backslash _ h.symm
        have hhash : ¬ byte '\\' = byte '#' := by decide
        have hinpar : ¬ byte '\\' = byte '(' := by decide
        simp [has_trailing_quantifier, hat, hR.inpar, hhash, hinpar]

end Text

section Pieces

theorem getParse_run (s : Comp) : getParse s = .ok s.patparse s := rfl

theorem getOut_run (s : Comp) : getOut s = .ok s.patout s := rfl

theorem getGlobflags_run (s : Comp) : getGlobflags s = .ok s.patglobflags s := rfl

theorem setParse_run (text : Bytes) (s : Comp) : setParse text s = .ok () { s with patparse := text } := rfl

theorem patnodeWith_run (op : UInt8) (operand : Bytes) (s : Comp) :
    patnodeWith op operand s = .ok s.patout.length { s with patout := s.patout ++ nodeBytes op 0 operand } := by
  have hbytes : s.patout ++ nodeBytes op 0 operand = s.patout ++ [op, 0, 0, 0, 0] ++ operand := by
    rw [List.append_assoc]
    rfl
  rw [hbytes]
  rfl

theorem patnode_run (op : UInt8) (s : Comp) :
    patnode op s = .ok s.patout.length { s with patout := s.patout ++ nodeBytes op 0 [] } := rfl

def literalCode (lit : Bytes) : UInt8 × Bytes := (P_EXACTLY, toLE 4 lit.length ++ lit)

def Comp.behind (s : Comp) (lit rest : Bytes) : Comp :=
  { s with patparse := rest, patout := s.patout ++ nodeBytes P_EXACTLY 0 (literalCode lit).2 }

theorem exactly_run (lit : Bytes) (s : Comp) :
    exactly lit s = .ok s.patout.length { s with patout := s.patout ++ nodeBytes P_EXACTLY 0 (literalCode lit).2 } :=
  patnodeWith_run _ _ _

variable {R : Reads} {s : Comp}

theorem quantify_none {p : Piece} (hs : s.patparse.head? ≠ some (byte '#')) : quantify R 0 p s = .ok p s := by
  rw [quantify, bind_ok (getParse_run s)]
  have hno : ¬ (R.zpc_special .HASH = byte '#' ∧ s.patparse.head? = some (byte '#')) := fun h => hs h.2
  simp only [hno, not_false_eq_true, true_or, and_self, if_true]
  rfl

theorem literalAtom_run {run rest : Bytes} (hne : run ≠ []) (hrun : literalRun R false (run ++ rest) = (run, rest))
    (hquant : has_trailing_quantifier R rest = false) :
    ∃ flags, literalAtom R false (run ++ rest) s = .ok (onePiece s.patout.length flags true) (s.behind run rest) := by
  have hempty : run.isEmpty = false := by rwa [List.isEmpty_eq_false_iff]
  rw [literalAtom, hrun]
  simp only [hempty, hquant, Bool.and_false, Bool.false_eq_true, if_false, List.drop_left, List.take_length]
  rw [bind_ok (setParse_run _ _), bind_ok (getGlobflags_run _), bind_ok (exactly_run _ _)]
  exact ⟨_, rfl⟩

theorem patcomppiece_literal {b : UInt8} {run rest : Bytes} (fuel : Nat)
    (hksh : kshcharOf R false (b :: (run ++ rest)) = 0)
    (hb : ∀ c ∈ ['?', '*', '[', '(', '\\', '<'], b ≠ byte c)
    (hrun : literalRun R false (b :: run ++ rest) = (b :: run, rest))
    (hquant : has_trailing_quantifier R rest = false) (hrest : rest.head? ≠ some (byte '#'))
    (hs : s.patparse = b :: run ++ rest) :
    ∃ flags, patcomppiece R false false (fuel + 1) s =
      .ok (onePiece s.patout.length flags true) (s.behind (b :: run) rest) := by
  obtain ⟨flags, hatom⟩ := literalAtom_run (s := s) (List.cons_ne_nil b run) hrun hquant
  refine ⟨flags, ?_⟩
  rw [List.forall_mem_cons, List.forall_mem_cons, List.forall_mem_cons, List.forall_mem_cons, List.forall_mem_cons,
    List.forall_mem_singleton] at hb
  obtain ⟨hquest, hstar, hinbrack, hinpar, hbackslash, hinang⟩ := hb
  rw [patcomppiece, bind_ok (getParse_run s), hs, List.cons_append]
  simp only [hksh, ne_eq, not_true_eq_false, if_false, hquest, hstar, hinbrack, hinpar, hbackslash, hinang, false_and]
  rw [List.cons_append] at hatom
  rw [bind_ok hatom]
  exact quantify_none hrest

variable (hR : Extended R)

include hR

theorem kshcharOf_backslash {rest : Bytes} : kshcharOf R false (byte '\\' :: rest) = 0 := by
  unfold kshcharOf
  split
  · rename_i h
    cases h
    have hno z : ¬ byte '\\' = R.zpc_special z := fun h => hR.backslash z h.symm
    simp [hno]
  · rfl

theorem patcomppiece_escaped {b : UInt8} {rest : Bytes} {fuel : Nat} (hrest : rest.head? ≠ some (byte '#'))
    (hs : s.patparse = byte '\\' :: b :: rest) :
    patcomppiece R false false (fuel + 1) s =
      .ok (onePiece s.patout.length P_SIMPLE true) (s.behind [b] rest) := by
  have hno (c : Char) (hc : c ∈ ['?', '*', '[', '(']) : ¬ byte '\\' = byte c := by
    revert c
    exact List.all_iff_forall_prop.mp (by decide)
  have hatom : escapedAtom (b :: rest) s = .ok (onePiece s.patout.length P_SIMPLE true) (s.behind [b] rest) := by
    rw [escapedAtom, bind_ok (setParse_run _ _), bind_ok (exactly_run _ _)]
    rfl
  rw [patcomppiece, bind_ok (getParse_run s), hs]
  simp only [kshcharOf_backslash hR, ne_eq, not_true_eq_false, if_false, hno '?' (by simp), hno '*' (by simp),
    hno '[' (by simp), hno '(' (by simp), false_and, if_true, List.tail_cons]
  rw [bind_ok hatom]
  exact quantify_none hrest

end Pieces

section Branches

/-- Where `patcompbranch` stands behind a chain from `off` on. -/
structure Chained (B : Branch) (off : Nat) (codes : List (UInt8 × Bytes)) : Prop where
  uncounted : B.pending_count = none
  start : B.chain_start = if codes = [] then none else some off
  tail : B.tail? = if codes = [] then none else some (tailOf off codes)

theorem chained_init (off : Nat) : Chained .init off [] := ⟨rfl, rfl, rfl⟩

theorem add_run {B : Branch} {pre : Bytes} {codes : List (UInt8 × Bytes)} (hB : Chained B pre.length codes)
    (code : UInt8 × Bytes) (flags : Flags) (isOpen : Bool) {s : Comp}
    (hs : s.patout = pre ++ (chainBytes pre.length 0 codes ++ nodeBytes code.1 0 code.2)) :
    ∃ B', B.add (onePiece (behindOf pre.length codes) flags isOpen) s =
        .ok B' { s with patout := pre ++ chainBytes pre.length 0 (codes ++ [code]) } ∧
      Chained B' pre.length (codes ++ [code]) := by
  have hlink : linkTail B.tail? (behindOf pre.length codes) s =
      .ok () { s with patout := pre ++ chainBytes pre.length 0 (codes ++ [code]) } := by
    by_cases hne : codes = []
    · have hsame : s = { s with patout := pre ++ chainBytes pre.length 0 (codes ++ [code]) } := by
        rw [hne, List.nil_append, chainBytes, if_pos rfl, chainBytes, List.append_nil]
        rw [hne, chainBytes, List.nil_append] at hs
        rw [← hs]
      rw [hB.tail, if_pos hne, ← hsame]
      rfl
    · have hroom : tailOf pre.length codes + I_BODY ≤ s.patout.length := by
        have hle := tailOf_lt pre.length hne
        have hlen := chainBytes_length pre.length 0 codes
        rw [hs, List.length_append, List.length_append]
        omega
      rw [hB.tail, if_neg hne, linkTail, set_next, bind_ok (getOut_run s), if_pos hroom, hs,
        setNextOf_chain pre _ hne, ← chainBytes_append _ _ hne]
      rfl
  let n := behindOf pre.length codes
  refine ⟨{ B with
    chain_start := some (B.chain_start.getD n), last_tail := n, last_piece_off := some n, prev_chain_tail := B.tail?
    last_piece_flags := flags, flagp := B.flagp &&& flags }, ?run, hB.uncounted, ?start, ?tail⟩
  case run =>
    have hchain : B.chain n n s = .ok { B with chain_start := some (B.chain_start.getD n), last_tail := n }
        { s with patout := pre ++ chainBytes pre.length 0 (codes ++ [code]) } := by
      rw [Branch.chain, bind_ok hlink]
      rfl
    rw [Branch.add]
    simp only [onePiece]
    rw [bind_ok hchain]
    simp only [hB.uncounted]
    rfl
  case start =>
    simp only [hB.start, List.append_eq_nil_iff, List.cons_ne_nil, and_false, if_false]
    by_cases hne : codes = []
    · subst hne
      rfl
    · rw [if_neg hne, Option.getD_some]
  case tail =>
    simp only [List.append_eq_nil_iff, List.cons_ne_nil, and_false, if_false, tailOf_append]
    rfl

/-- Where the loop of `patcompbranch` hands over to `patcomppiece`. -/
structure Opens (R : Reads) (c : UInt8) (rest : Bytes) : Prop where
  bar : c ≠ byte '|'
  outpar : c ≠ byte ')'
  slash : ¬ (c = byte '/' ∧ R.zpc_special .SLASH = byte '/')
  tilde : endsAtTilde R c rest = false
  counted : ksh_count_active R = true → ksh93_count_prefix (c :: rest) = none
  counts : countSpec R (c :: rest) = none
  flags : flagSpec R (c :: rest) = none
  hat : ¬ (c = R.zpc_special .HAT ∧ c ≠ 0)

/-- What a piece of a quoted text starts with. -/
def Begins (c : UInt8) (rest : Bytes) : Prop :=
  c = byte '\\' ∨ Verbatim c ∧ rest.head? ≠ some (byte '(')

theorem Begins.ne {c : UInt8} {rest : Bytes} (h : Begins c rest) {d : Char} (hd : metachar d = true)
    (hne : byte d ≠ byte '\\') : c ≠ byte d := by
  obtain rfl | ⟨hc, -⟩ := h
  · exact hne.symm
  · exact hc d hd

variable {R : Reads} (hR : Extended R)

include hR

theorem countSpec_begins {c : UInt8} {rest : Bytes} (h : Begins c rest) : countSpec R (c :: rest) = none := by
  have hno := h.ne (d := '(') rfl (by decide)
  unfold countSpec
  split
  · rename_i heq
    cases heq
    rw [if_neg (by rw [hR.inpar]; exact fun h => hno h.1)]
  · rfl

theorem flagSpec_begins {c : UInt8} {rest : Bytes} (h : Begins c rest) : flagSpec R (c :: rest) = none := by
  have hno := h.ne (d := '(') rfl (by decide)
  have hplain : plain_form R (c :: rest) = false := by
    unfold plain_form
    split
    · rename_i heq
      cases heq
      rw [hR.inpar, decide_eq_false hno]
    · rfl
  have hat : at_form R (c :: rest) = false := by
    unfold at_form
    split
    · rename_i p _ heq
      cases heq
      obtain rfl | ⟨-, hrest⟩ := h
      · simp [(hR.backslash _).symm]
      · have hp : ¬ p = R.zpc_special .INPAR := by
          rw [hR.inpar]
          exact fun h => hrest (congrArg some h)
        simp [hp]
    · rfl
  rw [flagSpec, hplain, hat, Bool.or_false, Bool.and_false, if_neg Bool.false_ne_true]

theorem Begins.opens {c : UInt8} {rest : Bytes} (h : Begins c rest) : Opens R c rest where
  bar := h.ne (d := '|') rfl (by decide)
  outpar := h.ne (d := ')') rfl (by decide)
  slash := fun h => hR.slash h.2
  tilde := by simp [endsAtTilde, hR.tilde, h.ne (d := '~') rfl (by decide)]
  counted := by
    rw [hR.counts]
    nofun
  counts := countSpec_begins hR h
  flags := flagSpec_begins hR h
  hat := by
    rw [hR.hat]
    exact fun h' => h.ne (d := '^') rfl (by decide) h'.1

omit hR in
theorem pieces_step {B B' : Branch} (hB : B.pending_count = none) {s t u : Comp} {p : Piece} {c : UInt8}
    {rest : Bytes} {fuel : Nat} (hs : s.patparse = c :: rest) (hc : Opens R c rest)
    (hp : patcomppiece R false false fuel s = .ok p t) (hless : t.patparse.length < (c :: rest).length)
    (hadd : B.add p t = .ok B' u) : pieces R false B (fuel + 1) s = pieces R false B' fuel u := by
  have hstop : ¬ (c = byte '|' ∨ c = byte ')' ∨ (c = byte '/' ∧ R.zpc_special .SLASH = byte '/') ∨
      endsAtTilde R c rest = true) := by
    rw [hc.tilde]
    rintro (h | h | h | h)
    · exact hc.bar h
    · exact hc.outpar h
    · exact hc.slash h
    · cases h
  have hprefix : (if ksh_count_active R = true then ksh93_count_prefix (c :: rest) else none) = none := by
    split
    · exact hc.counted ‹_›
    · rfl
  rw [pieces, bind_ok (getParse_run s), hs]
  simp only [if_neg hstop, hB, Option.isSome_none, true_and, hprefix, hc.counts, hc.flags]
  rw [bind_ok (getGlobflags_run s), scanFlags, pure_bind]
  simp only [if_neg hc.hat]
  rw [bind_ok hp, bind_ok (getParse_run t), if_neg (Nat.not_le.mpr hless), bind_ok hadd]

omit hR in
/-- A piece that is linked into the chain. -/
theorem chain_step (pre : Bytes) {B : Branch} {codes : List (UInt8 × Bytes)} (hB : Chained B pre.length codes)
    (code : UInt8 × Bytes) {s : Comp} (hout : s.patout = pre ++ chainBytes pre.length 0 codes) {c : UInt8}
    {rest tail : Bytes} (hs : s.patparse = c :: rest) (hc : Opens R c rest) {flags : Flags} {isOpen : Bool} {fuel : Nat}
    (hp : patcomppiece R false false fuel s = .ok (onePiece s.patout.length flags isOpen)
      { s with patparse := tail, patout := s.patout ++ nodeBytes code.1 0 code.2 })
    (hless : tail.length < (c :: rest).length) :
    ∃ B', pieces R false B (fuel + 1) s = pieces R false B' fuel
        { s with patparse := tail, patout := pre ++ chainBytes pre.length 0 (codes ++ [code]) } ∧
      Chained B' pre.length (codes ++ [code]) := by
  have hlen : s.patout.length = behindOf pre.length codes := by
    rw [hout, List.length_append, chainBytes_length]
  rw [hlen] at hp
  obtain ⟨B', hadd, hB'⟩ := add_run hB code flags isOpen
    (s := { s with patparse := tail, patout := s.patout ++ nodeBytes code.1 0 code.2 }) (by
      rw [hout, List.append_assoc])
  exact ⟨B', pieces_step hB.uncounted hs hc hp hless hadd, hB'⟩

omit hR in
theorem pieces_end {B : Branch} {s : Comp} (hs : s.patparse = []) (fuel : Nat) :
    pieces R false B (fuel + 1) s = .ok B s := by
  rw [pieces, bind_ok (getParse_run s), hs]
  rfl

omit hR in
theorem branch_chain {B : Branch} {off : Nat} {codes : List (UInt8 × Bytes)} (hB : Chained B off codes)
    (hne : codes ≠ []) {s t : Comp} {fuel : Nat} (hrun : pieces R false .init fuel s = .ok B t) :
    ∃ r, patcompbranch R false (fuel + 1) s = .ok r t := by
  have hstart := hB.start
  rw [if_neg hne] at hstart
  rw [patcompbranch, bind_ok hrun]
  simp only [hstart]
  exact ⟨_, rfl⟩

end Branches

section Programs

variable {codes : List (UInt8 × Bytes)} (hne : codes ≠ []) (hsmall : behindOf I_BODY codes < 2 ^ 32)

/-- The program of one branch. -/
def programBytes (codes : List (UInt8 × Bytes)) : Bytes :=
  nodeBytes P_BRANCH 0 [] ++ (chainBytes I_BODY (behindOf I_BODY codes) codes ++ nodeBytes P_END 0 [])

include hne hsmall

theorem pattail_run {s : Comp} {post : Bytes} (val : Nat)
    (hout : s.patout = nodeBytes P_BRANCH 0 [] ++ (chainBytes I_BODY 0 codes ++ post)) :
    pattail I_BODY val s = .ok ()
      { s with patout := nodeBytes P_BRANCH 0 [] ++ (chainBytes I_BODY val codes ++ post) } := by
  have hlen : codes.length ≤ s.patout.length + 1 := by
    have hchain := length_le_chainBytes I_BODY 0 codes
    rw [hout, List.length_append, List.length_append]
    omega
  have hend := chainEnd_chain (nodeBytes P_BRANCH 0 []) post hne _ hsmall hlen (Nat.succ_pos _)
  have hset := setNextOf_chain (nodeBytes P_BRANCH 0 []) post hne 0 val
  rw [pattail, bind_ok (getOut_run s)]
  rw [nodeBytes_length, List.length_nil, Nat.add_zero, ← hout] at hend hset
  simp only [hend]
  rw [hset]
  rfl

/-- A text that is one branch is compiled to its chain between `P_BRANCH` and `P_END`. -/
theorem compileProgram_run {R : Reads} {text : Bytes} {globflags flags : Flags} {npar : Nat} {r : Nat × Flags}
    (hbranch : patcompbranch R false (5 * text.length + 3) ⟨text, nodeBytes P_BRANCH 0 [], globflags, flags, npar⟩ =
      .ok r ⟨[], nodeBytes P_BRANCH 0 [] ++ chainBytes I_BODY 0 codes, globflags, flags, npar⟩) :
    compileProgram R text ⟨text, [], globflags, flags, npar⟩ =
      .ok () ⟨[], programBytes codes, globflags, flags, npar⟩ := by
  have hswitch : ∃ bits changed, patcompswitch R false (fuelFor text) ⟨text, [], globflags, flags, npar⟩ =
      .ok ⟨0, bits, changed⟩ ⟨[], nodeBytes P_BRANCH 0 [] ++ chainBytes I_BODY 0 codes, globflags, flags, npar⟩ := by
    rw [fuelFor, patcompswitch, bind_ok (getGlobflags_run _), bind_ok (patnode_run _ _), List.nil_append,
      bind_ok hbranch]
    exact ⟨_, _, rfl⟩
  obtain ⟨bits, changed, hswitch⟩ := hswitch
  have hbody : I_BODY = (nodeBytes P_BRANCH 0 []).length := rfl
  have hlen : (nodeBytes P_BRANCH 0 [] ++ chainBytes I_BODY 0 codes).length = behindOf I_BODY codes := by
    rw [List.length_append, ← hbody, chainBytes_length]
  rw [compileProgram, bind_ok hswitch, bind_ok (patnode_run _ _), hlen, chain_branches_to, bind_ok (getOut_run _),
    chainBranches, Nat.zero_add]
  rw [bind_ok (pattail_run hne hsmall _ (by rw [List.append_assoc])), bind_ok (getOut_run _)]
  have hstands (rest : Bytes) : Stands (nodeBytes P_BRANCH 0 [] ++ rest) 0 (nodeBytes P_BRANCH 0 []) :=
    ⟨[], rest, rfl, rfl⟩
  have hroom (rest : Bytes) : I_BODY ≤ (nodeBytes P_BRANCH 0 [] ++ rest).length :=
    Nat.zero_add I_BODY ▸ end_nodeBytes (hstands rest)
  dsimp only
  rw [if_neg (Nat.not_lt.mpr (hroom _)), if_pos (link_nodeBytes (hstands _) (Nat.two_pow_pos 32))]
  rfl

theorem nodesAt_program {f : UInt8 × Bytes → Node} (hspells : ∀ code ∈ codes, Spells code (f code)) :
    nodesAt (programBytes codes) (codes.length + 2) 0 = some (.branch :: codes.map f ++ [.pEnd]) := by
  have hbranch := stands_zero (programBytes codes)
  have hchain := hbranch.right (q := I_BODY) rfl
  have hend := hchain.right (q := behindOf I_BODY codes) (chainBytes_length _ _ _).symm
  have hlast : nodesAt (programBytes codes) 1 (behindOf I_BODY codes) = some [.pEnd] := by
    rw [nodesAt, nodeAt_end hend]
  rw [nodesAt, nodeAt_branch hbranch.left, Nat.zero_add]
  simp only
  rw [nodesAt_chain hne hspells hchain.left hsmall hsmall hlast]
  rfl

end Programs

section Literals

/-- A literal that the compiler makes of a text: a quoted character, or a run of others. -/
inductive Literal : Str → Prop
  | escaped {c : Char} (hc : metachar c = true) : Literal [c]
  | run {l : Str} (hne : l ≠ []) (hl : ∀ c ∈ l, metachar c = false) : Literal l

def Apart (a b : Str) : Prop := ∃ ha hb, (!metachar (a.getLast ha) && !metachar (b.head hb)) = false

theorem plain_of_chain {c d : Char} {l : Str}
    (h : (c :: d :: l).IsChain fun c d => (!metachar c && !metachar d) = true) :
    ∀ x ∈ c :: d :: l, metachar x = false := by
  induction l generalizing c d with
  | nil =>
      rw [List.isChain_cons_cons] at h
      simpa using h.1
  | cons e l ih =>
      rw [List.isChain_cons_cons] at h
      have hc : metachar c = false := by
        have hpair := h.1
        rw [Bool.and_eq_true, Bool.not_eq_true', Bool.not_eq_true'] at hpair
        exact hpair.1
      exact List.forall_mem_cons.mpr ⟨hc, ih h.2⟩

theorem literal_of_mem {p l : Str} (h : l ∈ literals p) : Literal l := by
  have hne := List.ne_nil_of_mem_splitBy h
  have hchain := List.isChain_of_mem_splitBy h
  obtain ⟨c, l, rfl⟩ := List.exists_cons_of_ne_nil hne
  cases l with
  | nil =>
      cases hc : metachar c with
      | true => exact .escaped hc
      | false => exact .run hne (List.forall_mem_singleton.mpr hc)
  | cons d l => exact .run hne (plain_of_chain hchain)

theorem literals_apart (p : Str) : (literals p).IsChain Apart :=
  List.isChain_getLast_head_splitBy (fun c d => !metachar c && !metachar d) p

theorem quoted_run {l : Str} (hl : ∀ c ∈ l, metachar c = false) : quoted l = l := by
  induction l with
  | nil => rfl
  | cons c l ih =>
      rw [List.forall_mem_cons] at hl
      rw [quoted, List.flatMap_cons, if_neg (by simp [hl.1]), ← quoted, ih hl.2]
      rfl

theorem quoted_append (l m : Str) : quoted (l ++ m) = quoted l ++ quoted m := List.flatMap_append

theorem encode_escaped {c : Char} (hc : metachar c = true) : Utf8.encode (quoted [c]) = [byte '\\', byte c] := by
  rw [quoted, List.flatMap_singleton, if_pos hc, Utf8.encode_cons, Utf8.encode_cons, (encode_metachar hc).2]
  rfl

theorem quoted_head (p : Str) : ∀ b ∈ (Utf8.encode (quoted p)).head?, b = byte '\\' ∨ Verbatim b := by
  cases p with
  | nil => nofun
  | cons c p =>
      intro b hb
      have happ : c :: p = [c] ++ p := rfl
      rw [happ, quoted_append, Utf8.encode_append] at hb
      cases hc : metachar c with
      | true =>
          rw [encode_escaped hc] at hb
          exact .inl (Option.some.inj hb).symm
      | false =>
          obtain ⟨d, bytes, hd⟩ := List.exists_cons_of_ne_nil (Utf8.encode_ne_nil c)
          rw [quoted_run (List.forall_mem_singleton.mpr hc), Utf8.encode_cons, hd] at hb
          cases hb
          exact .inr (verbatim_of_mem hc (hd ▸ List.mem_cons_self))

/-- Behind a run the quoted text ends or goes on with a backslash. -/
theorem head_apart {l : Str} (hl : ∀ c ∈ l, metachar c = false) {ls : List Str} (h : (l :: ls).IsChain Apart) :
    (Utf8.encode (quoted ls.flatten)).head? = none ∨
      (Utf8.encode (quoted ls.flatten)).head? = some (byte '\\') := by
  cases ls with
  | nil => exact .inl rfl
  | cons m ls =>
      rw [List.isChain_cons_cons] at h
      obtain ⟨ha, hb, hpair⟩ := h.1
      obtain ⟨c, m, rfl⟩ := List.exists_cons_of_ne_nil hb
      rw [hl _ (List.getLast_mem ha), Bool.not_false, Bool.true_and, List.head_cons, Bool.not_eq_false'] at hpair
      have happ : ((c :: m) :: ls).flatten = [c] ++ (m ++ ls.flatten) := rfl
      rw [happ, quoted_append, Utf8.encode_append, encode_escaped hpair]
      exact .inr rfl

variable {R : Reads} (hR : Extended R)

include hR

theorem piece_run {l : Str} (hl : Literal l) {rest : Bytes} (fuel : Nat) {s : Comp}
    (hrest : rest.head? ≠ some (byte '#')) (hparen : rest.head? ≠ some (byte '('))
    (hapart : (∀ c ∈ l, metachar c = false) → rest.head? = none ∨ rest.head? = some (byte '\\'))
    (hs : s.patparse = Utf8.encode (quoted l) ++ rest) :
    (∃ flags, patcomppiece R false false (fuel + 1) s =
      .ok (onePiece s.patout.length flags true) (s.behind (Utf8.encode l) rest)) ∧
      ∃ c more, s.patparse = c :: more ∧ Begins c more ∧ rest.length < (c :: more).length := by
  cases hl with
  | @escaped c hc =>
      rw [encode_escaped hc] at hs
      refine ⟨⟨P_SIMPLE, ?_⟩, byte '\\', byte c :: rest, hs, .inl rfl, ?_⟩
      · have hone : Utf8.encode [c] = [byte c] := by
          rw [Utf8.encode_cons, (encode_metachar hc).2]
          rfl
        rw [hone]
        exact patcomppiece_escaped hR hrest hs
      · simp only [List.length_cons]
        omega
  | run hne hl =>
      rw [quoted_run hl] at hs
      have hbytes : Utf8.encode l ≠ [] := mt encode_eq_nil.mp hne
      have hverbatim := verbatim_encode hl
      have hliteral := literalRun_verbatim hR hverbatim (hapart hl)
      obtain ⟨b, bytes, hb⟩ := List.exists_cons_of_ne_nil hbytes
      rw [hb] at hs hverbatim hliteral ⊢
      rw [List.forall_mem_cons] at hverbatim
      have hhead : (bytes ++ rest).head? ≠ some (byte '(') := by
        cases bytes with
        | nil => exact hparen
        | cons d bytes => exact fun h => hverbatim.2 d List.mem_cons_self '(' rfl (Option.some.inj h)
      have hspecial : ∀ c ∈ ['?', '*', '[', '(', '\\', '<'], b ≠ byte c := by
        have hall : ∀ c ∈ ['?', '*', '[', '(', '\\', '<'], metachar c = true :=
          List.all_iff_forall_prop.mp (by decide)
        exact fun c hc => hverbatim.1 c (hall c hc)
      refine ⟨patcomppiece_literal fuel (kshcharOf_plain hhead) hspecial hliteral
        (no_trailing_quantifier hR (hapart hl)) hrest hs, b, bytes ++ rest, hs, .inr ⟨hverbatim.1, hhead⟩, ?_⟩
      simp only [List.length_cons, List.length_append]
      omega

def codesOf (ls : List Str) : List (UInt8 × Bytes) := ls.map fun l => literalCode (Utf8.encode l)

/-- The loop over a quoted text, literal by literal. -/
theorem pieces_run {ls : List Str} (hl : ∀ l ∈ ls, Literal l) (hchain : ls.IsChain Apart) {pre : Bytes}
    {codes : List (UInt8 × Bytes)} {B : Branch} (hB : Chained B pre.length codes) {s : Comp}
    (hparse : s.patparse = Utf8.encode (quoted ls.flatten))
    (hout : s.patout = pre ++ chainBytes pre.length 0 codes) (fuel : Nat) (hfuel : ls.length < fuel) :
    ∃ B', pieces R false B fuel s =
        .ok B' { s with patparse := [], patout := pre ++ chainBytes pre.length 0 (codes ++ codesOf ls) } ∧
      Chained B' pre.length (codes ++ codesOf ls) := by
  induction ls generalizing codes B s fuel with
  | nil =>
      obtain ⟨fuel, rfl⟩ : ∃ k, fuel = k + 1 := ⟨fuel - 1, by omega⟩
      have hnil : s.patparse = [] := hparse
      refine ⟨B, ?_, by rwa [codesOf, List.map_nil, List.append_nil]⟩
      have hsame : { s with patparse := [], patout := s.patout } = s := by rw [← hnil]
      rw [codesOf, List.map_nil, List.append_nil, ← hout, hsame]
      exact pieces_end hnil fuel
  | cons l ls ih =>
      rw [List.length_cons] at hfuel
      obtain ⟨fuel, rfl⟩ : ∃ k, fuel = k + 2 := ⟨fuel - 2, by omega⟩
      rw [List.forall_mem_cons] at hl
      rw [List.flatten_cons, quoted_append, Utf8.encode_append] at hparse
      have hhead := quoted_head ls.flatten
      have hno (c : Char) (hc : metachar c = true) (hne : byte c ≠ byte '\\') :
          (Utf8.encode (quoted ls.flatten)).head? ≠ some (byte c) := fun h =>
        (hhead _ h).elim hne fun hv => hv c hc rfl
      obtain ⟨⟨flags, hpiece⟩, c, more, hc, hbegins, hless⟩ := piece_run hR hl.1 fuel
        (hno '#' rfl (by decide)) (hno '(' rfl (by decide)) (fun hrun => head_apart hrun hchain) hparse
      obtain ⟨B', hstep, hB'⟩ := chain_step _ hB (literalCode (Utf8.encode l)) hout hc (hbegins.opens hR) hpiece hless
      obtain ⟨B'', hrun, hB''⟩ := ih hl.2 hchain.tail hB' (s := { s with
        patparse := Utf8.encode (quoted ls.flatten)
        patout := pre ++ chainBytes pre.length 0 (codes ++ [literalCode (Utf8.encode l)]) }) rfl rfl
        (fuel + 1) (by omega)
      have hcodes : codes ++ codesOf (l :: ls) = codes ++ [literalCode (Utf8.encode l)] ++ codesOf ls := by
        rw [List.append_assoc]
        rfl
      rw [hstep, hcodes]
      exact ⟨B'', hrun, hB''⟩

omit hR in
theorem literals_length (ls : List Str) (hl : ∀ l ∈ ls, Literal l) :
    ls.length ≤ (Utf8.encode (quoted ls.flatten)).length := by
  induction ls with
  | nil => exact Nat.zero_le _
  | cons l ls ih =>
      rw [List.forall_mem_cons] at hl
      have hpos : 0 < (Utf8.encode (quoted l)).length := by
        rw [List.length_pos_iff]
        cases hl.1 with
        | escaped hc => rw [encode_escaped hc]; exact List.cons_ne_nil _ _
        | run hne hrun => rw [quoted_run hrun]; exact mt encode_eq_nil.mp hne
      have hrest := ih hl.2
      rw [List.length_cons, List.flatten_cons, quoted_append, Utf8.encode_append, List.length_append]
      omega

def textCodes (p : Str) : List (UInt8 × Bytes) := if p = [] then [(P_NOTHING, [])] else codesOf (literals p)

omit hR in
theorem textCodes_ne (p : Str) : textCodes p ≠ [] := by
  by_cases hp : p = []
  · rw [textCodes, if_pos hp]
    exact List.cons_ne_nil _ _
  · rw [textCodes, if_neg hp]
    exact mt List.map_eq_nil_iff.mp (List.splitBy_ne_nil.mpr hp)

theorem branch_run (p : Str) (pre : Bytes) (s : Comp) (fuel : Nat) (hparse : s.patparse = Utf8.encode (quoted p))
    (hout : s.patout = pre) (hfuel : (literals p).length < fuel) :
    ∃ r, patcompbranch R false (fuel + 1) s =
      .ok r { s with patparse := [], patout := pre ++ chainBytes pre.length 0 (textCodes p) } := by
  rw [← literals_flatten p] at hparse
  obtain ⟨B, hrun, hB⟩ := pieces_run hR (fun l hl => literal_of_mem hl) (literals_apart p) (chained_init pre.length)
    hparse (by rw [hout, chainBytes, List.append_nil]) fuel hfuel
  rw [List.nil_append] at hrun hB
  by_cases hp : p = []
  · have hcodes : codesOf (literals p) = [] := by rw [hp]; rfl
    have hstart := hB.start
    rw [hcodes, if_pos rfl] at hstart
    rw [patcompbranch, bind_ok hrun]
    simp only [hstart, hcodes]
    rw [bind_ok (patnode_run _ _), textCodes, if_pos hp, chainBytes, List.append_nil, chainBytes, if_pos rfl,
      chainBytes, List.append_nil]
    exact ⟨_, rfl⟩
  · have hcodes : codesOf (literals p) ≠ [] := mt List.map_eq_nil_iff.mp (List.splitBy_ne_nil.mpr hp)
    rw [textCodes, if_neg hp]
    exact branch_chain hB hcodes hrun

theorem textBranch_run (p : Str) (globflags flags : Flags) (npar : Nat) :
    ∃ r, patcompbranch R false (5 * (Utf8.encode (quoted p)).length + 3)
      ⟨Utf8.encode (quoted p), nodeBytes P_BRANCH 0 [], globflags, flags, npar⟩ =
        .ok r ⟨[], nodeBytes P_BRANCH 0 [] ++ chainBytes I_BODY 0 (textCodes p), globflags, flags, npar⟩ := by
  have hlen : (literals p).length ≤ (Utf8.encode (quoted p)).length := by
    have h := literals_length (literals p) fun l hl => literal_of_mem hl
    rwa [literals_flatten] at h
  exact branch_run hR p _ ⟨_, _, globflags, flags, npar⟩ (5 * (Utf8.encode (quoted p)).length + 2) rfl rfl (by omega)

end Literals

section Program

variable {env : Env}

/-- What a compile of no file reads. -/
def readsOf (env : Env) : Reads := ⟨zpc_special env 0, env.isset .KSHGLOB, env.modes, env.mbrtowc⟩

/-- The tables of an environment in which flags, groups and exclusions are special. -/
structure ExtendedGlob (env : Env) : Prop where
  multibyte : env.isset .MULTIBYTE = true
  hash : patcompcharsset env .HASH = byte '#'
  inpar : patcompcharsset env .INPAR = byte '('
  tilde : patcompcharsset env .TILDE = byte '~'
  hat : patcompcharsset env .HAT = byte '^'
  counts : env.modes.ksh93_mode = false

/-- `(#a` and the digits, as the lexer spells them, and a text with its metacharacters quoted. -/
def approxSpelling (digits : Str) (p : Str) : Str :=
  Inpar :: '\ue184' :: 'a' :: (digits ++ Outpar :: p.flatMap fun c => if metachar c then [Bnull, c] else [c])

theorem extended (h : ExtendedGlob env) :
    Extended (readsOf env) where
  hash := h.hash
  inpar := h.inpar
  tilde := h.tilde
  hat := h.hat
  slash := by
    have hmask : zpc_special env 0 .SLASH = Marker := if_pos rfl
    exact ne_of_eq_of_ne hmask (by decide)
  backslash := by
    intro z h
    have hplain : zpc_chars z ≠ byte '\\' := by cases z <;> decide
    simp only [readsOf, zpc_special, patcompcharsset] at h
    split at h
    · exact absurd h (by decide)
    · split at h
      · exact absurd h (by decide)
      · exact hplain h
  counts := by rw [ksh_count_active, readsOf, h.counts, Bool.false_and]

theorem normalize_plain {modes : Modes} {n : Nat} {c : Char} {rest : Str} (hc : metachar c = false) (hmeta : c ≠ Meta)
    (htoken : is_token_char c = false) :
    normalize modes n false (c :: rest) = c :: normalize modes n false rest := by
  have hno (d : Char) (hd : is_token_char d = true) : c ≠ d := by
    rintro rfl
    rw [htoken] at hd
    cases hd
  have hrange : ¬ (0xe184 ≤ c.toNat ∧ c.toNat ≤ 0xe19e) := by
    intro h
    rw [is_token_char, Bool.and_eq_false_iff, decide_eq_false_iff_not, decide_eq_false_iff_not] at htoken
    omega
  have hquoted (d : Char) (hd : metachar d = true) : c ≠ d := by
    rintro rfl
    rw [hc] at hd
    cases hd
  rw [normalize.eq_def]
  simp only [hno Inbrack rfl, hno Outbrack rfl, hno Inpar rfl, hno Outpar rfl, hno Bnull rfl, hno Bnullkeep rfl,
    hno Nularg rfl, hmeta, hquoted '\\' rfl, if_false, decide_false, Bool.false_and, Bool.or_false, Bool.and_eq_true,
    decide_eq_true_eq, Bool.false_eq_true, hrange]
  have hlist : ∀ d ∈ ['*', '?', '[', '(', ')', '|', '~', '^', '#', '<'], metachar d = true :=
    List.all_iff_forall_prop.mp (by decide)
  rw [if_neg fun h => hquoted c (hlist c (List.contains_iff_mem.mp h)) rfl]

theorem normalize_quoted {modes : Modes} {p : Str} (hp : ∀ c ∈ p, c ≠ Meta ∧ is_token_char c = false) :
    normalize modes 0 false (p.flatMap fun c => if metachar c then [Bnull, c] else [c]) = quoted p := by
  induction p with
  | nil => rfl
  | cons c p ih =>
      rw [List.forall_mem_cons] at hp
      rw [quoted, List.flatMap_cons, List.flatMap_cons, ← quoted, ← ih hp.2]
      cases hc : metachar c with
      | true =>
          rw [if_pos rfl, if_pos rfl, List.cons_append, List.cons_append, List.nil_append, normalize.eq_def]
          rfl
      | false =>
          rw [if_neg Bool.false_ne_true, if_neg Bool.false_ne_true, List.cons_append, List.nil_append]
          exact normalize_plain hc hp.1.1 hp.1.2

theorem digit_plain {c : Char} (hc : c.isDigit = true) :
    metachar c = false ∧ c ≠ Meta ∧ is_token_char c = false := by
  refine ⟨?_, ?_, ?_⟩
  · have hno : ∀ d ∈ ['*', '?', '[', '(', ')', '|', '~', '^', '#', '<', '\\'], d.isDigit = false :=
      List.all_iff_forall_prop.mp (by decide)
    by_contra h
    rw [Bool.not_eq_false, metachar, decide_eq_true_eq] at h
    rw [hno c h] at hc
    cases hc
  · rintro rfl
    cases hc
  · have hle : c.toNat ≤ 57 := (Char.isDigit_iff_toNat.mp hc).2
    simp only [is_token_char, Bool.and_eq_false_iff, decide_eq_false_iff_not]
    omega

theorem normalize_digits {modes : Modes} {n : Nat} {digits rest : Str} (hd : ∀ c ∈ digits, c.isDigit = true) :
    normalize modes n false (digits ++ rest) = digits ++ normalize modes n false rest := by
  induction digits with
  | nil => rfl
  | cons c digits ih =>
      rw [List.forall_mem_cons] at hd
      obtain ⟨hc, hmeta, htoken⟩ := digit_plain hd.1
      rw [List.cons_append, normalize_plain hc hmeta htoken, ih hd.2, List.cons_append]

theorem normalize_approx {modes : Modes} {digits : Str} (hd : ∀ c ∈ digits, c.isDigit = true) (p : LiteralText) :
    normalize modes 0 false (approxSpelling digits p.chars) =
      '(' :: '#' :: 'a' :: (digits ++ ')' :: quoted p.chars) := by
  have hopen (rest : Str) : normalize modes 0 false (Inpar :: rest) = '(' :: normalize modes 1 false rest := by
    rw [normalize.eq_def]
    rfl
  have hpound (rest : Str) : normalize modes 1 false ('\ue184' :: rest) = '#' :: normalize modes 1 false rest := by
    rw [normalize.eq_def]
    simp +decide [Outbrack, ztokens]
  have hclose (rest : Str) : normalize modes 1 false (Outpar :: rest) = ')' :: normalize modes 0 false rest := by
    rw [normalize.eq_def]
    rfl
  rw [approxSpelling, hopen, hpound, normalize_plain (by decide) (by decide) (by decide), normalize_digits hd, hclose,
    normalize_quoted p.plain]

theorem run_digits {s : FlagScan} {digits rest : Str} (hd : ∀ c ∈ digits, c.isDigit = true) (count m : Nat)
    (hs : s.mode = .errs count (BitVec.ofNat 32 m)) :
    s.run (digits ++ rest) =
      { s with mode := .errs (count + digits.length) (BitVec.ofNat 32 (Nat.ofDigitChars 10 digits m)) }.run rest := by
  induction digits generalizing s count m with
  | nil =>
      rw [Nat.ofDigitChars_nil, List.length_nil, Nat.add_zero, ← hs]
      rfl
  | cons c digits ih =>
      rw [List.forall_mem_cons] at hd
      have hvalue : BitVec.ofNat 32 m * 10 + BitVec.ofNat 32 (c.toNat - 48) =
          BitVec.ofNat 32 (10 * m + (c.toNat - 48)) := by
        rw [BitVec.ofNat_add, BitVec.ofNat_mul, BitVec.mul_comm]
        rfl
      have hcount : count + (c :: digits).length = count + 1 + digits.length := by
        rw [List.length_cons]
        omega
      rw [List.cons_append, FlagScan.run, hs]
      simp only [hd.1, if_true, hvalue]
      rw [ih hd.2 (count + 1) _ rfl, hcount, Nat.ofDigitChars_cons]
      rfl

theorem errs_fit : ∀ n < 255, ¬ (BitVec.ofNat 32 n).toInt < 0 ∧ ¬ 254 < (BitVec.ofNat 32 n).toInt ∧
    BitVec.ofNat 32 n &&& 0xff = BitVec.ofNat 32 n := by
  decide +kernel

theorem patgetglobflags_approx (flags : Flags) {digits : Str} (rest : Str) (hd : ∀ c ∈ digits, c.isDigit = true)
    (hne : digits ≠ []) (hn : Nat.ofDigitChars 10 digits 0 < 255) :
    patgetglobflags flags ('a' :: (digits ++ ')' :: rest)) =
      ((flags &&& ~~~0xff) ||| BitVec.ofNat 32 (Nat.ofDigitChars 10 digits 0),
        some (BitVec.ofNat 32 (Nat.ofDigitChars 10 digits 0), 0, rest)) := by
  obtain ⟨hneg, hbig, hmask⟩ := errs_fit _ hn
  have hlen : 0 + digits.length ≠ 0 := by
    rw [Nat.zero_add, Ne, List.length_eq_zero_iff]
    exact hne
  have hstart : patgetglobflags flags ('a' :: (digits ++ ')' :: rest)) =
      FlagScan.run ⟨flags, 0, 0, .errs 0 (BitVec.ofNat 32 0)⟩ (digits ++ ')' :: rest) := rfl
  have hclose : (')' : Char).isDigit = false := rfl
  have hbits (x : Flags) : 0 &&& ~~~0xff ||| x = x := by simp
  rw [hstart, run_digits hd 0 0 rfl, FlagScan.run]
  simp only [hclose, Bool.false_eq_true, if_false, FlagScan.endErrs, hlen, decide_false, Bool.false_or, hneg, hbig,
    hmask, if_true, hbits]

theorem hoist_quoted (p : Str) (flags hoisted : Flags) :
    hoist (quoted p) flags hoisted = (quoted p, flags, hoisted) := by
  cases p with
  | nil =>
      rw [quoted, List.flatMap_nil, hoist]
      intro rest h
      cases h
  | cons c p =>
      have hhead : ∀ rest, quoted (c :: p) = '(' :: '#' :: rest → False := by
        intro rest h
        rw [quoted, List.flatMap_cons] at h
        split at h
        · cases h
        · rename_i hc
          obtain ⟨rfl, -⟩ := List.cons.inj h
          exact hc rfl
      rw [hoist]
      exact hhead

theorem approx_flags : ∀ n < 255,
    (GF_MULTIBYTE &&& ~~~0xff) ||| BitVec.ofNat 32 n = GF_MULTIBYTE ||| BitVec.ofNat 32 n ∧
      (let gmask := GF_IGNCASE ||| GF_LCMATCHUC ||| GF_BACKREF ||| GF_MATCHREF ||| GF_MULTIBYTE
      let hoisted := (GF_MULTIBYTE &&& ~~~gmask) ||| ((GF_MULTIBYTE ||| BitVec.ofNat 32 n) &&& gmask)
      (if BitVec.ofNat 32 n &&& 0xff != 0 then (hoisted &&& ~~~0xff) ||| (BitVec.ofNat 32 n &&& 0xff) else hoisted) =
        GF_MULTIBYTE ||| BitVec.ofNat 32 n) := by
  decide +kernel

theorem hoist_approx {digits : Str} (hd : ∀ c ∈ digits, c.isDigit = true) (hne : digits ≠ [])
    (hn : Nat.ofDigitChars 10 digits 0 < 255) (p : Str) :
    hoist ('(' :: '#' :: 'a' :: (digits ++ ')' :: quoted p)) GF_MULTIBYTE GF_MULTIBYTE =
      (quoted p, GF_MULTIBYTE ||| BitVec.ofNat 32 (Nat.ofDigitChars 10 digits 0),
        GF_MULTIBYTE ||| BitVec.ofNat 32 (Nat.ofDigitChars 10 digits 0)) := by
  obtain ⟨hflags, hhoisted⟩ := approx_flags _ hn
  have hscan := patgetglobflags_approx GF_MULTIBYTE (quoted p) hd hne hn
  rw [hflags] at hscan
  rw [hoist]
  split
  · rename_i h
    rw [hscan] at h
    cases h
    exact (hoist_quoted p _ _).trans (congrArg (fun hoisted => (quoted p, _, hoisted)) hhoisted)
  · rename_i hno h
    rw [hscan] at h
    cases h
    exact absurd rfl (hno _ _)

def nodeOf : UInt8 × Bytes → Node
  | (op, operand) => if op = P_NOTHING then .nothing else .exactly (operand.drop 4)

theorem nodeOf_literal (lit : Bytes) : nodeOf (literalCode lit) = .exactly lit := by
  have hop : ¬ P_EXACTLY = P_NOTHING := by decide
  rw [literalCode, nodeOf, if_neg hop, List.drop_left' (length_toLE 4 _)]

theorem nodes_textCodes (p : Str) : (textCodes p).map nodeOf =
    if p = [] then [.nothing] else (literals p).map (.exactly ∘ Utf8.encode) := by
  by_cases hp : p = []
  · rw [textCodes, if_pos hp, if_pos hp]
    rfl
  · rw [textCodes, if_neg hp, if_neg hp, codesOf, List.map_map]
    exact List.map_congr_left fun l _ => nodeOf_literal (Utf8.encode l)

theorem spells_textCodes {p : Str} (hsmall : behindOf I_BODY (textCodes p) < 2 ^ 32) :
    ∀ code ∈ textCodes p, Spells code (nodeOf code) := by
  intro code hcode
  have hlen := operand_le_behindOf I_BODY hcode
  by_cases hp : p = []
  · rw [textCodes, if_pos hp, List.mem_singleton] at hcode
    subst hcode
    exact spells_nothing
  · rw [textCodes, if_neg hp] at hcode
    obtain ⟨l, -, rfl⟩ := List.mem_map.mp hcode
    rw [literalCode, List.length_append, length_toLE] at hlen
    rw [nodeOf_literal]
    exact spells_exactly (by omega)

/-- The text is compiled to the program. -/
def Compiles (env : Env) (incoming : Flags) (text : Str) (inflags : Flags) (program : Program) : Prop :=
  ∃ prog left fuel, patcompile env incoming text inflags = some (some prog, left) ∧ prog.flags = program.flags ∧
    prog.globflags = program.globflags ∧ nodesAt prog.code fuel 0 = some program.nodes

/-- The flags that stay in a program. -/
def keptFlags (flags : Flags) : Flags := flags &&& (GF_MULTIBYTE ||| GF_IGNCASE ||| GF_LCMATCHUC ||| 0xff)

/-- A text that is compiled as one branch, behind its leading flags. -/
theorem compiles_branch (incoming : Flags) {text rest : Str} {running globflags : Flags} {r : Nat × Flags}
    {codes : List (UInt8 × Bytes)} (hne : codes ≠ []) (hsmall : behindOf I_BODY codes < 2 ^ 32)
    {f : UInt8 × Bytes → Node} (hspells : ∀ code ∈ codes, Spells code (f code)) (hspell : spell env text = text)
    (hhoist : (if zpc_special env 0 .HASH = byte '#' && zpc_special env 0 .INPAR = byte '(' then
        hoist (normalize env.modes 0 false text) (seededGlobflags env 0 incoming)
          (keptFlags (seededGlobflags env 0 incoming))
      else (normalize env.modes 0 false text, seededGlobflags env 0 incoming,
        keptFlags (seededGlobflags env 0 incoming))) = (rest, running, globflags))
    (hbranch : patcompbranch (readsOf env) false (5 * (Utf8.encode rest).length + 3)
        ⟨Utf8.encode rest, nodeBytes P_BRANCH 0 [], running, 0, 1⟩ =
      .ok r ⟨[], nodeBytes P_BRANCH 0 [] ++ chainBytes I_BODY 0 codes, running, 0, 1⟩) :
    Compiles env incoming text 0 ⟨0, globflags, .branch :: codes.map f ++ [.pEnd]⟩ := by
  have hflags : ((0 : Flags) &&& ~~~(PAT_PURES ||| PAT_HAS_EXCLUDP)) = 0 := rfl
  have hnofile : ((0 : Flags) &&& PAT_FILE != 0) = false := rfl
  rw [keptFlags] at hhoist
  rw [Compiles, patcompile, compileText, hspell, compileFrom]
  simp only [hhoist, hflags, hnofile, Bool.false_and, Bool.false_eq_true, if_false]
  rw [← readsOf, compileProgram_run hne hsmall hbranch]
  exact ⟨_, _, codes.length + 2, rfl, rfl, rfl, nodesAt_program hne hsmall hspells⟩

/-- `(#aN)` and a literal text, with its metacharacters quoted, are compiled to `approx_program`. -/
theorem approx_compiled (h : ExtendedGlob env) {digits : Str} (hd : ∀ c ∈ digits, c.isDigit = true)
    (hne : digits ≠ []) (hn : Nat.ofDigitChars 10 digits 0 < 255) (p : LiteralText)
    (hsmall : behindOf I_BODY (textCodes p.chars) < 2 ^ 32) (incoming : Flags) :
    Compiles env incoming (approxSpelling digits p.chars) 0 (approx_program (Nat.ofDigitChars 10 digits 0) p) := by
  have hspell : spell env (approxSpelling digits p.chars) = approxSpelling digits p.chars := if_pos h.multibyte
  have hseeded : seededGlobflags env 0 incoming = GF_MULTIBYTE := by
    have hfile : isFile 0 = false := rfl
    rw [seededGlobflags, hfile, if_neg Bool.false_ne_true, patcompstart, if_pos h.multibyte]
    split <;> rfl
  have hhash : zpc_special env 0 .HASH = byte '#' := h.hash
  have hinpar : zpc_special env 0 .INPAR = byte '(' := h.inpar
  have hkept : keptFlags GF_MULTIBYTE = GF_MULTIBYTE := rfl
  obtain ⟨r, hbranch⟩ := textBranch_run (extended h) p.chars
    (GF_MULTIBYTE ||| BitVec.ofNat 32 (Nat.ofDigitChars 10 digits 0)) 0 1
  have hprogram := compiles_branch incoming (textCodes_ne p.chars) hsmall (spells_textCodes hsmall) hspell
    (by
      rw [hhash, hinpar, hseeded, hkept, normalize_approx hd, hoist_approx hd hne hn]
      rfl) hbranch
  rwa [nodes_textCodes] at hprogram

/-- zsh with EXTENDED_GLOB and MULTIBYTE, in a UTF-8 locale. -/
def extendedEnv : Env where
  isset o := match o with | .EXTENDEDGLOB | .MULTIBYTE => true | _ => false
  zpc_disables _ := false
  modes := ⟨false, false, false, false, false⟩
  mbrtowc raw :=
    match Lib.Utf8.look raw with
    | .char c len => .char c.toNat (if c = '\x00' then 0 else len)
    | .incomplete => .incomplete
    | .invalid _ => .invalid

def text_quoted : LiteralText := ⟨"año*1".toList, List.all_iff_forall_prop.mp (by decide)⟩

/-- `(#a02)año\*1`, with three literals. -/
theorem quoted_compiled :
    Compiles extendedEnv GF_IGNCASE (approxSpelling ['0', '2'] text_quoted.chars) 0 (approx_program 2 text_quoted) :=
  approx_compiled ⟨rfl, rfl, rfl, rfl, rfl, rfl⟩ (List.all_iff_forall_prop.mp (by decide)) (by decide) (by decide)
    text_quoted (by decide) GF_IGNCASE

end Program

end Zshrs.Pattern
