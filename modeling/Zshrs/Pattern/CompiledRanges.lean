import Zshrs.Pattern.Compiled
import Zshrs.Pattern.Numrange

namespace Zshrs.Pattern

open Lib (Utf8.encode Utf8.encode_cons Utf8.encode_append Utf8.encode_ne_nil)
open Lib.Bytes Lib.Fuel

def rangeCode : Option Nat → Option Nat → UInt8 × Bytes
  | some lo, some hi => (P_NUMRNG, toLE 8 lo ++ toLE 8 hi)
  | none, some hi => (P_NUMTO, toLE 8 hi)
  | some lo, none => (P_NUMFROM, toLE 8 lo)
  | none, none => (P_NUMANY, [])

theorem length_rangeCode (lo hi : Option Nat) : (rangeCode lo hi).2.length ≤ 16 := by
  cases lo <;> cases hi <;> simp [rangeCode, length_toLE]

theorem number_nodeBytes {buf : Bytes} {p m : Nat} (hm : m ≤ I64_MAX) (h : Stands buf p (toLE 8 m)) :
    (getRange buf p 8).map ofLE = some m := by
  have hlt : m < 2 ^ (8 * 8) := Nat.lt_of_le_of_lt hm (by decide)
  rw [h.getRange (length_toLE 8 m).symm, Option.map_some, ofLE_toLE, Nat.mod_eq_of_lt hlt]

theorem spells_range {lo hi : Option Nat} (hlo : ∀ m ∈ lo, m ≤ I64_MAX) (hhi : ∀ m ∈ hi, m ≤ I64_MAX) :
    Spells (rangeCode lo hi) (range_node lo hi) := by
  intro buf p next hnext h
  have hbody := operand_nodeBytes h
  rw [nodeAt, op_nodeBytes h, Option.bind_eq_bind, Option.bind_some, link_nodeBytes h hnext]
  cases lo with
  | none =>
      cases hi with
      | none => rfl
      | some hi =>
          have hnum := number_nodeBytes (hhi hi rfl) hbody
          simp [rangeCode, range_node, hnum, P_NUMTO, P_NUMFROM, P_NUMRNG, P_END, P_BRANCH, P_NOTHING, P_EXACTLY]
  | some lo =>
      cases hi with
      | none =>
          have hnum := number_nodeBytes (hlo lo rfl) hbody
          simp [rangeCode, range_node, hnum, P_NUMFROM, P_NUMRNG, P_END, P_BRANCH, P_NOTHING, P_EXACTLY]
      | some hi =>
          have hfirst := number_nodeBytes (hlo lo rfl) hbody.left
          have hsecond := number_nodeBytes (hhi hi rfl) (hbody.right (q := p + I_BODY + 8) (by rw [length_toLE]))
          simp [rangeCode, range_node, hfirst, hsecond, P_NUMRNG, P_END, P_BRANCH, P_NOTHING, P_EXACTLY]

theorem decimal_eq (text : Bytes) : decimal text = BitVec.ofNat 64 (number (text.takeWhile is_ascii_digit)) := by
  have hfold (a : Bytes) (n : Nat) :
      a.foldl (fun n b => n * 10 + BitVec.ofNat 64 (b.toNat - 48)) (BitVec.ofNat 64 n) =
        BitVec.ofNat 64 ((digits a).foldl (fun v d => v * 10 + d) n) := by
    induction a generalizing n with
    | nil => rfl
    | cons b a ih =>
        have hstep : BitVec.ofNat 64 n * 10 + BitVec.ofNat 64 (b.toNat - 48) =
            BitVec.ofNat 64 (n * 10 + digit b) := by
          rw [BitVec.ofNat_add, BitVec.ofNat_mul]
          rfl
        rw [List.foldl_cons, hstep, ih, digits_cons, List.foldl_cons]
  exact hfold _ 0

theorem parse_bound_eq {n m : Nat} {text rest : Bytes} (h : parse_bound n text = some (m, rest)) :
    rest = text.dropWhile is_ascii_digit ∧
      m = (digits (text.takeWhile is_ascii_digit)).foldl (fun v d => v * 10 + d) n ∧ (n ≤ I64_MAX → m ≤ I64_MAX) := by
  induction text generalizing n with
  | nil =>
      cases h
      exact ⟨rfl, rfl, id⟩
  | cons b text ih =>
      rw [parse_bound] at h
      split at h
      · rename_i hb
        obtain ⟨n', hn', h⟩ := Option.bind_eq_some_iff.mp h
        have hfits : n' = n * 10 + digit b ∧ n' ≤ I64_MAX := by
          rw [checked] at hn'
          split at hn'
          · cases hn'
            exact ⟨rfl, by assumption⟩
          · cases hn'
        obtain ⟨hrest, hm, hle⟩ := ih h
        rw [List.dropWhile_cons_of_pos hb, List.takeWhile_cons_of_pos hb, digits_cons, List.foldl_cons, ← hfits.1]
        exact ⟨hrest, hm, fun _ => hle hfits.2⟩
      · rename_i hb
        cases h
        rw [List.dropWhile_cons_of_neg hb, List.takeWhile_cons_of_neg hb]
        exact ⟨rfl, rfl, id⟩

theorem bound_read {n : Nat} {text rest : Bytes} (h : parse_bound 0 text = some (n, rest)) :
    rest = text.dropWhile is_ascii_digit ∧ n ≤ I64_MAX ∧
      (if (text.takeWhile is_ascii_digit).isEmpty then none else some (decimal text)) =
        (if rest.length < text.length then some n else none).map (BitVec.ofNat 64) := by
  obtain ⟨hrest, hn, hle⟩ := parse_bound_eq h
  have hvalue : decimal text = BitVec.ofNat 64 n := by
    rw [decimal_eq, hn]
    rfl
  have hread : rest.length < text.length ↔ ¬ (text.takeWhile is_ascii_digit).isEmpty = true := by
    have hsplit := congrArg List.length (List.takeWhile_append_dropWhile (p := is_ascii_digit) (l := text))
    rw [List.length_append, ← hrest] at hsplit
    rw [Bool.not_eq_true, List.isEmpty_eq_false_iff, ← List.length_pos_iff]
    omega
  refine ⟨hrest, hle (Nat.zero_le _), ?_⟩
  rw [if_congr hread rfl rfl, hvalue, ite_not]
  split <;> rfl

theorem exactly_angle (text : Bytes) (flags : Flags) (isOpen : Bool) (s : Comp) :
    (do
      setParse text
      return onePiece (← exactly [byte '<']) flags isOpen : Compile Piece) s =
      .ok (onePiece s.patout.length flags isOpen) (s.behind [byte '<'] text) := by
  rw [bind_ok (setParse_run _ _), bind_ok (exactly_run _ _)]
  rfl

theorem rangeNode_run {lo hi : Option Nat} (hlo : ∀ m ∈ lo, m ≤ I64_MAX) (hhi : ∀ m ∈ hi, m ≤ I64_MAX) (s : Comp) :
    rangeNode (lo.map (BitVec.ofNat 64)) (hi.map (BitVec.ofNat 64)) s =
      .ok s.patout.length
        { s with patout := s.patout ++ nodeBytes (rangeCode lo hi).1 0 (rangeCode lo hi).2 } := by
  have hbytes {m : Nat} (hm : m ≤ I64_MAX) : i64_bytes (BitVec.ofNat 64 m) = toLE 8 m := by
    rw [i64_bytes, BitVec.toNat_ofNat, Nat.mod_eq_of_lt (Nat.lt_of_le_of_lt hm (by decide))]
  cases lo with
  | none =>
      cases hi with
      | none => exact patnode_run _ _
      | some hi =>
          rw [Option.map_none, Option.map_some, rangeNode, hbytes (hhi hi rfl)]
          exact patnodeWith_run _ _ _
  | some lo =>
      cases hi with
      | none =>
          rw [Option.map_none, Option.map_some, rangeNode, hbytes (hlo lo rfl)]
          exact patnodeWith_run _ _ _
      | some hi =>
          rw [Option.map_some, Option.map_some, rangeNode, hbytes (hlo lo rfl), hbytes (hhi hi rfl)]
          exact patnodeWith_run _ _ _

variable {R : Reads}

/-- A `<` that is disabled is a literal, whatever follows it. -/
theorem inangAtom_disabled (hoff : R.zpc_special .INANG ≠ byte '<') (text : Bytes) (s : Comp) :
    inangAtom R text s = .ok (onePiece s.patout.length P_SIMPLE false) (s.behind [byte '<'] text) := by
  rw [inangAtom, if_neg hoff]
  exact exactly_angle _ _ _ _

theorem numericRange_eq {text rest : Bytes} {node : Node} (h : range_piece text = some (node, rest)) :
    (node = .exactly [byte '<'] ∧ rest = text ∧ numericRange text = none) ∨
      ∃ lo hi, (∀ m ∈ lo, m ≤ I64_MAX) ∧ (∀ m ∈ hi, m ≤ I64_MAX) ∧ node = range_node lo hi ∧
        numericRange text = some (lo.map (BitVec.ofNat 64), hi.map (BitVec.ofNat 64), rest) := by
  have within {P : Prop} [Decidable P] {n : Nat} (hn : n ≤ I64_MAX) :
      ∀ m ∈ (if P then some n else none), m ≤ I64_MAX := by
    intro m hm
    split at hm
    · cases hm
      exact hn
    · cases hm
  rw [range_piece] at h
  obtain ⟨⟨lo, s₁⟩, hlo, h⟩ := Option.bind_eq_some_iff.mp h
  obtain ⟨hs₁, hlofits, hfirst⟩ := bound_read hlo
  rw [numericRange, ← hs₁]
  dsimp only at h ⊢
  split at h
  · rename_i hdash
    obtain ⟨more, rfl⟩ := List.head?_eq_some_iff.mp hdash
    rw [List.tail_cons] at h
    obtain ⟨⟨hi, s₃⟩, hhi, h⟩ := Option.bind_eq_some_iff.mp h
    obtain ⟨hs₃, hhifits, hsecond⟩ := bound_read hhi
    dsimp only at h ⊢
    simp only [← hs₃]
    split at h
    · rename_i hclose
      obtain ⟨tail, rfl⟩ := List.head?_eq_some_iff.mp hclose
      cases h
      rw [hfirst, hsecond]
      exact .inr ⟨_, _, within hlofits, within hhifits, rfl, rfl⟩
    · rename_i hclose
      cases h
      refine .inl ⟨rfl, rfl, ?_⟩
      split
      · exact absurd rfl hclose
      · rfl
  · rename_i hdash
    cases h
    refine .inl ⟨rfl, rfl, ?_⟩
    split
    · exact absurd rfl hdash
    · rfl

/-- Where no bound overflows, `range_piece` is what the compiler emits for a `<`. -/
theorem inangAtom_enabled (hon : R.zpc_special .INANG = byte '<') {text rest : Bytes} {node : Node}
    (h : range_piece text = some (node, rest)) (s : Comp) :
    ∃ code flags isOpen, Spells code node ∧ code.2.length ≤ 16 ∧
      inangAtom R text s = .ok (onePiece s.patout.length flags isOpen)
        { s with patparse := rest, patout := s.patout ++ nodeBytes code.1 0 code.2 } := by
  obtain ⟨rfl, rfl, hno⟩ | ⟨lo, hi, hlo, hhi, rfl, hrange⟩ := numericRange_eq h
  · refine ⟨literalCode [byte '<'], P_SIMPLE, false, spells_exactly (by decide), by decide, ?_⟩
    rw [inangAtom, if_pos hon, hno]
    exact exactly_angle _ _ _ _
  · refine ⟨rangeCode lo hi, 0, true, spells_range hlo hhi, length_rangeCode lo hi, ?_⟩
    rw [inangAtom, if_pos hon, hrange]
    simp only
    rw [bind_ok (setParse_run _ _), bind_ok (rangeNode_run hlo hhi _)]
    rfl

/-- A byte that no slot of `zpc_special` but that of `<` can hold, nor any other that ends a literal. -/
def Inert (b : UInt8) : Prop := b ≠ Marker ∧ b ≠ byte '{' ∧ b ≠ byte '\\' ∧ ∀ z, z ≠ .INANG → b ≠ zpc_chars z

theorem inert_digit {b : UInt8} (h : is_ascii_digit b = true) : Inert b ∧ b ≠ byte '<' := by
  simp only [is_ascii_digit, Bool.and_eq_true, decide_eq_true_eq, UInt8.le_iff_toNat_le] at h
  have h57 : (57 : UInt8).toNat = 57 := rfl
  have h48 : (48 : UInt8).toNat = 48 := rfl
  have far {d : UInt8} (hd : d.toNat < 48 ∨ 57 < d.toNat) : b ≠ d := by
    rintro rfl
    omega
  refine ⟨⟨far (by decide), far (by decide), far (by decide), fun z _ => far ?_⟩, far (by decide)⟩
  cases z <;> decide

section Slots

variable {env : Env} {b : UInt8} {rest : Bytes}

theorem slot_ne (hb : Inert b) {z : Zpc} (hz : z ≠ .INANG) : b ≠ (readsOf env).zpc_special z := by
  change b ≠ zpc_special env 0 z
  rw [zpc_special]
  split
  · exact hb.1
  · rw [patcompcharsset]
    split
    · exact hb.1
    · exact hb.2.2.2 z hz

theorem no_tilde (hb : Inert b) : endsAtTilde (readsOf env) b rest = false := by
  have hne : ¬ b = (readsOf env).zpc_special .TILDE := slot_ne hb (by decide)
  simp [endsAtTilde, hne]

theorem opens_inert (hb : Inert b) : Opens (readsOf env) b rest where
  bar := hb.2.2.2 .BAR (by decide)
  outpar := hb.2.2.2 .OUTPAR (by decide)
  slash := fun h => hb.2.2.2 .SLASH (by decide) h.1
  tilde := no_tilde hb
  counted := by
    intro _
    unfold ksh93_count_prefix
    split
    · rename_i heq
      cases heq
      exact absurd rfl hb.2.1
    · rfl
  counts := by
    have hne : ¬ b = (readsOf env).zpc_special .INPAR := slot_ne hb (by decide)
    unfold countSpec
    split
    · rename_i heq
      cases heq
      rw [if_neg fun h => hne h.1]
    · rfl
  flags := by
    have hinpar : ¬ b = (readsOf env).zpc_special .INPAR := slot_ne hb (by decide)
    have hat : ¬ b = (readsOf env).zpc_special .KSH_AT := slot_ne hb (by decide)
    have hplain : plain_form (readsOf env) (b :: rest) = false := by
      unfold plain_form
      split
      · rename_i heq
        cases heq
        rw [decide_eq_false hinpar]
      · rfl
    have hatform : at_form (readsOf env) (b :: rest) = false := by
      unfold at_form
      split
      · rename_i heq
        cases heq
        simp [hat]
      · rfl
    rw [flagSpec, hplain, hatform, Bool.or_false, Bool.and_false, if_neg Bool.false_ne_true]
  hat := fun h => slot_ne hb (by decide) h.1

theorem literalRun_inert {run : Bytes} (hrun : ∀ b ∈ run, Inert b ∧ b ≠ byte '<') :
    literalRun (readsOf env) false run = (run, []) := by
  induction run with
  | nil => rfl
  | cons b run ih =>
      rw [List.forall_mem_cons] at hrun
      obtain ⟨⟨hb, hinang⟩, hrun⟩ := hrun
      have hhead : run.head? ≠ some (byte '(') := by
        cases run with
        | nil => nofun
        | cons d run =>
            exact fun h => (hrun d List.mem_cons_self).1.2.2.2 .INPAR (by decide) (Option.some.inj h)
      have hno (z : Zpc) (hz : z ≠ .INANG) : b ≠ zpc_chars z := hb.2.2.2 z hz
      have hgo : ¬ literalEnds (readsOf env) false b run = true := by
        have hbar : ¬ b = byte '|' := hno .BAR (by decide)
        have hinpar : ¬ b = byte '(' := hno .INPAR (by decide)
        have houtpar : ¬ b = byte ')' := hno .OUTPAR (by decide)
        have hquest : ¬ b = byte '?' := hno .QUEST (by decide)
        have hstar : ¬ b = byte '*' := hno .STAR (by decide)
        have hinbrack : ¬ b = byte '[' := hno .INBRACK (by decide)
        have hhat : ¬ b = byte '^' := hno .HAT (by decide)
        have hhash : ¬ b = byte '#' := hno .HASH (by decide)
        have hslash : ¬ b = byte '/' := hno .SLASH (by decide)
        simp [literalEnds, hbar, hinpar, houtpar, hquest, hstar, hinbrack, hhat, hhash, hslash, hb.2.1, hb.2.2.1,
          hinang, no_tilde hb, kshcharOf_plain hhead]
      rw [literalRun, if_neg hgo, ih hrun]

theorem patcomppiece_angle {R : Reads} {text : Bytes} {s t : Comp} {n : Nat} {flags : Flags} {isOpen : Bool}
    (fuel : Nat) (hhead : text.head? ≠ some (byte '(')) (hs : s.patparse = byte '<' :: text)
    (hatom : inangAtom R text s = .ok (onePiece n flags isOpen) t) (ht : t.patparse.head? ≠ some (byte '#')) :
    patcomppiece R false false (fuel + 1) s = .ok (onePiece n flags isOpen) t := by
  have hno (c : Char) (hc : c ∈ ['?', '*', '[', '(', '\\']) : ¬ byte '<' = byte c := by
    revert c
    exact List.all_iff_forall_prop.mp (by decide)
  rw [patcomppiece, bind_ok (getParse_run s), hs]
  simp only [kshcharOf_plain hhead, ne_eq, not_true_eq_false, if_false, hno '?' (by simp), hno '*' (by simp),
    hno '[' (by simp), hno '(' (by simp), hno '\\' (by simp), false_and, if_true, List.tail_cons]
  rw [bind_ok hatom]
  cases isOpen with
  | true => exact quantify_none ht
  | false => rfl

end Slots

section Spelling

variable {a b : Bytes} (ha : ∀ d ∈ a, is_ascii_digit d = true) (hb : ∀ d ∈ b, is_ascii_digit d = true)

/-- `<a-b>` as the lexer spells it. -/
def rangeSpelling (a b : Bytes) : Str := '\ue194' :: (ascii_chars a ++ '-' :: (ascii_chars b ++ ['\ue195']))

/-- What stands behind the `<`. -/
def rangeText (a b : Bytes) : Bytes := a ++ 45 :: (b ++ [62])

theorem digit_low {d : UInt8} (h : is_ascii_digit d = true) : d.toNat < 0x80 := by
  simp only [is_ascii_digit, Bool.and_eq_true, decide_eq_true_eq, UInt8.le_iff_toNat_le] at h
  have h57 : (57 : UInt8).toNat = 57 := rfl
  omega

theorem digit_chars (h : ∀ d ∈ a, is_ascii_digit d = true) : ∀ c ∈ ascii_chars a, c.isDigit = true := by
  have hall : ∀ n < 58, 48 ≤ n → (Char.ofNat n).isDigit = true := by decide
  intro c hc
  obtain ⟨d, hd, rfl⟩ := List.mem_map.mp hc
  have hdigit := h d hd
  simp only [is_ascii_digit, Bool.and_eq_true, decide_eq_true_eq, UInt8.le_iff_toNat_le] at hdigit
  have h57 : (57 : UInt8).toNat = 57 := rfl
  exact hall _ (by omega) hdigit.1

theorem byte_spelling_ascii {s : Str} (h : ∀ c ∈ s, (c.toNat < 0x80 || is_token_char c) = true) :
    byte_spelling s = s := by
  induction s with
  | nil => rfl
  | cons c s ih =>
      rw [List.forall_mem_cons] at h
      cases s with
      | nil => rw [byte_spelling, if_pos h.1]
      | cons d s => rw [byte_spelling, if_pos h.1, ih h.2]

include ha hb

theorem spell_range (env : Env) : spell env (rangeSpelling a b) = rangeSpelling a b := by
  have hdigits {d : Bytes} (h : ∀ b ∈ d, is_ascii_digit b = true) :
      ∀ c ∈ ascii_chars d, (c.toNat < 0x80 || is_token_char c) = true := by
    intro c hc
    have hle : c.toNat ≤ 57 := (Char.isDigit_iff_toNat.mp (digit_chars h c hc)).2
    rw [Bool.or_eq_true, decide_eq_true_iff]
    exact .inl (by omega)
  rw [spell]
  split
  · rfl
  · apply byte_spelling_ascii
    rw [rangeSpelling, List.forall_mem_cons, List.forall_mem_append, List.forall_mem_cons, List.forall_mem_append,
      List.forall_mem_singleton]
    exact ⟨rfl, hdigits ha, rfl, hdigits hb, rfl⟩

theorem normalize_range (modes : Modes) : normalize modes 0 false (rangeSpelling a b) =
    '<' :: (ascii_chars a ++ '-' :: (ascii_chars b ++ ['>'])) := by
  have hinang (rest : Str) : normalize modes 0 false ('\ue194' :: rest) = '<' :: normalize modes 0 false rest := by
    rw [normalize.eq_def]
    simp +decide [Outbrack, ztokens]
  have houtang : normalize modes 0 false ['\ue195'] = ['>'] := by
    rw [normalize.eq_def]
    simp +decide [Outbrack, ztokens]
    rfl
  rw [rangeSpelling, hinang, normalize_digits (digit_chars ha), normalize_plain (by decide) (by decide) (by decide),
    normalize_digits (digit_chars hb), houtang]

theorem encode_range : Utf8.encode ('<' :: (ascii_chars a ++ '-' :: (ascii_chars b ++ ['>']))) =
    byte '<' :: rangeText a b := by
  rw [Utf8.encode_cons, Utf8.encode_append, encode_ascii_chars fun d hd => digit_low (ha d hd), Utf8.encode_cons,
    Utf8.encode_append, encode_ascii_chars fun d hd => digit_low (hb d hd)]
  rfl

theorem inert_range : ∀ d ∈ rangeText a b, Inert d ∧ d ≠ byte '<' := by
  rw [rangeText, List.forall_mem_append, List.forall_mem_cons, List.forall_mem_append, List.forall_mem_singleton]
  refine ⟨fun d hd => inert_digit (ha d hd), ⟨⟨by decide, by decide, by decide, ?_⟩, by decide⟩,
    fun d hd => inert_digit (hb d hd), ⟨by decide, by decide, by decide, ?_⟩, by decide⟩
  · intro z _
    cases z <;> decide
  · intro z _
    cases z <;> decide

omit ha hb in
theorem kept_seeded (env : Env) (incoming : Flags) :
    keptFlags (seededGlobflags env 0 incoming) = seededGlobflags env 0 incoming := by
  have hfile : isFile 0 = false := rfl
  rw [seededGlobflags, hfile, if_neg Bool.false_ne_true, patcompstart]
  split <;> split <;> rfl

omit ha hb in
theorem hoist_angle (rest : Str) (flags hoisted : Flags) :
    hoist ('<' :: rest) flags hoisted = ('<' :: rest, flags, hoisted) := by
  rw [hoist]
  intro rest h
  cases h

omit ha hb in
theorem inert_angle : Inert (byte '<') := by
  refine ⟨by decide, by decide, by decide, fun z hz => ?_⟩
  cases z with
  | INANG => exact absurd rfl hz
  | _ => decide

/-- The compile of `<a-b>` in an environment, at its only branch. -/
def rangeStart (env : Env) (incoming : Flags) (a b : Bytes) : Comp :=
  ⟨byte '<' :: rangeText a b, nodeBytes P_BRANCH 0 [], seededGlobflags env 0 incoming, 0, 1⟩

theorem compiles_angle {env : Env} (incoming : Flags) {codes : List (UInt8 × Bytes)} (hne : codes ≠ [])
    (hsmall : behindOf I_BODY codes < 2 ^ 32) {f : UInt8 × Bytes → Node}
    (hspells : ∀ code ∈ codes, Spells code (f code)) {B : Branch} (hB : Chained B I_BODY codes)
    (hrun : pieces (readsOf env) false .init (5 * (byte '<' :: rangeText a b).length + 2)
        (rangeStart env incoming a b) =
      .ok B { rangeStart env incoming a b with
        patparse := [], patout := nodeBytes P_BRANCH 0 [] ++ chainBytes I_BODY 0 codes }) :
    Compiles env incoming (rangeSpelling a b) 0
      ⟨0, seededGlobflags env 0 incoming, .branch :: codes.map f ++ [.pEnd]⟩ := by
  obtain ⟨r, hbranch⟩ := branch_chain hB hne hrun
  rw [rangeStart, ← encode_range ha hb] at hbranch
  refine compiles_branch incoming hne hsmall hspells (spell_range ha hb env) ?_ hbranch
  rw [normalize_range ha hb, hoist_angle, ite_self, kept_seeded]

theorem head_range : (rangeText a b).head? ≠ some (byte '(') := by
  intro h
  exact (inert_range ha hb _ (List.mem_of_head? h)).1.2.2.2 .INPAR (by decide) rfl

theorem range_enabled {env : Env} (hon : patcompcharsset env .INANG = byte '<') (hlo : number a ≤ I64_MAX)
    (hhi : number b ≤ I64_MAX) (incoming : Flags) : Compiles env incoming (rangeSpelling a b) 0
      ⟨0, seededGlobflags env 0 incoming, [.branch, range_node (bound a) (bound b), .pEnd]⟩ := by
  obtain ⟨code, flags, isOpen, hspells, hlen, hatom⟩ := inangAtom_enabled (R := readsOf env) hon
    (range_piece_text ha hb hlo hhi []) (rangeStart env incoming a b)
  have hpiece := patcomppiece_angle (5 * (rangeText a b).length + 5) (head_range ha hb) rfl hatom nofun
  obtain ⟨B, hstep, hB⟩ := chain_step (nodeBytes P_BRANCH 0 []) (chained_init _) code rfl rfl
    (opens_inert inert_angle) hpiece (Nat.succ_pos _)
  have hsmall : behindOf I_BODY [code] < 2 ^ 32 := by
    rw [behindOf, behindOf, I_BODY]
    omega
  refine compiles_angle ha hb incoming (List.cons_ne_nil code []) hsmall (f := fun _ => range_node (bound a) (bound b))
    (List.forall_mem_singleton.mpr hspells) hB ?_
  rw [List.length_cons]
  exact hstep.trans (pieces_end rfl _)

theorem range_disabled {env : Env} (hoff : patcompcharsset env .INANG ≠ byte '<')
    (hsmall : a.length + b.length < 2 ^ 31) (incoming : Flags) : Compiles env incoming (rangeSpelling a b) 0
      ⟨0, seededGlobflags env 0 incoming, [.branch, .exactly [byte '<'], .exactly (rangeText a b), .pEnd]⟩ := by
  let pre := nodeBytes P_BRANCH 0 []
  have hinert := inert_range ha hb
  have hatom := inangAtom_disabled (R := readsOf env) hoff (rangeText a b) (rangeStart env incoming a b)
  have hangle := patcomppiece_angle (5 * (rangeText a b).length + 5) (head_range ha hb) rfl hatom
    (fun h => (hinert _ (List.mem_of_head? h)).1.2.2.2 .HASH (by decide) rfl)
  obtain ⟨B, hfirst, hB⟩ := chain_step pre (chained_init _) (literalCode [byte '<']) rfl rfl (opens_inert inert_angle)
    hangle (Nat.lt_succ_self _)
  obtain ⟨d, run, hd⟩ : ∃ d run, rangeText a b = d :: run := List.exists_cons_of_ne_nil (by simp [rangeText])
  have hhead : run.head? ≠ some (byte '(') := fun h =>
    (hinert _ (hd ▸ List.mem_cons_of_mem d (List.mem_of_head? h))).1.2.2.2 .INPAR (by decide) rfl
  have hliteral : literalRun (readsOf env) false (d :: run ++ []) = (d :: run, []) := by
    rw [List.append_nil, ← hd]
    exact literalRun_inert hinert
  have hspecial : ∀ c ∈ ['?', '*', '[', '(', '\\', '<'], d ≠ byte c := by
    obtain ⟨hd, hinang⟩ := hinert d (hd ▸ List.mem_cons_self)
    rw [List.forall_mem_cons, List.forall_mem_cons, List.forall_mem_cons, List.forall_mem_cons, List.forall_mem_cons,
      List.forall_mem_singleton]
    exact ⟨hd.2.2.2 .QUEST (by decide), hd.2.2.2 .STAR (by decide), hd.2.2.2 .INBRACK (by decide),
      hd.2.2.2 .INPAR (by decide), hd.2.2.1, hinang⟩
  let t := { rangeStart env incoming a b with
    patparse := rangeText a b, patout := pre ++ chainBytes pre.length 0 [literalCode [byte '<']] }
  have ht : t.patparse = d :: run ++ [] := by
    rw [List.append_nil]
    exact hd
  obtain ⟨flags, htext⟩ := patcomppiece_literal (5 * (rangeText a b).length + 4)
    (kshcharOf_plain (by rwa [List.append_nil])) hspecial hliteral (by simp [has_trailing_quantifier, byte]) nofun ht
  obtain ⟨B', hsecond, hB'⟩ := chain_step pre hB (literalCode (d :: run)) rfl ht
    (opens_inert (hinert d (hd ▸ List.mem_cons_self)).1) htext (Nat.succ_pos _)
  have hsize : behindOf I_BODY [literalCode [byte '<'], literalCode (d :: run)] < 2 ^ 32 := by
    have hlen : (rangeText a b).length = a.length + b.length + 2 := by
      simp only [rangeText, List.length_append, List.length_cons, List.length_nil]
      omega
    rw [hd] at hlen
    simp only [behindOf, literalCode, List.length_append, length_toLE, hlen, I_BODY, List.length_singleton]
    omega
  have hspells : ∀ code ∈ [literalCode [byte '<'], literalCode (d :: run)], Spells code (nodeOf code) := by
    rw [List.forall_mem_cons, List.forall_mem_singleton, nodeOf_literal, nodeOf_literal]
    refine ⟨spells_exactly (by decide), spells_exactly ?_⟩
    simp only [behindOf, literalCode, List.length_append] at hsize
    omega
  have hprogram := compiles_angle ha hb incoming (List.cons_ne_nil _ _) hsize hspells hB' (by
    rw [List.length_cons]
    exact hfirst.trans (hsecond.trans (pieces_end rfl _)))
  rw [List.map_cons, List.map_singleton, nodeOf_literal, nodeOf_literal, ← hd] at hprogram
  exact hprogram

/-- `<a-b>` is compiled to the range of its bounds, and to its own text where `<` is disabled. -/
theorem range_compiled (env : Env) (incoming : Flags) :
    (patcompcharsset env .INANG = byte '<' → number a ≤ I64_MAX → number b ≤ I64_MAX →
      Compiles env incoming (rangeSpelling a b) 0
        ⟨0, seededGlobflags env 0 incoming, [.branch, range_node (bound a) (bound b), .pEnd]⟩) ∧
      (patcompcharsset env .INANG ≠ byte '<' → a.length + b.length < 2 ^ 31 →
        Compiles env incoming (rangeSpelling a b) 0
          ⟨0, seededGlobflags env 0 incoming, [.branch, .exactly [byte '<'], .exactly (rangeText a b), .pEnd]⟩) :=
  ⟨fun hon hlo hhi => range_enabled ha hb hon hlo hhi incoming,
    fun hoff hsmall => range_disabled ha hb hoff hsmall incoming⟩

/-- zsh with SH_GLOB, in which no `<` is special. -/
def shglobEnv : Env := { extendedEnv with isset := fun o => match o with | .SHGLOB => true | _ => false }

omit ha hb in
/-- `<007-12>`, and the same under SH_GLOB. -/
theorem small_range_compiled :
    Compiles extendedEnv 0 (rangeSpelling [48, 48, 55] [49, 50]) 0 ⟨0, GF_MULTIBYTE, [.branch, .numrng 7 12, .pEnd]⟩ ∧
      Compiles shglobEnv 0 (rangeSpelling [48, 48, 55] [49, 50]) 0
        ⟨0, 0, [.branch, .exactly [60], .exactly [48, 48, 55, 45, 49, 50, 62], .pEnd]⟩ := by
  have hlo : ∀ d ∈ [48, 48, 55], is_ascii_digit d = true := List.all_iff_forall_prop.mp (by decide)
  have hhi : ∀ d ∈ [49, 50], is_ascii_digit d = true := List.all_iff_forall_prop.mp (by decide)
  exact ⟨(range_compiled hlo hhi extendedEnv 0).1 rfl (by decide) (by decide),
    (range_compiled hlo hhi shglobEnv 0).2 (by decide) (by decide)⟩

end Spelling

end Zshrs.Pattern
