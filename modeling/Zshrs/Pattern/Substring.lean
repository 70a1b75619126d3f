import Zshrs.Pattern.Approx

namespace Zshrs.Pattern

open Lib (Utf8.encode Utf8.text Utf8.valid Utf8.textWithin_encode)

/-- The flags in force behind the nodes that set them at the front. -/
def in_force (prog : Program) : Flags :=
  match leading_flags (skip_branch prog.nodes) with
  | some bits => (prog.globflags &&& ~~~(GF_IGNCASE ||| GF_LCMATCHUC ||| GF_MULTIBYTE ||| 0xff)) ||| bits
  | none => prog.globflags

/-- Where the literal occurs as the fast path compares it, it occurs as the matcher compares it, at a place
where a star may stop. -/
def Reachable (prog : Program) (tables : Tables) (trial : Bytes) : Prop :=
  ∀ lit igncase, shape prog = some (lit, igncase) →
    if igncase then in_force prog &&& GF_IGNCASE ≠ 0 ∨ (scan_ascii lit trial = true → lit <:+: trial)
    else lit <:+: trial → ∃ rest ∈ stops tables.mbrtowc (in_force prog) trial.length trial, lit <+: rest

section Front

variable (env : Statics) (again : List Node → Bytes → Nat → Flags → Option Reach)

theorem run_skip_branch (nodes : List Node) (s : Bytes) (errs : Nat) (flags : Flags) :
    run env again nodes s errs flags = run env again (skip_branch nodes) s errs flags := by
  cases nodes with
  | nil => rfl
  | cons node nodes => cases node <;> simp [skip_branch, run, Node.notdot]

theorem run_front (prog : Program) (s : Bytes) (errs : Nat) :
    run env again prog.nodes s errs prog.globflags =
      run env again (skip_flags (skip_branch prog.nodes)) s errs (in_force prog) := by
  rw [run_skip_branch, in_force]
  cases skip_branch prog.nodes with
  | nil => rfl
  | cons node nodes => cases node <;> simp [skip_flags, leading_flags, run, Node.notdot]

end Front

section Stops

variable {mbrtowc : Bytes → MbRet} {flags : Flags}

/-- The last place for a star to stop is the end. -/
theorem stops_last (n : Nat) (s : Bytes) : ∃ near, stops mbrtowc flags n s = near ++ [[]] := by
  induction n generalizing s with
  | zero => exact ⟨[], rfl⟩
  | succ n ih =>
      cases s with
      | nil => exact ⟨[], rfl⟩
      | cons b s =>
          obtain ⟨near, h⟩ := ih ((b :: s).drop (charinc mbrtowc flags (b :: s)))
          exact ⟨(b :: s) :: near, by rw [stops, h, List.cons_append]; exact List.cons_ne_nil b s⟩

theorem stops_suffix {n : Nat} {s rest : Bytes} (h : rest ∈ stops mbrtowc flags n s) : rest <:+ s := by
  induction n generalizing s with
  | zero => exact List.mem_singleton.mp h ▸ List.nil_suffix
  | succ n ih =>
      cases s with
      | nil => exact List.mem_singleton.mp h ▸ List.nil_suffix
      | cons b s =>
          rw [stops, List.mem_cons] at h
          · obtain rfl | h := h
            · exact List.suffix_refl _
            · exact (ih h).trans (List.drop_suffix _ _)
          · exact List.cons_ne_nil b s

end Stops

section Chunks

variable {env : Statics} (hdot : env.string.head? = some 46 → env.globdots = true)

include hdot in
theorem not_dotted (s : Bytes) (b : Bool) :
    (decide (s = env.string) && b && decide (s.head? = some 46) && !env.globdots) = false := by
  by_contra h
  simp only [Bool.not_eq_false, Bool.and_eq_true, decide_eq_true_eq, Bool.not_eq_true'] at h
  obtain ⟨⟨⟨rfl, _⟩, hhead⟩, hdots⟩ := h
  rw [hdot hhead] at hdots
  cases hdots

theorem append_prefix_iff {α : Type} {a b s : List α} : a ++ b <+: s ↔ a <+: s ∧ b <+: s.drop a.length := by
  constructor
  · rintro ⟨t, rfl⟩
    rw [List.append_assoc, List.drop_left]
    exact ⟨List.prefix_append _ _, List.prefix_append _ _⟩
  · rintro ⟨⟨t, rfl⟩, h⟩
    rw [List.drop_left] at h
    exact List.prefix_append_right_inj a |>.mpr h

variable {flags : Flags} (herrs : flags &&& 0xff = 0) (f : UInt8 → UInt8)

include hdot herrs in
/-- A row of literals is one literal, as far as `f` tells bytes apart. -/
theorem run_chunks (again : List Node → Bytes → Nat → Flags → Option Reach) {nodes tail : List Node}
    {lit : Bytes} (h : literal_chunks nodes = some (lit, tail)) {s : Bytes}
    (hat : ∀ c t, c ⊆ lit → t ⊆ s → (exactly_at env flags c t = true ↔ c.map f <+: t.map f)) :
    run env again nodes s 0 flags =
      if lit.map f <+: s.map f then run env again tail (s.drop lit.length) 0 flags else none := by
  induction nodes using literal_chunks.induct generalizing lit s with
  | case1 c rest hvalid ih =>
      rw [literal_chunks, if_pos hvalid, Option.map_eq_some_iff] at h
      obtain ⟨⟨more, tail'⟩, hmore, heq⟩ := h
      cases heq
      have hat' := fun c' t (hc : c' ⊆ more) (ht : t ⊆ s.drop c.length) =>
        hat c' t (List.Subset.trans hc (List.subset_append_right c more))
          (List.Subset.trans ht (List.drop_subset _ _))
      rw [run]
      simp only [not_dotted hdot, Bool.false_eq_true, if_false, herrs]
      rw [if_neg (by decide)]
      by_cases hc : c.map f <+: s.map f
      · have hmore_iff : (c ++ more).map f <+: s.map f ↔ more.map f <+: (s.drop c.length).map f := by
          rw [List.map_append, append_prefix_iff, List.length_map, ← List.map_drop, and_iff_right hc]
        rw [if_pos ((hat c s (List.subset_append_left c more) (List.Subset.refl s)).mpr hc), ih hmore hat',
          List.drop_drop, List.length_append]
        simp only [hmore_iff]
      · rw [if_neg (mt (hat c s (List.subset_append_left c more) (List.Subset.refl s)).mp hc), if_neg]
        rw [List.map_append, append_prefix_iff]
        exact fun h => hc h.1
  | case2 c rest hvalid => rw [literal_chunks, if_neg hvalid] at h; cases h
  | case3 nodes hno =>
      rw [literal_chunks] at h
      · cases h
        rw [if_pos (by simp)]
        rfl
      · exact hno

theorem findSome?_const {α β : Type} {g : α → Option β} {P : α → Prop} [DecidablePred P] {b : β} {l : List α}
    (h : ∀ a ∈ l, g a = if P a then some b else none) :
    l.findSome? g = if ∃ a ∈ l, P a then some b else none := by
  induction l with
  | nil => simp
  | cons a l ih =>
      rw [List.findSome?_cons, h a List.mem_cons_self, ih fun a ha => h a (List.mem_cons_of_mem _ ha)]
      by_cases ha : P a
      · simp [ha]
      · simp [ha]

include hdot in
theorem run_star_end (frames : Nat) (tail : List Node) (s : Bytes) :
    run env (patmatch env (frames + 1)) (.star :: .pEnd :: tail) s 0 flags = some ([], 0) := by
  obtain ⟨near, h⟩ := @stops_last env.mbrtowc flags s.length s
  rw [run]
  simp only [not_dotted hdot, Bool.false_eq_true, if_false, h, List.reverse_append, List.reverse_singleton,
    List.singleton_append, List.findSome?_cons]
  rw [patmatch, run]
  simp only [not_dotted hdot, Bool.false_eq_true, if_false]
  simp

end Chunks

section Ascii

theorem is_ascii_iff {s : Bytes} : is_ascii s = true ↔ ∀ b ∈ s, b.toNat < 0x80 := by
  rw [is_ascii, List.all_eq_true]
  simp only [decide_eq_true_eq, UInt8.lt_iff_toNat_lt]
  rfl

/-- The characters of ASCII bytes. -/
def ascii_chars (s : Bytes) : Str := s.map fun b => Char.ofNat b.toNat

theorem ascii_char : ∀ n < 0x80,
    Char.ofNat n ≠ Meta ∧ (Char.ofNat n).toNat = n ∧ (Char.ofNat n).utf8Size = 1 := by decide

theorem encode_ascii_char : ∀ n < 0x80, String.utf8EncodeChar (Char.ofNat n) = [UInt8.ofNat n] := by decide

theorem encode_ascii_chars {s : Bytes} (h : ∀ b ∈ s, b.toNat < 0x80) : Utf8.encode (ascii_chars s) = s := by
  induction s with
  | nil => rfl
  | cons b s ih =>
      rw [List.forall_mem_cons] at h
      rw [ascii_chars, List.map_cons, Lib.Utf8.encode_cons, encode_ascii_char _ h.1, UInt8.ofNat_toNat,
        ← ascii_chars, ih h.2]
      rfl

theorem text_ascii {s : Bytes} (h : ∀ b ∈ s, b.toNat < 0x80) : Utf8.text s = some (ascii_chars s) := by
  have htext := Utf8.textWithin_encode (ascii_chars s) (Nat.le_refl _)
  rwa [encode_ascii_chars h] at htext

theorem charinc_ascii (mbrtowc : Bytes → MbRet) (flags : Flags) {b : UInt8} {s : Bytes}
    (h : ∀ c ∈ b :: s, c.toNat < 0x80) : charinc mbrtowc flags (b :: s) = 1 := by
  obtain ⟨hmeta, hnat, hsize⟩ := ascii_char b.toNat (List.forall_mem_cons.mp h).1
  have hlow : ¬ 0x80 ≤ (Char.ofNat b.toNat).toNat := by
    rw [hnat]
    exact Nat.not_le.mpr (List.forall_mem_cons.mp h).1
  rw [charinc, text_ascii h]
  · dsimp only
    rw [ascii_chars, List.map_cons, assemble.eq_def]
    dsimp only
    rw [if_neg hmeta, if_neg (not_not.mpr rfl), decide_eq_false hlow, Bool.and_false, hsize]
    rfl
  · exact List.cons_ne_nil b s

theorem mem_stops_ascii {mbrtowc : Bytes → MbRet} {flags : Flags} {n : Nat} {s rest : Bytes}
    (h : ∀ b ∈ s, b.toNat < 0x80) (hn : s.length ≤ n) : rest ∈ stops mbrtowc flags n s ↔ rest <:+ s := by
  refine ⟨stops_suffix, fun hsuffix => ?_⟩
  induction n generalizing s with
  | zero =>
      rw [List.length_eq_zero_iff.mp (Nat.le_zero.mp hn)] at hsuffix
      exact List.mem_singleton.mpr (List.suffix_nil.mp hsuffix)
  | succ n ih =>
      cases s with
      | nil => exact List.mem_singleton.mpr (List.suffix_nil.mp hsuffix)
      | cons b s =>
          rw [stops, charinc_ascii mbrtowc flags h, List.drop_one, List.tail_cons, List.mem_cons]
          · refine (List.suffix_cons_iff.mp hsuffix).imp_right fun hsuffix => ?_
            exact ih (List.forall_mem_cons.mp h).2 (Nat.le_of_succ_le_succ hn) hsuffix
          · exact List.cons_ne_nil b s

theorem lower_char : ∀ n < 0x80, (Char.ofNat n).toLower = Char.ofNat (to_ascii_lowercase (UInt8.ofNat n)).toNat := by
  decide

theorem lower_low : ∀ n < 0x80, (to_ascii_lowercase (UInt8.ofNat n)).toNat < 0x80 := by decide

variable {env : Statics} {flags : Flags} (hfold : flags &&& GF_IGNCASE ≠ 0)

include hfold in
theorem charmatch_byte_fold {chin chpa : UInt8} :
    charmatch_byte flags chin chpa = true ↔ to_ascii_lowercase chin = to_ascii_lowercase chpa := by
  rw [charmatch_byte]
  by_cases h : chin = chpa
  · simp [h]
  · rw [if_neg h, if_pos hfold, decide_eq_true_iff]

include hfold in
theorem bytes_match_fold {s p : Bytes} :
    bytes_match flags s p = true ↔ s.map to_ascii_lowercase = p.map to_ascii_lowercase := by
  induction s generalizing p with
  | nil => cases p <;> simp [bytes_match]
  | cons chin s ih =>
      cases p with
      | nil => simp [bytes_match]
      | cons chpa p =>
          rw [bytes_match, Bool.and_eq_true, charmatch_byte_fold hfold, ih, List.map_cons, List.map_cons,
            List.cons.injEq]

theorem char_folds_ascii {a b : UInt8} (ha : a.toNat < 0x80) (hb : b.toNat < 0x80) :
    char_folds env (Char.ofNat a.toNat) (Char.ofNat b.toNat) = true ↔
      to_ascii_lowercase a = to_ascii_lowercase b := by
  have hlow {c : UInt8} (hc : c.toNat < 0x80) : (to_ascii_lowercase c).toNat < 0x80 := by
    simpa using lower_low c.toNat hc
  have hinj {m n : Nat} (hm : m < 0x80) (hn : n < 0x80) (h : Char.ofNat m = Char.ofNat n) : m = n := by
    rw [← (ascii_char m hm).2.1, h, (ascii_char n hn).2.1]
  rw [char_folds, (ascii_char _ ha).2.1, (ascii_char _ hb).2.1, decide_eq_true ha, decide_eq_true hb,
    Bool.true_and, if_pos rfl, lower_char _ ha, lower_char _ hb, UInt8.ofNat_toNat, UInt8.ofNat_toNat,
    Bool.or_eq_true, decide_eq_true_iff, decide_eq_true_iff]
  constructor
  · rintro (h | h)
    · rw [UInt8.toNat_inj.mp (hinj ha hb h)]
    · exact UInt8.toNat_inj.mp (hinj (hlow ha) (hlow hb) h)
  · exact fun h => .inr (by rw [h])

theorem chars_fold_ascii {p s : Bytes} (hp : ∀ b ∈ p, b.toNat < 0x80) (hs : ∀ b ∈ s, b.toNat < 0x80) :
    chars_fold env (ascii_chars p) (ascii_chars s) = true ↔
      p.map to_ascii_lowercase = s.map to_ascii_lowercase := by
  induction p generalizing s with
  | nil => cases s <;> simp [ascii_chars, chars_fold]
  | cons a p ih =>
      cases s with
      | nil => simp [ascii_chars, chars_fold]
      | cons b s =>
          rw [List.forall_mem_cons] at hp hs
          rw [ascii_chars, ascii_chars, List.map_cons, List.map_cons, chars_fold, ← ascii_chars, ← ascii_chars,
            Bool.and_eq_true, char_folds_ascii hp.1 hs.1, ih hp.2 hs.2, List.map_cons, List.map_cons,
            List.cons.injEq]

include hfold in
theorem exactly_at_fold {lit s : Bytes} (hp : ∀ b ∈ lit, b.toNat < 0x80) (hs : ∀ b ∈ s, b.toNat < 0x80) :
    exactly_at env flags lit s = true ↔ lit.map to_ascii_lowercase <+: s.map to_ascii_lowercase := by
  have hcase : flags &&& (GF_IGNCASE ||| GF_LCMATCHUC) ≠ 0 := by
    rw [BitVec.and_or_distrib_left]
    exact fun h => hfold (BitVec.or_eq_zero_iff.mp h).1
  have htake : ∀ b ∈ s.take lit.length, b.toNat < 0x80 := fun b hb => hs b (List.mem_of_mem_take hb)
  rw [exactly_at, List.prefix_iff_eq_take, List.length_map, ← List.map_take]
  by_cases hlt : s.length < lit.length
  · rw [if_pos hlt]
    refine iff_of_false Bool.false_ne_true fun h => ?_
    have := congrArg List.length h
    rw [List.length_map, List.length_map, List.length_take] at this
    omega
  · rw [if_neg hlt, if_pos hcase]
    split
    · rw [text_ascii hp, text_ascii htake]
      exact chars_fold_ascii hp htake
    · rw [bytes_match_fold hfold, eq_comm]

theorem scan_ascii_iff {lit trial : Bytes} : scan_ascii lit trial = true ↔
    ∃ rest, rest <:+ trial ∧ lit.map to_ascii_lowercase <+: rest.map to_ascii_lowercase := by
  simp only [scan_ascii, Bool.and_eq_true, decide_eq_true_eq, List.any_eq_true, List.mem_range]
  constructor
  · rintro ⟨_, n, _, h⟩
    refine ⟨trial.drop n, List.drop_suffix n trial, ?_⟩
    rw [← h, List.map_take]
    exact List.take_prefix _ _
  · rintro ⟨rest, ⟨front, rfl⟩, h⟩
    have hlen := h.length_le
    rw [List.length_map, List.length_map] at hlen
    rw [List.prefix_iff_eq_take, List.length_map, ← List.map_take] at h
    rw [List.length_append]
    exact ⟨by omega, front.length, by omega, by rw [List.drop_left, h]⟩

end Ascii

section Walk

variable {prog : Program} {tables : Tables} {forceerrs : Int} {trial lit : Bytes} {igncase : Bool}

theorem shape_tail (h : shape prog = some (lit, igncase)) : ∃ nodes tail,
    skip_flags (skip_branch prog.nodes) = .star :: nodes ∧
      literal_chunks nodes = some (lit, .star :: .pEnd :: tail) ∧
      (prog.globflags ||| (leading_flags (skip_branch prog.nodes)).getD 0) &&&
        ~~~(GF_IGNCASE ||| GF_MULTIBYTE) = 0 ∧
      igncase = decide ((prog.globflags ||| (leading_flags (skip_branch prog.nodes)).getD 0) &&& GF_IGNCASE ≠ 0) := by
  rw [shape] at h
  simp only at h
  split at h
  · cases h
  next hmask =>
    split at h
    next first rest hskip =>
      obtain ⟨⟨lit', nodes'⟩, hchunks, h⟩ := Option.bind_eq_some_iff.mp h
      simp only at h
      split at h
      next tail =>
        cases h
        exact ⟨_, tail, hskip, hchunks, not_not.mp hmask, rfl⟩
      · cases h
    · cases h

theorem or_masked {x y k : Flags} : (x ||| y) &&& k = 0 ↔ x &&& k = 0 ∧ y &&& k = 0 := by
  rw [BitVec.and_or_distrib_right]
  exact BitVec.or_eq_zero_iff

theorem and_masked {x k : Flags} (h : x &&& k = 0) (y : Flags) : (x &&& y) &&& k = 0 := by
  rw [BitVec.and_assoc, BitVec.and_comm y, ← BitVec.and_assoc, h]
  exact BitVec.zero_and

theorem masked_of_subset {x m k : Flags} (h : x &&& ~~~m = 0) (hk : k &&& m = 0) : x &&& k = 0 := by
  have hsplit : x &&& k = x &&& k &&& (m ||| ~~~m) := by
    rw [BitVec.or_not_self]
    exact BitVec.and_allOnes.symm
  have hin : x &&& k &&& m = 0 := by
    rw [BitVec.and_assoc, hk]
    exact BitVec.and_zero
  rw [hsplit, BitVec.and_or_distrib_left, hin, and_masked h k]
  exact BitVec.or_zero

theorem in_force_clear {k : Flags}
    (h : (prog.globflags ||| (leading_flags (skip_branch prog.nodes)).getD 0) &&& k = 0) :
    in_force prog &&& k = 0 := by
  obtain ⟨hglob, hbits⟩ := or_masked.mp h
  rw [in_force]
  cases hlead : leading_flags (skip_branch prog.nodes) with
  | none => exact hglob
  | some bits =>
      rw [hlead] at hbits
      exact or_masked.mpr ⟨and_masked hglob _, hbits⟩

/-- The walk of a `*literal*`: a place where a star may stop and the literal stands. -/
theorem walk_star (h : shape prog = some (lit, igncase))
    (hdot : ¬ (prog.flags &&& PAT_NOGLD ≠ 0 ∧ trial.head? = some 46)) (f : UInt8 → UInt8)
    (hat : ∀ c t, c ⊆ lit → t ⊆ trial →
      (exactly_at (prog.statics tables forceerrs trial) (in_force prog) c t = true ↔ c.map f <+: t.map f)) :
    prog.walk tables forceerrs trial =
      if ∃ rest ∈ stops tables.mbrtowc (in_force prog) trial.length trial,
        lit.map f <+: rest.map f then some trial.length else none := by
  obtain ⟨nodes, tail, hskip, hchunks, hmask, _⟩ := shape_tail h
  have herrs : in_force prog &&& 0xff = 0 := in_force_clear (masked_of_subset hmask (by decide))
  have hdots : (prog.statics tables forceerrs trial).string.head? = some 46 →
      (prog.statics tables forceerrs trial).globdots = true := by
    intro hhead
    by_contra hno
    exact hdot ⟨fun h => hno (by simp [Program.statics, h]), hhead⟩
  have hrest : ∀ rest ∈ (stops tables.mbrtowc (in_force prog) trial.length trial).reverse,
      patmatch (prog.statics tables forceerrs trial) 127 nodes rest 0 (in_force prog) =
        if lit.map f <+: rest.map f then some ([], 0) else none := by
    intro rest hrest
    have hsuffix := stops_suffix (List.mem_reverse.mp hrest)
    rw [patmatch, run_chunks hdots herrs f _ hchunks
      fun c t hc ht => hat c t hc (List.Subset.trans ht hsuffix.subset), run_star_end hdots]
  rw [Program.walk, PATMATCH_MAX_DEPTH, patmatch, run_front, hskip, run]
  have htables : (prog.statics tables forceerrs trial).mbrtowc = tables.mbrtowc := rfl
  simp only [not_dotted hdots, Bool.false_eq_true, if_false, htables]
  rw [findSome?_const hrest]
  simp only [List.mem_reverse]
  split
  · simp
  · rfl

theorem infix_iff {α : Type} {l s : List α} : l <:+: s ↔ ∃ rest, rest <:+ s ∧ l <+: rest := by
  constructor
  · rintro ⟨a, b, rfl⟩
    exact ⟨l ++ b, ⟨a, by rw [List.append_assoc]⟩, List.prefix_append l b⟩
  · rintro ⟨rest, hsuffix, hprefix⟩
    exact hprefix.isInfix.trans hsuffix.isInfix

theorem fast_path_cases {refs : Bool} {patoffset : Int} {answer : Option Nat}
    (h : fast_path prog refs patoffset trial = some answer) :
    ¬ (prog.flags &&& PAT_NOGLD ≠ 0 ∧ trial.head? = some 46) ∧ ∃ lit igncase, shape prog = some (lit, igncase) ∧
      if igncase then is_ascii lit = true ∧ is_ascii trial = true ∧
        answer = if scan_ascii lit trial then some trial.length else none
      else answer = if lit <:+: trial then some trial.length else none := by
  rw [fast_path] at h
  split at h
  next hcond =>
    simp only [Bool.and_eq_true, Bool.not_eq_true', Bool.and_eq_false_iff, decide_eq_true_eq,
      decide_eq_false_iff_not] at hcond
    obtain ⟨⟨lit, igncase⟩, hshape, h⟩ := Option.bind_eq_some_iff.mp h
    refine ⟨fun hno => ?_, lit, igncase, hshape, ?_⟩
    · exact hcond.2.elim (fun hl => hl hno.1) (fun hr => hr hno.2)
    · cases igncase with
      | false =>
          simp only [Bool.not_false, if_true, Option.some.injEq, decide_eq_true_eq] at h
          exact h.symm
      | true =>
          simp only [Bool.not_true, Bool.false_eq_true, if_false] at h
          obtain ⟨hascii, h⟩ := Option.ite_none_right_eq_some.mp h
          rw [Bool.and_eq_true] at hascii
          exact ⟨hascii.1, hascii.2, (Option.some.inj h).symm⟩
  next => cases h

theorem reachable_iff (h : shape prog = some (lit, igncase)) : Reachable prog tables trial ↔
    if igncase then in_force prog &&& GF_IGNCASE ≠ 0 ∨ (scan_ascii lit trial = true → lit <:+: trial)
    else lit <:+: trial →
      ∃ rest ∈ stops tables.mbrtowc (in_force prog) trial.length trial, lit <+: rest := by
  constructor
  · exact fun hr => hr lit igncase h
  · intro hr lit' igncase' h'
    rw [h] at h'
    cases h'
    exact hr

/-- The fast path answers as the walk does exactly where the occurrences it finds can be reached. -/
theorem fast_path_eq_walk {refs : Bool} {patoffset : Int} {answer : Option Nat}
    (h : fast_path prog refs patoffset trial = some answer) :
    answer = prog.walk tables forceerrs trial ↔ Reachable prog tables trial := by
  obtain ⟨hdot, lit, igncase, hshape, hanswer⟩ := fast_path_cases h
  have same {p q : Prop} [Decidable p] [Decidable q] :
      (if p then some trial.length else none) = (if q then some trial.length else none) ↔ (p ↔ q) := by
    by_cases hp : p <;> by_cases hq : q <;> simp [hp, hq]
  obtain ⟨nodes, tail, _, _, hmask, higncase⟩ := shape_tail hshape
  have hlc : in_force prog &&& GF_LCMATCHUC = 0 := in_force_clear (masked_of_subset hmask (by decide))
  have plain (hign : in_force prog &&& GF_IGNCASE = 0) : prog.walk tables forceerrs trial =
      if ∃ rest ∈ stops tables.mbrtowc (in_force prog) trial.length trial, lit <+: rest then some trial.length
      else none := by
    have hcase : in_force prog &&& (GF_IGNCASE ||| GF_LCMATCHUC) = 0 := by
      rw [BitVec.and_or_distrib_left, hign, hlc]
      rfl
    have hwalk := @walk_star prog tables forceerrs trial lit igncase hshape hdot id
      fun c t _ _ => by rw [exactly_at_plain hcase, List.map_id, List.map_id]
    simpa only [List.map_id] using hwalk
  rw [reachable_iff hshape]
  cases igncase with
  | false =>
      rw [if_neg Bool.false_ne_true] at hanswer ⊢
      have hign : in_force prog &&& GF_IGNCASE = 0 :=
        in_force_clear (not_not.mp (of_decide_eq_false higncase.symm))
      rw [hanswer, plain hign, same]
      refine ⟨fun h => h.mp, fun h => ⟨h, ?_⟩⟩
      rintro ⟨rest, hrest, hprefix⟩
      exact infix_iff.mpr ⟨rest, stops_suffix hrest, hprefix⟩
  | true =>
      rw [if_pos rfl] at hanswer ⊢
      obtain ⟨hlit, htrial, hanswer⟩ := hanswer
      rw [is_ascii_iff] at hlit htrial
      rw [hanswer]
      by_cases hign : in_force prog &&& GF_IGNCASE = 0
      · rw [plain hign, same, or_iff_right (not_not.mpr hign)]
        simp only [mem_stops_ascii htrial (Nat.le_refl _)]
        rw [← infix_iff]
        refine ⟨fun h => h.mp, fun h => ⟨h, fun hin => ?_⟩⟩
        obtain ⟨rest, hsuffix, hprefix⟩ := infix_iff.mp hin
        exact scan_ascii_iff.mpr ⟨rest, hsuffix, hprefix.map _⟩
      · refine iff_of_true ?_ (.inl hign)
        rw [walk_star hshape hdot to_ascii_lowercase fun c t hc ht =>
          exactly_at_fold hign (fun b hb => hlit b (hc hb)) (fun b hb => htrial b (ht hb)), same]
        simp only [mem_stops_ascii htrial (Nat.le_refl _)]
        exact scan_ascii_iff

end Walk

/-- The program of `*lit*`. -/
def star_program (globflags : Flags) (front : List Node) (lit : Str) : Program where
  flags := 0
  globflags := globflags
  nodes := .branch :: front ++ [.star, .exactly (Utf8.encode lit), .star, .pEnd]

/-- `AB` is found for `ab` where case is folded. -/
theorem found_folded :
    some 4 = (star_program (GF_MULTIBYTE ||| GF_IGNCASE) [] ['a', 'b']).walk utf8_tables (-1) [120, 65, 66, 121] := by
  have hfast : fast_path (star_program (GF_MULTIBYTE ||| GF_IGNCASE) [] ['a', 'b']) false 0 [120, 65, 66, 121] =
      some (some 4) := by
    decide
  have hshape : shape (star_program (GF_MULTIBYTE ||| GF_IGNCASE) [] ['a', 'b']) = some ([97, 98], true) := by decide
  exact (fast_path_eq_walk hfast).mpr ((reachable_iff hshape).mpr (.inl (by decide)))

/-- An `É` is found in the raw byte E9, which is stored as `Meta` and `É`; and a flag that a node has taken
back still folds case. -/
theorem fast_path_visible :
    fast_path (star_program GF_MULTIBYTE [] ['É']) false 0 (Utf8.encode [Meta, 'É']) = some (some 4) ∧
      (star_program GF_MULTIBYTE [] ['É']).walk utf8_tables (-1) (Utf8.encode [Meta, 'É']) = none ∧
      fast_path (star_program (GF_MULTIBYTE ||| GF_IGNCASE) [.gflags GF_MULTIBYTE] ['a']) false 0 [65] =
        some (some 1) ∧
      (star_program (GF_MULTIBYTE ||| GF_IGNCASE) [.gflags GF_MULTIBYTE] ['a']).walk utf8_tables (-1) [65] = none := by
  decide +kernel

end Zshrs.Pattern
