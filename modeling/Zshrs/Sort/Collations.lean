import Zshrs.Sort.KeyOrder

namespace Zshrs.Sort

open Glob Lib Std

section Ends

variable {s t x y : Bytes}

theorem byteAt_ends (hx : Ends x) {i : Nat} (hi : i ≤ s.length) : byteAt (s ++ x) i = byteAt s i := by
  rcases Nat.lt_or_eq_of_le hi with hlt | rfl
  · rw [byteAt_of_lt x hlt]
    have h := byteAt_of_lt [] hlt
    rw [List.append_nil] at h
    exact h.symm
  · have h := byteAt_append s x 0
    have h' := byteAt_append s [] 0
    rw [Nat.add_zero] at h h'
    rw [List.append_nil] at h'
    rw [h, h']
    rcases hx with rfl | ⟨y, rfl⟩
    · rfl
    · rfl

theorem rewind_ends (hx : Ends x) {i : Nat} (hi : i ≤ s.length) : rewind (s ++ x) i = rewind s i := by
  induction i with
  | zero => rfl
  | succ i ih =>
      rw [rewind, rewind, byteAt_ends hx (Nat.le_of_succ_le hi), ih (Nat.le_of_succ_le hi)]

theorem rewind_le (s : Bytes) (i : Nat) : rewind s i ≤ i := by
  induction i with
  | zero => exact Nat.le_refl 0
  | succ i ih =>
      rw [rewind]
      by_cases h : is_digit (byteAt s i) = true
      · rw [if_pos h]
        exact Nat.le_succ_of_le ih
      · rw [if_neg h]

theorem strcoll_ends (hs : 0 ∉ s) (ht : 0 ∉ t) (hx : Ends x) (hy : Ends y) :
    strcoll (s ++ x) (t ++ y) = compare s t := by
  have stop {s x : Bytes} (hs : 0 ∉ s) (hx : Ends x) : (s ++ x).takeWhile (· != 0) = s := by
    have all : ∀ c ∈ s, (c != 0) = true := by
      intro c hc
      simpa using fun e : c = 0 => hs (e ▸ hc)
    rw [List.takeWhile_append_of_pos all]
    rcases hx with rfl | ⟨y, rfl⟩
    · exact List.append_nil s
    · exact List.append_nil s
  unfold strcoll
  rw [stop hs hx, stop ht hy]

/-- The runs end in the parts, so what follows these does not count. -/
theorem runs_ends (neg : Bool) (s t : Bytes) (hx : Ends x) (hy : Ends y) :
    runs (if neg then -1 else 1) (s ++ x) (t ++ y) = runs (if neg then -1 else 1) s t := by
  have stops {r x : Bytes} (hr : Stops r) (hx : Ends x) : Stops (r ++ x) := by
    cases r with
    | nil =>
        rcases hx with rfl | ⟨y, rfl⟩
        · exact hr
        · rfl
    | cons c r => exact hr
  have plain : runs 1 (s ++ x) (t ++ y) = runs 1 s t := by
    obtain ⟨z, d, r, rfl, hd, hr⟩ := exists_numeral s
    obtain ⟨w, e, q, rfl, he, hq⟩ := exists_numeral t
    rw [List.append_assoc, List.append_assoc, runs_eq hd he (stops hr hx) (stops hq hy), runs_eq hd he hr hq]
  cases neg with
  | false => exact plain
  | true => rw [if_pos rfl, runs_minus, runs_minus, plain]

/-- A minus and the digit behind it stand in the part. -/
theorem minus_ends (signed : Bool) (hx : Ends x) {i : Nat} (hi : i ≤ s.length) :
    (signed && byteAt (s ++ x) i == 45 && is_digit (byteAt (s ++ x) (i + 1))) =
      (signed && byteAt s i == 45 && is_digit (byteAt s (i + 1))) := by
  rw [byteAt_ends hx hi]
  rcases Nat.lt_or_eq_of_le hi with hlt | rfl
  · rw [byteAt_ends hx hlt]
  · have nul := byteAt_append s [] 0
    rw [List.append_nil, Nat.add_zero] at nul
    rw [nul]
    cases signed <;> rfl

theorem compare_ends_lt {d : UInt8} (hd : d ≠ 0) (hx : Ends x) (t : Bytes) : compare x (d :: t) = .lt := by
  rcases hx with rfl | ⟨y, rfl⟩
  · rfl
  · rw [compare_of_head_ne (Ne.symm hd)]
    exact Std.compare_eq_lt.mpr (UInt8.pos_iff_ne_zero.mpr hd)

theorem compare_ends_gt {d : UInt8} (hd : d ≠ 0) (hx : Ends x) (t : Bytes) : compare (d :: t) x = .gt := by
  have h : compare (d :: t) x = (compare x (d :: t)).swap := OrientedOrd.eq_swap
  rw [h, compare_ends_lt hd hx]
  rfl

theorem compare_heads (hs : 0 ∉ s) (ht : 0 ∉ t) (h : s.head? ≠ t.head?) (hx : Ends x) (hy : Ends y) :
    compare (s ++ x) (t ++ y) = compare s t := by
  cases s with
  | nil =>
      cases t with
      | nil => exact absurd rfl h
      | cons d t => exact compare_ends_lt (fun e => ht (e ▸ List.mem_cons_self)) hx (t ++ y)
  | cons c s =>
      cases t with
      | nil => exact compare_ends_gt (fun e => hs (e ▸ List.mem_cons_self)) hy (s ++ x)
      | cons d t =>
          have hcd : c ≠ d := fun e => h (congrArg some e)
          rw [List.cons_append, List.cons_append, compare_of_head_ne hcd, compare_of_head_ne hcd]

/-- Where the parts differ, so do they with what follows them. -/
theorem heads_differ (hs : 0 ∉ s) (ht : 0 ∉ t) (h : s.head? ≠ t.head?) (hx : Ends x) (hy : Ends y) :
    (s ++ x).head? ≠ (t ++ y).head? := by
  have follows {u z : Bytes} (c : UInt8) (hc : c ≠ 0) (hz : Ends z) : z.head? ≠ (c :: u).head? := by
    rcases hz with rfl | ⟨y, rfl⟩
    · simp
    · exact fun e => hc (Option.some.inj e).symm
  cases s with
  | nil =>
      cases t with
      | nil => exact absurd rfl h
      | cons d t => exact follows d (fun e => ht (e ▸ List.mem_cons_self)) hx
  | cons c s =>
      cases t with
      | nil => exact (follows c (fun e => hs (e ▸ List.mem_cons_self)) hy).symm
      | cons d t => exact h

/-- A NUL ends what is read of a number. -/
theorem cmp_numeric_ends (hs : 0 ∉ s) (ht : 0 ∉ t) (hst : s ≠ t) (hx : Ends x) (hy : Ends y) (signed : Bool) :
    cmp_numeric (s ++ x) (t ++ y) signed = cmp_numeric s t signed := by
  obtain ⟨p, u, v, rfl, rfl, huv⟩ := diverge s t
  have hne : u.head? ≠ v.head? := by
    rcases huv with ⟨rfl, rfl⟩ | huv
    · exact absurd rfl hst
    · exact huv
  have hp : 0 ∉ p := fun h => hs (List.mem_append_left u h)
  have hu : 0 ∉ u := fun h => hs (List.mem_append_right p h)
  have hv : 0 ∉ v := fun h => ht (List.mem_append_right p h)
  have far : together (fun x y => x == y && x != 0) (p ++ u ++ x) (p ++ v ++ y) = p.length := by
    rw [List.append_assoc, List.append_assoc, together_append (passes hp),
      together_of_head_ne (heads_differ hu hv hne hx hy), Nat.add_zero]
  have near : together (fun x y => x == y && x != 0) (p ++ u) (p ++ v) = p.length := by
    rw [together_append (passes hp), together_of_head_ne hne, Nat.add_zero]
  have inside (w : Bytes) : p.length ≤ (p ++ w).length := by
    rw [List.length_append]
    exact Nat.le_add_right _ _
  have back (w : Bytes) : rewind (p ++ u) p.length ≤ (p ++ w).length :=
    Nat.le_trans (rewind_le _ _) (inside w)
  have before : rewind (p ++ u) p.length - 1 ≤ (p ++ u).length := Nat.le_trans (Nat.sub_le _ _) (back u)
  unfold cmp_numeric
  dsimp only
  rw [far, near, minus_ends signed hx (inside u), minus_ends signed hy (inside v), rewind_ends hx (inside u),
    byteAt_ends hx (inside u), byteAt_ends hy (inside v), byteAt_ends hx (back u), byteAt_ends hy (back v),
    byteAt_ends hx before, List.drop_append_of_le_length (back u), List.drop_append_of_le_length (back v),
    runs_ends _ _ _ hx hy, strcoll_ends hs ht hx hy, strcoll_eq hs ht]

end Ends

section Flags

/-- The strict emulations compare bytes, NULs among them. -/
theorem inner_bytes {m : Modes} (hm : (m.dash_strict || m.pdksh_family) = true) (flags : UInt32) :
    Inner (fun _ => True) compare fun a b => zstrcmp m a b flags where
  trans := reads_lexical.trans
  tells _ _ hs ht h := reads_lexical.eq_of_eq hs ht h
  part _ _ _ _ := trivial
  same s _ _ := by
    rw [zstrcmp, if_pos hm]
    exact ReflOrd.compare_self
  differ s t x y hs ht hst hx hy _ _ := by
    rw [zstrcmp, if_pos hm]
    obtain ⟨p, u, v, rfl, rfl, huv⟩ := diverge s t
    have hne : u.head? ≠ v.head? := by
      rcases huv with ⟨rfl, rfl⟩ | huv
      · exact absurd rfl hst
      · exact huv
    have hu : 0 ∉ u := fun h => hs (List.mem_append_right p h)
    have hv : 0 ∉ v := fun h => ht (List.mem_append_right p h)
    rw [List.append_assoc, List.append_assoc, compare_append, compare_append]
    exact compare_heads hu hv hne hx hy

def numeric (flags : UInt32) : Bool :=
  flags &&& SORTIT_NUMERICALLY_SIGNED != 0 || flags &&& SORTIT_NUMERICALLY != 0

/-- How parts are compared. -/
def plain (flags : UInt32) : Bytes → Bytes → Ordering :=
  if flags &&& SORTIT_NUMERICALLY_SIGNED != 0 then signcmp false
  else if flags &&& SORTIT_NUMERICALLY != 0 then numcmp
  else compare

theorem plain_trans (flags : UInt32) : TransCmp fun s t : FileName => plain flags s.bytes t.bytes := by
  unfold plain
  split
  · exact signcmp_trans
  · split
    · exact reads_numeric.trans
    · exact reads_lexical.trans

theorem plain_tells (flags : UInt32) {s t : Bytes} (hs : 0 ∉ s) (ht : 0 ∉ t) (h : plain flags s t = .eq) : s = t := by
  unfold plain at h
  split at h
  · exact eq_of_signcmp hs ht h
  · split at h
    · exact reads_numeric.eq_of_eq hs ht h
    · exact reads_lexical.eq_of_eq hs ht h

theorem plain_lexical {flags : UInt32} (hn : numeric flags = false) : plain flags = compare := by
  unfold numeric at hn
  rw [Bool.or_eq_false_iff] at hn
  unfold plain
  rw [hn.1, hn.2]
  rfl

/-- A key that the flags read as it stands. -/
structure Straight (flags : UInt32) (s : Bytes) : Prop where
  signs : (flags &&& SORTIT_NUMERICALLY_SIGNED != 0) = true → ¬Clash s
  backslashes : (flags &&& SORTIT_IGNORING_BACKSLASHES != 0) = true → 92 ∉ s

theorem filter_without {s : Bytes} (h : 92 ∉ s) : s.filter (· != 92) = s := by
  apply List.filter_eq_self.mpr
  intro c hc
  simpa using fun e : c = 92 => h (e ▸ hc)

theorem ignoring_without {a b : Bytes} (ha : 92 ∉ a) (hb : 92 ∉ b) (n : Bool) :
    ignoringBackslashes n a b = (a, b) := by
  unfold ignoringBackslashes
  rw [filter_without ha, filter_without hb]
  have none {s : Bytes} (h : 92 ∉ s) : s.contains 92 = false := by
    rw [← Bool.not_eq_true, List.contains_iff_mem]
    exact h
  rw [none ha, none hb]
  cases n with
  | false => rfl
  | true => rfl

/-- The collation of two operands, once backslashes are dealt with. -/
def collate (flags : UInt32) (a b : Bytes) : Ordering :=
  if numeric flags then cmp_numeric a b (flags &&& SORTIT_NUMERICALLY_SIGNED != 0) else strcoll a b

theorem zstrcmp_collate {m : Modes} (hm : (m.dash_strict || m.pdksh_family) = false) (a b : Bytes)
    (flags : UInt32) : zstrcmp m a b flags =
      if flags &&& SORTIT_IGNORING_BACKSLASHES != 0 then
        collate flags (ignoringBackslashes (numeric flags) a b).1 (ignoringBackslashes (numeric flags) a b).2
      else collate flags a b := by
  unfold zstrcmp
  rw [if_neg (by rw [hm]; exact Bool.false_ne_true)]
  dsimp only
  by_cases h : (flags &&& SORTIT_IGNORING_BACKSLASHES != 0) = true
  · rw [if_pos h, if_pos h]
    rfl
  · rw [if_neg h, if_neg h]
    rfl

theorem collate_plain {flags : UInt32} {a b : Bytes} (ha : 0 ∉ a) (hb : 0 ∉ b)
    (hca : (flags &&& SORTIT_NUMERICALLY_SIGNED != 0) = true → ¬Clash a)
    (hcb : (flags &&& SORTIT_NUMERICALLY_SIGNED != 0) = true → ¬Clash b) : collate flags a b = plain flags a b := by
  unfold collate plain numeric
  by_cases hs : (flags &&& SORTIT_NUMERICALLY_SIGNED != 0) = true
  · rw [if_pos hs, hs]
    exact cmp_numeric_signed ha hb (hca hs) (hcb hs)
  · rw [if_neg hs, Bool.eq_false_iff.mpr hs, Bool.false_or]
    by_cases hn : (flags &&& SORTIT_NUMERICALLY != 0) = true
    · rw [if_pos hn, if_pos hn]
      rfl
    · rw [if_neg hn, if_neg hn]
      exact strcoll_eq ha hb

theorem collate_ends {flags : UInt32} {s t x y : Bytes} (hs : 0 ∉ s) (ht : 0 ∉ t) (hst : s ≠ t) (hx : Ends x)
    (hy : Ends y) : collate flags (s ++ x) (t ++ y) = collate flags s t := by
  unfold collate
  split
  · exact cmp_numeric_ends hs ht hst hx hy _
  · rw [strcoll_ends hs ht hx hy, strcoll_eq hs ht]

theorem zstrcmp_straight {m : Modes} (hm : (m.dash_strict || m.pdksh_family) = false) {flags : UInt32} {a b : Bytes}
    (ha : Straight flags a) (hb : Straight flags b) : zstrcmp m a b flags = collate flags a b := by
  rw [zstrcmp_collate hm]
  by_cases hi : (flags &&& SORTIT_IGNORING_BACKSLASHES != 0) = true
  · rw [if_pos hi, ignoring_without (ha.backslashes hi) (hb.backslashes hi)]
  · rw [if_neg hi]

theorem inner_plain {m : Modes} (hm : (m.dash_strict || m.pdksh_family) = false) (flags : UInt32) :
    Inner (Straight flags) (plain flags) fun a b => zstrcmp m a b flags where
  trans := plain_trans flags
  tells _ _ hs ht h := plain_tells flags hs ht h
  part x s y h := ⟨fun hs hc => h.signs hs (hc.append x y),
    fun hi hc => h.backslashes hi (List.mem_append_left y (List.mem_append_right x hc))⟩
  same s hs h := by
    have trans := plain_trans flags
    rw [zstrcmp_straight hm h h, collate_plain hs hs h.signs h.signs]
    exact @ReflCmp.compare_self FileName (fun s t => plain flags s.bytes t.bytes) _ ⟨s, hs⟩
  differ s t x y hs ht hst hx hy ha hb := by
    have left {s x : Bytes} (h : Straight flags (s ++ x)) (hs : (flags &&& SORTIT_NUMERICALLY_SIGNED != 0) = true) :
        ¬Clash s := fun hc => h.signs hs (hc.append [] x)
    rw [zstrcmp_straight hm ha hb, collate_ends hs ht hst hx hy, collate_plain hs ht (left ha) (left hb)]

end Flags

section Backslashes

/-- A backslash in front of a byte does not count, and one at the end goes behind the end alone. -/
def unescaped : Bytes → Bytes
  | [] => []
  | [c] => if c = 92 then [0] else [c]
  | c :: d :: s => if c = 92 then d :: unescaped s else c :: unescaped (d :: s)

variable {a b : Bytes}

theorem unescaped_eq (h : a ≠ []) :
    unescaped a = (stripBackslash a).headD 0 :: unescaped (stripBackslash a).tail := by
  unfold stripBackslash
  cases a with
  | nil => exact absurd rfl h
  | cons c s =>
      by_cases hc : c = 92
      · subst hc
        cases s with
        | nil => rfl
        | cons d s => rfl
      · have hne : ¬ (c :: s).head? = some 92 := fun e => hc (Option.some.inj e)
        rw [if_neg hne]
        cases s with
        | nil =>
            rw [unescaped, if_neg hc]
            rfl
        | cons d s =>
            rw [unescaped, if_neg hc]
            rfl

theorem unescaped_without (h : 92 ∉ a) : unescaped a = a := by
  induction a with
  | nil => rfl
  | cons c s ih =>
      have hc : c ≠ 92 := fun e => h (e ▸ List.mem_cons_self)
      have hne : ¬ (c :: s).head? = some 92 := fun e => hc (Option.some.inj e)
      rw [unescaped_eq (List.cons_ne_nil c s)]
      unfold stripBackslash
      rw [if_neg hne, List.tail_cons, ih fun h' => h (List.mem_cons_of_mem c h')]
      rfl

theorem stripBackslash_no_nul (h : 0 ∉ a) : 0 ∉ stripBackslash a := by
  unfold stripBackslash
  by_cases hc : a.head? = some 92
  · rw [if_pos hc]
    exact fun h' => h (List.mem_of_mem_tail h')
  · rwa [if_neg hc]

theorem length_stripBackslash (a : Bytes) : (stripBackslash a).length ≤ a.length := by
  unfold stripBackslash
  by_cases hc : a.head? = some 92
  · rw [if_pos hc, List.length_tail]
    exact Nat.sub_le _ _
  · rw [if_neg hc]

/-- Skipping backslashes up to the first mismatch compares what is left without them. -/
theorem skipBackslashes_eq {n : Nat} (hn : a.length ≤ n) (ha : 0 ∉ a) (hb : 0 ∉ b) :
    strcoll (skipBackslashes n a b).1 (skipBackslashes n a b).2 = compare (unescaped a) (unescaped b) := by
  have ended {a b : Bytes} (ha : 0 ∉ a) (hb : 0 ∉ b) (h : a = [] ∨ b = []) :
      strcoll a b = compare (unescaped a) (unescaped b) := by
    rw [strcoll_eq ha hb]
    cases a with
    | nil =>
        cases b with
        | nil => rfl
        | cons d b =>
            rw [unescaped_eq (List.cons_ne_nil d b)]
            rfl
    | cons c a =>
        cases b with
        | nil =>
            rw [unescaped_eq (List.cons_ne_nil c a)]
            rfl
        | cons d b =>
            rcases h with h | h
            · exact absurd h (List.cons_ne_nil c a)
            · exact absurd h (List.cons_ne_nil d b)
  induction n generalizing a b with
  | zero => exact ended ha hb (.inl (List.length_eq_zero_iff.mp (Nat.le_zero.mp hn)))
  | succ n ih =>
      rw [skipBackslashes]
      by_cases h : a = [] ∨ b = []
      · rw [if_pos h]
        exact ended ha hb h
      · rw [if_neg h]
        have hane : a ≠ [] := fun e => h (.inl e)
        have hbne : b ≠ [] := fun e => h (.inr e)
        have hsa := stripBackslash_no_nul ha
        have hsb := stripBackslash_no_nul hb
        have hlen := length_stripBackslash a
        rw [unescaped_eq hane, unescaped_eq hbne]
        generalize stripBackslash a = u at hsa hlen ⊢
        generalize stripBackslash b = v at hsb ⊢
        cases u with
        | nil =>
            cases v with
            | nil => rfl
            | cons d v =>
                have hd : d ≠ 0 := fun e => hsb (e ▸ List.mem_cons_self)
                rw [strcoll_eq hsa hsb]
                exact (compare_ends_lt hd (.inr ⟨_, rfl⟩) _).symm
        | cons c u =>
            have hc : c ≠ 0 := fun e => hsa (e ▸ List.mem_cons_self)
            cases v with
            | nil =>
                rw [strcoll_eq hsa hsb]
                exact (compare_ends_gt hc (.inr ⟨_, rfl⟩) _).symm
            | cons d v =>
                by_cases hcd : c = d
                · subst hcd
                  rw [List.length_cons] at hlen
                  have rest := @ih u v (by omega) (fun h => hsa (List.mem_cons_of_mem c h))
                    (fun h => hsb (List.mem_cons_of_mem c h))
                  have heads : compare (c :: unescaped u) (c :: unescaped v) = compare (unescaped u) (unescaped v) :=
                    compare_append [c] _ _
                  dsimp only
                  rw [if_pos rfl]
                  exact rest.trans heads.symm
                · dsimp only
                  rw [if_neg hcd, strcoll_eq hsa hsb, compare_of_head_ne hcd]
                  exact (compare_of_head_ne hcd _ _).symm

/-- With the backslashes ignored, keys without a NUL are compared by what is left of them. -/
def bared (flags : UInt32) (a : Bytes) : Bytes :=
  if numeric flags then a.filter (· != 92) else unescaped a

theorem bared_no_nul (flags : UInt32) (ha : 0 ∉ a) (hn : numeric flags = true) : 0 ∉ bared flags a := by
  unfold bared
  rw [if_pos hn]
  exact fun h => ha (List.mem_of_mem_filter h)

theorem zstrcmp_bared {m : Modes} (hm : (m.dash_strict || m.pdksh_family) = false) {flags : UInt32}
    (hi : (flags &&& SORTIT_IGNORING_BACKSLASHES != 0) = true) (ha : 0 ∉ a) (hb : 0 ∉ b)
    (hca : (flags &&& SORTIT_NUMERICALLY_SIGNED != 0) = true → ¬Clash (bared flags a))
    (hcb : (flags &&& SORTIT_NUMERICALLY_SIGNED != 0) = true → ¬Clash (bared flags b)) :
    zstrcmp m a b flags = plain flags (bared flags a) (bared flags b) := by
  rw [zstrcmp_collate hm, if_pos hi]
  cases hn : numeric flags with
  | true =>
      rw [← collate_plain (bared_no_nul flags ha hn) (bared_no_nul flags hb hn) hca hcb]
      unfold ignoringBackslashes bared
      rw [hn]
      rfl
  | false =>
      unfold collate bared ignoringBackslashes
      rw [plain_lexical hn, hn, if_neg Bool.false_ne_true, if_neg Bool.false_ne_true, if_neg Bool.false_ne_true,
        if_neg Bool.false_ne_true]
      by_cases h : (!a.contains 92 && !b.contains 92) = true
      · rw [if_pos h, strcoll_eq ha hb]
        rw [Bool.and_eq_true, Bool.not_eq_true', Bool.not_eq_true', ← Bool.not_eq_true, ← Bool.not_eq_true,
          List.contains_iff_mem, List.contains_iff_mem] at h
        rw [unescaped_without h.1, unescaped_without h.2]
      · rw [if_neg h]
        exact skipBackslashes_eq (Nat.le_refl _) ha hb

end Backslashes

end Zshrs.Sort
