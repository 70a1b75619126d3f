import Mathlib.Algebra.Group.Int.Defs
import Mathlib.Algebra.Group.Nat.Defs
import Zshrs.Glob.Hasbraces
import Zshrs.Glob.Zstrcmp
import Zshrs.Lib.Comparators
import Zshrs.Lib.TolerantSort
import Zshrs.Lib.Utf8
import Zshrs.Glob.SignedOrder

namespace Zshrs.Sort

open Glob Lib Std

abbrev Str := List Char

def SORTIT_IGNORING_CASE : UInt32 := 1
def SORTIT_BACKWARDS : UInt32 := 8

/-- A string with what it is compared by. The length is -1 where no NUL is in it. -/
structure sortelt where
  orig : Str
  cmp : Bytes
  len : Int

/-- Both cursors go on while their bytes are equal and the length lasts. What follows the last NUL that
they have passed together is kept. -/
def walk (both : Bool) : Nat → Bytes → Bytes → Bytes → Bytes → (Bytes × Bytes) × (Bytes × Bytes)
  | 0, a, b, lasta, lastb => ((a, b), (lasta, lastb))
  | len + 1, a, b, lasta, lastb =>
    if a.headD 0 ≠ b.headD 0 then ((a, b), (lasta, lastb))
    else if a.headD 0 = 0 then
      if both then walk both len a.tail b.tail a.tail b.tail else ((a, b), (lasta, lastb))
    else walk both len a.tail b.tail lasta lastb

def eltpcmp (m : Modes) (a b : sortelt) (sort_flags : UInt32) : Ordering :=
  let flags := sort_flags &&& ~~~SORTIT_BACKWARDS
  let a_has_len : Bool := 0 ≤ a.len
  let b_has_len : Bool := 0 ≤ b.len
  let result :=
    if !a_has_len && !b_has_len then zstrcmp m a.cmp b.cmp flags
    else
      let len := if a_has_len then (if b_has_len then min a.len b.len else a.len) else b.len
      let r := walk (a_has_len && b_has_len) len.toNat a.cmp b.cmp a.cmp b.cmp
      let alen := if a_has_len then a.len else -1
      let blen := if b_has_len then b.len else -1
      if r.1.1.headD 0 = r.1.2.headD 0 ∧ alen ≠ blen then
        if a_has_len then (if b_has_len then compare alen blen else .gt) else .lt
      else zstrcmp m r.2.1 r.2.2 flags
  if sort_flags &&& SORTIT_BACKWARDS != 0 then result.swap else result

/-- What the library and the locale say of letters. -/
structure Locale where
  multibyte : Bool
  to_lowercase : Char → Str
  tulower : UInt8 → UInt8

/-- Chars are folded up to the first byte that is not of one; from there on, bytes are. -/
def lower_multibyte (env : Locale) : Nat → Bytes → Bytes
  | 0, _ => []
  | _ + 1, [] => []
  | n + 1, b :: src =>
    if b = 0 then 0 :: lower_multibyte env n src
    else
      match Utf8.look (b :: src) with
      | .char wc clen => Utf8.encode (env.to_lowercase wc) ++ lower_multibyte env n ((b :: src).drop clen)
      | _ => (b :: src).map env.tulower

def lower_bytes (env : Locale) (src : Bytes) : Bytes :=
  if env.multibyte then lower_multibyte env src.length src else src.map env.tulower

/-- One backslash in front of each byte is dropped. -/
def strip_backslashes : Bytes → Bytes
  | [] => []
  | [c] => if c = 92 then [] else [c]
  | c :: d :: src => if c = 92 then d :: strip_backslashes src else c :: strip_backslashes (d :: src)

def apply_transforms (env : Locale) (sort_flags : UInt32) (cmp : Bytes) : Bytes :=
  let cmp := if sort_flags &&& SORTIT_IGNORING_CASE != 0 then lower_bytes env cmp else cmp
  if sort_flags &&& SORTIT_IGNORING_BACKSLASHES != 0 then strip_backslashes cmp else cmp

/-- What a string is compared by. -/
def key (env : Locale) (sort_flags : UInt32) (s : Str) : Bytes :=
  apply_transforms env sort_flags (Brace.unmetafy_str s)

def as_i32 (n : Nat) : Int := (n : Int).bmod (2 ^ 32)

def elt (s : Str) (cmp : Bytes) : sortelt := ⟨s, cmp, if cmp.contains 0 then as_i32 cmp.length else -1⟩

/-- The elements that `src` is read from are put in front of those that stay. -/
def gather {α : Type} (indices : List Nat) (original : List α) : List α :=
  indices.filterMap (fun src => original[src]?) ++ original.drop indices.length

/-- The strings sorted, with the lengths that come along. -/
def strmetasort (m : Modes) (env : Locale) (arr : List Str) (sort_flags : UInt32)
    (unmetalenp : Option (List Nat)) : List Str × Option (List Nat) :=
  if arr.length < 2 then (arr, unmetalenp)
  else
    let strs := match unmetalenp with
      | some lens => (arr.zip lens).map Prod.fst
      | none => arr
    let elts := strs.map fun s => elt s (key env sort_flags s)
    let cmp := TolerantSort.at_ (fun a b => eltpcmp m a b sort_flags) elts
    let indices := TolerantSort.qsort_tolerant cmp (List.range elts.length)
    (gather indices arr, unmetalenp.map (gather indices))

section Segments

/-- The parts of a key between its NULs. -/
def segments : Bytes → List FileName
  | [] => [⟨[], List.not_mem_nil⟩]
  | c :: s =>
    if h : c = 0 then ⟨[], List.not_mem_nil⟩ :: segments s
    else
      match segments s with
      | [] => []
      | t :: ts => ⟨c :: t.bytes, List.not_mem_cons_of_ne_of_not_mem (Ne.symm h) t.no_nul⟩ :: ts

/-- What follows a part: nothing, or a NUL. -/
def Ends (x : Bytes) : Prop := x = [] ∨ ∃ y, x = 0 :: y

variable {s t x y : Bytes}

theorem segments_nil : segments [] = [⟨[], List.not_mem_nil⟩] := rfl

theorem segments_zero (s : Bytes) : segments (0 :: s) = ⟨[], List.not_mem_nil⟩ :: segments s := by
  rw [segments, dif_pos rfl]

theorem segments_append (hs : 0 ∉ s) {p : FileName} {ps : List FileName} (h : segments x = p :: ps)
    (hp : p.bytes = []) : segments (s ++ x) = ⟨s, hs⟩ :: ps := by
  induction s with
  | nil =>
      rw [List.nil_append, h]
      obtain ⟨bytes, no_nul⟩ := p
      subst hp
      rfl
  | cons c s ih =>
      have hc : c ≠ 0 := fun e => hs (e ▸ List.mem_cons_self)
      rw [List.cons_append, segments, dif_neg hc, ih fun h => hs (List.mem_cons_of_mem c h)]

/-- A key without a NUL is one part. -/
theorem segments_whole (hs : 0 ∉ s) : segments s = [⟨s, hs⟩] := by
  have h := segments_append hs segments_nil rfl
  rwa [List.append_nil] at h

theorem segments_cut (hs : 0 ∉ s) (x : Bytes) : segments (s ++ 0 :: x) = ⟨s, hs⟩ :: segments x :=
  segments_append hs (segments_zero x) rfl

/-- A key is cut at its first NUL. -/
theorem exists_cut (a : Bytes) : ∃ s x, a = s ++ x ∧ 0 ∉ s ∧ Ends x := by
  induction a with
  | nil => exact ⟨[], [], rfl, List.not_mem_nil, .inl rfl⟩
  | cons c a ih =>
      by_cases hc : c = 0
      · subst hc
        exact ⟨[], 0 :: a, rfl, List.not_mem_nil, .inr ⟨a, rfl⟩⟩
      · obtain ⟨s, x, rfl, hs, hx⟩ := ih
        exact ⟨c :: s, x, rfl, List.not_mem_cons_of_ne_of_not_mem (Ne.symm hc) hs, hx⟩

theorem Ends.headD (h : Ends x) : x.headD 0 = 0 := by
  rcases h with rfl | ⟨y, rfl⟩
  · rfl
  · rfl

/-- The comparison of keys part by part. -/
def partscmp (f : Bytes → Bytes → Ordering) (a b : Bytes) : Ordering :=
  List.compareLex (fun s t : FileName => f s.bytes t.bytes) (segments a) (segments b)

theorem partscmp_ne {f : Bytes → Bytes → Ordering} (hs : 0 ∉ s) (ht : 0 ∉ t) (hx : Ends x) (hy : Ends y)
    (h : f s t ≠ .eq) : partscmp f (s ++ x) (t ++ y) = f s t := by
  have front {s x : Bytes} (hs : 0 ∉ s) (hx : Ends x) : ∃ ps, segments (s ++ x) = ⟨s, hs⟩ :: ps := by
    rcases hx with rfl | ⟨x, rfl⟩
    · rw [List.append_nil, segments_whole hs]
      exact ⟨[], rfl⟩
    · rw [segments_cut hs]
      exact ⟨_, rfl⟩
  obtain ⟨ps, hps⟩ := front hs hx
  obtain ⟨qs, hqs⟩ := front ht hy
  unfold partscmp
  rw [hps, hqs, List.compareLex_cons_cons]
  dsimp only
  cases hf : f s t with
  | lt => rfl
  | gt => rfl
  | eq => exact absurd hf h

theorem partscmp_same {f : Bytes → Bytes → Ordering} (hs : 0 ∉ s) (h : f s s = .eq) (x y : Bytes) :
    partscmp f (s ++ 0 :: x) (s ++ 0 :: y) = partscmp f x y := by
  unfold partscmp
  rw [segments_cut hs, segments_cut hs, List.compareLex_cons_cons, h]
  rfl

end Segments

section Inner

/-- A comparison of what remains of two keys, that looks at the first parts where they differ. Keys may be
left out, if those with such a part are. -/
structure Inner (P : Bytes → Prop) (f zs : Bytes → Bytes → Ordering) : Prop where
  trans : TransCmp fun s t : FileName => f s.bytes t.bytes
  tells : ∀ s t, 0 ∉ s → 0 ∉ t → f s t = .eq → s = t
  part : ∀ x s y, P (x ++ s ++ y) → P s
  same : ∀ s, 0 ∉ s → P s → zs s s = .eq
  differ : ∀ s t x y, 0 ∉ s → 0 ∉ t → s ≠ t → Ends x → Ends y → P (s ++ x) → P (t ++ y) →
    zs (s ++ x) (t ++ y) = f s t

variable {P : Bytes → Prop} {f zs : Bytes → Bytes → Ordering} {s t x y a b : Bytes}

theorem Inner.left (h : Inner P f zs) (hp : P (s ++ x)) : P s := h.part [] s x hp

theorem Inner.behind (h : Inner P f zs) (hp : P (s ++ 0 :: x)) : P x := by
  apply h.part (s ++ [0]) x []
  rw [List.append_nil, List.append_assoc]
  exact hp

theorem Inner.refl (h : Inner P f zs) (hs : 0 ∉ s) : f s s = .eq := by
  have trans := h.trans
  exact @ReflCmp.compare_self FileName (fun s t => f s.bytes t.bytes) _ ⟨s, hs⟩

theorem Inner.parts_trans (h : Inner P f zs) : TransCmp (partscmp f) := by
  have parts := h.trans
  unfold partscmp
  exact Comparators.trans_on segments _

theorem walk_front (both : Bool) {p : Bytes} (hp : 0 ∉ p) (n : Nat) (x y lasta lastb : Bytes) :
    walk both (p.length + n) (p ++ x) (p ++ y) lasta lastb = walk both n x y lasta lastb := by
  induction p with
  | nil => rw [List.length_nil, Nat.zero_add, List.nil_append, List.nil_append]
  | cons c p ih =>
      have hc : c ≠ 0 := fun e => hp (e ▸ List.mem_cons_self)
      have length : (c :: p).length + n = (p.length + n) + 1 := by
        rw [List.length_cons]
        omega
      rw [length, walk]
      exact (if_neg (not_not_intro rfl)).trans ((if_neg hc).trans (ih fun h => hp (List.mem_cons_of_mem c h)))

theorem walk_stop (both : Bool) (n : Nat) (h : x.headD 0 ≠ y.headD 0) (lasta lastb : Bytes) :
    walk both n x y lasta lastb = ((x, y), (lasta, lastb)) := by
  cases n with
  | zero => rfl
  | succ n => rw [walk, if_pos h]

/-- Where the first parts differ, the cursors stop there. -/
theorem walk_differ (both : Bool) (hs : 0 ∉ s) (ht : 0 ∉ t) (hst : s ≠ t) (hx : Ends x) (hy : Ends y) {n : Nat}
    (hn : min s.length t.length ≤ n) (lasta lastb : Bytes) :
    ∃ u v, u.headD 0 ≠ v.headD 0 ∧
      walk both n (s ++ x) (t ++ y) lasta lastb = ((u, v), (lasta, lastb)) := by
  obtain ⟨p, u, v, rfl, rfl, huv⟩ := diverge s t
  have hne : u.head? ≠ v.head? := by
    rcases huv with ⟨rfl, rfl⟩ | huv
    · exact absurd rfl hst
    · exact huv
  have hp : 0 ∉ p := fun h => hs (List.mem_append_left u h)
  have hu : 0 ∉ u := fun h => hs (List.mem_append_right p h)
  have hv : 0 ∉ v := fun h => ht (List.mem_append_right p h)
  have heads : (u ++ x).headD 0 ≠ (v ++ y).headD 0 := by
    cases u with
    | nil =>
        rw [List.nil_append, hx.headD]
        cases v with
        | nil => exact absurd rfl hne
        | cons d v => exact fun h => hv (List.mem_cons.mpr (.inl h))
    | cons c u =>
        cases v with
        | nil =>
            rw [List.nil_append, hy.headD]
            exact fun h => hu (List.mem_cons.mpr (.inl h.symm))
        | cons d v => exact fun h => hne (congrArg some h)
  have hlen : p.length ≤ n := by
    rw [List.length_append, List.length_append] at hn
    omega
  refine ⟨u ++ x, v ++ y, heads, ?_⟩
  rw [← Nat.add_sub_cancel' hlen, List.append_assoc, List.append_assoc, walk_front both hp]
  exact walk_stop both _ heads _ _

/-- How the comparison of two keys ends, both of which have NULs. -/
def bothcmp (zs : Bytes → Bytes → Ordering) (a b : Bytes) : Ordering :=
  let r := walk true (min a.length b.length) a b a b
  if r.1.1.headD 0 = r.1.2.headD 0 ∧ a.length ≠ b.length then compare a.length b.length
  else zs r.2.1 r.2.2

theorem bothcmp_end (hs : 0 ∉ s) : bothcmp zs s s = zs s s := by
  have hwalk := walk_front true hs 0 [] [] s s
  rw [List.append_nil, Nat.add_zero] at hwalk
  unfold bothcmp
  rw [Nat.min_self, hwalk]
  exact if_neg fun hc => hc.2 rfl

theorem bothcmp_end_left (hs : 0 ∉ s) (y : Bytes) : bothcmp zs s (s ++ 0 :: y) = .lt := by
  have hwalk := walk_front true hs 0 [] (0 :: y) s (s ++ 0 :: y)
  have hlen : s.length < (s ++ 0 :: y).length := by
    rw [List.length_append, List.length_cons]
    omega
  rw [List.append_nil, Nat.add_zero] at hwalk
  unfold bothcmp
  rw [Nat.min_eq_left hlen.le, hwalk]
  exact (if_pos ⟨rfl, hlen.ne⟩).trans (Nat.compare_eq_lt.mpr hlen)

theorem bothcmp_end_right (hs : 0 ∉ s) (x : Bytes) : bothcmp zs (s ++ 0 :: x) s = .gt := by
  have hwalk := walk_front true hs 0 (0 :: x) [] (s ++ 0 :: x) s
  have hlen : s.length < (s ++ 0 :: x).length := by
    rw [List.length_append, List.length_cons]
    omega
  rw [List.append_nil, Nat.add_zero] at hwalk
  unfold bothcmp
  rw [Nat.min_eq_right hlen.le, hwalk]
  exact (if_pos ⟨rfl, hlen.ne'⟩).trans (Nat.compare_eq_gt.mpr hlen)

/-- Both cursors have passed the same part, and begin anew behind its NUL. -/
theorem bothcmp_cut (hs : 0 ∉ s) (x y : Bytes) :
    bothcmp zs (s ++ 0 :: x) (s ++ 0 :: y) = bothcmp zs x y := by
  have hmin : min (s ++ 0 :: x).length (s ++ 0 :: y).length = s.length + (min x.length y.length + 1) := by
    rw [List.length_append, List.length_append, List.length_cons, List.length_cons]
    omega
  have hlen : (s ++ 0 :: x).length = (s ++ 0 :: y).length ↔ x.length = y.length := by
    rw [List.length_append, List.length_append, List.length_cons, List.length_cons]
    omega
  have hcmp : compare (s ++ 0 :: x).length (s ++ 0 :: y).length = compare x.length y.length := by
    rw [List.length_append, List.length_append, List.length_cons, List.length_cons]
    simp only [Nat.compare_eq_ite_lt, Nat.add_lt_add_iff_left, Nat.add_lt_add_iff_right]
  unfold bothcmp
  rw [hmin, walk_front true hs, hcmp]
  simp only [Ne, hlen]
  rfl

theorem segments_ne_nil (a : Bytes) : ∃ p ps, segments a = p :: ps := by
  obtain ⟨s, x, rfl, hs, rfl | ⟨x, rfl⟩⟩ := exists_cut a
  · rw [List.append_nil, segments_whole hs]
    exact ⟨_, [], rfl⟩
  · rw [segments_cut hs]
    exact ⟨_, _, rfl⟩

theorem partscmp_self (hs : 0 ∉ s) (h : f s s = .eq) : partscmp f s s = .eq := by
  unfold partscmp
  rw [segments_whole hs, List.compareLex_cons_cons, h]
  rfl

/-- A key that goes on behind a NUL is the greater one. -/
theorem partscmp_longer (hs : 0 ∉ s) (h : f s s = .eq) (x : Bytes) :
    partscmp f s (s ++ 0 :: x) = .lt ∧ partscmp f (s ++ 0 :: x) s = .gt := by
  obtain ⟨p, ps, hps⟩ := segments_ne_nil x
  unfold partscmp
  rw [segments_whole hs, segments_cut hs, hps, List.compareLex_cons_cons, List.compareLex_cons_cons, h]
  exact ⟨rfl, rfl⟩

theorem Inner.bothcmp_eq (h : Inner P f zs) (ha : P a) (hb : P b) :
    bothcmp zs a b = partscmp f a b := by
  induction hn : a.length using Nat.strong_induction_on generalizing a b with
  | _ n ih =>
    obtain ⟨s, x, rfl, hs, hx⟩ := exists_cut a
    obtain ⟨t, y, rfl, ht, hy⟩ := exists_cut b
    by_cases hst : s = t
    · subst hst
      rcases hx with rfl | ⟨x, rfl⟩
      · rcases hy with rfl | ⟨y, rfl⟩
        · rw [List.append_nil, partscmp_self hs (h.refl hs), bothcmp_end hs]
          exact h.same s hs (h.left ha)
        · rw [List.append_nil, (partscmp_longer hs (h.refl hs) y).1, bothcmp_end_left hs]
      · rcases hy with rfl | ⟨y, rfl⟩
        · rw [List.append_nil, (partscmp_longer hs (h.refl hs) x).2, bothcmp_end_right hs]
        · rw [bothcmp_cut hs, partscmp_same hs (h.refl hs)]
          refine ih x.length ?_ (h.behind ha) (h.behind hb) rfl
          rw [← hn, List.length_append, List.length_cons]
          omega
    · have hne : f s t ≠ .eq := fun he => hst (h.tells _ _ hs ht he)
      obtain ⟨u, v, huv, hwalk⟩ := walk_differ true hs ht hst hx hy
        (n := min (s ++ x).length (t ++ y).length) (by rw [List.length_append, List.length_append]; omega)
        (s ++ x) (t ++ y)
      unfold bothcmp
      rw [hwalk]
      dsimp only
      rw [if_neg fun hc => huv hc.1, h.differ s t x y hs ht hst hx hy ha hb, partscmp_ne hs ht hx hy hne]

theorem compare_cast (m n : Nat) : compare (m : Int) n = compare m n := by
  rw [Nat.compare_eq_ite_lt, Int.compare_eq_ite_lt]
  simp only [Int.ofNat_lt]

theorem as_i32_eq {n : Nat} (h : n < 2 ^ 31) : as_i32 n = n := by
  unfold as_i32
  rw [Int.bmod_eq_of_le]
  · omega
  · omega

/-- One key goes on behind the NUL where the other one ends. -/
theorem walk_one_sided (hs : 0 ∉ s) (n : Nat) (x lasta lastb : Bytes) :
    walk false (s.length + n) (s ++ 0 :: x) s lasta lastb = ((0 :: x, []), (lasta, lastb)) ∧
      walk false (s.length + n) s (s ++ 0 :: x) lasta lastb = (([], 0 :: x), (lasta, lastb)) := by
  have left := walk_front false hs n (0 :: x) [] lasta lastb
  have right := walk_front false hs n [] (0 :: x) lasta lastb
  rw [List.append_nil] at left right
  rw [left, right]
  cases n with
  | zero => exact ⟨rfl, rfl⟩
  | succ n => exact ⟨rfl, rfl⟩

theorem exists_nul (h : 0 ∈ a) : ∃ s x, a = s ++ 0 :: x ∧ 0 ∉ s := by
  obtain ⟨s, x, rfl, hs, rfl | ⟨x, rfl⟩⟩ := exists_cut a
  · rw [List.append_nil] at h
    exact absurd h hs
  · exact ⟨s, x, rfl, hs⟩

theorem elt_len_none (t : Str) (h : 0 ∉ a) : (elt t a).len = -1 := by
  unfold elt
  exact if_neg (by rwa [List.contains_iff_mem])

theorem elt_len_some (t : Str) (h : 0 ∈ a) (ha : a.length < 2 ^ 31) : (elt t a).len = a.length := by
  unfold elt
  exact (if_pos (by rwa [List.contains_iff_mem])).trans (as_i32_eq ha)

/-- The result before it is turned round. -/
def ascending (m : Modes) (a b : sortelt) (flags : UInt32) : Ordering :=
  let a_has_len : Bool := 0 ≤ a.len
  let b_has_len : Bool := 0 ≤ b.len
  if !a_has_len && !b_has_len then zstrcmp m a.cmp b.cmp flags
  else
    let len := if a_has_len then (if b_has_len then min a.len b.len else a.len) else b.len
    let r := walk (a_has_len && b_has_len) len.toNat a.cmp b.cmp a.cmp b.cmp
    let alen := if a_has_len then a.len else -1
    let blen := if b_has_len then b.len else -1
    if r.1.1.headD 0 = r.1.2.headD 0 ∧ alen ≠ blen then
      if a_has_len then (if b_has_len then compare alen blen else .gt) else .lt
    else zstrcmp m r.2.1 r.2.2 flags

theorem eltpcmp_directed (m : Modes) (a b : sortelt) (flags : UInt32) : eltpcmp m a b flags =
    Comparators.directed (flags &&& SORTIT_BACKWARDS != 0)
      (fun a b => ascending m a b (flags &&& ~~~SORTIT_BACKWARDS)) a b := rfl

variable {m : Modes} {flags : UInt32}

theorem ascending_none (t u : Str) (ha : 0 ∉ a) (hb : 0 ∉ b) :
    ascending m (elt t a) (elt u b) flags = zstrcmp m a b flags := by
  unfold ascending
  rw [elt_len_none t ha, elt_len_none u hb]
  rfl

theorem ascending_both (t u : Str) (ha : 0 ∈ a) (hb : 0 ∈ b) (hla : a.length < 2 ^ 31)
    (hlb : b.length < 2 ^ 31) : ascending m (elt t a) (elt u b) flags =
      bothcmp (fun a b => zstrcmp m a b flags) a b := by
  unfold ascending bothcmp
  rw [elt_len_some t ha hla, elt_len_some u hb hlb]
  have hmin : (min (a.length : Int) b.length).toNat = min a.length b.length := by omega
  have nonneg (k : Nat) : decide (0 ≤ (k : Int)) = true := decide_eq_true (Int.natCast_nonneg k)
  simp only [nonneg, Bool.not_true, Bool.and_self, Bool.false_eq_true, if_false, if_true, hmin, compare_cast,
    Ne, Int.natCast_inj]
  rfl

theorem ascending_left (t u : Str) (ha : 0 ∈ a) (hb : 0 ∉ b) (hla : a.length < 2 ^ 31) :
    ascending m (elt t a) (elt u b) flags =
      let r := walk false a.length a b a b
      if r.1.1.headD 0 = r.1.2.headD 0 then .gt else zstrcmp m r.2.1 r.2.2 flags := by
  unfold ascending
  rw [elt_len_some t ha hla, elt_len_none u hb]
  have nonneg (k : Nat) : decide (0 ≤ (k : Int)) = true := decide_eq_true (Int.natCast_nonneg k)
  have neg : decide (0 ≤ (-1 : Int)) = false := rfl
  have hne : (a.length : Int) ≠ -1 := by omega
  simp only [nonneg, neg, Bool.not_true, Bool.not_false, Bool.and_true, Bool.and_false, Bool.false_eq_true, if_false,
    if_true, Int.toNat_natCast, and_iff_left hne]
  rfl

theorem ascending_right (t u : Str) (ha : 0 ∉ a) (hb : 0 ∈ b) (hlb : b.length < 2 ^ 31) :
    ascending m (elt t a) (elt u b) flags =
      let r := walk false b.length a b a b
      if r.1.1.headD 0 = r.1.2.headD 0 then .lt else zstrcmp m r.2.1 r.2.2 flags := by
  unfold ascending
  rw [elt_len_none t ha, elt_len_some u hb hlb]
  have nonneg (k : Nat) : decide (0 ≤ (k : Int)) = true := decide_eq_true (Int.natCast_nonneg k)
  have neg : decide (0 ≤ (-1 : Int)) = false := rfl
  have hne : (-1 : Int) ≠ b.length := by omega
  simp only [nonneg, neg, Bool.not_true, Bool.not_false, Bool.and_true, Bool.and_false, Bool.false_eq_true, if_false,
    if_true, Int.toNat_natCast, and_iff_left hne]
  rfl

/-- Keys are compared part by part. -/
theorem Inner.ascending_eq (h : Inner P f fun a b => zstrcmp m a b flags) (t u : Str)
    (hca : P a) (hcb : P b) (hla : 0 ∈ a → a.length < 2 ^ 31) (hlb : 0 ∈ b → b.length < 2 ^ 31) :
    ascending m (elt t a) (elt u b) flags = partscmp f a b := by
  by_cases ha : 0 ∈ a
  · by_cases hb : 0 ∈ b
    · rw [ascending_both t u ha hb (hla ha) (hlb hb), h.bothcmp_eq hca hcb]
    · obtain ⟨s, x, rfl, hs⟩ := exists_nul ha
      rw [ascending_left t u ha hb (hla ha)]
      by_cases hsb : s = b
      · subst hsb
        rw [List.length_append, (walk_one_sided hs _ x _ _).1, (partscmp_longer hs (h.refl hs) x).2]
        rfl
      · have hne : f s b ≠ .eq := fun he => hsb (h.tells _ _ hs hb he)
        obtain ⟨v, w, hvw, hwalk⟩ := walk_differ false hs hb hsb (.inr ⟨x, rfl⟩) (.inl rfl)
          (n := (s ++ 0 :: x).length) (by rw [List.length_append]; omega) (s ++ 0 :: x) b
        have hdiffer := h.differ s b _ [] hs hb hsb (.inr ⟨x, rfl⟩) (.inl rfl) hca
        have hparts := partscmp_ne hs hb (.inr ⟨x, rfl⟩) (.inl rfl) hne
        rw [List.append_nil] at hwalk hdiffer hparts
        rw [hwalk, hparts]
        exact (if_neg hvw).trans (hdiffer hcb)
  · by_cases hb : 0 ∈ b
    · obtain ⟨t', y, rfl, ht⟩ := exists_nul hb
      rw [ascending_right t u ha hb (hlb hb)]
      by_cases hat : a = t'
      · subst hat
        rw [List.length_append, (walk_one_sided ha _ y _ _).2, (partscmp_longer ha (h.refl ha) y).1]
        rfl
      · have hne : f a t' ≠ .eq := fun he => hat (h.tells _ _ ha ht he)
        obtain ⟨v, w, hvw, hwalk⟩ := walk_differ false ha ht hat (.inl rfl) (.inr ⟨y, rfl⟩)
          (n := (t' ++ 0 :: y).length) (by rw [List.length_append]; omega) a (t' ++ 0 :: y)
        have hdiffer := h.differ a t' [] _ ha ht hat (.inl rfl) (.inr ⟨y, rfl⟩)
        have hparts := partscmp_ne ha ht (.inl rfl) (.inr ⟨y, rfl⟩) hne
        rw [List.append_nil] at hwalk hdiffer hparts
        rw [hwalk, hparts]
        exact (if_neg hvw).trans (hdiffer hca hcb)
    · rw [ascending_none t u ha hb]
      by_cases hab : a = b
      · subst hab
        rw [partscmp_self ha (h.refl ha)]
        exact h.same a ha hca
      · have hne : f a b ≠ .eq := fun he => hab (h.tells _ _ ha hb he)
        have hdiffer := h.differ a b [] [] ha hb hab (.inl rfl) (.inl rfl)
        have hparts := partscmp_ne ha hb (.inl rfl) (.inl rfl) hne
        rw [List.append_nil, List.append_nil] at hdiffer hparts
        exact (hdiffer hca hcb).trans hparts.symm

end Inner

end Zshrs.Sort
