import Zshrs.Sort.Collations

namespace Zshrs.Sort

open Glob Lib Std Comparators TolerantSort

section Orders

variable {m : Modes} {env : Locale} {flags : UInt32}

/-- A key without the backslashes that the flags ignore. -/
def seen (flags : UInt32) (k : Bytes) : Bytes :=
  if flags &&& SORTIT_IGNORING_BACKSLASHES != 0 then k.filter (· != 92) else k

/-- The keys that a comparison by some flags puts in an order. In one of the strict emulations every key
is; else no number with a sign may stand right in front of another one, where signs are read, nor may
backslashes be skipped where the keys have NULs. -/
structure Orderly (m : Modes) (flags : UInt32) (keys : List Bytes) : Prop where
  short : ∀ k ∈ keys, 0 ∈ k → k.length < 2 ^ 31
  signs : m.dash_strict = false → m.pdksh_family = false → (flags &&& SORTIT_NUMERICALLY_SIGNED != 0) = true →
    ∀ k ∈ keys, ¬Clash (seen flags k)
  backslashes : m.dash_strict = false → m.pdksh_family = false →
    (flags &&& SORTIT_IGNORING_BACKSLASHES != 0) = true → (∀ k ∈ keys, 0 ∉ k) ∨ ∀ k ∈ keys, 92 ∉ k

/-- A string as the sort sees it. -/
def prepared (env : Locale) (flags : UInt32) (s : Str) : sortelt := elt s (key env flags s)

def order (m : Modes) (env : Locale) (flags : UInt32) (s t : Str) : Ordering :=
  eltpcmp m (prepared env flags s) (prepared env flags t) flags

theorem and_not_backwards (flags bit : UInt32) (h : ~~~SORTIT_BACKWARDS &&& bit = bit) :
    (flags &&& ~~~SORTIT_BACKWARDS) &&& bit = flags &&& bit := by
  rw [UInt32.and_assoc, h]

theorem preorderOn_names {f : Bytes → Bytes → Ordering} (h : TransCmp fun s t : FileName => f s.bytes t.bytes)
    {keys : List Bytes} (hkeys : ∀ k ∈ keys, 0 ∉ k) : PreorderOn f keys where
  swap a ha b hb := @OrientedCmp.eq_swap FileName (fun s t => f s.bytes t.bytes) _ ⟨b, hkeys b hb⟩ ⟨a, hkeys a ha⟩
  trans a ha b hb c hc := @TransCmp.isLE_trans FileName (fun s t => f s.bytes t.bytes) _ ⟨a, hkeys a ha⟩
    ⟨b, hkeys b hb⟩ ⟨c, hkeys c hc⟩

theorem bared_preorder (flags : UInt32) {keys : List Bytes} (hkeys : ∀ k ∈ keys, 0 ∉ k) :
    PreorderOn (fun a b => plain flags (bared flags a) (bared flags b)) keys := by
  cases hn : numeric flags with
  | true =>
      have names := @preorderOn_names _ (plain_trans flags) (keys.map (bared flags)) (by
        intro k hk
        obtain ⟨k', hk', rfl⟩ := List.mem_map.mp hk
        exact bared_no_nul flags (hkeys k' hk') hn)
      exact names.on fun k hk => List.mem_map_of_mem hk
  | false =>
      rw [plain_lexical hn]
      have trans := trans_on (bared flags) (compare : Bytes → Bytes → Ordering)
      exact @preorderOn_of_trans _ _ trans keys

/-- Orderly keys are compared by a total preorder of them. -/
theorem Orderly.exists_preorder {keys : List Bytes} (h : Orderly m flags keys) :
    ∃ g, PreorderOn g keys ∧ ∀ s t, ∀ a ∈ keys, ∀ b ∈ keys,
      ascending m (elt s a) (elt t b) (flags &&& ~~~SORTIT_BACKWARDS) = g a b := by
  by_cases strict : (m.dash_strict || m.pdksh_family) = true
  · have inner := inner_bytes strict (flags &&& ~~~SORTIT_BACKWARDS)
    have trans := inner.parts_trans
    exact ⟨_, preorderOn_of_trans, fun s t a ha b hb =>
      inner.ascending_eq s t trivial trivial (h.short a ha) (h.short b hb)⟩
  · rw [Bool.not_eq_true] at strict
    obtain ⟨dash, pdksh⟩ := Bool.or_eq_false_iff.mp strict
    have signs := h.signs dash pdksh
    have backslashes := h.backslashes dash pdksh
    rw [← and_not_backwards flags SORTIT_NUMERICALLY_SIGNED rfl] at signs
    rw [← and_not_backwards flags SORTIT_IGNORING_BACKSLASHES rfl] at backslashes
    have seen_same : seen flags = seen (flags &&& ~~~SORTIT_BACKWARDS) := by
      unfold seen
      rw [and_not_backwards flags SORTIT_IGNORING_BACKSLASHES rfl]
    rw [seen_same] at signs
    generalize flags &&& ~~~SORTIT_BACKWARDS = flags at signs backslashes ⊢
    by_cases bare : (flags &&& SORTIT_IGNORING_BACKSLASHES != 0) = true ∧ ∀ k ∈ keys, 0 ∉ k
    · refine ⟨_, bared_preorder flags bare.2, fun s t a ha b hb => ?_⟩
      have clear (k : Bytes) (hk : k ∈ keys) (hs : (flags &&& SORTIT_NUMERICALLY_SIGNED != 0) = true) :
          ¬Clash (bared flags k) := by
        have free := signs hs k hk
        unfold seen at free
        unfold bared numeric
        rw [hs, Bool.true_or, if_pos rfl]
        rwa [if_pos bare.1] at free
      rw [ascending_none s t (bare.2 a ha) (bare.2 b hb)]
      exact zstrcmp_bared strict bare.1 (bare.2 a ha) (bare.2 b hb) (clear a ha) (clear b hb)
    · have inner := inner_plain strict flags
      have straight (k : Bytes) (hk : k ∈ keys) : Straight flags k := by
        have plainly : (flags &&& SORTIT_IGNORING_BACKSLASHES != 0) = true → 92 ∉ k := by
          intro hi
          rcases backslashes hi with nuls | backslashes
          · exact absurd ⟨hi, nuls⟩ bare
          · exact backslashes k hk
        refine ⟨fun hs => ?_, plainly⟩
        have free := signs hs k hk
        unfold seen at free
        by_cases hi : (flags &&& SORTIT_IGNORING_BACKSLASHES != 0) = true
        · rwa [if_pos hi, filter_without (plainly hi)] at free
        · rwa [if_neg hi] at free
      have trans := inner.parts_trans
      exact ⟨_, preorderOn_of_trans, fun s t a ha b hb =>
        inner.ascending_eq s t (straight a ha) (straight b hb) (h.short a ha) (h.short b hb)⟩

theorem Orderly.preorder {arr : List Str} (h : Orderly m flags (arr.map (key env flags))) :
    PreorderOn (order m env flags) arr := by
  obtain ⟨g, hg, heq⟩ := h.exists_preorder
  have keys (s : Str) (hs : s ∈ arr) : key env flags s ∈ arr.map (key env flags) := List.mem_map_of_mem hs
  have onKeys : PreorderOn (fun s t => g (key env flags s) (key env flags t)) arr := hg.on keys
  have onStrs : PreorderOn (fun s t => ascending m (prepared env flags s) (prepared env flags t)
      (flags &&& ~~~SORTIT_BACKWARDS)) arr :=
    onKeys.congr fun s hs t ht => heq s t _ (keys s hs) _ (keys t ht)
  exact onStrs.directed (flags &&& SORTIT_BACKWARDS != 0)

end Orders

section Gathers

variable {α β : Type} {idx : List Nat} {v : List α}

theorem gather_eq (h : idx.Perm (List.range v.length)) :
    gather idx v = idx.filterMap fun src => v[src]? := by
  have all : v.drop idx.length = [] := by
    rw [h.length_eq, List.length_range]
    exact List.drop_length
  unfold gather
  rw [all, List.append_nil]

theorem gather_range (v : List α) : gather (List.range v.length) v = v := by
  have same := congrArg (List.filterMap id) (map_range v)
  rw [List.filterMap_map, List.filterMap_map] at same
  rw [gather_eq (List.Perm.refl _)]
  exact same.trans List.filterMap_some

theorem gather_zip {w : List β} (hlen : w.length = v.length) (h : idx.Perm (List.range v.length)) :
    (gather idx v).zip (gather idx w) = gather idx (v.zip w) := by
  have hzip : (v.zip w).length = v.length := by
    rw [List.length_zip, hlen, Nat.min_self]
  rw [gather_eq h, gather_eq (hlen ▸ h), gather_eq (hzip ▸ h)]
  have inside : ∀ i ∈ idx, i < v.length := fun i hi => List.mem_range.mp (h.mem_iff.mp hi)
  clear h
  induction idx with
  | nil => rfl
  | cons i idx ih =>
      have hi := inside i List.mem_cons_self
      have hv := List.getElem?_eq_getElem hi
      have hw := List.getElem?_eq_getElem (hlen ▸ hi : i < w.length)
      have hz : (v.zip w)[i]? = some (v[i], w[i]) := by
        rw [List.getElem?_zip_eq_some]
        exact ⟨hv, hw⟩
      rw [List.filterMap_cons_some hv, List.filterMap_cons_some hw, List.filterMap_cons_some hz, List.zip_cons_cons,
        ih fun j hj => inside j (List.mem_cons_of_mem i hj)]

theorem gather_eq_permute (h : idx.Perm (List.range v.length)) : gather idx v = permute idx v := by
  have same : (gather idx v).map some = (permute idx v).map some := by
    rw [map_some_permute h, gather_eq h]
    have inside : ∀ i ∈ idx, i < v.length := fun i hi => List.mem_range.mp (h.mem_iff.mp hi)
    clear h
    induction idx with
    | nil => rfl
    | cons i idx ih =>
        have hv := List.getElem?_eq_getElem (inside i List.mem_cons_self)
        rw [List.filterMap_cons_some hv, List.map_cons, List.map_cons, hv, ih fun j hj => inside j (List.mem_cons_of_mem i hj)]
  exact List.map_injective_iff.mpr (fun _ _ h => Option.some.inj h) same

end Gathers

section Results

variable {m : Modes} {env : Locale} {flags : UInt32} {arr : List Str}

/-- The places that the strings come from, whichever way the lengths are given. -/
theorem exists_indices (m : Modes) (env : Locale) (arr : List Str) (flags : UInt32) :
    ∃ idx : List Nat, idx.Perm (List.range arr.length) ∧
      (PreorderOn (order m env flags) arr → Sorted (at_ (order m env flags) arr) idx) ∧
      strmetasort m env arr flags none = (gather idx arr, none) ∧
      ∀ lens : List Nat, lens.length = arr.length →
        strmetasort m env arr flags (some lens) = (gather idx arr, some (gather idx lens)) := by
  by_cases few : arr.length < 2
  · refine ⟨List.range arr.length, List.Perm.refl _, fun _ => ?_, ?_, fun lens hlen => ?_⟩
    · match arr, few with
      | [], _ => exact List.Pairwise.nil
      | [s], _ => exact List.pairwise_singleton _ _
    · unfold strmetasort
      rw [if_pos few, gather_range]
    · unfold strmetasort
      have stay := gather_range lens
      rw [hlen] at stay
      rw [if_pos few, gather_range, stay]
  · have same : at_ (fun a b => eltpcmp m a b flags) (arr.map (prepared env flags)) =
        at_ (order m env flags) arr := by
      funext i j
      unfold at_
      rw [List.getElem?_map, List.getElem?_map]
      cases arr[i]? with
      | none => rfl
      | some s =>
          cases arr[j]? with
          | none => rfl
          | some t => rfl
    obtain ⟨perm, sorted⟩ := qsort_tolerant_spec (at_ (order m env flags) arr) (List.range arr.length)
    refine ⟨_, perm, fun h => sorted (preorderOn_at h), ?_, fun lens hlen => ?_⟩
    · unfold strmetasort
      rw [if_neg few, ← same]
      dsimp only
      rw [List.length_map]
      rfl
    · unfold strmetasort
      have strs : (arr.zip lens).map Prod.fst = arr := List.map_fst_zip hlen.ge
      rw [if_neg few, ← same]
      dsimp only
      rw [strs, List.length_map]
      rfl

/-- The sort rearranges the strings, and their lengths with them. Of orderly keys the comparison is a total
preorder, the result goes by it, and the order that the strings came in is seen only where two of them compare
equal. -/
theorem strmetasort_order (m : Modes) (env : Locale) (arr : List Str) (flags : UInt32) :
    (strmetasort m env arr flags none).1.Perm arr ∧
      (∀ lens : List Nat, lens.length = arr.length → ∃ lens', lens'.length = arr.length ∧
        strmetasort m env arr flags (some lens) = ((strmetasort m env arr flags none).1, some lens') ∧
        ((strmetasort m env arr flags none).1.zip lens').Perm (arr.zip lens)) ∧
      (Orderly m flags (arr.map (key env flags)) →
        PreorderOn (order m env flags) arr ∧ Sorted (order m env flags) (strmetasort m env arr flags none).1 ∧
        ∀ arr', arr'.Perm arr → List.Forall₂ (fun s t => order m env flags s t = .eq)
          (strmetasort m env arr' flags none).1 (strmetasort m env arr flags none).1) := by
  obtain ⟨idx, perm, sorted, alone, parallel⟩ := exists_indices m env arr flags
  rw [alone]
  have rearranged : (gather idx arr).Perm arr := by
    rw [gather_eq_permute perm]
    exact permute_perm perm
  refine ⟨rearranged, fun lens hlen => ?_, fun h => ?_⟩
  · have hzip : (arr.zip lens).length = arr.length := by
      rw [List.length_zip, hlen, Nat.min_self]
    refine ⟨gather idx lens, ?_, parallel lens hlen, ?_⟩
    · rw [gather_eq_permute (hlen ▸ perm), (permute_perm (hlen ▸ perm)).length_eq, hlen]
    · rw [gather_zip hlen perm, gather_eq_permute (hzip ▸ perm)]
      exact permute_perm (hzip ▸ perm)
  · have preorder := h.preorder
    have ordered : Sorted (order m env flags) (gather idx arr) := by
      rw [gather_eq_permute perm]
      exact permute_sorted perm (sorted preorder)
    refine ⟨preorder, ordered, fun arr' hp => ?_⟩
    obtain ⟨idx', perm', sorted', alone', -⟩ := exists_indices m env arr' flags
    have inside : ∀ s ∈ arr', s ∈ arr := fun s hs => hp.mem_iff.mp hs
    rw [alone', gather_eq_permute perm']
    have rearranged' := permute_perm perm'
    have ordered' := permute_sorted perm' (sorted' (preorder.mono inside))
    exact preorder.sorted_agree (fun s hs => inside s (rearranged'.mem_iff.mp hs))
      (rearranged'.trans (hp.trans rearranged.symm)) ordered' ordered

end Results

section Disorder

def native : Modes := ⟨false, false, false⟩

/-- The portable locale, where a letter is a byte. -/
def portable : Locale where
  multibyte := false
  to_lowercase c := [c.toLower]
  tulower b := if 65 ≤ b ∧ b ≤ 90 then b + 32 else b

def signs : List Str := ["-5".toList, "12".toList, "-07".toList, "a\x00".toList, "3-1".toList, "a".toList]

/-- Backwards, and with signs. -/
theorem signs_sorted : Sorted (order native portable (SORTIT_NUMERICALLY_SIGNED ||| SORTIT_BACKWARDS))
    (strmetasort native portable signs (SORTIT_NUMERICALLY_SIGNED ||| SORTIT_BACKWARDS) none).1 := by
  have orderly : Orderly native (SORTIT_NUMERICALLY_SIGNED ||| SORTIT_BACKWARDS)
      (signs.map (key portable (SORTIT_NUMERICALLY_SIGNED ||| SORTIT_BACKWARDS))) :=
    ⟨by decide, fun _ _ _ => by decide, fun _ _ ignoring => absurd ignoring (by decide)⟩
  exact ((strmetasort_order native portable signs _).2.2 orderly).2.1

theorem not_preorder {α : Type} {cmp : α → α → Ordering} {a b c : α} (hab : (cmp a b).isLE) (hbc : (cmp b c).isLE)
    (hac : cmp a c = .gt) : ¬ PreorderOn cmp [a, b, c] := by
  intro h
  have hle := h.trans a List.mem_cons_self b (List.mem_cons_of_mem a List.mem_cons_self) c
    (List.mem_cons_of_mem a (List.mem_cons_of_mem b List.mem_cons_self)) hab hbc
  rw [hac] at hle
  cases hle

theorem unmetafy_replicate (n : Nat) : Brace.unmetafy_str (List.replicate n 'x') = List.replicate n 120 := by
  induction n with
  | zero => rfl
  | succ n ih =>
      cases n with
      | zero => rfl
      | succ n =>
          rw [List.replicate_succ, List.replicate_succ, Brace.unmetafy_str, if_neg (by decide),
            ← List.replicate_succ, ih]
          rfl

/-- A string of 2^32 bytes: its length is 0 to the comparison. -/
def huge : Str := 'c' :: 'z' :: '\x00' :: List.replicate 4294967293 'x'

theorem key_long (m : Nat) : key portable 0 ('c' :: 'z' :: '\x00' :: List.replicate m 'x') =
    99 :: 122 :: 0 :: List.replicate m 120 := by
  have front (w : Str) : Brace.unmetafy_str ('c' :: 'z' :: '\x00' :: 'x' :: w) =
      99 :: 122 :: 0 :: Brace.unmetafy_str ('x' :: w) := by
    rw [Brace.unmetafy_str, if_neg (by decide), Brace.unmetafy_str, if_neg (by decide), Brace.unmetafy_str,
      if_neg fun e => absurd e.1 (by decide)]
    rfl
  cases m with
  | zero => rfl
  | succ m =>
      have rest := unmetafy_replicate (m + 1)
      rw [List.replicate_succ] at rest
      exact (front (List.replicate m 'x')).trans (by rw [rest])

theorem length_long (m : Nat) : (99 :: 122 :: 0 :: List.replicate m (120 : UInt8)).length = m + 3 := by
  simp only [List.length_cons, List.length_replicate]

theorem prepared_huge :
    prepared portable 0 huge = ⟨huge, 99 :: 122 :: 0 :: List.replicate 4294967293 120, 0⟩ := by
  unfold prepared elt huge
  rw [key_long, length_long]
  rfl

/-- Signed numbers, a NUL beside a backslash that is ignored, and a length of 2^32 go round in circles. -/
theorem strmetasort_disorder :
    ¬ PreorderOn (order native portable SORTIT_NUMERICALLY_SIGNED) ["-5".toList, "-5-1".toList, "-51".toList] ∧
      ¬ PreorderOn (order native portable SORTIT_IGNORING_BACKSLASHES)
        ["x\x00z".toList, "\\\\x".toList, "x".toList] ∧
      ¬ PreorderOn (order native portable 0) ["ca\x00".toList, "cm".toList, huge] := by
  refine ⟨not_preorder (by decide) (by decide) (by decide), not_preorder (by decide) (by decide) (by decide),
    not_preorder (by decide) ?_ ?_⟩
  · unfold order
    rw [prepared_huge]
    generalize List.replicate 4294967293 (120 : UInt8) = tail
    rfl
  · unfold order
    rw [prepared_huge]
    generalize List.replicate 4294967293 (120 : UInt8) = tail
    rfl

end Disorder

end Zshrs.Sort
