import Mathlib.Data.List.Basic
import Zshrs.Glob.Gmatchcmp
import Zshrs.Glob.NameTokens
import Zshrs.Lib.Comparators
import Zshrs.Lib.Readings

namespace Zshrs.Glob

open Std Lib.Comparators

section Slashes

variable {s x y : Bytes}

theorem has_slash_eq (s : Bytes) : has_slash s = s.dropLast.contains 47 := by
  unfold has_slash
  cases s with
  | nil => rfl
  | cons c s =>
    cases s with
    | nil => rfl
    | cons d s =>
      rw [List.length_cons, List.length_cons, decide_eq_true (by omega), Bool.true_and]

/-- Bytes in front that are no `/` do not count. -/
theorem has_slash_append (h : 47 ∉ s) (x : Bytes) : has_slash (s ++ x) = has_slash x := by
  rw [has_slash_eq, has_slash_eq]
  cases x with
  | nil =>
    rw [List.append_nil]
    have hd : 47 ∉ s.dropLast := fun hm => h ((List.dropLast_sublist s).mem hm)
    rw [List.dropLast_nil, List.contains_nil]
    simpa using hd
  | cons c x =>
    rw [List.dropLast_append_of_ne_nil (List.cons_ne_nil c x)]
    have hs : s.contains 47 = false := by simpa using h
    rw [List.contains_append, hs, Bool.false_or]

/-- Behind a `/` anything counts. -/
theorem has_slash_of_mem (s : Bytes) {x : Bytes} (hx : x ≠ []) : has_slash (s ++ 47 :: x) = true := by
  rw [has_slash_eq, List.dropLast_append_of_ne_nil (List.cons_ne_nil 47 x)]
  obtain ⟨c, x', rfl⟩ := List.exists_cons_of_ne_nil hx
  simp

/-- Two strings that have nothing more in common. -/
def Apart (x y : Bytes) : Prop := (x = [] ∧ y = []) ∨ x.head? ≠ y.head?

theorem together_apart (h : Apart x y) : together (· == ·) x y = 0 := by
  cases x with
  | nil => rfl
  | cons c x =>
    cases y with
    | nil => rfl
    | cons d y =>
      rw [together, if_neg]
      intro e
      rw [beq_iff_eq] at e
      subst e
      rcases h with ⟨h, -⟩ | h
      · exact List.cons_ne_nil _ _ h
      · exact h rfl

theorem together_common (h : Apart x y) : together (· == ·) (s ++ x) (s ++ y) = s.length := by
  have same : ∀ c ∈ s, (fun c d : UInt8 => c == d) c c = true := fun c _ => beq_self_eq_true c
  rw [together_append same, together_apart h, Nat.add_zero]

theorem ends_iff (s x y : Bytes) :
    ((s ++ x).length ≤ s.length ∨ (s ++ y).length ≤ s.length) ↔ x = [] ∨ y = [] := by
  rw [List.length_append, List.length_append, ← List.length_eq_zero_iff, ← List.length_eq_zero_iff]
  omega

/-- The depth key on two paths, in terms of their common prefix. -/
theorem depthcmp_common (h : Apart x y) :
    depthcmp (s ++ x) (s ++ y) =
      if (x = [] ∨ y = []) ∧ s.getLast? = some 47 then
        compare (has_slash (47 :: y)).toNat (has_slash (47 :: x)).toNat
      else compare (has_slash y).toNat (has_slash x).toNat := by
  unfold depthcmp divergence
  rw [together_common h]
  simp only [ends_iff]
  rcases List.eq_nil_or_concat' s with rfl | ⟨t, c, rfl⟩
  · simp
  · have last : byteAt (t ++ [c] ++ x) ((t ++ [c]).length - 1) = c := by
      rw [List.length_append, List.length_singleton, Nat.add_sub_cancel, List.append_assoc]
      exact byteAt_append t ([c] ++ x) 0
    have back (z : Bytes) : (t ++ [c] ++ z).drop ((t ++ [c]).length - 1) = c :: z := by
      rw [List.length_append, List.length_singleton, Nat.add_sub_cancel, List.append_assoc,
        List.drop_left]
      rfl
    have pos : 0 < (t ++ [c]).length := by simp
    rw [last, List.getLast?_concat]
    by_cases hc : (x = [] ∨ y = []) ∧ some c = some 47
    · have slash : c = 47 := Option.some.inj hc.2
      rw [if_pos hc, if_pos ⟨hc.1, pos, slash⟩, back, back, slash]
    · rw [if_neg hc, if_neg fun hp => hc ⟨hp.1, congrArg some hp.2.2⟩, List.drop_left,
        List.drop_left]

theorem exists_common (a b : Bytes) : ∃ s x y, a = s ++ x ∧ b = s ++ y ∧ Apart x y := diverge a b

/-- The depth key of two paths by their flags: whether there is a `/` in front of their last bytes. -/
def flagcmp (a b : Bytes) : Ordering := compare (has_slash b).toNat (has_slash a).toNat

theorem depthcmp_of_no_slash (h : Apart x y) (hs : 47 ∉ s) :
    depthcmp (s ++ x) (s ++ y) = flagcmp (s ++ x) (s ++ y) := by
  unfold flagcmp
  rw [depthcmp_common h, if_neg, has_slash_append hs, has_slash_append hs]
  rintro ⟨-, hl⟩
  exact hs (List.mem_of_getLast? hl)

/-- Different flags decide, wherever the paths part. -/
theorem depthcmp_of_flags {a b : Bytes} (h : has_slash a ≠ has_slash b) :
    depthcmp a b = flagcmp a b := by
  obtain ⟨s, x, y, rfl, rfl, hxy⟩ := exists_common a b
  by_cases hs : 47 ∈ s
  · obtain ⟨s₁, s₂, rfl⟩ := List.append_of_mem hs
    rw [List.append_assoc, List.append_assoc, List.cons_append, List.cons_append] at h
    have ends : s₂ ++ x = [] ∨ s₂ ++ y = [] := by
      by_contra hne
      rw [not_or] at hne
      rw [has_slash_of_mem s₁ hne.1, has_slash_of_mem s₁ hne.2] at h
      exact h rfl
    have hs₂ : s₂ = [] := by
      rcases ends with he | he
      · exact (List.append_eq_nil_iff.mp he).1
      · exact (List.append_eq_nil_iff.mp he).1
    subst hs₂
    rw [List.nil_append, List.nil_append] at ends h
    rw [depthcmp_common hxy, if_pos ⟨ends, List.getLast?_concat⟩]
    unfold flagcmp
    rw [List.append_assoc, List.append_assoc, List.cons_append, List.cons_append, List.nil_append,
      List.nil_append]
    have deep {z : Bytes} (hz : z ≠ []) : has_slash (47 :: z) = has_slash (s₁ ++ 47 :: z) := by
      rw [has_slash_of_mem s₁ hz]
      exact has_slash_of_mem [] hz
    rcases ends with rfl | rfl
    · have hy : y ≠ [] := fun e => h (by rw [e])
      rw [has_slash_of_mem s₁ hy] at h
      have flat : has_slash (s₁ ++ [47]) = has_slash [47] := (Bool.eq_false_iff.mpr h).trans rfl
      rw [deep hy, flat]
    · have hx : x ≠ [] := fun e => h (by rw [e])
      rw [has_slash_of_mem s₁ hx] at h
      have flat : has_slash (s₁ ++ [47]) = has_slash [47] :=
        (Bool.eq_false_iff.mpr h.symm).trans rfl
      rw [deep hx, flat]
  · exact depthcmp_of_no_slash hxy hs

/-- With equal flags a common token does not count. -/
theorem depthcmp_cut {t a b : Bytes} (ht : t = [47] ∨ 47 ∉ t)
    (h : has_slash (t ++ a) = has_slash (t ++ b)) : depthcmp (t ++ a) (t ++ b) = depthcmp a b := by
  obtain ⟨s, x, y, rfl, rfl, hxy⟩ := exists_common a b
  rw [← List.append_assoc, ← List.append_assoc, depthcmp_common hxy, depthcmp_common hxy,
    List.getLast?_append]
  rcases List.eq_nil_or_concat' s with rfl | ⟨s, c, rfl⟩
  · rw [List.getLast?_nil, Option.none_or]
    rw [if_neg (by simp : ¬ ((x = [] ∨ y = []) ∧ (none : Option UInt8) = some 47))]
    split
    · next hend =>
      rcases ht with rfl | ht
      · have flat (z : Bytes) : has_slash (47 :: z) = true ↔ z ≠ [] := by
          constructor
          · rintro hz rfl
            exact absurd hz (by decide)
          · exact fun hz => has_slash_of_mem [] hz
        have both : x = [] ↔ y = [] := by
          rw [← not_iff_not]
          exact (flat x).symm.trans ((iff_of_eq (congrArg (· = true) h)).trans (flat y))
        have hx : x = [] := by
          rcases hend.1 with hx | hy
          · exact hx
          · exact both.mpr hy
        rw [hx, both.mp hx]
        rfl
      · exact absurd (List.mem_of_getLast? hend.2) ht
    · rfl
  · rw [List.getLast?_concat, Option.some_or]

end Slashes

/-- What a sort by name, or by depth and name, sees of a path where a token starts. -/
abbrev Mark := Bool × Tok

def mark (numeric : Bool) (s : Bytes) : Mark := (has_slash s, firstTok numeric s)

section Marks

variable {numeric : Bool} {a b : Bytes}

theorem no_nul_afterTok (h : 0 ∉ a) : 0 ∉ afterTok numeric a := fun h0 => h (List.mem_of_mem_drop h0)

theorem length_afterTok (h : a ≠ []) : (afterTok numeric a).length < a.length := by
  unfold afterTok
  rw [List.length_drop]
  have pos := tokLen_pos numeric a
  have len := List.length_pos_of_ne_nil h
  omega

/-- Only the end starts with a NUL. -/
theorem firstTok_ne_end (h : a ≠ []) (ha : 0 ∉ a) : firstTok numeric a ≠ firstTok numeric [] := by
  have nil : firstTok numeric [] = .byte 0 := by
    cases numeric <;> rfl
  rw [nil]
  intro e
  cases start numeric a with
  | number z d r on eq sig nonzero stops tok len =>
    rw [tok] at e
    exact nonzero (congrArg Tok.digits e)
  | byte tok len zeros =>
    rw [tok] at e
    obtain ⟨c, a', rfl⟩ := List.exists_cons_of_ne_nil h
    have hc : c = 0 := congrArg Tok.head e
    exact ha (by simp [hc])

/-- The end is told by its token. -/
theorem isEmpty_eq_of_firstTok (ha : 0 ∉ a) (hb : 0 ∉ b) (h : firstTok numeric a = firstTok numeric b) :
    a.isEmpty = b.isEmpty := by
  cases a with
  | nil =>
    cases b with
    | nil => rfl
    | cons d b => exact absurd h.symm (firstTok_ne_end (List.cons_ne_nil d b) hb)
  | cons c a =>
    cases b with
    | nil => exact absurd h (firstTok_ne_end (List.cons_ne_nil c a) ha)
    | cons d b => rfl

/-- A string is told by its first token and what is behind that. -/
theorem eq_of_firstTok (ha : 0 ∉ a) (hb : 0 ∉ b) (h : firstTok numeric a = firstTok numeric b)
    (hrest : a.isEmpty = true ∨ afterTok numeric a = afterTok numeric b) : a = b := by
  rcases hrest with hend | hrest
  · have hend' := isEmpty_eq_of_firstTok ha hb h ▸ hend
    rw [List.isEmpty_iff.mp hend, List.isEmpty_iff.mp hend']
  · have front := take_tokLen_eq ha hb h
    unfold afterTok at hrest
    rw [← List.take_append_drop (tokLen numeric a) a, front, hrest, List.take_append_drop]

/-- A path is read token by token. -/
def nameReader (numeric : Bool) : Lib.Reader Bytes Mark where
  ended := List.isEmpty
  mark := mark numeric
  rest := afterTok numeric
  size := List.length
  size_rest _ h := length_afterTok (List.isEmpty_eq_false_iff.mp h)

def marks (numeric : Bool) : Bytes → List Mark := (nameReader numeric).marks

/-- A comparison that goes over two paths token by token is the one of their marks. -/
theorem name_compares {E : Mark → Mark → Ordering} {F : Bytes → Bytes → Ordering}
    (hrefl : ∀ m, E m m = .eq) (htok : ∀ m n, E m n = .eq → m.2 = n.2) (hnil : F [] [] = .eq)
    (hdiffer : ∀ a b, 0 ∉ a → 0 ∉ b → E (mark numeric a) (mark numeric b) ≠ .eq →
      F a b = E (mark numeric a) (mark numeric b))
    (hsame : ∀ a b, 0 ∉ a → 0 ∉ b → a ≠ [] → E (mark numeric a) (mark numeric b) = .eq →
      F a b = F (afterTok numeric a) (afterTok numeric b)) :
    (nameReader numeric).Compares (fun a => 0 ∉ a) E F where
  refl := hrefl
  keep _ ha _ := no_nul_afterTok ha
  ends a b ha hb h := isEmpty_eq_of_firstTok ha hb (htok _ _ h)
  done a b ha hb h hend := by
    have hend' := (isEmpty_eq_of_firstTok ha hb (htok _ _ h)).symm.trans hend
    rw [List.isEmpty_iff.mp hend, List.isEmpty_iff.mp hend', hnil]
  differ := hdiffer
  same a b ha hb h hend := hsame a b ha hb (List.isEmpty_eq_false_iff.mp hend) h

end Marks

section Orders

variable {numeric : Bool} {f : Bytes → Bytes → Ordering} (hf : Reads numeric f)

include hf

theorem Reads.compares :
    (nameReader numeric).Compares (fun a => 0 ∉ a) (fun m n : Mark => Tok.cmp m.2 n.2) f :=
  name_compares (fun _ => ReflCmp.compare_self) (fun _ _ h => LawfulEqCmp.eq_of_compare h) hf.nil
    (fun a b ha hb h => hf.differ a b ha hb fun e => h (LawfulEqCmp.compare_eq_iff_eq.mpr e))
    (fun a b ha hb hne h => hf.same a b ha hb hne (LawfulEqCmp.eq_of_compare h))

/-- A sort by name alone. -/
theorem Reads.eq_marks {a b : Bytes} (ha : 0 ∉ a) (hb : 0 ∉ b) :
    f a b = List.compareLex (fun m n : Mark => Tok.cmp m.2 n.2) (marks numeric a) (marks numeric b) :=
  hf.compares.eq_marks ha hb

theorem Reads.eq_of_eq {a b : Bytes} (ha : 0 ∉ a) (hb : 0 ∉ b) (h : f a b = .eq) : a = b :=
  hf.compares.eq_of_eq (fun _ _ ha hb he => eq_of_firstTok ha hb (LawfulEqCmp.eq_of_compare he)) ha hb h

omit hf in
instance instTransCmpMark : TransCmp fun m n : Mark => Tok.cmp m.2 n.2 where
  eq_swap := OrientedCmp.eq_swap
  isLE_trans := TransCmp.isLE_trans

theorem Reads.trans : TransCmp fun a b : FileName => f a.bytes b.bytes := by
  have same : (fun a b : FileName => f a.bytes b.bytes) = fun a b : FileName =>
      List.compareLex (fun m n : Mark => Tok.cmp m.2 n.2) (marks numeric a.bytes)
        (marks numeric b.bytes) := by
    funext a b
    exact hf.eq_marks a.no_nul b.no_nul
  rw [same]
  exact { eq_swap := OrientedCmp.eq_swap, isLE_trans := TransCmp.isLE_trans }

/-- Depth first, and the name where it ties. -/
def depthThenName (d d' : Bool) (f : Bytes → Bytes → Ordering) : Bytes → Bytes → Ordering :=
  compareLex (directed d depthcmp) (directed d' f)

def markcmp (d d' : Bool) : Mark → Mark → Ordering :=
  compareLex (directed d fun m n => compareOn (fun k : Mark => k.1.toNat) n m)
    (directed d' fun m n => Tok.cmp m.2 n.2)

omit hf in
theorem markcmp_eq {d d' : Bool} {m n : Mark} : markcmp d d' m n = .eq ↔ m = n := by
  unfold markcmp
  rw [compareLex_eq_eq, directed_eq_eq, directed_eq_eq]
  constructor
  · rintro ⟨hflag, htok⟩
    have flag : n.1.toNat = m.1.toNat := LawfulEqOrd.eq_of_compare hflag
    have tok : m.2 = n.2 := LawfulEqCmp.eq_of_compare htok
    have same : m.1 = n.1 := by
      revert flag
      cases m.1 <;> cases n.1 <;> decide
    exact Prod.ext same tok
  · rintro rfl
    exact ⟨ReflOrd.compare_self, ReflCmp.compare_self⟩

omit hf in
instance instTransCmpMarkcmp (d d' : Bool) : TransCmp (markcmp d d') := by
  unfold markcmp
  infer_instance

/-- Depth and name together go over the two paths token by token. -/
theorem Reads.depthThenName_eq (d d' : Bool) {a b : Bytes} (ha : 0 ∉ a) (hb : 0 ∉ b) :
    depthThenName d d' f a b = List.compareLex (markcmp d d') (marks numeric a) (marks numeric b) := by
  refine (name_compares (fun m => markcmp_eq.mpr rfl)
    (fun m n h => congrArg Prod.snd (markcmp_eq.mp h)) ?_ ?_ ?_).eq_marks ha hb
  · unfold depthThenName
    rw [compareLex_eq_eq, directed_eq_eq, directed_eq_eq]
    exact ⟨by decide, hf.nil⟩
  · intro a b ha hb hne
    have flags : directed d (fun m n => compareOn (fun k : Mark => k.1.toNat) n m) (mark numeric a)
        (mark numeric b) = directed d flagcmp a b := directed_congr rfl
    by_cases h : has_slash a = has_slash b
    · have tok : firstTok numeric a ≠ firstTok numeric b := fun e =>
        hne (markcmp_eq.mpr (Prod.ext h e))
      obtain ⟨s, x, y, hs, hs', hxy⟩ := exists_common a b
      have depth : depthcmp a b = flagcmp a b := by
        rw [hs, hs']
        exact depthcmp_of_no_slash hxy (no_common_slash tok hs hs')
      have names : directed d' f a b =
          directed d' (fun m n : Mark => Tok.cmp m.2 n.2) (mark numeric a) (mark numeric b) :=
        directed_congr (hf.differ a b ha hb tok)
      unfold depthThenName markcmp compareLex
      rw [directed_congr depth, flags, names]
    · have depth := depthcmp_of_flags h
      have decides : flagcmp a b ≠ .eq := by
        unfold flagcmp
        rw [Ne, LawfulEqOrd.compare_eq_iff_eq]
        intro e
        apply h
        revert e
        cases has_slash a <;> cases has_slash b <;> decide
      have directed_ne : directed d flagcmp a b ≠ .eq := fun e => decides (directed_eq_eq.mp e)
      unfold depthThenName markcmp compareLex
      rw [directed_congr depth, flags]
      cases hc : directed d flagcmp a b with
      | eq => exact absurd hc directed_ne
      | lt => rfl
      | gt => rfl
  · intro a b ha hb hane he
    have same := markcmp_eq.mp he
    have tok := congrArg Prod.snd same
    have flag := congrArg Prod.fst same
    have front := take_tokLen_eq ha hb tok
    have split (s : Bytes) : s = s.take (tokLen numeric s) ++ afterTok numeric s :=
      (List.take_append_drop _ _).symm
    have depth : depthcmp a b = depthcmp (afterTok numeric a) (afterTok numeric b) := by
      have alone : a.take (tokLen numeric a) = [47] ∨ 47 ∉ a.take (tokLen numeric a) := by
        by_cases h : 47 ∈ a.take (tokLen numeric a)
        · exact .inl (slash_alone h)
        · exact .inr h
      have cut := @depthcmp_cut _ (afterTok numeric a) (afterTok numeric b) alone
      rw [← split a, front, ← split b] at cut
      exact cut flag
    unfold depthThenName compareLex
    rw [directed_congr depth, directed_congr (hf.same a b ha hb hane tok)]

theorem Reads.depth_trans (d d' : Bool) :
    TransCmp fun a b : FileName => depthThenName d d' f a.bytes b.bytes := by
  have same : (fun a b : FileName => depthThenName d d' f a.bytes b.bytes) = fun a b : FileName =>
      List.compareLex (markcmp d d') (marks numeric a.bytes) (marks numeric b.bytes) := by
    funext a b
    exact hf.depthThenName_eq d d' a.no_nul b.no_nul
  rw [same]
  exact { eq_swap := OrientedCmp.eq_swap, isLE_trans := TransCmp.isLE_trans }

end Orders

end Zshrs.Glob
