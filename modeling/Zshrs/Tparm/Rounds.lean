import Zshrs.Tparm.Evaluator
import Mathlib.Algebra.Group.Nat.Defs

namespace Zshrs.Tparm

open Lib

theorem toNat_asChar (b : UInt8) : (asChar b).toNat = b.toNat := by
  have hb : b.toNat < 256 := b.toNat_lt
  have hvalid : Nat.isValidChar b.toNat := Or.inl (by omega)
  rw [asChar, Char.ofNat, dif_pos hvalid]
  rfl

theorem asChar_injective : Function.Injective asChar := by
  intro b c h
  apply UInt8.toNat_inj.mp
  rw [← toNat_asChar, ← toNat_asChar, h]

theorem asChar_eq_iff {b : UInt8} {c : Char} (h : asChar (byte c) = c) : asChar b = c ↔ b = byte c :=
  ⟨fun hb => asChar_injective (hb.trans h.symm), fun hb => hb ▸ h⟩

section Numbers

theorem length_toDigits_le {b n k : Nat} (hb : 1 < b) (hk : 0 < k) (h : n < b ^ k) :
    (Nat.toDigits b n).length ≤ k := (Nat.length_toDigits_le_iff hb hk).mpr h

theorem length_digits_le (conv : Char) (v : Int64) : (digits conv v).length ≤ 11 := by
  have hu : v.toInt32.toUInt32.toNat < 2 ^ 32 := v.toInt32.toUInt32.toNat_lt
  have habs : v.toInt32.toInt.natAbs < 10 ^ 11 := by
    have hlo := v.toInt32.le_toInt
    have hhi := v.toInt32.toInt_lt
    omega
  rw [digits.eq_def]
  split
  · exact length_toDigits_le (by decide) (by decide) (by omega)
  · exact length_toDigits_le (by decide) (by decide) (by omega)
  · rw [List.length_map]
    exact length_toDigits_le (by decide) (by decide) (by omega)
  · exact length_toDigits_le (by decide) (by decide) habs

theorem length_front_le (f : Format) (conv : Char) (v : Int64) : (front f conv v).length ≤ 2 := by
  rw [front.eq_def]
  split
  · split
    · simp
    · split
      · simp
      · split <;> simp
  · split
    · split <;> simp
    · simp

theorem length_decimal_le (i : Int64) : (decimal i).length ≤ 21 := by
  have habs : i.toInt.natAbs < 10 ^ 20 := by
    have hlo := i.le_toInt
    have hhi := i.toInt_lt
    omega
  have hlen : (Nat.toDigits 10 i.toInt.natAbs).length ≤ 20 := length_toDigits_le (by decide) (by decide) habs
  rw [decimal]
  split
  · rw [List.length_cons]
    omega
  · omega

theorem ofDigitChars_lt {s : List Char} (h : s.all Char.isDigit = true) :
    Nat.ofDigitChars 10 s 0 < 10 ^ s.length := by
  induction s with
  | nil => simp
  | cons c s ih =>
      rw [List.all_cons, Bool.and_eq_true] at h
      have hc : c.toNat ≤ '9'.toNat := (Char.isDigit_iff_toNat.mp h.1).2
      have hrest := ih h.2
      have hdigit : 10 * 0 + (c.toNat - '0'.toNat) ≤ 9 := by
        change c.toNat ≤ 57 at hc
        change 10 * 0 + (c.toNat - 48) ≤ 9
        omega
      rw [Nat.ofDigitChars_cons, Nat.ofDigitChars_eq_ofDigitChars_zero, List.length_cons, Nat.pow_succ]
      have hmul := Nat.mul_le_mul_left (10 ^ s.length) hdigit
      omega

theorem parse_digits_lt {s : List Char} {n : Nat} (h : parse_digits s = some n) : n < 10 ^ s.length := by
  rw [parse_digits] at h
  split at h
  · rename_i hall
    cases h
    exact ofDigitChars_lt hall.2
  · cases h

theorem parse_usize_lt {s : List Char} {k : Nat} (hk : s.length ≤ k) : (parse_usize s).getD 0 < 10 ^ k := by
  have hlen : (if s.head? = some '+' then s.tail else s).length ≤ k := by
    split
    · rw [List.length_tail]
      omega
    · exact hk
  cases h : parse_usize s with
  | none => exact Nat.pow_pos (by decide)
  | some n =>
      obtain ⟨hparse, -⟩ := Option.filter_eq_some_iff.mp h
      exact Nat.lt_of_lt_of_le (parse_digits_lt hparse) (Nat.pow_le_pow_right (by decide) hlen)

end Numbers

/-- No run of flags asks for more than its digits can say. -/
theorem formattedLength_le {spec : List Char} {k : Nat} (hk : spec.length ≤ k) (conv : Char) (v : Int64) :
    formattedLength spec conv v ≤ 10 ^ k + 13 := by
  have hstart : (if spec.head? = some ':' then spec.tail else spec).length ≤ k := by
    split
    · rw [List.length_tail]
      omega
    · exact hk
  have hrest := Nat.le_trans ((List.dropWhile_suffix isFlag).length_le) hstart
  have hcut : ∀ s : List Char, s.length ≤ k → (s.takeWhile (· ≠ '.')).length ≤ k ∧
      ((s.dropWhile (· ≠ '.')).tail).length ≤ k := by
    intro s hs
    have htake := (List.takeWhile_prefix (l := s) (· ≠ '.')).length_le
    have hdrop := (List.dropWhile_suffix (l := s) (· ≠ '.')).length_le
    rw [List.length_tail]
    omega
  have hnumbers : (readFormat spec).width.getD 0 < 10 ^ k ∧ (readFormat spec).precision.getD 0 < 10 ^ k := by
    rw [readFormat]
    dsimp only
    generalize (if spec.head? = some ':' then spec.tail else spec).dropWhile isFlag = rest at hrest
    by_cases hdot : '.' ∈ rest
    · rw [if_pos hdot]
      exact ⟨parse_usize_lt (hcut rest hrest).1, parse_usize_lt (hcut rest hrest).2⟩
    · rw [if_neg hdot]
      exact ⟨parse_usize_lt hrest, Nat.pow_pos (by decide)⟩
  have hfront := length_front_le (readFormat spec) conv v
  have hdigits := length_digits_le conv v
  rw [formattedLength]
  omega

theorem fmt_int_ne_none (conv : Char) (v : Int64) : fmt_int [] conv v ≠ none := by
  apply (fmt_int_spec [] conv v).1.mpr
  have hlen := @formattedLength_le [] 0 (Nat.le_refl 0) conv v
  exact Nat.le_trans hlen (by decide)

section Directives

variable {cap : Bytes} {hack : Bool} {i : Nat} {m : Machine}

theorem convert_ne_none (conv : Char) : convert [] conv m ≠ none := by
  rw [convert]
  split
  · simp
  · simp [fmt_int_ne_none]

theorem upper_index {c : Char} (h : c.isUpper = true) : c.toNat - 'A'.toNat < 26 := by
  have hZ : c.toNat ≤ 'A'.toNat + 25 := UInt32.le_iff_toNat_le.mp (of_decide_eq_true h).2
  omega

theorem lower_index {c : Char} (h : c.isLower = true) : c.toNat - 'a'.toNat < 26 := by
  have hle : decide (c.val ≤ 'z'.val) = true := (Bool.and_eq_true_iff.mp h).2
  have hz : c.toNat ≤ 'a'.toNat + 25 := UInt32.le_iff_toNat_le.mp (of_decide_eq_true hle)
  omega

theorem setVar_ne_none (n : UInt8) (v : Int64) : setVar n v m ≠ none := by
  have hwrite : ∀ (vs : Variables) (k : Nat), k < 26 → writeVar vs k v ≠ none := by
    intro vs k hk
    rw [writeVar, dif_pos hk]
    exact Option.some_ne_none _
  rw [setVar]
  split
  · rename_i h
    rw [ne_eq, Option.map_eq_none_iff]
    exact hwrite m.statics _ (upper_index h)
  · split
    · rename_i h
      rw [ne_eq, Option.map_eq_none_iff]
      exact hwrite m.dynamic _ (lower_index h)
    · exact Option.some_ne_none _

theorem getVar_ne_none (n : UInt8) : getVar n m ≠ none := by
  have hread : ∀ (vs : Variables) (k : Nat), k < 26 → vs[k]? ≠ none := by
    intro vs k hk
    rw [Vector.getElem?_eq_getElem hk]
    exact Option.some_ne_none _
  rw [getVar]
  split
  · rename_i h
    exact hread m.statics _ (upper_index h)
  · split
    · rename_i h
      exact hread m.dynamic _ (lower_index h)
    · exact Option.some_ne_none _

theorem inRange_succ_iff (v : Int64) : InRange (v.toInt + 1) ↔ v ≠ Int64.maxValue := by
  have hv := inRange_toInt v
  have hmax : v = Int64.maxValue ↔ v.toInt = 2 ^ 63 - 1 := (Int64.toInt_inj).symm
  rw [inRange_iff] at hv ⊢
  rw [ne_eq, hmax]
  omega

theorem mapM_ne_none_iff {α β : Type} (f : α → Option β) (xs : List α) :
    xs.mapM f ≠ none ↔ ∀ x ∈ xs, f x ≠ none := by
  induction xs with
  | nil => simp
  | cons x xs ih =>
      rw [List.mapM_cons, List.forall_mem_cons, ← ih]
      cases f x <;> cases xs.mapM f <;> simp

/-- `%i` goes wrong at the largest number alone. -/
theorem increment_ne_none_iff : increment hack m ≠ none ↔
    (m.incremented_two = false → ∀ v ∈ m.p.take 2, v.int ≠ Int64.maxValue) := by
  rw [increment]
  cases m.incremented_two with
  | true => simp
  | false =>
      rw [if_neg (by simp), ne_eq, Option.map_eq_none_iff, ← ne_eq, mapM_ne_none_iff]
      simp only [checked_ne_none_iff, inRange_succ_iff, forall_const]

theorem slice_ne_none {start j : Nat} (hstart : start ≤ j) (hj : j ≤ cap.length) : slice cap start j ≠ none := by
  rw [slice, if_pos ⟨hstart, hj⟩]
  exact Option.some_ne_none _

theorem map_ne_none {α β : Type} {o : Option α} (f : α → β) (h : o ≠ none) : o.map f ≠ none := by
  rw [ne_eq, Option.map_eq_none_iff]
  exact h

theorem directive_ne_none {c : Char} (hi : i ≤ cap.length) (hc : c ≠ 'i') : directive cap hack c i m ≠ none := by
  have hconvert : ∀ conv, (convert [] conv m).map (Prod.mk i) ≠ none := fun conv =>
    map_ne_none _ (convert_ne_none conv)
  unfold directive
  split
  · exact Option.some_ne_none _
  · exact hconvert 'd'
  · exact hconvert 'o'
  · exact hconvert 'x'
  · exact hconvert 'X'
  · exact hconvert 's'
  · exact Option.some_ne_none _
  · split <;> exact Option.some_ne_none _
  · split <;> exact Option.some_ne_none _
  · apply map_ne_none
    apply slice_ne_none (Nat.le_add_right i _)
    have hlen := (List.takeWhile_prefix (l := cap.drop i) fun b => b ≠ byte '}').length_le
    rw [List.length_drop] at hlen
    omega
  · exact Option.some_ne_none _
  · split
    · exact Option.some_ne_none _
    · exact map_ne_none _ (setVar_ne_none _ _)
  · split
    · exact Option.some_ne_none _
    · exact map_ne_none _ (getVar_ne_none _)
  · exact Option.some_ne_none _
  · exact Option.some_ne_none _
  · exact absurd rfl hc
  · exact Option.some_ne_none _
  · exact Option.some_ne_none _
  · split <;> exact Option.some_ne_none _

theorem formatted_ne_none (c : UInt8) : formatted cap i c ≠ none := by
  unfold formatted
  split
  · dsimp only
    split
    · rename_i conv hconv
      split
      · apply map_ne_none
        apply slice_ne_none
        · split <;> omega
        · exact Nat.le_of_lt (List.getElem?_eq_some_iff.mp hconv).1
      · exact Option.some_ne_none _
    · exact Option.some_ne_none _
  · exact Option.some_ne_none _

end Directives

/-- `%i` is next, and a parameter that it increments is the largest number. -/
def IncrementsMax (cap : Bytes) (s : Nat × Machine) : Prop :=
  cap[s.1]? = some (byte '%') ∧ cap[s.1 + 1]? = some (byte 'i') ∧ s.2.incremented_two = false ∧
    ∃ v ∈ s.2.p.take 2, v.int = Int64.maxValue

/-- A flag run is next that asks for a longer number than there can be. -/
def AsksTooMuch (cap : Bytes) (s : Nat × Machine) : Prop :=
  cap[s.1]? = some (byte '%') ∧ ∃ c spec conv j, cap[s.1 + 1]? = some c ∧
    formatted cap (s.1 + 1) c = some (some (spec, conv, j)) ∧ conv ≠ 's' ∧
    isizeMax < formattedLength spec conv s.2.top.int

theorem formatted_i (cap : Bytes) (i : Nat) : formatted cap i (byte 'i') = some none := by
  rw [formatted, if_neg (by decide)]

/-- What a round panics at. -/
theorem step_ne_none_iff {cap : Bytes} {hack : Bool} {s : Nat × Machine} (h : s.1 < cap.length) :
    step cap hack s ≠ none ↔ ¬ IncrementsMax cap s ∧ ¬ AsksTooMuch cap s := by
  obtain ⟨b, hb⟩ : ∃ b, cap[s.1]? = some b := ⟨_, List.getElem?_eq_getElem h⟩
  rw [step]
  simp only [hb]
  by_cases hpercent : b = byte '%'
  · subst hpercent
    rw [if_neg (by simp)]
    cases hc : cap[s.1 + 1]? with
    | none => simp [IncrementsMax, AsksTooMuch, hc]
    | some c =>
        have hlen : s.1 + 2 ≤ cap.length := (List.getElem?_eq_some_iff.mp hc).1
        obtain ⟨f, hf⟩ := Option.ne_none_iff_exists'.mp (@formatted_ne_none cap (s.1 + 1) c)
        simp only [hf, Option.bind_some]
        cases f with
        | some f =>
            obtain ⟨spec, conv, j⟩ := f
            have hi : ¬ IncrementsMax cap s := by
              rintro ⟨-, hc', -, -⟩
              cases hc.symm.trans hc'
              cases hf.symm.trans (formatted_i cap (s.1 + 1))
            have hask : AsksTooMuch cap s ↔ conv ≠ 's' ∧ isizeMax < formattedLength spec conv s.2.top.int := by
              constructor
              · rintro ⟨-, c', spec', conv', j', hc', hf', hask⟩
                cases hc.symm.trans hc'
                cases hf.symm.trans hf'
                exact hask
              · intro hask
                exact ⟨hb, c, spec, conv, j, hc, hf, hask⟩
            rw [ne_eq, Option.map_eq_none_iff, ← ne_eq, convert, hask]
            by_cases hs : conv = 's'
            · simp [hs, hi]
            · rw [if_neg hs, ne_eq, Option.map_eq_none_iff, ← ne_eq, (fmt_int_spec spec conv s.2.top.int).1]
              simp [hs, hi]
        | none =>
            have hask : ¬ AsksTooMuch cap s := by
              rintro ⟨-, c', spec, conv, j, hc', hf', -⟩
              cases hc.symm.trans hc'
              cases hf.symm.trans hf'
            by_cases hci : c = byte 'i'
            · subst hci
              have hstep : directive cap hack (asChar (byte 'i')) (s.1 + 2) s.2 =
                  (increment hack s.2).map (Prod.mk (s.1 + 2)) := rfl
              rw [hstep, ne_eq, Option.map_eq_none_iff, ← ne_eq, increment_ne_none_iff]
              simp [IncrementsMax, hb, hc, hask]
            · have hne : asChar c ≠ 'i' := fun h => hci ((asChar_eq_iff (by decide)).mp h)
              have hi : ¬ IncrementsMax cap s := by
                rintro ⟨-, hc', -, -⟩
                exact hci (Option.some.inj (hc.symm.trans hc'))
              exact iff_of_true (directive_ne_none hlen hne) ⟨hi, hask⟩
  · rw [if_pos hpercent]
    have hi : cap[s.1]? ≠ some (byte '%') := by
      rw [hb]
      exact fun heq => hpercent (Option.some.inj heq)
    simp [IncrementsMax, AsksTooMuch, hi]

end Zshrs.Tparm
