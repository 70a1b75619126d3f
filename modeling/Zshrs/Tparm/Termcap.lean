import Mathlib.Algebra.Order.BigOperators.Group.List
import Mathlib.Algebra.Order.Group.Nat
import Zshrs.Tparm.Bounds
import Mathlib.Algebra.GroupWithZero.Nat

namespace Zshrs.Tparm

open Lib

def printedLength (params : List V) : Nat := (params.map fun v => v.string.length).sum

section Evaluation

variable (cap : Bytes) (params : List V) (statics : Variables)

/-- The states that the loop of `tparm_params` comes to. -/
def Comes (s : Nat × Machine) : Prop :=
  (evaluation cap (!says_p cap)).Reaches (0, startMachine cap params statics) s

/-- `tparm_params` returns if and only if it comes to no `%i` at the largest number and to no flag run that asks
for too long a number. -/
theorem tparm_params_ne_none_iff : tparm_params cap params statics ≠ none ↔
    ∀ s, Comes cap params statics s → ¬ IncrementsMax cap s ∧ ¬ AsksTooMuch cap s := by
  rw [tparm_params, ne_eq, Option.map_eq_none_iff, ← ne_eq, Loop.run_ne_none_iff]
  apply forall_congr'
  intro s
  apply imp_congr_right
  intro _
  by_cases hs : s.1 < cap.length
  · have hguard : (evaluation cap (!says_p cap)).guard s = true := decide_eq_true hs
    rw [← step_ne_none_iff hs]
    exact ⟨fun h => h hguard, fun h _ => h⟩
  · have hguard : (evaluation cap (!says_p cap)).guard s = false := decide_eq_false hs
    have hread : cap[s.1]? = none := List.getElem?_eq_none (not_lt.mp hs)
    simp [hguard, IncrementsMax, AsksTooMuch, hread]

theorem length_string_le_printedLength {v : V} (h : v ∈ params) : v.string.length ≤ printedLength params := by
  apply List.single_le_sum (fun x _ => Nat.zero_le x)
  exact List.mem_map.mpr ⟨v, h, rfl⟩

theorem bounded_start : Bounded (printedLength params + 21) (startMachine cap params statics) := by
  have hparam : ∀ i : Nat, ((params[i]?).getD (V.Int 0)).string.length ≤ printedLength params + 21 := by
    intro i
    cases hi : params[i]? with
    | none => exact Nat.le_trans (length_int_string 0) (Nat.le_add_left _ _)
    | some v =>
        have hv := length_string_le_printedLength params (List.mem_of_getElem? hi)
        exact Nat.le_trans hv (Nat.le_add_right _ _)
  intro v hv
  rcases List.mem_append.mp hv with hv | hv
  · exact Nat.le_trans (length_string_le_printedLength params hv) (Nat.le_add_right _ _)
  · dsimp only [startMachine] at hv
    split at hv
    · cases hv
    · obtain ⟨i, -, rfl⟩ := List.mem_map.mp hv
      exact hparam i

/-- What a call may write. -/
def tparmBound : Nat := cap.length * (printedLength params + 10 ^ cap.length + 34)

theorem length_tparm_params_le {out : Bytes} {statics' : Variables}
    (h : tparm_params cap params statics = some (out, statics')) : out.length ≤ tparmBound cap params := by
  obtain ⟨t, ht, heq⟩ := Option.map_eq_some_iff.mp h
  obtain ⟨hreach, -⟩ := Loop.run_eq_some_iff.mp ht
  have hinv := hreach.invariant
    (I := fun s => Bounded (printedLength params + 21) s.2 ∧ s.1 ≤ cap.length ∧
      s.2.out.length ≤ s.1 * (printedLength params + 10 ^ cap.length + 34))
    (by
      rintro u v ⟨-, hstep⟩ ⟨hbounded, -, hout⟩
      obtain ⟨hbounded', hout'⟩ := step_grows (E := printedLength params + 10 ^ cap.length + 34) hbounded
        (Nat.le_add_left _ _) (by omega) hstep
      refine ⟨hbounded', step_le hstep, ?_⟩
      have hlt : u.1 + 1 ≤ v.1 := step_lt hstep
      have hmul := Nat.mul_le_mul_right (printedLength params + 10 ^ cap.length + 34) hlt
      rw [Nat.add_mul, Nat.one_mul] at hmul
      omega)
    ⟨bounded_start cap params statics, Nat.zero_le _, Nat.zero_le _⟩
  obtain ⟨-, hi, hout⟩ := hinv
  cases heq
  have htrunc : (truncate_at_nul t.2.out).length ≤ t.2.out.length := (List.takeWhile_prefix _).length_le
  have hmul := Nat.mul_le_mul_right (printedLength params + 10 ^ cap.length + 34) hi
  exact Nat.le_trans htrunc (Nat.le_trans hout hmul)

end Evaluation

/-- The variables of `tgoto` that its loop changes, apart from the index. -/
structure Address where
  args : Vector Int64 2
  next : Nat
  out : Bytes

namespace Address

variable (g : Address)

def emit (s : Bytes) : Address := { g with out := g.out ++ s }

/-- The next argument, or 0 behind the last. -/
def arg : Int64 := (g.args[g.next]?).getD 0

def taken : Address := { g with next := g.next + 1 }

/-- `if let Some(slot) = args.get_mut(next)`. -/
def modify (f : Int64 → Option Int64) : Option Address :=
  if h : g.next < 2 then (f g.args[g.next]).map fun v => { g with args := g.args.set g.next v h }
  else some g

end Address

/-- `{:0w$}`. -/
def zeroPadded (w : Nat) (v : Int64) : List Char :=
  let sign : List Char := if v < 0 then ['-'] else []
  let ds := Nat.toDigits 10 v.toInt.natAbs
  sign ++ List.replicate (w - (sign.length + ds.length)) '0' ++ ds

def byteAt (cap : Bytes) (i : Nat) : Int64 := Int64.ofNat ((cap[i]?).getD 0).toNat

/-- What `%B` and `%D` make of an argument. -/
def bcd (v : Int64) : Option Int64 :=
  (checked (v.toInt.tdiv 10 * 16)).bind fun q => checked (q.toInt + v.toInt.tmod 10)

def reverseCoded (v : Int64) : Option Int64 :=
  (checked (2 * v.toInt.tmod 16)).bind fun d => checked (v.toInt - d.toInt)

/-- A directive of a termcap string, with its operands at `i`. -/
def addressing (cap : Bytes) (c : UInt8) (i : Nat) (g : Address) : Option (Nat × Address) :=
  match asChar c with
  | '%' => some (i, g.emit [byte '%'])
  | 'd' => some (i, g.taken.emit (bytes (decimal g.arg)))
  | '2' => some (i, g.taken.emit (bytes (zeroPadded 2 (g.arg % 100))))
  | '3' => some (i, g.taken.emit (bytes (zeroPadded 3 (g.arg % 1000))))
  | '.' => some (i, g.taken.emit [g.arg.toUInt64.toUInt8])
  | '+' => (checked (g.arg.toInt + (byteAt cap i).toInt)).map fun v => (i + 1, g.taken.emit [v.toUInt64.toUInt8])
  | '>' =>
    if byteAt cap i < g.arg then
      (g.modify fun v => checked (v.toInt + (byteAt cap (i + 1)).toInt)).map (Prod.mk (i + 2))
    else some (i + 2, g)
  | 'r' => some (i, { g with args := g.args.swap 0 1 })
  | 'i' =>
    (checked (g.args[0].toInt + 1)).bind fun row => (checked (g.args[1].toInt + 1)).map fun col =>
      (i, { g with args := (g.args.set 0 row).set 1 col })
  | 'n' => some (i, { g with args := (g.args.set 0 (g.args[0] ^^^ 0o140)).set 1 (g.args[1] ^^^ 0o140) })
  | 'B' => (g.modify bcd).map (Prod.mk i)
  | 'D' => (g.modify reverseCoded).map (Prod.mk i)
  | _ => some (i, g.emit [c])

/-- One round of the loop of `tgoto`. -/
def gotoStep (cap : Bytes) (s : Nat × Address) : Option (Nat × Address) :=
  match cap[s.1]? with
  | none => none
  | some b =>
    if b ≠ byte '%' then some (s.1 + 1, s.2.emit [b])
    else
      match cap[s.1 + 1]? with
      | none => some (s.1 + 1, s.2)
      | some c => addressing cap c (s.1 + 2) s.2

theorem addressing_le {cap : Bytes} {c : UInt8} {i : Nat} {g : Address} {t : Nat × Address}
    (h : addressing cap c i g = some t) : i ≤ t.1 := by
  unfold addressing at h
  split at h
  · cases h; exact Nat.le_refl i
  · cases h; exact Nat.le_refl i
  · cases h; exact Nat.le_refl i
  · cases h; exact Nat.le_refl i
  · cases h; exact Nat.le_refl i
  · obtain ⟨v, -, rfl⟩ := Option.map_eq_some_iff.mp h
    exact Nat.le_succ i
  · split at h
    · obtain ⟨v, -, rfl⟩ := Option.map_eq_some_iff.mp h
      exact Nat.le_add_right i 2
    · cases h; exact Nat.le_add_right i 2
  · cases h; exact Nat.le_refl i
  · obtain ⟨row, -, h⟩ := Option.bind_eq_some_iff.mp h
    obtain ⟨col, -, rfl⟩ := Option.map_eq_some_iff.mp h
    exact Nat.le_refl i
  · cases h; exact Nat.le_refl i
  · obtain ⟨v, -, rfl⟩ := Option.map_eq_some_iff.mp h
    exact Nat.le_refl i
  · obtain ⟨v, -, rfl⟩ := Option.map_eq_some_iff.mp h
    exact Nat.le_refl i
  · cases h; exact Nat.le_refl i

theorem gotoStep_lt {cap : Bytes} {s t : Nat × Address} (h : gotoStep cap s = some t) : s.1 < t.1 := by
  unfold gotoStep at h
  split at h
  · cases h
  · split at h
    · cases h
      exact Nat.lt_succ_self s.1
    · split at h
      · cases h
        exact Nat.lt_succ_self s.1
      · have := addressing_le h
        omega

/-- The loop of `tgoto`. -/
def addressingLoop (cap : Bytes) : Loop (Nat × Address) where
  guard s := s.1 < cap.length
  step := gotoStep cap
  measure s := cap.length - s.1
  decreases s t hg hs := by
    have hlt := gotoStep_lt hs
    have hg : s.1 < cap.length := of_decide_eq_true hg
    omega

/-- ncurses `tgoto(cap, col, row)`; a string with `%p` is evaluated by `tparm`. -/
def tgoto (cap : Bytes) (col row : Int64) (statics : Variables) : Option (Bytes × Variables) :=
  if says_p cap then tparm_params cap [.Int row, .Int col] statics
  else ((addressingLoop cap).run (0, ⟨#v[row, col], 0, []⟩)).map fun s => (s.2.out, statics)

section Panics

variable {cap : Bytes} {c : UInt8} {i : Nat} {g : Address}

theorem tmod_bounds {x k : Int} (hk : 0 < k) :
    (0 ≤ x → 0 ≤ x.tmod k ∧ x.tmod k < k) ∧ (x ≤ 0 → -k < x.tmod k ∧ x.tmod k ≤ 0) := by
  constructor
  · intro h
    exact ⟨Int.tmod_nonneg k h, Int.tmod_lt_of_pos x hk⟩
  · intro h
    have hnonneg := Int.tmod_nonneg k (Int.neg_nonneg.mpr h)
    have hlt := Int.tmod_lt_of_pos (-x) hk
    rw [Int.neg_tmod] at hnonneg hlt
    omega

theorem bcd_ne_none_iff (v : Int64) :
    bcd v ≠ none ↔ InRange (v.toInt.tdiv 10 * 16 + v.toInt.tmod 10) := by
  have hv := inRange_toInt v
  have hdiv := Int.mul_tdiv_add_tmod v.toInt 10
  obtain ⟨hpos, hneg⟩ := @tmod_bounds v.toInt 10 (by decide)
  rw [bcd]
  cases hq : checked (v.toInt.tdiv 10 * 16) with
  | none =>
      have hno : ¬ InRange (v.toInt.tdiv 10 * 16) := fun h => checked_ne_none_iff.mpr h hq
      refine iff_of_false (by simp) ?_
      rw [inRange_iff] at hno ⊢
      omega
  | some q =>
      rw [Option.bind_some, checked_ne_none_iff, toInt_checked hq]

theorem reverseCoded_ne_none (v : Int64) : reverseCoded v ≠ none := by
  have hv := inRange_toInt v
  have hdiv := Int.mul_tdiv_add_tmod v.toInt 16
  obtain ⟨hpos, hneg⟩ := @tmod_bounds v.toInt 16 (by decide)
  rw [inRange_iff] at hv
  have hdouble : InRange (2 * v.toInt.tmod 16) := by
    rw [inRange_iff]
    omega
  obtain ⟨d, hd⟩ := Option.ne_none_iff_exists'.mp (checked_ne_none_iff.mpr hdouble)
  rw [reverseCoded, hd, Option.bind_some, checked_ne_none_iff, toInt_checked hd, inRange_iff]
  omega

theorem Address.modify_ne_none_iff {f : Int64 → Option Int64} :
    g.modify f ≠ none ↔ (g.next < 2 → f g.arg ≠ none) := by
  rw [Address.modify, Address.arg]
  by_cases h : g.next < 2
  · rw [dif_pos h, Vector.getElem?_eq_getElem h, ne_eq, Option.map_eq_none_iff]
    simp [h]
  · rw [dif_neg h]
    simp [h]

/-- What a directive panics at. -/
def Panics (cap : Bytes) (c : UInt8) (i : Nat) (g : Address) : Prop :=
  c = byte '+' ∧ ¬ InRange (g.arg.toInt + (byteAt cap i).toInt) ∨
  c = byte '>' ∧ g.next < 2 ∧ byteAt cap i < g.arg ∧ ¬ InRange (g.arg.toInt + (byteAt cap (i + 1)).toInt) ∨
  c = byte 'i' ∧ (g.args[0] = Int64.maxValue ∨ g.args[1] = Int64.maxValue) ∨
  c = byte 'B' ∧ g.next < 2 ∧ ¬ InRange (g.arg.toInt.tdiv 10 * 16 + g.arg.toInt.tmod 10)

theorem addressing_ne_none_iff : addressing cap c i g ≠ none ↔ ¬ Panics cap c i g := by
  have hbyte : ∀ {k : Char}, asChar (byte k) = k → asChar c = k → c = byte k := fun hk h => (asChar_eq_iff hk).mp h
  have hother : ∀ k : Char, asChar c = k → k ≠ '+' → k ≠ '>' → k ≠ 'i' → k ≠ 'B' → ¬ Panics cap c i g := by
    rintro k hk hplus hgt hi hB (⟨rfl, -⟩ | ⟨rfl, -⟩ | ⟨rfl, -⟩ | ⟨rfl, -⟩)
    · exact hplus hk.symm
    · exact hgt hk.symm
    · exact hi hk.symm
    · exact hB hk.symm
  unfold addressing
  split
  · rename_i h
    exact iff_of_true (Option.some_ne_none _) (hother _ h (by decide) (by decide) (by decide) (by decide))
  · rename_i h
    exact iff_of_true (Option.some_ne_none _) (hother _ h (by decide) (by decide) (by decide) (by decide))
  · rename_i h
    exact iff_of_true (Option.some_ne_none _) (hother _ h (by decide) (by decide) (by decide) (by decide))
  · rename_i h
    exact iff_of_true (Option.some_ne_none _) (hother _ h (by decide) (by decide) (by decide) (by decide))
  · rename_i h
    exact iff_of_true (Option.some_ne_none _) (hother _ h (by decide) (by decide) (by decide) (by decide))
  · rename_i h
    cases hbyte (by decide) h
    rw [ne_eq, Option.map_eq_none_iff, ← ne_eq, checked_ne_none_iff]
    simp [Panics, byte]
  · rename_i h
    cases hbyte (by decide) h
    by_cases hlt : byteAt cap i < g.arg
    · rw [if_pos hlt, ne_eq, Option.map_eq_none_iff, ← ne_eq, Address.modify_ne_none_iff, checked_ne_none_iff]
      simp [Panics, byte, hlt]
    · rw [if_neg hlt]
      simp [Panics, byte, hlt]
  · rename_i h
    exact iff_of_true (Option.some_ne_none _) (hother _ h (by decide) (by decide) (by decide) (by decide))
  · rename_i h
    cases hbyte (by decide) h
    have hpanics : Panics cap (byte 'i') i g ↔ g.args[0] = Int64.maxValue ∨ g.args[1] = Int64.maxValue := by
      simp [Panics, byte]
    rw [hpanics, not_or, ← ne_eq, ← ne_eq, ← inRange_succ_iff, ← inRange_succ_iff, ← checked_ne_none_iff,
      ← checked_ne_none_iff]
    cases checked (g.args[0].toInt + 1) <;> cases checked (g.args[1].toInt + 1) <;> simp
  · rename_i h
    exact iff_of_true (Option.some_ne_none _) (hother _ h (by decide) (by decide) (by decide) (by decide))
  · rename_i h
    cases hbyte (by decide) h
    rw [ne_eq, Option.map_eq_none_iff, ← ne_eq, Address.modify_ne_none_iff, bcd_ne_none_iff]
    simp [Panics, byte]
  · rename_i h
    refine iff_of_true ?_ (hother _ h (by decide) (by decide) (by decide) (by decide))
    rw [ne_eq, Option.map_eq_none_iff, ← ne_eq, Address.modify_ne_none_iff]
    exact fun _ => reverseCoded_ne_none _
  · rename_i _ _ _ _ _ hplus hgt _ hi _ hB _
    refine iff_of_true (Option.some_ne_none _) ?_
    rintro (⟨rfl, -⟩ | ⟨rfl, -⟩ | ⟨rfl, -⟩ | ⟨rfl, -⟩)
    · exact hplus rfl
    · exact hgt rfl
    · exact hi rfl
    · exact hB rfl

/-- A directive is next whose sum or product is out of range. -/
def AddressOverflows (cap : Bytes) (s : Nat × Address) : Prop :=
  cap[s.1]? = some (byte '%') ∧ ∃ c, cap[s.1 + 1]? = some c ∧ Panics cap c (s.1 + 2) s.2

theorem gotoStep_ne_none_iff {s : Nat × Address} (h : s.1 < cap.length) :
    gotoStep cap s ≠ none ↔ ¬ AddressOverflows cap s := by
  obtain ⟨b, hb⟩ : ∃ b, cap[s.1]? = some b := ⟨_, List.getElem?_eq_getElem h⟩
  rw [gotoStep]
  simp only [hb]
  by_cases hpercent : b = byte '%'
  · subst hpercent
    rw [if_neg (by simp)]
    cases hc : cap[s.1 + 1]? with
    | none => simp [AddressOverflows, hc]
    | some c =>
        rw [addressing_ne_none_iff]
        simp [AddressOverflows, hb, hc]
  · rw [if_pos hpercent]
    have hno : ¬ AddressOverflows cap s := by
      rintro ⟨hb', -⟩
      exact hpercent (Option.some.inj (hb.symm.trans hb'))
    exact iff_of_true (Option.some_ne_none _) hno

end Panics

section Writing

variable {cap : Bytes}

theorem length_zeroPadded_le {w : Nat} (hw : w ≤ 21) (v : Int64) : (zeroPadded w v).length ≤ 21 := by
  have habs : v.toInt.natAbs < 10 ^ 20 := by
    have hlo := v.le_toInt
    have hhi := v.toInt_lt
    omega
  have hdigits : (Nat.toDigits 10 v.toInt.natAbs).length ≤ 20 := length_toDigits_le (by decide) (by decide) habs
  rw [zeroPadded]
  split <;> simp only [List.length_append, List.length_replicate, List.length_cons, List.length_nil] <;> omega

theorem Address.length_modify {g g' : Address} {f : Int64 → Option Int64} (h : g.modify f = some g') :
    g'.out = g.out := by
  rw [Address.modify] at h
  split at h
  · obtain ⟨v, -, rfl⟩ := Option.map_eq_some_iff.mp h
    rfl
  · cases h
    rfl

theorem addressing_writes {c : UInt8} {i : Nat} {g : Address} {t : Nat × Address}
    (h : addressing cap c i g = some t) : t.2.out.length ≤ g.out.length + 21 ∧ t.1 ≤ i + 2 := by
  have hemit : ∀ (s : Bytes) (j : Nat), s.length ≤ 21 → j ≤ i + 2 → (g.out ++ s).length ≤ g.out.length + 21 ∧ j ≤ i + 2 := by
    intro s j hs hj
    rw [List.length_append]
    omega
  have hnumber : ∀ s : List Char, s.length ≤ 21 → (bytes s).length ≤ 21 := by
    intro s hs
    rw [bytes, List.length_map]
    exact hs
  have hquiet : ∀ {g' : Address} {j : Nat}, g'.out = g.out → j ≤ i + 2 →
      g'.out.length ≤ g.out.length + 21 ∧ j ≤ i + 2 := by
    intro g' j hout hj
    rw [hout]
    omega
  unfold addressing at h
  split at h
  · cases h
    exact hemit _ i (by simp) (by omega)
  · cases h
    exact hemit _ i (hnumber _ (length_decimal_le _)) (by omega)
  · cases h
    exact hemit _ i (hnumber _ (length_zeroPadded_le (by decide) _)) (by omega)
  · cases h
    exact hemit _ i (hnumber _ (length_zeroPadded_le (by decide) _)) (by omega)
  · cases h
    exact hemit _ i (by simp) (by omega)
  · obtain ⟨v, -, rfl⟩ := Option.map_eq_some_iff.mp h
    exact hemit _ (i + 1) (by simp) (by omega)
  · split at h
    · obtain ⟨g', hg', rfl⟩ := Option.map_eq_some_iff.mp h
      exact hquiet (Address.length_modify hg') (Nat.le_refl _)
    · cases h
      exact hquiet rfl (Nat.le_refl _)
  · cases h
    exact hquiet rfl (by omega)
  · obtain ⟨row, -, h⟩ := Option.bind_eq_some_iff.mp h
    obtain ⟨col, -, rfl⟩ := Option.map_eq_some_iff.mp h
    exact hquiet rfl (by omega)
  · cases h
    exact hquiet rfl (by omega)
  · obtain ⟨g', hg', rfl⟩ := Option.map_eq_some_iff.mp h
    exact hquiet (Address.length_modify hg') (by omega)
  · obtain ⟨g', hg', rfl⟩ := Option.map_eq_some_iff.mp h
    exact hquiet (Address.length_modify hg') (by omega)
  · cases h
    exact hemit _ i (by simp) (by omega)

theorem gotoStep_writes {s t : Nat × Address} (h : gotoStep cap s = some t) :
    t.2.out.length ≤ s.2.out.length + 21 ∧ t.1 ≤ cap.length + 2 := by
  unfold gotoStep at h
  split at h
  · cases h
  · rename_i b hb
    have hlt := (List.getElem?_eq_some_iff.mp hb).1
    split at h
    · cases h
      rw [Address.emit, List.length_append, List.length_singleton]
      omega
    · split at h
      · cases h
        dsimp only
        omega
      · rename_i c hc
        have hlt' := (List.getElem?_eq_some_iff.mp hc).1
        have hwrites := addressing_writes h
        omega

end Writing

variable (cap : Bytes) (col row : Int64) (statics : Variables)

def addressed : Nat × Address := (0, ⟨#v[row, col], 0, []⟩)

/-- `tgoto` returns if and only if it comes to no directive whose result is out of range. -/
theorem tgoto_ne_none_iff : tgoto cap col row statics ≠ none ↔
    if says_p cap then ∀ s, Comes cap [.Int row, .Int col] statics s → ¬ IncrementsMax cap s ∧ ¬ AsksTooMuch cap s
    else ∀ s, (addressingLoop cap).Reaches (addressed col row) s → ¬ AddressOverflows cap s := by
  rw [tgoto]
  by_cases hp : says_p cap = true
  · rw [if_pos hp, if_pos hp]
    exact tparm_params_ne_none_iff cap _ statics
  · rw [if_neg hp, if_neg hp, ne_eq, Option.map_eq_none_iff, ← ne_eq, Loop.run_ne_none_iff]
    apply forall_congr'
    intro s
    apply imp_congr_right
    intro _
    by_cases hs : s.1 < cap.length
    · have hguard : (addressingLoop cap).guard s = true := decide_eq_true hs
      rw [← gotoStep_ne_none_iff hs]
      exact ⟨fun h => h hguard, fun h _ => h⟩
    · have hguard : (addressingLoop cap).guard s = false := decide_eq_false hs
      have hread : cap[s.1]? = none := List.getElem?_eq_none (not_lt.mp hs)
      simp [hguard, AddressOverflows, hread]

/-- What an addressing may write. -/
def tgotoBound : Nat := tparmBound cap [.Int row, .Int col] + 21 * (cap.length + 2)

theorem length_tgoto_le {out : Bytes} {statics' : Variables}
    (h : tgoto cap col row statics = some (out, statics')) : out.length ≤ tgotoBound cap col row := by
  rw [tgoto] at h
  split at h
  · exact Nat.le_trans (length_tparm_params_le cap _ statics h) (Nat.le_add_right _ _)
  · obtain ⟨t, ht, heq⟩ := Option.map_eq_some_iff.mp h
    obtain ⟨hreach, -⟩ := Loop.run_eq_some_iff.mp ht
    have hinv := hreach.invariant (I := fun s => s.1 ≤ cap.length + 2 ∧ s.2.out.length ≤ 21 * s.1)
      (by
        rintro u v ⟨-, hstep⟩ ⟨-, hout⟩
        have hlt := gotoStep_lt hstep
        obtain ⟨hwrites, hi⟩ := gotoStep_writes hstep
        refine ⟨hi, ?_⟩
        omega)
      ⟨Nat.zero_le _, Nat.zero_le _⟩
    cases heq
    rw [tgotoBound]
    omega

end Zshrs.Tparm
