import Zshrs.Tparm.Delays

namespace Zshrs.Tparm

open Lib

/-- The tenths of a millisecond that a delay asks for, with the affected lines counted. -/
def delayNumber (affcnt : Int32) (s : Bytes) : Int := delayTenths s * affcnt.toInt ^ delayStars s

/-- A delay all of whose products are in range. -/
def DelayFits (affcnt : Int32) (info : PadInfo) (s : Bytes) : Prop :=
  (∀ j ≤ delayStars s, InRange (delayTenths s * affcnt.toInt ^ j)) ∧
    (info.pads (delayNumber affcnt s) (isMandatory s) = true →
      InRange ((delayNumber affcnt s).tdiv 10 * info.baud.toInt))

/-- The documented count of pad characters, `(ms * baudrate) / (BAUDBYTE * 1000)`. -/
def nullcount (affcnt : Int32) (info : PadInfo) (s : Bytes) : Nat :=
  if info.pads (delayNumber affcnt s) (isMandatory s) = true then
    ((delayNumber affcnt s).tdiv 10 * info.baud.toInt).tdiv (BAUDBYTE * 1000) |>.toNat
  else 0

/-- A delay starts at `i`. -/
def DelayAt (cap : Bytes) (i : Nat) : Prop :=
  cap[i]? = some (byte '$') ∧ cap[i + 1]? = some (byte '<') ∧ startsDelay (cap.drop (i + 2)) = true

instance (cap : Bytes) (i : Nat) : Decidable (DelayAt cap i) := inferInstanceAs (Decidable (_ ∧ _))

section Round

variable {affcnt : Int32} {info : PadInfo}

theorem padBytes_ne_none_iff (number : Int64) (mandatory : Bool) : padBytes info number mandatory ≠ none ↔
    (info.pads number.toInt mandatory = true → InRange (number.toInt.tdiv 10 * info.baud.toInt)) := by
  rw [padBytes]
  by_cases h : info.pads number.toInt mandatory = true
  · rw [if_pos h, ne_eq, Option.map_eq_none_iff, ← ne_eq, checked_ne_none_iff]
    simp [h]
  · rw [if_neg h]
    simp [h]

theorem readDelay_ne_none_iff (s : Bytes) : readDelay affcnt s ≠ none ↔
    ∀ j ≤ delayStars s, InRange (delayTenths s * affcnt.toInt ^ j) := by
  rw [readDelay_eq]
  by_cases h : InRange (delayTenths s)
  · obtain ⟨v, hv, hvInt⟩ := checked_eq_some h
    rw [hv, Option.bind_some, ne_eq, Option.map_eq_none_iff, ← ne_eq, multiplied_ne_none_iff, hvInt]
  · rw [checked_eq_none h, Option.bind_none]
    refine iff_of_false (fun hne => hne rfl) ?_
    intro hall
    have hzero := hall 0 (Nat.zero_le _)
    rw [Int.pow_zero, Int.mul_one] at hzero
    exact h hzero

theorem readDelay_spec {s : Bytes} {r : Int64 × Bool × Bytes} (h : readDelay affcnt s = some r) :
    r.1.toInt = delayNumber affcnt s ∧ r.2.1 = isMandatory s ∧ r.2.2 = behindDelay s := by
  rw [readDelay_eq] at h
  obtain ⟨tenths, ht, h⟩ := Option.bind_eq_some_iff.mp h
  obtain ⟨number, hn, rfl⟩ := Option.map_eq_some_iff.mp h
  refine ⟨?_, rfl, rfl⟩
  rw [toInt_multiplied hn, toInt_checked ht]
  rfl

theorem length_padBytes {s pads : Bytes} {number : Int64} (hn : number.toInt = delayNumber affcnt s)
    (h : padBytes info number (isMandatory s) = some pads) : pads.length = nullcount affcnt info s := by
  rw [padBytes, hn] at h
  rw [nullcount]
  by_cases hpads : info.pads (delayNumber affcnt s) (isMandatory s) = true
  · rw [if_pos hpads] at h ⊢
    obtain ⟨product, hp, rfl⟩ := Option.map_eq_some_iff.mp h
    rw [List.length_replicate, toInt_checked hp]
  · rw [if_neg hpads] at h ⊢
    cases h
    rfl

/-- A delay becomes pad bytes if and only if it fits. -/
theorem delay_ne_none_iff (s : Bytes) (f : Int64 × Bool × Bytes → Bytes → Nat × Bytes) :
    ((readDelay affcnt s).bind fun r => (padBytes info r.1 r.2.1).map (f r)) ≠ none ↔ DelayFits affcnt info s := by
  rw [DelayFits, ← readDelay_ne_none_iff]
  cases hr : readDelay affcnt s with
  | none => simp
  | some r =>
      obtain ⟨hnumber, hmandatory, -⟩ := readDelay_spec hr
      rw [Option.bind_some, ne_eq, Option.map_eq_none_iff, ← ne_eq, padBytes_ne_none_iff, hnumber, hmandatory]
      simp

variable {cap : Bytes}

theorem putsStep_delay {s : Nat × Bytes} (h : DelayAt cap s.1) :
    putsStep cap affcnt info s = (readDelay affcnt (cap.drop (s.1 + 2))).bind fun r =>
      (padBytes info r.1 r.2.1).map fun pads => (cap.length - r.2.2.length, s.2 ++ pads) := by
  obtain ⟨hdollar, hopen, hstarts⟩ := h
  simp only [putsStep, hdollar, hopen, hstarts]
  simp

theorem putsStep_text {s : Nat × Bytes} (hlt : s.1 < cap.length) (h : ¬ DelayAt cap s.1) :
    ∃ text : Bytes, text ≠ [] ∧ s.1 + text.length ≤ cap.length ∧
      putsStep cap affcnt info s = some (s.1 + text.length, s.2 ++ text) := by
  obtain ⟨b, hb⟩ : ∃ b, cap[s.1]? = some b := ⟨_, List.getElem?_eq_getElem hlt⟩
  by_cases hdollar : b = byte '$'
  · subst hdollar
    by_cases hopen : cap[s.1 + 1]? = some (byte '<')
    · have hstarts : ¬ startsDelay (cap.drop (s.1 + 2)) = true := fun hstarts => h ⟨hb, hopen, hstarts⟩
      have hlt' := (List.getElem?_eq_some_iff.mp hopen).1
      refine ⟨[byte '$', byte '<'], by simp, hlt', ?_⟩
      simp only [putsStep, hb, hopen]
      simp [hstarts]
    · refine ⟨[byte '$'], by simp, hlt, ?_⟩
      simp only [putsStep, hb]
      simp [hopen]
  · refine ⟨[b], by simp, hlt, ?_⟩
    simp only [putsStep, hb]
    simp [hdollar]

/-- A round gets past a character, and past a delay it writes the pad bytes alone. -/
theorem putsStep_spec {s t : Nat × Bytes} (h : s.1 < cap.length) (ht : putsStep cap affcnt info s = some t) :
    s.1 < t.1 ∧ t.1 ≤ cap.length ∧ t.2.length + s.1 ≤
      s.2.length + t.1 + if DelayAt cap s.1 then nullcount affcnt info (cap.drop (s.1 + 2)) else 0 := by
  by_cases hat : DelayAt cap s.1
  · rw [putsStep_delay hat] at ht
    obtain ⟨r, hr, hpads⟩ := Option.bind_eq_some_iff.mp ht
    obtain ⟨pads, hpad, rfl⟩ := Option.map_eq_some_iff.mp hpads
    obtain ⟨hnumber, hmandatory, hrest⟩ := readDelay_spec hr
    rw [hmandatory] at hpad
    have hlen := length_padBytes hnumber hpad
    have hopen := (List.getElem?_eq_some_iff.mp hat.2.1).1
    have hbehind := length_behindDelay_le (cap.drop (s.1 + 2))
    rw [List.length_drop] at hbehind
    rw [hrest, if_pos hat, List.length_append, hlen]
    dsimp only
    omega
  · obtain ⟨text, htext, hfits, heq⟩ := @putsStep_text affcnt info cap s h hat
    cases heq.symm.trans ht
    have hpos := List.length_pos_iff.mpr htext
    rw [if_neg hat, List.length_append]
    dsimp only
    omega

end Round

section Padding

variable (cap : Bytes) (affcnt : Int32) (info : PadInfo)

/-- The loop of `tputs`. -/
def padding : Loop (Nat × Bytes) where
  guard s := s.1 < cap.length
  step := putsStep cap affcnt info
  measure s := cap.length - s.1
  decreases s t hg hs := by
    have hg : s.1 < cap.length := of_decide_eq_true hg
    have hlt := (putsStep_spec hg hs).1
    omega

/-- Expand the delays of a capability. -/
def tputs : Option Bytes := ((padding cap affcnt info).run (0, [])).map Prod.snd

/-- A delay is next that does not fit. -/
def DelayOverflows (s : Nat × Bytes) : Prop :=
  DelayAt cap s.1 ∧ ¬ DelayFits affcnt info (cap.drop (s.1 + 2))

theorem tputs_ne_none_iff : tputs cap affcnt info ≠ none ↔
    ∀ s, (padding cap affcnt info).Reaches (0, []) s → ¬ DelayOverflows cap affcnt info s := by
  rw [tputs, ne_eq, Option.map_eq_none_iff, ← ne_eq, Loop.run_ne_none_iff]
  apply forall_congr'
  intro s
  apply imp_congr_right
  intro _
  by_cases hs : s.1 < cap.length
  · have hguard : (padding cap affcnt info).guard s = true := decide_eq_true hs
    have hstep : putsStep cap affcnt info s ≠ none ↔ ¬ DelayOverflows cap affcnt info s := by
      by_cases hat : DelayAt cap s.1
      · rw [putsStep_delay hat, delay_ne_none_iff]
        simp [DelayOverflows, hat]
      · obtain ⟨text, -, -, heq⟩ := @putsStep_text affcnt info cap s hs hat
        rw [heq]
        simp [DelayOverflows, hat]
    rw [← hstep]
    exact ⟨fun h => h hguard, fun h _ => h⟩
  · have hguard : (padding cap affcnt info).guard s = false := decide_eq_false hs
    have hread : cap[s.1]? = none := List.getElem?_eq_none (not_lt.mp hs)
    simp [hguard, DelayOverflows, DelayAt, hread]

/-- The pad bytes of the delays that start before `n`. -/
def padsBefore (n : Nat) : Nat :=
  ((List.range n).map fun i => if DelayAt cap i then nullcount affcnt info (cap.drop (i + 2)) else 0).sum

theorem padsBefore_mono {m n : Nat} (h : m ≤ n) : padsBefore cap affcnt info m ≤ padsBefore cap affcnt info n := by
  obtain ⟨k, rfl⟩ := Nat.exists_eq_add_of_le h
  rw [padsBefore, padsBefore, List.range_add, List.map_append, List.sum_append]
  exact Nat.le_add_right _ _

/-- What a capability may write: its own length and the documented count of each delay. -/
def tputsBound : Nat := cap.length + padsBefore cap affcnt info cap.length

theorem length_tputs_le {out : Bytes} (h : tputs cap affcnt info = some out) :
    out.length ≤ tputsBound cap affcnt info := by
  obtain ⟨t, ht, rfl⟩ := Option.map_eq_some_iff.mp h
  obtain ⟨hreach, -⟩ := Loop.run_eq_some_iff.mp ht
  have hinv := hreach.invariant
    (I := fun s => s.1 ≤ cap.length ∧ s.2.length ≤ s.1 + padsBefore cap affcnt info s.1)
    (by
      rintro u v ⟨hg, hstep⟩ ⟨-, hout⟩
      obtain ⟨hlt, hle, hwrites⟩ := putsStep_spec (of_decide_eq_true hg) hstep
      have hmono := padsBefore_mono cap affcnt info (m := u.1 + 1) hlt
      have hone : padsBefore cap affcnt info (u.1 + 1) = padsBefore cap affcnt info u.1 +
          if DelayAt cap u.1 then nullcount affcnt info (cap.drop (u.1 + 2)) else 0 := by
        simp [padsBefore, List.range_succ]
      refine ⟨hle, ?_⟩
      omega)
    ⟨Nat.zero_le _, Nat.zero_le _⟩
  have hmono := padsBefore_mono cap affcnt info hinv.1
  rw [tputsBound]
  omega

end Padding

variable (cap : Bytes) (params : List V) (statics : Variables) (col row : Int64) (affcnt : Int32) (info : PadInfo)

/-- `tparm_params` returns, and what it returns is no longer than its bound. -/
def TparmSafe : Prop := ∃ r, tparm_params cap params statics = some r ∧ r.1.length ≤ tparmBound cap params

def TgotoSafe : Prop := ∃ r, tgoto cap col row statics = some r ∧ r.1.length ≤ tgotoBound cap col row

def TputsSafe : Prop := ∃ out, tputs cap affcnt info = some out ∧ out.length ≤ tputsBound cap affcnt info

/-- No state that the loop of `tparm_params` comes to is about to overflow. -/
def TparmInRange : Prop := ∀ s, Comes cap params statics s → ¬ IncrementsMax cap s ∧ ¬ AsksTooMuch cap s

def TgotoInRange : Prop :=
  if says_p cap then TparmInRange cap [.Int row, .Int col] statics
  else ∀ s, (addressingLoop cap).Reaches (addressed col row) s → ¬ AddressOverflows cap s

def TputsInRange : Prop :=
  ∀ s, (padding cap affcnt info).Reaches (0, []) s → ¬ DelayOverflows cap affcnt info s

theorem exists_bounded_iff {α : Type} {o : Option α} {P : α → Prop} (h : ∀ a, o = some a → P a) :
    (∃ a, o = some a ∧ P a) ↔ o ≠ none := by
  rw [Option.ne_none_iff_exists']
  apply exists_congr
  intro a
  exact and_iff_left_of_imp (h a)

/-- The evaluation of a capability is safe exactly where no sum, product or width on its way is out of range. -/
theorem capability_safe_iff :
    (TparmSafe cap params statics ↔ TparmInRange cap params statics) ∧
    (TgotoSafe cap statics col row ↔ TgotoInRange cap statics col row) ∧
    (TputsSafe cap affcnt info ↔ TputsInRange cap affcnt info) := by
  refine ⟨?_, ?_, ?_⟩
  · rw [TparmInRange, ← tparm_params_ne_none_iff]
    apply exists_bounded_iff
    rintro ⟨out, statics'⟩ h
    exact length_tparm_params_le cap params statics h
  · rw [TgotoInRange, TparmInRange, ← tgoto_ne_none_iff]
    apply exists_bounded_iff
    rintro ⟨out, statics'⟩ h
    exact length_tgoto_le cap col row statics h
  · rw [TputsInRange, ← tputs_ne_none_iff]
    apply exists_bounded_iff
    intro out h
    exact length_tputs_le cap affcnt info h

/-- `%i%p1%d` with the largest number, the same in an address, and a delay of too many digits. -/
theorem capability_overflows :
    ¬ TparmSafe (bytes ['%', 'i', '%', 'p', '1', '%', 'd']) [.Int Int64.maxValue] (Vector.replicate 26 0) ∧
    ¬ TgotoSafe (bytes ['%', 'i', '%', 'd']) (Vector.replicate 26 0) 0 Int64.maxValue ∧
    ¬ TputsSafe (bytes ("$<9999999999999999999>".toList)) 1 ⟨0, false, 0, false, 0⟩ := by
  have hnone : ∀ {α : Type} {o : Option α} {P : α → Prop}, o = none → ¬ ∃ a, o = some a ∧ P a := by
    rintro α o P rfl ⟨a, h, -⟩
    cases h
  refine ⟨hnone ?_, hnone ?_, hnone ?_⟩
  · rw [tparm_params, Loop.run_panic (by decide) (by decide)]
    rfl
  · rw [tgoto, if_neg (by decide), Loop.run_panic (by decide) (by decide)]
    rfl
  · rw [tputs, Loop.run_panic (by decide) (by decide)]
    rfl

end Zshrs.Tparm
