import Zshrs.Tparm.Rounds
import Mathlib.Algebra.Group.Nat.Defs

namespace Zshrs.Tparm

open Lib

/-- No value of the machine prints longer than `L`. -/
def Bounded (L : Nat) (m : Machine) : Prop := ∀ v ∈ m.p ++ m.stack, v.string.length ≤ L

/-- A change of the machine that keeps the bound of its values and writes at most `E` bytes. -/
def Grows (L E : Nat) (m m' : Machine) : Prop :=
  Bounded L m' ∧ m'.out.length ≤ m.out.length + E

section Changes

variable {L E : Nat} {m : Machine}

theorem length_int_string (i : Int64) : (V.Int i).string.length ≤ 21 := by
  rw [V.string, bytes, List.length_map]
  exact length_decimal_le i

theorem Bounded.popped (h : Bounded L m) : Bounded L m.popped := by
  intro v hv
  apply h v
  rcases List.mem_append.mp hv with hv | hv
  · exact List.mem_append_left _ hv
  · exact List.mem_append_right _ ((List.dropLast_sublist m.stack).subset hv)

theorem Bounded.top (h : Bounded L m) (hL : 21 ≤ L) : m.top.string.length ≤ L := by
  rw [Machine.top]
  cases hlast : m.stack.getLast? with
  | none => exact Nat.le_trans (length_int_string 0) hL
  | some v => exact h v (List.mem_append_right _ (List.mem_of_getLast? hlast))

theorem Bounded.push (h : Bounded L m) {v : V} (hv : v.string.length ≤ L) : Bounded L (m.push v) := by
  intro u hu
  rw [Machine.push, ← List.append_assoc] at hu
  rcases List.mem_append.mp hu with hu | hu
  · exact h u hu
  · rw [List.mem_singleton.mp hu]
    exact hv

theorem Bounded.param (h : Bounded L m) (hL : 21 ≤ L) (k : Nat) : (m.param k).string.length ≤ L := by
  rw [Machine.param]
  cases hk : m.p[k]? with
  | none => exact Nat.le_trans (length_int_string 0) hL
  | some v => exact h v (List.mem_append_left _ (List.mem_of_getElem? hk))

theorem Grows.quiet {m' : Machine} (h : Bounded L m') (hout : m'.out = m.out) : Grows L E m m' :=
  ⟨h, hout ▸ Nat.le_add_right _ _⟩

theorem Grows.emit {m' : Machine} {s : Bytes} (h : Bounded L m') (hout : m'.out = m.out) (hs : s.length ≤ E) :
    Grows L E m (m'.emit s) := by
  refine ⟨h, ?_⟩
  rw [Machine.emit, List.length_append, hout]
  omega

theorem Bounded.pushInt (h : Bounded L m) (hL : 21 ≤ L) (i : Int64) : Bounded L (m.push (.Int i)) :=
  h.push (Nat.le_trans (length_int_string i) hL)

theorem mem_assignBottom {p stack : List V} {k : Nat} {v : V} (h : v ∈ assignBottom p stack k) :
    (∃ i, v = .Int i) ∨ v ∈ stack := by
  rw [assignBottom] at h
  split at h
  · rcases List.mem_or_eq_of_mem_set h with h | h
    · exact Or.inr h
    · exact Or.inl ⟨_, h⟩
  · exact Or.inr h

theorem increment_grows {hack : Bool} {m' : Machine} (hm : Bounded L m) (hL : 21 ≤ L)
    (h : increment hack m = some m') : Grows L E m m' := by
  rw [increment] at h
  split at h
  · cases h
    exact Grows.quiet hm rfl
  · obtain ⟨first, -, rfl⟩ := Option.map_eq_some_iff.mp h
    refine Grows.quiet ?_ rfl
    intro v hv
    have hcases : (∃ i, v = .Int i) ∨ v ∈ m.p ++ m.stack := by
      rcases List.mem_append.mp hv with hv | hv
      · rcases List.mem_append.mp hv with hv | hv
        · obtain ⟨i, -, rfl⟩ := List.mem_map.mp hv
          exact Or.inl ⟨i, rfl⟩
        · exact Or.inr (List.mem_append_left _ (List.mem_of_mem_drop hv))
      · split at hv
        · rcases mem_assignBottom hv with hv | hv
          · exact Or.inl hv
          · rcases mem_assignBottom hv with hv | hv
            · exact Or.inl hv
            · exact Or.inr (List.mem_append_right _ hv)
        · exact Or.inr (List.mem_append_right _ hv)
    rcases hcases with ⟨i, rfl⟩ | hv
    · exact Nat.le_trans (length_int_string i) hL
    · exact hm v hv

theorem convert_grows {spec : List Char} {conv : Char} {m' : Machine} {n : Nat} (hm : Bounded L m) (hL : 21 ≤ L)
    (hE : L + 10 ^ n + 13 ≤ E) (hspec : spec.length ≤ n) (h : convert spec conv m = some m') :
    Grows L E m m' := by
  rw [convert] at h
  split at h
  · cases h
    have htop := hm.top hL
    have hLE : L ≤ E := by
      have := Nat.zero_le (10 ^ n)
      omega
    exact Grows.emit hm.popped rfl (Nat.le_trans htop hLE)
  · obtain ⟨t, ht, rfl⟩ := Option.map_eq_some_iff.mp h
    have hlen := (fmt_int_spec spec conv m.top.int).2 t ht
    have hformatted := formattedLength_le hspec conv m.top.int
    apply Grows.emit hm.popped rfl
    rw [bytes, List.length_map]
    omega

theorem setVar_grows {n : UInt8} {v : Int64} {m' : Machine} (hm : Bounded L m) (h : setVar n v m = some m') :
    Grows L E m m' := by
  rw [setVar] at h
  split at h
  · obtain ⟨vs, -, rfl⟩ := Option.map_eq_some_iff.mp h
    exact Grows.quiet hm rfl
  · split at h
    · obtain ⟨vs, -, rfl⟩ := Option.map_eq_some_iff.mp h
      exact Grows.quiet hm rfl
    · cases h
      exact Grows.quiet hm rfl

end Changes

section Rounds

variable {L E n : Nat} {cap : Bytes} {hack : Bool}

theorem directive_grows {c : Char} {i : Nat} {m : Machine} {t : Nat × Machine} (hm : Bounded L m) (hL : 21 ≤ L)
    (hE : L + 10 ^ n + 13 ≤ E) (h : directive cap hack c i m = some t) : Grows L E m t.2 := by
  have hpos : 1 ≤ E := by
    have := Nat.pow_pos (n := n) (show 0 < 10 by decide)
    omega
  have hconvert : ∀ conv, (convert [] conv m).map (Prod.mk i) = some t → Grows L E m t.2 := by
    intro conv h
    obtain ⟨m', hm', rfl⟩ := Option.map_eq_some_iff.mp h
    have hspec : ([] : List Char).length ≤ n := Nat.zero_le n
    exact convert_grows hm hL hE hspec hm'
  unfold directive at h
  split at h
  · cases h
    exact Grows.emit hm rfl hpos
  · exact hconvert 'd' h
  · exact hconvert 'o' h
  · exact hconvert 'x' h
  · exact hconvert 'X' h
  · exact hconvert 's' h
  · cases h
    exact Grows.emit hm.popped rfl hpos
  · split at h
    · cases h
      exact Grows.quiet hm rfl
    · cases h
      dsimp only
      split
      · exact Grows.quiet (hm.push (hm.param hL _)) rfl
      · exact Grows.quiet hm rfl
  · split at h
    · cases h
      exact Grows.quiet hm rfl
    · cases h
      exact Grows.quiet (hm.pushInt hL _) rfl
  · obtain ⟨s, -, rfl⟩ := Option.map_eq_some_iff.mp h
    exact Grows.quiet (hm.pushInt hL _) rfl
  · cases h
    exact Grows.quiet (hm.popped.pushInt hL _) rfl
  · split at h
    · cases h
      exact Grows.quiet hm rfl
    · obtain ⟨m', hm', rfl⟩ := Option.map_eq_some_iff.mp h
      have hgrows : Grows L E m.popped m' := setVar_grows hm.popped hm'
      exact hgrows
  · split at h
    · cases h
      exact Grows.quiet hm rfl
    · obtain ⟨v, -, rfl⟩ := Option.map_eq_some_iff.mp h
      exact Grows.quiet (hm.pushInt hL _) rfl
  · cases h
    exact Grows.quiet (hm.popped.pushInt hL _) rfl
  · cases h
    exact Grows.quiet (hm.popped.pushInt hL _) rfl
  · obtain ⟨m', hm', rfl⟩ := Option.map_eq_some_iff.mp h
    exact increment_grows hm hL hm'
  · cases h
    exact Grows.quiet hm.popped rfl
  · cases h
    exact Grows.quiet hm rfl
  · split at h
    · cases h
      exact Grows.quiet (hm.popped.popped.pushInt hL _) rfl
    · cases h
      exact Grows.quiet hm rfl

theorem skip_le (to_else : Bool) : ∀ (s : Bytes) (depth : Nat), skip to_else depth s ≤ s.length
  | [], _ => by rw [skip_nil]; exact Nat.le_refl 0
  | [b], depth => by
      by_cases hb : b = byte '%'
      · rw [hb, skip_end]
        exact Nat.zero_le _
      · rw [skip_text _ _ hb, skip_nil]
        exact Nat.le_refl 1
  | b :: c :: rest, depth => by
      by_cases hb : b = byte '%'
      · have hdeeper := skip_le to_else rest (depth + 1)
        have hhigher := skip_le to_else rest (depth - 1)
        have hsame := skip_le to_else rest depth
        rw [hb, skip_pair]
        simp only [List.length_cons]
        split_ifs <;> omega
      · have hrest := skip_le to_else (c :: rest) depth
        rw [skip_text _ _ hb, List.length_cons]
        omega

theorem directive_le_length {c : Char} {i : Nat} {m : Machine} {t : Nat × Machine} (hi : i ≤ cap.length)
    (h : directive cap hack c i m = some t) : t.1 ≤ cap.length := by
  have hmap : ∀ {o : Option Machine} {j : Nat}, o.map (Prod.mk j) = some t → j ≤ cap.length → t.1 ≤ cap.length := by
    intro o j ho hj
    obtain ⟨m', -, rfl⟩ := Option.map_eq_some_iff.mp ho
    exact hj
  have hskip : ∀ to_else : Bool, i + skip to_else 0 (cap.drop i) ≤ cap.length := by
    intro to_else
    have hle := skip_le to_else (cap.drop i) 0
    rw [List.length_drop] at hle
    omega
  unfold directive at h
  split at h
  · cases h
    exact hi
  · exact hmap h hi
  · exact hmap h hi
  · exact hmap h hi
  · exact hmap h hi
  · exact hmap h hi
  · cases h
    exact hi
  · split at h
    · cases h
      exact hi
    · rename_i n hn
      cases h
      exact (List.getElem?_eq_some_iff.mp hn).1
  · split at h
    · cases h
      exact hi
    · rename_i ch hch
      cases h
      dsimp only
      split
      · rename_i hquote
        exact (List.getElem?_eq_some_iff.mp hquote).1
      · exact (List.getElem?_eq_some_iff.mp hch).1
  · obtain ⟨n, -, rfl⟩ := Option.map_eq_some_iff.mp h
    have hlen := (List.takeWhile_prefix (l := cap.drop i) fun b => b ≠ byte '}').length_le
    rw [List.length_drop] at hlen
    dsimp only
    split <;> omega
  · cases h
    exact hi
  · split at h
    · cases h
      exact hi
    · rename_i n hn
      exact hmap h (List.getElem?_eq_some_iff.mp hn).1
  · split at h
    · cases h
      exact hi
    · rename_i n hn
      obtain ⟨v, -, rfl⟩ := Option.map_eq_some_iff.mp h
      exact (List.getElem?_eq_some_iff.mp hn).1
  · cases h
    exact hi
  · cases h
    exact hi
  · exact hmap h hi
  · cases h
    dsimp only [skip_to_else_or_end]
    split
    · exact hi
    · exact hskip true
  · cases h
    exact hskip false
  · split at h <;> cases h <;> exact hi

theorem length_slice_le {start j : Nat} {s : List Char} (h : slice cap start j = some s) :
    s.length ≤ cap.length := by
  rw [slice] at h
  split at h
  · cases h
    rw [List.length_map, List.length_drop, List.length_take]
    omega
  · cases h

theorem formatted_spec {i j : Nat} {c : UInt8} {spec : List Char} {conv : Char}
    (h : formatted cap i c = some (some (spec, conv, j))) : spec.length ≤ cap.length ∧ j ≤ cap.length := by
  unfold formatted at h
  split at h
  · dsimp only at h
    split at h
    · rename_i b hb
      split at h
      · obtain ⟨s, hs, heq⟩ := Option.map_eq_some_iff.mp h
        cases heq
        exact ⟨length_slice_le hs, (List.getElem?_eq_some_iff.mp hb).1⟩
      · cases h
    · cases h
  · cases h

/-- A round writes no more than its values and its digits can ask for. -/
theorem step_grows {s t : Nat × Machine} (hs : Bounded L s.2) (hL : 21 ≤ L) (hE : L + 10 ^ cap.length + 13 ≤ E)
    (h : step cap hack s = some t) : Grows L E s.2 t.2 := by
  have hpos : 1 ≤ E := by
    have := Nat.pow_pos (n := cap.length) (show 0 < 10 by decide)
    omega
  unfold step at h
  split at h
  · cases h
  · split at h
    · cases h
      exact Grows.emit hs rfl hpos
    · split at h
      · cases h
        exact Grows.quiet hs rfl
      · obtain ⟨f, hf, h⟩ := Option.bind_eq_some_iff.mp h
        split at h
        · obtain ⟨m', hm', rfl⟩ := Option.map_eq_some_iff.mp h
          exact convert_grows hs hL hE (formatted_spec hf).1 hm'
        · exact directive_grows hs hL hE h

/-- No round leaves the capability. -/
theorem step_le {s t : Nat × Machine} (h : step cap hack s = some t) : t.1 ≤ cap.length := by
  unfold step at h
  split at h
  · cases h
  · rename_i b hb
    have hlt := (List.getElem?_eq_some_iff.mp hb).1
    split at h
    · cases h
      exact hlt
    · split at h
      · cases h
        exact hlt
      · rename_i c hc
        have hi : s.1 + 2 ≤ cap.length := (List.getElem?_eq_some_iff.mp hc).1
        obtain ⟨f, hf, h⟩ := Option.bind_eq_some_iff.mp h
        split at h
        · obtain ⟨m', -, rfl⟩ := Option.map_eq_some_iff.mp h
          exact (formatted_spec hf).2
        · exact directive_le_length hi h

end Rounds

end Zshrs.Tparm
