import Zshrs.Lib.Utf8

namespace Zshrs.Lib.Utf8

section Chars

/-- The first byte of a char is no continuation byte, and all others are. -/
theorem encode_char_bytes (c : Char) : ∃ b more, String.utf8EncodeChar c = b :: more ∧
    (b.toNat < 0x80 ∨ 0xc0 ≤ b.toNat) ∧ ∀ b' ∈ more, 0x80 ≤ b'.toNat ∧ b'.toNat < 0xc0 := by
  have hchar : c.val.toNat < 0x110000 := by
    rcases c.valid with hlow | ⟨-, hhigh⟩
    · exact Nat.lt_trans hlow (by decide)
    · exact hhigh
  generalize hv : c.val.toNat = v at hchar
  have continuation (n : Nat) (hn : 0x80 ≤ n ∧ n < 0xc0) :
      0x80 ≤ (UInt8.ofNat n).toNat ∧ (UInt8.ofNat n).toNat < 0xc0 := by
    rwa [toNat_ofNat (by omega)]
  have first (n : Nat) (hn : n < 0x80 ∨ 0xc0 ≤ n ∧ n < 256) :
      (UInt8.ofNat n).toNat < 0x80 ∨ 0xc0 ≤ (UInt8.ofNat n).toNat := by
    rw [toNat_ofNat (by omega)]
    omega
  rw [String.utf8EncodeChar]
  simp only [hv]
  repeat' split
  all_goals
    refine ⟨_, _, rfl, first _ (by omega), ?_⟩
    simp only [List.not_mem_nil, List.mem_cons, or_false, forall_eq_or_imp, forall_eq, false_imp_iff,
      implies_true]
  · exact continuation _ (by omega)
  · exact ⟨continuation _ (by omega), continuation _ (by omega)⟩
  · exact ⟨continuation _ (by omega), continuation _ (by omega), continuation _ (by omega)⟩

/-- A char of one byte is an ASCII one. -/
theorem encode_char_ascii {c : Char} {b : UInt8} {more : List UInt8} (h : String.utf8EncodeChar c = b :: more) :
    b.toNat < 0x80 ↔ more = [] := by
  have hchar : c.val.toNat < 0x110000 := by
    rcases c.valid with hlow | ⟨-, hhigh⟩
    · exact Nat.lt_trans hlow (by decide)
    · exact hhigh
  have hfirst : ∀ n, n < 256 → (UInt8.ofNat n).toNat = n := fun n hn => toNat_ofNat hn
  generalize hv : c.val.toNat = v at hchar
  rw [String.utf8EncodeChar] at h
  simp only [hv] at h
  split at h
  · cases h
    exact iff_of_true (by rw [hfirst _ (by omega)]; omega) rfl
  · split at h
    · cases h
      exact iff_of_false (by rw [hfirst _ (by omega)]; omega) (List.cons_ne_nil _ _)
    · split at h
      · cases h
        exact iff_of_false (by rw [hfirst _ (by omega)]; omega) (List.cons_ne_nil _ _)
      · cases h
        exact iff_of_false (by rw [hfirst _ (by omega)]; omega) (List.cons_ne_nil _ _)

end Chars

/-- A byte inside a char. -/
def isCont (b : UInt8) : Bool := decide (0x80 ≤ b) && decide (b < 0xc0)

theorem isCont_iff {b : UInt8} : isCont b = true ↔ 0x80 ≤ b.toNat ∧ b.toNat < 0xc0 := by
  rw [isCont, Bool.and_eq_true, decide_eq_true_eq, decide_eq_true_eq, UInt8.le_iff_toNat_le, UInt8.lt_iff_toNat_lt]
  rfl

theorem isCont_eq_false_of_ascii {b : UInt8} (h : b < 0x80) : isCont b = false := by
  rw [← Bool.not_eq_true, isCont_iff]
  have hlt : b.toNat < 0x80 := UInt8.lt_iff_toNat_lt.mp h
  omega

/-- No char is cut at `i`. -/
def Aligned (s : List UInt8) (i : Nat) : Prop := ∀ b ∈ s[i]?, isCont b = false

instance (s : List UInt8) (i : Nat) : Decidable (Aligned s i) :=
  inferInstanceAs (Decidable (∀ b ∈ s[i]?, isCont b = false))

/-- A text cut behind its first `i` bytes, where that is between two chars. -/
def split : List Char → Nat → Option (List Char × List Char)
  | cs, 0 => some ([], cs)
  | [], _ + 1 => none
  | c :: cs, i + 1 =>
    if c.utf8Size ≤ i + 1 then (split cs (i + 1 - c.utf8Size)).map fun r => (c :: r.1, r.2) else none

/-- `&s[start..stop]`, a panic out of range or inside a char. -/
def slice (s : List Char) (start stop : Nat) : Option (List Char) :=
  if start ≤ stop then (split s start).bind fun r => (split r.2 (stop - start)).map Prod.fst else none

section Aligned

variable {s : List UInt8} {i : Nat}

theorem aligned_of_length_le (h : s.length ≤ i) : Aligned s i := by
  intro b hb
  rw [List.getElem?_eq_none h] at hb
  cases hb

theorem ascii_of_mem {cs : List UInt8} (h : cs.all (fun c => decide (c < 0x80)) = true) : ∀ c ∈ cs, c < 0x80 :=
  fun c hc => of_decide_eq_true (List.all_eq_true.mp h c hc)

theorem aligned_of_ascii {b : UInt8} (h : s[i]? = some b) (hb : b < 0x80) : Aligned s i := by
  intro b' hb'
  cases h.symm.trans hb'
  exact isCont_eq_false_of_ascii hb

theorem aligned_drop {k : Nat} : Aligned (s.drop k) i ↔ Aligned s (k + i) := by
  rw [Aligned, Aligned, List.getElem?_drop]

end Aligned

section Texts

theorem aligned_encode_zero (cs : List Char) : Aligned (encode cs) 0 := by
  cases cs with
  | nil => exact aligned_of_length_le (Nat.zero_le 0)
  | cons c cs =>
      intro b hb
      obtain ⟨b', more, hword, hfirst, -⟩ := encode_char_bytes c
      rw [encode_cons, hword, List.cons_append] at hb
      cases hb
      rw [← Bool.not_eq_true, isCont_iff]
      omega

/-- Inside the first char nothing is aligned, and behind it all is as in the rest. -/
theorem aligned_encode_succ (c : Char) (cs : List Char) (i : Nat) :
    Aligned (encode (c :: cs)) (i + 1) ↔ c.utf8Size ≤ i + 1 ∧ Aligned (encode cs) (i + 1 - c.utf8Size) := by
  obtain ⟨b, more, hword, -, hmore⟩ := encode_char_bytes c
  have hsize : more.length + 1 = c.utf8Size := by
    rw [← String.length_utf8EncodeChar, hword, List.length_cons]
  rw [encode_cons, hword, List.cons_append, Aligned, List.getElem?_cons_succ]
  by_cases hi : i < more.length
  · have hread : (more ++ encode cs)[i]? = some more[i] := by
      rw [List.getElem?_append_left hi, List.getElem?_eq_getElem hi]
    have hcont : isCont more[i] = true := isCont_iff.mpr (hmore _ (List.getElem_mem hi))
    refine iff_of_false ?_ (fun h => by omega)
    intro h
    rw [h more[i] hread] at hcont
    cases hcont
  · have hsub : i + 1 - c.utf8Size = i - more.length := by omega
    rw [List.getElem?_append_right (Nat.not_lt.mp hi), hsub]
    exact (and_iff_right (by omega)).symm

theorem split_spec (cs : List Char) (i : Nat) :
    (split cs i ≠ none ↔ i ≤ (encode cs).length ∧ Aligned (encode cs) i) ∧
      ∀ r, split cs i = some r → encode r.2 = (encode cs).drop i := by
  induction cs generalizing i with
  | nil =>
      cases i with
      | zero => simp [split, aligned_encode_zero]
      | succ i => simp [split, encode]
  | cons c cs ih =>
      cases i with
      | zero => simp [split, aligned_encode_zero]
      | succ i =>
          obtain ⟨hne, hdrop⟩ := ih (i + 1 - c.utf8Size)
          have hlen : (encode (c :: cs)).length = c.utf8Size + (encode cs).length := by
            rw [encode_cons, List.length_append, String.length_utf8EncodeChar]
          rw [split, aligned_encode_succ, hlen]
          by_cases hsize : c.utf8Size ≤ i + 1
          · rw [if_pos hsize, ne_eq, Option.map_eq_none_iff, ← ne_eq, hne]
            refine ⟨?_, ?_⟩
            · have hle : i + 1 - c.utf8Size ≤ (encode cs).length ↔ i + 1 ≤ c.utf8Size + (encode cs).length := by omega
              rw [hle]
              simp [hsize]
            · intro r hr
              obtain ⟨r', hr', rfl⟩ := Option.map_eq_some_iff.mp hr
              have hall : (String.utf8EncodeChar c).length ≤ i + 1 := by
                rw [String.length_utf8EncodeChar]
                exact hsize
              rw [hdrop r' hr', encode_cons, List.drop_append, List.drop_eq_nil_of_le hall, List.nil_append,
                String.length_utf8EncodeChar]
          · rw [if_neg hsize]
            refine ⟨iff_of_false (fun h => h rfl) (fun h => hsize h.2.1), ?_⟩
            intro r hr
            cases hr

/-- Where a slice can be taken. -/
theorem slice_ne_none_iff {cs : List Char} {start stop : Nat} : slice cs start stop ≠ none ↔
    start ≤ stop ∧ stop ≤ (encode cs).length ∧ Aligned (encode cs) start ∧ Aligned (encode cs) stop := by
  rw [slice]
  by_cases hle : start ≤ stop
  · rw [if_pos hle]
    obtain ⟨hne, hdrop⟩ := split_spec cs start
    cases hsplit : split cs start with
    | none =>
        have hno : ¬ (start ≤ (encode cs).length ∧ Aligned (encode cs) start) := fun h => hne.mpr h hsplit
        refine iff_of_false (fun h => h rfl) ?_
        rintro ⟨-, hstop, hstart, -⟩
        exact hno ⟨Nat.le_trans hle hstop, hstart⟩
    | some r =>
        obtain ⟨hstart, haligned⟩ := hne.mp (by simp [hsplit])
        have hback : start + (stop - start) = stop := by omega
        rw [Option.bind_some, ne_eq, Option.map_eq_none_iff, ← ne_eq, (split_spec r.2 (stop - start)).1,
          hdrop r hsplit, aligned_drop, hback, List.length_drop]
        have hlen : stop - start ≤ (encode cs).length - start ↔ stop ≤ (encode cs).length := by omega
        rw [hlen]
        simp [hle, haligned]
  · rw [if_neg hle]
    exact iff_of_false (fun h => h rfl) (fun h => hle h.1)

/-- A char ends behind an ASCII byte. -/
theorem aligned_behind_ascii {cs : List Char} {i : Nat} {b : UInt8} (h : (encode cs)[i]? = some b) (hb : b < 0x80) :
    Aligned (encode cs) (i + 1) := by
  have hb : b.toNat < 0x80 := UInt8.lt_iff_toNat_lt.mp hb
  induction cs generalizing i with
  | nil => cases h
  | cons c cs ih =>
      obtain ⟨b', more, hword, hfirst, hmore⟩ := encode_char_bytes c
      have hsize : more.length + 1 = c.utf8Size := by
        rw [← String.length_utf8EncodeChar, hword, List.length_cons]
      rw [aligned_encode_succ]
      rw [encode_cons, hword, List.cons_append] at h
      cases i with
      | zero =>
          cases h
          have hone := (encode_char_ascii hword).mp hb
          subst hone
          have hzero : 0 + 1 - c.utf8Size = 0 := by
            rw [List.length_nil] at hsize
            omega
          rw [hzero]
          exact ⟨by rw [← hsize]; exact Nat.le_refl _, aligned_encode_zero cs⟩
      | succ i =>
          rw [List.getElem?_cons_succ] at h
          by_cases hi : i < more.length
          · rw [List.getElem?_append_left hi] at h
            have hcont := hmore b (List.mem_of_getElem? h)
            omega
          · rw [List.getElem?_append_right (Nat.not_lt.mp hi)] at h
            have hnext := ih h
            have hsub : i + 1 + 1 - c.utf8Size = i - more.length + 1 := by omega
            rw [hsub]
            exact ⟨by omega, hnext⟩

/-- A char of several bytes goes on behind its first. -/
theorem not_aligned_behind_wide {cs : List Char} {i : Nat} {b : UInt8} (h : (encode cs)[i]? = some b)
    (hi : Aligned (encode cs) i) (hb : ¬ b < 0x80) :
    i + 1 < (encode cs).length ∧ ¬ Aligned (encode cs) (i + 1) := by
  have hb : 0x80 ≤ b.toNat := Nat.not_lt.mp fun hlt => hb (UInt8.lt_iff_toNat_lt.mpr hlt)
  induction cs generalizing i with
  | nil => cases h
  | cons c cs ih =>
      obtain ⟨b', more, hword, hfirst, hmore⟩ := encode_char_bytes c
      have hsize : more.length + 1 = c.utf8Size := by
        rw [← String.length_utf8EncodeChar, hword, List.length_cons]
      have hlen : (encode (c :: cs)).length = c.utf8Size + (encode cs).length := by
        rw [encode_cons, List.length_append, String.length_utf8EncodeChar]
      rw [aligned_encode_succ, hlen]
      cases i with
      | zero =>
          rw [encode_cons, hword, List.cons_append] at h
          cases h
          have hmore' : more ≠ [] := fun hnil => by
            have hascii := (encode_char_ascii hword).mpr hnil
            omega
          have hpos := List.length_pos_iff.mpr hmore'
          exact ⟨by omega, fun hle => by omega⟩
      | succ i =>
          rw [aligned_encode_succ] at hi
          rw [encode_cons, List.getElem?_append_right (by rw [String.length_utf8EncodeChar]; exact hi.1),
            String.length_utf8EncodeChar] at h
          obtain ⟨hlt, hno⟩ := ih h hi.2
          have hsub : i + 1 + 1 - c.utf8Size = i + 1 - c.utf8Size + 1 := by omega
          rw [hsub]
          exact ⟨by omega, fun h => hno h.2⟩

end Texts

end Zshrs.Lib.Utf8
