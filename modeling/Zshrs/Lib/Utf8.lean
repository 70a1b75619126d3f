import Mathlib.Data.List.Basic

namespace Zshrs.Lib.Utf8

/-- The characters of the White_Space property. -/
def is_whitespace (c : Char) : Bool :=
  let n := c.toNat
  (0x9 ≤ n && n ≤ 0xd) || n == 0x20 || n == 0x85 || n == 0xa0 || n == 0x1680 || (0x2000 ≤ n && n ≤ 0x200a) ||
    n == 0x2028 || n == 0x2029 || n == 0x202f || n == 0x205f || n == 0x3000

def trim (s : List Char) : List Char := ((s.dropWhile is_whitespace).reverse.dropWhile is_whitespace).reverse

/-- What a decoder sees at the front of a byte string. An invalid front is as long as its longest
start that a longer text could still complete. -/
inductive Look where
  | char (c : Char) (len : Nat)
  | invalid (len : Nat)
  | incomplete
  deriving DecidableEq, Repr

/-- The bytes that a first byte asks for, its own bits, and the range of the byte after it. -/
def lead (b : UInt8) : Option (Nat × Nat × UInt8 × UInt8) :=
  if b < 0xc2 then none
  else if b < 0xe0 then some (1, b.toNat % 0x20, 0x80, 0xbf)
  else if b = 0xe0 then some (2, b.toNat % 0x10, 0xa0, 0xbf)
  else if b = 0xed then some (2, b.toNat % 0x10, 0x80, 0x9f)
  else if b < 0xf0 then some (2, b.toNat % 0x10, 0x80, 0xbf)
  else if b = 0xf0 then some (3, b.toNat % 0x08, 0x90, 0xbf)
  else if b < 0xf4 then some (3, b.toNat % 0x08, 0x80, 0xbf)
  else if b = 0xf4 then some (3, b.toNat % 0x08, 0x80, 0x8f)
  else none

def follow (value len : Nat) : Nat → UInt8 → UInt8 → List UInt8 → Look
  | 0, _, _, _ => .char (Char.ofNat value) len
  | _ + 1, _, _, [] => .incomplete
  | more + 1, low, high, b :: rest =>
      if low ≤ b ∧ b ≤ high then follow (value * 0x40 + b.toNat % 0x40) (len + 1) more 0x80 0xbf rest
      else .invalid len

def look : List UInt8 → Look
  | [] => .incomplete
  | b :: rest =>
      if b < 0x80 then .char (Char.ofNat b.toNat) 1
      else
        match lead b with
        | none => .invalid 1
        | some (more, value, low, high) => follow value 1 more low high rest

def encode (cs : List Char) : List UInt8 := cs.flatMap String.utf8EncodeChar

def lossyWithin : Nat → List UInt8 → List Char
  | 0, _ => []
  | _ + 1, [] => []
  | n + 1, b :: rest =>
      match look (b :: rest) with
      | .char c len => c :: lossyWithin n ((b :: rest).drop len)
      | .invalid len => '\uFFFD' :: lossyWithin n ((b :: rest).drop len)
      | .incomplete => ['\uFFFD']

/-- The text of a byte string, every ill-formed stretch replaced. -/
def lossy (s : List UInt8) : List Char := lossyWithin s.length s

theorem toNat_ofNat {n : Nat} (h : n < 256) : (UInt8.ofNat n).toNat = n := by
  rw [UInt8.toNat_ofNat', Nat.mod_eq_of_lt h]

theorem follow_low {low high : UInt8} {m : Nat} (hm : m < 0x40) (hlow : low.toNat ≤ m + 0x80)
    (hhigh : m + 0x80 ≤ high.toNat) (value len more : Nat) (rest : List UInt8) :
    follow value len (more + 1) low high (UInt8.ofNat (m + 0x80) :: rest) =
      follow (value * 0x40 + m) (len + 1) more 0x80 0xbf rest := by
  have hbyte : (UInt8.ofNat (m + 0x80)).toNat = m + 0x80 := toNat_ofNat (by omega)
  have hin : low ≤ UInt8.ofNat (m + 0x80) ∧ UInt8.ofNat (m + 0x80) ≤ high := by
    rw [UInt8.le_iff_toNat_le, UInt8.le_iff_toNat_le, hbyte]
    exact ⟨hlow, hhigh⟩
  rw [follow, if_pos hin, hbyte]
  congr 2
  omega

theorem follow_tail {m : Nat} (hm : m < 0x40) (value len more : Nat) (rest : List UInt8) :
    follow value len (more + 1) 0x80 0xbf (UInt8.ofNat (m + 0x80) :: rest) =
      follow (value * 0x40 + m) (len + 1) more 0x80 0xbf rest :=
  follow_low hm (by simp) (by simp; omega) value len more rest

theorem look_ascii {n : Nat} (h : n < 0x80) (rest : List UInt8) :
    look (UInt8.ofNat n :: rest) = .char (Char.ofNat n) 1 := by
  have hbyte : (UInt8.ofNat n).toNat = n := toNat_ofNat (by omega)
  have hlt : UInt8.ofNat n < 0x80 := by
    rw [UInt8.lt_iff_toNat_lt, hbyte]
    exact h
  rw [look, if_pos hlt, hbyte]

/-- A lead byte is not an ASCII one, and its table row is found by its number. -/
theorem look_lead {n : Nat} (hn : n < 256) {more value : Nat} {low high : UInt8}
    (hlead : lead (UInt8.ofNat n) = some (more, value, low, high)) (hge : 0x80 ≤ n)
    (rest : List UInt8) :
    look (UInt8.ofNat n :: rest) = follow value 1 more low high rest := by
  have hlt : ¬ UInt8.ofNat n < 0x80 := by
    rw [UInt8.lt_iff_toNat_lt, toNat_ofNat hn]
    exact Nat.not_lt.mpr hge
  rw [look, if_neg hlt, hlead]

theorem lead_two : ∀ m < 0x20, m < 2 ∨
    lead (UInt8.ofNat (m + 0xc0)) = some (1, m, 0x80, 0xbf) := by
  decide

theorem lead_three : ∀ m < 0x10, lead (UInt8.ofNat (m + 0xe0)) =
    some (2, m, if m = 0 then 0xa0 else 0x80, if m = 0xd then 0x9f else 0xbf) := by
  decide

theorem lead_four : ∀ m < 5, lead (UInt8.ofNat (m + 0xf0)) =
    some (3, m, if m = 0 then 0x90 else 0x80, if m = 4 then 0x8f else 0xbf) := by
  decide

theorem zero_mem_encode_char {c : Char} (h : 0 ∈ String.utf8EncodeChar c) : c = '\x00' := by
  have hchar : Char.ofNat c.toNat = c := Char.ofNat_toNat c
  generalize hv : c.toNat = v at hchar
  have hval : c.val.toNat = v := hv
  have hbyte : ∀ n < 256, (0 : UInt8) = UInt8.ofNat n → n = 0 := by
    intro n hn heq
    rw [← toNat_ofNat hn, ← heq]
    rfl
  rw [String.utf8EncodeChar] at h
  simp only [hval] at h
  split at h
  · rw [← hchar, hbyte v (by omega) (List.mem_singleton.mp h)]
  · have hne : ∀ n, 0 < n → n < 256 → ¬ (0 : UInt8) = UInt8.ofNat n := by
      intro n hpos hn heq
      rw [hbyte n hn heq] at hpos
      exact Nat.lt_irrefl 0 hpos
    exfalso
    repeat' split at h
    all_goals
      revert h
      simp only [List.mem_cons, List.not_mem_nil, or_false, imp_false, not_or]
      and_intros <;> exact hne _ (by omega) (by omega)

theorem zero_mem_encode {cs : List Char} (h : 0 ∈ encode cs) : '\x00' ∈ cs := by
  obtain ⟨c, hc, hzero⟩ := List.mem_flatMap.mp h
  rw [← zero_mem_encode_char hzero]
  exact hc

/-- A decoder finds an encoded char whatever comes after it. -/
theorem look_encode (c : Char) (rest : List UInt8) :
    look (String.utf8EncodeChar c ++ rest) = .char c (String.utf8EncodeChar c).length := by
  have hchar : Char.ofNat c.toNat = c := Char.ofNat_toNat c
  have hvalid : c.toNat < 0xd800 ∨ 0xdfff < c.toNat ∧ c.toNat < 0x110000 := c.valid
  generalize hv : c.toNat = v at hchar hvalid
  have hval : c.val.toNat = v := hv
  rw [String.utf8EncodeChar]
  simp only [hval]
  split
  · rw [List.singleton_append, look_ascii (by omega), hchar]
    rfl
  · split
    · have hlead := (lead_two (v / 64 % 0x20) (by omega)).resolve_left (by omega)
      rw [List.cons_append, look_lead (by omega) hlead (by omega), List.cons_append,
        follow_tail (by omega), follow]
      have hsum : v / 64 % 0x20 * 0x40 + v % 0x40 = v := by omega
      rw [hsum, hchar]
      rfl
    · split
      · have hlead := lead_three (v / 4096 % 0x10) (by omega)
        rw [List.cons_append, look_lead (by omega) hlead (by omega), List.cons_append,
          follow_low (by omega) (by split <;> simp; omega) (by split <;> (simp; omega)),
          List.cons_append, follow_tail (by omega), follow]
        have hsum : (v / 4096 % 0x10 * 0x40 + v / 64 % 0x40) * 0x40 + v % 0x40 = v := by omega
        rw [hsum, hchar]
        rfl
      · have hlead := lead_four (v / 262144 % 0x08) (by omega)
        rw [List.cons_append, look_lead (by omega) hlead (by omega), List.cons_append,
          follow_low (by omega) (by split <;> simp; omega) (by split <;> (simp; omega)),
          List.cons_append, follow_tail (by omega), List.cons_append, follow_tail (by omega), follow]
        have hsum : ((v / 262144 % 0x08 * 0x40 + v / 4096 % 0x40) * 0x40 + v / 64 % 0x40) * 0x40 +
            v % 0x40 = v := by omega
        rw [hsum, hchar]
        rfl

/-- The rows of the table. -/
theorem lead_cases {b : UInt8} {more value : Nat} {low high : UInt8}
    (h : lead b = some (more, value, low, high)) :
    (more = 1 ∧ b.toNat = value + 0xc0 ∧ 2 ≤ value ∧ value < 0x20 ∧ low = 0x80 ∧ high = 0xbf) ∨
    (more = 2 ∧ b.toNat = value + 0xe0 ∧ value < 0x10 ∧ low = (if value = 0 then 0xa0 else 0x80) ∧
      high = (if value = 0xd then 0x9f else 0xbf)) ∨
    (more = 3 ∧ b.toNat = value + 0xf0 ∧ value < 5 ∧ low = (if value = 0 then 0x90 else 0x80) ∧
      high = (if value = 4 then 0x8f else 0xbf)) := by
  have hlt := b.toNat_lt
  have h₁ : b < 0xc2 ↔ b.toNat < 0xc2 := UInt8.lt_iff_toNat_lt
  have h₂ : b < 0xe0 ↔ b.toNat < 0xe0 := UInt8.lt_iff_toNat_lt
  have h₃ : b = 0xe0 ↔ b.toNat = 0xe0 := UInt8.toNat_inj.symm
  have h₄ : b = 0xed ↔ b.toNat = 0xed := UInt8.toNat_inj.symm
  have h₅ : b < 0xf0 ↔ b.toNat < 0xf0 := UInt8.lt_iff_toNat_lt
  have h₆ : b = 0xf0 ↔ b.toNat = 0xf0 := UInt8.toNat_inj.symm
  have h₇ : b < 0xf4 ↔ b.toNat < 0xf4 := UInt8.lt_iff_toNat_lt
  have h₈ : b = 0xf4 ↔ b.toNat = 0xf4 := UInt8.toNat_inj.symm
  simp only [lead, h₁, h₂, h₃, h₄, h₅, h₆, h₇, h₈] at h
  split at h
  · cases h
  split at h
  · cases h
    exact .inl ⟨rfl, by omega, by omega, by omega, rfl, rfl⟩
  split at h
  · cases h
    exact .inr (.inl ⟨rfl, by omega, by omega, (if_pos (by omega)).symm, (if_neg (by omega)).symm⟩)
  split at h
  · cases h
    exact .inr (.inl ⟨rfl, by omega, by omega, (if_neg (by omega)).symm, (if_pos (by omega)).symm⟩)
  split at h
  · cases h
    exact .inr (.inl ⟨rfl, by omega, by omega, (if_neg (by omega)).symm, (if_neg (by omega)).symm⟩)
  split at h
  · cases h
    exact .inr (.inr ⟨rfl, by omega, by omega, (if_pos (by omega)).symm, (if_neg (by omega)).symm⟩)
  split at h
  · cases h
    exact .inr (.inr ⟨rfl, by omega, by omega, (if_neg (by omega)).symm, (if_neg (by omega)).symm⟩)
  split at h
  · cases h
    exact .inr (.inr ⟨rfl, by omega, by omega, (if_neg (by omega)).symm, (if_pos (by omega)).symm⟩)
  · cases h

/-- A continuation byte carries six bits. -/
theorem follow_cons {low high : UInt8} (hlow : 0x80 ≤ low.toNat) (hhigh : high.toNat ≤ 0xbf)
    {value len more : Nat} {b : UInt8} {rest : List UInt8} {l : Look}
    (h : follow value len (more + 1) low high (b :: rest) = l) (hl : ∀ n, l ≠ .invalid n) :
    ∃ m < 0x40, b.toNat = m + 0x80 ∧ low.toNat ≤ m + 0x80 ∧ m + 0x80 ≤ high.toNat ∧
      follow (value * 0x40 + m) (len + 1) more 0x80 0xbf rest = l := by
  rw [follow] at h
  split at h
  · rename_i hin
    rw [UInt8.le_iff_toNat_le, UInt8.le_iff_toNat_le] at hin
    refine ⟨b.toNat % 0x40, by omega, by omega, by omega, by omega, h⟩
  · exact absurd h.symm (hl len)

def Continuation (b : UInt8) : Prop := 0x80 ≤ b.toNat ∧ b.toNat ≤ 0xbf

instance (b : UInt8) : Decidable (Continuation b) := inferInstanceAs (Decidable (_ ∧ _))

/-- A continuation byte starts no char. -/
theorem look_continuation {b : UInt8} (hb : Continuation b) (rest : List UInt8) :
    look (b :: rest) = .invalid 1 := by
  obtain ⟨hlow, hhigh⟩ := hb
  have hascii : ¬ b < 0x80 := by
    rw [UInt8.lt_iff_toNat_lt]
    exact Nat.not_lt.mpr hlow
  have hlead : lead b = none := by
    refine if_pos ?_
    rw [UInt8.lt_iff_toNat_lt]
    exact Nat.lt_of_le_of_lt hhigh (by decide)
  rw [look, if_neg hascii, hlead]

theorem look_incomplete_cons {b : UInt8} {rest : List UInt8} (h : look (b :: rest) = .incomplete) :
    ¬ b < 0x80 ∧ ∃ more value low high, lead b = some (more, value, low, high) ∧
      follow value 1 more low high rest = .incomplete := by
  rw [look] at h
  split at h
  · cases h
  · rename_i hb
    refine ⟨hb, ?_⟩
    split at h
    · cases h
    · rename_i more value low high hlead
      exact ⟨more, value, low, high, hlead, h⟩

theorem continuations_of_follow {value len more : Nat} {low high : UInt8} {rest : List UInt8}
    (h : follow value len more low high rest = .incomplete) (hlow : 0x80 ≤ low.toNat)
    (hhigh : high.toNat ≤ 0xbf) : ∀ c ∈ rest, Continuation c := by
  induction rest generalizing value len more low high with
  | nil => exact fun c hc => absurd hc List.not_mem_nil
  | cons c rest ih =>
      cases more with
      | zero => cases h
      | succ more =>
          have hne : ∀ n, Look.incomplete ≠ .invalid n := by
            intro n heq
            cases heq
          obtain ⟨m, hm, hc, _, _, h⟩ := follow_cons hlow hhigh h hne
          intro c' hc'
          rcases List.mem_cons.mp hc' with rfl | hc'
          · exact ⟨by omega, by omega⟩
          · exact ih h (by decide) (by decide) c' hc'

/-- What stands behind the first byte of an incomplete char are continuation bytes. -/
theorem continuations_of_incomplete {b : UInt8} {rest : List UInt8} (h : look (b :: rest) = .incomplete) :
    ∀ c ∈ rest, Continuation c := by
  obtain ⟨_, more, value, low, high, hlead, h⟩ := look_incomplete_cons h
  rcases lead_cases hlead with ⟨_, _, _, _, rfl, rfl⟩ | ⟨_, _, _, rfl, rfl⟩ | ⟨_, _, _, rfl, rfl⟩
  · exact continuations_of_follow h (by decide) (by decide)
  · exact continuations_of_follow h (by split <;> decide) (by split <;> decide)
  · exact continuations_of_follow h (by split <;> decide) (by split <;> decide)

theorem toNat_charOfNat {v : Nat} (hv : v < 0xd800 ∨ 0xdfff < v ∧ v < 0x110000) :
    (Char.ofNat v).val.toNat = v := by
  have hvalid : v.isValidChar := hv
  rw [Char.ofNat, dif_pos hvalid]
  rfl

theorem byte_eq {b : UInt8} {n : Nat} (h : b.toNat = n) : UInt8.ofNat n = b := by
  rw [← h, UInt8.ofNat_toNat]

theorem encode_two {b b₁ : UInt8} {value m : Nat} (hb : b.toNat = value + 0xc0) (hmin : 2 ≤ value)
    (hmax : value < 0x20) (hm : m < 0x40) (hb₁ : b₁.toNat = m + 0x80) :
    String.utf8EncodeChar (Char.ofNat (value * 0x40 + m)) = [b, b₁] := by
  have hval := toNat_charOfNat (v := value * 0x40 + m) (by omega)
  rw [String.utf8EncodeChar]
  simp only [hval]
  rw [if_neg (by omega), if_pos (by omega), byte_eq (b := b) (by omega), byte_eq (b := b₁) (by omega)]

theorem encode_three {b b₁ b₂ : UInt8} {value m₁ m₂ : Nat} (hb : b.toNat = value + 0xe0)
    (hmax : value < 0x10) (hm₁ : m₁ < 0x40) (hm₂ : m₂ < 0x40) (hlow : value = 0 → 0x20 ≤ m₁)
    (hhigh : value = 0xd → m₁ < 0x20) (hb₁ : b₁.toNat = m₁ + 0x80) (hb₂ : b₂.toNat = m₂ + 0x80) :
    String.utf8EncodeChar (Char.ofNat ((value * 0x40 + m₁) * 0x40 + m₂)) = [b, b₁, b₂] := by
  have hval := toNat_charOfNat (v := (value * 0x40 + m₁) * 0x40 + m₂) (by omega)
  rw [String.utf8EncodeChar]
  simp only [hval]
  rw [if_neg (by omega), if_neg (by omega), if_pos (by omega), byte_eq (b := b) (by omega),
    byte_eq (b := b₁) (by omega), byte_eq (b := b₂) (by omega)]

theorem encode_four {b b₁ b₂ b₃ : UInt8} {value m₁ m₂ m₃ : Nat} (hb : b.toNat = value + 0xf0)
    (hmax : value < 5) (hm₁ : m₁ < 0x40) (hm₂ : m₂ < 0x40) (hm₃ : m₃ < 0x40)
    (hlow : value = 0 → 0x10 ≤ m₁) (hhigh : value = 4 → m₁ < 0x10) (hb₁ : b₁.toNat = m₁ + 0x80)
    (hb₂ : b₂.toNat = m₂ + 0x80) (hb₃ : b₃.toNat = m₃ + 0x80) :
    String.utf8EncodeChar (Char.ofNat (((value * 0x40 + m₁) * 0x40 + m₂) * 0x40 + m₃)) =
      [b, b₁, b₂, b₃] := by
  have hval := toNat_charOfNat (v := ((value * 0x40 + m₁) * 0x40 + m₂) * 0x40 + m₃) (by omega)
  rw [String.utf8EncodeChar]
  simp only [hval]
  rw [if_neg (by omega), if_neg (by omega), if_neg (by omega), byte_eq (b := b) (by omega),
    byte_eq (b := b₁) (by omega), byte_eq (b := b₂) (by omega), byte_eq (b := b₃) (by omega)]

/-- What a decoder finds is encoded there. -/
theorem look_eq_char {s : List UInt8} {c : Char} {len : Nat} (h : look s = .char c len) :
    ∃ rest, s = String.utf8EncodeChar c ++ rest ∧ len = (String.utf8EncodeChar c).length := by
  have hne : ∀ n, Look.char c len ≠ .invalid n := by
    intro n heq
    cases heq
  cases s with
  | nil => cases h
  | cons b s =>
      rw [look] at h
      split at h
      · rename_i hb
        cases h
        have hb : b.toNat < 0x80 := UInt8.lt_iff_toNat_lt.mp hb
        have henc : String.utf8EncodeChar (Char.ofNat b.toNat) = [b] := by
          rw [String.utf8EncodeChar]
          simp only [toNat_charOfNat (v := b.toNat) (by omega)]
          rw [if_pos (by omega), byte_eq rfl]
        rw [henc]
        exact ⟨s, rfl, rfl⟩
      split at h
      · cases h
      rename_i more value low high hlead
      rcases lead_cases hlead with ⟨rfl, hb, hlo, hhi, rfl, rfl⟩ | ⟨rfl, hb, hhi, rfl, rfl⟩ |
        ⟨rfl, hb, hhi, rfl, rfl⟩
      · rcases s with _ | ⟨b₁, s⟩
        · cases h
        obtain ⟨m, hm, hb₁, _, _, h⟩ := follow_cons (by decide) (by decide) h hne
        cases h
        rw [encode_two hb hlo hhi hm hb₁]
        exact ⟨s, rfl, rfl⟩
      · rcases s with _ | ⟨b₁, s⟩
        · cases h
        obtain ⟨m₁, hm₁, hb₁, hmin, hmax, h⟩ :=
          follow_cons (by split <;> decide) (by split <;> decide) h hne
        rcases s with _ | ⟨b₂, s⟩
        · cases h
        obtain ⟨m₂, hm₂, hb₂, _, _, h⟩ := follow_cons (by decide) (by decide) h hne
        cases h
        have hlow : value = 0 → 0x20 ≤ m₁ := by
          rintro rfl
          exact Nat.le_of_add_le_add_right (b := 0x80) hmin
        have hhigh : value = 0xd → m₁ < 0x20 := by
          rintro rfl
          exact Nat.lt_succ_of_le (Nat.le_of_add_le_add_right (b := 0x80) hmax)
        rw [encode_three hb hhi hm₁ hm₂ hlow hhigh hb₁ hb₂]
        exact ⟨s, rfl, rfl⟩
      · rcases s with _ | ⟨b₁, s⟩
        · cases h
        obtain ⟨m₁, hm₁, hb₁, hmin, hmax, h⟩ :=
          follow_cons (by split <;> decide) (by split <;> decide) h hne
        rcases s with _ | ⟨b₂, s⟩
        · cases h
        obtain ⟨m₂, hm₂, hb₂, _, _, h⟩ := follow_cons (by decide) (by decide) h hne
        rcases s with _ | ⟨b₃, s⟩
        · cases h
        obtain ⟨m₃, hm₃, hb₃, _, _, h⟩ := follow_cons (by decide) (by decide) h hne
        cases h
        have hlow : value = 0 → 0x10 ≤ m₁ := by
          rintro rfl
          exact Nat.le_of_add_le_add_right (b := 0x80) hmin
        have hhigh : value = 4 → m₁ < 0x10 := by
          rintro rfl
          exact Nat.lt_succ_of_le (Nat.le_of_add_le_add_right (b := 0x80) hmax)
        rw [encode_four hb hhi hm₁ hm₂ hm₃ hlow hhigh hb₁ hb₂ hb₃]
        exact ⟨s, rfl, rfl⟩

theorem encode_ne_nil (c : Char) : String.utf8EncodeChar c ≠ [] := by
  rw [String.utf8EncodeChar]
  repeat' split
  all_goals exact List.cons_ne_nil _ _

theorem lossyWithin_encode (cs : List Char) {n : Nat} (hn : (encode cs).length ≤ n) :
    lossyWithin n (encode cs) = cs := by
  induction cs generalizing n with
  | nil => cases n <;> rfl
  | cons c cs ih =>
      obtain ⟨b, tail, hb⟩ := List.exists_cons_of_ne_nil (encode_ne_nil c)
      have hcons : encode (c :: cs) = String.utf8EncodeChar c ++ encode cs := rfl
      rw [hcons, List.length_append, hb, List.length_cons] at hn
      have hlook := look_encode c (encode cs)
      rw [hb, List.cons_append] at hlook
      cases n with
      | zero => omega
      | succ n =>
          rw [hcons, hb, List.cons_append, lossyWithin, hlook]
          simp only
          rw [← List.cons_append, List.drop_left, ih (by omega)]

/-- Well-formed text is read back as it is. -/
theorem lossy_encode (cs : List Char) : lossy (encode cs) = cs :=
  lossyWithin_encode cs (Nat.le_refl _)

theorem encode_injective {cs ds : List Char} (h : encode cs = encode ds) : cs = ds := by
  rw [← lossy_encode cs, h, lossy_encode]

def textWithin : Nat → List UInt8 → Option (List Char)
  | _, [] => some []
  | 0, _ :: _ => none
  | n + 1, b :: rest =>
      match look (b :: rest) with
      | .char c len => (textWithin n ((b :: rest).drop len)).map (c :: ·)
      | _ => none

/-- The text of a byte string that is well formed. -/
def text (s : List UInt8) : Option (List Char) := textWithin s.length s

def valid (s : List UInt8) : Bool := (text s).isSome

theorem encode_cons (c : Char) (cs : List Char) : encode (c :: cs) = String.utf8EncodeChar c ++ encode cs := rfl

theorem encode_append (cs ds : List Char) : encode (cs ++ ds) = encode cs ++ encode ds := List.flatMap_append

/-- No character's bytes are the start of another's. -/
theorem encode_prefix {cs ds : List Char} : encode cs <+: encode ds ↔ cs <+: ds := by
  constructor
  · rintro ⟨t, h⟩
    induction cs generalizing ds with
    | nil => exact List.nil_prefix
    | cons c cs ih =>
        rw [encode_cons, List.append_assoc] at h
        cases ds with
        | nil => exact absurd (List.append_eq_nil_iff.mp h).1 (encode_ne_nil c)
        | cons d ds =>
            rw [encode_cons] at h
            have hlook := look_encode c (encode cs ++ t)
            rw [h, look_encode d] at hlook
            obtain rfl : d = c := by
              injection hlook
            exact List.cons_prefix_cons.mpr ⟨rfl, ih (List.append_cancel_left h)⟩
  · rintro ⟨t, rfl⟩
    rw [encode_append]
    exact List.prefix_append _ _

theorem textWithin_encode (cs : List Char) {n : Nat} (hn : (encode cs).length ≤ n) :
    textWithin n (encode cs) = some cs := by
  induction cs generalizing n with
  | nil => cases n <;> rfl
  | cons c cs ih =>
      obtain ⟨b, tail, hb⟩ := List.exists_cons_of_ne_nil (encode_ne_nil c)
      rw [encode_cons, List.length_append, hb, List.length_cons] at hn
      have hlook := look_encode c (encode cs)
      rw [hb, List.cons_append] at hlook
      cases n with
      | zero => omega
      | succ n =>
          rw [encode_cons, hb, List.cons_append, textWithin, hlook]
          simp only
          rw [← List.cons_append, List.drop_left, ih (by omega)]
          rfl

theorem encode_textWithin {n : Nat} {s : List UInt8} {cs : List Char} (h : textWithin n s = some cs) :
    encode cs = s := by
  induction n generalizing s cs with
  | zero =>
      cases s with
      | nil => cases h; rfl
      | cons b rest => cases h
  | succ n ih =>
      cases s with
      | nil => cases h; rfl
      | cons b rest =>
          rw [textWithin] at h
          cases hlook : look (b :: rest) with
          | invalid len => rw [hlook] at h; cases h
          | incomplete => rw [hlook] at h; cases h
          | char c len =>
              rw [hlook] at h
              obtain ⟨ds, hds, rfl⟩ := Option.map_eq_some_iff.mp h
              obtain ⟨tail, htail, rfl⟩ := look_eq_char hlook
              rw [htail, List.drop_left] at hds
              rw [encode_cons, ih hds, htail]

theorem valid_iff {s : List UInt8} : valid s = true ↔ ∃ cs, encode cs = s := by
  rw [valid, Option.isSome_iff_exists]
  constructor
  · rintro ⟨cs, h⟩
    exact ⟨cs, encode_textWithin h⟩
  · rintro ⟨cs, rfl⟩
    exact ⟨cs, textWithin_encode cs (Nat.le_refl _)⟩

/-- An ASCII byte is only ever a char of its own. -/
theorem encode_char_of_ascii {c : Char} {b : UInt8} (hb : b < 0x80) (h : b ∈ String.utf8EncodeChar c) :
    String.utf8EncodeChar c = [b] := by
  have hchar : c.val.toNat < 0x110000 := by
    rcases c.valid with hlow | ⟨-, hhigh⟩
    · exact Nat.lt_trans hlow (by decide)
    · exact hhigh
  generalize hv : c.val.toNat = v at hchar
  have hb : b.toNat < 0x80 := UInt8.lt_iff_toNat_lt.mp hb
  have hne : ∀ n, 0x80 ≤ n → n < 256 → b ≠ UInt8.ofNat n := by
    rintro n hge hlt rfl
    rw [toNat_ofNat hlt] at hb
    omega
  rw [String.utf8EncodeChar] at h ⊢
  simp only [hv] at h ⊢
  split at h
  · rename_i hsmall
    rw [if_pos hsmall, ← List.mem_singleton.mp h]
  · exfalso
    repeat' split at h
    all_goals
      revert h
      simp only [List.mem_cons, List.not_mem_nil, or_false, imp_false, not_or]
      and_intros <;> exact hne _ (by omega) (by omega)

/-- Well-formed text may be cut behind an ASCII byte. -/
theorem encode_cut {cs : List Char} {b : UInt8} {s t : List UInt8} (hb : b < 0x80)
    (h : encode cs = s ++ b :: t) : ∃ ds es, encode ds = s ++ [b] ∧ encode es = t := by
  induction cs generalizing s with
  | nil =>
      rw [encode, List.flatMap_nil] at h
      exact absurd h.symm (List.append_ne_nil_of_right_ne_nil s (List.cons_ne_nil b t))
  | cons c cs ih =>
      rw [encode_cons] at h
      rcases List.append_eq_append_iff.mp h with ⟨u, hs, hrest⟩ | ⟨u, hc, hrest⟩
      · obtain ⟨ds, es, hds, hes⟩ := ih hrest
        refine ⟨c :: ds, es, ?_, hes⟩
        rw [encode_cons, hds, hs, List.append_assoc]
      · cases u with
        | nil =>
            obtain ⟨ds, es, hds, hes⟩ := ih (s := []) hrest.symm
            refine ⟨c :: ds, es, ?_, hes⟩
            rw [encode_cons, hds, hc, List.append_nil, List.nil_append]
        | cons b' u =>
            obtain ⟨rfl, htail⟩ := List.cons_eq_cons.mp hrest
            have hmem : b ∈ String.utf8EncodeChar c := by
              rw [hc]
              exact List.mem_append_right s List.mem_cons_self
            have hone := encode_char_of_ascii hb hmem
            rw [hone] at hc
            obtain ⟨rfl, rfl⟩ : s = [] ∧ u = [] := by
              cases s with
              | nil => exact ⟨rfl, (List.cons_eq_cons.mp hc).2.symm⟩
              | cons x s =>
                  have := (List.cons_eq_cons.mp hc).2
                  exact absurd this.symm (List.append_ne_nil_of_right_ne_nil s (List.cons_ne_nil b u))
            refine ⟨[c], cs, ?_, htail.symm⟩
            rw [encode_cons, hone]
            rfl

theorem valid_cut {b : UInt8} {s t : List UInt8} (hb : b < 0x80) :
    valid (s ++ [b] ++ t) = (valid (s ++ [b]) && valid t) := by
  rw [Bool.eq_iff_iff, Bool.and_eq_true, valid_iff, valid_iff, valid_iff]
  constructor
  · rintro ⟨cs, h⟩
    rw [List.append_assoc, List.singleton_append] at h
    obtain ⟨ds, es, hds, hes⟩ := encode_cut hb h
    exact ⟨⟨ds, hds⟩, ⟨es, hes⟩⟩
  · rintro ⟨⟨ds, hds⟩, ⟨es, hes⟩⟩
    exact ⟨ds ++ es, by rw [encode_append, hds, hes]⟩

end Zshrs.Lib.Utf8
