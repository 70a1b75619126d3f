import Mathlib.Data.List.Basic
import Mathlib.Algebra.Group.Nat.Defs

namespace Zshrs.Daemon.Base64

abbrev Bytes := List UInt8

def BASE64_ALPHABET : Bytes :=
  "ABCDEFGHIJKLMNOPQRSTUVWXYZabcdefghijklmnopqrstuvwxyz0123456789+/".toList.map fun c => UInt8.ofNat c.toNat

def PAD : UInt8 := 61

section Encode

/-- The four characters of a chunk of up to three bytes. -/
def encode_chunk (alphabet chunk : Bytes) : Bytes :=
  let b0 := chunk.getD 0 0
  let b1 := chunk.getD 1 0
  let b2 := chunk.getD 2 0
  [alphabet.getD (b0 >>> 2).toNat 0, alphabet.getD ((b0 &&& 3) <<< 4 ||| b1 >>> 4).toNat 0,
    if 1 < chunk.length then alphabet.getD ((b1 &&& 15) <<< 2 ||| b2 >>> 6).toNat 0 else PAD,
    if 2 < chunk.length then alphabet.getD (b2 &&& 63).toNat 0 else PAD]

/-- `chunks(3)`, each of them encoded. -/
def encode_chunks (alphabet : Bytes) : Bytes → Bytes
  | [] => []
  | [b0] => encode_chunk alphabet [b0]
  | [b0, b1] => encode_chunk alphabet [b0, b1]
  | b0 :: b1 :: b2 :: rest => encode_chunk alphabet [b0, b1, b2] ++ encode_chunks alphabet rest

/-- The encoder of the client. -/
def base64_encode (bytes : Bytes) : Bytes := encode_chunks BASE64_ALPHABET bytes

def B64_ALPHABET : Bytes :=
  "ABCDEFGHIJKLMNOPQRSTUVWXYZabcdefghijklmnopqrstuvwxyz0123456789+/".toList.map fun c => UInt8.ofNat c.toNat

/-- The encoder of the pty drainer. -/
def jobs_base64_encode (bytes : Bytes) : Bytes := encode_chunks B64_ALPHABET bytes

end Encode

section Decode

def is_ascii_whitespace (b : UInt8) : Bool := b = 32 || b = 9 || b = 10 || b = 12 || b = 13

def value (b : UInt8) : Option UInt8 :=
  if 65 ≤ b ∧ b ≤ 90 then some (b - 65)
  else if 97 ≤ b ∧ b ≤ 122 then some (b - 97 + 26)
  else if 48 ≤ b ∧ b ≤ 57 then some (b - 48 + 52)
  else if b = 43 then some 62
  else if b = 47 then some 63
  else none

/-- The variables of the decoder; `buf` has the `bi` values of the group so far. -/
structure Decoder where
  out : Bytes
  buf : Bytes
  padded : Nat

/-- The bytes of a whole group. -/
def group (padded : Nat) (v0 v1 v2 v3 : UInt8) : Bytes :=
  (v0 <<< 2 ||| v1 >>> 4) ::
    ((if padded < 2 then [v1 <<< 4 ||| v2 >>> 2] else []) ++ if padded < 1 then [v2 <<< 6 ||| v3] else [])

/-- A value is taken up, and the group is written when it is whole. -/
def Decoder.take (d : Decoder) (v : UInt8) (padded : Nat) : Decoder :=
  match d.buf with
  | [v0, v1, v2] => ⟨d.out ++ group padded v0 v1 v2 v, [], 0⟩
  | buf => ⟨d.out, buf ++ [v], padded⟩

def invalid_byte (b : UInt8) : String := "invalid base64 byte: 0x" ++ String.ofList (Nat.toDigits 16 b.toNat)

def Decoder.step (d : Decoder) (b : UInt8) : Except String Decoder :=
  if b = PAD then .ok (d.take 0 (d.padded + 1))
  else
    match value b with
    | some v => .ok (d.take v d.padded)
    | none => .error (invalid_byte b)

def base64_decode (s : Bytes) : Except String Bytes :=
  ((s.filter fun b => !is_ascii_whitespace b).foldlM Decoder.step ⟨[], [], 0⟩).map Decoder.out

end Decode

section Sextets

theorem toNat_right (b k : UInt8) (hk : k.toNat < 8) : (b >>> k).toNat = b.toNat / 2 ^ k.toNat := by
  rw [UInt8.toNat_shiftRight, Nat.mod_eq_of_lt hk, Nat.shiftRight_eq_div_pow]

/-- A value above `k` bits of another. -/
theorem toNat_join (a b k : UInt8) (hk : k.toNat < 8) (hb : b.toNat < 2 ^ k.toNat) :
    (a <<< k ||| b).toNat = a.toNat * 2 ^ k.toNat % 256 + b.toNat := by
  have hsplit : 256 = 2 ^ (8 - k.toNat) * 2 ^ k.toNat := by
    rw [← Nat.pow_add, Nat.sub_add_cancel (Nat.le_of_lt hk)]
  have hshift : (a <<< k).toNat = (a.toNat % 2 ^ (8 - k.toNat)) <<< k.toNat := by
    rw [UInt8.toNat_shiftLeft, Nat.mod_eq_of_lt hk, Nat.shiftLeft_eq, Nat.shiftLeft_eq, ← Nat.mul_mod_mul_right]
    exact congrArg _ hsplit
  rw [UInt8.toNat_or, hshift, ← Nat.shiftLeft_add_eq_or_of_lt hb, Nat.shiftLeft_eq, ← Nat.mul_mod_mul_right,
    ← hsplit]

theorem toNat_low (b : UInt8) (k : Nat) (hk : k < 8) : (b &&& UInt8.ofNat (2 ^ k - 1)).toNat = b.toNat % 2 ^ k := by
  have hlt : 2 ^ k - 1 < 2 ^ 8 := Nat.lt_of_le_of_lt (Nat.sub_le _ _) (Nat.pow_lt_pow_right (by decide) hk)
  rw [UInt8.toNat_and, UInt8.toNat_ofNat', Nat.mod_eq_of_lt hlt, Nat.and_two_pow_sub_one_eq_mod]

variable (a b c : UInt8)

/-- The four values that three bytes are cut into. -/
theorem sextets : (a >>> 2).toNat = a.toNat / 4 ∧
    ((a &&& 3) <<< 4 ||| b >>> 4).toNat = a.toNat % 4 * 16 + b.toNat / 16 ∧
    ((b &&& 15) <<< 2 ||| c >>> 6).toNat = b.toNat % 16 * 4 + c.toNat / 64 ∧ (c &&& 63).toNat = c.toNat % 64 := by
  have hb := b.toNat_lt
  have hc := c.toNat_lt
  have hb4 := toNat_right b 4 (by decide)
  have hc6 := toNat_right c 6 (by decide)
  have ha3 := toNat_low a 2 (by decide)
  have hb15 := toNat_low b 4 (by decide)
  have h4 : (4 : UInt8).toNat = 4 := rfl
  have h6 : (6 : UInt8).toNat = 6 := rfl
  have h2 : (2 : UInt8).toNat = 2 := rfl
  rw [h4] at hb4
  rw [h6] at hc6
  refine ⟨toNat_right a 2 (by decide), ?_, ?_, toNat_low c 6 (by decide)⟩
  · have hjoin := toNat_join (a &&& 3) (b >>> 4) 4 (by decide) (by rw [hb4, h4]; omega)
    have hmask : (a &&& 3).toNat = a.toNat % 2 ^ 2 := ha3
    rw [hjoin, hb4, hmask, h4]
    omega
  · have hjoin := toNat_join (b &&& 15) (c >>> 6) 2 (by decide) (by rw [hc6, h2]; omega)
    have hmask : (b &&& 15).toNat = b.toNat % 2 ^ 4 := hb15
    rw [hjoin, hc6, hmask, h2]
    omega

/-- The three bytes that four values make. -/
theorem octets {v0 v1 v2 v3 : UInt8} (h1 : v1.toNat < 64) (h2 : v2.toNat < 64) (h3 : v3.toNat < 64) :
    (v0 <<< 2 ||| v1 >>> 4).toNat = v0.toNat * 4 % 256 + v1.toNat / 16 ∧
    (v1 <<< 4 ||| v2 >>> 2).toNat = v1.toNat * 16 % 256 + v2.toNat / 4 ∧
    (v2 <<< 6 ||| v3).toNat = v2.toNat * 64 % 256 + v3.toNat := by
  have hv1 := toNat_right v1 4 (by decide)
  have hv2 := toNat_right v2 2 (by decide)
  have h4 : (4 : UInt8).toNat = 4 := rfl
  have h2' : (2 : UInt8).toNat = 2 := rfl
  rw [h4] at hv1
  rw [h2'] at hv2
  refine ⟨?_, ?_, ?_⟩
  · have hjoin := toNat_join v0 (v1 >>> 4) 2 (by decide) (by rw [hv1, h2']; omega)
    rw [hv1, h2'] at hjoin
    exact hjoin
  · have hjoin := toNat_join v1 (v2 >>> 2) 4 (by decide) (by rw [hv2, h4]; omega)
    rw [hv2, h4] at hjoin
    exact hjoin
  · exact toNat_join v2 v3 6 (by decide) h3

end Sextets

section Alphabet

theorem value_alphabet {v : UInt8} (hv : v.toNat < 64) : value (BASE64_ALPHABET.getD v.toNat 0) = some v := by
  have hall : ∀ n : Fin 64, value (BASE64_ALPHABET.getD n 0) = some (UInt8.ofNat n) := by decide +kernel
  rw [hall ⟨v.toNat, hv⟩, UInt8.ofNat_toNat]

theorem alphabet_value {b v : UInt8} (h : value b = some v) :
    v.toNat < 64 ∧ BASE64_ALPHABET.getD v.toNat 0 = b ∧ b ≠ PAD := by
  have hall : ∀ n : Fin 256, (value (UInt8.ofNat n)).all fun w =>
      decide (w.toNat < 64 ∧ BASE64_ALPHABET.getD w.toNat 0 = UInt8.ofNat n ∧ UInt8.ofNat n ≠ PAD) := by decide +kernel
  have hb := hall ⟨b.toNat, b.toNat_lt⟩
  rw [UInt8.ofNat_toNat, h] at hb
  exact of_decide_eq_true hb

end Alphabet

section Steps

variable (d : Decoder) {b v : UInt8}

/-- The bytes that the decoder takes. -/
def Known (b : UInt8) : Prop := b = PAD ∨ (value b).isSome

instance : DecidablePred Known := fun b => inferInstanceAs (Decidable (b = PAD ∨ (value b).isSome))

theorem step_value (h : value b = some v) : d.step b = .ok (d.take v d.padded) := by
  rw [Decoder.step, if_neg (alphabet_value h).2.2, h]

theorem step_pad : d.step PAD = .ok (d.take 0 (d.padded + 1)) := if_pos rfl

theorem step_unknown (h : ¬ Known b) : d.step b = .error (invalid_byte b) := by
  rw [Known, not_or, Bool.not_eq_true, Option.isSome_eq_false_iff, Option.isNone_iff_eq_none] at h
  rw [Decoder.step, if_neg h.1, h.2]

theorem step_known (h : Known b) : ∃ d', d.step b = .ok d' := by
  obtain rfl | hsome := h
  · exact ⟨_, step_pad d⟩
  · obtain ⟨v, hv⟩ := Option.isSome_iff_exists.mp hsome
    exact ⟨_, step_value d hv⟩

theorem fold_step {d d' : Decoder} (h : d.step b = .ok d') (t : Bytes) :
    (b :: t).foldlM Decoder.step d = t.foldlM Decoder.step d' := by
  rw [List.foldlM_cons, h]
  rfl

/-- Only a byte that the decoder does not take makes it fail. -/
theorem fold_fails_iff (t : Bytes) (d : Decoder) :
    (∃ e, t.foldlM Decoder.step d = .error e) ↔ ∃ b ∈ t, ¬ Known b := by
  induction t generalizing d with
  | nil => simp [pure, Except.pure]
  | cons b t ih =>
      rw [List.foldlM_cons]
      by_cases hb : Known b
      · obtain ⟨d', hd'⟩ := step_known d hb
        rw [hd']
        refine (ih d').trans ?_
        constructor
        · rintro ⟨b', hmem, hb'⟩
          exact ⟨b', List.mem_cons_of_mem b hmem, hb'⟩
        · rintro ⟨b', hmem, hb'⟩
          obtain rfl | hmem := List.mem_cons.mp hmem
          · exact absurd hb hb'
          · exact ⟨b', hmem, hb'⟩
      · rw [step_unknown d hb]
        exact iff_of_true ⟨_, rfl⟩ ⟨b, List.mem_cons_self, hb⟩

end Steps

section Groups

variable (out rest : Bytes) {c0 c1 c2 c3 v0 v1 v2 v3 : UInt8}

theorem fold_group (h0 : value c0 = some v0) (h1 : value c1 = some v1) (h2 : value c2 = some v2)
    (h3 : value c3 = some v3) : (c0 :: c1 :: c2 :: c3 :: rest).foldlM Decoder.step ⟨out, [], 0⟩ =
      rest.foldlM Decoder.step ⟨out ++ group 0 v0 v1 v2 v3, [], 0⟩ := by
  rw [fold_step (step_value _ h0), fold_step (step_value _ h1), fold_step (step_value _ h2),
    fold_step (step_value _ h3)]
  rfl

theorem fold_pad (h0 : value c0 = some v0) (h1 : value c1 = some v1) (h2 : value c2 = some v2) :
    (c0 :: c1 :: c2 :: [PAD]).foldlM Decoder.step ⟨out, [], 0⟩ = .ok ⟨out ++ group 1 v0 v1 v2 0, [], 0⟩ := by
  rw [fold_step (step_value _ h0), fold_step (step_value _ h1), fold_step (step_value _ h2), fold_step (step_pad _)]
  rfl

theorem fold_pads (h0 : value c0 = some v0) (h1 : value c1 = some v1) :
    (c0 :: c1 :: [PAD, PAD]).foldlM Decoder.step ⟨out, [], 0⟩ = .ok ⟨out ++ group 2 v0 v1 0 0, [], 0⟩ := by
  rw [fold_step (step_value _ h0), fold_step (step_value _ h1), fold_step (step_pad _), fold_step (step_pad _)]
  rfl

end Groups

section Chunks

variable (b0 b1 b2 : UInt8)

/-- A chunk of three bytes has four values, and they are those bytes again. -/
theorem chunk_three : ∃ c0 c1 c2 c3 v0 v1 v2 v3, encode_chunk BASE64_ALPHABET [b0, b1, b2] = [c0, c1, c2, c3] ∧
    value c0 = some v0 ∧ value c1 = some v1 ∧ value c2 = some v2 ∧ value c3 = some v3 ∧
      group 0 v0 v1 v2 v3 = [b0, b1, b2] := by
  have h0 := b0.toNat_lt
  have h1 := b1.toNat_lt
  have h2 := b2.toNat_lt
  obtain ⟨s0, s1, s2, s3⟩ := sextets b0 b1 b2
  have l0 : (b0 >>> 2).toNat < 64 := by omega
  have l1 : ((b0 &&& 3) <<< 4 ||| b1 >>> 4).toNat < 64 := by omega
  have l2 : ((b1 &&& 15) <<< 2 ||| b2 >>> 6).toNat < 64 := by omega
  have l3 : (b2 &&& 63).toNat < 64 := by omega
  refine ⟨_, _, _, _, b0 >>> 2, (b0 &&& 3) <<< 4 ||| b1 >>> 4, (b1 &&& 15) <<< 2 ||| b2 >>> 6, b2 &&& 63, rfl,
    value_alphabet l0, value_alphabet l1, value_alphabet l2, value_alphabet l3, ?_⟩
  obtain ⟨o0, o1, o2⟩ := @octets (b0 >>> 2) _ _ _ l1 l2 l3
  have e0 := UInt8.toNat_inj.mp (o0.trans (show _ = b0.toNat by omega))
  have e1 := UInt8.toNat_inj.mp (o1.trans (show _ = b1.toNat by omega))
  have e2 := UInt8.toNat_inj.mp (o2.trans (show _ = b2.toNat by omega))
  unfold group
  rw [e0, e1, e2]
  rfl

theorem chunk_two : ∃ c0 c1 c2 v0 v1 v2, encode_chunk BASE64_ALPHABET [b0, b1] = [c0, c1, c2, PAD] ∧
    value c0 = some v0 ∧ value c1 = some v1 ∧ value c2 = some v2 ∧ v2.toNat % 4 = 0 ∧
      group 1 v0 v1 v2 0 = [b0, b1] := by
  have h0 := b0.toNat_lt
  have h1 := b1.toNat_lt
  obtain ⟨s0, s1, s2, -⟩ := sextets b0 b1 0
  have hzero : (0 : UInt8).toNat = 0 := rfl
  rw [hzero] at s2
  have l0 : (b0 >>> 2).toNat < 64 := by omega
  have l1 : ((b0 &&& 3) <<< 4 ||| b1 >>> 4).toNat < 64 := by omega
  have l2 : ((b1 &&& 15) <<< 2 ||| (0 : UInt8) >>> 6).toNat < 64 := by omega
  have tail : ((b1 &&& 15) <<< 2 ||| (0 : UInt8) >>> 6).toNat % 4 = 0 := by omega
  refine ⟨_, _, _, b0 >>> 2, (b0 &&& 3) <<< 4 ||| b1 >>> 4, (b1 &&& 15) <<< 2 ||| (0 : UInt8) >>> 6, rfl,
    value_alphabet l0, value_alphabet l1, value_alphabet l2, tail, ?_⟩
  obtain ⟨o0, o1, -⟩ := @octets (b0 >>> 2) _ _ 0 l1 l2 (by decide)
  have e0 := UInt8.toNat_inj.mp (o0.trans (show _ = b0.toNat by omega))
  have e1 := UInt8.toNat_inj.mp (o1.trans (show _ = b1.toNat by omega))
  unfold group
  rw [e0, e1]
  rfl

theorem chunk_one : ∃ c0 c1 v0 v1, encode_chunk BASE64_ALPHABET [b0] = [c0, c1, PAD, PAD] ∧
    value c0 = some v0 ∧ value c1 = some v1 ∧ v1.toNat % 16 = 0 ∧ group 2 v0 v1 0 0 = [b0] := by
  have h0 := b0.toNat_lt
  obtain ⟨s0, s1, -, -⟩ := sextets b0 0 0
  have hzero : (0 : UInt8).toNat = 0 := rfl
  rw [hzero] at s1
  have l0 : (b0 >>> 2).toNat < 64 := by omega
  have l1 : ((b0 &&& 3) <<< 4 ||| (0 : UInt8) >>> 4).toNat < 64 := by omega
  have tail : ((b0 &&& 3) <<< 4 ||| (0 : UInt8) >>> 4).toNat % 16 = 0 := by omega
  refine ⟨_, _, b0 >>> 2, (b0 &&& 3) <<< 4 ||| (0 : UInt8) >>> 4, rfl, value_alphabet l0, value_alphabet l1, tail, ?_⟩
  obtain ⟨o0, -, -⟩ := @octets (b0 >>> 2) _ 0 0 l1 (by decide) (by decide)
  have e0 := UInt8.toNat_inj.mp (o0.trans (show _ = b0.toNat by omega))
  unfold group
  rw [e0]
  rfl

/-- What was encoded is read back behind any output. -/
theorem fold_encoded (bytes out : Bytes) :
    (base64_encode bytes).foldlM Decoder.step ⟨out, [], 0⟩ = .ok ⟨out ++ bytes, [], 0⟩ := by
  unfold base64_encode
  induction bytes using encode_chunks.induct generalizing out with
  | case1 =>
      rw [List.append_nil]
      rfl
  | case2 b0 =>
      obtain ⟨c0, c1, v0, v1, hchunk, h0, h1, -, hgroup⟩ := chunk_one b0
      rw [encode_chunks, hchunk, fold_pads out h0 h1, hgroup]
  | case3 b0 b1 =>
      obtain ⟨c0, c1, c2, v0, v1, v2, hchunk, h0, h1, h2, -, hgroup⟩ := chunk_two b0 b1
      rw [encode_chunks, hchunk, fold_pad out h0 h1 h2, hgroup]
  | case4 b0 b1 b2 rest ih =>
      obtain ⟨c0, c1, c2, c3, v0, v1, v2, v3, hchunk, h0, h1, h2, h3, hgroup⟩ := chunk_three b0 b1 b2
      have hcons (t : Bytes) : [c0, c1, c2, c3] ++ t = c0 :: c1 :: c2 :: c3 :: t := rfl
      rw [encode_chunks, hchunk, hcons, fold_group out _ h0 h1 h2 h3, ih, hgroup, List.append_assoc]
      rfl

end Chunks

section Encodings

/-- Whole groups of four, of which the last may end in padding behind bits that are zero. -/
def Encoding : Bytes → Prop
  | [] => True
  | c0 :: c1 :: c2 :: c3 :: rest =>
    ((value c0).isSome ∧ (value c1).isSome ∧ (value c2).isSome ∧ (value c3).isSome ∧ Encoding rest) ∨
      rest = [] ∧ c3 = PAD ∧ (value c0).isSome ∧
        ((value c1).isSome ∧ (∃ v2 ∈ value c2, v2.toNat % 4 = 0) ∨ c2 = PAD ∧ ∃ v1 ∈ value c1, v1.toNat % 16 = 0)
  | _ => False

variable {c0 c1 c2 c3 v0 v1 v2 v3 : UInt8}

theorem eq_of_values (h0 : value c0 = some v0) {u : UInt8} (hu : u.toNat = v0.toNat) :
    BASE64_ALPHABET.getD u.toNat 0 = c0 := by
  rw [hu]
  exact (alphabet_value h0).2.1

/-- Every group of four values is the encoding of its bytes. -/
theorem group_encoded (h0 : value c0 = some v0) (h1 : value c1 = some v1) (h2 : value c2 = some v2)
    (h3 : value c3 = some v3) : ∃ b0 b1 b2, encode_chunk BASE64_ALPHABET [b0, b1, b2] = [c0, c1, c2, c3] := by
  have l0 := (alphabet_value h0).1
  have l1 := (alphabet_value h1).1
  have l2 := (alphabet_value h2).1
  have l3 := (alphabet_value h3).1
  obtain ⟨o0, o1, o2⟩ := @octets v0 v1 v2 v3 l1 l2 l3
  obtain ⟨s0, s1, s2, s3⟩ := sextets (v0 <<< 2 ||| v1 >>> 4) (v1 <<< 4 ||| v2 >>> 2) (v2 <<< 6 ||| v3)
  refine ⟨_, _, _, List.cons_eq_cons.mpr ⟨eq_of_values h0 (s0.trans (by omega)),
    List.cons_eq_cons.mpr ⟨eq_of_values h1 (s1.trans (by omega)),
      List.cons_eq_cons.mpr ⟨eq_of_values h2 (s2.trans (by omega)),
        List.cons_eq_cons.mpr ⟨eq_of_values h3 (s3.trans (by omega)), rfl⟩⟩⟩⟩⟩

theorem pad_encoded (h0 : value c0 = some v0) (h1 : value c1 = some v1) (h2 : value c2 = some v2)
    (hz : v2.toNat % 4 = 0) : ∃ b0 b1, encode_chunk BASE64_ALPHABET [b0, b1] = [c0, c1, c2, PAD] := by
  have l0 := (alphabet_value h0).1
  have l1 := (alphabet_value h1).1
  have l2 := (alphabet_value h2).1
  obtain ⟨o0, o1, -⟩ := @octets v0 v1 v2 0 l1 l2 (by decide)
  obtain ⟨s0, s1, s2, -⟩ := sextets (v0 <<< 2 ||| v1 >>> 4) (v1 <<< 4 ||| v2 >>> 2) 0
  have hzero : (0 : UInt8).toNat = 0 := rfl
  rw [hzero] at s2
  refine ⟨_, _, List.cons_eq_cons.mpr ⟨eq_of_values h0 (s0.trans (by omega)),
    List.cons_eq_cons.mpr ⟨eq_of_values h1 (s1.trans (by omega)),
      List.cons_eq_cons.mpr ⟨eq_of_values h2 (s2.trans (by omega)), rfl⟩⟩⟩⟩

theorem pads_encoded (h0 : value c0 = some v0) (h1 : value c1 = some v1) (hz : v1.toNat % 16 = 0) :
    ∃ b0, encode_chunk BASE64_ALPHABET [b0] = [c0, c1, PAD, PAD] := by
  have l0 := (alphabet_value h0).1
  have l1 := (alphabet_value h1).1
  obtain ⟨o0, -, -⟩ := @octets v0 v1 0 0 l1 (by decide) (by decide)
  obtain ⟨s0, s1, -, -⟩ := sextets (v0 <<< 2 ||| v1 >>> 4) 0 0
  have hzero : (0 : UInt8).toNat = 0 := rfl
  rw [hzero] at s1
  exact ⟨_, List.cons_eq_cons.mpr ⟨eq_of_values h0 (s0.trans (by omega)),
    List.cons_eq_cons.mpr ⟨eq_of_values h1 (s1.trans (by omega)), rfl⟩⟩⟩

theorem encoding_encode (bytes : Bytes) : Encoding (base64_encode bytes) := by
  unfold base64_encode
  induction bytes using encode_chunks.induct with
  | case1 => trivial
  | case2 b0 =>
      obtain ⟨c0, c1, v0, v1, hchunk, h0, h1, hz, -⟩ := chunk_one b0
      rw [encode_chunks, hchunk]
      exact .inr ⟨rfl, rfl, Option.isSome_of_mem h0, .inr ⟨rfl, v1, h1, hz⟩⟩
  | case3 b0 b1 =>
      obtain ⟨c0, c1, c2, v0, v1, v2, hchunk, h0, h1, h2, hz, -⟩ := chunk_two b0 b1
      rw [encode_chunks, hchunk]
      exact .inr ⟨rfl, rfl, Option.isSome_of_mem h0, .inl ⟨Option.isSome_of_mem h1, v2, h2, hz⟩⟩
  | case4 b0 b1 b2 rest ih =>
      obtain ⟨c0, c1, c2, c3, v0, v1, v2, v3, hchunk, h0, h1, h2, h3, -⟩ := chunk_three b0 b1 b2
      rw [encode_chunks, hchunk]
      exact .inl ⟨Option.isSome_of_mem h0, Option.isSome_of_mem h1, Option.isSome_of_mem h2, Option.isSome_of_mem h3, ih⟩

/-- The encodings are the texts of that shape, and no others. -/
theorem encoding_iff (t : Bytes) : Encoding t ↔ ∃ bytes, t = base64_encode bytes := by
  constructor
  · intro h
    induction t using Encoding.induct with
    | case1 => exact ⟨[], rfl⟩
    | case2 c0 c1 c2 c3 rest ih =>
        obtain ⟨h0, h1, h2, h3, hrest⟩ | ⟨rfl, rfl, h0, ⟨h1, v2, h2, hz⟩ | ⟨rfl, v1, h1, hz⟩⟩ := h
        · obtain ⟨v0, h0⟩ := Option.isSome_iff_exists.mp h0
          obtain ⟨v1, h1⟩ := Option.isSome_iff_exists.mp h1
          obtain ⟨v2, h2⟩ := Option.isSome_iff_exists.mp h2
          obtain ⟨v3, h3⟩ := Option.isSome_iff_exists.mp h3
          obtain ⟨b0, b1, b2, hchunk⟩ := group_encoded h0 h1 h2 h3
          obtain ⟨bytes, rfl⟩ := ih hrest
          have hcons : base64_encode (b0 :: b1 :: b2 :: bytes) =
              encode_chunk BASE64_ALPHABET [b0, b1, b2] ++ base64_encode bytes := by
            rw [base64_encode, encode_chunks, base64_encode]
          refine ⟨b0 :: b1 :: b2 :: bytes, ?_⟩
          rw [hcons, hchunk]
          rfl
        · obtain ⟨v0, h0⟩ := Option.isSome_iff_exists.mp h0
          obtain ⟨v1, h1⟩ := Option.isSome_iff_exists.mp h1
          obtain ⟨b0, b1, hchunk⟩ := pad_encoded h0 h1 h2 hz
          exact ⟨[b0, b1], hchunk.symm⟩
        · obtain ⟨v0, h0⟩ := Option.isSome_iff_exists.mp h0
          obtain ⟨b0, hchunk⟩ := pads_encoded h0 h1 hz
          exact ⟨[b0], hchunk.symm⟩
    | case3 t => exact absurd h (by simp [Encoding])
  · rintro ⟨bytes, rfl⟩
    exact encoding_encode bytes

end Encodings

section Transfer

variable (s : Bytes)

def stripped : Bytes := s.filter fun b => !is_ascii_whitespace b

/-- An encoding is decoded to what was encoded, and what is none is turned down. -/
def Faithful : Prop :=
  (∀ bytes, stripped s = base64_encode bytes ∨ stripped s = jobs_base64_encode bytes → base64_decode s = .ok bytes) ∧
    (¬ Encoding (stripped s) → ∃ e, base64_decode s = .error e)

theorem decode_encoded {bytes : Bytes} (h : stripped s = base64_encode bytes) : base64_decode s = .ok bytes := by
  unfold stripped at h
  rw [base64_decode, h, fold_encoded]
  rfl

theorem decode_fails_iff : (∃ e, base64_decode s = .error e) ↔ ∃ b ∈ stripped s, ¬ Known b := by
  rw [← fold_fails_iff _ ⟨[], [], 0⟩, base64_decode]
  unfold stripped
  cases List.foldlM Decoder.step _ _ with
  | error e => exact iff_of_true ⟨e, rfl⟩ ⟨e, rfl⟩
  | ok d => exact iff_of_false (by rintro ⟨e, h⟩; cases h) (by rintro ⟨e, h⟩; cases h)

/-- The decoder does its work where the text is an encoding or has a byte that it does not take. -/
theorem faithful_iff : Faithful s ↔ Encoding (stripped s) ∨ ∃ b ∈ stripped s, ¬ Known b := by
  have hsame : jobs_base64_encode = base64_encode := rfl
  constructor
  · intro h
    by_cases henc : Encoding (stripped s)
    · exact .inl henc
    · exact .inr ((decode_fails_iff s).mp (h.2 henc))
  · intro h
    refine ⟨fun bytes hb => ?_, fun henc => (decode_fails_iff s).mpr (h.resolve_left henc)⟩
    rw [hsame, or_self] at hb
    exact decode_encoded s hb

/-- `QUI` is `QUJD` cut short, and it is read as nothing. -/
theorem cut_short : ¬ ∀ s, Faithful s := by
  intro h
  have hnone : base64_decode [81, 85, 73] = .ok [] := rfl
  obtain ⟨e, he⟩ := (h [81, 85, 73]).2 fun henc => henc
  rw [hnone] at he
  cases he

end Transfer

end Zshrs.Daemon.Base64
