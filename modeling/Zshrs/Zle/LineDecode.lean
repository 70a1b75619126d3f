import Zshrs.Zle.LineEncode

namespace Zshrs.Zle

open Lib Lib.Utf8 Parse.Ecstr

variable (L : Locale)

/-- The chars that the decoding loop makes, each with the bytes that it takes. -/
def pieces : Nat → L.State → Bytes → List (Char × Nat)
  | 0, _, _ => []
  | _ + 1, _, [] => []
  | fuel + 1, mbs, b :: rest =>
      ((convert L mbs b rest).1, (convert L mbs b rest).2.1) ::
        pieces fuel (convert L mbs b rest).2.2 ((b :: rest).drop (convert L mbs b rest).2.1)

def decode_step (want_outcs : Bool) (incs : Int) (p : Nat × Decoded) (piece : Char × Nat) : Nat × Decoded :=
  (p.1 + piece.2,
    { line := p.2.line ++ [piece.1]
      outcs := if want_outcs ∧ as_i32 p.1 ≤ incs ∧ incs < as_i32 (p.1 + piece.2 : Nat) then
          some (as_i32 p.2.line.length) else p.2.outcs })

theorem decode_loop_eq (want_outcs : Bool) (incs : Int) (fuel : Nat) (mbs : L.State) (inptr : Nat) (s : Bytes)
    (d : Decoded) :
    decode_loop L want_outcs incs fuel mbs inptr s d =
      ((pieces L fuel mbs s).foldl (decode_step want_outcs incs) (inptr, d)).2 := by
  induction fuel generalizing mbs inptr s d with
  | zero => rfl
  | succ fuel ih =>
      cases s with
      | nil => rfl
      | cons b rest =>
          rw [decode_loop, pieces, List.foldl_cons]
          exact ih _ _ _ _

variable {L}

theorem toNat_invalid_wchar (b : UInt8) : (invalid_wchar b).toNat = ZSH_INVALID_WCHAR_BASE + b.toNat := by
  have hlt := b.toNat_lt
  exact toNat_charOfNat (.inr ⟨by unfold ZSH_INVALID_WCHAR_BASE; omega,
    by unfold ZSH_INVALID_WCHAR_BASE; omega⟩)

theorem test_invalid_wchar (b : UInt8) : ZSH_INVALID_WCHAR_TEST (invalid_wchar b).toNat = true := by
  have hlt := b.toNat_lt
  rw [toNat_invalid_wchar, ZSH_INVALID_WCHAR_TEST, Bool.and_eq_true, decide_eq_true_iff, decide_eq_true_iff]
  omega

theorem char_bytes_invalid (b : UInt8) : char_bytes (invalid_wchar b) = [b] := by
  rw [char_bytes, if_pos (test_invalid_wchar b), toNat_invalid_wchar, ZSH_INVALID_WCHAR_TO_CHAR,
    Nat.add_sub_cancel_left, UInt8.ofNat_toNat]

theorem exists_invalid_wchar {ch : Char} (h : ZSH_INVALID_WCHAR_TEST ch.toNat = true) :
    ∃ b, ch = invalid_wchar b := by
  rw [ZSH_INVALID_WCHAR_TEST, Bool.and_eq_true, decide_eq_true_iff, decide_eq_true_iff] at h
  have hlt : ch.toNat - ZSH_INVALID_WCHAR_BASE < 256 := by omega
  refine ⟨UInt8.ofNat (ch.toNat - ZSH_INVALID_WCHAR_BASE), ?_⟩
  rw [invalid_wchar, Utf8.toNat_ofNat hlt, Nat.add_sub_cancel' h.1, Char.ofNat_toNat]

theorem char_bytes_plain {ch : Char} (h : ¬ ZSH_INVALID_WCHAR_TEST ch.toNat = true) :
    char_bytes ch = String.utf8EncodeChar ch := if_neg h

theorem bytes_cons (ch : Char) (line : Line) : bytes (ch :: line) = char_bytes ch ++ bytes line := rfl

theorem bytes_kept (b : UInt8) (line : Line) : bytes (invalid_wchar b :: line) = b :: bytes line := by
  rw [bytes_cons, char_bytes_invalid]
  rfl

/-- A continuation byte in front of a line's bytes is a kept one: no char is encoded so. -/
theorem kept_of_continuation {line : Line} {b : UInt8} {s : Bytes} (h : bytes line = b :: s)
    (hb : Continuation b) : ∃ line', line = invalid_wchar b :: line' ∧ bytes line' = s := by
  cases line with
  | nil => cases h
  | cons ch line =>
      by_cases htest : ZSH_INVALID_WCHAR_TEST ch.toNat = true
      · obtain ⟨b', rfl⟩ := exists_invalid_wchar htest
        rw [bytes_kept] at h
        obtain ⟨rfl, hs⟩ := List.cons.inj h
        exact ⟨line, rfl, hs⟩
      · rw [bytes_cons, char_bytes_plain htest] at h
        have hlook := look_encode ch (bytes line)
        rw [h, look_continuation hb] at hlook
        cases hlook

theorem kept_of_continuations {s : Bytes} (hs : ∀ b ∈ s, Continuation b) {line : Line} (h : bytes line = s) :
    line = s.map invalid_wchar := by
  induction s generalizing line with
  | nil =>
      have hlen := length_le_bytes line
      rw [h] at hlen
      exact List.eq_nil_of_length_eq_zero (Nat.le_zero.mp hlen)
  | cons b s ih =>
      obtain ⟨line', rfl, hline⟩ := kept_of_continuation h (hs b List.mem_cons_self)
      rw [List.map_cons, ih (fun c hc => hs c (List.mem_cons_of_mem b hc)) hline]

/-- Read again byte by byte in the state that an incomplete char left, the bytes complete no char but (taking
one byte) the one that keeps the byte. -/
def Again (L : Locale) : L.State → Bytes → Prop
  | _, [] => True
  | mbs, b :: rest =>
      match L.mbrtowc mbs (b :: rest) with
      | (.wide wc cnt, mbs) =>
          wc = ZSH_INVALID_WCHAR_BASE + b.toNat ∧ taken cnt (b :: rest).length = 1 ∧ Again L mbs rest
      | (.incomplete, mbs) => Again L mbs rest
      | (.invalid, mbs) => Again L mbs rest

/-- The kept bytes do not decode otherwise: none begins a char with the bytes behind it, nor (at the end of the
line) one that these complete when they are read again. -/
def Kept (L : Locale) : Line → Prop
  | [] => True
  | ch :: line =>
      if ZSH_INVALID_WCHAR_TEST ch.toNat then
        match L.mbrtowc L.zero (bytes (ch :: line)) with
        | (.wide _ _, _) => False
        | (.invalid, _) => Kept L line
        | (.incomplete, mbs) => Again L mbs (bytes line)
      else Kept L line

theorem from_u32_toNat (ch : Char) : from_u32 ch.toNat = ch := by
  have hvalid : ch.toNat.isValidChar := ch.valid
  rw [from_u32, if_pos hvalid, Char.ofNat_toNat]

theorem from_u32_eq_kept {wc : Nat} {b : UInt8} :
    from_u32 wc = invalid_wchar b ↔ wc = ZSH_INVALID_WCHAR_BASE + b.toNat := by
  constructor
  · intro h
    rw [from_u32] at h
    split at h
    · rename_i hvalid
      rw [← toNat_invalid_wchar, ← h]
      exact (toNat_charOfNat hvalid).symm
    · have htest := test_invalid_wchar b
      rw [← h] at htest
      exact absurd htest (by decide)
  · rintro rfl
    rw [← toNat_invalid_wchar, from_u32_toNat]

theorem taken_pos (cnt : Nat) (b : UInt8) (rest : Bytes) : 0 < taken cnt (b :: rest).length := by
  rw [taken, List.length_cons]
  split <;> omega

theorem taken_le (cnt : Nat) (b : UInt8) (rest : Bytes) : taken cnt (b :: rest).length ≤ (b :: rest).length := by
  rw [taken, List.length_cons]
  split <;> omega

theorem convert_pos (mbs : L.State) (b : UInt8) (rest : Bytes) : 0 < (convert L mbs b rest).2.1 := by
  rw [convert]
  split
  · exact taken_pos _ b rest
  · exact Nat.one_pos

theorem length_pieces_le (fuel : Nat) (mbs : L.State) (s : Bytes) : (pieces L fuel mbs s).length ≤ s.length := by
  induction fuel generalizing mbs s with
  | zero => exact Nat.zero_le _
  | succ fuel ih =>
      cases s with
      | nil => exact Nat.zero_le _
      | cons b rest =>
          have hpos := convert_pos mbs b rest
          have hrest := ih (convert L mbs b rest).2.2 ((b :: rest).drop (convert L mbs b rest).2.1)
          rw [List.length_drop, List.length_cons] at hrest
          rw [pieces, List.length_cons, List.length_cons]
          omega

theorem pieces_nil (fuel : Nat) (mbs : L.State) : pieces L fuel mbs [] = [] := by
  cases fuel <;> rfl

theorem pieces_char (ch : Char) (rest : Bytes) (fuel : Nat) :
    pieces L (fuel + 1) L.zero (String.utf8EncodeChar ch ++ rest) =
      (ch, (String.utf8EncodeChar ch).length) :: pieces L fuel L.zero rest := by
  have hchar := L.char ch rest
  obtain ⟨b, tail, henc⟩ := List.exists_cons_of_ne_nil (encode_ne_nil ch)
  have htaken : taken (if ch = '\x00' then 0 else (String.utf8EncodeChar ch).length) (b :: (tail ++ rest)).length =
      (String.utf8EncodeChar ch).length := by
    by_cases hch : ch = '\x00'
    · subst hch
      rfl
    · rw [if_neg hch, taken, henc, List.length_cons, List.length_cons, List.length_append,
        if_neg (Nat.succ_ne_zero _)]
      omega
  rw [henc, List.cons_append] at hchar
  rw [henc, List.cons_append, pieces, convert, hchar, ← henc]
  simp only [htaken, from_u32_toNat]
  rw [← List.cons_append, ← henc, List.drop_left]

theorem pieces_invalid {b : UInt8} {rest : Bytes} {mbs mbs' : L.State}
    (h : L.mbrtowc mbs (b :: rest) = (.invalid, mbs')) (fuel : Nat) :
    pieces L (fuel + 1) mbs (b :: rest) = (invalid_wchar b, 1) :: pieces L fuel mbs' rest := by
  rw [pieces, convert, h]
  rfl

theorem pieces_incomplete {b : UInt8} {rest : Bytes} {mbs mbs' : L.State}
    (h : L.mbrtowc mbs (b :: rest) = (.incomplete, mbs')) (fuel : Nat) :
    pieces L (fuel + 1) mbs (b :: rest) = (invalid_wchar b, 1) :: pieces L fuel mbs' rest := by
  rw [pieces, convert, h]
  rfl

theorem pieces_wide {b : UInt8} {rest : Bytes} {mbs mbs' : L.State} {wc cnt : Nat}
    (h : L.mbrtowc mbs (b :: rest) = (.wide wc cnt, mbs')) (fuel : Nat) :
    pieces L (fuel + 1) mbs (b :: rest) =
      (from_u32 wc, taken cnt (b :: rest).length) ::
        pieces L fuel mbs' ((b :: rest).drop (taken cnt (b :: rest).length)) := by
  rw [pieces, convert, h]

theorem pieces_again {mbs : L.State} {s : Bytes} (h : Again L mbs s) {fuel : Nat} (hfuel : s.length ≤ fuel) :
    pieces L fuel mbs s = s.map fun b => (invalid_wchar b, 1) := by
  induction s generalizing mbs fuel with
  | nil => exact pieces_nil _ _
  | cons b rest ih =>
      obtain ⟨fuel, rfl⟩ : ∃ n, fuel = n + 1 := ⟨fuel - 1, (Nat.sub_add_cancel (Nat.one_le_of_lt hfuel)).symm⟩
      have hfuel := Nat.le_of_succ_le_succ hfuel
      rw [List.map_cons]
      rw [Again] at h
      split at h
      · rename_i wc cnt mbs' hwide
        obtain ⟨hwc, hone, hrest⟩ := h
        rw [pieces_wide hwide, hone, from_u32_eq_kept.mpr hwc, ← ih hrest hfuel]
        rfl
      · rename_i mbs' hincomplete
        rw [pieces_incomplete hincomplete, ih h hfuel]
      · rename_i mbs' hinvalid
        rw [pieces_invalid hinvalid, ih h hfuel]

/-- The bytes of a line are taken apart as they were put together. -/
theorem pieces_kept {line : Line} (h : Kept L line) {fuel : Nat} (hfuel : (bytes line).length ≤ fuel) :
    pieces L fuel L.zero (bytes line) = line.map fun ch => (ch, (char_bytes ch).length) := by
  induction line generalizing fuel with
  | nil => exact pieces_nil _ _
  | cons ch line ih =>
      have hpos := List.length_pos_of_ne_nil (char_bytes_ne_nil ch)
      rw [bytes_cons, List.length_append] at hfuel
      obtain ⟨fuel, rfl⟩ : ∃ n, fuel = n + 1 := ⟨fuel - 1, by omega⟩
      rw [List.map_cons]
      rw [Kept] at h
      by_cases htest : ZSH_INVALID_WCHAR_TEST ch.toNat = true
      · obtain ⟨b, rfl⟩ := exists_invalid_wchar htest
        rw [if_pos htest, bytes_kept] at h
        rw [char_bytes_invalid, List.length_singleton] at hfuel ⊢
        rw [bytes_kept]
        split at h
        · exact h.elim
        · rename_i mbs hinvalid
          rw [pieces_invalid hinvalid, L.invalid hinvalid, ih h (by omega)]
        · rename_i mbs hincomplete
          have hline := kept_of_continuations (L.incomplete hincomplete) rfl
          rw [pieces_incomplete hincomplete, pieces_again h (by omega)]
          generalize bytes line = s at hline
          rw [hline, List.map_map]
          simp only [Function.comp_def, char_bytes_invalid, List.length_singleton]
      · rw [if_neg htest] at h
        rw [char_bytes_plain htest] at hfuel hpos ⊢
        rw [bytes_cons, char_bytes_plain htest, pieces_char, ih h (by omega)]

end Zshrs.Zle
