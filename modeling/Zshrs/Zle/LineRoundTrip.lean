import Mathlib.Algebra.Group.Nat.Defs
import Mathlib.Algebra.Group.Int.Defs
import Zshrs.Zle.LineDecode

namespace Zshrs.Zle

open Lib Lib.Utf8 Parse.Ecstr

variable {L : Locale}

variable (L) in
def chars (fuel : Nat) (s : Bytes) : Line := (pieces L fuel L.zero s).map Prod.fst

/-- A kept char is encoded in three bytes, the last two of them continuation bytes. -/
theorem encode_invalid_wchar (b : UInt8) :
    ∃ x y z, String.utf8EncodeChar (invalid_wchar b) = [x, y, z] ∧ Continuation y ∧ Continuation z := by
  have hlt := b.toNat_lt
  have hval : (invalid_wchar b).val.toNat = ZSH_INVALID_WCHAR_BASE + b.toNat := toNat_invalid_wchar b
  rw [ZSH_INVALID_WCHAR_BASE] at hval
  rw [String.utf8EncodeChar]
  simp only [hval]
  rw [if_neg (by omega), if_neg (by omega), if_pos (by omega)]
  refine ⟨_, _, _, rfl, ?_, ?_⟩
  · rw [Continuation, Utf8.toNat_ofNat (by omega)]
    omega
  · rw [Continuation, Utf8.toNat_ofNat (by omega)]
    omega

/-- Where a kept byte begins the char that would keep it, the line goes on with the char's other two bytes,
kept as well, and the loop behind them. -/
theorem wide_kept {b k : UInt8} {line : Line} {wc cnt : Nat} {mbs : L.State}
    (h : L.mbrtowc L.zero (b :: bytes line) = (.wide wc cnt, mbs)) (hwc : from_u32 wc = invalid_wchar k) :
    ∃ y z line', line = invalid_wchar y :: invalid_wchar z :: line' ∧ mbs = L.zero ∧
      (b :: bytes line).drop (taken cnt (b :: bytes line).length) = bytes line' := by
  have hwc := from_u32_eq_kept.mp hwc
  rw [← toNat_invalid_wchar] at hwc
  subst hwc
  obtain ⟨rest, hs⟩ := L.encoded h
  have hchar := L.char (invalid_wchar k) rest
  obtain ⟨x, y, z, henc, hy, hz⟩ := encode_invalid_wchar k
  rw [hs, h] at hchar
  obtain ⟨hconv, hmbs⟩ := Prod.mk.inj hchar
  have hcnt : cnt = 3 := by
    have hne : invalid_wchar k ≠ '\x00' := by
      intro heq
      rw [heq] at henc
      cases henc
    rw [(Conversion.wide.inj hconv).2, if_neg hne, henc]
    rfl
  rw [henc] at hs
  have htail : bytes line = y :: z :: rest := (List.cons.inj hs).2.symm
  obtain ⟨line₁, rfl, hrest₁⟩ := kept_of_continuation htail hy
  obtain ⟨line₂, rfl, hrest₂⟩ := kept_of_continuation hrest₁ hz
  refine ⟨y, z, line₂, rfl, hmbs, ?_⟩
  rw [hcnt, bytes_kept, bytes_kept, hrest₂]
  rfl

/-- Kept bytes in front of a line are not read out of the line alone. -/
theorem not_shifted (ks : Bytes) (hks : ks ≠ []) (line : Line) {fuel : Nat}
    (hfuel : (bytes line).length ≤ fuel) :
    chars L fuel (bytes line) ≠ ks.map invalid_wchar ++ line := by
  intro h
  induction hn : line.length using Nat.strongRecOn generalizing ks line fuel with
  | _ n ih =>
  obtain ⟨k, ks, rfl⟩ := List.exists_cons_of_ne_nil hks
  cases line with
  | nil =>
      rw [chars, show bytes [] = [] from rfl, pieces_nil] at h
      cases h
  | cons ch line =>
      rw [List.length_cons] at hn
      have hpos := List.length_pos_of_ne_nil (char_bytes_ne_nil ch)
      rw [bytes_cons, List.length_append] at hfuel
      obtain ⟨fuel, rfl⟩ : ∃ n, fuel = n + 1 := ⟨fuel - 1, by omega⟩
      rw [List.map_cons, List.cons_append] at h
      by_cases htest : ZSH_INVALID_WCHAR_TEST ch.toNat = true
      · obtain ⟨b, rfl⟩ := exists_invalid_wchar htest
        rw [char_bytes_invalid, List.length_singleton] at hfuel
        rw [bytes_kept, chars] at h
        rcases hconv : L.mbrtowc L.zero (b :: bytes line) with ⟨_ | _ | _, mbs⟩
        · rw [pieces_wide hconv, List.map_cons] at h
          obtain ⟨hk, htail⟩ := List.cons.inj h
          obtain ⟨y, z, line', rfl, rfl, hdrop⟩ := wide_kept hconv hk
          rw [hdrop] at htail
          rw [bytes_kept, bytes_kept, List.length_cons, List.length_cons] at hfuel
          rw [List.length_cons, List.length_cons] at hn
          have hks : ks ++ [b, y, z] ≠ [] := List.append_ne_nil_of_right_ne_nil ks (List.cons_ne_nil _ _)
          have hle : (bytes line').length ≤ fuel := by omega
          refine ih line'.length (by omega) _ hks line' hle ?_ rfl
          rw [List.map_append, List.append_assoc]
          exact htail
        · -- what is left are continuation bytes, each kept by a char of its own
          have hline := kept_of_continuations (L.incomplete hconv) rfl
          have hlen := congrArg List.length h
          have hle := length_pieces_le fuel mbs (bytes line)
          have hline := congrArg List.length hline
          rw [pieces_incomplete hconv] at hlen
          simp only [List.length_map, List.length_cons, List.length_append] at hlen hline
          omega
        · rw [pieces_invalid hconv, L.invalid hconv, List.map_cons] at h
          obtain ⟨_, htail⟩ := List.cons.inj h
          have hks : ks ++ [b] ≠ [] := List.append_ne_nil_of_right_ne_nil ks (List.cons_ne_nil _ _)
          have hle : (bytes line).length ≤ fuel := by omega
          refine ih line.length (by omega) _ hks line hle ?_ rfl
          rw [List.map_append, List.append_assoc]
          exact htail
      · rw [bytes_cons, char_bytes_plain htest, chars, pieces_char, List.map_cons] at h
        have hch : ch = invalid_wchar k := (List.cons.inj h).1
        rw [hch] at htest
        exact htest (test_invalid_wchar k)

theorem again_of_pieces {mbs : L.State} {s : Bytes} {fuel : Nat} (hfuel : s.length ≤ fuel)
    (h : (pieces L fuel mbs s).map Prod.fst = s.map invalid_wchar) : Again L mbs s := by
  induction s generalizing mbs fuel with
  | nil => trivial
  | cons b rest ih =>
      obtain ⟨fuel, rfl⟩ : ∃ n, fuel = n + 1 := ⟨fuel - 1, (Nat.sub_add_cancel (Nat.one_le_of_lt hfuel)).symm⟩
      have hfuel := Nat.le_of_succ_le_succ hfuel
      rw [List.map_cons] at h
      rw [Again]
      rcases hconv : L.mbrtowc mbs (b :: rest) with ⟨_ | _ | _, mbs'⟩
      · rw [pieces_wide hconv, List.map_cons] at h
        rename_i wc cnt
        obtain ⟨hk, htail⟩ := List.cons.inj h
        have hone : taken cnt (b :: rest).length = 1 := by
          -- a round that took more would leave too few bytes for the other chars
          have hpos := taken_pos cnt b rest
          have hmost := taken_le cnt b rest
          have hlen := congrArg List.length htail
          have hle := length_pieces_le fuel mbs' ((b :: rest).drop (taken cnt (b :: rest).length))
          rw [List.length_map, List.length_map] at hlen
          rw [List.length_drop, hlen] at hle
          have hcons : (b :: rest).length = rest.length + 1 := rfl
          omega
        rw [hone] at htail
        exact ⟨from_u32_eq_kept.mp hk, hone, ih hfuel htail⟩
      · rw [pieces_incomplete hconv, List.map_cons] at h
        exact ih hfuel (List.cons.inj h).2
      · rw [pieces_invalid hconv, List.map_cons] at h
        exact ih hfuel (List.cons.inj h).2

theorem kept_of_chars {line : Line} {fuel : Nat} (hfuel : (bytes line).length ≤ fuel)
    (h : chars L fuel (bytes line) = line) : Kept L line := by
  induction line generalizing fuel with
  | nil => trivial
  | cons ch line ih =>
      have hpos := List.length_pos_of_ne_nil (char_bytes_ne_nil ch)
      rw [bytes_cons, List.length_append] at hfuel
      obtain ⟨fuel, rfl⟩ : ∃ n, fuel = n + 1 := ⟨fuel - 1, by omega⟩
      rw [Kept]
      by_cases htest : ZSH_INVALID_WCHAR_TEST ch.toNat = true
      · obtain ⟨b, rfl⟩ := exists_invalid_wchar htest
        rw [char_bytes_invalid, List.length_singleton] at hfuel
        rw [if_pos htest, bytes_kept]
        rw [bytes_kept, chars] at h
        rcases hconv : L.mbrtowc L.zero (b :: bytes line) with ⟨_ | _ | _, mbs⟩
        · rw [pieces_wide hconv, List.map_cons] at h
          obtain ⟨hk, htail⟩ := List.cons.inj h
          obtain ⟨y, z, line', rfl, rfl, hdrop⟩ := wide_kept hconv hk
          rw [hdrop] at htail
          rw [bytes_kept, bytes_kept, List.length_cons, List.length_cons] at hfuel
          exact not_shifted [y, z] (List.cons_ne_nil _ _) line' (by omega) htail
        · rw [pieces_incomplete hconv, List.map_cons] at h
          have hline := kept_of_continuations (L.incomplete hconv) rfl
          have hlen : (bytes line).length ≤ fuel := by omega
          apply again_of_pieces hlen
          rw [(List.cons.inj h).2]
          exact hline
        · rw [pieces_invalid hconv, L.invalid hconv, List.map_cons] at h
          exact ih (by omega) (List.cons.inj h).2
      · rw [if_neg htest]
        rw [char_bytes_plain htest] at hfuel hpos
        rw [bytes_cons, char_bytes_plain htest, chars, pieces_char, List.map_cons] at h
        exact ih (by omega) (List.cons.inj h).2

theorem not_meta {b : UInt8} (h : ¬ imeta b = true) : b ≠ Meta := by
  rintro rfl
  exact h (by decide)

theorem unmetafy_plain {b : UInt8} (h : b ≠ Meta) (rest : Bytes) :
    unmetafy (b :: rest) = b :: unmetafy rest := by
  cases rest with
  | nil => rfl
  | cons n rest => rw [unmetafy, if_neg h]

theorem unmetafy_metafy (s : Bytes) : unmetafy (metafy s) = s := by
  induction s with
  | nil => rfl
  | cons b s ih =>
      have hcons : metafy (b :: s) = pushByte b ++ metafy s := rfl
      rw [hcons, pushByte]
      by_cases hb : imeta b = true
      · rw [if_pos hb]
        show unmetafy (Meta :: (b ^^^ 0x20) :: metafy s) = b :: s
        rw [unmetafy, if_pos rfl, ih, UInt8.xor_assoc, UInt8.xor_self, UInt8.xor_zero]
      · rw [if_neg hb]
        show unmetafy (b :: metafy s) = b :: s
        rw [unmetafy_plain (not_meta hb), ih]

theorem cursor_loop_plain (cspos inptr : Nat) {b : UInt8} (h : b ≠ Meta) (rest : Bytes) (incs : Int) :
    cursor_loop cspos inptr (b :: rest) incs = cursor_loop cspos (inptr + 1) rest incs := by
  cases rest with
  | nil => exact if_neg fun hm => h hm.1
  | cons n rest => exact if_neg h

/-- Every escape before the cursor counts. -/
theorem cursor_loop_before {cspos inptr : Nat} {s : Bytes} (h : inptr + (metafy s).length ≤ cspos)
    (rest : Bytes) {incs : Int} (hlow : -2 ^ 31 ≤ incs - s.countP imeta) (hhigh : incs < 2 ^ 31) :
    cursor_loop cspos inptr (metafy s ++ rest) incs =
      cursor_loop cspos (inptr + (metafy s).length) rest (incs - s.countP imeta) := by
  induction s generalizing inptr incs with
  | nil =>
      rw [List.countP_nil, Int.natCast_zero, Int.sub_zero]
      rfl
  | cons b s ih =>
      have hcons : metafy (b :: s) = pushByte b ++ metafy s := rfl
      rw [hcons, List.length_append] at h ⊢
      rw [List.append_assoc]
      rw [List.countP_cons] at hlow ⊢
      by_cases hb : imeta b = true
      · have hpush : pushByte b = [Meta, b ^^^ 0x20] := if_pos hb
        have hlen : (pushByte b).length = 2 := by
          rw [hpush]
          rfl
        rw [if_pos hb] at hlow ⊢
        rw [hlen] at h ⊢
        have hstep : as_i32 (incs - 1) = incs - 1 := as_i32_of_lt (by omega) (by omega)
        rw [hpush]
        show cursor_loop cspos inptr (Meta :: (b ^^^ 0x20) :: (metafy s ++ rest)) incs = _
        rw [cursor_loop, if_pos rfl, if_pos (by omega), hstep, ih (by omega) (by omega) (by omega)]
        congr 1 <;> omega
      · have hpush : pushByte b = [b] := if_neg hb
        have hlen : (pushByte b).length = 1 := by
          rw [hpush]
          rfl
        rw [if_neg hb] at hlow ⊢
        rw [hlen] at h ⊢
        rw [hpush]
        show cursor_loop cspos inptr (b :: (metafy s ++ rest)) incs = _
        rw [cursor_loop_plain cspos inptr (not_meta hb), ih (by omega) (by omega) hhigh]
        congr 1
        omega

/-- From the cursor on none does. -/
theorem cursor_loop_after {cspos inptr : Nat} (h : cspos ≤ inptr) (s : Bytes) (incs : Int) :
    cursor_loop cspos inptr s incs = incs := by
  fun_induction cursor_loop cspos inptr s incs with
  | case1 => rfl
  | case2 inptr b incs hm => exact absurd hm.2 (Nat.not_lt.mpr h)
  | case3 => rfl
  | case4 inptr n rest incs ih =>
      rw [ih (by omega)]
      exact if_neg (Nat.not_lt.mpr h)
  | case5 inptr b n rest incs hb ih => exact ih (by omega)

theorem fold_line (want_outcs : Bool) (incs : Int) (ps : List (Char × Nat)) (p : Nat × Decoded) :
    (ps.foldl (decode_step want_outcs incs) p).2.line = p.2.line ++ ps.map Prod.fst := by
  induction ps generalizing p with
  | nil => exact (List.append_nil _).symm
  | cons piece ps ih =>
      rw [List.foldl_cons, ih]
      exact List.append_assoc _ _ _

/-- The pieces of a line that keeps its bytes. -/
def whole (line : Line) : List (Char × Nat) := line.map fun ch => (ch, (char_bytes ch).length)

theorem length_bytes_cons (ch : Char) (line : Line) :
    (bytes (ch :: line)).length = (char_bytes ch).length + (bytes line).length := List.length_append

theorem whole_cons (ch : Char) (line : Line) :
    whole (ch :: line) = (ch, (char_bytes ch).length) :: whole line := rfl

/-- One round, with the cursor that it leaves. -/
theorem decode_step_eq (incs : Int) (i n : Nat) (d : Decoded) (ch : Char) :
    decode_step true incs (i, d) (ch, n) =
      (i + n, ⟨d.line ++ [ch], if as_i32 i ≤ incs ∧ incs < as_i32 (i + n : Nat) then
        some (as_i32 d.line.length) else d.outcs⟩) := by
  simp only [decode_step, true_and]

/-- Behind the cursor it is set no more. -/
theorem fold_past (line : Line) {incs : Int} {i : Nat} (d : Decoded) (h : incs < i)
    (hsize : i + (bytes line).length < 2 ^ 31) :
    ((whole line).foldl (decode_step true incs) (i, d)).2.outcs = d.outcs := by
  induction line generalizing i d with
  | nil => rfl
  | cons ch line ih =>
      rw [length_bytes_cons] at hsize
      have hidx : as_i32 (i : Int) = i := as_i32_of_lt (by omega) (by omega)
      have hout : ¬ (as_i32 (i : Int) ≤ incs ∧ incs < as_i32 (i + (char_bytes ch).length : Nat)) := by
        rintro ⟨hle, _⟩
        rw [hidx] at hle
        omega
      rw [whole_cons, List.foldl_cons, decode_step_eq, if_neg hout]
      exact ih _ (by omega) (by omega)

/-- The cursor is set at the char that it stands on. -/
theorem fold_cursor (line : Line) {cs i : Nat} (d : Decoded) (hcs : cs ≤ line.length)
    (hsize : i + (bytes line).length < 2 ^ 31) (hline : d.line.length + line.length < 2 ^ 31) {incs : Int}
    (hincs : incs = (i + (bytes (line.take cs)).length : Nat)) :
    ((whole line).foldl (decode_step true incs) (i, d)).2.outcs =
      if cs < line.length then some ((d.line.length + cs : Nat) : Int) else d.outcs := by
  induction line generalizing cs i d with
  | nil => exact (if_neg (Nat.not_lt_zero cs)).symm
  | cons ch line ih =>
      have hpos := List.length_pos_of_ne_nil (char_bytes_ne_nil ch)
      rw [length_bytes_cons] at hsize
      rw [List.length_cons] at hline
      have hidx : as_i32 (i : Int) = i := as_i32_of_lt (by omega) (by omega)
      have hnext : as_i32 ((i + (char_bytes ch).length : Nat) : Int) = (i + (char_bytes ch).length : Nat) :=
        as_i32_of_lt (by omega) (by omega)
      have hlen : (d.line ++ [ch]).length = d.line.length + 1 := List.length_append
      rw [whole_cons, List.foldl_cons, decode_step_eq, hidx, hnext]
      cases cs with
      | zero =>
          have hincs : incs = i := hincs
          rw [if_pos (by omega), if_pos (by rw [List.length_cons]; omega), as_i32_of_lt (by omega) (by omega)]
          exact fold_past line _ (by omega) (by omega)
      | succ cs =>
          rw [List.take_succ_cons, length_bytes_cons, ← Nat.add_assoc] at hincs
          rw [if_neg (by omega)]
          refine (ih _ (Nat.le_of_succ_le_succ hcs) (by omega) (by dsimp only; omega) hincs).trans ?_
          rw [List.length_cons]
          by_cases hlt : cs < line.length
          · rw [if_pos hlt, if_pos (by omega), hlen, Nat.add_assoc, Nat.add_comm 1]
          · rw [if_neg hlt, if_neg (by omega)]

theorem map_fst_whole (line : Line) : (whole line).map Prod.fst = line := by
  rw [whole, List.map_map]
  exact List.map_id line

/-- The decoded line, whatever the cursor. -/
theorem stringaszleline_line (line : Line) (incs : Int) (want_outcs : Bool) :
    (stringaszleline L (metafy (bytes line)) incs want_outcs).line =
      chars L (bytes line).length (bytes line) := by
  simp only [stringaszleline, unmetafy_metafy, decode_loop_eq]
  rw [fold_line]
  rfl

/-- The raw cursor that the first loop finds. -/
theorem cursor_found {line : Line} {cs : Nat} (hsize : (metafy (bytes line)).length < 2 ^ 31) :
    cursor_loop (metafy (bytes (line.take cs))).length 0 (metafy (bytes line))
      (metafy (bytes (line.take cs))).length = (bytes (line.take cs)).length := by
  have hsplit := congrArg (fun s => (metafy s).length) (bytes_take_drop line cs)
  rw [metafy_append, List.length_append] at hsplit
  have hlen := length_metafy (bytes (line.take cs))
  rw [bytes_take_drop line cs, metafy_append, cursor_loop_before (by omega) _ (by omega) (by omega),
    cursor_loop_after (by omega)]
  omega

theorem stringaszleline_outcs {line : Line} {cs : Nat} (hcs : cs ≤ line.length) (hkept : Kept L line)
    (hsize : (metafy (bytes line)).length < 2 ^ 31) :
    (stringaszleline L (metafy (bytes line)) (metafy (bytes (line.take cs))).length true).outcs = cs := by
  have hlen := length_le_bytes line
  have hraw := length_metafy (bytes line)
  have hmin : min (metafy (bytes (line.take cs))).length (metafy (bytes line)).length =
      (metafy (bytes (line.take cs))).length := by
    have hsplit := congrArg (fun s => (metafy s).length) (bytes_take_drop line cs)
    rw [metafy_append, List.length_append] at hsplit
    omega
  have hneg : ¬ (((metafy (bytes (line.take cs))).length : Nat) : Int) < 0 :=
    Int.not_lt.mpr (Int.natCast_nonneg _)
  simp only [stringaszleline, if_true, if_neg hneg, Int.toNat_natCast, hmin, cursor_found hsize,
    unmetafy_metafy, decode_loop_eq, pieces_kept hkept (Nat.le_refl _)]
  have hcursor : ((whole line).foldl (decode_step true (bytes (line.take cs)).length)
      (0, ⟨[], none⟩)).2.outcs =
      if cs < line.length then some ((List.length ([] : Line) + cs : Nat) : Int) else none := by
    apply fold_cursor line ⟨[], none⟩ hcs
    · omega
    · dsimp only [List.length_nil]
      omega
    · rw [Nat.zero_add]
  have hline : ((whole line).foldl (decode_step true (bytes (line.take cs)).length)
      (0, ⟨[], none⟩)).2.line = line := by
    rw [fold_line, map_fst_whole]
    rfl
  rw [← whole, hline, hcursor]
  by_cases hlt : cs < line.length
  · rw [if_pos hlt, Option.getD_some, List.length_nil, Nat.zero_add]
  · have heq : cs = line.length := by omega
    rw [if_neg hlt, Option.getD_none, heq]
    exact as_i32_of_lt (by omega) (by omega)

theorem stringaszleline_outll (instr : Bytes) (incs : Int) (want_outcs : Bool) :
    (stringaszleline L instr incs want_outcs).outll =
      as_i32 (stringaszleline L instr incs want_outcs).line.length := by
  simp only [stringaszleline]

/-- What the trip to the text and back should do with a line and its cursor. -/
structure Survives (L : Locale) (line : Line) (cs : Nat) : Prop where
  text : (zlelineasstring line line.length cs true).s = metafy (bytes line)
  length : (zlelineasstring line line.length cs true).outll = (metafy (bytes line)).length
  cursor : (zlelineasstring line line.length cs true).outcs = (metafy (bytes (line.take cs))).length
  line_back : (stringaszleline L (zlelineasstring line line.length cs true).s
    (zlelineasstring line line.length cs true).outcs true).line = line
  length_back : (stringaszleline L (zlelineasstring line line.length cs true).s
    (zlelineasstring line line.length cs true).outcs true).outll = line.length
  cursor_back : (stringaszleline L (zlelineasstring line line.length cs true).s
    (zlelineasstring line line.length cs true).outcs true).outcs = cs

/-- The trip works where no escaped byte stands in the stretch that the moving bound adds to the cursor's side,
the kept bytes do not decode otherwise in the locale, and the sizes fit. -/
theorem line_survives_iff (L : Locale) {line : Line} {cs : Nat} (hcs : cs ≤ line.length) :
    Survives L line cs ↔
      ClearAfter line cs ∧ Kept L line ∧ (metafy (bytes line)).length < 2 ^ 31 := by
  constructor
  · intro h
    have hsize : (metafy (bytes line)).length < 2 ^ 31 := by
      have hlen := h.length
      have hlt := as_i32_lt (metafy (bytes line)).length
      rw [zlelineasstring_outll] at hlen
      omega
    refine ⟨(outcs_iff hcs hsize).mp h.cursor, ?_, hsize⟩
    have hback := h.line_back
    rw [h.text, stringaszleline_line] at hback
    exact kept_of_chars (Nat.le_refl _) hback
  · rintro ⟨hclear, hkept, hsize⟩
    have htext := zlelineasstring_s line cs
    have hcursor := (outcs_iff hcs hsize).mpr hclear
    have hlen := length_le_bytes line
    have hraw := length_metafy (bytes line)
    have hback : ∀ incs, (stringaszleline L (metafy (bytes line)) incs true).line = line := by
      intro incs
      rw [stringaszleline_line, chars, pieces_kept hkept (Nat.le_refl _)]
      exact map_fst_whole line
    refine ⟨htext, ?_, hcursor, ?_, ?_, ?_⟩
    · rw [zlelineasstring_outll]
      exact as_i32_of_lt (by omega) (by omega)
    · rw [htext]
      exact hback _
    · rw [htext, stringaszleline_outll, hback]
      exact as_i32_of_lt (by omega) (by omega)
    · rw [htext, hcursor]
      exact stringaszleline_outcs hcs hkept hsize

/-- A locale that takes the chars of Unicode alone; its state holds the bytes of an incomplete char. -/
def utf8 : Locale where
  State := Bytes
  zero := []
  mbrtowc mbs s :=
    match Utf8.look (mbs ++ s) with
    | .char ch len => (.wide ch.toNat (if ch = '\x00' then 0 else len - mbs.length), [])
    | .invalid _ => (.invalid, mbs)
    | .incomplete => (.incomplete, mbs ++ s)
  char ch rest := by
    rw [List.nil_append, Utf8.look_encode]
    rfl
  encoded {s ch cnt mbs} h := by
    rw [List.nil_append] at h
    cases hlook : Utf8.look s with
    | char c len =>
        rw [hlook] at h
        obtain ⟨rest, rfl, _⟩ := Utf8.look_eq_char hlook
        have hch : c.toNat = ch.toNat := (Conversion.wide.inj (Prod.mk.inj h).1).1
        rw [← Char.ofNat_toNat ch, ← hch, Char.ofNat_toNat]
        exact ⟨rest, rfl⟩
    | invalid len =>
        rw [hlook] at h
        cases h
    | incomplete =>
        rw [hlook] at h
        cases h
  invalid {s mbs} h := by
    rw [List.nil_append] at h
    cases hlook : Utf8.look s with
    | char c len =>
        rw [hlook] at h
        cases h
    | invalid len =>
        rw [hlook] at h
        exact (Prod.mk.inj h).2.symm
    | incomplete =>
        rw [hlook] at h
        cases h
  incomplete {b rest mbs} h := by
    rw [List.nil_append] at h
    apply Utf8.continuations_of_incomplete
    cases hlook : Utf8.look (b :: rest) with
    | char c len =>
        rw [hlook] at h
        cases h
    | invalid len =>
        rw [hlook] at h
        cases h
    | incomplete => rfl

/-- A byte kept between two chars survives, and so do two of four bytes at the end. -/
def bell : Line := ['à', invalid_wchar 0xff, 'b', invalid_wchar 0xf0, invalid_wchar 0x9f]

theorem bell_survives : Survives utf8 bell 2 := by
  refine (line_survives_iff utf8 (by decide)).mpr ⟨?_, ?_, by decide⟩
  · intro b hb
    have hclear : ((bytes (bell.drop 2)).take ((bytes (bell.take 2)).countP imeta)).all (fun b => !imeta b) =
        true := by decide
    exact Bool.not_eq_true' _ ▸ List.all_eq_true.mp hclear b hb
  · have hinvalid : utf8.mbrtowc utf8.zero (bytes [invalid_wchar 0xff, 'b', invalid_wchar 0xf0,
        invalid_wchar 0x9f]) = (.invalid, utf8.zero) := rfl
    have hlead : utf8.mbrtowc utf8.zero (bytes [invalid_wchar 0xf0, invalid_wchar 0x9f]) =
        (.incomplete, ([0xf0, 0x9f] : Bytes)) := rfl
    have hagain : Again utf8 ([0xf0, 0x9f] : Bytes) (bytes [invalid_wchar 0x9f]) := trivial
    rw [bell, Kept, if_neg (by decide), Kept, if_pos (by decide), hinvalid, Kept, if_neg (by decide), Kept,
      if_pos (by decide), hlead]
    exact hagain

def graves : Line := ['à', 'à', 'à']

/-- The escape behind the cursor moves it. -/
theorem graves_cursor_moved :
    (zlelineasstring graves 3 2 true).outcs = 7 ∧ (metafy (bytes (graves.take 2))).length = 6 ∧
      ¬ Survives utf8 graves 2 := by
  have hmoved : (zlelineasstring graves 3 2 true).outcs = 7 := by decide
  have hright : (metafy (bytes (graves.take 2))).length = 6 := by decide
  refine ⟨hmoved, hright, ?_⟩
  intro h
  have hcursor : (zlelineasstring graves 3 2 true).outcs = (metafy (bytes (graves.take 2))).length := h.cursor
  rw [hmoved, hright] at hcursor
  exact absurd hcursor (by decide)

end Zshrs.Zle
