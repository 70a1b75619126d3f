import Mathlib.Data.List.Basic

namespace Zshrs.Lib.Pieces

variable {α : Type}

/-- `copy_from_slice` into a buffer. -/
def writeAt (buf : List α) (off : Nat) (piece : List α) : List α :=
  buf.take off ++ piece ++ buf.drop (off + piece.length)

def slice (buf : List α) (off n : Nat) : List α := (buf.drop off).take n

theorem length_writeAt {buf piece : List α} {off : Nat} (h : off + piece.length ≤ buf.length) :
    (writeAt buf off piece).length = buf.length := by
  simp only [writeAt, List.length_append, List.length_take, List.length_drop]
  omega

theorem slice_writeAt {buf piece : List α} {off : Nat} (h : off + piece.length ≤ buf.length) :
    slice (writeAt buf off piece) off piece.length = piece := by
  have hoff : (buf.take off).length = off := by
    rw [List.length_take]
    omega
  rw [slice, writeAt, List.append_assoc, List.drop_append_of_le_length (by omega),
    List.drop_of_length_le (by omega), List.nil_append, List.take_left]

theorem getElem?_writeAt {buf piece : List α} {off i : Nat} (h : off + piece.length ≤ buf.length)
    (hi : i < off ∨ off + piece.length ≤ i) : (writeAt buf off piece)[i]? = buf[i]? := by
  have hoff : (buf.take off).length = off := by
    rw [List.length_take]
    omega
  rw [writeAt, List.append_assoc]
  rcases hi with hi | hi
  · rw [List.getElem?_append_left (by omega), List.getElem?_take_of_lt hi]
  · rw [List.getElem?_append_right (by omega), List.getElem?_append_right (by omega), hoff,
      List.getElem?_drop]
    congr 1
    omega

/-- A slice apart from the piece written is the old one. -/
theorem slice_writeAt_of_apart {buf piece : List α} {off a n : Nat}
    (h : off + piece.length ≤ buf.length) (hapart : a + n ≤ off ∨ off + piece.length ≤ a) :
    slice (writeAt buf off piece) a n = slice buf a n := by
  apply List.ext_getElem?
  intro i
  simp only [slice]
  by_cases hi : i < n
  · rw [List.getElem?_take_of_lt hi, List.getElem?_take_of_lt hi, List.getElem?_drop,
      List.getElem?_drop]
    apply getElem?_writeAt h
    omega
  · rw [List.getElem?_take_eq_none (by omega), List.getElem?_take_eq_none (by omega)]

/-- Pieces with their offsets, written one after the other. -/
def writeAll (buf : List α) (pieces : List (Nat × List α)) : List α :=
  pieces.foldl (fun buf p => writeAt buf p.1 p.2) buf

def Within (n : Nat) (p : Nat × List α) : Prop := p.1 + p.2.length ≤ n

def Apart (p q : Nat × List α) : Prop := p.1 + p.2.length ≤ q.1 ∨ q.1 + q.2.length ≤ p.1

theorem Apart.symm {p q : Nat × List α} (h : Apart p q) : Apart q p := Or.symm h

theorem length_writeAll {buf : List α} {pieces : List (Nat × List α)}
    (h : ∀ p ∈ pieces, Within buf.length p) : (writeAll buf pieces).length = buf.length := by
  induction pieces generalizing buf with
  | nil => rfl
  | cons p ps ih =>
      have hlen := length_writeAt (h p List.mem_cons_self)
      rw [writeAll, List.foldl_cons, ← writeAll, ih, hlen]
      intro q hq
      rw [hlen]
      exact h q (List.mem_cons_of_mem p hq)

theorem slice_writeAll_of_apart {buf : List α} {pieces : List (Nat × List α)} {p : Nat × List α}
    (h : ∀ q ∈ pieces, Within buf.length q) (hapart : ∀ q ∈ pieces, Apart p q) :
    slice (writeAll buf pieces) p.1 p.2.length = slice buf p.1 p.2.length := by
  induction pieces generalizing buf with
  | nil => rfl
  | cons q qs ih =>
      have hq := h q List.mem_cons_self
      rw [writeAll, List.foldl_cons, ← writeAll, ih]
      · exact slice_writeAt_of_apart hq (hapart q List.mem_cons_self)
      · intro r hr
        rw [length_writeAt hq]
        exact h r (List.mem_cons_of_mem q hr)
      · intro r hr
        exact hapart r (List.mem_cons_of_mem q hr)

/-- Pieces apart from each other are all read back, in whatever order they were written. -/
theorem slice_writeAll {buf : List α} {pieces : List (Nat × List α)} {p : Nat × List α}
    (h : ∀ q ∈ pieces, Within buf.length q) (hapart : pieces.Pairwise Apart) (hp : p ∈ pieces) :
    slice (writeAll buf pieces) p.1 p.2.length = p.2 := by
  induction pieces generalizing buf with
  | nil => cases hp
  | cons q qs ih =>
      have hq := h q List.mem_cons_self
      have hqs : ∀ r ∈ qs, Within (writeAt buf q.1 q.2).length r := by
        intro r hr
        rw [length_writeAt hq]
        exact h r (List.mem_cons_of_mem q hr)
      obtain ⟨hhead, htail⟩ := List.pairwise_cons.mp hapart
      rw [writeAll, List.foldl_cons, ← writeAll]
      rcases List.mem_cons.mp hp with rfl | hp
      · rw [slice_writeAll_of_apart hqs hhead]
        exact slice_writeAt hq
      · exact ih hqs htail hp

end Zshrs.Lib.Pieces
