import Mathlib.Data.List.Basic
import Mathlib.Data.List.TakeDrop

namespace Zshrs.Parse.Wordcode

abbrev wordcode := UInt32

abbrev Str := List Char

section Wordcodes

def WC_CODEBITS : wordcode := 5

def wc_code (c : wordcode) : wordcode := c &&& ((1 <<< WC_CODEBITS) - 1)
def wc_data (c : wordcode) : wordcode := c >>> WC_CODEBITS
def wc_bdata (d : wordcode) : wordcode := d <<< WC_CODEBITS
def wc_bld (c d : wordcode) : wordcode := c ||| (d <<< WC_CODEBITS)

def WC_LIST : wordcode := 1
def WC_SUBLIST : wordcode := 2
def WC_PIPE : wordcode := 3
def WC_REDIR : wordcode := 4
def WC_ASSIGN : wordcode := 5
def WC_SIMPLE : wordcode := 6
def WC_TYPESET : wordcode := 7
def WC_SUBSH : wordcode := 8
def WC_CURSH : wordcode := 9
def WC_TIMED : wordcode := 10
def WC_FUNCDEF : wordcode := 11
def WC_FOR : wordcode := 12
def WC_SELECT : wordcode := 13
def WC_WHILE : wordcode := 14
def WC_REPEAT : wordcode := 15
def WC_CASE : wordcode := 16
def WC_IF : wordcode := 17
def WC_COND : wordcode := 18
def WC_ARITH : wordcode := 19
def WC_TRY : wordcode := 21

def Z_SYNC : wordcode := 2
def Z_ASYNC : wordcode := 4
def Z_DISOWN : wordcode := 8
def Z_END : wordcode := 16
def Z_SIMPLE : wordcode := 32

def WC_SUBLIST_END : wordcode := 0
def WC_SUBLIST_AND : wordcode := 1
def WC_SUBLIST_OR : wordcode := 2
def WC_SUBLIST_COPROC : wordcode := 4
def WC_SUBLIST_NOT : wordcode := 8
def WC_SUBLIST_SIMPLE : wordcode := 16

def WC_PIPE_END : wordcode := 0
def WC_PIPE_MID : wordcode := 1

def WC_ASSIGN_SCALAR : wordcode := 0
def WC_ASSIGN_ARRAY : wordcode := 1
def WC_ASSIGN_NEW : wordcode := 0
def WC_ASSIGN_INC : wordcode := 1

def WCB_END : wordcode := wc_bld 0 0
def WCB_LIST (t o : wordcode) : wordcode := wc_bld WC_LIST (t ||| (o <<< 6))
def WC_SUBLIST_TYPE (c : wordcode) : wordcode := wc_data c &&& 3
def WC_SUBLIST_FLAGS (c : wordcode) : wordcode := wc_data c &&& 0x1c
def WCB_SUBLIST (t f o : wordcode) : wordcode := wc_bld WC_SUBLIST (t ||| f ||| (o <<< 5))
def WC_PIPE_LINENO (c : wordcode) : wordcode := wc_data c >>> 1
def WCB_PIPE (t l : wordcode) : wordcode := wc_bld WC_PIPE (t ||| (l <<< 1))
def WCB_ASSIGN (t a n : wordcode) : wordcode := wc_bld WC_ASSIGN (t ||| (a <<< 1) ||| (n <<< 2))
def WCB_SIMPLE (n : wordcode) : wordcode := wc_bld WC_SIMPLE n
def WCB_TYPESET (n : wordcode) : wordcode := wc_bld WC_TYPESET n
def WCB_SUBSH (o : wordcode) : wordcode := wc_bld WC_SUBSH o
def WCB_CURSH (o : wordcode) : wordcode := wc_bld WC_CURSH o
def WCB_TIMED (t : wordcode) : wordcode := wc_bld WC_TIMED t
def WCB_FUNCDEF (o : wordcode) : wordcode := wc_bld WC_FUNCDEF o
def WCB_FOR (t o : wordcode) : wordcode := wc_bld WC_FOR (t ||| (o <<< 2))
def WCB_SELECT (t o : wordcode) : wordcode := wc_bld WC_SELECT (t ||| (o <<< 1))
def WCB_WHILE (t o : wordcode) : wordcode := wc_bld WC_WHILE (t ||| (o <<< 1))
def WCB_REPEAT (o : wordcode) : wordcode := wc_bld WC_REPEAT o
def WCB_TRY (o : wordcode) : wordcode := wc_bld WC_TRY o
def WCB_CASE (t o : wordcode) : wordcode := wc_bld WC_CASE (t ||| (o <<< 3))
def WCB_IF (t o : wordcode) : wordcode := wc_bld WC_IF (t ||| (o <<< 2))
def WCB_COND (t o : wordcode) : wordcode := wc_bld WC_COND (t ||| (o <<< 7))
def WCB_ARITH : wordcode := wc_bld WC_ARITH 0

def REDIR_VARID_MASK : wordcode := 0x20
def REDIR_FROM_HEREDOC_MASK : wordcode := 0x40

def REDIR_READWRITE : wordcode := 8
def REDIR_READ : wordcode := 9
def REDIR_HEREDOC : wordcode := 10
def REDIR_HEREDOCDASH : wordcode := 11
def REDIR_HERESTR : wordcode := 12
def REDIR_MERGEIN : wordcode := 13
def REDIR_MERGEOUT : wordcode := 14

def WCB_REDIR (t : wordcode) : wordcode := wc_bld WC_REDIR t
def WC_REDIR_VARID (c : wordcode) : wordcode := wc_data c &&& REDIR_VARID_MASK
def WC_REDIR_FROM_HEREDOC (c : wordcode) : wordcode := wc_data c &&& REDIR_FROM_HEREDOC_MASK

def WC_REDIR_WORDS (c : wordcode) : Nat :=
  (if WC_REDIR_VARID c ≠ 0 then 4 else 3) + if WC_REDIR_FROM_HEREDOC c ≠ 0 then 2 else 0

end Wordcodes

/-- What a place of the buffer was made for, which no function of the parser reads: the `WC_REDIR`
word of a here-document with `n` words, one of the words reserved behind it, or anything else. -/
inductive Slot
  | plain
  | head (id n : Nat)
  | tail (id j : Nat)
  deriving DecidableEq

structure Cell where
  word : wordcode
  slot : Slot
  deriving DecidableEq

/-- One pending here-document, by the number of the redirection that it belongs to. -/
structure Heredoc where
  id : Nat
  typ : wordcode
  pc : Int
  str : Str
  deriving DecidableEq

/-- The buffer under construction with the pending here-documents. `made` counts the here-document
redirections so far, and `lost` lists those that a rollback has dropped. -/
structure Ec where
  ecbuf : List Cell
  eclen : Nat
  ecused : Nat
  hdocs : List Heredoc
  made : Nat
  lost : List Nat
  deriving DecidableEq

def zero : Cell := ⟨0, .plain⟩

/-- `Vec::resize` -/
def resize (b : List Cell) (len : Nat) : List Cell :=
  b.take len ++ List.replicate (len - b.length) zero

def EC_INIT_SIZE : Nat := 256
def EC_DOUBLE_THRESHOLD : Nat := 32768
def EC_INCREMENT : Nat := 1024

def init_parse : Ec := ⟨List.replicate EC_INIT_SIZE zero, EC_INIT_SIZE, 0, [], 0, []⟩

/-- `buf[to_ + i] = buf[at_ + i]` for the indices in turn. -/
def moves (b : List Cell) (at_ to_ : Nat) (is : List Nat) : List Cell :=
  is.foldl (fun b i => b.set (to_ + i) (b.getD (at_ + i) zero)) b

/-- `buf[p + i] = 0` for `i` up to `n`. -/
def zeroes (b : List Cell) (p n : Nat) : List Cell :=
  (List.range n).foldl (fun b i => b.set (p + i) zero) b

/-- Places that are taken into use hold the words that stand there, for nothing yet. -/
def fresh (b : List Cell) (p n : Nat) : List Cell :=
  b.mapIdx fun i c => if p ≤ i ∧ i < p + n then ⟨c.word, .plain⟩ else c

/-- The number of words of a here-document. -/
def ncodes (id : Option wordcode) : Nat := if id.isSome then 6 else 5

namespace Ec

variable (e : Ec)

/-- The words in use. -/
def live : List Cell := e.ecbuf.take e.ecused

def slots : List Slot := e.live.map Cell.slot

def adjusthere (p : Nat) (d : Int) : List Heredoc :=
  e.hdocs.map fun h => if (p : Int) ≤ h.pc then { h with pc := h.pc + d } else h

/-- The buffer is enlarged, unless there is room for `need` words. -/
def grow (need : Nat) : Ec :=
  if e.eclen - e.ecused < need then
    let a := if e.eclen < EC_DOUBLE_THRESHOLD then e.eclen else EC_INCREMENT
    let a := if need > a then need else a
    { e with ecbuf := resize e.ecbuf (e.eclen + a), eclen := e.eclen + a }
  else e

def ecispace (p n : Nat) : Ec :=
  let e := e.grow n
  let m := e.ecused - p
  let b :=
    if m > 0 then
      let b := if e.ecbuf.length < e.ecused + n then resize e.ecbuf (e.ecused + n) else e.ecbuf
      zeroes (moves b p (p + n) (List.range m).reverse) p n
    else fresh e.ecbuf p n
  { e with ecbuf := b, ecused := e.ecused + n, hdocs := e.adjusthere p n }

def ecadd (c : wordcode) : Ec :=
  let e := e.grow 1
  let b := if e.ecused ≥ e.ecbuf.length then resize e.ecbuf (e.ecused + 1) else e.ecbuf
  { e with ecbuf := b.set e.ecused ⟨c, .plain⟩, ecused := e.ecused + 1 }

def ecdel (p : Nat) : Ec :=
  let n := e.ecused - p - 1
  { e with
    ecbuf := moves e.ecbuf (p + 1) p (List.range n)
    ecused := e.ecused - 1
    hdocs := e.adjusthere p (-1) }

/-- `ecbuf[p] = c` -/
def patch (p : Nat) (c : wordcode) : Ec :=
  { e with ecbuf := e.ecbuf.modify p fun cell => { cell with word := c } }

def word (p : Nat) : wordcode := (e.ecbuf.getD p zero).word

/-- `n` words from `r` on are those of the next here-document. -/
def reserve (r n : Nat) : Ec :=
  { e with
    ecbuf := e.ecbuf.mapIdx fun i c =>
      if i = r then { c with slot := .head e.made n }
      else if r < i ∧ i < r + n then { c with slot := .tail e.made (i - r) }
      else c
    made := e.made + 1 }

/-- The words of a here-document are put into the buffer. -/
def openHeredoc (r : Nat) (htype fd1 : wordcode) (id : Option wordcode) : Ec :=
  let type := if id.isSome then htype ||| REDIR_VARID_MASK else htype
  let e := e.ecispace r (ncodes id)
  let e := (e.patch r (WCB_REDIR (type ||| REDIR_FROM_HEREDOC_MASK))).patch (r + 1) fd1
  match id with
  | some coded => e.patch (r + 5) coded
  | none => e

/-- The words of a here-document are put into the buffer, and it on the pending list. -/
def heredoc (r : Nat) (htype fd1 : wordcode) (id : Option wordcode) (str : Str) : Ec :=
  let e := e.openHeredoc r htype fd1 id
  { e.reserve r (ncodes id) with hdocs := e.hdocs ++ [⟨e.made, htype, r, str⟩] }

/-- The body of the first pending here-document is written to its words. -/
def setheredoc (doc term munged : wordcode) : Ec :=
  match e.hdocs with
  | [] => e
  | h :: rest =>
    let pc := h.pc.toNat
    let varid := if WC_REDIR_VARID (e.word pc) ≠ 0 then REDIR_VARID_MASK else 0
    let e := e.patch pc (WCB_REDIR (REDIR_HERESTR ||| REDIR_FROM_HEREDOC_MASK ||| varid))
    let e := ((e.patch (pc + 2) doc).patch (pc + 3) term).patch (pc + 4) munged
    { e with hdocs := rest }

/-- The redirections whose `WC_REDIR` word stands in a list of places. -/
def heads (l : List Slot) : List Nat :=
  l.filterMap fun
    | .head id _ => some id
    | _ => none

/-- `ecused = o` after an error. -/
def rollback (o : Nat) : Ec :=
  { e with ecused := o, lost := e.lost ++ heads (e.slots.drop o) }

/-- `ecused = o` where a word has been added for nothing. -/
def unadd (o : Nat) : Ec := { e with ecused := o }

end Ec

section Insertions

variable {α : Type} {l m : List α} {p k : Nat}

/-- A list with another one put into it. -/
def insertAt (l : List α) (p : Nat) (m : List α) : List α := l.take p ++ m ++ l.drop p

theorem getElem?_insertAt (hp : p ≤ l.length) :
    (insertAt l p m)[k]? =
      if k < p then l[k]? else if k < p + m.length then m[k - p]? else l[k - m.length]? := by
  have length : (l.take p).length = p := by
    rw [List.length_take]
    omega
  unfold insertAt
  by_cases hk : k < p
  · rw [if_pos hk, List.append_assoc, List.getElem?_append_left (by omega), List.getElem?_take_of_lt hk]
  · rw [if_neg hk]
    by_cases hm : k < p + m.length
    · rw [if_pos hm, List.getElem?_append_left (by rw [List.length_append]; omega),
        List.getElem?_append_right (by omega), length]
    · rw [if_neg hm, List.getElem?_append_right (by rw [List.length_append]; omega),
        List.getElem?_drop, List.length_append, length]
      congr 1
      omega

end Insertions

section Moves

variable {b : List Cell} {p n m k : Nat}

theorem getElem?_resize {len : Nat} (hk : k < b.length) (hlen : k < len) :
    (resize b len)[k]? = b[k]? := by
  unfold resize
  rw [List.getElem?_append_left (by rw [List.length_take]; omega), List.getElem?_take_of_lt hlen]

theorem length_resize {len : Nat} : (resize b len).length = len := by
  unfold resize
  rw [List.length_append, List.length_take, List.length_replicate]
  omega

theorem moves_cons (at_ to_ i : Nat) (is : List Nat) :
    moves b at_ to_ (i :: is) = moves (b.set (to_ + i) (b.getD (at_ + i) zero)) at_ to_ is := rfl

theorem length_moves (at_ to_ : Nat) (is : List Nat) : (moves b at_ to_ is).length = b.length := by
  induction is generalizing b with
  | nil => rfl
  | cons i is ih => rw [moves_cons, ih, List.length_set]

/-- A move up from the last word on reads each word before it is overwritten. -/
theorem getElem?_moves_up (h : p + n + m ≤ b.length) :
    (moves b p (p + n) (List.range m).reverse)[k]? =
      if p + n ≤ k ∧ k < p + n + m then b[k - n]? else b[k]? := by
  induction m generalizing b with
  | zero =>
    rw [if_neg (by omega)]
    rfl
  | succ m ih =>
    rw [List.range_succ, List.reverse_append, List.reverse_singleton, List.singleton_append,
      moves_cons, ih (by rw [List.length_set]; omega)]
    have last : b[p + m]? = some (b.getD (p + m) zero) := by
      rw [List.getD_eq_getElem?_getD, List.getElem?_eq_getElem (by omega)]
      rfl
    simp only [List.getElem?_set]
    by_cases hin : p + n ≤ k ∧ k < p + n + m
    · have hself : ¬ p + n + m = k - n := by omega
      rw [if_pos hin, if_neg hself, if_pos (by omega)]
    · rw [if_neg hin]
      by_cases hself : p + n + m = k
      · have hk : k - n = p + m := by omega
        rw [if_pos hself, if_pos (by omega), if_pos (by omega), hk, last]
      · rw [if_neg hself, if_neg (by omega)]

/-- A move down from the first word on. -/
theorem getElem?_moves_down (h : p + 1 + n ≤ b.length) :
    (moves b (p + 1) p (List.range n))[k]? = if p ≤ k ∧ k < p + n then b[k + 1]? else b[k]? := by
  induction n generalizing k with
  | zero =>
    rw [if_neg (by omega)]
    rfl
  | succ n ih =>
    have prior := @ih k (by omega)
    have split : moves b (p + 1) p (List.range (n + 1)) =
        (moves b (p + 1) p (List.range n)).set (p + n)
          ((moves b (p + 1) p (List.range n)).getD (p + 1 + n) zero) := by
      unfold moves
      rw [List.range_succ, List.foldl_append]
      rfl
    have next : (moves b (p + 1) p (List.range n)).getD (p + 1 + n) zero = b.getD (p + 1 + n) zero := by
      rw [List.getD_eq_getElem?_getD, List.getD_eq_getElem?_getD, @ih (p + 1 + n) (by omega),
        if_neg (by omega)]
    have last : b[p + 1 + n]? = some (b.getD (p + 1 + n) zero) := by
      rw [List.getD_eq_getElem?_getD, List.getElem?_eq_getElem (by omega)]
      rfl
    rw [split, next, List.getElem?_set, length_moves, prior]
    by_cases hself : p + n = k
    · have hk : k + 1 = p + 1 + n := by omega
      rw [if_pos hself, if_pos (by omega), if_pos (by omega), hk, last]
    · rw [if_neg hself]
      by_cases hin : p ≤ k ∧ k < p + n
      · rw [if_pos hin, if_pos (by omega)]
      · rw [if_neg hin, if_neg (by omega)]

theorem zeroes_succ (b : List Cell) (p n : Nat) :
    zeroes b p (n + 1) = (zeroes b p n).set (p + n) zero := by
  unfold zeroes
  rw [List.range_succ, List.foldl_append]
  rfl

theorem length_zeroes (b : List Cell) (p n : Nat) : (zeroes b p n).length = b.length := by
  induction n with
  | zero => rfl
  | succ n ih => rw [zeroes_succ, List.length_set, ih]

theorem getElem?_zeroes (h : p + n ≤ b.length) :
    (zeroes b p n)[k]? = if p ≤ k ∧ k < p + n then some zero else b[k]? := by
  induction n with
  | zero =>
    rw [if_neg (by omega)]
    rfl
  | succ n ih =>
    rw [zeroes_succ, List.getElem?_set, length_zeroes, ih (by omega)]
    by_cases hself : p + n = k
    · rw [if_pos hself, if_pos (by omega), if_pos (by omega)]
    · rw [if_neg hself]
      by_cases hin : p ≤ k ∧ k < p + n
      · rw [if_pos hin, if_pos (by omega)]
      · rw [if_neg hin, if_neg (by omega)]

end Moves

namespace Ec

/-- The buffer holds the words in use, and is as long as it is said to be. -/
structure Fits (e : Ec) : Prop where
  used : e.ecused ≤ e.eclen
  len : e.eclen ≤ e.ecbuf.length

variable {e : Ec} {p n k : Nat}

theorem length_live (h : e.Fits) : e.live.length = e.ecused := by
  have used := h.used
  have len := h.len
  unfold live
  rw [List.length_take]
  omega

theorem getElem?_live (h : k < e.ecused) : e.live[k]? = e.ecbuf[k]? :=
  List.getElem?_take_of_lt h

/-- What `grow` leaves as it is, and the room that it makes. -/
structure Grown (e e' : Ec) (need : Nat) : Prop where
  fits : e'.Fits
  live : e'.live = e.live
  used : e'.ecused = e.ecused
  room : e.ecused + need ≤ e'.eclen
  hdocs : e'.hdocs = e.hdocs
  made : e'.made = e.made
  lost : e'.lost = e.lost

theorem grow_spec (h : e.Fits) (need : Nat) : e.Grown (e.grow need) need := by
  have used := h.used
  have len := h.len
  unfold grow
  split
  · next hneed =>
    have room (a : Nat) : need ≤ if need > a then need else a := by
      split
      · exact Nat.le_refl need
      · omega
    have enough := room (if e.eclen < EC_DOUBLE_THRESHOLD then e.eclen else EC_INCREMENT)
    dsimp only
    generalize (if need > (if e.eclen < EC_DOUBLE_THRESHOLD then e.eclen else EC_INCREMENT)
        then need else if e.eclen < EC_DOUBLE_THRESHOLD then e.eclen else EC_INCREMENT) = a at enough ⊢
    constructor
    · constructor
      · change e.ecused ≤ e.eclen + a
        omega
      · exact Nat.le_of_eq length_resize.symm
    · apply List.ext_getElem?
      intro k
      unfold Ec.live
      dsimp only
      rw [List.getElem?_take, List.getElem?_take]
      split
      · rw [getElem?_resize (by omega) (by omega)]
      · rfl
    · rfl
    · change e.ecused + need ≤ e.eclen + a
      omega
    · rfl
    · rfl
    · rfl
  · next hneed => exact ⟨h, rfl, rfl, by omega, rfl, rfl, rfl⟩

/-- `ecadd` appends a word. -/
theorem ecadd_live (h : e.Fits) (c : wordcode) : (e.ecadd c).live = e.live ++ [⟨c, .plain⟩] := by
  have grown := grow_spec h 1
  unfold ecadd
  generalize e.grow 1 = e' at grown ⊢
  have used := grown.fits.used
  have len := grown.fits.len
  have room := grown.room
  have hused := grown.used
  dsimp only
  rw [← grown.live, if_neg (by omega)]
  unfold Ec.live
  dsimp only
  rw [List.take_add_one, List.getElem?_set_self (by omega), List.take_set_of_le (by omega)]
  rfl

/-- `ecispace` in front of a word inserts zeroes. -/
theorem ecispace_live (h : e.Fits) (hp : p < e.ecused) (n : Nat) :
    (e.ecispace p n).live = insertAt e.live p (List.replicate n zero) := by
  have grown := grow_spec h n
  unfold ecispace
  generalize e.grow n = e' at grown ⊢
  have used := grown.fits.used
  have len := grown.fits.len
  have room := grown.room
  have hused := grown.used
  dsimp only
  rw [← grown.live, if_pos (by omega), if_neg (by omega)]
  have moved : p + n + (e'.ecused - p) ≤ e'.ecbuf.length := by omega
  have length := length_live grown.fits
  apply List.ext_getElem?
  intro k
  rw [getElem?_insertAt (by omega), List.length_replicate]
  unfold Ec.live
  dsimp only
  rw [List.getElem?_take, getElem?_zeroes (by rw [length_moves]; omega), getElem?_moves_up moved,
    List.getElem?_take, List.getElem?_take, List.getElem?_replicate]
  by_cases hfront : k < p
  · rw [if_pos hfront, if_pos (by omega), if_neg (by omega), if_neg (by omega), if_pos (by omega)]
  · rw [if_neg hfront]
    by_cases hnew : k < p + n
    · rw [if_pos hnew, if_pos (by omega), if_pos (by omega), if_pos (by omega)]
    · rw [if_neg hnew]
      by_cases hin : k < e'.ecused + n
      · rw [if_pos hin, if_neg (by omega), if_pos (by omega), if_pos (by omega)]
      · rw [if_neg hin, if_neg (by omega)]

/-- `ecispace` behind the last word takes the words that follow into use. -/
theorem ecispace_end (h : e.Fits) (n : Nat) : ∃ stale : List Cell, stale.length = n ∧
    (∀ c ∈ stale, c.slot = .plain) ∧ (e.ecispace e.ecused n).live = e.live ++ stale := by
  have grown := grow_spec h n
  unfold ecispace
  generalize e.grow n = e' at grown ⊢
  have used := grown.fits.used
  have len := grown.fits.len
  have room := grown.room
  have hused := grown.used
  dsimp only
  rw [← grown.live, if_neg (by omega)]
  refine ⟨((fresh e'.ecbuf e.ecused n).take (e'.ecused + n)).drop e.ecused, ?_, ?_, ?_⟩
  · rw [List.length_drop, List.length_take]
    unfold fresh
    rw [List.length_mapIdx]
    omega
  · intro c hc
    obtain ⟨i, hi⟩ := List.mem_iff_getElem?.mp hc
    rw [List.getElem?_drop, List.getElem?_take] at hi
    split at hi
    · next hin =>
      unfold fresh at hi
      rw [List.getElem?_mapIdx] at hi
      obtain ⟨c', -, hc'⟩ := Option.map_eq_some_iff.mp hi
      rw [if_pos (by omega)] at hc'
      rw [← hc']
    · cases hi
  · unfold Ec.live
    dsimp only
    have front : e'.ecbuf.take e'.ecused = ((fresh e'.ecbuf e.ecused n).take (e'.ecused + n)).take
        e.ecused := by
      apply List.ext_getElem?
      intro k
      rw [List.getElem?_take, List.getElem?_take, List.getElem?_take]
      by_cases hk : k < e.ecused
      · unfold fresh
        rw [if_pos (by omega), if_pos hk, if_pos (by omega), List.getElem?_mapIdx]
        cases e'.ecbuf[k]? with
        | none => rfl
        | some c =>
          rw [Option.map_some, if_neg (by omega)]
      · rw [if_neg (by omega), if_neg hk]
    rw [front, List.take_append_drop]

/-- `ecdel` deletes a word. -/
theorem ecdel_live (h : e.Fits) (hp : p < e.ecused) : (e.ecdel p).live = e.live.eraseIdx p := by
  have used := h.used
  have len := h.len
  apply List.ext_getElem?
  intro k
  unfold ecdel Ec.live
  dsimp only
  rw [List.getElem?_take, getElem?_moves_down (by omega), List.getElem?_eraseIdx, List.getElem?_take,
    List.getElem?_take]
  by_cases hk : k < p
  · rw [if_pos hk, if_pos (by omega), if_neg (by omega), if_pos (by omega)]
  · rw [if_neg hk]
    by_cases hin : k < e.ecused - 1
    · rw [if_pos hin, if_pos (by omega), if_pos (by omega)]
    · rw [if_neg hin, if_neg (by omega)]

/-- What a step keeps of the shape of the buffer. -/
theorem fits_ecadd (h : e.Fits) (c : wordcode) : (e.ecadd c).Fits := by
  have grown := grow_spec h 1
  unfold ecadd
  generalize e.grow 1 = e' at grown ⊢
  have used := grown.fits.used
  have len := grown.fits.len
  have room := grown.room
  have hused := grown.used
  dsimp only
  rw [if_neg (by omega)]
  refine ⟨by change e'.ecused + 1 ≤ e'.eclen; omega, ?_⟩
  change e'.eclen ≤ (e'.ecbuf.set _ _).length
  rw [List.length_set]
  exact len

theorem fits_ecispace (h : e.Fits) (p n : Nat) : (e.ecispace p n).Fits := by
  have grown := grow_spec h n
  unfold ecispace
  generalize e.grow n = e' at grown ⊢
  have used := grown.fits.used
  have len := grown.fits.len
  have room := grown.room
  have hused := grown.used
  dsimp only
  refine ⟨by change e'.ecused + n ≤ e'.eclen; omega, ?_⟩
  dsimp only
  split
  · rw [if_neg (by omega), length_zeroes, length_moves]
    exact len
  · unfold fresh
    rw [List.length_mapIdx]
    exact len

theorem fits_ecdel (h : e.Fits) (p : Nat) : (e.ecdel p).Fits := by
  have used := h.used
  have len := h.len
  refine ⟨by change e.ecused - 1 ≤ e.eclen; omega, ?_⟩
  change e.eclen ≤ (moves e.ecbuf _ _ _).length
  rw [length_moves]
  exact len

end Ec

end Zshrs.Parse.Wordcode
