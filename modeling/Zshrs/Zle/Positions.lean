import Zshrs.Zle.Undo

namespace Zshrs.Zle

def ZRH_PREDISPLAY : Nat := 1

/-- What the shifts read of a region highlight. -/
structure RegionHighlight where
  start : Int
  end_ : Int
  flags : Nat
  deriving DecidableEq

structure Cutbuffer where
  buf : Line
  len : Nat
  flags : Nat
  deriving DecidableEq

/-- The editor with the positions in its line. -/
structure ZleState extends Editor where
  mark : Nat
  region_highlights : List RegionHighlight
  predisplay : Line
  viinsbegin : Nat
  region_active : Nat
  zlemetaline : Option Bytes
  zlemetall : Int
  zlemetacs : Int
  vibuf : List Cutbuffer
  deriving DecidableEq

/-- `Vec::insert`, which panics past the end. -/
def vec_insert (line : Line) (i : Nat) (c : Char) : Option Line :=
  if i ≤ line.length then some (line.insertIdx i c) else none

/-- `Vec::remove`, which panics at the end. -/
def vec_remove (line : Line) (i : Nat) : Option Line :=
  if i < line.length then some (line.eraseIdx i) else none

/-- An index by a range, which panics out of bounds. -/
def vec_slice (line : Line) (start end_ : Nat) : Option Line :=
  if start ≤ end_ ∧ end_ ≤ line.length then some ((line.take end_).drop start) else none

/-- Where the offsets of a highlight are measured from. -/
def RegionHighlight.sub (rhp : RegionHighlight) (predisplaylen : Nat) : Int :=
  if rhp.flags &&& ZRH_PREDISPLAY ≠ 0 then predisplaylen else 0

def insert_nuls (zlecs : Nat) : Nat → Line → Option Line
  | 0, line => some line
  | n + 1, line => (vec_insert line zlecs '\x00').bind (insert_nuls zlecs n)

/-- What `spaceinline` does to a highlight. -/
def RegionHighlight.space (predisplaylen zlecs : Nat) (ct : Int) (rhp : RegionHighlight) : RegionHighlight :=
  let sub := rhp.sub predisplaylen
  { rhp with
    start := if zlecs ≤ rhp.start - sub then as_i32 (rhp.start + ct) else rhp.start
    end_ :=
      if zlecs ≤ rhp.end_ - sub ∧ (predisplaylen = 0 ∨ zlecs ≠ 0) then as_i32 (rhp.end_ + ct)
      else rhp.end_ }

def is_char_boundary (s : Bytes) (i : Nat) : Bool :=
  i = s.length || s[i]?.any fun b => i = 0 || b < 0x80 || 0xC0 ≤ b

/-- The branch of `spaceinline` for a metafied line. -/
def spaceinline_meta (line : Bytes) (ct : Int) (s : ZleState) : ZleState :=
  let cs := min (max s.zlemetacs 0).toNat line.length
  let g := line.take cs ++ List.replicate ct.toNat 0 ++ line.drop cs
  let t := if is_char_boundary line cs then { s with zlemetaline := some g, zlemetall := as_i32 g.length } else s
  let mark_cur := as_i32 s.mark
  let mark := if s.zlemetacs < mark_cur then as_usize (as_i32 (mark_cur + ct)) else s.mark
  { t with mark, region_active := 0 }

/-- The metafied line, while it is the one that is edited. -/
def metaline (s : ZleState) : Option Bytes := if 0 < s.zlemetall then s.zlemetaline else none

def spaceinline (ct : Int) (s : ZleState) : Option ZleState :=
  if ct ≤ 0 then some s
  else
    match metaline s with
    | some line => some (spaceinline_meta line ct s)
    | none => do
      let zleline ← insert_nuls s.zlecs ct.toNat s.zleline
      let mark_cur := as_i32 s.mark
      let cs := as_i32 s.zlecs
      some
        { s with
          zleline
          zlell := zleline.length
          mark := if cs < mark_cur then as_usize (as_i32 (mark_cur + ct)) else s.mark
          viinsbegin := if s.zlecs < s.viinsbegin then 0 else s.viinsbegin
          region_highlights := s.region_highlights.map (·.space s.predisplay.length s.zlecs ct)
          region_active := 0 }

/-- What `shiftchars` does to an offset. -/
def shift_offset (to_ cnt sub offset : Int) : Int :=
  if to_ < offset - sub then
    if to_ + cnt < offset - sub then as_i32 (offset - cnt) else as_i32 (to_ + sub)
  else offset

def RegionHighlight.shift (predisplaylen : Nat) (to_ cnt : Int) (rhp : RegionHighlight) : RegionHighlight :=
  { rhp with
    start := shift_offset to_ cnt (rhp.sub predisplaylen) rhp.start
    end_ := shift_offset to_ cnt (rhp.sub predisplaylen) rhp.end_ }

/-- `shiftchars`, whose callers pass counts that are not negative. -/
def shiftchars (to_ cnt : Int) (s : ZleState) : ZleState :=
  let mark_cur := as_i32 s.mark
  let mark :=
    if as_i32 (to_ + cnt) ≤ mark_cur then as_usize (max (as_i32 (mark_cur - cnt)) 0)
    else if to_ < mark_cur then as_usize (max to_ 0)
    else s.mark
  let region_highlights := s.region_highlights.map (·.shift s.predisplay.length to_ cnt)
  let start := as_usize to_
  let line :=
    if s.zleline.length ≤ start then s.zleline
    else if s.zleline.length ≤ start + as_usize cnt then s.zleline.take start
    else s.zleline.take start ++ s.zleline.drop (start + as_usize cnt)
  { s with mark, region_highlights, zleline := line, zlell := line.length, region_active := 0 }

def insert_chars : List Char → ZleState → Option ZleState
  | [], s => some s
  | c :: chars, s => do
    let zleline ← vec_insert s.zleline s.zlecs c
    insert_chars chars { s with zleline, zlecs := s.zlecs + 1, zlell := s.zlell + 1 }

def insert_str (text : List Char) (s : ZleState) : Option ZleState := insert_chars text s

def delete_loop : Nat → ZleState → Option ZleState
  | 0, s => some s
  | n + 1, s =>
    if s.zlecs < s.zlell then do
      let zleline ← vec_remove s.zleline s.zlecs
      delete_loop n { s with zleline, zlell := s.zlell - 1 }
    else delete_loop n s

def delete_chars (n : Nat) (s : ZleState) : Option ZleState := delete_loop (min n (s.zlell - s.zlecs)) s

def backspace_loop : Nat → ZleState → Option ZleState
  | 0, s => some s
  | n + 1, s =>
    if 0 < s.zlecs then do
      let zleline ← vec_remove s.zleline (s.zlecs - 1)
      backspace_loop n { s with zleline, zlecs := s.zlecs - 1, zlell := s.zlell - 1 }
    else backspace_loop n s

def backspace_chars (n : Nat) (s : ZleState) : Option ZleState := backspace_loop (min n s.zlecs) s

def set_line_keep_cursor (text : List Char) (s : ZleState) : ZleState :=
  { s with zleline := text, zlell := text.length, zlecs := min s.zlecs text.length }

def clear_line (s : ZleState) : ZleState := { s with zleline := [], zlell := 0, zlecs := 0, mark := 0 }

/-- The region between point and mark. -/
def region (s : ZleState) : Option Line :=
  if s.zlecs < s.mark then vec_slice s.zleline s.zlecs s.mark else vec_slice s.zleline s.mark s.zlecs

def get_region (s : ZleState) : Option Line := region s

def cut_to_buffer (buf : Nat) (append : Bool) (s : ZleState) : Option ZleState :=
  match s.vibuf[buf]? with
  | none => some s
  | some slot => do
    let text ← region s
    let slot := if append then { slot with buf := slot.buf ++ text } else { slot with buf := text, flags := 0 }
    some { s with vibuf := s.vibuf.set buf { slot with len := slot.buf.length } }

/-- An operation on the line and its history, which leaves the other positions. -/
def on_editor (f : Editor → Editor) (s : ZleState) : ZleState := { s with toEditor := f s.toEditor }

end Zshrs.Zle
