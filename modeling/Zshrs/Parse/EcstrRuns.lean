import Zshrs.Parse.EcstrWords
import Mathlib.Logic.Function.Basic
import Zshrs.Lib.Runs

namespace Zshrs.Parse.Ecstr

open Lib.Runs Lib.Pieces
open scoped List

/-- What an entry writes into the pool. -/
def Entry.piece (e : Entry) : Nat × List UInt8 := (e.aoffs, e.str ++ [0])

theorem Entry.cmp_eq_zero {p : Entry} {nfunc : Nat} {val : UInt32} {bytes : List UInt8}
    (h : p.cmp nfunc val bytes = 0) : p.nfunc = nfunc ∧ p.str = bytes := by
  unfold Entry.cmp at h
  by_cases hfunc : (p.nfunc : Int) - nfunc = 0
  · by_cases hval : (p.hashval - val).toInt32.toInt = 0
    · by_cases hlt : p.str < bytes
      · simp only [hfunc, hval, hlt, ne_eq, not_true, if_false, if_true] at h
        cases h
      · by_cases hstr : p.str = bytes
        · exact ⟨by omega, hstr⟩
        · simp only [hfunc, hval, hlt, hstr, ne_eq, not_true, if_false] at h
          cases h
    · simp only [hfunc, ne_eq, not_true, if_false, hval, not_false_eq_true, if_true] at h
  · simp only [hfunc, ne_eq, not_false_eq_true, if_true] at h

namespace Tree

/-- The entries, in the order in which `copy_ecstr` meets them. -/
def entries : Tree → List Entry
  | nil => []
  | node left p right => p :: (left.entries ++ right.entries)

theorem entries_insert (new : Entry) (t : Tree) : (t.insert new).entries ~ new :: t.entries := by
  induction t with
  | nil => exact List.Perm.refl _
  | node left p right ihl ihr =>
      simp only [insert]
      split
      next =>
        simp only [entries]
        calc p :: (left.entries ++ (right.insert new).entries)
          _ ~ p :: (left.entries ++ new :: right.entries) := (List.Perm.append_left _ ihr).cons p
          _ ~ p :: new :: (left.entries ++ right.entries) := List.perm_middle.cons p
          _ ~ new :: p :: (left.entries ++ right.entries) := List.Perm.swap _ _ _
      next =>
        simp only [entries]
        calc p :: ((left.insert new).entries ++ right.entries)
          _ ~ p :: new :: (left.entries ++ right.entries) := (List.Perm.append_right _ ihl).cons p
          _ ~ new :: p :: (left.entries ++ right.entries) := List.Perm.swap _ _ _

theorem mem_entries_insert {new e : Entry} {t : Tree} :
    e ∈ (t.insert new).entries ↔ e = new ∨ e ∈ t.entries := by
  rw [(entries_insert new t).mem_iff, List.mem_cons]

/-- What the walk finds is an entry of this function with these bytes, whatever the shape of the
tree. -/
theorem find_some {nfunc : Nat} {val : UInt32} {bytes : List UInt8} {offs : UInt32} {t : Tree}
    (h : t.find nfunc val bytes = some offs) :
    ∃ e ∈ t.entries, e.nfunc = nfunc ∧ e.str = bytes ∧ e.offs = offs := by
  induction t with
  | nil => cases h
  | node left p right ihl ihr =>
      simp only [find] at h
      split at h
      next hcmp =>
        have heq := Entry.cmp_eq_zero hcmp
        exact ⟨p, List.mem_cons_self, heq.1, heq.2, Option.some.inj h⟩
      next =>
        split at h
        next =>
          obtain ⟨e, he, hprops⟩ := ihl h
          exact ⟨e, List.mem_cons_of_mem p (List.mem_append_left _ he), hprops⟩
        next =>
          obtain ⟨e, he, hprops⟩ := ihr h
          exact ⟨e, List.mem_cons_of_mem p (List.mem_append_right _ he), hprops⟩

def Fits (t : Tree) (n : Nat) : Prop := ∀ e ∈ t.entries, Within n e.piece

theorem copy_eq_writeAll {t : Tree} {buf : List UInt8} (h : t.Fits buf.length) :
    t.copy buf = writeAll buf (t.entries.map Entry.piece) := by
  induction t generalizing buf with
  | nil => rfl
  | node left p right ihl ihr =>
      have hp := h p List.mem_cons_self
      have hpiece : p.aoffs + p.str.length + 1 ≤ buf.length := by
        simp only [Within, Entry.piece, List.length_append, List.length_singleton] at hp
        omega
      have hlen : (writeAt buf p.aoffs (p.str ++ [0])).length = buf.length := length_writeAt hp
      have hleft : left.Fits (writeAt buf p.aoffs (p.str ++ [0])).length := by
        intro e he
        rw [hlen]
        exact h e (List.mem_cons_of_mem p (List.mem_append_left _ he))
      have hcopy := ihl hleft
      have hlen' : (left.copy (writeAt buf p.aoffs (p.str ++ [0]))).length = buf.length := by
        rw [hcopy, length_writeAll, hlen]
        intro q hq
        obtain ⟨e, he, rfl⟩ := List.mem_map.mp hq
        exact hleft e he
      have hright : right.Fits (left.copy (writeAt buf p.aoffs (p.str ++ [0]))).length := by
        intro e he
        rw [hlen']
        exact h e (List.mem_cons_of_mem p (List.mem_append_right _ he))
      rw [copy, if_pos hpiece, ihr hright, hcopy]
      simp only [entries, List.map_cons, List.map_append, writeAll, List.foldl_cons,
        List.foldl_append, Entry.piece]

/-- Every entry is found at its place in the pool. -/
theorem slice_copy {t : Tree} {buf : List UInt8} {e : Entry} (h : t.Fits buf.length)
    (hapart : (t.entries.map Entry.piece).Pairwise Apart) (he : e ∈ t.entries) :
    slice (t.copy buf) e.aoffs (e.str.length + 1) = e.str ++ [0] := by
  have hwithin : ∀ q ∈ t.entries.map Entry.piece, Within buf.length q := by
    intro q hq
    obtain ⟨r, hr, rfl⟩ := List.mem_map.mp hq
    exact h r hr
  have hslice := slice_writeAll hwithin hapart (List.mem_map_of_mem (f := Entry.piece) he)
  rw [copy_eq_writeAll h]
  simpa only [Entry.piece, List.length_append, List.length_singleton] using hslice

end Tree

namespace Walker

/-- Every scope in use has its base on record. -/
structure Scoped (w : Walker) : Prop where
  here : w.bases[w.scope]? = some w.base
  stack : ∀ p ∈ w.stack, w.bases[p.2]? = some p.1
  out : ∀ l ∈ w.out, w.bases[l.scope]? = some l.base

theorem bases_next (w : Walker) (e : Emit) : w.bases <+: (w.next e).bases := by
  cases e with
  | word word => exact List.prefix_refl _
  | heredoc words => exact List.prefix_refl _
  | funcdef strsOffset => exact List.prefix_append _ _
  | wcEnd =>
      unfold next
      cases w.stack with
      | nil => exact List.prefix_refl _
      | cons p stack => exact List.prefix_refl _

theorem bases_foldl (w : Walker) (buf : List Emit) : w.bases <+: (buf.foldl next w).bases := by
  induction buf generalizing w with
  | nil => exact List.prefix_refl _
  | cons e es ih => exact (bases_next w e).trans (ih (w.next e))

theorem getElem?_of_prefix {bases bases' : List Nat} (h : bases <+: bases') {scope base : Nat}
    (hb : bases[scope]? = some base) : bases'[scope]? = some base := by
  obtain ⟨more, rfl⟩ := h
  have hlt := (List.getElem?_eq_some_iff.mp hb).1
  rw [List.getElem?_append_left hlt, hb]

theorem Scoped.next {w : Walker} (h : w.Scoped) (e : Emit) : (w.next e).Scoped := by
  cases e with
  | word word =>
      refine ⟨h.here, h.stack, ?_⟩
      intro l hl
      rcases List.mem_append.mp hl with hl | hl
      · exact h.out l hl
      · obtain rfl := List.mem_singleton.mp hl
        exact h.here
  | heredoc words =>
      refine ⟨h.here, h.stack, ?_⟩
      intro l hl
      rcases List.mem_append.mp hl with hl | hl
      · exact h.out l hl
      · obtain ⟨word, -, rfl⟩ := List.mem_map.mp hl
        exact h.here
  | funcdef strsOffset =>
      have hpre := bases_next w (.funcdef strsOffset)
      refine ⟨?_, ?_, ?_⟩
      · simp only [Walker.next, List.getElem?_concat_length]
      · intro p hp
        apply getElem?_of_prefix hpre
        rcases List.mem_cons.mp hp with rfl | hp
        · exact h.here
        · exact h.stack p hp
      · intro l hl
        exact getElem?_of_prefix hpre (h.out l hl)
  | wcEnd =>
      obtain ⟨base, scope, stack, bases, out⟩ := w
      cases stack with
      | nil => exact h
      | cons p stack =>
          exact ⟨h.stack p List.mem_cons_self, fun q hq => h.stack q (List.mem_cons_of_mem p hq),
            h.out⟩

theorem scoped_start : start.Scoped :=
  ⟨rfl, fun _ hp => absurd hp List.not_mem_nil, fun _ hl => absurd hl List.not_mem_nil⟩

theorem Scoped.foldl {w : Walker} (h : w.Scoped) (buf : List Emit) : (buf.foldl Walker.next w).Scoped := by
  induction buf generalizing w with
  | nil => exact h
  | cons e es ih => exact ih (h.next e)

def withOut (w : Walker) (out : List Located) : Walker := { w with out }

theorem next_withOut (w : Walker) (out : List Located) (e : Emit) :
    (w.withOut out).next e = (w.next e).withOut (out ++ ((w.withOut []).next e).out) := by
  cases e with
  | word word => rfl
  | heredoc words => rfl
  | funcdef strsOffset => simp [withOut, next]
  | wcEnd =>
      obtain ⟨base, scope, stack, bases, o⟩ := w
      cases stack with
      | nil => simp [withOut, next]
      | cons p stack => simp [withOut, next]

/-- What a walk finds later does not depend on what it has found before. -/
theorem foldl_withOut (w : Walker) (out : List Located) (buf : List Emit) :
    buf.foldl next (w.withOut out) =
      (buf.foldl next w).withOut (out ++ (buf.foldl next (w.withOut [])).out) := by
  induction buf generalizing w out with
  | nil => simp [withOut]
  | cons e es ih =>
      simp only [List.foldl_cons]
      have hfound := next_withOut w [] e
      rw [List.nil_append] at hfound
      generalize ((w.withOut []).next e).out = found at hfound
      rw [next_withOut w out e, hfound, ih (w.next e) found, ih (w.next e)]
      simp [withOut]

end Walker

theorem scoped_walk (buf : List Emit) : (walk buf).Scoped := Walker.scoped_start.foldl buf

theorem bases_walk_append (a b : List Emit) : (walk a).bases <+: (walk (a ++ b)).bases := by
  rw [walk, walk, List.foldl_append]
  exact Walker.bases_foldl _ b

theorem walk_concat (buf : List Emit) (e : Emit) : walk (buf ++ [e]) = (walk buf).next e := by
  rw [walk, walk, List.foldl_append]
  rfl

/-- Filling the words of an open here-document adds them, in the scope of its redirection. -/
theorem walk_fill {buf : List Emit} {pc : Nat} (h : buf[pc]? = some (.heredoc [])) (words : List Word) :
    ∃ before after, (walk buf).out = before ++ after ∧
      walk (buf.set pc (.heredoc words)) = (walk buf).withOut (before ++
        words.map (fun word => ⟨(walk (buf.take pc)).base, (walk (buf.take pc)).scope, word⟩) ++ after) := by
  obtain ⟨hlt, hget⟩ := List.getElem?_eq_some_iff.mp h
  have hset : buf.set pc (.heredoc words) = buf.take pc ++ .heredoc words :: buf.drop (pc + 1) :=
    List.set_eq_take_append_cons_drop .. |>.trans (if_pos hlt)
  have hbuf : buf = buf.take pc ++ .heredoc [] :: buf.drop (pc + 1) := by
    rw [← hget, List.getElem_cons_drop, List.take_append_drop]
  generalize hw : walk (buf.take pc) = w at *
  generalize buf.drop (pc + 1) = rest at *
  have hold : walk buf = rest.foldl Walker.next (w.withOut w.out) := by
    rw [hbuf, walk, List.foldl_append, ← walk, hw]
    simp [Walker.next, Walker.withOut]
  have hnew : walk (buf.set pc (.heredoc words)) = rest.foldl Walker.next (w.withOut
      (w.out ++ words.map (fun word => ⟨w.base, w.scope, word⟩))) := by
    rw [hset, walk, List.foldl_append, ← walk, hw]
    rfl
  refine ⟨w.out, (rest.foldl Walker.next (w.withOut [])).out, ?_, ?_⟩
  · rw [hold, Walker.foldl_withOut]
    rfl
  · rw [hnew, hold, Walker.foldl_withOut, Walker.foldl_withOut]
    rfl

/-- `e` is at the offset its word says, from this base. -/
structure Entry.OffsAt (e : Entry) (base : Nat) : Prop where
  base_le : base ≤ e.aoffs
  lt : e.aoffs - base < 2 ^ 30
  offs : e.offs = longCode (e.aoffs - base) (hasToken e.str)

/-- The pool, the tree and the function counter. `scopeOf` says which function a value of
`ecnfunc` was used in. -/
structure PoolOk (s : State) (bases : List Nat) (scopeOf : Nat → Nat) : Prop where
  here : bases[scopeOf s.ecnfunc]? = some s.ecssub
  ecssub_le : s.ecssub ≤ s.ecsoffs
  ecsoffs_lt : s.ecsoffs < 2 ^ 31
  nfunc_le : ∀ e ∈ s.tree.entries, e.nfunc ≤ s.ecnfunc
  fits : s.tree.Fits s.ecsoffs
  apart : s.tree.entries.Pairwise (fun e f => Apart e.piece f.piece)
  nonzero : ∀ e ∈ s.tree.entries, (0 : UInt8) ∉ e.str
  offsAt : ∀ e ∈ s.tree.entries, ∃ base, bases[scopeOf e.nfunc]? = some base ∧ e.OffsAt base

theorem PoolOk.emit {s : State} {bases : List Nat} {scopeOf : Nat → Nat} (h : PoolOk s bases scopeOf)
    (buf : List Emit) (hdocs : List Nat) : PoolOk { s with buf, hdocs } bases scopeOf :=
  ⟨h.here, h.ecssub_le, h.ecsoffs_lt, h.nfunc_le, h.fits, h.apart, h.nonzero, h.offsAt⟩

/-- A located word is packed, or names an entry of its own scope. -/
inductive Placed (t : Tree) (scopeOf : Nat → Nat) (l : Located) : Prop
  | short (hlen : (cBytes l.word.text).length ≤ 3) (hzero : (0 : UInt8) ∉ cBytes l.word.text)
      (hcode : l.word.code = packShort (cBytes l.word.text))
  | pooled (e : Entry) (he : e ∈ t.entries) (hstr : e.str = cBytes l.word.text)
      (hscope : scopeOf e.nfunc = l.scope) (hcode : l.word.code = e.offs)

theorem Placed.mono {t t' : Tree} {scopeOf scopeOf' : Nat → Nat} {l : Located}
    (h : Placed t scopeOf l) (ht : ∀ e ∈ t.entries, e ∈ t'.entries)
    (hscope : ∀ e ∈ t.entries, scopeOf' e.nfunc = scopeOf e.nfunc) : Placed t' scopeOf' l := by
  cases h with
  | short hlen hzero hcode => exact .short hlen hzero hcode
  | pooled e he hstr hsc hcode => exact .pooled e (ht e he) hstr ((hscope e he).trans hsc) hcode

/-- A new pooled word leaves the offset within its field, and the pool within an `i32`. -/
def Fits (s : State) (text : List Char) : Prop :=
  3 < (cBytes text).length →
    s.tree.find s.ecnfunc (hasher (cBytes text)) (cBytes text) = none →
      s.ecsoffs - s.ecssub < 2 ^ 30 ∧ s.ecsoffs + ((cBytes text).length + 1) < 2 ^ 31

/-- What a word's interning may do: nothing, or a new entry at the end of the pool. -/
theorem ecstrcode_cases (s : State) (text : List Char) :
    (cBytes text).length ≤ 3 ∧ ecstrcode s text = (s, ⟨packShort (cBytes text), text⟩) ∨
    (∃ offs, s.tree.find s.ecnfunc (hasher (cBytes text)) (cBytes text) = some offs ∧
      ecstrcode s text = (s, ⟨offs, text⟩)) ∨
    ∃ new : Entry, new = ⟨cBytes text, longCode (s.ecsoffs - s.ecssub) (hasToken (cBytes text)),
        s.ecsoffs, s.ecnfunc, hasher (cBytes text)⟩ ∧
      3 < (cBytes text).length ∧
      s.tree.find s.ecnfunc (hasher (cBytes text)) (cBytes text) = none ∧
      ecstrcode s text =
        ({ s with tree := s.tree.insert new, ecsoffs := s.ecsoffs + ((cBytes text).length + 1) },
          ⟨new.offs, text⟩) := by
  by_cases hlen : (cBytes text).length ≤ 3
  · left
    refine ⟨hlen, ?_⟩
    rw [ecstrcode, if_pos (by omega)]
  · right
    cases hfind : s.tree.find s.ecnfunc (hasher (cBytes text)) (cBytes text) with
    | some offs =>
        left
        refine ⟨offs, rfl, ?_⟩
        simp only [ecstrcode]
        rw [if_neg (by omega), hfind]
    | none =>
        right
        refine ⟨_, rfl, by omega, rfl, ?_⟩
        simp only [ecstrcode]
        rw [if_neg (by omega), hfind]

theorem apart_of_fits {t : Tree} {e new : Entry} {n : Nat} (h : t.Fits n) (he : e ∈ t.entries)
    (hnew : new.aoffs = n) : Apart new.piece e.piece := by
  right
  have := h e he
  simp only [Within, Entry.piece] at this ⊢
  omega

theorem PoolOk.insert {s : State} {bases : List Nat} {scopeOf : Nat → Nat} (h : PoolOk s bases scopeOf)
    {bytes : List UInt8} {val : UInt32} {ecsoffs : Nat} (hzero : (0 : UInt8) ∉ bytes)
    (hrel : s.ecsoffs - s.ecssub < 2 ^ 30) (hlt : ecsoffs < 2 ^ 31)
    (hend : ecsoffs = s.ecsoffs + (bytes.length + 1)) :
    PoolOk { s with
      tree := s.tree.insert
        ⟨bytes, longCode (s.ecsoffs - s.ecssub) (hasToken bytes), s.ecsoffs, s.ecnfunc, val⟩
      ecsoffs } bases scopeOf := by
  constructor
  · exact h.here
  · have := h.ecssub_le
    simp only
    omega
  · exact hlt
  · intro e he
    rcases Tree.mem_entries_insert.mp he with rfl | he
    · exact Nat.le_refl _
    · exact h.nfunc_le e he
  · intro e he
    rcases Tree.mem_entries_insert.mp he with rfl | he
    · simp only [Within, Entry.piece, List.length_append, List.length_singleton]
      omega
    · have := h.fits e he
      simp only [Within] at this ⊢
      omega
  · refine (List.Perm.pairwise_iff (fun {e f} (hef : Apart e.piece f.piece) => hef.symm)
      (Tree.entries_insert _ s.tree)).mpr (List.pairwise_cons.mpr ⟨?_, h.apart⟩)
    intro e he
    exact apart_of_fits h.fits he rfl
  · intro e he
    rcases Tree.mem_entries_insert.mp he with rfl | he
    · exact hzero
    · exact h.nonzero e he
  · intro e he
    rcases Tree.mem_entries_insert.mp he with rfl | he
    · exact ⟨s.ecssub, h.here, h.ecssub_le, hrel, rfl⟩
    · exact h.offsAt e he

/-- What the interning of one word keeps and gives, in the current scope. -/
structure Interned (s s' : State) (bases : List Nat) (scopeOf : Nat → Nat) (w : Word) : Prop where
  pool : PoolOk s' bases scopeOf
  grows : ∀ e ∈ s.tree.entries, e ∈ s'.tree.entries
  state : s' = { s with tree := s'.tree, ecsoffs := s'.ecsoffs }
  ecsoffs_le : s.ecsoffs ≤ s'.ecsoffs
  placed : Placed s'.tree scopeOf ⟨s.ecssub, scopeOf s.ecnfunc, w⟩

theorem PoolOk.interned {s : State} {bases : List Nat} {scopeOf : Nat → Nat}
    (h : PoolOk s bases scopeOf) {text : List Char} (htext : '\x00' ∉ text) (hfit : Fits s text) :
    Interned s (ecstrcode s text).1 bases scopeOf (ecstrcode s text).2 := by
  have hzero : (0 : UInt8) ∉ cBytes text := fun hz => htext ((cBytes_zero_iff text).mp hz)
  rcases ecstrcode_cases s text with ⟨hlen, heq⟩ | ⟨offs, hfind, heq⟩ | ⟨new, rfl, hlen, hnone, heq⟩
  · rw [heq]
    exact ⟨h, fun e he => he, rfl, Nat.le_refl _, .short hlen hzero rfl⟩
  · rw [heq]
    obtain ⟨e, he, hfunc, hstr, hoffs⟩ := Tree.find_some hfind
    refine ⟨h, fun e he => he, rfl, Nat.le_refl _, .pooled e he hstr ?_ hoffs.symm⟩
    rw [hfunc]
  · rw [heq]
    obtain ⟨hrel, hlt⟩ := hfit hlen hnone
    refine ⟨h.insert hzero hrel hlt rfl, ?_, rfl, ?_, ?_⟩
    · intro e he
      exact Tree.mem_entries_insert.mpr (Or.inr he)
    · simp only
      omega
    · exact .pooled _ (Tree.mem_entries_insert.mpr (Or.inl rfl)) rfl rfl rfl

/-- The invariant of a parse. The decoder's walk over what has been emitted is in the function that
is being parsed, with the base that its strings are counted from. -/
structure Inv (s : State) (scopeOf : Nat → Nat) : Prop where
  pool : PoolOk s (walk s.buf).bases scopeOf
  scope : scopeOf s.ecnfunc = (walk s.buf).scope
  frames : (walk s.buf).stack.map Prod.fst = s.frames
  frames_le : ∀ f ∈ s.frames, f ≤ s.ecsoffs
  placed : ∀ l ∈ (walk s.buf).out, Placed s.tree scopeOf l
  hdocs : ∀ pc ∈ s.hdocs, s.buf[pc]? = some (.heredoc [])
  nodup : s.hdocs.Nodup

theorem Inv.base {s : State} {scopeOf : Nat → Nat} (h : Inv s scopeOf) : (walk s.buf).base = s.ecssub := by
  have hwalk := (scoped_walk s.buf).here
  rw [← h.scope, h.pool.here] at hwalk
  exact (Option.some.inj hwalk).symm

/-- The scope in which the words of the here-document redirection at `pc` are read. -/
def slotScope (s : State) (pc : Nat) : Nat := (walk (s.buf.take pc)).scope

/-- What a call must meet. A here-document's words are interned when the newline is lexed: unless all
are short, this must be in the function of the redirection. -/
def Sound (s : State) : Call → Prop
  | .ecstr text => '\x00' ∉ text ∧ Fits s text
  | .newlineHeredoc doc term mungedTerm =>
      match s.hdocs with
      | [] => True
      | pc :: _ =>
          (∀ text ∈ [doc, term, mungedTerm], '\x00' ∉ text) ∧
          Fits s doc ∧ Fits (ecstrcode s doc).1 term ∧
          Fits (ecstrcode (ecstrcode s doc).1 term).1 mungedTerm ∧
          (slotScope s pc = (walk s.buf).scope ∨
            ∀ text ∈ [doc, term, mungedTerm], (cBytes text).length ≤ 3)
  | _ => True

theorem inv_initParse : Inv initParse (fun _ => 0) := by
  have hnone : ∀ e : Entry, e ∉ Tree.nil.entries := fun _ he => absurd he List.not_mem_nil
  constructor
  · constructor
    · rfl
    · exact Nat.le_refl _
    · decide
    · exact fun e he => absurd he (hnone e)
    · exact fun e he => absurd he (hnone e)
    · exact List.Pairwise.nil
    · exact fun e he => absurd he (hnone e)
    · exact fun e he => absurd he (hnone e)
  · rfl
  · rfl
  · exact fun _ hf => absurd hf List.not_mem_nil
  · exact fun _ hl => absurd hl List.not_mem_nil
  · exact fun _ hpc => absurd hpc List.not_mem_nil
  · exact List.nodup_nil

/-- Open here-documents stay open when more code follows. -/
theorem Inv.hdocs_append {s : State} {scopeOf : Nat → Nat} (h : Inv s scopeOf) (es : List Emit) :
    ∀ pc ∈ s.hdocs, (s.buf ++ es)[pc]? = some (.heredoc []) := by
  intro pc hpc
  have hget := h.hdocs pc hpc
  rw [List.getElem?_append_left (List.getElem?_eq_some_iff.mp hget).1, hget]

theorem Inv.ecstr {s : State} {scopeOf : Nat → Nat} (h : Inv s scopeOf) {text : List Char}
    (htext : '\x00' ∉ text) (hfit : Fits s text) : Inv (ecstr s text) scopeOf := by
  have hin := h.pool.interned htext hfit
  rw [Ecstr.ecstr]
  generalize ecstrcode s text = r at hin
  obtain ⟨s', w⟩ := r
  obtain ⟨hpool, hgrows, hstate, hle, hplaced⟩ := hin
  simp only at *
  rw [hstate] at hpool ⊢
  constructor
  · rw [walk_concat]
    exact hpool.emit _ _
  · rw [walk_concat]
    exact h.scope
  · rw [walk_concat]
    exact h.frames
  · intro f hf
    exact Nat.le_trans (h.frames_le f hf) hle
  · rw [walk_concat]
    intro l hl
    rcases List.mem_append.mp hl with hl | hl
    · exact (h.placed l hl).mono hgrows (fun _ _ => rfl)
    · obtain rfl := List.mem_singleton.mp hl
      rw [h.base, ← h.scope]
      exact hplaced
  · exact h.hdocs_append _
  · exact h.nodup

/-- A move to another scope, under a new value of `ecnfunc`. -/
theorem PoolOk.rescope {s : State} {bases bases' : List Nat} {scopeOf : Nat → Nat}
    (h : PoolOk s bases scopeOf) (hbases : bases <+: bases') {scope ecssub : Nat}
    (hhere : bases'[scope]? = some ecssub) (hle : ecssub ≤ s.ecsoffs) (buf : List Emit)
    (frames : List Nat) :
    PoolOk { s with ecnfunc := s.ecnfunc + 1, ecssub, buf, frames } bases'
      (Function.update scopeOf (s.ecnfunc + 1) scope) := by
  constructor
  · rw [Function.update_self]
    exact hhere
  · exact hle
  · exact h.ecsoffs_lt
  · intro e he
    exact Nat.le_succ_of_le (h.nfunc_le e he)
  · exact h.fits
  · exact h.apart
  · exact h.nonzero
  · intro e he
    obtain ⟨base, hbase, hoffs⟩ := h.offsAt e he
    have hne : e.nfunc ≠ s.ecnfunc + 1 := by
      have := h.nfunc_le e he
      omega
    rw [Function.update_of_ne hne]
    exact ⟨base, Walker.getElem?_of_prefix hbases hbase, hoffs⟩

theorem Placed.rescope {s : State} {bases : List Nat} {scopeOf : Nat → Nat} (h : PoolOk s bases scopeOf)
    (scope : Nat) {l : Located} (hl : Placed s.tree scopeOf l) :
    Placed s.tree (Function.update scopeOf (s.ecnfunc + 1) scope) l := by
  refine hl.mono (fun _ he => he) ?_
  intro e he
  have hne : e.nfunc ≠ s.ecnfunc + 1 := by
    have := h.nfunc_le e he
    omega
  exact Function.update_of_ne hne scope scopeOf

theorem Inv.funcBody {s : State} {scopeOf : Nat → Nat} (h : Inv s scopeOf) :
    Inv (funcBody s) (Function.update scopeOf (s.ecnfunc + 1) (walk s.buf).bases.length) := by
  have hle := h.pool.ecssub_le
  have hlt := h.pool.ecsoffs_lt
  have hbase : (walk s.buf).base + (UInt32.ofNat (s.ecsoffs - s.ecssub)).toNat = s.ecsoffs := by
    rw [h.base, UInt32.toNat_ofNat_of_lt' (Nat.lt_of_le_of_lt (Nat.sub_le _ _)
      (Nat.lt_trans hlt (by decide)))]
    omega
  have hwalk := walk_concat s.buf (.funcdef (UInt32.ofNat (s.ecsoffs - s.ecssub)))
  constructor
  · rw [Ecstr.funcBody, hwalk]
    apply h.pool.rescope (Walker.bases_next _ _) _ (Nat.le_refl _)
    simp only [Walker.next, hbase, List.getElem?_concat_length]
  · simp only [Ecstr.funcBody, hwalk, Function.update_self, Walker.next]
  · simp only [Ecstr.funcBody, hwalk, Walker.next, List.map_cons, h.base, h.frames]
  · intro f hf
    rcases List.mem_cons.mp hf with rfl | hf
    · exact hle
    · exact h.frames_le f hf
  · intro l hl
    apply Placed.rescope h.pool
    apply h.placed l
    simpa only [Ecstr.funcBody, hwalk, Walker.next] using hl
  · exact h.hdocs_append _
  · exact h.nodup

theorem Inv.funcEnd {s : State} {scopeOf : Nat → Nat} (h : Inv s scopeOf) :
    ∃ scopeOf', Inv (funcEnd s) scopeOf' := by
  cases hframes : s.frames with
  | nil =>
      refine ⟨scopeOf, ?_⟩
      simp only [Ecstr.funcEnd, hframes]
      exact h
  | cons oecssub frames =>
      have hstack := h.frames
      rw [hframes] at hstack
      obtain ⟨⟨base, scope⟩, stack, hcons, hbase, htail⟩ := List.map_eq_cons_iff.mp hstack
      obtain rfl : base = oecssub := hbase
      have hwalk : walk (s.buf ++ [.wcEnd]) = { walk s.buf with base, scope, stack } := by
        rw [walk_concat, Walker.next, hcons]
      refine ⟨Function.update scopeOf (s.ecnfunc + 1) scope, ?_⟩
      simp only [Ecstr.funcEnd, hframes]
      constructor
      · rw [hwalk]
        apply h.pool.rescope (List.prefix_refl _)
        · exact (scoped_walk s.buf).stack (base, scope) (by rw [hcons]; exact List.mem_cons_self)
        · exact h.frames_le base (by rw [hframes]; exact List.mem_cons_self)
      · rw [hwalk, Function.update_self]
      · rw [hwalk, htail]
      · intro f hf
        exact h.frames_le f (by rw [hframes]; exact List.mem_cons_of_mem _ hf)
      · rw [hwalk]
        intro l hl
        exact Placed.rescope h.pool scope (h.placed l hl)
      · exact h.hdocs_append _
      · exact h.nodup

theorem Inv.redirHeredoc {s : State} {scopeOf : Nat → Nat} (h : Inv s scopeOf) :
    Inv (redirHeredoc s) scopeOf := by
  have hwalk : walk (s.buf ++ [.heredoc []]) = walk s.buf := by
    rw [walk_concat, Walker.next, List.map_nil, List.append_nil]
  constructor
  · rw [Ecstr.redirHeredoc, hwalk]
    exact h.pool.emit _ _
  · rw [Ecstr.redirHeredoc, hwalk]
    exact h.scope
  · rw [Ecstr.redirHeredoc, hwalk]
    exact h.frames
  · exact h.frames_le
  · rw [Ecstr.redirHeredoc, hwalk]
    exact h.placed
  · intro pc hpc
    rcases List.mem_append.mp hpc with hpc | hpc
    · exact h.hdocs_append _ pc hpc
    · obtain rfl := List.mem_singleton.mp hpc
      exact List.getElem?_concat_length
  · refine List.nodup_append.mpr ⟨h.nodup, List.pairwise_singleton _ _, ?_⟩
    intro pc hpc pc' hpc'
    obtain rfl := List.mem_singleton.mp hpc'
    have := (List.getElem?_eq_some_iff.mp (h.hdocs pc hpc)).1
    omega

theorem placed_of_short {s : State} {text : List Char} (hlen : (cBytes text).length ≤ 3)
    (htext : '\x00' ∉ text) (t : Tree) (scopeOf : Nat → Nat) (base scope : Nat) :
    Placed t scopeOf ⟨base, scope, (ecstrcode s text).2⟩ := by
  have hcode : (ecstrcode s text).2 = ⟨packShort (cBytes text), text⟩ := by
    rw [ecstrcode, if_pos (by omega)]
  rw [hcode]
  exact .short hlen (fun hz => htext ((cBytes_zero_iff text).mp hz)) rfl

theorem Interned.mono {s s' s'' : State} {bases : List Nat} {scopeOf : Nat → Nat} {w : Word}
    (h : Interned s s' bases scopeOf w) (hgrows : ∀ e ∈ s'.tree.entries, e ∈ s''.tree.entries) :
    Placed s''.tree scopeOf ⟨s.ecssub, scopeOf s.ecnfunc, w⟩ :=
  h.placed.mono hgrows (fun _ _ => rfl)

/-- The words of a here-document, all interned in the current scope. -/
theorem PoolOk.heredoc {s : State} {bases : List Nat} {scopeOf : Nat → Nat} (h : PoolOk s bases scopeOf)
    {doc term mungedTerm : List Char} (htexts : ∀ text ∈ [doc, term, mungedTerm], '\x00' ∉ text)
    (hdoc : Fits s doc) (hterm : Fits (ecstrcode s doc).1 term)
    (hmunged : Fits (ecstrcode (ecstrcode s doc).1 term).1 mungedTerm) :
    ∃ t ecsoffs, s.ecsoffs ≤ ecsoffs ∧ (∀ e ∈ s.tree.entries, e ∈ t.entries) ∧
      (ecstrcode (ecstrcode (ecstrcode s doc).1 term).1 mungedTerm).1 = { s with tree := t, ecsoffs } ∧
      PoolOk { s with tree := t, ecsoffs } bases scopeOf ∧
      ∀ w ∈ [(ecstrcode s doc).2, (ecstrcode (ecstrcode s doc).1 term).2,
          (ecstrcode (ecstrcode (ecstrcode s doc).1 term).1 mungedTerm).2],
        Placed t scopeOf ⟨s.ecssub, scopeOf s.ecnfunc, w⟩ := by
  have h1 := h.interned (htexts doc (by simp)) hdoc
  generalize ecstrcode s doc = r1 at *
  obtain ⟨s1, w1⟩ := r1
  have h2 := h1.pool.interned (htexts term (by simp)) hterm
  generalize hr2 : ecstrcode s1 term = r2 at *
  obtain ⟨s2, w2⟩ := r2
  have h3 := h2.pool.interned (htexts mungedTerm (by simp)) hmunged
  generalize hr3 : ecstrcode s2 mungedTerm = r3 at *
  obtain ⟨s3, w3⟩ := r3
  simp only at *
  have e1 := h1.state
  have e2 := h2.state
  have e3 := h3.state
  rw [e1] at e2
  rw [e2] at e3
  have hsub1 : s1.ecssub = s.ecssub ∧ s1.ecnfunc = s.ecnfunc := by rw [e1]; exact ⟨rfl, rfl⟩
  have hsub2 : s2.ecssub = s.ecssub ∧ s2.ecnfunc = s.ecnfunc := by rw [e2]; exact ⟨rfl, rfl⟩
  refine ⟨s3.tree, s3.ecsoffs, ?_, ?_, e3, ?_, ?_⟩
  · exact Nat.le_trans h1.ecsoffs_le (Nat.le_trans h2.ecsoffs_le h3.ecsoffs_le)
  · exact fun e he => h3.grows e (h2.grows e (h1.grows e he))
  · have hpool := h3.pool
    rw [e3] at hpool
    exact hpool
  · intro w hw
    simp only [List.mem_cons, List.not_mem_nil, or_false] at hw
    rcases hw with rfl | rfl | rfl
    · exact h1.mono (fun e he => h3.grows e (h2.grows e he))
    · have := h2.mono h3.grows
      rwa [hsub1.1, hsub1.2] at this
    · have := h3.placed
      rwa [hsub2.1, hsub2.2] at this

theorem Inv.setheredoc {s : State} {scopeOf : Nat → Nat} (h : Inv s scopeOf)
    {doc term mungedTerm : List Char} (hs : Sound s (.newlineHeredoc doc term mungedTerm)) :
    Inv (setheredoc s doc term mungedTerm) scopeOf := by
  cases hopen : s.hdocs with
  | nil =>
      rw [Ecstr.setheredoc, hopen]
      exact h
  | cons pc hdocs =>
      simp only [Sound, hopen] at hs
      obtain ⟨htexts, hdoc, hterm, hmunged, hscope⟩ := hs
      obtain ⟨t, ecsoffs, hle, hgrows, hstate, hpool, hplaced⟩ :=
        h.pool.heredoc htexts hdoc hterm hmunged
      have hpc := h.hdocs pc (by rw [hopen]; exact List.mem_cons_self)
      have hnodup := h.nodup
      rw [hopen] at hnodup
      obtain ⟨hfresh, hrest⟩ := List.nodup_cons.mp hnodup
      have hset : Ecstr.setheredoc s doc term mungedTerm =
          { s with
            tree := t
            ecsoffs
            buf := s.buf.set pc (.heredoc [(ecstrcode s doc).2, (ecstrcode (ecstrcode s doc).1 term).2,
              (ecstrcode (ecstrcode (ecstrcode s doc).1 term).1 mungedTerm).2])
            hdocs } := by
        simp only [Ecstr.setheredoc, hopen, hstate]
      -- the words are where the redirection stands, which is the current scope unless all are short
      have hwords : ∀ w ∈ [(ecstrcode s doc).2, (ecstrcode (ecstrcode s doc).1 term).2,
          (ecstrcode (ecstrcode (ecstrcode s doc).1 term).1 mungedTerm).2],
          Placed t scopeOf ⟨(walk (s.buf.take pc)).base, (walk (s.buf.take pc)).scope, w⟩ := by
        rcases hscope with hscope | hshort
        · have hbases := bases_walk_append (s.buf.take pc) (s.buf.drop pc)
          rw [List.take_append_drop] at hbases
          have hbase := Walker.getElem?_of_prefix hbases (scoped_walk (s.buf.take pc)).here
          simp only [slotScope] at hscope
          rw [hscope, (scoped_walk s.buf).here] at hbase
          rw [← Option.some.inj hbase, hscope, h.base, ← h.scope]
          exact hplaced
        · intro w hw
          simp only [List.mem_cons, List.not_mem_nil, or_false] at hw
          rcases hw with rfl | rfl | rfl
          · exact placed_of_short (hshort _ (by simp)) (htexts _ (by simp)) _ _ _ _
          · exact placed_of_short (hshort _ (by simp)) (htexts _ (by simp)) _ _ _ _
          · exact placed_of_short (hshort _ (by simp)) (htexts _ (by simp)) _ _ _ _
      rw [hset]
      generalize [(ecstrcode s doc).2, (ecstrcode (ecstrcode s doc).1 term).2,
        (ecstrcode (ecstrcode (ecstrcode s doc).1 term).1 mungedTerm).2] = words at hwords
      obtain ⟨before, after, hout, hfill⟩ := walk_fill hpc words
      constructor
      · rw [hfill]
        exact hpool.emit _ _
      · rw [hfill]
        exact h.scope
      · rw [hfill]
        exact h.frames
      · intro f hf
        exact Nat.le_trans (h.frames_le f hf) hle
      · rw [hfill]
        intro l hl
        have hold : l ∈ (walk s.buf).out → Placed t scopeOf l :=
          fun hl => (h.placed l hl).mono hgrows (fun _ _ => rfl)
        rw [hout] at hold
        rcases List.mem_append.mp hl with hl | hl
        · rcases List.mem_append.mp hl with hl | hl
          · exact hold (List.mem_append_left _ hl)
          · obtain ⟨w, hw, rfl⟩ := List.mem_map.mp hl
            exact hwords w hw
        · exact hold (List.mem_append_right _ hl)
      · intro pc' hpc'
        have hne : pc ≠ pc' := by
          rintro rfl
          exact hfresh hpc'
        rw [List.getElem?_set_ne hne]
        exact h.hdocs pc' (by rw [hopen]; exact List.mem_cons_of_mem _ hpc')
      · exact hrest

theorem inv_step {s : State} {c : Call} (hs : Sound s c) (h : ∃ scopeOf, Inv s scopeOf) :
    ∃ scopeOf, Inv (step s c) scopeOf := by
  obtain ⟨scopeOf, h⟩ := h
  cases c with
  | ecstr text => exact ⟨scopeOf, h.ecstr hs.1 hs.2⟩
  | funcBody => exact ⟨_, h.funcBody⟩
  | funcEnd => exact h.funcEnd
  | redirHeredoc => exact ⟨scopeOf, h.redirHeredoc⟩
  | newlineHeredoc doc term mungedTerm => exact ⟨scopeOf, h.setheredoc hs⟩

theorem inv_run {calls : List Call} (h : Along step Sound initParse calls) :
    ∃ scopeOf, Inv (run step initParse calls) scopeOf :=
  h.invariant (I := fun s => ∃ scopeOf, Inv s scopeOf) (fun _ _ hs hi => inv_step hs hi)
    ⟨_, inv_initParse⟩

end Zshrs.Parse.Ecstr
