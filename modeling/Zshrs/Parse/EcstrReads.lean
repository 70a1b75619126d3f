import Mathlib.Data.List.Pairwise
import Zshrs.Parse.EcstrRuns

namespace Zshrs.Parse.Ecstr

open Lib.Runs Lib.Pieces

def Located.Pooled (l : Located) : Prop := l.word.code &&& 2 = 0

/-- Where the decoder looks for a pooled word. -/
def Located.slot (l : Located) : Nat := l.base + (l.word.code >>> 2).toNat

/-- The pool up to the word's NUL. -/
def Located.size (l : Located) : Nat := (cBytes l.word.text).length + 1

structure StringsSurvive (s : State) : Prop where
  read : ∀ l ∈ (walk s.buf).out,
    decodeStringWord (bldStrs s) l.base l.word.code = (cBytes l.word.text).map widen
  token : ∀ l ∈ (walk s.buf).out, l.word.code &&& 1 = 1 ↔ hasToken (cBytes l.word.text) = true
  shared : ∀ l ∈ (walk s.buf).out, ∀ m ∈ (walk s.buf).out, l.Pooled → m.Pooled → l.slot = m.slot →
    cBytes l.word.text = cBytes m.word.text ∧ l.scope = m.scope
  apart : ∀ l ∈ (walk s.buf).out, ∀ m ∈ (walk s.buf).out, l.Pooled → m.Pooled → l.slot ≠ m.slot →
    l.slot + l.size ≤ m.slot ∨ m.slot + m.size ≤ l.slot
  within : ∀ l ∈ (walk s.buf).out, l.Pooled → l.slot + l.size ≤ (bldStrs s).length

theorem ofNat_toNat {n : Nat} (h : n.isValidChar) : (Char.ofNat n).toNat = n := by
  rw [Char.ofNat, dif_pos h]
  rfl

theorem widen_toNat (b : UInt8) :
    (widen b).toNat = if 0x84 ≤ b.toNat ∧ b.toNat ≤ 0xa2 then 0xe100 + b.toNat else b.toNat := by
  have hb := b.toNat_lt
  unfold widen tokenCharFromByte
  simp only [UInt8.le_iff_toNat_le, UInt8.reduceToNat]
  split
  next hrange =>
    rw [Option.getD_some]
    apply ofNat_toNat
    right
    omega
  next =>
    rw [Option.getD_none]
    apply ofNat_toNat
    left
    omega

/-- No byte is lost in the decoder's chars. -/
theorem widen_injective : Function.Injective widen := by
  intro a b h
  have hab := congrArg Char.toNat h
  have ha := a.toNat_lt
  have hb := b.toNat_lt
  rw [widen_toNat, widen_toNat] at hab
  apply UInt8.toNat.inj
  split at hab <;> split at hab <;> omega

section Invariant

variable {s : State} {scopeOf : Nat → Nat}

theorem Inv.fits_replicate (h : Inv s scopeOf) :
    s.tree.Fits (List.replicate s.ecsoffs (0 : UInt8)).length := by
  rw [List.length_replicate]
  exact h.pool.fits

theorem Inv.length_bldStrs (h : Inv s scopeOf) : (bldStrs s).length = s.ecsoffs := by
  rw [bldStrs, Tree.copy_eq_writeAll h.fits_replicate, length_writeAll, List.length_replicate]
  intro q hq
  obtain ⟨e, he, rfl⟩ := List.mem_map.mp hq
  exact h.fits_replicate e he

theorem Inv.slice_bldStrs (h : Inv s scopeOf) {e : Entry} (he : e ∈ s.tree.entries) :
    slice (bldStrs s) e.aoffs (e.str.length + 1) = e.str ++ [0] :=
  Tree.slice_copy h.fits_replicate (List.pairwise_map.mpr h.pool.apart) he

/-- The entry of a word is at the offset its word gives from the base of the word's own scope. -/
theorem Inv.offsAt (h : Inv s scopeOf) {l : Located} (hl : l ∈ (walk s.buf).out) {e : Entry}
    (he : e ∈ s.tree.entries) (hscope : scopeOf e.nfunc = l.scope) : e.OffsAt l.base := by
  obtain ⟨base, hbase, hoffs⟩ := h.pool.offsAt e he
  rw [hscope, (scoped_walk s.buf).out l hl] at hbase
  rwa [Option.some.inj hbase]

theorem Inv.read (h : Inv s scopeOf) {l : Located} (hl : l ∈ (walk s.buf).out) :
    decodeStringWord (bldStrs s) l.base l.word.code = (cBytes l.word.text).map widen := by
  cases h.placed l hl with
  | short hlen hzero hcode =>
      rw [hcode]
      exact decode_packShort _ _ hlen hzero
  | pooled e he hstr hscope hcode =>
      obtain ⟨hle, hlt, hoffs⟩ := h.offsAt hl he hscope
      have hslice := h.slice_bldStrs he
      have hzero := h.pool.nonzero e he
      rw [hcode, hoffs, decode_longCode hlt, Nat.add_sub_cancel' hle, ← hstr]
      exact stringAt_of_slice hzero hslice

theorem Inv.token (h : Inv s scopeOf) {l : Located} (hl : l ∈ (walk s.buf).out) :
    l.word.code &&& 1 = 1 ↔ hasToken (cBytes l.word.text) = true := by
  have hbit : l.word.code &&& 1 = if hasToken (cBytes l.word.text) then 1 else 0 := by
    cases h.placed l hl with
    | short hlen hzero hcode =>
        rw [hcode]
        exact packShort_and_one _
    | pooled e he hstr hscope hcode =>
        obtain ⟨-, hlt, hoffs⟩ := h.offsAt hl he hscope
        rw [hcode, hoffs, ← hstr]
        exact longCode_and_one _ hlt
  rw [hbit]
  cases hasToken (cBytes l.word.text) <;> decide

/-- A pooled word's slot is that of an entry. -/
theorem Inv.entry (h : Inv s scopeOf) {l : Located} (hl : l ∈ (walk s.buf).out) (hp : l.Pooled) :
    ∃ e ∈ s.tree.entries, e.str = cBytes l.word.text ∧ scopeOf e.nfunc = l.scope ∧
      l.slot = e.aoffs ∧ l.size = (e.str ++ [0]).length := by
  cases h.placed l hl with
  | short hlen hzero hcode =>
      have hdiv := packShort_toNat_div (cBytes l.word.text)
      rw [Located.Pooled, hcode, and_two] at hp
      omega
  | pooled e he hstr hscope hcode =>
      obtain ⟨hle, hlt, hoffs⟩ := h.offsAt hl he hscope
      refine ⟨e, he, hstr, hscope, ?_, ?_⟩
      · rw [Located.slot, hcode, hoffs, longCode_shiftRight _ hlt, Nat.add_sub_cancel' hle]
      · rw [Located.size, hstr, List.length_append, List.length_singleton]

theorem Inv.apart_of_ne (h : Inv s scopeOf) {e f : Entry} (he : e ∈ s.tree.entries)
    (hf : f ∈ s.tree.entries) (hne : e ≠ f) : Apart e.piece f.piece :=
  have : Std.Symm (fun e f : Entry => Apart e.piece f.piece) := ⟨fun _ _ hef => hef.symm⟩
  h.pool.apart.forall he hf hne

theorem Inv.stringsSurvive (h : Inv s scopeOf) : StringsSurvive s := by
  refine ⟨fun l hl => h.read hl, fun l hl => h.token hl, ?_, ?_, ?_⟩
  · intro l hl m hm hlp hmp hslot
    obtain ⟨e, he, hestr, hescope, heslot, -⟩ := h.entry hl hlp
    obtain ⟨f, hf, hfstr, hfscope, hfslot, -⟩ := h.entry hm hmp
    have hef : e = f := by
      by_contra hne
      have := h.apart_of_ne he hf hne
      simp only [Apart, Entry.piece, List.length_append, List.length_singleton] at this
      omega
    rw [← hestr, ← hfstr, ← hescope, ← hfscope, hef]
    exact ⟨rfl, rfl⟩
  · intro l hl m hm hlp hmp hslot
    obtain ⟨e, he, -, -, heslot, hesize⟩ := h.entry hl hlp
    obtain ⟨f, hf, -, -, hfslot, hfsize⟩ := h.entry hm hmp
    have hne : e ≠ f := by
      rintro rfl
      exact hslot (heslot.trans hfslot.symm)
    rw [heslot, hesize, hfslot, hfsize]
    exact h.apart_of_ne he hf hne
  · intro l hl hlp
    obtain ⟨e, he, -, -, heslot, hesize⟩ := h.entry hl hlp
    rw [heslot, hesize, h.length_bldStrs]
    exact h.pool.fits e he

end Invariant

theorem stringsSurvive_of_sound {calls : List Call} (h : Along step Sound initParse calls) :
    StringsSurvive (run step initParse calls) := by
  obtain ⟨scopeOf, hinv⟩ := inv_run h
  exact hinv.stringsSurvive

instance (s : State) (text : List Char) : Decidable (Fits s text) :=
  inferInstanceAs (Decidable (_ → _ → _))

/-- `greet() { cat <<EOF⏎hello⏎EOF⏎}; echo greet` -/
def greetCalls : List Call :=
  [.ecstr "greet".toList, .funcBody, .ecstr "cat".toList, .redirHeredoc,
    .newlineHeredoc "hello\n".toList "EOF".toList "EOF".toList, .funcEnd, .ecstr "echo".toList,
    .ecstr "greet".toList]

theorem greet_stringsSurvive : StringsSurvive (run step initParse greetCalls) := by
  apply stringsSurvive_of_sound
  refine ⟨⟨by decide, by decide +kernel⟩, trivial, ⟨by decide, by decide +kernel⟩, trivial, ?_, trivial,
    ⟨by decide, by decide +kernel⟩, ⟨by decide, by decide +kernel⟩, trivial⟩
  refine ⟨by decide, by decide +kernel, by decide +kernel, by decide +kernel, ?_⟩
  left
  decide +kernel

/-- `greet() { cat <<EOF; }; echo hi⏎hello⏎EOF`: the newline comes after the function. -/
def lateHeredocCalls : List Call :=
  [.ecstr "greet".toList, .funcBody, .ecstr "cat".toList, .redirHeredoc, .funcEnd,
    .ecstr "echo".toList, .ecstr "hi".toList,
    .newlineHeredoc "hello\n".toList "EOF".toList "EOF".toList]

theorem lateHeredoc_not_survive : ¬ StringsSurvive (run step initParse lateHeredocCalls) := by
  intro h
  have hmem : ⟨6, 1, 44, "hello\n".toList⟩ ∈ (walk (run step initParse lateHeredocCalls).buf).out := by
    decide +kernel
  exact absurd (h.read _ hmem) (by decide +kernel)

end Zshrs.Parse.Ecstr
