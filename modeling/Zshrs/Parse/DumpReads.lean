import Zshrs.Parse.Dump
import Mathlib.Algebra.Ring.Nat
import Mathlib.Data.List.Induction

namespace Zshrs.Parse.Dump

open Lib Lib.Words
open Lib.Bytes (getRange Stands)
open Wordcode (wordcode Str)

section Words

theorem toNat_asU32 {i : Int} (hi : 0 ≤ i) (hlt : i < 2 ^ 32) : (asU32 i).toNat = i.toNat := by
  have same : i % 2 ^ 32 = i := Int.emod_eq_of_lt hi hlt
  rw [asU32, same, UInt32.toNat_ofNat']
  omega

theorem asU32_natCast {n : Nat} (hn : n < 2 ^ 32) : (asU32 n).toNat = n := by
  rw [toNat_asU32 (Int.natCast_nonneg n) (by omega), Int.toNat_natCast]

theorem toNat_fdhbldflags {flags tail : wordcode} (hflags : flags.toNat < 4) (htail : tail.toNat < 2 ^ 30) :
    (fdhbldflags flags tail).toNat = tail.toNat * 4 + flags.toNat := by
  have shifted : (tail <<< 2).toNat = tail.toNat <<< 2 := by
    rw [UInt32.toNat_shiftLeft, Nat.mod_eq_of_lt]
    · rfl
    · have two : (2 : UInt32).toNat % 32 = 2 := rfl
      rw [two, Nat.shiftLeft_eq]
      omega
  rw [fdhbldflags, UInt32.toNat_or, shifted, Nat.or_comm, ← Nat.shiftLeft_add_eq_or_of_lt hflags,
    Nat.shiftLeft_eq]

theorem toNat_fdhtail {h : Fdhead} {flags tail : wordcode} (hh : h.flags = fdhbldflags flags tail)
    (hflags : flags.toNat < 4) (htail : tail.toNat < 2 ^ 30) : (fdhtail h).toNat = tail.toNat := by
  have two : (2 : UInt32).toNat % 32 = 2 := rfl
  rw [fdhtail, hh, UInt32.toNat_shiftRight, two, toNat_fdhbldflags hflags htail, Nat.shiftRight_eq_div_pow]
  omega

theorem fdhflags_eq {h : Fdhead} {flags tail : wordcode} (hh : h.flags = fdhbldflags flags tail)
    (hflags : flags.toNat < 4) (htail : tail.toNat < 2 ^ 30) : fdhflags h = flags := by
  apply UInt32.toNat_inj.mp
  have three : (3 : UInt32).toNat = 2 ^ 2 - 1 := rfl
  rw [fdhflags, hh, UInt32.toNat_and, three, Nat.and_two_pow_sub_one_eq_mod,
    toNat_fdhbldflags hflags htail]
  omega

theorem packed_flags {v : wordcode} (hv : v.toNat < 2 ^ 8) (o : wordcode) :
    (v ||| ((o &&& 0xffffff) <<< 8)) &&& 0xff = v := by
  have low : (0xff : UInt32).toNat = 2 ^ 8 - 1 := rfl
  have mask : (0xffffff : UInt32).toNat = 2 ^ 24 - 1 := rfl
  have eight : (8 : UInt32).toNat % 32 = 8 := rfl
  have small : (o &&& 0xffffff).toNat < 2 ^ 24 := by
    rw [UInt32.toNat_and, mask, Nat.and_two_pow_sub_one_eq_mod]
    exact Nat.mod_lt _ (Nat.two_pow_pos 24)
  have shifted : ((o &&& 0xffffff) <<< 8).toNat = (o &&& 0xffffff).toNat <<< 8 := by
    rw [UInt32.toNat_shiftLeft, eight, Nat.mod_eq_of_lt]
    rw [Nat.shiftLeft_eq]
    omega
  apply UInt32.toNat_inj.mp
  rw [UInt32.toNat_and, low, Nat.and_two_pow_sub_one_eq_mod, UInt32.toNat_or, shifted, Nat.or_comm,
    ← Nat.shiftLeft_add_eq_or_of_lt hv, Nat.shiftLeft_eq]
  omega

end Words

section Prelude

theorem setVersion_zeros (a b : wordcode) :
    setVersion (a :: b :: List.replicate 10 0) (Utf8.encode ZSH_VERSION) =
      a :: b :: 0x2e392e35 :: 0x32 :: List.replicate 8 0 := by
  have bytes : Utf8.encode ZSH_VERSION = [0x35, 0x2e, 0x39, 0x2e, 0x32] := rfl
  have first : (0x35 : wordcode) ||| (0x2e : wordcode) <<< 8 ||| (0x39 : wordcode) <<< 16 |||
      (0x2e : wordcode) <<< 24 = 0x2e392e35 := rfl
  rw [bytes]
  simp [setVersion, word, List.replicate_succ, first]

def preludeFlags (other map : Bool) : wordcode :=
  (if map then FDF_MAP else 0) ||| (if other then FDF_OTHER else 0)

theorem prelude_eq (other map : Bool) (tlen : Int) :
    prelude other map tlen =
      (if other then FD_OMAGIC else FD_MAGIC) ::
        (preludeFlags other map ||| ((asU32 tlen &&& (0xffffff : wordcode)) <<< 8)) ::
          0x2e392e35 :: 0x32 :: List.replicate 8 0 := by
  have packed : ((0 &&& ~~~0xff ||| preludeFlags other map &&& 0xff) &&& 0xff : wordcode) =
      preludeFlags other map := by
    cases other <;> cases map <;> rfl
  rw [← packed]
  exact setVersion_zeros _ _

variable (other map : Bool) (tlen : Int) (rest : List wordcode)

theorem length_prelude : (prelude other map tlen).length = FD_PRELEN := by
  rw [prelude_eq]
  rfl

theorem fdmagic_prelude : fdmagic (prelude other map tlen ++ rest) =
    if other then FD_OMAGIC else FD_MAGIC := by
  rw [prelude_eq]
  rfl

theorem fdversion_prelude : fdversion (prelude other map tlen ++ rest) = ZSH_VERSION := by
  rw [prelude_eq]
  rfl

theorem fdflags_prelude : fdflags (prelude other map tlen ++ rest) =
    preludeFlags other map := by
  rw [prelude_eq]
  apply packed_flags
  cases other <;> cases map <;> decide

end Prelude

def Compiled.bytes (c : Compiled) : Bytes := bytesOf (c.ecbuf ++ [0]) ++ c.pool

/-- The part of a name that a dump is searched for. -/
def baseOf (name : Str) : Bytes := (Utf8.encode name).drop (tail (Utf8.encode name))

/-- The same part in characters. -/
def basename (name : Str) : Str := (name.reverse.takeWhile (· ≠ '/')).reverse

theorem slash_mem_encode {c : Char} (h : 0x2f ∈ String.utf8EncodeChar c) : c = '/' := by
  have one := Utf8.encode_char_of_ascii (by decide) h
  have chars : Utf8.encode [c] = Utf8.encode ['/'] := by
    rw [Utf8.encode_cons, one]
    rfl
  exact List.singleton_inj.mp (Utf8.encode_injective chars)

theorem takeWhile_encode (name : Str) :
    ((Utf8.encode name).reverse.takeWhile (· ≠ 0x2f)).reverse = Utf8.encode (basename name) := by
  induction name using List.reverseRecOn with
  | nil => rfl
  | append_singleton name c ih =>
    have last : Utf8.encode (name ++ [c]) = Utf8.encode name ++ String.utf8EncodeChar c := by
      rw [Utf8.encode_append, Utf8.encode_cons]
      exact congrArg _ (List.append_nil _)
    rw [last, List.reverse_append, basename, List.reverse_append, List.reverse_singleton,
      List.singleton_append]
    by_cases hc : c = '/'
    · subst hc
      rfl
    · rw [List.takeWhile_append_of_pos, List.takeWhile_cons_of_pos (by simpa using hc), List.reverse_append,
        List.reverse_reverse, ih, List.reverse_cons, ← basename, Utf8.encode_append, Utf8.encode_cons]
      · exact congrArg _ (List.append_nil _).symm
      · intro b hb
        rw [decide_eq_true_eq]
        rintro rfl
        exact hc (slash_mem_encode (List.mem_reverse.mp hb))

theorem drop_tail (n : Bytes) : n.drop (tail n) = (n.reverse.takeWhile (· ≠ 0x2f)).reverse := by
  have parts : n = (n.reverse.dropWhile (· ≠ 0x2f)).reverse ++ (n.reverse.takeWhile (· ≠ 0x2f)).reverse := by
    rw [← List.reverse_append, List.takeWhile_append_dropWhile, List.reverse_reverse]
  have sizes := congrArg List.length parts
  rw [List.length_append, List.length_reverse, List.length_reverse] at sizes
  have front : tail n = (n.reverse.dropWhile (· ≠ 0x2f)).reverse.length := by
    rw [tail, List.length_reverse]
    omega
  rw [front]
  exact (congrArg (List.drop _) parts).trans List.drop_left

theorem baseOf_eq (name : Str) : baseOf name = Utf8.encode (basename name) := by
  rw [baseOf, drop_tail, takeWhile_encode]

theorem baseOf_eq_iff {n name : Str} : baseOf n = Utf8.encode name ↔ basename n = name := by
  rw [baseOf_eq]
  exact ⟨Utf8.encode_injective, congrArg Utf8.encode⟩

/-- A function of a dump. -/
structure Entry where
  name : Str
  code : Compiled
  flags : wordcode
  named : name ≠ []
  plain : '\x00' ∉ name
  load : flags.toNat < 4

namespace Entry

variable (e : Entry)

def wcfunc : Wcfunc := ⟨e.name, bldEprog e.code, e.flags⟩

def bytes : Bytes := Utf8.encode e.name

def base : Bytes := baseOf e.name

def body : Bytes := e.code.bytes

def bodyWords : Nat := (e.body.length + 3) / 4

def headWords : Nat := FDHEAD_WORDS + (e.bytes.length + 4) / 4

def head (start : Nat) : Fdhead := fdhead start e.wcfunc

theorem length_body : e.body.length = (e.code.ecbuf.length + 1) * 4 + e.code.pool.length := by
  rw [body, Compiled.bytes, List.length_append, length_bytesOf, List.length_append,
    List.length_singleton]

theorem lenBytes_wcfunc : lenBytes e.wcfunc.prog = e.body.length := by
  rw [length_body]
  simp only [lenBytes, wcfunc, bldEprog, List.length_append, List.length_singleton]
  omega

theorem lenWords_wcfunc : lenWords e.wcfunc.prog = e.bodyWords := by
  rw [lenWords, lenBytes_wcfunc, bodyWords, Int.tdiv_eq_ediv_of_nonneg (by omega)]
  omega

theorem length_writeHead (other : Bool) (start : Int) :
    (writeHead other start e.wcfunc).length = e.headWords * 4 := by
  have words : ∀ ws : List wordcode, ws.length = 6 → (bytesOf ws).length = 24 := by
    intro ws hws
    rw [length_bytesOf, hws]
  have head : (bytesOf (if other then fdswap (fdhead start e.wcfunc).words
      else (fdhead start e.wcfunc).words)).length = 24 := by
    apply words
    split
    · rfl
    · rfl
  have name : (Utf8.encode e.wcfunc.name).length = e.bytes.length := rfl
  simp only [writeHead, List.length_append, head, headWords, name, List.length_singleton]
  unfold FDHEAD_WORDS
  split
  · rw [List.length_take, List.length_take, head]
    omega
  · rw [List.length_nil]
    omega

/-- A header on the page: its words, its name with a NUL, and what fills the last word. -/
theorem writeHead_eq (start : Nat) : ∃ fill, writeHead false start e.wcfunc =
    bytesOf (e.head start).words ++ (e.bytes ++ 0 :: fill) := by
  refine ⟨if (e.bytes.length + 1) % 4 ≠ 0 then
    ((bytesOf (e.head start).words).take 4).take (4 - (e.bytes.length + 1) % 4) else [], ?_⟩
  exact congrArg (bytesOf (e.head start).words ++ ·) (List.append_assoc e.bytes [0] _)

theorem writeBody_eq : writeBody false e.wcfunc =
    e.body ++ List.replicate (e.bodyWords * 4 - e.body.length) 0 := by
  have size : (lenWords e.wcfunc.prog).toNat = e.bodyWords := by
    rw [lenWords_wcfunc, Int.toNat_natCast]
  have whole : e.body.take (e.bodyWords * 4) = e.body := by
    apply List.take_of_length_le
    rw [bodyWords]
    omega
  have content : bytesOf e.wcfunc.prog.prog ++ e.wcfunc.prog.strs.getD [] = e.body := rfl
  simp only [writeBody, Bool.false_eq_true, if_false, size, content, resize, whole]

theorem length_writeBody (other : Bool) : (writeBody other e.wcfunc).length = e.bodyWords * 4 := by
  have size : (lenWords e.wcfunc.prog).toNat = e.bodyWords := by
    rw [lenWords_wcfunc, Int.toNat_natCast]
  simp only [writeBody, resize, size, List.length_append, List.length_take, List.length_replicate]
  omega

end Entry

section Layout

def headTotal (es : List Entry) : Nat := (es.map Entry.headWords).sum
def bodyTotal (es : List Entry) : Nat := (es.map Entry.bodyWords).sum

theorem headTotal_cons (e : Entry) (es : List Entry) : headTotal (e :: es) = e.headWords + headTotal es := rfl
theorem bodyTotal_cons (e : Entry) (es : List Entry) : bodyTotal (e :: es) = e.bodyWords + bodyTotal es := rfl

theorem Entry.headWords_pos (e : Entry) : 0 < e.headWords := Nat.lt_of_lt_of_le (by decide) (Nat.le_add_right _ _)

theorem length_le_headTotal (es : List Entry) : es.length ≤ headTotal es := by
  induction es with
  | nil => exact Nat.le_refl 0
  | cons e es ih =>
    have pos := e.headWords_pos
    rw [List.length_cons, headTotal_cons]
    omega

/-- The functions with the words their bodies start at. -/
def placed : Nat → List Entry → List (Nat × Entry)
  | _, [] => []
  | start, e :: es => (start, e) :: placed (start + e.bodyWords) es

variable (other : Bool) (start : Nat) (es : List Entry)

theorem writeHeads_cons (e : Entry) :
    writeHeads other start ((e :: es).map Entry.wcfunc) =
      writeHead other start e.wcfunc ++
        writeHeads other (start + e.bodyWords : Nat) (es.map Entry.wcfunc) := by
  rw [List.map_cons, writeHeads, Entry.lenWords_wcfunc, Int.natCast_add]

theorem length_writeHeads :
    (writeHeads other start (es.map Entry.wcfunc)).length = headTotal es * 4 := by
  induction es generalizing start with
  | nil => rfl
  | cons e es ih =>
    rw [writeHeads_cons, List.length_append, Entry.length_writeHead, ih, headTotal_cons, Nat.add_mul]

theorem length_bodies :
    ((es.map Entry.wcfunc).flatMap (writeBody other)).length = bodyTotal es * 4 := by
  induction es with
  | nil => rfl
  | cons e es ih =>
    rw [List.map_cons, List.flatMap_cons, List.length_append, Entry.length_writeBody, ih,
      bodyTotal_cons, Nat.add_mul]

theorem length_writePass (map : Bool) (tlen : Int) :
    (writePass other (es.map Entry.wcfunc) map start tlen).length =
      (FD_PRELEN + headTotal es + bodyTotal es) * 4 := by
  rw [writePass, List.length_append, List.length_append, length_bytesOf, length_prelude,
    length_writeHeads, length_bodies]
  omega

/-- Every body stands at its start. -/
theorem bodies_stand {file : Bytes}
    (h : Stands file (start * 4) ((es.map Entry.wcfunc).flatMap (writeBody other))) {p : Nat × Entry}
    (hp : p ∈ placed start es) : Stands file (p.1 * 4) (writeBody other p.2.wcfunc) := by
  induction es generalizing start with
  | nil => cases hp
  | cons e es ih =>
    rw [List.map_cons, List.flatMap_cons] at h
    rcases List.mem_cons.mp hp with rfl | hp
    · exact h.left
    · apply ih (start + e.bodyWords) (h.right _) hp
      rw [Entry.length_writeBody, Nat.add_mul]

theorem mem_placed {p : Nat × Entry} (hp : p ∈ placed start es) : p.2 ∈ es := by
  induction es generalizing start with
  | nil => cases hp
  | cons e es ih =>
    rcases List.mem_cons.mp hp with rfl | hp
    · exact List.mem_cons_self
    · exact List.mem_cons_of_mem e (ih (start + e.bodyWords) hp)

theorem placed_bounds {p : Nat × Entry} (hp : p ∈ placed start es) :
    p.1 + p.2.bodyWords ≤ start + bodyTotal es := by
  induction es generalizing start with
  | nil => cases hp
  | cons e es ih =>
    rw [bodyTotal_cons]
    rcases List.mem_cons.mp hp with rfl | hp
    · exact Nat.add_le_add_left (Nat.le_add_right _ _) _
    · have later := ih (start + e.bodyWords) hp
      omega

end Layout

section Headers

theorem word_append (p r : List wordcode) (i : Nat) : word (p ++ r) (p.length + i) = word r i := by
  rw [word, word, List.getD_eq_getElem?_getD, List.getElem?_append_right (Nat.le_add_right _ _),
    Nat.add_sub_cancel_left, List.getD_eq_getElem?_getD]

variable (p q : List wordcode) (fh : Fdhead)

theorem readFdhead_append : readFdhead (p ++ (fh.words ++ q)) p.length = some fh := by
  have inside : ¬ p.length + FDHEAD_WORDS > (p ++ (fh.words ++ q)).length := by
    have six : fh.words.length = FDHEAD_WORDS := rfl
    rw [List.length_append, List.length_append, six]
    omega
  rw [readFdhead, if_neg inside]
  have first : word (p ++ (fh.words ++ q)) p.length = word (fh.words ++ q) 0 := word_append p _ 0
  rw [first]
  simp only [word_append]
  rfl

theorem nextfdheadOffset_append :
    nextfdheadOffset (p ++ (fh.words ++ q)) p.length = p.length + fh.hlen.toNat := by
  rw [nextfdheadOffset, word_append]
  rfl

theorem fdname_append : fdname (p ++ (fh.words ++ q)) p.length = Utf8.lossy (cstr (bytesOf q)) := by
  have six : (p ++ fh.words).length = p.length + FDHEAD_WORDS := List.length_append
  rw [fdname, ← List.append_assoc, ← six, List.drop_left]

theorem bytesOf_drop (n : Nat) :
    (bytesOf (p ++ (fh.words ++ q))).drop ((p.length + FDHEAD_WORDS) * 4 + n) = (bytesOf q).drop n := by
  have six : (bytesOf (p ++ fh.words)).length = (p.length + FDHEAD_WORDS) * 4 := by
    rw [length_bytesOf, List.length_append]
    rfl
  rw [← List.append_assoc, bytesOf_append, ← six, List.drop_append, List.drop_of_length_le (by omega),
    List.nil_append, Nat.add_sub_cancel_left]

end Headers

section Names

theorem cstr_append {n : Bytes} (hn : 0 ∉ n) (s : Bytes) : cstr (n ++ 0 :: s) = n := by
  rw [cstr, List.takeWhile_append_of_pos]
  · rw [List.takeWhile_cons_of_neg (by simp), List.append_nil]
  · intro b hb
    rw [decide_eq_true_eq]
    rintro rfl
    exact hn hb

/-- The prefix test with its NUL is a test for the whole name. -/
theorem prefix_nul_iff {want n : Bytes} (hwant : 0 ∉ want) (hn : 0 ∉ n) (s : Bytes) :
    want.isPrefixOf (n ++ 0 :: s) = true ∧ ((n ++ 0 :: s).drop want.length).head?.getD 0 = 0 ↔
      n = want := by
  rw [List.isPrefixOf_iff_prefix]
  constructor
  · rintro ⟨⟨t, ht⟩, hnext⟩
    rw [← ht, List.drop_left] at hnext
    rcases List.append_eq_append_iff.mp ht with ⟨u, hu, htail⟩ | ⟨u, hu, htail⟩
    · cases u with
      | nil => rw [hu, List.append_nil]
      | cons b u =>
        rw [htail] at hnext
        have nul : b = 0 := hnext
        rw [hu, nul] at hn
        exact absurd (List.mem_append_right want List.mem_cons_self) hn
    · cases u with
      | nil => rw [hu, List.append_nil]
      | cons b u =>
        have nul : 0 = b := (List.cons_eq_cons.mp htail).1
        rw [hu, ← nul] at hwant
        exact absurd (List.mem_append_right n List.mem_cons_self) hwant
  · rintro rfl
    refine ⟨⟨0 :: s, rfl⟩, ?_⟩
    rw [List.drop_left]
    rfl

theorem tail_le (n : Bytes) : tail n ≤ n.length := Nat.sub_le _ _

end Names

namespace Entry

variable (e : Entry)

theorem zero_not_mem_bytes : 0 ∉ e.bytes := fun h => e.plain (Utf8.zero_mem_encode h)

theorem zero_not_mem_base : 0 ∉ e.base := fun h => e.zero_not_mem_bytes (List.mem_of_mem_drop h)

variable (start : Nat)

/-- What a walk meets at a header: its words, and bytes that start with the name. -/
theorem wordsOf_front {s : Bytes} (hs : s.length % 4 = 0) : ∃ q r,
    wordsOf (writeHead false start e.wcfunc ++ s) = (e.head start).words ++ q ∧
      bytesOf q = e.bytes ++ 0 :: r := by
  obtain ⟨fill, hfill⟩ := e.writeHead_eq start
  have size := e.length_writeHead false start
  refine ⟨wordsOf (e.bytes ++ 0 :: (fill ++ s)), fill ++ s, ?_, ?_⟩
  · rw [hfill, List.append_assoc, wordsOf_bytesOf, List.append_assoc, List.cons_append]
  · apply bytesOf_wordsOf
    have six : (bytesOf (e.head start).words).length = 24 := length_bytesOf _
    rw [hfill, List.length_append, six, List.length_append, List.length_cons] at size
    rw [List.length_append, List.length_cons, List.length_append]
    omega

theorem flags_head : (e.head start).flags = fdhbldflags e.flags (asU32 (tail e.bytes)) := rfl

variable {e} {start : Nat}

/-- A name short enough for the tail's 30 bits. -/
def Short (e : Entry) : Prop := e.headWords * 4 < 2 ^ 30

theorem Short.length (h : Short e) : e.bytes.length < 2 ^ 30 := by
  unfold Short headWords at h
  omega

theorem Short.toNat_tail (h : Short e) : (asU32 (tail e.bytes)).toNat = tail e.bytes := by
  have le := tail_le e.bytes
  have lt := h.length
  exact asU32_natCast (by omega)

theorem Short.fdhtail (h : Short e) : (fdhtail (e.head start)).toNat = tail e.bytes := by
  have le := tail_le e.bytes
  have lt := h.length
  have same : (Dump.fdhtail (e.head start)).toNat = (asU32 (tail e.bytes)).toNat := by
    apply toNat_fdhtail (e.flags_head start) e.load
    rw [h.toNat_tail]
    omega
  rw [same, h.toNat_tail]

theorem Short.fdhflags (h : Short e) : fdhflags (e.head start) = e.flags := by
  have le := tail_le e.bytes
  have lt := h.length
  apply fdhflags_eq (e.flags_head start) e.load
  rw [h.toNat_tail]
  omega

theorem Short.hlen (h : Short e) : (e.head start).hlen.toNat = e.headWords := by
  have lt := h.length
  have same : (e.head start).hlen = asU32 (e.headWords : Nat) := by
    unfold headWords
    rw [Int.natCast_add, Int.natCast_ediv]
    rfl
  rw [same, asU32_natCast]
  unfold Short at h
  omega

end Entry

section Walk

/-- The headers that a walk has still in front of it. -/
structure Rest (h : List wordcode) (cur start : Nat) (es : List Entry) : Prop where
  words : ∃ p, p.length = cur ∧ h = p ++ wordsOf (writeHeads false start (es.map Entry.wcfunc))
  total : (fdheaderlen h).toNat = cur + headTotal es
  short : ∀ e ∈ es, e.Short

/-- What the walk reads at a function's header. -/
structure Reads (h : List wordcode) (cur start : Nat) (e : Entry) : Prop where
  head : readFdhead h cur = some (e.head start)
  next : nextfdheadOffset h cur = cur + e.headWords
  name : fdname h cur = e.name
  same : ∀ want, 0 ∉ want → (sameName h want cur (e.head start) = true ↔ e.base = want)

variable {h : List wordcode} {cur start : Nat} {e : Entry} {es : List Entry}

theorem Rest.reads (rest : Rest h cur start (e :: es)) : Reads h cur start e := by
  obtain ⟨p, rfl, hp⟩ := rest.words
  have short := rest.short e List.mem_cons_self
  have four : (writeHeads false (start + e.bodyWords : Nat) (es.map Entry.wcfunc)).length % 4 = 0 := by
    rw [length_writeHeads]
    exact Nat.mul_mod_left _ 4
  obtain ⟨q, r, hq, bytes⟩ := e.wordsOf_front start four
  rw [writeHeads_cons, hq] at hp
  subst hp
  refine ⟨readFdhead_append p q _, ?_, ?_, ?_⟩
  · rw [nextfdheadOffset_append, short.hlen]
  · rw [fdname_append, bytes, cstr_append e.zero_not_mem_bytes, Entry.bytes, Utf8.lossy_encode]
  · intro want hwant
    have entry : (bytesOf q).drop (tail e.bytes) = e.base ++ 0 :: r := by
      rw [bytes, List.drop_append_of_le_length (tail_le e.bytes)]
      rfl
    rw [sameName, short.fdhtail, bytesOf_drop, entry, Bool.and_eq_true, decide_eq_true_eq]
    exact prefix_nul_iff hwant e.zero_not_mem_base r

theorem Rest.inside (rest : Rest h cur start (e :: es)) : cur < (fdheaderlen h).toNat := by
  have pos := e.headWords_pos
  rw [rest.total, headTotal_cons]
  omega

theorem Rest.next (rest : Rest h cur start (e :: es)) :
    Rest h (cur + e.headWords) (start + e.bodyWords) es := by
  obtain ⟨p, rfl, hp⟩ := rest.words
  have size := e.length_writeHead false start
  have four : (writeHead false start e.wcfunc).length % 4 = 0 := by
    rw [size]
    exact Nat.mul_mod_left _ 4
  refine ⟨⟨p ++ wordsOf (writeHead false start e.wcfunc), ?_, ?_⟩, ?_, ?_⟩
  · have count := length_wordsOf four
    rw [List.length_append]
    omega
  · rw [hp, writeHeads_cons, wordsOf_append four, List.append_assoc]
  · rw [rest.total, headTotal_cons, Nat.add_assoc]
  · exact fun e' he' => rest.short e' (List.mem_cons_of_mem _ he')

theorem Rest.done (rest : Rest h cur start []) : ¬ cur < (fdheaderlen h).toNat :=
  Nat.not_lt.mpr (Nat.le_of_eq rest.total)

/-- The search finds the first function of the name. -/
theorem Rest.find (rest : Rest h cur start es) {want : Bytes} (hwant : 0 ∉ want) {fuel : Nat}
    (hfuel : es.length < fuel) :
    findHead h want fuel cur =
      some (((placed start es).find? fun q => q.2.base = want).map fun q => q.2.head q.1) := by
  induction es generalizing cur start fuel with
  | nil =>
    obtain ⟨n, rfl⟩ := Nat.exists_eq_add_one_of_ne_zero (Nat.ne_of_gt hfuel)
    rw [findHead, if_neg rest.done]
    rfl
  | cons e es ih =>
    obtain ⟨n, rfl⟩ := Nat.exists_eq_add_one_of_ne_zero (Nat.ne_of_gt (Nat.zero_lt_of_lt hfuel))
    have reads := rest.reads
    rw [findHead, if_pos rest.inside, reads.head, placed]
    dsimp only
    by_cases he : e.base = want
    · rw [if_pos ((reads.same want hwant).mpr he), List.find?_cons, decide_eq_true he]
      rfl
    · rw [if_neg fun hs => he ((reads.same want hwant).mp hs), List.find?_cons, decide_eq_false he,
        reads.next]
      exact ih rest.next (Nat.lt_of_succ_lt_succ hfuel)

/-- The walk meets every function, in order. -/
theorem Rest.walk (rest : Rest h cur start es) {fuel : Nat} (hfuel : es.length < fuel) :
    ∃ entries, walkHeads h fuel cur = some entries ∧
      entries.map (fun q => (fdname h q.1, (fdhtail q.2).toNat)) = es.map fun e => (e.name, tail e.bytes) := by
  induction es generalizing cur start fuel with
  | nil =>
    obtain ⟨n, rfl⟩ := Nat.exists_eq_add_one_of_ne_zero (Nat.ne_of_gt hfuel)
    refine ⟨[], ?_, rfl⟩
    rw [walkHeads, if_neg rest.done]
  | cons e es ih =>
    obtain ⟨n, rfl⟩ := Nat.exists_eq_add_one_of_ne_zero (Nat.ne_of_gt (Nat.zero_lt_of_lt hfuel))
    have reads := rest.reads
    obtain ⟨entries, hwalk, hmap⟩ := ih rest.next (Nat.lt_of_succ_lt_succ hfuel)
    refine ⟨(cur, e.head start) :: entries, ?_, ?_⟩
    · rw [walkHeads, if_pos rest.inside, reads.head]
      dsimp only
      rw [reads.next, hwalk]
      rfl
    · rw [List.map_cons, List.map_cons, hmap, reads.name,
        (rest.short e List.mem_cons_self).fdhtail]

end Walk

end Zshrs.Parse.Dump
