import Zshrs.Parse.DumpRoundTrip
import Mathlib.Data.List.TakeWhile

namespace Zshrs.Parse.Zwc

open Lib Lib.Words Dump
open Lib.Bytes (getRange Stands stands_zero)
open Wordcode (wordcode Str)

structure ZwcHeader where
  magic : wordcode
  flags : UInt8
  version : Str
  headerLen : wordcode
  otherOffset : wordcode

structure ZwcFunction where
  name : Str
  start : wordcode
  len : wordcode
  npats : wordcode
  strsOffset : wordcode
  flags : wordcode
  deriving DecidableEq

structure ZwcFile where
  header : ZwcHeader
  functions : List ZwcFunction
  wordcode : List wordcode
  strings : Bytes

inductive ZwcError
  | unexpectedEof
  | invalidMagic (magic : wordcode)

section Loading

def readU32 (swap : Bool) (bytes : Bytes) (offset : Nat) : wordcode :=
  let val := ofLeBytes ((bytes.drop offset).take 4)
  if swap then swapBytes val else val

def readFunction (swap : Bool) (headerBuf : Bytes) (offset : Nat) : ZwcFunction where
  name := Utf8.lossy (cstr (headerBuf.drop (offset + 24)))
  start := readU32 swap headerBuf offset
  len := readU32 swap headerBuf (offset + 4)
  npats := readU32 swap headerBuf (offset + 8)
  strsOffset := readU32 swap headerBuf (offset + 12)
  flags := readU32 swap headerBuf (offset + 20)

/-- The walk over the headers. Nothing where a header's length sends it round for ever. -/
def readFunctions (swap : Bool) (headerBuf : Bytes) : Nat → Nat → Option (List ZwcFunction)
  | 0, _ => none
  | fuel + 1, offset =>
      if offset < headerBuf.length then
        if offset + 24 > headerBuf.length then some []
        else
          let f := readFunction swap headerBuf offset
          if f.name = [] then some []
          else
            let hlen := readU32 swap headerBuf (offset + 16)
            (readFunctions swap headerBuf fuel (offset + hlen.toNat * 4)).map (f :: ·)
      else some []

/-- The bytes 5 to 7. -/
def otherOffset (buf : Bytes) : wordcode :=
  (buf.getD 5 0).toUInt32 ||| ((buf.getD 6 0).toUInt32 <<< 8) ||| ((buf.getD 7 0).toUInt32 <<< 16)

def load (file : Bytes) : Option (Except ZwcError ZwcFile) :=
  match getRange file 0 prefixBytes with
  | none => some (.error .unexpectedEof)
  | some buf =>
      let magic := readU32 false buf 0
      if magic ≠ FD_MAGIC ∧ magic ≠ FD_OMAGIC then some (.error (.invalidMagic magic))
      else
        let swap : Bool := magic ≠ FD_MAGIC
        let headerLen := readU32 swap buf (FD_PRELEN * 4)
        let header : ZwcHeader :=
          ⟨magic, buf.getD 4 0, Utf8.lossy (cstr (buf.drop 8)), headerLen, otherOffset buf⟩
        match getRange file 0 (headerLen.toNat * 4) with
        | none => some (.error .unexpectedEof)
        | some headerBuf =>
            (readFunctions swap headerBuf (headerBuf.length + 1) (FD_PRELEN * 4)).map fun functions =>
              let rest := file.drop (headerLen.toNat * 4)
              let words := wordsOf rest
              .ok ⟨header, functions, if swap then words.map swapBytes else words, rest⟩

def listFunctions (f : ZwcFile) : List Str := f.functions.map ZwcFunction.name

def getFunction (f : ZwcFile) (name : Str) : Option ZwcFunction :=
  f.functions.find? fun g => g.name = name || ('/' :: name).isSuffixOf g.name

/-- What `decode_function` gives the decoder: the words from the function's start on, their bytes,
and where in these the strings start. -/
def decoderInput (f : ZwcFile) (func : ZwcFunction) : Option (List wordcode × Bytes × Nat) :=
  let startIdx := func.start.toNat - f.header.headerLen.toNat
  if startIdx ≥ f.wordcode.length then none
  else
    let funcWordcode := f.wordcode.drop startIdx
    some (funcWordcode, bytesOf funcWordcode, func.strsOffset.toNat)

end Loading

section Fields

/-- Words as a machine of the other byte order writes them. -/
def ordered (other : Bool) (ws : List wordcode) : List wordcode := if other then fdswap ws else ws

variable (other : Bool)

theorem length_ordered (ws : List wordcode) : (ordered other ws).length = ws.length := by
  cases other with
  | false => rfl
  | true => exact List.length_map _

theorem ordered_ordered (ws : List wordcode) : ordered other (ordered other ws) = ws := by
  cases other with
  | false => rfl
  | true =>
    have twice : ∀ w ∈ ws, (swapBytes ∘ swapBytes) w = id w := fun w _ => swapBytes_swapBytes w
    exact List.map_map.trans ((List.map_congr_left twice).trans (List.map_id ws))

theorem readU32_append (pre s : Bytes) (n : Nat) :
    readU32 other (pre ++ s) (pre.length + n) = readU32 other s n := by
  rw [readU32, readU32, List.drop_append, List.drop_of_length_le (Nat.le_add_right _ _), List.nil_append,
    Nat.add_sub_cancel_left]

theorem readU32_cons (w : wordcode) (ws : List wordcode) (s : Bytes) :
    readU32 other (bytesOf (ordered other (w :: ws)) ++ s) 0 = w := by
  have first : ordered other (w :: ws) = (if other then swapBytes w else w) :: ordered other ws := by
    cases other with
    | false => rfl
    | true => rfl
  rw [first, bytesOf_cons, List.append_assoc, readU32, List.drop_zero,
    ← length_toLeBytes (if other then swapBytes w else w), List.take_left, ofLeBytes_toLeBytes]
  cases other with
  | false => rfl
  | true => exact swapBytes_swapBytes w

/-- A word on the page is read in the page's own order. -/
theorem readU32_ordered {ws : List wordcode} {i : Nat} (hi : i < ws.length) (s : Bytes) :
    readU32 other (bytesOf (ordered other ws) ++ s) (i * 4) = ws[i] := by
  have parts : ordered other ws = ordered other (ws.take i) ++ ordered other (ws.drop i) := by
    conv_lhs => rw [← List.take_append_drop i ws]
    cases other with
    | false => rfl
    | true => exact List.map_append
  have size : (bytesOf (ordered other (ws.take i))).length = i * 4 := by
    rw [length_bytesOf, length_ordered, List.length_take_of_le (Nat.le_of_lt hi)]
  have jump := readU32_append other (bytesOf (ordered other (ws.take i)))
    (bytesOf (ordered other (ws.drop i)) ++ s) 0
  rw [size, Nat.add_zero] at jump
  rw [parts, bytesOf_append, List.append_assoc, jump, List.drop_eq_getElem_cons hi, readU32_cons]

end Fields

section Walk

/-- A function as its header gives it. -/
def listed (start : Nat) (e : Entry) : ZwcFunction :=
  let h := e.head start
  ⟨e.name, h.start, h.len, h.npats, h.strs, h.flags⟩

theorem writeHead_ordered (other : Bool) (start : Nat) (e : Entry) : ∃ fill, writeHead other start e.wcfunc =
    bytesOf (ordered other (e.head start).words) ++ (e.bytes ++ 0 :: fill) := by
  refine ⟨if (e.bytes.length + 1) % 4 ≠ 0 then ((bytesOf (ordered other (e.head start).words)).take 4).take
    (4 - (e.bytes.length + 1) % 4) else [], ?_⟩
  exact congrArg (bytesOf (ordered other (e.head start).words) ++ ·) (List.append_assoc e.bytes [0] _)

variable (other : Bool) (pre s : Bytes) (start : Nat) (e : Entry) {es : List Entry}

/-- The words of a header, where a reader looks for them. -/
theorem readU32_head (i : Nat) (hi : i < 6) :
    readU32 other (pre ++ (writeHead other start e.wcfunc ++ s)) (pre.length + i * 4) =
      (e.head start).words.get ⟨i, hi⟩ := by
  obtain ⟨fill, hfill⟩ := writeHead_ordered other start e
  rw [readU32_append, hfill, List.append_assoc]
  exact readU32_ordered other hi _

theorem readFunction_head :
    readFunction other (pre ++ (writeHead other start e.wcfunc ++ s)) pre.length = listed start e := by
  obtain ⟨fill, hfill⟩ := writeHead_ordered other start e
  have six : (bytesOf (ordered other (e.head start).words)).length = 24 := by
    rw [length_bytesOf, length_ordered]
    rfl
  have name : (pre ++ (writeHead other start e.wcfunc ++ s)).drop (pre.length + 24) =
      e.bytes ++ 0 :: (fill ++ s) := by
    rw [hfill, List.drop_append, List.drop_of_length_le (Nat.le_add_right _ _), List.nil_append,
      Nat.add_sub_cancel_left, List.append_assoc, ← six, List.drop_left, List.append_assoc, List.cons_append]
  have starts := readU32_head other pre s start e 0 (by decide)
  have len := readU32_head other pre s start e 1 (by decide)
  have npats := readU32_head other pre s start e 2 (by decide)
  have strs := readU32_head other pre s start e 3 (by decide)
  have flags := readU32_head other pre s start e 5 (by decide)
  rw [readFunction, name, cstr_append e.zero_not_mem_bytes, Entry.bytes, Utf8.lossy_encode]
  exact congr (congr (congr (congr (congrArg (ZwcFunction.mk e.name) starts) len) npats) strs) flags

/-- What is listed of some functions. -/
def listedOf (start : Nat) (es : List Entry) : List ZwcFunction :=
  (placed start es).map fun p => listed p.1 p.2

theorem readFunctions_heads (short : ∀ e ∈ es, e.Short) {fuel : Nat} (hfuel : es.length < fuel) :
    readFunctions other (pre ++ writeHeads other start (es.map Entry.wcfunc)) fuel pre.length =
      some (listedOf start es) := by
  induction es generalizing pre start fuel with
  | nil =>
    obtain ⟨n, rfl⟩ := Nat.exists_eq_add_one_of_ne_zero (Nat.ne_of_gt hfuel)
    have done : ¬ pre.length < (pre ++ writeHeads other start ([].map Entry.wcfunc)).length :=
      Nat.not_lt.mpr (Nat.le_of_eq List.length_append)
    rw [readFunctions, if_neg done]
    rfl
  | cons e es ih =>
    obtain ⟨n, rfl⟩ := Nat.exists_eq_add_one_of_ne_zero (Nat.ne_of_gt (Nat.zero_lt_of_lt hfuel))
    rw [writeHeads_cons]
    have size := e.length_writeHead other start
    have six : 6 ≤ e.headWords := Nat.le_add_right _ _
    have total : (pre ++ (writeHead other start e.wcfunc ++
        writeHeads other (start + e.bodyWords : Nat) (es.map Entry.wcfunc))).length =
          pre.length + e.headWords * 4 + headTotal es * 4 := by
      rw [List.length_append, List.length_append, size, length_writeHeads, Nat.add_assoc]
    have hlen : (e.head start).hlen.toNat = e.headWords := (short e List.mem_cons_self).hlen
    have next : pre.length + e.headWords * 4 = (pre ++ writeHead other start e.wcfunc).length := by
      rw [List.length_append, size]
    have jump : readU32 other _ (pre.length + 16) = (e.head start).hlen := readU32_head other pre
      (writeHeads other (start + e.bodyWords : Nat) (es.map Entry.wcfunc)) start e 4 (by decide)
    rw [readFunctions, if_pos (by omega), if_neg (by omega)]
    simp only [readFunction_head, jump, hlen]
    have named : ¬ (listed start e).name = [] := e.named
    rw [if_neg named, next, ← List.append_assoc,
      ih _ _ (fun e' he' => short e' (List.mem_cons_of_mem _ he')) (Nat.lt_of_succ_lt_succ hfuel)]
    rfl

end Walk

section Loaded

/-- The string pool of a program with what fills its last word. -/
def padded (c : Compiled) : Bytes :=
  c.pool ++ List.replicate ((c.bytes.length + 3) / 4 * 4 - c.bytes.length) 0

/-- What the loader's string table has of it: in the other byte order every word of it is turned. -/
def tableOf (other : Bool) (c : Compiled) : Bytes := bytesOf (ordered other (wordsOf (padded c)))

theorem length_padded (c : Compiled) : (padded c).length % 4 = 0 := by
  have size : c.bytes.length = (c.ecbuf ++ [0]).length * 4 + c.pool.length := by
    rw [Compiled.bytes, List.length_append, length_bytesOf]
  rw [padded, List.length_append, List.length_replicate]
  omega

theorem tableOf_native (c : Compiled) : tableOf false c = padded c := bytesOf_wordsOf (length_padded c)

theorem writeBody_ordered (other : Bool) (e : Entry) : writeBody other e.wcfunc =
    bytesOf (ordered other (e.code.ecbuf ++ [0])) ++ padded e.code := by
  have size : (lenWords e.wcfunc.prog).toNat = e.bodyWords := by
    rw [Entry.lenWords_wcfunc, Int.toNat_natCast]
  have content : bytesOf (ordered other (e.code.ecbuf ++ [0])) ++ e.code.pool =
      bytesOf (if other then fdswap e.wcfunc.prog.prog else e.wcfunc.prog.prog) ++
        e.wcfunc.prog.strs.getD [] := rfl
  have length : (bytesOf (ordered other (e.code.ecbuf ++ [0])) ++ e.code.pool).length = e.body.length := by
    rw [e.length_body, List.length_append, length_bytesOf, length_ordered, List.length_append,
      List.length_singleton]
  have whole : (bytesOf (ordered other (e.code.ecbuf ++ [0])) ++ e.code.pool).take (e.bodyWords * 4) =
      bytesOf (ordered other (e.code.ecbuf ++ [0])) ++ e.code.pool := by
    apply List.take_of_length_le
    rw [length, Entry.bodyWords]
    omega
  rw [writeBody, ← content, size, resize, whole, length, List.append_assoc]
  rfl

variable {es : List Entry} {mapd : Bool}

theorem ordered_append (other : Bool) (ws vs : List wordcode) :
    ordered other (ws ++ vs) = ordered other ws ++ ordered other vs := by
  cases other with
  | false => rfl
  | true => exact List.map_append

theorem writeHeads_first (other : Bool) (start : Nat) (e : Entry) (es : List Entry) :
    ∃ b, writeHeads other start ((e :: es).map Entry.wcfunc) =
      bytesOf (ordered other [asU32 start]) ++ b := by
  obtain ⟨fill, hfill⟩ := writeHead_ordered other start e
  have words : (e.head start).words = [asU32 start] ++ (e.head start).words.tail := rfl
  rw [writeHeads_cons, hfill, words, ordered_append, bytesOf_append, List.append_assoc, List.append_assoc]
  exact ⟨_, rfl⟩

variable (mapd) (tlen : Int) (w : wordcode)

/-- The start of a pass: its magic says the byte order, in which its header's length is read. -/
theorem readU32_magic (other : Bool) (s : Bytes) :
    readU32 false (bytesOf (prelude other mapd tlen) ++ s) 0 = if other then FD_OMAGIC else FD_MAGIC := by
  rw [prelude_eq]
  exact readU32_cons false _ _ s

theorem readU32_total (other : Bool) (s : Bytes) :
    readU32 other (bytesOf (prelude other mapd tlen) ++ (bytesOf (ordered other [w]) ++ s)) (FD_PRELEN * 4) = w := by
  have size : (bytesOf (prelude other mapd tlen)).length = FD_PRELEN * 4 := by
    rw [length_bytesOf, length_prelude]
  rw [← size]
  exact (readU32_append other _ _ 0).trans (readU32_cons other w [] s)

theorem version_prelude (other : Bool) (s : Bytes) :
    Utf8.lossy (cstr ((bytesOf (prelude other mapd tlen) ++ s).drop 8)) = ZSH_VERSION := by
  rw [prelude_eq, bytesOf_cons, bytesOf_cons]
  have behind : ∀ a b : wordcode, ∀ t : Bytes,
      (toLeBytes a ++ (toLeBytes b ++ bytesOf (0x2e392e35 :: 0x32 :: List.replicate 8 0)) ++ t).drop 8 =
        ZSH_VERSION.map (fun c => UInt8.ofNat c.toNat) ++ 0 :: (List.replicate 34 0 ++ t) := by
    intro a b t
    rfl
  rw [behind, cstr_append (by decide)]
  rfl

variable {mapd}

/-- A pass of a dump is loaded whole, in either byte order. -/
theorem load_writePass (other : Bool) (filled : es ≠ []) (small : hlenOf es * 4 < 2 ^ 30) (s : Bytes) :
    ∃ header, header.headerLen.toNat = hlenOf es ∧ header.version = ZSH_VERSION ∧
      load (writePass other (es.map Entry.wcfunc) mapd (hlenOf es) (tlenOf es) ++ s) =
        some (.ok ⟨header, listedOf (hlenOf es) es,
          ordered other (wordsOf ((es.map Entry.wcfunc).flatMap (writeBody other) ++ s)),
          (es.map Entry.wcfunc).flatMap (writeBody other) ++ s⟩) := by
  obtain ⟨e, es', hes⟩ := List.exists_cons_of_ne_nil filled
  obtain ⟨b, hb⟩ := writeHeads_first other (hlenOf es) e es'
  rw [← hes] at hb
  have pre : (bytesOf (prelude other mapd (tlenOf es))).length = FD_PRELEN * 4 := by
    rw [length_bytesOf, length_prelude]
  have total : (asU32 (hlenOf es : Nat)).toNat = hlenOf es := asU32_natCast (by omega)
  generalize hbodies : (es.map Entry.wcfunc).flatMap (writeBody other) ++ s = bodies
  have file : writePass other (es.map Entry.wcfunc) mapd (hlenOf es) (tlenOf es) ++ s =
      bytesOf (prelude other mapd (tlenOf es)) ++ writeHeads other (hlenOf es) (es.map Entry.wcfunc) ++
        bodies := by
    rw [writePass, ← hbodies, List.append_assoc, List.append_assoc, List.append_assoc]
  have header : (bytesOf (prelude other mapd (tlenOf es)) ++
      writeHeads other (hlenOf es) (es.map Entry.wcfunc)).length = hlenOf es * 4 := by
    rw [List.length_append, pre, length_writeHeads, hlenOf, Nat.add_mul]
  have all := stands_zero (bytesOf (prelude other mapd (tlenOf es)) ++
    writeHeads other (hlenOf es) (es.map Entry.wcfunc) ++ bodies)
  have front : getRange (bytesOf (prelude other mapd (tlenOf es)) ++
      writeHeads other (hlenOf es) (es.map Entry.wcfunc) ++ bodies) 0 prefixBytes =
      some (bytesOf (prelude other mapd (tlenOf es)) ++
        (bytesOf (ordered other [asU32 (hlenOf es : Nat)]) ++ [])) := by
    rw [List.append_nil]
    rw [hb, ← List.append_assoc] at all ⊢
    apply all.left.left.getRange
    rw [List.length_append, pre, length_bytesOf, length_ordered]
    rfl
  have whole := all.left.getRange header.symm
  have rest : (bytesOf (prelude other mapd (tlenOf es)) ++
      writeHeads other (hlenOf es) (es.map Entry.wcfunc) ++ bodies).drop (hlenOf es * 4) = bodies :=
    List.drop_left' header
  have fuel : es.length < hlenOf es * 4 + 1 := by
    have le := length_le_headTotal es
    rw [hlenOf]
    omega
  have walk := readFunctions_heads other (bytesOf (prelude other mapd (tlenOf es))) (hlenOf es)
    (short_of_hlen small) fuel
  rw [pre] at walk
  have swap : decide ((if other then FD_OMAGIC else FD_MAGIC) ≠ FD_MAGIC) = other := by
    cases other
    · rfl
    · rfl
  have magic : ¬ ((if other then FD_OMAGIC else FD_MAGIC) ≠ FD_MAGIC ∧
      (if other then FD_OMAGIC else FD_MAGIC) ≠ FD_OMAGIC) := by
    cases other
    · exact fun h => h.1 rfl
    · exact fun h => h.2 rfl
  rw [file, load, front]
  dsimp only
  rw [readU32_magic, if_neg magic, swap, readU32_total, total, whole]
  dsimp only
  rw [header, walk, rest]
  exact ⟨_, total, version_prelude mapd _ other _, rfl⟩

theorem ordered_drop (other : Bool) (ws : List wordcode) (k : Nat) :
    (ordered other ws).drop k = ordered other (ws.drop k) := by
  cases other with
  | false => rfl
  | true => exact List.map_drop.symm

theorem placed_start {start : Nat} {p : Nat × Entry} (hp : p ∈ placed start es) : start ≤ p.1 := by
  induction es generalizing start with
  | nil => cases hp
  | cons e es ih =>
    rcases List.mem_cons.mp hp with rfl | hp
    · exact Nat.le_refl _
    · exact Nat.le_trans (Nat.le_add_right _ _) (ih hp)

/-- The words from a function's start on. -/
theorem words_at (other : Bool) {p : Nat × Entry} (hp : p ∈ placed (hlenOf es) es) (s : Bytes) :
    ∃ more, (ordered other (wordsOf ((es.map Entry.wcfunc).flatMap (writeBody other) ++ s))).drop
      (p.1 - hlenOf es) =
        p.2.code.ecbuf ++ [0] ++ (ordered other (wordsOf (padded p.2.code)) ++ more) := by
  obtain ⟨pre, post, hpre, hfile⟩ := writePass_bodies other false hp s
  have le := placed_start hp
  have header : (bytesOf (prelude other false (tlenOf es)) ++
      writeHeads other (hlenOf es) (es.map Entry.wcfunc)).length = hlenOf es * 4 := by
    rw [List.length_append, length_bytesOf, length_prelude, length_writeHeads, hlenOf, Nat.add_mul]
  have file : writePass other (es.map Entry.wcfunc) false (hlenOf es) (tlenOf es) ++ s =
      bytesOf (prelude other false (tlenOf es)) ++ writeHeads other (hlenOf es) (es.map Entry.wcfunc) ++
        ((es.map Entry.wcfunc).flatMap (writeBody other) ++ s) := by
    rw [writePass, List.append_assoc, List.append_assoc, List.append_assoc]
  have size : hlenOf es * 4 + ((es.map Entry.wcfunc).flatMap (writeBody other) ++ s).length =
      p.1 * 4 + (writeBody other p.2.wcfunc ++ post).length := by
    rw [← header, ← hpre, ← List.length_append, ← List.length_append, ← file, hfile]
  have behind : ((es.map Entry.wcfunc).flatMap (writeBody other) ++ s).drop ((p.1 - hlenOf es) * 4) =
      writeBody other p.2.wcfunc ++ post := by
    have split : p.1 * 4 = hlenOf es * 4 + (p.1 - hlenOf es) * 4 := by omega
    have rest : (writePass other (es.map Entry.wcfunc) false (hlenOf es) (tlenOf es) ++ s).drop
        (hlenOf es * 4) = (es.map Entry.wcfunc).flatMap (writeBody other) ++ s := by
      rw [file]
      exact List.drop_left' header
    rw [← rest, List.drop_drop, ← split, hfile]
    exact List.drop_left' hpre
  refine ⟨ordered other (wordsOf post), ?_⟩
  rw [ordered_drop, wordsOf_drop (by omega), behind, writeBody_ordered, List.append_assoc, wordsOf_bytesOf,
    wordsOf_append (length_padded p.2.code), ordered_append other (ordered other (p.2.code.ecbuf ++ [0])),
    ordered_ordered, ordered_append]

/-- What the loader gives the decoder for a function: its code, and a table with its strings. -/
structure Given (other : Bool) (c : Compiled) (input : List wordcode × Bytes × Nat) : Prop where
  code : (bldEprog c).prog <+: input.1
  table : input.2.1 = bytesOf input.1
  strings : tableOf other c <+: input.2.1.drop input.2.2

theorem decoderInput_given {other : Bool} {f : ZwcFile} {s : Bytes}
    (hlen : f.header.headerLen.toNat = hlenOf es)
    (words : f.wordcode = ordered other (wordsOf ((es.map Entry.wcfunc).flatMap (writeBody other) ++ s)))
    {p : Nat × Entry} (hp : p ∈ placed (hlenOf es) es) (small : p.1 < 2 ^ 32) :
    ∃ input, decoderInput f (listed p.1 p.2) = some input ∧ Given other p.2.code input := by
  obtain ⟨more, hmore⟩ := words_at other hp s
  have start : (listed p.1 p.2).start.toNat = p.1 := p.2.start_head small
  have base : (listed p.1 p.2).strsOffset.toNat = (bytesOf (p.2.code.ecbuf ++ [0])).length := by
    rw [length_bytesOf, List.length_append, List.length_singleton]
    exact p.2.strs_head p.1
  rw [← words] at hmore
  have inside : ¬ p.1 - hlenOf es ≥ f.wordcode.length := by
    intro h
    rw [List.drop_of_length_le h, List.append_assoc] at hmore
    exact List.append_ne_nil_of_right_ne_nil _ (List.cons_ne_nil _ _) hmore.symm
  refine ⟨(f.wordcode.drop (p.1 - hlenOf es), bytesOf (f.wordcode.drop (p.1 - hlenOf es)),
    (listed p.1 p.2).strsOffset.toNat), ?_, ?_, rfl, ?_⟩
  · rw [decoderInput, start, hlen, if_neg inside]
  · rw [hmore]
    exact List.prefix_append _ _
  · dsimp only
    rw [hmore, base, bytesOf_append (p.2.code.ecbuf ++ [0]), List.drop_left, bytesOf_append]
    exact List.prefix_append _ _

end Loaded

section Names

/-- The loader's test of a name, for one that has no slash. -/
theorem name_iff {n name : Str} (slash : '/' ∉ name) :
    n = name ∨ '/' :: name <:+ n ↔ basename n = name := by
  have clean : ∀ c ∈ name.reverse, decide (c ≠ '/') = true := by
    intro c hc
    rw [decide_eq_true_eq]
    rintro rfl
    exact slash (List.mem_reverse.mp hc)
  constructor
  · rintro (rfl | ⟨t, rfl⟩)
    · rw [basename, List.takeWhile_eq_self_iff.mpr clean, List.reverse_reverse]
    · rw [basename, List.reverse_append, List.reverse_cons, List.append_assoc,
        List.takeWhile_append_of_pos clean, List.singleton_append, List.takeWhile_cons_of_neg (by simp),
        List.append_nil, List.reverse_reverse]
  · intro hbase
    have parts : n.reverse = name.reverse ++ n.reverse.dropWhile (· ≠ '/') := by
      have all := List.takeWhile_append_dropWhile (p := (· ≠ '/')) (l := n.reverse)
      rw [← List.reverse_reverse (n.reverse.takeWhile _), ← basename, hbase] at all
      exact all.symm
    cases hd : n.reverse.dropWhile (· ≠ '/') with
    | nil =>
      rw [hd, List.append_nil] at parts
      exact .inl (List.reverse_inj.mp parts)
    | cons c rest =>
      have slashed : c = '/' := by
        have head := List.head?_dropWhile_not (· ≠ '/') n.reverse
        rw [hd] at head
        simpa using head
      refine .inr ⟨rest.reverse, ?_⟩
      rw [← List.reverse_inj, parts, hd, slashed]
      simp

end Names

section Agreement

variable {S : Sources} {files : List (Str × wordcode)} {es : List Entry}

theorem getFunction_placed {f : ZwcFile} {name : Str} (slash : '/' ∉ name) (start : Nat)
    (functions : f.functions = listedOf start es) :
    getFunction f name =
      ((placed start es).find? fun p => p.2.base = Utf8.encode name).map fun p => listed p.1 p.2 := by
  rw [getFunction, functions, listedOf, List.find?_map]
  congr 2
  funext p
  have test := name_iff (n := p.2.name) slash
  rw [← baseOf_eq_iff] at test
  rw [Bool.eq_iff_iff]
  simp only [Function.comp_apply, Bool.or_eq_true, decide_eq_true_eq, List.isSuffixOf_iff_suffix]
  exact test

theorem listFunctions_eq {f : ZwcFile} {start : Nat} (functions : f.functions = listedOf start es)
    (compiles : List.Forall₂ (Compiles S) files es) : listFunctions f = files.map Prod.fst := by
  rw [listFunctions, functions]
  clear functions
  induction compiles generalizing start with
  | nil => rfl
  | cons hq _ ih => exact congr (congrArg List.cons hq.name) ih

/-- The loader on what `zcompile` wrote, or on its copy in the other byte order, agrees with the
shell's own reader: the same functions in the same order, under a name the function that
`checkDumpFile` answers with, and for it the code that was compiled. -/
theorem zwc_file_reads {args : List Str} {k z M R : Bool} {bytes : Bytes}
    (written : buildDump S args (mapMode M R) (loadFlags k z) = .ok bytes)
    (filled : plan (loadFlags k z) args ≠ []) (fits : bytes.length < 2 ^ 31) (other : Bool) :
    ∃ f, load (bytes.drop (if other then bytes.length / 2 else 0)) = some (.ok f) ∧
      f.header.version = ZSH_VERSION ∧ listFunctions f = (plan (loadFlags k z) args).map Prod.fst ∧
      ∀ name, '/' ∉ name →
        match (plan (loadFlags k z) args).find? fun q => basename q.1 = name with
        | none => getFunction f name = none
        | some q => ∃ g c input, getFunction f name = some g ∧ (S.read q.1).bind S.parse = some c ∧
            decoderInput f g = some input ∧ Given other c input := by
  obtain ⟨es, compiles, rfl⟩ := buildDump_dumpOf written
  have some_ := Compiles.filled compiles filled
  have half : (dumpOf es (mapMode M R)).length / 2 = tlenOf es := by
    rw [length_dumpOf]
    omega
  have pass : ∃ s, (dumpOf es (mapMode M R)).drop (if other then (dumpOf es (mapMode M R)).length / 2 else 0) =
      writePass other (es.map Entry.wcfunc) (mapped (mapMode M R) (tlenOf es)) (hlenOf es) (tlenOf es) ++ s := by
    cases other with
    | false => exact ⟨_, List.drop_zero⟩
    | true =>
      refine ⟨[], ?_⟩
      rw [if_pos rfl, half, List.append_nil, dumpOf, writeDump]
      apply List.drop_left'
      rw [length_writePass, tlenOf, hlenOf]
      omega
  obtain ⟨s, hs⟩ := pass
  obtain ⟨header, hlen, version, hload⟩ := load_writePass other some_ (hlenOf_lt fits) s
  rw [hs]
  refine ⟨_, hload, version, listFunctions_eq rfl compiles, ?_⟩
  intro name slash
  generalize hf : (ZwcFile.mk header _ _ _) = f
  have functions : f.functions = listedOf (hlenOf es) es := by
    rw [← hf]
  rw [getFunction_placed slash (hlenOf es) functions]
  rcases find_compiles compiles name (hlenOf es) with ⟨hq, hp⟩ | ⟨q, p, hq, hp, hc⟩
  · rw [hq, hp]
    rfl
  · rw [hq, hp]
    have mem := List.mem_of_find?_eq_some hp
    have bounds := placed_bounds (hlenOf es) es mem
    rw [length_dumpOf, tlenOf] at fits
    have hlen' : f.header.headerLen.toNat = hlenOf es := by
      rw [← hf]
      exact hlen
    have words : f.wordcode = ordered other (wordsOf ((es.map Entry.wcfunc).flatMap (writeBody other) ++ s)) := by
      rw [← hf]
    obtain ⟨input, hinput, given⟩ := decoderInput_given hlen' words mem (by omega)
    exact ⟨_, p.2.code, input, rfl, hc.code, hinput, given⟩

/-- In the other byte order the decoder gets the code of the first `fn`, and its string turned round. -/
theorem fn_turned : ∃ f g input,
    load ((dumpOf [firstEntry, otherEntry] 1).drop ((dumpOf [firstEntry, otherEntry] 1).length / 2)) = some (.ok f) ∧
      listFunctions f = ["d/fn".toList, "e/fn".toList] ∧ getFunction f "fn".toList = some g ∧
        decoderInput f g = some input ∧ [0x21, 0x42, 0] <+: input.1 ∧ [0, 0, 0x69, 0x68] <+: input.2.1.drop input.2.2 := by
  obtain ⟨f, hload, -, hlist, found⟩ := zwc_file_reads two_written two_filled two_fits true
  obtain ⟨g, c, input, hg, hc, hinput, given⟩ := found "fn".toList (by decide)
  have code : c = oneCode := (Option.some.inj hc).symm
  rw [code] at given
  exact ⟨f, g, input, hload, hlist, hg, hinput, given.code, given.strings⟩

end Agreement

end Zshrs.Parse.Zwc
