import Zshrs.Parse.DumpReads
import Mathlib.Data.List.Forall2

namespace Zshrs.Parse.Dump

open Lib Lib.Words
open Lib.Bytes (getRange Stands stands_zero)
open Wordcode (wordcode Str)

section Loading

/-- A header that says its own length is read whole. -/
theorem loadDumpHeader_ok (name : Str) (err map : Bool) (tlen : Int) {total : wordcode} {b : Bytes}
    (long : FD_PRELEN < total.toNat) (hb : b.length = (total.toNat - (FD_PRELEN + 1)) * 4) (s : Bytes) :
    loadDumpHeader name err (some (bytesOf (prelude false map tlen ++ [total]) ++ (b ++ s))) =
      .ok (prelude false map tlen ++ [total] ++ wordsOf b) := by
  have all := stands_zero (bytesOf (prelude false map tlen ++ [total]) ++ (b ++ s))
  have size : (bytesOf (prelude false map tlen ++ [total])).length = prefixBytes := by
    rw [length_bytesOf, List.length_append, length_prelude]
    rfl
  have front : (getRange (bytesOf (prelude false map tlen ++ [total]) ++ (b ++ s)) 0 prefixBytes).map
      wordsOf = some (prelude false map tlen ++ [total]) := by
    rw [all.left.getRange size.symm, Option.map_some, wordsOf_bytes]
  have later : getRange (bytesOf (prelude false map tlen ++ [total]) ++ (b ++ s)) (0 + prefixBytes)
      ((total.toNat - (FD_PRELEN + 1)) * 4) = some b := by
    have second : Stands _ (0 + prefixBytes) (b ++ s) := all.right (by rw [size])
    exact second.left.getRange hb.symm
  have magic : fdmagic (prelude false map tlen ++ [total]) = FD_MAGIC := fdmagic_prelude false map tlen _
  have len : fdheaderlen (prelude false map tlen ++ [total]) = total := by
    have last : word (prelude false map tlen ++ [total]) ((prelude false map tlen).length + 0) =
        word [total] 0 := word_append _ _ 0
    rw [length_prelude] at last
    exact last
  have enough : ¬ total.toNat < FD_PRELEN + 1 := Nat.not_lt.mpr long
  simp only [loadDumpHeader, front, magic, fdversion_prelude, ne_eq, not_true_eq_false, false_and,
    if_false, len, enough, later]

end Loading

section Written

/-- The functions of a dump, with the sizes that `build_dump` counts. -/
def hlenOf (es : List Entry) : Nat := FD_PRELEN + headTotal es
def tlenOf (es : List Entry) : Nat := (bodyTotal es + hlenOf es) * 4

def dumpOf (es : List Entry) (map : Nat) : Bytes :=
  writeDump (es.map Entry.wcfunc) map (hlenOf es) (tlenOf es)

variable {es : List Entry} {map : Nat}

theorem length_dumpOf (es : List Entry) (map : Nat) : (dumpOf es map).length = tlenOf es * 2 := by
  rw [dumpOf, writeDump, List.length_append, length_writePass, length_writePass, tlenOf, hlenOf]
  omega

theorem hlenOf_lt (fits : (dumpOf es map).length < 2 ^ 31) : hlenOf es * 4 < 2 ^ 30 := by
  rw [length_dumpOf, tlenOf] at fits
  omega

theorem headWords_le (es : List Entry) : ∀ e ∈ es, e.headWords ≤ headTotal es := by
  induction es with
  | nil =>
    rintro e ⟨⟩
  | cons e' es ih =>
    intro e he
    rw [headTotal_cons]
    rcases List.mem_cons.mp he with rfl | he
    · exact Nat.le_add_right _ _
    · exact Nat.le_trans (ih e he) (Nat.le_add_left _ _)

theorem short_of_hlen (small : hlenOf es * 4 < 2 ^ 30) : ∀ e ∈ es, e.Short := by
  intro e he
  have part := headWords_le es e he
  unfold hlenOf at small
  unfold Entry.Short
  omega

/-- The headers start with the word that gives their length. -/
theorem writeHeads_front (start : Nat) (e : Entry) (es : List Entry) :
    ∃ b, writeHeads false start ((e :: es).map Entry.wcfunc) = bytesOf [asU32 start] ++ b := by
  obtain ⟨fill, hfill⟩ := e.writeHead_eq start
  have words : (e.head start).words = [asU32 start] ++ (e.head start).words.tail := rfl
  rw [writeHeads_cons, hfill, words, bytesOf_append, List.append_assoc, List.append_assoc]
  exact ⟨_, rfl⟩

/-- The dump holds a header for every function, in front of their bodies. -/
theorem dumpOf_header (filled : es ≠ []) (fits : (dumpOf es map).length < 2 ^ 31) (name : Str) (err : Bool) :
    ∃ h, loadDumpHeader name err (some (dumpOf es map)) = .ok h ∧ Rest h FD_PRELEN (hlenOf es) es ∧
      ∃ r, h = prelude false (mapped map (tlenOf es)) (tlenOf es) ++ r := by
  obtain ⟨e, es', rfl⟩ := List.exists_cons_of_ne_nil filled
  obtain ⟨b, hb⟩ := writeHeads_front (hlenOf (e :: es')) e es'
  have small := hlenOf_lt fits
  have total : (asU32 (hlenOf (e :: es') : Nat)).toNat = hlenOf (e :: es') := asU32_natCast (by omega)
  have size := length_writeHeads false (hlenOf (e :: es')) (e :: es')
  rw [hb, List.length_append, length_bytesOf, List.length_singleton] at size
  have pos := e.headWords_pos
  have more : headTotal (e :: es') = e.headWords + headTotal es' := headTotal_cons e es'
  refine ⟨prelude false (mapped map (tlenOf (e :: es'))) (tlenOf (e :: es')) ++
    wordsOf (writeHeads false (hlenOf (e :: es')) ((e :: es').map Entry.wcfunc)), ?_, ?_, _, rfl⟩
  · rw [hb, wordsOf_bytesOf, ← List.append_assoc, dumpOf, writeDump, writePass, hb, List.append_assoc,
      List.append_assoc, List.append_assoc, ← List.append_assoc (bytesOf _), ← bytesOf_append]
    apply loadDumpHeader_ok
    · rw [total, hlenOf]
      omega
    · rw [total, hlenOf]
      omega
  · refine ⟨⟨_, length_prelude _ _ _, rfl⟩, ?_, short_of_hlen small⟩
    have last : fdheaderlen (prelude false (mapped map (tlenOf (e :: es'))) (tlenOf (e :: es')) ++
        wordsOf (writeHeads false (hlenOf (e :: es')) ((e :: es').map Entry.wcfunc))) =
        asU32 (hlenOf (e :: es') : Nat) := by
      rw [hb, wordsOf_bytesOf, fdheaderlen, ← length_prelude false (mapped map (tlenOf (e :: es')))
        (tlenOf (e :: es'))]
      exact word_append _ _ 0
    rw [last, total, hlenOf]

theorem writePass_bodies (other mapd : Bool) {p : Nat × Entry} (hp : p ∈ placed (hlenOf es) es) (s : Bytes) :
    Stands (writePass other (es.map Entry.wcfunc) mapd (hlenOf es) (tlenOf es) ++ s) (p.1 * 4)
      (writeBody other p.2.wcfunc) := by
  apply bodies_stand other (hlenOf es) es _ hp
  have first := (stands_zero (writePass other (es.map Entry.wcfunc) mapd (hlenOf es) (tlenOf es) ++ s)).left
  rw [writePass] at first ⊢
  have behind := first.right (q := FD_PRELEN * 4) (by rw [length_bytesOf, length_prelude, Nat.zero_add])
  apply behind.right
  rw [length_writeHeads, hlenOf, Nat.add_mul]

/-- The bodies stand where their headers say. -/
theorem dumpOf_bodies {p : Nat × Entry} (hp : p ∈ placed (hlenOf es) es) (map : Nat) :
    Stands (dumpOf es map) (p.1 * 4) p.2.body := by
  have body := writePass_bodies false (mapped map (tlenOf es)) hp
    (writePass true (es.map Entry.wcfunc) (mapped map (tlenOf es)) (hlenOf es) (tlenOf es))
  rw [Entry.writeBody_eq] at body
  exact body.left

end Written

section Found

variable (e : Entry) (start : Nat)

theorem Entry.body_lt : e.body.length < 2 ^ 31 := by
  have small := e.code.small
  rw [e.length_body]
  omega

theorem Entry.len_head : (e.head start).len.toNat = e.body.length := by
  have lt := e.body_lt
  have same : (e.head start).len = asU32 (lenBytes e.wcfunc.prog) := rfl
  rw [same, e.lenBytes_wcfunc, asU32_natCast (by omega)]

theorem Entry.npats_head : (e.head start).npats.toNat = e.code.ecnpats := by
  have small := e.code.small
  have same : (e.head start).npats = asU32 (e.code.ecnpats : Nat) := rfl
  rw [same, asU32_natCast (by omega)]

theorem Entry.strs_head : (e.head start).strs.toNat = (e.code.ecbuf.length + 1) * 4 := by
  have small := e.code.small
  have same : (e.head start).strs = asU32 ((e.code.ecbuf.length + 1) * 4 : Nat) := by
    have len : (e.wcfunc.prog.prog.length : Int) * 4 = ((e.code.ecbuf.length + 1) * 4 : Nat) := by
      simp only [Entry.wcfunc, bldEprog, List.length_append, List.length_singleton]
      omega
    exact congrArg asU32 len
  rw [same, asU32_natCast (by omega)]

theorem Entry.start_head {start : Nat} (hs : start < 2 ^ 32) : (e.head start).start.toNat = start :=
  asU32_natCast hs

/-- The program that is read is the one that was written. -/
theorem Entry.readEprog_head :
    readEprog (e.head start) e.body = { bldEprog e.code with flags := EF_REAL } := by
  have code : (bytesOf (e.code.ecbuf ++ [0])).length = (e.code.ecbuf.length + 1) * 4 := by
    rw [length_bytesOf, List.length_append, List.length_singleton]
  have off : min (e.head start).strs.toNat e.body.length = (bytesOf (e.code.ecbuf ++ [0])).length := by
    rw [e.strs_head, e.length_body, code]
    exact Nat.min_eq_left (Nat.le_add_right _ _)
  have words : e.body.take (bytesOf (e.code.ecbuf ++ [0])).length = bytesOf (e.code.ecbuf ++ [0]) :=
    List.take_left
  have pool : e.body.drop (bytesOf (e.code.ecbuf ++ [0])).length = e.code.pool := List.drop_left
  have len : (e.body.length : Int) + e.code.ecnpats * patprogSize = (bldEprog e.code).len := by
    simp only [e.length_body, bldEprog, List.length_append, List.length_singleton]
    omega
  simp only [readEprog, off, words, pool, wordsOf_bytes, e.len_head, e.npats_head, len]
  rfl

end Found

section Zcompile

/-- The files of a command line, each with the flags that it is compiled under. -/
def plan : wordcode → List Str → List (Str × wordcode)
  | _, [] => []
  | flags, fname :: files =>
      if checkCond fname ['k'] then plan FDHF_KSHLOAD files
      else if checkCond fname ['z'] then plan FDHF_ZSHLOAD files
      else (fname, flags) :: plan flags files

/-- A function of the dump that comes from a file. -/
structure Compiles (S : Sources) (q : Str × wordcode) (e : Entry) : Prop where
  name : e.name = q.1
  flags : e.flags = q.2
  code : (S.read q.1).bind S.parse = some e.code

def built (es : List Entry) (flags : wordcode) : Build :=
  ⟨es.map Entry.wcfunc, hlenOf es, bodyTotal es, flags⟩

theorem built_append (es : List Entry) (e : Entry) (flags : wordcode) :
    built (es ++ [e]) flags =
      ⟨es.map Entry.wcfunc ++ [e.wcfunc], hlenOf es + e.headWords, bodyTotal es + e.bodyWords, flags⟩ := by
  have heads : headTotal (es ++ [e]) = headTotal es + e.headWords := by
    simp [headTotal]
  have bodies : bodyTotal (es ++ [e]) = bodyTotal es + e.bodyWords := by
    simp [bodyTotal]
  simp only [built, hlenOf, heads, bodies, List.map_append, List.map_singleton, Build.mk.injEq, true_and,
    and_true]
  omega

variable {S : Sources}

theorem ksh_load : FDHF_KSHLOAD.toNat < 4 := by decide
theorem zsh_load : FDHF_ZSHLOAD.toNat < 4 := by decide

theorem load_cases {flags : wordcode} (h : flags.toNat < 4) (load : wordcode) :
    flags &&& ~~~(FDHF_KSHLOAD ||| FDHF_ZSHLOAD) ||| load = load := by
  have few : flags = 0 ∨ flags = 1 ∨ flags = 2 ∨ flags = 3 := by
    have values : flags.toNat = 0 ∨ flags.toNat = 1 ∨ flags.toNat = 2 ∨ flags.toNat = 3 := by omega
    simp only [← UInt32.toNat_inj]
    exact values
  have gone : flags &&& ~~~(FDHF_KSHLOAD ||| FDHF_ZSHLOAD) = 0 := by
    rcases few with rfl | rfl | rfl | rfl
    · rfl
    · rfl
    · rfl
    · rfl
  rw [gone, UInt32.zero_or]

theorem addFile_plain {es : List Entry} {flags : wordcode} (hflags : flags.toNat < 4) {fname : Str}
    {b : Build} (hk : ¬ checkCond fname ['k'] = true) (hz : ¬ checkCond fname ['z'] = true)
    (h : addFile S (built es flags) fname = .ok b) :
    ∃ e, Compiles S (fname, flags) e ∧ b = built (es ++ [e]) flags := by
  rw [addFile, if_neg hk, if_neg hz] at h
  cases hread : S.read fname with
  | none =>
    rw [hread] at h
    cases h
  | some bytes =>
    cases hparse : S.parse bytes with
    | none =>
      simp only [hread, hparse, Option.map_none] at h
      cases h
    | some c =>
      have path : fname ≠ [] ∧ '\x00' ∉ fname := by
        apply S.path
        rw [hread]
        exact Option.some_ne_none bytes
      have notRun : (bldEprog c).flags &&& EF_RUN = 0 := by
        have same : (bldEprog c).flags = if c.heap then EF_HEAP else EF_REAL := rfl
        rw [same]
        split
        · rfl
        · rfl
      refine ⟨⟨fname, c, flags, path.1, path.2, hflags⟩, ⟨rfl, rfl, ?_⟩, ?_⟩
      · rw [hread, Option.bind_some, hparse]
      · simp only [hread, hparse, Option.map_some, notRun, ne_eq, not_true_eq_false, if_false] at h
        cases h
        rw [built_append, ← Entry.lenWords_wcfunc]
        rfl

/-- The loop collects the planned files, and its sizes are theirs. -/
theorem addFiles_built {files : List Str} {es : List Entry} {flags : wordcode} (hflags : flags.toNat < 4)
    {b : Build} (h : addFiles S (built es flags) files = .ok b) :
    ∃ es' flags', List.Forall₂ (Compiles S) (plan flags files) es' ∧ b = built (es ++ es') flags' := by
  induction files generalizing es flags with
  | nil =>
    cases h
    exact ⟨[], flags, .nil, by rw [List.append_nil]⟩
  | cons fname files ih =>
    rw [addFiles] at h
    rw [plan]
    by_cases hk : checkCond fname ['k'] = true
    · rw [addFile, if_pos hk] at h
      rw [if_pos hk]
      apply ih ksh_load
      simp only [built, load_cases hflags] at h
      exact h
    · rw [if_neg hk]
      by_cases hz : checkCond fname ['z'] = true
      · rw [addFile, if_neg hk, if_pos hz] at h
        rw [if_pos hz]
        apply ih zsh_load
        simp only [built, load_cases hflags] at h
        exact h
      · rw [if_neg hz]
        cases hb : addFile S (built es flags) fname with
        | error e =>
          rw [hb] at h
          cases h
        | ok b' =>
          rw [hb] at h
          obtain ⟨e, he, rfl⟩ := addFile_plain hflags hk hz hb
          obtain ⟨es', flags', hes, rfl⟩ := ih hflags h
          exact ⟨e :: es', flags', .cons he hes, by rw [List.append_assoc, List.singleton_append]⟩

/-- The first function of a name comes from the first file of it. -/
theorem find_compiles {files : List (Str × wordcode)} {es : List Entry}
    (h : List.Forall₂ (Compiles S) files es) (name : Str) (start : Nat) :
    (files.find? (fun q => basename q.1 = name) = none ∧
      (placed start es).find? (fun q => q.2.base = Utf8.encode name) = none) ∨
    ∃ q p, files.find? (fun q => basename q.1 = name) = some q ∧
      (placed start es).find? (fun q => q.2.base = Utf8.encode name) = some p ∧ Compiles S q p.2 := by
  induction h generalizing start with
  | nil => exact .inl ⟨rfl, rfl⟩
  | @cons q e files es hq _ ih =>
    have same : e.base = Utf8.encode name ↔ basename q.1 = name := by
      rw [Entry.base, hq.name, baseOf_eq_iff]
    by_cases hb : basename q.1 = name
    · refine .inr ⟨q, (start, e), ?_, ?_, hq⟩
      · rw [List.find?_cons, decide_eq_true hb]
      · rw [placed, List.find?_cons, decide_eq_true (same.mpr hb)]
    · have hb' : ¬ e.base = Utf8.encode name := fun h => hb (same.mp h)
      rw [placed, List.find?_cons, List.find?_cons, decide_eq_false hb, decide_eq_false hb']
      exact ih (start + e.bodyWords)

/-- What a dump of the files answers for a name. -/
def answer (S : Sources) (files : List (Str × wordcode)) (file name : Str) (testOnly : Bool) :
    Except (Option Str) (Eprog × Nat) :=
  match files.find? (fun q => basename q.1 = name) with
  | none => .error none
  | some q =>
      if testOnly then .ok (⟨0, 0, 0, [], none⟩, 0)
      else
        match (S.read q.1).bind S.parse with
        | none => .error none
        | some c =>
            if c.ecnpats > c.bytes.length / 4 then
              .error (some (file ++ ": invalid description: ".toList ++ name))
            else .ok ({ bldEprog c with flags := EF_REAL }, kshMode q.2)

def headline (map : Bool) : Str :=
  "zwc file (".toList ++ (if map then "mapped" else "read").toList ++ ") for zsh-".toList ++ ZSH_VERSION

/-- The dump of some files read back: its listing, its tests, what is to be autoloaded, its programs. -/
structure ReadsBack (S : Sources) (files : List (Str × wordcode)) (map : Bool) (file : Str)
    (bytes : Bytes) : Prop where
  header : ∀ err, ∃ h, loadDumpHeader file err (some bytes) = .ok h ∧
    listDump h = some (headline map :: files.map Prod.fst) ∧
    (∀ names, (∀ n ∈ names, '\x00' ∉ n) →
      testDump h names = some (names.all fun n => files.any fun q => basename q.1 = n)) ∧
    ((∀ q ∈ files, ∀ c ∈ q.1, c.toNat < 0x80) →
      dumpAutoload h = some (files.map fun q => basename q.1))
  program : ∀ name testOnly, '\x00' ∉ name →
    checkDumpFile file (some bytes) name testOnly = some (answer S files file name testOnly)

end Zcompile

section Ascii

theorem encode_ascii {c : Char} (h : c.toNat < 0x80) : (String.utf8EncodeChar c).length = 1 := by
  rw [String.length_utf8EncodeChar, Char.utf8Size_eq_one_iff]
  exact Nat.le_of_lt_succ h

theorem encode_drop {cs : Str} (h : ∀ c ∈ cs, c.toNat < 0x80) (n : Nat) :
    Utf8.encode (cs.drop n) = (Utf8.encode cs).drop n := by
  induction cs generalizing n with
  | nil =>
    rw [List.drop_nil]
    exact List.drop_nil.symm
  | cons c cs ih =>
    cases n with
    | zero => rfl
    | succ n =>
      obtain ⟨b, hb⟩ := List.length_eq_one_iff.mp (encode_ascii (h c List.mem_cons_self))
      rw [List.drop_succ_cons, ih fun c hc => h c (List.mem_cons_of_mem _ hc), Utf8.encode_cons, hb]
      rfl

end Ascii

section ReadBack

variable {S : Sources} {files : List (Str × wordcode)} {es : List Entry} {map : Nat} {file : Str}

theorem nul_encode {name : Str} (h : '\x00' ∉ name) : 0 ∉ Utf8.encode name :=
  fun h0 => h (Utf8.zero_mem_encode h0)

theorem testDump_eq {h : List wordcode} {start : Nat} (rest : Rest h FD_PRELEN start es)
    (compiles : List.Forall₂ (Compiles S) files es) {names : List Str} (plain : ∀ n ∈ names, '\x00' ∉ n) :
    testDump h names = some (names.all fun n => files.any fun q => basename q.1 = n) := by
  induction names with
  | nil => rfl
  | cons n names ih =>
    have fuel : es.length < rounds h := by
      have le := length_le_headTotal es
      rw [rounds, rest.total]
      omega
    have search := rest.find (nul_encode (plain n List.mem_cons_self)) fuel
    rw [testDump, dumpFindFunc, firstfdheadOffset, search, List.all_cons]
    rcases find_compiles compiles n start with ⟨hf, hp⟩ | ⟨q, p, hf, hp, -⟩
    · have none_ : files.any (fun q => basename q.1 = n) = false := by
        exact List.any_eq_false.mpr (List.find?_eq_none.mp hf)
      rw [hp, none_]
      rfl
    · have named := List.find?_some hf
      have some_ : files.any (fun q => basename q.1 = n) = true :=
        List.any_eq_true.mpr ⟨q, List.mem_of_find?_eq_some hf, named⟩
      rw [hp, some_, Bool.true_and]
      exact ih fun n hn => plain n (List.mem_cons_of_mem _ hn)

theorem Rest.entries {h : List wordcode} {start : Nat} (rest : Rest h FD_PRELEN start es)
    (compiles : List.Forall₂ (Compiles S) files es) : ∃ entries, heads h = some entries ∧
      entries.map (fun q => (fdname h q.1, (fdhtail q.2).toNat)) =
        files.map fun q => (q.1, tail (Utf8.encode q.1)) := by
  have fuel : es.length < rounds h := by
    have le := length_le_headTotal es
    rw [rounds, rest.total]
    omega
  obtain ⟨entries, hwalk, hmap⟩ := rest.walk fuel
  refine ⟨entries, hwalk, hmap.trans ?_⟩
  clear hmap hwalk fuel rest
  induction compiles with
  | nil => rfl
  | cons hq _ ih => rw [List.map_cons, List.map_cons, ih, Entry.bytes, hq.name]

theorem listDump_eq {h : List wordcode} {start : Nat} (rest : Rest h FD_PRELEN start es)
    (compiles : List.Forall₂ (Compiles S) files es) {mapd : Bool}
    (flags : fdflags h = preludeFlags false mapd) (version : fdversion h = ZSH_VERSION) :
    listDump h = some (headline mapd :: files.map Prod.fst) := by
  obtain ⟨entries, hheads, hmap⟩ := rest.entries compiles
  have names : entries.map (fun q => fdname h q.1) = files.map Prod.fst := by
    have firsts := congrArg (List.map Prod.fst) hmap
    rw [List.map_map, List.map_map] at firsts
    exact firsts
  have first : (if fdflags h &&& FDF_MAP ≠ 0 then "mapped" else "read") =
      if mapd then "mapped" else "read" := by
    rw [flags]
    cases mapd
    · rfl
    · rfl
  rw [listDump, hheads, Option.map_some, names, version, first]
  rfl

theorem dumpAutoload_ascii {h : List wordcode} {start : Nat} (rest : Rest h FD_PRELEN start es)
    (compiles : List.Forall₂ (Compiles S) files es) (ascii : ∀ q ∈ files, ∀ c ∈ q.1, c.toNat < 0x80) :
    dumpAutoload h = some (files.map fun q => basename q.1) := by
  obtain ⟨entries, hheads, hmap⟩ := rest.entries compiles
  have drops := congrArg (List.map fun n => n.1.drop n.2) hmap
  rw [List.map_map, List.map_map] at drops
  rw [dumpAutoload, hheads]
  refine congrArg some (drops.trans ?_)
  apply List.map_congr_left
  intro q hq
  have bytes : Utf8.encode (q.1.drop (tail (Utf8.encode q.1))) = Utf8.encode (basename q.1) := by
    rw [encode_drop (ascii q hq), ← baseOf_eq]
    rfl
  exact Utf8.encode_injective bytes

theorem checkDumpFile_eq (compiles : List.Forall₂ (Compiles S) files es) (filled : es ≠ [])
    (fits : (dumpOf es map).length < 2 ^ 31) {name : Str} (plain : '\x00' ∉ name) (testOnly : Bool) :
    checkDumpFile file (some (dumpOf es map)) name testOnly = some (answer S files file name testOnly) := by
  obtain ⟨h, hload, rest, r, hr⟩ := dumpOf_header filled fits file false
  have fuel : es.length < rounds h := by
    have le := length_le_headTotal es
    rw [rounds, rest.total]
    omega
  have search := rest.find (nul_encode plain) fuel
  have native : fdflags h &&& FDF_OTHER = 0 := by
    rw [hr, fdflags_prelude]
    cases mapped map (tlenOf es)
    · rfl
    · rfl
  rw [checkDumpFile, hload]
  dsimp only
  rw [dumpFindFunc, firstfdheadOffset, search, answer]
  rcases find_compiles compiles name (hlenOf es) with ⟨hf, hp⟩ | ⟨q, p, hf, hp, hq⟩
  · rw [hp, hf]
    rfl
  · have mem := List.mem_of_find?_eq_some hp
    have bounds := placed_bounds (hlenOf es) es mem
    rw [length_dumpOf, tlenOf] at fits
    have body := dumpOf_bodies mem map
    have starts : (p.2.head p.1).start.toNat = p.1 := Entry.start_head p.2 (by omega)
    have load : fdhflags (p.2.head p.1) = q.2 :=
      ((rest.short p.2 (mem_placed (hlenOf es) es mem)).fdhflags).trans hq.flags
    have few : (p.2.head p.1).npats > (p.2.head p.1).len / 4 ↔
        p.2.code.ecnpats > p.2.code.bytes.length / 4 := by
      have four : (4 : UInt32).toNat = 4 := rfl
      have len : p.2.body = p.2.code.bytes := rfl
      rw [gt_iff_lt, UInt32.lt_iff_toNat_lt, UInt32.toNat_div, p.2.npats_head, p.2.len_head, four, len]
    rw [hp, hf]
    simp only [Option.map_some]
    cases testOnly with
    | true => rfl
    | false =>
      simp only [Bool.false_eq_true, if_false, hq.code, few, native, ne_eq, not_true_eq_false, starts,
        Nat.add_zero, Option.bind_some, body.getRange (p.2.len_head p.1), p.2.readEprog_head,
        load]
      split
      · rfl
      · rfl

/-- What `zcompile` writes is the dump of the functions that its files compile to. -/
theorem buildDump_dumpOf {args : List Str} {k z : Bool} {bytes : Bytes}
    (written : buildDump S args map (loadFlags k z) = .ok bytes) :
    ∃ es, List.Forall₂ (Compiles S) (plan (loadFlags k z) args) es ∧ bytes = dumpOf es map := by
  have load : (loadFlags k z).toNat < 4 := by
    cases k <;> cases z <;> decide
  have start : (⟨[], FD_PRELEN, 0, loadFlags k z⟩ : Build) = built [] (loadFlags k z) := rfl
  rw [buildDump, start] at written
  cases hb : addFiles S (built [] (loadFlags k z)) args with
  | error e =>
    rw [hb] at written
    cases written
  | ok b =>
    rw [hb] at written
    obtain ⟨es, flags, compiles, rfl⟩ := addFiles_built load hb
    have total : ((bodyTotal es : Int) + hlenOf es) * 4 = tlenOf es := by
      rw [tlenOf, Int.natCast_mul, Int.natCast_add]
      rfl
    refine ⟨es, compiles, ?_⟩
    cases written
    rw [List.nil_append, built, dumpOf, total]

theorem Compiles.filled (compiles : List.Forall₂ (Compiles S) files es) (h : files ≠ []) : es ≠ [] := by
  rintro rfl
  exact h (List.forall₂_nil_right_iff.mp compiles)

/-- What `zcompile` writes, the shell reads back: the listing names the files in their order, and a
name is answered with the program of the first file of that name. -/
theorem zcompile_reads_back {args : List Str} {k z M R : Bool} {bytes : Bytes}
    (written : buildDump S args (mapMode M R) (loadFlags k z) = .ok bytes)
    (filled : plan (loadFlags k z) args ≠ []) (fits : bytes.length < 2 ^ 31) (file : Str) :
    ReadsBack S (plan (loadFlags k z) args) (mapped (mapMode M R) (bytes.length / 2)) file bytes := by
  obtain ⟨es, compiles, rfl⟩ := buildDump_dumpOf written
  have some_ := Compiles.filled compiles filled
  have half : ((dumpOf es (mapMode M R)).length : Int) / 2 = tlenOf es := by
    rw [length_dumpOf]
    omega
  refine ⟨fun err => ?_, fun name testOnly plain => checkDumpFile_eq compiles some_ fits plain testOnly⟩
  obtain ⟨h, hload, rest, r, hr⟩ := dumpOf_header some_ fits file err
  refine ⟨h, hload, ?_, fun names plain => testDump_eq rest compiles plain, dumpAutoload_ascii rest compiles⟩
  apply listDump_eq rest compiles
  · rw [hr, fdflags_prelude, half]
  · rw [hr, fdversion_prelude]

/-- The one program `fn`, of three words and a string. -/
def oneCode : Compiled := ⟨false, [0x21, 0x42], 0, [0x68, 0x69, 0], by decide⟩

theorem fn_path : "d/fn".toList ≠ [] ∧ '\x00' ∉ "d/fn".toList := by decide

def oneSource : Sources where
  read := fun fname => if fname = "d/fn".toList then some [] else none
  parse := fun _ => some oneCode
  path := by
    intro fname h
    by_cases hname : fname = "d/fn".toList
    · rw [hname]
      exact fn_path
    · exact absurd (if_neg hname) h

def oneEntry : Entry := ⟨"d/fn".toList, oneCode, FDHF_KSHLOAD, fn_path.1, fn_path.2, ksh_load⟩

theorem one_fits : (dumpOf [oneEntry] 1).length < 2 ^ 31 := by
  rw [length_dumpOf]
  decide

/-- Another program `fn`. -/
def otherCode : Compiled := ⟨false, [0x61], 0, [0x79, 0x6f, 0x75, 0], by decide⟩

theorem other_path : "e/fn".toList ≠ [] ∧ '\x00' ∉ "e/fn".toList := by decide

/-- Two files of one last component. -/
def twoSource : Sources where
  read := fun fname => if fname = "d/fn".toList then some [] else if fname = "e/fn".toList then some [0x79] else none
  parse := fun content => some (if content = [] then oneCode else otherCode)
  path := by
    intro fname h
    by_cases hname : fname = "d/fn".toList
    · rw [hname]
      exact fn_path
    · rw [if_neg hname] at h
      by_cases hother : fname = "e/fn".toList
      · rw [hother]
        exact other_path
      · exact absurd (if_neg hother) h

def otherEntry : Entry := ⟨"e/fn".toList, otherCode, FDHF_KSHLOAD, other_path.1, other_path.2, ksh_load⟩

def firstEntry : Entry := ⟨"d/fn".toList, oneCode, 0, fn_path.1, fn_path.2, by decide⟩

/-- `zcompile` on the first file, `-k` and the second one. -/
theorem two_written :
    buildDump twoSource ["d/fn".toList, "-k".toList, "e/fn".toList] (mapMode false false) (loadFlags false false) =
      .ok (dumpOf [firstEntry, otherEntry] 1) := rfl

theorem two_filled : plan (loadFlags false false) ["d/fn".toList, "-k".toList, "e/fn".toList] ≠ [] := by decide

theorem two_fits : (dumpOf [firstEntry, otherEntry] 1).length < 2 ^ 31 := by
  rw [length_dumpOf]
  decide

theorem fn_reads_back :
    checkDumpFile [] (some (dumpOf [firstEntry, otherEntry] 1)) "fn".toList false =
      some (.ok (⟨EF_REAL, 15, 0, [0x21, 0x42, 0], some [0x68, 0x69, 0]⟩, 1)) := by
  have back := zcompile_reads_back two_written two_filled two_fits []
  exact (back.program "fn".toList false (by decide)).trans rfl

end ReadBack

end Zshrs.Parse.Dump
