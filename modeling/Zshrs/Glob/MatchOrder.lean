import Mathlib.Data.List.Basic
import Zshrs.Glob.NameOrder

namespace Zshrs.Glob

open Std Lib.Comparators

section Names

variable (m : Modes) (numeric : Bool)

/-- Runs of digits are compared as numbers, in the emulations too that do not compare bytes. -/
def numbered : Bool := numeric && !(m.dash_strict || m.pdksh_family)

theorem zstrcmp_eq {a b : Bytes} (ha : 0 ∉ a) (hb : 0 ∉ b) :
    zstrcmp m a b (if numeric then SORTIT_NUMERICALLY else 0) =
      if numbered m numeric then numcmp a b else compare a b := by
  unfold zstrcmp numbered
  cases hm : m.dash_strict || m.pdksh_family with
  | true => rw [if_pos rfl, if_neg (by simp)]
  | false =>
    rw [if_neg (by simp)]
    cases numeric with
    | true => exact rfl
    | false => exact strcoll_eq ha hb

theorem namecmp_eq {a b : Bytes} (ha : 0 ∉ a) (hb : 0 ∉ b) :
    namecmp m numeric a b = if numbered m numeric then numcmp a b else compare a b := by
  unfold namecmp
  split
  · next h =>
    have strict : m.dash_strict = true := (Bool.and_eq_true_iff.mp h).2
    rw [strcoll_eq ha hb, if_neg]
    unfold numbered
    simp [strict]
  · exact zstrcmp_eq m numeric ha hb

theorem reads_of_eq {f : Bytes → Bytes → Ordering}
    (h : ∀ a b, 0 ∉ a → 0 ∉ b → f a b = if numbered m numeric then numcmp a b else compare a b) :
    Reads (numbered m numeric) f := by
  have reads : Reads (numbered m numeric) fun a b =>
      if numbered m numeric then numcmp a b else compare a b := by
    cases numbered m numeric with
    | true => exact reads_numeric
    | false => exact reads_lexical
  refine ⟨?_, fun a b ha hb hne => ?_, fun a b ha hb hane he => ?_⟩
  · rw [h [] [] List.not_mem_nil List.not_mem_nil]
    exact reads.nil
  · rw [h a b ha hb]
    exact reads.differ a b ha hb hne
  · rw [h a b ha hb, h _ _ (no_nul_afterTok ha) (no_nul_afterTok hb)]
    exact reads.same a b ha hb hane he

theorem reads_namecmp : Reads (numbered m numeric) (namecmp m numeric) :=
  reads_of_eq m numeric fun _ _ => namecmp_eq m numeric

theorem reads_zstrcmp : Reads (numbered m numeric) fun a b =>
    zstrcmp m a b (if numeric then SORTIT_NUMERICALLY else 0) :=
  reads_of_eq m numeric fun _ _ => zstrcmp_eq m numeric

/-- Metafication leaves no NUL. -/
theorem metafied_key_no_nul (s : Text) : 0 ∉ metafied_key s := by
  unfold metafied_key
  split
  · next h =>
    intro h0
    obtain ⟨c, hc, h0⟩ := List.mem_flatMap.mp h0
    have plain := List.all_eq_true.mp h c hc
    rw [Bool.and_eq_true, decide_eq_true_eq, bne_iff_ne] at plain
    have low : c.val.toNat ≤ 127 := Nat.le_of_lt_succ plain.1
    have code : String.utf8EncodeChar c = [UInt8.ofNat c.val.toNat] := by
      unfold String.utf8EncodeChar
      dsimp only
      rw [if_pos low]
    rw [code, List.mem_singleton] at h0
    have value := congrArg UInt8.toNat h0
    rw [UInt8.toNat_zero, UInt8.toNat_ofNat_of_lt' (Nat.lt_of_le_of_lt low (by decide))] at value
    exact plain.2 value.symm
  · intro h0
    obtain ⟨b, -, h0⟩ := List.mem_flatMap.mp h0
    split at h0
    · next hb =>
      rw [List.mem_cons, List.mem_singleton] at h0
      rcases h0 with h0 | h0
      · exact absurd h0 (by decide)
      · have back : b = 32 := by
          have twice := congrArg (· ^^^ (32 : UInt8)) h0
          simpa [UInt8.xor_assoc] using twice.symm
        rw [back] at hb
        exact absurd hb (by decide)
    · next hb =>
      rw [List.mem_singleton] at h0
      rw [← h0] at hb
      exact hb (by decide)

def metafiedName (s : Text) : FileName := ⟨metafied_key s, metafied_key_no_nul s⟩

end Names

section Keys

variable (m : Modes) (numeric : Bool)

theorem timecmp_eq (time nsec : Stat → Int) :
    timecmp time nsec =
      compareLex (fun a b => compareOn time b a) fun a b => compareOn nsec b a := by
  funext a b
  unfold timecmp compareLex compareOn
  dsimp only
  cases compare (time b) (time a) with
  | lt => exact if_pos (by decide)
  | eq => exact if_neg (by decide)
  | gt => exact if_pos (by decide)

instance instTransCmpTimecmp (time nsec : Stat → Int) : TransCmp (timecmp time nsec) := by
  rw [timecmp_eq]
  infer_instance

/-- Every key but the depth is an order by itself. -/
theorem keycmp_trans {k : SortKey} (h : k ≠ .depth) : TransCmp (keycmp m numeric k) := by
  cases k with
  | name =>
    have names := (reads_namecmp m numeric).trans
    exact trans_on Gmatch.uname fun a b : FileName => namecmp m numeric a.bytes b.bytes
  | depth => exact absurd rfl h
  | size follow => exact trans_on (fun g : Gmatch => (g.followed follow).size) compare
  | atime follow => exact trans_on (fun g : Gmatch => g.followed follow) (timecmp Stat.atime Stat.ansec)
  | mtime follow => exact trans_on (fun g : Gmatch => g.followed follow) (timecmp Stat.mtime Stat.mnsec)
  | ctime follow => exact trans_on (fun g : Gmatch => g.followed follow) (timecmp Stat.ctime Stat.cnsec)
  | links follow => exact trans_on (fun g : Gmatch => (g.followed follow).links) compare
  | exec =>
    have strings := (reads_zstrcmp m numeric).trans
    exact trans_on (fun g : Gmatch => metafiedName (g.sort_strings.getD 0 [])) fun a b : FileName =>
      zstrcmp m a.bytes b.bytes (if numeric then SORTIT_NUMERICALLY else 0)
  | other => exact { eq_swap := rfl, isLE_trans := fun _ _ => rfl }

/-- One entry of the sort list. -/
def spec (tp : Tp) : Gmatch → Gmatch → Ordering := directed (descending tp) (keycmp m numeric (sortKey tp))

theorem gmatchcmp_eq (specs : List Tp) : gmatchcmp m numeric specs = inTurn (specs.map (spec m numeric)) := by
  induction specs with
  | nil => rfl
  | cons tp specs ih =>
    funext a b
    rw [gmatchcmp, ih, List.map_cons, inTurn]
    unfold spec directed
    cases keycmp m numeric (sortKey tp) a b <;> cases descending tp <;> rfl

theorem spec_eq_eq {tp : Tp} {a b : Gmatch} :
    spec m numeric tp a b = .eq ↔ keycmp m numeric (sortKey tp) a b = .eq := directed_eq_eq

theorem spec_trans {tp : Tp} (h : sortKey tp ≠ .depth) : TransCmp (spec m numeric tp) := by
  have key := keycmp_trans m numeric h
  exact instTransCmpDirected _ _

theorem specs_trans {specs : List Tp} (h : ∀ tp ∈ specs, sortKey tp ≠ .depth) :
    TransCmp (inTurn (specs.map (spec m numeric))) := by
  apply inTurn_trans
  intro cmp hc
  obtain ⟨tp, htp, rfl⟩ := List.mem_map.mp hc
  exact spec_trans m numeric (h tp htp)

end Keys

end Zshrs.Glob
