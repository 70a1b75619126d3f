import Mathlib.Data.Prod.Lex
import Zshrs.Daemon.CanonicalRestart
import Zshrs.Lib.MapDiff
import Mathlib.Algebra.GroupWithZero.Nat

namespace Zshrs.Daemon.Canonical

open Lib

/-- A shard with the plugins, which the catalog itself does not write. -/
structure RecordedShard extends CanonicalShard where
  plugins : List (Text × Text)

/-- Flattened snapshot: `(kind, key) -> value`, ordered by `(kind, key)`. -/
abbrev Records := OrdMap (Text ×ₗ Text) Text

def unsetopt : Text := ['u', 'n', 's', 'e', 't', 'o', 'p', 't']
def plugin : Text := ['p', 'l', 'u', 'g', 'i', 'n']
def extraPrefix : Text := ['e', 'x', 't', 'r', 'a', '.']

/-- `format!("{i:08}")`. -/
def padded (i : Nat) : Text := List.leftpad 8 '0' (index i)

def recordMaps : List MapField :=
  [.aliases, .global_aliases, .suffix_aliases, .functions, .autoload_functions, .env_exports, .params,
    .bindkeys, .compdef, .named_dirs]

def recordLists (s : RecordedShard) : List (Text × List Text) :=
  [(ListField.path.subsystem, s.lists .path), (ListField.fpath.subsystem, s.lists .fpath),
    (ListField.manpath.subsystem, s.lists .manpath), (source, s.sourced_files)]

def record (kind key value : Text) : (Text ×ₗ Text) × Text := (toLex (kind, key), value)

/-- What the loops of `records` insert, in their order. -/
def inserted (s : RecordedShard) : List ((Text ×ₗ Text) × Text) :=
  (recordMaps.flatMap fun f => (s.maps f).entries.map fun p => record f.subsystem p.1 p.2) ++
  (s.extras.entries.flatMap fun p => p.2.entries.map fun q => record (extraPrefix ++ p.1) q.1 q.2) ++
  ((recordLists s).flatMap fun l => l.2.zipIdx.map fun p => record l.1 (padded p.2) p.1) ++
  (s.zmodload.map fun m => record zmodload m []) ++
  (s.setopts.map fun o => record setopt o ['o', 'n']) ++
  (s.unsetopts.map fun o => record unsetopt o ['o', 'f', 'f']) ++
  (s.zstyle.zipIdx.map fun p => record zstyle (padded p.2 ++ ':' :: p.1.1) p.1.2) ++
  (s.plugins.zipIdx.map fun p => record plugin (padded p.2 ++ ':' :: p.1.1) p.1.2)

/-- Flatten every record of a shard into one ordered map. -/
def records (s : RecordedShard) : Records :=
  (inserted s).foldl (fun out p => out.insert p.1 p.2) .empty

/-- Digest, size, and a bounded preview of one record value. -/
structure Summary where
  sha256 : Text
  bytes : Nat
  value : Text
  deriving DecidableEq

def value_summary (sha256_hex : Text → Text) (v : Text) : Summary :=
  ⟨sha256_hex v, (v.map Char.utf8Size).sum, v.take 200⟩

inductive ChangeKind
  | removed
  | added
  | changed
  deriving DecidableEq

structure First where
  kind : Text
  key : Text
  change : ChangeKind
  good : Option Summary
  bad : Option Summary
  deriving DecidableEq

/-- The variables of the walk: both iterators, the totals and the first difference. -/
structure Walk where
  gi : List ((Text ×ₗ Text) × Text)
  bi : List ((Text ×ₗ Text) × Text)
  added : Nat
  removed : Nat
  changed : Nat
  first : Option First

/-- How the two peeked records stand; `none` where the loop breaks. -/
def Walk.order (w : Walk) : Option Ordering :=
  match w.gi, w.bi with
  | [], [] => none
  | _ :: _, [] => some .lt
  | [], _ :: _ => some .gt
  | g :: _, b :: _ => some (cmp g.1 b.1)

def firstOf (sha256_hex : Text → Text) (change : ChangeKind) (g b : Option ((Text ×ₗ Text) × Text)) : First :=
  let at_key := ((g.or b).map fun r => ofLex r.1).getD ([], [])
  ⟨at_key.1, at_key.2, change, g.map fun r => value_summary sha256_hex r.2,
    b.map fun r => value_summary sha256_hex r.2⟩

/-- The end of a round: only the first difference is kept. -/
def Walk.keep (sha256_hex : Text → Text) (w : Walk) (change : ChangeKind)
    (g b : Option ((Text ×ₗ Text) × Text)) : Walk :=
  if w.first.isNone then { w with first := some (firstOf sha256_hex change g b) } else w

def Walk.round (sha256_hex : Text → Text) (w : Walk) : Option Walk :=
  match w.order with
  | none => none
  | some .lt =>
    some (Walk.keep sha256_hex { w with gi := w.gi.tail, removed := w.removed + 1 } .removed w.gi.head? none)
  | some .gt =>
    some (Walk.keep sha256_hex { w with bi := w.bi.tail, added := w.added + 1 } .added none w.bi.head?)
  | some .eq =>
    let w' := { w with gi := w.gi.tail, bi := w.bi.tail }
    if w.gi.head?.map Prod.snd = w.bi.head?.map Prod.snd then some w'
    else some (Walk.keep sha256_hex { w' with changed := w.changed + 1 } .changed w.gi.head? w.bi.head?)

variable (sha256_hex : Text → Text)

theorem Walk.keep_eq (w : Walk) (change : ChangeKind) (g b : Option ((Text ×ₗ Text) × Text)) :
    w.keep sha256_hex change g b = { w with first := w.first.or (some (firstOf sha256_hex change g b)) } := by
  rw [Walk.keep]
  cases hfirst : w.first with
  | none => rfl
  | some f =>
      rw [if_neg (by simp), Option.some_or, ← hfirst]

theorem Walk.round_lt {w w' : Walk} (h : w.round sha256_hex = some w') :
    w'.gi.length + w'.bi.length < w.gi.length + w.bi.length := by
  obtain ⟨gi, bi, added, removed, changed, first⟩ := w
  simp only [Walk.round, Walk.keep_eq] at h
  cases gi with
  | nil =>
      cases bi with
      | nil => cases h
      | cons b bi =>
          cases h
          simp
  | cons g gi =>
      cases bi with
      | nil =>
          cases h
          simp
      | cons b bi =>
          generalize Walk.order ⟨g :: gi, b :: bi, added, removed, changed, first⟩ = order at h
          rcases order with _ | order
          · cases h
          cases order with
          | lt =>
              cases Option.some.inj h
              simp
          | gt =>
              cases Option.some.inj h
              simp
          | eq =>
              dsimp only at h
              split at h
              · cases h
                simp only [List.tail_cons, List.length_cons]
                omega
              · cases h
                simp only [List.tail_cons, List.length_cons]
                omega

/-- The loop of `bisect_records`. -/
def walk (w : Walk) : Walk :=
  match _h : w.round sha256_hex with
  | none => w
  | some w' => walk w'
termination_by w.gi.length + w.bi.length
decreasing_by exact Walk.round_lt sha256_hex _h

structure Report where
  diverged : Bool
  first : Option First
  good_records : Nat
  bad_records : Nat
  added : Nat
  removed : Nat
  changed : Nat
  deriving DecidableEq

/-- Merge-walk two ordered record sets; report the first record (in `(kind, key)` order) present on one
side only or with differing values, plus totals over the whole walk. -/
def bisect_records (good bad : Records) : Report :=
  let w := walk sha256_hex ⟨good.entries, bad.entries, 0, 0, 0, none⟩
  ⟨w.first.isSome, w.first, good.entries.length, bad.entries.length, w.added, w.removed, w.changed⟩

theorem walk_of_round {w w' : Walk} (h : w.round sha256_hex = some w') :
    walk sha256_hex w = walk sha256_hex w' := by
  rw [walk]
  split
  · rename_i hnone
    rw [h] at hnone
    cases hnone
  · rename_i w'' hsome
    rw [h] at hsome
    cases hsome
    rfl

theorem walk_of_done {w : Walk} (h : w.round sha256_hex = none) : walk sha256_hex w = w := by
  rw [walk]
  split
  · rfl
  · rename_i w'' hsome
    rw [h] at hsome
    cases hsome

open MapDiff

def kindOf (c : MapDiff.Change (Text ×ₗ Text) Text) : ChangeKind :=
  match c.left, c.right with
  | some _, none => .removed
  | none, _ => .added
  | some _, some _ => .changed

/-- A difference as it is reported. -/
def reported (c : MapDiff.Change (Text ×ₗ Text) Text) : First :=
  ⟨(ofLex c.key).1, (ofLex c.key).2, kindOf c, c.left.map (value_summary sha256_hex),
    c.right.map (value_summary sha256_hex)⟩

section Rounds

variable {g b : (Text ×ₗ Text) × Text} {gi bi : List ((Text ×ₗ Text) × Text)} (added removed changed : Nat)
  (first : Option First)

theorem walk_removed (h : Walk.order ⟨g :: gi, bi, added, removed, changed, first⟩ = some .lt) :
    walk sha256_hex ⟨g :: gi, bi, added, removed, changed, first⟩ =
      walk sha256_hex ⟨gi, bi, added, removed + 1, changed,
        first.or (some (reported sha256_hex ⟨g.1, some g.2, none⟩))⟩ := by
  apply walk_of_round
  rw [Walk.round, h]
  simp only [Walk.keep_eq]
  rfl

theorem walk_added (h : Walk.order ⟨gi, b :: bi, added, removed, changed, first⟩ = some .gt) :
    walk sha256_hex ⟨gi, b :: bi, added, removed, changed, first⟩ =
      walk sha256_hex ⟨gi, bi, added + 1, removed, changed,
        first.or (some (reported sha256_hex ⟨b.1, none, some b.2⟩))⟩ := by
  apply walk_of_round
  rw [Walk.round, h]
  simp only [Walk.keep_eq]
  rfl

theorem walk_equal (h : Walk.order ⟨g :: gi, b :: bi, added, removed, changed, first⟩ = some .eq)
    (hval : g.2 = b.2) :
    walk sha256_hex ⟨g :: gi, b :: bi, added, removed, changed, first⟩ =
      walk sha256_hex ⟨gi, bi, added, removed, changed, first⟩ := by
  apply walk_of_round
  rw [Walk.round, h]
  exact if_pos (congrArg some hval)

theorem walk_changed (h : Walk.order ⟨g :: gi, b :: bi, added, removed, changed, first⟩ = some .eq)
    (hval : g.2 ≠ b.2) :
    walk sha256_hex ⟨g :: gi, b :: bi, added, removed, changed, first⟩ =
      walk sha256_hex ⟨gi, bi, added, removed, changed + 1,
        first.or (some (reported sha256_hex ⟨g.1, some g.2, some b.2⟩))⟩ := by
  apply walk_of_round
  rw [Walk.round, h]
  simp only [Walk.keep_eq]
  exact if_neg fun heq => hval (Option.some.inj heq)

/-- The totals and the first difference of a walk are those it has, with what the records still ahead of
both iterators give. -/
theorem walk_eq :
    walk sha256_hex ⟨gi, bi, added, removed, changed, first⟩ =
      ⟨[], [], added + (changes gi bi).countP (fun c => c.left.isNone),
        removed + (changes gi bi).countP (fun c => c.right.isNone),
        changed + (changes gi bi).countP (fun c => c.left.isSome && c.right.isSome),
        first.or ((changes gi bi).head?.map (reported sha256_hex))⟩ := by
  induction gi, bi using changes.induct generalizing added removed changed first with
  | case1 =>
      rw [walk_of_done sha256_hex rfl]
      simp [changes]
  | case2 g gi ih =>
      rw [walk_removed sha256_hex added removed changed first rfl, ih, changes]
      simp [Nat.add_assoc, Nat.add_comm 1]
  | case3 b bi ih =>
      rw [walk_added sha256_hex added removed changed first rfl, ih, changes]
      simp [Nat.add_assoc, Nat.add_comm 1]
  | case4 g gi b bi hlt ih =>
      have horder : Walk.order ⟨g :: gi, b :: bi, added, removed, changed, first⟩ = some .lt :=
        congrArg some ((cmp_eq_lt_iff _ _).mpr hlt)
      rw [walk_removed sha256_hex added removed changed first horder, ih, changes, if_pos hlt]
      simp [Nat.add_assoc, Nat.add_comm 1]
  | case5 g gi b bi hle hgt ih =>
      have horder : Walk.order ⟨g :: gi, b :: bi, added, removed, changed, first⟩ = some .gt :=
        congrArg some ((cmp_eq_gt_iff _ _).mpr hgt)
      rw [walk_added sha256_hex added removed changed first horder, ih, changes, if_neg hle,
        if_pos hgt]
      simp [Nat.add_assoc, Nat.add_comm 1]
  | case6 g gi b bi hle hge hval ih =>
      have horder : cmp g.1 b.1 = .eq :=
        (cmp_eq_eq_iff _ _).mpr (le_antisymm (not_lt.mp hge) (not_lt.mp hle))
      rw [walk_equal sha256_hex added removed changed first (congrArg some horder) hval, ih, changes,
        if_neg hle, if_neg hge, if_pos hval]
  | case7 g gi b bi hle hge hval ih =>
      have horder : cmp g.1 b.1 = .eq :=
        (cmp_eq_eq_iff _ _).mpr (le_antisymm (not_lt.mp hge) (not_lt.mp hle))
      rw [walk_changed sha256_hex added removed changed first (congrArg some horder) hval, ih, changes,
        if_neg hle, if_neg hge, if_neg hval]
      simp [Nat.add_assoc, Nat.add_comm 1]

end Rounds

theorem bisect_eq (good bad : Records) :
    bisect_records sha256_hex good bad =
      ⟨((diff good bad).head?.map (reported sha256_hex)).isSome, (diff good bad).head?.map (reported sha256_hex),
        good.entries.length, bad.entries.length, (diff good bad).countP (fun c => c.left.isNone),
        (diff good bad).countP (fun c => c.right.isNone),
        (diff good bad).countP (fun c => c.left.isSome && c.right.isSome)⟩ := by
  rw [bisect_records, walk_eq]
  simp [diff]

/-- The first difference is reported at its key and with both sides' values. -/
theorem reported_head {good bad : Records} {c : MapDiff.Change (Text ×ₗ Text) Text}
    (h : (diff good bad).head? = some c) :
    IsLeast {k | good.get? k ≠ bad.get? k} c.key ∧
      ((reported sha256_hex c).change = .removed ↔ bad.get? c.key = none) ∧
      ((reported sha256_hex c).change = .added ↔ good.get? c.key = none) ∧
      (reported sha256_hex c).good = (good.get? c.key).map (value_summary sha256_hex) ∧
      (reported sha256_hex c).bad = (bad.get? c.key).map (value_summary sha256_hex) := by
  obtain ⟨cs, hcs⟩ := List.head?_eq_some_iff.mp h
  obtain ⟨hl, hr, hne⟩ := mem_diff.mp (hcs ▸ List.mem_cons_self : c ∈ diff good bad)
  refine ⟨isLeast_head hcs, ?_, ?_, congrArg (Option.map _) hl, congrArg (Option.map _) hr⟩
  · rw [← hr, reported, kindOf]
    cases hleft : c.left with
    | none =>
        have hright : c.right ≠ none := hleft ▸ hne.symm
        simp [hright]
    | some v => cases c.right <;> simp
  · rw [← hl, reported, kindOf]
    cases c.left with
    | none => simp
    | some v => cases c.right <;> simp

/-- Where a shard records something. -/
inductive Origin
  | map (f : MapField)
  | extra (sub : Text)
  | list (f : ListField)
  | sourced
  | zmodload
  | setopt
  | unsetopt
  | zstyle
  | plugin
  deriving DecidableEq

def Origin.kind : Origin → Text
  | map f => f.subsystem
  | extra sub => extraPrefix ++ sub
  | list f => f.subsystem
  | sourced => source
  | zmodload => Canonical.zmodload
  | setopt => Canonical.setopt
  | unsetopt => Canonical.unsetopt
  | zstyle => Canonical.zstyle
  | plugin => Canonical.plugin

/-- What a shard records: an entry of a map, an item of a list at its position, an option or a module. -/
inductive Fact
  | entry (f : MapField) (key value : Text)
  | extra (sub key value : Text)
  | listed (f : ListField) (i : Nat) (item : Text)
  | sourced (i : Nat) (item : Text)
  | loaded (module : Text)
  | set (option : Text)
  | unset (option : Text)
  | style (i : Nat) (pattern rule : Text)
  | plugin (i : Nat) (manager name : Text)
  deriving DecidableEq

def Fact.origin : Fact → Origin
  | entry f _ _ => .map f
  | extra sub _ _ => .extra sub
  | listed f _ _ => .list f
  | sourced _ _ => .sourced
  | loaded _ => .zmodload
  | set _ => .setopt
  | unset _ => .unsetopt
  | style _ _ _ => .zstyle
  | plugin _ _ _ => .plugin

def Fact.key : Fact → Text
  | entry _ key _ => key
  | extra _ key _ => key
  | listed _ i _ => padded i
  | sourced i _ => padded i
  | loaded module => module
  | set option => option
  | unset option => option
  | style i pattern _ => padded i ++ ':' :: pattern
  | plugin i manager _ => padded i ++ ':' :: manager

def Fact.value : Fact → Text
  | entry _ _ value => value
  | extra _ _ value => value
  | listed _ _ item => item
  | sourced _ item => item
  | loaded _ => []
  | set _ => ['o', 'n']
  | unset _ => ['o', 'f', 'f']
  | style _ _ rule => rule
  | plugin _ _ name => name

/-- The record that a fact is flattened to. -/
def Fact.slot (x : Fact) : Text ×ₗ Text := toLex (x.origin.kind, x.key)

def Holds (s : RecordedShard) : Fact → Prop
  | .entry f key value => (s.maps f).get? key = some value
  | .extra sub key value => ∃ table, s.extras.get? sub = some table ∧ table.get? key = some value
  | .listed f i item => (s.lists f)[i]? = some item
  | .sourced i item => s.sourced_files[i]? = some item
  | .loaded module => module ∈ s.zmodload
  | .set option => option ∈ s.setopts
  | .unset option => option ∈ s.unsetopts
  | .style i pattern rule => s.zstyle[i]? = some (pattern, rule)
  | .plugin i manager name => s.plugins[i]? = some (manager, name)

/-- The origins with a kind of their own name. -/
def namedOrigins : List Origin :=
  recordMaps.map .map ++ listFields.map .list ++ [.sourced, .zmodload, .setopt, .unsetopt, .zstyle, .plugin]

theorem origin_cases (o : Origin) : o ∈ namedOrigins ∨ ∃ sub, o = .extra sub := by
  cases o with
  | extra sub => exact Or.inr ⟨sub, rfl⟩
  | map f => cases f <;> exact Or.inl (by decide)
  | list f => cases f <;> exact Or.inl (by decide)
  | _ => exact Or.inl (by decide)

theorem named_kinds : (namedOrigins.map Origin.kind).Nodup := by decide

theorem named_not_extra : namedOrigins.all (fun o => !extraPrefix.isPrefixOf o.kind) = true := by decide

theorem named_ne_extra {o : Origin} (ho : o ∈ namedOrigins) (sub : Text) : o.kind ≠ (Origin.extra sub).kind := by
  intro h
  have hno := List.all_eq_true.mp named_not_extra o ho
  have hyes : extraPrefix.isPrefixOf o.kind = true :=
    List.isPrefixOf_iff_prefix.mpr (h ▸ List.prefix_append extraPrefix sub)
  rw [hyes] at hno
  cases hno

theorem kind_injective : Function.Injective Origin.kind := by
  intro o o' h
  rcases origin_cases o with ho | ⟨sub, rfl⟩
  · rcases origin_cases o' with ho' | ⟨sub', rfl⟩
    · exact List.inj_on_of_nodup_map named_kinds ho ho' h
    · exact absurd h (named_ne_extra ho sub')
  · rcases origin_cases o' with ho' | ⟨sub', rfl⟩
    · exact absurd h.symm (named_ne_extra ho' sub)
    · exact congrArg Origin.extra (List.append_cancel_left h)

theorem padded_digits {i : Nat} {c : Char} (h : c ∈ padded i) : c.isDigit = true := by
  rcases List.mem_append.mp h with h | h
  · rw [List.eq_of_mem_replicate h]
    decide
  · exact index_digits h

theorem ofDigitChars_padded (i : Nat) : Nat.ofDigitChars 10 (padded i) 0 = i := by
  rw [padded, List.leftpad, Nat.ofDigitChars_append, Nat.ofDigitChars_replicate_zero, Nat.mul_zero]
  exact Nat.ofDigitChars_ten_toDigits

theorem padded_injective : Function.Injective padded := by
  intro i j h
  rw [← ofDigitChars_padded i, ← ofDigitChars_padded j, h]

/-- A position is all that stands in front of the first colon. -/
theorem takeWhile_padded (i : Nat) (name : Text) : (padded i ++ ':' :: name).takeWhile Char.isDigit = padded i := by
  rw [List.takeWhile_append_of_pos fun c hc => padded_digits hc]
  simp

theorem positioned_injective {i j : Nat} {name name' : Text}
    (h : padded i ++ ':' :: name = padded j ++ ':' :: name') : i = j ∧ name = name' := by
  have hpos := congrArg (List.takeWhile Char.isDigit) h
  rw [takeWhile_padded, takeWhile_padded] at hpos
  rw [hpos] at h
  exact ⟨padded_injective hpos, List.tail_eq_of_cons_eq (List.append_cancel_left h)⟩

/-- Distinct facts of a shard are flattened to distinct slots. -/
theorem slot_injOn (s : RecordedShard) : Set.InjOn Fact.slot {x | Holds s x} := by
  intro x hx y hy h
  have hslot : (x.origin.kind, x.key) = (y.origin.kind, y.key) := toLex.injective h
  obtain ⟨hkind, hkey⟩ := Prod.mk.inj hslot
  have horigin : x.origin = y.origin := kind_injective hkind
  cases x with
  | entry f key value =>
      cases y <;> cases horigin
      cases hkey
      exact congrArg (Fact.entry f key) (Option.some.inj (hx.symm.trans hy))
  | extra sub key value =>
      cases y <;> cases horigin
      cases hkey
      obtain ⟨table, ht, hv⟩ := hx
      obtain ⟨table', ht', hv'⟩ := hy
      cases ht.symm.trans ht'
      exact congrArg (Fact.extra sub key) (Option.some.inj (hv.symm.trans hv'))
  | listed f i item =>
      cases y <;> cases horigin
      cases padded_injective hkey
      exact congrArg (Fact.listed f i) (Option.some.inj (hx.symm.trans hy))
  | sourced i item =>
      cases y <;> cases horigin
      cases padded_injective hkey
      exact congrArg (Fact.sourced i) (Option.some.inj (hx.symm.trans hy))
  | loaded module =>
      cases y <;> cases horigin
      exact congrArg Fact.loaded hkey
  | set option =>
      cases y <;> cases horigin
      exact congrArg Fact.set hkey
  | unset option =>
      cases y <;> cases horigin
      exact congrArg Fact.unset hkey
  | style i pattern rule =>
      cases y <;> cases horigin
      obtain ⟨rfl, -⟩ := positioned_injective hkey
      cases hx.symm.trans hy
      rfl
  | plugin i manager name =>
      cases y <;> cases horigin
      obtain ⟨rfl, -⟩ := positioned_injective hkey
      cases hx.symm.trans hy
      rfl

theorem mem_zipIdx_map {α β : Type} {xs : List α} {f : α × Nat → β} {y : β} :
    y ∈ xs.zipIdx.map f ↔ ∃ i x, xs[i]? = some x ∧ f (x, i) = y := by
  rw [List.mem_map]
  constructor
  · rintro ⟨⟨x, i⟩, hmem, rfl⟩
    exact ⟨i, x, List.mk_mem_zipIdx_iff_getElem?.mp hmem, rfl⟩
  · rintro ⟨i, x, hx, rfl⟩
    exact ⟨(x, i), List.mk_mem_zipIdx_iff_getElem?.mpr hx, rfl⟩

/-- The loops insert the records of the facts and nothing else. -/
theorem mem_inserted (s : RecordedShard) (p : (Text ×ₗ Text) × Text) :
    p ∈ inserted s ↔ ∃ x, Holds s x ∧ (x.slot, x.value) = p := by
  have hmaps : ∀ f : MapField, f ∈ recordMaps := by
    intro f
    cases f <;> decide
  simp only [inserted, List.mem_append, List.mem_flatMap, recordLists, List.mem_cons, List.not_mem_nil, or_false,
    mem_zipIdx_map]
  constructor
  · rintro (((((((⟨f, -, h⟩ | ⟨t, ht, h⟩) | ⟨l, hl, i, item, hi, rfl⟩) | h) | h) | h) | ⟨i, x, hi, rfl⟩) | ⟨i, x, hi, rfl⟩)
    · obtain ⟨q, hq, rfl⟩ := List.mem_map.mp h
      exact ⟨.entry f q.1 q.2, OrdMap.get?_eq_some_iff.mpr hq, rfl⟩
    · obtain ⟨q, hq, rfl⟩ := List.mem_map.mp h
      exact ⟨.extra t.1 q.1 q.2, ⟨t.2, OrdMap.get?_eq_some_iff.mpr ht, OrdMap.get?_eq_some_iff.mpr hq⟩, rfl⟩
    · rcases hl with rfl | rfl | rfl | rfl
      · exact ⟨.listed .path i item, hi, rfl⟩
      · exact ⟨.listed .fpath i item, hi, rfl⟩
      · exact ⟨.listed .manpath i item, hi, rfl⟩
      · exact ⟨.sourced i item, hi, rfl⟩
    · obtain ⟨m, hm, rfl⟩ := List.mem_map.mp h
      exact ⟨.loaded m, hm, rfl⟩
    · obtain ⟨o, ho, rfl⟩ := List.mem_map.mp h
      exact ⟨.set o, ho, rfl⟩
    · obtain ⟨o, ho, rfl⟩ := List.mem_map.mp h
      exact ⟨.unset o, ho, rfl⟩
    · exact ⟨.style i x.1 x.2, hi, rfl⟩
    · exact ⟨.plugin i x.1 x.2, hi, rfl⟩
  · rintro ⟨x, hx, rfl⟩
    cases x with
    | entry f key value =>
        refine Or.inl (Or.inl (Or.inl (Or.inl (Or.inl (Or.inl (Or.inl ⟨f, hmaps f, ?_⟩))))))
        exact List.mem_map.mpr ⟨(key, value), OrdMap.get?_eq_some_iff.mp hx, rfl⟩
    | extra sub key value =>
        obtain ⟨table, ht, hv⟩ := hx
        refine Or.inl (Or.inl (Or.inl (Or.inl (Or.inl (Or.inl (Or.inr
          ⟨(sub, table), OrdMap.get?_eq_some_iff.mp ht, ?_⟩))))))
        exact List.mem_map.mpr ⟨(key, value), OrdMap.get?_eq_some_iff.mp hv, rfl⟩
    | listed f i item =>
        refine Or.inl (Or.inl (Or.inl (Or.inl (Or.inl (Or.inr ⟨(f.subsystem, s.lists f), ?_, i, item, hx, rfl⟩)))))
        cases f
        · exact Or.inl rfl
        · exact Or.inr (Or.inl rfl)
        · exact Or.inr (Or.inr (Or.inl rfl))
    | sourced i item =>
        exact Or.inl (Or.inl (Or.inl (Or.inl (Or.inl (Or.inr
          ⟨(source, s.sourced_files), Or.inr (Or.inr (Or.inr rfl)), i, item, hx, rfl⟩)))))
    | loaded module => exact Or.inl (Or.inl (Or.inl (Or.inl (Or.inr (List.mem_map.mpr ⟨module, hx, rfl⟩)))))
    | set option => exact Or.inl (Or.inl (Or.inl (Or.inr (List.mem_map.mpr ⟨option, hx, rfl⟩))))
    | unset option => exact Or.inl (Or.inl (Or.inr (List.mem_map.mpr ⟨option, hx, rfl⟩)))
    | style i pattern rule => exact Or.inl (Or.inr ⟨i, (pattern, rule), hx, rfl⟩)
    | plugin i manager name => exact Or.inr ⟨i, (manager, name), hx, rfl⟩

/-- The flattened map holds the facts of the shard, one record for each. -/
theorem records_get? (s : RecordedShard) (k : Text ×ₗ Text) (v : Text) :
    (records s).get? k = some v ↔ ∃ x, Holds s x ∧ x.slot = k ∧ x.value = v := by
  have hsame : ∀ p ∈ inserted s, ∀ q ∈ inserted s, p.1 = q.1 → p = q := by
    intro p hp q hq hkey
    obtain ⟨x, hx, rfl⟩ := (mem_inserted s p).mp hp
    obtain ⟨y, hy, rfl⟩ := (mem_inserted s q).mp hq
    rw [slot_injOn s hx hy hkey]
  rw [records, OrdMap.get?_insertAll_of_functional hsame, mem_inserted]
  simp only [Prod.mk.injEq]

/-- What a bisection of two shards reports: whether their records differ, the least record at which they do
with what stands there on both sides, and how many records each side has alone and both have unlike. -/
theorem bisect_records_reports_difference (g b : RecordedShard) :
    (∀ s : RecordedShard, Set.InjOn Fact.slot {x | Holds s x} ∧
      ∀ k v, (records s).get? k = some v ↔ ∃ x, Holds s x ∧ x.slot = k ∧ x.value = v) ∧
    ((bisect_records sha256_hex (records g) (records b)).diverged = true ↔ records g ≠ records b) ∧
    (bisect_records sha256_hex (records g) (records b)).diverged =
      (bisect_records sha256_hex (records g) (records b)).first.isSome ∧
    (∀ f ∈ (bisect_records sha256_hex (records g) (records b)).first,
      IsLeast {k | (records g).get? k ≠ (records b).get? k} (toLex (f.kind, f.key)) ∧
      (f.change = .removed ↔ (records b).get? (toLex (f.kind, f.key)) = none) ∧
      (f.change = .added ↔ (records g).get? (toLex (f.kind, f.key)) = none) ∧
      f.good = ((records g).get? (toLex (f.kind, f.key))).map (value_summary sha256_hex) ∧
      f.bad = ((records b).get? (toLex (f.kind, f.key))).map (value_summary sha256_hex)) ∧
    (bisect_records sha256_hex (records g) (records b)).added = (onlyIn (records b) (records g)).card ∧
    (bisect_records sha256_hex (records g) (records b)).removed = (onlyIn (records g) (records b)).card ∧
    (bisect_records sha256_hex (records g) (records b)).changed = (unlike (records g) (records b)).card := by
  refine ⟨fun s => ⟨slot_injOn s, records_get? s⟩, ?_⟩
  rw [bisect_eq]
  refine ⟨?_, rfl, ?_, card_added (records g) (records b), card_removed (records g) (records b),
    card_changed (records g) (records b)⟩
  · rw [Option.isSome_map, List.isSome_head?, ne_eq, diff_eq_nil_iff]
  · intro f hf
    obtain ⟨c, hc, rfl⟩ := Option.map_eq_some_iff.mp hf
    exact reported_head sha256_hex hc

end Zshrs.Daemon.Canonical
