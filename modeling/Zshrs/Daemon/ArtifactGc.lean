import Zshrs.Daemon.ArtifactRuns
import Mathlib.Data.List.Perm.Subperm
import Mathlib.Algebra.Order.BigOperators.Group.List

namespace Zshrs.Daemon.Artifact

open Json Lib.Runs
open Schedule (saturatingMul)

section Tidy

/-- Names are keys, and no row has a negative size. -/
structure Tidy (rows : List Row) : Prop where
  nodup : (rows.map Row.name).Nodup
  bytes : ∀ r ∈ rows, 0 ≤ r.bytes

variable {rows : List Row}

theorem Tidy.filter (h : Tidy rows) (p : Row → Bool) : Tidy (rows.filter p) where
  nodup := h.nodup.sublist (List.filter_sublist.map _)
  bytes := fun r hr => h.bytes r (List.mem_filter.mp hr).1

theorem Tidy.eq_of_name (h : Tidy rows) {a b : Row} (ha : a ∈ rows) (hb : b ∈ rows)
    (hn : a.name = b.name) : a = b :=
  List.inj_on_of_nodup_map h.nodup ha hb hn

theorem Tidy.map (h : Tidy rows) {f : Row → Row} (hf : ∀ r, (f r).name = r.name)
    (hb : ∀ r ∈ rows, 0 ≤ (f r).bytes) : Tidy (rows.map f) where
  nodup := by
    have same : (rows.map f).map Row.name = rows.map Row.name := by
      rw [List.map_map]
      apply List.map_congr_left
      intro r _
      exact hf r
    rw [same]
    exact h.nodup
  bytes := by
    intro r hr
    obtain ⟨r', hr', rfl⟩ := List.mem_map.mp hr
    exact hb r' hr'

theorem tidy_insertRow (h : Tidy rows) (name digest : String) (size : Nat) (now : Int) :
    Tidy (insertRow rows name digest size now) := by
  unfold insertRow
  split
  · apply h.map
    · intro r
      split
      · rfl
      · rfl
    · intro r hr
      split
      · exact Int.natCast_nonneg size
      · exact h.bytes r hr
  · next absent =>
    refine ⟨?_, ?_⟩
    · rw [List.map_append, List.map_singleton, List.nodup_append]
      refine ⟨h.nodup, List.nodup_singleton _, ?_⟩
      intro a ha b hb
      obtain ⟨r, hr, rfl⟩ := List.mem_map.mp ha
      rw [List.mem_singleton] at hb
      intro heq
      exact absent (List.any_eq_true.mpr ⟨r, hr, by simpa using heq.trans hb⟩)
    · intro r hr
      rcases List.mem_append.mp hr with hr | hr
      · exact h.bytes r hr
      · rw [List.mem_singleton] at hr
        subst hr
        exact Int.natCast_nonneg size

section Steps

variable (C : Crates) (O : OrderBy) (s : Store)

theorem createTmp_turn (k : Nat) (p : Put) : (createTmp C s k p).rows = s.rows ∧
    ∃ op, (createTmp C s k p).ops = Function.update s.ops k op ∧ op.putting = some p := by
  unfold createTmp
  split
  · exact ⟨rfl, _, rfl, rfl⟩
  · exact ⟨rfl, _, rfl, rfl⟩

theorem writeTmp_turn (k : Nat) (p : Put) (file sent chunk : Nat) : (writeTmp s k p file sent chunk).rows = s.rows ∧
    ∃ op, (writeTmp s k p file sent chunk).ops = Function.update s.ops k op ∧ op.putting = some p := by
  unfold writeTmp
  split
  · exact ⟨rfl, _, rfl, rfl⟩
  · exact ⟨rfl, _, rfl, rfl⟩

theorem renameTmp_turn (k : Nat) (p : Put) : (renameTmp C s k p).rows = s.rows ∧
    ∃ op, (renameTmp C s k p).ops = Function.update s.ops k op ∧ (op.putting = none ∨ op.putting = some p) := by
  unfold renameTmp
  split
  · exact ⟨rfl, _, rfl, .inl rfl⟩
  · exact ⟨rfl, _, rfl, .inr rfl⟩

/-- What a step does to the rows. -/
theorem step_rows (e : Event) :
    (step C O s e).rows = s.rows ∨ (∃ name, (step C O s e).rows = s.rows.filter (·.name ≠ name)) ∨
      (∃ name now, (step C O s e).rows = touch s.rows name now) ∨
      ∃ k p now, (s.ops k).putting = some p ∧
        (step C O s e).rows = insertRow s.rows p.name (p.digest C) (wrapping p.value.length) now := by
  cases e with
  | touch name now => exact .inr (.inr (.inl ⟨name, now, rfl⟩))
  | fail k e =>
    unfold step
    dsimp only
    split
    · exact .inl rfl
    · exact .inl rfl
  | request k r now =>
    unfold step
    dsimp only
    split
    · exact .inl rfl
    · unfold request
      split
      · split
        · exact .inl rfl
        · exact .inl rfl
      · exact .inl rfl
  | step k now chunk =>
    unfold step advance
    dsimp only
    cases hk : s.ops k with
    | insert p => exact .inr (.inr (.inr ⟨k, p, now, by rw [hk]; rfl, rfl⟩))
    | create p => exact .inl (createTmp_turn C s k p).1
    | write p file sent => exact .inl (writeTmp_turn s k p file sent chunk).1
    | rename p => exact .inl (renameTmp_turn C s k p).1
    | scan cutoff maxBytes =>
      cases maxBytes with
      | none => exact .inl rfl
      | some cap => exact .inl rfl
    | delete todo collected =>
      cases todo with
      | nil => exact .inl rfl
      | cons r todo => exact .inr (.inl ⟨r.name, rfl⟩)
    | _ => exact .inl rfl

/-- The put of a client is the one it had, or the one it asks for. -/
theorem step_putting {e : Event} {j : Nat} {p : Put} (h : ((step C O s e).ops j).putting = some p) :
    (∃ i, (s.ops i).putting = some p) ∨ putValue C e = some p.value := by
  have turned {t : Store} {k : Nat} {op : Op} (ht : t.ops = Function.update s.ops k op)
      (h : (t.ops j).putting = some p) : (∃ i, (s.ops i).putting = some p) ∨ op.putting = some p := by
    rw [ht, Function.update_apply] at h
    split at h
    · exact .inr h
    · exact .inl ⟨j, h⟩
  cases e with
  | touch name now => exact .inl ⟨j, h⟩
  | fail k e =>
    unfold step at h
    dsimp only at h
    split at h
    · exact (turned rfl h).imp_right nofun
    · exact .inl ⟨j, h⟩
  | request k r now =>
    unfold step at h
    dsimp only at h
    split at h
    · exact .inl ⟨j, h⟩
    · cases r with
      | gc args => exact (turned rfl h).imp_right nofun
      | put args =>
        unfold request at h
        dsimp only at h
        split at h
        · exact (turned rfl h).imp_right nofun
        · next q hq =>
          refine (turned rfl h).imp_right fun he => ?_
          cases he
          show (putArgs C args).toOption.map Put.value = _
          rw [hq]
          rfl
  | step k now chunk =>
    unfold step advance at h
    dsimp only at h
    have mine {op : Op} (hp : op.putting = none ∨ op.putting = (s.ops k).putting)
        (hs : (∃ i, (s.ops i).putting = some p) ∨ op.putting = some p) : ∃ i, (s.ops i).putting = some p := by
      rcases hs with hs | hs
      · exact hs
      · rcases hp with hp | hp
        · rw [hp] at hs
          cases hs
        · exact ⟨k, hp ▸ hs⟩
    left
    cases hk : s.ops k with
    | idle => rw [hk] at h; exact ⟨j, h⟩
    | done answer => rw [hk] at h; exact ⟨j, h⟩
    | exist q =>
      rw [hk] at h
      refine mine ?_ (turned rfl h)
      rw [hk]
      split
      · exact .inr rfl
      · exact .inr rfl
    | create q =>
      rw [hk] at h
      obtain ⟨-, op, ht, hp⟩ := createTmp_turn C s k q
      exact mine (.inr (by rw [hp, hk]; rfl)) (turned ht h)
    | write q file sent =>
      rw [hk] at h
      obtain ⟨-, op, ht, hp⟩ := writeTmp_turn s k q file sent chunk
      exact mine (.inr (by rw [hp, hk]; rfl)) (turned ht h)
    | rename q =>
      rw [hk] at h
      obtain ⟨-, op, ht, hp⟩ := renameTmp_turn C s k q
      exact mine (hp.imp_right fun hp => by rw [hp, hk]; rfl) (turned ht h)
    | insert q => rw [hk] at h; exact mine (.inl rfl) (turned rfl h)
    | scan cutoff maxBytes =>
      rw [hk] at h
      cases maxBytes with
      | none => exact mine (.inl rfl) (turned rfl h)
      | some cap => exact mine (.inl rfl) (turned rfl h)
    | scanCap cap old => rw [hk] at h; exact mine (.inl rfl) (turned rfl h)
    | delete todo collected =>
      rw [hk] at h
      cases todo with
      | nil => exact mine (.inl rfl) (turned rfl h)
      | cons r todo => exact mine (.inl rfl) (turned rfl h)
    | count r todo collected =>
      rw [hk] at h
      refine mine (.inl ?_) (turned rfl h)
      split
      · rfl
      · rfl
    | look r todo collected =>
      rw [hk] at h
      refine mine (.inl ?_) (turned rfl h)
      split
      · rfl
      · rfl
    | remove r todo collected => rw [hk] at h; exact mine (.inl rfl) (turned rfl h)

end Steps

theorem wrapping_eq {n : Int} (hl : -2 ^ 63 ≤ n) (hu : n < 2 ^ 63) : wrapping n = n :=
  Int.bmod_eq_of_le_mul_two (by omega) (by omega)

theorem tidy_touch (h : Tidy rows) (name : String) (now : Int) : Tidy (touch rows name now) := by
  apply h.map
  · intro r
    split
    · rfl
    · rfl
  · intro r hr
    split
    · exact h.bytes r hr
    · exact h.bytes r hr

/-- Whatever the interleaving, no name has two rows. A value is shorter than the address space. -/
theorem tidy_run (C : Crates) (O : OrderBy) (es : List Event) (short : ∀ v ∈ putValues C es, v.length < 2 ^ 63) :
    Tidy (run (step C O) init es).rows := by
  suffices inv : ∀ s, Tidy s.rows → (∀ k p, (s.ops k).putting = some p → p.value.length < 2 ^ 63) →
      Tidy (run (step C O) s es).rows from inv init ⟨List.nodup_nil, nofun⟩ nofun
  induction es with
  | nil => exact fun s h _ => h
  | cons e es ih =>
    intro s tidy small
    refine ih (fun v hv => ?_) _ ?_ fun k p hp => ?_
    · obtain ⟨e', he', hval⟩ := List.mem_filterMap.mp hv
      exact short v (List.mem_filterMap.mpr ⟨e', List.mem_cons_of_mem _ he', hval⟩)
    · rcases step_rows C O s e with h | ⟨name, h⟩ | ⟨name, now, h⟩ | ⟨k, p, now, hk, h⟩
      · exact h ▸ tidy
      · exact h ▸ tidy.filter _
      · exact h ▸ tidy_touch tidy name now
      · have hlt := small k p hk
        rw [h, wrapping_eq (by omega) (by omega)]
        exact tidy_insertRow tidy _ _ _ now
    · rcases step_putting C O s hp with ⟨i, hi⟩ | hv
      · exact small i p hi
      · exact short p.value (List.mem_filterMap.mpr ⟨e, List.mem_cons_self, hv⟩)

end Tidy

section Collection

def sizeOf (rows : List Row) : Int := (rows.map Row.bytes).sum

theorem sizeOf_append (a b : List Row) : sizeOf (a ++ b) = sizeOf a + sizeOf b := by
  unfold sizeOf
  rw [List.map_append, List.sum_append]

theorem sizeOf_nonneg {rows : List Row} (h : ∀ r ∈ rows, 0 ≤ r.bytes) : 0 ≤ sizeOf rows := by
  apply List.sum_nonneg
  intro n hn
  obtain ⟨r, hr, rfl⟩ := List.mem_map.mp hn
  exact h r hr

theorem sizeOf_perm {a b : List Row} (h : a.Perm b) : sizeOf a = sizeOf b := (h.map _).sum_eq

theorem sizeOf_subperm {a b : List Row} (h : a.Subperm b) (hb : ∀ r ∈ b, 0 ≤ r.bytes) :
    sizeOf a ≤ sizeOf b := by
  obtain ⟨l, perm, sub⟩ := h
  rw [← sizeOf_perm perm]
  apply (sub.map Row.bytes).sum_le_sum
  intro n hn
  obtain ⟨r, hr, rfl⟩ := List.mem_map.mp hn
  exact hb r hr

def names (rows : List Row) (name : String) : Prop := ∃ r ∈ rows, r.name = name

theorem names_cons {r : Row} {rows : List Row} {name : String} :
    names (r :: rows) name ↔ r.name = name ∨ names rows name := by
  simp [names]

theorem total_eq {rows : List Row} (hb : ∀ r ∈ rows, 0 ≤ r.bytes) (hlt : sizeOf rows < 2 ^ 63) :
    total rows = sizeOf rows := by
  suffices go : ∀ n : Int, 0 ≤ n → n + sizeOf rows < 2 ^ 63 →
      rows.foldl (fun n r => wrapping (n + r.bytes)) n = n + sizeOf rows by
    have start := go 0 (Int.le_refl 0) (by omega)
    rwa [Int.zero_add] at start
  clear hlt
  induction rows with
  | nil => exact fun n _ _ => (Int.add_zero n).symm
  | cons r rows ih =>
    intro n hn hlt
    have hr := hb r List.mem_cons_self
    have hrows : ∀ q ∈ rows, 0 ≤ q.bytes := fun q hq => hb q (List.mem_cons_of_mem _ hq)
    have rest := sizeOf_nonneg hrows
    have cons : sizeOf (r :: rows) = r.bytes + sizeOf rows := List.sum_cons
    rw [List.foldl_cons, wrapping_eq (by omega) (by omega), ih hrows _ (by omega) (by omega)]
    omega

/-- The loop of the cap takes the rows of a part in front, each of them while the rest is over. -/
theorem capLoop_spec (sorted acc : List Row) (overBy : Int) (hb : ∀ r ∈ sorted, 0 ≤ r.bytes)
    (hsum : sizeOf sorted < 2 ^ 63) (hover : overBy < 2 ^ 63) :
    ∃ pre post, sorted = pre ++ post ∧ (overBy ≤ sizeOf pre ∨ post = []) ∧
      (∀ a r b, pre = a ++ r :: b → 0 < overBy - sizeOf a) ∧
      (∀ r ∈ capLoop overBy sorted acc, r ∈ acc ∨ r ∈ pre) ∧
      (∀ name, names (capLoop overBy sorted acc) name ↔ names acc name ∨ names pre name) := by
  induction sorted generalizing overBy acc with
  | nil =>
    refine ⟨[], [], rfl, .inr rfl, ?_, fun r hr => .inl hr, fun name => ?_⟩
    · intro a r b h
      cases a <;> cases h
    · simp [capLoop, names]
  | cons x sorted ih =>
    have hx := hb x List.mem_cons_self
    have hrest : ∀ r ∈ sorted, 0 ≤ r.bytes := fun r hr => hb r (List.mem_cons_of_mem _ hr)
    have rest := sizeOf_nonneg hrest
    have front : sizeOf (x :: sorted) = x.bytes + sizeOf sorted := List.sum_cons
    unfold capLoop
    split
    · next hpos =>
      rw [wrapping_eq (by omega) (by omega)]
      obtain ⟨pre, post, happ, hend, hmid, hmem, hname⟩ :=
        ih (if acc.any (·.name = x.name) then acc else acc ++ [x]) (overBy - x.bytes) hrest (by omega) (by omega)
      refine ⟨x :: pre, post, by rw [happ, List.cons_append], ?_, ?_, ?_, ?_⟩
      · rcases hend with hend | hend
        · left
          have cons : sizeOf (x :: pre) = x.bytes + sizeOf pre := List.sum_cons
          omega
        · exact .inr hend
      · intro a r b h
        cases a with
        | nil => simpa [sizeOf] using hpos
        | cons y a =>
          rw [List.cons_append, List.cons.injEq] at h
          obtain ⟨rfl, h⟩ := h
          have mid := hmid a r b h
          have cons : sizeOf (x :: a) = x.bytes + sizeOf a := List.sum_cons
          omega
      · intro r hr
        rcases hmem r hr with hr | hr
        · split at hr
          · exact .inl hr
          · rcases List.mem_append.mp hr with hr | hr
            · exact .inl hr
            · exact .inr (List.mem_cons.mpr (.inl (List.mem_singleton.mp hr)))
        · exact .inr (List.mem_cons_of_mem _ hr)
      · intro name
        rw [hname name, names_cons]
        split
        · next there =>
          obtain ⟨r, hr, hn⟩ : ∃ r ∈ acc, r.name = x.name := by simpa using there
          constructor
          · rintro (h | h)
            · exact .inl h
            · exact .inr (.inr h)
          · rintro (h | h | h)
            · exact .inl h
            · exact .inl ⟨r, hr, hn.trans h⟩
            · exact .inr h
        · have split : names (acc ++ [x]) name ↔ names acc name ∨ x.name = name := by
            simp [names, or_and_right, exists_or]
          rw [split, or_assoc]
    · next hover =>
      refine ⟨[], x :: sorted, rfl, .inl ?_, ?_, fun r hr => .inl hr, fun name => ?_⟩
      · simpa [sizeOf] using hover
      · intro a r b h
        cases a <;> cases h
      · simp [names]

theorem capLoop_nodup {acc : List Row} (h : (acc.map Row.name).Nodup) (sorted : List Row)
    (overBy : Int) : ((capLoop overBy sorted acc).map Row.name).Nodup := by
  induction sorted generalizing overBy acc with
  | nil => exact h
  | cons x sorted ih =>
    unfold capLoop
    split
    · apply ih
      split
      · exact h
      · next absent =>
        rw [List.map_append, List.map_singleton, List.nodup_append]
        refine ⟨h, List.nodup_singleton _, ?_⟩
        intro n hn m hm heq
        obtain ⟨r, hr, rfl⟩ := List.mem_map.mp hn
        rw [List.mem_singleton] at hm
        exact absent (List.any_eq_true.mpr ⟨r, hr, by simpa using heq.trans hm⟩)
    · exact h

variable {rows : List Row}

theorem collect_rows {α : Type} (rows : List Row) (blobs : String → Option α) (removed : List Row) (c : Collected) :
    (collect rows blobs removed c).1 = rows.filter fun r => ¬ removed.any (·.name = r.name) := by
  induction removed generalizing rows blobs c with
  | nil => simp [collect]
  | cons r removed ih =>
    have both : (rows.filter (·.name ≠ r.name)).filter (fun k => ¬ removed.any (·.name = k.name)) =
        rows.filter fun k => ¬ (r :: removed).any (·.name = k.name) := by
      rw [List.filter_filter]
      apply List.filter_congr
      intro k _
      by_cases h : r.name = k.name
      · simp [h]
      · have other : ¬ k.name = r.name := fun e => h e.symm
        simp [h, other]
    unfold collect
    dsimp only
    split
    · rw [ih, both]
    · split
      · rw [ih, both]
      · rw [ih, both]

theorem mem_collect {α : Type} {rows removed : List Row} {blobs : String → Option α} {c : Collected} {k : Row} :
    k ∈ (collect rows blobs removed c).1 ↔ k ∈ rows ∧ ¬ names removed k.name := by
  rw [collect_rows, List.mem_filter]
  simp [names]

/-- What the first candidate does: its blob is gone if no row that is left has it. -/
theorem collect_cons {α : Type} (rows : List Row) (blobs : String → Option α) (r : Row) (removed : List Row)
    (c : Collected) : ∃ blobs' c', collect rows blobs (r :: removed) c =
      collect (rows.filter (·.name ≠ r.name)) blobs' removed c' ∧
      (∀ d, d ≠ r.digestHex ∨ (∃ k ∈ rows.filter (·.name ≠ r.name), k.digestHex = r.digestHex) → blobs' d = blobs d) ∧
      ((∀ k ∈ rows.filter (·.name ≠ r.name), k.digestHex ≠ r.digestHex) → blobs' r.digestHex = none) := by
  rw [collect]
  split
  · next there =>
    obtain ⟨k, hk, hd⟩ := List.any_eq_true.mp there
    exact ⟨blobs, _, rfl, fun _ _ => rfl, fun none => absurd (of_decide_eq_true hd) (none k hk)⟩
  · next absent =>
    have unused : ¬ ∃ k ∈ rows.filter (·.name ≠ r.name), k.digestHex = r.digestHex := by
      rintro ⟨k, hk, hd⟩
      exact absent (List.any_eq_true.mpr ⟨k, hk, decide_eq_true hd⟩)
    split
    · refine ⟨_, _, rfl, fun d hd => Function.update_of_ne (hd.resolve_right unused) .., fun _ => ?_⟩
      exact Function.update_self ..
    · next gone => exact ⟨blobs, _, rfl, fun _ _ => rfl, fun _ => by simpa using gone⟩

/-- A blob goes exactly if a deleted row had it and no row that is left has it. -/
theorem collect_blobs {α : Type} (tidy : Tidy rows) (blobs : String → Option α) {removed : List Row}
    (hsub : ∀ r ∈ removed, r ∈ rows) (hnd : (removed.map Row.name).Nodup) (c : Collected) (d : String) :
    ((∃ r ∈ removed, r.digestHex = d) → (∀ k ∈ (collect rows blobs removed c).1, k.digestHex ≠ d) →
      (collect rows blobs removed c).2.1 d = none) ∧
    ((∀ r ∈ removed, r.digestHex ≠ d) ∨ (∃ k ∈ (collect rows blobs removed c).1, k.digestHex = d) →
      (collect rows blobs removed c).2.1 d = blobs d) := by
  induction removed generalizing rows blobs c with
  | nil =>
    refine ⟨?_, fun _ => rfl⟩
    rintro ⟨r, hr, -⟩
    exact absurd hr List.not_mem_nil
  | cons r removed ih =>
    rw [List.map_cons, List.nodup_cons] at hnd
    obtain ⟨fresh, hnd⟩ := hnd
    have sub : ∀ q ∈ removed, q ∈ rows.filter (·.name ≠ r.name) := by
      intro q hq
      refine List.mem_filter.mpr ⟨hsub q (List.mem_cons_of_mem _ hq), ?_⟩
      simp only [decide_eq_true_eq]
      exact fun hn => fresh (hn ▸ List.mem_map_of_mem hq)
    have tidy' : Tidy (rows.filter (·.name ≠ r.name)) := tidy.filter _
    obtain ⟨blobs', c', parts, same, here⟩ := collect_cons rows blobs r removed c
    obtain ⟨gone, stays⟩ := ih tidy' blobs' sub hnd c'
    rw [parts]
    constructor
    · rintro ⟨q, hq, hd⟩ left
      by_cases later : ∃ q ∈ removed, q.digestHex = d
      · exact gone later left
      · have never : ∀ q ∈ removed, q.digestHex ≠ d := fun q hq h => later ⟨q, hq, h⟩
        obtain rfl : q = r := by
          rcases List.mem_cons.mp hq with h | h
          · exact h
          · exact absurd hd (never q h)
        rw [stays (.inl never), ← hd]
        apply here
        intro k hk hkd
        apply left k (mem_collect.mpr ⟨hk, ?_⟩) (hkd.trans hd)
        rintro ⟨q', hq', hname⟩
        have same := tidy'.eq_of_name (sub q' hq') hk hname
        exact never q' hq' (same ▸ hkd.trans hd)
    · rintro (never | ⟨k, hk, hkd⟩)
      · rw [stays (.inl fun q hq => never q (List.mem_cons_of_mem _ hq))]
        exact same d (.inl fun h => never r List.mem_cons_self h.symm)
      · rw [stays (.inr ⟨k, hk, hkd⟩)]
        apply same
        by_cases hd : d = r.digestHex
        · exact .inr ⟨k, (mem_collect.mp hk).1, hkd.trans hd⟩
        · exact .inl hd

/-- The candidates: the rows that are too old, and the oldest rows while the rest is over the cap. -/
structure Candidates (rows sorted : List Row) (cutoff cap : Option Int) (removed pre post : List Row) :
    Prop where
  split : sorted = pre ++ post
  fits : ∀ c, cap = some c → sizeOf post ≤ max c 0
  overBy : ∀ a r b, pre = a ++ r :: b → ∃ c, cap = some c ∧ c < sizeOf (r :: b ++ post)
  mem : ∀ r ∈ removed, r ∈ aged rows cutoff ∨ r ∈ pre
  named : ∀ name, names removed name ↔ names (aged rows cutoff) name ∨ names pre name
  nodup : (removed.map Row.name).Nodup

theorem aged_nodup (tidy : Tidy rows) (cutoff : Option Int) :
    ((aged rows cutoff).map Row.name).Nodup := by
  unfold aged
  split
  · exact (tidy.filter _).nodup
  · exact List.nodup_nil

theorem toRemove_candidates (O : OrderBy) (tidy : Tidy rows) (cutoff maxBytes : Option Int)
    (hsum : sizeOf rows < 2 ^ 63)
    (hover : ∀ cap, maxBytes = some cap → -2 ^ 63 ≤ sizeOf rows - cap ∧ sizeOf rows - cap < 2 ^ 63) :
    ∃ pre post, Candidates rows (O.sort rows) cutoff maxBytes (toRemove O rows cutoff maxBytes) pre post := by
  cases maxBytes with
  | none =>
    refine ⟨[], O.sort rows, rfl, nofun, ?_, fun r hr => .inl hr, ?_, aged_nodup tidy _⟩
    · intro a r b h
      cases a <;> cases h
    · intro name
      simp [names, toRemove]
  | some cap =>
    obtain ⟨hl, hu⟩ := hover cap rfl
    have size := sizeOf_perm (O.perm rows)
    have exact_over : wrapping (Artifact.total rows - cap) = sizeOf rows - cap := by
      rw [total_eq tidy.bytes hsum, wrapping_eq hl hu]
    obtain ⟨pre, post, split, fits, overBy, mem, named⟩ := capLoop_spec (O.sort rows) (aged rows cutoff)
      (sizeOf rows - cap) (fun r hr => tidy.bytes r ((O.perm rows).subset hr)) (by omega) hu
    have total : sizeOf rows = sizeOf pre + sizeOf post := by
      rw [← sizeOf_append, ← split, size]
    unfold toRemove capped
    dsimp only
    rw [exact_over]
    refine ⟨pre, post, split, ?_, ?_, mem, named, capLoop_nodup (aged_nodup tidy _) _ _⟩
    · rintro c ⟨⟩
      rcases fits with fits | rfl
      · omega
      · exact Int.le_max_right cap 0
    · intro a r b h
      have before := overBy a r b h
      have parts : sizeOf pre = sizeOf a + sizeOf (r :: b) := by rw [h, sizeOf_append]
      refine ⟨cap, rfl, ?_⟩
      rw [sizeOf_append]
      omega

/-- What a collection does to the store. -/
structure Collects (s s' : Store) (cutoff cap : Option Int) : Prop where
  /-- The rows that are left are as they were. -/
  kept : s'.rows.Sublist s.rows
  young : ∀ k ∈ s'.rows, ∀ cut, cutoff = some cut → cut ≤ k.touched
  fits : ∀ c, cap = some c → sizeOf s'.rows ≤ max c 0
  /-- No row goes before an older one. -/
  oldest : ∀ r ∈ s.rows, r ∉ s'.rows → ∀ k ∈ s'.rows, r.touched ≤ k.touched
  /-- A row that goes is too old, or it and the younger ones are over the cap. -/
  needed : ∀ r ∈ s.rows, r ∉ s'.rows → (∃ cut, cutoff = some cut ∧ r.touched < cut) ∨
    ∃ c, cap = some c ∧ c < sizeOf (s.rows.filter fun k => r.touched ≤ k.touched)
  /-- The blobs that go are those of deleted rows that no row refers to. -/
  gone : ∀ d, (∃ r ∈ s.rows, r ∉ s'.rows ∧ r.digestHex = d) → (∀ k ∈ s'.rows, k.digestHex ≠ d) →
    s'.blobs d = none
  stay : ∀ d, (∀ r ∈ s.rows, r ∉ s'.rows → r.digestHex ≠ d) ∨ (∃ k ∈ s'.rows, k.digestHex = d) →
    s'.blobs d = s.blobs d

section

variable {sorted removed pre post : List Row} {cutoff cap : Option Int}

theorem mem_aged {r : Row} : r ∈ aged rows cutoff ↔ r ∈ rows ∧ ∃ cut, cutoff = some cut ∧ r.touched < cut := by
  unfold aged
  cases cutoff with
  | none => simp
  | some cut => simp

/-- A row that goes is itself too old or one of the part in front. -/
theorem Candidates.goes (cand : Candidates rows sorted cutoff cap removed pre post) (tidy : Tidy rows)
    (perm : sorted.Perm rows) {r : Row} (hr : r ∈ rows) (hn : names removed r.name) :
    r ∈ removed ∧ (r ∈ aged rows cutoff ∨ r ∈ pre) := by
  obtain ⟨q, hq, hname⟩ := hn
  have inside : q ∈ rows := by
    rcases cand.mem q hq with h | h
    · exact (mem_aged.mp h).1
    · apply perm.subset
      rw [cand.split]
      exact List.mem_append_left post h
  obtain rfl := tidy.eq_of_name inside hr hname
  exact ⟨hq, cand.mem q hq⟩

theorem Candidates.stays (cand : Candidates rows sorted cutoff cap removed pre post)
    (perm : sorted.Perm rows) {k : Row} (hk : k ∈ rows) (hn : ¬ names removed k.name) :
    k ∉ aged rows cutoff ∧ k ∈ post := by
  rw [cand.named] at hn
  have notAged : k ∉ aged rows cutoff := fun h => hn (.inl ⟨k, h, rfl⟩)
  have notPre : k ∉ pre := fun h => hn (.inr ⟨k, h, rfl⟩)
  have mem : k ∈ sorted := perm.symm.subset hk
  rw [cand.split] at mem
  exact ⟨notAged, (List.mem_append.mp mem).resolve_left notPre⟩

/-- The younger rows than one in front are over the cap together with it. -/
theorem Candidates.needed (cand : Candidates rows sorted cutoff cap removed pre post)
    (tidy : Tidy rows) (perm : sorted.Perm rows)
    (ordered : sorted.Pairwise fun a b => a.touched ≤ b.touched) {r : Row} (hr : r ∈ pre) :
    ∃ c, cap = some c ∧ c < sizeOf (rows.filter fun k => r.touched ≤ k.touched) := by
  obtain ⟨a, b, hpre⟩ := List.append_of_mem hr
  obtain ⟨c, hc, hlt⟩ := cand.overBy a r b hpre
  refine ⟨c, hc, Int.lt_of_lt_of_le hlt ?_⟩
  have split : sorted = a ++ (r :: b ++ post) := by
    rw [cand.split, hpre, List.append_assoc]
  rw [split] at perm ordered
  have younger : (r :: b ++ post).filter (fun k => r.touched ≤ k.touched) = r :: b ++ post := by
    rw [List.filter_eq_self]
    intro k hk
    have after := (List.pairwise_append.mp ordered).2.1
    rcases List.mem_cons.mp hk with rfl | hk
    · exact decide_eq_true (Int.le_refl _)
    · exact decide_eq_true (List.rel_of_pairwise_cons after hk)
  have same := sizeOf_perm (perm.filter fun k => r.touched ≤ k.touched)
  rw [List.filter_append, sizeOf_append, younger] at same
  have front : 0 ≤ sizeOf (a.filter fun k => r.touched ≤ k.touched) := by
    apply sizeOf_nonneg
    intro k hk
    exact tidy.bytes k (perm.subset (List.mem_append_left _ (List.mem_filter.mp hk).1))
  omega

theorem Candidates.collects (cand : Candidates rows sorted cutoff cap removed pre post)
    (tidy : Tidy rows) (perm : sorted.Perm rows)
    (ordered : sorted.Pairwise fun a b => a.touched ≤ b.touched) {s s' : Store} (hs : s.rows = rows)
    {c : Collected}
    (hrows : s'.rows = (collect rows s.blobs removed c).1)
    (hblobs : s'.blobs = (collect rows s.blobs removed c).2.1) : Collects s s' cutoff cap := by
  have left : ∀ {k}, k ∈ s'.rows ↔ k ∈ rows ∧ ¬ names removed k.name := by
    intro k
    rw [hrows]
    exact mem_collect
  have went : ∀ {r}, r ∈ s.rows → r ∉ s'.rows → r ∈ removed ∧ (r ∈ aged rows cutoff ∨ r ∈ pre) := by
    intro r hr hn
    rw [hs] at hr
    apply cand.goes tidy perm hr
    by_contra h
    exact hn (left.mpr ⟨hr, h⟩)
  have goes : ∀ {r}, r ∈ removed → r ∈ s.rows ∧ r ∉ s'.rows := by
    intro r hr
    have inside : r ∈ rows := by
      rcases cand.mem r hr with h | h
      · exact (mem_aged.mp h).1
      · apply perm.subset
        rw [cand.split]
        exact List.mem_append_left post h
    exact ⟨hs ▸ inside, fun h => (left.mp h).2 ⟨r, hr, rfl⟩⟩
  have blobs := collect_blobs tidy s.blobs (fun r hr => hs ▸ (goes hr).1) cand.nodup c
  refine ⟨?_, ?_, ?_, ?_, ?_, ?_, ?_⟩
  · rw [hrows, hs, collect_rows]
    exact List.filter_sublist
  · intro k hk cut hcut
    obtain ⟨hk, hn⟩ := left.mp hk
    by_contra hlt
    exact (cand.stays perm hk hn).1 (mem_aged.mpr ⟨hk, cut, hcut, by omega⟩)
  · intro c hc
    have nodup : s'.rows.Nodup := by
      rw [hrows, collect_rows]
      exact (List.Nodup.of_map _ tidy.nodup).filter _
    have sub : s'.rows.Subperm post :=
      List.subperm_of_subset nodup fun k hk => (cand.stays perm (left.mp hk).1 (left.mp hk).2).2
    refine Int.le_trans (sizeOf_subperm sub fun k hk => ?_) (cand.fits c hc)
    apply tidy.bytes k (perm.subset _)
    rw [cand.split]
    exact List.mem_append_right pre hk
  · intro r hr hn k hk
    obtain ⟨hk, hnk⟩ := left.mp hk
    obtain ⟨young, hpost⟩ := cand.stays perm hk hnk
    rcases (went hr hn).2 with h | h
    · obtain ⟨-, cut, hcut, hlt⟩ := mem_aged.mp h
      by_contra hle
      exact young (mem_aged.mpr ⟨hk, cut, hcut, by omega⟩)
    · rw [cand.split] at ordered
      exact (List.pairwise_append.mp ordered).2.2 r h k hpost
  · intro r hr hn
    rcases (went hr hn).2 with h | h
    · exact .inl (mem_aged.mp h).2
    · exact .inr (hs ▸ cand.needed tidy perm ordered h)
  · rintro d ⟨r, hr, hn, hd⟩ hk
    rw [hblobs]
    apply (blobs d).1 ⟨r, (went hr hn).1, hd⟩
    rw [← hrows]
    exact hk
  · intro d h
    rw [hblobs]
    apply (blobs d).2
    rcases h with h | h
    · exact .inl fun r hr => h r (goes hr).1 (goes hr).2
    · exact .inr (hrows ▸ h)

end

/-- The numbers of a collection fit an `i64`. -/
structure InRange (rows : List Row) (maxAgeSecs maxBytes : Option Int) (now : Int) : Prop where
  age : ∀ secs, maxAgeSecs = some secs →
    -2 ^ 63 ≤ now - saturatingMul secs 1000000000 ∧ now - saturatingMul secs 1000000000 < 2 ^ 63
  sum : sizeOf rows < 2 ^ 63
  excess : ∀ cap, maxBytes = some cap → -2 ^ 63 ≤ sizeOf rows - cap ∧ sizeOf rows - cap < 2 ^ 63

section Alone

variable (C : Crates) (O : OrderBy) (s : Store) (k : Nat) (now : Int) (chunk : Nat)

theorem turn_turn (op op' : Op) : (s.turn k op).turn k op' = s.turn k op' := by
  unfold Store.turn
  rw [Function.update_idem]

theorem advance_turn (op : Op) : (s.turn k op).ops k = op := Function.update_self ..

/-- The next step of a client, whatever it did before. -/
theorem step_turn (op : Op) {op' : Op} {t : Store} (h : t.turn k op' = advance C O (s.turn k op) k now chunk) (n : Nat) :
    run (step C O) (s.turn k op) (List.replicate (n + 1) (.step k now chunk)) =
      run (step C O) (t.turn k op') (List.replicate n (.step k now chunk)) := by
  rw [List.replicate_succ, run_cons, h]
  rfl

/-- The steps of the loop over the candidates, when no other client takes one. -/
theorem collect_steps (todo : List Row) (c : Collected) :
    ∃ n, run (step C O) (s.turn k (.delete todo c)) (List.replicate n (.step k now chunk)) =
      { s with
        rows := (collect s.rows s.blobs todo c).1
        blobs := (collect s.rows s.blobs todo c).2.1 }.turn k
          (.done (.ok (.gc (collect s.rows s.blobs todo c).2.2))) := by
  induction todo generalizing s c with
  | nil =>
    refine ⟨0 + 1, ?_⟩
    rw [@step_turn C O s k now chunk _ (.done (.ok (.gc c))) s]
    · rfl
    · unfold advance
      rw [advance_turn]
      exact (turn_turn s k _ _).symm
  | cons r todo ih =>
    have deleted := @step_turn C O s k now chunk (.delete (r :: todo) c) (.count r todo c)
      { s with rows := s.rows.filter (·.name ≠ r.name) } (by
        unfold advance
        rw [advance_turn]
        exact (turn_turn { s with rows := s.rows.filter (·.name ≠ r.name) } k _ _).symm)
    rw [collect]
    generalize s.rows.filter (·.name ≠ r.name) = rows at deleted ⊢
    have counted (op : Op) (hop : op = if rows.any (·.digestHex = r.digestHex) then .delete todo c.one
        else .look r todo c) := @step_turn C O { s with rows } k now chunk (.count r todo c) op { s with rows } (by
        unfold advance
        rw [advance_turn, hop]
        exact (turn_turn { s with rows } k _ _).symm)
    split
    · next there =>
      obtain ⟨n, hn⟩ := ih { s with rows } c.one
      exact ⟨n + 1 + 1, by rw [deleted, counted _ (if_pos there).symm, hn]⟩
    · next absent =>
      have looked (op : Op) (hop : op = if (s.blobs r.digestHex).isSome then .remove r todo c
          else .delete todo c.one) := @step_turn C O { s with rows } k now chunk (.look r todo c) op { s with rows } (by
          unfold advance
          rw [advance_turn, hop]
          exact (turn_turn { s with rows } k _ _).symm)
      split
      · next there =>
        obtain ⟨n, hn⟩ := ih { s with rows, blobs := Function.update s.blobs r.digestHex none } (c.freed r.bytes)
        have removed := @step_turn C O { s with rows } k now chunk (.remove r todo c) (.delete todo (c.freed r.bytes))
          { s with rows, blobs := Function.update s.blobs r.digestHex none } (by
            unfold advance
            rw [advance_turn]
            exact (turn_turn { s with rows, blobs := Function.update s.blobs r.digestHex none } k _ _).symm)
        refine ⟨n + 1 + 1 + 1 + 1, ?_⟩
        rw [deleted, counted _ (if_neg absent).symm, looked _ (if_pos there).symm, removed, hn]
      · next gone =>
        obtain ⟨n, hn⟩ := ih { s with rows } c.one
        refine ⟨n + 1 + 1 + 1, ?_⟩
        rw [deleted, counted _ (if_neg absent).symm, looked _ (if_neg gone).symm, hn]

/-- A collection whose steps no other client's come between is the plain one. -/
theorem gc_steps (args : Value) (free : (s.ops k).underWay = false) :
    ∃ n, run (step C O) s (.request k (.gc args) now :: List.replicate n (.step k now chunk)) =
      (opArtifactGc O s args now).1.turn k (.done (.ok (.gc (opArtifactGc O s args now).2))) := by
  have asked : step C O s (.request k (.gc args) now) =
      s.turn k (.scan (cutoffOf ((args.get "max_age_secs").bind Value.asI64) now)
        ((args.get "max_bytes").bind Value.asI64)) := by
    unfold step
    dsimp only
    rw [free]
    rfl
  unfold opArtifactGc
  dsimp only
  simp only [run_cons, asked]
  generalize cutoffOf ((args.get "max_age_secs").bind Value.asI64) now = cutoff
  generalize (args.get "max_bytes").bind Value.asI64 = maxBytes
  obtain ⟨n, hn⟩ := collect_steps C O s k now chunk (toRemove O s.rows cutoff maxBytes) ⟨0, 0⟩
  have next (op op' : Op) (h : s.turn k op' = advance C O (s.turn k op) k now chunk) :=
    @step_turn C O s k now chunk op op' s h
  cases maxBytes with
  | none =>
    refine ⟨n + 1, ?_⟩
    rw [next (.scan cutoff none) (.delete (aged s.rows cutoff) ⟨0, 0⟩)]
    · exact hn
    · unfold advance
      rw [advance_turn]
      exact (turn_turn s k _ _).symm
  | some cap =>
    refine ⟨n + 1 + 1, ?_⟩
    rw [next (.scan cutoff (some cap)) (.scanCap cap (aged s.rows cutoff)),
      next (.scanCap cap (aged s.rows cutoff)) (.delete (capped O s.rows cap (aged s.rows cutoff)) ⟨0, 0⟩)]
    · exact hn
    · unfold advance
      rw [advance_turn]
      exact (turn_turn s k _ _).symm
    · unfold advance
      rw [advance_turn]
      exact (turn_turn s k _ _).symm

end Alone

def libRow : Row :=
  ⟨"lib.o", "6b86b273ff34fce19d6b804eff5a3f5747ada4eaa22f1d49c01e52ddb7875b4b", 1, 1, 1, none⟩

end Collection

end Zshrs.Daemon.Artifact
