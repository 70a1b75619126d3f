import Zshrs.Daemon.Artifact
import Mathlib.Data.List.Nodup
import Mathlib.Data.List.Sort

namespace Zshrs.Daemon.Artifact

open Json Lib.Runs

section Rows

variable {rows : List Row}

def digestOf (rows : List Row) (name : String) : Option String :=
  (rows.find? (·.name = name)).map Row.digestHex

theorem find?_map_name {f : Row → Row} (hf : ∀ r, (f r).name = r.name) (name : String) :
    (rows.map f).find? (·.name = name) = (rows.find? (·.name = name)).map f := by
  rw [List.find?_map]
  congr 2
  funext r
  simp [hf]

theorem digestOf_touch (name : String) (now : Int) (other : String) :
    digestOf (touch rows name now) other = digestOf rows other := by
  have named : ∀ r : Row, (if r.name = name then { r with lastGetAt := some now } else r).name =
      r.name := by
    intro r
    split
    · rfl
    · rfl
  unfold digestOf touch
  rw [find?_map_name named]
  cases rows.find? (·.name = other) with
  | none => rfl
  | some r =>
    simp only [Option.map_some]
    split
    · rfl
    · rfl

theorem digestOf_insertRow (name digest : String) (bytes now : Int) (other : String) :
    digestOf (insertRow rows name digest bytes now) other =
      if other = name then some digest else digestOf rows other := by
  unfold insertRow
  split
  · next there =>
    obtain ⟨r, hr, hname⟩ : ∃ r ∈ rows, r.name = name := by simpa using there
    have named : ∀ r : Row, (if r.name = name then
        { r with digestHex := digest, bytes := bytes, updatedAt := now } else r).name = r.name := by
      intro r
      split
      · rfl
      · rfl
    unfold digestOf
    rw [find?_map_name named]
    cases hf : rows.find? (·.name = other) with
    | none =>
      have absent := List.find?_eq_none.mp hf
      have hne : other ≠ name := by
        rintro rfl
        exact absent r hr (by simpa using hname)
      simp [hne]
    | some r' =>
      have hname' : r'.name = other := by simpa using List.find?_some hf
      by_cases heq : other = name
      · simp [heq, hname']
      · simp [heq, hname']
  · next absent =>
    unfold digestOf
    rw [List.find?_append]
    by_cases heq : other = name
    · subst heq
      have missing : rows.find? (·.name = other) = none := by
        apply List.find?_eq_none.mpr
        intro r hr
        simpa using fun h => absent (List.any_eq_true.mpr ⟨r, hr, by simpa using h⟩)
      rw [missing]
      simp
    · have miss : ¬ name = other := fun h => heq h.symm
      simp [heq, miss]

theorem digestOf_filter (name other : String) :
    digestOf (rows.filter (·.name ≠ name)) other = if other = name then none else digestOf rows other := by
  unfold digestOf
  rw [List.find?_filter]
  by_cases heq : other = name
  · subst heq
    rw [if_pos rfl, Option.map_eq_none_iff]
    apply List.find?_eq_none.mpr
    intro r _
    simp
  · rw [if_neg heq]
    congr 2
    funext r
    by_cases hr : r.name = other
    · simp [hr, heq]
    · simp [hr]

theorem mem_insertRow {name digest : String} {bytes now : Int} {r : Row}
    (h : r ∈ insertRow rows name digest bytes now) :
    r.digestHex = digest ∨ ∃ r' ∈ rows, r'.digestHex = r.digestHex := by
  unfold insertRow at h
  split at h
  · obtain ⟨r', hr', rfl⟩ := List.mem_map.mp h
    split
    · exact .inl rfl
    · exact .inr ⟨r', hr', rfl⟩
  · rcases List.mem_append.mp h with h | h
    · exact .inr ⟨r, h, rfl⟩
    · rw [List.mem_singleton] at h
      subst h
      exact .inl rfl

end Rows

section Runs

variable {C : Crates} {O : OrderBy}

@[simp] theorem turn_ops (s : Store) (k : Nat) (op : Op) : (s.turn k op).ops = Function.update s.ops k op := rfl

/-- What an operation under way relies on. -/
def Op.Sound (C : Crates) (s : Store) : Op → Prop
  | .write p file sent =>
      s.temps (p.digest C) = some file ∧ s.files file = p.value.take sent ∧ sent ≤ p.value.length
  | .rename p => ∃ file, s.temps (p.digest C) = some file ∧ s.files file = p.value
  | .insert p => s.blobs (p.digest C) ≠ none
  | .look r _ _ => ∀ q ∈ s.rows, q.digestHex ≠ r.digestHex
  | .remove r _ _ => ∀ q ∈ s.rows, q.digestHex ≠ r.digestHex
  | _ => True

/-- The files: a blob hashes to its name, and nothing that is still written is a blob. -/
structure Filed (C : Crates) (values : List Bytes) (s : Store) : Prop where
  blobs : ∀ d f, s.blobs d = some f → f < s.fresh ∧ C.sha256Hex (s.files f) = d ∧ s.files f ∈ values
  temps : ∀ d f, s.temps d = some f → f < s.fresh ∧ (∀ d', s.blobs d' ≠ some f) ∧
    ∀ d', s.temps d' = some f → d' = d

/-- The operations under way: each digest is put by one of them at most, and by none while one removes
its blob. -/
structure Ordered (C : Crates) (values : List Bytes) (s : Store) : Prop where
  sound : ∀ k, (s.ops k).Sound C s
  values : ∀ k p, (s.ops k).putting = some p → p.value ∈ values
  alone : ∀ j k p q, (s.ops j).putting = some p → (s.ops k).putting = some q →
    p.digest C = q.digest C → j = k
  apart : ∀ j k p, (s.ops j).putting = some p → (s.ops k).removing ≠ some (p.digest C)

/-- A store that stands for a map: each row's blob is there, and hashes to the row's digest. -/
structure Stands (C : Crates) (values : List Bytes) (m : Held) (s : Store) : Prop where
  filed : Filed C values s
  ordered : Ordered C values s
  rows : ∀ r ∈ s.rows, s.blobs r.digestHex ≠ none
  digests : ∀ name, digestOf s.rows name = (m name).map C.sha256Hex
  held : ∀ name v, m name = some v → v ∈ values

variable {values : List Bytes} {m : Held} {s t : Store} {k : Nat} {op : Op}

theorem stands_init : Stands C values (fun _ => none) init where
  filed := ⟨nofun, nofun⟩
  ordered := ⟨fun _ => trivial, nofun, nofun, nofun⟩
  rows := fun _ h => absurd h List.not_mem_nil
  digests := fun _ => rfl
  held := nofun

/-- What client `k` may do next: put what no other puts or removes, or remove what no other puts. -/
structure Fits (C : Crates) (values : List Bytes) (s : Store) (k : Nat) (op : Op) : Prop where
  put : ∀ p, op.putting = some p → p.value ∈ values ∧ ∀ j, j ≠ k →
    (∀ q, (s.ops j).putting = some q → q.digest C ≠ p.digest C) ∧ (s.ops j).removing ≠ some (p.digest C)
  remove : ∀ d, op.removing = some d → op.putting = none ∧
    ∀ j, j ≠ k → ∀ q, (s.ops j).putting = some q → q.digest C ≠ d

theorem Ordered.fits (h : Ordered C values s) (hp : op.putting = none ∨ op.putting = (s.ops k).putting)
    (hr : op.removing = none ∨ op.removing = (s.ops k).removing ∧ op.putting = none) :
    Fits C values s k op where
  put p hput := by
    rcases hp with hp | hp
    · rw [hp] at hput
      cases hput
    · rw [hp] at hput
      refine ⟨h.values k p hput, fun j hj => ⟨fun q hq he => hj (h.alone j k q p hq hput he), h.apart k j p hput⟩⟩
  remove d hrem := by
    rcases hr with hr | ⟨hr, hnone⟩
    · rw [hr] at hrem
      cases hrem
    · rw [hr] at hrem
      exact ⟨hnone, fun j _ q hq he => h.apart j k q hq (he ▸ hrem)⟩

/-- A step of one client: the others keep what they rely on. -/
theorem Ordered.step (h : Ordered C values s) (fits : Fits C values s k op)
    (ht : t.ops = Function.update s.ops k op) (here : op.Sound C t)
    (others : ∀ j, j ≠ k → (s.ops j).Sound C s → (s.ops j).Sound C t) : Ordered C values t := by
  have at_k : t.ops k = op := by rw [ht, Function.update_self]
  have at_j {j : Nat} (hj : j ≠ k) : t.ops j = s.ops j := by rw [ht, Function.update_of_ne hj]
  refine ⟨fun j => ?_, fun j p hp => ?_, fun i j p q hp hq he => ?_, fun i j p hp => ?_⟩
  · by_cases hj : j = k
    · rw [hj, at_k]
      exact here
    · rw [at_j hj]
      exact others j hj (h.sound j)
  · by_cases hj : j = k
    · rw [hj, at_k] at hp
      exact (fits.put p hp).1
    · rw [at_j hj] at hp
      exact h.values j p hp
  · by_cases hi : i = k
    · by_cases hj : j = k
      · exact hi.trans hj.symm
      · rw [hi, at_k] at hp
        rw [at_j hj] at hq
        exact absurd he.symm (((fits.put p hp).2 j hj).1 q hq)
    · rw [at_j hi] at hp
      by_cases hj : j = k
      · rw [hj, at_k] at hq
        exact absurd he (((fits.put q hq).2 i hi).1 p hp)
      · rw [at_j hj] at hq
        exact h.alone i j p q hp hq he
  · by_cases hi : i = k
    · rw [hi, at_k] at hp
      by_cases hj : j = k
      · rw [hj, at_k]
        intro hr
        rw [(fits.remove _ hr).1] at hp
        cases hp
      · rw [at_j hj]
        exact ((fits.put p hp).2 j hj).2
    · rw [at_j hi] at hp
      by_cases hj : j = k
      · rw [hj, at_k]
        exact fun hr => (fits.remove _ hr).2 i hi p hp rfl
      · rw [at_j hj]
        exact h.apart i j p hp

/-- A step that changes neither files nor rows. -/
theorem Stands.turn (h : Stands C values m s) (fits : Fits C values s k op) (here : op.Sound C s) :
    Stands C values m (s.turn k op) where
  filed := ⟨h.filed.blobs, h.filed.temps⟩
  ordered := h.ordered.step fits rfl here fun _ _ hj => hj
  rows := h.rows
  digests := h.digests
  held := h.held

/-- Files that a client touches only under the digest of its own put. -/
theorem Op.Sound.frame {d : String} (h : op.Sound C s) (ht : t.rows = s.rows)
    (hd : ∀ p, op.putting = some p → p.digest C ≠ d)
    (htemps : ∀ d', d' ≠ d → t.temps d' = s.temps d')
    (hfiles : ∀ d' f, d' ≠ d → s.temps d' = some f → t.files f = s.files f)
    (hblobs : ∀ d', d' ≠ d → t.blobs d' = s.blobs d') : op.Sound C t := by
  cases op with
  | write p file sent =>
    have hne := hd p rfl
    exact ⟨(htemps _ hne).trans h.1, (hfiles _ _ hne h.1).trans h.2.1, h.2.2⟩
  | rename p =>
    have hne := hd p rfl
    obtain ⟨file, htmp, hfile⟩ := h
    exact ⟨file, (htemps _ hne).trans htmp, (hfiles _ _ hne htmp).trans hfile⟩
  | insert p =>
    show t.blobs _ ≠ none
    rw [hblobs _ (hd p rfl)]
    exact h
  | look r todo collected =>
    show ∀ q ∈ t.rows, _
    rw [ht]
    exact h
  | remove r todo collected =>
    show ∀ q ∈ t.rows, _
    rw [ht]
    exact h
  | _ => trivial

theorem Op.Sound.rows (h : op.Sound C s) (hfiles : t.files = s.files) (htemps : t.temps = s.temps)
    (hblobs : t.blobs = s.blobs)
    (hrows : ∀ d, op.removing = some d → (∀ q ∈ s.rows, q.digestHex ≠ d) → ∀ q ∈ t.rows, q.digestHex ≠ d) :
    op.Sound C t := by
  cases op with
  | write p file sent =>
    show t.temps _ = _ ∧ t.files file = _ ∧ _
    rw [htemps, hfiles]
    exact h
  | rename p =>
    show ∃ file, t.temps _ = _ ∧ t.files file = _
    rw [htemps, hfiles]
    exact h
  | insert p =>
    show t.blobs _ ≠ none
    rw [hblobs]
    exact h
  | look r todo collected => exact hrows _ rfl h
  | remove r todo collected => exact hrows _ rfl h
  | _ => trivial

section Files

variable {p : Put}

/-- What the others put has another digest. -/
theorem Ordered.others (h : Ordered C values s) (hk : (s.ops k).putting = some p) {j : Nat} (hj : j ≠ k)
    (q : Put) (hq : (s.ops j).putting = some q) : q.digest C ≠ p.digest C :=
  fun he => hj (h.alone j k q p hq hk he)

theorem stands_create (h : Stands C values m s) (hk : s.ops k = .create p) :
    Stands C values m (createTmp C s k p) := by
  have hput : (s.ops k).putting = some p := by rw [hk]; rfl
  have fits (file : Nat) : Fits C values s k (.write p file 0) := h.ordered.fits (.inr hput.symm) (.inl rfl)
  unfold createTmp
  split
  · next file htmp =>
    have kept {d : String} {f : Nat} (hf : s.blobs d = some f) : Function.update s.files file [] f = s.files f :=
      Function.update_of_ne (fun e : f = file => (h.filed.temps _ _ htmp).2.1 d (e ▸ hf)) ..
    refine ⟨⟨fun d f hf => ?_, h.filed.temps⟩, ?_, h.rows, h.digests, h.held⟩
    · show f < s.fresh ∧ C.sha256Hex (Function.update s.files file [] f) = d ∧ Function.update s.files file [] f ∈ values
      rw [kept hf]
      exact h.filed.blobs d f hf
    · refine h.ordered.step (fits file) rfl ⟨htmp, Function.update_self .., Nat.zero_le _⟩ fun j hj sound => ?_
      refine sound.frame rfl (h.ordered.others hput hj) (fun _ _ => rfl) ?_ (fun _ _ => rfl)
      intro d f hd hf
      exact Function.update_of_ne (fun e : f = file => hd ((h.filed.temps _ _ htmp).2.2 d (e ▸ hf))) ..
  · next htmp =>
    have old {f : Nat} (hf : f < s.fresh) : Function.update s.files s.fresh [] f = s.files f :=
      Function.update_of_ne (Nat.ne_of_lt hf) ..
    refine ⟨⟨fun d f hf => ?_, fun d f hf => ?_⟩, ?_, h.rows, h.digests, h.held⟩
    · obtain ⟨hlt, hash⟩ := h.filed.blobs d f hf
      refine ⟨Nat.lt_succ_of_lt hlt, ?_⟩
      show C.sha256Hex (Function.update s.files s.fresh [] f) = d ∧ Function.update s.files s.fresh [] f ∈ values
      rw [old hlt]
      exact hash
    · have hf' : Function.update s.temps (p.digest C) (some s.fresh) d = some f := hf
      show f < s.fresh + 1 ∧ (∀ d', s.blobs d' ≠ some f) ∧
        ∀ d', Function.update s.temps (p.digest C) (some s.fresh) d' = some f → d' = d
      by_cases hd : d = p.digest C
      · rw [hd, Function.update_self] at hf'
        cases hf'
        refine ⟨Nat.lt_succ_self _, fun d' hb => Nat.lt_irrefl _ (h.filed.blobs d' _ hb).1, fun d' ht => ?_⟩
        by_contra hne
        rw [Function.update_of_ne (fun e => hne (e.trans hd.symm))] at ht
        exact Nat.lt_irrefl _ (h.filed.temps d' _ ht).1
      · rw [Function.update_of_ne hd] at hf'
        obtain ⟨hlt, hblob, inj⟩ := h.filed.temps d f hf'
        refine ⟨Nat.lt_succ_of_lt hlt, hblob, fun d' ht => ?_⟩
        by_cases hd' : d' = p.digest C
        · rw [hd', Function.update_self] at ht
          cases ht
          exact absurd hlt (Nat.lt_irrefl _)
        · rw [Function.update_of_ne hd'] at ht
          exact inj d' ht
    · refine h.ordered.step (fits s.fresh) rfl ⟨Function.update_self .., Function.update_self .., Nat.zero_le _⟩
        fun j hj sound => ?_
      refine sound.frame rfl (h.ordered.others hput hj) (fun d hd => Function.update_of_ne hd ..) ?_ (fun _ _ => rfl)
      intro d f _ hf
      exact old (h.filed.temps d f hf).1

theorem overwrite_take (v : Bytes) {sent : Nat} (hs : sent ≤ v.length) (n : Nat) :
    overwrite (v.take sent) sent ((v.drop sent).take n) = v.take (sent + ((v.drop sent).take n).length) := by
  have len : (v.take sent).length = sent := List.length_take_of_le hs
  have behind : (v.take sent).drop (sent + ((v.drop sent).take n).length) = [] :=
    List.drop_of_length_le (by omega)
  unfold overwrite
  rw [behind, List.take_of_length_le (Nat.le_of_eq len), len, Nat.sub_self, List.replicate_zero, List.append_nil,
    List.append_nil, List.take_add]
  exact congrArg (v.take sent ++ ·) (List.prefix_iff_eq_take.mp (List.take_prefix n _))

theorem stands_write {file sent : Nat} (h : Stands C values m s) (hk : s.ops k = .write p file sent) (chunk : Nat) :
    Stands C values m (writeTmp s k p file sent chunk) := by
  have hput : (s.ops k).putting = some p := by rw [hk]; rfl
  have sound := h.ordered.sound k
  rw [hk] at sound
  obtain ⟨htmp, hfile, hsent⟩ := sound
  have fits (op : Op) (hp : op.putting = some p) (hr : op.removing = none) : Fits C values s k op :=
    h.ordered.fits (.inr (hp.trans hput.symm)) (.inl hr)
  unfold writeTmp
  split
  · have kept {d : String} {f : Nat} (b : Bytes) (hf : s.blobs d = some f) : Function.update s.files file b f = s.files f :=
      Function.update_of_ne (fun e : f = file => (h.filed.temps _ _ htmp).2.1 d (e ▸ hf)) ..
    refine ⟨⟨fun d f hf => ?_, h.filed.temps⟩, ?_, h.rows, h.digests, h.held⟩
    · dsimp only [Store.turn]
      rw [kept _ hf]
      exact h.filed.blobs d f hf
    · refine h.ordered.step (fits _ rfl rfl) rfl ?_ fun j hj sound => ?_
      · refine ⟨htmp, ?_, ?_⟩
        · dsimp only [Store.turn]
          rw [Function.update_self, hfile, overwrite_take _ hsent]
        · rw [List.length_take, List.length_drop]
          omega
      · refine sound.frame rfl (h.ordered.others hput hj) (fun _ _ => rfl) ?_ (fun _ _ => rfl)
        intro d f hd hf
        exact Function.update_of_ne (fun e : f = file => hd ((h.filed.temps _ _ htmp).2.2 d (e ▸ hf))) ..
  · next hend =>
    refine h.turn (fits _ rfl rfl) ?_
    exact ⟨file, htmp, hfile.trans (List.take_of_length_le (by omega))⟩

theorem stands_rename (h : Stands C values m s) (hk : s.ops k = .rename p) :
    Stands C values m (renameTmp C s k p) := by
  have hput : (s.ops k).putting = some p := by rw [hk]; rfl
  have sound := h.ordered.sound k
  rw [hk] at sound
  obtain ⟨file, htmp, hfile⟩ := sound
  have hvalue := h.ordered.values k p hput
  obtain ⟨hlt, hblob, inj⟩ := h.filed.temps _ _ htmp
  unfold renameTmp
  rw [htmp]
  have blob (d : String) : Function.update s.blobs (p.digest C) (some file) d =
      if d = p.digest C then some file else s.blobs d := Function.update_apply ..
  have temp (d : String) : Function.update s.temps (p.digest C) none d =
      if d = p.digest C then none else s.temps d := Function.update_apply ..
  have fits : Fits C values s k (.insert p) := h.ordered.fits (.inr hput.symm) (.inl rfl)
  refine ⟨⟨fun d f hf => ?_, fun d f hf => ?_⟩, ?_, fun r hr => ?_, h.digests, h.held⟩
  · dsimp only [Store.turn] at hf ⊢
    rw [blob] at hf
    split at hf
    · next hd =>
      cases hf
      rw [hfile]
      exact ⟨hlt, hd.symm, hvalue⟩
    · exact h.filed.blobs d f hf
  · dsimp only [Store.turn] at hf ⊢
    rw [temp] at hf
    split at hf
    · cases hf
    · next hd =>
      obtain ⟨hlt', hblob', inj'⟩ := h.filed.temps d f hf
      refine ⟨hlt', fun d' hb => ?_, fun d' ht => ?_⟩
      · rw [blob] at hb
        split at hb
        · cases hb
          exact hd (inj d hf)
        · exact hblob' d' hb
      · rw [temp] at ht
        split at ht
        · cases ht
        · exact inj' d' ht
  · refine h.ordered.step fits rfl ?_ fun j hj sound => ?_
    · show Function.update s.blobs (p.digest C) (some file) (p.digest C) ≠ none
      rw [Function.update_self]
      exact Option.some_ne_none file
    · exact sound.frame rfl (h.ordered.others hput hj) (fun d hd => Function.update_of_ne hd ..)
        (fun _ _ _ _ => rfl) fun d hd => Function.update_of_ne hd ..
  · dsimp only [Store.turn]
    rw [blob]
    split
    · exact Option.some_ne_none file
    · exact h.rows r hr

theorem stands_insert (h : Stands C values m s) (hk : s.ops k = .insert p) (now : Int) :
    Stands C values (Function.update m p.name (some p.value)) (insertPut C s k p now) := by
  have hput : (s.ops k).putting = some p := by rw [hk]; rfl
  have sound := h.ordered.sound k
  rw [hk] at sound
  refine ⟨⟨h.filed.blobs, h.filed.temps⟩, ?_, fun r hr => ?_, fun name => ?_, fun name v hv => ?_⟩
  · refine h.ordered.step (h.ordered.fits (.inl rfl) (.inl rfl)) rfl trivial fun j _ there => ?_
    refine there.rows rfl rfl rfl ?_
    intro d hd none q hq
    rcases mem_insertRow hq with heq | ⟨q', hq', heq⟩
    · rw [heq]
      rintro rfl
      exact h.ordered.apart k j p hput hd
    · exact heq ▸ none q' hq'
  · rcases mem_insertRow hr with heq | ⟨r', hr', heq⟩
    · rw [heq]
      exact sound
    · rw [← heq]
      exact h.rows r' hr'
  · refine (digestOf_insertRow p.name (p.digest C) _ now name).trans ?_
    rw [Function.update_apply]
    split
    · rfl
    · exact h.digests name
  · rw [Function.update_apply] at hv
    split at hv
    · cases hv
      exact h.ordered.values k p hput
    · exact h.held name v hv

theorem stands_delete {r : Row} {todo : List Row} {collected : Collected} (h : Stands C values m s) :
    Stands C values (Function.update m r.name none)
      ({ s with rows := s.rows.filter (·.name ≠ r.name) }.turn k (.count r todo collected)) := by
  refine ⟨⟨h.filed.blobs, h.filed.temps⟩, ?_, fun q hq => h.rows q (List.mem_filter.mp hq).1, fun name => ?_,
    fun name v hv => ?_⟩
  · refine h.ordered.step (h.ordered.fits (.inl rfl) (.inl rfl)) rfl trivial fun j _ there => ?_
    exact there.rows rfl rfl rfl fun d _ none q hq => none q (List.mem_filter.mp hq).1
  · refine (digestOf_filter r.name name).trans ?_
    rw [Function.update_apply]
    split
    · rfl
    · exact h.digests name
  · rw [Function.update_apply] at hv
    split at hv
    · cases hv
    · exact h.held name v hv

theorem stands_remove {r : Row} {todo : List Row} {collected : Collected} (h : Stands C values m s)
    (hk : s.ops k = .remove r todo collected) :
    Stands C values m ({ s with blobs := Function.update s.blobs r.digestHex none }.turn k
      (.delete todo (collected.freed r.bytes))) := by
  have unused := h.ordered.sound k
  rw [hk] at unused
  have hrem : (s.ops k).removing = some r.digestHex := by rw [hk]; rfl
  have blob (d : String) : Function.update s.blobs r.digestHex none d =
      if d = r.digestHex then none else s.blobs d := Function.update_apply ..
  refine ⟨⟨fun d f hf => ?_, fun d f hf => ?_⟩, ?_, fun q hq => ?_, h.digests, h.held⟩
  · dsimp only [Store.turn] at hf
    rw [blob] at hf
    split at hf
    · cases hf
    · exact h.filed.blobs d f hf
  · obtain ⟨hlt, hblob, inj⟩ := h.filed.temps d f hf
    refine ⟨hlt, fun d' hb => ?_, inj⟩
    dsimp only [Store.turn] at hb
    rw [blob] at hb
    split at hb
    · cases hb
    · exact hblob d' hb
  · refine h.ordered.step (h.ordered.fits (.inl rfl) (.inl rfl)) rfl trivial fun j _ there => ?_
    refine there.frame rfl ?_ (fun _ _ => rfl) (fun _ _ _ _ => rfl) fun d hd => Function.update_of_ne hd ..
    intro q hq he
    exact h.ordered.apart j k q hq (he ▸ hrem)
  · dsimp only [Store.turn]
    rw [blob, if_neg (unused q hq)]
    exact h.rows q hq

end Files

/-- What an event puts. -/
def putValue (C : Crates) : Event → Option Bytes
  | .request _ (.put args) _ => (putArgs C args).toOption.map Put.value
  | _ => none

theorem stands_request {r : Request} {now : Int} (h : Stands C values m s) (apart : Apart C s (.request k r now))
    (hv : ∀ v, putValue C (.request k r now) = some v → v ∈ values) :
    Stands C values m (request C s k now r) := by
  cases r with
  | gc args => exact h.turn (h.ordered.fits (.inl rfl) (.inl rfl)) trivial
  | put args =>
    unfold request
    dsimp only
    split
    · exact h.turn (h.ordered.fits (.inl rfl) (.inl rfl)) trivial
    · next p hp =>
      refine h.turn ⟨?_, nofun⟩ trivial
      rintro q ⟨⟩
      refine ⟨hv _ ?_, fun j _ => apart p hp j⟩
      show (putArgs C args).toOption.map Put.value = _
      rw [hp]
      rfl

theorem stands_advance (h : Stands C values m s) {now : Int} {chunk : Nat} (apart : Apart C s (.step k now chunk)) :
    Stands C values (effect s m (.step k now chunk)) (advance C O s k now chunk) := by
  have sound := h.ordered.sound k
  have next {op : Op} (hp : op.putting = none) (hr : op.removing = none) : Fits C values s k op :=
    h.ordered.fits (.inl hp) (.inl hr)
  unfold advance effect
  unfold Apart at apart
  dsimp only at apart ⊢
  cases hk : s.ops k with
  | idle => exact h
  | done answer => exact h
  | create p => exact stands_create h hk
  | write p file sent => exact stands_write h hk chunk
  | rename p => exact stands_rename h hk
  | insert p => exact stands_insert h hk now
  | remove r todo collected => exact stands_remove h hk
  | scanCap cap old => exact h.turn (next rfl rfl) trivial
  | exist p =>
    have fits (op : Op) (hp : op.putting = some p) (hr : op.removing = none) : Fits C values s k op :=
      h.ordered.fits (.inr (by rw [hp, hk]; rfl)) (.inl hr)
    dsimp only
    split
    · next there => exact h.turn (fits _ rfl rfl) (Option.isSome_iff_ne_none.mp there)
    · exact h.turn (fits _ rfl rfl) trivial
  | scan cutoff maxBytes =>
    cases maxBytes with
    | none => exact h.turn (next rfl rfl) trivial
    | some cap => exact h.turn (next rfl rfl) trivial
  | delete todo collected =>
    cases todo with
    | nil => exact h.turn (next rfl rfl) trivial
    | cons r todo => exact stands_delete h
  | count r todo collected =>
    rw [hk] at apart
    dsimp only
    split
    · exact h.turn (next rfl rfl) trivial
    · next absent =>
      refine h.turn ⟨nofun, ?_⟩ fun q hq he => absent (List.any_eq_true.mpr ⟨q, hq, by simpa using he⟩)
      rintro d ⟨⟩
      exact ⟨rfl, fun j _ => apart j⟩
  | look r todo collected =>
    rw [hk] at sound
    dsimp only
    split
    · exact h.turn (h.ordered.fits (.inl rfl) (.inr ⟨by rw [hk]; rfl, rfl⟩)) sound
    · exact h.turn (next rfl rfl) trivial

theorem stands_touch (h : Stands C values m s) (name : String) (now : Int) :
    Stands C values m { s with rows := touch s.rows name now } := by
  have same {r : Row} (hr : r ∈ touch s.rows name now) : ∃ r' ∈ s.rows, r'.digestHex = r.digestHex := by
    obtain ⟨r', hr', rfl⟩ := List.mem_map.mp hr
    refine ⟨r', hr', ?_⟩
    split
    · rfl
    · rfl
  refine ⟨⟨h.filed.blobs, h.filed.temps⟩, ⟨fun k => ?_, h.ordered.values, h.ordered.alone, h.ordered.apart⟩,
    fun r hr => ?_, fun other => (digestOf_touch name now other).trans (h.digests other), h.held⟩
  · refine (h.ordered.sound k).rows rfl rfl rfl fun d _ none q hq => ?_
    obtain ⟨q', hq', heq⟩ := same hq
    exact heq ▸ none q' hq'
  · obtain ⟨r', hr', heq⟩ := same hr
    exact heq ▸ h.rows r' hr'

theorem stands_step {e : Event} (h : Stands C values m s) (apart : Apart C s e)
    (hv : ∀ v, putValue C e = some v → v ∈ values) : Stands C values (effect s m e) (step C O s e) := by
  cases e with
  | request k r now =>
    unfold step
    dsimp only
    split
    · exact h
    · exact stands_request h apart hv
  | step k now chunk => exact stands_advance h apart
  | touch name now => exact stands_touch h name now
  | fail k e =>
    unfold step
    dsimp only
    split
    · exact h.turn (h.ordered.fits (.inl rfl) (.inl rfl)) trivial
    · exact h

theorem heldFrom_fst (s : Store) (m : Held) (es : List Event) : (heldFrom C O s m es).1 = run (step C O) s es := by
  induction es generalizing s m with
  | nil => rfl
  | cons e es ih => exact ih _ _

theorem stands_run {es : List Event} (h : Stands C values m s) (along : Along (step C O) (Apart C) s es)
    (hv : ∀ v ∈ putValues C es, v ∈ values) :
    Stands C values (heldFrom C O s m es).2 (run (step C O) s es) := by
  induction es generalizing s m with
  | nil => exact h
  | cons e es ih =>
    refine ih (stands_step h along.1 fun v he => hv v ?_) along.2 fun v hmem => hv v ?_
    · exact List.mem_filterMap.mpr ⟨e, List.mem_cons_self, he⟩
    · obtain ⟨e', he', hval⟩ := List.mem_filterMap.mp hmem
      exact List.mem_filterMap.mpr ⟨e', List.mem_cons_of_mem _ he', hval⟩

theorem lookup_eq (h : Stands C values m s) (name : String) :
    lookup s name = match m name with
      | none => .error (notFound name)
      | some v => .ok (C.sha256Hex v) := by
  have digest := h.digests name
  unfold digestOf at digest
  unfold lookup
  cases hm : m name with
  | none =>
    rw [hm] at digest
    rw [Option.map_eq_none_iff.mp digest]
  | some v =>
    rw [hm] at digest
    obtain ⟨row, hrow, hdigest⟩ := Option.map_eq_some_iff.mp digest
    rw [hrow]
    exact congrArg Except.ok hdigest

/-- A digest that some name is bound to a value of has its blob. -/
theorem blob_of_held (h : Stands C values m s) {name : String} {v : Bytes} (hm : m name = some v) :
    s.blobs (C.sha256Hex v) ≠ none := by
  have digest := h.digests name
  rw [hm] at digest
  obtain ⟨row, hrow, hdigest⟩ := Option.map_eq_some_iff.mp digest
  exact hdigest ▸ h.rows row (List.mem_of_find?_eq_some hrow)

/-- Whatever the steps of the clients interleave to and whichever of their calls fail, a get of a name
that was put and not collected since answers the value of its last put, unless two of the values put have
one hash or the name has lost that value before the get reads the blob. Any other name is not found, and
what a get by digest answers has that digest and was put. -/
theorem artifact_last_put (C : Crates) (O : OrderBy) (es fs : List Event)
    (along : Along (step C O) (Apart C) init (es ++ fs)) (args : Value) :
    (∀ name, nameArg args = .ok name →
      (held C O es name = none →
        opArtifactGet (run (step C O) init es) (run (step C O) init (es ++ fs)) args = .error (notFound name)) ∧
      ∀ v, held C O es name = some v →
        opArtifactGet (run (step C O) init es) (run (step C O) init (es ++ fs)) args =
            .ok ⟨C.sha256Hex v, some name, v⟩ ∨
          (opArtifactGet (run (step C O) init es) (run (step C O) init (es ++ fs)) args =
              .error (missing (C.sha256Hex v)) ∧ ∀ other, held C O (es ++ fs) other ≠ some v) ∨
          ∃ a ∈ putValues C (es ++ fs), v ∈ putValues C (es ++ fs) ∧ a ≠ v ∧ C.sha256Hex a = C.sha256Hex v) ∧
    ∀ f, opArtifactGetByDigest (run (step C O) init (es ++ fs)) args = .ok f →
      digestArg args = .ok f.digest ∧ C.sha256Hex f.value = f.digest ∧ f.value ∈ putValues C (es ++ fs) := by
  have front : Stands C (putValues C (es ++ fs)) (held C O es) (run (step C O) init es) := by
    apply stands_run stands_init (along_append.mp along).1
    intro v hv
    unfold putValues
    rw [List.filterMap_append]
    exact List.mem_append_left _ hv
  have stands : Stands C (putValues C (es ++ fs)) (held C O (es ++ fs)) (run (step C O) init (es ++ fs)) :=
    stands_run stands_init along fun _ hv => hv
  constructor
  · intro name hname
    unfold opArtifactGet
    simp only [hname, lookup_eq front]
    constructor
    · intro hm
      rw [hm]
    · intro v hm
      rw [hm]
      dsimp only
      unfold fetchBlob
      cases hb : (run (step C O) init (es ++ fs)).blobs (C.sha256Hex v) with
      | none => exact .inr (.inl ⟨rfl, fun other ho => blob_of_held stands ho hb⟩)
      | some file =>
        dsimp only
        obtain ⟨-, hash, mem⟩ := stands.filed.blobs _ _ hb
        by_cases heq : (run (step C O) init (es ++ fs)).files file = v
        · exact .inl (by rw [heq])
        · exact .inr (.inr ⟨_, mem, front.held name v hm, heq, hash⟩)
  · intro f hf
    unfold opArtifactGetByDigest at hf
    cases hd : digestArg args with
    | error e => rw [hd] at hf; cases hf
    | ok digest =>
      rw [hd] at hf
      dsimp only at hf
      unfold fetchBlob at hf
      cases hb : (run (step C O) init (es ++ fs)).blobs digest with
      | none => rw [hb] at hf; cases hf
      | some file =>
        rw [hb] at hf
        cases hf
        obtain ⟨-, hash, mem⟩ := stands.filed.blobs _ _ hb
        exact ⟨rfl, hash, mem⟩

section Example

/-- The crates on the texts `1` and `2`. -/
def someCrates : Crates where
  sha256Hex bytes :=
    if bytes = [0x31] then "6b86b273ff34fce19d6b804eff5a3f5747ada4eaa22f1d49c01e52ddb7875b4b"
    else if bytes = [0x32] then "d4735e3a265e16eee03f59718b9b5d03019c07d8b6c51f90da3a666eec13ab35"
    else ""
  base64Decode text := if text = "MQ==" then .ok [0x31] else if text = "Mg==" then .ok [0x32] else .error ""
  jsonText _ := []

/-- The rows of one time in the order they were inserted in. -/
def someOrder : OrderBy where
  sort rows := rows.insertionSort fun a b => a.touched ≤ b.touched
  perm rows := List.perm_insertionSort _ rows
  sorted rows := by
    have total : Std.Total fun a b : Row => a.touched ≤ b.touched := ⟨fun a b => Int.le_total _ _⟩
    have trans : IsTrans Row fun a b => a.touched ≤ b.touched := ⟨fun a b c => Int.le_trans⟩
    exact List.pairwise_insertionSort _ rows

/-- Where only the clients below a number do anything, only they need a look. -/
def apartBelow (C : Crates) (n : Nat) (s : Store) : Event → Bool
  | .request k (.put args) _ => k < n && (List.range n).all fun j =>
      match putArgs C args with
      | .error _ => true
      | .ok p => ((s.ops j).putting.all fun q => q.digest C != p.digest C) && (s.ops j).removing != some (p.digest C)
  | .request k (.gc _) _ => k < n
  | .step k _ _ => k < n && (List.range n).all fun j =>
      match s.ops k with
      | .count r _ _ => (s.ops j).putting.all fun q => q.digest C != r.digestHex
      | _ => true
  | .touch _ _ => true
  | .fail k _ => k < n

theorem advance_ops {j : Nat} (hj : j ≠ k) (now : Int) (chunk : Nat) :
    (advance C O s k now chunk).ops j = s.ops j := by
  have turned (t : Store) (op : Op) (ht : t.ops = s.ops) : (t.turn k op).ops j = s.ops j := by
    rw [turn_ops, Function.update_of_ne hj, ht]
  unfold advance
  split
  · rfl
  · exact turned s _ rfl
  · unfold createTmp
    split
    · exact turned _ _ rfl
    · exact turned _ _ rfl
  · unfold writeTmp
    split
    · exact turned _ _ rfl
    · exact turned _ _ rfl
  · unfold renameTmp
    split
    · exact turned _ _ rfl
    · exact turned _ _ rfl
  all_goals first
    | exact turned _ _ rfl
    | rfl

theorem apart_of_below {n : Nat} {e : Event} (idle : ∀ j, n ≤ j → s.ops j = .idle)
    (h : apartBelow C n s e = true) : Apart C s e ∧ ∀ j, n ≤ j → (step C O s e).ops j = .idle := by
  have below {P : Op → Prop} (hidle : P .idle) (hn : ∀ j ∈ List.range n, P (s.ops j)) (j : Nat) : P (s.ops j) := by
    by_cases hj : j < n
    · exact hn j (List.mem_range.mpr hj)
    · exact idle j (Nat.le_of_not_lt hj) ▸ hidle
  have turned {k : Nat} (hk : k < n) (op : Op) (j : Nat) (hj : n ≤ j) : (s.turn k op).ops j = .idle := by
    rw [turn_ops, Function.update_of_ne (by omega), idle j hj]
  cases e with
  | touch name now => exact ⟨trivial, idle⟩
  | fail k e =>
    refine ⟨trivial, fun j hj => ?_⟩
    unfold step
    dsimp only
    split
    · exact turned (of_decide_eq_true h) _ j hj
    · exact idle j hj
  | step k now chunk =>
    unfold apartBelow at h
    rw [Bool.and_eq_true, decide_eq_true_eq] at h
    refine ⟨?_, fun j hj => ?_⟩
    · unfold Apart
      dsimp only
      split
      · next r todo collected hk =>
        rw [hk, List.all_eq_true] at h
        refine below (P := fun op => ∀ q, op.putting = some q → q.digest C ≠ r.digestHex) nofun fun j hj q hq => ?_
        have this := h.2 j hj
        rw [hq] at this
        exact bne_iff_ne.mp this
      · trivial
    · have hne : j ≠ k := by omega
      exact (advance_ops hne now chunk).trans (idle j hj)
  | request k r now =>
    cases r with
    | gc args =>
      refine ⟨trivial, fun j hj => ?_⟩
      unfold step
      dsimp only
      split
      · exact idle j hj
      · exact turned (of_decide_eq_true h) _ j hj
    | put args =>
      unfold apartBelow at h
      rw [Bool.and_eq_true, decide_eq_true_eq] at h
      refine ⟨fun p hp => ?_, fun j hj => ?_⟩
      · rw [hp, List.all_eq_true] at h
        refine below (P := fun op => (∀ q, op.putting = some q → q.digest C ≠ p.digest C) ∧
          op.removing ≠ some (p.digest C)) ⟨nofun, nofun⟩ fun j hj => ?_
        have this := h.2 j hj
        rw [Bool.and_eq_true] at this
        refine ⟨fun q hq => ?_, bne_iff_ne.mp this.2⟩
        rw [hq] at this
        exact bne_iff_ne.mp this.1
      · unfold step
        dsimp only
        split
        · exact idle j hj
        · unfold request
          dsimp only
          split
          · exact turned h.1 _ j hj
          · exact turned h.1 _ j hj

theorem along_of_below {n : Nat} {es : List Event}
    (h : Along (step C O) (fun s e => apartBelow C n s e = true) init es) : Along (step C O) (Apart C) init es :=
  h.of_invariant (I := fun s => ∀ j, n ≤ j → s.ops j = .idle) (fun _ _ he idle => (apart_of_below idle he).2)
    (fun s _ he idle => (apart_of_below (O := O) (s := s) idle he).1) fun _ _ => rfl

def putLib : Value := .object [("name", .string "lib.o"), ("value_base64", .string "MQ==")]
def putMain : Value := .object [("name", .string "main.o"), ("value_base64", .string "Mg==")]
def gcOne : Value := .object [("max_bytes", .number (.posInt 1))]

/-- Two clients put at once, and the second is the last to be touched. -/
def twoPuts : List Event :=
  [.request 0 (.put putLib) 0, .request 1 (.put putMain) 0, .step 0 0 0, .step 1 0 0, .step 0 0 0, .step 1 0 0,
    .step 1 0 0, .step 0 0 0, .step 0 0 0, .step 1 0 0, .step 1 0 0, .step 0 0 0, .step 0 1 0, .step 1 2 0]

/-- A collection for one byte, and a put of the value that stays while it runs. -/
def oneCollection : List Event :=
  [.request 2 (.gc gcOne) 3, .step 2 3 0, .request 0 (.put putMain) 3, .step 2 3 0, .step 2 3 0, .step 0 3 0,
    .step 2 3 0, .step 2 3 0, .step 0 4 0, .step 2 3 0, .step 2 3 0]

theorem main_kept :
    opArtifactGet (run (step someCrates someOrder) init twoPuts)
        (run (step someCrates someOrder) init (twoPuts ++ oneCollection)) (.object [("name", .string "main.o")]) =
      .ok ⟨"d4735e3a265e16eee03f59718b9b5d03019c07d8b6c51f90da3a666eec13ab35", some "main.o", [0x32]⟩ ∧
    held someCrates someOrder (twoPuts ++ oneCollection) "lib.o" = none := by
  refine ⟨?_, by decide +kernel⟩
  have along : Along (step someCrates someOrder) (Apart someCrates) init (twoPuts ++ oneCollection) := by
    apply along_of_below (n := 3)
    decide +kernel
  have last := (artifact_last_put someCrates someOrder twoPuts oneCollection along
    (.object [("name", .string "main.o")])).1 "main.o" rfl
  rcases last.2 [0x32] (by decide +kernel) with h | ⟨-, h⟩ | ⟨a, ha, -, hne, hash⟩
  · exact h
  · exact absurd (by decide +kernel) (h "main.o")
  · have either : a = [0x31] ∨ a = [0x32] := by
      have values : putValues someCrates (twoPuts ++ oneCollection) = [[0x31], [0x32], [0x32]] := by decide +kernel
      rw [values] at ha
      simpa using ha
    rcases either with rfl | rfl
    · exact absurd hash (by decide)
    · exact absurd rfl hne

end Example

end Runs

end Zshrs.Daemon.Artifact
