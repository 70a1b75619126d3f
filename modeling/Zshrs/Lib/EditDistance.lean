import Mathlib.Order.Lattice.Nat
import Mathlib.Data.List.Basic

namespace Zshrs.Lib.EditDistance

variable {α : Type}

/-- `p` turns into `s` by `n` edits, none of which touches what another one edited. -/
inductive Edits : List α → List α → Nat → Prop
  | nil : Edits [] [] 0
  | keep {p s n} (a : α) : Edits p s n → Edits (a :: p) (a :: s) n
  | replace {p s n} (a b : α) : Edits p s n → Edits (a :: p) (b :: s) (n + 1)
  | delete {p s n} (a : α) : Edits p s n → Edits (a :: p) s (n + 1)
  | insert {p s n} (b : α) : Edits p s n → Edits p (b :: s) (n + 1)
  | swap {p s n} (a b : α) : Edits p s n → Edits (a :: b :: p) (b :: a :: s) (n + 1)

theorem edits_nil_left (s : List α) : Edits [] s s.length := by
  induction s with
  | nil => exact .nil
  | cons b s ih => exact .insert b ih

theorem edits_exists (p s : List α) : ∃ n, Edits p s n := by
  induction p with
  | nil => exact ⟨_, edits_nil_left s⟩
  | cons a p ih =>
      obtain ⟨n, h⟩ := ih
      exact ⟨n + 1, .delete a h⟩

theorem Edits.append {p s q t : List α} {n m : Nat} (h : Edits p s n) (h' : Edits q t m) :
    Edits (p ++ q) (s ++ t) (n + m) := by
  induction h with
  | nil => simpa using h'
  | keep a _ ih => exact .keep a ih
  | replace a b _ ih => simpa [Nat.add_right_comm] using ih.replace a b
  | delete a _ ih => simpa [Nat.add_right_comm] using ih.delete a
  | insert b _ ih => simpa [Nat.add_right_comm] using ih.insert b
  | swap a b _ ih => simpa [Nat.add_right_comm] using ih.swap a b

/-- The optimal string alignment distance. -/
noncomputable def distance (p s : List α) : Nat := sInf {n | Edits p s n}

theorem edits_distance (p s : List α) : Edits p s (distance p s) :=
  Nat.sInf_mem (edits_exists p s)

theorem distance_le {p s : List α} {n : Nat} (h : Edits p s n) : distance p s ≤ n :=
  Nat.sInf_le h

theorem distance_le_iff {p s : List α} {n : Nat} : distance p s ≤ n ↔ ∃ m ≤ n, Edits p s m :=
  ⟨fun h => ⟨_, h, edits_distance p s⟩, fun ⟨_, hm, h⟩ => (distance_le h).trans hm⟩

theorem edits_zero {p s : List α} : Edits p s 0 ↔ p = s := by
  constructor
  · intro h
    generalize hn : 0 = n at h
    induction h with
    | nil => rfl
    | keep a _ ih => rw [ih hn]
    | replace _ _ _ | delete _ _ | insert _ _ | swap _ _ _ => cases hn
  · rintro rfl
    induction p with
    | nil => exact .nil
    | cons a p ih => exact .keep a ih

theorem distance_eq_zero {p s : List α} : distance p s = 0 ↔ p = s := by
  rw [← Nat.le_zero, distance_le_iff]
  constructor
  · rintro ⟨m, hm, h⟩
    exact edits_zero.mp (Nat.le_zero.mp hm ▸ h)
  · intro h
    exact ⟨0, Nat.le_refl 0, edits_zero.mpr h⟩

/-- A text in pieces turns into `s` by `n` edits, where a swap stays inside one piece. -/
inductive Within : List (List α) → List α → Nat → Prop
  | nil : Within [] [] 0
  | next {ps s n} : Within ps s n → Within ([] :: ps) s n
  | keep {p ps s n} (a : α) : Within (p :: ps) s n → Within ((a :: p) :: ps) (a :: s) n
  | replace {p ps s n} (a b : α) : Within (p :: ps) s n → Within ((a :: p) :: ps) (b :: s) (n + 1)
  | delete {p ps s n} (a : α) : Within (p :: ps) s n → Within ((a :: p) :: ps) s (n + 1)
  | insert {ps s n} (b : α) : Within ps s n → Within ps (b :: s) (n + 1)
  | swap {p ps s n} (a b : α) : Within (p :: ps) s n → Within ((a :: b :: p) :: ps) (b :: a :: s) (n + 1)

theorem Within.edits {ps : List (List α)} {s : List α} {n : Nat} (h : Within ps s n) : Edits ps.flatten s n := by
  induction h with
  | nil => exact .nil
  | next _ ih => exact ih
  | keep a _ ih => exact .keep a ih
  | replace a b _ ih => exact .replace a b ih
  | delete a _ ih => exact .delete a ih
  | insert b _ ih => exact .insert b ih
  | swap a b _ ih => exact .swap a b ih

/-- One piece restricts nothing. -/
theorem Edits.within {p s : List α} {n : Nat} (h : Edits p s n) : Within [p] s n := by
  induction h with
  | nil => exact .next .nil
  | keep a _ ih => exact .keep a ih
  | replace a b _ ih => exact .replace a b ih
  | delete a _ ih => exact .delete a ih
  | insert b _ ih => exact .insert b ih
  | swap a b _ ih => exact .swap a b ih

theorem within_singleton {p s : List α} {n : Nat} : Within [p] s n ↔ Edits p s n :=
  ⟨fun h => by simpa using h.edits, Edits.within⟩

theorem within_nil {s : List α} {n : Nat} : Within [] s n ↔ n = s.length := by
  constructor
  · intro h
    generalize hps : ([] : List (List α)) = ps at h
    induction h with
    | nil => rfl
    | insert b _ ih => rw [ih hps, List.length_cons]
    | next _ | keep _ _ | replace _ _ _ | delete _ _ | swap _ _ _ => cases hps
  · rintro rfl
    induction s with
    | nil => exact .nil
    | cons b s ih => exact .insert b ih

theorem within_next {ps : List (List α)} {s : List α} {n : Nat} : Within ([] :: ps) s n ↔ Within ps s n := by
  refine ⟨fun h => ?_, .next⟩
  generalize hps : [] :: ps = qs at h
  induction h with
  | next h => exact (List.cons.inj hps).2 ▸ h
  | insert b _ ih => exact .insert b (ih hps)
  | nil => cases hps
  | keep _ _ | replace _ _ _ | delete _ _ | swap _ _ _ => cases (List.cons.inj hps).1

/-- A text too many costs one edit more at most. -/
theorem Within.drop_text {ps : List (List α)} {b : α} {s : List α} {n : Nat} (h : Within ps (b :: s) n) :
    ∃ m ≤ n + 1, Within ps s m := by
  generalize ht : b :: s = t at h
  induction h generalizing s with
  | nil => cases ht
  | next _ ih =>
      obtain ⟨m, hm, h⟩ := ih ht
      exact ⟨m, hm, .next h⟩
  | keep a h _ => exact ⟨_, Nat.le_refl _, (List.cons.inj ht).2 ▸ h.delete a⟩
  | replace a c h _ => exact ⟨_, Nat.le_succ _, (List.cons.inj ht).2 ▸ h.delete a⟩
  | delete a _ ih =>
      obtain ⟨m, hm, h⟩ := ih ht
      exact ⟨m + 1, Nat.succ_le_succ hm, .delete a h⟩
  | insert c h _ => exact ⟨_, by omega, (List.cons.inj ht).2 ▸ h⟩
  | swap a c h _ => exact ⟨_, Nat.le_succ _, (List.cons.inj ht).2 ▸ (h.delete c).keep a⟩

/-- A character fewer to turn into the text costs one edit more at most. -/
theorem Within.drop_char {a : α} {p : List α} {ps : List (List α)} {s : List α} {n : Nat}
    (h : Within ((a :: p) :: ps) s n) : ∃ m ≤ n + 1, Within (p :: ps) s m := by
  generalize hq : (a :: p) :: ps = qs at h
  induction h with
  | nil => cases hq
  | next _ _ => cases hq
  | keep b h _ =>
      cases hq
      exact ⟨_, Nat.le_refl _, h.insert a⟩
  | replace b c h _ =>
      cases hq
      exact ⟨_, Nat.le_succ _, h.insert c⟩
  | delete b h _ =>
      cases hq
      exact ⟨_, by omega, h⟩
  | insert c _ ih =>
      obtain ⟨m, hm, h⟩ := ih hq
      exact ⟨m + 1, Nat.succ_le_succ hm, .insert c h⟩
  | swap b c h _ =>
      cases hq
      exact ⟨_, Nat.le_succ _, (h.insert a).keep c⟩

/-- Equal characters in front never need an edit, which is what lets a search take them at once. -/
theorem Within.cancel {a : α} {p : List α} {ps : List (List α)} {s : List α} {n : Nat}
    (h : Within ((a :: p) :: ps) (a :: s) n) : ∃ m ≤ n, Within (p :: ps) s m := by
  cases h with
  | keep _ h => exact ⟨n, Nat.le_refl _, h⟩
  | replace _ _ h => exact ⟨_, Nat.le_succ _, h⟩
  | delete _ h => exact h.drop_text
  | insert _ h => exact h.drop_char
  | swap _ _ h => exact ⟨_, Nat.le_succ _, h.keep a⟩

/-- Behind a mismatch stands one of four edits. -/
theorem Within.mismatch {a b : α} (hab : a ≠ b) {p : List α} {ps : List (List α)} {s : List α} {n : Nat}
    (h : Within ((a :: p) :: ps) (b :: s) n) : ∃ m, n = m + 1 ∧
      (Within ((a :: p) :: ps) s m ∨ (∃ p' s', p = b :: p' ∧ s = a :: s' ∧ Within (p' :: ps) s' m) ∨
        Within (p :: ps) s m ∨ Within (p :: ps) (b :: s) m) := by
  cases h with
  | keep _ h => exact absurd rfl hab
  | replace _ _ h => exact ⟨_, rfl, .inr (.inr (.inl h))⟩
  | delete _ h => exact ⟨_, rfl, .inr (.inr (.inr h))⟩
  | insert _ h => exact ⟨_, rfl, .inl h⟩
  | swap _ _ h => exact ⟨_, rfl, .inr (.inl ⟨_, _, rfl, rfl, h⟩)⟩

theorem Within.mismatch_nil {a : α} {p : List α} {ps : List (List α)} {n : Nat}
    (h : Within ((a :: p) :: ps) [] n) : ∃ m, n = m + 1 ∧ Within (p :: ps) [] m := by
  cases h with
  | delete _ h => exact ⟨_, rfl, h⟩

section Search

variable {β : Type} [DecidableEq α]

/-- A greedy search with `n` edits to spend: equal characters are taken, only a mismatch branches, and
`done` carries on behind the text. -/
def search (done : List α → Nat → Option β) : List α → List α → Nat → Option β
  | [], s, n => done s n
  | _ :: _, [], 0 => none
  | _ :: p, [], n + 1 => search done p [] n
  | a :: p, b :: s, n =>
      if b = a then search done p s n
      else
        match n with
        | 0 => none
        | n + 1 =>
            (search done (a :: p) s n).or <|
              (match p, s with
                | c :: p', d :: s' => if b = c ∧ d = a then search done p' s' n else none
                | _, _ => none).or <|
              (search done p s n).or (search done p (b :: s) n)
termination_by p s => p.length + s.length

variable {done : List α → Nat → Option β}

theorem search_keep {a : α} {p s : List α} {n : Nat} :
    search done (a :: p) (a :: s) n = search done p s n := by
  rw [search.eq_def]
  exact if_pos rfl

theorem search_mismatch_zero {a b : α} (hba : b ≠ a) {p s : List α} :
    search done (a :: p) (b :: s) 0 = none := by
  rw [search.eq_def]
  exact if_neg hba

theorem search_mismatch {a b : α} (hba : b ≠ a) {p s : List α} {n : Nat} :
    search done (a :: p) (b :: s) (n + 1) =
      (search done (a :: p) s n).or
        ((match p, s with
          | c :: p', d :: s' => if b = c ∧ d = a then search done p' s' n else none
          | _, _ => none).or
          ((search done p s n).or (search done p (b :: s) n))) := by
  rw [search.eq_def]
  exact if_neg hba

theorem isSome_mismatch {a b : α} (hba : b ≠ a) {p s : List α} {n : Nat} :
    (search done (a :: p) (b :: s) (n + 1)).isSome ↔
      (search done (a :: p) s n).isSome ∨
        (∃ p' s', p = b :: p' ∧ s = a :: s' ∧ (search done p' s' n).isSome) ∨
        (search done p s n).isSome ∨ (search done p (b :: s) n).isSome := by
  simp only [search_mismatch hba, Option.isSome_or, Bool.or_eq_true]
  refine or_congr_right (or_congr_left ?_)
  cases p with
  | nil => simp
  | cons c p' =>
      cases s with
      | nil => simp
      | cons d s' =>
          by_cases he : b = c ∧ d = a
          · obtain ⟨rfl, rfl⟩ := he
            simp
          · simp only [if_neg he, Option.isSome_none, Bool.false_eq_true, false_iff]
            rintro ⟨p'', s'', hp, hs, _⟩
            exact he ⟨(List.cons.inj hp).1.symm, (List.cons.inj hs).1⟩

/-- The search answers only what it was answered behind the text. -/
theorem search_answer {p s : List α} {n : Nat} {r : β} (h : search done p s n = some r) :
    ∃ s' m, done s' m = some r := by
  induction p, s, n using search.induct with
  | case1 s n =>
      rw [search] at h
      exact ⟨s, n, h⟩
  | case2 a p => rw [search] at h; cases h
  | case3 a p n ih =>
      rw [search] at h
      exact ih h
  | case4 p a s n ih =>
      rw [search_keep] at h
      exact ih h
  | case5 a p b s hba => rw [search_mismatch_zero hba] at h; cases h
  | case6 a p b s hba n ihinsert ihswap ihreplace ihdelete =>
      rw [search_mismatch hba, Option.or_eq_some_iff, Option.or_eq_some_iff, Option.or_eq_some_iff] at h
      obtain hi | ⟨_, hs | ⟨_, hr | ⟨_, hd⟩⟩⟩ := h
      · exact ihinsert hi
      · split at hs
        · exact ihswap (Option.ite_none_right_eq_some.mp hs).2
        · cases hs
      · exact ihreplace hr
      · exact ihdelete hd

/-- What the search finds, an alignment with the edits it has spent leads to. -/
theorem search_sound {p s : List α} {n : Nat} (h : (search done p s n).isSome) :
    ∃ s' m, s' <:+ s ∧ (done s' m).isSome ∧ m ≤ n ∧ ∀ ps k, Within ps s' k → Within (p :: ps) s (n - m + k) := by
  have one {m n : Nat} (hm : m ≤ n) (k : Nat) : n + 1 - m + k = n - m + k + 1 := by omega
  induction p, s, n using search.induct with
  | case1 s n =>
      rw [search] at h
      exact ⟨s, n, List.suffix_refl s, h, Nat.le_refl n, fun ps k hw => by simpa using hw.next⟩
  | case2 a p => rw [search] at h; cases h
  | case3 a p n ih =>
      rw [search] at h
      obtain ⟨s', m, hs', hdone, hm, hw⟩ := ih h
      exact ⟨s', m, hs', hdone, Nat.le_succ_of_le hm, fun ps k hk => one hm k ▸ (hw ps k hk).delete a⟩
  | case4 p a s n ih =>
      rw [search_keep] at h
      obtain ⟨s', m, hs', hdone, hm, hw⟩ := ih h
      exact ⟨s', m, hs'.trans (List.suffix_cons a s), hdone, hm, fun ps k hk => (hw ps k hk).keep a⟩
  | case5 a p b s hba => rw [search_mismatch_zero hba] at h; cases h
  | case6 a p b s hba n ihinsert ihswap ihreplace ihdelete =>
      obtain hi | ⟨p', t, rfl, rfl, hs⟩ | hr | hd := (isSome_mismatch hba).mp h
      · obtain ⟨s', m, hs', hdone, hm, hw⟩ := ihinsert hi
        exact ⟨s', m, hs'.trans (List.suffix_cons b s), hdone, Nat.le_succ_of_le hm,
          fun ps k hk => one hm k ▸ (hw ps k hk).insert b⟩
      · obtain ⟨s', m, hs', hdone, hm, hw⟩ := ihswap hs
        exact ⟨s', m, hs'.trans ((List.suffix_cons a t).trans (List.suffix_cons b _)), hdone, Nat.le_succ_of_le hm,
          fun ps k hk => one hm k ▸ (hw ps k hk).swap a b⟩
      · obtain ⟨s', m, hs', hdone, hm, hw⟩ := ihreplace hr
        exact ⟨s', m, hs'.trans (List.suffix_cons b s), hdone, Nat.le_succ_of_le hm,
          fun ps k hk => one hm k ▸ (hw ps k hk).replace a b⟩
      · obtain ⟨s', m, hs', hdone, hm, hw⟩ := ihdelete hd
        exact ⟨s', m, hs', hdone, Nat.le_succ_of_le hm, fun ps k hk => one hm k ▸ (hw ps k hk).delete a⟩

/-- With `n` edits to spend on `len` characters and a text of `text`, no alignment leaves more than
`limit` characters of the text behind. -/
def Room (limit n len text : Nat) : Prop := n ≤ limit ∨ text ≤ limit ∨ n + text ≤ len + 2 * limit + 1

/-- An alignment the search has the edits for, it finds: taking equal characters at once loses none. -/
theorem search_complete {limit : Nat} {ps : List (List α)} {p s : List α} {n k : Nat}
    (hdone : ∀ t m k, t <:+ s → m ≤ n → Within ps t k → k ≤ m → Room limit m ps.flatten.length t.length →
      (done t m).isSome)
    (h : Within (p :: ps) s k) (hk : k ≤ n)
    (room : Room limit n (p.length + ps.flatten.length) s.length) : (search done p s n).isSome := by
  induction p, s, n using search.induct generalizing k with
  | case1 s n =>
      rw [search]
      exact hdone s n k (List.suffix_refl s) (Nat.le_refl n) (within_next.mp h) hk (by simpa using room)
  | case2 a p =>
      obtain ⟨m, rfl, _⟩ := h.mismatch_nil
      omega
  | case3 a p n ih =>
      obtain ⟨m, rfl, rest⟩ := h.mismatch_nil
      have hless := fun t m k ht hm => hdone t m k ht (Nat.le_succ_of_le hm)
      rw [search]
      refine ih hless rest (by omega) ?_
      simp only [Room, List.length_cons, List.length_nil] at room ⊢
      omega
  | case4 p a s n ih =>
      obtain ⟨m, hm, rest⟩ := h.cancel
      have htail := fun t m k (ht : t <:+ s) => hdone t m k (ht.trans (List.suffix_cons a s))
      rw [search_keep]
      refine ih htail rest (by omega) ?_
      simp only [Room, List.length_cons] at room ⊢
      omega
  | case5 a p b s hba =>
      obtain ⟨m, rfl, _⟩ := h.mismatch (Ne.symm hba)
      omega
  | case6 a p b s hba n ihinsert ihswap ihreplace ihdelete =>
      obtain ⟨m, rfl, rest⟩ := h.mismatch (Ne.symm hba)
      have hm : m ≤ n := by omega
      have hless := fun t m k ht hm => hdone t m k ht (Nat.le_succ_of_le hm)
      have htail := fun t m k (ht : t <:+ s) => hless t m k (ht.trans (List.suffix_cons b s))
      simp only [Room, List.length_cons] at room ihinsert ihreplace ihdelete
      apply (isSome_mismatch hba).mpr
      obtain hi | ⟨p', t, rfl, rfl, hs⟩ | hr | hd := rest
      · exact .inl (ihinsert htail hi hm (by omega))
      · have htail₂ := fun u m k (hu : u <:+ t) => htail u m k (hu.trans (List.suffix_cons a t))
        simp only [Room, List.length_cons] at room ihswap
        exact .inr (.inl ⟨p', t, rfl, rfl, ihswap htail₂ hs hm (by omega)⟩)
      · exact .inr (.inr (.inl (ihreplace htail hr hm (by omega))))
      · exact .inr (.inr (.inr (ihdelete hless hd hm (by omega))))

end Search

end Zshrs.Lib.EditDistance
