import Zshrs.Parse.EcCalls

namespace Zshrs.Parse.Wordcode

open Lib.Runs

/-- The recorded positions are those of the `WC_REDIR` words. -/
def Placed (hdocs : List Heredoc) (l : List Slot) : Prop :=
  ∀ d ∈ hdocs, ∀ k n : Nat, l[k]? = some (.head d.id n) → d.pc = k

/-- What holds of the buffer and the pending here-documents. -/
structure Inv (e : Ec) : Prop where
  fits : e.Fits
  whole : Whole e.slots
  heads : ∀ id n, .head id n ∈ e.slots → id < e.made ∧ (n = 5 ∨ n = 6)
  docs : ∀ d ∈ e.hdocs, d.id < e.made
  kept : ∀ d ∈ e.hdocs, d.id ∈ e.lost ∨ ∃ n, .head d.id n ∈ e.slots
  placed : Placed e.hdocs e.slots

/-- A here-document whose redirection stands in the buffer: its `WC_REDIR` word at the recorded
position, and behind it the words that are reserved for it, below `ecused`. -/
def Held (e : Ec) (d : Heredoc) : Prop :=
  ∃ k n : Nat, d.pc = k ∧ e.slots[k]? = some (.head d.id n) ∧ (n = 5 ∨ n = 6) ∧
    (reserved d.id n).Sublist (e.slots.drop (k + 1)) ∧ k + n ≤ e.ecused

/-- No pending here-document but those that a rollback has dropped is misplaced. -/
def DocsHeld (e : Ec) : Prop := ∀ d ∈ e.hdocs, d.id ∈ e.lost ∨ Held e d

theorem Inv.docsHeld {e : Ec} (h : Inv e) : DocsHeld e := by
  intro d hd
  rcases h.kept d hd with lost | ⟨n, hn⟩
  · exact .inl lost
  · obtain ⟨k, hk⟩ := List.mem_iff_getElem?.mp hn
    have size := (h.heads d.id n hn).2
    have behind := whole_sublist h.whole hk
    have length := behind.length_le
    unfold reserved at length
    rw [List.length_map, List.length_range, List.length_drop, Fits.length_slots h.fits] at length
    have used := (List.getElem?_eq_some_iff.mp hk).1
    rw [Fits.length_slots h.fits] at used
    exact .inr ⟨k, n, h.placed d hd k n hk, hk, size, behind, by omega⟩

section Steps

variable {l m : List Slot} {hdocs : List Heredoc} {p : Nat}

/-- `ecadjusthere` -/
def adjust (hdocs : List Heredoc) (p : Nat) (d : Int) : List Heredoc :=
  hdocs.map fun h => if (p : Int) ≤ h.pc then { h with pc := h.pc + d } else h

theorem mem_adjust {d : Heredoc} {δ : Int} (h : d ∈ adjust hdocs p δ) : ∃ d' ∈ hdocs, d.id = d'.id ∧
    d.pc = if (p : Int) ≤ d'.pc then d'.pc + δ else d'.pc := by
  obtain ⟨d', hd', rfl⟩ := List.mem_map.mp h
  refine ⟨d', hd', ?_⟩
  split
  · exact ⟨rfl, rfl⟩
  · exact ⟨rfl, rfl⟩

theorem mem_insertAt {α : Type} {s : α} {l m : List α} {p : Nat} :
    s ∈ insertAt l p m ↔ s ∈ l ∨ s ∈ m := by
  have split := List.take_append_drop p l
  unfold insertAt
  rw [List.mem_append, List.mem_append]
  constructor
  · rintro ((h | h) | h)
    · exact .inl (List.mem_of_mem_take h)
    · exact .inr h
    · exact .inl (List.mem_of_mem_drop h)
  · rintro (h | h)
    · rw [← split, List.mem_append] at h
      rcases h with h | h
      · exact .inl (.inl h)
      · exact .inr h
    · exact .inl (.inr h)

theorem placed_insert (hp : p ≤ l.length) (h : Placed hdocs l)
    (hm : ∀ d ∈ hdocs, ∀ n, .head d.id n ∉ m) :
    Placed (adjust hdocs p m.length) (insertAt l p m) := by
  intro d hd k n hk
  obtain ⟨d', hd', hid, hpc⟩ := mem_adjust hd
  rw [hid] at hk
  rw [getElem?_insertAt hp] at hk
  split at hk
  · have old := h d' hd' k n hk
    rw [hpc, if_neg (by omega), old]
  · split at hk
    · exact absurd (List.mem_of_getElem? hk) (hm d' hd' n)
    · have old := h d' hd' _ n hk
      rw [hpc, if_pos (by omega), old]
      omega

theorem placed_delete (h : Placed hdocs l) (p : Nat) :
    Placed (adjust hdocs p (-1)) (l.eraseIdx p) := by
  intro d hd k n hk
  obtain ⟨d', hd', hid, hpc⟩ := mem_adjust hd
  rw [hid, List.getElem?_eraseIdx] at hk
  split at hk
  · have old := h d' hd' k n hk
    rw [hpc, if_neg (by omega), old]
  · have old := h d' hd' (k + 1) n hk
    rw [hpc, if_pos (by omega), old]
    omega

theorem placed_take (h : Placed hdocs l) (o : Nat) : Placed hdocs (l.take o) := by
  intro d hd k n hk
  rw [List.getElem?_take] at hk
  split at hk
  · exact h d hd k n hk
  · cases hk

theorem mem_heads {id : Nat} : id ∈ Ec.heads l ↔ ∃ n, .head id n ∈ l := by
  unfold Ec.heads
  rw [List.mem_filterMap]
  constructor
  · rintro ⟨s, hs, hid⟩
    cases s with
    | plain => cases hid
    | tail id' j => cases hid
    | head id' n =>
      cases hid
      exact ⟨n, hs⟩
  · rintro ⟨n, hn⟩
    exact ⟨.head id n, hn, rfl⟩

end Steps

section Calls

variable {e : Ec} {u p n o : Nat}

/-- The calls that a production makes which has found `u` words in use. -/
def Allowed (u : Nat) (e : Ec) : Call → Prop
  | .ecispace p _ => u ≤ p ∧ p ≤ e.ecused
  | .heredoc r _ _ _ _ => u ≤ r ∧ r ≤ e.ecused
  | .ecdel p => u ≤ p ∧ e.slots[p]? = some .plain
  | .yyerror o => u ≤ o ∧ o ≤ e.ecused ∧ Whole (e.slots.take o)
  | .unadd o => u ≤ o ∧ o ≤ e.ecused ∧ ∀ s ∈ e.slots.drop o, s = .plain
  | .setheredoc _ _ _ => e.lost = []
  | _ => True

theorem ecispace_fields (e : Ec) (p n : Nat) : (e.ecispace p n).hdocs = adjust e.hdocs p n ∧
    (e.ecispace p n).made = e.made ∧ (e.ecispace p n).lost = e.lost ∧
    (e.ecispace p n).ecused = e.ecused + n := by
  unfold Ec.ecispace Ec.grow
  split
  · exact ⟨rfl, rfl, rfl, rfl⟩
  · exact ⟨rfl, rfl, rfl, rfl⟩

theorem ecadd_fields (e : Ec) (c : wordcode) : (e.ecadd c).hdocs = e.hdocs ∧
    (e.ecadd c).made = e.made ∧ (e.ecadd c).lost = e.lost ∧ (e.ecadd c).ecused = e.ecused + 1 := by
  unfold Ec.ecadd Ec.grow
  split
  · exact ⟨rfl, rfl, rfl, rfl⟩
  · exact ⟨rfl, rfl, rfl, rfl⟩

theorem heredoc_fields (e : Ec) (r : Nat) (htype fd1 : wordcode) (id : Option wordcode) (str : Str) :
    (e.heredoc r htype fd1 id str).hdocs =
        adjust e.hdocs r (ncodes id) ++ [⟨e.made, htype, r, str⟩] ∧
      (e.heredoc r htype fd1 id str).made = e.made + 1 ∧
      (e.heredoc r htype fd1 id str).lost = e.lost ∧
      (e.heredoc r htype fd1 id str).ecused = e.ecused + ncodes id := by
  obtain ⟨hdocs, made, lost, used⟩ := ecispace_fields e r (ncodes id)
  have made' := made_opened e r htype fd1 id
  unfold Ec.heredoc
  dsimp only
  rw [made']
  unfold Ec.reserve Ec.openHeredoc
  cases id with
  | none => exact ⟨congrArg (· ++ _) hdocs, congrArg (· + 1) made, lost, used⟩
  | some coded => exact ⟨congrArg (· ++ _) hdocs, congrArg (· + 1) made, lost, used⟩

theorem lost_exec {c : Call} (hc : ∀ o, c ≠ .yyerror o) : (exec e c).lost = e.lost := by
  cases c with
  | ecadd c => exact (ecadd_fields e c).2.2.1
  | ecispace p n => exact (ecispace_fields e p n).2.2.1
  | heredoc r htype fd1 id str => exact (heredoc_fields e r htype fd1 id str).2.2.1
  | yyerror o => exact absurd rfl (hc o)
  | setheredoc doc term munged =>
    change (e.setheredoc doc term munged).lost = e.lost
    unfold Ec.setheredoc
    cases e.hdocs with
    | nil => rfl
    | cons h rest => rfl
  | ecdel | patch | unadd | clear_hdocs => rfl

theorem fits_patch (h : e.Fits) (p : Nat) (c : wordcode) : (e.patch p c).Fits := by
  refine ⟨h.used, ?_⟩
  change e.eclen ≤ (e.ecbuf.modify p _).length
  rw [List.length_modify]
  exact h.len

theorem fits_heredoc (h : e.Fits) (r : Nat) (htype fd1 : wordcode) (id : Option wordcode) (str : Str) :
    (e.heredoc r htype fd1 id str).Fits := by
  have opened : (e.openHeredoc r htype fd1 id).Fits := by
    have space := Ec.fits_ecispace h r (ncodes id)
    unfold Ec.openHeredoc
    cases id with
    | none => exact fits_patch (fits_patch space _ _) _ _
    | some coded => exact fits_patch (fits_patch (fits_patch space _ _) _ _) _ _
  refine ⟨opened.used, ?_⟩
  change (e.openHeredoc r htype fd1 id).eclen ≤
    ((e.openHeredoc r htype fd1 id).ecbuf.mapIdx _).length
  rw [List.length_mapIdx]
  exact opened.len

/-- Words that are not those of a here-document are put in. -/
theorem Inv.ecispace (h : Inv e) (hp : p ≤ e.ecused) (n : Nat) : Inv (e.ecispace p n) := by
  obtain ⟨hdocs, made, lost, -⟩ := ecispace_fields e p n
  have length := Fits.length_slots h.fits
  have slots := slots_ecispace h.fits hp n
  have new (id k : Nat) : Slot.head id k ∉ List.replicate n Slot.plain := by
    intro hmem
    cases List.eq_of_mem_replicate hmem
  constructor
  · exact Ec.fits_ecispace h.fits p n
  · rw [slots]
    unfold insertAt
    rw [List.append_assoc]
    apply whole_insert
    · rw [List.take_append_drop]
      exact h.whole
    · exact fun b hb => whole_plain n hb
  · intro id k hk
    rw [slots, mem_insertAt] at hk
    rw [made]
    rcases hk with hk | hk
    · exact h.heads id k hk
    · exact absurd hk (new id k)
  · intro d hd
    rw [hdocs] at hd
    obtain ⟨d', hd', hid, -⟩ := mem_adjust hd
    rw [hid, made]
    exact h.docs d' hd'
  · intro d hd
    rw [hdocs] at hd
    obtain ⟨d', hd', hid, -⟩ := mem_adjust hd
    rw [hid, lost, slots]
    rcases h.kept d' hd' with gone | ⟨k, hk⟩
    · exact .inl gone
    · exact .inr ⟨k, mem_insertAt.mpr (.inl hk)⟩
  · rw [hdocs, slots]
    have placed := @placed_insert e.slots (List.replicate n .plain) e.hdocs p (by omega) h.placed
      fun d _ k => new d.id k
    rwa [List.length_replicate] at placed

theorem Inv.heredoc (h : Inv e) {r : Nat} (hr : r ≤ e.ecused) (htype fd1 : wordcode)
    (id : Option wordcode) (str : Str) : Inv (e.heredoc r htype fd1 id str) := by
  obtain ⟨hdocs, made, lost, -⟩ := heredoc_fields e r htype fd1 id str
  have length := Fits.length_slots h.fits
  have slots := slots_heredoc h.fits hr htype fd1 id str
  have size : ncodes id = 5 ∨ ncodes id = 6 := by
    unfold ncodes
    split
    · exact .inr rfl
    · exact .inl rfl
  have places : (Slot.head e.made (ncodes id) :: reserved e.made (ncodes id)).length = ncodes id := by
    have hn := ncodes_pos id
    unfold reserved
    rw [List.length_cons, List.length_map, List.length_range]
    omega
  have new (i k : Nat) (hk : Slot.head i k ∈ Slot.head e.made (ncodes id) :: reserved e.made (ncodes id)) :
      i = e.made ∧ k = ncodes id := by
    rcases List.mem_cons.mp hk with hk | hk
    · cases hk
      exact ⟨rfl, rfl⟩
    · obtain ⟨j, -, hj⟩ := List.mem_map.mp hk
      cases hj
  constructor
  · exact fits_heredoc h.fits r htype fd1 id str
  · rw [slots]
    unfold insertAt
    rw [List.append_assoc]
    apply whole_insert
    · rw [List.take_append_drop]
      exact h.whole
    · exact fun b hb => whole_heredoc e.made (ncodes id) hb
  · intro i k hk
    rw [slots, mem_insertAt] at hk
    rw [made]
    rcases hk with hk | hk
    · exact ⟨Nat.lt_succ_of_lt (h.heads i k hk).1, (h.heads i k hk).2⟩
    · obtain ⟨rfl, rfl⟩ := new i k hk
      exact ⟨Nat.lt_succ_self _, size⟩
  · intro d hd
    rw [hdocs, List.mem_append, List.mem_singleton] at hd
    rw [made]
    rcases hd with hd | rfl
    · obtain ⟨d', hd', hid, -⟩ := mem_adjust hd
      rw [hid]
      exact Nat.lt_succ_of_lt (h.docs d' hd')
    · exact Nat.lt_succ_self _
  · intro d hd
    rw [hdocs, List.mem_append, List.mem_singleton] at hd
    rw [lost, slots]
    rcases hd with hd | rfl
    · obtain ⟨d', hd', hid, -⟩ := mem_adjust hd
      rw [hid]
      rcases h.kept d' hd' with gone | ⟨k, hk⟩
      · exact .inl gone
      · exact .inr ⟨k, mem_insertAt.mpr (.inl hk)⟩
    · exact .inr ⟨ncodes id, mem_insertAt.mpr (.inr List.mem_cons_self)⟩
  · rw [hdocs, slots]
    intro d hd k n hk
    rw [List.mem_append, List.mem_singleton] at hd
    rcases hd with hd | rfl
    · have placed := @placed_insert e.slots (.head e.made (ncodes id) :: reserved e.made (ncodes id))
        e.hdocs r (by omega) h.placed
        fun d hd k hk => absurd (new d.id k hk).1 (Nat.ne_of_lt (h.docs d hd))
      rw [places] at placed
      exact placed d hd k n hk
    · rw [getElem?_insertAt (by omega), places] at hk
      have fresh (k n : Nat) : e.slots[k]? ≠ some (.head e.made n) := by
        intro hk
        exact absurd (h.heads e.made n (List.mem_of_getElem? hk)).1 (Nat.lt_irrefl _)
      split at hk
      · exact absurd hk (fresh k n)
      · split at hk
        · rw [getElem?_places (ncodes_pos id) (by omega)] at hk
          by_cases hself : k - r = 0
          · change (r : Int) = k
            omega
          · rw [if_neg hself] at hk
            cases hk
        · exact absurd hk (fresh _ n)

theorem Inv.ecadd (h : Inv e) (c : wordcode) : Inv (e.ecadd c) := by
  obtain ⟨hdocs, made, lost, -⟩ := ecadd_fields e c
  have slots := slots_ecadd h.fits c
  have old {id k : Nat} (hk : Slot.head id k ∈ e.slots ++ [.plain]) : .head id k ∈ e.slots := by
    rcases List.mem_append.mp hk with hk | hk
    · exact hk
    · cases List.mem_singleton.mp hk
  constructor
  · exact Ec.fits_ecadd h.fits c
  · rw [slots]
    have whole := h.whole
    rw [← List.append_nil e.slots] at whole
    have added := @whole_insert e.slots [] [.plain] whole fun b hb => hb
    rwa [List.append_nil] at added
  · intro id k hk
    rw [slots] at hk
    rw [made]
    exact h.heads id k (old hk)
  · rw [hdocs, made]
    exact h.docs
  · rw [hdocs, lost, slots]
    intro d hd
    rcases h.kept d hd with gone | ⟨k, hk⟩
    · exact .inl gone
    · exact .inr ⟨k, List.mem_append_left _ hk⟩
  · rw [hdocs, slots]
    intro d hd k n hk
    rw [List.getElem?_append] at hk
    split at hk
    · exact h.placed d hd k n hk
    · cases List.mem_singleton.mp (List.mem_of_getElem? hk)

/-- The slots, the list and the counters are the same. -/
theorem Inv.congr {e' : Ec} (h : Inv e) (fits : e'.Fits) (slots : e'.slots = e.slots)
    (hdocs : ∀ d ∈ e'.hdocs, d ∈ e.hdocs) (made : e'.made = e.made) (lost : e'.lost = e.lost) :
    Inv e' where
  fits := fits
  whole := slots ▸ h.whole
  heads := by
    rw [slots, made]
    exact h.heads
  docs := by
    rw [made]
    exact fun d hd => h.docs d (hdocs d hd)
  kept := by
    rw [slots, lost]
    exact fun d hd => h.kept d (hdocs d hd)
  placed := by
    rw [slots]
    exact fun d hd => h.placed d (hdocs d hd)

theorem Inv.patch (h : Inv e) (p : Nat) (c : wordcode) : Inv (e.patch p c) :=
  h.congr (fits_patch h.fits p c) (slots_patch p c) (fun _ hd => hd) rfl rfl

theorem Inv.setheredoc (h : Inv e) (doc term munged : wordcode) : Inv (e.setheredoc doc term munged) := by
  unfold Ec.setheredoc
  cases hh : e.hdocs with
  | nil => exact h
  | cons d rest =>
    dsimp only
    have patched := (((h.patch d.pc.toNat (WCB_REDIR (REDIR_HERESTR ||| REDIR_FROM_HEREDOC_MASK |||
      if WC_REDIR_VARID (e.word d.pc.toNat) ≠ 0 then REDIR_VARID_MASK else 0))).patch
      (d.pc.toNat + 2) doc).patch (d.pc.toNat + 3) term).patch (d.pc.toNat + 4) munged
    apply patched.congr
    · exact ⟨patched.fits.used, patched.fits.len⟩
    · rfl
    · intro d' hd'
      change d' ∈ e.hdocs
      rw [hh]
      exact List.mem_cons_of_mem _ hd'
    · rfl
    · rfl

theorem Inv.ecdel (h : Inv e) (hp : e.slots[p]? = some .plain) : Inv (e.ecdel p) := by
  have used := (List.getElem?_eq_some_iff.mp hp).1
  rw [Fits.length_slots h.fits] at used
  have slots := slots_ecdel h.fits used
  have split : e.slots = e.slots.take p ++ .plain :: e.slots.drop (p + 1) := by
    rw [← List.getElem?_eq_some_iff.mp hp |>.2]
    rw [List.getElem_cons_drop, List.take_append_drop]
  have mem {s : Slot} (hs : s ∈ e.slots) : s = .plain ∨ s ∈ e.slots.eraseIdx p := by
    rw [List.eraseIdx_eq_take_drop_succ, List.mem_append]
    rw [split, List.mem_append, List.mem_cons] at hs
    rcases hs with hs | hs | hs
    · exact .inr (.inl hs)
    · exact .inl hs
    · exact .inr (.inr hs)
  constructor
  · exact Ec.fits_ecdel h.fits p
  · rw [slots, List.eraseIdx_eq_take_drop_succ]
    have whole := h.whole
    rw [split] at whole
    exact whole_delete whole
  · intro id k hk
    rw [slots] at hk
    exact h.heads id k (List.mem_of_mem_eraseIdx hk)
  · intro d hd
    obtain ⟨d', hd', hid, -⟩ := mem_adjust hd
    rw [hid]
    exact h.docs d' hd'
  · intro d hd
    obtain ⟨d', hd', hid, -⟩ := mem_adjust hd
    rw [hid, slots]
    rcases h.kept d' hd' with gone | ⟨k, hk⟩
    · exact .inl gone
    · rcases mem hk with hs | hs
      · cases hs
      · exact .inr ⟨k, hs⟩
  · rw [slots]
    exact placed_delete h.placed p

/-- The words from `o` on are dropped. -/
theorem Inv.take {e' : Ec} (h : Inv e) (fits : e'.Fits) (slots : e'.slots = e.slots.take o)
    (whole : Whole (e.slots.take o)) (hdocs : e'.hdocs = e.hdocs) (made : e'.made = e.made)
    (lost : ∀ id ∈ e.lost, id ∈ e'.lost)
    (dropped : ∀ id n, .head id n ∈ e.slots.drop o → id ∈ e'.lost) : Inv e' where
  fits := fits
  whole := slots ▸ whole
  heads := by
    rw [slots, made]
    exact fun id k hk => h.heads id k (List.mem_of_mem_take hk)
  docs := by
    rw [hdocs, made]
    exact h.docs
  kept := by
    rw [hdocs, slots]
    intro d hd
    rcases h.kept d hd with gone | ⟨k, hk⟩
    · exact .inl (lost d.id gone)
    · rw [← List.take_append_drop o e.slots, List.mem_append] at hk
      rcases hk with hk | hk
      · exact .inr ⟨k, hk⟩
      · exact .inl (dropped d.id k hk)
  placed := by
    rw [hdocs, slots]
    exact placed_take h.placed o

theorem Inv.rollback (h : Inv e) (ho : o ≤ e.ecused) (whole : Whole (e.slots.take o)) :
    Inv (e.rollback o) := by
  have fits : (e.rollback o).Fits := ⟨Nat.le_trans ho h.fits.used, h.fits.len⟩
  apply h.take fits (slots_rollback ho) whole rfl rfl
  · exact fun id hid => List.mem_append_left _ hid
  · exact fun id n hn => List.mem_append_right _ (mem_heads.mpr ⟨n, hn⟩)

theorem Inv.unadd (h : Inv e) (ho : o ≤ e.ecused) (plain : ∀ s ∈ e.slots.drop o, s = .plain) :
    Inv (e.unadd o) := by
  have whole := h.whole
  rw [← List.take_append_drop o e.slots] at whole
  have fits : (e.unadd o).Fits := ⟨Nat.le_trans ho h.fits.used, h.fits.len⟩
  apply h.take fits (slots_rollback ho) (whole_cut whole plain) rfl rfl
  · exact fun id hid => hid
  · intro id n hn
    cases plain _ hn

theorem Inv.exec {c : Call} (h : Inv e) (ok : Allowed u e c) : Inv (exec e c) := by
  cases c with
  | ecadd c => exact h.ecadd c
  | ecispace p n => exact h.ecispace ok.2 n
  | ecdel p => exact h.ecdel ok.2
  | heredoc r htype fd1 id str => exact h.heredoc ok.2 htype fd1 id str
  | patch p c => exact h.patch p c
  | yyerror o => exact h.rollback ok.2.1 ok.2.2
  | unadd o => exact h.unadd ok.2.1 ok.2.2
  | setheredoc doc term munged => exact h.setheredoc doc term munged
  | clear_hdocs =>
    have fits : ({ e with hdocs := [] } : Ec).Fits := ⟨h.fits.used, h.fits.len⟩
    apply h.congr fits rfl ?_ rfl rfl
    intro d hd
    cases hd

/-- The state of a production that has found `u` words in use. -/
structure Ready (u : Nat) (e : Ec) : Prop where
  inv : Inv e
  used : u ≤ e.ecused
  whole : Whole (e.slots.take u)

theorem take_insertAt {α : Type} {l m : List α} (h : u ≤ p) (hp : p ≤ l.length) :
    (insertAt l p m).take u = l.take u := by
  apply List.ext_getElem?
  intro k
  rw [List.getElem?_take, List.getElem?_take]
  split
  · rw [getElem?_insertAt hp, if_pos (by omega)]
  · rfl

/-- The words that the production has found stay, whatever it calls. -/
theorem Ready.exec {c : Call} (h : Ready u e) (ok : Allowed u e c) :
    Ready u (exec e c) ∧ (exec e c).slots.take u = e.slots.take u := by
  have length := Fits.length_slots h.inv.fits
  have hu := h.used
  have kept : u ≤ (Wordcode.exec e c).ecused ∧
      (Wordcode.exec e c).slots.take u = e.slots.take u := by
    cases c with
    | ecadd c =>
      obtain ⟨-, -, -, used⟩ := ecadd_fields e c
      refine ⟨by change u ≤ (e.ecadd c).ecused; omega, ?_⟩
      change (e.ecadd c).slots.take u = _
      rw [slots_ecadd h.inv.fits, List.take_append_of_le_length (by omega)]
    | ecispace p n =>
      obtain ⟨-, -, -, used⟩ := ecispace_fields e p n
      refine ⟨by change u ≤ (e.ecispace p n).ecused; omega, ?_⟩
      change (e.ecispace p n).slots.take u = _
      rw [slots_ecispace h.inv.fits ok.2, take_insertAt ok.1 (by have := ok.2; omega)]
    | ecdel p =>
      have used := (List.getElem?_eq_some_iff.mp ok.2).1
      have hp := ok.1
      refine ⟨by change u ≤ e.ecused - 1; omega, ?_⟩
      change (e.ecdel p).slots.take u = _
      rw [slots_ecdel h.inv.fits (by omega)]
      apply List.ext_getElem?
      intro k
      rw [List.getElem?_take, List.getElem?_take]
      split
      · rw [List.getElem?_eraseIdx, if_pos (by omega)]
      · rfl
    | heredoc r htype fd1 id str =>
      obtain ⟨-, -, -, used⟩ := heredoc_fields e r htype fd1 id str
      refine ⟨by change u ≤ (e.heredoc r htype fd1 id str).ecused; omega, ?_⟩
      change (e.heredoc r htype fd1 id str).slots.take u = _
      rw [slots_heredoc h.inv.fits ok.2, take_insertAt ok.1 (by have := ok.2; omega)]
    | patch p c => exact ⟨hu, congrArg (List.take u) (slots_patch p c)⟩
    | yyerror o =>
      refine ⟨ok.1, ?_⟩
      change (e.rollback o).slots.take u = _
      rw [slots_rollback ok.2.1, List.take_take, Nat.min_eq_left ok.1]
    | unadd o =>
      refine ⟨ok.1, ?_⟩
      have slots : (e.unadd o).slots = e.slots.take o := slots_rollback ok.2.1
      change (e.unadd o).slots.take u = _
      rw [slots, List.take_take, Nat.min_eq_left ok.1]
    | setheredoc doc term munged =>
      change u ≤ (e.setheredoc doc term munged).ecused ∧
        (e.setheredoc doc term munged).slots.take u = _
      unfold Ec.setheredoc
      cases e.hdocs with
      | nil => exact ⟨hu, rfl⟩
      | cons d rest =>
        refine ⟨hu, congrArg (List.take u) ?_⟩
        change ((((e.patch _ _).patch _ _).patch _ _).patch _ _).slots = _
        rw [slots_patch, slots_patch, slots_patch, slots_patch]
    | clear_hdocs => exact ⟨hu, rfl⟩
  exact ⟨⟨h.inv.exec ok, kept.1, kept.2.symm ▸ h.whole⟩, kept.2⟩

end Calls

end Zshrs.Parse.Wordcode
