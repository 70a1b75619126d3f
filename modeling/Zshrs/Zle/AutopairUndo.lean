import Zshrs.Zle.Autopair

namespace Zshrs.Zle.Autopair

section Counts

variable {c ch k : Char} {s : Text}

theorem unescaped_cons (hc : c ≠ '\\') (ch : Char) (s : Text) : unescaped ch (c :: s) = c :: unescaped ch s := by
  cases s with
  | nil => rfl
  | cons d s => rw [unescaped, if_neg fun h => hc h.1]

theorem count_front (hc : c ≠ '\\') (s : Text) (ch : Char) :
    unescaped_count (c :: s) ch = unescaped_count s ch + if c = ch then 1 else 0 := by
  rw [unescaped_count, unescaped_cons hc, List.countP_cons]
  simp only [decide_eq_true_eq]
  rfl

theorem count_back (hch : ch ≠ '\\') (s : Text) (k : Char) :
    unescaped_count (s ++ [k]) ch =
      unescaped_count s ch + if k = ch ∧ s.getLast? ≠ some '\\' then 1 else 0 := by
  unfold unescaped_count
  induction s using unescaped.induct ch with
  | case1 => simp [unescaped, List.countP_cons]
  | case2 c =>
      by_cases hc : c = '\\'
      · by_cases hk : k = ch
        · simp [unescaped, hc, hk, Ne.symm hch]
        · simp [unescaped, hc, hk, Ne.symm hch]
      · simp [unescaped, hc, List.countP_cons, Nat.add_comm]
  | case3 c d cs h ih =>
      have hlast : (c :: d :: cs).getLast? = some '\\' ↔ cs.getLast? = some '\\' := by
        cases cs with
        | nil => simp [h.2, hch]
        | cons e cs => simp [List.getLast?_cons_cons]
      have hcons : c :: d :: cs ++ [k] = c :: d :: (cs ++ [k]) := rfl
      rw [hcons, unescaped, if_pos h, ih, unescaped, if_pos h]
      simp only [ne_eq, hlast]
  | case4 c d cs h ih =>
      have hlast : (c :: d :: cs).getLast? = (d :: cs).getLast? := List.getLast?_cons_cons
      have hcons : c :: d :: cs ++ [k] = c :: d :: (cs ++ [k]) := rfl
      have hcons' : d :: (cs ++ [k]) = d :: cs ++ [k] := rfl
      rw [hcons, unescaped, if_neg h, hcons', List.countP_cons, ih, unescaped, if_neg h, List.countP_cons, hlast]
      omega

/-- A pair of one character is balanced where the character counts to an even number. -/
theorem balanced_same (hk : k ≠ ' ') (l r : Text) :
    balanced_p k k l r = true ↔ (unescaped_count l k + unescaped_count r k) % 2 = 0 := by
  unfold balanced_p
  dsimp only
  by_cases hzero : unescaped_count r k = 0 ∧ unescaped_count l k = 0
  · rw [if_pos hzero, hzero.1, hzero.2]
    exact iff_of_true rfl rfl
  · rw [if_neg hzero, if_pos rfl, if_neg hk, Bool.or_eq_true, decide_eq_true_iff, decide_eq_true_iff]
    constructor
    · rintro (h | h)
      · omega
      · exact h
    · exact .inr

end Counts

section Decisions

variable {rx : Regex} {cfg : AutopairConfig} {k c : Char} {l r : Text}

theorem pair_of_decide (h : decide rx cfg .self_insert (some k) l r = .InsertPair k c) :
    cfg.get_pair_by_open k = some c ∧ can_pair_p rx cfg k l r = true := by
  unfold decide at h
  dsimp only at h
  split at h
  · next rchar hopen =>
    split at h
    · cases h
    · split at h
      · next hpair =>
        cases h
        exact ⟨hopen, hpair⟩
      · cases h
  · split at h
    · split at h
      · cases h
      · cases h
    · cases h

theorem mem_of_open (h : cfg.get_pair_by_open k = some c) : (k, c) ∈ cfg.pairs := by
  obtain ⟨p, hp, rfl⟩ := Option.map_eq_some_iff.mp h
  have hk : p.1 = k := by simpa using List.find?_some hp
  rw [← hk]
  exact List.mem_of_find?_eq_some hp

theorem open_of_mem (h : (k, c) ∈ cfg.pairs) : cfg.get_pair_by_open k ≠ none := by
  intro hnone
  rw [AutopairConfig.get_pair_by_open, Option.map_eq_none_iff, List.find?_eq_none] at hnone
  exact hnone (k, c) h (decide_eq_true rfl)

/-- The closer of a pair is found again, with an opener that is not itself unless it opens a pair. -/
theorem close_of_open (h : cfg.get_pair_by_open k = some c) (hc : cfg.get_pair_by_open c = none) :
    ∃ o, cfg.get_pair_by_close c = some o ∧ o ≠ c := by
  cases ho : cfg.get_pair_by_close c with
  | none =>
      rw [AutopairConfig.get_pair_by_close, Option.map_eq_none_iff, List.find?_eq_none] at ho
      exact absurd (decide_eq_true rfl) (ho (k, c) (mem_of_open h))
  | some o =>
      refine ⟨o, rfl, ?_⟩
      rintro rfl
      obtain ⟨p, hp, hpo⟩ := Option.map_eq_some_iff.mp ho
      have hclose : p.2 = o := by simpa using List.find?_some hp
      have hmem : (o, o) ∈ cfg.pairs := by
        have heq : p = (o, o) := Prod.ext hpo hclose
        rw [← heq]
        exact List.mem_of_find?_eq_some hp
      exact open_of_mem hmem hc

theorem can_delete_iff (h : cfg.get_pair_by_open k = some c) :
    can_delete_p rx cfg (l ++ [k]) (c :: r) = true ↔
      (k = c → if k = ' ' then cached_regex_matches rx SPACES_LEFT (l ++ [k]) = false ∧
          cached_regex_matches rx SPACES_RIGHT (c :: r) = false
        else balanced_p k k (l ++ [k]) (c :: r) = true) := by
  unfold can_delete_p
  rw [List.getLast?_concat]
  dsimp only
  rw [h, List.head?_cons]
  dsimp only
  rw [if_neg fun hne => hne rfl]
  by_cases hkc : k = c
  · subst hkc
    rw [if_pos rfl]
    by_cases hsp : k = ' '
    · rw [if_pos hsp, if_pos hsp, Bool.not_eq_true', Bool.or_eq_false_iff]
      exact ⟨fun hr _ => hr, fun hr => hr rfl⟩
    · rw [if_neg hsp, if_neg hsp]
      exact ⟨fun hr _ => hr, fun hr => hr rfl⟩
  · rw [if_neg hkc]
    exact iff_of_true rfl fun heq => absurd heq hkc

theorem can_skip_iff (o : Char) : can_skip_p (some o) (some c) (l ++ [k]) (c :: r) = true ↔
    (o = c → c ≠ ' ' ∧ balanced_p c c (l ++ [k]) (c :: r) = true) ∧ k ≠ '\\' := by
  have hne : l ++ [k] ≠ [] := List.append_ne_nil_of_right_ne_nil l (List.cons_ne_nil k [])
  unfold can_skip_p
  dsimp only
  rw [if_neg hne, List.getLast?_concat, List.head?_cons]
  by_cases ho : o = c
  · by_cases hb : c = ' ' ∨ (!balanced_p c c (l ++ [k]) (c :: r)) = true
    · rw [if_pos ⟨congrArg some ho, hb⟩]
      refine iff_of_false Bool.false_ne_true fun h => ?_
      obtain ⟨hsp, hbal⟩ := h.1 ho
      obtain hb | hb := hb
      · exact hsp hb
      · rw [hbal] at hb
        cases hb
    · rw [if_neg fun h => hb h.2]
      rw [not_or, Bool.not_eq_true', Bool.not_eq_false] at hb
      simp [ho, hb]
  · rw [if_neg fun h => ho (Option.some.inj h.1)]
    simp [ho]

theorem closer_skipped_iff (h : cfg.get_pair_by_open k = some c) :
    decide rx cfg .self_insert (some c) (l ++ [k]) (c :: r) = .SkipOver ↔ k ≠ '\\' ∧
      (cfg.get_pair_by_open c = none ∨ is_quote c = true ∧ cfg.get_pair_by_open c = some c ∧
        balanced_p c c (l ++ [k]) (c :: r) = true) := by
  cases hc : cfg.get_pair_by_open c with
  | none =>
      obtain ⟨o, ho, hoc⟩ := close_of_open h hc
      have hskip := @can_skip_iff k c l r o
      unfold decide
      dsimp only
      rw [hc, ho]
      dsimp only
      by_cases hs : can_skip_p (some o) (some c) (l ++ [k]) (c :: r) = true
      · rw [if_pos hs]
        exact iff_of_true rfl ⟨(hskip.mp hs).2, .inl rfl⟩
      · rw [if_neg hs]
        refine iff_of_false (fun heq => by cases heq) fun hr => hs (hskip.mpr ⟨fun heq => absurd heq hoc, hr.1⟩)
  | some d =>
      unfold decide
      dsimp only
      rw [hc]
      dsimp only
      constructor
      · intro hskip
        split at hskip
        · next hs =>
          rw [Bool.and_eq_true, Bool.or_eq_true, decide_eq_true_iff] at hs
          obtain ⟨hquote, hs⟩ := hs
          have hd : d = c := by
            unfold can_skip_p at hs
            dsimp only at hs
            split at hs
            · cases hs
            · split at hs
              · cases hs
              · rw [Bool.and_eq_true, decide_eq_true_iff] at hs
                exact (Option.some.inj hs.1).symm
          subst hd
          obtain ⟨hbal, hk⟩ := can_skip_iff d |>.mp hs
          exact ⟨hk, .inr ⟨hquote.resolve_right (hbal rfl).1, rfl, (hbal rfl).2⟩⟩
        · split at hskip
          · cases hskip
          · cases hskip
      · rintro ⟨hk, hnone | ⟨hquote, hd, hbal⟩⟩
        · cases hnone
        · cases hd
          have hsp : c ≠ ' ' := by
            rintro rfl
            cases hquote
          rw [if_pos]
          rw [hquote, Bool.true_or, Bool.true_and]
          exact can_skip_iff c |>.mpr ⟨fun _ => ⟨hsp, hbal⟩, hk⟩

theorem balanced_of_backslash (hpair : can_pair_p rx cfg k l r = true) (hopen : cfg.get_pair_by_open k = some k)
    (hk : k ≠ ' ') (hl : l.getLast? = some '\\') : (unescaped_count l k + unescaped_count r k) % 2 = 0 := by
  have hforced : forced cfg l r = false := by
    rw [forced, hl]
    simp [is_blank]
  unfold can_pair_p at hpair
  rw [hopen] at hpair
  dsimp only at hpair
  rw [if_pos hk, hforced, Bool.false_or, Bool.and_eq_true] at hpair
  exact (balanced_same hk l r).mp hpair.1

/-- A quote that was typed as a pair leaves the buffer balanced unless a backslash or an odd quote was there. -/
theorem balanced_after (hpair : can_pair_p rx cfg k l r = true) (hopen : cfg.get_pair_by_open k = some k)
    (hquote : is_quote k = true) : balanced_p k k (l ++ [k]) (k :: r) = true ↔
      l.getLast? ≠ some '\\' ∧ (unescaped_count l k + unescaped_count r k) % 2 = 0 := by
  have hslash : k ≠ '\\' := by
    rintro rfl
    cases hquote
  have hsp : k ≠ ' ' := by
    rintro rfl
    cases hquote
  rw [balanced_same hsp, count_back hslash, count_front hslash, if_pos rfl]
  by_cases hl : l.getLast? = some '\\'
  · have hbefore := balanced_of_backslash hpair hopen hsp hl
    rw [if_neg fun h => h.2 hl]
    exact iff_of_false (by omega) fun h => h.1 hl
  · rw [if_pos ⟨rfl, hl⟩]
    constructor
    · intro h
      exact ⟨hl, by omega⟩
    · rintro ⟨-, h⟩
      omega

end Decisions

section Undone

variable (rx : Regex) (cfg : AutopairConfig) (k c : Char) (l r : Text)

/-- After a pair was typed, a backspace takes it away, and its closer moves behind it. -/
def Undone : Prop :=
  let buf := typed (.InsertPair k c) k (l, r)
  (∀ w ∈ [Widget.backward_delete_char, .vi_backward_delete_char], ∀ key,
    decide rx cfg w key buf.1 buf.2 = .DeleteRightThenPassthrough ∧
      erased (decide rx cfg w key buf.1 buf.2) buf = (l, r)) ∧
  (k ≠ ' ' → decide rx cfg .self_insert (some c) buf.1 buf.2 = .SkipOver ∧
    typed (decide rx cfg .self_insert (some c) buf.1 buf.2) c buf = (l ++ [k, c], r))

/-- Spaces are undone in front of and behind delimiters; a quote where no backslash stands in front of it and its
kind counts to an even number; another pair where its closer opens nothing, or is a quote that counts to an odd
number. -/
def Undoable : Prop :=
  if k = ' ' then k = c → cached_regex_matches rx SPACES_LEFT (l ++ [k]) = false ∧
    cached_regex_matches rx SPACES_RIGHT (c :: r) = false
  else if k = c then is_quote k = true ∧ l.getLast? ≠ some '\\' ∧
    (unescaped_count l k + unescaped_count r k) % 2 = 0
  else k ≠ '\\' ∧ (cfg.get_pair_by_open c = none ∨ is_quote c = true ∧ cfg.get_pair_by_open c = some c ∧
    (unescaped_count l c + unescaped_count r c) % 2 = 1)

variable {rx cfg k c l r}

theorem undone_iff : Undone rx cfg k c l r ↔
    can_delete_p rx cfg (l ++ [k]) (c :: r) = true ∧
      (k ≠ ' ' → decide rx cfg .self_insert (some c) (l ++ [k]) (c :: r) = .SkipOver) := by
  have hbuf : typed (.InsertPair k c) k (l, r) = (l ++ [k], c :: r) := rfl
  have herased : erased .DeleteRightThenPassthrough (l ++ [k], c :: r) = (l, r) :=
    Prod.ext List.dropLast_concat rfl
  have htyped : typed .SkipOver c (l ++ [k], c :: r) = (l ++ [k, c], r) :=
    Prod.ext (List.append_assoc l [k] [c]) rfl
  unfold Undone
  rw [hbuf]
  constructor
  · rintro ⟨hdel, hskip⟩
    refine ⟨?_, fun hk => (hskip hk).1⟩
    have h := (hdel .backward_delete_char List.mem_cons_self none).1
    by_contra hnot
    have hpass : decide rx cfg .backward_delete_char none (l ++ [k]) (c :: r) = .Passthrough := if_neg hnot
    rw [hpass] at h
    cases h
  · rintro ⟨hdel, hskip⟩
    refine ⟨fun w hw key => ?_, fun hk => ?_⟩
    · have hact : decide rx cfg w key (l ++ [k]) (c :: r) = .DeleteRightThenPassthrough := by
        simp only [List.mem_cons, List.not_mem_nil, or_false] at hw
        obtain rfl | rfl := hw
        · exact if_pos hdel
        · exact if_pos hdel
      dsimp only
      rw [hact]
      exact ⟨rfl, herased⟩
    · dsimp only
      rw [hskip hk]
      exact ⟨rfl, htyped⟩

theorem pair_undone_iff (h : decide rx cfg .self_insert (some k) l r = .InsertPair k c) :
    Undone rx cfg k c l r ↔ Undoable rx cfg k c l r := by
  obtain ⟨hopen, hpair⟩ := pair_of_decide h
  rw [undone_iff, can_delete_iff hopen, closer_skipped_iff hopen]
  unfold Undoable
  by_cases hsp : k = ' '
  · rw [if_pos hsp, if_pos hsp]
    exact and_iff_left fun hne => absurd hsp hne
  · rw [if_neg hsp, if_neg hsp]
    by_cases hkc : k = c
    · subst hkc
      rw [if_pos rfl, hopen]
      constructor
      · rintro ⟨hbal, hskip⟩
        obtain ⟨-, hnone | ⟨hquote, -, -⟩⟩ := hskip hsp
        · cases hnone
        · exact ⟨hquote, (balanced_after hpair hopen hquote).mp (hbal rfl)⟩
      · rintro ⟨hquote, hl⟩
        have hbal := (balanced_after hpair hopen hquote).mpr hl
        refine ⟨fun _ => hbal, fun _ => ⟨?_, .inr ⟨hquote, rfl, hbal⟩⟩⟩
        rintro rfl
        cases hquote
    · rw [if_neg hkc]
      have hcount (hquote : is_quote c = true) : balanced_p c c (l ++ [k]) (c :: r) = true ↔
          (unescaped_count l c + unescaped_count r c) % 2 = 1 := by
        have hslash : c ≠ '\\' := by
          rintro rfl
          cases hquote
        have hcs : c ≠ ' ' := by
          rintro rfl
          cases hquote
        rw [balanced_same hcs, count_back hslash, count_front hslash, if_neg fun h => hkc h.1, if_pos rfl]
        omega
      constructor
      · rintro ⟨-, hskip⟩
        obtain ⟨hk, hrest⟩ := hskip hsp
        exact ⟨hk, hrest.imp_right fun h => ⟨h.1, h.2.1, (hcount h.1).mp h.2.2⟩⟩
      · rintro ⟨hk, hrest⟩
        exact ⟨fun heq => absurd heq hkc, fun _ => ⟨hk, hrest.imp_right fun h => ⟨h.1, h.2.1, (hcount h.1).mpr h.2.2⟩⟩⟩

/-- A quote behind a word in quotes, in front of another word. -/
theorem quote_undone : Undone (fun _ => some fun _ => false) default_config '\x22' '\x22'
    ['a', ' ', '\x22', 'b', '\x22', ' '] [' ', 'c'] :=
  (pair_undone_iff (by decide)).mpr (by unfold Undoable; decide)

/-- A quote behind a backslash is typed as a pair, and not undone. -/
theorem backslash_kept : ¬ ∀ (rx : Regex) (cfg : AutopairConfig) (k c : Char) (l r : Text),
    (cfg.pairs.map Prod.fst).Nodup → decide rx cfg .self_insert (some k) l r = .InsertPair k c →
      Undone rx cfg k c l r := by
  intro h
  have hundone := h (fun _ => some fun _ => false) default_config '\x22' '\x22' ['\\'] [] (by decide) (by decide)
  exact absurd (hundone.2 (by decide)).1 (by decide)

end Undone

end Zshrs.Zle.Autopair
