import Zshrs.Tparm.Programs
import Zshrs.Tparm.Rounds

namespace Zshrs.Tparm

/-- A character behind `%` at which neither scanner of the branches stops. -/
def Ordinary (c : UInt8) : Prop := asChar c ≠ '?' ∧ asChar c ≠ ';' ∧ asChar c ≠ 'e'

instance (c : UInt8) : Decidable (Ordinary c) := inferInstanceAs (Decidable (_ ∧ _))

theorem ordinary_of {p : Char → Bool} {c : UInt8} (hp : p (asChar c) = true)
    (hno : p '?' = false ∧ p ';' = false ∧ p 'e' = false) : Ordinary c := by
  obtain ⟨hq, hs, he⟩ := hno
  refine ⟨?_, ?_, ?_⟩
  · rintro h
    rw [h, hq] at hp
    cases hp
  · rintro h
    rw [h, hs] at hp
    cases hp
  · rintro h
    rw [h, he] at hp
    cases hp

/-- `p` says which characters a text may have; `%` is none of them. -/
theorem ne_percent_of {p : Char → Bool} {c : UInt8} (hp : p (asChar c) = true) (hno : p '%' = false) :
    c ≠ byte '%' := by
  rintro rfl
  have hpercent : asChar (byte '%') = '%' := by decide
  rw [hpercent, hno] at hp
  cases hp

/-- A flag run, as characters. -/
def isRunChar (c : Char) : Bool := c.isDigit || c = '.' || c = '-' || c = '+' || c = ' ' || c = '#'

theorem isRun_eq (b : UInt8) : isRun b = isRunChar (asChar b) := rfl

section Words

variable (to_else : Bool) (depth : Nat) (rest : Bytes)

theorem skip_texts {s : Bytes} (h : ∀ b ∈ s, b ≠ byte '%') :
    skip to_else depth (s ++ rest) = s.length + skip to_else depth rest := by
  induction s with
  | nil => simp
  | cons b s ih =>
      rw [List.forall_mem_cons] at h
      rw [List.cons_append, skip_text to_else depth h.1, ih h.2, List.length_cons]
      omega

theorem skip_ordinary {c : UInt8} (h : Ordinary c) :
    skip to_else depth (byte '%' :: c :: rest) = skip to_else depth rest + 2 := by
  obtain ⟨hq, hs, he⟩ := h
  rw [skip_pair, if_neg hq, if_neg hs, if_neg (by simp [he])]

/-- A directive whose operand has no `%` is stepped over. -/
theorem skip_word {c : UInt8} {s : Bytes} (hc : Ordinary c) (hs : ∀ b ∈ s, b ≠ byte '%') :
    skip to_else depth (byte '%' :: c :: (s ++ rest)) = s.length + 2 + skip to_else depth rest := by
  rw [skip_ordinary to_else depth _ hc, skip_texts to_else depth rest hs]
  omega

theorem skip_if : skip to_else depth (byte '%' :: byte '?' :: rest) = skip to_else (depth + 1) rest + 2 := by
  rw [skip_pair, if_pos (by decide)]

theorem skip_then : skip to_else depth (byte '%' :: byte 't' :: rest) = skip to_else depth rest + 2 :=
  skip_ordinary to_else depth rest (by decide)

theorem skip_fi_succ :
    skip to_else (depth + 1) (byte '%' :: byte ';' :: rest) = skip to_else depth rest + 2 := by
  rw [skip_pair, if_neg (by decide), if_pos (by decide), if_neg (Nat.succ_ne_zero depth)]
  rfl

theorem skip_fi : skip to_else 0 (byte '%' :: byte ';' :: rest) = 2 := by
  rw [skip_pair, if_neg (by decide), if_pos (by decide), if_pos rfl]

theorem skip_else_succ :
    skip to_else (depth + 1) (byte '%' :: byte 'e' :: rest) = skip to_else (depth + 1) rest + 2 := by
  rw [skip_pair, if_neg (by decide), if_neg (by decide), if_neg (by simp)]

theorem skip_else : skip true 0 (byte '%' :: byte 'e' :: rest) = 2 := by
  rw [skip_pair, if_neg (by decide), if_neg (by decide), if_pos ⟨by decide, rfl, rfl⟩]

theorem skip_past_else : skip false 0 (byte '%' :: byte 'e' :: rest) = skip false 0 rest + 2 := by
  rw [skip_pair, if_neg (by decide), if_neg (by decide), if_neg (by simp)]

end Words

section Digits

theorem isDigit_lt {c : Char} (h : c.isDigit = true) : c.toNat < 256 := by
  have hle : c.toNat ≤ '9'.toNat := (Char.isDigit_iff_toNat.mp h).2
  change c.toNat ≤ 57 at hle
  omega

theorem asChar_byte {c : Char} (h : c.toNat < 256) : asChar (byte c) = c := by
  have hnat : (byte c).toNat = c.toNat := by
    rw [byte, UInt8.toNat_ofNat', Nat.mod_eq_of_lt h]
  rw [asChar, hnat, Char.ofNat_toNat]

/-- What stands between the braces of a `%{nn}`. -/
def numeral (negative : Bool) (ds : List Char) : List Char := (if negative then ['-'] else []) ++ ds

theorem numeral_chars {negative : Bool} {ds : List Char} (h : ds.all Char.isDigit = true) :
    ∀ c ∈ numeral negative ds, c = '-' ∨ c.isDigit = true := by
  intro c hc
  rcases List.mem_append.mp hc with hc | hc
  · cases negative with
    | false => cases hc
    | true => exact Or.inl (List.mem_singleton.mp hc)
  · exact Or.inr (List.all_eq_true.mp h c hc)

theorem numeral_lt {negative : Bool} {ds : List Char} (h : ds.all Char.isDigit = true) :
    ∀ c ∈ numeral negative ds, c.toNat < 256 := by
  intro c hc
  rcases numeral_chars h c hc with rfl | hdigit
  · decide
  · exact isDigit_lt hdigit

theorem bytes_numeral_ne {negative : Bool} {ds : List Char} (h : ds.all Char.isDigit = true) (k : Char)
    (hk : asChar (byte k) = k) (hminus : k ≠ '-') (hdigit : k.isDigit = false) :
    ∀ b ∈ bytes (numeral negative ds), b ≠ byte k := by
  rintro b hb rfl
  obtain ⟨c, hc, heq⟩ := List.mem_map.mp hb
  have hck : c = k := by rw [← asChar_byte (numeral_lt h c hc), heq, hk]
  subst hck
  rcases numeral_chars h c hc with rfl | hc'
  · exact hminus rfl
  · rw [hdigit] at hc'
    cases hc'

end Digits

section Directives

variable (to_else : Bool) (depth : Nat) (rest : Bytes)

/-- No directive ends a skipped branch, whatever its operand. -/
theorem skip_directive (d : Directive) :
    skip to_else depth (d.render ++ rest) = d.render.length + skip to_else depth rest := by
  have hword : ∀ (c : UInt8) (s : Bytes), Ordinary c → (∀ b ∈ s, b ≠ byte '%') →
      skip to_else depth ((byte '%' :: c :: s) ++ rest) = (byte '%' :: c :: s).length + skip to_else depth rest := by
    intro c s hc hs
    rw [List.cons_append, List.cons_append, skip_word to_else depth rest hc hs]
    rfl
  have hnone : ∀ b ∈ ([] : Bytes), b ≠ byte '%' := by simp
  cases d with
  | lit b h =>
      rw [Directive.render, List.singleton_append, skip_text to_else depth h, List.length_singleton]
      omega
  | percent => exact hword (byte '%') [] (by decide) hnone
  | print colon run conv hrun hconv =>
      have hrun' : ∀ b ∈ run, Ordinary b ∧ b ≠ byte '%' := by
        intro b hb
        have hb := List.all_eq_true.mp hrun b hb
        rw [isRun_eq] at hb
        exact ⟨ordinary_of hb (by decide), ne_percent_of hb (by decide)⟩
      have hconv' : Ordinary conv ∧ conv ≠ byte '%' :=
        ⟨ordinary_of hconv (by decide), ne_percent_of hconv (by decide)⟩
      have htail : ∀ b ∈ run ++ [conv], Ordinary b ∧ b ≠ byte '%' := by
        intro b hb
        rcases List.mem_append.mp hb with hb | hb
        · exact hrun' b hb
        · exact List.mem_singleton.mp hb ▸ hconv'
      rw [Directive.render]
      cases colon with
      | true => exact hword (byte ':') (run ++ [conv]) (by decide) fun b hb => (htail b hb).2
      | false =>
          cases run with
          | nil => exact hword conv [] hconv'.1 hnone
          | cons c run =>
              rw [List.cons_append, List.forall_mem_cons] at htail
              exact hword c (run ++ [conv]) htail.1.1 fun b hb => (htail.2 b hb).2
  | chr => exact hword (byte 'c') [] (by decide) hnone
  | param k =>
      have hdigit : ∀ k : Fin 9, UInt8.ofNat (49 + k.val) ≠ byte '%' := by decide
      apply hword (byte 'p') [UInt8.ofNat (49 + k.val)] (by decide)
      intro b hb
      rw [List.mem_singleton.mp hb]
      exact hdigit k
  | char b =>
      by_cases hb : b = byte '%'
      · subst hb
        rw [Directive.render, List.cons_append, List.cons_append, skip_ordinary to_else depth _ (by decide),
          List.cons_append, List.cons_append, List.nil_append, skip_ordinary to_else depth _ (by decide)]
        simp only [List.length_cons, List.length_nil]
        omega
      · apply hword (byte '\'') [b, byte '\''] (by decide)
        simp only [List.forall_mem_cons]
        exact ⟨hb, by decide, by simp⟩
  | const negative ds h hrange =>
      have hs : ∀ b ∈ bytes (numeral negative ds) ++ [byte '}'], b ≠ byte '%' := by
        intro b hb
        rcases List.mem_append.mp hb with hb | hb
        · exact bytes_numeral_ne h.2 '%' (by decide) (by decide) (by decide) b hb
        · rw [List.mem_singleton.mp hb]
          decide
      exact hword (byte '{') (bytes (numeral negative ds) ++ [byte '}']) (by decide) hs
  | strlen => exact hword (byte 'l') [] (by decide) hnone
  | setVar x h =>
      apply hword (byte 'P') [x] (by decide)
      intro b hb
      rw [List.mem_singleton.mp hb]
      exact ne_percent_of h (by decide)
  | getVar x h =>
      apply hword (byte 'g') [x] (by decide)
      intro b hb
      rw [List.mem_singleton.mp hb]
      exact ne_percent_of h (by decide)
  | op c h => exact hword c [] (ordinary_of h (by decide)) hnone
  | not => exact hword (byte '!') [] (by decide) hnone
  | compl => exact hword (byte '~') [] (by decide) hnone
  | incr => exact hword (byte 'i') [] (by decide) hnone

end Directives

mutual

/-- A whole program is stepped over, at whatever depth. -/
theorem Prog.skip_render (to_else : Bool) (depth : Nat) (rest : Bytes) : ∀ P : Prog,
    skip to_else depth (P.render ++ rest) = P.render.length + skip to_else depth rest
  | .nil => by simp [Prog.render]
  | .seq d P => by
      rw [Prog.render, List.append_assoc, skip_directive, Prog.skip_render to_else depth rest P, List.length_append]
      omega
  | .cond c a e P => by
      simp only [Prog.render, List.cons_append, List.append_assoc]
      rw [skip_if, Prog.skip_render to_else _ _ c, skip_then, Prog.skip_render to_else _ _ a,
        Else.skip_render to_else depth _ e, Prog.skip_render to_else depth rest P]
      simp only [List.length_cons, List.length_append]
      omega

/-- The rest of a conditional closes one level. -/
theorem Else.skip_render (to_else : Bool) (depth : Nat) (rest : Bytes) : ∀ e : Else,
    skip to_else (depth + 1) (e.render ++ rest) = e.render.length + skip to_else depth rest
  | .fi => by
      rw [Else.render, List.cons_append, List.cons_append, List.nil_append, skip_fi_succ]
      simp only [List.length_cons, List.length_nil]
      omega
  | .els b => by
      simp only [Else.render, List.cons_append, List.append_assoc, List.nil_append]
      rw [skip_else_succ, Prog.skip_render to_else _ _ b, skip_fi_succ]
      simp only [List.length_cons, List.length_append, List.length_nil]
      omega
  | .elif c a e => by
      simp only [Else.render, List.cons_append, List.append_assoc]
      rw [skip_else_succ, Prog.skip_render to_else _ _ c, skip_then, Prog.skip_render to_else _ _ a,
        Else.skip_render to_else depth rest e]
      simp only [List.length_cons, List.length_append]
      omega

end

/-- Behind a taken branch, all else is skipped to the matching `%;`. -/
theorem Else.skip_to_end_render (rest : Bytes) (e : Else) : skip false 0 (e.render ++ rest) = e.render.length := by
  match e with
  | .fi =>
      rw [Else.render, List.cons_append, List.cons_append, skip_fi]
      rfl
  | .els b =>
      simp only [Else.render, List.cons_append, List.append_assoc, List.nil_append]
      rw [skip_past_else, Prog.skip_render, skip_fi]
      simp only [List.length_cons, List.length_append, List.length_nil]
  | .elif c a e =>
      simp only [Else.render, List.cons_append, List.append_assoc]
      rw [skip_past_else, Prog.skip_render, skip_then, Prog.skip_render, Else.skip_to_end_render rest e]
      simp only [List.length_cons, List.length_append]

/-- A branch that is not taken is skipped to what follows it. -/
theorem Else.skip_to_else_render (rest : Bytes) (e : Else) : skip true 0 (e.render ++ rest) = 2 := by
  cases e with
  | fi => exact skip_fi true _
  | els b =>
      rw [Else.render, List.cons_append, List.cons_append]
      exact skip_else _
  | elif c a e =>
      rw [Else.render, List.cons_append, List.cons_append]
      exact skip_else _

end Zshrs.Tparm
