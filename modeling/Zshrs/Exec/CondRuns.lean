import Zshrs.Exec.CondStatus

namespace Zshrs.Exec.Cond

open Parse.Cond

variable {F : Type} {T : Tests F} {fromtest : Bool} {prog : List Word}

theorem patternOp_cases {b : Str} {op : Nat} (h : patternOp b = some op) :
    (op = COND_STREQ ∨ op = COND_STRDEQ ∨ op = COND_STRNEQ) ∨ op = COND_STRGTR := by
  unfold patternOp at h
  split at h
  · split at h
    · exact Or.inl (Or.inl (Option.some.inj h).symm)
    · split at h
      · exact Or.inr (Option.some.inj h).symm
      · cases h
  · split at h
    · exact Or.inl (Or.inr (Or.inl (Option.some.inj h).symm))
    · split at h
      · exact Or.inl (Or.inr (Or.inr (Option.some.inj h).symm))
      · cases h
  · cases h

theorem get_cond_num_lt {tst : Str} {t : Nat} (h : get_cond_num tst = some t) : t < 9 := by
  have hlt := List.findIdx?_eq_some_iff_findIdx_eq.mp h
  exact hlt.1

theorem primaryStop_of_good {pc : Nat} {p : Primary} (h : badPattern T p = false) :
    primaryStop T pc p = pc + (p.code 0).length := by
  rw [primaryStop, h, if_neg Bool.false_ne_true]

theorem evalcond_double {fuel pc : Nat} {a b : Str} (h : Loaded prog pc (doubleCode a b)) :
    evalcond T fromtest prog (fuel + 1) pc =
      some ⟨doubleStatus T fromtest a b, pc + (doubleCode a b).length,
        [(pc, pc + (doubleCode a b).length)]⟩ := by
  have hlen : [b].length < 2 ^ 20 := show 1 < 2 ^ 20 by decide
  match a, h with
  | [_, op], h =>
      unfold doubleCode doubleStatus at *
      by_cases hop : op ∈ unarySet
      · simp only [hop, if_true] at h ⊢
        exact evalcond_letter hop h
      · simp only [hop, if_false] at h ⊢
        exact evalcond_mod hlen h
  | [], h => exact evalcond_mod hlen h
  | [_], h => exact evalcond_mod hlen h
  | _ :: _ :: _ :: _, h => exact evalcond_mod hlen h

theorem evalcond_triple {fuel pc : Nat} {a b c : Str} (hop : patternOp b = none)
    (h : Loaded prog pc (tripleCode a b c)) :
    evalcond T fromtest prog (fuel + 1) pc =
      some ⟨tripleStatus T fromtest a b c, pc + (tripleCode a b c).length,
        [(pc, pc + (tripleCode a b c).length)]⟩ := by
  unfold tripleCode tripleStatus at *
  rw [hop]
  by_cases hre : regexOp b = true
  · simp only [hre, if_true] at h ⊢
    exact evalcond_regex h
  · by_cases hd : b.head?.any IS_DASH = true
    · simp only [hre, hd, if_true] at h ⊢
      cases hnum : get_cond_num b.tail with
      | some t =>
          simp only [hnum] at h ⊢
          have ht := get_cond_num_lt hnum
          have hlo : COND_STRLT ≤ t + COND_NT := by
            simp only [COND_STRLT, COND_NT]
            omega
          have hhi : t + COND_NT ≤ COND_GE := by
            simp only [COND_GE, COND_NT]
            omega
          exact evalcond_binary hlo hhi h
      | none =>
          simp only [hnum] at h ⊢
          exact evalcond_modi h
    · simp only [hre, hd] at h ⊢
      exact evalcond_mod (l := [b, c]) (show 2 < 2 ^ 20 by decide) h

/-- An operator is evaluated to its status, over the words emitted for it. -/
theorem evalcond_primary {fuel pc np : Nat} {p : Primary} (h : Loaded prog pc (p.code np))
    (hslot : Slotless T fromtest (.prim p)) (hfield : InField T fromtest (.prim p)) :
    evalcond T fromtest prog (fuel + 1) pc =
      some ⟨primaryStatus T fromtest p, primaryStop T pc p, [(pc, primaryStop T pc p)]⟩ := by
  cases p with
  | double a b => exact evalcond_double h
  | triple a b c =>
      cases hop : patternOp b with
      | none =>
          have hcode : ∀ np, (Primary.triple a b c).code np = tripleCode a b c := by
            intro np
            simp only [Primary.code, hop]
          rw [hcode] at h
          rw [primaryStop_of_good (by simp [badPattern, hop]), hcode]
          exact evalcond_triple hop h
      | some op =>
          simp only [Primary.code, hop] at h
          have hpat := (patternOp_cases hop).resolve_right
            (fun heq => hslot a b c rfl (by rw [hop, heq]))
          have hne : op ≠ COND_STRGTR := by
            rcases hpat with rfl | rfl | rfl <;> decide
          have hstop : primaryStop T pc (.triple a b c) =
              if (T.patcompile (T.singsub c)).isNone then pc + 2 else pc + 4 := by
            simp [primaryStop, badPattern, hop, hne, Primary.code]
          have hstatus : primaryStatus T fromtest (.triple a b c) =
              T.pattern op (T.operand fromtest a) c := by
            simp [primaryStatus, tripleStatus, hop, hne]
          rw [hstop, hstatus]
          exact evalcond_pattern hpat h
  | multi a l =>
      have hlen := hfield a l rfl
      rw [primaryStop_of_good rfl]
      simp only [Primary.code, List.length_cons, List.length_map] at h ⊢
      exact evalcond_mod hlen h
  | order lt s1 s3 =>
      rw [primaryStop_of_good rfl]
      simp only [Primary.code] at h ⊢
      cases lt with
      | true => exact evalcond_binary (by decide) (by decide) h
      | false => exact evalcond_binary (by decide) (by decide) h

def height : Condition → Nat
  | .prim _ => 1
  | .not c => height c + 1
  | .chain _ a b => max (height a) (height b) + 1

/-- Only a bad pattern, with its status 2, leaves words unread. -/
theorem primaryStop_eq {pc : Nat} {p : Primary} (h : primaryStatus T fromtest p ≠ 2) :
    primaryStop T pc p = pc + (p.code 0).length := by
  apply primaryStop_of_good
  cases p with
  | triple a b c =>
      cases hop : patternOp b with
      | none => simp [badPattern, hop]
      | some op =>
          by_cases hgt : op = COND_STRGTR
          · simp [badPattern, hop, hgt]
          · cases hpat : T.patcompile (T.singsub c) with
            | none =>
                simp [primaryStatus, tripleStatus, hop, hgt, Tests.pattern, hpat] at h
            | some f => simp [badPattern, hpat]
  | _ => rfl

/-- What `evalcond` makes of the words of an expression, wherever they are in the program. -/
theorem evalcond_condition {c : Condition} {pc np fuel : Nat} (h : Loaded prog pc (c.code np))
    (hslot : Slotless T fromtest c) (hfield : InField T fromtest c) (hfuel : height c ≤ fuel) :
    ∃ stop, evalcond T fromtest prog fuel pc =
        some ⟨status T fromtest c, stop, readsOf T fromtest pc c⟩ ∧
      (status T fromtest c ≠ 2 → stop = pc + (c.code 0).length) := by
  induction c generalizing pc np fuel with
  | prim p =>
      obtain ⟨fuel, rfl⟩ : ∃ n, fuel = n + 1 := ⟨fuel - 1, by simp only [height] at hfuel; omega⟩
      exact ⟨_, evalcond_primary h hslot hfield, fun hs => primaryStop_eq hs⟩
  | not c ih =>
      obtain ⟨fuel, rfl⟩ : ∃ n, fuel = n + 1 := ⟨fuel - 1, by simp only [height] at hfuel; omega⟩
      simp only [height, Nat.add_le_add_iff_right] at hfuel
      obtain ⟨hhead, hc⟩ := h
      obtain ⟨stop, heval, hstop⟩ := ih hc hslot hfield hfuel
      refine ⟨stop, ?_, ?_⟩
      · rw [evalcond, header_wcb hhead]
        simp only [Option.bind_eq_bind, Option.bind_some, if_true, heval, status, readsOf]
      · intro hs
        have hne : status T fromtest c ≠ 2 := by
          intro heq
          simp [status, heq] at hs
        rw [hstop hne]
        simp only [Condition.code, List.length_cons]
        omega
  | chain op a b iha ihb =>
      obtain ⟨fuel, rfl⟩ : ∃ n, fuel = n + 1 := ⟨fuel - 1, by simp only [height] at hfuel; omega⟩
      simp only [height, Nat.add_le_add_iff_right] at hfuel
      obtain ⟨hhead, hab⟩ := h
      obtain ⟨hla, hlb⟩ := loaded_append.mp hab
      obtain ⟨stopa, heva, hstopa⟩ := iha hla hslot.1 hfield.1 (Nat.le_trans (Nat.le_max_left _ _) hfuel)
      have hlena := length_code a np 0
      have hlenb := length_code b (np + a.npats) 0
      have hlenb' := length_code b (0 + a.npats) 0
      rw [evalcond_chain (header_wcb hhead), heva, Option.bind_some]
      have hfield' := hfield.2
      by_cases hgo : goesOn op (status T fromtest a) = true
      · rw [if_pos hgo] at hfield'
        have hne : status T fromtest a ≠ 2 := by
          intro heq
          rw [heq] at hgo
          cases op <;> cases hgo
        rw [hlena, ← hstopa hne] at hlb
        obtain ⟨stopb, hevb, hstopb⟩ := ihb hlb (hslot.2 hgo) hfield' (Nat.le_trans (Nat.le_max_right _ _) hfuel)
        refine ⟨stopb, ?_, ?_⟩
        · simp only [hgo, if_true, hevb, Option.map_some, status, readsOf, ← hstopa hne]
        · intro hs
          simp only [status, hgo, if_true] at hs
          rw [hstopb hs, hstopa hne]
          simp only [Condition.code, List.length_cons, List.length_append, hlenb']
          omega
      · rw [if_neg hgo] at hfield'
        -- the distance over both parts, which is in its field here
        rw [List.length_append] at hfield'
        refine ⟨pc + ((a.code np ++ b.code (np + a.npats)).length % 2 ^ 20 + 1), ?_, ?_⟩
        · simp only [hgo, if_false, Bool.false_eq_true, status, readsOf, List.append_nil]
        · intro _
          simp only [Condition.code, List.length_cons, List.length_append, hlena, hlenb, hlenb']
          rw [Nat.mod_eq_of_lt hfield']

theorem evalcond_succ {fuel pc : Nat} {o : Outcome} (h : evalcond T fromtest prog fuel pc = some o) :
    evalcond T fromtest prog (fuel + 1) pc = some o := by
  induction fuel generalizing pc o with
  | zero => cases h
  | succ fuel ih =>
      rw [evalcond] at h ⊢
      obtain ⟨⟨ctype, skip⟩, hhead, h⟩ := Option.bind_eq_some_iff.mp h
      rw [hhead]
      simp only [Option.bind_eq_bind, Option.bind_some] at h ⊢
      by_cases hnot : ctype = COND_NOT
      · simp only [hnot, if_true] at h ⊢
        obtain ⟨o1, h1, h⟩ := Option.bind_eq_some_iff.mp h
        rw [ih h1]
        exact h
      · simp only [hnot, if_false] at h ⊢
        by_cases hand : ctype = COND_AND
        · simp only [hand, if_true] at h ⊢
          obtain ⟨o1, h1, h⟩ := Option.bind_eq_some_iff.mp h
          rw [ih h1, Option.bind_some]
          by_cases hgo : o1.status = 0
          · simp only [hgo, if_true] at h ⊢
            obtain ⟨o2, h2, h⟩ := Option.bind_eq_some_iff.mp h
            rw [ih h2]
            exact h
          · simp only [hgo, if_false] at h ⊢
            exact h
        · simp only [hand, if_false] at h ⊢
          by_cases hor : ctype = COND_OR
          · simp only [hor, if_true] at h ⊢
            obtain ⟨o1, h1, h⟩ := Option.bind_eq_some_iff.mp h
            rw [ih h1, Option.bind_some]
            by_cases hgo : o1.status = 1 ∨ o1.status = 3
            · simp only [hgo, if_true] at h ⊢
              obtain ⟨o2, h2, h⟩ := Option.bind_eq_some_iff.mp h
              rw [ih h2]
              exact h
            · simp only [hgo, if_false] at h ⊢
              exact h
          · simp only [hor, if_false] at h ⊢
            exact h

theorem evalcond_mono {fuel fuel' pc : Nat} {o : Outcome} (hle : fuel ≤ fuel')
    (h : evalcond T fromtest prog fuel pc = some o) : evalcond T fromtest prog fuel' pc = some o := by
  induction hle with
  | refl => exact h
  | step _ ih => exact evalcond_succ ih

theorem evalcond_unique {fuel fuel' pc : Nat} {o o' : Outcome}
    (h : evalcond T fromtest prog fuel pc = some o)
    (h' : evalcond T fromtest prog fuel' pc = some o') : o = o' := by
  have hl := evalcond_mono (Nat.le_max_left fuel fuel') h
  have hr := evalcond_mono (Nat.le_max_right fuel fuel') h'
  rw [hl] at hr
  exact Option.some.inj hr

/-- Both lists have an operator at the same place, with different words. -/
def Mismatch (reads ref : List (Nat × Nat)) : Prop :=
  ∃ (i : Nat) (x y : Nat × Nat), reads[i]? = some x ∧ ref[i]? = some y ∧ x ≠ y

theorem Mismatch.append {reads ref : List (Nat × Nat)} (h : Mismatch reads ref)
    (more more' : List (Nat × Nat)) : Mismatch (reads ++ more) (ref ++ more') := by
  obtain ⟨i, x, y, hx, hy, hne⟩ := h
  refine ⟨i, x, y, ?_, ?_, hne⟩
  · rw [List.getElem?_append_left (List.getElem?_eq_some_iff.mp hx).1, hx]
  · rw [List.getElem?_append_left (List.getElem?_eq_some_iff.mp hy).1, hy]

theorem Mismatch.after {reads ref : List (Nat × Nat)} (h : Mismatch reads ref)
    (before : List (Nat × Nat)) : Mismatch (before ++ reads) (before ++ ref) := by
  obtain ⟨i, x, y, hx, hy, hne⟩ := h
  refine ⟨before.length + i, x, y, ?_, ?_, hne⟩
  · rw [List.getElem?_append_right (Nat.le_add_right _ _), Nat.add_sub_cancel_left, hx]
  · rw [List.getElem?_append_right (Nat.le_add_right _ _), Nat.add_sub_cancel_left, hy]

theorem Mismatch.ne {reads ref : List (Nat × Nat)} (h : Mismatch reads ref) : reads ≠ ref := by
  rintro rfl
  obtain ⟨i, x, y, hx, hy, hne⟩ := h
  rw [hx] at hy
  exact hne (Option.some.inj hy)

/-- A string order with a slot is left one word before its end. -/
theorem mismatch_of_slot {c : Condition} {pc np fuel : Nat} {o : Outcome}
    (h : Loaded prog pc (c.code np)) (hfield : InField T fromtest c) (hslot : ¬ Slotless T fromtest c)
    (heval : evalcond T fromtest prog fuel pc = some o) :
    Mismatch o.reads (readsOf T fromtest pc c) := by
  induction c generalizing pc np fuel o with
  | prim p =>
      simp only [Slotless, not_forall, not_not] at hslot
      obtain ⟨a, b, c, rfl, hop⟩ := hslot
      simp only [Condition.code, Primary.code, hop] at h
      have hstop : primaryStop T pc (.triple a b c) = pc + 4 := by
        simp [primaryStop, badPattern, hop, Primary.code]
      have hbin := @evalcond_binary _ T fromtest prog fuel pc COND_STRGTR a c [.npat np] (by decide)
        (by decide) h
      obtain rfl := evalcond_unique heval hbin
      refine ⟨0, (pc, pc + 3), (pc, pc + 4), rfl, ?_, ?_⟩
      · rw [readsOf, hstop]
        rfl
      · intro heq
        have := congrArg Prod.snd heq
        simp at this
  | not c ih =>
      obtain ⟨hhead, hc⟩ := h
      cases fuel with
      | zero => cases heval
      | succ fuel =>
          rw [evalcond, header_wcb hhead] at heval
          simp only [Option.bind_eq_bind, Option.bind_some, if_true] at heval
          obtain ⟨o1, h1, heval⟩ := Option.bind_eq_some_iff.mp heval
          obtain rfl := Option.some.inj heval
          have hmis := ih hc hfield hslot h1
          exact hmis
  | chain op a b iha ihb =>
      obtain ⟨hhead, hab⟩ := h
      obtain ⟨hla, hlb⟩ := loaded_append.mp hab
      cases fuel with
      | zero => cases heval
      | succ fuel =>
          rw [evalcond_chain (header_wcb hhead)] at heval
          obtain ⟨o1, h1, heval⟩ := Option.bind_eq_some_iff.mp heval
          have hreads : ∃ more, o.reads = o1.reads ++ more := by
            split at heval
            · obtain ⟨o2, -, rfl⟩ := Option.map_eq_some_iff.mp heval
              exact ⟨o2.reads, rfl⟩
            · obtain rfl := Option.some.inj heval
              exact ⟨[], (List.append_nil _).symm⟩
          by_cases hsa : Slotless T fromtest a
          · have hgo : goesOn op (status T fromtest a) = true := by
              by_contra hno
              exact hslot ⟨hsa, fun hgo => absurd hgo hno⟩
            have hsb : ¬ Slotless T fromtest b := fun hsb => hslot ⟨hsa, fun _ => hsb⟩
            have hfield' := hfield.2
            rw [if_pos hgo] at hfield'
            obtain ⟨stop, heva, hstop⟩ := evalcond_condition hla hsa hfield.1 (Nat.le_refl _)
            obtain rfl := evalcond_unique h1 heva
            simp only [hgo, if_true] at heval
            obtain ⟨o2, h2, rfl⟩ := Option.map_eq_some_iff.mp heval
            have hne : status T fromtest a ≠ 2 := by
              intro heq
              rw [heq] at hgo
              cases op <;> cases hgo
            rw [length_code a np 0, ← hstop hne] at hlb
            simp only [readsOf, hgo, if_true]
            rw [← hstop hne]
            exact (ihb hlb hfield' hsb h2).after _
          · obtain ⟨more, hmore⟩ := hreads
            rw [hmore, readsOf]
            exact (iha hla hfield.1 hsa h1).append _ _

end Zshrs.Exec.Cond
