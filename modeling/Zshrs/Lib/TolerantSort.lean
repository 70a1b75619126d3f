import Mathlib.Data.List.Nodup
import Zshrs.Lib.Comparators

namespace Zshrs.Lib.TolerantSort

open Comparators

variable {α : Type}

/-- Of two runs, the left one goes first unless it strictly follows the right one. -/
def mergeRuns (cmp : α → α → Ordering) (l r : List α) : List α := l.merge r fun a b => cmp a b != .gt

/-- The runs of a width are merged in pairs. -/
def pass (cmp : α → α → Ordering) (width : Nat) : Nat → List α → List α
  | 0, idx => idx
  | n + 1, idx =>
    if idx = [] then []
    else mergeRuns cmp (idx.take width) ((idx.drop width).take width) ++
      pass cmp width n (idx.drop (2 * width))

/-- The passes, with twice the width each time. -/
def passes (cmp : α → α → Ordering) : Nat → Nat → List α → List α
  | 0, _, idx => idx
  | n + 1, width, idx =>
    if width < idx.length then passes cmp n (width * 2) (pass cmp width idx.length idx) else idx

/-- `slice::swap` -/
def swap (v : List α) (i j : Nat) : List α :=
  match v[i]?, v[j]? with
  | some a, some b => (v.set i b).set j a
  | _, _ => v

/-- One cycle of a permutation is applied by swaps, with marks on the places that are done. -/
def cycle (idx : List Nat) (start : Nat) : Nat → Nat → List Bool → List α → List Bool × List α
  | 0, _, visited, v => (visited, v)
  | n + 1, i, visited, v =>
    let visited := visited.set i true
    let j := idx.getD i 0
    if j = start ∨ j = i then (visited, v) else cycle idx start n j visited (swap v i j)

/-- The cycle that starts at a place, unless it is done. -/
def visit (idx : List Nat) (s : List Bool × List α) (start : Nat) : List Bool × List α :=
  if s.1.getD start false then s else cycle idx start idx.length start s.1 s.2

/-- `v[i]` is what `v[idx[i]]` was. -/
def permute (idx : List Nat) (v : List α) : List α :=
  ((List.range v.length).foldl (visit idx) (List.replicate v.length false, v)).2

/-- A comparison of the elements at two places. -/
def at_ (cmp : α → α → Ordering) (v : List α) (i j : Nat) : Ordering :=
  match v[i]?, v[j]? with
  | some a, some b => cmp a b
  | _, _ => .eq

def qsort_tolerant (cmp : α → α → Ordering) (v : List α) : List α :=
  if v.length < 2 then v else permute (passes (at_ cmp v) v.length 1 (List.range v.length)) v

section Merges

variable {cmp : α → α → Ordering} {xs l r : List α}

theorem mergeRuns_perm (l r : List α) : (mergeRuns cmp l r).Perm (l ++ r) := List.merge_perm_append _

theorem cut (width : Nat) (idx : List α) :
    idx.take width ++ (idx.drop width).take width ++ idx.drop (2 * width) = idx := by
  rw [Nat.two_mul, ← List.drop_drop, List.append_assoc, List.take_append_drop, List.take_append_drop]

theorem pass_perm (width n : Nat) (idx : List α) (hw : 0 < width) (hn : idx.length ≤ n) :
    (pass cmp width n idx).Perm idx := by
  induction n generalizing idx with
  | zero => exact List.Perm.refl _
  | succ n ih =>
      rw [pass]
      split
      · next h => rw [h]
      · next h =>
        have hpos := List.length_pos_iff.mpr h
        have rest := ih (idx.drop (2 * width)) (by rw [List.length_drop]; omega)
        have front := @mergeRuns_perm _ cmp (idx.take width) ((idx.drop width).take width)
        have both := front.append rest
        rwa [cut] at both

theorem passes_perm (n width : Nat) (idx : List α) (hw : 0 < width) :
    (passes cmp n width idx).Perm idx := by
  induction n generalizing width idx with
  | zero => exact List.Perm.refl _
  | succ n ih =>
      rw [passes]
      split
      · exact (ih _ _ (by omega)).trans (pass_perm width _ idx hw (Nat.le_refl _))
      · exact List.Perm.refl _

/-- No value strictly follows a later one. -/
def Sorted (cmp : α → α → Ordering) (l : List α) : Prop := l.Pairwise fun a b => (cmp a b).isLE

/-- Two sorted runs give a sorted run. -/
theorem mergeRuns_sorted (h : PreorderOn cmp xs) (hl : ∀ a ∈ l, a ∈ xs) (hr : ∀ a ∈ r, a ∈ xs)
    (sl : Sorted cmp l) (sr : Sorted cmp r) : Sorted cmp (mergeRuns cmp l r) := by
  induction l generalizing r with
  | nil =>
      unfold mergeRuns
      rwa [List.nil_merge]
  | cons a l ihl =>
      induction r with
      | nil =>
          unfold mergeRuns
          rwa [List.merge_right]
      | cons b r ihr =>
          have ha := hl a List.mem_cons_self
          have hb := hr b List.mem_cons_self
          unfold mergeRuns at ihl ihr ⊢
          unfold Sorted at *
          rw [List.cons_merge_cons]
          rw [List.pairwise_cons] at sl sr
          split
          · next hle =>
            have hab : (cmp a b).isLE := by
              cases hc : cmp a b with
              | lt => rfl
              | eq => rfl
              | gt =>
                rw [hc] at hle
                cases hle
            rw [List.pairwise_cons]
            refine ⟨fun c hc => ?_, ihl (fun c hc => hl c (List.mem_cons_of_mem a hc)) hr sl.2
              (List.pairwise_cons.mpr sr)⟩
            rcases List.mem_merge.mp hc with hc | hc
            · exact sl.1 c hc
            · rcases List.mem_cons.mp hc with rfl | hc
              · exact hab
              · exact h.trans a ha b hb c (hr c (List.mem_cons_of_mem b hc)) hab (sr.1 c hc)
          · next hle =>
            have hba : (cmp b a).isLE := by
              rw [h.swap a ha b hb]
              cases hc : cmp a b with
              | lt =>
                rw [hc] at hle
                exact absurd rfl hle
              | eq =>
                rw [hc] at hle
                exact absurd rfl hle
              | gt => rfl
            rw [List.pairwise_cons]
            refine ⟨fun c hc => ?_, ihr (fun c hc => hr c (List.mem_cons_of_mem b hc)) sr.2⟩
            rcases List.mem_merge.mp hc with hc | hc
            · rcases List.mem_cons.mp hc with rfl | hc
              · exact hba
              · exact h.trans b hb a ha c (hl c (List.mem_cons_of_mem a hc)) hba (sl.1 c hc)
            · exact sr.1 c hc

/-- Every run of a width is sorted. -/
def RunsSorted (cmp : α → α → Ordering) (width : Nat) (idx : List α) : Prop :=
  ∀ k, Sorted cmp ((idx.drop (k * width)).take width)

theorem runsSorted_one (idx : List α) : RunsSorted cmp 1 idx := by
  intro k
  rw [Nat.mul_one]
  unfold Sorted
  cases idx.drop k with
  | nil => exact List.Pairwise.nil
  | cons a l => exact List.pairwise_singleton _ a

/-- Behind a pass the sorted runs are twice as long. -/
theorem pass_sorted (h : PreorderOn cmp xs) {width : Nat} (hw : 0 < width) (n : Nat) {idx : List α}
    (hn : idx.length ≤ n) (hsub : ∀ a ∈ idx, a ∈ xs) (hruns : RunsSorted cmp width idx) :
    RunsSorted cmp (2 * width) (pass cmp width n idx) := by
  induction n generalizing idx with
  | zero =>
      obtain rfl := List.length_eq_zero_iff.mp (Nat.le_zero.mp hn)
      intro k
      rw [pass, List.drop_nil, List.take_nil]
      exact List.Pairwise.nil
  | succ n ih =>
      rw [pass]
      split
      · intro k
        rw [List.drop_nil, List.take_nil]
        exact List.Pairwise.nil
      · next hne =>
        have hpos := List.length_pos_iff.mpr hne
        have first := hruns 0
        have second := hruns 1
        rw [Nat.zero_mul, List.drop_zero] at first
        rw [Nat.one_mul] at second
        have merged := mergeRuns_sorted h (fun a ha => hsub a (List.mem_of_mem_take ha))
          (fun a ha => hsub a (List.mem_of_mem_drop (List.mem_of_mem_take ha))) first second
        have length := (@mergeRuns_perm _ cmp (idx.take width) ((idx.drop width).take width)).length_eq
        rw [List.length_append, List.length_take, List.length_take, List.length_drop] at length
        have hdrop : (idx.drop (2 * width)).length ≤ n := by
          rw [List.length_drop]
          omega
        have rest := ih hdrop (fun a ha => hsub a (List.mem_of_mem_drop ha)) fun k => by
          rw [List.drop_drop]
          have later := hruns (k + 2)
          rwa [Nat.add_mul, Nat.add_comm] at later
        have restLength := (@pass_perm _ cmp width n _ hw hdrop).length_eq
        rw [List.length_drop] at restLength
        generalize mergeRuns cmp (idx.take width) ((idx.drop width).take width) = front at merged length ⊢
        generalize pass cmp width n (idx.drop (2 * width)) = back at rest restLength ⊢
        intro k
        cases k with
        | zero =>
            rw [Nat.zero_mul, List.drop_zero]
            by_cases hlong : 2 * width ≤ idx.length
            · rw [List.take_append_of_le_length (by omega), List.take_of_length_le (by omega)]
              exact merged
            · obtain rfl : back = [] := List.length_eq_zero_iff.mp (by omega)
              rw [List.append_nil, List.take_of_length_le (by omega)]
              exact merged
        | succ k =>
            by_cases hlong : 2 * width ≤ idx.length
            · have hfront : front.length = 2 * width := by omega
              have hsplit : (k + 1) * (2 * width) = 2 * width + k * (2 * width) := by
                rw [Nat.succ_mul, Nat.add_comm]
              rw [hsplit, ← List.drop_drop, List.drop_left' hfront]
              exact rest k
            · obtain rfl : back = [] := List.length_eq_zero_iff.mp (by omega)
              rw [List.append_nil, List.drop_of_length_le, List.take_nil]
              · exact List.Pairwise.nil
              · rw [Nat.succ_mul]
                omega

theorem passes_sorted (h : PreorderOn cmp xs) (n : Nat) {width : Nat} (hw : 0 < width) {idx : List α}
    (hn : idx.length ≤ width + n) (hsub : ∀ a ∈ idx, a ∈ xs) (hruns : RunsSorted cmp width idx) :
    Sorted cmp (passes cmp n width idx) := by
  have done (hle : idx.length ≤ width) : Sorted cmp idx := by
    have all := hruns 0
    rwa [Nat.zero_mul, List.drop_zero, List.take_of_length_le hle] at all
  induction n generalizing width idx with
  | zero => exact done hn
  | succ n ih =>
      rw [passes]
      split
      · next hlt =>
        have perm := @pass_perm _ cmp width _ idx hw (Nat.le_refl _)
        have runs := pass_sorted h hw _ (Nat.le_refl _) hsub hruns
        rw [Nat.mul_comm] at runs
        have hlen : (pass cmp width idx.length idx).length ≤ width * 2 + n := by
          rw [perm.length_eq]
          omega
        refine ih (by omega) hlen (fun a ha => hsub a (perm.mem_iff.mp ha)) runs fun hle => ?_
        have all := runs 0
        rwa [Nat.zero_mul, List.drop_zero, List.take_of_length_le hle] at all
      · next hge => exact done (by omega)

end Merges

section Cycles

variable {idx : List Nat} {old v : List α} {visited : List Bool} {n start i : Nat}

/-- The marks of the places that are done. -/
def done (visited : List Bool) (k : Nat) : Bool := visited.getD k false

theorem done_set {k : Nat} (hi : i < visited.length) :
    done (visited.set i true) k = (decide (k = i) || done visited k) := by
  unfold done
  rw [List.getD_eq_getElem?_getD, List.getD_eq_getElem?_getD, List.getElem?_set]
  by_cases h : i = k
  · subst h
    simp [hi]
  · simp [h, Ne.symm h]

/-- What the places hold: a place that is done what belongs there, and any other what was there. -/
structure Placed (idx : List Nat) (old : List α) (visited : List Bool) (v : List α) : Prop where
  length : v.length = old.length
  marks : visited.length = old.length
  place : ∀ k, v[k]? = if done visited k then old[idx.getD k 0]? else old[k]?
  closed : ∀ k, k < old.length → (done visited (idx.getD k 0) = true ↔ done visited k = true)

/-- On the way along a cycle, the place `i` holds what stood at its start. -/
structure Under (idx : List Nat) (old : List α) (start i : Nat) (visited : List Bool) (v : List α) : Prop where
  length : v.length = old.length
  marks : visited.length = old.length
  inside : i < old.length
  open_ : done visited i = false
  carried : v[i]? = old[start]?
  place : ∀ k, k ≠ i → v[k]? = if done visited k then old[idx.getD k 0]? else old[k]?
  forward : ∀ k, k < old.length → done visited k = true → idx.getD k 0 = i ∨ done visited (idx.getD k 0) = true
  back : ∀ k, k < old.length → done visited (idx.getD k 0) = true → idx.getD k 0 ≠ start → done visited k = true
  begun : start = i ∨ done visited start = true
  before : i = start ∨ ∃ k, k < old.length ∧ done visited k = true ∧ idx.getD k 0 = i

/-- The places that are still open. -/
def opens (visited : List Bool) : Nat := visited.count false

theorem opens_set (hi : i < visited.length) (h : done visited i = false) :
    opens visited = opens (visited.set i true) + 1 := by
  unfold opens
  have hget : visited[i] = false := by
    unfold done at h
    rwa [List.getD_eq_getElem?_getD, List.getElem?_eq_getElem hi] at h
  rw [List.count_set hi, hget]
  have hmem : 0 < visited.count false := List.count_pos_iff.mpr (hget ▸ List.getElem_mem hi)
  simp
  omega

theorem getElem?_swap {a b : α} {j k : Nat} (hi : v[i]? = some a) (hj : v[j]? = some b) (hij : i ≠ j) :
    (swap v i j)[k]? = if k = i then some b else if k = j then some a else v[k]? := by
  have hilt := (List.getElem?_eq_some_iff.mp hi).1
  have hjlt := (List.getElem?_eq_some_iff.mp hj).1
  unfold swap
  rw [hi, hj]
  dsimp only
  rw [List.getElem?_set, List.getElem?_set, List.length_set]
  by_cases h : k = i
  · subst h
    rw [if_neg (Ne.symm hij), if_pos rfl, if_pos hilt, if_pos rfl]
  · rw [if_neg h]
    by_cases h' : k = j
    · subst h'
      rw [if_pos rfl, if_pos hjlt, if_pos rfl]
    · rw [if_neg (Ne.symm h'), if_neg (Ne.symm h), if_neg h']

theorem length_swap (i j : Nat) : (swap v i j).length = v.length := by
  unfold swap
  split
  · rw [List.length_set, List.length_set]
  · rfl

/-- The places of a permutation. -/
structure IsPerm (idx : List Nat) (n : Nat) : Prop where
  inside : ∀ k, k < n → idx.getD k 0 < n
  inj : ∀ k, k < n → ∀ l, l < n → idx.getD k 0 = idx.getD l 0 → k = l

theorem cycle_placed (hidx : IsPerm idx old.length) (n : Nat) {i : Nat} {visited : List Bool} {v : List α}
    (h : Under idx old start i visited v) (hn : opens visited ≤ n) :
    Placed idx old (cycle idx start n i visited v).1 (cycle idx start n i visited v).2 ∧
      done (cycle idx start n i visited v).1 start = true ∧
      ∀ k, done visited k = true → done (cycle idx start n i visited v).1 k = true := by
  induction n generalizing i visited v with
  | zero =>
      have hopen := opens_set (h.marks ▸ h.inside) h.open_
      omega
  | succ n ih =>
      have hi : i < visited.length := h.marks ▸ h.inside
      have hset (k : Nat) : done (visited.set i true) k = (decide (k = i) || done visited k) := done_set hi
      have hopen := opens_set hi h.open_
      have hjlt := hidx.inside i h.inside
      -- Only the place before `i` goes to `i`.
      have hpred (k : Nat) (hk : k < old.length) (hki : idx.getD k 0 = i) (hne : i ≠ start) :
          done visited k = true := by
        rcases h.before with hstart | ⟨p, hp, hdone, hpi⟩
        · exact absurd hstart hne
        · rwa [hidx.inj k hk p hp (hki.trans hpi.symm)]
      rw [cycle]
      generalize hj : idx.getD i 0 = j at hjlt
      by_cases hstart : j = start
      · -- The cycle is closed.
        subst hstart
        rw [if_pos (.inl rfl)]
        refine ⟨⟨h.length, by rw [List.length_set, h.marks], fun k => ?_, fun k hk => ?_⟩, ?_, fun k hk => ?_⟩
        · rw [hset]
          by_cases hki : k = i
          · subst hki
            rw [decide_eq_true rfl, Bool.true_or, if_pos rfl, h.carried, hj]
          · rw [decide_eq_false hki, Bool.false_or]
            exact h.place k hki
        · rw [hset, hset, Bool.or_eq_true, Bool.or_eq_true, decide_eq_true_eq, decide_eq_true_eq]
          constructor
          · rintro (hki | hdone)
            · by_cases hij : i = j
              · exact .inl (hidx.inj k hk i h.inside (by rw [hki, hj, hij]))
              · exact .inr (hpred k hk hki hij)
            · by_cases hkj : idx.getD k 0 = j
              · exact .inl (hidx.inj k hk i h.inside (hkj.trans hj.symm))
              · exact .inr (h.back k hk hdone hkj)
          · rintro (rfl | hdone)
            · rw [hj]
              rcases h.begun with hij | hdone
              · exact .inl hij
              · exact .inr hdone
            · exact h.forward k hk hdone
        · rw [hset, Bool.or_eq_true, decide_eq_true_eq]
          exact h.begun
        · rw [hset, hk, Bool.or_true]
      · have hne : j ≠ i := by
          rintro rfl
          by_cases hij : j = start
          · exact hstart hij
          · have hdone := hpred j h.inside hj hij
            rw [h.open_] at hdone
            cases hdone
        have hjopen : done visited j = false := by
          cases hdone : done visited j with
          | false => rfl
          | true =>
            have hback := h.back i h.inside (hj ▸ hdone) (hj ▸ hstart)
            rw [h.open_] at hback
            cases hback
        rw [if_neg (not_or_intro hstart hne)]
        have hilt : i < v.length := h.length ▸ h.inside
        have hjlt' : j < v.length := h.length ▸ hjlt
        have hget (k : Nat) := @getElem?_swap _ v i v[i] v[j] j k (List.getElem?_eq_getElem hilt)
          (List.getElem?_eq_getElem hjlt') (Ne.symm hne)
        have next : Under idx old start j (visited.set i true) (swap v i j) := by
          refine ⟨?_, ?_, hjlt, ?_, ?_, fun k hk => ?_, fun k hk hdone => ?_, fun k hk hdone hks => ?_, ?_, ?_⟩
          · rw [length_swap, h.length]
          · rw [List.length_set, h.marks]
          · rw [hset, decide_eq_false hne, hjopen]
            rfl
          · rw [hget, if_neg hne, if_pos rfl, ← List.getElem?_eq_getElem hilt, h.carried]
          · rw [hget, hset]
            by_cases hki : k = i
            · subst hki
              rw [if_pos rfl, decide_eq_true rfl, Bool.true_or, if_pos rfl, ← List.getElem?_eq_getElem hjlt',
                h.place j hne, hjopen, hj]
              rfl
            · rw [if_neg hki, if_neg hk, decide_eq_false hki, Bool.false_or]
              exact h.place k hki
          · rw [hset, Bool.or_eq_true, decide_eq_true_eq] at hdone
            rw [hset, Bool.or_eq_true, decide_eq_true_eq]
            rcases hdone with rfl | hdone
            · exact .inl hj
            · exact .inr (h.forward k hk hdone)
          · rw [hset, Bool.or_eq_true, decide_eq_true_eq] at hdone
            rw [hset, Bool.or_eq_true]
            rcases hdone with hki | hdone
            · exact .inr (hpred k hk hki fun hij => hks (hki.trans hij))
            · exact .inr (h.back k hk hdone hks)
          · rw [hset, Bool.or_eq_true, decide_eq_true_eq]
            exact .inr h.begun
          · refine .inr ⟨i, h.inside, ?_, hj⟩
            rw [hset, decide_eq_true rfl, Bool.true_or]
        obtain ⟨placed, hdone, hmono⟩ := ih next (by omega)
        refine ⟨placed, hdone, fun k hk => hmono k ?_⟩
        rw [hset, hk, Bool.or_true]

/-- A visit puts right the cycle that starts at a place, and leaves those that are done. -/
theorem visit_placed (hidx : IsPerm idx old.length) (hlen : idx.length = old.length) {s : List Bool × List α}
    (h : Placed idx old s.1 s.2) {start : Nat} (hs : start < old.length) :
    Placed idx old (visit idx s start).1 (visit idx s start).2 ∧ done (visit idx s start).1 start = true ∧
      ∀ k, done s.1 k = true → done (visit idx s start).1 k = true := by
  unfold visit
  by_cases hdone : s.1.getD start false = true
  · rw [if_pos hdone]
    exact ⟨h, hdone, fun k hk => hk⟩
  · rw [if_neg hdone]
    have hopen : done s.1 start = false := by
      unfold done
      exact Bool.eq_false_iff.mpr hdone
    apply cycle_placed hidx
    · refine ⟨h.length, h.marks, hs, hopen, ?_, fun k _ => h.place k, fun k hk hd => ?_, fun k hk hd _ => ?_,
        .inl rfl, .inl rfl⟩
      · rw [h.place, hopen]
        rfl
      · exact .inr ((h.closed k hk).mpr hd)
      · exact (h.closed k hk).mp hd
    · rw [hlen, ← h.marks]
      exact List.count_le_length

theorem placed_start (idx : List Nat) (old : List α) : Placed idx old (List.replicate old.length false) old := by
  have hopen (k : Nat) : done (List.replicate old.length false) k = false := by
    unfold done
    rw [List.getD_eq_getElem?_getD, List.getElem?_replicate]
    split
    · rfl
    · rfl
  refine ⟨rfl, List.length_replicate, fun k => ?_, fun k _ => ?_⟩
  · rw [hopen]
    rfl
  · rw [hopen, hopen]

theorem permute_eq (hperm : idx.Perm (List.range v.length)) : ∀ k, k < v.length →
    (permute idx v)[k]? = v[idx.getD k 0]? := by
  have hlen : idx.length = v.length := by
    rw [hperm.length_eq, List.length_range]
  have hnodup : idx.Nodup := hperm.nodup_iff.mpr List.nodup_range
  have hget (k : Nat) (hk : k < v.length) : idx.getD k 0 = idx[k] := by
    rw [List.getD_eq_getElem?_getD, List.getElem?_eq_getElem (by omega)]
    rfl
  have hidx : IsPerm idx v.length := by
    refine ⟨fun k hk => ?_, fun k hk l hl heq => ?_⟩
    · rw [hget k hk]
      exact List.mem_range.mp (hperm.mem_iff.mp (List.getElem_mem _))
    · rw [hget k hk, hget l hl] at heq
      exact (List.Nodup.getElem_inj_iff hnodup).mp heq
  have run (n : Nat) (hn : n ≤ v.length) :
      let s := (List.range n).foldl (visit idx) (List.replicate v.length false, v)
      Placed idx v s.1 s.2 ∧ ∀ k, k < n → done s.1 k = true := by
    induction n with
    | zero => exact ⟨placed_start idx v, fun k hk => absurd hk (Nat.not_lt_zero k)⟩
    | succ n ih =>
        obtain ⟨placed, hdone⟩ := ih (by omega)
        obtain ⟨placed', hdone', hmono⟩ := visit_placed hidx hlen placed (show n < v.length by omega)
        rw [List.range_succ, List.foldl_append]
        refine ⟨placed', fun k hk => ?_⟩
        rcases Nat.lt_succ_iff_lt_or_eq.mp hk with hk | rfl
        · exact hmono k (hdone k hk)
        · exact hdone'
  intro k hk
  obtain ⟨placed, hdone⟩ := run v.length (Nat.le_refl _)
  unfold permute
  rw [placed.place k, hdone k hk, if_pos rfl]

end Cycles

section Rearranged

variable {cmp : α → α → Ordering} {idx : List Nat} {v : List α}

theorem map_some_permute (hperm : idx.Perm (List.range v.length)) :
    (permute idx v).map some = idx.map fun i => v[i]? := by
  have hlen : idx.length = v.length := by
    rw [hperm.length_eq, List.length_range]
  have hlen' : (permute idx v).length = v.length := by
    have hstep (s : List Bool × List α) (start : Nat) : (visit idx s start).2.length = s.2.length := by
      have hcycle (n i : Nat) (visited : List Bool) (v : List α) :
          (cycle idx start n i visited v).2.length = v.length := by
        induction n generalizing i visited v with
        | zero => rfl
        | succ n ih =>
            rw [cycle]
            split
            · rfl
            · rw [ih, length_swap]
      unfold visit
      split
      · rfl
      · exact hcycle _ _ _ _
    have hrun (l : List Nat) (s : List Bool × List α) : (l.foldl (visit idx) s).2.length = s.2.length := by
      induction l generalizing s with
      | nil => rfl
      | cons k l ih => rw [List.foldl_cons, ih, hstep]
    exact hrun _ _
  apply List.ext_getElem?
  intro k
  rw [List.getElem?_map, List.getElem?_map]
  by_cases hk : k < v.length
  · rw [permute_eq hperm k hk, List.getD_eq_getElem?_getD, List.getElem?_eq_getElem (by omega : k < idx.length)]
    dsimp only [Option.getD_some, Option.map_some]
    have hin := List.mem_range.mp (hperm.mem_iff.mp (List.getElem_mem (by omega : k < idx.length)))
    rw [List.getElem?_eq_getElem hin]
    rfl
  · rw [List.getElem?_eq_none (by omega), List.getElem?_eq_none (by omega)]
    rfl

theorem map_range (v : List α) : (List.range v.length).map (fun i => v[i]?) = v.map some := by
  apply List.ext_getElem?
  intro k
  rw [List.getElem?_map, List.getElem?_map]
  by_cases hk : k < v.length
  · rw [List.getElem?_range hk, List.getElem?_eq_getElem hk]
    dsimp only [Option.map_some]
    rw [List.getElem?_eq_getElem hk]
  · rw [List.getElem?_eq_none (by rw [List.length_range]; omega), List.getElem?_eq_none (by omega)]
    rfl

theorem permute_perm (hperm : idx.Perm (List.range v.length)) : (permute idx v).Perm v := by
  have both : ((permute idx v).map some).Perm (v.map some) := by
    rw [map_some_permute hperm, ← map_range v]
    exact hperm.map _
  have strip (l : List α) : (l.map some).filterMap id = l := by
    rw [List.filterMap_map]
    exact List.filterMap_some
  have perm := both.filterMap id
  rwa [strip, strip] at perm

theorem permute_sorted (hperm : idx.Perm (List.range v.length)) (h : Sorted (at_ cmp v) idx) :
    Sorted cmp (permute idx v) := by
  have hsome := map_some_permute hperm
  unfold Sorted at h ⊢
  rw [List.pairwise_iff_getElem] at h ⊢
  intro i j hi hj hij
  have hlen : idx.length = (permute idx v).length := by
    have same := congrArg List.length hsome
    rw [List.length_map, List.length_map] at same
    exact same.symm
  have hget (k : Nat) (hk : k < (permute idx v).length) (hk' : k < idx.length) :
      v[idx[k]]? = some (permute idx v)[k] := by
    have hmap : ((permute idx v).map some)[k]? = (idx.map fun i => v[i]?)[k]? := by rw [hsome]
    rw [List.getElem?_map, List.getElem?_map, List.getElem?_eq_getElem hk,
      List.getElem?_eq_getElem hk'] at hmap
    exact (Option.some.inj hmap).symm
  have hle := h i j (hlen ▸ hi) (hlen ▸ hj) hij
  unfold at_ at hle
  rw [hget i hi, hget j hj] at hle
  exact hle

theorem preorderOn_at (h : PreorderOn cmp v) : PreorderOn (at_ cmp v) (List.range v.length) := by
  have hat (i : Nat) (hi : i ∈ List.range v.length) (j : Nat) (hj : j ∈ List.range v.length) :
      at_ cmp v i j = cmp (v.get ⟨i, List.mem_range.mp hi⟩) (v.get ⟨j, List.mem_range.mp hj⟩) := by
    unfold at_
    rw [List.getElem?_eq_getElem (List.mem_range.mp hi), List.getElem?_eq_getElem (List.mem_range.mp hj)]
    rfl
  refine ⟨fun i hi j hj => ?_, fun i hi j hj k hk hij hjk => ?_⟩
  · rw [hat i hi j hj, hat j hj i hi]
    exact h.swap _ (List.get_mem _ _) _ (List.get_mem _ _)
  · rw [hat i hi j hj] at hij
    rw [hat j hj k hk] at hjk
    rw [hat i hi k hk]
    exact h.trans _ (List.get_mem _ _) _ (List.get_mem _ _) _ (List.get_mem _ _) hij hjk

/-- The sort gives a rearrangement whatever the comparison does, and a sorted one if this is a total
preorder of the values. -/
theorem qsort_tolerant_spec (cmp : α → α → Ordering) (v : List α) :
    (qsort_tolerant cmp v).Perm v ∧ (PreorderOn cmp v → Sorted cmp (qsort_tolerant cmp v)) := by
  unfold qsort_tolerant
  split
  · next h =>
    refine ⟨List.Perm.refl v, fun _ => ?_⟩
    match v, h with
    | [], _ => exact List.Pairwise.nil
    | [a], _ => exact List.pairwise_singleton _ a
  · have hperm := @passes_perm _ (at_ cmp v) v.length 1 (List.range v.length) (by omega)
    refine ⟨permute_perm hperm, fun h => permute_sorted hperm ?_⟩
    apply passes_sorted (preorderOn_at h) v.length (Nat.lt_succ_self 0)
    · rw [List.length_range]
      omega
    · exact fun i hi => hi
    · exact runsSorted_one _

end Rearranged

end Zshrs.Lib.TolerantSort
