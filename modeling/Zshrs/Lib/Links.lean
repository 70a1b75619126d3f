import Mathlib.Data.List.Perm.Subperm

namespace Zshrs.Lib.Links

variable {ν : Type} {nodes : List ν} {link : ν → Option Nat}

/-- The nodes that `link` leads over from a place, up to its end. -/
inductive Chain (nodes : List ν) (link : ν → Option Nat) : Option Nat → List ν → Prop
  | nil : Chain nodes link none []
  | cons {i : Nat} {a : ν} {xs : List ν} (hread : nodes[i]? = some a) (htail : Chain nodes link (link a) xs) :
      Chain nodes link (some i) (a :: xs)

/-- At most `n` nodes from a place on. -/
def follow (nodes : List ν) (link : ν → Option Nat) : Nat → Option Nat → Option (List ν)
  | _, none => some []
  | 0, some _ => none
  | n + 1, some i => do
      let a ← nodes[i]?
      let xs ← follow nodes link n (link a)
      return a :: xs

theorem follow_of_chain {p : Option Nat} {xs : List ν} (h : Chain nodes link p xs) {n : Nat} (hn : xs.length ≤ n) :
    follow nodes link n p = some xs := by
  induction h generalizing n with
  | nil => cases n <;> rfl
  | cons hread htail ih =>
      cases n with
      | zero => exact absurd hn (Nat.not_succ_le_zero _)
      | succ n => simp [follow, hread, ih (Nat.le_of_succ_le_succ hn)]

theorem chain_unique {p : Option Nat} {xs ys : List ν} (hx : Chain nodes link p xs) (hy : Chain nodes link p ys) :
    xs = ys := by
  induction hx generalizing ys with
  | nil =>
      cases hy
      rfl
  | cons hread htail ih =>
      cases hy with
      | cons hread' htail' =>
          obtain rfl := Option.some.inj (hread.symm.trans hread')
          rw [ih htail']

/-- The places on a chain: from each of them the chain goes on, and none comes twice. -/
theorem exists_places {p : Option Nat} {xs : List ν} (h : Chain nodes link p xs) :
    ∃ is : List Nat, is.length = xs.length ∧ is.Nodup ∧ (∀ i ∈ is, i < nodes.length) ∧
      ∀ i ∈ is, ∃ ys : List ν, ys.length ≤ xs.length ∧ Chain nodes link (some i) ys := by
  induction h with
  | nil => exact ⟨[], rfl, List.nodup_nil, by simp, by simp⟩
  | @cons i a xs hread htail ih =>
      obtain ⟨is, hlength, hnodup, hbound, hfrom⟩ := ih
      have hnew : i ∉ is := by
        intro hi
        obtain ⟨ys, hle, hys⟩ := hfrom i hi
        have hsame := chain_unique hys (.cons hread htail)
        rw [hsame] at hle
        exact absurd hle (Nat.not_succ_le_self _)
      refine ⟨i :: is, ?_, ?_, ?_, ?_⟩
      · simp [hlength]
      · exact List.nodup_cons.mpr ⟨hnew, hnodup⟩
      · intro j hj
        rcases List.mem_cons.mp hj with rfl | hj
        · exact (List.getElem?_eq_some_iff.mp hread).1
        · exact hbound j hj
      · intro j hj
        rcases List.mem_cons.mp hj with rfl | hj
        · exact ⟨a :: xs, Nat.le_refl _, .cons hread htail⟩
        · obtain ⟨ys, hle, hys⟩ := hfrom j hj
          exact ⟨ys, Nat.le_succ_of_le hle, hys⟩

theorem chain_length_le {p : Option Nat} {xs : List ν} (h : Chain nodes link p xs) : xs.length ≤ nodes.length := by
  obtain ⟨is, hlength, hnodup, hbound, -⟩ := exists_places h
  rw [← hlength, ← List.length_range (n := nodes.length)]
  apply (List.Nodup.subperm hnodup ?_).length_le
  intro i hi
  exact List.mem_range.mpr (hbound i hi)

end Zshrs.Lib.Links
