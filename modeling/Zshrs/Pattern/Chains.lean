import Zshrs.Lib.Bytes
import Zshrs.Pattern.Nodes
import Zshrs.Pattern.Patmatch

namespace Zshrs.Pattern

open Lib.Bytes

/-- A node that is spelled out, and where the program goes on from it. A branch with a link has another one
behind it. -/
def nodeAt (buf : Bytes) (p : Nat) : Option (Node × Option Nat) := do
  let op ← buf[p]?
  let next := nextOf buf p
  let body := p + I_BODY
  let number i := (getRange buf (body + 8 * i) 8).map ofLE
  if op = P_END then some (.pEnd, none)
  else if op = P_BRANCH then if next = 0 then some (.branch, some body) else none
  else if op = P_NOTHING then some (.nothing, some next)
  else if op = P_EXACTLY then do
    let len ← getRange buf body 4
    let lit ← getRange buf (body + 4) (ofLE len)
    some (.exactly lit, some next)
  else if op = P_NUMRNG then do some (.numrng (← number 0) (← number 1), some next)
  else if op = P_NUMFROM then do some (.numfrom (← number 0), some next)
  else if op = P_NUMTO then do some (.numto (← number 0), some next)
  else if op = P_NUMANY then some (.numany, some next)
  else none

/-- The nodes from `p` on. -/
def nodesAt (buf : Bytes) : Nat → Nat → Option (List Node)
  | 0, _ => none
  | fuel + 1, p =>
    match nodeAt buf p with
    | none => none
    | some (node, none) => some [node]
    | some (node, some next) => (nodesAt buf fuel next).map (node :: ·)

section Nodes

/-- A node in the program: its op, its link and what follows. -/
def nodeBytes (op : UInt8) (next : Nat) (operand : Bytes) : Bytes := op :: (toLE 4 next ++ operand)

theorem nodeBytes_length (op : UInt8) (next : Nat) (operand : Bytes) :
    (nodeBytes op next operand).length = I_BODY + operand.length := by
  rw [nodeBytes, List.length_cons, List.length_append, length_toLE, I_BODY]
  omega

variable {buf operand : Bytes} {op : UInt8} {p next : Nat}

theorem op_nodeBytes (h : Stands buf p (nodeBytes op next operand)) : buf[p]? = some op :=
  h.getElem? (i := 0) (Nat.succ_pos _)

theorem link_nodeBytes (h : Stands buf p (nodeBytes op next operand)) (hnext : next < 2 ^ 32) :
    nextOf buf p = next := by
  obtain ⟨pre, post, rfl, rfl⟩ := h
  have hdrop : (pre ++ (nodeBytes op next operand ++ post)).drop (pre.length + I_NEXT) =
      toLE 4 next ++ (operand ++ post) := by
    rw [List.drop_length_add_append, I_NEXT, nodeBytes, List.cons_append, List.drop_succ_cons, List.drop_zero,
      List.append_assoc]
  rw [nextOf, hdrop, List.take_left' (length_toLE 4 next), ofLE_toLE, Nat.mod_eq_of_lt hnext]

theorem operand_nodeBytes (h : Stands buf p (nodeBytes op next operand)) : Stands buf (p + I_BODY) operand := by
  have hsplit : Stands buf p ((op :: toLE 4 next) ++ operand) := h
  exact hsplit.right (by rw [List.length_cons, length_toLE, I_BODY])

theorem end_nodeBytes (h : Stands buf p (nodeBytes op next operand)) : p + I_BODY ≤ buf.length := by
  have hle := h.le
  rw [nodeBytes_length] at hle
  omega

theorem setNextOf_nodeBytes (pre post : Bytes) (val : Nat) :
    setNextOf (pre ++ (nodeBytes op next operand ++ post)) pre.length val =
      pre ++ (nodeBytes op val operand ++ post) := by
  rw [setNextOf, List.take_length_add_append, List.drop_length_add_append, I_NEXT, I_BODY, nodeBytes, nodeBytes]
  simp only [List.cons_append, List.append_assoc, List.take_succ_cons, List.take_zero, List.drop_succ_cons]
  rw [List.drop_left' (length_toLE 4 next)]
  rfl

end Nodes

section Chains

/-- The chain of some nodes from `off` on. The last one has the link `last`. -/
def chainBytes (off last : Nat) : List (UInt8 × Bytes) → Bytes
  | [] => []
  | (op, operand) :: nodes =>
    let behind := off + I_BODY + operand.length
    nodeBytes op (if nodes = [] then last else behind) operand ++ chainBytes behind last nodes

/-- Where the last node of a chain stands. -/
def tailOf (off : Nat) : List (UInt8 × Bytes) → Nat
  | [] => off
  | [_] => off
  | (_, operand) :: node :: nodes => tailOf (off + I_BODY + operand.length) (node :: nodes)

/-- Where what follows a chain stands. -/
def behindOf (off : Nat) : List (UInt8 × Bytes) → Nat
  | [] => off
  | (_, operand) :: nodes => behindOf (off + I_BODY + operand.length) nodes

theorem chainBytes_link (off last : Nat) (op : UInt8) (operand : Bytes) (node : UInt8 × Bytes)
    (nodes : List (UInt8 × Bytes)) :
    chainBytes off last ((op, operand) :: node :: nodes) =
      nodeBytes op (off + I_BODY + operand.length) operand ++
        chainBytes (off + I_BODY + operand.length) last (node :: nodes) := by
  rw [chainBytes, if_neg (List.cons_ne_nil _ _)]

theorem chainBytes_length (off last : Nat) (nodes : List (UInt8 × Bytes)) :
    off + (chainBytes off last nodes).length = behindOf off nodes := by
  induction nodes generalizing off with
  | nil => rfl
  | cons node nodes ih =>
      obtain ⟨op, operand⟩ := node
      rw [chainBytes, behindOf, ← ih, List.length_append, nodeBytes_length]
      omega

theorem length_le_chainBytes (off last : Nat) (nodes : List (UInt8 × Bytes)) :
    nodes.length ≤ (chainBytes off last nodes).length := by
  induction nodes generalizing off with
  | nil => exact Nat.zero_le _
  | cons node nodes ih =>
      obtain ⟨op, operand⟩ := node
      have hrest := ih (off + I_BODY + operand.length)
      rw [chainBytes, List.length_cons, List.length_append, nodeBytes_length, I_BODY] at *
      omega

theorem le_behindOf (off : Nat) (nodes : List (UInt8 × Bytes)) : off ≤ behindOf off nodes := by
  rw [← chainBytes_length off 0]
  exact Nat.le_add_right _ _

theorem operand_le_behindOf (off : Nat) {nodes : List (UInt8 × Bytes)} {node : UInt8 × Bytes} (h : node ∈ nodes) :
    node.2.length ≤ behindOf off nodes := by
  induction nodes generalizing off with
  | nil => cases h
  | cons first nodes ih =>
      obtain rfl | h := List.mem_cons.mp h
      · exact (Nat.le_add_left _ _).trans (le_behindOf _ nodes)
      · exact ih _ h

theorem behindOf_append (off : Nat) (nodes more : List (UInt8 × Bytes)) :
    behindOf off (nodes ++ more) = behindOf (behindOf off nodes) more := by
  induction nodes generalizing off with
  | nil => rfl
  | cons node nodes ih => exact ih _

theorem tailOf_append (off : Nat) {nodes : List (UInt8 × Bytes)} (node : UInt8 × Bytes) :
    tailOf off (nodes ++ [node]) = behindOf off nodes := by
  induction nodes generalizing off with
  | nil => rfl
  | cons first nodes ih =>
      cases nodes with
      | nil => rfl
      | cons second nodes => exact ih _

theorem tailOf_lt (off : Nat) {nodes : List (UInt8 × Bytes)} (hne : nodes ≠ []) :
    tailOf off nodes + I_BODY ≤ behindOf off nodes := by
  induction nodes generalizing off with
  | nil => exact absurd rfl hne
  | cons first nodes ih =>
      cases nodes with
      | nil => exact Nat.le_add_right _ _
      | cons second nodes => exact ih _ (List.cons_ne_nil _ _)

theorem chainBytes_append (off last : Nat) {nodes : List (UInt8 × Bytes)} (hne : nodes ≠ [])
    (node : UInt8 × Bytes) :
    chainBytes off last (nodes ++ [node]) =
      chainBytes off (behindOf off nodes) nodes ++ nodeBytes node.1 last node.2 := by
  induction nodes generalizing off with
  | nil => exact absurd rfl hne
  | cons first nodes ih =>
      obtain ⟨op, operand⟩ := first
      cases nodes with
      | nil => simp [chainBytes, behindOf]
      | cons second nodes =>
          have hrest := ih (off + I_BODY + operand.length) (List.cons_ne_nil second nodes)
          rw [List.cons_append] at hrest
          rw [List.cons_append, List.cons_append, chainBytes_link, hrest, chainBytes_link, List.append_assoc]
          rfl

theorem setNextOf_chain (pre post : Bytes) {nodes : List (UInt8 × Bytes)} (hne : nodes ≠ []) (last val : Nat) :
    setNextOf (pre ++ (chainBytes pre.length last nodes ++ post)) (tailOf pre.length nodes) val =
      pre ++ (chainBytes pre.length val nodes ++ post) := by
  induction nodes generalizing pre with
  | nil => exact absurd rfl hne
  | cons first nodes ih =>
      obtain ⟨op, operand⟩ := first
      cases nodes with
      | nil =>
          simp only [chainBytes, tailOf, if_true, List.append_nil]
          exact setNextOf_nodeBytes pre post val
      | cons second nodes =>
          have hrest := ih (pre ++ nodeBytes op (pre.length + I_BODY + operand.length) operand)
            (List.cons_ne_nil _ _)
          rw [List.length_append, nodeBytes_length, ← Nat.add_assoc] at hrest
          rw [chainBytes_link, chainBytes_link, tailOf]
          simp only [List.append_assoc] at hrest ⊢
          exact hrest

theorem chainEnd_chain (pre post : Bytes) {nodes : List (UInt8 × Bytes)} (hne : nodes ≠ []) (fuel : Nat)
    (hsmall : behindOf pre.length nodes < 2 ^ 32) (hfuel : nodes.length ≤ fuel) (hpre : 0 < pre.length) :
    chainEnd (pre ++ (chainBytes pre.length 0 nodes ++ post)) fuel pre.length =
      some (some (tailOf pre.length nodes)) := by
  induction nodes generalizing pre fuel with
  | nil => exact absurd rfl hne
  | cons first nodes ih =>
      obtain ⟨op, operand⟩ := first
      obtain ⟨fuel, rfl⟩ : ∃ k, fuel = k + 1 := ⟨fuel - 1, by rw [List.length_cons] at hfuel; omega⟩
      cases nodes with
      | nil =>
          have hstands : Stands (pre ++ (chainBytes pre.length 0 [(op, operand)] ++ post)) pre.length
              (nodeBytes op 0 operand) :=
            ⟨pre, post, rfl, by simp [chainBytes]⟩
          rw [chainEnd, if_neg (Nat.not_lt.mpr (end_nodeBytes hstands)),
            if_pos (link_nodeBytes hstands (Nat.two_pow_pos 32)), tailOf]
      | cons second nodes =>
          have hnext : pre.length + I_BODY + operand.length < 2 ^ 32 :=
            Nat.lt_of_le_of_lt (le_behindOf _ _) hsmall
          have hbuf : pre ++ (chainBytes pre.length 0 ((op, operand) :: second :: nodes) ++ post) =
              pre ++ (nodeBytes op (pre.length + I_BODY + operand.length) operand ++
                (chainBytes (pre.length + I_BODY + operand.length) 0 (second :: nodes) ++ post)) := by
            rw [chainBytes_link, List.append_assoc]
          have hstands : Stands (pre ++ (chainBytes pre.length 0 ((op, operand) :: second :: nodes) ++ post))
              pre.length (nodeBytes op (pre.length + I_BODY + operand.length) operand) := ⟨pre, _, rfl, hbuf⟩
          have hlink := link_nodeBytes hstands hnext
          have hrest := ih (pre ++ nodeBytes op (pre.length + I_BODY + operand.length) operand)
            (List.cons_ne_nil _ _) fuel
          rw [List.length_append, nodeBytes_length, ← Nat.add_assoc] at hrest
          rw [chainEnd, if_neg (Nat.not_lt.mpr (end_nodeBytes hstands)), hlink, if_neg (by omega), tailOf, hbuf,
            ← List.append_assoc pre]
          exact hrest hsmall (by rw [List.length_cons] at hfuel; omega) (by omega)

end Chains

section Reading

variable {buf lit : Bytes} {p next : Nat}

/-- What is compiled to `code` is read as `node`, whatever its link. -/
def Spells (code : UInt8 × Bytes) (node : Node) : Prop :=
  ∀ buf p next, next < 2 ^ 32 → Stands buf p (nodeBytes code.1 next code.2) → nodeAt buf p = some (node, some next)

theorem nodeAt_end (h : Stands buf p (nodeBytes P_END next [])) : nodeAt buf p = some (.pEnd, none) := by
  rw [nodeAt, op_nodeBytes h]
  rfl

theorem nodeAt_branch (h : Stands buf p (nodeBytes P_BRANCH 0 [])) :
    nodeAt buf p = some (.branch, some (p + I_BODY)) := by
  rw [nodeAt, op_nodeBytes h, Option.bind_eq_bind, Option.bind_some, link_nodeBytes h (Nat.two_pow_pos 32)]
  rfl

theorem spells_nothing : Spells (P_NOTHING, []) .nothing := by
  intro buf p next hnext h
  rw [nodeAt, op_nodeBytes h, Option.bind_eq_bind, Option.bind_some, link_nodeBytes h hnext]
  rfl

theorem spells_exactly (hlit : lit.length < 2 ^ 32) :
    Spells (P_EXACTLY, toLE 4 lit.length ++ lit) (.exactly lit) := by
  intro buf p next hnext h
  have hlen : getRange buf (p + I_BODY) 4 = some (toLE 4 lit.length) :=
    (operand_nodeBytes h).left.getRange (length_toLE 4 _).symm
  have hrest : getRange buf (p + I_BODY + 4) (ofLE (toLE 4 lit.length)) = some lit := by
    rw [ofLE_toLE, Nat.mod_eq_of_lt hlit]
    exact ((operand_nodeBytes h).right (by rw [length_toLE])).getRange rfl
  rw [nodeAt, op_nodeBytes h, Option.bind_eq_bind, Option.bind_some, link_nodeBytes h hnext]
  simp only [hlen, Option.bind_eq_bind, Option.bind_some, hrest]
  rfl

theorem nodesAt_chain {f : UInt8 × Bytes → Node} {codes : List (UInt8 × Bytes)} (hne : codes ≠ [])
    (hspells : ∀ code ∈ codes, Spells code (f code)) {off last fuel : Nat} {rest : List Node}
    (hstands : Stands buf off (chainBytes off last codes)) (hsmall : behindOf off codes < 2 ^ 32)
    (hlast : last < 2 ^ 32) (hrest : nodesAt buf fuel last = some rest) :
    nodesAt buf (codes.length + fuel) off = some (codes.map f ++ rest) := by
  induction codes generalizing off with
  | nil => exact absurd rfl hne
  | cons first codes ih =>
      obtain ⟨op, operand⟩ := first
      have hfirst := hspells _ List.mem_cons_self
      have hfuel : (codes.length + 1) + fuel = (codes.length + fuel) + 1 := by omega
      cases codes with
      | nil =>
          rw [chainBytes, if_pos rfl, chainBytes, List.append_nil] at hstands
          rw [List.length_cons, hfuel, nodesAt, hfirst buf off last hlast hstands, List.length_nil, Nat.zero_add]
          simp only [hrest, Option.map_some, List.map_cons, List.map_nil, List.cons_append, List.nil_append]
      | cons second codes =>
          rw [chainBytes_link] at hstands
          have hnext : off + I_BODY + operand.length < 2 ^ 32 := Nat.lt_of_le_of_lt (le_behindOf _ _) hsmall
          have hmore := ih (List.cons_ne_nil _ _) (fun code hcode => hspells code (List.mem_cons_of_mem _ hcode))
            (hstands.right (by rw [nodeBytes_length, Nat.add_assoc])) hsmall
          rw [List.length_cons, hfuel, nodesAt, hfirst buf off _ hnext hstands.left]
          simp only [hmore, Option.map_some, List.map_cons, List.cons_append]

end Reading

end Zshrs.Pattern
