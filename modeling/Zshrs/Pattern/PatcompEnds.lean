import Zshrs.Lib.Fuel
import Zshrs.Pattern.Patcompile

namespace Zshrs.Pattern

open Lib.Fuel (Settles.bind Settles.ite Settles.of_step settles_pure settles_throw settles_modify)

/-- What is left to parse. -/
def Comp.left (s : Comp) : Nat := s.patparse.length

/-- A part of the compiler does not use up the fuel, and gives no text back. -/
abbrev Settles {α : Type} (m : Compile α) (s : Comp) : Prop := Lib.Fuel.Settles Comp.left Fault.fuel m s

variable {α : Type} {R : Reads} {paren : Bool} {s : Comp}

section Nodes

theorem settles_bad : Settles (bad : Compile α) s := settles_throw nofun

theorem settles_map {β : Type} {m : Compile α} {f : α → β} (h : Settles m s) : Settles (f <$> m) s := by
  rw [map_eq_pure_bind]
  exact h.bind fun _ _ _ => settles_pure _

theorem settles_hang : Settles (throw .hang : Compile α) s := settles_throw nofun

/-- What only reads the state leaves it. -/
theorem settles_read {β : Type} {m : Compile β} {b : β} {f : β → Compile α} (hm : m s = .ok b s)
    (h : Settles (f b) s) : Settles (m >>= f) s := by
  refine Settles.of_step (t := s) ?_ (Nat.le_refl _) h
  change EStateM.bind m f s = f b s
  rw [EStateM.bind, hm]

theorem settles_getParse {f : Bytes → Compile α} (h : Settles (f s.patparse) s) : Settles (getParse >>= f) s :=
  settles_read rfl h

theorem settles_getOut {f : Bytes → Compile α} (h : Settles (f s.patout) s) : Settles (getOut >>= f) s :=
  settles_read rfl h

theorem settles_getGlobflags {f : Flags → Compile α} (h : Settles (f s.patglobflags) s) :
    Settles (getGlobflags >>= f) s :=
  settles_read rfl h

theorem settles_setParse {text : Bytes} {f : Unit → Compile α} (hle : text.length ≤ s.left)
    (h : Settles (f ()) { s with patparse := text }) : Settles (setParse text >>= f) s :=
  Settles.of_step (t := { s with patparse := text }) rfl hle h

theorem settles_storeFlags {flags : Flags} {f : Unit → Compile α}
    (h : Settles (f ()) { s with patglobflags := flags }) : Settles (setGlobflags flags >>= f) s :=
  Settles.of_step (t := { s with patglobflags := flags }) rfl (Nat.le_refl _) h

theorem settles_setOut (buf : Bytes) : Settles (setOut buf) s := settles_modify (Nat.le_refl _)

theorem settles_setGlobflags (flags : Flags) : Settles (setGlobflags flags) s := settles_modify (Nat.le_refl _)

theorem settles_extend_patout (bytes : Bytes) : Settles (extend_patout bytes) s := settles_modify (Nat.le_refl _)

theorem settles_patnode (op : UInt8) : Settles (patnode op) s := by
  rw [patnode]
  exact settles_getOut ((settles_extend_patout _).bind fun _ _ _ => settles_pure _)

theorem settles_patnodeWith (op : UInt8) (operand : Bytes) : Settles (patnodeWith op operand) s := by
  rw [patnodeWith]
  exact (settles_patnode _).bind fun _ _ _ => (settles_extend_patout _).bind fun _ _ _ => settles_pure _

theorem settles_patinsert (op : UInt8) (opnd : Nat) (xtra : Bytes) : Settles (patinsert op opnd xtra) s := by
  rw [patinsert]
  exact settles_getOut (settles_setOut _)

theorem settles_set_next (pos val : Nat) : Settles (set_next pos val) s := by
  rw [set_next]
  exact settles_getOut (Settles.ite (fun _ => settles_setOut _) fun _ => settles_pure _)

theorem settles_pattail (p val : Nat) : Settles (pattail p val) s := by
  rw [pattail]
  apply settles_getOut
  cases chainEnd s.patout (s.patout.length + 1) p with
  | none => exact settles_hang
  | some last =>
      cases last with
      | none => exact settles_pure _
      | some last => exact settles_setOut _

theorem settles_patoptail (p val : Nat) : Settles (patoptail p val) s := by
  rw [patoptail]
  apply settles_getOut
  cases s.patout[p]? with
  | none => exact settles_pure _
  | some op => exact Settles.ite (fun _ => settles_pattail _ _) fun _ => settles_pure _

theorem settles_chainBranches (target n cur : Nat) : Settles (chainBranches target n cur) s := by
  induction n generalizing s cur with
  | zero => exact settles_hang
  | succ n ih =>
      rw [chainBranches]
      refine (settles_pattail _ _).bind fun _ t _ => settles_getOut ?_
      exact Settles.ite (fun _ => settles_pure _) fun _ => Settles.ite (fun _ => settles_pure _) fun _ => ih _

theorem settles_chain_branches_to (starter target : Nat) : Settles (chain_branches_to starter target) s := by
  rw [chain_branches_to]
  exact settles_getOut (settles_chainBranches _ _ _)

end Nodes

section Text

theorem dropWhile_length_le {p : UInt8 → Bool} (text : Bytes) : (text.dropWhile p).length ≤ text.length :=
  (List.dropWhile_suffix p).length_le

theorem className_length {bb name rest : Bytes} (h : className bb = some (name, rest)) :
    rest.length ≤ bb.length := by
  induction bb using className.induct generalizing name with
  | case1 rest' =>
      cases h
      simp only [List.length_cons]
      omega
  | case2 b rest' hno ih =>
      rw [className] at h
      · obtain ⟨⟨name', rest''⟩, hname, heq⟩ := Option.map_eq_some_iff.mp h
        cases heq
        have := ih hname
        simp only [List.length_cons]
        omega
      · exact hno
  | case3 => cases h

variable {mbrtowc : Bytes → Mbrtowc} {multibyte : Bool} {m m' : Members} {bb rest : Bytes}

theorem metafiedChar_length {wc : Nat} (h : metafiedChar mbrtowc multibyte bb = some (wc, rest)) :
    rest.length ≤ bb.length := by
  rw [metafiedChar] at h
  split at h
  · cases h
    exact (List.drop_suffix _ _).length_le
  · cases h

theorem metafiedHigh_length (lo : Nat) (p : Bytes) :
    (metafiedHigh mbrtowc multibyte lo p).2.length ≤ p.length := by
  unfold metafiedHigh
  split
  · rename_i q
    split
    · cases hq : metafiedChar mbrtowc multibyte q with
      | none => exact Nat.le_refl _
      | some c => exact (metafiedChar_length hq).trans (Nat.le_succ _)
    · exact Nat.le_refl _
  · exact Nat.le_refl _

theorem metafiedMember_length (h : metafiedMember mbrtowc multibyte m bb = some (m', rest)) :
    rest.length ≤ bb.length := by
  rw [metafiedMember] at h
  split at h
  · obtain ⟨⟨lo, p⟩, hlo, heq⟩ := Option.map_eq_some_iff.mp h
    cases heq
    exact (metafiedHigh_length lo p).trans (metafiedChar_length hlo)
  · cases h

theorem escapedMember_length (h : escapedMember m bb = some (m', rest)) : rest.length ≤ bb.length := by
  unfold escapedMember at h
  split at h
  · cases h
    simp only [List.length_cons]
    omega
  · cases h

theorem classMember_length (h : classMember m bb = some (m', rest)) : rest.length ≤ bb.length := by
  unfold classMember at h
  split at h
  · obtain ⟨⟨name, rest'⟩, hname, heq⟩ := Option.map_eq_some_iff.mp h
    cases heq
    have := className_length hname
    simp only [List.length_cons]
    omega
  · cases h

theorem wideMember_length (h : wideMember m bb = some (m', rest)) : rest.length ≤ bb.length := by
  unfold wideMember at h
  split at h
  · split at h
    · split at h
      · cases h
        exact (List.drop_suffix _ _).length_le
      · cases h
        exact (List.drop_suffix _ _).length_le
    · cases h
      exact (List.drop_suffix _ _).length_le
    · cases h
  · cases h

theorem plainMember_length (m : Members) (bb : Bytes) : (plainMember m bb).2.length ≤ bb.length := by
  unfold plainMember
  split
  · split
    · simp
    · split
      · simp only [List.length_drop, List.length_cons]
        omega
      · simp only [List.length_cons]
        omega
  · simp
  · exact Nat.le_refl _

theorem nextMember_length : (nextMember mbrtowc multibyte m bb).2.length ≤ bb.length := by
  rw [nextMember]
  cases h : (metafiedMember mbrtowc multibyte m bb <|> escapedMember m bb <|> classMember m bb <|>
    wideMember m bb) with
  | none => exact plainMember_length m bb
  | some p =>
      rw [Option.getD_some]
      simp only [Option.orElse_eq_orElse, Option.orElse_eq_or, Option.or_eq_some_iff] at h
      rcases h with h | ⟨-, h | ⟨-, h | ⟨-, h⟩⟩⟩
      · exact metafiedMember_length h
      · exact escapedMember_length h
      · exact classMember_length h
      · exact wideMember_length h

theorem parseMembers_length (mbrtowc : Bytes → Mbrtowc) (multibyte : Bool) (fuel : Nat) (m : Members)
    (bb : Bytes) : (parseMembers mbrtowc multibyte fuel m bb).2.length ≤ bb.length := by
  induction fuel generalizing m bb with
  | zero => exact Nat.le_refl _
  | succ fuel ih =>
      rw [parseMembers]
      split
      · exact Nat.le_refl _
      · exact (ih _ _).trans nextMember_length

theorem bracketNegate_length (modes : Modes) (bb : Bytes) : (bracketNegate modes bb).2.length ≤ bb.length := by
  unfold bracketNegate
  split
  · exact Nat.le_succ _
  · split
    · exact Nat.le_refl _
    · exact Nat.le_succ _
  · exact Nat.le_refl _

theorem bracketFirst_length (bb : Bytes) : (bracketFirst bb).2.length ≤ bb.length := by
  unfold bracketFirst
  split
  · split
    · exact Nat.le_succ _
    · exact Nat.le_refl _
  · exact Nat.le_refl _

theorem parseBracket_length (modes : Modes) (mbrtowc : Bytes → Mbrtowc) (multibyte : Bool) (bb : Bytes) :
    (parseBracket modes mbrtowc multibyte bb).2.2.length ≤ bb.length := by
  rw [parseBracket]
  dsimp only
  have negate := bracketNegate_length modes bb
  have first := bracketFirst_length (bracketNegate modes bb).2
  generalize bracketFirst (bracketNegate modes bb).2 = p at first ⊢
  have members := parseMembers_length mbrtowc multibyte p.2.length p.1 p.2
  split
  · rw [List.length_tail]
    omega
  · omega

theorem numericRange_length {text rest : Bytes} {lo hi : Option (BitVec 64)}
    (h : numericRange text = some (lo, hi, rest)) : rest.length ≤ text.length := by
  unfold numericRange at h
  dsimp only at h
  split at h
  · rename_i more hmore
    have first := dropWhile_length_le (p := is_ascii_digit) text
    split at h
    · rename_i rest' hrest
      have second := dropWhile_length_le (p := is_ascii_digit) more
      cases h
      rw [hmore, List.length_cons] at first
      rw [hrest, List.length_cons] at second
      omega
    · cases h
  · cases h

theorem prefixBounds_length {text rest : Bytes} {min max : Nat} (h : prefixBounds text = some (min, max, rest)) :
    rest.length ≤ text.length := by
  unfold prefixBounds at h
  have first := dropWhile_length_le (p := is_ascii_digit) text
  dsimp only at h
  split at h
  · rename_i more hmore
    have second := dropWhile_length_le (p := is_ascii_digit) more
    rw [hmore, List.length_cons] at first
    split at h
    · cases h
    · cases h
      omega
  · obtain ⟨n, _, heq⟩ := Option.map_eq_some_iff.mp h
    cases heq
    exact first

theorem ksh93_count_prefix_length {text rest : Bytes} {min max : Nat}
    (h : ksh93_count_prefix text = some (min, max, rest)) : rest.length < text.length := by
  unfold ksh93_count_prefix at h
  split at h
  · split at h
    · rename_i hbounds
      have shorter := prefixBounds_length hbounds
      split at h
      · cases h
      · cases h
        exact Nat.lt_succ_of_le shorter
    · cases h
  · cases h

theorem countSpec_length {text rest : Bytes} {min max : BitVec 64}
    (h : countSpec R text = some (min, max, rest)) : rest.length < text.length := by
  unfold countSpec at h
  split at h
  · rename_i text
    have first := dropWhile_length_le (p := is_ascii_digit) text
    split at h
    · split at h
      · rename_i more hmore
        rw [hmore, List.length_cons] at first
        split at h
        · rename_i rest' hrest
          have second := dropWhile_length_le (p := is_ascii_digit) more
          cases h
          rw [hrest, List.length_cons] at second
          simp only [List.length_cons]
          omega
        · cases h
      · rename_i rest' hrest
        rw [hrest, List.length_cons] at first
        split at h
        · cases h
        · cases h
          simp only [List.length_cons]
          omega
      · cases h
    · cases h
  · cases h

theorem flagSpec_length {text spec : Bytes} (h : flagSpec R text = some spec) : spec.length < text.length := by
  unfold flagSpec at h
  split at h
  · split at h
    · rename_i rest hrest
      cases h
      have shorter := congrArg List.length hrest
      split at shorter
      · rw [List.length_tail] at shorter
        simp only [List.length_cons] at shorter
        omega
      · simp only [List.length_cons] at shorter
        omega
    · cases h
  · cases h

end Text

section Atoms

variable {text rest : Bytes}

theorem settles_nodeAtom (op : UInt8) (flags : Flags) (h : rest.length ≤ s.left) :
    Settles (nodeAtom op flags rest) s := by
  rw [nodeAtom]
  exact settles_setParse h ((settles_patnode _).bind fun _ _ _ => settles_pure _)

theorem settles_exactly (lit : Bytes) : Settles (exactly lit) s := settles_patnodeWith _ _

theorem settles_bracketAtom (h : rest.length ≤ s.left) : Settles (bracketAtom R rest) s := by
  rw [bracketAtom]
  refine Settles.ite (fun _ => settles_bad) fun _ => settles_getGlobflags ?_
  refine settles_setParse ((parseBracket_length _ _ _ _).trans h) ?_
  exact (settles_patnodeWith _ _).bind fun _ _ _ => settles_pure _

theorem settles_escapedAtom (h : rest.length ≤ s.left) : Settles (escapedAtom rest) s := by
  rw [escapedAtom]
  refine settles_setParse ?_ ((settles_exactly _).bind fun _ _ _ => settles_pure _)
  rw [List.length_tail]
  omega

theorem settles_rangeNode (lo hi : Option (BitVec 64)) : Settles (rangeNode lo hi) s := by
  cases lo with
  | some lo => cases hi <;> exact settles_patnodeWith _ _
  | none =>
      cases hi with
      | some hi => exact settles_patnodeWith _ _
      | none => exact settles_patnode _

theorem settles_inangAtom (h : rest.length ≤ s.left) : Settles (inangAtom R rest) s := by
  rw [inangAtom]
  split
  · exact settles_setParse h ((settles_exactly _).bind fun _ _ _ => settles_pure _)
  · rename_i lo hi rest' hrange
    have hle : rest'.length ≤ rest.length := by
      split at hrange
      · exact numericRange_length hrange
      · cases hrange
    exact settles_setParse (hle.trans h) ((settles_rangeNode _ _).bind fun _ _ _ => settles_pure _)

theorem settles_literalAtom (h : text.length ≤ s.left) : Settles (literalAtom R paren text) s := by
  rw [literalAtom]
  refine Settles.ite (fun _ => settles_bad) fun _ => settles_setParse ?_ (settles_getGlobflags ?_)
  · rw [List.length_drop]
    omega
  · exact (settles_exactly _).bind fun _ _ _ => settles_pure _

theorem settles_groupNumber : Settles groupNumber s := by
  rw [groupNumber]
  refine settles_read rfl (Settles.ite (fun _ => ?_) fun _ => settles_pure _)
  exact Settles.of_step (t := { s with patnpar := s.patnpar + 1 }) rfl (Nat.le_refl _) (settles_pure _)

theorem settles_expectOutpar : Settles expectOutpar s := by
  rw [expectOutpar]
  apply settles_getParse
  split
  · rename_i rest hrest
    refine settles_modify ?_
    change rest.length ≤ s.left
    rw [Comp.left, hrest]
    exact Nat.le_succ _
  · exact settles_bad

theorem settles_restoreNode (savglobflags : Flags) : Settles (restoreNode savglobflags) s := by
  rw [restoreNode]
  exact (settles_patnodeWith _ _).bind fun _ _ _ => (settles_setGlobflags _).bind fun _ _ _ => settles_pure _

theorem settles_closure (op kshchar : UInt8) (p : Piece) : Settles (closure op kshchar p) s := by
  rw [closure]
  refine settles_getOut (Settles.ite (fun _ => ?any) fun _ => settles_getGlobflags ?_)
  case any =>
    refine Settles.ite (fun _ => ?_) fun _ => (settles_setOut _).bind fun _ _ _ => settles_pure _
    exact (settles_patnode _).bind fun _ _ _ => (settles_pattail _ _).bind fun _ _ _ => settles_pure _
  refine Settles.ite (fun _ => (settles_patinsert _ _ _).bind fun _ _ _ => settles_pure _) fun _ => ?_
  refine Settles.ite (fun _ => ?onehash) fun _ => Settles.ite (fun _ => ?twohash) fun _ =>
    Settles.ite (fun _ => ?quest) fun _ => settles_pure _
  case onehash =>
    refine (settles_patinsert _ _ _).bind fun _ _ _ => (settles_patnode _).bind fun _ _ _ => ?_
    refine (settles_patoptail _ _).bind fun _ _ _ => (settles_patoptail _ _).bind fun _ _ _ => ?_
    refine (settles_patnode _).bind fun _ _ _ => (settles_pattail _ _).bind fun _ _ _ => ?_
    exact (settles_patnode _).bind fun _ _ _ => (settles_pattail _ _).bind fun _ _ _ => settles_pure _
  case twohash =>
    refine (settles_patnodeWith _ _).bind fun _ _ _ => (settles_pattail _ _).bind fun _ _ _ => ?_
    refine (settles_patnode _).bind fun _ _ _ => (settles_pattail _ _).bind fun _ _ _ => ?_
    refine (settles_patnode _).bind fun _ _ _ => (settles_pattail _ _).bind fun _ _ _ => ?_
    exact (settles_patnode _).bind fun _ _ _ => (settles_pattail _ _).bind fun _ _ _ => settles_pure _
  case quest =>
    refine (settles_patinsert _ _ _).bind fun _ _ _ => (settles_patnode _).bind fun _ _ _ => ?_
    refine (settles_pattail _ _).bind fun _ _ _ => (settles_patnode _).bind fun _ _ _ => ?_
    exact (settles_pattail _ _).bind fun _ _ _ => (settles_patoptail _ _).bind fun _ _ _ => settles_pure _

theorem settles_quantify (kshchar : UInt8) (p : Piece) : Settles (quantify R kshchar p) s := by
  rw [quantify]
  refine settles_getParse (Settles.ite (fun _ => settles_pure _) fun _ => settles_getOut ?_)
  refine Settles.ite (fun _ => settles_bad) fun _ => settles_setParse ?_ ?_
  · rw [List.length_drop]
    exact Nat.sub_le _ _
  · refine (settles_closure _ _ _).bind fun _ _ _ => settles_getParse ?_
    exact Settles.ite (fun _ => settles_bad) fun _ => settles_pure _

end Atoms

section Branches

variable {B : Branch}

theorem settles_linkTail (tail : Option Nat) (val : Nat) : Settles (linkTail tail val) s := by
  cases tail with
  | none => exact settles_pure _
  | some tail => exact settles_set_next _ _

theorem settles_chain (head tail : Nat) : Settles (B.chain head tail) s := by
  rw [Branch.chain]
  exact (settles_linkTail _ _).bind fun _ _ _ => settles_pure _

theorem settles_node (op : UInt8) (operand : Bytes) : Settles (B.node op operand) s := by
  rw [Branch.node]
  exact (settles_patnodeWith _ _).bind fun _ _ _ => settles_chain _ _

theorem settles_wrap (bounds : BitVec 64 × BitVec 64) (piece_start : Nat) (prev : Option Nat) :
    Settles (wrap_piece_in_count bounds piece_start prev B) s := by
  rw [wrap_piece_in_count]
  refine settles_getOut ((settles_setOut _).bind fun _ _ _ => (settles_linkTail _ _).bind fun _ _ _ => ?_)
  refine (settles_patnodeWith _ _).bind fun _ _ _ => settles_getOut ((settles_extend_patout _).bind fun _ _ _ => ?_)
  exact (settles_linkTail _ _).bind fun _ _ _ => settles_pure _

theorem settles_add (p : Piece) : Settles (B.add p) s := by
  rw [Branch.add]
  refine (settles_chain _ _).bind fun B _ _ => ?_
  cases B.pending_count with
  | none => exact settles_pure _
  | some bounds => exact settles_wrap _ _ _

theorem settles_count (min max : BitVec 64) : Settles (B.count min max) s := by
  rw [Branch.count]
  split
  · exact settles_bad
  · exact settles_getOut (Settles.ite (fun _ => settles_bad) fun _ => settles_wrap _ _ _)

theorem settles_setFlags (old : Flags) (assertp : UInt8) : Settles (B.setFlags old assertp) s := by
  rw [Branch.setFlags]
  refine settles_getGlobflags (Settles.ite (fun _ => settles_pure _) fun _ => ?_)
  refine (Settles.ite (fun _ => settles_node _ _) fun _ => settles_pure _).bind fun _ _ _ => ?_
  exact Settles.ite (fun _ => settles_node _ _) fun _ => settles_pure _

/-- A specifier takes all its text, and what is none takes nothing. -/
theorem settles_scanFlags {spec : Option Bytes} {f : Option UInt8 → Compile α}
    (hnone : ∀ t, t.patparse = s.patparse → Settles (f none) t)
    (hsome : ∀ text ∈ spec, ∀ assertp t, t.left ≤ text.length → Settles (f (some assertp)) t)
    (hspec : ∀ text ∈ spec, text.length ≤ s.left) : Settles (scanFlags spec >>= f) s := by
  cases spec with
  | none => exact settles_read rfl (hnone s rfl)
  | some text =>
      rw [scanFlags, bind_assoc]
      refine settles_getGlobflags ?_
      dsimp only
      cases hscan : patgetglobflags s.patglobflags (text.map fun b => Char.ofNat b.toNat) with
      | mk flags scanned =>
          dsimp only
          rw [bind_assoc]
          refine settles_storeFlags ?_
          cases scanned with
          | none => exact hnone _ rfl
          | some found =>
              dsimp only
              rw [bind_assoc]
              have shorter : (text.drop (text.length - found.2.2.length)).length ≤ text.length :=
                (List.drop_suffix _ _).length_le
              refine settles_setParse (shorter.trans (hspec text rfl)) ?_
              exact hsome text rfl _ _ shorter

theorem settles_syncNode (last_branch : Nat) : Settles (syncNode last_branch) s := by
  rw [syncNode]
  exact (settles_patnode _).bind fun _ _ _ => (settles_patoptail _ _).bind fun _ _ _ => settles_pure _

theorem settles_excludeNode (last_branch excsync : Nat) : Settles (excludeNode paren last_branch excsync) s := by
  rw [excludeNode]
  refine (Settles.ite (fun _ => settles_syncNode _) fun _ => settles_pure _).bind fun _ _ _ => ?_
  refine (settles_modify (Nat.le_refl _)).bind fun _ _ _ => settles_read rfl ?_
  refine Settles.ite (fun _ => ?_) fun _ => (settles_patnodeWith _ _).bind fun _ _ _ => settles_pure _
  refine (settles_patnodeWith _ _).bind fun _ _ _ => ?_
  exact (settles_modify (Nat.le_refl _)).bind fun _ _ _ => settles_pure _

theorem settles_branchNode (savglobflags : Flags) : Settles (branchNode paren savglobflags) s := by
  rw [branchNode]
  refine (settles_patnode _).bind fun _ _ _ => Settles.ite (fun _ => ?_) fun _ => ?_
  · exact (settles_setGlobflags _).bind fun _ _ _ => settles_pure _
  · refine settles_getGlobflags ((settles_setGlobflags _).bind fun _ _ _ => ?_)
    refine Settles.ite (fun _ => ?_) fun _ => settles_pure _
    exact (settles_patnodeWith _ _).bind fun _ _ _ => settles_pure _

theorem settles_properEnd : Settles (properEnd paren) s := by
  rw [properEnd]
  refine settles_read rfl ?_
  cases s.patparse with
  | nil => exact settles_pure _
  | cons c rest => exact Settles.ite (fun _ => settles_pure _) fun _ => settles_bad

theorem settles_negatedPiece (starter : Nat) : Settles (negatedPiece starter) s := by
  rw [negatedPiece]
  apply settles_getOut
  cases pieceTail s.patout (s.patout.length + 1) starter with
  | none => exact settles_hang
  | some tail => exact settles_pure _

end Branches

section Groups

/-- A part settles wherever no more text is left than in `s`. -/
abbrev SettlesBelow (m : Compile α) (s : Comp) : Prop := ∀ t : Comp, t.left ≤ s.left → Settles m t

theorem settles_negation {inner : Compile Nat} (h : SettlesBelow inner s) : Settles (negation inner) s := by
  rw [negation]
  refine (settles_patnode _).bind fun _ t₁ h₁ => (settles_patnode _).bind fun _ t₂ h₂ => ?_
  refine (settles_patnode _).bind fun _ t₃ h₃ => (settles_pattail _ _).bind fun _ t₄ h₄ => ?_
  refine (settles_patnode _).bind fun _ t₅ h₅ => (settles_pattail _ _).bind fun _ t₆ h₆ => ?_
  refine (settles_extend_patout _).bind fun _ t₇ h₇ => (h t₇ (by omega)).bind fun _ _ _ => ?_
  refine (settles_patnode _).bind fun _ _ _ => (settles_pattail _ _).bind fun _ _ _ => ?_
  refine (settles_patnode _).bind fun _ _ _ => (settles_pattail _ _).bind fun _ _ _ => ?_
  exact (settles_pattail _ _).bind fun _ _ _ => settles_pure _

theorem settles_group {inner : Compile Switch} (h : SettlesBelow inner s) : Settles (group inner) s := by
  rw [group]
  refine settles_groupNumber.bind fun _ t₁ h₁ => (settles_patnode _).bind fun _ t₂ h₂ => ?_
  refine settles_getGlobflags ((h t₂ (by omega)).bind fun _ _ _ => settles_expectOutpar.bind fun _ _ _ => ?_)
  refine (settles_patnode _).bind fun _ _ _ => (settles_set_next _ _).bind fun _ _ _ => ?_
  refine (settles_pattail _ _).bind fun _ _ _ => (settles_chain_branches_to _ _).bind fun _ _ _ => ?_
  refine Settles.ite (fun _ => ?_) fun _ => settles_pure _
  exact (settles_restoreNode _).bind fun _ _ _ => (settles_set_next _ _).bind fun _ _ _ => settles_pure _

theorem settles_negatedGroup {inner : Compile Switch} (h : SettlesBelow inner s) :
    Settles (negatedGroup inner) s := by
  rw [negatedGroup]
  refine settles_getGlobflags (settles_groupNumber.bind fun _ t₁ h₁ => ?_)
  refine Settles.bind (Settles.ite (fun _ => settles_map (settles_patnode _)) fun _ => settles_pure _) fun _ t₂ h₂ => ?_
  refine (h t₂ (by omega)).bind fun _ _ _ => settles_expectOutpar.bind fun _ _ _ => ?_
  refine (settles_linkTail _ _).bind fun _ _ _ => (settles_patnode _).bind fun _ _ _ => ?_
  refine (settles_pattail _ _).bind fun _ _ _ => (settles_chain_branches_to _ _).bind fun _ _ _ => ?_
  refine Settles.ite (fun _ => ?_) fun _ => settles_pure _
  exact (settles_restoreNode _).bind fun _ _ _ => (settles_pattail _ _).bind fun _ _ _ => settles_pure _

theorem settles_groupAtom {kshchar : UInt8} {rest : Bytes} {negated : Compile Nat} {inner : Compile Switch}
    (hrest : rest.length ≤ s.left) (hnegated : ∀ t : Comp, t.left ≤ rest.length → Settles negated t)
    (hinner : ∀ t : Comp, t.left ≤ rest.length → Settles inner t) :
    Settles (groupAtom kshchar rest negated inner) s := by
  rw [groupAtom]
  refine settles_setParse hrest (Settles.ite (fun _ => ?_) fun _ => settles_group hinner)
  exact (hnegated _ (Nat.le_refl _)).bind fun _ _ _ => settles_negatedPiece _

end Groups

/-- How much fuel each part of the compiler needs for the text that is left. -/
structure Enough (fuel : Nat) : Prop where
  switch : ∀ R paren s, 5 * s.left + 4 ≤ fuel → Settles (patcompswitch R paren fuel) s
  alternatives : ∀ R paren savglobflags last_branch excsync sw s, 5 * s.left + 1 ≤ fuel →
    Settles (alternatives R paren savglobflags last_branch excsync sw fuel) s
  branch : ∀ R paren s, 5 * s.left + 3 ≤ fuel → Settles (patcompbranch R paren fuel) s
  pieces : ∀ R paren B s, 5 * s.left + 2 ≤ fuel → Settles (pieces R paren B fuel) s
  piece : ∀ R paren counted s, 5 * s.left + 1 ≤ fuel → Settles (patcomppiece R paren counted fuel) s
  negated : ∀ R paren s, 5 * s.left + 5 ≤ fuel → Settles (patcompnot R paren fuel) s

section Step

variable {fuel : Nat} (ih : Enough fuel)

include ih

theorem switch_settles (h : 5 * s.left + 4 ≤ fuel + 1) : Settles (patcompswitch R paren (fuel + 1)) s := by
  rw [patcompswitch]
  refine settles_getGlobflags ((settles_patnode _).bind fun starter t₁ h₁ => ?_)
  refine (ih.branch _ _ t₁ (by omega)).bind fun first t₂ h₂ => settles_getGlobflags ?_
  refine (ih.alternatives _ _ _ _ _ _ t₂ (by omega)).bind fun sw _ _ => ?_
  exact settles_properEnd.bind fun _ _ _ => settles_pure _

theorem alternatives_settles {savglobflags : Flags} {last_branch excsync : Nat} {sw : Switch}
    (h : 5 * s.left + 1 ≤ fuel + 1) :
    Settles (alternatives R paren savglobflags last_branch excsync sw (fuel + 1)) s := by
  rw [alternatives]
  apply settles_getParse
  split
  · exact settles_pure _
  · rename_i c rest hparse
    have hleft : s.left = rest.length + 1 := by rw [Comp.left, hparse, List.length_cons]
    refine Settles.ite (fun _ => ?tilde) fun _ => Settles.ite (fun _ => ?bar) fun _ => settles_pure _
    case tilde =>
      refine settles_setParse (by omega) ((settles_excludeNode _ _).bind fun nodes t₁ h₁ => ?_)
      have : Comp.left { s with patparse := rest } = rest.length := rfl
      refine (settles_set_next _ _).bind fun _ t₂ h₂ => (ih.branch _ _ t₂ (by omega)).bind fun inner t₃ h₃ => ?_
      refine (settles_patnode _).bind fun _ t₄ h₄ => (settles_patoptail _ _).bind fun _ t₅ h₅ => ?_
      exact ih.alternatives _ _ _ _ _ _ t₅ (by omega)
    case bar =>
      refine settles_setParse (by omega) ((settles_branchNode _).bind fun nodes t₁ h₁ => ?_)
      have : Comp.left { s with patparse := rest } = rest.length := rfl
      refine (settles_set_next _ _).bind fun _ t₂ h₂ => (ih.branch _ _ t₂ (by omega)).bind fun inner t₃ h₃ => ?_
      refine (settles_linkTail _ _).bind fun _ t₄ h₄ => settles_getGlobflags ?_
      exact ih.alternatives _ _ _ _ _ _ t₄ (by omega)

theorem branch_settles (h : 5 * s.left + 3 ≤ fuel + 1) : Settles (patcompbranch R paren (fuel + 1)) s := by
  rw [patcompbranch]
  refine (ih.pieces _ _ _ s (by omega)).bind fun B _ _ => ?_
  split
  · exact settles_pure _
  · exact (settles_patnode _).bind fun _ _ _ => settles_pure _

theorem pieces_settles {B : Branch} (h : 5 * s.left + 2 ≤ fuel + 1) : Settles (pieces R paren B (fuel + 1)) s := by
  rw [pieces]
  apply settles_getParse
  split
  · exact settles_pure _
  · rename_i c rest hparse
    have hleft : s.left = rest.length + 1 := by rw [Comp.left, hparse, List.length_cons]
    refine Settles.ite (fun _ => settles_pure _) fun _ => ?_
    dsimp only
    split
    · rename_i min max text hprefix
      have shorter : text.length < (c :: rest).length := by
        split at hprefix
        · exact ksh93_count_prefix_length hprefix
        · cases hprefix
      rw [List.length_cons] at shorter
      refine settles_setParse (by omega) (ih.pieces _ _ _ _ ?_)
      change 5 * text.length + 2 ≤ fuel
      omega
    split
    · rename_i min max text hspec
      have shorter := countSpec_length hspec
      rw [List.length_cons] at shorter
      refine settles_setParse (by omega) ((settles_count _ _).bind fun B t₁ h₁ => ih.pieces _ _ _ _ ?_)
      have : Comp.left { s with patparse := text } = text.length := rfl
      omega
    apply settles_getGlobflags
    have specLeft : ∀ text ∈ flagSpec R (c :: rest), text.length ≤ rest.length := by
      intro text htext
      have shorter := flagSpec_length htext
      rw [List.length_cons] at shorter
      omega
    refine settles_scanFlags (fun t ht => ?_) (fun text htext assertp t ht => ?_)
      (fun text htext => by have := specLeft text htext; omega)
    · have same : t.left = s.left := congrArg List.length ht
      dsimp only
      refine Settles.ite (fun _ => ?hat) fun _ => ?piece
      case hat =>
        refine settles_setParse (by omega) ?_
        refine (ih.negated _ _ _ ?_).bind fun starter t₁ h₁ => settles_getOut ((settles_chain _ _).bind fun B t₂ h₂ => ?_)
        · change 5 * rest.length + 5 ≤ fuel
          omega
        · have : Comp.left { t with patparse := rest } = rest.length := rfl
          exact ih.pieces _ _ _ _ (by omega)
      case piece =>
        refine (ih.piece _ _ _ t (by omega)).bind fun p t₁ h₁ => settles_getParse ?_
        refine Settles.ite (fun _ => settles_bad) fun hless => (settles_add _).bind fun B t₂ h₂ => ih.pieces _ _ _ _ ?_
        have : t₁.left < (c :: rest).length := Nat.lt_of_not_le hless
        rw [List.length_cons] at this
        omega
    · have := specLeft text htext
      exact (settles_setFlags _ _).bind fun B t₁ h₁ => ih.pieces _ _ _ _ (by omega)

theorem piece_settles {counted : Bool} (h : 5 * s.left + 1 ≤ fuel + 1) :
    Settles (patcomppiece R paren counted (fuel + 1)) s := by
  rw [patcomppiece]
  apply settles_getParse
  split
  · exact (settles_patnode _).bind fun _ _ _ => settles_pure _
  · rename_i c rest hparse
    have hleft : s.left = rest.length + 1 := by rw [Comp.left, hparse, List.length_cons]
    dsimp only
    generalize hdispatch : (if kshcharOf R counted (c :: rest) ≠ 0 then (byte '(', rest) else (c, c :: rest)) = p
    have shorter : p.2.tail.length ≤ rest.length ∧ p.2.length ≤ s.left := by
      rw [← hdispatch]
      split
      · rw [List.length_tail]
        exact ⟨Nat.sub_le _ _, by dsimp only; omega⟩
      · exact ⟨Nat.le_refl _, by rw [List.length_cons]; omega⟩
    obtain ⟨tail, text⟩ := shorter
    have inside : p.2.tail.length ≤ s.left := by omega
    refine Settles.bind ?_ fun _ _ _ => Settles.ite (fun _ => settles_quantify _ _) fun _ => settles_pure _
    refine Settles.ite (fun _ => settles_nodeAtom _ _ inside) fun _ => ?_
    refine Settles.ite (fun _ => settles_nodeAtom _ _ inside) fun _ => ?_
    refine Settles.ite (fun _ => settles_bracketAtom inside) fun _ => ?_
    refine Settles.ite (fun _ => ?_) fun _ => ?_
    · refine settles_groupAtom inside (fun t ht => ih.negated _ _ t ?_) fun t ht => ih.switch _ _ t ?_
      all_goals omega
    refine Settles.ite (fun _ => settles_escapedAtom inside) fun _ => ?_
    exact Settles.ite (fun _ => settles_inangAtom inside) fun _ => settles_literalAtom text

theorem negated_settles (h : 5 * s.left + 5 ≤ fuel + 1) : Settles (patcompnot R paren (fuel + 1)) s := by
  rw [patcompnot]
  refine settles_negation fun t ht => Settles.ite (fun _ => ?_) fun _ => ?_
  · exact settles_negatedGroup fun u hu => ih.switch _ _ u (by omega)
  · exact (ih.branch _ _ t (by omega)).bind fun _ _ _ => settles_pure _

end Step

theorem enough (fuel : Nat) : Enough fuel := by
  induction fuel with
  | zero =>
      have none_left : ∀ n, ¬ n + 1 ≤ 0 := Nat.not_succ_le_zero
      exact ⟨fun _ _ _ h => absurd h (none_left _), fun _ _ _ _ _ _ _ h => absurd h (none_left _),
        fun _ _ _ h => absurd h (none_left _), fun _ _ _ _ h => absurd h (none_left _),
        fun _ _ _ _ h => absurd h (none_left _), fun _ _ _ h => absurd h (none_left _)⟩
  | succ fuel ih =>
      exact ⟨fun _ _ _ => switch_settles ih, fun _ _ _ _ _ _ _ => alternatives_settles ih,
        fun _ _ _ => branch_settles ih, fun _ _ _ _ => pieces_settles ih, fun _ _ _ _ => piece_settles ih,
        fun _ _ _ => negated_settles ih⟩

/-- The compiler never gives up: the fuel is enough for every text. -/
theorem compile_fuel (R : Reads) (s t : Comp) : compileProgram R s.patparse s ≠ .error .fuel t := by
  have settles : Settles (compileProgram R s.patparse) s := by
    rw [compileProgram]
    refine ((enough _).switch _ _ s (Nat.le_refl _)).bind fun _ _ _ => (settles_patnode _).bind fun _ _ _ => ?_
    exact settles_chain_branches_to _ _
  intro h
  exact settles.ne h rfl

end Zshrs.Pattern
