import Zshrs.Math.Rounds
import Zshrs.Math.Trees

namespace Zshrs.Math.Tree

open Shape

/-- The evaluation that has begun behind `begun` has assigned to some of the parameters, and done nothing else. -/
def Assigns (begun : History) (names : List Text) (h : History) : Prop :=
  ∃ stores : List (Text × Mnumber), (∀ store ∈ stores, store.1 ∈ names) ∧
    h = begun ++ stores.map fun store => .assign store.1 store.2

/-- What an evaluation that has begun behind `begun` has assigned is in its cache. -/
structure Caches (S : Shell) (begun : History) (names : List Text) (st : St) : Prop where
  assigns : Assigns begun names st.hist
  cache : st.m_variables = assigned (st.hist.drop begun.length)
  force_float : st.force_float = S.forcefloat begun

/-- The parameters of these names hold numbers, whatever numbers have been assigned to them: a reading has no effect
and does not fail, and answers with the number in the cache, or else with that in the table. -/
def Numeric (S : Shell) (room : Nat) (begun : History) (names : List Text) (table : History → Text → Mnumber) : Prop :=
  ∀ (st : St), ∀ name ∈ names, Assigns begun names st.hist → st.force_float = S.forcefloat begun →
    S.getmathparam room st name =
      ⟨[], forced st.force_float ((st.m_variables name).getD (table st.hist name)), none⟩

/-- In the states of an evaluation a reading depends on the effects so far alone. -/
def Readable (S : Shell) (room : Nat) (begun : History) (names : List Text) (lookup : History → Text → Mnumber) :
    Prop :=
  ∀ st, Caches S begun names st → ∀ name ∈ names, S.getmathparam room st name = ⟨[], lookup st.hist name, none⟩

theorem Numeric.readable {S : Shell} {room : Nat} {begun : History} {names : List Text}
    {table : History → Text → Mnumber} (h : Numeric S room begun names table) :
    Readable S room begun names (reading S table begun) := by
  intro st hc name hname
  rw [h st name hname hc.assigns hc.force_float, hc.cache, hc.force_float]
  rfl

/-- The operand comes from no element of an array, and from none but these parameters. -/
def Plain (names : List Text) (mv : Mathvalue) : Prop :=
  ∀ name, mv.lval = some name → subscript? name = none ∧ name ∈ names

/-- An operator that has taken its operands off the stack leaves what it comes to on `base`. -/
inductive Lands (S : Shell) (begun : History) (names : List Text) (st : St) (base : List Mathvalue) : Run → St → Prop
  | pushed {st' : St} {h : History} {mv : Mathvalue} (steady : st'.steady = st.steady)
      (hist : st'.hist = h) (error : st'.error = none) (stack : st'.stack = mv :: base)
      (plain : Plain names mv) (caches : Caches S begun names st') : Lands S begun names st base (h, .ok mv) st'
  | failed {st' : St} {h : History} {msg : String} (hist : st'.hist = h)
      (error : st'.error = some msg) : Lands S begun names st base (h, .error msg) st'

def muted (st : St) : Bool := 0 < st.noeval

section Operators

variable (S : Shell) (room : Nat) (me : Matheval) {begun : History} {names : List Text}
  {lookup : History → Text → Mnumber} {st : St} {base : List Mathvalue}

theorem assigned_append (h : History) (name : Text) (val : Mnumber) :
    assigned (h ++ [.assign name val]) = fun other => if other = name then some val else assigned h other := by
  funext other
  unfold assigned
  rw [List.foldl_append]
  rfl

variable {S} in
theorem Caches.store (hc : Caches S begun names st) {name : Text} (hname : name ∈ names) (val : Mnumber) :
    Caches S begun names (st.store name val) := by
  obtain ⟨stores, hstores, hist⟩ := hc.assigns
  refine ⟨⟨stores ++ [(name, val)], ?_, ?_⟩, ?_, hc.force_float⟩
  · intro store hstore
    rcases List.mem_append.mp hstore with hstore | hstore
    · exact hstores store hstore
    · rw [List.mem_singleton.mp hstore]
      exact hname
  · have stored : (st.store name val).hist = st.hist ++ [.assign name val] := rfl
    rw [stored, hist, List.append_assoc, List.map_append]
    rfl
  · have long : begun.length ≤ st.hist.length := by
      rw [hist, List.length_append]
      exact Nat.le_add_right _ _
    have split : (st.store name val).hist.drop begun.length = st.hist.drop begun.length ++ [.assign name val] :=
      List.drop_append_of_le_length long
    rw [split, assigned_append, ← hc.cache]
    rfl

variable {S} in
/-- The cache is not touched. -/
theorem Caches.congr {st' : St} (hc : Caches S begun names st) (hist : st'.hist = st.hist)
    (cache : st'.m_variables = st.m_variables) (force_float : st'.force_float = st.force_float) :
    Caches S begun names st' :=
  ⟨hist ▸ hc.assigns, by rw [cache, hist, hc.cache], force_float.trans hc.force_float⟩

variable {S} in
theorem Caches.with_stack (hc : Caches S begun names st) (stack : List Mathvalue) :
    Caches S begun names { st with stack := stack } :=
  hc.congr rfl rfl rfl

theorem Plain.none (val : Mnumber) : Plain names ⟨val, none⟩ := by
  intro name h
  cases h

theorem Plain.some {name : Text} (hp : subscript? name = Option.none ∧ name ∈ names) (val : Mnumber) :
    Plain names ⟨val, name⟩ := by
  rintro _ ⟨⟩
  exact hp

variable {S} in
theorem Lands.push (hc : Caches S begun names st) (hs : st.stack = base) (he : st.error = none) {val : Mnumber}
    {lval : Option Text} (hp : Plain names ⟨val, lval⟩) :
    Lands S begun names st base (st.hist, .ok ⟨val, lval⟩) (st.push val lval) := by
  refine .pushed rfl rfl he ?_ hp (hc.congr rfl rfl rfl)
  rw [← hs]
  rfl

variable {S} in
theorem Lands.fail (he : st.error = none) (msg : String) :
    Lands S begun names st base (st.hist, .error msg) (st.m_error_set msg) := by
  refine .failed rfl ?_
  simp [St.m_error_set, he]

variable {S} in
theorem Lands.failure (he : st.error = none) (failure : Failure) :
    Lands S begun names st base (Tree.fail st.hist failure) (st.fail failure) := by
  cases failure with
  | error msg => exact .fail he msg
  | dies how =>
    refine .failed rfl ?_
    simp [St.fail, St.m_error_set, he]

variable {S} in
theorem Lands.of_steady {st₁ st' : St} {r : Run} (hs : st₁.steady = st.steady)
    (h : Lands S begun names st₁ base r st') : Lands S begun names st base r st' := by
  cases h with
  | pushed steady hist error stack plain caches => exact .pushed (steady.trans hs) hist error stack plain caches
  | failed hist error => exact .failed hist error

variable {S} in
theorem Lands.of_stack {stack : List Mathvalue} {st' : St} {r : Run}
    (h : Lands S begun names { st with stack := stack } base r st') : Lands S begun names st base r st' := by
  have same : ({ st with stack := stack } : St).steady = st.steady := rfl
  exact .of_steady same h

variable {S room} in
theorem answered (hr : Readable S room begun names lookup) (hc : Caches S begun names st) {name : Text}
    (hname : name ∈ names) : st.getmathparam S room name = (st, lookup st.hist name) := by
  have answer := hr st hc name hname
  simp [St.getmathparam, answer, St.answer]

variable {S room} in
theorem get_value_eq (hr : Readable S room begun names lookup) (hc : Caches S begun names st) {mv : Mathvalue}
    (hp : Plain names mv) : st.get_value S room mv = (st, get lookup st.hist mv) := by
  unfold St.get_value get
  cases hl : mv.lval with
  | none => rfl
  | some name =>
    dsimp only
    split
    · exact answered hr hc (hp name hl).2
    · rfl

variable {S room} in
theorem value_of_eq (hr : Readable S room begun names lookup) (hc : Caches S begun names st) {mv : Mathvalue}
    (hp : Plain names mv) : st.value_of S room mv = (st, valueOf lookup st.hist mv) := by
  unfold St.value_of valueOf
  split
  · rfl
  · exact get_value_eq hr hc hp

theorem target_plain {mv : Mathvalue} (hp : Plain names mv) (what : Token) :
    st.target S me what mv = (st, mv) := by
  unfold St.target St.resolve
  split
  · cases hl : mv.lval with
    | none => rfl
    | some name =>
      dsimp only
      have plain := (hp name hl).1
      have same : st.resolve_lval S me name = (st, name) := by simp [St.resolve_lval, plain]
      rw [same, ← hl]
  · rfl

/-- The state behind a store. -/
structure Stores (S : Shell) (begun : History) (names : List Text) (st st' : St) (h : History) : Prop where
  steady : st'.steady = st.steady
  stack : st'.stack = st.stack
  error : st'.error = st.error
  hist : st'.hist = h
  caches : Caches S begun names st'

theorem setmathvar_plain (hc : Caches S begun names st) {name : Text} (hp : subscript? name = none ∧ name ∈ names)
    (hn : 0 ≤ st.noeval) (val : Mnumber) (pval : Bool) :
    (st.setmathvar S me name val pval).2 = (assign S (muted st) st.hist name val pval).2 ∧
      Stores S begun names st (st.setmathvar S me name val pval).1
        (assign S (muted st) st.hist name val pval).1 := by
  have stored := hc.store hp.2 val
  unfold St.setmathvar assign
  by_cases hempty : name = []
  · rw [if_pos hempty, if_pos hempty]
    exact ⟨rfl, rfl, rfl, rfl, rfl, hc⟩
  · rw [if_neg hempty, if_neg hempty]
    by_cases hm : 0 < st.noeval
    · rw [if_pos (show st.noeval ≠ 0 by omega), if_pos (show muted st = true from decide_eq_true hm)]
      exact ⟨rfl, rfl, rfl, rfl, rfl, hc⟩
    · rw [if_neg (show ¬ st.noeval ≠ 0 by omega), if_neg (show ¬ muted st = true by simp [muted, hm]),
        hp.1]
      dsimp only
      split
      · exact ⟨rfl, rfl, rfl, rfl, rfl, stored⟩
      · unfold St.storePlain kept
        dsimp only
        rcases S.setnparam st.hist name val with - | (- | - | -)
        all_goals exact ⟨rfl, rfl, rfl, rfl, rfl, stored⟩

variable {S} in
theorem Stores.lands {st' : St} {h : History} (stored : Stores S begun names st st' h) (hs : st.stack = base)
    (he : st.error = none) {val : Mnumber} {lval : Option Text} (hp : Plain names ⟨val, lval⟩) :
    Lands S begun names st base (h, .ok ⟨val, lval⟩) (st'.push val lval) := by
  have pushed : Lands S begun names st' base (st'.hist, .ok ⟨val, lval⟩) (st'.push val lval) :=
    Lands.push stored.caches (stored.stack.trans hs) (stored.error.trans he) hp
  rw [stored.hist] at pushed
  exact pushed.of_steady stored.steady

theorem finish_lands (hc : Caches S begun names st) (hs : st.stack = base) (he : st.error = none)
    (hn : 0 ≤ st.noeval) {lval : Option Text} (hp : ∀ name, lval = some name → subscript? name = none ∧ name ∈ names)
    (what : Token) (result : Mnumber) :
    Lands S begun names st base (finish S (muted st) st.hist what lval result) (st.finish S me what lval result) := by
  unfold finish St.finish
  generalize (if S.pdksh_family ∧ result.type_ = .MN_INTEGER then
    { result with l := wrap32 result.l } else result) = result
  dsimp only
  split
  · cases lval with
    | none =>
      refine .failed rfl ?_
      simp [St.push, St.m_error_set, he]
    | some name =>
      obtain ⟨value, stored⟩ := setmathvar_plain S me hc (hp name rfl) hn result (what ≠ .EQ)
      dsimp only
      rw [value]
      exact stored.lands hs he (.some (hp name rfl) _)
  · exact .push hc hs he (.none _)

variable {S room} in
theorem applyBinary_eq (hr : Readable S room begun names lookup) (hc : Caches S begun names st) (what : Token)
    {a : Mathvalue} (hp : Plain names a) (b : Mnumber) :
    st.applyBinary S room me what a b =
      match combine S (muted st) what (if what = .EQ then a.val else valueOf lookup st.hist a) b with
      | .error failure => st.fail failure
      | .ok result => st.finish S me what a.lval result := by
  have read : (if what = .EQ then (st, a.val) else st.value_of S room a) =
      (st, if what = .EQ then a.val else valueOf lookup st.hist a) := by
    split
    · rfl
    · exact value_of_eq hr hc hp
  unfold St.applyBinary combine
  rw [read]
  cases hm : muted st with
  | true =>
    have raised : st.noeval > 0 := of_decide_eq_true hm
    dsimp only
    rw [if_pos raised]
    rfl
  | false =>
    have lowered : ¬ st.noeval > 0 := of_decide_eq_false hm
    dsimp only
    rw [if_neg lowered]
    rfl

variable {S room} in
theorem applyBinary_lands (hr : Readable S room begun names lookup) (hc : Caches S begun names st)
    (hs : st.stack = base) (he : st.error = none) (hn : 0 ≤ st.noeval) {a : Mathvalue} (hp : Plain names a)
    (what : Token) (b : Mathvalue) :
    Lands S begun names st base (applyBinary S lookup (muted st) st.hist what a b)
      (st.applyBinary S room me what a (get lookup st.hist b)) := by
  rw [applyBinary_eq me hr hc what hp]
  unfold applyBinary
  dsimp only
  generalize combine S (muted st) what _ (get lookup st.hist b) = computed
  cases computed with
  | error failure => exact .failure he failure
  | ok result => exact finish_lands S me hc hs he hn hp what result

variable {S room} in
theorem op_binary (hr : Readable S room begun names lookup) (hc : Caches S begun names st) {a b : Mathvalue}
    (hs : st.stack = b :: a :: base) (he : st.error = none) (hn : 0 ≤ st.noeval) (hp : Plain names a)
    (hpb : Plain names b) {what : Token} (hb : (OP_TYPE what).is_binary = true) :
    Lands S begun names st base (applyBinary S lookup (muted st) st.hist what a b) (st.op S room me what) := by
  have hlen : ¬ st.stack.length < 2 := by simp [hs]
  have top : st.pop_with_lval = ({ st with stack := a :: base }, b) := pop_with_lval_cons hs
  rw [op_fine S room me he, if_pos hb]
  unfold St.opBinary
  rw [if_neg hlen, pop_cons S room hs, get_value_eq hr (hc.with_stack _) hpb]
  dsimp only
  have next : ({ st with stack := a :: base } : St).pop_with_lval = ({ st with stack := base }, a) :=
    pop_with_lval_cons rfl
  rw [next]
  dsimp only
  rw [target_plain S me hp]
  have lands : Lands S begun names { st with stack := base } base
      (applyBinary S lookup (muted st) st.hist what a b)
      (St.applyBinary S room me { st with stack := base } what a (get lookup st.hist b)) := by
    apply applyBinary_lands me hr (hc.with_stack base)
    · rfl
    · exact he
    · exact hn
    · exact hp
  exact lands.of_stack

variable {S} in
theorem opStep_lands (hc : Caches S begun names st) (hs : st.stack = base) (he : st.error = none)
    (hn : 0 ≤ st.noeval) {lval : Option Text} (hp : ∀ name, lval = some name → subscript? name = none ∧ name ∈ names)
    (val : Mnumber) (by_ : Int64) (pre : Bool) :
    Lands S begun names st base (opStep S (muted st) st.hist lval val by_ pre)
      (st.opStep S me lval val by_ pre) := by
  unfold opStep St.opStep
  cases lval with
  | none =>
    dsimp only
    split
    · exact .push hc hs he (.none val)
    · exact .fail he _
  | some name =>
    obtain ⟨-, stored⟩ := setmathvar_plain S me hc (hp name rfl) hn (stepBy S val by_) true
    dsimp only
    split
    · exact stored.lands hs he (.some (hp name rfl) _)
    · exact stored.lands hs he (.none val)

variable {S room} in
theorem op_unary (hr : Readable S room begun names lookup) (hc : Caches S begun names st) {mv : Mathvalue}
    (hs : st.stack = mv :: base) (he : st.error = none) (hn : 0 ≤ st.noeval) (hp : Plain names mv) {what : Token}
    (hw : what ∈ [Token.NOT, .COMP, .UPLUS, .UMINUS, .PREPLUS, .PREMINUS] ∨
      what ∈ [Token.POSTPLUS, .POSTMINUS]) :
    Lands S begun names st base (applyUnary S lookup (muted st) st.hist what mv) (st.op S room me what) := by
  have below : Caches S begun names { st with stack := base } := hc.with_stack base
  have hb : ¬ (OP_TYPE what).is_binary = true := by
    simp only [List.mem_cons, List.not_mem_nil, or_false] at hw
    rcases hw with (rfl | rfl | rfl | rfl | rfl | rfl) | (rfl | rfl) <;> decide
  rw [op_fine S room me he, if_neg hb, opUnary_eq S room me hs, target_plain S me hp]
  unfold St.applyUnary applyUnary
  dsimp only
  rw [value_of_eq hr below hp]
  dsimp only
  have step : ∀ (by_ : Int64) (pre : Bool), Lands S begun names { st with stack := base } base
      (opStep S (muted st) st.hist mv.lval (valueOf lookup st.hist mv) by_ pre)
      (St.opStep S me { st with stack := base } mv.lval (valueOf lookup st.hist mv) by_ pre) := by
    intro by_ pre
    apply opStep_lands me below
    · rfl
    · exact he
    · exact hn
    · exact hp
  have push : ∀ val : Mnumber, Lands S begun names { st with stack := base } base (st.hist, .ok ⟨val, none⟩)
      (({ st with stack := base } : St).push val none) := by
    intro val
    apply Lands.push below
    · rfl
    · exact he
    · exact .none val
  simp only [List.mem_cons, List.not_mem_nil, or_false] at hw
  rcases hw with (rfl | rfl | rfl | rfl | rfl | rfl) | (rfl | rfl)
  · exact (push _).of_stack
  · exact (push _).of_stack
  · exact (push _).of_stack
  · exact (push _).of_stack
  · exact (step 1 true).of_stack
  · exact (step (-1) true).of_stack
  · exact (step 1 false).of_stack
  · exact (step (-1) false).of_stack

variable {S room} in
theorem op_quest (hr : Readable S room begun names lookup) (hc : Caches S begun names st) {f t c : Mathvalue}
    (hs : st.stack = f :: t :: c :: base) (he : st.error = none) (hf : Plain names f) (ht : Plain names t)
    (hcond : Plain names c) :
    Lands S begun names st base (st.hist, .ok ⟨if isZero (get lookup st.hist c) then valueOf lookup st.hist f
      else get lookup st.hist t, none⟩) (st.op S room me .QUEST) := by
  rw [op_quest_eq S room me hs he]
  unfold questPops
  rw [value_of_eq hr (hc.with_stack _) hf]
  dsimp only
  rw [get_value_eq hr (hc.with_stack _) ht]
  dsimp only
  rw [get_value_eq hr (hc.with_stack _) hcond]
  have pushed : ∀ val : Mnumber, Lands S begun names { st with stack := base } base (st.hist, .ok ⟨val, none⟩)
      (({ st with stack := base } : St).push val none) := by
    intro val
    apply Lands.push (hc.with_stack base)
    · rfl
    · exact he
    · exact .none val
  exact (pushed _).of_stack

end Operators

end Zshrs.Math.Tree
