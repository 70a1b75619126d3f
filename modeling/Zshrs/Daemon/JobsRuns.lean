import Zshrs.Daemon.Jobs

namespace Zshrs.Daemon.Jobs

open Lib Lib.Runs

variable {ρ : Type}

/-- The job is in the registry, with a terminal state. -/
def Ended (m : Option (JobMeta ρ)) (st : JobState) : Prop :=
  ∃ j, m = some j ∧ j.state = st ∧ st.is_terminal = true

/-- The channels that a job's senders will still send to. -/
def due (m : Option (JobMeta ρ)) : Stage ρ → List (Chan ρ)
  | .sending _ waiters => waiters
  | _ => match m with
    | some j => j.waiters
    | none => []

/-- The registry entry of a job, by where its thread is. -/
def JobOk (m : Option (JobMeta ρ)) : Stage ρ → Prop
  | .unused | .allocated | .abandoned => m = none
  | .registered | .persisted | .watched => ∃ j, m = some j ∧ j.state = .Running
  | .sending st _ | .finished st => ∃ j, m = some j ∧ j.state = st ∧ st.is_terminal = true ∧ j.waiters = []

def Row.terminal (row : Row) : Prop := row.state ≠ "running"

/-- The row of a job, by where its thread is. -/
def RowOk (row : Option Row) : Stage ρ → Prop
  | .allocated | .abandoned | .registered => row = none
  | .persisted | .watched | .sending _ _ => ∀ x ∈ row, ¬ x.terminal
  | .unused | .finished _ => True

/-- An empty channel is one that a sender of its job has. -/
def ChannelOk (m : Option (JobMeta ρ)) (g : Stage ρ) (c : Chan ρ) : Channel → Prop
  | .empty => c ∈ due m g
  | .full st => Ended m st
  | _ => True

/-- A channel whose receiver is there. -/
def Channel.held : Channel → Prop
  | .empty => True
  | .full _ => True
  | _ => False

/-- The channel whose receiver a request holds. -/
def Phase.chan (r : ρ) : Phase → Option (Chan ρ)
  | .waiting id _ => some ⟨r, .wait, id⟩
  | .terminating id => some ⟨r, .term, id⟩
  | .graced id => some ⟨r, .term, id⟩
  | .killing id => some ⟨r, .kill, id⟩
  | .reaping id => some ⟨r, .kill, id⟩
  | _ => none

theorem Phase.chan_request {r : ρ} {p : Phase} {c : Chan ρ} (h : c ∈ p.chan r) : c.request = r := by
  cases p with
  | waiting | terminating | graced | killing | reaping => cases h; rfl
  | unsent | checked | overdue | answered | lost | past => cases h

structure Inv (s : State ρ) : Prop where
  used : ∀ id, s.stage id ≠ .unused → id < s.next_id
  rows : ∀ id, s.rows.get? id ≠ none → id < s.next_id
  job : ∀ id, JobOk (s.jobs id) (s.stage id)
  row : ∀ id, RowOk (s.rows.get? id) (s.stage id)
  due : ∀ id, ∀ c ∈ due (s.jobs id) (s.stage id), c.job = id
  channel : ∀ c, ChannelOk (s.jobs c.job) (s.stage c.job) c (s.channels c)
  held : ∀ r, ∀ c ∈ (s.phase r).chan r, (s.channels c).held
  answer : ∀ r id st, s.phase r = .answered (.state id st) → Ended (s.jobs id) st

namespace Inv

variable {s : State ρ}

/-- The thread of a job takes a step. No sender is lost whose channel is empty. -/
theorem thread (h : Inv s) {id : Nat} {m : Option (JobMeta ρ)} {g : Stage ρ} {rows : OrdMap Nat Row}
    (hid : id < s.next_id) (hrows : ∀ k, k ≠ id → rows.get? k = s.rows.get? k)
    (hjob : JobOk m g) (hrow : RowOk (rows.get? id) g) (hdue : ∀ c ∈ Jobs.due m g, c.job = id)
    (hkept : ∀ c ∈ Jobs.due (s.jobs id) (s.stage id), s.channels c = .empty → c ∈ Jobs.due m g)
    (hended : ∀ st, Ended (s.jobs id) st → Ended m st) :
    Inv { s with
      jobs := Function.update s.jobs id m
      stage := Function.update s.stage id g
      rows := rows } := by
  have ended : ∀ k st, Ended (s.jobs k) st → Ended (Function.update s.jobs id m k) st := by
    intro k st hk
    by_cases hkid : k = id
    · subst hkid
      simpa using hended st hk
    · simpa [hkid] using hk
  refine ⟨fun k => ?_, fun k => ?_, fun k => ?_, fun k => ?_, fun k => ?_, fun c => ?_, h.held,
    fun r k st hr => ended k st (h.answer r k st hr)⟩
  · by_cases hk : k = id
    · exact fun _ => hk ▸ hid
    · simpa [hk] using h.used k
  · by_cases hk : k = id
    · exact fun _ => hk ▸ hid
    · simpa [hrows k hk] using h.rows k
  · by_cases hk : k = id
    · subst hk
      simpa using hjob
    · simpa [hk] using h.job k
  · by_cases hk : k = id
    · subst hk
      simpa using hrow
    · simpa [hk, hrows k hk] using h.row k
  · by_cases hk : k = id
    · subst hk
      simpa using hdue
    · simpa [hk] using h.due k
  · have ok := h.channel c
    dsimp only
    cases hc : s.channels c with
    | empty =>
      rw [hc] at ok
      by_cases hk : c.job = id
      · rw [hk] at ok ⊢
        rw [Function.update_self, Function.update_self]
        exact hkept c ok hc
      · rw [Function.update_of_ne hk, Function.update_of_ne hk]
        exact ok
    | full st =>
      rw [hc] at ok
      exact ended _ st ok
    | unmade | closed => trivial

/-- The thread of a job takes a step that leaves the registry alone. -/
theorem setStage (h : Inv s) {id : Nat} {g : Stage ρ} {rows : OrdMap Nat Row} (hid : id < s.next_id)
    (hrows : ∀ k, k ≠ id → rows.get? k = s.rows.get? k) (hjob : JobOk (s.jobs id) g)
    (hrow : RowOk (rows.get? id) g)
    (hdue : Jobs.due (s.jobs id) g = Jobs.due (s.jobs id) (s.stage id)) :
    Inv ((s.setRows rows).setStage id g) := by
  have stepped := h.thread hid hrows hjob hrow (by rw [hdue]; exact h.due id)
    (fun c hc _ => by rwa [hdue]) fun _ hst => hst
  rwa [Function.update_eq_self] at stepped

theorem allocate (h : Inv s) (command : List String) : Inv (allocate s command) := by
  unfold Jobs.allocate
  split
  · exact h
  have unused : s.stage s.next_id = .unused := by
    by_contra hne
    exact Nat.lt_irrefl _ (h.used _ hne)
  have none : s.jobs s.next_id = none := by
    have job := h.job s.next_id
    rwa [unused] at job
  have row : s.rows.get? s.next_id = .none := by
    by_contra hne
    exact Nat.lt_irrefl _ (h.rows _ hne)
  have grown : Inv { s with next_id := s.next_id + 1 } :=
    ⟨fun id hid => Nat.lt_succ_of_lt (h.used id hid), fun id hid => Nat.lt_succ_of_lt (h.rows id hid),
      h.job, h.row, h.due, h.channel, h.held, h.answer⟩
  refine grown.setStage (Nat.lt_succ_self _) (fun _ _ => rfl) none row ?_
  change Jobs.due (s.jobs s.next_id) _ = Jobs.due (s.jobs s.next_id) (s.stage s.next_id)
  rw [unused]
  rfl

theorem register (h : Inv s) (id : Nat) (spawned : Bool) (pid : Option Int) :
    Inv (register s id spawned pid) := by
  unfold Jobs.register
  split
  case h_2 => exact h
  case h_1 hstage =>
    have job := h.job id
    have row := h.row id
    rw [hstage] at job row
    have hid : id < s.next_id := h.used id (by rw [hstage]; simp)
    split
    · refine h.thread hid (fun _ _ => rfl) ⟨_, rfl, rfl⟩ row (by rintro c ⟨⟩) ?_ ?_
      · intro c hc
        rw [hstage, show s.jobs id = none from job] at hc
        cases hc
      · rintro st ⟨j, hj, _⟩
        rw [show s.jobs id = none from job] at hj
        cases hj
    · exact h.setStage hid (fun _ _ => rfl) job row (by rw [hstage]; rfl)

theorem persist_initial (h : Inv s) (id : Nat) (ok : Bool) : Inv (persist_initial s id ok) := by
  unfold Jobs.persist_initial
  split
  case h_2 => exact h
  case h_1 hstage =>
    have job := h.job id
    have row : s.rows.get? id = none := by
      have row := h.row id
      rwa [hstage] at row
    rw [hstage] at job
    refine h.setStage (h.used id (by rw [hstage]; simp)) ?_ job ?_ (by rw [hstage]; rfl)
    · intro k hk
      split
      · rw [OrdMap.get?_insert, if_neg hk]
      · rfl
    · split
      · rw [OrdMap.get?_insert, if_pos rfl]
        rintro x ⟨⟩ hx
        exact hx rfl
      · rw [row]
        rintro x ⟨⟩

theorem supervise (h : Inv s) (id : Nat) : Inv (supervise s id) := by
  unfold Jobs.supervise
  split
  case h_2 => exact h
  case h_1 hstage =>
    have job := h.job id
    have row := h.row id
    rw [hstage] at job row
    exact h.setStage (h.used id (by rw [hstage]; simp)) (fun _ _ => rfl) job row (by rw [hstage]; rfl)

theorem handle_exit (h : Inv s) (id : Nat) (exit : Except String ExitStatus) :
    Inv (handle_exit s id exit) := by
  unfold Jobs.handle_exit
  split
  case h_2 => exact h
  case h_1 hstage =>
    have due := h.due id
    obtain ⟨j, hj, running⟩ : ∃ j, s.jobs id = some j ∧ j.state = .Running := by
      have job := h.job id
      rwa [hstage] at job
    have row := h.row id
    rw [hstage] at row
    rw [hstage, hj] at due
    rw [hj]
    refine h.thread (h.used id (by rw [hstage]; simp)) (fun _ _ => rfl)
      ⟨_, rfl, rfl, final_state_terminal exit, rfl⟩ row due ?_ ?_
    · intro c hc _
      rwa [hstage, hj] at hc
    · rintro st ⟨j', hj', hst, terminal⟩
      rw [hj] at hj'
      cases hj'
      rw [← hst, running] at terminal
      cases terminal

theorem persist_terminal (h : Inv s) (id : Nat) (ok : Bool) : Inv (persist_terminal s id ok) := by
  unfold Jobs.persist_terminal
  split
  case h_2 => exact h
  case h_1 st hstage =>
    obtain ⟨j, hj, hst, terminal, waiters⟩ :
        ∃ j, s.jobs id = some j ∧ j.state = st ∧ st.is_terminal = true ∧ j.waiters = [] := by
      have job := h.job id
      rwa [hstage] at job
    refine h.setStage (h.used id (by rw [hstage]; simp)) ?_ ⟨j, hj, hst, terminal, waiters⟩ trivial ?_
    · intro k hk
      split
      · rw [OrdMap.get?_modify, if_neg hk]
      · rfl
    · rw [hstage, hj]
      exact waiters

/-- A daemon starts without jobs, past the ids of the table. -/
theorem start (rows : OrdMap Nat Row) {phase : ρ → Phase}
    (hphase : ∀ r, (phase r).chan r = none ∧ ∀ a, phase r ≠ .answered a) : Inv (start rows true phase) := by
  refine ⟨fun id hid => absurd rfl hid, fun id hid => ?_, fun _ => rfl, fun _ => trivial, ?_,
    fun _ => trivial, fun r c hc => ?_, fun r id st hr => absurd hr ((hphase r).2 _)⟩
  · have row : rows.get? id ≠ none := by
      intro hnone
      apply hid
      change (rows.mapValues restartedRow).get? id = none
      rw [OrdMap.get?_mapValues, hnone]
      rfl
    have le : rows.maxKey + 1 ≤ max 1 (rows.maxKey + 1) := Nat.le_max_right _ _
    exact Nat.lt_of_lt_of_le (Nat.lt_succ_of_le (OrdMap.le_maxKey row)) le
  · rintro id c ⟨⟩
  · rw [show (Jobs.start rows true phase).phase r = phase r from rfl, (hphase r).1] at hc
    cases hc

theorem restart (s : State ρ) : Inv (Jobs.start s.rows true fun r => (s.phase r).restart) := by
  apply Inv.start
  intro r
  cases s.phase r <;> exact ⟨rfl, nofun⟩

variable [DecidableEq ρ]

/-- A request goes on to a phase that it is ready for. -/
theorem goto (h : Inv s) {r : ρ} {p : Phase} (hheld : ∀ c ∈ p.chan r, (s.channels c).held)
    (hanswer : ∀ id st, p = .answered (.state id st) → Ended (s.jobs id) st) : Inv (s.goto r p) := by
  refine ⟨h.used, h.rows, h.job, h.row, h.due, h.channel, fun q => ?_, fun q => ?_⟩
  · by_cases hq : q = r
    · subst hq
      rw [State.phase_goto_self]
      exact hheld
    · rw [State.phase_goto_ne s hq]
      exact h.held q
  · by_cases hq : q = r
    · subst hq
      rw [State.phase_goto_self]
      exact hanswer
    · rw [State.phase_goto_ne s hq]
      exact h.answer q

/-- A channel changes. One that is dropped is held by nobody. -/
theorem setChannel (h : Inv s) {c : Chan ρ} {v : Channel}
    (hok : ChannelOk (s.jobs c.job) (s.stage c.job) c v)
    (hheld : (∃ r, c ∈ (s.phase r).chan r) → v.held) : Inv (s.setChannel c v) := by
  refine ⟨h.used, h.rows, h.job, h.row, h.due, fun d => ?_, fun r d hd => ?_, h.answer⟩
  · by_cases hdc : d = c
    · subst hdc
      simpa [State.setChannel] using hok
    · simpa [State.setChannel, hdc] using h.channel d
  · by_cases hdc : d = c
    · subst hdc
      simpa [State.setChannel] using hheld ⟨r, hd⟩
    · simpa [State.setChannel, hdc] using h.held r d hd

/-- A waiter that is sent to finds the state, and its channel is empty no more. -/
theorem send (h : Inv s) {c : Chan ρ} {st : JobState} (hended : Ended (s.jobs c.job) st) :
    Inv (send s c st) ∧ (Jobs.send s c st).channels c ≠ .empty ∧
      (Jobs.send s c st).jobs = s.jobs ∧ (Jobs.send s c st).stage = s.stage ∧
      (Jobs.send s c st).next_id = s.next_id ∧ (Jobs.send s c st).rows = s.rows := by
  unfold Jobs.send
  split
  · refine ⟨h.setChannel hended fun _ => trivial, ?_, rfl, rfl, rfl, rfl⟩
    rw [State.setChannel_self]
    nofun
  · exact ⟨h, ‹_›, rfl, rfl, rfl, rfl⟩

theorem sendNext (h : Inv s) (id : Nat) : Inv (sendNext s id) := by
  unfold Jobs.sendNext
  split
  case h_2 => exact h
  case h_1 st c waiters hstage =>
    have due := h.due id
    obtain ⟨j, hj, hst, terminal, none⟩ :
        ∃ j, s.jobs id = some j ∧ j.state = st ∧ st.is_terminal = true ∧ j.waiters = [] := by
      have job := h.job id
      rwa [hstage] at job
    have row := h.row id
    rw [hstage] at due row
    have hc : c.job = id := due c List.mem_cons_self
    obtain ⟨sent, filled, jobs, stage, next_id, rows⟩ :=
      h.send (show Ended (s.jobs c.job) st from hc ▸ ⟨j, hj, hst, terminal⟩)
    have stepped := @thread ρ _ sent id ((Jobs.send s c st).jobs id) (.sending st waiters)
      (Jobs.send s c st).rows ?_ (fun _ _ => rfl) ?_ ?_ ?_ ?_ fun _ hst => hst
    · rwa [Function.update_eq_self] at stepped
    · rw [next_id]
      exact h.used id (by rw [hstage]; simp)
    · rw [jobs]
      exact ⟨j, hj, hst, terminal, none⟩
    · rw [rows]
      exact row
    · exact fun d hd => due d (List.mem_cons_of_mem _ hd)
    · intro d hd hempty
      rw [jobs, stage, hstage] at hd
      rcases List.mem_cons.mp hd with rfl | hd
      · exact absurd hempty filled
      · exact hd

omit [DecidableEq ρ] in
/-- A job that has not ended has its waiters in the registry. -/
theorem running (h : Inv s) {id : Nat} {j : JobMeta ρ} (hj : s.jobs id = some j)
    (hrun : ¬ j.state.is_terminal = true) :
    s.stage id ≠ .unused ∧ (∀ waiters, JobOk (some { j with waiters := waiters }) (s.stage id)) ∧
      ∀ m, Jobs.due (some m) (s.stage id) = m.waiters := by
  have job := h.job id
  rw [hj] at job
  cases hstage : s.stage id with
  | unused | allocated | abandoned =>
    rw [hstage] at job
    cases job
  | registered | persisted | watched =>
    rw [hstage] at job
    obtain ⟨j', hj', running⟩ := job
    cases hj'
    exact ⟨nofun, fun _ => ⟨_, rfl, running⟩, fun _ => rfl⟩
  | sending | finished =>
    rw [hstage] at job
    obtain ⟨j', hj', hst, terminal, _⟩ := job
    cases hj'
    rw [hst] at hrun
    exact absurd terminal hrun

/-- A channel is made for a job that is in the registry. -/
theorem wait_handle (h : Inv s) {c : Chan ρ} {s' : State ρ} (hs : wait_handle s c = some s') :
    Inv s' ∧ (s'.channels c).held := by
  obtain ⟨j, hj, rfl⟩ := Option.map_eq_some_iff.mp hs
  split
  · rename_i terminal
    refine ⟨h.setChannel ⟨j, hj, rfl, terminal⟩ fun _ => trivial, ?_⟩
    rw [State.setChannel_self]
    trivial
  · rename_i running
    obtain ⟨used, job, due⟩ := h.running hj running
    have pushed : Inv (s.setJob c.job { j with waiters := j.waiters ++ [c] }) := by
      have stepped := @thread ρ s h c.job (some { j with waiters := j.waiters ++ [c] }) (s.stage c.job)
        s.rows (h.used _ used) (fun _ _ => rfl) (job _) (h.row c.job) ?_ ?_ ?_
      · rwa [Function.update_eq_self] at stepped
      · intro d hd
        rw [due] at hd
        rcases List.mem_append.mp hd with hd | hd
        · apply h.due c.job
          rwa [hj, due]
        · rw [List.mem_singleton.mp hd]
      · intro d hd _
        rw [hj, due] at hd
        rw [due]
        exact List.mem_append_left _ hd
      · rintro st ⟨j', hj', hst, terminal⟩
        rw [hj] at hj'
        cases hj'
        exact ⟨_, rfl, hst, terminal⟩
    refine ⟨pushed.setChannel ?_ fun _ => trivial, ?_⟩
    · change c ∈ Jobs.due (Function.update s.jobs c.job _ c.job) (s.stage c.job)
      rw [Function.update_self, due]
      exact List.mem_append_right _ (List.mem_singleton_self c)
    · rw [State.setChannel_self]
      trivial

theorem job_wait (h : Inv s) (r : ρ) (id : Nat) (timeout : Option Nat) :
    Inv (job_wait s r id timeout) := by
  unfold Jobs.job_wait
  split
  · rename_i s' hs
    obtain ⟨made, held⟩ := h.wait_handle hs
    refine made.goto ?_ nofun
    rintro c ⟨⟩
    exact held
  · exact h.goto nofun nofun

theorem cancel (h : Inv s) (r : ρ) (id : Nat) : Inv (cancel s r id) := by
  unfold Jobs.cancel
  split
  · exact h.goto nofun nofun
  · rename_i j hj
    split
    · rename_i terminal
      refine h.goto nofun ?_
      rintro _ _ ⟨⟩
      exact ⟨j, hj, rfl, terminal⟩
    · exact h.goto nofun nofun

theorem cancelHandle (h : Inv s) {r : ρ} {use : Use} {id : Nat} {p : Phase}
    (hp : p.chan r = some ⟨r, use, id⟩) : Inv (cancelHandle s r use id p) := by
  unfold Jobs.cancelHandle
  split
  · rename_i s' hs
    obtain ⟨made, held⟩ := h.wait_handle hs
    refine made.goto ?_ ?_
    · intro c hc
      rw [hp] at hc
      cases hc
      exact held
    · rintro _ _ rfl
      cases hp
  · exact h.goto nofun nofun

/-- What is in a channel is the terminal state of its job. -/
theorem answered (h : Inv s) (r : ρ) {c : Chan ρ} {st : JobState} (hc : s.channels c = .full st) :
    Inv (s.goto r (.answered (.state c.job st))) := by
  have ended := h.channel c
  rw [hc] at ended
  refine h.goto nofun ?_
  rintro _ _ ⟨⟩
  exact ended

theorem poll (h : Inv s) (r : ρ) (c : Chan ρ) : Inv (poll s r c) := by
  unfold Jobs.poll
  split
  · exact h.answered r ‹_›
  · exact h

/-- A request moves on and drops its receiver. -/
theorem drop (h : Inv s) {r : ρ} {c : Chan ρ} {p : Phase} (hr : c.request = r) (hp : p.chan r = none)
    (hanswer : ∀ id st, p ≠ .answered (.state id st)) : Inv ((s.goto r p).setChannel c .closed) := by
  have moved : Inv (s.goto r p) := h.goto (by rw [hp]; nofun) fun id st hst => absurd hst (hanswer id st)
  refine moved.setChannel trivial ?_
  rintro ⟨q, hq⟩
  have same : q = r := (Phase.chan_request hq).symm.trans hr
  subst same
  rw [State.phase_goto_self, hp] at hq
  cases hq

theorem next (h : Inv s) (r : ρ) : Inv (next s r) := by
  unfold Jobs.next
  split
  case h_1 id timeout hp => exact h.poll r _
  case h_2 id hp => exact h.cancelHandle rfl
  case h_3 id hp =>
    refine h.goto ?_ nofun
    have held := h.held r
    rwa [hp] at held
  case h_4 id hp => exact h.poll r _
  case h_5 id hp => exact h.cancelHandle rfl
  case h_6 id hp =>
    refine h.goto ?_ nofun
    have held := h.held r
    rwa [hp] at held
  case h_7 id hp => exact h.poll r _
  case h_8 => exact h

theorem expire (h : Inv s) (r : ρ) : Inv (expire s r) := by
  unfold Jobs.expire
  split
  case h_1 id timeout hp =>
    split
    · exact h.answered r ‹_›
    · exact h.drop rfl rfl nofun
  case h_2 id hp =>
    split
    · exact h.answered r ‹_›
    · exact h.drop rfl rfl nofun
  case h_3 => exact h

end Inv

/-- A daemon that could not read the table is not considered. -/
def SchemaOk (_ : State ρ) : Event ρ → Prop
  | .restart schema_ok => schema_ok = true
  | _ => True

theorem inv_step [DecidableEq ρ] {s : State ρ} {e : Event ρ} (he : SchemaOk s e) (h : Inv s) :
    Inv (step s e) := by
  cases e with
  | submit command => exact h.allocate command
  | register id spawned pid => exact h.register id spawned pid
  | persist_initial id ok => exact h.persist_initial id ok
  | supervise id => exact h.supervise id
  | exit id exit => exact h.handle_exit id exit
  | send id => exact h.sendNext id
  | persist_terminal id ok => exact h.persist_terminal id ok
  | job_wait r id timeout =>
    simp only [step]
    split
    · exact h.job_wait r id timeout
    · exact h
  | cancel r id =>
    simp only [step]
    split
    · exact h.cancel r id
    · exact h
  | next r => exact h.next r
  | expire r => exact h.expire r
  | kill id sig => exact h
  | restart schema_ok =>
    cases he
    exact Inv.restart s

end Zshrs.Daemon.Jobs
