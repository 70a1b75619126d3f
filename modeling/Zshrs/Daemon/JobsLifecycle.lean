import Zshrs.Daemon.JobsRuns

namespace Zshrs.Daemon.Jobs

open Lib Lib.Runs

variable {ρ : Type}

/-- What a request was answered, by this daemon or by an earlier one. -/
def Phase.answer : Phase → Option Answer
  | .answered a => some a
  | .past a => some a
  | _ => none

/-- The job that a request under way asks for. -/
def Phase.asks : Phase → Option Nat
  | .waiting id _ => some id
  | .checked id => some id
  | .terminating id => some id
  | .graced id => some id
  | .overdue id => some id
  | .killing id => some id
  | .reaping id => some id
  | _ => none

/-- What a later state of the same daemon keeps. -/
structure Later (s s' : State ρ) : Prop where
  ended : ∀ id st, Ended (s.jobs id) st → Ended (s'.jobs id) st
  rows : ∀ id row, s.rows.get? id = some row →
    ∃ row', s'.rows.get? id = some row' ∧ (row.terminal → row' = row)
  used : ∀ id, s.stage id ≠ .unused → s'.stage id ≠ .unused
  answered : ∀ r a, (s.phase r).answer = some a → (s'.phase r).answer = some a

namespace Later

variable {s : State ρ}

theorem refl (s : State ρ) : Later s s :=
  ⟨fun _ _ h => h, fun _ row h => ⟨row, h, fun _ => rfl⟩, fun _ h => h, fun _ _ h => h⟩

/-- The thread of a job takes a step. -/
theorem thread {id : Nat} {m : Option (JobMeta ρ)} {g : Stage ρ} {rows : OrdMap Nat Row}
    (hended : ∀ st, Ended (s.jobs id) st → Ended m st)
    (hrows : ∀ k row, s.rows.get? k = some row →
      ∃ row', rows.get? k = some row' ∧ (row.terminal → row' = row))
    (hg : g ≠ .unused) :
    Later s { s with
      jobs := Function.update s.jobs id m
      stage := Function.update s.stage id g
      rows := rows } := by
  refine ⟨fun k st hk => ?_, hrows, fun k hk => ?_, fun _ _ h => h⟩
  · by_cases hkid : k = id
    · subst hkid
      simpa using hended st hk
    · simpa [hkid] using hk
  · by_cases hkid : k = id
    · subst hkid
      simpa using hg
    · simpa [hkid] using hk

theorem setStage {id : Nat} {g : Stage ρ} {rows : OrdMap Nat Row}
    (hrows : ∀ k row, s.rows.get? k = some row →
      ∃ row', rows.get? k = some row' ∧ (row.terminal → row' = row))
    (hg : g ≠ .unused) : Later s ((s.setRows rows).setStage id g) := by
  have later := @thread ρ s id (s.jobs id) g rows (fun _ h => h) hrows hg
  rwa [Function.update_eq_self] at later

variable [DecidableEq ρ]

theorem goto {r : ρ} {p : Phase} (h : (s.phase r).answer = none) : Later s (s.goto r p) := by
  refine ⟨fun _ _ h => h, fun _ row h => ⟨row, h, fun _ => rfl⟩, fun _ h => h, fun q a hq => ?_⟩
  by_cases hqr : q = r
  · subst hqr
    rw [h] at hq
    cases hq
  · rwa [s.phase_goto_ne hqr]

theorem setChannel (c : Chan ρ) (v : Channel) : Later s (s.setChannel c v) :=
  ⟨fun _ _ h => h, fun _ row h => ⟨row, h, fun _ => rfl⟩, fun _ h => h, fun _ _ h => h⟩

omit [DecidableEq ρ] in
theorem trans {t u : State ρ} (h : Later s t) (h' : Later t u) : Later s u := by
  refine ⟨fun id st hst => h'.ended id st (h.ended id st hst), fun id row hrow => ?_,
    fun id hid => h'.used id (h.used id hid), fun r a ha => h'.answered r a (h.answered r a ha)⟩
  obtain ⟨row₂, hrow₂, same₂⟩ := h.rows id row hrow
  obtain ⟨row₃, hrow₃, same₃⟩ := h'.rows id row₂ hrow₂
  refine ⟨row₃, hrow₃, fun terminal => ?_⟩
  have same := same₂ terminal
  rw [← same] at terminal
  exact (same₃ terminal).trans same

theorem send (c : Chan ρ) (st : JobState) : Later s (send s c st) := by
  unfold Jobs.send
  split
  · exact .setChannel c _
  · exact .refl s

theorem wait_handle {c : Chan ρ} {s' : State ρ} (hs : wait_handle s c = some s') : Later s s' := by
  obtain ⟨j, hj, rfl⟩ := Option.map_eq_some_iff.mp hs
  split
  · exact .setChannel c _
  · rename_i running
    refine .trans (t := s.setJob c.job { j with waiters := j.waiters ++ [c] }) ⟨fun k st hk => ?_,
      fun _ row h => ⟨row, h, fun _ => rfl⟩, fun _ h => h, fun _ _ h => h⟩ (.setChannel c _)
    obtain ⟨j', hj', hst, terminal⟩ := hk
    refine ⟨j', ?_, hst, terminal⟩
    by_cases hkc : k = c.job
    · subst hkc
      rw [hj] at hj'
      cases hj'
      exact absurd (hst ▸ terminal) running
    · simpa [State.setJob, hkc] using hj'

end Later

/-- Every row of a table stays, and a terminal one as it is, when a row is written that was not
terminal. -/
theorem rows_kept {rows rows' : OrdMap Nat Row} {id : Nat} (hother : ∀ k, k ≠ id → rows'.get? k = rows.get? k)
    (hsome : ∀ x, rows.get? id = some x → rows'.get? id ≠ none) (hrow : ∀ x ∈ rows.get? id, ¬ x.terminal) :
    ∀ k row, rows.get? k = some row → ∃ row', rows'.get? k = some row' ∧ (row.terminal → row' = row) := by
  intro k row hk
  by_cases hkid : k = id
  · subst hkid
    obtain ⟨row', hrow'⟩ := Option.ne_none_iff_exists'.mp (hsome row hk)
    exact ⟨row', hrow', fun terminal => absurd terminal (hrow row hk)⟩
  · exact ⟨row, (hother k hkid).trans hk, fun _ => rfl⟩

variable {s : State ρ}

theorem Later.allocate (s : State ρ) (command : List String) : Later s (allocate s command) := by
  unfold Jobs.allocate
  split
  · exact .refl s
  have grown : Later s { s with next_id := s.next_id + 1 } :=
    ⟨fun _ _ h => h, fun _ row h => ⟨row, h, fun _ => rfl⟩, fun _ h => h, fun _ _ h => h⟩
  exact grown.trans (.setStage (fun _ row h => ⟨row, h, fun _ => rfl⟩) (by nofun))

theorem Later.register (h : Inv s) (id : Nat) (spawned : Bool) (pid : Option Int) :
    Later s (register s id spawned pid) := by
  unfold Jobs.register
  split
  · rename_i hstage
    have job : s.jobs id = none := by
      have job := h.job id
      rwa [hstage] at job
    split
    · refine .thread ?_ (fun _ row h => ⟨row, h, fun _ => rfl⟩) (by nofun)
      rintro st ⟨j, hj, _⟩
      rw [job] at hj
      cases hj
    · exact .setStage (fun _ row h => ⟨row, h, fun _ => rfl⟩) (by nofun)
  · exact .refl s

theorem Later.persist_initial (h : Inv s) (id : Nat) (ok : Bool) :
    Later s (persist_initial s id ok) := by
  unfold Jobs.persist_initial
  split
  · rename_i hstage
    have row : s.rows.get? id = none := by
      have row := h.row id
      rwa [hstage] at row
    refine @Later.setStage ρ s id .persisted _ ?_ nofun
    split
    · apply @rows_kept _ _ id
      · intro k hk
        rw [OrdMap.get?_insert, if_neg hk]
      · intro x _
        rw [OrdMap.get?_insert, if_pos rfl]
        nofun
      · rw [row]
        nofun
    · exact fun _ row h => ⟨row, h, fun _ => rfl⟩
  · exact .refl s

theorem Later.handle_exit (h : Inv s) (id : Nat) (exit : Except String ExitStatus) :
    Later s (handle_exit s id exit) := by
  unfold Jobs.handle_exit
  split
  · rename_i hstage
    obtain ⟨j, hj, running⟩ : ∃ j, s.jobs id = some j ∧ j.state = .Running := by
      have job := h.job id
      rwa [hstage] at job
    rw [hj]
    refine .thread ?_ (fun _ row h => ⟨row, h, fun _ => rfl⟩) (by nofun)
    rintro st ⟨j', hj', hst, terminal⟩
    rw [hj] at hj'
    cases hj'
    rw [← hst, running] at terminal
    cases terminal
  · exact .refl s

theorem Later.persist_terminal (h : Inv s) (id : Nat) (ok : Bool) :
    Later s (persist_terminal s id ok) := by
  unfold Jobs.persist_terminal
  split
  · rename_i st hstage
    have row : ∀ x ∈ s.rows.get? id, ¬ x.terminal := by
      have row := h.row id
      rwa [hstage] at row
    refine @Later.setStage ρ s id (.finished st) _ ?_ nofun
    split
    · apply @rows_kept _ _ id
      · intro k hk
        rw [OrdMap.get?_modify, if_neg hk]
      · intro x hx
        rw [OrdMap.get?_modify, if_pos rfl, hx]
        nofun
      · exact row
    · exact fun _ row h => ⟨row, h, fun _ => rfl⟩
  · exact .refl s

theorem Later.supervise (s : State ρ) (id : Nat) : Later s (supervise s id) := by
  unfold Jobs.supervise
  split
  · exact .setStage (fun _ row h => ⟨row, h, fun _ => rfl⟩) (by nofun)
  · exact .refl s

variable [DecidableEq ρ]

theorem Later.sendNext (s : State ρ) (id : Nat) : Later s (sendNext s id) := by
  unfold Jobs.sendNext
  split
  · exact (Later.send _ _).trans (.setStage (fun _ row h => ⟨row, h, fun _ => rfl⟩) (by nofun))
  · exact .refl s

theorem Later.job_wait {r : ρ} (hr : s.phase r = .unsent) (id : Nat) (timeout : Option Nat) :
    Later s (job_wait s r id timeout) := by
  unfold Jobs.job_wait
  split
  · rename_i s' hs
    have phase : s'.phase = s.phase := (wait_handle_phase hs)
    exact (Later.wait_handle hs).trans (.goto (by rw [phase, hr]; rfl))
  · exact .goto (by rw [hr]; rfl)

theorem Later.cancel {r : ρ} (hr : s.phase r = .unsent) (id : Nat) : Later s (cancel s r id) := by
  unfold Jobs.cancel
  split
  · exact .goto (by rw [hr]; rfl)
  · split
    · exact .goto (by rw [hr]; rfl)
    · exact .goto (by rw [hr]; rfl)

theorem Later.cancelHandle {r : ρ} {use : Use} {id : Nat} (hr : (s.phase r).answer = none) (p : Phase) :
    Later s (cancelHandle s r use id p) := by
  unfold Jobs.cancelHandle
  split
  · rename_i s' hs
    exact (Later.wait_handle hs).trans (.goto (by rwa [wait_handle_phase hs]))
  · exact .goto hr

theorem Later.poll {r : ρ} (hr : (s.phase r).answer = none) (c : Chan ρ) : Later s (poll s r c) := by
  unfold Jobs.poll
  split
  · exact .goto hr
  · exact .refl s

theorem Later.next (s : State ρ) (r : ρ) : Later s (next s r) := by
  unfold Jobs.next
  split
  case h_1 | h_4 | h_7 => exact .poll (by simp [*, Phase.answer]) _
  case h_2 | h_5 => exact .cancelHandle (by simp [*, Phase.answer]) _
  case h_3 | h_6 => exact .goto (by simp [*, Phase.answer])
  case h_8 => exact .refl s

theorem Later.expire (s : State ρ) (r : ρ) : Later s (expire s r) := by
  unfold Jobs.expire
  split
  case h_1 | h_2 =>
    split
    · exact .goto (by simp [*, Phase.answer])
    · exact .trans (.goto (by simp [*, Phase.answer])) (.setChannel _ _)
  case h_3 => exact .refl s

/-- What one step of a daemon keeps. -/
theorem later_step {e : Event ρ} (he : ∀ ok, e ≠ .restart ok) (h : Inv s) : Later s (step s e) := by
  cases e with
  | submit command => exact .allocate s command
  | register id spawned pid => exact .register h id spawned pid
  | persist_initial id ok => exact .persist_initial h id ok
  | supervise id => exact .supervise s id
  | exit id exit => exact .handle_exit h id exit
  | send id => exact .sendNext s id
  | persist_terminal id ok => exact .persist_terminal h id ok
  | job_wait r id timeout =>
    simp only [step]
    split
    · exact .job_wait ‹_› id timeout
    · exact .refl s
  | cancel r id =>
    simp only [step]
    split
    · exact .cancel ‹_› id
    · exact .refl s
  | next r => exact .next s r
  | expire r => exact .expire s r
  | kill id sig => exact .refl s
  | restart ok => exact absurd rfl (he ok)

/-- The job that a request asks for, before the step or with it. -/
def Asks (s : State ρ) (e : Event ρ) (r : ρ) (id : Nat) : Prop :=
  (s.phase r).asks = some id ∨ (∃ timeout, e = .job_wait r id timeout) ∨ e = .cancel r id

/-- A state that a request is answered is the terminal one of the job that it asks for. Only the
request's own timer leaves it without one, or a job that the daemon does not know. -/
def RightAnswer (s : State ρ) (e : Event ρ) (r : ρ) : Answer → Prop
  | .state id st => Asks s e r id ∧ Ended (s.jobs id) st
  | .timed_out id => e = .expire r ∧ ∃ timeout, s.phase r = .waiting id (some timeout)
  | .not_found id => Asks s e r id ∧ s.jobs id = none

theorem answer_goto {r q : ρ} {p : Phase} {a : Answer} (hnone : (s.phase q).answer = none)
    (hsome : ((s.goto r p).phase q).answer = some a) : q = r ∧ p.answer = some a := by
  by_cases hq : q = r
  · subst hq
    rw [s.phase_goto_self] at hsome
    exact ⟨rfl, hsome⟩
  · rw [s.phase_goto_ne hq, hnone] at hsome
    cases hsome

theorem right_poll (h : Inv s) {e : Event ρ} {r q : ρ} {c : Chan ρ} {a : Answer}
    (hnone : (s.phase q).answer = none) (hsome : ((poll s r c).phase q).answer = some a)
    (hasks : Asks s e r c.job) : RightAnswer s e q a := by
  unfold poll at hsome
  split at hsome
  · rename_i st hc
    obtain ⟨rfl, hp⟩ := answer_goto hnone hsome
    cases hp
    have ended := h.channel c
    rw [hc] at ended
    exact ⟨hasks, ended⟩
  · rw [hnone] at hsome
    cases hsome

theorem right_cancelHandle {e : Event ρ} {r q : ρ} {use : Use} {id : Nat} {p : Phase} {a : Answer}
    (hnone : (s.phase q).answer = none) (hp : p.answer = none)
    (hsome : ((cancelHandle s r use id p).phase q).answer = some a) (hasks : Asks s e r id) :
    RightAnswer s e q a := by
  unfold cancelHandle at hsome
  split at hsome
  · rename_i s' hs
    obtain ⟨rfl, ha⟩ := answer_goto (by rwa [wait_handle_phase hs]) hsome
    rw [hp] at ha
    cases ha
  · rename_i hs
    obtain ⟨rfl, ha⟩ := answer_goto hnone hsome
    cases ha
    exact ⟨hasks, Option.map_eq_none_iff.mp hs⟩

theorem right_job_wait {r q : ρ} {id : Nat} {timeout : Option Nat} {a : Answer}
    (hnone : (s.phase q).answer = none) (hsome : ((job_wait s r id timeout).phase q).answer = some a) :
    RightAnswer s (.job_wait r id timeout) q a := by
  unfold job_wait at hsome
  split at hsome
  · rename_i s' hs
    obtain ⟨rfl, ha⟩ := answer_goto (by rwa [wait_handle_phase hs]) hsome
    cases ha
  · rename_i hs
    obtain ⟨rfl, ha⟩ := answer_goto hnone hsome
    cases ha
    exact ⟨.inr (.inl ⟨timeout, rfl⟩), Option.map_eq_none_iff.mp hs⟩

theorem right_cancel {r q : ρ} {id : Nat} {a : Answer} (hnone : (s.phase q).answer = none)
    (hsome : ((cancel s r id).phase q).answer = some a) : RightAnswer s (.cancel r id) q a := by
  have asks : Asks s (.cancel r id) r id := .inr (.inr rfl)
  unfold cancel at hsome
  split at hsome
  · rename_i hj
    obtain ⟨rfl, ha⟩ := answer_goto hnone hsome
    cases ha
    exact ⟨asks, hj⟩
  · rename_i j hj
    split at hsome
    · rename_i terminal
      obtain ⟨rfl, ha⟩ := answer_goto hnone hsome
      cases ha
      exact ⟨asks, j, hj, rfl, terminal⟩
    · obtain ⟨rfl, ha⟩ := answer_goto hnone hsome
      cases ha

theorem right_next (h : Inv s) {r q : ρ} {a : Answer} (hnone : (s.phase q).answer = none)
    (hsome : ((next s r).phase q).answer = some a) : RightAnswer s (.next r) q a := by
  unfold next at hsome
  split at hsome
  case h_1 id timeout hp => exact right_poll h hnone hsome (.inl (by rw [hp]; rfl))
  case h_2 id hp => exact right_cancelHandle hnone rfl hsome (.inl (by rw [hp]; rfl))
  case h_3 id hp =>
    obtain ⟨rfl, ha⟩ := answer_goto hnone hsome
    cases ha
  case h_4 id hp => exact right_poll h hnone hsome (.inl (by rw [hp]; rfl))
  case h_5 id hp => exact right_cancelHandle hnone rfl hsome (.inl (by rw [hp]; rfl))
  case h_6 id hp =>
    obtain ⟨rfl, ha⟩ := answer_goto hnone hsome
    cases ha
  case h_7 id hp => exact right_poll h hnone hsome (.inl (by rw [hp]; rfl))
  case h_8 =>
    rw [hnone] at hsome
    cases hsome

theorem right_expire (h : Inv s) {r q : ρ} {a : Answer} (hnone : (s.phase q).answer = none)
    (hsome : ((expire s r).phase q).answer = some a) : RightAnswer s (.expire r) q a := by
  unfold expire at hsome
  split at hsome
  case h_1 id timeout hp =>
    split at hsome
    · rename_i st hc
      obtain ⟨rfl, ha⟩ := answer_goto hnone hsome
      cases ha
      have ended := h.channel ⟨q, .wait, id⟩
      rw [hc] at ended
      exact ⟨.inl (by rw [hp]; rfl), ended⟩
    · obtain ⟨rfl, ha⟩ := answer_goto hnone hsome
      cases ha
      exact ⟨rfl, timeout, hp⟩
  case h_2 id hp =>
    split at hsome
    · rename_i st hc
      obtain ⟨rfl, ha⟩ := answer_goto hnone hsome
      cases ha
      have ended := h.channel ⟨q, .term, id⟩
      rw [hc] at ended
      exact ⟨.inl (by rw [hp]; rfl), ended⟩
    · obtain ⟨rfl, ha⟩ := answer_goto hnone hsome
      cases ha
  case h_3 =>
    rw [hnone] at hsome
    cases hsome

theorem send_frame (s : State ρ) (c : Chan ρ) (st : JobState) :
    (send s c st).phase = s.phase ∧ (send s c st).stage = s.stage ∧ (send s c st).rows = s.rows := by
  unfold send
  split <;> exact ⟨rfl, rfl, rfl⟩

/-- Only requests, and a new daemon, change what requests are at. -/
theorem right_step (h : Inv s) {e : Event ρ} {q : ρ} {a : Answer} (hnone : (s.phase q).answer = none)
    (hsome : ((step s e).phase q).answer = some a) : RightAnswer s e q a := by
  have unchanged : (step s e).phase = s.phase → RightAnswer s e q a := by
    intro same
    rw [same, hnone] at hsome
    cases hsome
  cases e with
  | submit command =>
    apply unchanged
    simp only [step, allocate]
    split <;> rfl
  | register id spawned pid =>
    apply unchanged
    simp only [step, register]
    split
    · split <;> rfl
    · rfl
  | persist_initial id ok =>
    apply unchanged
    simp only [step, persist_initial]
    split <;> rfl
  | supervise id =>
    apply unchanged
    simp only [step, supervise]
    split <;> rfl
  | exit id exit =>
    apply unchanged
    simp only [step, handle_exit]
    split
    · split <;> rfl
    · rfl
  | send id =>
    apply unchanged
    simp only [step, sendNext]
    split
    · exact (send_frame s _ _).1
    · rfl
  | persist_terminal id ok =>
    apply unchanged
    simp only [step, persist_terminal]
    split <;> rfl
  | job_wait r id timeout =>
    simp only [step] at hsome
    split at hsome
    · exact right_job_wait hnone hsome
    · rw [hnone] at hsome
      cases hsome
  | cancel r id =>
    simp only [step] at hsome
    split at hsome
    · exact right_cancel hnone hsome
    · rw [hnone] at hsome
      cases hsome
  | next r => exact right_next h hnone hsome
  | expire r => exact right_expire h hnone hsome
  | kill id sig => exact unchanged rfl
  | restart ok =>
    change (s.phase q).restart.answer = some a at hsome
    cases hp : s.phase q with
    | answered b | past b =>
      rw [hp] at hnone
      cases hnone
    | unsent | waiting | checked | terminating | graced | overdue | killing | reaping | lost =>
      rw [hp] at hsome
      cases hsome

/-- What a step does to the threads and to the table. -/
inductive Moves (s s' : State ρ) : Prop
  | still (stage : s'.stage = s.stage) (rows : s'.rows = s.rows)
  | submits (stage : s'.stage = Function.update s.stage s.next_id .allocated) (rows : s'.rows = s.rows)
  | moves (id : Nat) (g : Stage ρ) (used : s.stage id ≠ .unused)
      (stage : s'.stage = Function.update s.stage id g) (rows : s'.rows = s.rows)
  | records (id : Nat) (used : s.stage id ≠ .unused)
      (stage : s'.stage = Function.update s.stage id .persisted)
      (rows : s'.rows = s.rows.insert id initialRow)
  | writes (id : Nat) (st : JobState) (sent : s.stage id = .sending st [])
      (stage : s'.stage = Function.update s.stage id (.finished st))
      (rows : s'.rows = s.rows.modify id fun _ => terminalRow st)

theorem wait_handle_moves {s' : State ρ} {c : Chan ρ} (h : wait_handle s c = some s') :
    s'.stage = s.stage ∧ s'.rows = s.rows := by
  obtain ⟨j, _, rfl⟩ := Option.map_eq_some_iff.mp h
  split <;> exact ⟨rfl, rfl⟩

theorem Moves.poll (s : State ρ) (r : ρ) (c : Chan ρ) : Moves s (poll s r c) := by
  unfold Jobs.poll
  split <;> exact .still rfl rfl

theorem Moves.cancelHandle (s : State ρ) (r : ρ) (use : Use) (id : Nat) (p : Phase) :
    Moves s (cancelHandle s r use id p) := by
  unfold Jobs.cancelHandle
  split
  · obtain ⟨stage, rows⟩ := wait_handle_moves ‹_›
    exact .still stage rows
  · exact .still rfl rfl

theorem Moves.next (s : State ρ) (r : ρ) : Moves s (next s r) := by
  unfold Jobs.next
  split
  case h_1 | h_4 | h_7 => exact .poll s r _
  case h_2 | h_5 => exact .cancelHandle s r _ _ _
  case h_3 | h_6 | h_8 => exact .still rfl rfl

theorem moves_step (s : State ρ) {e : Event ρ} (he : ∀ ok, e ≠ .restart ok) : Moves s (step s e) := by
  cases e with
  | submit command =>
    simp only [step, allocate]
    split
    · exact .still rfl rfl
    · exact .submits rfl rfl
  | register id spawned pid =>
    simp only [step, register]
    split
    · split
      · exact .moves id _ (by simp [*]) rfl rfl
      · exact .moves id _ (by simp [*]) rfl rfl
    · exact .still rfl rfl
  | persist_initial id ok =>
    simp only [step, persist_initial]
    split
    · cases ok with
      | true => exact .records id (by simp [*]) rfl rfl
      | false => exact .moves id _ (by simp [*]) rfl rfl
    · exact .still rfl rfl
  | supervise id =>
    simp only [step, supervise]
    split
    · exact .moves id _ (by simp [*]) rfl rfl
    · exact .still rfl rfl
  | exit id exit =>
    simp only [step, handle_exit]
    split
    · split
      · exact .moves id _ (by simp [*]) rfl rfl
      · exact .moves id _ (by simp [*]) rfl rfl
    · exact .still rfl rfl
  | send id =>
    simp only [step, sendNext]
    split
    · rename_i st c waiters hstage
      obtain ⟨_, stage, rows⟩ := send_frame s c st
      refine .moves id (.sending st waiters) (by simp [*]) ?_ rows
      rw [State.setStage, stage]
    · exact .still rfl rfl
  | persist_terminal id ok =>
    simp only [step, persist_terminal]
    split
    · cases ok with
      | true => exact .writes id _ ‹_› rfl rfl
      | false => exact .moves id _ (by simp [*]) rfl rfl
    · exact .still rfl rfl
  | job_wait r id timeout =>
    simp only [step]
    split
    · unfold job_wait
      split
      · obtain ⟨stage, rows⟩ := wait_handle_moves ‹_›
        exact .still stage rows
      · exact .still rfl rfl
    · exact .still rfl rfl
  | cancel r id =>
    simp only [step]
    split
    · unfold cancel
      split
      · exact .still rfl rfl
      · split <;> exact .still rfl rfl
    · exact .still rfl rfl
  | next r => exact .next s r
  | expire r =>
    simp only [step, expire]
    split
    case h_1 | h_2 => split <;> exact .still rfl rfl
    case h_3 => exact .still rfl rfl
  | kill id sig => exact .still rfl rfl
  | restart ok => exact absurd rfl (he ok)

omit [DecidableEq ρ] in
/-- A thread starts at the counter only. -/
theorem Moves.fresh {s' : State ρ} (h : Moves s s') {id : Nat} (hid : s.stage id = .unused)
    (hnext : s'.stage id ≠ .unused) : id = s.next_id := by
  have other : ∀ k g, s'.stage = Function.update s.stage k g → s.stage k ≠ .unused → id = s.next_id := by
    intro k g same hk
    have hne : id ≠ k := fun heq => hk (heq ▸ hid)
    rw [same, Function.update_of_ne hne, hid] at hnext
    exact absurd rfl hnext
  cases h with
  | still stage rows =>
    rw [stage, hid] at hnext
    exact absurd rfl hnext
  | submits stage rows =>
    by_contra hne
    rw [stage, Function.update_of_ne hne, hid] at hnext
    exact hnext rfl
  | moves k g used stage rows => exact other k _ stage used
  | records k used stage rows => exact other k _ stage used
  | writes k st sent stage rows => exact other k _ stage (by simp [sent])

omit [DecidableEq ρ] in
/-- A terminal row is written with the state that the registry has. -/
theorem Moves.written {s' : State ρ} (h : Moves s s') (hs : Inv s) {id : Nat} {row : Row}
    (hold : s.rows.get? id ≠ some row) (hnew : s'.rows.get? id = some row) (terminal : row.terminal) :
    ∃ st, Ended (s.jobs id) st ∧ row = terminalRow st := by
  cases h with
  | still stage rows | submits stage rows | moves k g used stage rows =>
    rw [rows] at hnew
    exact absurd hnew hold
  | records k used stage rows =>
    rw [rows, OrdMap.get?_insert] at hnew
    split at hnew
    · cases hnew
      exact absurd rfl terminal
    · exact absurd hnew hold
  | writes k st sent stage rows =>
    rw [rows, OrdMap.get?_modify] at hnew
    split at hnew
    · rename_i hk
      obtain ⟨_, _, rfl⟩ := Option.map_eq_some_iff.mp hnew
      have job := hs.job k
      rw [sent] at job
      obtain ⟨j, hj, hst, ended, _⟩ := job
      exact ⟨st, hk ▸ ⟨j, hj, hst, ended⟩, rfl⟩
    · exact absurd hnew hold

/-- What a step keeps, and what it may do. The first four hold of a new daemon too, as far as they are
about the table and the answers. -/
structure Lawful (s : State ρ) (e : Event ρ) : Prop where
  rows : ∀ id row, s.rows.get? id = some row →
    ∃ row', (step s e).rows.get? id = some row' ∧ (row.terminal → row' = row)
  once : ∀ r a, (s.phase r).answer = some a → ((step s e).phase r).answer = some a
  right : ∀ r a, (s.phase r).answer = none → ((step s e).phase r).answer = some a → RightAnswer s e r a
  fresh : ∀ id, s.stage id = .unused → (step s e).stage id ≠ .unused → s.rows.get? id = none
  used : (∀ ok, e ≠ .restart ok) → ∀ id, s.stage id ≠ .unused → (step s e).stage id ≠ .unused
  terminal : (∀ ok, e ≠ .restart ok) → ∀ id st, Ended (s.jobs id) st → Ended ((step s e).jobs id) st
  written : (∀ ok, e ≠ .restart ok) → ∀ id row, s.rows.get? id ≠ some row →
    (step s e).rows.get? id = some row → row.terminal → ∃ st, Ended (s.jobs id) st ∧ row = terminalRow st

omit [DecidableEq ρ] in
theorem start_rows (rows : OrdMap Nat Row) (ok : Bool) (phase : ρ → Phase) {id : Nat} {row : Row}
    (hrow : rows.get? id = some row) :
    ∃ row', (start rows ok phase).rows.get? id = some row' ∧ (row.terminal → row' = row) := by
  cases ok with
  | true =>
    refine ⟨restartedRow row, ?_, fun terminal => if_neg terminal⟩
    change (rows.mapValues restartedRow).get? id = some (restartedRow row)
    rw [OrdMap.get?_mapValues, hrow]
    rfl
  | false => exact ⟨row, hrow, fun _ => rfl⟩

theorem Phase.answer_restart {p : Phase} {a : Answer} (h : p.answer = some a) :
    p.restart.answer = some a := by
  cases p with
  | answered | past => exact h
  | unsent | waiting | checked | terminating | graced | overdue | killing | reaping | lost => cases h

theorem lawful_step (s : State ρ) (e : Event ρ) (h : Inv s) : Lawful s e := by
  by_cases he : ∃ ok, e = .restart ok
  · obtain ⟨ok, rfl⟩ := he
    exact ⟨fun id row hrow => start_rows s.rows ok _ hrow, fun r a ha => Phase.answer_restart ha,
      fun r a hnone hsome => right_step h hnone hsome, fun id _ hused => absurd rfl hused,
      fun hno => absurd rfl (hno ok), fun hno => absurd rfl (hno ok), fun hno => absurd rfl (hno ok)⟩
  · have he : ∀ ok, e ≠ .restart ok := fun ok heq => he ⟨ok, heq⟩
    have later := later_step he h
    have moves := moves_step s he
    refine ⟨later.rows, later.answered, fun r a hnone hsome => right_step h hnone hsome,
      fun id hid hused => ?_, fun _ => later.used, fun _ => later.ended,
      fun _ id row hold hnew => moves.written h hold hnew⟩
    have hid := moves.fresh hid hused
    by_contra hne
    exact Nat.lt_irrefl _ (hid ▸ h.rows id hne)

/-- A request that awaits the end of a job. -/
def Phase.awaits : Phase → Option Nat
  | .waiting id _ => some id
  | .graced id => some id
  | .reaping id => some id
  | _ => none

/-- The exit handler of a job has sent to all of its waiters. -/
def Drained : Stage ρ → Prop
  | .sending _ [] => True
  | .finished _ => True
  | _ => False

/-- A request that awaits a job whose exit handler is through is answered at its next step, whenever it
has come. -/
def NoLostWait (s : State ρ) : Prop :=
  ∀ r id, (s.phase r).awaits = some id → Drained (s.stage id) →
    ∃ st, Ended (s.jobs id) st ∧ (step s (.next r)).phase r = .answered (.state id st)

omit [DecidableEq ρ] in
theorem Inv.due_drained {s : State ρ} (h : Inv s) {id : Nat} (hid : Drained (s.stage id)) :
    Jobs.due (s.jobs id) (s.stage id) = [] := by
  have job := h.job id
  cases hstage : s.stage id with
  | sending st waiters =>
    rw [hstage] at hid
    cases waiters with
    | nil => rfl
    | cons => exact hid.elim
  | finished st =>
    rw [hstage] at job
    obtain ⟨j, hj, _, _, none⟩ := job
    rw [hj]
    exact none
  | unused | allocated | abandoned | registered | persisted | watched =>
    rw [hstage] at hid
    exact hid.elim

omit [DecidableEq ρ] in
theorem Inv.channel_full {s : State ρ} (h : Inv s) {c : Chan ρ} (held : (s.channels c).held)
    (hid : Drained (s.stage c.job)) : ∃ st, s.channels c = .full st ∧ Ended (s.jobs c.job) st := by
  have ok := h.channel c
  cases hc : s.channels c with
  | empty =>
    rw [hc] at ok
    have mem : c ∈ Jobs.due (s.jobs c.job) (s.stage c.job) := ok
    rw [h.due_drained hid] at mem
    cases mem
  | full st =>
    rw [hc] at ok
    exact ⟨st, rfl, ok⟩
  | unmade | closed =>
    rw [hc] at held
    exact held.elim

theorem poll_full {s : State ρ} {r : ρ} {c : Chan ρ} {st : JobState} (hc : s.channels c = .full st) :
    (poll s r c).phase r = .answered (.state c.job st) := by
  rw [poll, hc]
  exact s.phase_goto_self r _

theorem noLostWait {s : State ρ} (h : Inv s) : NoLostWait s := by
  intro r id hawaits hid
  have held := h.held r
  simp only [step, next]
  cases hp : s.phase r with
  | waiting k timeout =>
    rw [hp] at hawaits held
    cases hawaits
    obtain ⟨st, hc, ended⟩ := h.channel_full (held _ rfl) hid
    exact ⟨st, ended, poll_full hc⟩
  | graced k =>
    rw [hp] at hawaits held
    cases hawaits
    obtain ⟨st, hc, ended⟩ := h.channel_full (held _ rfl) hid
    exact ⟨st, ended, poll_full hc⟩
  | reaping k =>
    rw [hp] at hawaits held
    cases hawaits
    obtain ⟨st, hc, ended⟩ := h.channel_full (held _ rfl) hid
    exact ⟨st, ended, poll_full hc⟩
  | unsent | checked | terminating | overdue | killing | answered | lost | past =>
    rw [hp] at hawaits
    cases hawaits

omit [DecidableEq ρ] in
theorem inv_init (rows : OrdMap Nat Row) : Inv (start rows true fun _ : ρ => .unsent) :=
  Inv.start rows fun _ => ⟨rfl, nofun⟩

/-- An id that `submit` gives is given again by a later daemon only, and only while it has no row. -/
def GivenOnce (s : State ρ) (es : List (Event ρ)) : Prop :=
  ∀ before command between command' after,
    es = before ++ .submit command :: (between ++ .submit command' :: after) → command ≠ [] →
    (run step s (before ++ .submit command :: between)).next_id = (run step s before).next_id →
      (∃ ok, .restart ok ∈ between) ∧ ∀ u v, between = u ++ v →
        (run step s (before ++ .submit command :: u)).rows.get? (run step s before).next_id = none

section Ids

variable {s : State ρ} {es : List (Event ρ)} {id : Nat}

/-- An id in use stays in use as long as the daemon lives. -/
theorem used_run (hes : Along step SchemaOk s es) (h : Inv s) (hlives : ∀ ok, Event.restart ok ∉ es)
    (hid : s.stage id ≠ .unused) : (run step s es).stage id ≠ .unused := by
  induction es generalizing s with
  | nil => exact hid
  | cons e es ih =>
      have he : ∀ ok, e ≠ .restart ok := fun ok heq => hlives ok (heq ▸ List.mem_cons_self)
      exact ih hes.2 (inv_step hes.1 h) (fun ok hmem => hlives ok (List.mem_cons_of_mem e hmem))
        ((lawful_step s e h).used he id hid)

/-- A row is never deleted. -/
theorem row_run (hes : Along step SchemaOk s es) (h : Inv s) (hid : s.rows.get? id ≠ none) :
    (run step s es).rows.get? id ≠ none := by
  induction es generalizing s with
  | nil => exact hid
  | cons e es ih =>
      obtain ⟨row, hrow⟩ := Option.ne_none_iff_exists'.mp hid
      obtain ⟨row', hrow', -⟩ := (lawful_step s e h).rows id row hrow
      exact ih hes.2 (inv_step hes.1 h) (by rw [hrow']; exact Option.some_ne_none row')

theorem allocate_used {command : List String} (hcommand : command ≠ []) :
    (step s (.submit command)).stage s.next_id ≠ .unused := by
  rw [step, allocate, if_neg hcommand]
  simp [State.setStage]

theorem givenOnce (hes : Along step SchemaOk s es) (h : Inv s) : GivenOnce s es := by
  rintro before command between command' after rfl hcommand hagain
  obtain ⟨hbefore, hsubmit, hrest⟩ := along_append.mp hes
  obtain ⟨hbetween, -⟩ := along_append.mp hrest
  have kept : ∀ (s : State ρ) e, SchemaOk s e → Inv s → Inv (step s e) := fun _ _ => inv_step
  have first := hbefore.invariant kept h
  have given := inv_step hsubmit first
  have last := hbetween.invariant kept given
  rw [run_append, run_cons] at hagain
  constructor
  · by_contra hlives
    have hused := used_run hbetween given (fun ok hmem => hlives ⟨ok, hmem⟩) (allocate_used hcommand)
    exact absurd (last.used _ hused) (by rw [hagain]; exact Nat.lt_irrefl _)
  · rintro u v rfl
    obtain ⟨hu, hv⟩ := along_append.mp hbetween
    rw [run_append, run_cons]
    by_contra hrow
    have hkept := row_run hv (hu.invariant kept given) hrow
    rw [← run_append] at hkept
    exact absurd (last.rows _ hkept) (by rw [hagain]; exact Nat.lt_irrefl _)

end Ids

/-- The life of jobs and of the requests about them, in every run of the daemon and of those that
follow it on the same table. -/
theorem job_lifecycle (rows : OrdMap Nat Row) (es : List (Event ρ))
    (hes : Along step SchemaOk (start rows true fun _ : ρ => .unsent) es) :
    Along step Lawful (start rows true fun _ : ρ => .unsent) es ∧
      NoLostWait (run step (start rows true fun _ : ρ => .unsent) es) ∧
      GivenOnce (start rows true fun _ : ρ => .unsent) es := by
  have kept : ∀ (s : State ρ) e, SchemaOk s e → Inv s → Inv (step s e) := fun _ _ => inv_step
  refine ⟨?_, ?_, ?_⟩
  · exact hes.of_invariant kept (fun s e _ h => lawful_step s e h) (inv_init rows)
  · exact noLostWait (hes.invariant kept (inv_init rows))
  · exact givenOnce hes (inv_init rows)

def newDaemon : State Nat := start .empty true fun _ => .unsent

/-- A wait whose timer fires before the child exits. -/
def timedWait : List (Event Nat) :=
  [.submit ["sleep", "60"], .register 1 true (some 700), .persist_initial 1 true, .supervise 1,
    .job_wait 0 1 (some 5), .expire 0, .exit 1 (.ok ⟨some 0, none⟩), .send 1, .persist_terminal 1 true]

/-- The daemon goes down while `submit` has not written the row yet. -/
def beforeRow : List (Event Nat) := [.submit ["sleep", "60"], .register 1 true (some 700)]

def afterRestart : List (Event Nat) :=
  [.restart true, .submit ["sleep", "90"], .register 1 true (some 900)]

/-- The next daemon on the same table gives the next id. -/
def twoLives : List (Event Nat) :=
  timedWait ++ [.restart true, .submit ["true"], .register 2 true (some 900), .job_wait 1 2 none, .persist_initial 2 true]

theorem timedWait_lifecycle :
    Along step Lawful newDaemon twoLives ∧ NoLostWait (run step newDaemon twoLives) ∧ GivenOnce newDaemon twoLives :=
  job_lifecycle .empty twoLives ⟨trivial, trivial, trivial, trivial, trivial, trivial, trivial, trivial, trivial, rfl,
    trivial, trivial, trivial, trivial, trivial⟩

/-- A wait is answered without the state that its job ends in, and an id is given to two jobs. -/
theorem timedWait_reusedId :
    (run step newDaemon timedWait).phase 0 = .answered (.timed_out 1) ∧
      Ended ((run step newDaemon timedWait).jobs 1) (.Exited 0) ∧
      (run step newDaemon beforeRow).jobs 1 = some ⟨.Running, some 700, []⟩ ∧
      (run step newDaemon (beforeRow ++ afterRestart)).jobs 1 = some ⟨.Running, some 900, []⟩ :=
  ⟨rfl, ⟨_, rfl, rfl, rfl⟩, rfl, rfl⟩

end Zshrs.Daemon.Jobs
