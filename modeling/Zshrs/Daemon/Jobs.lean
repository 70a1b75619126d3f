import Mathlib.Logic.Function.Basic
import Zshrs.Lib.OrdMap
import Zshrs.Lib.Runs

namespace Zshrs.Daemon.Jobs

open Lib

inductive JobState
  | Running
  | Exited (code : Int)
  | Killed (signal : Int)
  | Failed (msg : String)
  deriving DecidableEq

def JobState.label : JobState → String
  | .Running => "running"
  | .Exited _ => "exited"
  | .Killed _ => "killed"
  | .Failed _ => "failed"

def JobState.exit_code : JobState → Option Int
  | .Exited c => some c
  | .Killed s => some (128 + s)
  | _ => none

def JobState.is_terminal : JobState → Bool
  | .Running => false
  | _ => true

/-- What `wait` of the child gives: its code or its signal. -/
structure ExitStatus where
  code : Option Int
  signal : Option Int

def final_state : Except String ExitStatus → JobState
  | .ok ⟨some code, _⟩ => .Exited code
  | .ok ⟨none, some sig⟩ => .Killed sig
  | .ok ⟨none, none⟩ => .Exited (-1)
  | .error e => .Failed e

theorem final_state_terminal (exit : Except String ExitStatus) : (final_state exit).is_terminal = true := by
  fun_cases final_state exit <;> rfl

inductive Use
  | wait
  | term
  | kill
  deriving DecidableEq

/-- The `oneshot` channel that a request has made for a job. -/
structure Chan (ρ : Type) where
  request : ρ
  use : Use
  job : Nat
  deriving DecidableEq

/-- A channel closes when its receiver is dropped. -/
inductive Channel
  | unmade
  | empty
  | full (state : JobState)
  | closed

structure JobMeta (ρ : Type) where
  state : JobState
  pid : Option Int
  waiters : List (Chan ρ)

/-- Where the thread of a job is: `submit`, and then the task that waits for the child. -/
inductive Stage (ρ : Type)
  | unused
  | allocated
  | abandoned
  | registered
  | persisted
  | watched
  | sending (final_state : JobState) (waiters : List (Chan ρ))
  | finished (final_state : JobState)

structure Row where
  state : String
  exit_code : Option Int
  signal : Option Int
  error_msg : Option String
  deriving DecidableEq

def initialRow : Row := ⟨JobState.Running.label, none, none, none⟩

def terminalRow : JobState → Row
  | .Running => ⟨"running", none, none, none⟩
  | .Exited c => ⟨"exited", some c, none, none⟩
  | .Killed s => ⟨"killed", none, some s, none⟩
  | .Failed e => ⟨"failed", none, none, some e⟩

/-- A row still `running` was owned by a previous daemon. -/
def restartedRow (row : Row) : Row :=
  if row.state = "running" then { row with state := "failed", error_msg := some "daemon restarted" }
  else row

inductive Answer
  | state (id : Nat) (state : JobState)
  | timed_out (id : Nat)
  | not_found (id : Nat)
  deriving DecidableEq

/-- Where a `job_wait` or a `job_cancel` request stands. A cancel has seen the job running, holds a
channel, has sent TERM and waits, has waited for too long, and goes through the same with KILL. -/
inductive Phase
  | unsent
  | waiting (id : Nat) (timeout : Option Nat)
  | checked (id : Nat)
  | terminating (id : Nat)
  | graced (id : Nat)
  | overdue (id : Nat)
  | killing (id : Nat)
  | reaping (id : Nat)
  | answered (answer : Answer)
  | lost
  | past (answer : Answer)

variable {ρ : Type} [DecidableEq ρ]

/-- The supervisor, the threads and the requests under way, and the `jobs` table. The counter is a
`u64` in the source. -/
structure State (ρ : Type) where
  next_id : Nat
  jobs : Nat → Option (JobMeta ρ)
  stage : Nat → Stage ρ
  rows : OrdMap Nat Row
  channels : Chan ρ → Channel
  phase : ρ → Phase

namespace State

def goto (s : State ρ) (r : ρ) (p : Phase) : State ρ := { s with phase := Function.update s.phase r p }

@[simp] theorem phase_goto_self (s : State ρ) (r : ρ) (p : Phase) : (s.goto r p).phase r = p := by
  simp [goto]

theorem phase_goto_ne (s : State ρ) {q r : ρ} (h : q ≠ r) (p : Phase) :
    (s.goto r p).phase q = s.phase q := by
  simp [goto, h]

def setStage (s : State ρ) (id : Nat) (g : Stage ρ) : State ρ :=
  { s with stage := Function.update s.stage id g }

def setJob (s : State ρ) (id : Nat) (m : JobMeta ρ) : State ρ :=
  { s with jobs := Function.update s.jobs id (some m) }

def setChannel (s : State ρ) (c : Chan ρ) (v : Channel) : State ρ :=
  { s with channels := Function.update s.channels c v }

@[simp] theorem setChannel_self (s : State ρ) (c : Chan ρ) (v : Channel) :
    (s.setChannel c v).channels c = v := by
  simp [setChannel]

def setRows (s : State ρ) (rows : OrdMap Nat Row) : State ρ := { s with rows := rows }

end State

/-- A daemon that starts on a `jobs` table. Where `ensure_schema` fails it goes on all the same. -/
def start (rows : OrdMap Nat Row) (schema_ok : Bool) (phase : ρ → Phase) : State ρ :=
  { next_id := if schema_ok then max 1 (rows.maxKey + 1) else 1
    jobs := fun _ => none
    stage := fun _ => .unused
    rows := if schema_ok then rows.mapValues restartedRow else rows
    channels := fun _ => .unmade
    phase := phase }

/-- Nobody hears from a request of a daemon that is gone. -/
def Phase.restart : Phase → Phase
  | .unsent => .unsent
  | .answered a => .past a
  | .past a => .past a
  | _ => .lost

/-- The child that `kill` signals, if it signals one. The signal is parsed last. -/
def kill (s : State ρ) (id : Nat) (sig : Except String Nat) : Except String (Option (Int × Nat)) :=
  match s.jobs id with
  | none => .error s!"job {id} not found"
  | some m =>
    if m.state.is_terminal then .ok none
    else
      match m.pid with
      | none => .error s!"job {id} has no pid"
      | some pid => sig.map fun sig => some (pid, sig)

/-- Makes the channel `c`, and either answers it at once or leaves it with the job. -/
def wait_handle (s : State ρ) (c : Chan ρ) : Option (State ρ) :=
  (s.jobs c.job).map fun m =>
    if m.state.is_terminal then s.setChannel c (.full m.state)
    else (s.setJob c.job { m with waiters := m.waiters ++ [c] }).setChannel c .empty

theorem wait_handle_phase {s s' : State ρ} {c : Chan ρ} (h : wait_handle s c = some s') :
    s'.phase = s.phase := by
  obtain ⟨m, _, rfl⟩ := Option.map_eq_some_iff.mp h
  split <;> rfl

/-- A sender sends once, and to nobody when the receiver is gone. -/
def send (s : State ρ) (c : Chan ρ) (state : JobState) : State ρ :=
  match s.channels c with
  | .empty => s.setChannel c (.full state)
  | _ => s

def job_wait (s : State ρ) (r : ρ) (id : Nat) (timeout : Option Nat) : State ρ :=
  match wait_handle s ⟨r, .wait, id⟩ with
  | some s' => s'.goto r (.waiting id timeout)
  | none => s.goto r (.answered (.not_found id))

def cancel (s : State ρ) (r : ρ) (id : Nat) : State ρ :=
  match s.jobs id with
  | none => s.goto r (.answered (.not_found id))
  | some m =>
    if m.state.is_terminal then s.goto r (.answered (.state id m.state)) else s.goto r (.checked id)

/-- `cancel` asks for a channel and goes on, or gives the error. -/
def cancelHandle (s : State ρ) (r : ρ) (use : Use) (id : Nat) (p : Phase) : State ρ :=
  match wait_handle s ⟨r, use, id⟩ with
  | some s' => s'.goto r p
  | none => s.goto r (.answered (.not_found id))

/-- A request looks into its channel. -/
def poll (s : State ρ) (r : ρ) (c : Chan ρ) : State ρ :=
  match s.channels c with
  | .full state => s.goto r (.answered (.state c.job state))
  | _ => s

/-- The next step of a request. -/
def next (s : State ρ) (r : ρ) : State ρ :=
  match s.phase r with
  | .waiting id _ => poll s r ⟨r, .wait, id⟩
  | .checked id => cancelHandle s r .term id (.terminating id)
  | .terminating id => s.goto r (.graced id)
  | .graced id => poll s r ⟨r, .term, id⟩
  | .overdue id => cancelHandle s r .kill id (.killing id)
  | .killing id => s.goto r (.reaping id)
  | .reaping id => poll s r ⟨r, .kill, id⟩
  | _ => s

/-- The timer of a request fires. `timeout` looks into the channel first. -/
def expire (s : State ρ) (r : ρ) : State ρ :=
  match s.phase r with
  | .waiting id (some _) =>
    match s.channels ⟨r, .wait, id⟩ with
    | .full state => s.goto r (.answered (.state id state))
    | _ => (s.goto r (.answered (.timed_out id))).setChannel ⟨r, .wait, id⟩ .closed
  | .graced id =>
    match s.channels ⟨r, .term, id⟩ with
    | .full state => s.goto r (.answered (.state id state))
    | _ => (s.goto r (.overdue id)).setChannel ⟨r, .term, id⟩ .closed
  | _ => s

/-- `submit` takes an id. -/
def allocate (s : State ρ) (command : List String) : State ρ :=
  if command = [] then s
  else { s.setStage s.next_id .allocated with next_id := s.next_id + 1 }

/-- The child is spawned and the job entered, or something failed before. -/
def register (s : State ρ) (id : Nat) (spawned : Bool) (pid : Option Int) : State ρ :=
  match s.stage id with
  | .allocated =>
    if spawned then (s.setJob id ⟨.Running, pid, []⟩).setStage id .registered
    else s.setStage id .abandoned
  | _ => s

def persist_initial (s : State ρ) (id : Nat) (ok : Bool) : State ρ :=
  match s.stage id with
  | .registered => (s.setRows (if ok then s.rows.insert id initialRow else s.rows)).setStage id .persisted
  | _ => s

/-- The task that waits for the child is spawned, and `submit` returns. -/
def supervise (s : State ρ) (id : Nat) : State ρ :=
  match s.stage id with
  | .persisted => s.setStage id .watched
  | _ => s

/-- `handle_exit`, with the lock held. -/
def handle_exit (s : State ρ) (id : Nat) (exit : Except String ExitStatus) : State ρ :=
  match s.stage id with
  | .watched =>
    match s.jobs id with
    | some m =>
      (s.setJob id { m with state := final_state exit, waiters := [] }).setStage id
        (.sending (final_state exit) m.waiters)
    | none => s.setStage id (.sending (final_state exit) [])
  | _ => s

/-- `handle_exit` sends to the next waiter. -/
def sendNext (s : State ρ) (id : Nat) : State ρ :=
  match s.stage id with
  | .sending state (c :: waiters) => (send s c state).setStage id (.sending state waiters)
  | _ => s

def persist_terminal (s : State ρ) (id : Nat) (ok : Bool) : State ρ :=
  match s.stage id with
  | .sending state [] =>
    (s.setRows (if ok then s.rows.modify id fun _ => terminalRow state else s.rows)).setStage id
      (.finished state)
  | _ => s

inductive Event (ρ : Type)
  | submit (command : List String)
  | register (id : Nat) (spawned : Bool) (pid : Option Int)
  | persist_initial (id : Nat) (ok : Bool)
  | supervise (id : Nat)
  | exit (id : Nat) (exit : Except String ExitStatus)
  | send (id : Nat)
  | persist_terminal (id : Nat) (ok : Bool)
  | job_wait (r : ρ) (id : Nat) (timeout : Option Nat)
  | cancel (r : ρ) (id : Nat)
  | next (r : ρ)
  | expire (r : ρ)
  | kill (id : Nat) (sig : Except String Nat)
  | restart (schema_ok : Bool)

/-- A request is sent once. A signal reaches the child only, whose exit is an event of its own. -/
def step (s : State ρ) : Event ρ → State ρ
  | .submit command => allocate s command
  | .register id spawned pid => register s id spawned pid
  | .persist_initial id ok => persist_initial s id ok
  | .supervise id => supervise s id
  | .exit id exit => handle_exit s id exit
  | .send id => sendNext s id
  | .persist_terminal id ok => persist_terminal s id ok
  | .job_wait r id timeout => match s.phase r with
    | .unsent => job_wait s r id timeout
    | _ => s
  | .cancel r id => match s.phase r with
    | .unsent => cancel s r id
    | _ => s
  | .next r => next s r
  | .expire r => expire s r
  | .kill _ _ => s
  | .restart schema_ok => start s.rows schema_ok fun r => (s.phase r).restart

end Zshrs.Daemon.Jobs
