import Zshrs.Daemon.Serde
import Zshrs.Lib.Runs
import Zshrs.Lib.Utf8
import Mathlib.Algebra.Group.Int.Defs

namespace Zshrs.Daemon.Schedule

open Json Lib.Runs Lib.Utf8

/-- The `cron` crate: parsing, and the least fire time strictly after an instant.
Instants are nanoseconds since the epoch. Its year field ends at 2100, inside the `i64` range. -/
structure Cron where
  Sched : Type
  fromStr : String → Except String Sched
  fires : Sched → Int → Prop
  after : Sched → Int → Option Int
  after_some : ∀ s a t, after s a = some t → fires s t ∧ a < t ∧ ∀ u, fires s u → a < u → t ≤ u
  after_none : ∀ s a, after s a = none → ∀ u, fires s u → u ≤ a
  fires_lt : ∀ s t, fires s t → t < 2 ^ 63

/-- The number of fields of `split_whitespace`; `inWord` tells whether one is open. -/
def fieldCount : Bool → List Char → Nat
  | _, [] => 0
  | inWord, c :: cs =>
      if is_whitespace c then fieldCount false cs
      else if inWord then fieldCount true cs
      else fieldCount true cs + 1

def normalizeCron (expr : String) : String :=
  if fieldCount false expr.toList = 5 then "0 " ++ String.ofList (trim expr.toList) else expr

def argvArg (args : Value) : Except ErrPayload (List String) :=
  match (args.get "command").bind Value.asArray with
  | none => .error ⟨"bad_args", "missing `command` array"⟩
  | some arr =>
      let v := arr.filterMap Value.asStr
      if v.isEmpty then .error ⟨"bad_args", "`command` is empty"⟩ else .ok v

structure Row where
  id : Nat
  cronExpr : Option String
  fireAtNs : Option Int
  argv : List String
  env : Option Value
  cwd : Option String
  enabled : Bool
  lastRunNs : Option Int
  lastJobId : Option Nat
  createdAt : Int
  notes : Option String

/-- `serde_json::from_str` of a string map; anything else gives the empty environment. -/
def envMap : Option Value → List (String × String)
  | some (.object fields) =>
      if fields.all (fun p => p.2.asStr.isSome) then
        fields.filterMap (fun p => p.2.asStr.map (fun v => (p.1, v)))
      else []
  | _ => []

def scheduleClientId : Nat := 0xDEADBEEFCAFEF00D

/-- The arguments of `jobs.submit`. -/
structure Submission where
  clientId : Nat
  argv : List String
  cwd : Option String
  tags : List String
  env : List (String × String)
  pty : Bool
  deriving DecidableEq, Repr

def submission (row : Row) : Submission :=
  ⟨scheduleClientId, row.argv, row.cwd, ["scheduled"], envMap row.env, false⟩

/-- A submitted job, with the row it was read from and the tick that read it. -/
structure Dispatch where
  row : Row
  nowNs : Int
  jobId : Nat
  job : Submission

/-- The `schedule` table with its `AUTOINCREMENT` sequence, and the jobs submitted so far. -/
structure State where
  rows : List Row
  seq : Nat
  log : List Dispatch

def init : State := ⟨[], 0, []⟩

def insert (s : State) (row : Nat → Row) : State :=
  { s with rows := s.rows ++ [row (s.seq + 1)], seq := s.seq + 1 }

def scheduleId (s : State) : Value := .number (.ofInt s.seq)

def opScheduleAdd (cron : Cron) (s : State) (args : Value) (now : Int) :
    State × Except ErrPayload Value :=
  match (args.get "cron_expr").bind Value.asStr with
  | none => (s, .error ⟨"bad_args", "missing `cron_expr`"⟩)
  | some expr =>
      let cronExpr := normalizeCron expr
      match cron.fromStr cronExpr with
      | .error e => (s, .error ⟨"bad_cron", "invalid cron `" ++ cronExpr ++ "`: " ++ e⟩)
      | .ok _ =>
          match argvArg args with
          | .error e => (s, .error e)
          | .ok command =>
              let s' := insert s (fun id =>
                { id, cronExpr := some cronExpr, fireAtNs := none, argv := command
                  env := args.get "env", cwd := (args.get "cwd").bind Value.asStr
                  enabled := true, lastRunNs := none, lastJobId := none
                  createdAt := now, notes := (args.get "notes").bind Value.asStr })
              (s', .ok (.object [("cron_expr", .string cronExpr), ("schedule_id", scheduleId s')]))

def i64Min : Int := -2 ^ 63
def i64Max : Int := 2 ^ 63 - 1

def saturatingMul (a b : Int) : Int := max i64Min (min i64Max (a * b))

/-- `check` and `now` are the two clock readings of the request. -/
def opScheduleAddOnce (s : State) (args : Value) (check now : Int) :
    State × Except ErrPayload Value :=
  match (args.get "fire_at_unix_secs").bind Value.asI64 with
  | none => (s, .error ⟨"bad_args", "missing `fire_at_unix_secs`"⟩)
  | some secs =>
      let fireAtNs := saturatingMul secs 1000000000
      if fireAtNs < check then (s, .error ⟨"bad_args", "fire_at_unix_secs is in the past"⟩)
      else
        match argvArg args with
        | .error e => (s, .error e)
        | .ok command =>
            let s' := insert s (fun id =>
              { id, cronExpr := none, fireAtNs := some fireAtNs, argv := command
                env := args.get "env", cwd := (args.get "cwd").bind Value.asStr
                enabled := true, lastRunNs := none, lastJobId := none
                createdAt := now, notes := (args.get "notes").bind Value.asStr })
            (s', .ok (.object [("fire_at_ns", .number (.ofInt fireAtNs)), ("schedule_id", scheduleId s')]))

def removeRow (s : State) (id : Int) : State :=
  { s with rows := s.rows.filter (fun r => (r.id : Int) != id) }

def hasRow (s : State) (id : Int) : Bool := s.rows.any (fun r => (r.id : Int) == id)

def opScheduleRemove (s : State) (args : Value) : State × Except ErrPayload Value :=
  match (args.get "id").bind Value.asI64 with
  | none => (s, .error ⟨"bad_args", "missing `id`"⟩)
  | some id =>
      (removeRow s id, .ok (.object [("id", .number (.ofInt id)), ("removed", .bool (hasRow s id))]))

/-- `timestamp_nanos_opt`. -/
def timestampNanosOpt (t : Int) : Option Int := if i64Min ≤ t ∧ t ≤ i64Max then some t else none

def rowDue (cron : Cron) (cronExpr : Option String) (fireAtNs lastRunNs : Option Int)
    (nowNs : Int) : Bool :=
  match fireAtNs with
  | some at' => lastRunNs.isNone && decide (at' ≤ nowNs)
  | none =>
      match cronExpr with
      | none => false
      | some expr =>
          match cron.fromStr expr with
          | .error _ => false
          | .ok sched =>
              match cron.after sched (lastRunNs.getD 0) with
              | some next => decide ((timestampNanosOpt next).getD i64Max ≤ nowNs)
              | none => false

def Row.due (cron : Cron) (row : Row) (now : Int) : Bool :=
  rowDue cron row.cronExpr row.fireAtNs row.lastRunNs now

/-- The two `UPDATE`s after a job is submitted. -/
def Row.fired (row : Row) (now : Int) (jobId : Nat) : Row :=
  { row with
    lastRunNs := some now, lastJobId := some jobId
    enabled := if row.fireAtNs.isSome then false else row.enabled }

def dispatch (now : Int) (submit : Nat → Nat) (row : Row) : Dispatch :=
  ⟨row, now, submit row.id, submission row⟩

def fireRow (cron : Cron) (now : Int) (submit : Nat → Nat) (s : State) (row : Row) : State :=
  if row.due cron now then
    { s with
      rows := s.rows.map (fun r => if r.id = row.id then r.fired now (submit r.id) else r)
      log := s.log ++ [dispatch now submit row] }
  else s

/-- `submit` gives the job id each row's submission is answered with. -/
def tickOnce (cron : Cron) (s : State) (now : Int) (submit : Nat → Nat) : State :=
  (s.rows.filter Row.enabled).foldl (fireRow cron now submit) s

inductive Event
  | add (args : Value) (now : Int)
  | addOnce (args : Value) (check now : Int)
  | remove (args : Value)
  | tick (now : Int) (submit : Nat → Nat)

def step (cron : Cron) (s : State) : Event → State
  | .add args now => (opScheduleAdd cron s args now).1
  | .addOnce args check now => (opScheduleAddOnce s args check now).1
  | .remove args => (opScheduleRemove s args).1
  | .tick now submit => tickOnce cron s now submit

/-- The clock readings of an event, in order. -/
def readings : Event → List Int
  | .add _ now => [now]
  | .addOnce _ check now => [check, now]
  | .remove _ => []
  | .tick now _ => [now]

end Zshrs.Daemon.Schedule
