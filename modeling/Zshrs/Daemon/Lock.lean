import Zshrs.Daemon.Serde
import Zshrs.Lib.Runs
import Mathlib.Logic.Function.Basic
import Mathlib.Algebra.Group.Nat.Defs
import Mathlib.Algebra.Group.Int.Defs

namespace Zshrs.Daemon.Lock

open Json Lib.Runs

structure LockEntry where
  holderPid : Int
  token : Nat
  acquiredAtNs : Int
  deriving DecidableEq, Repr

/-- The name of a lock; requests with an empty one are refused. -/
structure LockName where
  text : String
  nonempty : text ≠ ""
  deriving DecidableEq

abbrev LockTable := LockName → Option LockEntry

/-- `n as i32`. -/
def asI32 (n : Int) : Int := n.bmod (2 ^ 32)

def nameArg (args : Value) : Except ErrPayload LockName :=
  match (args.get "name").bind Value.asStr with
  | some s => if h : s = "" then .error ⟨"bad_args", "missing `name`"⟩ else .ok ⟨s, h⟩
  | none => .error ⟨"bad_args", "missing `name`"⟩

def callerPid (args : Value) : Int :=
  match (args.get "pid").bind Value.asI64 with
  | some n => asI32 n
  | none => 0

/-- The `timeout_secs` that gives `lock_acquire` a deadline, if any. -/
def timeoutSecs (args : Value) : Option Number :=
  match args.get "timeout_secs" with
  | some (.number n) => if n.positive then some n else none
  | _ => none

/-- A running process. Requests name their sender by `client`. -/
structure Proc where
  client : Nat
  pid : Int
  deriving DecidableEq, Repr

/-- `kill(pid, 0)` finds the process, whoever owns it. -/
def pidAlive (procs : List Proc) (pid : Int) : Bool :=
  if pid ≤ 0 then false else procs.any (fun p => p.pid == pid)

/-- Eviction of a holder found dead. -/
def evict (procs : List Proc) (table : LockTable) (name : LockName) : LockTable :=
  match table name with
  | some existing =>
      if pidAlive procs existing.holderPid then table else Function.update table name none
  | none => table

def tryAcquireInner (procs : List Proc) (table : LockTable) (name : LockName) (pid : Int)
    (random : Nat) (nowNs : Int) : LockTable × Option Nat :=
  let g := evict procs table name
  if (g name).isSome then (g, none)
  else (Function.update g name (some ⟨pid, random, nowNs⟩), some random)

/-- A `lock_acquire` asleep between two attempts. -/
structure Waiter where
  client : Nat
  name : LockName
  pid : Int
  timeout : Option Number

structure State where
  locks : LockTable
  procs : List Proc
  waiting : List Waiter

def init : State := ⟨fun _ => none, [], []⟩

inductive Reply
  | granted (client : Nat) (name : LockName) (token : Nat) (holderPid : Int)
  | released (b : Bool)
  | waiting
  | timeout (name : LockName) (timeoutSecs : Number)
  | error (e : ErrPayload)
  | none
  deriving DecidableEq

/-- Requests, wake-ups of sleeping requests, and process starts and deaths. Random
tokens, clock readings and the outcome of the deadline test come with the event. -/
inductive Event
  | spawn (client : Nat) (pid : Int)
  | die (client : Nat)
  | tryAcquire (client : Nat) (args : Value) (random : Nat) (nowNs : Int)
  | acquire (client : Nat) (args : Value) (random : Nat) (nowNs : Int) (expired : Bool)
  | poll (i : Nat) (random : Nat) (nowNs : Int) (expired : Bool)
  | release (client : Nat) (args : Value)

def busy (name : LockName) : ErrPayload := ⟨"busy", "lock `" ++ name.text ++ "` is held"⟩

def busyNoWait (name : LockName) : ErrPayload :=
  ⟨"busy", "lock `" ++ name.text ++ "` is held (pass `timeout_secs` to wait)"⟩

def opLockTryAcquire (s : State) (client : Nat) (args : Value) (random : Nat) (nowNs : Int) :
    State × Reply :=
  match nameArg args with
  | .error e => (s, .error e)
  | .ok name =>
      match tryAcquireInner s.procs s.locks name (callerPid args) random nowNs with
      | (table, some token) => ({ s with locks := table }, .granted client name token (callerPid args))
      | (table, none) => ({ s with locks := table }, .error (busy name))

/-- One turn of the poll loop of `lock_acquire`; `rest` is the list of the other sleepers. -/
def attempt (s : State) (w : Waiter) (rest : List Waiter) (random : Nat) (nowNs : Int)
    (expired : Bool) : State × Reply :=
  match tryAcquireInner s.procs s.locks w.name w.pid random nowNs with
  | (table, some token) => (⟨table, s.procs, rest⟩, .granted w.client w.name token w.pid)
  | (table, none) =>
      match w.timeout with
      | some secs =>
          if expired then (⟨table, s.procs, rest⟩, .timeout w.name secs)
          else (⟨table, s.procs, rest ++ [w]⟩, .waiting)
      | none => (⟨table, s.procs, rest⟩, .error (busyNoWait w.name))

def opLockAcquire (s : State) (client : Nat) (args : Value) (random : Nat) (nowNs : Int)
    (expired : Bool) : State × Reply :=
  match nameArg args with
  | .error e => (s, .error e)
  | .ok name =>
      attempt s ⟨client, name, callerPid args, timeoutSecs args⟩ s.waiting random nowNs expired

def digits : List Char → Option Nat
  | [] => none
  | cs => if cs.all Char.isDigit then some (cs.foldl (fun n c => 10 * n + (c.toNat - 48)) 0) else none

/-- `str::parse::<u128>`, which takes a leading `+`. -/
def parseU128 (s : String) : Option Nat :=
  let n := match s.toList with
    | '+' :: cs => digits cs
    | cs => digits cs
  n.filter (· < 2 ^ 128)

def tokenArg (args : Value) : Except ErrPayload Nat :=
  match (args.get "token").bind Value.asStr with
  | none => .error ⟨"bad_args", "missing `token`"⟩
  | some s =>
      match parseU128 s with
      | some n => .ok n
      | none => .error ⟨"bad_args", "token must be a u128 string"⟩

def releaseLock (table : LockTable) (name : LockName) (token : Nat) : LockTable × Reply :=
  match table name with
  | some entry =>
      if entry.token = token then (Function.update table name none, .released true)
      else (table, .error ⟨"wrong_token", "lock `" ++ name.text ++ "` token mismatch — refusing to release"⟩)
  | none => (table, .released false)

def opLockRelease (s : State) (args : Value) : State × Reply :=
  match nameArg args with
  | .error e => (s, .error e)
  | .ok name =>
      match tokenArg args with
      | .error e => (s, .error e)
      | .ok token =>
          let r := releaseLock s.locks name token
          ({ s with locks := r.1 }, r.2)

/-- A fresh process needs an unused client name and an unused, positive pid. -/
def canSpawn (procs : List Proc) (client : Nat) (pid : Int) : Bool :=
  decide (0 < pid ∧ pid < 2 ^ 31) && procs.all (fun p => p.client != client && p.pid != pid)

def step (s : State) : Event → State × Reply
  | .spawn client pid =>
      if canSpawn s.procs client pid then ({ s with procs := ⟨client, pid⟩ :: s.procs }, .none)
      else (s, .none)
  | .die client => ({ s with procs := s.procs.filter (fun p => p.client != client) }, .none)
  | .tryAcquire client args random nowNs => opLockTryAcquire s client args random nowNs
  | .acquire client args random nowNs expired => opLockAcquire s client args random nowNs expired
  | .poll i random nowNs expired =>
      match s.waiting[i]? with
      | none => (s, .none)
      | some w => attempt s w (s.waiting.eraseIdx i) random nowNs expired
  | .release _ args => opLockRelease s args

def next (s : State) (e : Event) : State := (step s e).1

def reply (s : State) (e : Event) : Reply := (step s e).2

end Zshrs.Daemon.Lock
