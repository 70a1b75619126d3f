import Zshrs.Lib.Minting
import Mathlib.Data.Int.Order.Basic

namespace Zshrs.Daemon.Registry

open Lib Lib.Minting

structure Session where
  clientId : Nat
  sessionId : String
  pid : Int
  tty : Option String
  cwd : Option String
  argv0 : Option String
  shellId : Option Nat
  deriving DecidableEq, Repr

structure ShellRecord where
  shellId : Nat
  pid : Int
  start : Option UInt64
  tty : Option String
  cwd : Option String
  argv0 : Option String
  deriving DecidableEq, Repr

structure Subscription where
  id : Nat
  clientId : Nat
  shellId : Option Nat
  pattern : String
  scopePat : String
  topicPat : String
  paused : Bool
  deriving DecidableEq, Repr

/-- The pattern is cut at its first dot. -/
def Subscription.parse (clientId id : Nat) (pattern : String) : Except String Subscription :=
  match pattern.toList.span (· != '.') with
  | (_, []) => .error ("missing `.` separator in pattern `" ++ pattern ++ "`")
  | (scope, _ :: topic) =>
      if scope.isEmpty || topic.isEmpty then
        .error ("empty scope or topic in `" ++ pattern ++ "`")
      else
        .ok { id, clientId, shellId := none, pattern, scopePat := String.ofList scope
              topicPat := String.ofList topic, paused := false }

structure State where
  sessions : OrdMap Nat Session
  nextClientId : Nat
  shells : OrdMap Nat ShellRecord
  shellByPid : OrdMap Int Nat
  nextShellId : Nat
  subscriptions : OrdMap Nat Subscription
  nextSubscriptionId : Nat

def init : State := ⟨.empty, 1, .empty, .empty, 1, .empty, 1⟩

def shellOf (s : State) (clientId : Nat) : Option Nat :=
  (s.sessions.get? clientId).bind Session.shellId

def ownsSubscription (s : State) (clientId : Nat) (sub : Subscription) : Bool :=
  match shellOf s clientId with
  | some shell => sub.shellId = some shell
  | none => sub.shellId.isNone && sub.clientId = clientId

def removeShellLocked (s : State) (shellId : Nat) : State :=
  let s' := match s.shells.get? shellId with
    | some r =>
        { s with
          shells := s.shells.erase shellId
          shellByPid :=
            if s.shellByPid.get? r.pid = some shellId then s.shellByPid.erase r.pid else s.shellByPid }
    | none => s
  { s' with subscriptions := s'.subscriptions.retain (fun _ sub => sub.shellId ≠ some shellId) }

/-- The known record when the connection joins it; a different start time means another shell. -/
def ShellRecord.rejoin (r : ShellRecord) (start : Option UInt64) : Option ShellRecord :=
  match r.start, start with
  | some old, some new => if old ≠ new then none else some r
  | none, some new => some { r with start := some new }
  | _, none => some r

def reusable (s : State) (pid : Int) (start : Option UInt64) : Option (Nat × ShellRecord) := do
  let id ← s.shellByPid.get? pid
  let r ← s.shells.get? id
  let r ← r.rejoin start
  some (id, r)

def mintShell (s : State) (pid : Int) (start : Option UInt64) : State :=
  { s with
    nextShellId := bump s.nextShellId
    shellByPid := s.shellByPid.insert pid s.nextShellId
    shells := s.shells.insert s.nextShellId ⟨s.nextShellId, pid, start, none, none, none⟩ }

def ShellRecord.report (tty cwd argv0 : Option String) (r : ShellRecord) : ShellRecord :=
  { r with tty := tty.or r.tty, cwd := cwd.or r.cwd, argv0 := argv0.or r.argv0 }

def insertSession (s : State) (pid : Int) (tty cwd argv0 : Option String) (shellId : Option Nat)
    (uuid : String) : State × Nat × String :=
  ({ s with
      nextClientId := bump s.nextClientId
      sessions := s.sessions.insert s.nextClientId
        ⟨s.nextClientId, uuid, pid, tty, cwd, argv0, shellId⟩ },
    s.nextClientId, uuid)

/-- The shell a connection belongs to, joined or minted. -/
def joinShell (s : State) (pid : Int) (start : Option UInt64) : State × Nat :=
  match reusable s pid start with
  | some (id, r) => ({ s with shells := s.shells.insert id r }, id)
  | none =>
      let s' := match s.shellByPid.get? pid with
        | some old => removeShellLocked s old
        | none => s
      (mintShell s' pid start, s'.nextShellId)

def registerShellSession (s : State) (pid : Int) (start : Option UInt64)
    (tty cwd argv0 : Option String) (uuid : String) : State × Nat × String :=
  let (s, shellId) := joinShell s pid start
  let s := { s with shells := s.shells.modify shellId (ShellRecord.report tty cwd argv0) }
  insertSession s pid tty cwd argv0 (some shellId) uuid

def registerEphemeralSession (s : State) (pid : Int) (tty argv0 : Option String) (uuid : String) :
    State × Nat × String :=
  insertSession s pid tty none argv0 none uuid

def unregisterSession (s : State) (clientId : Nat) : State :=
  match s.sessions.get? clientId with
  | some _ =>
      { s with
        sessions := s.sessions.erase clientId
        subscriptions := s.subscriptions.retain (fun _ sub => sub.clientId ≠ clientId) }
  | none => s

def reapDeadShellsWith (s : State) (isAlive : Int → Option UInt64 → Bool) : State × List Nat :=
  let dead := (s.shells.values.filter (fun r => !isAlive r.pid r.start)).map ShellRecord.shellId
  (dead.foldl removeShellLocked s, dead)

def addSubscription (s : State) (clientId : Nat) (pattern : String) : State × Except String Nat :=
  let id := s.nextSubscriptionId
  let s := { s with nextSubscriptionId := bump id }
  match Subscription.parse clientId id pattern with
  | .error e => (s, .error e)
  | .ok sub =>
      let sub := { sub with shellId := shellOf s clientId }
      ({ s with subscriptions := s.subscriptions.insert id sub }, .ok id)

def dropSubscription (s : State) (id : Nat) : State :=
  { s with subscriptions := s.subscriptions.erase id }

def pauseSubscription (paused : Bool) (s : State) (id : Nat) : State :=
  { s with subscriptions := s.subscriptions.modify id (fun sub => { sub with paused }) }

def removeSubscriptionByPattern (s : State) (clientId : Nat) (pattern : String) : State × Nat :=
  let doomed := (s.subscriptions.values.filter
    (fun sub => sub.pattern = pattern && ownsSubscription s clientId sub)).map Subscription.id
  (doomed.foldl dropSubscription s, doomed.length)

/-- Does the caller own the subscription with this id? -/
def owned (s : State) (clientId subId : Nat) : Bool :=
  (s.subscriptions.get? subId).any (ownsSubscription s clientId)

def removeSubscriptionById (s : State) (clientId subId : Nat) : State × Bool :=
  if owned s clientId subId then (dropSubscription s subId, true) else (s, false)

def setSubscriptionPaused (s : State) (clientId subId : Nat) (paused : Bool) : State × Bool :=
  if owned s clientId subId then (pauseSubscription paused s subId, true) else (s, false)

def pauseAllSubscriptions (s : State) (clientId : Nat) (paused : Bool) : State × Nat :=
  let ids := (s.subscriptions.values.filter
    (fun sub => sub.paused ≠ paused && ownsSubscription s clientId sub)).map Subscription.id
  (ids.foldl (pauseSubscription paused) s, ids.length)

inductive Event
  | registerShell (pid : Int) (start : Option UInt64) (tty cwd argv0 : Option String) (uuid : String)
  | registerEphemeral (pid : Int) (tty argv0 : Option String) (uuid : String)
  | unregister (clientId : Nat)
  | reap (isAlive : Int → Option UInt64 → Bool)
  | add (clientId : Nat) (pattern : String)
  | removeByPattern (clientId : Nat) (pattern : String)
  | removeById (clientId subId : Nat)
  | setPaused (clientId subId : Nat) (paused : Bool)
  | pauseAll (clientId : Nat) (paused : Bool)

def step (s : State) : Event → State
  | .registerShell pid start tty cwd argv0 uuid =>
      (registerShellSession s pid start tty cwd argv0 uuid).1
  | .registerEphemeral pid tty argv0 uuid => (registerEphemeralSession s pid tty argv0 uuid).1
  | .unregister clientId => unregisterSession s clientId
  | .reap isAlive => (reapDeadShellsWith s isAlive).1
  | .add clientId pattern => (addSubscription s clientId pattern).1
  | .removeByPattern clientId pattern => (removeSubscriptionByPattern s clientId pattern).1
  | .removeById clientId subId => (removeSubscriptionById s clientId subId).1
  | .setPaused clientId subId paused => (setSubscriptionPaused s clientId subId paused).1
  | .pauseAll clientId paused => (pauseAllSubscriptions s clientId paused).1

/-- The session a request comes from. -/
def issuer : Event → Option Nat
  | .registerShell _ _ _ _ _ _ => none
  | .registerEphemeral _ _ _ _ => none
  | .unregister clientId => some clientId
  | .reap _ => none
  | .add clientId _ => some clientId
  | .removeByPattern clientId _ => some clientId
  | .removeById clientId _ => some clientId
  | .setPaused clientId _ _ => some clientId
  | .pauseAll clientId _ => some clientId

end Zshrs.Daemon.Registry
