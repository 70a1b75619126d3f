import Zshrs.Daemon.Registry

namespace Zshrs.Daemon.Registry

open Lib Lib.Minting

theorem removeShellLocked_sessions (s : State) (id : Nat) :
    (removeShellLocked s id).sessions = s.sessions := by
  simp only [removeShellLocked]
  split <;> rfl

theorem removeShellLocked_nextClientId (s : State) (id : Nat) :
    (removeShellLocked s id).nextClientId = s.nextClientId := by
  simp only [removeShellLocked]
  split <;> rfl

theorem removeShellLocked_nextShellId (s : State) (id : Nat) :
    (removeShellLocked s id).nextShellId = s.nextShellId := by
  simp only [removeShellLocked]
  split <;> rfl

theorem removeShellLocked_nextSubscriptionId (s : State) (id : Nat) :
    (removeShellLocked s id).nextSubscriptionId = s.nextSubscriptionId := by
  simp only [removeShellLocked]
  split <;> rfl

theorem removeShellLocked_shells (s : State) (id k : Nat) (h : s.shells.get? k = none) :
    (removeShellLocked s id).shells.get? k = none := by
  simp only [removeShellLocked]
  cases hr : s.shells.get? id with
  | none => exact h
  | some r =>
      dsimp only
      rw [OrdMap.get?_erase]
      split
      · rfl
      · exact h

theorem removeShellLocked_subscriptions (s : State) (id : Nat) :
    (removeShellLocked s id).subscriptions =
      s.subscriptions.retain (fun _ sub => sub.shellId ≠ some id) := by
  simp only [removeShellLocked]
  split <;> rfl

/-- A step that adds no entry and moves no counter. -/
structure Shrinks (s s' : State) : Prop where
  sessions : ∀ id, s.sessions.get? id = none → s'.sessions.get? id = none
  shells : ∀ id, s.shells.get? id = none → s'.shells.get? id = none
  subscriptions : ∀ id, s.subscriptions.get? id = none → s'.subscriptions.get? id = none
  nextClientId : s'.nextClientId = s.nextClientId
  nextShellId : s'.nextShellId = s.nextShellId
  nextSubscriptionId : s'.nextSubscriptionId = s.nextSubscriptionId

theorem Shrinks.refl (s : State) : Shrinks s s :=
  ⟨fun _ h => h, fun _ h => h, fun _ h => h, rfl, rfl, rfl⟩

theorem Shrinks.trans {s t u : State} (h : Shrinks s t) (h' : Shrinks t u) : Shrinks s u :=
  ⟨fun id hid => h'.sessions id (h.sessions id hid), fun id hid => h'.shells id (h.shells id hid),
    fun id hid => h'.subscriptions id (h.subscriptions id hid), h'.nextClientId.trans h.nextClientId,
    h'.nextShellId.trans h.nextShellId, h'.nextSubscriptionId.trans h.nextSubscriptionId⟩

theorem shrinks_foldl {β : Type} {f : State → β → State} (hf : ∀ s b, Shrinks s (f s b)) (s : State)
    (bs : List β) : Shrinks s (bs.foldl f s) := by
  induction bs generalizing s with
  | nil => exact Shrinks.refl s
  | cons b bs ih => exact (hf s b).trans (ih (f s b))

theorem shrinks_removeShellLocked (s : State) (id : Nat) : Shrinks s (removeShellLocked s id) := by
  refine ⟨?_, removeShellLocked_shells s id, ?_, ?_, ?_, ?_⟩
  · intro k hk
    rw [removeShellLocked_sessions]
    exact hk
  · intro k hk
    rw [removeShellLocked_subscriptions, OrdMap.get?_retain, hk]
    rfl
  · exact removeShellLocked_nextClientId s id
  · exact removeShellLocked_nextShellId s id
  · exact removeShellLocked_nextSubscriptionId s id

theorem shrinks_dropSubscription (s : State) (id : Nat) : Shrinks s (dropSubscription s id) := by
  refine ⟨fun _ h => h, fun _ h => h, ?_, rfl, rfl, rfl⟩
  intro k hk
  rw [dropSubscription, OrdMap.get?_erase, hk, ite_self]

theorem shrinks_pauseSubscription (paused : Bool) (s : State) (id : Nat) :
    Shrinks s (pauseSubscription paused s id) := by
  refine ⟨fun _ h => h, fun _ h => h, ?_, rfl, rfl, rfl⟩
  intro k hk
  rw [pauseSubscription, OrdMap.get?_modify, hk, Option.map_none, ite_self]

theorem shrinks_unregisterSession (s : State) (clientId : Nat) :
    Shrinks s (unregisterSession s clientId) := by
  rw [unregisterSession]
  split
  · refine ⟨?_, fun _ h => h, ?_, rfl, rfl, rfl⟩
    · intro k hk
      rw [OrdMap.get?_erase, hk, ite_self]
    · intro k hk
      rw [OrdMap.get?_retain, hk]
      rfl
  · exact Shrinks.refl s

/-- The session is registered, and its shell too, if it has one. -/
def attached (s : State) (clientId : Nat) : Bool :=
  (s.sessions.get? clientId).any
    (fun session => session.shellId.all (fun shell => (s.shells.get? shell).isSome))

/-- A subscription is added for a registered session whose shell is not gone, and no counter
that is used has wrapped. -/
def Sound (s : State) : Event → Prop
  | .registerShell pid start _ _ _ _ =>
      s.nextClientId ≠ 0 ∧ (reusable s pid start = none → s.nextShellId ≠ 0)
  | .registerEphemeral _ _ _ _ => s.nextClientId ≠ 0
  | .add clientId pattern =>
      s.nextSubscriptionId ≠ 0 ∧
        ∀ sub, Subscription.parse clientId s.nextSubscriptionId pattern = .ok sub →
          attached s clientId = true
  | _ => True

/-- What a step does to the three tables and their counters. -/
structure MintedStep (s s' : State) : Prop where
  sessions : Minted s.sessions s.nextClientId s'.sessions s'.nextClientId
  shells : Minted s.shells s.nextShellId s'.shells s'.nextShellId
  subscriptions : Minted s.subscriptions s.nextSubscriptionId s'.subscriptions s'.nextSubscriptionId

theorem Shrinks.minted {s s' : State} (h : Shrinks s s') : MintedStep s s' := by
  refine ⟨?_, ?_, ?_⟩
  · rw [h.nextClientId]
    exact minted_keep _ h.sessions
  · rw [h.nextShellId]
    exact minted_keep _ h.shells
  · rw [h.nextSubscriptionId]
    exact minted_keep _ h.subscriptions

/-- The shell part of a registration leaves sessions alone and mints at most one shell. -/
structure Joined (s s' : State) : Prop where
  sessions : s'.sessions = s.sessions
  nextClientId : s'.nextClientId = s.nextClientId
  shells : Minted s.shells s.nextShellId s'.shells s'.nextShellId
  subscriptions : ∀ id, s.subscriptions.get? id = none → s'.subscriptions.get? id = none
  nextSubscriptionId : s'.nextSubscriptionId = s.nextSubscriptionId

theorem reusable_eq_some {s : State} {pid : Int} {start : Option UInt64} {id : Nat}
    {r' : ShellRecord} (h : reusable s pid start = some (id, r')) :
    s.shellByPid.get? pid = some id ∧ ∃ r, s.shells.get? id = some r ∧ r.rejoin start = some r' := by
  simp only [reusable, Option.bind_eq_bind, Option.bind_eq_some_iff] at h
  obtain ⟨k, hk, r, hr, q, hq, he⟩ := h
  cases he
  exact ⟨hk, r, hr, hq⟩

/-- The state in which a new shell is minted: the old one of this pid is gone. -/
def vacated (s : State) (pid : Int) : State :=
  match s.shellByPid.get? pid with
  | some old => removeShellLocked s old
  | none => s

theorem shrinks_vacated (s : State) (pid : Int) : Shrinks s (vacated s pid) := by
  rw [vacated]
  split
  · exact shrinks_removeShellLocked s _
  · exact Shrinks.refl s

theorem vacated_sessions (s : State) (pid : Int) : (vacated s pid).sessions = s.sessions := by
  rw [vacated]
  split
  · exact removeShellLocked_sessions s _
  · rfl

theorem joinShell_reused {s : State} {pid : Int} {start : Option UInt64} {id : Nat}
    {r : ShellRecord} (h : reusable s pid start = some (id, r)) :
    joinShell s pid start = ({ s with shells := s.shells.insert id r }, id) := by
  simp only [joinShell, h]

theorem joinShell_minted {s : State} {pid : Int} {start : Option UInt64}
    (h : reusable s pid start = none) :
    joinShell s pid start = (mintShell (vacated s pid) pid start, (vacated s pid).nextShellId) := by
  simp only [joinShell, h]
  rfl

theorem joined_joinShell {s : State} {pid : Int} {start : Option UInt64}
    (hn : reusable s pid start = none → s.nextShellId ≠ 0) : Joined s (joinShell s pid start).1 := by
  cases h : reusable s pid start with
  | some p =>
      obtain ⟨id, r⟩ := p
      obtain ⟨_, old, hold, _⟩ := reusable_eq_some h
      rw [joinShell_reused h]
      refine ⟨rfl, rfl, minted_keep _ ?_, fun _ h => h, rfl⟩
      intro k hk
      rw [OrdMap.get?_insert]
      split
      · rename_i heq
        rw [heq, hold] at hk
        cases hk
      · exact hk
  | none =>
      have hshrink := shrinks_vacated s pid
      rw [joinShell_minted h]
      have hmint := minted_insert (vacated s pid).shells (hshrink.nextShellId ▸ hn h)
        ⟨(vacated s pid).nextShellId, pid, start, none, none, none⟩
      rw [hshrink.nextShellId] at hmint
      refine ⟨vacated_sessions s pid, hshrink.nextClientId, ?_, hshrink.subscriptions,
        hshrink.nextSubscriptionId⟩
      simp only [mintShell, hshrink.nextShellId]
      refine ⟨hmint.counter, fun id hid hne => hmint.added id (hshrink.shells id hid) hne⟩

end Zshrs.Daemon.Registry
