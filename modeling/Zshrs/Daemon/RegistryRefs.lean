import Zshrs.Daemon.RegistryTables

namespace Zshrs.Daemon.Registry

open Lib Lib.Minting

theorem minted_step {s : State} {e : Event} (h : Sound s e) : MintedStep s (step s e) := by
  cases e with
  | registerShell pid start tty cwd argv0 uuid =>
      have hj := joined_joinShell h.2
      refine ⟨?_, ?_, ?_⟩
      · simp only [step, registerShellSession, insertSession, hj.sessions, hj.nextClientId]
        exact minted_insert _ h.1 _
      · refine ⟨hj.shells.counter, fun id hid hne => hj.shells.added id hid (fun hnone => hne ?_)⟩
        simp only [step, registerShellSession, insertSession, OrdMap.get?_modify, hnone]
        split <;> rfl
      · simp only [step, registerShellSession, insertSession, hj.nextSubscriptionId]
        exact minted_keep _ hj.subscriptions
  | registerEphemeral pid tty argv0 uuid =>
      exact ⟨minted_insert _ h _, minted_keep _ (fun _ h => h), minted_keep _ (fun _ h => h)⟩
  | unregister clientId => exact (shrinks_unregisterSession s clientId).minted
  | reap isAlive => exact (shrinks_foldl shrinks_removeShellLocked s _).minted
  | add clientId pattern =>
      refine ⟨?_, ?_, ?_⟩
      · simp only [step, addSubscription]
        split <;> exact minted_keep _ (fun _ h => h)
      · simp only [step, addSubscription]
        split <;> exact minted_keep _ (fun _ h => h)
      · simp only [step, addSubscription]
        split
        · exact ⟨Or.inr ⟨h.1, rfl⟩, fun id hnone hne => absurd hnone hne⟩
        · exact minted_insert _ h.1 _
  | removeByPattern clientId pattern =>
      exact (shrinks_foldl shrinks_dropSubscription s _).minted
  | removeById clientId subId =>
      simp only [step, removeSubscriptionById]
      split
      · exact (shrinks_dropSubscription s subId).minted
      · exact (Shrinks.refl s).minted
  | setPaused clientId subId paused =>
      simp only [step, setSubscriptionPaused]
      split
      · exact (shrinks_pauseSubscription paused s subId).minted
      · exact (Shrinks.refl s).minted
  | pauseAll clientId paused =>
      exact (shrinks_foldl (shrinks_pauseSubscription paused) s _).minted

structure Ids (s : State) : Prop where
  sessions : FreshIds s.sessions s.nextClientId
  shells : FreshIds s.shells s.nextShellId
  subscriptions : FreshIds s.subscriptions s.nextSubscriptionId

theorem ids_init : Ids init := by
  refine ⟨⟨?_, ?_⟩, ⟨?_, ?_⟩, ⟨?_, ?_⟩⟩ <;> simp [init]

theorem Ids.step {s : State} {e : Event} (h : Ids s) (he : Sound s e) : Ids (step s e) :=
  ⟨h.sessions.step (minted_step he).sessions, h.shells.step (minted_step he).shells,
    h.subscriptions.step (minted_step he).subscriptions⟩

/-- The pid index and the shell table are inverse to each other, and every subscription
belongs to a registered session and to the shell of that session. -/
structure Refs (s : State) : Prop where
  pidShell : ∀ pid id, s.shellByPid.get? pid = some id → ∃ r, s.shells.get? id = some r ∧ r.pid = pid
  shellPid : ∀ id r, s.shells.get? id = some r → s.shellByPid.get? r.pid = some id
  subId : ∀ id sub, s.subscriptions.get? id = some sub → sub.id = id
  subSession : ∀ id sub, s.subscriptions.get? id = some sub →
    ∃ session, s.sessions.get? sub.clientId = some session ∧ sub.shellId = session.shellId
  subShell : ∀ id sub shell, s.subscriptions.get? id = some sub → sub.shellId = some shell →
    ∃ r, s.shells.get? shell = some r

theorem refs_init : Refs init := by
  refine ⟨?_, ?_, ?_, ?_, ?_⟩ <;> simp [init]

/-- The entries of a table of subscriptions come from another, up to `paused`. -/
def From (subs subs' : OrdMap Nat Subscription) : Prop :=
  ∀ id sub', subs'.get? id = some sub' → ∃ sub, subs.get? id = some sub ∧ sub'.id = sub.id ∧
    sub'.clientId = sub.clientId ∧ sub'.shellId = sub.shellId

theorem from_retain (subs : OrdMap Nat Subscription) (keep : Nat → Subscription → Bool) :
    From subs (subs.retain keep) := by
  intro id sub h
  rw [OrdMap.get?_retain, Option.filter_eq_some_iff] at h
  exact ⟨sub, h.1, rfl, rfl, rfl⟩

theorem from_pause (subs : OrdMap Nat Subscription) (key : Nat) (paused : Bool) :
    From subs (subs.modify key (fun sub => { sub with paused })) := by
  intro id sub' h
  rw [OrdMap.get?_modify] at h
  split at h
  · obtain ⟨sub, hsub, rfl⟩ := Option.map_eq_some_iff.mp h
    exact ⟨sub, hsub, rfl, rfl, rfl⟩
  · exact ⟨sub', h, rfl, rfl, rfl⟩

theorem Refs.withSubscriptions {s : State} (h : Refs s) {subs : OrdMap Nat Subscription}
    (hsubs : From s.subscriptions subs) : Refs { s with subscriptions := subs } := by
  refine ⟨h.pidShell, h.shellPid, ?_, ?_, ?_⟩
  · intro id sub hid
    obtain ⟨old, hold, hid', _, _⟩ := hsubs id sub hid
    rw [hid']
    exact h.subId id old hold
  · intro id sub hid
    obtain ⟨old, hold, _, hclient, hshell⟩ := hsubs id sub hid
    rw [hclient, hshell]
    exact h.subSession id old hold
  · intro id sub shell hid hs
    obtain ⟨old, hold, _, _, hshell⟩ := hsubs id sub hid
    exact h.subShell id old shell hold (hshell ▸ hs)

theorem Refs.eraseShell {s : State} (h : Refs s) {id : Nat} {r : ShellRecord}
    (hr : s.shells.get? id = some r)
    (hfree : ∀ k sub, s.subscriptions.get? k = some sub → sub.shellId ≠ some id) :
    Refs { s with shells := s.shells.erase id, shellByPid := s.shellByPid.erase r.pid } := by
  refine ⟨?_, ?_, h.subId, h.subSession, ?_⟩
  · intro pid k hk
    rw [OrdMap.get?_erase] at hk
    split at hk
    · cases hk
    · rename_i hpid
      obtain ⟨q, hq, rfl⟩ := h.pidShell pid k hk
      refine ⟨q, ?_, rfl⟩
      rw [OrdMap.get?_erase, if_neg]
      · exact hq
      · rintro rfl
        rw [hr] at hq
        cases hq
        exact hpid rfl
  · intro k q hq
    rw [OrdMap.get?_erase] at hq
    split at hq
    · cases hq
    · rename_i hk
      have hindex := h.shellPid k q hq
      rw [OrdMap.get?_erase, if_neg]
      · exact hindex
      · intro hpid
        rw [hpid, h.shellPid id r hr] at hindex
        exact hk (Option.some.inj hindex).symm
  · intro k sub shell hk hshell
    obtain ⟨q, hq⟩ := h.subShell k sub shell hk hshell
    refine ⟨q, ?_⟩
    rw [OrdMap.get?_erase, if_neg]
    · exact hq
    · rintro rfl
      exact hfree k sub hk hshell

theorem Refs.removeShell {s : State} (h : Refs s) (id : Nat) : Refs (removeShellLocked s id) := by
  have hkept := h.withSubscriptions (from_retain s.subscriptions (fun _ sub => sub.shellId ≠ some id))
  simp only [removeShellLocked]
  cases hr : s.shells.get? id with
  | none => exact hkept
  | some r =>
      dsimp only
      rw [if_pos (h.shellPid id r hr)]
      refine hkept.eraseShell hr ?_
      intro k sub hk
      rw [OrdMap.get?_retain, Option.filter_eq_some_iff] at hk
      simpa using hk.2

/-- Changing a record, but not its pid. -/
theorem Refs.putShell {s : State} (h : Refs s) {id : Nat} {r r' : ShellRecord}
    (hr : s.shells.get? id = some r) (hpid : r'.pid = r.pid) :
    Refs { s with shells := s.shells.insert id r' } := by
  refine ⟨?_, ?_, h.subId, h.subSession, ?_⟩
  · intro pid k hk
    obtain ⟨q, hq, rfl⟩ := h.pidShell pid k hk
    dsimp only
    rw [OrdMap.get?_insert]
    split
    · rename_i heq
      subst heq
      rw [hr] at hq
      cases hq
      exact ⟨r', rfl, hpid⟩
    · exact ⟨q, hq, rfl⟩
  · intro k q hq
    dsimp only at hq ⊢
    rw [OrdMap.get?_insert] at hq
    split at hq
    · rename_i heq
      cases hq
      rw [heq, hpid]
      exact h.shellPid id r hr
    · exact h.shellPid k q hq
  · intro k sub shell hk hshell
    obtain ⟨q, hq⟩ := h.subShell k sub shell hk hshell
    dsimp only
    rw [OrdMap.get?_insert]
    split
    · exact ⟨r', rfl⟩
    · exact ⟨q, hq⟩

theorem Refs.mint {s : State} (h : Refs s) {pid : Int} (hpid : s.shellByPid.get? pid = none)
    (hnew : s.shells.get? s.nextShellId = none) (start : Option UInt64) :
    Refs (mintShell s pid start) := by
  refine ⟨?_, ?_, h.subId, h.subSession, ?_⟩
  · intro p k hk
    simp only [mintShell, OrdMap.get?_insert] at hk ⊢
    split at hk
    · rename_i hp
      cases hk
      rw [if_pos rfl]
      exact ⟨_, rfl, hp.symm⟩
    · obtain ⟨q, hq, rfl⟩ := h.pidShell p k hk
      refine ⟨q, ?_, rfl⟩
      rw [if_neg]
      · exact hq
      · rintro rfl
        rw [hnew] at hq
        cases hq
  · intro k q hq
    simp only [mintShell, OrdMap.get?_insert] at hq ⊢
    split at hq
    · rename_i heq
      cases hq
      rw [if_pos rfl, heq]
    · have hindex := h.shellPid k q hq
      rw [if_neg]
      · exact hindex
      · intro heq
        rw [heq, hpid] at hindex
        cases hindex
  · intro k sub shell hk hshell
    obtain ⟨q, hq⟩ := h.subShell k sub shell hk hshell
    simp only [mintShell, OrdMap.get?_insert]
    split
    · exact ⟨_, rfl⟩
    · exact ⟨q, hq⟩

theorem vacated_pid {s : State} (h : Refs s) (pid : Int) :
    (vacated s pid).shellByPid.get? pid = none := by
  rw [vacated]
  split
  · rename_i old hold
    obtain ⟨r, hr, rfl⟩ := h.pidShell pid old hold
    simp [removeShellLocked, hr, h.shellPid old r hr, OrdMap.get?_erase]
  · rename_i hnone
    exact hnone

theorem Refs.vacate {s : State} (h : Refs s) (pid : Int) : Refs (vacated s pid) := by
  rw [vacated]
  split
  · exact h.removeShell _
  · exact h

theorem rejoin_pid {r r' : ShellRecord} {start : Option UInt64} (h : r.rejoin start = some r') :
    r'.pid = r.pid := by
  simp only [ShellRecord.rejoin] at h
  split at h
  · split at h
    · cases h
    · cases h
      rfl
  · cases h
    rfl
  · cases h
    rfl

theorem Refs.join {s : State} (h : Refs s) (hids : Ids s) {pid : Int} {start : Option UInt64}
    (hn : reusable s pid start = none → s.nextShellId ≠ 0) : Refs (joinShell s pid start).1 := by
  cases hr : reusable s pid start with
  | some p =>
      obtain ⟨id, r'⟩ := p
      obtain ⟨_, r, hold, hrejoin⟩ := reusable_eq_some hr
      rw [joinShell_reused hr]
      exact h.putShell hold (rejoin_pid hrejoin)
  | none =>
      rw [joinShell_minted hr]
      refine (h.vacate pid).mint (vacated_pid h pid) ?_ start
      have hshrink := shrinks_vacated s pid
      rw [hshrink.nextShellId]
      exact hshrink.shells _ (hids.shells.unused (hn hr))

theorem Refs.insertSession {s : State} (h : Refs s) (hnew : s.sessions.get? s.nextClientId = none)
    (pid : Int) (tty cwd argv0 : Option String) (shellId : Option Nat) (uuid : String) :
    Refs (insertSession s pid tty cwd argv0 shellId uuid).1 := by
  refine ⟨h.pidShell, h.shellPid, h.subId, ?_, h.subShell⟩
  intro id sub hid
  obtain ⟨session, hsession, hshell⟩ := h.subSession id sub hid
  refine ⟨session, ?_, hshell⟩
  simp only [Registry.insertSession, OrdMap.get?_insert]
  rw [if_neg]
  · exact hsession
  · intro heq
    rw [heq, hnew] at hsession
    cases hsession

theorem Refs.unregister {s : State} (h : Refs s) (clientId : Nat) :
    Refs (unregisterSession s clientId) := by
  rw [unregisterSession]
  split
  · have hkept := h.withSubscriptions
      (from_retain s.subscriptions (fun _ sub => sub.clientId ≠ clientId))
    refine ⟨hkept.pidShell, hkept.shellPid, hkept.subId, ?_, hkept.subShell⟩
    intro id sub hid
    obtain ⟨session, hsession, hshell⟩ := hkept.subSession id sub hid
    refine ⟨session, ?_, hshell⟩
    dsimp only at hid ⊢
    rw [OrdMap.get?_retain, Option.filter_eq_some_iff] at hid
    rw [OrdMap.get?_erase, if_neg (by simpa using hid.2)]
    exact hsession
  · exact h

end Zshrs.Daemon.Registry
