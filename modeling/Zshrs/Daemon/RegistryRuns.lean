import Zshrs.Daemon.RegistryRefs

namespace Zshrs.Daemon.Registry

open Lib Lib.Runs Lib.Minting

theorem parse_ok {clientId id : Nat} {pattern : String} {sub : Subscription}
    (h : Subscription.parse clientId id pattern = .ok sub) : sub.id = id ∧ sub.clientId = clientId := by
  simp only [Subscription.parse] at h
  split at h
  · cases h
  · split at h
    · cases h
    · cases h
      exact ⟨rfl, rfl⟩

theorem attached_iff {s : State} {clientId : Nat} :
    attached s clientId = true ↔ ∃ session, s.sessions.get? clientId = some session ∧
      ∀ shell, session.shellId = some shell → ∃ r, s.shells.get? shell = some r := by
  simp [attached, Option.any_eq_true, Option.all_eq_true, Option.isSome_iff_exists]

theorem Refs.add {s : State} (h : Refs s) (clientId : Nat) (pattern : String)
    (hatt : ∀ sub, Subscription.parse clientId s.nextSubscriptionId pattern = .ok sub →
      attached s clientId = true) : Refs (addSubscription s clientId pattern).1 := by
  simp only [addSubscription]
  cases hp : Subscription.parse clientId s.nextSubscriptionId pattern with
  | error e => exact ⟨h.pidShell, h.shellPid, h.subId, h.subSession, h.subShell⟩
  | ok new =>
      obtain ⟨hid, hclient⟩ := parse_ok hp
      obtain ⟨session, hsession, hshell⟩ := attached_iff.mp (hatt new hp)
      have hof : shellOf s clientId = session.shellId := by simp [shellOf, hsession]
      refine ⟨h.pidShell, h.shellPid, ?_, ?_, ?_⟩
      · intro id sub hsub
        dsimp only at hsub
        rw [OrdMap.get?_insert] at hsub
        split at hsub
        · rename_i heq
          cases hsub
          exact hid.trans heq.symm
        · exact h.subId id sub hsub
      · intro id sub hsub
        dsimp only at hsub
        rw [OrdMap.get?_insert] at hsub
        split at hsub
        · cases hsub
          exact ⟨session, by rw [hclient]; exact hsession, hof⟩
        · exact h.subSession id sub hsub
      · intro id sub shell hsub hs
        dsimp only at hsub
        rw [OrdMap.get?_insert] at hsub
        split at hsub
        · cases hsub
          exact hshell shell (hof.symm.trans hs)
        · exact h.subShell id sub shell hsub hs

/-- An accepted subscription of a session that is not attached breaks the references at once. -/
theorem attached_of_refs_add {s : State} {clientId : Nat} {pattern : String} {sub : Subscription}
    (hp : Subscription.parse clientId s.nextSubscriptionId pattern = .ok sub)
    (h : Refs (addSubscription s clientId pattern).1) : attached s clientId = true := by
  obtain ⟨_, hclient⟩ := parse_ok hp
  simp only [addSubscription, hp] at h
  have hget := OrdMap.get?_insert s.subscriptions s.nextSubscriptionId
    { sub with shellId := shellOf s clientId } s.nextSubscriptionId
  rw [if_pos rfl] at hget
  obtain ⟨session, hsession, hshell⟩ := h.subSession _ _ hget
  dsimp only at hsession hshell
  rw [hclient] at hsession
  refine attached_iff.mpr ⟨session, hsession, ?_⟩
  intro shell hs
  exact h.subShell _ _ shell hget (hshell.trans hs)

theorem Refs.foldl {β : Type} {f : State → β → State} (hf : ∀ s b, Refs s → Refs (f s b)) {s : State}
    (h : Refs s) (bs : List β) : Refs (bs.foldl f s) := by
  induction bs generalizing s with
  | nil => exact h
  | cons b bs ih => exact ih (hf s b h)

theorem Refs.drop {s : State} (h : Refs s) (id : Nat) : Refs (dropSubscription s id) :=
  h.withSubscriptions (from_retain _ _)

theorem Refs.pause {s : State} (h : Refs s) (paused : Bool) (id : Nat) :
    Refs (pauseSubscription paused s id) :=
  h.withSubscriptions (from_pause _ _ _)

theorem Refs.step {s : State} {e : Event} (h : Refs s) (hids : Ids s) (he : Sound s e) :
    Refs (step s e) := by
  cases e with
  | registerShell pid start tty cwd argv0 uuid =>
      have hj := joined_joinShell he.2
      have hjoin := h.join hids he.2
      simp only [Registry.step, registerShellSession]
      refine Refs.insertSession ?_ ?_ pid tty cwd argv0 _ uuid
      · rw [OrdMap.modify]
        split
        · rename_i r hr
          exact hjoin.putShell hr rfl
        · exact hjoin
      · dsimp only
        rw [hj.sessions, hj.nextClientId]
        exact hids.sessions.unused he.1
  | registerEphemeral pid tty argv0 uuid =>
      exact h.insertSession (hids.sessions.unused he) pid tty none argv0 none uuid
  | unregister clientId => exact h.unregister clientId
  | reap isAlive => exact Refs.foldl (fun s b h => h.removeShell b) h _
  | add clientId pattern => exact h.add clientId pattern he.2
  | removeByPattern clientId pattern => exact Refs.foldl (fun s b h => h.drop b) h _
  | removeById clientId subId =>
      simp only [Registry.step, removeSubscriptionById]
      split
      · exact h.drop subId
      · exact h
  | setPaused clientId subId paused =>
      simp only [Registry.step, setSubscriptionPaused]
      split
      · exact h.pause paused subId
      · exact h
  | pauseAll clientId paused => exact Refs.foldl (fun s b h => h.pause paused b) h _

theorem foldl_frame {f : State → Nat → State} {id : Nat}
    (hf : ∀ s b, b ≠ id → (f s b).subscriptions.get? id = s.subscriptions.get? id) (s : State)
    {bs : List Nat} (hbs : id ∉ bs) :
    (bs.foldl f s).subscriptions.get? id = s.subscriptions.get? id := by
  induction bs generalizing s with
  | nil => rfl
  | cons b bs ih =>
      rw [List.mem_cons, not_or] at hbs
      rw [List.foldl_cons, ih (f s b) hbs.2, hf s b (Ne.symm hbs.1)]

theorem drop_frame (s : State) (b : Nat) {id : Nat} (h : b ≠ id) :
    (dropSubscription s b).subscriptions.get? id = s.subscriptions.get? id := by
  rw [dropSubscription, OrdMap.get?_erase, if_neg (Ne.symm h)]

theorem pause_frame (paused : Bool) (s : State) (b : Nat) {id : Nat} (h : b ≠ id) :
    (pauseSubscription paused s b).subscriptions.get? id = s.subscriptions.get? id := by
  rw [pauseSubscription, OrdMap.get?_modify, if_neg (Ne.symm h)]

section Ownership

variable {s : State} {clientId id : Nat} {sub : Subscription}

/-- The ids an operation collects are of subscriptions its caller owns. -/
theorem Refs.not_collected (h : Refs s) (hsub : s.subscriptions.get? id = some sub)
    (hother : ownsSubscription s clientId sub = false) (p : Subscription → Bool) :
    id ∉ (s.subscriptions.values.filter
      (fun sub => p sub && ownsSubscription s clientId sub)).map Subscription.id := by
  intro hmem
  obtain ⟨other, hother', hid⟩ := List.mem_map.mp hmem
  obtain ⟨hvalue, howned⟩ := List.mem_filter.mp hother'
  obtain ⟨key, hkey⟩ := OrdMap.mem_values.mp hvalue
  obtain rfl : key = id := (h.subId key other hkey).symm.trans hid
  obtain rfl : other = sub := Option.some.inj (hkey.symm.trans hsub)
  simp [hother] at howned

theorem owned_ne {subId : Nat} (hsub : s.subscriptions.get? id = some sub)
    (hother : ownsSubscription s clientId sub = false) (howned : owned s clientId subId = true) :
    subId ≠ id := by
  rintro rfl
  simp [owned, hsub, hother] at howned

theorem Refs.client_owns (h : Refs s) (hsub : s.subscriptions.get? id = some sub) :
    ownsSubscription s sub.clientId sub = true := by
  obtain ⟨session, hsession, hshell⟩ := h.subSession id sub hsub
  have hof : shellOf s sub.clientId = sub.shellId := by simp [shellOf, hsession, hshell]
  rw [ownsSubscription, hof]
  cases sub.shellId <;> simp

/-- No request touches a subscription that its session does not own. -/
theorem subscription_step (h : Refs s) (hids : Ids s) {e : Event} (he : Sound s e)
    (hissuer : issuer e = some clientId) (hsub : s.subscriptions.get? id = some sub)
    (hother : ownsSubscription s clientId sub = false) :
    (step s e).subscriptions.get? id = some sub := by
  cases e with
  | registerShell pid start tty cwd argv0 uuid => cases hissuer
  | registerEphemeral pid tty argv0 uuid => cases hissuer
  | reap isAlive => cases hissuer
  | unregister c =>
      cases hissuer
      simp only [step, unregisterSession]
      split
      · rw [OrdMap.get?_retain, hsub]
        have hne : sub.clientId ≠ clientId := by
          rintro rfl
          rw [h.client_owns hsub] at hother
          cases hother
        simp [hne]
      · exact hsub
  | add c pattern =>
      simp only [step, addSubscription]
      split
      · exact hsub
      · dsimp only
        rw [OrdMap.get?_insert, if_neg]
        · exact hsub
        · rintro rfl
          rw [hids.subscriptions.unused he.1] at hsub
          cases hsub
  | removeByPattern c pattern =>
      cases hissuer
      refine (foldl_frame (fun s b hb => drop_frame s b hb) s ?_).trans hsub
      exact h.not_collected hsub hother (fun sub => sub.pattern = pattern)
  | removeById c subId =>
      cases hissuer
      simp only [step, removeSubscriptionById]
      split
      · rename_i howned
        rw [drop_frame s subId (owned_ne hsub hother howned), hsub]
      · exact hsub
  | setPaused c subId paused =>
      cases hissuer
      simp only [step, setSubscriptionPaused]
      split
      · rename_i howned
        rw [pause_frame paused s subId (owned_ne hsub hother howned), hsub]
      · exact hsub
  | pauseAll c paused =>
      cases hissuer
      refine (foldl_frame (fun s b hb => pause_frame paused s b hb) s ?_).trans hsub
      exact h.not_collected hsub hother (fun sub => sub.paused ≠ paused)

end Ownership

theorem refs_run {es : List Event} (h : Along step Sound init es) :
    Refs (run step init es) ∧ Ids (run step init es) :=
  Along.invariant (I := fun s => Refs s ∧ Ids s)
    (fun _ _ he hs => ⟨hs.1.step hs.2 he, hs.2.step he⟩) h ⟨refs_init, ids_init⟩

/-- What holds of the registry along a run, in every state it reaches. -/
structure RegistryOk (es : List Event) : Prop where
  refs : ∀ before, before <+: es → Refs (run step init before)
  clients : NeverReused step State.sessions init es
  shells : NeverReused step State.shells init es
  subscriptions : NeverReused step State.subscriptions init es
  ownership : ∀ before e after, es = before ++ e :: after → ∀ clientId, issuer e = some clientId →
    ∀ id sub, (run step init before).subscriptions.get? id = some sub →
      ownsSubscription (run step init before) clientId sub = false →
      (run step init (before ++ [e])).subscriptions.get? id = some sub

/-- The registry stays consistent as long as each subscription is added for a session that is
registered, with a shell that is, and no id counter wraps. -/
theorem registryOk_of_sound (es : List Event) (h : Along step Sound init es) : RegistryOk es := by
  refine ⟨?_, ?_, ?_, ?_, ?_⟩
  · rintro before ⟨after, rfl⟩
    exact (refs_run (along_append.mp h).1).1
  · exact neverReused (fun _ _ he => (minted_step he).sessions) h ids_init.sessions
  · exact neverReused (fun _ _ he => (minted_step he).shells) h ids_init.shells
  · exact neverReused (fun _ _ he => (minted_step he).subscriptions) h ids_init.subscriptions
  · rintro before e after rfl clientId hissuer id sub hsub hother
    obtain ⟨hbefore, hafter⟩ := along_append.mp h
    obtain ⟨hrefs, hids⟩ := refs_run hbefore
    rw [run_append]
    exact subscription_step hrefs hids hafter.1 hissuer hsub hother

def connect : Event :=
  .registerShell 4242 (some 17) (some "/dev/pts/3") (some "/home") (some "zshrs") "u"

theorem registryOk_subscribe : RegistryOk [connect, .add 1 "*.commands", .pauseAll 1 true] :=
  registryOk_of_sound _ ⟨⟨by decide, fun _ => by decide⟩, ⟨by decide, fun _ _ => by decide⟩, trivial, trivial⟩

/-- The shell's process is gone, but a connection of it still subscribes. -/
theorem subscribe_after_reap :
    ¬ RegistryOk [connect, .reap (fun _ _ => false), .add 1 "*.commands"] := by
  intro h
  have hrefs := h.refs [connect, .reap (fun _ _ => false), .add 1 "*.commands"] (List.prefix_refl _)
  obtain ⟨r, hr⟩ := hrefs.subShell 1 ⟨1, 1, some 1, "*.commands", "*", "commands", false⟩ 1 rfl rfl
  cases hr

end Zshrs.Daemon.Registry
