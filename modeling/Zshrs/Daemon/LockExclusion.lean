import Zshrs.Daemon.Lock
import Mathlib.Data.List.Nodup

namespace Zshrs.Daemon.Lock

open Json Lib.Runs

/-- The pid a request is made under: its `pid` argument cut to 32 bits, or 0. A
sleeping request still has the one it came with. -/
def carriedPid (s : State) : Event → Int
  | .tryAcquire _ args _ _ | .acquire _ args _ _ _ => callerPid args
  | .poll i _ _ _ => ((s.waiting[i]?).map Waiter.pid).getD 0
  | _ => 0

/-- `e` hands back `token` for `name`. -/
def releases (name : LockName) (token : Nat) : Event → Prop
  | .release _ args => nameArg args = .ok name ∧ tokenArg args = .ok token
  | _ => False

def kills (client : Nat) : Event → Prop
  | .die c => c = client
  | _ => False

def grants (name : LockName) : Reply → Prop
  | .granted _ n _ _ => n = name
  | _ => False

structure ProcsOk (procs : List Proc) : Prop where
  clients : (procs.map Proc.client).Nodup
  pids : (procs.map Proc.pid).Nodup
  positive : ∀ p ∈ procs, 0 < p.pid

theorem ProcsOk.pid_unique {procs : List Proc} (h : ProcsOk procs) {p q : Proc}
    (hp : p ∈ procs) (hq : q ∈ procs) (he : p.pid = q.pid) : p = q :=
  List.inj_on_of_nodup_map h.pids hp hq he

theorem pidAlive_of_mem {procs : List Proc} {p : Proc} (hp : p ∈ procs) (hpos : 0 < p.pid) :
    pidAlive procs p.pid = true := by
  have hle : ¬ p.pid ≤ 0 := by omega
  simp only [pidAlive, hle, if_false, List.any_eq_true, beq_iff_eq]
  exact ⟨p, hp, rfl⟩

theorem exists_of_pidAlive {procs : List Proc} {pid : Int} (h : pidAlive procs pid = true) :
    ∃ p ∈ procs, p.pid = pid := by
  unfold pidAlive at h
  split at h
  · cases h
  · simpa only [List.any_eq_true, beq_iff_eq] using h

theorem evict_other (procs : List Proc) (table : LockTable) {name other : LockName}
    (hne : other ≠ name) : evict procs table name other = table other := by
  cases he : table name with
  | none => simp [evict, he]
  | some entry =>
      simp only [evict, he]
      split
      · rfl
      · exact Function.update_of_ne hne _ _

theorem evict_alive {procs : List Proc} {table : LockTable} {name : LockName} {entry : LockEntry}
    (he : table name = some entry) (ha : pidAlive procs entry.holderPid = true) :
    evict procs table name = table := by
  simp [evict, he, ha]

theorem evict_dead {procs : List Proc} {table : LockTable} {name : LockName} {entry : LockEntry}
    (he : table name = some entry) (ha : pidAlive procs entry.holderPid = false) :
    evict procs table name name = none := by
  simp [evict, he, ha]

theorem tryAcquireInner_other (procs : List Proc) (table : LockTable) {name other : LockName}
    (hne : other ≠ name) (pid : Int) (random : Nat) (nowNs : Int) :
    (tryAcquireInner procs table name pid random nowNs).1 other = table other := by
  have he := evict_other procs table hne
  by_cases hg : (evict procs table name name).isSome <;>
    simp [tryAcquireInner, hg, he, Function.update_of_ne hne]

theorem tryAcquireInner_held {procs : List Proc} {table : LockTable} {name : LockName}
    {entry : LockEntry} (he : table name = some entry)
    (ha : pidAlive procs entry.holderPid = true) (pid : Int) (random : Nat) (nowNs : Int) :
    tryAcquireInner procs table name pid random nowNs = (table, none) := by
  simp [tryAcquireInner, evict_alive he ha, he]

theorem tryAcquireInner_dead {procs : List Proc} {table : LockTable} {name : LockName}
    {entry : LockEntry} (he : table name = some entry)
    (ha : pidAlive procs entry.holderPid = false) (pid : Int) (random : Nat) (nowNs : Int) :
    (tryAcquireInner procs table name pid random nowNs).2 = some random := by
  simp [tryAcquireInner, evict_dead he ha]

theorem tryAcquireInner_result (procs : List Proc) (table : LockTable) (name : LockName)
    (pid : Int) (random : Nat) (nowNs : Int) :
    (tryAcquireInner procs table name pid random nowNs).2 = none ∨
      (tryAcquireInner procs table name pid random nowNs).2 = some random := by
  unfold tryAcquireInner
  dsimp only
  split
  · exact Or.inl rfl
  · exact Or.inr rfl

theorem tryAcquireInner_grant {procs : List Proc} {table table' : LockTable} {name : LockName}
    {pid : Int} {random token : Nat} {nowNs : Int}
    (h : tryAcquireInner procs table name pid random nowNs = (table', some token)) :
    table' name = some ⟨pid, token, nowNs⟩ := by
  unfold tryAcquireInner at h
  dsimp only at h
  split at h
  · cases h
  · cases h
    exact Function.update_self _ _ _

/-- What an attempt leaves behind and answers, whichever request made it. -/
structure Attempted (s s' : State) (r : Reply) (client : Nat) (name : LockName) (pid : Int)
    (random : Nat) (nowNs : Int) : Prop where
  procs : s'.procs = s.procs
  locks : s'.locks = (tryAcquireInner s.procs s.locks name pid random nowNs).1
  refused : (tryAcquireInner s.procs s.locks name pid random nowNs).2 = none → ∀ n, ¬ grants n r
  granted : (tryAcquireInner s.procs s.locks name pid random nowNs).2 = some random →
    r = .granted client name random pid

theorem attempt_attempted (s : State) (w : Waiter) (rest : List Waiter) (random : Nat)
    (nowNs : Int) (expired : Bool) :
    Attempted s (attempt s w rest random nowNs expired).1 (attempt s w rest random nowNs expired).2
      w.client w.name w.pid random nowNs := by
  have hr := tryAcquireInner_result s.procs s.locks w.name w.pid random nowNs
  unfold attempt
  cases ht : tryAcquireInner s.procs s.locks w.name w.pid random nowNs with
  | mk table got =>
      rw [ht] at hr
      cases got with
      | some token =>
          have hk : token = random := by simpa using hr
          subst token
          constructor <;> simp [ht]
      | none =>
          cases w.timeout with
          | none => constructor <;> simp [ht, grants]
          | some secs => cases expired <;> constructor <;> simp [ht, grants]

/-- Everything a step can do to the table and to the processes. -/
theorem step_cases (s : State) (e : Event) :
    (∃ client name pid random nowNs, carriedPid s e = pid ∧
      Attempted s (next s e) (reply s e) client name pid random nowNs) ∨
    (∃ name token, releases name token e ∧ (next s e).procs = s.procs ∧
      (next s e).locks = (releaseLock s.locks name token).1 ∧ ∀ n, ¬ grants n (reply s e)) ∨
    ((next s e).locks = s.locks ∧ (∀ n, ¬ grants n (reply s e)) ∧
      ((next s e).procs = s.procs ∨
        (∃ c pid, canSpawn s.procs c pid = true ∧ (next s e).procs = ⟨c, pid⟩ :: s.procs) ∨
        ∃ c, e = .die c ∧ (next s e).procs = s.procs.filter (fun p => p.client != c))) := by
  cases e with
  | spawn c pid =>
      refine Or.inr (Or.inr ?_)
      cases hc : canSpawn s.procs c pid with
      | false => simp [next, reply, step, hc, grants]
      | true => exact ⟨by simp [next, step, hc], by simp [reply, step, hc, grants],
          Or.inr (Or.inl ⟨c, pid, hc, by simp [next, step, hc]⟩)⟩
  | die c =>
      exact Or.inr (Or.inr ⟨rfl, fun _ h => h, Or.inr (Or.inr ⟨c, rfl, rfl⟩)⟩)
  | tryAcquire c args random nowNs =>
      cases hn : nameArg args with
      | error err => exact Or.inr (Or.inr (by simp [next, reply, step, opLockTryAcquire, hn, grants]))
      | ok name =>
          refine Or.inl ⟨c, name, callerPid args, random, nowNs, rfl, ?_⟩
          have hr := tryAcquireInner_result s.procs s.locks name (callerPid args) random nowNs
          simp only [next, reply, step, opLockTryAcquire, hn]
          cases ht : tryAcquireInner s.procs s.locks name (callerPid args) random nowNs with
          | mk table got =>
              rw [ht] at hr
              cases got with
              | none => constructor <;> simp [ht, grants]
              | some token =>
                  have hk : token = random := by simpa using hr
                  subst token
                  constructor <;> simp [ht]
  | acquire c args random nowNs expired =>
      cases hn : nameArg args with
      | error err => exact Or.inr (Or.inr (by simp [next, reply, step, opLockAcquire, hn, grants]))
      | ok name =>
          refine Or.inl ⟨c, name, callerPid args, random, nowNs, rfl, ?_⟩
          simpa only [next, reply, step, opLockAcquire, hn] using
            attempt_attempted s ⟨c, name, callerPid args, timeoutSecs args⟩ s.waiting random nowNs expired
  | poll i random nowNs expired =>
      cases hw : s.waiting[i]? with
      | none => exact Or.inr (Or.inr (by simp [next, reply, step, hw, grants]))
      | some w =>
          refine Or.inl ⟨w.client, w.name, w.pid, random, nowNs, by simp [carriedPid, hw], ?_⟩
          simpa only [next, reply, step, hw] using
            attempt_attempted s w (s.waiting.eraseIdx i) random nowNs expired
  | release c args =>
      cases hn : nameArg args with
      | error err => exact Or.inr (Or.inr (by simp [next, reply, step, opLockRelease, hn, grants]))
      | ok name =>
          cases ht : tokenArg args with
          | error err =>
              exact Or.inr (Or.inr (by simp [next, reply, step, opLockRelease, hn, ht, grants]))
          | ok token =>
              refine Or.inr (Or.inl ⟨name, token, ⟨hn, ht⟩, ?_, ?_, ?_⟩)
              · simp [next, step, opLockRelease, hn, ht]
              · simp [next, step, opLockRelease, hn, ht]
              · intro n
                simp only [reply, step, opLockRelease, hn, ht, releaseLock]
                cases s.locks name with
                | none => simp [grants]
                | some entry => by_cases hk : entry.token = token <;> simp [hk, grants]

theorem ProcsOk.cons {procs : List Proc} (h : ProcsOk procs) {client : Nat} {pid : Int}
    (hc : canSpawn procs client pid = true) : ProcsOk (⟨client, pid⟩ :: procs) := by
  simp only [canSpawn, Bool.and_eq_true, decide_eq_true_eq, List.all_eq_true, bne_iff_ne] at hc
  obtain ⟨⟨hpos, _⟩, hnew⟩ := hc
  constructor
  · refine List.nodup_cons.mpr ⟨?_, h.clients⟩
    intro hm
    obtain ⟨p, hp, he⟩ := List.mem_map.mp hm
    exact (hnew p hp).1 he
  · refine List.nodup_cons.mpr ⟨?_, h.pids⟩
    intro hm
    obtain ⟨p, hp, he⟩ := List.mem_map.mp hm
    exact (hnew p hp).2 he
  · intro p hp
    rcases List.mem_cons.mp hp with rfl | hp
    · exact hpos
    · exact h.positive p hp

theorem ProcsOk.filter {procs : List Proc} (h : ProcsOk procs) (f : Proc → Bool) :
    ProcsOk (procs.filter f) :=
  ⟨h.clients.sublist (List.filter_sublist.map _), h.pids.sublist (List.filter_sublist.map _),
    fun p hp => h.positive p (List.mem_filter.mp hp).1⟩

theorem procsOk_next (s : State) (e : Event) (h : ProcsOk s.procs) : ProcsOk (next s e).procs := by
  rcases step_cases s e with ⟨_, _, _, _, _, _, ha⟩ | ⟨_, _, _, hp, _⟩ | ⟨_, _, hp | ⟨c, pid, hc, hp⟩ | ⟨c, _, hp⟩⟩
  · exact ha.procs ▸ h
  · exact hp ▸ h
  · exact hp ▸ h
  · exact hp ▸ h.cons hc
  · exact hp ▸ h.filter _

theorem procsOk_run (es : List Event) : ProcsOk (run next init es).procs :=
  run_invariant (I := fun s : State => ProcsOk s.procs) procsOk_next
    ⟨by simp [init], by simp [init], by simp [init]⟩ es

theorem releaseLock_wrong {table : LockTable} {name : LockName} {token : Nat}
    (h : ∀ entry, table name = some entry → entry.token ≠ token) :
    (releaseLock table name token).1 = table := by
  unfold releaseLock
  cases he : table name with
  | none => rfl
  | some entry => simp [h entry he]

theorem releaseLock_other (table : LockTable) {name other : LockName} (hne : other ≠ name)
    (token : Nat) : (releaseLock table name token).1 other = table other := by
  unfold releaseLock
  cases table name with
  | none => rfl
  | some entry =>
      by_cases hk : entry.token = token
      · simp [hk, Function.update_of_ne hne]
      · simp [hk]

/-- A release that presents a token the table does not hold for that name changes nothing. -/
theorem release_wrong_token {s : State} {e : Event} {name : LockName} {token : Nat}
    (he : releases name token e) (h : ∀ entry, s.locks name = some entry → entry.token ≠ token) :
    (next s e).locks = s.locks := by
  cases e with
  | release c args =>
      obtain ⟨hn, ht⟩ := he
      simpa [next, step, opLockRelease, hn, ht] using releaseLock_wrong h
  | _ => exact he.elim

/-- The grant is in the table under the pid of a process that runs. -/
structure Held (s : State) (client : Nat) (name : LockName) (token : Nat) (pid : Int) : Prop where
  proc : ⟨client, pid⟩ ∈ s.procs
  entry : ∃ nowNs, s.locks name = some ⟨pid, token, nowNs⟩

theorem Held.step {s : State} {client : Nat} {name : LockName} {token : Nat} {pid : Int}
    (h : Held s client name token pid) (hok : ProcsOk s.procs) {e : Event}
    (hr : ¬ releases name token e) (hk : ¬ kills client e) :
    Held (next s e) client name token pid ∧ ¬ grants name (reply s e) := by
  obtain ⟨nowNs, he⟩ := h.entry
  have halive : pidAlive s.procs pid = true := pidAlive_of_mem h.proc (hok.positive _ h.proc)
  rcases step_cases s e with ⟨c, n, p, random, ns, _, ha⟩ | ⟨n, t, hrel, hp, hl, hg⟩ | ⟨hl, hg, hp⟩
  · by_cases hn : name = n
    · subst n
      have hheld := tryAcquireInner_held he halive p random ns
      refine ⟨⟨ha.procs ▸ h.proc, nowNs, ?_⟩, ha.refused (by rw [hheld]) name⟩
      rw [ha.locks, hheld]
      exact he
    · refine ⟨⟨ha.procs ▸ h.proc, nowNs, ?_⟩, ?_⟩
      · rw [ha.locks, tryAcquireInner_other s.procs s.locks hn, he]
      · rcases tryAcquireInner_result s.procs s.locks n p random ns with hnone | hsome
        · exact ha.refused hnone name
        · rw [ha.granted hsome]
          exact Ne.symm hn
  · refine ⟨⟨hp ▸ h.proc, nowNs, ?_⟩, hg name⟩
    by_cases hn : name = n
    · subst n
      have hne : token ≠ t := fun heq => hr (heq ▸ hrel)
      rw [hl, releaseLock_wrong (fun entry hentry => ?_), he]
      rw [he] at hentry
      cases hentry
      exact hne
    · rw [hl, releaseLock_other s.locks hn, he]
  · refine ⟨⟨?_, nowNs, hl ▸ he⟩, hg name⟩
    rcases hp with hp | ⟨c, p, _, hp⟩ | ⟨c, hd, hp⟩
    · exact hp ▸ h.proc
    · exact hp ▸ List.mem_cons_of_mem _ h.proc
    · rw [hp]
      refine List.mem_filter.mpr ⟨h.proc, ?_⟩
      have hc : client ≠ c := fun heq => hk (by rw [hd, heq]; exact rfl)
      simpa using hc

/-- The guarantee of the lock: until `client` dies or the token comes back, nobody else
gets the name, and no other token touches the table. -/
def Protected (s : State) (client : Nat) (name : LockName) (token : Nat) : Prop :=
  ∀ mid : List Event, (∀ e ∈ mid, ¬ releases name token e ∧ ¬ kills client e) → ∀ e,
    ¬ grants name (reply (run next s mid) e) ∧
      ∀ other, other ≠ token → releases name other e → (next (run next s mid) e).locks = (run next s mid).locks

theorem Held.protected {s : State} {client : Nat} {name : LockName} {token : Nat} {pid : Int}
    (h : Held s client name token pid) (hok : ProcsOk s.procs) : Protected s client name token := by
  intro mid hmid e
  have hinv : ProcsOk (run next s mid).procs ∧ Held (run next s mid) client name token pid :=
    Along.invariant (P := fun _ e => ¬ releases name token e ∧ ¬ kills client e)
      (I := fun s => ProcsOk s.procs ∧ Held s client name token pid)
      (fun s e hc hi => ⟨procsOk_next s e hi.1, (hi.2.step hi.1 hc.1 hc.2).1⟩)
      (along_events.mpr hmid) ⟨hok, h⟩
  obtain ⟨hok', h'⟩ := hinv
  obtain ⟨nowNs, he⟩ := h'.entry
  have halive : pidAlive (run next s mid).procs pid = true :=
    pidAlive_of_mem h'.proc (hok'.positive _ h'.proc)
  constructor
  · rcases step_cases (run next s mid) e with ⟨c, n, p, random, ns, _, ha⟩ | ⟨_, _, _, _, _, hg⟩ | ⟨_, hg, _⟩
    · by_cases hn : name = n
      · subst n
        exact ha.refused (by rw [tryAcquireInner_held he halive]) name
      · rcases tryAcquireInner_result (run next s mid).procs (run next s mid).locks n p random ns with
          hnone | hsome
        · exact ha.refused hnone name
        · rw [ha.granted hsome]
          exact Ne.symm hn
    · exact hg name
    · exact hg name
  · intro other hne hrel
    refine release_wrong_token hrel (fun entry hentry => ?_)
    rw [he] at hentry
    cases hentry
    exact Ne.symm hne

theorem grant_entry {s : State} {e : Event} {client : Nat} {name : LockName} {token : Nat}
    {pid : Int} (h : reply s e = .granted client name token pid) :
    carriedPid s e = pid ∧ (next s e).procs = s.procs ∧ ∃ nowNs, (next s e).locks name = some ⟨pid, token, nowNs⟩ := by
  rcases step_cases s e with ⟨c, n, p, random, nowNs, hc, ha⟩ | ⟨_, _, _, _, _, hg⟩ | ⟨_, hg, _⟩
  · rcases tryAcquireInner_result s.procs s.locks n p random nowNs with hnone | hsome
    · exact absurd (show grants name (reply s e) by rw [h]; exact rfl) (ha.refused hnone name)
    · have heq := h.symm.trans (ha.granted hsome)
      cases heq
      refine ⟨hc, ha.procs, nowNs, ?_⟩
      rw [ha.locks]
      exact tryAcquireInner_grant (Prod.ext rfl hsome)
  · exact absurd (show grants name (reply s e) by rw [h]; exact rfl) (hg name)
  · exact absurd (show grants name (reply s e) by rw [h]; exact rfl) (hg name)

/-- A `lock_try_acquire` body without `pid`. -/
def request (name : LockName) : Value := .object [("name", .string name.text)]

theorem nameArg_request (name : LockName) : nameArg (request name) = .ok name := by
  simp [nameArg, request, Value.get, Value.asStr, name.nonempty]

theorem tryAcquire_dead_holder {s : State} {name : LockName} {entry : LockEntry}
    (he : s.locks name = some entry) (hd : pidAlive s.procs entry.holderPid = false) :
    grants name (reply s (.tryAcquire 0 (request name) 0 0)) := by
  have hsome := tryAcquireInner_dead he hd (callerPid (request name)) 0 0
  simp only [reply, step, opLockTryAcquire, nameArg_request]
  cases ht : tryAcquireInner s.procs s.locks name (callerPid (request name)) 0 0 with
  | mk table got =>
      rw [ht] at hsome
      obtain rfl : got = some 0 := hsome
      exact rfl

/-- The processes left when the one with `pid` dies. -/
theorem pidAlive_filter {procs : List Proc} (hok : ProcsOk procs) {q : Proc} (hq : q ∈ procs) :
    pidAlive (procs.filter (fun p => p.client != q.client)) q.pid = false := by
  by_contra h
  obtain ⟨p, hp, he⟩ := exists_of_pidAlive (by simpa using h)
  obtain ⟨hm, hc⟩ := List.mem_filter.mp hp
  have hpq : p = q := hok.pid_unique hm hq he
  simp [hpq] at hc

theorem not_protected {s : State} (hok : ProcsOk s.procs) {client : Nat} {name : LockName}
    {token : Nat} {entry : LockEntry} (he : s.locks name = some entry) {pid : Int}
    (hlive : ⟨client, pid⟩ ∈ s.procs) (hne : entry.holderPid ≠ pid) :
    ¬ Protected s client name token := by
  intro hp
  cases ha : pidAlive s.procs entry.holderPid with
  | false =>
      exact (hp [] (by simp) (.tryAcquire 0 (request name) 0 0)).1 (tryAcquire_dead_holder he ha)
  | true =>
      -- the recorded pid is some other process; the lock falls when that one dies
      obtain ⟨q, hq, hpid⟩ := exists_of_pidAlive ha
      have hqc : q.client ≠ client := by
        intro heq
        have hsame : q = ⟨client, pid⟩ := List.inj_on_of_nodup_map hok.clients hq hlive heq
        exact hne (hpid.symm.trans (congrArg Proc.pid hsame))
      have hmid : ∀ e ∈ [Event.die q.client], ¬ releases name token e ∧ ¬ kills client e := by
        intro e hm
        obtain rfl := List.mem_singleton.mp hm
        exact ⟨fun h => h, hqc⟩
      refine (hp [.die q.client] hmid (.tryAcquire 0 (request name) 0 0)).1
        (@tryAcquire_dead_holder _ _ entry he ?_)
      rw [← hpid]
      exact pidAlive_filter hok hq

/-- In every history: a grant to a running process is exclusive exactly when the request
carried that process's own pid. Without `pid` it carries 0, which no process has. -/
theorem granted_protected_iff (past : List Event) (e : Event) (client : Nat) (name : LockName)
    (token : Nat) (holderPid pid : Int)
    (hgrant : reply (run next init past) e = .granted client name token holderPid)
    (hlive : ⟨client, pid⟩ ∈ (run next init past).procs) :
    Protected (next (run next init past) e) client name token ↔
      carriedPid (run next init past) e = pid := by
  obtain ⟨hcarried, hprocs, nowNs, hentry⟩ := grant_entry hgrant
  rw [hcarried]
  have hok : ProcsOk (next (run next init past) e).procs := procsOk_next _ _ (procsOk_run past)
  have hlive' : ⟨client, pid⟩ ∈ (next (run next init past) e).procs := hprocs ▸ hlive
  constructor
  · intro hp
    by_contra hne
    exact not_protected hok hentry hlive' hne hp
  · rintro rfl
    exact Held.protected ⟨hlive', nowNs, hentry⟩ hok

/-- A `lock_try_acquire` body as `zd lock` and `zlock` send it. -/
def requestPid (name : LockName) (pid : UInt64) : Value :=
  .object [("name", .string name.text), ("pid", .number (.posInt pid))]

def deploy : LockName := ⟨"deploy", by decide⟩

theorem deploy_protected_iff :
    Protected (next (run next init [.spawn 1 100]) (.tryAcquire 1 (requestPid deploy 100) 7 0))
        1 deploy 7 ↔
      carriedPid (run next init [.spawn 1 100]) (.tryAcquire 1 (requestPid deploy 100) 7 0) = 100 :=
  granted_protected_iff [.spawn 1 100] (.tryAcquire 1 (requestPid deploy 100) 7 0) 1 deploy 7 100 100
    (by decide) (by decide)

/-- Two running clients hold `deploy` at once: the first one sent no `pid`. -/
theorem deploy_granted_twice :
    let s := run next init [.spawn 1 100, .spawn 2 200]
    let s' := next s (.tryAcquire 1 (request deploy) 7 0)
    reply s (.tryAcquire 1 (request deploy) 7 0) = .granted 1 deploy 7 0 ∧
      ⟨1, 100⟩ ∈ s'.procs ∧
      reply s' (.tryAcquire 2 (requestPid deploy 200) 8 1) = .granted 2 deploy 8 200 := by
  decide

end Zshrs.Daemon.Lock
