import Zshrs.Daemon.DispatchTimes
import Mathlib.Algebra.Group.Int.Defs

namespace Zshrs.Daemon.Schedule

open Json Lib.Runs

variable {cron : Cron}

structure TableOk (s : State) : Prop where
  ids : (s.rows.map Row.id).Nodup
  rowId : ∀ row ∈ s.rows, row.id ≤ s.seq
  logId : ∀ d ∈ s.log, d.row.id ≤ s.seq
  last : ∀ row ∈ s.rows, row.lastRunNs = lastDispatch s.log row.id
  created : ∀ row ∈ s.rows, ∀ l ∈ row.lastRunNs, row.createdAt ≤ l
  oneShots : OneShots s.log

theorem tableOk_init : TableOk init := by
  refine ⟨?_, ?_, ?_, ?_, ?_, ⟨?_, ?_⟩⟩ <;> simp [init]

theorem TableOk.insert {s : State} (h : TableOk s) {row : Nat → Row} {now : Int}
    (hadd : Added row now) : TableOk (insert s row) := by
  have hmem : ∀ r ∈ s.rows ++ [row (s.seq + 1)], r ∈ s.rows ∨ r = row (s.seq + 1) := by
    intro r hr
    simpa using hr
  refine ⟨?_, ?_, ?_, ?_, ?_, h.oneShots⟩
  · simp only [Schedule.insert, List.map_append, List.map_singleton, hadd.id]
    refine List.nodup_append.mpr ⟨h.ids, by simp, ?_⟩
    intro a ha b hb
    obtain ⟨r, hr, rfl⟩ := List.mem_map.mp ha
    have hle := h.rowId r hr
    have hb : b = s.seq + 1 := by simpa using hb
    omega
  · intro r hr
    rcases hmem r hr with hr | rfl
    · exact Nat.le_succ_of_le (h.rowId r hr)
    · exact Nat.le_of_eq (hadd.id _)
  · intro d hd
    exact Nat.le_succ_of_le (h.logId d hd)
  · intro r hr
    rcases hmem r hr with hr | rfl
    · exact h.last r hr
    · rw [hadd.lastRunNs, hadd.id]
      refine (lastDispatch_eq_none.mpr ?_).symm
      intro d hd heq
      have hle := h.logId d hd
      omega
  · intro r hr
    rcases hmem r hr with hr | rfl
    · exact h.created r hr
    · simp [hadd.lastRunNs]

theorem TableOk.removeRow {s : State} (h : TableOk s) (id : Int) : TableOk (removeRow s id) := by
  have hmem : ∀ row ∈ (Schedule.removeRow s id).rows, row ∈ s.rows :=
    fun row hrow => (List.mem_filter.mp hrow).1
  refine ⟨(List.filter_sublist.map Row.id).nodup h.ids, ?_, h.logId, ?_, ?_, h.oneShots⟩
  · exact fun row hrow => h.rowId row (hmem row hrow)
  · exact fun row hrow => h.last row (hmem row hrow)
  · exact fun row hrow => h.created row (hmem row hrow)

/-- The rows a tick submits. -/
def dueRows (cron : Cron) (s : State) (now : Int) : List Row :=
  s.rows.filter (fun row => row.enabled && row.due cron now)

theorem mem_dueRows {s : State} {now : Int} {row : Row} :
    row ∈ dueRows cron s now ↔ row ∈ s.rows ∧ row.enabled = true ∧ row.due cron now = true := by
  simp [dueRows]

theorem TableOk.dueRows_ids {s : State} (h : TableOk s) (now : Int) :
    ((dueRows cron s now).map Row.id).Nodup :=
  (List.filter_sublist.map Row.id).nodup h.ids

@[simp] theorem Row.ticked_id (now : Int) (submit : Nat → Nat) (row : Row) :
    (row.ticked cron now submit).id = row.id := by
  rw [Row.ticked]
  split <;> rfl

@[simp] theorem Row.ticked_createdAt (now : Int) (submit : Nat → Nat) (row : Row) :
    (row.ticked cron now submit).createdAt = row.createdAt := by
  rw [Row.ticked]
  split <;> rfl

theorem Row.ticked_lastRunNs (now : Int) (submit : Nat → Nat) (row : Row) :
    (row.ticked cron now submit).lastRunNs =
      if row.enabled && row.due cron now then some now else row.lastRunNs := by
  rw [Row.ticked]
  split <;> rfl

theorem TableOk.oneShots_tickOnce {s : State} (h : TableOk s) (now : Int) (submit : Nat → Nat) :
    OneShots (tickOnce cron s now submit).log := by
  rw [tickOnce_log]
  apply h.oneShots.dispatched (h.dueRows_ids now)
  · intro row hrow hone
    obtain ⟨hrow, _, hdue⟩ := mem_dueRows.mp hrow
    obtain ⟨at', hat⟩ := Option.isSome_iff_exists.mp hone
    apply lastDispatch_eq_none.mp
    rw [← h.last row hrow]
    exact ((Row.due_oneShot hat).mp hdue).1
  · intro row hrow at' hat
    obtain ⟨_, _, hdue⟩ := mem_dueRows.mp hrow
    exact ((Row.due_oneShot hat).mp hdue).2

theorem TableOk.last_tickOnce {s : State} (h : TableOk s) (now : Int) (submit : Nat → Nat)
    {row : Row} (hrow : row ∈ s.rows) :
    (row.ticked cron now submit).lastRunNs =
      lastDispatch (s.log ++ (dueRows cron s now).map (dispatch now submit)) row.id := by
  rw [Row.ticked_lastRunNs]
  split
  · rename_i hdue
    exact (lastDispatch_dispatched _ _ _ (mem_dueRows.mpr ⟨hrow, by simpa using hdue⟩)).symm
  · rename_i hdue
    rw [h.last row hrow]
    refine (lastDispatch_append_of_ne ?_).symm
    intro d hd heq
    obtain ⟨other, hother, rfl⟩ := List.mem_map.mp hd
    obtain ⟨hmem, hfire⟩ := mem_dueRows.mp hother
    obtain rfl : other = row := List.inj_on_of_nodup_map h.ids hmem hrow heq
    exact hdue (by simpa using hfire)

theorem TableOk.tickOnce {s : State} (h : TableOk s) {now : Int}
    (hclock : ∀ row ∈ s.rows, row.createdAt ≤ now) (submit : Nat → Nat) :
    TableOk (tickOnce cron s now submit) := by
  have hrows := @tickOnce_rows cron s h.ids now submit
  refine ⟨?_, ?_, ?_, ?_, ?_, h.oneShots_tickOnce now submit⟩
  · rw [hrows, List.map_map]
    exact (List.map_congr_left (fun r _ => Row.ticked_id now submit r)) ▸ h.ids
  · rw [hrows, tickOnce_seq]
    intro row hrow
    obtain ⟨r, hr, rfl⟩ := List.mem_map.mp hrow
    rw [Row.ticked_id]
    exact h.rowId r hr
  · rw [tickOnce_log, tickOnce_seq]
    intro d hd
    rcases List.mem_append.mp hd with hd | hd
    · exact h.logId d hd
    · obtain ⟨r, hr, rfl⟩ := List.mem_map.mp hd
      exact h.rowId r (mem_dueRows.mp hr).1
  · rw [hrows, tickOnce_log]
    intro row hrow
    obtain ⟨r, hr, rfl⟩ := List.mem_map.mp hrow
    rw [Row.ticked_id]
    exact h.last_tickOnce now submit hr
  · rw [hrows]
    intro row hrow l hl
    obtain ⟨r, hr, rfl⟩ := List.mem_map.mp hrow
    rw [Row.ticked_createdAt]
    rw [Row.ticked_lastRunNs] at hl
    split at hl
    · obtain rfl : now = l := by simpa using hl
      exact hclock r hr
    · exact h.created r hr l hl

/-- No row was created after a reading still to come. -/
def Ahead (s : State) (es : List Event) : Prop :=
  ∀ row ∈ s.rows, ∀ t ∈ es.flatMap readings, row.createdAt ≤ t

/-- A state of a run whose clock readings, with those still to come, do not decrease. -/
structure Running (s : State) (es : List Event) : Prop where
  ok : TableOk s
  ahead : Ahead s es
  clock : (es.flatMap readings).Pairwise (· ≤ ·)

theorem running_init {es : List Event} (hclock : (es.flatMap readings).Pairwise (· ≤ ·)) :
    Running init es :=
  ⟨tableOk_init, by simp [Ahead, init], hclock⟩

theorem Running.ahead_step (cron : Cron) {s : State} {e : Event} {es : List Event}
    (h : Running s (e :: es)) : Ahead (step cron s e) es := by
  have hclock := h.clock
  rw [List.flatMap_cons, List.pairwise_append] at hclock
  have hold : ∀ row ∈ s.rows, ∀ t ∈ es.flatMap readings, row.createdAt ≤ t := by
    intro row hrow t ht
    exact h.ahead row hrow t (List.mem_append_right _ ht)
  rcases step_cases cron s e with hs | ⟨row, now, hnow, hadd, hs⟩ | ⟨id, hs⟩ |
    ⟨now, submit, rfl, hs⟩ <;> rw [hs]
  · exact hold
  · intro r hr t ht
    rcases List.mem_append.mp hr with hr | hr
    · exact hold r hr t ht
    · obtain rfl := List.mem_singleton.mp hr
      rw [hadd.createdAt]
      exact hclock.2.2 now hnow t ht
  · intro r hr
    exact hold r (List.mem_filter.mp hr).1
  · rw [Ahead, tickOnce_rows h.ok.ids]
    intro row hrow
    obtain ⟨r, hr, rfl⟩ := List.mem_map.mp hrow
    rw [Row.ticked_createdAt]
    exact hold r hr

theorem Running.tableOk_step (cron : Cron) {s : State} {e : Event} {es : List Event}
    (h : Running s (e :: es)) : TableOk (step cron s e) := by
  rcases step_cases cron s e with hs | ⟨row, now, _, hadd, hs⟩ | ⟨id, hs⟩ |
    ⟨now, submit, rfl, hs⟩ <;> rw [hs]
  · exact h.ok
  · exact h.ok.insert hadd
  · exact h.ok.removeRow id
  · exact h.ok.tickOnce (fun row hrow => h.ahead row hrow now (by simp [readings])) submit

theorem Running.step (cron : Cron) {s : State} {e : Event} {es : List Event}
    (h : Running s (e :: es)) : Running (step cron s e) es :=
  ⟨h.tableOk_step cron, h.ahead_step cron, (List.pairwise_append.mp (List.flatMap_cons ▸ h.clock)).2.1⟩

theorem Running.run (cron : Cron) {s : State} {es fs : List Event} (h : Running s (es ++ fs)) :
    Running (run (Schedule.step cron) s es) fs := by
  induction es generalizing s with
  | nil => exact h
  | cons e es ih => exact ih (h.step cron)

/-- A recurring job that has not run yet, and whose expression fired at all by now, has a
fire time since it was added. -/
def FreshTick (cron : Cron) (s : State) : Event → Prop
  | .tick now _ => ∀ row ∈ s.rows, row.enabled = true → row.fireAtNs = none →
      row.lastRunNs = none → (∃ t, row.firesAt cron t ∧ 0 < t ∧ t ≤ now) →
      ∃ t, row.firesAt cron t ∧ row.createdAt < t ∧ t ≤ now
  | _ => True

theorem TableOk.justified_due {s : State} (h : TableOk s) (now : Int) (submit : Nat → Nat) :
    (∀ row ∈ dueRows cron s now, row.fireAtNs = none →
      Justified cron s.log (dispatch now submit row)) ↔ FreshTick cron s (.tick now submit) := by
  constructor
  · intro hall row hrow hen hrec hnew
    rintro ⟨t, hfire, hpos, ht⟩
    have hdue := Row.due_of_fire hrec hnew hfire hpos ht
    obtain ⟨u, hu, hcreated, _, hle⟩ := hall row (mem_dueRows.mpr ⟨hrow, hen, hdue⟩) hrec
    exact ⟨u, hu, hcreated, hle⟩
  · intro hfresh row hrow hrec
    obtain ⟨hrow, hen, hdue⟩ := mem_dueRows.mp hrow
    obtain ⟨t, hfire, hlt, ht⟩ := Row.fire_of_due hrec hdue
    have hlast := h.last row hrow
    cases hrun : row.lastRunNs with
    | none =>
        rw [hrun] at hlt hlast
        obtain ⟨u, hu, hcreated, hle⟩ := hfresh row hrow hen hrec hrun ⟨t, hfire, hlt, ht⟩
        exact ⟨u, hu, hcreated, by simp [dispatch, ← hlast], hle⟩
    | some l =>
        rw [hrun] at hlt hlast
        have hcreated := h.created row hrow l hrun
        refine ⟨t, hfire, Int.lt_of_le_of_lt hcreated hlt, ?_, ht⟩
        simpa [dispatch, ← hlast] using hlt

theorem log_of_not_tick {s : State} {e : Event} (h : ∀ now submit, e ≠ .tick now submit) :
    (step cron s e).log = s.log := by
  rcases step_cases cron s e with hs | ⟨_, _, _, _, hs⟩ | ⟨_, hs⟩ | ⟨now, submit, htick, _⟩
  · rw [hs]
  · rw [hs]
    rfl
  · rw [hs]
    rfl
  · exact absurd htick (h now submit)

theorem recurringJustified_step {s : State} (h : TableOk s) (e : Event) :
    RecurringJustified cron (step cron s e).log ↔
      RecurringJustified cron s.log ∧ FreshTick cron s e := by
  cases e with
  | tick now submit =>
      rw [step, tickOnce_log, ← h.justified_due now submit]
      exact recurringJustified_dispatched (h.dueRows_ids now)
  | _ => simp [log_of_not_tick, FreshTick]

theorem recurringJustified_run {s : State} {es : List Event} (h : Running s es) :
    RecurringJustified cron (run (step cron) s es).log ↔
      RecurringJustified cron s.log ∧ Along (step cron) (FreshTick cron) s es := by
  induction es generalizing s with
  | nil => simp [Along]
  | cons e es ih =>
      rw [run_cons, ih (h.step cron), recurringJustified_step h.ok e, and_assoc]
      rfl

/-- The row `id` was in the table and was removed. -/
structure Gone (id : Nat) (s : State) : Prop where
  used : id ≤ s.seq
  absent : ∀ row ∈ s.rows, row.id ≠ id

theorem Gone.step {id : Nat} {s : State} (h : Gone id s) (hids : (s.rows.map Row.id).Nodup)
    (e : Event) : Gone id (step cron s e) := by
  obtain ⟨hused, habsent⟩ := h
  rcases step_cases cron s e with hs | ⟨row, now, _, hadd, hs⟩ | ⟨removed, hs⟩ |
    ⟨now, submit, rfl, hs⟩ <;> rw [hs]
  · exact ⟨hused, habsent⟩
  · refine ⟨Nat.le_succ_of_le hused, ?_⟩
    intro r hr
    rcases List.mem_append.mp hr with hr | hr
    · exact habsent r hr
    · obtain rfl := List.mem_singleton.mp hr
      rw [hadd.id]
      omega
  · exact ⟨hused, fun r hr => habsent r (List.mem_filter.mp hr).1⟩
  · refine ⟨by rwa [tickOnce_seq], ?_⟩
    rw [tickOnce_rows hids]
    intro r hr
    obtain ⟨r', hr', rfl⟩ := List.mem_map.mp hr
    rw [Row.ticked_id]
    exact habsent r' hr'

theorem Gone.log_step {id : Nat} {s : State} (h : Gone id s) (cron : Cron) (e : Event) :
    ∃ more, (Schedule.step cron s e).log = s.log ++ more ∧ ∀ d ∈ more, d.row.id ≠ id := by
  by_cases ht : ∃ now submit, e = .tick now submit
  · obtain ⟨now, submit, rfl⟩ := ht
    refine ⟨_, tickOnce_log s now submit, ?_⟩
    intro d hd
    obtain ⟨row, hrow, rfl⟩ := List.mem_map.mp hd
    exact h.absent row (mem_dueRows.mp hrow).1
  · refine ⟨[], ?_, by simp⟩
    rw [List.append_nil, log_of_not_tick]
    exact fun now submit heq => ht ⟨now, submit, heq⟩

theorem Gone.log_run {id : Nat} {s : State} {es : List Event} (h : Gone id s) (cron : Cron)
    (hrun : Running s es) :
    ∃ more, (run (Schedule.step cron) s es).log = s.log ++ more ∧ ∀ d ∈ more, d.row.id ≠ id := by
  induction es generalizing s with
  | nil => exact ⟨[], by simp, by simp⟩
  | cons e es ih =>
      obtain ⟨first, hfirst, hne⟩ := h.log_step cron e
      obtain ⟨more, hmore, hne'⟩ := ih (h.step hrun.ok.ids e) (hrun.step cron)
      refine ⟨first ++ more, ?_, ?_⟩
      · rw [run_cons, hmore, hfirst, List.append_assoc]
      · intro d hd
        rcases List.mem_append.mp hd with hd | hd
        · exact hne d hd
        · exact hne' d hd

theorem gone_removeRow {s : State} (h : TableOk s) {id : Nat} (hrow : hasRow s id = true) :
    Gone id (removeRow s id) := by
  obtain ⟨row, hmem, hid⟩ := List.any_eq_true.mp hrow
  refine ⟨?_, ?_⟩
  · have hle := h.rowId row hmem
    have hid : (row.id : Int) = id := by simpa using hid
    simp only [removeRow]
    omega
  · intro r hr heq
    have hne := (List.mem_filter.mp hr).2
    simp [heq] at hne

/-- What a run of requests and ticks may submit. -/
structure DispatchedWhenDue (cron : Cron) (es : List Event) : Prop where
  oneShots : OneShots (run (step cron) init es).log
  recurring : RecurringJustified cron (run (step cron) init es).log
  removed : ∀ before args after id, es = before ++ .remove args :: after →
    (args.get "id").bind Value.asI64 = some id → hasRow (run (step cron) init before) id = true →
    ∀ d ∈ (run (step cron) init es).log.drop (run (step cron) init before).log.length,
      (d.row.id : Int) ≠ id

theorem removed_not_dispatched {es before after : List Event} {args : Value} {id : Int}
    (hrun : Running init es) (hes : es = before ++ .remove args :: after)
    (hargs : (args.get "id").bind Value.asI64 = some id)
    (hrow : hasRow (run (step cron) init before) id = true) :
    ∀ d ∈ (run (step cron) init es).log.drop (run (step cron) init before).log.length,
      (d.row.id : Int) ≠ id := by
  subst hes
  have hat := hrun.run cron
  obtain ⟨row, _, hid⟩ := List.any_eq_true.mp hrow
  obtain rfl : (row.id : Int) = id := by simpa using hid
  have hstep : step cron (run (step cron) init before) (.remove args) =
      removeRow (run (step cron) init before) row.id := by
    simp [step, opScheduleRemove, hargs]
  have hnext := hat.step cron
  rw [hstep] at hnext
  obtain ⟨more, hlog, hne⟩ := (gone_removeRow hat.ok hrow).log_run cron hnext
  rw [run_append, run_cons, hstep, hlog]
  simp only [removeRow, List.drop_left]
  intro d hd
  exact_mod_cast hne d hd

/-- A recurring job is submitted only for a fire time since it was added and last run exactly
when no tick meets a job that is new and whose expression fired only before it was added. -/
theorem dispatchedWhenDue_iff (cron : Cron) (es : List Event)
    (hclock : (es.flatMap readings).Pairwise (· ≤ ·)) :
    DispatchedWhenDue cron es ↔ Along (step cron) (FreshTick cron) init es := by
  have hrun : Running init es := running_init hclock
  have hrec : RecurringJustified cron (run (step cron) init es).log ↔
      Along (step cron) (FreshTick cron) init es := by
    rw [recurringJustified_run hrun]
    exact and_iff_right (fun before d rest hsplit => by simp [init] at hsplit)
  constructor
  · intro h
    exact hrec.mp h.recurring
  · intro h
    have hend : Running (run (step cron) init es) [] :=
      Running.run cron (by rwa [List.append_nil])
    refine ⟨hend.ok.oneShots, hrec.mpr h, ?_⟩
    intro before args after id hes hargs hrow
    exact removed_not_dispatched hrun hes hargs hrow

def hour : Int := 3600 * 10 ^ 9

/-- 2101-01-01. -/
def yearsEnd : Int := 4133980800 * 10 ^ 9

/-- The crate on the expression `0 0 * * * *`. -/
def hourly : Cron where
  Sched := Unit
  fromStr := fun expr => if expr = "0 0 * * * *" then .ok () else .error "invalid"
  fires := fun _ t => 0 ≤ t ∧ t < yearsEnd ∧ hour ∣ t
  after := fun _ a =>
    let next := max 0 ((a / hour + 1) * hour)
    if next < yearsEnd then some next else none
  after_some := by
    intro _ a t h
    simp only [Option.ite_none_right_eq_some, Option.some.injEq] at h
    obtain ⟨hlt, rfl⟩ := h
    refine ⟨⟨by omega, hlt, ?_⟩, ?_, ?_⟩
    · simp only [hour]
      omega
    · simp only [hour]
      omega
    · rintro u ⟨hpos, _, k, rfl⟩ hu
      simp only [hour] at *
      omega
  after_none := by
    intro _ a h
    simp only [ite_eq_right_iff, reduceCtorEq, imp_false] at h
    rintro u ⟨hpos, hlt, k, rfl⟩
    simp only [hour, yearsEnd] at *
    omega
  fires_lt := by
    rintro _ t ⟨_, hlt, _⟩
    simp only [yearsEnd] at hlt
    omega

/-- 2023-11-14 22:30:00. -/
def halfPast : Int := 1700001000 * 10 ^ 9

def backup : Event :=
  .add (.object [("command", .array [.string "backup"]), ("cron_expr", .string "0 * * * *")]) halfPast

def firstTick : Event := .tick (halfPast + 10 ^ 9) (fun _ => 1)

theorem backup_dispatchedWhenDue_iff :
    DispatchedWhenDue hourly [backup, firstTick] ↔
      Along (step hourly) (FreshTick hourly) init [backup, firstTick] :=
  dispatchedWhenDue_iff hourly [backup, firstTick] (by decide)

/-- A job for the full hour, added at half past, runs one second later. -/
theorem backup_runs_at_once :
    ([backup, firstTick].flatMap readings).Pairwise (· ≤ ·) ∧
      ¬ DispatchedWhenDue hourly [backup, firstTick] := by
  refine ⟨by decide, fun h => ?_⟩
  have hfresh := ((recurringJustified_run (running_init (by decide))).mp h.recurring).2.2.1
  have hrow : (step hourly init backup).rows = [⟨1, some "0 0 * * * *", none, ["backup"], none,
      none, true, none, none, halfPast, none⟩] := by rfl
  obtain ⟨t, ⟨_, _, _, _, _, _, hfull⟩, hlow, hhigh⟩ :=
    hfresh _ (by rw [hrow]; exact List.mem_singleton_self _) rfl rfl rfl
      ⟨hour, ⟨_, (), rfl, rfl, by decide, by decide, Int.dvd_refl hour⟩, by decide, by decide⟩
  simp only [halfPast, hour] at hlow hhigh hfull
  omega

end Zshrs.Daemon.Schedule
