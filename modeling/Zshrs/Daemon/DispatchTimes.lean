import Zshrs.Daemon.Schedule
import Mathlib.Data.List.Nodup
import Mathlib.Data.List.Induction
import Mathlib.Algebra.Group.Int.Defs

namespace Zshrs.Daemon.Schedule

open Json Lib.Runs

variable {cron : Cron}

@[simp] theorem Row.fired_id (row : Row) (now : Int) (jobId : Nat) :
    (row.fired now jobId).id = row.id := rfl

@[simp] theorem Row.fired_createdAt (row : Row) (now : Int) (jobId : Nat) :
    (row.fired now jobId).createdAt = row.createdAt := rfl

@[simp] theorem Row.fired_lastRunNs (row : Row) (now : Int) (jobId : Nat) :
    (row.fired now jobId).lastRunNs = some now := rfl

@[simp] theorem Row.fired_fireAtNs (row : Row) (now : Int) (jobId : Nat) :
    (row.fired now jobId).fireAtNs = row.fireAtNs := rfl

theorem Row.fired_fired (row : Row) (now : Int) (jobId : Nat) :
    (row.fired now jobId).fired now jobId = row.fired now jobId := by
  simp only [Row.fired]
  split <;> rfl

/-- What a tick makes of one row of the table. -/
def Row.ticked (cron : Cron) (now : Int) (submit : Nat → Nat) (row : Row) : Row :=
  if row.enabled && row.due cron now then row.fired now (submit row.id) else row

theorem fireRow_fold_log (now : Int) (submit : Nat → Nat) (todo : List Row) (s : State) :
    (todo.foldl (fireRow cron now submit) s).log =
      s.log ++ (todo.filter (Row.due cron · now)).map (dispatch now submit) := by
  induction todo generalizing s with
  | nil => simp
  | cons row todo ih =>
      rw [List.foldl_cons, ih]
      by_cases hd : row.due cron now <;> simp [fireRow, hd]

theorem fireRow_fold_seq (now : Int) (submit : Nat → Nat) (todo : List Row) (s : State) :
    (todo.foldl (fireRow cron now submit) s).seq = s.seq := by
  induction todo generalizing s with
  | nil => rfl
  | cons row todo ih =>
      rw [List.foldl_cons, ih]
      by_cases hd : row.due cron now <;> simp [fireRow, hd]

open Classical in
theorem fireRow_fold_rows (now : Int) (submit : Nat → Nat) (todo : List Row) (s : State) :
    (todo.foldl (fireRow cron now submit) s).rows = s.rows.map (fun r =>
      if ∃ row ∈ todo, row.due cron now = true ∧ r.id = row.id then r.fired now (submit r.id) else r) := by
  induction todo generalizing s with
  | nil => simp
  | cons row todo ih =>
      rw [List.foldl_cons, ih]
      by_cases hd : row.due cron now = true
      · simp only [fireRow, hd, if_true, List.map_map]
        refine List.map_congr_left (fun r _ => ?_)
        by_cases hr : r.id = row.id
        · have hone : ∃ row' ∈ row :: todo, row'.due cron now = true ∧ r.id = row'.id :=
            ⟨row, List.mem_cons_self, hd, hr⟩
          rw [if_pos hone]
          simp only [Function.comp_apply, if_pos hr, Row.fired_id]
          split
          · exact Row.fired_fired r now _
          · rfl
        · simp only [Function.comp_apply, hr, if_false]
          refine if_congr ?_ rfl rfl
          simp [hr]
      · simp only [fireRow, hd]
        refine List.map_congr_left (fun r _ => if_congr ?_ rfl rfl)
        simp [hd]

theorem tickOnce_rows {s : State} (hid : (s.rows.map Row.id).Nodup) (now : Int)
    (submit : Nat → Nat) : (tickOnce cron s now submit).rows = s.rows.map (Row.ticked cron now submit) := by
  rw [tickOnce, fireRow_fold_rows]
  refine List.map_congr_left (fun r hr => if_congr ?_ rfl rfl)
  simp only [Bool.and_eq_true, List.mem_filter]
  constructor
  · rintro ⟨row, ⟨hm, he⟩, hd, hi⟩
    obtain rfl : r = row := List.inj_on_of_nodup_map hid hr hm hi
    exact ⟨he, hd⟩
  · rintro ⟨he, hd⟩
    exact ⟨r, ⟨hr, he⟩, hd, rfl⟩

theorem tickOnce_log (s : State) (now : Int) (submit : Nat → Nat) :
    (tickOnce cron s now submit).log =
      s.log ++ (s.rows.filter (fun r => r.enabled && r.due cron now)).map (dispatch now submit) := by
  rw [tickOnce, fireRow_fold_log, List.filter_filter]
  simp only [Bool.and_comm]

theorem tickOnce_seq (s : State) (now : Int) (submit : Nat → Nat) :
    (tickOnce cron s now submit).seq = s.seq := fireRow_fold_seq _ _ _ _

/-- A row as `schedule_add` or `schedule_add_once` makes it. -/
structure Added (row : Nat → Row) (now : Int) : Prop where
  id : ∀ n, (row n).id = n
  createdAt : ∀ n, (row n).createdAt = now
  lastRunNs : ∀ n, (row n).lastRunNs = none

/-- Everything an event can do. -/
theorem step_cases (cron : Cron) (s : State) (e : Event) :
    step cron s e = s ∨
    (∃ row now, now ∈ readings e ∧ Added row now ∧ step cron s e = insert s row) ∨
    (∃ id, step cron s e = removeRow s id) ∨
    (∃ now submit, e = .tick now submit ∧ step cron s e = tickOnce cron s now submit) := by
  cases e with
  | add args now =>
      simp only [step, opScheduleAdd]
      cases (args.get "cron_expr").bind Value.asStr with
      | none => exact Or.inl rfl
      | some expr =>
          dsimp only
          cases cron.fromStr (normalizeCron expr) with
          | error e => exact Or.inl rfl
          | ok sched =>
              dsimp only
              cases argvArg args with
              | error e => exact Or.inl rfl
              | ok command =>
                  dsimp only
                  refine Or.inr (Or.inl ⟨_, now, by simp [readings], ?_, rfl⟩)
                  exact ⟨fun _ => rfl, fun _ => rfl, fun _ => rfl⟩
  | addOnce args check now =>
      simp only [step, opScheduleAddOnce]
      cases (args.get "fire_at_unix_secs").bind Value.asI64 with
      | none => exact Or.inl rfl
      | some secs =>
          dsimp only
          split
          · exact Or.inl rfl
          · cases argvArg args with
            | error e => exact Or.inl rfl
            | ok command =>
                dsimp only
                refine Or.inr (Or.inl ⟨_, now, by simp [readings], ?_, rfl⟩)
                exact ⟨fun _ => rfl, fun _ => rfl, fun _ => rfl⟩
  | remove args =>
      simp only [step, opScheduleRemove]
      cases (args.get "id").bind Value.asI64 with
      | none => exact Or.inl rfl
      | some id => exact Or.inr (Or.inr (Or.inl ⟨id, rfl⟩))
  | tick now submit => exact Or.inr (Or.inr (Or.inr ⟨now, submit, rfl, rfl⟩))

def Row.firesAt (cron : Cron) (row : Row) (t : Int) : Prop :=
  ∃ expr sched, row.cronExpr = some expr ∧ cron.fromStr expr = .ok sched ∧ cron.fires sched t

theorem le_timestampNanos {t : Int} (h : t < 2 ^ 63) : t ≤ (timestampNanosOpt t).getD i64Max := by
  by_cases hin : i64Min ≤ t ∧ t ≤ i64Max
  · simp [timestampNanosOpt, if_pos hin]
  · rw [timestampNanosOpt, if_neg hin]
    exact Int.le_sub_one_of_lt h

theorem Row.due_oneShot {row : Row} {now at' : Int} (hf : row.fireAtNs = some at') :
    row.due cron now = true ↔ row.lastRunNs = none ∧ at' ≤ now := by
  simp [Row.due, rowDue, hf]

theorem Row.fire_of_due {row : Row} {now : Int} (hf : row.fireAtNs = none)
    (hd : row.due cron now = true) :
    ∃ t, row.firesAt cron t ∧ row.lastRunNs.getD 0 < t ∧ t ≤ now := by
  simp only [Row.due, rowDue, hf] at hd
  cases he : row.cronExpr with
  | none => simp [he] at hd
  | some expr =>
      simp only [he] at hd
      cases hs : cron.fromStr expr with
      | error e => simp [hs] at hd
      | ok sched =>
          simp only [hs] at hd
          cases ha : cron.after sched (row.lastRunNs.getD 0) with
          | none => simp [ha] at hd
          | some next =>
              obtain ⟨hfire, hlt, _⟩ := cron.after_some _ _ _ ha
              have hbound := le_timestampNanos (cron.fires_lt _ _ hfire)
              simp only [ha] at hd
              have hle := of_decide_eq_true hd
              exact ⟨next, ⟨expr, sched, he, hs, hfire⟩, hlt, Int.le_trans hbound hle⟩

theorem Row.due_of_fire {row : Row} {now t : Int} (hf : row.fireAtNs = none)
    (hnew : row.lastRunNs = none) (hfire : row.firesAt cron t) (hpos : 0 < t) (ht : t ≤ now) :
    row.due cron now = true := by
  obtain ⟨expr, sched, he, hs, hfire⟩ := hfire
  simp only [Row.due, rowDue, hf, he, hs, hnew, Option.getD_none]
  cases ha : cron.after sched 0 with
  | none => exact absurd (cron.after_none _ _ ha t hfire) (by omega)
  | some next =>
      obtain ⟨hnext, hlt, hleast⟩ := cron.after_some _ _ _ ha
      have hle := hleast t hfire hpos
      have hbound := cron.fires_lt _ _ hnext
      have hin : i64Min ≤ next ∧ next ≤ i64Max := by
        simp only [i64Min, i64Max]
        omega
      simp only [timestampNanosOpt, if_pos hin, Option.getD_some, decide_eq_true_eq]
      omega

/-- The time of the last job a log holds for a row. -/
def lastDispatch (log : List Dispatch) (id : Nat) : Option Int :=
  log.foldl (fun last d => if d.row.id = id then some d.nowNs else last) none

@[simp] theorem lastDispatch_nil (id : Nat) : lastDispatch [] id = none := rfl

theorem lastDispatch_concat (log : List Dispatch) (d : Dispatch) (id : Nat) :
    lastDispatch (log ++ [d]) id = if d.row.id = id then some d.nowNs else lastDispatch log id := by
  simp [lastDispatch, List.foldl_append]

theorem lastDispatch_eq_none {log : List Dispatch} {id : Nat} :
    lastDispatch log id = none ↔ ∀ d ∈ log, d.row.id ≠ id := by
  induction log using List.reverseRecOn with
  | nil => simp
  | append_singleton log d ih =>
      rw [lastDispatch_concat]
      split
      · simp_all
      · rename_i hne
        simp only [ih, List.mem_append, List.mem_singleton]
        constructor
        · rintro h d' (hd' | rfl)
          · exact h d' hd'
          · exact hne
        · exact fun h d' hd' => h d' (Or.inl hd')

theorem lastDispatch_append_of_ne {log more : List Dispatch} {id : Nat}
    (hmore : ∀ d ∈ more, d.row.id ≠ id) : lastDispatch (log ++ more) id = lastDispatch log id := by
  induction more using List.reverseRecOn with
  | nil => simp
  | append_singleton more d ih =>
      rw [← List.append_assoc, lastDispatch_concat, if_neg (hmore d (by simp))]
      exact ih (fun d' hd' => hmore d' (List.mem_append_left _ hd'))

theorem lastDispatch_dispatched (log : List Dispatch) (now : Int) (submit : Nat → Nat)
    {batch : List Row} {row : Row} (hrow : row ∈ batch) :
    lastDispatch (log ++ batch.map (dispatch now submit)) row.id = some now := by
  induction batch using List.reverseRecOn with
  | nil => simp at hrow
  | append_singleton batch r ih =>
      rw [List.map_append, ← List.append_assoc, List.map_singleton, lastDispatch_concat]
      split
      · rfl
      · rename_i hne
        rcases List.mem_append.mp hrow with hin | hin
        · exact ih hin
        · obtain rfl := List.mem_singleton.mp hin
          exact absurd rfl hne

/-- The expression fires after both the creation and the last dispatch of the row. -/
def Justified (cron : Cron) (before : List Dispatch) (d : Dispatch) : Prop :=
  ∃ t, d.row.firesAt cron t ∧ d.row.createdAt < t ∧
    (∀ l ∈ lastDispatch before d.row.id, l < t) ∧ t ≤ d.nowNs

def RecurringJustified (cron : Cron) (log : List Dispatch) : Prop :=
  ∀ before d rest, log = before ++ d :: rest → d.row.fireAtNs = none → Justified cron before d

theorem recurringJustified_concat {log : List Dispatch} {d : Dispatch} :
    RecurringJustified cron (log ++ [d]) ↔
      RecurringJustified cron log ∧ (d.row.fireAtNs = none → Justified cron log d) := by
  constructor
  · intro h
    refine ⟨fun before d' rest hsplit => ?_, h log d [] rfl⟩
    exact h before d' (rest ++ [d]) (by simp [hsplit])
  · rintro ⟨hlog, hd⟩ before d' rest hsplit hrec
    rcases List.eq_nil_or_concat rest with rfl | ⟨rest, last, rfl⟩
    · obtain ⟨rfl, hlast⟩ := List.append_inj' hsplit rfl
      cases hlast
      exact hd hrec
    · rw [List.concat_eq_append, ← List.cons_append, ← List.append_assoc] at hsplit
      obtain ⟨rfl, _⟩ := List.append_inj' hsplit rfl
      exact hlog before d' rest rfl hrec

theorem recurringJustified_dispatched {log : List Dispatch} {batch : List Row} {now : Int}
    {submit : Nat → Nat} (hid : (batch.map Row.id).Nodup) :
    RecurringJustified cron (log ++ batch.map (dispatch now submit)) ↔
      RecurringJustified cron log ∧
        ∀ row ∈ batch, row.fireAtNs = none → Justified cron log (dispatch now submit row) := by
  induction batch using List.reverseRecOn with
  | nil => simp
  | append_singleton batch r ih =>
      rw [List.map_append, List.nodup_append] at hid
      obtain ⟨hid, _, hne⟩ := hid
      have hsame : lastDispatch (log ++ batch.map (dispatch now submit)) r.id =
          lastDispatch log r.id := by
        apply lastDispatch_append_of_ne
        intro d hd
        obtain ⟨row, hrow, rfl⟩ := List.mem_map.mp hd
        exact hne _ (List.mem_map_of_mem hrow) _ (by simp)
      have hlast : Justified cron (log ++ batch.map (dispatch now submit)) (dispatch now submit r) ↔
          Justified cron log (dispatch now submit r) := by
        simp only [Justified]
        rw [show (dispatch now submit r).row.id = r.id from rfl, hsame]
      rw [List.map_append, ← List.append_assoc, List.map_singleton, recurringJustified_concat,
        ih hid, hlast]
      simp only [List.mem_append, List.mem_singleton]
      constructor
      · rintro ⟨⟨hlog, hbatch⟩, hr⟩
        refine ⟨hlog, ?_⟩
        rintro row (hrow | rfl)
        · exact hbatch row hrow
        · exact hr
      · rintro ⟨hlog, hall⟩
        exact ⟨⟨hlog, fun row hrow => hall row (Or.inl hrow)⟩, hall r (Or.inr rfl)⟩

/-- One-shot rows run at most once, and not before their time. -/
structure OneShots (log : List Dispatch) : Prop where
  once : ((log.filter (fun d => d.row.fireAtNs.isSome)).map (fun d => d.row.id)).Nodup
  notEarly : ∀ d ∈ log, ∀ at' ∈ d.row.fireAtNs, at' ≤ d.nowNs

theorem OneShots.dispatched {log : List Dispatch} (h : OneShots log) {batch : List Row} {now : Int}
    {submit : Nat → Nat} (hid : (batch.map Row.id).Nodup)
    (hnew : ∀ row ∈ batch, row.fireAtNs.isSome → ∀ d ∈ log, d.row.id ≠ row.id)
    (hdue : ∀ row ∈ batch, ∀ at' ∈ row.fireAtNs, at' ≤ now) :
    OneShots (log ++ batch.map (dispatch now submit)) := by
  refine ⟨?_, ?_⟩
  · rw [List.filter_append, List.map_append, List.nodup_append]
    refine ⟨h.once, ?_, ?_⟩
    · rw [List.filter_map, List.map_map]
      exact (List.filter_sublist.map Row.id).nodup hid
    · intro a ha b hb
      obtain ⟨d, hd, rfl⟩ := List.mem_map.mp ha
      obtain ⟨d', hd', rfl⟩ := List.mem_map.mp hb
      obtain ⟨hmem, hone⟩ := List.mem_filter.mp hd'
      obtain ⟨row, hrow, rfl⟩ := List.mem_map.mp hmem
      exact hnew row hrow hone d (List.mem_filter.mp hd).1
  · intro d hd at' hat
    rcases List.mem_append.mp hd with hd | hd
    · exact h.notEarly d hd at' hat
    · obtain ⟨row, hrow, rfl⟩ := List.mem_map.mp hd
      exact hdue row hrow at' hat

end Zshrs.Daemon.Schedule
