import JobQueue.Model.Settings
import JobQueue.Model.Queue

/-!
# Feeder, scheduler and reaper

`promote_ready_jobs`, `promote_due_scheduled` and `reap_expired_leases`
(`app/worker/feeder.py`, `scheduler.py`, `reaper.py`), each as its statements and as the
whole cycle run without interference. A cycle takes the answer `order` its `SELECT` gets,
before the `LIMIT`; `now` is the database's `now()`.
-/

namespace JobQueue

open Relational

/-! ## Feeder -/

/-- `ORDER BY priority DESC, created_at ASC`. -/
def Job.feedsBefore (a b : Job) : Bool :=
  b.priority < a.priority ∨ (a.priority = b.priority ∧ a.createdAt ≤ b.createdAt)

/-- The detached jobs a feeder cycle holds: each id with its score. -/
def feederBatch (jobs : Jobs) (ids : List UUID) : List (UUID × Int) :=
  ids.filterMap fun id =>
    (jobs.lookup id).map fun job => (id, priorityScore job.priority job.createdAt)

/-- One pass of the feeder's loop over its batch, counting the new entries. -/
def feed (q : Redis) : List (UUID × Int) → Redis × Nat
  | [] => (q, 0)
  | (jobId, score) :: rest =>
      let added := q.enqueue jobId score true
      let fed := feed added.1 rest
      (fed.1, fed.2 + if added.2 then 1 else 0)

/-- Find ready pending jobs and add them to `jobs:pending`, at most `limit` a cycle. -/
def promoteReadyJobs (limit : Nat) (order : List UUID) (jobs : Jobs) (q : Redis) :
    Redis × Nat :=
  feed q (feederBatch jobs (order.take limit))

/-! ## Scheduler -/

/-- The scheduler's `SELECT` compares with the application's clock. -/
def Job.dueAt (moment : Timestamp) (job : Job) : Bool :=
  job.status = .scheduled ∧ ∃ t ∈ job.scheduledAt, t ≤ moment

def Job.scheduledBefore (a b : Job) : Bool :=
  match a.scheduledAt, b.scheduledAt with
  | some s, some t => s ≤ t
  | _, _ => true

/-- The row a promoted job leaves. -/
def Job.promote (job : Job) : Job := { job with status := .pending, nextRunAt := none }

/-- The conditional `UPDATE` of one candidate; it compares with the database's clock. -/
def promoteScheduled (jobs : Jobs) (now : Timestamp) (jobId : UUID) : Jobs × Option Job :=
  Table.updateWhere jobs jobId (Job.dueAt now) Job.promote

/-- One pass of the scheduler's loop over its candidates. A candidate that is not promoted is
dropped from `jobs:scheduled`. -/
def promoteAll (now : Timestamp) (jobs : Jobs) (q : Redis) : List UUID → Jobs × Redis × Nat
  | [] => (jobs, q, 0)
  | jobId :: rest =>
      match promoteScheduled jobs now jobId with
      | (_, none) => promoteAll now jobs (q.removeScheduled jobId) rest
      | (jobs, some job) =>
          let q := (q.removeScheduled jobId).enqueue jobId (priorityScore job.priority job.createdAt)
          let promoted := promoteAll now jobs q.1 rest
          (promoted.1, promoted.2.1, promoted.2.2 + 1)

/-- `dict.fromkeys([*redis_ids, *db_ids])`. -/
def candidates (redisIds dbIds : List UUID) : List UUID := (redisIds ++ dbIds).eraseDups

/-- Move due scheduled jobs to pending and enqueue them. -/
def promoteDueScheduled (limit : Nat) (moment now : Timestamp) (order : List UUID)
    (jobs : Jobs) (q : Redis) : Jobs × Redis × Nat :=
  promoteAll now jobs q (candidates (q.dueScheduled (timestamp moment) limit) (order.take limit))

/-! ## Reaper -/

/-- `status = 'processing' AND leased_until IS NOT NULL AND leased_until < now()`, the test
of the reaper's `SELECT` and of its `UPDATE`. -/
def Job.expired (now : Timestamp) (job : Job) : Bool :=
  job.status = .processing ∧ ∃ t ∈ job.leasedUntil, t < now

def Job.leasedBefore (a b : Job) : Bool :=
  match a.leasedUntil, b.leasedUntil with
  | some s, some t => s ≤ t
  | _, _ => true

/-- The row a reaped job leaves. -/
def Job.reap (job : Job) : Job :=
  { job with status := .pending, workerId := none, leasedUntil := none, nextRunAt := none }

/-- The conditional `UPDATE` of one expired id. -/
def reapOne (jobs : Jobs) (now : Timestamp) (jobId : UUID) : Jobs × Option Job :=
  Table.updateWhere jobs jobId (Job.expired now) Job.reap

/-- One pass of the reaper's loop over its ids, counting the reaped jobs. -/
def reapAll (now : Timestamp) (jobs : Jobs) : List UUID → Jobs × Nat
  | [] => (jobs, 0)
  | jobId :: rest =>
      let reaped := reapAll now (reapOne jobs now jobId).1 rest
      (reaped.1, reaped.2 + if (reapOne jobs now jobId).2.isSome then 1 else 0)

/-- Reset processing jobs whose lease has expired back to pending. -/
def reapExpiredLeases (limit : Nat) (now : Timestamp) (order : List UUID) (jobs : Jobs) :
    Jobs × Nat :=
  reapAll now jobs (order.take limit)

theorem Job.dueAt_iff {moment : Timestamp} {job : Job} :
    job.dueAt moment = true ↔
      job.status = .scheduled ∧ ∃ t, job.scheduledAt = some t ∧ t ≤ moment := by
  simp [Job.dueAt]

theorem Job.expired_iff {now : Timestamp} {job : Job} :
    job.expired now = true ↔
      job.status = .processing ∧ ∃ t, job.leasedUntil = some t ∧ t < now := by
  simp [Job.expired]

/-! ## Each `SELECT` has an answer -/

theorem exists_feeder_order (jobs : Jobs) (now : Timestamp) :
    ∃ order, Table.Sorts jobs (Job.ready now) Job.feedsBefore order := by
  refine Table.exists_sorts jobs _ ?_ ?_
  · intro a b
    simp only [Job.feedsBefore, decide_eq_true_eq]
    rcases lt_trichotomy a.priority b.priority with h | h | h
    · exact Or.inr (Or.inl h)
    · rcases le_total a.createdAt b.createdAt with h' | h'
      · exact Or.inl (Or.inr ⟨h, h'⟩)
      · exact Or.inr (Or.inr ⟨h.symm, h'⟩)
    · exact Or.inl (Or.inl h)
  · intro a b c hab hbc
    simp only [Job.feedsBefore, decide_eq_true_eq] at hab hbc ⊢
    rcases hab with hab | ⟨hab, hab'⟩
    · rcases hbc with hbc | ⟨hbc, _⟩ <;> left <;> omega
    · rcases hbc with hbc | ⟨hbc, hbc'⟩
      · left
        omega
      · exact Or.inr ⟨hab.trans hbc, hab'.trans hbc'⟩

theorem exists_scheduler_order (jobs : Jobs) (moment : Timestamp) :
    ∃ order, Table.Sorts jobs (Job.dueAt moment) Job.scheduledBefore order := by
  obtain ⟨order, horder⟩ :=
    Table.exists_sorts_by jobs (Job.dueAt moment) fun job => job.scheduledAt.getD 0
  refine ⟨order, horder.mono ?_⟩
  intro a b hab
  unfold Job.scheduledBefore
  split
  · rename_i ha hb
    simpa [ha, hb] using hab
  · rfl

theorem exists_reaper_order (jobs : Jobs) (now : Timestamp) :
    ∃ order, Table.Sorts jobs (Job.expired now) Job.leasedBefore order := by
  obtain ⟨order, horder⟩ :=
    Table.exists_sorts_by jobs (Job.expired now) fun job => job.leasedUntil.getD 0
  refine ⟨order, horder.mono ?_⟩
  intro a b hab
  unfold Job.leasedBefore
  split
  · rename_i ha hb
    simpa [ha, hb] using hab
  · rfl

/-! ## What a cycle does to the rows and to the queue -/

theorem promoteAll_jobs (now : Timestamp) (jobs : Jobs) (q : Redis) (ids : List UUID) :
    (promoteAll now jobs q ids).1 = Table.updateEach jobs ids (Job.dueAt now) Job.promote := by
  induction ids generalizing jobs q with
  | nil => rfl
  | cons jobId ids ih =>
    have hstep : Table.updateEach jobs (jobId :: ids) (Job.dueAt now) Job.promote =
        Table.updateEach (promoteScheduled jobs now jobId).1 ids (Job.dueAt now) Job.promote := rfl
    rw [hstep]
    unfold promoteAll
    split
    · rename_i jobs' heq
      have hsame : (promoteScheduled jobs now jobId).1 = jobs :=
        Table.updateWhere_of_returning_none (by rw [← promoteScheduled, heq])
      rw [hsame]
      exact ih jobs _
    · rename_i jobs' job heq
      rw [heq]
      exact ih jobs' _

theorem reapAll_jobs (now : Timestamp) (jobs : Jobs) (ids : List UUID) :
    (reapAll now jobs ids).1 = Table.updateEach jobs ids (Job.expired now) Job.reap := by
  induction ids generalizing jobs with
  | nil => rfl
  | cons jobId ids ih => exact ih _

/-- A scheduler cycle promotes its due candidates and changes no other row. -/
theorem lookup_promoteDueScheduled (limit : Nat) (moment now : Timestamp) (order : List UUID)
    (jobs : Jobs) (q : Redis) (j : UUID) :
    (promoteDueScheduled limit moment now order jobs q).1.lookup j =
      if j ∈ candidates (q.dueScheduled (timestamp moment) limit) (order.take limit) then
        (jobs.lookup j).map fun job => if job.dueAt now then job.promote else job
      else jobs.lookup j := by
  rw [promoteDueScheduled, promoteAll_jobs]
  refine Table.lookup_updateEach ?_ _ _ _
  intro job _
  simp [Job.dueAt, Job.promote]

/-- A reaper cycle reaps the expired jobs of its batch and changes no other row. -/
theorem lookup_reapExpiredLeases (limit : Nat) (now : Timestamp) (order : List UUID)
    (jobs : Jobs) (j : UUID) :
    (reapExpiredLeases limit now order jobs).1.lookup j =
      if j ∈ order.take limit then
        (jobs.lookup j).map fun job => if job.expired now then job.reap else job
      else jobs.lookup j := by
  rw [reapExpiredLeases, reapAll_jobs]
  refine Table.lookup_updateEach ?_ _ _ _
  intro job _
  simp [Job.expired, Job.reap]

theorem mem_candidates {redisIds dbIds : List UUID} {j : UUID} :
    j ∈ candidates redisIds dbIds ↔ j ∈ redisIds ∨ j ∈ dbIds := by
  simp [candidates]

theorem mem_feed {q : Redis} {batch : List (UUID × Int)} {j : UUID} :
    j ∈ (feed q batch).1.pending ↔ j ∈ q.pending ∨ j ∈ batch.map Prod.fst := by
  induction batch generalizing q with
  | nil => simp [feed]
  | cons e batch ih =>
    obtain ⟨jobId, score⟩ := e
    simp only [feed, ih, Redis.mem_enqueue, List.map_cons, List.mem_cons]
    tauto

theorem lookup_feed_of_lookup {q : Redis} {batch : List (UUID × Int)} {j : UUID} {r : ℚ}
    (h : q.pending.lookup j = some r) : (feed q batch).1.pending.lookup j = some r := by
  induction batch generalizing q with
  | nil => exact h
  | cons e batch ih => exact ih (SortedSet.lookup_zadd_nx h)

/-- A new entry has the score that the batch gives it. -/
theorem lookup_feed {q : Redis} {batch : List (UUID × Int)} {j : UUID} {score : Int}
    (hnew : j ∉ q.pending) (hmem : (j, score) ∈ batch)
    (hunique : ∀ score', (j, score') ∈ batch → score' = score) :
    (feed q batch).1.pending.lookup j = some (Binary64.round score) := by
  induction batch generalizing q with
  | nil => cases hmem
  | cons e batch ih =>
    obtain ⟨jobId, score'⟩ := e
    by_cases hj : j = jobId
    · subst hj
      rw [← hunique score' List.mem_cons_self]
      have hhead : (q.enqueue j score' true).1.pending.lookup j =
          some (Binary64.round score') := SortedSet.lookup_zadd_new hnew
      change (feed (q.enqueue j score' true).1 batch).1.pending.lookup j = _
      exact lookup_feed_of_lookup hhead
    · refine ih ?_ ?_ fun score' h => hunique score' (List.mem_cons_of_mem _ h)
      · rw [Redis.mem_enqueue, not_or]
        exact ⟨hj, hnew⟩
      · exact (List.mem_cons.mp hmem).resolve_left (by simp [hj])

theorem mem_feederBatch {jobs : Jobs} {ids : List UUID} {j : UUID} :
    j ∈ (feederBatch jobs ids).map Prod.fst ↔ j ∈ ids ∧ ∃ job, jobs.lookup j = some job := by
  simp only [feederBatch, List.mem_map, List.mem_filterMap, Option.map_eq_some_iff]
  constructor
  · rintro ⟨_, ⟨id, hid, job, hjob, rfl⟩, rfl⟩
    exact ⟨hid, job, hjob⟩
  · rintro ⟨hj, job, hjob⟩
    exact ⟨_, ⟨j, hj, job, hjob, rfl⟩, rfl⟩

end JobQueue
