import JobQueue.Model.Heartbeats
import JobQueue.Model.Queue
import JobQueue.Model.Worker

/-!
# The health endpoint

`GET /health` checks both stores and reports the jobs by status, the depths of the Redis
structures and the workers that are alive. What a store that is down would have told is left
out of the report.
-/

namespace JobQueue

/-! ## Checks and counts -/

def checkDatabase (select : Except PyException Unit) : Bool :=
  match select with
  | .ok _ => true
  | .error _ => false

def checkRedis (ping : Except PyException Bool) : Bool :=
  match ping with
  | .ok answered => answered
  | .error _ => false

/-- The enumeration, in the order of its members. -/
def JobStatus.members : List JobStatus :=
  [.scheduled, .pending, .processing, .completed, .failed, .cancelled]

/-- A `dict[str, int]`. -/
abbrev Counts := AList fun _ : String => Nat

/-- `{status.value: 0 for status in JobStatus}` -/
def noCounts : Counts :=
  JobStatus.members.foldl (fun counts status => counts.insert status.value 0) ∅

/-- The counts for every status, where `rows` is the answer to the `SELECT … GROUP BY`. -/
def jobCountsByStatus (rows : List (JobStatus × Nat)) : Counts :=
  rows.foldl (fun counts row => counts.insert row.1.value row.2) noCounts

namespace Redis

def pendingDepth (q : Redis) : Nat := q.pending.zcard

def scheduledDepth (q : Redis) : Nat := q.scheduled.zcard

def deadLetterDepth (q : Redis) : Nat := q.deadLetters.length

end Redis

/-! ## The report -/

structure QueueStats where
  pendingDepth : Option Nat := none
  scheduledDepth : Option Nat := none
  deadLetterDepth : Option Nat := none

structure WorkerStats where
  aliveCount : Option Nat := none
  /-- Each with the time `last_seen_at`. -/
  alive : Option (List (WorkerId × ℚ)) := none

structure JobCounts where
  pending : Nat
  processing : Nat
  failed : Nat
  scheduled : Nat
  completed : Nat
  cancelled : Nat

/-- The dictionary of the report; there is none if a key is missing. -/
def JobCounts.ofCounts (jobs : Counts) : Option JobCounts := do
  let pending ← jobs.lookup "pending"
  let processing ← jobs.lookup "processing"
  let failed ← jobs.lookup "failed"
  let scheduled ← jobs.lookup "scheduled"
  let completed ← jobs.lookup "completed"
  let cancelled ← jobs.lookup "cancelled"
  return { pending, processing, failed, scheduled, completed, cancelled }

structure HealthPayload where
  status : String
  database : String
  redis : String
  queue : QueueStats
  workers : WorkerStats
  jobs : JobCounts

/-- What the statements and commands of `build_health_payload` are answered. -/
structure HealthReads where
  select : Except PyException Unit
  ping : Except PyException Bool
  rows : List (JobStatus × Nat)
  pendingDepth : Nat
  scheduledDepth : Nat
  deadLetterDepth : Nat
  alive : List (WorkerId × ℚ)

def buildHealthPayload (reads : HealthReads) : Option (HealthPayload × Bool) := do
  let dbOk := checkDatabase reads.select
  let redisOk := checkRedis reads.ping
  let jobs ← JobCounts.ofCounts (if dbOk then jobCountsByStatus reads.rows else noCounts)
  let queue : QueueStats :=
    if redisOk then
      { pendingDepth := some reads.pendingDepth
        scheduledDepth := some reads.scheduledDepth
        deadLetterDepth := some reads.deadLetterDepth }
    else {}
  let workers : WorkerStats :=
    if redisOk then { aliveCount := some reads.alive.length, alive := some reads.alive } else {}
  let healthy := dbOk && redisOk
  return ({
    status := if healthy then "ok" else "unavailable"
    database := if dbOk then "ok" else "error"
    redis := if redisOk then "ok" else "error"
    queue, workers, jobs }, healthy)

/-- The status code and the content of the response. -/
def health (reads : HealthReads) : Option (Nat × HealthPayload) := do
  let (payload, healthy) ← buildHealthPayload reads
  return (if healthy then 200 else 503, payload)

/-! ## Looking up the counts -/

theorem JobStatus.value_injective : Function.Injective JobStatus.value := by
  intro status status' h
  cases status <;> cases status' <;> first | rfl | (exact absurd h (by decide))

theorem lookup_noCounts (status : JobStatus) : noCounts.lookup status.value = some 0 := by
  cases status <;> decide

/-- A name that is not set again keeps its count. -/
theorem lookup_foldl_of_not_mem {counts : Counts} {rows : List (JobStatus × Nat)}
    {status : JobStatus} (h : status ∉ rows.map Prod.fst) :
    (rows.foldl (fun counts row => counts.insert row.1.value row.2) counts).lookup status.value =
      counts.lookup status.value := by
  induction rows generalizing counts with
  | nil => rfl
  | cons row rows ih =>
    rw [List.map_cons, List.mem_cons, not_or] at h
    rw [List.foldl_cons, ih h.2, AList.lookup_insert_ne]
    intro heq
    exact h.1 (JobStatus.value_injective heq)

theorem lookup_jobCountsByStatus {rows : List (JobStatus × Nat)} {status : JobStatus} {n : Nat}
    (hnodup : (rows.map Prod.fst).Nodup) (h : (status, n) ∈ rows) :
    (jobCountsByStatus rows).lookup status.value = some n := by
  unfold jobCountsByStatus
  generalize noCounts = counts
  induction rows generalizing counts with
  | nil => cases h
  | cons row rows ih =>
    rw [List.map_cons, List.nodup_cons] at hnodup
    rw [List.foldl_cons]
    rcases List.mem_cons.mp h with rfl | h
    · rw [lookup_foldl_of_not_mem hnodup.1, AList.lookup_insert]
    · exact ih hnodup.2 h _

theorem lookup_jobCountsByStatus_of_not_mem {rows : List (JobStatus × Nat)} {status : JobStatus}
    (h : status ∉ rows.map Prod.fst) :
    (jobCountsByStatus rows).lookup status.value = some 0 := by
  rw [jobCountsByStatus, lookup_foldl_of_not_mem h, lookup_noCounts]

/-- A count that is there stays there. -/
theorem isSome_lookup_foldl {counts : Counts} {name : String} (rows : List (JobStatus × Nat))
    (h : (counts.lookup name).isSome) :
    ((rows.foldl (fun counts row => counts.insert row.1.value row.2) counts).lookup name).isSome := by
  induction rows generalizing counts with
  | nil => exact h
  | cons row rows ih =>
    rw [List.foldl_cons]
    apply ih
    by_cases heq : name = row.1.value
    · rw [heq, AList.lookup_insert]
      rfl
    · rw [AList.lookup_insert_ne heq]
      exact h

/-- Whatever a store that is up or down answers, there is a report: no key is missing. Its code
is 200 if both checks succeed and 503 otherwise. -/
theorem health_answers (reads : HealthReads) : ∃ payload, health reads =
    some (if checkDatabase reads.select && checkRedis reads.ping then 200 else 503, payload) := by
  obtain ⟨counts, hcounts⟩ : ∃ counts, counts =
      if checkDatabase reads.select then jobCountsByStatus reads.rows else noCounts := ⟨_, rfl⟩
  have hlookup : ∀ status : JobStatus, ∃ n, counts.lookup status.value = some n := by
    intro status
    rw [← Option.isSome_iff_exists, hcounts]
    split
    · exact isSome_lookup_foldl _ (by simp [lookup_noCounts])
    · simp [lookup_noCounts]
  obtain ⟨_, hpending⟩ := hlookup .pending
  obtain ⟨_, hprocessing⟩ := hlookup .processing
  obtain ⟨_, hfailed⟩ := hlookup .failed
  obtain ⟨_, hscheduled⟩ := hlookup .scheduled
  obtain ⟨_, hcompleted⟩ := hlookup .completed
  obtain ⟨_, hcancelled⟩ := hlookup .cancelled
  simp only [JobStatus.value] at hpending hprocessing hfailed hscheduled hcompleted hcancelled
  simp [health, buildHealthPayload, JobCounts.ofCounts, ← hcounts, hpending, hprocessing, hfailed,
    hscheduled, hcompleted, hcancelled]

end JobQueue
