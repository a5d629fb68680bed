import JobQueue.Library.SortedSet
import JobQueue.Library.Binary64
import JobQueue.Model.Job

/-!
# The Redis dispatch layer

The keys and scores of `app/queue/keys.py` and the commands of `QueueClient`
(`app/queue/client.py`) that concern jobs. The members of the sorted sets and of the list
are the texts of job ids; they are given by the ids.
-/

namespace JobQueue

/-! ## Scores -/

/-- `datetime.max`, the last microsecond of the year 9999. -/
def datetimeMax : Timestamp := 253402300799999999

/-- `datetime.timestamp()`: microseconds divided by a million, as a double. -/
def timestamp (t : Timestamp) : ℚ := Binary64.round (t / 1000000)

def priorityScale : Int := 10 ^ 12

/-- `int(created_at.timestamp() * 1000)`. -/
def createdAtEpochMs (createdAt : Timestamp) : Int :=
  Binary64.truncate (Binary64.round (timestamp createdAt * 1000))

def priorityScore (priority : Int) (createdAt : Timestamp) : Int :=
  -priority * priorityScale + createdAtEpochMs createdAt

def deadLetterMaxLen : Nat := 1000

theorem timestamp_nonneg {t : Timestamp} (h : 0 ≤ t) : 0 ≤ timestamp t := by
  refine Binary64.round_nonneg (div_nonneg ?_ (by norm_num))
  exact_mod_cast h

theorem createdAtEpochMs_nonneg {t : Timestamp} (h : 0 ≤ t) : 0 ≤ createdAtEpochMs t := by
  have hscaled : 0 ≤ timestamp t * 1000 := mul_nonneg (timestamp_nonneg h) (by norm_num)
  exact (Binary64.truncate_bounds (Binary64.round_nonneg hscaled)).1

/-- The two roundings leave the milliseconds in their order of magnitude. -/
theorem createdAtEpochMs_le {t : Timestamp} (h : 0 ≤ t) : 250 * createdAtEpochMs t ≤ t := by
  have hscaled : 0 ≤ timestamp t * 1000 := mul_nonneg (timestamp_nonneg h) (by norm_num)
  have hfirst : timestamp t ≤ 2 * (t / 1000000) :=
    Binary64.round_le_two_mul (div_nonneg (by exact_mod_cast h) (by norm_num))
  have hms : (createdAtEpochMs t : ℚ) ≤ 2 * (timestamp t * 1000) :=
    (Binary64.truncate_bounds (Binary64.round_nonneg hscaled)).2.trans
      (Binary64.round_le_two_mul hscaled)
  have hbound : 250 * (createdAtEpochMs t : ℚ) ≤ t := by linarith
  exact_mod_cast hbound

theorem createdAtEpochMs_mono {t t' : Timestamp} (h : 0 ≤ t) (hle : t ≤ t') :
    createdAtEpochMs t ≤ createdAtEpochMs t' := by
  have hseconds : timestamp t ≤ timestamp t' := by
    refine Binary64.round_mono (div_nonneg (by exact_mod_cast h) (by norm_num)) ?_
    exact div_le_div_of_nonneg_right (by exact_mod_cast hle) (by norm_num)
  have hscaled : 0 ≤ timestamp t * 1000 := mul_nonneg (timestamp_nonneg h) (by norm_num)
  refine Binary64.truncate_mono (Binary64.round_nonneg hscaled) (Binary64.round_mono hscaled ?_)
  exact mul_le_mul_of_nonneg_right hseconds (by norm_num)

/-- A score is an integer that a double holds. -/
theorem abs_priorityScore_lt {priority : Int} {createdAt : Timestamp} (hlow : -1000 ≤ priority)
    (hhigh : priority ≤ 1000) (h : 0 ≤ createdAt) (hle : createdAt ≤ datetimeMax) :
    |priorityScore priority createdAt| < 2 ^ 53 := by
  have hms := createdAtEpochMs_nonneg h
  have hyear : 250 * createdAtEpochMs createdAt ≤ 253402300799999999 :=
    (createdAtEpochMs_le h).trans hle
  rw [abs_lt, priorityScore, priorityScale]
  constructor <;> omega

/-- The milliseconds do not reach the next priority. -/
theorem priorityScore_lt {priority priority' : Int} {createdAt createdAt' : Timestamp}
    (hpriority : priority < priority')
    (hapart : createdAtEpochMs createdAt' - createdAtEpochMs createdAt < 10 ^ 12) :
    priorityScore priority' createdAt' < priorityScore priority createdAt := by
  unfold priorityScore priorityScale
  omega

/-! ## Commands -/

structure Redis where
  /-- `jobs:pending` -/
  pending : SortedSet UUID := ∅
  /-- `jobs:scheduled` -/
  scheduled : SortedSet UUID := ∅
  /-- `jobs:dead_letter`, newest first -/
  deadLetters : List UUID := []

namespace Redis

/-- Add a job to `jobs:pending`; with `nx` only if it is not already there. The score
becomes a double in Redis. -/
def enqueue (q : Redis) (jobId : UUID) (score : Int) (nx : Bool := false) : Redis × Bool :=
  let added := q.pending.zadd jobId (Binary64.round score) nx
  ({ q with pending := added.1 }, added.2)

def schedule (q : Redis) (jobId : UUID) (runAt : Timestamp) : Redis :=
  { q with scheduled := (q.scheduled.zadd jobId (timestamp runAt) false).1 }

/-- Pop the member of `jobs:pending` with the lowest score. -/
def dequeue (q : Redis) : Redis × Option UUID :=
  ({ q with pending := q.pending.zpopmin.1 }, q.pending.zpopmin.2)

def dueScheduled (q : Redis) (now : ℚ) (limit : Nat) : List UUID :=
  q.scheduled.zrangebyscore now limit

def removePending (q : Redis) (jobId : UUID) : Redis :=
  { q with pending := q.pending.zrem jobId }

def removeScheduled (q : Redis) (jobId : UUID) : Redis :=
  { q with scheduled := q.scheduled.zrem jobId }

/-- The two commands of `QueueClient.remove`, one after the other. -/
def remove (q : Redis) (jobId : UUID) : Redis := (q.removePending jobId).removeScheduled jobId

/-- `LPUSH` and `LTRIM` in one pipeline. -/
def deadLetter (q : Redis) (jobId : UUID) : Redis :=
  { q with deadLetters := (jobId :: q.deadLetters).take deadLetterMaxLen }

/-- `LREM key 0 member`: every occurrence. -/
def removeDeadLetter (q : Redis) (jobId : UUID) : Redis :=
  { q with deadLetters := q.deadLetters.filter (· ≠ jobId) }

/-! ## What a command leaves alone -/

variable {q : Redis} {id id' : UUID} {score : Int} {nx : Bool}

theorem mem_enqueue : id' ∈ (q.enqueue id score nx).1.pending ↔ id' = id ∨ id' ∈ q.pending :=
  SortedSet.mem_zadd

theorem lookup_enqueue_of_some {r : ℚ}
    (h : (q.enqueue id score nx).1.pending.lookup id' = some r) :
    q.pending.lookup id' = some r ∨ (id' = id ∧ r = Binary64.round score) :=
  SortedSet.lookup_zadd_of_some h

/-- Every id that is read is a member with a score up to `now`. -/
theorem lookup_of_mem_dueScheduled {now : ℚ} {limit : Nat} (h : id ∈ q.dueScheduled now limit) :
    ∃ r, q.scheduled.lookup id = some r ∧ r ≤ now :=
  SortedSet.lookup_of_mem_zrangebyscore h

/-- The ids that are read are the first `limit` of these members: one that is not read comes
after them. -/
theorem dueScheduled_first {now r : ℚ} {limit : Nat} (h : q.scheduled.lookup id = some r)
    (hdue : r ≤ now) (hout : id ∉ q.dueScheduled now limit) :
    (q.dueScheduled now limit).length = limit ∧ ∀ id' ∈ q.dueScheduled now limit, ∀ r',
      q.scheduled.lookup id' = some r' → r' < r ∨ (r' = r ∧ id' ≤ id) :=
  SortedSet.zrangebyscore_first h hdue hout

theorem dequeue_some (h : q.dequeue.2 = some id) :
    id ∈ q.pending ∧ q.dequeue.1 = { q with pending := q.pending.erase id } := by
  obtain ⟨hmem, heq⟩ := SortedSet.zpopmin_some h
  exact ⟨hmem, by simp [dequeue, heq]⟩

theorem lookup_dequeue_of_some {r : ℚ} (h : q.dequeue.1.pending.lookup id = some r) :
    q.pending.lookup id = some r := by
  change q.pending.zpopmin.1.lookup id = some r at h
  cases hpop : q.pending.zpopmin.2 with
  | none => rwa [SortedSet.zpopmin_of_none hpop] at h
  | some a =>
    rw [(SortedSet.zpopmin_some hpop).2] at h
    exact SortedSet.lookup_erase_of_some h

theorem dequeue_none_iff : q.dequeue.2 = none ↔ ∀ id, id ∉ q.pending := SortedSet.zpopmin_none_iff

theorem dequeue_of_none (h : q.dequeue.2 = none) : q.dequeue.1 = q := by
  simp [dequeue, SortedSet.zpopmin_of_none h]

end Redis

end JobQueue
