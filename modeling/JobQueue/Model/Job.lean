import JobQueue.Library.Relational
import Mathlib.Data.Rat.Cast.Order

/-!
# The jobs table and its ORM instances

`Job` is a row of the table `jobs` (`app/db/schema.sql`, `app/db/models.py`) without its
primary key: a table maps ids to rows. The column `error_details` and the table `job_logs`
are left out, since no function reads them.

`Mapped` is an ORM instance of a session with `autoflush` and `expire_on_commit` off
(`app/db/session.py`). It remembers the values it was loaded with, and its flush writes the
attributes whose value has changed since, by primary key and whatever the row holds now.
-/

namespace JobQueue

open Relational

/-! ## JSON documents -/

/-- A JSON document. -/
inductive Json
  | null
  | bool (b : Bool)
  | int (n : Int)
  | real (q : ℚ)
  | str (s : String)
  | arr (items : List Json)
  | obj (fields : List (String × Json))

mutual

def Json.decEq : (a b : Json) → Decidable (a = b)
  | .null, .null => isTrue rfl
  | .bool a, .bool b => decidable_of_iff (a = b) (by simp)
  | .int a, .int b => decidable_of_iff (a = b) (by simp)
  | .real a, .real b => decidable_of_iff (a = b) (by simp)
  | .str a, .str b => decidable_of_iff (a = b) (by simp)
  | .arr a, .arr b =>
      have := Json.decEqItems a b
      decidable_of_iff (a = b) (by simp)
  | .obj a, .obj b =>
      have := Json.decEqFields a b
      decidable_of_iff (a = b) (by simp)
  | .null, .bool _ | .null, .int _ | .null, .real _ | .null, .str _ | .null, .arr _
  | .null, .obj _ | .bool _, .null | .bool _, .int _ | .bool _, .real _ | .bool _, .str _
  | .bool _, .arr _ | .bool _, .obj _ | .int _, .null | .int _, .bool _ | .int _, .real _
  | .int _, .str _ | .int _, .arr _ | .int _, .obj _ | .real _, .null | .real _, .bool _
  | .real _, .int _ | .real _, .str _ | .real _, .arr _ | .real _, .obj _ | .str _, .null
  | .str _, .bool _ | .str _, .int _ | .str _, .real _ | .str _, .arr _ | .str _, .obj _
  | .arr _, .null | .arr _, .bool _ | .arr _, .int _ | .arr _, .real _ | .arr _, .str _
  | .arr _, .obj _ | .obj _, .null | .obj _, .bool _ | .obj _, .int _ | .obj _, .real _
  | .obj _, .str _ | .obj _, .arr _ => isFalse (by simp)

def Json.decEqItems : (a b : List Json) → Decidable (a = b)
  | [], [] => isTrue rfl
  | [], _ :: _ => isFalse (by simp)
  | _ :: _, [] => isFalse (by simp)
  | a :: as, b :: bs =>
      have := Json.decEq a b
      have := Json.decEqItems as bs
      decidable_of_iff (a = b ∧ as = bs) (by simp)

def Json.decEqFields : (a b : List (String × Json)) → Decidable (a = b)
  | [], [] => isTrue rfl
  | [], _ :: _ => isFalse (by simp)
  | _ :: _, [] => isFalse (by simp)
  | (k, a) :: as, (l, b) :: bs =>
      have := Json.decEq a b
      have := Json.decEqFields as bs
      decidable_of_iff ((k = l ∧ a = b) ∧ as = bs) (by simp)

end

instance : DecidableEq Json := Json.decEq

/-! ## Rows -/

/-- A job id. The canonical text of a UUID has a fixed width, so the order of the texts is
the order of the numbers. -/
abbrev UUID := Fin (2 ^ 128)

instance neZero_uuid : NeZero (2 ^ 128) := ⟨by decide⟩

/-- Microseconds since the epoch, the resolution of `TIMESTAMPTZ` and of `datetime`. -/
abbrev Timestamp := Int

abbrev WorkerId := String

inductive JobStatus
  | scheduled | pending | processing | completed | failed | cancelled
  deriving DecidableEq, Repr

/-- The value of the enumeration, as stored and as shown to clients. -/
def JobStatus.value : JobStatus → String
  | .scheduled => "scheduled"
  | .pending => "pending"
  | .processing => "processing"
  | .completed => "completed"
  | .failed => "failed"
  | .cancelled => "cancelled"

inductive JobType
  | email | webhook | report | batch
  deriving DecidableEq, Repr

structure Job where
  jobType : JobType
  payload : Json
  status : JobStatus
  priority : Int
  attemptCount : Nat
  maxAttempts : Nat
  errorMessage : Option String
  progressPct : Int
  scheduledAt : Option Timestamp
  nextRunAt : Option Timestamp
  idempotencyKey : Option String
  workerId : Option WorkerId
  leasedUntil : Option Timestamp
  result : Option Json
  createdAt : Timestamp
  startedAt : Option Timestamp
  completedAt : Option Timestamp
  deriving DecidableEq

abbrev Jobs := Table UUID Job

/-- The test the feeder and `claim_job` make of a row: `status = 'pending'` and
`next_run_at IS NULL OR next_run_at <= now()`. -/
def Job.ready (now : Timestamp) (job : Job) : Bool :=
  job.status = .pending ∧ ∀ t ∈ job.nextRunAt, t ≤ now

theorem Job.ready_iff {now : Timestamp} {job : Job} :
    job.ready now = true ↔ job.status = .pending ∧ ∀ t, job.nextRunAt = some t → t ≤ now := by
  simp [Job.ready]

/-! ## ORM instances -/

/-- The value a column holds after the flush of an instance that loaded `loaded` and now
has `current`, where the row holds `stored`. -/
def written {β : Type} [DecidableEq β] (loaded current stored : β) : β :=
  if current = loaded then stored else current

@[simp] theorem written_self {β : Type} [DecidableEq β] (loaded stored : β) :
    written loaded loaded stored = stored := by
  simp [written]

theorem written_of_ne {β : Type} [DecidableEq β] {loaded current : β} (stored : β)
    (h : current ≠ loaded) : written loaded current stored = current := by
  simp [written, h]

/-- An instance whose snapshot is fresh leaves its own value. -/
@[simp] theorem written_fresh {β : Type} [DecidableEq β] (stored current : β) :
    written stored current stored = current := by
  unfold written
  split
  · rename_i h
    exact h.symm
  · rfl

/-- A persistent instance of `Job`: its primary key, the attribute values of its last load
or flush, and the values it has now. -/
structure Mapped where
  id : UUID
  loaded : Job
  current : Job
  deriving DecidableEq

/-- The row after `UPDATE jobs SET <changed attributes> WHERE id = …`. -/
def Mapped.flush (m : Mapped) (row : Job) : Job where
  jobType := written m.loaded.jobType m.current.jobType row.jobType
  payload := written m.loaded.payload m.current.payload row.payload
  status := written m.loaded.status m.current.status row.status
  priority := written m.loaded.priority m.current.priority row.priority
  attemptCount := written m.loaded.attemptCount m.current.attemptCount row.attemptCount
  maxAttempts := written m.loaded.maxAttempts m.current.maxAttempts row.maxAttempts
  errorMessage := written m.loaded.errorMessage m.current.errorMessage row.errorMessage
  progressPct := written m.loaded.progressPct m.current.progressPct row.progressPct
  scheduledAt := written m.loaded.scheduledAt m.current.scheduledAt row.scheduledAt
  nextRunAt := written m.loaded.nextRunAt m.current.nextRunAt row.nextRunAt
  idempotencyKey := written m.loaded.idempotencyKey m.current.idempotencyKey row.idempotencyKey
  workerId := written m.loaded.workerId m.current.workerId row.workerId
  leasedUntil := written m.loaded.leasedUntil m.current.leasedUntil row.leasedUntil
  result := written m.loaded.result m.current.result row.result
  createdAt := written m.loaded.createdAt m.current.createdAt row.createdAt
  startedAt := written m.loaded.startedAt m.current.startedAt row.startedAt
  completedAt := written m.loaded.completedAt m.current.completedAt row.completedAt

/-- An instance that loaded the row writes its own values. -/
theorem Mapped.flush_loaded (m : Mapped) : m.flush m.loaded = m.current := by
  simp [Mapped.flush]

/-- The instance after its flush is committed: `expire_on_commit` is off, so it keeps its
values and counts them as loaded. -/
def Mapped.flushed (m : Mapped) : Mapped := { m with loaded := m.current }

/-- The instance a query returns for a row. -/
def Mapped.load (id : UUID) (row : Job) : Mapped := ⟨id, row, row⟩

/-- `session.commit()` with the instance as the only dirty one. -/
def Jobs.flush (jobs : Jobs) (m : Mapped) : Jobs :=
  (Table.updateWhere jobs m.id (fun _ => true) m.flush).1

theorem Jobs.lookup_flush (jobs : Jobs) (m : Mapped) (j : UUID) :
    (jobs.flush m).lookup j =
      if j = m.id then (jobs.lookup m.id).map m.flush else jobs.lookup j := by
  simp [Jobs.flush, Table.lookup_updateWhere]

end JobQueue
