import JobQueue.Library.LoopGroup

/-!
# The loops of the maintenance process

`app/maintenance/__main__.py` awaits four loops with one `asyncio.gather`. Each of them is a
`while not stop.is_set()` around its calls and `wait_or_stop`. What the calls do to the
stores is `Model/Maintenance.lean`; here a call succeeds or raises.
-/

namespace JobQueue

open LoopGroup

/-- The calls of the loops that may raise a database or a Redis exception. -/
inductive CycleCall
  | promoteReadyJobs
  | promoteDueScheduled
  | nextScheduledScore
  | reapExpiredLeases
  | runCleanupOnce
  deriving DecidableEq

def runFeederLoop : Loop CycleCall where
  calls := [.promoteReadyJobs]

def runSchedulerLoop : Loop CycleCall where
  calls := [.promoteDueScheduled, .nextScheduledScore]

def runReaperLoop : Loop CycleCall where
  calls := [.reapExpiredLeases]

/-- The only loop with a `try`: `except Exception` logs and goes on with the wait. -/
def runIdempotencyCleanupLoop : Loop CycleCall where
  calls := [.runCleanupOnce]
  guarded := true

inductive MaintenanceLoop
  | feeder | scheduler | reaper | cleanup
  deriving DecidableEq

instance fintype_maintenanceLoop : Fintype MaintenanceLoop where
  elems := {.feeder, .scheduler, .reaper, .cleanup}
  complete l := by cases l <;> decide

/-- The arguments of `gather`. -/
def maintenanceLoops : MaintenanceLoop → Loop CycleCall
  | .feeder => runFeederLoop
  | .scheduler => runSchedulerLoop
  | .reaper => runReaperLoop
  | .cleanup => runIdempotencyCleanupLoop

instance nonempty_maintenanceLoop : Nonempty MaintenanceLoop := ⟨.feeder⟩

end JobQueue
