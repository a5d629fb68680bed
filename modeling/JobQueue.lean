import JobQueue.System.Ownership
import JobQueue.System.Rows
import JobQueue.Guarantees.Fencing
import JobQueue.Guarantees.Cancellation
import JobQueue.Guarantees.ManualRetry
import JobQueue.Guarantees.Exclusion
import JobQueue.Guarantees.Budget
import JobQueue.Guarantees.Recovery
import JobQueue.Guarantees.Submission
import JobQueue.System.Keys
import JobQueue.Guarantees.Rebuild
import JobQueue.Guarantees.RetryContract
import JobQueue.Library.Exceptions
import JobQueue.Model.Process
import JobQueue.Guarantees.Containment
import JobQueue.System.Sessions
import JobQueue.System.Turns
import JobQueue.Guarantees.Faults
import JobQueue.Guarantees.Schedule
import JobQueue.Guarantees.Window
import JobQueue.Guarantees.Accounting
import JobQueue.Guarantees.Fields
import JobQueue.Guarantees.DeadLetters
import JobQueue.Guarantees.LeaseHolder
import JobQueue.Guarantees.Priority
import JobQueue.Guarantees.Survival
import JobQueue.Guarantees.Promotion
import JobQueue.Guarantees.Dispatch
import JobQueue.Guarantees.Reaping
import JobQueue.Guarantees.Reopening
import JobQueue.Model.Batch
import JobQueue.Guarantees.Progress
import JobQueue.Guarantees.Pagination
import JobQueue.Guarantees.Liveness
import JobQueue.Library.Journal
import JobQueue.Model.AuditLog
import JobQueue.System.Audit
import JobQueue.Guarantees.Indexing
import JobQueue.Guarantees.AuditTrail
import JobQueue.Guarantees.AttemptTrail
import JobQueue.Guarantees.Executor
import JobQueue.Library.Routes
import JobQueue.System.Passages
import JobQueue.Guarantees.Conservation
import JobQueue.System.Custody
import JobQueue.System.Processes
import JobQueue.Guarantees.Shutdown
import JobQueue.Guarantees.Custody
import JobQueue.System.Draining
import JobQueue.Guarantees.Completion
import JobQueue.Model.Handlers
import JobQueue.Model.Schemas
import JobQueue.Guarantees.Outcomes
import JobQueue.Guarantees.Leases
import JobQueue.Guarantees.Listing
import JobQueue.Guarantees.Health
import JobQueue.Guarantees.LeaseBound
