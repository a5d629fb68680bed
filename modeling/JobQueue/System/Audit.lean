import JobQueue.Library.Journal
import JobQueue.Model.AuditLog
import JobQueue.System.Requests

/-!
# The system with its audit trail

A row of `job_logs` is added to the transaction that writes the row of `jobs`, so the two are
committed by one step. Claims, renewals, progress reports, promotions, reaping and the cleanup
of keys add none. `auditedStep` is the step of the system together with the table `job_logs`,
in the order of the commits.
-/

namespace JobQueue

open Relational Transition Journal

variable {settings : Settings} {s s' s₀ : State} {a : Action} {tr : List (State × Action)}
  {j : UUID} {row row' : Job} {e : JobLog}

/-! ## The rows a step commits -/

/-- The row of `job_logs` that the transaction committed by a step has added. -/
def logged (s : State) : Action → Option JobLog
  | .worker w .start =>
      match (s.workers w).executor with
      | .claimed m => some (jobStartedLog w m)
      | _ => none
  | .worker w .commit =>
      match (s.workers w).executor with
      | .finalising m => some (outcomeLog m)
      | _ => none
  | .api c .commit =>
      match s.calls c with
      | .inserted jobId job =>
          if violates s.store.jobs jobId job then none else some (jobCreatedLog jobId job)
      | .cancelling m => some (jobCancelledLog m.id)
      | .retrying m => some (manualRetryLog m.id m.current)
      | _ => none
  | _ => none

def auditRows (s : State) (a : Action) : List JobLog := (logged s a).toList

/-- The step of the system with the table `job_logs`. -/
def auditedStep (settings : Settings) : State × List JobLog → Action → Option (State × List JobLog) :=
  journaled (step settings) auditRows

/-- The steps that write a row, each with its row. -/
inductive Logs (s : State) : Action → JobLog → Prop
  | start {w m} (hclaimed : (s.workers w).executor = .claimed m) :
      Logs s (.worker w .start) (jobStartedLog w m)
  | outcome {w m} (hfinalising : (s.workers w).executor = .finalising m) :
      Logs s (.worker w .commit) (outcomeLog m)
  | create {c jobId job} (hcall : s.calls c = .inserted jobId job)
      (hok : violates s.store.jobs jobId job = false) :
      Logs s (.api c .commit) (jobCreatedLog jobId job)
  | cancel {c m} (hcancelling : s.calls c = .cancelling m) :
      Logs s (.api c .commit) (jobCancelledLog m.id)
  | retry {c m} (hretrying : s.calls c = .retrying m) :
      Logs s (.api c .commit) (manualRetryLog m.id m.current)

theorem logged_iff : logged s a = some e ↔ Logs s a e := by
  constructor
  · intro h
    unfold logged at h
    split at h
    · split at h
      · rename_i hclaimed
        cases h
        exact .start hclaimed
      · cases h
    · split at h
      · rename_i hfinalising
        cases h
        exact .outcome hfinalising
      · cases h
    · split at h
      · rename_i hcall
        split at h
        · cases h
        · rename_i hok
          cases h
          exact .create hcall (Bool.eq_false_of_not_eq_true hok)
      · rename_i hcancelling
        cases h
        exact .cancel hcancelling
      · rename_i hretrying
        cases h
        exact .retry hretrying
      · cases h
    · cases h
  · intro h
    cases h with
    | start hclaimed => simp [logged, hclaimed]
    | outcome hfinalising => simp [logged, hfinalising]
    | create hcall hok => simp [logged, hcall, hok]
    | cancel hcancelling => simp [logged, hcancelling]
    | retry hretrying => simp [logged, hretrying]

theorem mem_auditRows : e ∈ auditRows s a ↔ Logs s a e := by
  rw [← logged_iff]
  exact Option.mem_toList

theorem auditRows_of_logs (h : Logs s a e) : auditRows s a = [e] := by
  rw [auditRows, logged_iff.mpr h]
  rfl

@[simp] theorem jobId_outcomeLog (m : Mapped) : (outcomeLog m).jobId = m.id := by
  unfold outcomeLog
  split <;> rfl

theorem status_outcomeLog {w : WorkerId} {m : Mapped} (hshaped : s.Shaped settings)
    (hfinalising : (s.workers w).executor = .finalising m) :
    (outcomeLog m).status = some m.current.status := by
  unfold outcomeLog
  rcases finalising_status hshaped hfinalising with h | h | h <;> simp [h]

/-! ## What happens to a job without a row in the trail -/

/-- A move that is not on record: a promotion, a claim, a reaped attempt. -/
def JobStatus.drifts : JobStatus → JobStatus → Bool
  | .scheduled, .pending | .pending, .processing | .processing, .pending => true
  | status, status' => status = status'

/-- Where a job may be by now when the last status on record is `recorded`. -/
def JobStatus.leadsTo (recorded status : JobStatus) : Bool :=
  status = recorded ∨
    ((recorded = .scheduled ∨ recorded = .pending) ∧ (status = .pending ∨ status = .processing))

theorem JobStatus.drifts_self (status : JobStatus) : status.drifts status = true := by
  cases status <;> rfl

theorem JobStatus.leadsTo_self (status : JobStatus) : status.leadsTo status = true := by
  simp [JobStatus.leadsTo]

theorem JobStatus.leadsTo_drift {recorded status status' : JobStatus}
    (hrecorded : recorded ≠ .processing) (h : recorded.leadsTo status = true)
    (hdrift : status.drifts status' = true) : recorded.leadsTo status' = true := by
  revert h hdrift
  cases recorded with
  | processing => exact absurd rfl hrecorded
  | scheduled | pending | completed | failed | cancelled =>
    cases status <;> cases status' <;> decide

/-- Without a row of the trail about it a job drifts, with the limit it has. -/
theorem silent_step (hshaped : s.Shaped settings) (hstep : step settings s a = some s')
    (hrow : s.row j = some row) (hrow' : s'.row j = some row')
    (hsilent : ∀ e ∈ auditRows s a, e.jobId ≠ j) :
    row.status.drifts row'.status = true ∧ row'.maxAttempts = row.maxAttempts := by
  refine ⟨?_, ?_⟩
  · obtain ⟨row₁, hrow₁, hcase⟩ := row_step hstep hrow
    rw [hrow'] at hrow₁
    cases hrow₁
    rcases hcase with rfl | hchange
    · exact JobStatus.drifts_self _
    · cases hchange with
      | claim _ _ hready =>
        show row.status.drifts .processing = true
        rw [(Job.ready_iff.mp hready).1]
        rfl
      | @report w pct m _ hexecuting =>
        have hshape := hshaped.executor w
        rw [hexecuting] at hshape
        have hsame : ({ m with current := reportProgress pct m.current } : Mapped).current.status =
            m.loaded.status := by
          rw [← hshape.2]
          rfl
        have hstatus : ({ m with current := reportProgress pct m.current }.flush row).status =
            row.status := by
          simp only [Mapped.flush]
          rw [hsame, written_self]
        rw [hstatus]
        exact JobStatus.drifts_self _
      | finalise hfinalising hid =>
        exact absurd ((jobId_outcomeLog _).trans hid)
          (hsilent _ (mem_auditRows.mpr (.outcome hfinalising)))
      | cancel hcancelling hid =>
        exact absurd hid (hsilent _ (mem_auditRows.mpr (.cancel hcancelling)))
      | retry hretrying hid =>
        exact absurd hid (hsilent _ (mem_auditRows.mpr (.retry hretrying)))
      | promote _ hdue =>
        show row.status.drifts .pending = true
        rw [(Job.dueAt_iff.mp hdue).1]
        rfl
      | reap _ hexpired =>
        show row.status.drifts .pending = true
        rw [(Job.expired_iff.mp hexpired).1]
        rfl
      | renew | cleanup => exact JobStatus.drifts_self _
  · refine maxAttempts_step hshaped hstep hrow hrow' ?_
    by_contra h
    obtain ⟨c, m, rfl, hretrying, hid⟩ := reopens_iff.mp (Bool.eq_true_of_not_eq_false h)
    exact hsilent _ (mem_auditRows.mpr (.retry hretrying)) hid

end JobQueue
