import JobQueue.System.History

/-!
# What a job was submitted with

No statement after the `INSERT` writes the type, the payload, the priority, the time or the
creation time of a job, from whatever snapshot. So a row keeps its `Request` in every run
(`request_of_run`), and it is the one that was submitted (`submitted_of_run`).
-/

namespace JobQueue

open Relational Transition

variable {settings : Settings} {s s' s₀ : State} {a : Action} {tr : List (State × Action)}
  {j : UUID} {row row' : Job}

/-! ## The columns that stay -/

structure Request where
  jobType : JobType
  payload : Json
  priority : Int
  scheduledAt : Option Timestamp
  createdAt : Timestamp

def Job.request (job : Job) : Request where
  jobType := job.jobType
  payload := job.payload
  priority := job.priority
  scheduledAt := job.scheduledAt
  createdAt := job.createdAt

theorem applyFailure_request (now : Timestamp) (msg : String) (permanent : Bool) (job : Job) :
    (applyFailure settings now msg permanent job).request = job.request := by
  unfold applyFailure
  split <;> rfl

theorem flush_request (m : Mapped) (row : Job) (h : m.current.request = m.loaded.request) :
    (m.flush row).request = row.request := by
  simp only [Job.request, Request.mk.injEq] at h ⊢
  obtain ⟨htype, hpayload, hpriority, hscheduled, hcreated⟩ := h
  simp [Mapped.flush, htype, hpayload, hpriority, hscheduled, hcreated]

/-- No instance in flight has assigned one of these columns. -/
theorem finalising_request {w : WorkerId} {m : Mapped} (hshaped : s.Shaped settings)
    (hfinalising : (s.workers w).executor = .finalising m) :
    m.current.request = m.loaded.request := by
  have hshape := hshaped.executor w
  rw [hfinalising] at hshape
  rcases hshape.2 with ⟨clock, result, heq⟩ | ⟨clock, raised, heq⟩
  · rw [heq]
    rfl
  · rw [heq]
    exact applyFailure_request _ _ _ _

theorem request_step (hshaped : s.Shaped settings) (hstep : step settings s a = some s')
    (hrow : s.row j = some row) (hrow' : s'.row j = some row') : row'.request = row.request := by
  obtain ⟨row₁, hrow₁, hcase⟩ := row_step hstep hrow
  rw [hrow'] at hrow₁
  cases hrow₁
  rcases hcase with rfl | hchange
  · rfl
  · cases hchange with
    | @report w pct m _ hexecuting =>
      have hshape := hshaped.executor w
      rw [hexecuting] at hshape
      apply flush_request
      show (reportProgress pct m.current).request = m.loaded.request
      rw [hshape.2]
      rfl
    | finalise hfinalising => exact flush_request _ _ (finalising_request hshaped hfinalising)
    | @cancel c m _ hcancelling =>
      have hshape := hshaped.call c
      rw [hcancelling] at hshape
      apply flush_request
      rw [hshape.2]
      rfl
    | @retry c m _ hretrying =>
      have hshape := hshaped.call c
      rw [hretrying] at hshape
      obtain ⟨_, clock, heq⟩ := hshape
      apply flush_request
      rw [heq]
      rfl
    | claim | renew | promote | reap | cleanup => rfl

/-- A row stays, with its request. -/
theorem request_of_run (hquiet : s₀.Quiet) {tr₁ tr₂ : List (State × Action)}
    (hrun₁ : Run (step settings) s₀ tr₁ s) (hrun₂ : Run (step settings) s tr₂ s')
    (hrow : s.row j = some row) : ∃ row', s'.row j = some row' ∧ row'.request = row.request := by
  induction hrun₂ with
  | nil => exact ⟨row, hrow, rfl⟩
  | @snoc tr₂ t a t' hrun₂ hstep ih =>
    obtain ⟨row₁, hrow₁, hsame⟩ := ih
    obtain ⟨row₂, hrow₂, _⟩ := row_step hstep hrow₁
    have hshaped := shaped_of_run hquiet (hrun₁.append hrun₂)
    exact ⟨row₂, hrow₂, (request_step hshaped hstep hrow₁ hrow₂).trans hsame⟩

/-! ## The submission -/

/-- The commit of a `submit_job` that creates job `j`, with the row it inserts. -/
def submits (j : UUID) (e : State × Action) : Option Job :=
  match e.2 with
  | .api c .commit =>
      match e.1.calls c with
      | .inserted jobId job =>
          if jobId = j ∧ violates e.1.store.jobs jobId job = false then some job else none
      | _ => none
  | _ => none

theorem submits_iff {job : Job} : submits j (s, a) = some job ↔ ∃ c,
    a = .api c .commit ∧ s.calls c = .inserted j job ∧ violates s.store.jobs j job = false := by
  constructor
  · intro h
    unfold submits at h
    split at h
    · rename_i c heq
      split at h
      · rename_i jobId job' hcall
        split at h
        · rename_i hcond
          obtain ⟨rfl, hok⟩ := hcond
          cases h
          exact ⟨c, heq, hcall, hok⟩
        · cases h
      · cases h
    · cases h
  · rintro ⟨c, rfl, hcall, hok⟩
    simp [submits, hcall, hok]

theorem submits_row {job : Job} (hstep : step settings s a = some s')
    (h : submits j (s, a) = some job) : s.row j = none ∧ s'.row j = some job := by
  obtain ⟨c, rfl, hcall, hok⟩ := submits_iff.mp h
  have hnone : s.row j = none := by
    simp only [violates, Bool.or_eq_false_iff] at hok
    simpa [State.row] using hok.1.1.1.1
  refine ⟨hnone, ?_⟩
  cases api_move hstep with
  | commitRefused hinserted hviolates _ _ =>
    rw [hcall] at hinserted
    cases hinserted
    rw [hok] at hviolates
    cases hviolates
  | commitSubmit hinserted _ hstore _ =>
    rw [hcall] at hinserted
    cases hinserted
    rw [State.row, hstore]
    exact AList.lookup_insert _
  | commitCancel hcancelling _ _ | commitRetry hcancelling _ _ =>
    rw [hcall] at hcancelling
    cases hcancelling

/-- A job that is submitted in a run has, wherever it has a row, the request of its
submission. -/
theorem submitted_of_run (hquiet : s₀.Quiet) (hrun : Run (step settings) s₀ tr s)
    {e e' : State × Action} {job : Job} (he : e ∈ tr) (hsubmits : submits j e = some job)
    (he' : e' ∈ tr) (hrow : e'.1.row j = some row) : row.request = job.request := by
  obtain ⟨tr₁, tr₂, t, htr, hrun₁, ht, hrun₂⟩ := hrun.split_of_mem he
  obtain ⟨hnone, hnew⟩ := submits_row ht hsubmits
  obtain ⟨row₁, hlast, hfirst⟩ := request_of_run hquiet (hrun₁.snoc ht) hrun₂ hnew
  obtain ⟨tr₃, tr₄, t', htr', hrun₃, ht', hrun₄⟩ := hrun.split_of_mem he'
  obtain ⟨row₂, hlast', hsecond⟩ := request_of_run hquiet hrun₃
    ((Run.of_step ht').append hrun₄) hrow
  rw [hlast] at hlast'
  cases hlast'
  exact hsecond.symm.trans hfirst

end JobQueue
