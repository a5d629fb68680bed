import JobQueue.System.Attempts
import JobQueue.System.Requests

/-!
# The jobs that the parties name

A party names a job once it has seen its row: a worker from the claim that wins it, a call of
the API from its `SELECT` or its own insertion, the feeder and the reaper from theirs. Rows
are never deleted, so every job that is named has a row (`row_of_names`), whatever Redis
holds. A job that is no longer scheduled never is again (`released_step`).
-/

namespace JobQueue

open Relational Transition

variable {settings : Settings} {s s' s₀ : State} {a : Action} {tr : List (State × Action)}
  {j : UUID} {row row' : Job}

/-! ## Names -/

def Returned.jobId : Returned → UUID
  | .created jobId | .existing jobId | .cancelled jobId | .retried jobId => jobId

/-- The job a call is about, once it has found or committed its row. -/
def Call.job : Call → Option UUID
  | .pushing jobId _ | .removing jobId | .removingScheduled jobId | .clearing jobId => some jobId
  | .cancelling m | .retrying m => some m.id
  | .returned value => some value.jobId
  | .unused | .inserting _ _ _ | .inserted _ _ | .raised _ | .dropped => none

inductive State.Names (s : State) (j : UUID) : Prop
  | worker (w : WorkerId) (h : s.engaged w = some j)
  | call (c : Nat) (h : (s.calls c).job = some j)
  | feeder (h : j ∈ s.maintenance.feeder.map Prod.fst)
  | reaper (h : j ∈ s.maintenance.reaper)

theorem call_job_step {c : Nat} (hstep : step settings s a = some s')
    (h : (s'.calls c).job = some j) :
    (s.calls c).job = some j ∨ ∃ row, s'.row j = some row := by
  rcases call_move hstep c with ⟨_, hsame⟩ | ⟨b, rfl, hmove⟩
  · rw [hsame] at h
    exact Or.inl h
  · cases hmove with
    | submitInvalid _ _ _ hcall | submit _ _ _ _ hcall | insertRefused _ _ _ _ hcall
    | insert _ _ _ _ hcall | cancelMissing _ _ _ hcall | cancelRefused _ _ _ _ hcall
    | retryMissing _ _ _ hcall | retryRefused _ _ _ _ hcall | fault _ _ hcall
    | dropInserted _ _ hcall | drop _ _ hcall =>
      rw [hcall] at h
      cases h
    | submitExisting _ _ hfound hstore hcall =>
      rw [hcall] at h
      cases h
      obtain ⟨row, hrow, _⟩ := findJobByIdempotencyKey_some hfound
      exact Or.inr ⟨row, by rw [State.row, hstore]; exact hrow⟩
    | cancel _ hrow _ hstore hcall | manualRetry _ hrow _ hstore hcall =>
      rw [hcall] at h
      cases h
      exact Or.inr ⟨_, by rw [State.row, hstore]; exact hrow⟩
    | @commitRefused jobId job _ _ hstore hcall =>
      rcases hcall with ⟨existing, hbind, hcall⟩ | hcall
      · rw [hcall] at h
        cases h
        obtain ⟨key, _, hfound⟩ := Option.bind_eq_some_iff.mp hbind
        obtain ⟨row, hrow, _⟩ := findJobByIdempotencyKey_some hfound
        exact Or.inr ⟨row, by rw [State.row, hstore]; exact hrow⟩
      · rw [hcall] at h
        cases h
    | commitSubmit _ _ hstore hcall =>
      rw [hcall] at h
      cases h
      exact Or.inr ⟨_, by rw [State.row, hstore]; exact AList.lookup_insert _⟩
    | commitCancel hbefore _ hcall | commitRetry hbefore _ hcall | push hbefore _ hcall
    | removePending hbefore _ hcall | removeScheduled hbefore _ hcall | clear hbefore _ hcall =>
      rw [hcall] at h
      rw [hbefore]
      exact Or.inl h

/-- The feeder and the reaper name what their `SELECT` has returned. -/
theorem maintenance_names_step (hstep : step settings s a = some s')
    (h : j ∈ s'.maintenance.feeder.map Prod.fst ∨ j ∈ s'.maintenance.reaper) :
    (j ∈ s.maintenance.feeder.map Prod.fst ∨ j ∈ s.maintenance.reaper) ∨
      ∃ row, s'.row j = some row := by
  cases move_of_step hstep with
  | maintenance hmove _ _ =>
    cases hmove with
    | feederSelect hfeeder _ hstore hparty =>
      rw [hparty] at h
      rcases h with h | h
      · obtain ⟨_, row, hrow⟩ := mem_feederBatch.mp h
        exact Or.inr ⟨row, by rw [State.row, hstore]; exact hrow⟩
      · exact Or.inl (Or.inr h)
    | feederPush hfeeder _ hparty =>
      rw [hparty] at h
      left
      rw [hfeeder]
      exact h.imp (List.mem_cons_of_mem _) id
    | reaperSelect _ hsorts hstore hparty =>
      rw [hparty] at h
      rcases h with h | h
      · exact Or.inl (Or.inl h)
      · obtain ⟨row, hrow, _⟩ := hsorts.mem_iff.mp (List.mem_of_mem_take h)
        exact Or.inr ⟨row, by rw [State.row, hstore]; exact hrow⟩
    | reap hreaper _ _ hparty =>
      rw [hparty] at h
      left
      rw [hreaper]
      exact h.imp id (List.mem_cons_of_mem _)
    | restart _ hparty =>
      rw [hparty] at h
      simp at h
    | _ =>
      rename_i hparty
      rw [hparty] at h
      exact Or.inl h
  | worker _ _ _ hmaintenance | api _ _ _ hmaintenance | tick _ _ _ _ hmaintenance
  | tamper _ _ _ hmaintenance =>
    rw [hmaintenance] at h
    exact Or.inl h

/-- A job that is named after a step was named before, or its row is there. -/
theorem names_step (hstep : step settings s a = some s') (h : s'.Names j) :
    s.Names j ∨ ∃ row, s'.row j = some row := by
  cases h with
  | worker w h =>
    rcases engaged_step hstep h with h | ⟨hclaims, _⟩
    · exact Or.inl (.worker w h)
    · obtain ⟨_, _, _, _, _, _, _, _, hrow, _⟩ := claims_row hstep hclaims
      exact Or.inr ⟨_, hrow⟩
  | call c h => exact (call_job_step hstep h).imp (.call c) id
  | feeder h =>
    rcases maintenance_names_step hstep (Or.inl h) with (h | h) | h
    · exact Or.inl (.feeder h)
    · exact Or.inl (.reaper h)
    · exact Or.inr h
  | reaper h =>
    rcases maintenance_names_step hstep (Or.inr h) with (h | h) | h
    · exact Or.inl (.feeder h)
    · exact Or.inl (.reaper h)
    · exact Or.inr h

theorem State.Quiet.not_names (h : s.Quiet) : ¬ s.Names j := by
  intro hnames
  cases hnames with
  | worker w hw => simp [h.engaged w] at hw
  | call c hc => simp [h.calls c, Call.job] at hc
  | feeder hj => simp [h.maintenance] at hj
  | reaper hj => simp [h.maintenance] at hj

theorem row_of_names (hquiet : s₀.Quiet) (hrun : Run (step settings) s₀ tr s) (h : s.Names j) :
    ∃ row, s.row j = some row := by
  induction hrun with
  | nil => exact absurd h hquiet.not_names
  | snoc _ hstep ih =>
    rcases names_step hstep h with h | h
    · obtain ⟨row, hrow⟩ := ih h
      obtain ⟨row', hrow', _⟩ := row_step hstep hrow
      exact ⟨row', hrow'⟩
    · exact h

/-! ## Jobs that are no longer scheduled -/

/-- The job has a row, and it is not waiting for its time of submission. -/
def State.Released (s : State) (j : UUID) : Prop :=
  ∃ row, s.row j = some row ∧ row.status ≠ .scheduled

/-- No write of the program gives a row the status `scheduled`. -/
theorem released_step (hshaped : s.Shaped settings) (hstep : step settings s a = some s')
    (h : s.Released j) : s'.Released j := by
  obtain ⟨row, hrow, hstatus⟩ := h
  obtain ⟨row', hrow', hcase⟩ := row_step hstep hrow
  refine ⟨row', hrow', ?_⟩
  rcases hcase with rfl | hchange
  · exact hstatus
  · cases hchange with
    | claim | promote | reap => simp [Job.claim, Job.promote, Job.reap]
    | renew | cleanup => exact hstatus
    | @report w pct m _ hexecuting =>
      have hshape := hshaped.executor w
      rw [hexecuting] at hshape
      simp only [Mapped.flush]
      rw [hshape.2, reportProgress, written_self]
      exact hstatus
    | finalise hfinalising =>
      rw [finalising_flush_status hshaped hfinalising]
      rcases finalising_status hshaped hfinalising with h | h | h <;> simp [h]
    | cancel hcancelling => simp [cancelling_flush_status hshaped hcancelling]
    | retry hretrying => simp [retrying_flush_status hshaped hretrying]

end JobQueue
