import JobQueue.Guarantees.Priority
import JobQueue.System.References

/-!
# What Redis holds

PostgreSQL commits first and Redis is only told afterwards, so without interference Redis
never holds a job that the table does not have (`redis_follows_table`): what is in
`jobs:pending`, or has just been popped from it, is a job that is no longer scheduled; an
entry of `jobs:scheduled` has the time of its row as its score; and an id in the dead-letter
list has failed for good. What has happened to the job since is another matter.
-/

namespace JobQueue

open Relational Transition

variable {settings : Settings} {now : Timestamp} {s s' : State} {a : Action}
  {tr : List (State × Action)} {j : UUID} {row row' : Job} {r : ℚ}

/-! ## Jobs on their way into Redis -/

/-- A call that is about to dispatch its job has committed the row, and the row keeps the
request. A job without a time of its own is not scheduled. -/
def DispatchedAs (s : State) (j : UUID) (job : Job) : Prop :=
  (∃ row, s.row j = some row ∧ row.scheduledAt = job.scheduledAt) ∧
    (job.scheduledAt = none → s.Released j)

theorem dispatchedAs_step {job : Job} (hshaped : s.Shaped settings)
    (hstep : step settings s a = some s') (h : DispatchedAs s j job) : DispatchedAs s' j job := by
  obtain ⟨⟨row, hrow, hat⟩, hreleased⟩ := h
  obtain ⟨row', hrow', _⟩ := row_step hstep hrow
  have hrequest := request_step hshaped hstep hrow hrow'
  have hsame : row'.scheduledAt = row.scheduledAt := congrArg Request.scheduledAt hrequest
  exact ⟨⟨row', hrow', hsame.trans hat⟩, fun hnone => released_step hshaped hstep (hreleased hnone)⟩

/-- The commit of a submission. -/
theorem dispatchedAs_new {c : Nat} {job : Job} (hshaped : s.Shaped settings)
    (hstep : step settings s a = some s') (h : s'.calls c = .pushing j job) :
    s.calls c = .pushing j job ∨ DispatchedAs s' j job := by
  rcases call_move hstep c with ⟨_, hsame⟩ | ⟨b, rfl, hmove⟩
  · rw [hsame] at h
    exact Or.inl h
  · rw [h] at hmove
    cases hmove with
    | commitSubmit hinserted _ hstore hcall =>
      cases hcall
      have hrow' : s'.row j = some job := by
        rw [State.row, hstore]
        exact AList.lookup_insert _
      have hshape := hshaped.call c
      rw [hinserted] at hshape
      obtain ⟨_, data, key, t, rfl⟩ := hshape
      refine Or.inr ⟨⟨_, hrow', rfl⟩, ?_⟩
      intro hnone
      refine ⟨_, hrow', ?_⟩
      have hunscheduled : data.scheduledAt = none := hnone
      simp [newJob, hunscheduled]
    | commitRefused _ _ _ hcall => simp at hcall
    | _ =>
      rename_i hcall
      cases hcall

/-- The feeder selects pending jobs. -/
theorem feeder_released (hstep : step settings s a = some s')
    (h : j ∈ s'.maintenance.feeder.map Prod.fst) :
    j ∈ s.maintenance.feeder.map Prod.fst ∨ s'.Released j := by
  cases move_of_step hstep with
  | maintenance hmove _ _ =>
    cases hmove with
    | feederSelect _ hsorts hstore hparty =>
      rw [hparty] at h
      obtain ⟨hmem, _⟩ := mem_feederBatch.mp h
      obtain ⟨row, hrow, hready⟩ := hsorts.mem_iff.mp (List.mem_of_mem_take hmem)
      refine Or.inr ⟨row, by rw [State.row, hstore]; exact hrow, ?_⟩
      simp [(Job.ready_iff.mp hready).1]
    | feederPush hfeeder _ hparty =>
      rw [hparty] at h
      rw [hfeeder]
      exact Or.inl (List.mem_cons_of_mem _ h)
    | restart _ hparty =>
      rw [hparty] at h
      simp at h
    | _ =>
      rename_i hparty
      rw [hparty] at h
      exact Or.inl h
  | worker _ _ _ hmaintenance | api _ _ _ hmaintenance | tick _ _ _ _ hmaintenance
  | tamper _ _ _ hmaintenance =>
    rw [hmaintenance] at h
    exact Or.inl h

/-- The scheduler enqueues what it has promoted. -/
theorem scheduler_released {score : Int} (hstep : step settings s a = some s')
    (h : s'.maintenance.scheduler.sends = some (j, score)) :
    s.maintenance.scheduler.sends = some (j, score) ∨ s'.Released j := by
  cases move_of_step hstep with
  | maintenance hmove _ _ =>
    cases hmove with
    | @promote _ _ _ row _ _ _ _ hstore hparty =>
      rw [hparty] at h
      cases h
      refine Or.inr ⟨row.promote, ?_, by simp [Job.promote]⟩
      rw [State.row, hstore]
      exact AList.lookup_insert _
    | remove hremoving _ hparty =>
      rw [hparty] at h
      rw [hremoving]
      exact Or.inl h
    | schedulerRead _ _ hparty | schedulerSelect _ _ _ hparty | schedulerDone _ _ hparty
    | pass _ _ _ _ hparty | dropStale _ _ hparty | enqueue _ _ hparty | restart _ hparty =>
      rw [hparty] at h
      cases h
    | _ =>
      rename_i hparty
      rw [hparty] at h
      exact Or.inl h
  | worker _ _ _ hmaintenance | api _ _ _ hmaintenance | tick _ _ _ _ hmaintenance
  | tamper _ _ _ hmaintenance =>
    rw [hmaintenance] at h
    exact Or.inl h

/-! ## The entries of Redis -/

/-- A member of `jobs:pending` after a step was there, or the step sends it. -/
theorem mem_pending_step (hstep : step settings s a = some s') (hown : ∀ q, a ≠ .tamper q)
    (h : j ∈ s'.store.redis.pending) :
    j ∈ s.store.redis.pending ∨ ∃ score, enqueues (s, a) = some (j, score) := by
  obtain ⟨r, hr⟩ := Option.isSome_iff_exists.mp (AList.lookup_isSome.mpr h)
  rcases pending_step hstep hown hr with hbefore | ⟨score, hsent, _⟩
  · exact Or.inl (AList.lookup_isSome.mp (Option.isSome_iff_exists.mpr ⟨r, hbefore⟩))
  · exact Or.inr ⟨score, hsent⟩

theorem popped_step {w : WorkerId} (hstep : step settings s a = some s')
    (h : (s'.workers w).executor = .popped j) :
    (s.workers w).executor = .popped j ∨ j ∈ s.store.redis.pending := by
  rcases worker_move hstep w with ⟨_, hsame⟩ | ⟨b, rfl, hmove⟩
  · rw [hsame] at h
    exact Or.inl h
  · cases hmove with
    | pop _ hpop _ hworker =>
      rw [hworker] at h
      cases h
      exact Or.inr (Redis.dequeue_some hpop).1
    | empty _ _ _ hworker | beat _ _ _ hworker | rest _ _ _ hworker | renew _ _ hworker
    | settle _ _ hworker =>
      rw [hworker] at h
      exact Or.inl h
    | _ =>
      rename_i hworker
      rw [hworker] at h
      cases h

/-- A score in `jobs:scheduled` was there, or is the time of a job that is dispatched. -/
theorem scheduled_step (hstep : step settings s a = some s') (hown : ∀ q, a ≠ .tamper q)
    (h : s'.store.redis.scheduled.lookup j = some r) :
    s.store.redis.scheduled.lookup j = some r ∨
      ∃ c job t, s.calls c = .pushing j job ∧ job.scheduledAt = some t ∧ r = timestamp t := by
  cases move_of_step hstep with
  | worker hmove _ _ _ =>
    cases hmove
    all_goals
      rename_i hstore _
      rw [hstore] at h
      exact Or.inl h
  | api hmove _ _ _ =>
    cases hmove with
    | @push jobId job hpushing hstore _ =>
      rw [hstore] at h
      simp only [dispatch] at h
      split at h
      · rename_i t hat
        rcases SortedSet.lookup_zadd_of_some h with hbefore | ⟨rfl, hr⟩
        · exact Or.inl hbefore
        · exact Or.inr ⟨_, job, t, hpushing, hat, hr⟩
      · exact Or.inl h
    | removeScheduled _ hstore _ =>
      rw [hstore] at h
      exact Or.inl (SortedSet.lookup_erase_of_some h)
    | _ =>
      rename_i hstore _
      rw [hstore] at h
      exact Or.inl h
  | maintenance hmove _ _ =>
    cases hmove with
    | dropStale _ hstore _ | remove _ hstore _ =>
      rw [hstore] at h
      exact Or.inl (SortedSet.lookup_erase_of_some h)
    | _ =>
      rename_i hstore _
      rw [hstore] at h
      exact Or.inl h
  | tick _ hstore _ _ _ =>
    rw [hstore] at h
    exact Or.inl h
  | tamper => exact absurd rfl (hown _)

theorem mem_deadLetters_step (hstep : step settings s a = some s') (hown : ∀ q, a ≠ .tamper q)
    (h : j ∈ s'.store.redis.deadLetters) :
    j ∈ s.store.redis.deadLetters ∨ ∃ w, (s.workers w).executor = .deadLettering j := by
  cases move_of_step hstep with
  | worker hmove _ _ _ =>
    cases hmove with
    | deadLetter hdeadLettering hstore _ =>
      rw [hstore] at h
      rcases List.mem_cons.mp (List.mem_of_mem_take h) with rfl | h
      · exact Or.inr ⟨_, hdeadLettering⟩
      · exact Or.inl h
    | _ =>
      rename_i hstore _
      rw [hstore] at h
      exact Or.inl h
  | api hmove _ _ _ =>
    cases hmove with
    | push _ hstore _ =>
      rw [hstore] at h
      simp only [dispatch] at h
      split at h <;> exact Or.inl h
    | clear _ hstore _ =>
      rw [hstore] at h
      exact Or.inl (List.mem_of_mem_filter h)
    | _ =>
      rename_i hstore _
      rw [hstore] at h
      exact Or.inl h
  | maintenance hmove _ _ =>
    cases hmove
    all_goals
      rename_i hstore _
      rw [hstore] at h
      exact Or.inl h
  | tick _ hstore _ _ _ =>
    rw [hstore] at h
    exact Or.inl h
  | tamper => exact absurd rfl (hown _)

theorem deadLettering_step {w : WorkerId} (hstep : step settings s a = some s')
    (h : (s'.workers w).executor = .deadLettering j) :
    (s.workers w).executor = .deadLettering j ∨ finalises j .failed (s, a) = true := by
  rcases worker_move hstep w with ⟨_, hsame⟩ | ⟨b, rfl, hmove⟩
  · rw [hsame] at h
    exact Or.inl h
  · cases hmove with
    | commitFailed hfinalising hstatus _ hworker =>
      rw [hworker] at h
      cases h
      exact Or.inr (finalises_iff.mpr ⟨w, _, rfl, hfinalising, rfl, hstatus⟩)
    | empty _ _ _ hworker | beat _ _ _ hworker | rest _ _ _ hworker | renew _ _ hworker
    | settle _ _ hworker =>
      rw [hworker] at h
      exact Or.inl h
    | _ =>
      rename_i hworker
      rw [hworker] at h
      cases h

/-! ## The invariant -/

structure State.Indexed (tr : List (State × Action)) (s : State) : Prop where
  pushing : ∀ c j job, s.calls c = .pushing j job → DispatchedAs s j job
  feeder : ∀ j ∈ s.maintenance.feeder.map Prod.fst, s.Released j
  scheduler : ∀ j score, s.maintenance.scheduler.sends = some (j, score) → s.Released j
  pending : ∀ j ∈ s.store.redis.pending, s.Released j
  popped : ∀ w j, (s.workers w).executor = .popped j → s.Released j
  scheduled : ∀ j r, s.store.redis.scheduled.lookup j = some r →
    ∃ row t, s.row j = some row ∧ row.scheduledAt = some t ∧ r = timestamp t
  deadLettering : ∀ w j, (s.workers w).executor = .deadLettering j →
    ∃ e ∈ tr, finalises j .failed e = true
  deadLetters : ∀ j ∈ s.store.redis.deadLetters, ∃ e ∈ tr, finalises j .failed e = true

theorem indexed_initial (now : Timestamp) : (State.initial now).Indexed [] where
  pushing c j job h := by simp [State.initial] at h
  feeder j h := by simp [State.initial] at h
  scheduler j score h := by simp [State.initial, Scheduler.sends] at h
  pending j h := absurd h (AList.notMem_empty j)
  popped w j h := by simp [State.initial] at h
  scheduled j r h := by simp [State.initial] at h
  deadLettering w j h := by simp [State.initial] at h
  deadLetters j h := by simp [State.initial] at h

/-- What a step sends to `jobs:pending` is released. -/
theorem State.Indexed.sends {score : Int} (h : s.Indexed tr)
    (hsent : enqueues (s, a) = some (j, score)) : s.Released j := by
  unfold enqueues at hsent
  split at hsent
  · split at hsent
    · rename_i jobId job hpushing
      split at hsent
      · rename_i hnone
        cases hsent
        exact (h.pushing _ _ _ hpushing).2 hnone
      · cases hsent
    · cases hsent
  · refine h.feeder j (List.mem_map_of_mem (f := Prod.fst) (List.mem_of_head? hsent))
  · split at hsent
    · rename_i jobId score' rest hscheduler
      cases hsent
      exact h.scheduler _ _ (by rw [hscheduler]; rfl)
    · cases hsent
  · cases hsent

theorem indexed_step (h : s.Indexed tr) (hshaped : s.Shaped settings)
    (hown : ∀ q, a ≠ .tamper q) (hstep : step settings s a = some s') :
    s'.Indexed (tr ++ [(s, a)]) where
  pushing c j job hc := by
    rcases dispatchedAs_new hshaped hstep hc with hbefore | hnew
    · exact dispatchedAs_step hshaped hstep (h.pushing c j job hbefore)
    · exact hnew
  feeder j hj := by
    rcases feeder_released hstep hj with hbefore | hnew
    · exact released_step hshaped hstep (h.feeder j hbefore)
    · exact hnew
  scheduler j score hsends := by
    rcases scheduler_released hstep hsends with hbefore | hnew
    · exact released_step hshaped hstep (h.scheduler j score hbefore)
    · exact hnew
  pending j hj := by
    rcases mem_pending_step hstep hown hj with hbefore | ⟨score, hsent⟩
    · exact released_step hshaped hstep (h.pending j hbefore)
    · exact released_step hshaped hstep (h.sends hsent)
  popped w j hj := by
    rcases popped_step hstep hj with hbefore | hpending
    · exact released_step hshaped hstep (h.popped w j hbefore)
    · exact released_step hshaped hstep (h.pending j hpending)
  scheduled j r hr := by
    obtain ⟨row, t, hrow, hat, hscore⟩ : ∃ row t, s.row j = some row ∧
        row.scheduledAt = some t ∧ r = timestamp t := by
      rcases scheduled_step hstep hown hr with hbefore | ⟨c, job, t, hpushing, hat, hscore⟩
      · exact h.scheduled j r hbefore
      · obtain ⟨⟨row, hrow, hsame⟩, _⟩ := h.pushing c j job hpushing
        exact ⟨row, t, hrow, hsame.trans hat, hscore⟩
    obtain ⟨row', hrow', _⟩ := row_step hstep hrow
    have hrequest := request_step hshaped hstep hrow hrow'
    have hsame : row'.scheduledAt = row.scheduledAt := congrArg Request.scheduledAt hrequest
    exact ⟨row', t, hrow', hsame.trans hat, hscore⟩
  deadLettering w j hw := by
    rcases deadLettering_step hstep hw with hbefore | hnow
    · obtain ⟨e, he, hfails⟩ := h.deadLettering w j hbefore
      exact ⟨e, List.mem_append_left _ he, hfails⟩
    · exact ⟨(s, a), List.mem_append_right _ (List.mem_singleton_self _), hnow⟩
  deadLetters j hj := by
    obtain ⟨e, he, hfails⟩ : ∃ e ∈ tr, finalises j .failed e = true := by
      rcases mem_deadLetters_step hstep hown hj with hbefore | ⟨w, hw⟩
      · exact h.deadLetters j hbefore
      · exact h.deadLettering w j hw
    exact ⟨e, List.mem_append_left _ he, hfails⟩

theorem indexed_of_run (hrun : Run (step settings) (State.initial now) tr s)
    (hown : ∀ e ∈ tr, ∀ q, e.2 ≠ .tamper q) : s.Indexed tr := by
  refine hrun.induct (C := fun _ a => ∀ q, a ≠ .tamper q) hown (I := fun tr s => s.Indexed tr)
    (indexed_initial now) ?_
  intro tr s a s' hrun _ h ha hstep
  exact indexed_step h (shaped_of_run (State.quiet_initial now) hrun) ha hstep

/-! ## The guarantee -/

/-- In every run from the empty system in which only its own commands change Redis: a job in
`jobs:pending`, and one that a worker has popped, has a row and is no longer scheduled; an
entry of `jobs:scheduled` belongs to a row and is scored with the time of that row; an id in
the dead-letter list is that of a job that has failed for good. Whatever happens to Redis,
each job that a party or an answer of the API names has a row. -/
theorem redis_follows_table (hrun : Run (step settings) (State.initial now) tr s) :
    (∀ j, s.Names j → ∃ row, s.row j = some row) ∧
    ((∀ e ∈ tr, ∀ q, e.2 ≠ .tamper q) →
      (∀ j, (j ∈ s.store.redis.pending ∨ ∃ w, (s.workers w).executor = .popped j) →
        s.Released j) ∧
      (∀ j r, s.store.redis.scheduled.lookup j = some r →
        ∃ row t, s.row j = some row ∧ row.scheduledAt = some t ∧ r = timestamp t) ∧
      (∀ j ∈ s.store.redis.deadLetters, ∃ e ∈ tr, finalises j .failed e = true)) := by
  refine ⟨fun j hj => row_of_names (State.quiet_initial now) hrun hj, fun hown => ?_⟩
  have hindexed := indexed_of_run hrun hown
  refine ⟨?_, hindexed.scheduled, hindexed.deadLetters⟩
  rintro j (hpending | ⟨w, hpopped⟩)
  · exact hindexed.pending j hpending
  · exact hindexed.popped w j hpopped

/-- One job fails for good, one waits in each set. -/
theorem redis_follows_table_three :
    ∃ tr s, Run (step {}) (State.initial 0) tr s ∧ s.Released 2 ∧
      (∃ row t, s.row 3 = some row ∧ row.scheduledAt = some t) ∧
      1 ∈ s.store.redis.deadLetters ∧ ∃ e ∈ tr, finalises 1 .failed e = true := by
  obtain ⟨tr, s, hrun, hactions, hcheck⟩ := run_of_check (step {}) (State.initial 0)
    [.api 0 (.submit webhookRequest none), .api 0 (.insert 1), .api 0 .commit, .api 0 .command,
      .worker "w" .dequeue, .worker "w" (.claim 0 0), .worker "w" .start,
      .worker "w" (.fail (.unknownJobType ⟨"UnknownJobTypeError", ""⟩) 0), .worker "w" .commit,
      .worker "w" .deadLetter,
      .api 1 (.submit webhookRequest none), .api 1 (.insert 2), .api 1 .commit, .api 1 .command,
      .api 2 (.submit { webhookRequest with scheduledAt := some 60000000 } none),
      .api 2 (.insert 3), .api 2 .commit, .api 2 .command]
    (fun _ s => 2 ∈ s.store.redis.pending ∧ 3 ∈ s.store.redis.scheduled ∧
      1 ∈ s.store.redis.deadLetters) (by decide +kernel)
  simp only [decide_eq_true_eq] at hcheck
  obtain ⟨hpending, hscheduled, hdead⟩ := hcheck
  obtain ⟨_, hown⟩ := redis_follows_table hrun
  obtain ⟨hreleased, hscored, hfailed⟩ := hown
    (forall_of_actions (p := fun a => ∀ q, a ≠ .tamper q) hactions (by simp))
  obtain ⟨r, hr⟩ := Option.isSome_iff_exists.mp (AList.lookup_isSome.mpr hscheduled)
  obtain ⟨row, t, hrow, hat, _⟩ := hscored 3 r hr
  exact ⟨tr, s, hrun, hreleased 2 (Or.inl hpending), ⟨row, t, hrow, hat⟩, hdead, hfailed 1 hdead⟩

end JobQueue
