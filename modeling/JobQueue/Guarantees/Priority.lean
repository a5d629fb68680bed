import JobQueue.System.Requests

/-!
# The order of the dispatch queue

A job reaches `jobs:pending` by the submission, by the scheduler or by the feeder, each with
a score it has computed from the row some steps earlier. The columns of the score never
change, so the scores outstanding are those of the rows (`State.Scored`), in every run in
which only the commands of the system change Redis, and so are those in the queue. Where the
whole milliseconds of the creation times are less than `10 ^ 12` apart, the job that is
popped has the highest priority (`queue_respects_priority`); where only the times are, a tie
of the scores can put a lower priority first (`close_times_tie`).
-/

namespace JobQueue

open Relational Transition

variable {settings : Settings} {now : Timestamp} {s s' s₀ : State} {a : Action}
  {tr : List (State × Action)} {j k : UUID} {row row' : Job} {r : ℚ}

/-! ## Scores in flight -/

def Job.score (job : Job) : Int := priorityScore job.priority job.createdAt

variable {score : Int}

/-- The score is that of the job's row. -/
def ScoredAs (s : State) (j : UUID) (score : Int) : Prop :=
  ∃ row, s.row j = some row ∧ score = row.score

theorem scoredAs_of_row (h : s.row j = some row) : ScoredAs s j row.score := ⟨row, h, rfl⟩

theorem score_of_request (h : row'.request = row.request) : row'.score = row.score := by
  simp only [Job.request, Request.mk.injEq] at h
  rw [Job.score, Job.score, h.2.2.1, h.2.2.2.2]

theorem scoredAs_step (hshaped : s.Shaped settings) (hstep : step settings s a = some s')
    (h : ScoredAs s j score) : ScoredAs s' j score := by
  obtain ⟨row, hrow, rfl⟩ := h
  obtain ⟨row', hrow', _⟩ := row_step hstep hrow
  exact ⟨row', hrow', (score_of_request (request_step hshaped hstep hrow hrow')).symm⟩

/-- What the scheduler has still to add to `jobs:pending` for its candidate. -/
def Scheduler.sends : Scheduler → Option (UUID × Int)
  | .removing jobId score _ | .enqueuing jobId score _ => some (jobId, score)
  | _ => none

structure State.Scored (s : State) : Prop where
  pending : ∀ j r, s.store.redis.pending.lookup j = some r →
    ∃ score, ScoredAs s j score ∧ r = Binary64.round score
  pushing : ∀ c j job, s.calls c = .pushing j job → ScoredAs s j job.score
  feeder : ∀ j score, (j, score) ∈ s.maintenance.feeder → ScoredAs s j score
  scheduler : ∀ j score, s.maintenance.scheduler.sends = some (j, score) → ScoredAs s j score

theorem scored_initial (now : Timestamp) : (State.initial now).Scored where
  pending j r h := by simp [State.initial] at h
  pushing c j job h := by simp [State.initial] at h
  feeder j score h := by simp [State.initial] at h
  scheduler j score h := by simp [State.initial, Scheduler.sends] at h

/-! ## The three paths into the queue -/

/-- The `ZADD` to `jobs:pending` that an entry of a history shows. -/
def enqueues (e : State × Action) : Option (UUID × Int) :=
  match e.2 with
  | .api c .command =>
      match e.1.calls c with
      | .pushing jobId job => if job.scheduledAt = none then some (jobId, job.score) else none
      | _ => none
  | .maintenance .feederPush => e.1.maintenance.feeder.head?
  | .maintenance .schedulerCommand =>
      match e.1.maintenance.scheduler with
      | .enqueuing jobId score _ => some (jobId, score)
      | _ => none
  | _ => none

theorem State.Scored.enqueued (h : s.Scored) (he : enqueues (s, a) = some (j, score)) :
    ScoredAs s j score := by
  unfold enqueues at he
  split at he
  · split at he
    · rename_i jobId job hpushing
      split at he
      · cases he
        exact h.pushing _ _ _ hpushing
      · cases he
    · cases he
  · exact h.feeder j score (List.mem_of_head? he)
  · split at he
    · rename_i jobId score' rest hscheduler
      cases he
      exact h.scheduler _ _ (by rw [hscheduler]; rfl)
    · cases he
  · cases he

/-- A score in the queue was there or is the one the step sends. -/
theorem pending_step (hstep : step settings s a = some s') (hown : ∀ q, a ≠ .tamper q)
    (h : s'.store.redis.pending.lookup j = some r) :
    s.store.redis.pending.lookup j = some r ∨
      ∃ score, enqueues (s, a) = some (j, score) ∧ r = Binary64.round score := by
  cases move_of_step hstep with
  | worker hmove _ _ _ =>
    cases hmove with
    | pop _ _ hstore _ =>
      rw [hstore] at h
      exact Or.inl (Redis.lookup_dequeue_of_some h)
    | _ =>
      rename_i hstore _
      rw [hstore] at h
      exact Or.inl h
  | api hmove _ _ _ =>
    cases hmove with
    | @push jobId job hpushing hstore _ =>
      rw [hstore] at h
      simp only [dispatch] at h
      split at h
      · exact Or.inl h
      · rename_i hat
        rcases Redis.lookup_enqueue_of_some h with hbefore | ⟨rfl, hr⟩
        · exact Or.inl hbefore
        · exact Or.inr ⟨_, by simp [enqueues, hpushing, hat, Job.score], hr⟩
    | removePending _ hstore _ =>
      rw [hstore] at h
      exact Or.inl (SortedSet.lookup_erase_of_some h)
    | _ =>
      rename_i hstore _
      rw [hstore] at h
      exact Or.inl h
  | maintenance hmove _ _ =>
    cases hmove with
    | feederPush hfeeder hstore _ =>
      rw [hstore] at h
      rcases Redis.lookup_enqueue_of_some h with hbefore | ⟨rfl, hr⟩
      · exact Or.inl hbefore
      · exact Or.inr ⟨_, by simp [enqueues, hfeeder], hr⟩
    | enqueue henqueuing hstore _ =>
      rw [hstore] at h
      rcases Redis.lookup_enqueue_of_some h with hbefore | ⟨rfl, hr⟩
      · exact Or.inl hbefore
      · exact Or.inr ⟨_, by simp [enqueues, henqueuing], hr⟩
    | _ =>
      rename_i hstore _
      rw [hstore] at h
      exact Or.inl h
  | tick _ hstore _ _ _ =>
    rw [hstore] at h
    exact Or.inl h
  | tamper => exact absurd rfl (hown _)

/-! ## Where the scores in flight come from -/

/-- A call that is about to dispatch its job has just committed the row. -/
theorem pushing_step {c : Nat} {job : Job} (hstep : step settings s a = some s')
    (h : s'.calls c = .pushing j job) : s.calls c = .pushing j job ∨ s'.row j = some job := by
  rcases call_move hstep c with ⟨_, hsame⟩ | ⟨b, rfl, hmove⟩
  · left
    rwa [← hsame]
  · rw [h] at hmove
    cases hmove with
    | commitSubmit _ _ hstore hcall =>
      cases hcall
      right
      rw [State.row, hstore]
      exact AList.lookup_insert _
    | commitRefused _ _ _ hcall => simp at hcall
    | _ =>
      rename_i hcall
      cases hcall

/-- The feeder computes the scores of its batch from the rows it has selected. -/
theorem feeder_step (hstep : step settings s a = some s')
    (h : (j, score) ∈ s'.maintenance.feeder) :
    (j, score) ∈ s.maintenance.feeder ∨ ScoredAs s j score := by
  cases move_of_step hstep with
  | maintenance hmove _ _ =>
    cases hmove with
    | feederSelect _ _ _ hparty =>
      rw [hparty] at h
      right
      obtain ⟨id, _, hid⟩ := List.mem_filterMap.mp h
      obtain ⟨row, hrow, heq⟩ := Option.map_eq_some_iff.mp hid
      cases heq
      exact scoredAs_of_row hrow
    | feederPush hfeeder _ hparty =>
      rw [hparty] at h
      left
      rw [hfeeder]
      exact List.mem_cons_of_mem _ h
    | restart _ hparty =>
      rw [hparty] at h
      cases h
    | _ =>
      rename_i hparty
      rw [hparty] at h
      exact Or.inl h
  | worker _ _ _ hmaintenance | api _ _ _ hmaintenance | tick _ _ _ _ hmaintenance
  | tamper _ _ _ hmaintenance => exact Or.inl (hmaintenance ▸ h)

/-- The scheduler computes a score from the row its update has returned. -/
theorem scheduler_step (hstep : step settings s a = some s')
    (h : s'.maintenance.scheduler.sends = some (j, score)) :
    s.maintenance.scheduler.sends = some (j, score) ∨ ScoredAs s' j score := by
  cases move_of_step hstep with
  | maintenance hmove _ _ =>
    cases hmove with
    | @promote _ _ _ row _ _ _ _ hstore hparty =>
      rw [hparty] at h
      cases h
      right
      refine ⟨row.promote, ?_, rfl⟩
      rw [State.row, hstore]
      exact AList.lookup_insert _
    | remove hremoving _ hparty =>
      rw [hparty] at h
      left
      rw [hremoving]
      exact h
    | schedulerRead _ _ hparty | schedulerSelect _ _ _ hparty | schedulerDone _ _ hparty
    | pass _ _ _ _ hparty | dropStale _ _ hparty | enqueue _ _ hparty | restart _ hparty =>
      -- nothing is left to send
      rw [hparty] at h
      cases h
    | _ =>
      rename_i hparty
      rw [hparty] at h
      exact Or.inl h
  | worker _ _ _ hmaintenance | api _ _ _ hmaintenance | tick _ _ _ _ hmaintenance
  | tamper _ _ _ hmaintenance => exact Or.inl (hmaintenance ▸ h)

/-! ## The invariant -/

theorem scored_step (h : s.Scored) (hshaped : s.Shaped settings) (hown : ∀ q, a ≠ .tamper q)
    (hstep : step settings s a = some s') : s'.Scored where
  pending j r hr := by
    rcases pending_step hstep hown hr with hbefore | ⟨score, hsent, hr⟩
    · obtain ⟨score, hscored, hr⟩ := h.pending j r hbefore
      exact ⟨score, scoredAs_step hshaped hstep hscored, hr⟩
    · exact ⟨score, scoredAs_step hshaped hstep (h.enqueued hsent), hr⟩
  pushing c j job hc := by
    rcases pushing_step hstep hc with hbefore | hrow
    · exact scoredAs_step hshaped hstep (h.pushing c j job hbefore)
    · exact scoredAs_of_row hrow
  feeder j score hmem := by
    rcases feeder_step hstep hmem with hbefore | hscored
    · exact scoredAs_step hshaped hstep (h.feeder j score hbefore)
    · exact scoredAs_step hshaped hstep hscored
  scheduler j score hsends := by
    rcases scheduler_step hstep hsends with hbefore | hscored
    · exact scoredAs_step hshaped hstep (h.scheduler j score hbefore)
    · exact hscored

theorem scored_of_run (hrun : Run (step settings) (State.initial now) tr s)
    (hown : ∀ e ∈ tr, ∀ q, e.2 ≠ .tamper q) : s.Scored := by
  refine hrun.induct (C := fun _ a => ∀ q, a ≠ .tamper q) hown (I := fun _ s => s.Scored)
    (scored_initial now) ?_
  intro tr s a s' hrun _ h ha hstep
  exact scored_step h (shaped_of_run (State.quiet_initial now) hrun) ha hstep

/-- The schema of a request bounds the priority. -/
theorem priority_of_run (hrun : Run (step settings) (State.initial now) tr s)
    (hrow : s.row j = some row) : -1000 ≤ row.priority ∧ row.priority ≤ 1000 := by
  have hquiet := State.quiet_initial now
  induction hrun generalizing row with
  | nil => simp [State.row, State.initial] at hrow
  | @snoc tr s a s' hrun hstep ih =>
    have hshaped := shaped_of_run hquiet hrun
    cases hbefore : s.row j with
    | none =>
      obtain ⟨_, _, data, key, t, rfl⟩ := new_row hshaped hstep hbefore hrow
      exact ⟨data.priority_ge, data.priority_le⟩
    | some row₁ =>
      have hsame := request_step hshaped hstep hbefore hrow
      simp only [Job.request, Request.mk.injEq] at hsame
      rw [hsame.2.2.1]
      exact ih hbefore

/-! ## The guarantee -/

/-- In every run in which only the system's commands change Redis: if the creation times are
between the epoch and `10 ^ 13` milliseconds, every member of the queue has the score of its
row, an integer that a double holds; and if the whole milliseconds are less than `10 ^ 12`
apart, no member has a higher priority than the job that is popped. -/
theorem queue_respects_priority (hrun : Run (step settings) (State.initial now) tr s)
    (hown : ∀ e ∈ tr, ∀ q, e.2 ≠ .tamper q)
    (hdates : ∀ j row, s.row j = some row → 0 ≤ row.createdAt ∧ row.createdAt < 10 ^ 16)
    (hapart : ∀ j k row row', s.row j = some row → s.row k = some row' →
      createdAtEpochMs row'.createdAt - createdAtEpochMs row.createdAt < 10 ^ 12) :
    (∀ j r, s.store.redis.pending.lookup j = some r → ∃ row, s.row j = some row ∧
      r = priorityScore row.priority row.createdAt ∧
      |priorityScore row.priority row.createdAt| < 2 ^ 53) ∧
    ∀ j, s.store.redis.dequeue.2 = some j → ∃ row, s.row j = some row ∧
      ∀ k row', k ∈ s.store.redis.pending → s.row k = some row' → row'.priority ≤ row.priority := by
  have hscores : ∀ j r, s.store.redis.pending.lookup j = some r → ∃ row, s.row j = some row ∧
      r = priorityScore row.priority row.createdAt ∧
      |priorityScore row.priority row.createdAt| < 2 ^ 53 := by
    intro j r hr
    obtain ⟨_, ⟨row, hrow, rfl⟩, hround⟩ := (scored_of_run hrun hown).pending j r hr
    obtain ⟨hlow, hhigh⟩ := priority_of_run hrun hrow
    obtain ⟨hafter, hbefore⟩ := hdates j row hrow
    have hsmall := abs_priorityScore_lt hlow hhigh hafter
      (hbefore.le.trans (by decide))
    exact ⟨row, hrow, hround.trans (Binary64.round_intCast hsmall), hsmall⟩
  refine ⟨hscores, ?_⟩
  intro j hj
  obtain ⟨r, hr, hfirst⟩ := SortedSet.zpopmin_before hj
  obtain ⟨row, hrow, hscore, _⟩ := hscores j r hr
  refine ⟨row, hrow, ?_⟩
  intro k row' hk hrow'
  by_contra hpriority
  obtain ⟨r', hr'⟩ := Option.isSome_iff_exists.mp (AList.lookup_isSome.mpr hk)
  obtain ⟨_, hrow₁, hscore', _⟩ := hscores k r' hr'
  rw [hrow'] at hrow₁
  cases hrow₁
  -- a higher priority has a strictly lower score, and would have come first
  have hlt : r' < r := by
    rw [hscore, hscore']
    exact_mod_cast priorityScore_lt (not_le.mp hpriority) (hapart j k row row' hrow hrow')
  rcases hfirst k r' hr' with h | ⟨h, _⟩
  · exact absurd (hlt.trans h) (lt_irrefl _)
  · exact absurd (h ▸ hlt) (lt_irrefl _)

theorem forall_rows {p : Job → Prop} (h : ∀ e ∈ s.store.jobs.entries, p e.2)
    (hrow : s.row j = some row) : p row :=
  h ⟨j, row⟩ (AList.mem_lookup_iff.mp hrow)

/-- The later of two jobs has the higher priority. -/
theorem queue_respects_priority_two :
    ∃ tr s row, Run (step {}) (State.initial 1) tr s ∧ s.store.redis.dequeue.2 = some 2 ∧
      1 ∈ s.store.redis.pending ∧ s.row 1 = some row ∧ row.priority ≤ 5 := by
  obtain ⟨tr, s, hrun, hactions, hcheck⟩ := run_of_check (step {}) (State.initial 1)
    [.api 0 (.submit webhookRequest none), .api 0 (.insert 1), .api 0 .commit, .api 0 .command,
      .tick 1000000,
      .api 1 (.submit { webhookRequest with
        priority := 5, priority_ge := by decide, priority_le := by decide } none),
      .api 1 (.insert 2), .api 1 .commit, .api 1 .command]
    (fun _ s => s.store.redis.dequeue.2 = some 2 ∧ 1 ∈ s.store.redis.pending ∧
      (s.row 2).any (fun row => row.priority = 5) ∧ (s.row 1).isSome ∧
      s.store.jobs.entries.all fun e => e.2.createdAt = 1 ∨ e.2.createdAt = 1000000)
    (by decide +kernel)
  simp only [decide_eq_true_eq, List.all_eq_true, Option.any_eq_true] at hcheck
  obtain ⟨hpop, hmem, ⟨row₂, hrow₂, hpriority⟩, hrow, hentries⟩ := hcheck
  obtain ⟨row, hrow⟩ := Option.isSome_iff_exists.mp hrow
  have hcreated : ∀ j row, s.row j = some row → row.createdAt = 1 ∨ row.createdAt = 1000000 :=
    fun j row h =>
      forall_rows (p := fun job => job.createdAt = 1 ∨ job.createdAt = 1000000) hentries h
  have hms : createdAtEpochMs 1 = 0 ∧ createdAtEpochMs 1000000 = 1000 := by decide +kernel
  have hown : ∀ e ∈ tr, ∀ q, e.2 ≠ .tamper q :=
    forall_of_actions (p := fun a => ∀ q, a ≠ .tamper q) hactions (by simp)
  have hqueue := queue_respects_priority hrun hown
    (by
      intro j row h
      rcases hcreated j row h with h | h <;> rw [h] <;> decide)
    (by
      intro j k row row' h h'
      rcases hcreated j row h with h | h <;> rcases hcreated k row' h' with h' | h' <;>
        rw [h, h'] <;> simp [hms])
  obtain ⟨_, hrow₂', hall⟩ := hqueue.2 2 hpop
  rw [hrow₂] at hrow₂'
  cases hrow₂'
  exact ⟨tr, s, row, hrun, hpop, hmem, hrow, hpriority ▸ hall 1 row hmem hrow⟩

/-- Two creation times less than `10 ^ 12` milliseconds apart, whose whole milliseconds are
`10 ^ 12` apart: the scores tie, and the lower priority is popped first. -/
theorem close_times_tie :
    ∃ tr s row row', Run (step {}) (State.initial 1) tr s ∧ (∀ e ∈ tr, ∀ q, e.2 ≠ .tamper q) ∧
      s.row 1 = some row ∧ s.row 2 = some row' ∧
      (∀ j job, s.row j = some job → 0 < job.createdAt ∧ job.createdAt < 10 ^ 16) ∧
      row.createdAt < row'.createdAt ∧ row'.createdAt - row.createdAt < 10 ^ 15 ∧
      s.store.redis.dequeue.2 = some 1 ∧ 2 ∈ s.store.redis.pending ∧
      row.priority < row'.priority := by
  obtain ⟨tr, s, hrun, hactions, hcheck⟩ := run_of_check (step {}) (State.initial 1)
    [.api 0 (.submit webhookRequest none), .api 0 (.insert 1), .api 0 .commit, .api 0 .command,
      .tick (10 ^ 15),
      .api 1 (.submit { webhookRequest with
        priority := 1, priority_ge := by decide, priority_le := by decide } none),
      .api 1 (.insert 2), .api 1 .commit, .api 1 .command]
    (fun _ s => ((s.row 1).any fun row => row.createdAt = 1 ∧ row.priority = 0) ∧
      ((s.row 2).any fun row => row.createdAt = 10 ^ 15 ∧ row.priority = 1) ∧
      s.store.redis.dequeue.2 = some 1 ∧ 2 ∈ s.store.redis.pending ∧
      s.store.jobs.entries.all fun e => 0 < e.2.createdAt ∧ e.2.createdAt < 10 ^ 16)
    (by decide +kernel)
  simp only [decide_eq_true_eq, List.all_eq_true, Option.any_eq_true] at hcheck
  obtain ⟨⟨row, hrow, hfirst⟩, ⟨row', hrow', hsecond⟩, hpop, hmem, hentries⟩ := hcheck
  have hown : ∀ e ∈ tr, ∀ q, e.2 ≠ .tamper q :=
    forall_of_actions (p := fun a => ∀ q, a ≠ .tamper q) hactions (by simp)
  have hdates : ∀ j job, s.row j = some job → 0 < job.createdAt ∧ job.createdAt < 10 ^ 16 :=
    fun j job h =>
      forall_rows (p := fun job => 0 < job.createdAt ∧ job.createdAt < 10 ^ 16) hentries h
  refine ⟨tr, s, row, row', hrun, hown, hrow, hrow', hdates, ?_⟩
  rw [hfirst.1, hfirst.2, hsecond.1, hsecond.2]
  exact ⟨by norm_num, by norm_num, hpop, hmem, by norm_num⟩

end JobQueue
