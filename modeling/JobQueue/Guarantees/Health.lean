import JobQueue.Guarantees.Conservation
import JobQueue.Guarantees.Indexing
import JobQueue.Model.Health

/-!
# What the health endpoint adds up to

`GET /health` counts the rows by status. In every run the six counts add up to the commits of
`submit_job`; where operations are atomic each of them is the balance of the commits that move
jobs into its status and out of it, over all jobs of the system (`health_counts_balance`). The
depths of the Redis structures stay within what the table holds, as long as only the program
writes to Redis. The report is no snapshot: the counts and the depths are read one after the
other, and the other parties act in between.
-/

namespace JobQueue

open Relational Transition

variable {settings : Settings} {s s' : State} {a : Action} {tr : List (State × Action)}
  {j : UUID} {now : Timestamp} {jobs : Jobs} {rows : List (JobStatus × Nat)}

/-! ## Commits of the whole system -/

/-- The job whose row the entry may move. -/
def aboutJob (e : State × Action) : Option UUID :=
  match e.2 with
  | .worker w (.claim _ _) =>
      match (e.1.workers w).executor with
      | .popped jobId => some jobId
      | _ => none
  | .worker w .commit =>
      match (e.1.workers w).executor with
      | .finalising m => some m.id
      | _ => none
  | .api c .commit =>
      match e.1.calls c with
      | .inserted jobId _ => some jobId
      | .cancelling m | .retrying m => some m.id
      | _ => none
  | .maintenance (.reaperUpdate _) => e.1.maintenance.reaper.head?
  | _ => none

/-- The number of commits of one kind in a history, whatever jobs they are on. -/
def commits (p : Passage) (tr : List (State × Action)) : Nat :=
  (tr.filterMap (edgeOf aboutJob passage)).count p

theorem about_of_shown {p : Passage} (h : p.shown j (s, a) = true) :
    aboutJob (s, a) = some j := by
  have hfinalise : ∀ status, finalises j status (s, a) = true → aboutJob (s, a) = some j := by
    intro status h
    obtain ⟨w, m, rfl, hfinalising, rfl, _⟩ := finalises_iff.mp h
    simp [aboutJob, hfinalising]
  cases p with
  | submit =>
    obtain ⟨job, hjob⟩ := Option.isSome_iff_exists.mp h
    obtain ⟨c, rfl, hcall, _⟩ := submits_iff.mp hjob
    simp [aboutJob, hcall]
  | claim =>
    obtain ⟨w, began, clock, row, rfl, hpopped, _⟩ := claims_iff.mp h
    simp [aboutJob, hpopped]
  | complete => exact hfinalise .completed h
  | defer => exact hfinalise .pending h
  | fail => exact hfinalise .failed h
  | reset =>
    replace h : resets j (s, a) = true := h
    unfold resets at h
    split at h
    · rename_i began ha
      simp only [decide_eq_true_eq] at h ha
      subst ha
      exact h.1
    · cases h
  | cancel =>
    obtain ⟨c, m, rfl, hcancelling, rfl⟩ := cancels_iff.mp h
    simp [aboutJob, hcancelling]
  | reopen =>
    obtain ⟨c, m, rfl, hretrying, rfl⟩ := reopens_iff.mp h
    simp [aboutJob, hretrying]

theorem about_of_passage {e : State × Action} {p : Passage} (h : passage j e = some p) :
    aboutJob e = some j :=
  about_of_shown (passage_iff.mp h)

/-! ## Rows by place -/

theorem mem_keys_iff : j ∈ s.store.jobs.keys.toFinset ↔ ∃ row, s.row j = some row := by
  rw [List.mem_toFinset, ← Option.isSome_iff_exists]
  exact AList.lookup_isSome.symm

theorem card_place {x : Place} (hx : x ≠ .absent) :
    (s.store.jobs.keys.toFinset.filter fun j => s.place j = x).card =
      (Table.rows s.store.jobs fun row => row.status.place = x).length := by
  rw [← Table.card_keys]
  congr 1
  ext j
  simp only [Finset.mem_filter, Option.any_eq_true, decide_eq_true_eq]
  refine and_congr_right fun _ => ?_
  show s.place j = x ↔ ∃ row, s.row j = some row ∧ row.status.place = x
  cases hrow : s.row j with
  | none =>
    rw [place_of_none hrow]
    simp [hx.symm]
  | some row =>
    rw [place_of_row hrow]
    simp

/-- Where operations are atomic the commits that take jobs to a place are those that take jobs
from it and the jobs that are there. -/
theorem commits_balance (hrun : Run (step settings) (State.initial now) tr s)
    (hatomic : ∀ e ∈ tr, atomicStep e.1 e.2 = true) {x : Place} (hx : x ≠ .absent) :
    (tr.filterMap (edgeOf aboutJob passage)).countP (fun p => lifecycle.target p = x) =
      (tr.filterMap (edgeOf aboutJob passage)).countP (fun p => lifecycle.source p = x) +
        (Table.rows s.store.jobs fun row => row.status.place = x).length := by
  have horderly := orderly_of_run (State.quiet_initial now) hrun hatomic
  have hids : ∀ e ∈ tr, ∀ i p, passage i e = some p → i ∈ s.store.jobs.keys.toFinset := by
    intro e he i p hp
    obtain ⟨past, future, t, rfl, hbefore, hstep, hafter⟩ := hrun.split_of_mem he
    have hmoved := shown_moves (hatomic e he) (shaped_of_run (State.quiet_initial now) hbefore)
      hstep (passage_iff.mp hp)
    cases hrow : t.row i with
    | none =>
      rw [place_of_none hrow] at hmoved
      cases p <;> cases hmoved.2
    | some row => exact mem_keys_iff.mpr (row_of_run hafter hrow)
  have hbalance := balance_all (fun i _ => route_of_run hrun horderly i)
    (fun e _ i p => about_of_passage) hids x
  rw [card_place hx] at hbalance
  have hnone : (s.store.jobs.keys.toFinset.filter fun i =>
      (State.initial now).place i = x).card = 0 := by
    rw [Finset.card_eq_zero, Finset.filter_eq_empty_iff]
    intro i _ hplace
    exact hx hplace.symm
  rw [hnone] at hbalance
  exact hbalance

/-! ## Submissions -/

/-- A job is submitted once, if it has a row. -/
theorem submitted_once (hrun : Run (step settings) (State.initial now) tr s) (j : UUID) :
    tr.countP (Passage.submit.shown j) = if (s.row j).isSome then 1 else 0 := by
  refine hrun.induct (C := fun _ _ => True) (by simp)
    (I := fun tr s => tr.countP (Passage.submit.shown j) = if (s.row j).isSome then 1 else 0)
    rfl ?_
  intro tr s a s' _ _ ih _ hstep
  rw [List.countP_append, List.countP_singleton, ih]
  cases hrow : s.row j with
  | some row =>
    obtain ⟨row', hrow', _⟩ := row_step hstep hrow
    have hnot : Passage.submit.shown j (s, a) = false := by
      by_contra h
      obtain ⟨job, hjob⟩ := Option.isSome_iff_exists.mp (Bool.eq_true_of_not_eq_false h)
      rw [(submits_row hstep hjob).1] at hrow
      cases hrow
    simp [hrow', hnot]
  | none =>
    cases hrow' : s'.row j with
    | none =>
      have hnot : Passage.submit.shown j (s, a) = false := by
        by_contra h
        obtain ⟨job, hjob⟩ := Option.isSome_iff_exists.mp (Bool.eq_true_of_not_eq_false h)
        rw [(submits_row hstep hjob).2] at hrow'
        cases hrow'
      simp [hnot]
    | some row' =>
      obtain ⟨c, ha, hcall, hok⟩ := row_new hstep hrow hrow'
      have hsubmits : Passage.submit.shown j (s, a) = true := by
        rw [Passage.shown, submits_iff.mpr ⟨c, ha, hcall, hok⟩]
        rfl
      simp [hsubmits]

/-- The table has as many rows as submissions were committed. -/
theorem commits_submit (hrun : Run (step settings) (State.initial now) tr s) :
    commits .submit tr = (Table.rows s.store.jobs fun _ => true).length := by
  have habout : ∀ e ∈ tr, ∀ i p, passage i e = some p → aboutJob e = some i :=
    fun e _ i p => about_of_passage
  have hids : ∀ e ∈ tr, ∀ i p, passage i e = some p → (p == Passage.submit) = true →
      i ∈ s.store.jobs.keys.toFinset := by
    intro e he i p hp hsubmit
    obtain rfl := beq_iff_eq.mp hsubmit
    obtain ⟨past, future, t, rfl, hbefore, hstep, hafter⟩ := hrun.split_of_mem he
    obtain ⟨job, hjob⟩ := Option.isSome_iff_exists.mp (passage_iff.mp hp)
    exact mem_keys_iff.mpr (row_of_run hafter (submits_row hstep hjob).2)
  rw [commits, List.count, ← sum_countP_shown habout hids, ← Table.card_keys, Finset.card_filter]
  apply Finset.sum_congr rfl
  intro i hi
  obtain ⟨row, hrow⟩ := mem_keys_iff.mp hi
  have hcount := count_route .submit i tr
  rw [submitted_once hrun i, hrow] at hcount
  have hlookup : s.store.jobs.lookup i = some row := hrow
  rw [hlookup]
  exact hcount

/-! ## The counts of the report -/

/-- The answers while both stores are up: `rows` to the `SELECT … GROUP BY`, and the depths in
the states in which their commands are served. -/
def healthReads (rows : List (JobStatus × Nat)) (pending scheduled dead : State)
    (beats : Heartbeats) (moment ttlSeconds : ℚ) : HealthReads where
  select := .ok ()
  ping := .ok true
  rows := rows
  pendingDepth := pending.store.redis.pendingDepth
  scheduledDepth := scheduled.store.redis.scheduledDepth
  deadLetterDepth := dead.store.redis.deadLetterDepth
  alive := beats.listAliveWorkers moment ttlSeconds

/-- The counts of a table. -/
def Jobs.counted (jobs : Jobs) (status : JobStatus) : Nat :=
  (Table.rows jobs fun row => row.status = status).length

theorem count_of_groups (h : Table.Groups jobs Job.status rows) (status : JobStatus) :
    (jobCountsByStatus rows).lookup status.value = some (Jobs.counted jobs status) := by
  by_cases hmem : status ∈ rows.map Prod.fst
  · obtain ⟨⟨_, n⟩, hrow, rfl⟩ := List.mem_map.mp hmem
    rw [lookup_jobCountsByStatus h.1 hrow]
    exact congrArg some (h.2.1 _ hrow)
  · rw [lookup_jobCountsByStatus_of_not_mem hmem, Jobs.counted, h.length_eq_zero hmem]

def Jobs.statusCounts (jobs : Jobs) : JobCounts where
  pending := jobs.counted .pending
  processing := jobs.counted .processing
  failed := jobs.counted .failed
  scheduled := jobs.counted .scheduled
  completed := jobs.counted .completed
  cancelled := jobs.counted .cancelled

theorem ofCounts_of_groups (h : Table.Groups jobs Job.status rows) :
    JobCounts.ofCounts (jobCountsByStatus rows) = some jobs.statusCounts := by
  have hcount := count_of_groups h
  have hpending := hcount .pending
  have hprocessing := hcount .processing
  have hfailed := hcount .failed
  have hscheduled := hcount .scheduled
  have hcompleted := hcount .completed
  have hcancelled := hcount .cancelled
  simp only [JobStatus.value] at hpending hprocessing hfailed hscheduled hcompleted hcancelled
  simp [JobCounts.ofCounts, hpending, hprocessing, hfailed, hscheduled, hcompleted, hcancelled,
    Jobs.statusCounts]

theorem health_of_up (h : Table.Groups jobs Job.status rows) (pending scheduled dead : State)
    (beats : Heartbeats) (moment ttlSeconds : ℚ) :
    health (healthReads rows pending scheduled dead beats moment ttlSeconds) = some (200,
      { status := "ok"
        database := "ok"
        redis := "ok"
        queue := {
          pendingDepth := some pending.store.redis.pendingDepth
          scheduledDepth := some scheduled.store.redis.scheduledDepth
          deadLetterDepth := some dead.store.redis.deadLetterDepth }
        workers := {
          aliveCount := some (beats.listAliveWorkers moment ttlSeconds).length
          alive := some (beats.listAliveWorkers moment ttlSeconds) }
        jobs := jobs.statusCounts }) := by
  simp [health, buildHealthPayload, healthReads, checkDatabase, checkRedis, ofCounts_of_groups h]

/-- Each row has one status. -/
theorem counted_total (jobs : Jobs) :
    jobs.counted .pending + jobs.counted .processing + jobs.counted .failed +
        jobs.counted .scheduled + jobs.counted .completed + jobs.counted .cancelled =
      (Table.rows jobs fun _ => true).length := by
  simp only [Jobs.counted, Table.length_rows]
  induction jobs.entries with
  | nil => rfl
  | cons e es ih =>
    simp only [List.countP_cons]
    cases hstatus : e.2.status <;> simp [-List.countP_true] <;> omega

/-- Where jobs wait they have one of two statuses, elsewhere one. -/
theorem counted_place (jobs : Jobs) {status : JobStatus} (h : status.place ≠ .waiting) :
    (Table.rows jobs fun row => row.status.place = status.place).length =
      jobs.counted status := by
  simp only [Jobs.counted, Table.length_rows]
  apply List.countP_congr
  intro e _
  cases hstatus : e.2.status <;> cases status <;> simp_all [JobStatus.place]

theorem counted_waiting :
    (Table.rows jobs fun row => row.status.place = .waiting).length =
      jobs.counted .pending + jobs.counted .scheduled := by
  rw [Jobs.counted, Jobs.counted, ← Table.length_rows_or]
  · simp only [Table.length_rows]
    apply List.countP_congr
    intro e _
    cases e.2.status <;> simp [JobStatus.place]
  · intro row hrow
    simp only [decide_eq_true_eq] at hrow
    simp [hrow]

/-! ## The Redis depths -/

/-- The dead-letter list is cut whenever it grows. -/
theorem deadLetterDepth_step (hstep : step settings s a = some s') (hown : ∀ q, a ≠ .tamper q)
    (h : s.store.redis.deadLetterDepth ≤ deadLetterMaxLen) :
    s'.store.redis.deadLetterDepth ≤ deadLetterMaxLen := by
  cases move_of_step hstep with
  | worker hmove _ _ _ =>
    cases hmove with
    | deadLetter _ hstore _ =>
      rw [hstore]
      exact List.length_take_le _ _
    | _ =>
      rename_i hstore _
      rw [hstore]
      exact h
  | api hmove _ _ _ =>
    cases hmove with
    | push _ hstore _ =>
      rw [hstore]
      simp only [dispatch]
      split <;> exact h
    | clear _ hstore _ =>
      rw [hstore]
      exact (List.length_filter_le _ _).trans h
    | _ =>
      rename_i hstore _
      rw [hstore]
      exact h
  | maintenance hmove _ _ =>
    cases hmove
    all_goals
      rename_i hstore _
      rw [hstore]
      exact h
  | tick _ hstore _ _ _ =>
    rw [hstore]
    exact h
  | tamper => exact absurd rfl (hown _)

/-- A set whose members all have rows of a kind is no larger than these rows are many. -/
theorem zcard_le {z : SortedSet UUID} {p : Job → Bool}
    (h : ∀ i ∈ z, ∃ row, jobs.lookup i = some row ∧ p row = true) :
    z.zcard ≤ (Table.rows jobs p).length := by
  have hcard : z.zcard = z.keys.toFinset.card := by
    rw [List.toFinset_card_of_nodup z.keys_nodup]
    exact (List.length_map _).symm
  rw [hcard, ← Table.card_keys]
  apply Finset.card_le_card
  intro i hi
  obtain ⟨row, hrow, hp⟩ := h i (List.mem_toFinset.mp hi)
  simp only [Finset.mem_filter, List.mem_toFinset, Option.any_eq_true]
  exact ⟨AList.lookup_isSome.mp (by simp [hrow]), row, hrow, hp⟩

theorem scheduledDepth_le (hrun : Run (step settings) (State.initial now) tr s)
    (hown : ∀ e ∈ tr, ∀ q, e.2 ≠ .tamper q) :
    s.store.redis.scheduledDepth ≤ commits .submit tr := by
  have hindexed := indexed_of_run hrun hown
  rw [commits_submit hrun]
  apply zcard_le
  intro i hi
  obtain ⟨r, hr⟩ := Option.isSome_iff_exists.mp (AList.lookup_isSome.mpr hi)
  obtain ⟨row, _, hrow, _⟩ := hindexed.scheduled i r hr
  exact ⟨row, hrow, rfl⟩

/-- The members of `jobs:pending` are jobs that are not scheduled. -/
theorem pendingDepth_le (hrun : Run (step settings) (State.initial now) tr s)
    (hown : ∀ e ∈ tr, ∀ q, e.2 ≠ .tamper q) :
    s.store.redis.pendingDepth + s.store.jobs.counted .scheduled ≤ commits .submit tr := by
  have hindexed := indexed_of_run hrun hown
  have hpending : s.store.redis.pendingDepth ≤
      (Table.rows s.store.jobs fun row => ¬ row.status = .scheduled).length := by
    apply zcard_le
    intro i hi
    obtain ⟨row, hrow, hstatus⟩ := hindexed.pending i hi
    exact ⟨row, hrow, by simpa using hstatus⟩
  have hsplit : (Table.rows s.store.jobs fun _ => true).length =
      (Table.rows s.store.jobs fun row => ¬ row.status = .scheduled).length +
        s.store.jobs.counted .scheduled := by
    rw [Jobs.counted, ← Table.length_rows_or]
    · simp only [Table.length_rows]
      apply List.countP_congr
      intro e _
      by_cases hstatus : e.2.status = .scheduled
      · simp [hstatus]
      · simp [hstatus]
    · intro row hrow
      simpa using hrow
  rw [commits_submit hrun, hsplit]
  exact Nat.add_le_add_right hpending _

theorem deadLetterDepth_le (hrun : Run (step settings) (State.initial now) tr s)
    (hown : ∀ e ∈ tr, ∀ q, e.2 ≠ .tamper q) :
    s.store.redis.deadLetterDepth ≤ deadLetterMaxLen :=
  hrun.invariant (C := fun _ a => ∀ q, a ≠ .tamper q)
    (I := fun s => s.store.redis.deadLetterDepth ≤ deadLetterMaxLen) hown (Nat.zero_le _)
    fun _ _ _ h ha hstep => deadLetterDepth_step hstep ha h

/-! ## The guarantee -/

/-- The counts are the balances of the commits so far. -/
structure JobCounts.Balances (jobs : JobCounts) (tr : List (State × Action)) : Prop where
  completed : jobs.completed = commits .complete tr
  cancelled : jobs.cancelled = commits .cancel tr
  failed : jobs.failed + commits .reopen tr = commits .fail tr
  processing : jobs.processing + commits .complete tr + commits .defer tr + commits .fail tr +
    commits .reset tr = commits .claim tr
  waiting : jobs.pending + jobs.scheduled + commits .claim tr + commits .cancel tr =
    commits .submit tr + commits .defer tr + commits .reset tr + commits .reopen tr

theorem balances_of_run (hrun : Run (step settings) (State.initial now) tr s)
    (hatomic : ∀ e ∈ tr, atomicStep e.1 e.2 = true) : s.store.jobs.statusCounts.Balances tr := by
  have hbalance : ∀ status : JobStatus, status.place ≠ .waiting →
      (tr.filterMap (edgeOf aboutJob passage)).countP
          (fun p => lifecycle.target p = status.place) =
        (tr.filterMap (edgeOf aboutJob passage)).countP
          (fun p => lifecycle.source p = status.place) + s.store.jobs.counted status := by
    intro status hstatus
    rw [← counted_place s.store.jobs hstatus]
    exact commits_balance hrun hatomic (by cases status <;> decide)
  have hwaiting := commits_balance hrun hatomic (x := .waiting) (by decide)
  have hprocessing := hbalance .processing (by decide)
  have hcompleted := hbalance .completed (by decide)
  have hfailed := hbalance .failed (by decide)
  have hcancelled := hbalance .cancelled (by decide)
  rw [counted_waiting] at hwaiting
  simp [countP_passages, lifecycle, JobStatus.place] at hwaiting hprocessing hcompleted
  simp [countP_passages, lifecycle, JobStatus.place] at hfailed hcancelled
  constructor
  all_goals
    simp only [commits, Jobs.statusCounts]
    omega

theorem commits_append (p : Passage) (tr tr' : List (State × Action)) :
    commits p (tr ++ tr') = commits p tr + commits p tr' := by
  rw [commits, List.filterMap_append, List.count_append]
  rfl

end JobQueue
