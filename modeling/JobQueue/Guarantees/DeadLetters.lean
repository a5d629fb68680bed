import JobQueue.System.Lifecycle
import JobQueue.System.Attempts
import JobQueue.Library.CappedList
import JobQueue.Library.Outstanding

/-!
# The dead-letter list and the failed jobs

A permanent failure is committed by a worker and then pushed to `jobs:dead_letter`; a
`manual_retry` is committed by a call of the API and then removed from the list. The commits
on a job take turns, whatever the interleaving (`failures_count`). The commands that follow
them are sent by different processes and need not. If they do, the list is in step with the
table whenever no command is outstanding (`dead_letters_in_step`): no id twice, only failed
jobs, and a failed job is missing only if it was pushed out. A push that the retry of its
own failure has overtaken leaves a pending job in the list (`overtaken_push_stays`).
-/

namespace JobQueue

open Relational Transition CappedList

variable {settings : Settings} {now : Timestamp} {s s' s₀ : State} {a : Action}
  {tr : List (State × Action)} {j : UUID} {row row' : Job}

/-! ## Commands on the list -/

/-- The `LREM` of a `manual_retry` of job `j`. -/
def clears (j : UUID) (e : State × Action) : Bool :=
  match e.2 with
  | .api c .command => e.1.calls c = .clearing j
  | _ => false

/-- The command on the list that an entry of a history shows. -/
def command (e : State × Action) : Option (Command UUID) :=
  match e.2 with
  | .worker w .deadLetter =>
      match (e.1.workers w).executor with
      | .deadLettering j => some (.push j)
      | _ => none
  | .api c .command =>
      match e.1.calls c with
      | .clearing j => some (.remove j)
      | _ => none
  | _ => none

def commands (tr : List (State × Action)) : List (Command UUID) := tr.filterMap command

/-- A command on a job is executed in its turn: a push if the job's last command was a
removal or there was none, a removal if it was a push. As the commits of failures and retries
take turns, this is the order of the commits. -/
def inOrder (past : List (State × Action)) (s : State) (a : Action) : Bool :=
  match command (s, a) with
  | some (.push j) => !present j (commands past)
  | some (.remove j) => present j (commands past)
  | none => true

/-! ## Runs without crashes, faults and lost leases -/

/-- A process dies, a Redis command raises, or the list is changed from outside. -/
def disrupts (s : State) : Action → Bool
  | .worker _ .crash | .api _ .drop | .api _ .fault => true
  | .tamper redis => redis.deadLetters ≠ s.store.redis.deadLetters
  | _ => false

structure State.Calm (s : State) (a : Action) : Prop where
  undisrupted : disrupts s a = false
  kept : s.LeaseKept a
  /-- The `SELECT`, check and commit of a call are one step. -/
  fresh : freshCommit s a = true

/-- The commit of a call finds the job as it was checked, so no worker has it. -/
theorem commit_status (hshaped : s.Shaped settings) (hfresh : freshCommit s a = true) :
    ∀ c m row, a = .api c .commit → s.calls c = .cancelling m ∨ s.calls c = .retrying m →
      s.row m.id = some row → row.status ≠ .processing := by
  rintro c m row rfl hcall hrow
  have hshape := hshaped.call c
  rcases hcall with hcall | hcall
  · obtain rfl : row = m.loaded := by simpa [freshCommit, hcall, hrow] using hfresh
    rw [hcall] at hshape
    intro hstatus
    simpa [Job.cancellable, hstatus] using hshape.1
  · obtain rfl : row = m.loaded := by simpa [freshCommit, hcall, hrow] using hfresh
    rw [hcall] at hshape
    intro hstatus
    simpa [Job.retryable, hstatus] using hshape.1

theorem holding_of_calm (hquiet : s₀.Quiet) (hrun : Run (step settings) s₀ tr s)
    (hcalm : ∀ e ∈ tr, e.1.Calm e.2) : s.Holding := by
  refine hrun.induct (C := State.Calm) hcalm (I := fun _ s => s.Holding) hquiet.holding ?_
  intro tr s a s' hrun _ hholding ha hstep
  have hshaped := shaped_of_run hquiet hrun
  exact holding_step hholding hshaped
    (not_intrudes hholding ha.kept (commit_status hshaped ha.fresh)) hstep

/-- A worker commits to jobs that it owns. -/
theorem ownerCommit_of_holding (h : s.Holding) : ownerCommit s a = true := by
  have hheld : ∀ w m, s.inHand w = some m → (s.row m.id).any (Job.heldBy w) = true := by
    intro w m hm
    obtain ⟨row, hrow, hholds⟩ := h w m hm
    rw [hrow]
    exact heldBy_iff.mpr ⟨hholds.row_status, hholds.row_worker⟩
  unfold ownerCommit
  split
  · split
    · rename_i m hfinalising
      exact hheld _ m (inHand_of_finalising hfinalising)
    · rfl
  · split
    · rename_i m hexecuting
      exact hheld _ m (inHand_of_executing hexecuting)
    · rfl
  · rfl

theorem atomic_of_calm (hquiet : s₀.Quiet) (hrun : Run (step settings) s₀ tr s)
    (hcalm : ∀ e ∈ tr, e.1.Calm e.2) : ∀ e ∈ tr, atomicStep e.1 e.2 = true := by
  intro e he
  obtain ⟨tr₁, tr₂, t, rfl, hrun₁, _, _⟩ := hrun.split_of_mem he
  have hholding := holding_of_calm hquiet hrun₁ fun e' he' => hcalm e' (List.mem_append_left _ he')
  exact Bool.and_eq_true_iff.mpr ⟨(hcalm e he).fresh, ownerCommit_of_holding hholding⟩

/-! ## Failures and retries take turns -/

def State.failed (s : State) (j : UUID) : Bool := (s.row j).any fun row => row.status = .failed

theorem State.failed_of_row (h : s.row j = some row) : s.failed j = decide (row.status = .failed) := by
  simp [State.failed, h]

/-- A life event other than a failure for good and a retry leaves a row failed or not. -/
theorem failed_life {event : LifeEvent} (hlife : LifeStep settings event row row')
    (hfail : event = .fail → row'.status ≠ .failed) (hretry : event ≠ .retry) :
    row'.status = .failed ↔ row.status = .failed := by
  cases hlife with
  | claim hready => simp [Job.claim, (Job.ready_iff.mp hready).1]
  | renew | cleanup => exact Iff.rfl
  | report => simp [reportProgress]
  | complete hheld => simp [completeJob, (heldBy_iff.mp hheld).1]
  | fail hheld => simp [hfail rfl, (heldBy_iff.mp hheld).1]
  | cancel hok =>
    have hstatus : row.status = .pending ∨ row.status = .scheduled := by
      simpa [Job.cancellable] using hok
    rcases hstatus with h | h <;> simp [cancelJob, h]
  | retry => exact absurd rfl hretry
  | promote hdue => simp [Job.promote, (Job.dueAt_iff.mp hdue).1]
  | reap hexpired => simp [Job.reap, (Job.expired_iff.mp hexpired).1]

theorem failed_turn (hshaped : s.Shaped settings) (hholding : s.Holding) (howned : s.OwnedInv)
    (hfresh : freshCommit s a = true) (hstep : step settings s a = some s') :
    (if s'.failed j then 1 else 0) + (if reopens j (s, a) then 1 else 0) =
      (if s.failed j then 1 else 0) + if finalises j .failed (s, a) then 1 else 0 := by
  by_cases hfinalises : finalises j .failed (s, a) = true
  · -- a failure for good
    obtain ⟨w, m, rfl, hfinalising, rfl, _⟩ := finalises_iff.mp hfinalises
    obtain ⟨row, hrow, _⟩ := hholding w m (inHand_of_finalising hfinalising)
    obtain ⟨row', hrow', _⟩ := row_step hstep hrow
    have hbefore := finalises_processing hholding hfinalises hrow
    have hafter := finalises_status hshaped hstep hfinalises hrow hrow'
    have hother : reopens m.id (s, .worker w .commit) = false := rfl
    simp [State.failed_of_row hrow, State.failed_of_row hrow', hbefore, hafter, hfinalises, hother]
  have hfinalises : finalises j .failed (s, a) = false := Bool.eq_false_of_not_eq_true hfinalises
  by_cases hreopens : reopens j (s, a) = true
  · obtain ⟨c, m, rfl, hretrying, rfl⟩ := reopens_iff.mp hreopens
    have hrow : s.row m.id = some m.loaded := by simpa [freshCommit, hretrying] using hfresh
    have hrow' := retry_row hstep hretrying
    rw [hrow] at hrow'
    have hshape := hshaped.call c
    rw [hretrying] at hshape
    have hbefore : m.loaded.status = .failed := by simpa [Job.retryable] using hshape.1
    have hafter := retrying_flush_status hshaped hretrying m.loaded
    simp [State.failed_of_row hrow, State.failed_of_row hrow', hbefore, hafter, hfinalises,
      hreopens]
  have hreopens : reopens j (s, a) = false := Bool.eq_false_of_not_eq_true hreopens
  have hsame : s'.failed j = s.failed j := by
    cases hrow : s.row j with
    | none =>
      cases hrow' : s'.row j with
      | none => simp [State.failed, hrow, hrow']
      | some row' =>
        obtain ⟨_, _, data, key, t, rfl⟩ := new_row hshaped hstep hrow hrow'
        by_cases hat : data.scheduledAt.isSome = true <;>
          simp [State.failed, hrow, hrow', newJob, hat]
    | some row =>
      obtain ⟨row', hrow', _⟩ := row_step hstep hrow
      rw [State.failed_of_row hrow, State.failed_of_row hrow', decide_eq_decide]
      have hatomic : atomicStep s a = true :=
        Bool.and_eq_true_iff.mpr ⟨hfresh, ownerCommit_of_holding hholding⟩
      rcases life_step howned hatomic hshaped hstep hrow hrow' with rfl | ⟨event, hlife, hseen⟩
      · exact Iff.rfl
      · refine failed_life hlife ?_ ?_
        · rintro rfl
          rw [LifeEvent.seen, hfinalises, Bool.or_false] at hseen
          rw [finalises_status hshaped hstep hseen hrow hrow']
          simp
        · rintro rfl
          rw [LifeEvent.seen, hreopens] at hseen
          cases hseen
  simp [hsame, hreopens, hfinalises]

/-- The failures for good of a job are its retries, and one more while it is failed. -/
theorem failures_count (hrun : Run (step settings) (State.initial now) tr s)
    (hcalm : ∀ e ∈ tr, e.1.Calm e.2) (j : UUID) :
    tr.countP (finalises j .failed) = tr.countP (reopens j) + if s.failed j then 1 else 0 := by
  have hquiet := State.quiet_initial now
  refine hrun.induct (C := State.Calm) hcalm
    (I := fun tr s => tr.countP (finalises j .failed) =
      tr.countP (reopens j) + if s.failed j then 1 else 0) rfl ?_
  intro tr s a s' hrun hpast ih ha hstep
  have hone := failed_turn (j := j) (shaped_of_run hquiet hrun) (holding_of_calm hquiet hrun hpast)
    (ownedInv_of_run hquiet hrun (atomic_of_calm hquiet hrun hpast)) ha.fresh hstep
  rw [List.countP_append, List.countP_append, List.countP_singleton, List.countP_singleton]
  omega

/-! ## Outstanding commands -/

/-- The worker that takes the step. -/
def Action.worker? : Action → Option WorkerId
  | .worker w _ => some w
  | _ => none

/-- The call that takes the step. -/
def Action.call? : Action → Option Nat
  | .api c _ => some c
  | _ => none

theorem clears_iff : clears j (s, a) = true ↔ ∃ c, a = .api c .command ∧ s.calls c = .clearing j := by
  constructor
  · intro h
    unfold clears at h
    split at h
    · rename_i c heq
      exact ⟨c, heq, by simpa using h⟩
    · cases h
  · rintro ⟨c, rfl, hclearing⟩
    simp [clears, hclearing]

/-- A worker is about to push a job from the commit of its failure to the push. -/
theorem pushing_turnover (hundisrupted : disrupts s a = false) (hstep : step settings s a = some s') :
    Turnover (fun w => (s.workers w).executor = .deadLettering j)
      (fun w => (s'.workers w).executor = .deadLettering j) a.worker?
      (finalises j .failed (s, a)) (buries j (s, a)) where
  entering := by
    intro h
    obtain ⟨w, m, rfl, hfinalising, _, _⟩ := finalises_iff.mp h
    exact ⟨rfl, w, rfl, by simp [hfinalising]⟩
  leaving := by
    intro h
    obtain ⟨w, rfl, hdead⟩ := buries_iff.mp h
    exact ⟨w, rfl, hdead⟩
  busy_iff := by
    intro w
    rcases worker_move hstep w with ⟨hother, hsame⟩ | ⟨b, rfl, hmove⟩
    · have hactor : a.worker? ≠ some w := by
        intro h
        cases a with
        | worker v b =>
          cases h
          exact hother b rfl
        | api | maintenance | tick | tamper => cases h
      simp [hsame, hactor]
    · cases hmove with
      | commitFailed hphase hstatus _ hworker =>
        simp [finalises, buries, Action.worker?, hphase, hstatus, hworker]
      | commit hphase hstatus _ hworker =>
        simp [finalises, buries, Action.worker?, hphase, hstatus, hworker, Worker.release]
      | deadLetter hphase _ hworker =>
        simp [finalises, buries, Action.worker?, hphase, hworker, Worker.release]
      | crash => cases hundisrupted
      | pop hphase _ _ hworker | empty hphase _ _ hworker | claim hphase _ _ _ _ hworker
      | skip hphase _ _ _ hworker | start hphase _ hworker | report hphase _ _ hworker
      | finish hphase _ hworker | fail hphase _ hworker =>
        simp [finalises, buries, hphase, hworker]
      | beat _ _ _ hworker | rest _ _ _ hworker | renew _ _ hworker | settle _ _ hworker =>
        simp [finalises, buries, hworker]

/-- A call is about to remove a job from the commit of its retry to the removal. -/
theorem clearing_turnover (hundisrupted : disrupts s a = false)
    (hstep : step settings s a = some s') :
    Turnover (fun c => s.calls c = .clearing j) (fun c => s'.calls c = .clearing j) a.call?
      (reopens j (s, a)) (clears j (s, a)) where
  entering := by
    intro h
    obtain ⟨c, m, rfl, hretrying, _⟩ := reopens_iff.mp h
    exact ⟨rfl, c, rfl, by simp [hretrying]⟩
  leaving := by
    intro h
    obtain ⟨c, rfl, hclearing⟩ := clears_iff.mp h
    exact ⟨c, rfl, hclearing⟩
  busy_iff := by
    intro c
    rcases call_move hstep c with ⟨hother, hsame⟩ | ⟨b, rfl, hmove⟩
    · have hactor : a.call? ≠ some c := by
        intro h
        cases a with
        | api d b =>
          cases h
          exact hother b rfl
        | worker | maintenance | tick | tamper => cases h
      simp [hsame, hactor]
    · cases hmove with
      | commitRefused hphase _ _ hcall =>
        rcases hcall with ⟨_, _, hcall⟩ | hcall <;> simp [reopens, clears, hphase, hcall]
      | fault | drop | dropInserted => cases hundisrupted
      | submitInvalid hphase _ _ hcall | submitExisting hphase _ _ _ hcall
      | submit hphase _ _ _ hcall | insertRefused hphase _ _ _ hcall | insert hphase _ _ _ hcall
      | cancelMissing hphase _ _ hcall | cancelRefused hphase _ _ _ hcall
      | cancel hphase _ _ _ hcall | retryMissing hphase _ _ hcall
      | retryRefused hphase _ _ _ hcall | manualRetry hphase _ _ _ hcall
      | commitSubmit hphase _ _ hcall | commitCancel hphase _ hcall | commitRetry hphase _ hcall
      | push hphase _ hcall | removePending hphase _ hcall | removeScheduled hphase _ hcall
      | clear hphase _ hcall =>
        simp [reopens, clears, Action.call?, hphase, hcall]

/-! ## The list is the result of the commands -/

theorem dispatch_deadLetters (q : Redis) (jobId : UUID) (job : Job) :
    (dispatch q jobId job).deadLetters = q.deadLetters := by
  unfold dispatch
  split <;> rfl

theorem deadLetters_step (hundisrupted : disrupts s a = false)
    (hstep : step settings s a = some s') :
    s'.store.redis.deadLetters =
      (command (s, a)).elim s.store.redis.deadLetters
        (CappedList.apply deadLetterMaxLen s.store.redis.deadLetters) := by
  cases move_of_step hstep with
  | worker hmove _ _ _ =>
    cases hmove with
    | pop _ _ hstore _ => simp [command, hstore, Redis.dequeue]
    | deadLetter hphase hstore _ =>
      simp [command, hstore, hphase, Redis.deadLetter, CappedList.apply]
    | _ =>
      rename_i hstore _
      simp [command, hstore]
  | api hmove _ _ _ =>
    have hredis := hmove.redis_eq
    cases hmove with
    | push hphase hstore _ => simp [command, hstore, hphase, dispatch_deadLetters]
    | removePending hphase hstore _ => simp [command, hstore, hphase, Redis.removePending]
    | removeScheduled hphase hstore _ => simp [command, hstore, hphase, Redis.removeScheduled]
    | clear hphase hstore _ =>
      simp [command, hstore, hphase, Redis.removeDeadLetter, CappedList.apply]
    | _ => simp [command, hredis (by simp)]
  | maintenance hmove _ _ =>
    cases hmove with
    | feederPush _ hstore _ | enqueue _ hstore _ => simp [command, hstore, Redis.enqueue]
    | dropStale _ hstore _ | remove _ hstore _ => simp [command, hstore, Redis.removeScheduled]
    | _ =>
      rename_i hstore _
      simp [command, hstore]
  | tick _ hstore _ _ _ => simp [command, hstore]
  | tamper hstore _ _ _ => simpa [disrupts, command, hstore] using hundisrupted

theorem commands_snoc (tr : List (State × Action)) (e : State × Action) :
    commands (tr ++ [e]) = commands tr ++ (command e).toList := by
  rw [commands, List.filterMap_append]
  cases hcommand : command e <;> simp [commands, hcommand]

theorem deadLetters_of_run (hrun : Run (step settings) (State.initial now) tr s)
    (hcalm : ∀ e ∈ tr, e.1.Calm e.2) :
    s.store.redis.deadLetters = CappedList.run deadLetterMaxLen (commands tr) := by
  refine hrun.induct (C := State.Calm) hcalm
    (I := fun tr s => s.store.redis.deadLetters = CappedList.run deadLetterMaxLen (commands tr))
    rfl ?_
  intro tr s a s' _ _ ih ha hstep
  rw [deadLetters_step ha.undisrupted hstep, ih, commands_snoc]
  cases command (s, a) <;> simp

theorem inOrder_of_throughout
    (horder : Throughout (fun past s a => inOrder past s a = true) tr) : InOrder (commands tr) := by
  induction tr using List.reverseRecOn with
  | nil => exact .nil
  | append_singleton tr e ih =>
    obtain ⟨s, a⟩ := e
    obtain ⟨hpast, ha⟩ := throughout_snoc horder
    rw [commands_snoc]
    unfold inOrder at ha
    cases hcommand : command (s, a) with
    | none => simpa using ih hpast
    | some c =>
      rw [hcommand] at ha
      cases c with
      | push k => exact (ih hpast).push (by simpa using ha)
      | remove k => exact (ih hpast).remove ha

theorem command_push (e : State × Action) : (command e).any (isPush j) = buries j e := by
  obtain ⟨s, a⟩ := e
  unfold command buries
  cases a with
  | worker w b =>
    cases b with
    | deadLetter =>
      cases hphase : (s.workers w).executor <;> simp [isPush, hphase]
    | _ => rfl
  | api c b =>
    cases b with
    | command =>
      cases hphase : s.calls c <;> simp [isPush, hphase]
    | _ => rfl
  | maintenance | tick | tamper => rfl

theorem command_remove (e : State × Action) : (command e).any (isRemove j) = clears j e := by
  obtain ⟨s, a⟩ := e
  unfold command clears
  cases a with
  | worker w b =>
    cases b with
    | deadLetter =>
      cases hphase : (s.workers w).executor <;> simp [isRemove, hphase]
    | _ => rfl
  | api c b =>
    cases b with
    | command =>
      cases hphase : s.calls c <;> simp [isRemove, hphase]
    | _ => rfl
  | maintenance | tick | tamper => rfl

theorem countP_commands {p : Command UUID → Bool} {q : State × Action → Bool}
    (h : ∀ e, (command e).any p = q e) : (commands tr).countP p = tr.countP q := by
  rw [commands, List.countP_filterMap]
  refine List.countP_congr fun e _ => ?_
  rw [← h e]
  cases command e <;> simp

/-! ## The guarantee -/

/-- Without crashes, faults and lost leases, and if the commands on each job are executed in
the order of the commits they follow, the list is in step with the table whenever none is
outstanding: it holds no id twice, only failed jobs, and every failed job that has not been
pushed out by later pushes. -/
theorem dead_letters_in_step (hrun : Run (step settings) (State.initial now) tr s)
    (hcalm : ∀ e ∈ tr, e.1.Calm e.2)
    (horder : Throughout (fun past s a => inOrder past s a = true) tr)
    (hpushed : ∀ w j, (s.workers w).executor ≠ .deadLettering j)
    (hcleared : ∀ c j, s.calls c ≠ .clearing j) :
    s.store.redis.deadLetters.Nodup ∧
      (∀ j ∈ s.store.redis.deadLetters, ∃ row, s.row j = some row ∧ row.status = .failed) ∧
      (∀ j row, s.row j = some row → row.status = .failed → j ∉ s.store.redis.deadLetters →
        deadLetterMaxLen ≤ later j (commands tr)) ∧
      s.store.redis.deadLetters.length ≤ deadLetterMaxLen := by
  have hquiet := State.quiet_initial now
  have hlist := deadLetters_of_run hrun hcalm
  have hcommands := inOrder_of_throughout horder
  -- a job is present in the commands exactly if its row is failed
  have hpresent : ∀ j, present j (commands tr) = s.failed j := by
    intro j
    have hpushes : tr.countP (finalises j .failed) = tr.countP (buries j) :=
      hrun.settled hcalm
        (fun w => by simp [hquiet.workers w])
        (fun _ _ _ ha hstep => pushing_turnover ha.undisrupted hstep) (fun w => hpushed w j)
    have hremovals : tr.countP (reopens j) = tr.countP (clears j) :=
      hrun.settled hcalm
        (fun c => by simp [hquiet.calls c])
        (fun _ _ _ ha hstep => clearing_turnover ha.undisrupted hstep) (fun c => hcleared c j)
    have hfailures := failures_count hrun hcalm j
    have hturns := countP_push j hcommands
    rw [countP_commands command_push, countP_commands command_remove] at hturns
    cases hp : present j (commands tr) <;> cases hf : s.failed j <;> simp [hp, hf] at * <;> omega
  refine ⟨?_, ?_, ?_, ?_⟩
  · rw [hlist]
    exact nodup_run _ hcommands
  · intro j hmem
    rw [hlist] at hmem
    have hfailed := (hpresent j).symm.trans (present_of_mem hcommands hmem)
    obtain ⟨row, hrow, hstatus⟩ := (Option.any_eq_true _ _).mp hfailed
    exact ⟨row, hrow, by simpa using hstatus⟩
  · intro j row hrow hstatus hnot
    rw [hlist] at hnot
    have hfailed : s.failed j = true := by simp [State.failed_of_row hrow, hstatus]
    exact (mem_of_present _ hcommands ((hpresent j).trans hfailed)).resolve_left hnot
  · rw [hlist]
    exact length_run_le _ hcommands

/-- What is checked of the runs below, in which one worker and two calls act. -/
def calmRun (tr : List (State × Action)) (s : State) : Bool :=
  (tr.all fun e => disrupts e.1 e.2 = false ∧ freshCommit e.1 e.2 ∧ e.2.reaps = false ∧
    (e.2.worker?.all fun w => w = "w1") ∧ e.2.call?.all fun c => c = 0 ∨ c = 1) ∧
  (s.workers "w1").executor = .idle ∧ s.calls 0 = .returned (.created 1) ∧
  s.calls 1 = .returned (.retried 1)

theorem calmRun_spec (hquiet : s₀.Quiet) (hrun : Run (step settings) s₀ tr s)
    (h : calmRun tr s = true) : (∀ e ∈ tr, e.1.Calm e.2) ∧
      (∀ w j, (s.workers w).executor ≠ .deadLettering j) ∧ ∀ c j, s.calls c ≠ .clearing j := by
  simp only [calmRun, decide_eq_true_eq, List.all_eq_true] at h
  obtain ⟨hall, hworker, hcall₀, hcall₁⟩ := h
  refine ⟨?_, ?_, ?_⟩
  · intro e he
    obtain ⟨hundisrupted, hfresh, hreaps, _⟩ := hall e he
    exact ⟨hundisrupted, leaseKept_of_not_reaps hreaps, hfresh⟩
  · intro w j
    by_cases hw : w = "w1"
    · simp [hw, hworker]
    · have hstarted := worker_of_not_acted (w := w) hquiet hrun fun e he b h => by
        have hactor := (hall e he).2.2.2.1
        simp [h, Action.worker?, hw] at hactor
      simp [hstarted]
  · intro c j
    by_cases hc : c = 0 ∨ c = 1
    · rcases hc with rfl | rfl
      · simp [hcall₀]
      · simp [hcall₁]
    · have hunused := call_of_not_acted (c := c) hquiet hrun fun e he b h => by
        have hactor := (hall e he).2.2.2.2
        simp [h, Action.call?] at hactor
        exact hc hactor
      simp [hunused]

/-- A job fails for good, is retried and fails again, each command sent before the next
commit. -/
theorem dead_letters_in_step_twice :
    ∃ tr s, Run (step { defaultMaxAttempts := 1 }) (State.initial 0) tr s ∧
      s.store.redis.deadLetters = [1] ∧ s.store.redis.deadLetters.Nodup := by
  obtain ⟨tr, s, hrun, _, hcheck⟩ := run_of_check (step { defaultMaxAttempts := 1 })
    (State.initial 0)
    [.api 0 (.submit webhookRequest none), .api 0 (.insert 1), .api 0 .commit, .api 0 .command,
      .worker "w1" .dequeue, .worker "w1" (.claim 0 0), .worker "w1" .start,
      .worker "w1" (.fail .timeout 0), .worker "w1" .commit, .worker "w1" .deadLetter,
      .api 1 (.manualRetry 1 0), .api 1 .commit, .api 1 .command,
      .maintenance (.feederSelect 10 [1]), .maintenance .feederPush,
      .worker "w1" .dequeue, .worker "w1" (.claim 0 0), .worker "w1" .start,
      .worker "w1" (.fail .timeout 0), .worker "w1" .commit, .worker "w1" .deadLetter]
    (fun tr s => calmRun tr s ∧ throughout inOrder [] tr ∧ s.store.redis.deadLetters = [1])
    (by decide +kernel)
  simp only [decide_eq_true_eq] at hcheck
  obtain ⟨hcheck, horder, hlist⟩ := hcheck
  obtain ⟨hcalm, hpushed, hcleared⟩ := calmRun_spec (State.quiet_initial 0) hrun hcheck
  refine ⟨tr, s, hrun, hlist, (dead_letters_in_step hrun hcalm ?_ hpushed hcleared).1⟩
  intro past e future htr
  simpa using throughout_of_check horder past e future htr

/-- The push of a failure comes after the removal by the retry of that failure: the list
holds a pending job, and nothing will remove it. -/
theorem overtaken_push_stays :
    ∃ tr s row, Run (step { defaultMaxAttempts := 1 }) (State.initial 0) tr s ∧
      (∀ e ∈ tr, e.1.Calm e.2) ∧ (∀ w j, (s.workers w).executor ≠ .deadLettering j) ∧
      (∀ c j, s.calls c ≠ .clearing j) ∧ 1 ∈ s.store.redis.deadLetters ∧
      s.row 1 = some row ∧ row.status = .pending := by
  obtain ⟨tr, s, hrun, _, hcheck⟩ := run_of_check (step { defaultMaxAttempts := 1 })
    (State.initial 0)
    [.api 0 (.submit webhookRequest none), .api 0 (.insert 1), .api 0 .commit, .api 0 .command,
      .worker "w1" .dequeue, .worker "w1" (.claim 0 0), .worker "w1" .start,
      .worker "w1" (.fail .timeout 0), .worker "w1" .commit,
      .api 1 (.manualRetry 1 0), .api 1 .commit, .api 1 .command, .worker "w1" .deadLetter]
    (fun tr s => calmRun tr s ∧ 1 ∈ s.store.redis.deadLetters ∧
      (s.row 1).any fun row => row.status = .pending) (by decide +kernel)
  simp only [decide_eq_true_eq, Option.any_eq_true] at hcheck
  obtain ⟨hcheck, hmem, row, hrow, hstatus⟩ := hcheck
  obtain ⟨hcalm, hpushed, hcleared⟩ := calmRun_spec (State.quiet_initial 0) hrun hcheck
  exact ⟨tr, s, row, hrun, hcalm, hpushed, hcleared, hmem, hrow, hstatus⟩

end JobQueue
