import JobQueue.Model.Service
import JobQueue.System.Custody
import JobQueue.System.Processes

/-!
# Graceful shutdown of a worker

The signal handler only sets an event. In every run of any number of worker processes, with
the API, the maintenance process and crashes of other workers in between: a process whose two
loops have returned leaves nothing behind, no row is processing in its name and it is not on
the list of the workers; and from its signal on it pops one more id at most, none if it has a
job, and renews a lease once at most (`graceful_shutdown`). So a job that the signal finds in
hand is finished, but its lease is not kept up.
-/

namespace JobQueue

open Relational Transition

variable {settings : Settings} {d d' : Deployment} {a : DeploymentAction} {w : WorkerId}
  {tr : List (Deployment × DeploymentAction)} {now : Timestamp}

/-! ## The phases of the loops and the tasks in them -/

/-- A loop that is not in its task finds it at rest, and a loop that has returned has seen the
stop event. -/
structure ProcessInv (d : Deployment) (w : WorkerId) : Prop where
  resting : (d.processes w).executor = .testing ∨ (d.processes w).executor = .waiting ∨
    (d.processes w).executor = .returned → (d.system.workers w).executor = .idle
  stopped : (d.processes w).executor = .returned ∨ (d.processes w).heartbeat = .leaving ∨
    (d.processes w).heartbeat = .returned → (d.processes w).stop = true
  offline : (d.processes w).heartbeat = .returned → d.heartbeats.lookup w = none

theorem after_idle {b : WorkerAction} {executor : Executor}
    (h : ExecutorLoop.after b executor ≠ .turning) : executor = .idle := by
  unfold ExecutorLoop.after at h
  split at h
  · rfl
  · rfl
  · exact absurd rfl h

theorem after_ne_returned (b : WorkerAction) (executor : Executor) :
    ExecutorLoop.after b executor ≠ .returned := by
  unfold ExecutorLoop.after
  split <;> simp

theorem heartbeat_after (beat : Heartbeat) :
    HeartbeatLoop.after beat = .waiting ∨ HeartbeatLoop.after beat = .tending := by
  cases beat with
  | resting => exact Or.inl rfl
  | renewing | answered => exact Or.inr rfl

/-- A step of the heartbeat task leaves the executor alone. -/
theorem executor_of_beat {s s' : State} {b : WorkerAction} (hb : b.ofBeat = true)
    (hstep : step settings s (.worker w b) = some s') :
    (s'.workers w).executor = (s.workers w).executor := by
  cases own_move hstep with
  | beat _ _ _ hworker | rest _ _ _ hworker | renew _ _ hworker | settle _ _ hworker =>
    rw [hworker]
  | pop | empty | claim | skip | start | report | finish | fail | commit | commitFailed
  | deadLetter | crash => cases hb

theorem heartbeat_of_turn {s s' : State} {b : WorkerAction} (hb : b.ofTurn = true)
    (hstep : step settings s (.worker w b) = some s') :
    (s'.workers w).heartbeat = (s.workers w).heartbeat := by
  cases own_move hstep with
  | pop _ _ _ hworker | empty _ _ _ hworker | claim _ _ _ _ _ hworker | skip _ _ _ _ hworker
  | start _ _ hworker | report _ _ _ hworker | finish _ _ hworker | fail _ _ hworker
  | commit _ _ _ hworker | commitFailed _ _ _ hworker | deadLetter _ _ hworker =>
    rw [hworker]
    try rfl
  | beat | rest | renew | settle | crash => cases hb

/-- A step of one worker leaves the others. -/
theorem other_worker {s s' : State} {b : Action} (hstep : step settings s b = some s')
    (hb : ∀ c, b ≠ .worker w c) : s'.workers w = s.workers w := by
  rcases worker_move hstep w with ⟨_, heq⟩ | ⟨c, rfl, _⟩
  · exact heq
  · exact absurd rfl (hb c)

/-- A beat of another worker keeps a worker on the list or takes it off. -/
theorem lookup_beat_other {h : Heartbeats} {v : WorkerId} (hne : w ≠ v) (t ttl : ℚ) :
    (h.workerHeartbeat v t ttl).lookup w = h.lookup w ∨
      (h.workerHeartbeat v t ttl).lookup w = none := by
  cases hbeat : (h.workerHeartbeat v t ttl).lookup w with
  | none => exact Or.inr rfl
  | some r =>
    left
    rw [(Heartbeats.lookup_workerHeartbeat_ne hne).mp hbeat |>.1]

/-- What another process or party does leaves a worker's task and its loops. -/
theorem other_process (hstep : deploymentStep settings d a = some d')
    (hother : ∀ b, a ≠ .process w b) :
    d'.processes w = d.processes w ∧ d'.system.workers w = d.system.workers w ∧
      (d'.heartbeats.lookup w = d.heartbeats.lookup w ∨ d'.heartbeats.lookup w = none) := by
  cases a with
  | elsewhere b =>
    obtain ⟨hworker, hsystem, hprocesses, hbeats⟩ := elsewhere_move hstep
    refine ⟨by rw [hprocesses], other_worker hsystem ?_, by rw [hbeats]; exact Or.inl rfl⟩
    rintro c rfl
    cases hworker
  | process v b =>
    have hne : w ≠ v := by
      rintro rfl
      exact hother b rfl
    have hworker : ∀ b c, Action.worker v b ≠ .worker w c := by
      intro b c heq
      cases heq
      exact hne rfl
    obtain ⟨hmove, hprocesses⟩ := process_move hstep
    refine ⟨hprocesses w hne, ?_⟩
    cases hmove with
    | turn _ _ hsystem hbeats | tend _ _ hsystem hbeats =>
      exact ⟨other_worker hsystem (hworker _), by rw [hbeats]; exact Or.inl rfl⟩
    | @die offline hsystem hbeats =>
      refine ⟨other_worker hsystem (hworker _), ?_⟩
      rw [hbeats]
      cases offline with
      | true => exact Or.inl (Heartbeats.lookup_workerOffline_ne hne)
      | false => exact Or.inl rfl
    | beat _ hsystem hbeats =>
      rw [hsystem, hbeats]
      exact ⟨rfl, lookup_beat_other hne _ _⟩
    | leave _ hsystem hbeats =>
      rw [hsystem, hbeats]
      exact ⟨rfl, Or.inl (Heartbeats.lookup_workerOffline_ne hne)⟩
    | signal hsystem hbeats | enter _ _ hsystem hbeats | stopped _ _ hsystem hbeats
    | wakeExecutor _ hsystem hbeats | go _ _ hsystem hbeats | quit _ _ hsystem hbeats
    | wakeHeartbeat _ hsystem hbeats =>
      rw [hsystem, hbeats]
      exact ⟨rfl, Or.inl rfl⟩

section

variable {b : ProcessAction}

/-- The executor loop leaves its task when the executor is idle. -/
theorem resting_step (h : ProcessInv d w)
    (hmove : ProcessMove settings w d d' (d.processes w) (d'.processes w) b) :
    (d'.processes w).executor = .testing ∨ (d'.processes w).executor = .waiting ∨
      (d'.processes w).executor = .returned → (d'.system.workers w).executor = .idle := by
  cases hmove with
  | signal hsystem _ hp | go _ _ hsystem _ hp | quit _ _ hsystem _ hp | beat _ hsystem _ hp
  | wakeHeartbeat _ hsystem _ hp | leave _ hsystem _ hp =>
    rw [hp, hsystem]
    exact h.resting
  | enter _ _ _ _ hp | die _ _ hp =>
    rw [hp]
    simp
  | stopped hphase _ hsystem =>
    rw [hsystem]
    exact fun _ => h.resting (Or.inl hphase)
  | wakeExecutor hphase hsystem =>
    rw [hsystem]
    exact fun _ => h.resting (Or.inr (Or.inl hphase))
  | @turn b _ _ _ _ hp =>
    rw [hp]
    intro hleft
    apply after_idle (b := b)
    intro hturning
    simp [hturning] at hleft
  | tend _ hb hsystem _ hp =>
    rw [hp, executor_of_beat hb hsystem]
    exact h.resting

/-- A loop is on its way out only after the signal. -/
theorem stopped_step (h : ProcessInv d w)
    (hmove : ProcessMove settings w d d' (d.processes w) (d'.processes w) b) :
    (d'.processes w).executor = .returned ∨ (d'.processes w).heartbeat = .leaving ∨
      (d'.processes w).heartbeat = .returned → (d'.processes w).stop = true := by
  cases hmove with
  | signal _ _ hp =>
    rw [hp]
    exact fun _ => rfl
  | stopped _ hstop _ _ hp | quit _ hstop _ _ hp =>
    rw [hp]
    exact fun _ => hstop
  | enter _ _ _ _ hp | wakeExecutor _ _ _ hp =>
    rw [hp]
    simpa using fun hleft => h.stopped (Or.inr hleft)
  | go _ _ _ _ hp | beat _ _ _ hp | wakeHeartbeat _ _ _ hp =>
    rw [hp]
    simpa using fun hleft => h.stopped (Or.inl hleft)
  | turn _ _ _ _ hp =>
    rw [hp]
    intro hleft
    exact h.stopped (hleft.imp_left fun hleft => absurd hleft (after_ne_returned _ _))
  | tend _ _ _ _ hp =>
    rw [hp]
    intro hleft
    rcases heartbeat_after (d'.system.workers w).heartbeat with heq | heq
    · exact h.stopped (Or.inl (by simpa [heq] using hleft))
    · exact h.stopped (Or.inl (by simpa [heq] using hleft))
  | leave hphase _ _ hp =>
    rw [hp]
    exact fun _ => h.stopped (Or.inr (Or.inl hphase))
  | die _ _ hp =>
    rw [hp]
    simp

/-- The `finally` clause of the heartbeat loop has the last word on the list. -/
theorem offline_step (h : ProcessInv d w)
    (hmove : ProcessMove settings w d d' (d.processes w) (d'.processes w) b) :
    (d'.processes w).heartbeat = .returned → d'.heartbeats.lookup w = none := by
  cases hmove with
  | signal _ hbeats hp | enter _ _ _ hbeats hp | stopped _ _ _ hbeats hp
  | turn _ _ _ hbeats hp | wakeExecutor _ _ hbeats hp =>
    rw [hp, hbeats]
    exact h.offline
  | go _ _ _ _ hp | quit _ _ _ _ hp | beat _ _ _ hp | wakeHeartbeat _ _ _ hp | die _ _ hp =>
    rw [hp]
    simp
  | tend _ _ _ _ hp =>
    rw [hp]
    intro hleft
    rcases heartbeat_after (d'.system.workers w).heartbeat with heq | heq
    · simp [heq] at hleft
    · simp [heq] at hleft
  | leave _ _ hbeats =>
    rw [hbeats]
    exact fun _ => Heartbeats.lookup_workerOffline _ _

end

theorem processInv_step (h : ProcessInv d w) (hstep : deploymentStep settings d a = some d') :
    ProcessInv d' w := by
  by_cases hown : ∃ b, a = .process w b
  · obtain ⟨b, rfl⟩ := hown
    have hmove := (process_move hstep).1
    exact ⟨resting_step h hmove, stopped_step h hmove, offline_step h hmove⟩
  · obtain ⟨hprocess, hworker, hbeats⟩ := other_process hstep fun b ha => hown ⟨b, ha⟩
    constructor
    · rw [hprocess, hworker]
      exact h.resting
    · rw [hprocess]
      exact h.stopped
    · rw [hprocess]
      intro hreturned
      rcases hbeats with heq | heq
      · rw [heq]
        exact h.offline hreturned
      · exact heq

theorem processInv_of_run (hrun : Run (deploymentStep settings) (Deployment.initial now) tr d)
    (w : WorkerId) : ProcessInv d w := by
  refine hrun.invariant (C := fun _ _ => True) (by simp) (I := fun d => ProcessInv d w) ?_ ?_
  · constructor <;> simp [Deployment.initial, State.initial]
  · intro d a d' h _ hstep
    exact processInv_step h hstep

/-! ## What a worker still does after its signal -/

/-- The worker sends its `ZPOPMIN`. -/
def pops (w : WorkerId) (e : Deployment × DeploymentAction) : Bool :=
  match e.2 with
  | .process v (.turn .dequeue) => v = w
  | _ => false

/-- The worker sends the `UPDATE` of a renewal. -/
def renews (w : WorkerId) (e : Deployment × DeploymentAction) : Bool :=
  match e.2 with
  | .process v (.tend (.renew _)) => v = w
  | _ => false

/-- The executor loop has tested the stop event and not popped yet. -/
def popsLeft (w : WorkerId) (d : Deployment) : Nat :=
  if (d.processes w).executor = .turning ∧ (d.system.workers w).executor = .idle then 1 else 0

def Heartbeat.unanswered : Heartbeat → Bool
  | .resting | .renewing _ => true
  | .answered _ _ => false

/-- The heartbeat loop has tested the stop event and not sent its renewal yet. -/
def renewsLeft (w : WorkerId) (d : Deployment) : Nat :=
  if (d.processes w).heartbeat = .beating ∨ ((d.processes w).heartbeat = .tending ∧
    (d.system.workers w).heartbeat.unanswered = true) then 1 else 0

theorem popsLeft_le (w : WorkerId) (d : Deployment) : popsLeft w d ≤ 1 := by
  unfold popsLeft
  split <;> omega

theorem renewsLeft_le (w : WorkerId) (d : Deployment) : renewsLeft w d ≤ 1 := by
  unfold renewsLeft
  split <;> omega

/-- Nothing takes a signal back. -/
theorem stop_step (hstop : (d.processes w).stop = true)
    (hstep : deploymentStep settings d a = some d') : (d'.processes w).stop = true := by
  by_cases hown : ∃ b, a = .process w b
  · obtain ⟨b, rfl⟩ := hown
    cases (process_move hstep).1 with
    | signal _ _ hp => rw [hp]
    | enter _ _ _ _ hp | stopped _ _ _ _ hp | turn _ _ _ _ hp | wakeExecutor _ _ _ hp
    | go _ _ _ _ hp | quit _ _ _ _ hp | beat _ _ _ hp | tend _ _ _ _ hp | wakeHeartbeat _ _ _ hp
    | leave _ _ _ hp | die _ _ hp =>
      rw [hp]
      exact hstop
  · rw [(other_process hstep fun b ha => hown ⟨b, ha⟩).1]
    exact hstop

/-- After the signal a worker pops only if it was about to. -/
theorem pops_step (hstop : (d.processes w).stop = true)
    (hstep : deploymentStep settings d a = some d') :
    popsLeft w d' + (if pops w (d, a) then 1 else 0) ≤ popsLeft w d := by
  by_cases hown : ∃ b, a = .process w b
  · obtain ⟨b, rfl⟩ := hown
    cases (process_move hstep).1 with
    | enter _ hgo =>
      rw [hgo] at hstop
      cases hstop
    | @turn b hphase _ hsystem _ hp =>
      -- the loop stays in its turn only with an executor that is not idle
      have hzero : popsLeft w d' = 0 := by
        refine if_neg ?_
        rintro ⟨hturning, hidle⟩
        rw [hp, hidle] at hturning
        cases b <;> cases hturning
      cases b with
      | dequeue =>
        have hidle : (d.system.workers w).executor = .idle := by
          cases own_move hsystem with
          | pop hidle | empty hidle => exact hidle
        have hone : popsLeft w d = 1 := if_pos ⟨hphase, hidle⟩
        simp [pops, hzero, hone]
      | claim | start | report | finish | fail | commit | deadLetter | beat | renew | settle
      | crash => simp [pops, hzero]
    | signal hsystem _ hp | go _ _ hsystem _ hp | quit _ _ hsystem _ hp | beat _ hsystem _ hp
    | wakeHeartbeat _ hsystem _ hp | leave _ hsystem _ hp =>
      simp [popsLeft, pops, hp, hsystem]
    | tend _ hb hsystem _ hp => simp [popsLeft, pops, hp, executor_of_beat hb hsystem]
    | stopped _ _ _ _ hp | wakeExecutor _ _ _ hp | die _ _ hp => simp [popsLeft, pops, hp]
  · obtain ⟨hprocess, hworker, _⟩ := other_process hstep fun b ha => hown ⟨b, ha⟩
    have hno : pops w (d, a) = false := by
      unfold pops
      split
      · rename_i v ha
        simp only [decide_eq_false_iff_not]
        rintro rfl
        exact hown ⟨_, ha⟩
      · rfl
    simp [popsLeft, hprocess, hworker, hno]

/-- After the signal a worker renews a lease only if it was about to. -/
theorem renews_step (hstop : (d.processes w).stop = true)
    (hstep : deploymentStep settings d a = some d') :
    renewsLeft w d' + (if renews w (d, a) then 1 else 0) ≤ renewsLeft w d := by
  by_cases hown : ∃ b, a = .process w b
  · obtain ⟨b, rfl⟩ := hown
    cases (process_move hstep).1 with
    | go _ hgo =>
      rw [hgo] at hstop
      cases hstop
    | beat hphase _ _ hp =>
      have hone : renewsLeft w d = 1 := if_pos (Or.inl hphase)
      have hle := renewsLeft_le w d'
      simp only [renews, Bool.false_eq_true, if_false]
      omega
    | tend hphase _ hsystem _ hp =>
      cases own_move hsystem with
      | beat hresting | rest hresting =>
        have hone : renewsLeft w d = 1 := if_pos (Or.inr ⟨hphase, by rw [hresting]; rfl⟩)
        have hle := renewsLeft_le w d'
        simp only [renews, Bool.false_eq_true, if_false]
        omega
      | renew hrenewing _ hworker =>
        have hone : renewsLeft w d = 1 := if_pos (Or.inr ⟨hphase, by rw [hrenewing]; rfl⟩)
        have hzero : renewsLeft w d' = 0 := by
          simp [renewsLeft, hp, hworker, HeartbeatLoop.after, Heartbeat.unanswered]
        simp [renews, hzero, hone]
      | settle _ _ hworker => simp [renewsLeft, renews, hp, hworker, HeartbeatLoop.after]
      | pop | empty | claim | skip | start | report | finish | fail | commit | commitFailed
      | deadLetter | crash => contradiction
    | turn _ hb hsystem _ hp => simp [renewsLeft, renews, hp, heartbeat_of_turn hb hsystem]
    | signal hsystem _ hp | enter _ _ hsystem _ hp | stopped _ _ hsystem _ hp
    | wakeExecutor _ hsystem _ hp => simp [renewsLeft, renews, hp, hsystem]
    | quit _ _ _ _ hp | wakeHeartbeat _ _ _ hp | leave _ _ _ hp | die _ _ hp =>
      simp [renewsLeft, renews, hp]
  · obtain ⟨hprocess, hworker, _⟩ := other_process hstep fun b ha => hown ⟨b, ha⟩
    have hno : renews w (d, a) = false := by
      unfold renews
      split
      · rename_i v clock ha
        simp only [decide_eq_false_iff_not]
        rintro rfl
        exact hown ⟨_, ha⟩
      · rfl
    simp [renewsLeft, hprocess, hworker, hno]

/-! ## The guarantee -/

/-- A worker process that has returned has had its signal, and leaves nothing behind: its
executor is idle, no row is processing in its name and it is not on the list. From its signal
on a worker pops one more id at most, none if it is busy with a job, and renews a lease once
at most. -/
theorem graceful_shutdown (hrun : Run (deploymentStep settings) (Deployment.initial now) tr d)
    (w : WorkerId) :
    ((d.processes w).exited = true → (d.processes w).stop = true ∧
      (d.system.workers w).executor = .idle ∧
      (∀ j row, d.system.row j = some row → row.status = .processing → row.workerId ≠ some w) ∧
      ∀ t ttl r, (w, r) ∉ d.heartbeats.listAliveWorkers t ttl) ∧
    ∀ past e future, tr = past ++ e :: future → (e.1.processes w).stop = true →
      (e :: future).countP (pops w) ≤ 1 ∧
      ((e.1.system.workers w).executor ≠ .idle → (e :: future).countP (pops w) = 0) ∧
      (e :: future).countP (renews w) ≤ 1 := by
  have hinv := processInv_of_run hrun w
  refine ⟨?_, ?_⟩
  · intro hexited
    obtain ⟨hexecutor, hheartbeat⟩ := by simpa [WorkerProcess.exited] using hexited
    have hidle := hinv.resting (Or.inr (Or.inr hexecutor))
    refine ⟨hinv.stopped (Or.inl hexecutor), hidle, ?_, ?_⟩
    · intro j row hrow hstatus hworker
      obtain ⟨tr', hsystem⟩ := system_of_run hrun
      rcases custody_of_run hsystem j row w hrow ⟨hstatus, hworker, rfl⟩ with
        hcrashed | ⟨m, hm, _⟩
      · rw [hidle] at hcrashed
        cases hcrashed
      · rw [State.inHand, hidle] at hm
        cases hm
    · intro t ttl r hlisted
      have hlookup := (Heartbeats.mem_listAliveWorkers.mp hlisted).1
      rw [hinv.offline hheartbeat] at hlookup
      cases hlookup
  · rintro past e future rfl hstop
    obtain ⟨t, _, hrest⟩ := hrun.cut
    obtain rfl : e.1 = t := hrest.head
    have hpops := (hrest.spends (J := fun d => (d.processes w).stop = true)
      (f := popsLeft w) (p := pops w) hstop
      fun _ _ _ hstop hstep => ⟨stop_step hstop hstep, pops_step hstop hstep⟩).2
    have hrenews := (hrest.spends (J := fun d => (d.processes w).stop = true)
      (f := renewsLeft w) (p := renews w) hstop
      fun _ _ _ hstop hstep => ⟨stop_step hstop hstep, renews_step hstop hstep⟩).2
    have hpop := popsLeft_le w e.1
    have hrenew := renewsLeft_le w e.1
    refine ⟨by omega, ?_, by omega⟩
    intro hbusy
    have hzero : popsLeft w e.1 = 0 := if_neg fun h => hbusy h.2
    omega

/-- The signal comes while a job is running: the lease is renewed once more, the heartbeat loop
returns, the job is completed and the process returns. -/
theorem graceful_shutdown_busy :
    ∃ tr d, Run (deploymentStep {}) (Deployment.initial 0) tr d ∧
      (d.processes "w1").exited = true ∧ (d.system.row 1).map Job.status = some .completed ∧
      (d.system.workers "w1").executor = .idle ∧
      ∀ t ttl r, ("w1", r) ∉ d.heartbeats.listAliveWorkers t ttl := by
  obtain ⟨tr, d, hrun, _, hcheck⟩ := run_of_check (deploymentStep {}) (Deployment.initial 0)
    [.elsewhere (.api 0 (.submit webhookRequest none)), .elsewhere (.api 0 (.insert 1)),
      .elsewhere (.api 0 .commit), .elsewhere (.api 0 .command), .process "w1" .testExecutor,
      .process "w1" (.turn .dequeue), .process "w1" .testHeartbeat, .process "w1" (.beat 0 1),
      .process "w1" (.turn (.claim 0 0)), .process "w1" (.turn .start),
      .process "w1" (.tend .beat), .process "w1" .signal, .process "w1" (.tend (.renew 0)),
      .process "w1" (.tend .settle), .process "w1" .wakeHeartbeat, .process "w1" .testHeartbeat,
      .process "w1" .leave, .process "w1" (.turn (.finish .null 0)),
      .process "w1" (.turn .commit), .process "w1" .testExecutor]
    (fun _ d => (d.processes "w1").exited = true ∧
      (d.system.row 1).map Job.status = some .completed) (by decide +kernel)
  simp only [decide_eq_true_eq] at hcheck
  obtain ⟨_, hidle, _, hlisted⟩ := (graceful_shutdown hrun "w1").1 hcheck.1
  exact ⟨tr, d, hrun, hcheck.1, hcheck.2, hidle, hlisted⟩

end JobQueue
