import JobQueue.Model.Heartbeats
import JobQueue.System.Moves

/-!
# The processes of the workers

`run` of `app/worker/__main__.py`: a worker process gathers `run_executor_loop` and
`run_heartbeat_loop`, and a signal sets the stop event that both test before each cycle. The
executor loop takes a turn of `process_one` and waits if the queue was empty; the heartbeat
loop announces the worker, renews the lease of the job in the lease holder and waits, and on
its way out takes the worker off the list.

`deploymentStep` puts these loops around the workers of the system: a loop decides when its
task may make its next step, and the step itself is one of the system (`system_of_run`). An
exception of a loop ends the process, whether or not the heartbeat loop comes to its `finally`
clause.
-/

namespace JobQueue

open Relational Transition

/-! ## The loops -/

/-- Where `run_executor_loop` stands: before its test of the stop event, in `process_one`, in
`wait_or_stop`, after its return, or the process has died. -/
inductive ExecutorLoop
  | testing | turning | waiting | returned | dead
  deriving DecidableEq

/-- Where `run_heartbeat_loop` stands. In `beating` it awaits `worker_heartbeat`; `tending` is
from its look at the lease holder to the answer of `renew_job_lease`; in `leaving` it awaits
the `worker_offline` of its `finally` clause. -/
inductive HeartbeatLoop
  | testing | beating | tending | waiting | leaving | returned | dead
  deriving DecidableEq

structure WorkerProcess where
  stop : Bool := false
  executor : ExecutorLoop := .testing
  heartbeat : HeartbeatLoop := .testing

/-- `gather` has returned. -/
def WorkerProcess.exited (p : WorkerProcess) : Bool :=
  p.executor = .returned ∧ p.heartbeat = .returned

structure Deployment where
  system : State := {}
  /-- `workers:heartbeat` -/
  heartbeats : Heartbeats := ∅
  processes : WorkerId → WorkerProcess := fun _ => {}

def Deployment.initial (now : Timestamp) : Deployment := { system := State.initial now }

def Deployment.set (d : Deployment) (w : WorkerId) (p : WorkerProcess) : Deployment :=
  { d with processes := Function.update d.processes w p }

inductive ProcessAction
  /-- `_request_shutdown` -/
  | signal
  | testExecutor
  | turn (b : WorkerAction)
  | wakeExecutor
  | testHeartbeat
  | beat (now ttlSeconds : ℚ)
  | tend (b : WorkerAction)
  | wakeHeartbeat
  | leave
  /-- The process ends by an exception or is killed; `offline` tells whether the heartbeat
  loop still takes the worker off the list. -/
  | die (offline : Bool)

inductive DeploymentAction
  | process (w : WorkerId) (a : ProcessAction)
  /-- A step of a call, of the maintenance process or of the stores. -/
  | elsewhere (a : Action)

/-- A step of `process_one`. -/
def WorkerAction.ofTurn : WorkerAction → Bool
  | .dequeue | .claim _ _ | .start | .report _ | .finish _ _ | .fail _ _ | .commit | .deadLetter =>
      true
  | .beat | .renew _ | .settle | .crash => false

/-- A step of the heartbeat task between two waits. -/
def WorkerAction.ofBeat : WorkerAction → Bool
  | .beat | .renew _ | .settle => true
  | _ => false

def Action.ofWorker : Action → Bool
  | .worker _ _ => true
  | _ => false

/-- `process_one` returns when its executor is idle again, with `False` if that is after its
`dequeue`. -/
def ExecutorLoop.after (b : WorkerAction) (executor : Executor) : ExecutorLoop :=
  match executor, b with
  | .idle, .dequeue => .waiting
  | .idle, _ => .testing
  | _, _ => .turning

def HeartbeatLoop.after : Heartbeat → HeartbeatLoop
  | .resting => .waiting
  | .renewing _ | .answered _ _ => .tending

variable (settings : Settings)

def processStep (d : Deployment) (w : WorkerId) (p : WorkerProcess) :
    ProcessAction → Option Deployment
  | .signal => some (d.set w { p with stop := true })
  | .testExecutor =>
      match p.executor with
      | .testing => some (d.set w { p with executor := if p.stop then .returned else .turning })
      | _ => none
  | .turn b =>
      if p.executor = .turning ∧ b.ofTurn then
        (step settings d.system (.worker w b)).map fun s =>
          { d with system := s }.set w
            { p with executor := .after b (s.workers w).executor }
      else none
  | .wakeExecutor =>
      match p.executor with
      | .waiting => some (d.set w { p with executor := .testing })
      | _ => none
  | .testHeartbeat =>
      match p.heartbeat with
      | .testing => some (d.set w { p with heartbeat := if p.stop then .leaving else .beating })
      | _ => none
  | .beat now ttlSeconds =>
      match p.heartbeat with
      | .beating =>
          some ({ d with heartbeats := d.heartbeats.workerHeartbeat w now ttlSeconds }.set w
            { p with heartbeat := .tending })
      | _ => none
  | .tend b =>
      if p.heartbeat = .tending ∧ b.ofBeat then
        (step settings d.system (.worker w b)).map fun s =>
          { d with system := s }.set w
            { p with heartbeat := .after (s.workers w).heartbeat }
      else none
  | .wakeHeartbeat =>
      match p.heartbeat with
      | .waiting => some (d.set w { p with heartbeat := .testing })
      | _ => none
  | .leave =>
      match p.heartbeat with
      | .leaving =>
          some ({ d with heartbeats := d.heartbeats.workerOffline w }.set w
            { p with heartbeat := .returned })
      | _ => none
  | .die offline =>
      if p.exited then none
      else
        (step settings d.system (.worker w .crash)).map fun s =>
          { d with
            system := s
            heartbeats := if offline then d.heartbeats.workerOffline w else d.heartbeats }.set w
            { p with executor := .dead, heartbeat := .dead }

def deploymentStep (d : Deployment) : DeploymentAction → Option Deployment
  | .process w a => processStep settings d w (d.processes w) a
  | .elsewhere a =>
      if a.ofWorker then none
      else (step settings d.system a).map fun s => { d with system := s }

/-! ## What a step of a process does -/

variable {settings} {d d' : Deployment} {w : WorkerId} {p : WorkerProcess}

@[simp] theorem set_processes (d : Deployment) (w : WorkerId) (p : WorkerProcess) :
    (d.set w p).processes w = p := by
  unfold Deployment.set
  exact Function.update_self w p d.processes

theorem set_processes_ne {v : WorkerId} (h : v ≠ w) : (d.set w p).processes v = d.processes v := by
  unfold Deployment.set
  exact Function.update_of_ne h p d.processes

/-- The steps of a process, each with where its loops stand before and after, and what it does
to the system and to the list of the workers. -/
inductive ProcessMove (settings : Settings) (w : WorkerId) (d d' : Deployment)
    (p p' : WorkerProcess) : ProcessAction → Prop
  | signal (hsystem : d'.system = d.system) (hbeats : d'.heartbeats = d.heartbeats)
      (hp : p' = { p with stop := true }) : ProcessMove settings w d d' p p' .signal
  | enter (hphase : p.executor = .testing) (hstop : p.stop = false)
      (hsystem : d'.system = d.system) (hbeats : d'.heartbeats = d.heartbeats)
      (hp : p' = { p with executor := .turning }) : ProcessMove settings w d d' p p' .testExecutor
  | stopped (hphase : p.executor = .testing) (hstop : p.stop = true)
      (hsystem : d'.system = d.system) (hbeats : d'.heartbeats = d.heartbeats)
      (hp : p' = { p with executor := .returned }) : ProcessMove settings w d d' p p' .testExecutor
  | turn {b} (hphase : p.executor = .turning) (hb : b.ofTurn = true)
      (hstep : step settings d.system (.worker w b) = some d'.system)
      (hbeats : d'.heartbeats = d.heartbeats)
      (hp : p' = { p with executor := .after b (d'.system.workers w).executor }) :
      ProcessMove settings w d d' p p' (.turn b)
  | wakeExecutor (hphase : p.executor = .waiting) (hsystem : d'.system = d.system)
      (hbeats : d'.heartbeats = d.heartbeats) (hp : p' = { p with executor := .testing }) :
      ProcessMove settings w d d' p p' .wakeExecutor
  | go (hphase : p.heartbeat = .testing) (hstop : p.stop = false)
      (hsystem : d'.system = d.system) (hbeats : d'.heartbeats = d.heartbeats)
      (hp : p' = { p with heartbeat := .beating }) : ProcessMove settings w d d' p p' .testHeartbeat
  | quit (hphase : p.heartbeat = .testing) (hstop : p.stop = true)
      (hsystem : d'.system = d.system) (hbeats : d'.heartbeats = d.heartbeats)
      (hp : p' = { p with heartbeat := .leaving }) : ProcessMove settings w d d' p p' .testHeartbeat
  | beat {now ttl} (hphase : p.heartbeat = .beating) (hsystem : d'.system = d.system)
      (hbeats : d'.heartbeats = d.heartbeats.workerHeartbeat w now ttl)
      (hp : p' = { p with heartbeat := .tending }) :
      ProcessMove settings w d d' p p' (.beat now ttl)
  | tend {b} (hphase : p.heartbeat = .tending) (hb : b.ofBeat = true)
      (hstep : step settings d.system (.worker w b) = some d'.system)
      (hbeats : d'.heartbeats = d.heartbeats)
      (hp : p' = { p with heartbeat := .after (d'.system.workers w).heartbeat }) :
      ProcessMove settings w d d' p p' (.tend b)
  | wakeHeartbeat (hphase : p.heartbeat = .waiting) (hsystem : d'.system = d.system)
      (hbeats : d'.heartbeats = d.heartbeats) (hp : p' = { p with heartbeat := .testing }) :
      ProcessMove settings w d d' p p' .wakeHeartbeat
  | leave (hphase : p.heartbeat = .leaving) (hsystem : d'.system = d.system)
      (hbeats : d'.heartbeats = d.heartbeats.workerOffline w)
      (hp : p' = { p with heartbeat := .returned }) : ProcessMove settings w d d' p p' .leave
  | die {offline} (hstep : step settings d.system (.worker w .crash) = some d'.system)
      (hbeats : d'.heartbeats = if offline then d.heartbeats.workerOffline w else d.heartbeats)
      (hp : p' = { p with executor := .dead, heartbeat := .dead }) :
      ProcessMove settings w d d' p p' (.die offline)

theorem process_move {a : ProcessAction}
    (h : deploymentStep settings d (.process w a) = some d') :
    ProcessMove settings w d d' (d.processes w) (d'.processes w) a ∧
      ∀ v, v ≠ w → d'.processes v = d.processes v := by
  simp only [deploymentStep] at h
  generalize hp : d.processes w = p at h
  cases a with
  | signal =>
    cases h
    exact ⟨.signal rfl rfl (set_processes _ _ _), fun v hv => set_processes_ne hv⟩
  | testExecutor =>
    simp only [processStep] at h
    split at h
    · rename_i hphase
      cases h
      refine ⟨?_, fun v hv => set_processes_ne hv⟩
      by_cases hstop : p.stop = true
      · exact .stopped hphase hstop rfl rfl (by rw [set_processes, if_pos hstop])
      · exact .enter hphase (Bool.eq_false_of_not_eq_true hstop) rfl rfl
          (by rw [set_processes, if_neg hstop])
    · cases h
  | turn b =>
    simp only [processStep] at h
    split at h
    · rename_i hguard
      obtain ⟨s, hstep, rfl⟩ := Option.map_eq_some_iff.mp h
      exact ⟨.turn hguard.1 hguard.2 hstep rfl (set_processes _ _ _),
        fun v hv => set_processes_ne hv⟩
    · cases h
  | wakeExecutor =>
    simp only [processStep] at h
    split at h
    · rename_i hphase
      cases h
      exact ⟨.wakeExecutor hphase rfl rfl (set_processes _ _ _), fun v hv => set_processes_ne hv⟩
    · cases h
  | testHeartbeat =>
    simp only [processStep] at h
    split at h
    · rename_i hphase
      cases h
      refine ⟨?_, fun v hv => set_processes_ne hv⟩
      by_cases hstop : p.stop = true
      · exact .quit hphase hstop rfl rfl (by rw [set_processes, if_pos hstop])
      · exact .go hphase (Bool.eq_false_of_not_eq_true hstop) rfl rfl
          (by rw [set_processes, if_neg hstop])
    · cases h
  | beat now ttl =>
    simp only [processStep] at h
    split at h
    · rename_i hphase
      cases h
      exact ⟨.beat hphase rfl rfl (set_processes _ _ _), fun v hv => set_processes_ne hv⟩
    · cases h
  | tend b =>
    simp only [processStep] at h
    split at h
    · rename_i hguard
      obtain ⟨s, hstep, rfl⟩ := Option.map_eq_some_iff.mp h
      exact ⟨.tend hguard.1 hguard.2 hstep rfl (set_processes _ _ _),
        fun v hv => set_processes_ne hv⟩
    · cases h
  | wakeHeartbeat =>
    simp only [processStep] at h
    split at h
    · rename_i hphase
      cases h
      exact ⟨.wakeHeartbeat hphase rfl rfl (set_processes _ _ _), fun v hv => set_processes_ne hv⟩
    · cases h
  | leave =>
    simp only [processStep] at h
    split at h
    · rename_i hphase
      cases h
      exact ⟨.leave hphase rfl rfl (set_processes _ _ _), fun v hv => set_processes_ne hv⟩
    · cases h
  | die offline =>
    simp only [processStep] at h
    split at h
    · cases h
    · obtain ⟨s, hstep, rfl⟩ := Option.map_eq_some_iff.mp h
      exact ⟨.die hstep rfl (set_processes _ _ _), fun v hv => set_processes_ne hv⟩

theorem elsewhere_move {a : Action} (h : deploymentStep settings d (.elsewhere a) = some d') :
    a.ofWorker = false ∧ step settings d.system a = some d'.system ∧
      d'.processes = d.processes ∧ d'.heartbeats = d.heartbeats := by
  simp only [deploymentStep] at h
  split at h
  · cases h
  · rename_i hworker
    obtain ⟨s, hstep, rfl⟩ := Option.map_eq_some_iff.mp h
    exact ⟨Bool.eq_false_of_not_eq_true hworker, hstep, rfl, rfl⟩

/-! ## The system under the loops -/

/-- The action that a step takes in the system, if any. -/
def DeploymentAction.system : DeploymentAction → Option Action
  | .process w (.turn b) | .process w (.tend b) => some (.worker w b)
  | .process w (.die _) => some (.worker w .crash)
  | .process _ _ => none
  | .elsewhere a => some a

theorem system_step {a : DeploymentAction} (h : deploymentStep settings d a = some d') :
    match a.system with
    | some b => step settings d.system b = some d'.system
    | none => d'.system = d.system := by
  cases a with
  | elsewhere a => exact (elsewhere_move h).2.1
  | process w a =>
    cases (process_move h).1 with
    | turn _ _ hstep | tend _ _ hstep | die hstep => exact hstep
    | signal hsystem | enter _ _ hsystem | stopped _ _ hsystem | wakeExecutor _ hsystem
    | go _ _ hsystem | quit _ _ hsystem | beat _ hsystem | wakeHeartbeat _ hsystem
    | leave _ hsystem => exact hsystem

/-- What the processes do is a run of the system: the loops only choose among its steps. -/
theorem system_of_run {d₀ : Deployment} {tr : List (Deployment × DeploymentAction)}
    (hrun : Run (deploymentStep settings) d₀ tr d) :
    ∃ tr', Run (step settings) d₀.system tr' d.system := by
  induction hrun with
  | nil => exact ⟨[], .nil⟩
  | @snoc tr d a d' _ hstep ih =>
    obtain ⟨tr', hrun'⟩ := ih
    have hsystem := system_step hstep
    split at hsystem
    · exact ⟨_, hrun'.snoc hsystem⟩
    · rw [hsystem]
      exact ⟨tr', hrun'⟩

end JobQueue
