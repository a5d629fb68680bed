import JobQueue.Guarantees.Exclusion
import JobQueue.System.Lifecycle
import Mathlib.Tactic.Linarith

/-!
# How long a lease has to be

Mutual exclusion rests on leases that outlive their attempts, and a lease is a matter of
time: it is taken by the worker's clock, and the heartbeat renews it when its turn comes. Here
the turns are given deadlines. The executor starts a handler within `delay` of its claim. The
heartbeat task rests for `interval` at most, and each of its round trips, that of
`worker_heartbeat` among them, takes `delay` at most. The clock reading that a lease is taken
from is behind the database's clock by `skew` at most. The longest gap is that of a worker whose
heartbeat is still busy with its previous job: four delays and an interval. A lease of that
length, and the skew, is never out while its worker lives (`leases_outlive_attempts`).
-/

namespace JobQueue

open Relational Transition

/-! ## Deadlines -/

structure Pace where
  /-- The rest of the heartbeat between two turns. -/
  interval : Timestamp
  /-- From one step of a turn, or of a claimed attempt, to the next. -/
  delay : Timestamp
  /-- How far the reading of a worker's clock may be behind the database's clock when the lease
  taken from it is written. -/
  skew : Timestamp
  interval_nonneg : 0 ≤ interval
  delay_nonneg : 0 ≤ delay

variable {settings : Settings} {pace : Pace} {s s' s₀ : State} {a : Action}
  {tr : List (State × Action)} {w : WorkerId} {m : Mapped} {row row' : Job} {t₀ : Timestamp}

/-- A step of the heartbeat task of worker `w`. -/
def beats (w : WorkerId) (e : State × Action) : Bool :=
  match e.2 with
  | .worker v .beat | .worker v (.renew _) | .worker v .settle => v = w
  | _ => false

/-- A `claim_job` of worker `w`. -/
def claimsBy (w : WorkerId) (e : State × Action) : Bool :=
  match e.2 with
  | .worker v (.claim _ _) => v = w
  | _ => false

/-- How long the heartbeat may stay where it stands. After a rest comes the round trip of
`worker_heartbeat`, and then the look at the lease holder. -/
def Pace.gap (pace : Pace) : Heartbeat → Timestamp
  | .resting => pace.interval + pace.delay
  | _ => pace.delay

/-- When the next step of the heartbeat of worker `w` is due. -/
def beatDue (pace : Pace) (t₀ : Timestamp) (w : WorkerId) (past : List (State × Action))
    (s : State) : Timestamp :=
  latest (beats w) (fun s => s.store.now) t₀ past + pace.gap (s.workers w).heartbeat

/-- When the attempt that worker `w` has claimed is due to start. -/
def startDue (pace : Pace) (t₀ : Timestamp) (w : WorkerId) (past : List (State × Action)) :
    Timestamp :=
  latest (claimsBy w) (fun s => s.store.now) t₀ past + pace.delay

/-- Time does not pass the deadlines of a worker with a job in hand, and the clocks that leases
are taken by are not far behind. -/
def Punctual (pace : Pace) (t₀ : Timestamp) (past : List (State × Action)) (s : State) :
    Action → Prop
  | .tick t => ∀ w m, s.inHand w = some m → t ≤ beatDue pace t₀ w past s ∧
      ((s.workers w).executor = .claimed m → t ≤ startDue pace t₀ w past)
  | .worker _ (.claim _ clock) | .worker _ (.renew clock) => s.store.now - pace.skew ≤ clock
  | _ => True

/-- The heartbeat resumes from a renewal that found nothing, and clears the holder of an
attempt of the same job that has started since. -/
def overtakes (e : State × Action) : Bool :=
  match e.2 with
  | .worker w .settle =>
      match (e.1.workers w).executor, (e.1.workers w).heartbeat with
      | .executing m, .answered jobId false | .finalising m, .answered jobId false => jobId = m.id
      | _, _ => false
  | _ => false

/-! ## The lease holder -/

/-- The holder names the job of the handler that runs, and nothing before it starts. -/
def Worker.HolderSet (p : Worker) : Prop :=
  match p.executor with
  | .executing m | .finalising m => p.holder = some m.id
  | .deadLettering jobId => p.holder = none ∨ p.holder = some jobId
  | .idle | .popped _ | .claimed _ | .crashed => p.holder = none

/-- A heartbeat that finds a job while one is in hand finds that one. -/
theorem Worker.HolderSet.beat_id {p : Worker} {jobId : UUID} (h : p.HolderSet)
    (hm : p.executor.inHand = some m) (hholder : p.holder = some jobId) : jobId = m.id := by
  unfold Worker.HolderSet at h
  cases hexecutor : p.executor with
  | executing n | finalising n =>
    rw [hexecutor] at hm h
    cases hm
    simpa [hholder] using h
  | claimed n =>
    rw [hexecutor] at h
    simp [hholder] at h
  | idle | popped _ | deadLettering _ | crashed =>
    rw [hexecutor] at hm
    cases hm

/-- A heartbeat that finds no job while one is in hand is ahead of its start. -/
theorem Worker.HolderSet.claimed_of_none {p : Worker} (h : p.HolderSet)
    (hm : p.executor.inHand = some m) (hholder : p.holder = none) : p.executor = .claimed m := by
  unfold Worker.HolderSet at h
  cases hexecutor : p.executor with
  | executing n | finalising n =>
    rw [hexecutor] at h
    simp [hholder] at h
  | claimed n =>
    rw [hexecutor] at hm
    cases hm
    rfl
  | idle | popped _ | deadLettering _ | crashed =>
    rw [hexecutor] at hm
    cases hm

theorem holderSet_step (h : (s.workers w).HolderSet) (hkept : overtakes (s, a) = false)
    (hstep : step settings s a = some s') : (s'.workers w).HolderSet := by
  rcases worker_move hstep w with ⟨_, hsame⟩ | ⟨b, rfl, hmove⟩
  · rwa [hsame]
  · unfold Worker.HolderSet at h ⊢
    cases hmove with
    | pop hphase _ _ hworker | skip hphase _ _ _ hworker | claim hphase _ _ _ _ hworker =>
      rw [hphase] at h
      rw [hworker]
      exact h
    | start _ _ hworker =>
      rw [hworker]
    | report hphase _ _ hworker | finish hphase _ hworker | fail hphase _ hworker =>
      rw [hphase] at h
      rw [hworker]
      exact h
    | commit hphase _ _ hworker =>
      rw [hphase] at h
      rw [hworker]
      simp [Worker.release, h]
    | commitFailed hphase _ _ hworker =>
      rw [hphase] at h
      rw [hworker]
      exact Or.inr h
    | deadLetter hphase _ hworker =>
      rw [hphase] at h
      rw [hworker]
      rcases h with h | h <;> simp [Worker.release, h]
    | empty _ _ _ hworker | beat _ _ _ hworker | rest _ _ _ hworker | renew _ _ hworker =>
      rw [hworker]
      exact h
    | @settle jobId renewed hanswered _ hworker =>
      rw [hworker]
      cases hexecutor : (s.workers w).executor with
      | executing m | finalising m =>
        rw [hexecutor] at h
        simp only at h
        have hother : ¬ (renewed = false ∧ jobId = m.id) := by
          rintro ⟨rfl, rfl⟩
          simp [overtakes, hexecutor, hanswered] at hkept
        cases renewed with
        | true => simpa using h
        | false =>
          have hne : ¬ m.id = jobId := fun heq => hother ⟨rfl, heq.symm⟩
          simp [h, hne]
      | deadLettering jobId' =>
        rw [hexecutor] at h
        rcases h with h | h
        · simp [h]
        · simp only [h]
          split
          · exact Or.inl rfl
          · exact Or.inr rfl
      | idle | popped _ | claimed _ | crashed =>
        rw [hexecutor] at h
        simp [h]
    | crash _ hworker =>
      rw [hworker]

/-! ## The lease of an attempt in hand -/

/-- The `UPDATE` of the heartbeat finds the row that is its worker's. -/
theorem renew_row {clock : Timestamp} (hstep : step settings s (.worker w (.renew clock)) = some s')
    (hrenewing : (s.workers w).heartbeat = .renewing m.id) (hrow : s.row m.id = some row)
    (hholds : Holds w m row) :
    s'.row m.id = some { row with leasedUntil := some (clock + settings.workerLease) } := by
  cases own_move hstep with
  | renew hphase hstore _ =>
    rw [hrenewing] at hphase
    cases hphase
    have hheld : row.heldBy w = true := by
      simp [Job.heldBy, hholds.row_status, hholds.row_worker]
    have hjobs : s.store.jobs.lookup m.id = some row := hrow
    rw [State.row, hstore]
    simp only [renewJobLease, Table.lookup_updateWhere, if_true, hjobs, Option.map_some, hheld]

/-- No other step changes the lease of a job in hand. -/
theorem lease_step (h : s.Holding) (hshaped : s.Shaped settings) (hno : ¬ s.Intrudes settings a)
    (hstep : step settings s a = some s') (hm : s.inHand w = some m)
    (hrow : s.row m.id = some row) (hrow' : s'.row m.id = some row') (hown : a ≠ .worker w .commit)
    (hrenew : ∀ clock, a = .worker w (.renew clock) → (s.workers w).heartbeat ≠ .renewing m.id) :
    row'.leasedUntil = row.leasedUntil := by
  obtain ⟨row₁, hholdsrow, hholds⟩ := h w m hm
  rw [hrow] at hholdsrow
  cases hholdsrow
  have hstatus := hholds.row_status
  obtain ⟨row₁, hrow₁, hcase⟩ := row_step hstep hrow
  rw [hrow'] at hrow₁
  cases hrow₁
  rcases hcase with rfl | hchange
  · rfl
  · have hchange' := hchange
    cases hchange with
    | claim _ _ hready =>
      rw [Job.ready_iff] at hready
      exact absurd (hready.1.symm.trans hstatus) (by simp)
    | @report v pct n _ hexecuting =>
      have hshape := hshaped.executor v
      rw [hexecuting] at hshape
      simp [Mapped.flush, reportProgress, hshape.2]
    | @finalise v n _ hfinalising hid =>
      have hsame := holder_unique h (inHand_of_finalising hfinalising) hm hid
      exact absurd rfl (hsame ▸ hown)
    | @renew v clock _ hrenewing hheld =>
      simp only [Job.heldBy, decide_eq_true_eq] at hheld
      have hsame : v = w := by
        have := hheld.2.symm.trans hholds.row_worker
        simpa using this
      subst hsame
      exact absurd hrenewing (hrenew clock rfl)
    | cancel | retry =>
      exact absurd ⟨w, m, row, _, hm, hrow, hchange', Or.inr ⟨_, rfl⟩⟩ hno
    | promote _ hdue =>
      rw [Job.dueAt_iff] at hdue
      exact absurd (hdue.1.symm.trans hstatus) (by simp)
    | reap =>
      exact absurd ⟨w, m, row, _, hm, hrow, hchange', Or.inl ⟨_, rfl⟩⟩ hno
    | cleanup => rfl

theorem ExclusionInv.not_intrudes (h : ExclusionInv tr s) (hatomic : callAtomic tr s a = true)
    (hlive : s.LeasesLive) : ¬ s.Intrudes settings a := by
  refine JobQueue.not_intrudes h.holding hlive.leaseKept ?_
  rintro c m row rfl hcall hrow
  have hnone : since c tr = [] := by
    rcases hcall with hc | hc <;> simpa [callAtomic, hc] using hatomic
  obtain ⟨row', hrow', hstatus⟩ := h.fresh c m hcall hnone
  rw [hrow] at hrow'
  cases hrow'
  exact hstatus

/-! ## The invariant -/

/-- From the time the heartbeat's next step is due, how long until it has renewed job `j`. -/
def Heartbeat.patience (pace : Pace) (j : UUID) : Heartbeat → Timestamp
  | .resting => pace.delay
  | .renewing jobId => if jobId = j then 0 else pace.interval + 3 * pace.delay
  | .answered _ _ => pace.interval + 2 * pace.delay

/-- The length a lease needs. -/
def Pace.margin (pace : Pace) : Timestamp := pace.interval + 4 * pace.delay + pace.skew

/-- The lease until `t` of the attempt `m` of worker `w` lasts until it is renewed. -/
structure Timely (settings : Settings) (pace : Pace) (t₀ : Timestamp) (w : WorkerId) (m : Mapped)
    (tr : List (State × Action)) (s : State) (t : Timestamp) : Prop where
  now : s.store.now + (s.workers w).heartbeat.patience pace m.id + settings.workerLease ≤
    t + pace.margin
  due : beatDue pace t₀ w tr s + (s.workers w).heartbeat.patience pace m.id +
    settings.workerLease ≤ t + pace.margin
  started : (s.workers w).executor = .claimed m → s.store.now ≤ startDue pace t₀ w tr
  start : (s.workers w).executor = .claimed m →
    startDue pace t₀ w tr + pace.interval + 2 * pace.delay + settings.workerLease ≤
      t + pace.margin

structure LeaseInv (settings : Settings) (pace : Pace) (t₀ : Timestamp)
    (tr : List (State × Action)) (s : State) : Prop where
  exclusion : ExclusionInv tr s
  holder : ∀ w, (s.workers w).HolderSet
  timely : ∀ w m row, s.inHand w = some m → s.row m.id = some row →
    ∃ t, row.leasedUntil = some t ∧ Timely settings pace t₀ w m tr s t

theorem Heartbeat.patience_nonneg (pace : Pace) (j : UUID) (b : Heartbeat) :
    0 ≤ b.patience pace j := by
  have hinterval := pace.interval_nonneg
  have hdelay := pace.delay_nonneg
  unfold Heartbeat.patience
  split
  · exact hdelay
  · split
    · exact le_rfl
    · linarith
  · linarith

theorem LeaseInv.live (h : LeaseInv settings pace t₀ tr s)
    (hlease : pace.margin ≤ settings.workerLease) : s.LeasesLive := by
  intro w m row t hm hrow ht
  obtain ⟨t', ht', htimely⟩ := h.timely w m row hm hrow
  rw [ht] at ht'
  cases ht'
  have hnow := htimely.now
  have hpatience := Heartbeat.patience_nonneg pace m.id (s.workers w).heartbeat
  linarith

/-! ## A step -/

theorem beatDue_other (h : beats w (s, a) = false)
    (hsame : (s'.workers w).heartbeat = (s.workers w).heartbeat) :
    beatDue pace t₀ w (tr ++ [(s, a)]) s' = beatDue pace t₀ w tr s := by
  rw [beatDue, beatDue, latest_snoc, h, hsame]
  rfl

theorem beatDue_own (h : beats w (s, a) = true) :
    beatDue pace t₀ w (tr ++ [(s, a)]) s' = s.store.now + pace.gap (s'.workers w).heartbeat := by
  rw [beatDue, latest_snoc, h]
  rfl

theorem startDue_other (h : claimsBy w (s, a) = false) :
    startDue pace t₀ w (tr ++ [(s, a)]) = startDue pace t₀ w tr := by
  rw [startDue, startDue, latest_snoc, h]
  rfl

/-- Steps of others leave an attempt its lease, and time stays within its deadlines. -/
theorem Timely.other {t : Timestamp} (h : Timely settings pace t₀ w m tr s t)
    (hm : s.inHand w = some m) (hpunctual : Punctual pace t₀ tr s a)
    (hother : ∀ b, a ≠ .worker w b) (hstep : step settings s a = some s')
    (hsame : s'.workers w = s.workers w) : Timely settings pace t₀ w m (tr ++ [(s, a)]) s' t := by
  have hbeats : beats w (s, a) = false := by
    unfold beats
    split <;> simp_all
  have hclaims : claimsBy w (s, a) = false := by
    unfold claimsBy
    split <;> simp_all
  have hdue : beatDue pace t₀ w (tr ++ [(s, a)]) s' = beatDue pace t₀ w tr s :=
    beatDue_other hbeats (by rw [hsame])
  have hstart : startDue pace t₀ w (tr ++ [(s, a)]) = startDue pace t₀ w tr :=
    startDue_other hclaims
  have hnow : s'.store.now ≤ s.store.now ∨ (s'.store.now ≤ beatDue pace t₀ w tr s ∧
      ((s.workers w).executor = .claimed m → s'.store.now ≤ startDue pace t₀ w tr)) := by
    cases move_of_step hstep with
    | worker hmove _ _ _ => exact Or.inl hmove.now_eq.le
    | api hmove _ _ _ => exact Or.inl hmove.now_eq.le
    | maintenance hmove _ _ => exact Or.inl hmove.now_eq.le
    | tick _ hstore _ _ _ =>
      right
      rw [hstore]
      exact hpunctual w m hm
    | tamper hstore _ _ _ =>
      left
      rw [hstore]
  have hwas := h.now
  have hbeat := h.due
  refine ⟨?_, ?_, ?_, ?_⟩
  · rw [hsame]
    rcases hnow with hle | ⟨hle, _⟩
    · linarith
    · linarith
  · rw [hsame, hdue]
    exact hbeat
  · rw [hsame, hstart]
    intro hclaimed
    rcases hnow with hle | ⟨_, hle⟩
    · exact hle.trans (h.started hclaimed)
    · exact hle hclaimed
  · rw [hsame, hstart]
    exact h.start

/-- A heartbeat that is just about to take its next step renews within the margin. -/
theorem Pace.gap_add_patience_le (j : UUID) (b : Heartbeat) :
    pace.gap b + b.patience pace j ≤ pace.interval + 4 * pace.delay := by
  have hinterval := pace.interval_nonneg
  have hdelay := pace.delay_nonneg
  unfold Pace.gap Heartbeat.patience
  cases b with
  | resting =>
    simp only
    linarith
  | renewing jobId =>
    simp only
    split <;> linarith
  | answered _ _ =>
    simp only
    linarith

theorem Pace.gap_nonneg (b : Heartbeat) : 0 ≤ pace.gap b := by
  unfold Pace.gap
  split
  · exact add_nonneg pace.interval_nonneg pace.delay_nonneg
  · exact pace.delay_nonneg

theorem Pace.patience_le (j : UUID) (b : Heartbeat) :
    b.patience pace j ≤ pace.interval + 4 * pace.delay := by
  have hgap : 0 ≤ pace.gap b := pace.gap_nonneg b
  have hsum := pace.gap_add_patience_le j b
  linarith

/-- A fresh claim lasts until the heartbeat comes to it, wherever the heartbeat stands. -/
theorem timely_claim {began clock : Timestamp} {m' : Mapped}
    (hrun : Run (step settings) s₀ tr s) (hskew : s.store.now - pace.skew ≤ clock)
    (hstep : step settings s (.worker w (.claim began clock)) = some s')
    (hbeat : (s'.workers w).heartbeat = (s.workers w).heartbeat) :
    Timely settings pace s₀.store.now w m' (tr ++ [(s, .worker w (.claim began clock))]) s'
      (clock + settings.workerLease) := by
  have hnow : s'.store.now = s.store.now := (own_move hstep).now_eq
  have hlast : latest (beats w) (fun s => s.store.now) s₀.store.now tr ≤ s.store.now :=
    hrun.latest_le (f := fun s => s.store.now) (fun _ _ _ => now_step) _
  have hdue : beatDue pace s₀.store.now w (tr ++ [(s, .worker w (.claim began clock))]) s' =
      beatDue pace s₀.store.now w tr s := beatDue_other rfl hbeat
  have hstart : startDue pace s₀.store.now w (tr ++ [(s, .worker w (.claim began clock))]) =
      s.store.now + pace.delay := by
    rw [startDue, latest_snoc]
    simp [claimsBy]
  have hsum := pace.gap_add_patience_le m'.id (s.workers w).heartbeat
  have hpatience := pace.patience_le m'.id (s.workers w).heartbeat
  have hdelay := pace.delay_nonneg
  refine ⟨?_, ?_, ?_, ?_⟩
  · rw [hnow, hbeat, Pace.margin]
    linarith
  · rw [hdue, beatDue, hbeat, Pace.margin]
    linarith
  · intro _
    rw [hnow, hstart]
    linarith
  · intro _
    rw [hstart, Pace.margin]
    linarith

/-- The executor goes on with its attempt. -/
theorem Timely.proceed {t : Timestamp} {b : WorkerAction} {m' : Mapped}
    (h : Timely settings pace t₀ w m tr s t) (hid : m'.id = m.id)
    (hstep : step settings s (.worker w b) = some s')
    (hbeats : beats w (s, .worker w b) = false)
    (hbeat : (s'.workers w).heartbeat = (s.workers w).heartbeat)
    (hexecutor : ∀ n, (s'.workers w).executor ≠ .claimed n) :
    Timely settings pace t₀ w m' (tr ++ [(s, .worker w b)]) s' t := by
  have hnow : s'.store.now = s.store.now := (own_move hstep).now_eq
  refine ⟨?_, ?_, fun hclaimed => absurd hclaimed (hexecutor m'),
    fun hclaimed => absurd hclaimed (hexecutor m')⟩
  · rw [hnow, hbeat, hid]
    exact h.now
  · rw [beatDue_other hbeats hbeat, hbeat, hid]
    exact h.due

/-- The heartbeat takes a step and is not further from the renewal than it was. -/
theorem Timely.beat {t : Timestamp} {b : WorkerAction}
    (h : Timely settings pace t₀ w m tr s t)
    (hstep : step settings s (.worker w b) = some s')
    (hbeats : beats w (s, .worker w b) = true) (hclaims : claimsBy w (s, .worker w b) = false)
    (hexecutor : (s'.workers w).executor = (s.workers w).executor)
    (hnearer : pace.gap (s'.workers w).heartbeat + (s'.workers w).heartbeat.patience pace m.id ≤
      (s.workers w).heartbeat.patience pace m.id) :
    Timely settings pace t₀ w m (tr ++ [(s, .worker w b)]) s' t := by
  have hnow : s'.store.now = s.store.now := (own_move hstep).now_eq
  have hgap : 0 ≤ pace.gap (s'.workers w).heartbeat := pace.gap_nonneg _
  have hwas := h.now
  refine ⟨?_, ?_, ?_, ?_⟩
  · rw [hnow]
    linarith
  · rw [beatDue_own hbeats]
    linarith
  · rw [hexecutor, hnow, startDue_other hclaims]
    exact h.started
  · rw [hexecutor, startDue_other hclaims]
    exact h.start

/-- The heartbeat finds no job before the claimed one starts, and comes back in time. -/
theorem Timely.rest {t : Timestamp} (h : Timely settings pace t₀ w m tr s t)
    (hclaimed : (s.workers w).executor = .claimed m)
    (hstep : step settings s (.worker w .beat) = some s') (hsame : s'.workers w = s.workers w)
    (hresting : (s.workers w).heartbeat = .resting) :
    Timely settings pace t₀ w m (tr ++ [(s, .worker w .beat)]) s' t := by
  have hnow : s'.store.now = s.store.now := (own_move hstep).now_eq
  have hbeats : beats w (s, .worker w .beat) = true := by simp [beats]
  have hstart : startDue pace t₀ w (tr ++ [(s, .worker w .beat)]) = startDue pace t₀ w tr :=
    startDue_other rfl
  have hwas := h.now
  have hstarted := h.started hclaimed
  have hlast := h.start hclaimed
  refine ⟨?_, ?_, ?_, ?_⟩
  · rw [hnow, hsame]
    exact hwas
  · rw [beatDue_own hbeats, hsame, hresting]
    simp only [Pace.gap, Heartbeat.patience]
    linarith
  · rw [hsame, hnow, hstart]
    exact h.started
  · rw [hsame, hstart]
    exact h.start

/-- The renewal of the job in hand. -/
theorem Timely.renew {t clock : Timestamp} {renewed : Bool} (hrun : Run (step settings) s₀ tr s)
    (h : Timely settings pace s₀.store.now w m tr s t)
    (hskew : s.store.now - pace.skew ≤ clock)
    (hstep : step settings s (.worker w (.renew clock)) = some s')
    (hworker : s'.workers w = { s.workers w with heartbeat := .answered m.id renewed }) :
    Timely settings pace s₀.store.now w m (tr ++ [(s, .worker w (.renew clock))]) s'
      (clock + settings.workerLease) := by
  have hnow : s'.store.now = s.store.now := (own_move hstep).now_eq
  have hbeats : beats w (s, .worker w (.renew clock)) = true := by simp [beats]
  have hstart : startDue pace s₀.store.now w (tr ++ [(s, .worker w (.renew clock))]) =
      startDue pace s₀.store.now w tr := startDue_other rfl
  have hclaimed : latest (claimsBy w) (fun s => s.store.now) s₀.store.now tr ≤ s.store.now :=
    hrun.latest_le (f := fun s => s.store.now) (fun _ _ _ => now_step) _
  have hinterval := pace.interval_nonneg
  have hdelay := pace.delay_nonneg
  refine ⟨?_, ?_, ?_, ?_⟩
  · rw [hnow, hworker, Pace.margin]
    simp only [Heartbeat.patience]
    linarith
  · rw [beatDue_own hbeats, hworker, Pace.margin]
    simp only [Pace.gap, Heartbeat.patience]
    linarith
  · rw [hworker, hnow, hstart]
    exact h.started
  · intro _
    rw [hstart, startDue, Pace.margin]
    linarith

theorem timely_step {m' : Mapped} (hrun : Run (step settings) s₀ tr s)
    (h : LeaseInv settings pace s₀.store.now tr s) (hshaped : s.Shaped settings)
    (hno : ¬ s.Intrudes settings a) (hpunctual : Punctual pace s₀.store.now tr s a)
    (hstep : step settings s a = some s') (hm' : s'.inHand w = some m')
    (hrow' : s'.row m'.id = some row') :
    ∃ t, row'.leasedUntil = some t ∧
      Timely settings pace s₀.store.now w m' (tr ++ [(s, a)]) s' t := by
  -- what the attempt has before the step, if it is in hand by then
  have hbefore : ∀ m, s.inHand w = some m → m.id = m'.id → a ≠ .worker w .commit →
      ∃ row t, s.row m.id = some row ∧ Holds w m row ∧
        Timely settings pace s₀.store.now w m tr s t ∧
        ((∀ clock, a = .worker w (.renew clock) → (s.workers w).heartbeat ≠ .renewing m.id) →
          row'.leasedUntil = some t) := by
    intro m hm hid hown
    obtain ⟨row, hrow, hholds⟩ := h.exclusion.holding w m hm
    obtain ⟨t, ht, htimely⟩ := h.timely w m row hm hrow
    refine ⟨row, t, hrow, hholds, htimely, fun hrenew => ?_⟩
    rw [lease_step h.exclusion.holding hshaped hno hstep hm hrow (by rw [hid]; exact hrow') hown
      hrenew, ht]
  rcases worker_move hstep w with ⟨hother, hsame⟩ | ⟨b, rfl, hmove⟩
  · have hm : s.inHand w = some m' := by
      rw [State.inHand, ← hsame]
      exact hm'
    obtain ⟨row, t, _, _, htimely, hlease⟩ := hbefore m' hm rfl (hother _)
    exact ⟨t, hlease fun clock heq => absurd heq (hother _),
      htimely.other hm hpunctual hother hstep hsame⟩
  · have hinHand := hm'
    rw [State.inHand] at hinHand
    have hholder := h.holder w
    cases hmove with
    | @claim began clock jobId row hpopped _ hrow _ hstore hworker =>
      rw [hworker] at hinHand
      cases hinHand
      refine ⟨clock + settings.workerLease, ?_, timely_claim hrun hpunctual hstep (by rw [hworker])⟩
      have hnew : s'.row jobId = some (row.claim began clock settings.workerLease w) := by
        rw [State.row, hstore]
        exact AList.lookup_insert _
      have hrow'' : s'.row jobId = some row' := hrow'
      rw [hnew] at hrow''
      cases hrow''
      rfl
    | start hphase _ hworker =>
      rw [hworker] at hinHand
      cases hinHand
      obtain ⟨_, t, _, _, htimely, hlease⟩ := hbefore m' (by rw [State.inHand, hphase]; rfl) rfl
        (by simp)
      exact ⟨t, hlease (by simp), htimely.proceed rfl hstep rfl (by rw [hworker])
        (by simp [hworker])⟩
    | @report pct n hphase _ _ hworker =>
      rw [hworker] at hinHand
      cases hinHand
      obtain ⟨_, t, _, _, htimely, hlease⟩ := hbefore n (by rw [State.inHand, hphase]; rfl) rfl
        (by simp)
      exact ⟨t, hlease (by simp), htimely.proceed rfl hstep rfl (by rw [hworker])
        (by simp [hworker])⟩
    | @finish _ _ n hphase _ hworker | @fail _ _ n hphase _ hworker =>
      rw [hworker] at hinHand
      cases hinHand
      obtain ⟨_, t, _, _, htimely, hlease⟩ := hbefore n (by rw [State.inHand, hphase]; rfl) rfl
        (by simp)
      exact ⟨t, hlease (by simp), htimely.proceed rfl hstep rfl (by rw [hworker])
        (by simp [hworker])⟩
    | empty hphase _ _ hworker =>
      rw [hworker, hphase] at hinHand
      cases hinHand
    | @beat jobId hresting hset _ hworker =>
      have hm : s.inHand w = some m' := by
        rw [hworker] at hinHand
        exact hinHand
      obtain ⟨_, t, _, _, htimely, hlease⟩ := hbefore m' hm rfl (by simp)
      have hid : jobId = m'.id := hholder.beat_id hm hset
      refine ⟨t, hlease (by simp), htimely.beat hstep (by simp [beats]) rfl (by rw [hworker]) ?_⟩
      rw [hworker, hresting]
      simp [Pace.gap, Heartbeat.patience, hid]
    | rest hresting hnone _ hworker =>
      have hm : s.inHand w = some m' := by
        rw [hworker] at hinHand
        exact hinHand
      obtain ⟨_, t, _, _, htimely, hlease⟩ := hbefore m' hm rfl (by simp)
      have hclaimed : (s.workers w).executor = .claimed m' := hholder.claimed_of_none hm hnone
      exact ⟨t, hlease (by simp), htimely.rest hclaimed hstep hworker hresting⟩
    | @renew clock jobId hrenewing _ hworker =>
      have hm : s.inHand w = some m' := by
        rw [hworker] at hinHand
        exact hinHand
      obtain ⟨row, t, hrow, hholds, htimely, hlease⟩ := hbefore m' hm rfl (by simp)
      by_cases hid : jobId = m'.id
      · subst hid
        have hnew := renew_row hstep hrenewing hrow hholds
        rw [hrow'] at hnew
        cases hnew
        exact ⟨_, rfl, htimely.renew hrun hpunctual hstep hworker⟩
      · refine ⟨t, hlease ?_, htimely.beat hstep (by simp [beats]) rfl (by rw [hworker]) ?_⟩
        · intro _ _ heq
          rw [hrenewing] at heq
          cases heq
          exact hid rfl
        · rw [hworker, hrenewing]
          simp only [Pace.gap, Heartbeat.patience, if_neg hid]
          linarith
    | @settle jobId renewed hanswered _ hworker =>
      have hm : s.inHand w = some m' := by
        rw [hworker] at hinHand
        exact hinHand
      obtain ⟨_, t, _, _, htimely, hlease⟩ := hbefore m' hm rfl (by simp)
      refine ⟨t, hlease (by simp), htimely.beat hstep (by simp [beats]) rfl (by rw [hworker]) ?_⟩
      rw [hworker, hanswered]
      simp only [Pace.gap, Heartbeat.patience]
      linarith
    | pop _ _ _ hworker | skip _ _ _ _ hworker | commit _ _ _ hworker
    | commitFailed _ _ _ hworker | deadLetter _ _ hworker | crash _ hworker =>
      rw [hworker] at hinHand
      cases hinHand

theorem leaseInv_of_run (hquiet : s₀.Quiet) (hlease : pace.margin ≤ settings.workerLease)
    (hrun : Run (step settings) s₀ tr s)
    (hatomic : Throughout (fun past s a => callAtomic past s a = true) tr)
    (hpunctual : Throughout (fun past s a => Punctual pace s₀.store.now past s a) tr)
    (hkept : ∀ e ∈ tr, overtakes e = false) : LeaseInv settings pace s₀.store.now tr s := by
  have hall : Throughout (fun past s a => callAtomic past s a = true ∧
      Punctual pace s₀.store.now past s a ∧ overtakes (s, a) = false) tr := by
    rintro past e future rfl
    exact ⟨hatomic past e future rfl, hpunctual past e future rfl, hkept e (by simp)⟩
  refine hrun.induct_past hall ?_ ?_
  · refine ⟨⟨hquiet.holding, ?_⟩, ?_, ?_⟩
    · intro c m hcall
      simp [hquiet.calls c] at hcall
    · intro w
      rw [hquiet.workers w]
      rfl
    · intro w m row hm
      rw [hquiet.inHand w] at hm
      cases hm
  · intro tr s a s' hrun _ h ha hstep
    have hshaped := shaped_of_run hquiet hrun
    have hlive := h.live hlease
    exact
      { exclusion := exclusionInv_step h.exclusion ha.1 hlive hshaped hstep
        holder := fun w => holderSet_step (h.holder w) ha.2.2 hstep
        timely := fun w m row hm hrow => timely_step hrun h hshaped
          (h.exclusion.not_intrudes ha.1 hlive) ha.2.1 hstep hm hrow }

/-! ## The guarantee -/

/-- What `Punctual` says of the workers `ws`, computed. -/
def punctual (pace : Pace) (t₀ : Timestamp) (ws : List WorkerId) (past : List (State × Action))
    (s : State) : Action → Bool
  | .tick t => ws.all fun w => (s.inHand w).all fun m =>
      t ≤ beatDue pace t₀ w past s ∧
        ((s.workers w).executor = .claimed m → t ≤ startDue pace t₀ w past)
  | .worker _ (.claim _ clock) | .worker _ (.renew clock) => s.store.now - pace.skew ≤ clock
  | _ => true

theorem punctual_entry {ws : List WorkerId} {past : List (State × Action)}
    (hothers : ∀ w, w ∉ ws → s.inHand w = none) (h : punctual pace t₀ ws past s a = true) :
    Punctual pace t₀ past s a := by
  cases a with
  | tick t =>
    intro w m hm
    by_cases hw : w ∈ ws
    · simp only [punctual, List.all_eq_true, Option.all_eq_true, decide_eq_true_eq] at h
      exact h w hw m hm
    · rw [hothers w hw] at hm
      cases hm
  | worker w b =>
    cases b with
    | claim began clock | renew clock =>
      have hclock : s.store.now - pace.skew ≤ clock := of_decide_eq_true h
      exact hclock
    | _ => trivial
  | api | maintenance | tamper => trivial

/-- Workers that do not act in a run have no deadlines. -/
theorem punctual_of_check {ws : List WorkerId} (hquiet : s₀.Quiet)
    (hrun : Run (step settings) s₀ tr s)
    (hothers : ∀ e ∈ tr, ∀ w b, e.2 = .worker w b → w ∈ ws)
    (hcheck : throughout (punctual pace t₀ ws) [] tr = true) :
    Throughout (fun past s a => Punctual pace t₀ past s a) tr := by
  rintro past e future rfl
  refine punctual_entry ?_ (throughout_of_check hcheck past e future rfl)
  intro w hw
  obtain ⟨_, hpast, _, _⟩ := hrun.split
  refine inHand_of_not_acted hquiet hpast ?_
  intro e' he' b hb
  exact hw (hothers e' (List.mem_append_left _ he') w b hb)

/-- A rest of five microseconds, one for each step, and a clock one behind. -/
def briskPace : Pace where
  interval := 5
  delay := 1
  skew := 1
  interval_nonneg := by decide
  delay_nonneg := by decide

/-- Worker `w` claims job 2 while its heartbeat is about to renew job 1, which it has just
completed, and the next look at the holder comes as late as it may. -/
def lateRenewal : List Action :=
  [.api 0 (.submit webhookRequest none), .api 0 (.insert 1), .api 0 .commit, .api 0 .command,
    .api 1 (.submit webhookRequest none), .api 1 (.insert 2), .api 1 .commit, .api 1 .command,
    .worker "w" .dequeue, .worker "w" (.claim 0 0), .worker "w" .start, .worker "w" .beat,
    .worker "w" (.finish .null 0), .worker "w" .commit, .worker "w" .dequeue,
    .worker "w" (.claim 0 (-1)), .tick 1, .worker "w" (.renew 1), .worker "w" .start, .tick 2,
    .worker "w" .settle, .tick 8, .worker "w" .beat, .tick 9]

end JobQueue
