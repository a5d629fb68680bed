import JobQueue.System.Rows

/-!
# Ownership of a job by the worker that claimed it

`State.Shaped`: the instances in flight are the loaded rows with the assignments of the
operation under way. It holds in every reachable state (`shaped_of_run`).

`State.Holding`: the row of every attempt in hand is the claimed row, up to a renewed lease
and a cleared idempotency key. It is not invariant: the reaper and the API may change a job
in hand (`State.Intrudes`). It is kept by every other step (`holding_step`), and where it
holds no two workers hold the same job (`holder_unique`).
-/

namespace JobQueue

open Transition

variable {settings : Settings} {s s' s₀ : State} {a : Action} {tr : List (State × Action)}

/-! ## Instances in flight -/

def Executor.Shaped (settings : Settings) : Executor → Prop
  | .claimed m | .executing m => m.loaded.status = .processing ∧ m.current = m.loaded
  | .finalising m => m.loaded.status = .processing ∧
      ((∃ clock result, m.current = completeJob clock result m.loaded) ∨
        ∃ clock raised, m.current = Raised.apply settings clock raised m.loaded)
  | _ => True

def Call.Shaped (settings : Settings) : Call → Prop
  | .inserted _ job => 0 < job.maxAttempts ∧
      ∃ data key t, job = newJob settings data key t
  | .cancelling m => m.loaded.cancellable = true ∧ m.current = cancelJob m.loaded
  | .retrying m => m.loaded.retryable = true ∧ ∃ clock, m.current = manualRetry clock m.loaded
  | _ => True

structure State.Shaped (settings : Settings) (s : State) : Prop where
  executor : ∀ w, (s.workers w).executor.Shaped settings
  call : ∀ c, (s.calls c).Shaped settings

theorem State.Quiet.shaped (h : s.Quiet) : s.Shaped settings where
  executor w := by simp [h.workers w, Executor.Shaped]
  call c := by simp [h.calls c, Call.Shaped]

theorem WorkerMove.shaped {st st' : Store} {w : WorkerId} {p p' : Worker} {b : WorkerAction}
    (hmove : WorkerMove settings w st st' p p' b) (h : p.executor.Shaped settings) :
    p'.executor.Shaped settings := by
  cases hmove with
  | claim _ _ _ _ _ hworker =>
    rw [hworker]
    exact ⟨rfl, rfl⟩
  | start hclaimed _ hworker =>
    rw [hclaimed] at h
    rw [hworker]
    exact h
  | report hexecuting _ _ hworker =>
    rw [hexecuting] at h
    obtain ⟨hstatus, hcurrent⟩ := h
    rw [hworker]
    exact ⟨by simpa [Mapped.flushed, reportProgress, hcurrent] using hstatus, rfl⟩
  | finish hexecuting _ hworker =>
    rw [hexecuting] at h
    obtain ⟨hstatus, hcurrent⟩ := h
    rw [hworker]
    exact ⟨hstatus, Or.inl ⟨_, _, by rw [hcurrent]⟩⟩
  | fail hexecuting _ hworker =>
    rw [hexecuting] at h
    obtain ⟨hstatus, hcurrent⟩ := h
    rw [hworker]
    exact ⟨hstatus, Or.inr ⟨_, _, by rw [hcurrent]⟩⟩
  | empty _ _ _ hworker | beat _ _ _ hworker | rest _ _ _ hworker | renew _ _ hworker
  | settle _ _ hworker =>
    rw [hworker]
    exact h
  | pop _ _ _ hworker | skip _ _ _ _ hworker | commit _ _ _ hworker
  | commitFailed _ _ _ hworker | deadLetter _ _ hworker | crash _ hworker =>
    rw [hworker]
    trivial

theorem CallMove.shaped {st st' : Store} {p p' : Call} {b : CallAction}
    (hmove : CallMove settings st st' p p' b) : p'.Shaped settings := by
  cases hmove with
  | insert _ _ hok _ hcall =>
    rw [hcall]
    refine ⟨?_, _, _, _, rfl⟩
    simp only [violates, Bool.or_eq_false_iff] at hok
    simpa [Nat.pos_iff_ne_zero] using hok.1.1.2
  | cancel _ _ hcancellable _ hcall =>
    rw [hcall]
    exact ⟨hcancellable, rfl⟩
  | manualRetry _ _ hretryable _ hcall =>
    rw [hcall]
    exact ⟨hretryable, _, rfl⟩
  | commitRefused _ _ _ hcall =>
    rcases hcall with ⟨_, _, hcall⟩ | hcall
    all_goals
      rw [hcall]
      trivial
  | _ =>
    rename_i hcall
    rw [hcall]
    trivial

theorem shaped_step (h : s.Shaped settings) (hstep : step settings s a = some s') :
    s'.Shaped settings where
  executor w := by
    rcases worker_move hstep w with ⟨_, heq⟩ | ⟨b, _, hmove⟩
    · rw [heq]
      exact h.executor w
    · exact hmove.shaped (h.executor w)
  call c := by
    rcases call_move hstep c with ⟨_, heq⟩ | ⟨b, _, hmove⟩
    · rw [heq]
      exact h.call c
    · exact hmove.shaped

theorem shaped_of_run (hquiet : s₀.Quiet) (hrun : Run (step settings) s₀ tr s) :
    s.Shaped settings :=
  hrun.invariant (C := fun _ _ => True) (by simp) hquiet.shaped
    fun _ _ _ h _ hstep => shaped_step h hstep

/-- Committed rows stay. -/
theorem row_of_run {j : UUID} {row : Job} (hrun : Run (step settings) s₀ tr s)
    (hrow : s₀.row j = some row) : ∃ row', s.row j = some row' := by
  refine hrun.invariant (C := fun _ _ => True) (I := fun s => ∃ row', s.row j = some row')
    (by simp) ⟨row, hrow⟩ ?_
  rintro s a s' ⟨row, hrow⟩ _ hstep
  obtain ⟨row', hrow', _⟩ := row_step hstep hrow
  exact ⟨row', hrow'⟩

/-- The database clock does not run backwards. -/
theorem now_le_of_run (hrun : Run (step settings) s₀ tr s) : s₀.store.now ≤ s.store.now := by
  induction hrun with
  | nil => exact le_rfl
  | snoc _ hstep ih => exact ih.trans (now_step hstep)

/-- A worker that has not acted is as it was started. -/
theorem worker_of_not_acted {w : WorkerId} (hquiet : s₀.Quiet)
    (hrun : Run (step settings) s₀ tr s) (hno : ∀ e ∈ tr, ∀ b, e.2 ≠ .worker w b) :
    s.workers w = {} := by
  refine hrun.invariant (C := fun _ a => ∀ b, a ≠ .worker w b) (I := fun s => s.workers w = {})
    hno (hquiet.workers w) ?_
  intro s a s' hstarted ha hstep
  rcases worker_move hstep w with ⟨_, hsame⟩ | ⟨b, hb, _⟩
  · rw [hsame]
    exact hstarted
  · exact absurd hb (ha b)

/-- A call that has not acted is unused. -/
theorem call_of_not_acted {c : Nat} (hquiet : s₀.Quiet) (hrun : Run (step settings) s₀ tr s)
    (hno : ∀ e ∈ tr, ∀ b, e.2 ≠ .api c b) : s.calls c = .unused := by
  refine hrun.invariant (C := fun _ a => ∀ b, a ≠ .api c b) (I := fun s => s.calls c = .unused)
    hno (hquiet.calls c) ?_
  intro s a s' hunused ha hstep
  rcases call_move hstep c with ⟨_, hsame⟩ | ⟨b, hb, _⟩
  · rw [hsame]
    exact hunused
  · exact absurd hb (ha b)

/-! ## Actions a run may lack -/

/-- The `SELECT` of a `cancel_job`. -/
def Action.startsCancel : Action → Bool
  | .api _ (.cancel _) => true
  | _ => false

/-- The `SELECT` of a `manual_retry`. -/
def Action.startsRetry : Action → Bool
  | .api _ (.manualRetry _ _) => true
  | _ => false

/-- An `UPDATE` of the reaper. -/
def Action.reaps : Action → Bool
  | .maintenance (.reaperUpdate _) => true
  | _ => false

theorem not_cancelling_of_run (hquiet : s₀.Quiet) (hrun : Run (step settings) s₀ tr s)
    (hno : ∀ e ∈ tr, e.2.startsCancel = false) : ∀ c m, s.calls c ≠ .cancelling m := by
  refine hrun.invariant (C := fun _ a => a.startsCancel = false)
    (I := fun s => ∀ c m, s.calls c ≠ .cancelling m) hno ?_ ?_
  · intro c m
    simp [hquiet.calls c]
  · intro s a s' ih ha hstep c m h'
    rcases cancelling_step hstep h' with ⟨h, _⟩ | ⟨row, rfl, _⟩
    · exact ih c m h
    · simp [Action.startsCancel] at ha

theorem not_retrying_of_run (hquiet : s₀.Quiet) (hrun : Run (step settings) s₀ tr s)
    (hno : ∀ e ∈ tr, e.2.startsRetry = false) : ∀ c m, s.calls c ≠ .retrying m := by
  refine hrun.invariant (C := fun _ a => a.startsRetry = false)
    (I := fun s => ∀ c m, s.calls c ≠ .retrying m) hno ?_ ?_
  · intro c m
    simp [hquiet.calls c]
  · intro s a s' ih ha hstep c m h'
    rcases retrying_step hstep h' with ⟨h, _⟩ | ⟨row, clock, rfl, _⟩
    · exact ih c m h
    · simp [Action.startsRetry] at ha

/-! ## The row of an attempt in hand -/

def State.inHand (s : State) (w : WorkerId) : Option Mapped := (s.workers w).executor.inHand

theorem inHand_of_executing {w : WorkerId} {m : Mapped}
    (h : (s.workers w).executor = .executing m) : s.inHand w = some m := by
  rw [State.inHand, h]
  rfl

theorem inHand_of_finalising {w : WorkerId} {m : Mapped}
    (h : (s.workers w).executor = .finalising m) : s.inHand w = some m := by
  rw [State.inHand, h]
  rfl

/-- The row is the one worker `w` claimed, but for a renewed lease and a cleared key. -/
structure Holds (w : WorkerId) (m : Mapped) (row : Job) : Prop where
  status : m.loaded.status = .processing
  worker : m.loaded.workerId = some w
  same : ∃ lease key, row = { m.loaded with leasedUntil := lease, idempotencyKey := key }

def State.Holding (s : State) : Prop :=
  ∀ w m, s.inHand w = some m → ∃ row, s.row m.id = some row ∧ Holds w m row

/-- The same for one job. -/
def State.HoldingOf (s : State) (j : UUID) : Prop :=
  ∀ w m, s.inHand w = some m → m.id = j → ∃ row, s.row j = some row ∧ Holds w m row

theorem State.Holding.of_job (h : s.Holding) (j : UUID) : s.HoldingOf j := by
  rintro w m hm rfl
  exact h w m hm

theorem Holds.row_status {w : WorkerId} {m : Mapped} {row : Job} (h : Holds w m row) :
    row.status = .processing := by
  obtain ⟨_, _, rfl⟩ := h.same
  exact h.status

theorem Holds.row_worker {w : WorkerId} {m : Mapped} {row : Job} (h : Holds w m row) :
    row.workerId = some w := by
  obtain ⟨_, _, rfl⟩ := h.same
  exact h.worker

theorem Holds.row_attempt {w : WorkerId} {m : Mapped} {row : Job} (h : Holds w m row) :
    row.attemptCount = m.loaded.attemptCount := by
  obtain ⟨_, _, rfl⟩ := h.same
  rfl

/-- The row is attempt `n` of worker `w`. -/
structure OwnedBy (w : WorkerId) (n : Nat) (row : Job) : Prop where
  status : row.status = .processing
  worker : row.workerId = some w
  attempt : row.attemptCount = n

theorem Holds.ownedBy {w : WorkerId} {m : Mapped} {row : Job} (h : Holds w m row) :
    OwnedBy w m.loaded.attemptCount row :=
  ⟨h.row_status, h.row_worker, h.row_attempt⟩

theorem State.Quiet.inHand (h : s.Quiet) (w : WorkerId) : s.inHand w = none := by
  simp [State.inHand, h.workers w, Executor.inHand]

/-- A worker that has not acted has nothing in hand. -/
theorem inHand_of_not_acted {w : WorkerId} (hquiet : s₀.Quiet)
    (hrun : Run (step settings) s₀ tr s) (hno : ∀ e ∈ tr, ∀ b, e.2 ≠ .worker w b) :
    s.inHand w = none := by
  simp [State.inHand, worker_of_not_acted hquiet hrun hno, Executor.inHand]

theorem State.Quiet.holding (h : s.Quiet) : s.Holding := by
  intro w m hm
  rw [h.inHand w] at hm
  cases hm

/-- Mutual exclusion: an attempt at a job is in hand of one worker at most. -/
theorem holder_unique_of {j : UUID} (h : s.HoldingOf j) {v w : WorkerId} {m n : Mapped}
    (hm : s.inHand v = some m) (hn : s.inHand w = some n) (hmj : m.id = j) (hnj : n.id = j) :
    v = w := by
  obtain ⟨row, hrow, hholds⟩ := h v m hm hmj
  obtain ⟨row', hrow', hholds'⟩ := h w n hn hnj
  rw [hrow'] at hrow
  cases hrow
  have := hholds.row_worker.symm.trans hholds'.row_worker
  simpa using this

theorem holder_unique (h : s.Holding) {v w : WorkerId} {m n : Mapped}
    (hm : s.inHand v = some m) (hn : s.inHand w = some n) (hid : m.id = n.id) : v = w :=
  holder_unique_of (h.of_job n.id) hm hn hid rfl

/-- Where ownership holds, a job in hand is processing, so none whose row is in another
status is in hand. -/
theorem not_inHand_of_status (h : s.Holding) {w : WorkerId} {m : Mapped} {row : Job}
    (hrow : s.row m.id = some row) (hstatus : row.status ≠ .processing) :
    s.inHand w ≠ some m := by
  intro hm
  obtain ⟨row', hrow', hholds⟩ := h w m hm
  rw [hrow] at hrow'
  cases hrow'
  exact hstatus hholds.row_status

/-- A commit of the API or an update of the reaper finds a job that is in hand. -/
def State.Intrudes (settings : Settings) (s : State) (a : Action) : Prop :=
  ∃ w m row row', s.inHand w = some m ∧ s.row m.id = some row ∧
    RowStep settings s m.id a row row' ∧
    ((∃ began, a = .maintenance (.reaperUpdate began)) ∨ ∃ c, a = .api c .commit)

/-- The `UPDATE` of the reaper, if `a` is one, does not take an attempt from a live worker. -/
def State.LeaseKept (s : State) (a : Action) : Prop :=
  ∀ began w m row, a = .maintenance (.reaperUpdate began) → began ≤ s.store.now →
    s.inHand w = some m → s.maintenance.reaper.head? = some m.id → s.row m.id = some row →
    row.expired began = false

theorem leaseKept_of_not_reaps (h : a.reaps = false) : s.LeaseKept a := by
  rintro began w m row rfl
  simp [Action.reaps] at h

/-- A step takes no attempt from its worker if the reaper does not and the calls write to
jobs that are not processing. -/
theorem not_intrudes (h : s.Holding) (hkept : s.LeaseKept a)
    (hcall : ∀ c m row, a = .api c .commit →
      s.calls c = .cancelling m ∨ s.calls c = .retrying m → s.row m.id = some row →
      row.status ≠ .processing) : ¬ s.Intrudes settings a := by
  rintro ⟨w, m, row, row', hm, hrow, hchange, hkind⟩
  have hwaiting : ∀ c n, a = .api c .commit →
      s.calls c = .cancelling n ∨ s.calls c = .retrying n → n.id = m.id → False := by
    intro c n ha hn hid
    exact not_inHand_of_status h hrow (hcall c n row ha hn (by rw [hid, hrow])) hm
  cases hchange with
  | reap hbegan hexpired hhead =>
    have := hkept _ w m row rfl hbegan hm hhead hrow
    rw [hexpired] at this
    cases this
  | cancel hcancelling hid => exact hwaiting _ _ rfl (Or.inl hcancelling) hid
  | retry hretrying hid => exact hwaiting _ _ rfl (Or.inr hretrying) hid
  | claim | report | finalise | renew | promote | cleanup =>
    rcases hkind with ⟨_, h⟩ | ⟨_, h⟩ <;> cases h

/-- A commit of the API or an update of the reaper finds job `j`, which is in hand. -/
def State.IntrudesOn (settings : Settings) (s : State) (j : UUID) (a : Action) : Prop :=
  ∃ w m row row', s.inHand w = some m ∧ m.id = j ∧ s.row j = some row ∧
    RowStep settings s j a row row' ∧
    ((∃ began, a = .maintenance (.reaperUpdate began)) ∨ ∃ c, a = .api c .commit)

/-- What a step leaves of the row of an attempt it does not take from its worker. -/
theorem holds_step {w : WorkerId} {m : Mapped} {row row' : Job} (h : s.HoldingOf m.id)
    (hquiet : ¬ s.IntrudesOn settings m.id a) (hm : s.inHand w = some m)
    (hrow : s.row m.id = some row) (hholds : Holds w m row)
    (hown : a ≠ .worker w .commit) (hreport : ∀ pct, a ≠ .worker w (.report pct))
    (hstep : RowStep settings s m.id a row row') : Holds w m row' := by
  have hstatus := hholds.row_status
  have other : ∀ v n, s.inHand v = some n → n.id = m.id → v = w := fun v n hn hid =>
    holder_unique_of h hn hm hid rfl
  have hno : ∀ began, a ≠ .maintenance (.reaperUpdate began) := by
    rintro began rfl
    exact hquiet ⟨w, m, row, row', hm, rfl, hrow, hstep, Or.inl ⟨began, rfl⟩⟩
  have hno' : ∀ c, a ≠ .api c .commit := by
    rintro c rfl
    exact hquiet ⟨w, m, row, row', hm, rfl, hrow, hstep, Or.inr ⟨c, rfl⟩⟩
  obtain ⟨lease, key, rfl⟩ := hholds.same
  cases hstep with
  | claim _ _ hready =>
    rw [Job.ready_iff] at hready
    exact absurd (hready.1.symm.trans hstatus) (by simp)
  | @report v pct n _ hexecuting hid =>
    have := other v n (inHand_of_executing hexecuting) hid
    exact absurd rfl (this ▸ hreport pct)
  | @finalise v n _ hfinalising hid =>
    have := other v n (inHand_of_finalising hfinalising) hid
    exact absurd rfl (this ▸ hown)
  | renew => exact ⟨hholds.status, hholds.worker, _, key, rfl⟩
  | cancel => exact absurd rfl (hno' _)
  | retry => exact absurd rfl (hno' _)
  | promote _ hdue =>
    rw [Job.dueAt_iff] at hdue
    exact absurd (hdue.1.symm.trans hstatus) (by simp)
  | reap => exact absurd rfl (hno _)
  | cleanup => exact ⟨hholds.status, hholds.worker, lease, none, rfl⟩

/-- A worker's own progress report keeps its snapshot equal to the row. -/
theorem holds_report {w : WorkerId} {m : Mapped} {row : Job} (pct : Int)
    (hcurrent : m.current = m.loaded) (hholds : Holds w m row) :
    Holds w { m with current := reportProgress pct m.current }.flushed
      ({ m with current := reportProgress pct m.current }.flush row) := by
  obtain ⟨lease, key, rfl⟩ := hholds.same
  refine ⟨?_, ?_, lease, key, ?_⟩
  · simpa [Mapped.flushed, reportProgress, hcurrent] using hholds.status
  · simpa [Mapped.flushed, reportProgress, hcurrent] using hholds.worker
  · simp [Mapped.flushed, Mapped.flush, reportProgress, hcurrent]

theorem holdingOf_step {j : UUID} (h : s.HoldingOf j) (hshaped : s.Shaped settings)
    (hquiet : ¬ s.IntrudesOn settings j a) (hstep : step settings s a = some s') :
    s'.HoldingOf j := by
  intro w m' hm' hj
  rcases inHand_step hstep hm' with
    ⟨began, clock, row, rfl, _, _, _, hload, hrow'⟩ | ⟨m, hm, hid, hown, hloaded⟩
  · rw [hj] at hrow'
    refine ⟨m'.loaded, hrow', ?_, ?_, m'.loaded.leasedUntil, m'.loaded.idempotencyKey, rfl⟩
    · rw [hload]
      rfl
    · rw [hload]
      rfl
  · rw [hid] at hj
    subst hj
    obtain ⟨row, hrow, hholds⟩ := h w m hm rfl
    rcases hloaded with ⟨hloaded, hreport⟩ | ⟨pct, rfl, hexecuting, hloaded⟩
    · -- the instance is as it was, and the row changes at most in its lease and its key
      have hkeep : ∀ row', Holds w m row' → Holds w m' row' := fun row' hr =>
        ⟨hloaded ▸ hr.status, hloaded ▸ hr.worker, hloaded ▸ hr.same⟩
      obtain ⟨row', hrow', hcase⟩ := row_step hstep hrow
      refine ⟨row', hrow', hkeep row' ?_⟩
      rcases hcase with rfl | hchange
      · exact hholds
      · exact holds_step h hquiet hm hrow hholds hown hreport hchange
    · have hshape := hshaped.executor w
      rw [hexecuting] at hshape
      have hrow' := report_row hstep hexecuting
      rw [hrow] at hrow'
      refine ⟨_, hrow', ?_⟩
      have hkept := holds_report pct hshape.2 hholds
      exact ⟨hloaded ▸ hkept.status, hloaded ▸ hkept.worker, hloaded ▸ hkept.same⟩

theorem holding_step (h : s.Holding) (hshaped : s.Shaped settings)
    (hquiet : ¬ s.Intrudes settings a) (hstep : step settings s a = some s') : s'.Holding := by
  intro w m' hm'
  refine holdingOf_step (h.of_job m'.id) hshaped ?_ hstep w m' hm' rfl
  rintro ⟨v, m, row, row', hm, hid, hrow, hchange, hkind⟩
  rw [← hid] at hrow hchange
  exact hquiet ⟨v, m, row, row', hm, hrow, hchange, hkind⟩

end JobQueue
