import JobQueue.System.Moves

/-!
# What one step can do to the rows and the parties

The moves of `System/Moves.lean` seen from a row of the table, and from one party:

* `row_step`: a step leaves a committed row as it is or changes it in one of the nine ways
  `RowStep` lists, each with its guard and with the process that does it;
* `row_new`: a row appears only by the commit of the submission that staged it;
* `worker_move` and `call_move`: a party changes only by its own moves.
-/

namespace JobQueue

open Relational

variable {settings : Settings} {s s' : State} {a : Action} {j : UUID} {row row' : Job}

/-! ## Which steps touch the table -/

/-- The ways a step `a` taken in `s` changes the row of job `j`. -/
inductive RowStep (settings : Settings) (s : State) (j : UUID) : Action → Job → Job → Prop
  | claim {w began clock row} (hpopped : (s.workers w).executor = .popped j)
      (hbegan : began ≤ s.store.now) (hready : row.ready began = true) :
      RowStep settings s j (.worker w (.claim began clock)) row
        (row.claim began clock settings.workerLease w)
  | report {w pct m row} (hexecuting : (s.workers w).executor = .executing m) (hid : m.id = j) :
      RowStep settings s j (.worker w (.report pct)) row
        ({ m with current := reportProgress pct m.current }.flush row)
  | finalise {w m row} (hfinalising : (s.workers w).executor = .finalising m) (hid : m.id = j) :
      RowStep settings s j (.worker w .commit) row (m.flush row)
  | renew {w clock row} (hrenewing : (s.workers w).heartbeat = .renewing j)
      (hheld : row.heldBy w = true) :
      RowStep settings s j (.worker w (.renew clock)) row
        { row with leasedUntil := some (clock + settings.workerLease) }
  | cancel {c m row} (hcancelling : s.calls c = .cancelling m) (hid : m.id = j) :
      RowStep settings s j (.api c .commit) row (m.flush row)
  | retry {c m row} (hretrying : s.calls c = .retrying m) (hid : m.id = j) :
      RowStep settings s j (.api c .commit) row (m.flush row)
  | promote {began row} (hbegan : began ≤ s.store.now) (hdue : row.dueAt began = true) :
      RowStep settings s j (.maintenance (.schedulerUpdate began)) row row.promote
  | reap {began row} (hbegan : began ≤ s.store.now) (hexpired : row.expired began = true)
      (hhead : s.maintenance.reaper.head? = some j) :
      RowStep settings s j (.maintenance (.reaperUpdate began)) row row.reap
  | cleanup {clock row} (hkey : row.idempotencyKey.isSome)
      (hexpired : row.createdAt < clock - idempotencyTtl) :
      RowStep settings s j (.maintenance (.cleanup clock)) row
        { row with idempotencyKey := none }

theorem Jobs.flush_changed {jobs : Jobs} (m : Mapped) (h : jobs.lookup j = some row) :
    ∃ row', (jobs.flush m).lookup j = some row' ∧ (row' = row ∨ (m.id = j ∧ row' = m.flush row)) := by
  rw [Jobs.lookup_flush]
  by_cases hj : j = m.id
  · subst hj
    exact ⟨m.flush row, by simp [h], Or.inr ⟨rfl, rfl⟩⟩
  · exact ⟨row, by rw [if_neg hj, h], Or.inl rfl⟩

theorem Jobs.flush_none {jobs : Jobs} {m : Mapped} (h : jobs.lookup j = none) :
    (jobs.flush m).lookup j = none := by
  rw [Jobs.lookup_flush]
  split
  · rename_i hj
    rw [← hj, h]
    rfl
  · exact h

/-- The row under `j` after a conditional update of `k`. -/
theorem update_changed {jobs : Jobs} (k : UUID) (guard : Job → Bool) (set : Job → Job)
    (h : jobs.lookup j = some row) :
    ∃ row', (Table.updateWhere jobs k guard set).1.lookup j = some row' ∧
      (row' = row ∨ (j = k ∧ guard row = true ∧ row' = set row)) := by
  cases h' : (Table.updateWhere jobs k guard set).1.lookup j with
  | none =>
    rw [Table.lookup_updateWhere_none_iff, h] at h'
    cases h'
  | some row' => exact ⟨row', rfl, Table.updateWhere_changed h h'⟩

/-- A flush of `m` changes the row of `m` only, by a write the step `b` is listed with. -/
theorem flush_row_step {st : Store} (m : Mapped)
    (hstore : s'.store = { st with jobs := s.store.jobs.flush m }) (h : s.row j = some row)
    (hwrite : m.id = j → RowStep settings s j a row (m.flush row)) :
    ∃ row', s'.row j = some row' ∧ (row' = row ∨ RowStep settings s j a row row') := by
  obtain ⟨row', hrow', hcase⟩ := Jobs.flush_changed m h
  refine ⟨row', by rw [State.row, hstore]; exact hrow', ?_⟩
  rcases hcase with rfl | ⟨hid, rfl⟩
  · exact Or.inl rfl
  · exact Or.inr (hwrite hid)

theorem worker_row {w : WorkerId} {b : WorkerAction}
    (hmove : WorkerMove settings w s.store s'.store (s.workers w) (s'.workers w) b)
    (h : s.row j = some row) :
    ∃ row', s'.row j = some row' ∧ (row' = row ∨ RowStep settings s j (.worker w b) row row') := by
  cases hmove with
  | @claim began clock jobId row₁ hpopped hbegan hrow hready hstore _ =>
    by_cases hj : j = jobId
    · subst hj
      obtain rfl : row₁ = row := Option.some.inj (hrow.symm.trans h)
      refine ⟨_, ?_, Or.inr (.claim hpopped hbegan hready)⟩
      rw [State.row, hstore]
      exact AList.lookup_insert _
    · refine ⟨row, ?_, Or.inl rfl⟩
      rw [State.row, hstore]
      exact (AList.lookup_insert_ne hj).trans h
  | report hexecuting _ hstore _ => exact flush_row_step _ hstore h fun hid => .report hexecuting hid
  | commit hfinalising _ hstore _ | commitFailed hfinalising _ hstore _ =>
    exact flush_row_step _ hstore h fun hid => .finalise hfinalising hid
  | @renew clock jobId hrenewing hstore _ =>
    obtain ⟨row', hrow', hcase⟩ := update_changed jobId (Job.heldBy w)
      (fun job => { job with leasedUntil := some (clock + settings.workerLease) }) h
    refine ⟨row', by rw [State.row, hstore]; exact hrow', ?_⟩
    rcases hcase with rfl | ⟨rfl, hheld, rfl⟩
    · exact Or.inl rfl
    · exact Or.inr (.renew hrenewing hheld)
  | _ =>
    -- no statement on the table
    rename_i hstore _
    exact ⟨row, by rw [State.row, hstore]; exact h, Or.inl rfl⟩

theorem call_row {c : Nat} {b : CallAction}
    (hmove : CallMove settings s.store s'.store (s.calls c) (s'.calls c) b)
    (h : s.row j = some row) :
    ∃ row', s'.row j = some row' ∧ (row' = row ∨ RowStep settings s j (.api c b) row row') := by
  cases hmove with
  | @commitSubmit jobId job _ hok hstore _ =>
    have hne : j ≠ jobId := by
      rintro rfl
      simp [violates, show s.store.jobs.lookup j = some row from h] at hok
    refine ⟨row, ?_, Or.inl rfl⟩
    rw [State.row, hstore]
    exact (AList.lookup_insert_ne hne).trans h
  | commitCancel hcancelling hstore _ =>
    exact flush_row_step _ hstore h fun hid => .cancel hcancelling hid
  | commitRetry hretrying hstore _ =>
    exact flush_row_step _ hstore h fun hid => .retry hretrying hid
  | _ =>
    rename_i hstore _
    exact ⟨row, by rw [State.row, hstore]; exact h, Or.inl rfl⟩

theorem maintenance_row {b : MaintenanceAction}
    (hmove : MaintenanceMove s.store s'.store s.maintenance s'.maintenance b)
    (h : s.row j = some row) :
    ∃ row', s'.row j = some row' ∧
      (row' = row ∨ RowStep settings s j (.maintenance b) row row') := by
  cases hmove with
  | @promote began jobId rest row₁ _ hbegan hrow hdue hstore _ =>
    by_cases hj : j = jobId
    · subst hj
      obtain rfl : row₁ = row := Option.some.inj (hrow.symm.trans h)
      refine ⟨_, ?_, Or.inr (.promote hbegan hdue)⟩
      rw [State.row, hstore]
      exact AList.lookup_insert _
    · refine ⟨row, ?_, Or.inl rfl⟩
      rw [State.row, hstore]
      exact (AList.lookup_insert_ne hj).trans h
  | @reap began jobId rest hreaper hbegan hstore _ =>
    obtain ⟨row', hrow', hcase⟩ := update_changed jobId (Job.expired began) Job.reap h
    refine ⟨row', by rw [State.row, hstore]; exact hrow', ?_⟩
    rcases hcase with rfl | ⟨rfl, hexpired, rfl⟩
    · exact Or.inl rfl
    · exact Or.inr (.reap hbegan hexpired (by rw [hreaper]; rfl))
  | @cleanup clock hstore _ =>
    have hjobs : s.store.jobs.lookup j = some row := h
    rw [State.row, hstore]
    simp only [cleanupExpiredIdempotencyKeys, Table.lookup_updateAll, hjobs, Option.map_some]
    refine ⟨_, rfl, ?_⟩
    split
    · rename_i hexpired
      rw [decide_eq_true_eq] at hexpired
      exact Or.inr (.cleanup hexpired.1 hexpired.2)
    · exact Or.inl rfl
  | _ =>
    rename_i hstore _
    exact ⟨row, by rw [State.row, hstore]; exact h, Or.inl rfl⟩

/-- A committed row is never deleted, and changes only as `RowStep` says. -/
theorem row_step (hstep : step settings s a = some s') (h : s.row j = some row) :
    ∃ row', s'.row j = some row' ∧ (row' = row ∨ RowStep settings s j a row row') := by
  cases move_of_step hstep with
  | worker hmove _ _ _ => exact worker_row hmove h
  | api hmove _ _ _ => exact call_row hmove h
  | maintenance hmove _ _ => exact maintenance_row hmove h
  | tick _ hstore _ _ _ | tamper hstore _ _ _ =>
    exact ⟨row, by rw [State.row, hstore]; exact h, Or.inl rfl⟩

theorem lookup_update_of_none {jobs : Jobs} {k : UUID} {guard : Job → Bool} {set : Job → Job}
    (h : jobs.lookup j = none) : (Table.updateWhere jobs k guard set).1.lookup j = none :=
  Table.lookup_updateWhere_none_iff.mpr h

theorem lookup_insert_of_none {jobs : Jobs} {k : UUID} {old new : Job}
    (h : jobs.lookup j = none) (hk : jobs.lookup k = some old) :
    (jobs.insert k new).lookup j = none := by
  rw [AList.lookup_insert_ne, h]
  rintro rfl
  rw [h] at hk
  cases hk

theorem worker_none {w : WorkerId} {b : WorkerAction}
    (hmove : WorkerMove settings w s.store s'.store (s.workers w) (s'.workers w) b)
    (h : s.row j = none) : s'.row j = none := by
  cases hmove with
  | claim _ _ hrow _ hstore _ =>
    rw [State.row, hstore]
    exact lookup_insert_of_none h hrow
  | report _ _ hstore _ | commit _ _ hstore _ | commitFailed _ _ hstore _ =>
    rw [State.row, hstore]
    exact Jobs.flush_none h
  | renew _ hstore _ =>
    rw [State.row, hstore]
    exact lookup_update_of_none h
  | _ =>
    rename_i hstore _
    rw [State.row, hstore]
    exact h

theorem maintenance_none {b : MaintenanceAction}
    (hmove : MaintenanceMove s.store s'.store s.maintenance s'.maintenance b)
    (h : s.row j = none) : s'.row j = none := by
  cases hmove with
  | promote _ _ hrow _ hstore _ =>
    rw [State.row, hstore]
    exact lookup_insert_of_none h hrow
  | reap _ _ hstore _ =>
    rw [State.row, hstore]
    exact lookup_update_of_none h
  | cleanup hstore _ =>
    have hjobs : s.store.jobs.lookup j = none := h
    rw [State.row, hstore]
    simp [cleanupExpiredIdempotencyKeys, Table.lookup_updateAll, hjobs]
  | _ =>
    rename_i hstore _
    rw [State.row, hstore]
    exact h

/-- A row appears by the commit of the submission that inserted it, which broke no
constraint. -/
theorem row_new (hstep : step settings s a = some s') (h : s.row j = none)
    (h' : s'.row j = some row) :
    ∃ c, a = .api c .commit ∧ s.calls c = .inserted j row ∧
      violates s.store.jobs j row = false := by
  cases move_of_step hstep with
  | worker hmove _ _ _ =>
    rw [worker_none hmove h] at h'
    cases h'
  | maintenance hmove _ _ =>
    rw [maintenance_none hmove h] at h'
    cases h'
  | tick _ hstore _ _ _ | tamper hstore _ _ _ =>
    rw [State.row, hstore] at h'
    exact absurd (h.symm.trans h') (by simp)
  | @api c b hmove _ _ _ =>
    cases hmove with
    | @commitSubmit jobId job hinserted hok hstore _ =>
      rw [State.row, hstore] at h'
      by_cases hj : j = jobId
      · subst hj
        simp only [AList.lookup_insert, Option.some.injEq] at h'
        subst h'
        exact ⟨c, rfl, hinserted, hok⟩
      · simp only [AList.lookup_insert_ne hj] at h'
        exact absurd (h.symm.trans h') (by simp)
    | commitCancel _ hstore _ | commitRetry _ hstore _ =>
      rw [State.row, hstore, Jobs.flush_none h] at h'
      cases h'
    | _ =>
      rename_i hstore _
      rw [State.row, hstore] at h'
      exact absurd (h.symm.trans h') (by simp)

/-! ## Which steps touch a party -/

theorem worker_move (hstep : step settings s a = some s') (w : WorkerId) :
    ((∀ b, a ≠ .worker w b) ∧ s'.workers w = s.workers w) ∨ ∃ b, a = .worker w b ∧
      WorkerMove settings w s.store s'.store (s.workers w) (s'.workers w) b := by
  cases move_of_step hstep with
  | @worker v b hmove hworkers _ _ =>
    by_cases hw : w = v
    · subst hw
      exact Or.inr ⟨b, rfl, hmove⟩
    · exact Or.inl ⟨by simp [Ne.symm hw], hworkers w hw⟩
  | api _ _ hworkers _ | maintenance _ hworkers _ | tick _ _ hworkers _ _
  | tamper _ hworkers _ _ => exact Or.inl ⟨by simp, congrFun hworkers w⟩

theorem call_move (hstep : step settings s a = some s') (c : Nat) :
    ((∀ b, a ≠ .api c b) ∧ s'.calls c = s.calls c) ∨ ∃ b, a = .api c b ∧
      CallMove settings s.store s'.store (s.calls c) (s'.calls c) b := by
  cases move_of_step hstep with
  | @api d b hmove hcalls _ _ =>
    by_cases hc : c = d
    · subst hc
      exact Or.inr ⟨b, rfl, hmove⟩
    · exact Or.inl ⟨by simp [Ne.symm hc], hcalls c hc⟩
  | worker _ _ hcalls _ | maintenance _ _ hcalls | tick _ _ _ hcalls _ | tamper _ _ hcalls _ =>
    exact Or.inl ⟨by simp, congrFun hcalls c⟩

/-- The move of a worker's own step. -/
theorem own_move {w : WorkerId} {b : WorkerAction}
    (hstep : step settings s (.worker w b) = some s') :
    WorkerMove settings w s.store s'.store (s.workers w) (s'.workers w) b := by
  cases move_of_step hstep with
  | worker hmove _ _ _ => exact hmove

/-- The move of a call's own step. -/
theorem api_move {c : Nat} {b : CallAction} (hstep : step settings s (.api c b) = some s') :
    CallMove settings s.store s'.store (s.calls c) (s'.calls c) b := by
  cases move_of_step hstep with
  | api hmove _ _ _ => exact hmove

/-- The move of the maintenance process. -/
theorem maintenance_move {b : MaintenanceAction}
    (hstep : step settings s (.maintenance b) = some s') :
    MaintenanceMove s.store s'.store s.maintenance s'.maintenance b := by
  cases move_of_step hstep with
  | maintenance hmove _ _ => exact hmove

/-! ## The instance of a call -/

/-- A call gets the instance it is about to write by its own `SELECT`, from the row as it
then stands, and keeps it until its commit. -/
theorem cancelling_step {c : Nat} {m : Mapped} (hstep : step settings s a = some s')
    (h' : s'.calls c = .cancelling m) :
    (s.calls c = .cancelling m ∧ ∀ b, a ≠ .api c b) ∨
      ∃ row, a = .api c (.cancel m.id) ∧ s.row m.id = some row ∧ s'.store = s.store ∧
        row.cancellable = true ∧ m = { Mapped.load m.id row with current := cancelJob row } := by
  rcases call_move hstep c with ⟨hother, heq⟩ | ⟨b, rfl, hmove⟩
  · exact Or.inl ⟨heq ▸ h', hother⟩
  · cases hmove with
    | @cancel jobId row _ hrow hcancellable hstore hcall =>
      rw [h'] at hcall
      cases hcall
      exact Or.inr ⟨row, rfl, hrow, hstore, hcancellable, rfl⟩
    | commitRefused _ _ _ hcall =>
      rw [h'] at hcall
      simp at hcall
    | _ =>
      rename_i hcall
      rw [h'] at hcall
      cases hcall

theorem retrying_step {c : Nat} {m : Mapped} (hstep : step settings s a = some s')
    (h' : s'.calls c = .retrying m) :
    (s.calls c = .retrying m ∧ ∀ b, a ≠ .api c b) ∨
      ∃ row clock, a = .api c (.manualRetry m.id clock) ∧ s.row m.id = some row ∧
        s'.store = s.store ∧ row.retryable = true ∧
        m = { Mapped.load m.id row with current := manualRetry clock row } := by
  rcases call_move hstep c with ⟨hother, heq⟩ | ⟨b, rfl, hmove⟩
  · exact Or.inl ⟨heq ▸ h', hother⟩
  · cases hmove with
    | @manualRetry jobId clock row _ hrow hretryable hstore hcall =>
      rw [h'] at hcall
      cases hcall
      exact Or.inr ⟨row, clock, rfl, hrow, hstore, hretryable, rfl⟩
    | commitRefused _ _ _ hcall =>
      rw [h'] at hcall
      simp at hcall
    | _ =>
      rename_i hcall
      rw [h'] at hcall
      cases hcall

/-! ## The row after an unconditional write -/

theorem flush_row {jobs : Jobs} (m : Mapped) :
    (jobs.flush m).lookup m.id = (jobs.lookup m.id).map m.flush := by
  simp [Jobs.lookup_flush]

theorem report_row {w : WorkerId} {pct : Int} {m : Mapped}
    (hstep : step settings s (.worker w (.report pct)) = some s')
    (hexecuting : (s.workers w).executor = .executing m) :
    s'.row m.id =
      (s.row m.id).map { m with current := reportProgress pct m.current }.flush := by
  cases own_move hstep with
  | report hexecuting' _ hstore _ =>
    rw [hexecuting] at hexecuting'
    cases hexecuting'
    rw [State.row, hstore]
    exact flush_row { m with current := reportProgress pct m.current }

theorem finalise_row {w : WorkerId} {m : Mapped}
    (hstep : step settings s (.worker w .commit) = some s')
    (hfinalising : (s.workers w).executor = .finalising m) :
    s'.row m.id = (s.row m.id).map m.flush := by
  cases own_move hstep with
  | commit hfinalising' _ hstore _ | commitFailed hfinalising' _ hstore _ =>
    rw [hfinalising] at hfinalising'
    cases hfinalising'
    rw [State.row, hstore]
    exact flush_row m

/-- The commit of a call that holds an instance flushes it. -/
theorem call_commit_row {c : Nat} {m : Mapped} (hstep : step settings s (.api c .commit) = some s')
    (hinstance : s.calls c = .cancelling m ∨ s.calls c = .retrying m) :
    s'.row m.id = (s.row m.id).map m.flush := by
  cases api_move hstep with
  | commitRefused hinserted _ _ _ | commitSubmit hinserted _ _ _ =>
    rw [hinserted] at hinstance
    simp at hinstance
  | commitCancel hphase hstore _ | commitRetry hphase hstore _ =>
    rw [hphase] at hinstance
    simp only [Call.cancelling.injEq, Call.retrying.injEq, reduceCtorEq, or_false,
      false_or] at hinstance
    subst hinstance
    rw [State.row, hstore]
    exact flush_row _

theorem cancel_row {c : Nat} {m : Mapped} (hstep : step settings s (.api c .commit) = some s')
    (hcancelling : s.calls c = .cancelling m) : s'.row m.id = (s.row m.id).map m.flush :=
  call_commit_row hstep (Or.inl hcancelling)

theorem retry_row {c : Nat} {m : Mapped} (hstep : step settings s (.api c .commit) = some s')
    (hretrying : s.calls c = .retrying m) : s'.row m.id = (s.row m.id).map m.flush :=
  call_commit_row hstep (Or.inr hretrying)

/-! ## The attempt in hand -/

/-- How a worker comes to hold an attempt: it claims it, or it held it before. The snapshot
of an attempt is the claimed row, brought up to date by the progress the worker reports. -/
theorem inHand_step {w : WorkerId} {m' : Mapped} (hstep : step settings s a = some s')
    (h' : (s'.workers w).executor.inHand = some m') :
    (∃ began clock row, a = .worker w (.claim began clock) ∧
      (s.workers w).executor = .popped m'.id ∧ s.row m'.id = some row ∧
      row.ready began = true ∧
      m' = Mapped.load m'.id (row.claim began clock settings.workerLease w) ∧
      s'.row m'.id = some m'.loaded) ∨
    ∃ m, (s.workers w).executor.inHand = some m ∧ m'.id = m.id ∧ a ≠ .worker w .commit ∧
      ((m'.loaded = m.loaded ∧ ∀ pct, a ≠ .worker w (.report pct)) ∨
        ∃ pct, a = .worker w (.report pct) ∧
        (s.workers w).executor = .executing m ∧ m'.loaded = reportProgress pct m.current) := by
  rcases worker_move hstep w with ⟨hother, heq⟩ | ⟨b, rfl, hmove⟩
  · rw [heq] at h'
    exact Or.inr ⟨m', h', rfl, hother _, Or.inl ⟨rfl, fun _ => hother _⟩⟩
  · cases hmove with
    | @claim began clock jobId row hpopped _ hrow hready hstore hworker =>
      rw [hworker] at h'
      cases h'
      refine Or.inl ⟨began, clock, row, rfl, hpopped, hrow, hready, rfl, ?_⟩
      rw [State.row, hstore]
      exact AList.lookup_insert _
    | @report pct m hexecuting _ _ hworker =>
      rw [hworker] at h'
      cases h'
      exact Or.inr ⟨m, by rw [hexecuting]; rfl, rfl, by simp, Or.inr ⟨pct, rfl, hexecuting, rfl⟩⟩
    | @start m hphase _ hworker | @finish _ _ m hphase _ hworker
    | @fail _ _ m hphase _ hworker =>
      rw [hworker] at h'
      simp only [Executor.inHand, Option.some.injEq] at h'
      subst h'
      exact Or.inr ⟨m, by rw [hphase]; rfl, rfl, by simp, Or.inl ⟨rfl, by simp⟩⟩
    | empty _ _ _ hworker | beat _ _ _ hworker | rest _ _ _ hworker | renew _ _ hworker
    | settle _ _ hworker =>
      rw [hworker] at h'
      exact Or.inr ⟨m', h', rfl, by simp, Or.inl ⟨rfl, by simp⟩⟩
    | pop _ _ _ hworker | skip _ _ _ _ hworker | commit _ _ _ hworker
    | commitFailed _ _ _ hworker | deadLetter _ _ hworker | crash _ hworker =>
      rw [hworker] at h'
      cases h'

/-- How a worker comes to hold the instance it is about to commit: its handler ends, or it
held it before. -/
theorem finalising_step {w : WorkerId} {m' : Mapped} (hstep : step settings s a = some s')
    (h' : (s'.workers w).executor = .finalising m') :
    ((s.workers w).executor = .finalising m' ∧ ∀ pct, a ≠ .worker w (.report pct)) ∨
      ∃ m, (s.workers w).executor = .executing m ∧
        ((∃ result clock, a = .worker w (.finish result clock) ∧
          m' = { m with current := completeJob clock result m.current }) ∨
        ∃ raised clock, a = .worker w (.fail raised clock) ∧
          m' = { m with current := raised.apply settings clock m.current }) := by
  rcases worker_move hstep w with ⟨hother, heq⟩ | ⟨b, rfl, hmove⟩
  · rw [heq] at h'
    exact Or.inl ⟨h', fun _ => hother _⟩
  · cases hmove with
    | @finish result clock m hexecuting _ hworker =>
      rw [hworker] at h'
      cases h'
      exact Or.inr ⟨m, hexecuting, Or.inl ⟨result, clock, rfl, rfl⟩⟩
    | @fail raised clock m hexecuting _ hworker =>
      rw [hworker] at h'
      cases h'
      exact Or.inr ⟨m, hexecuting, Or.inr ⟨raised, clock, rfl, rfl⟩⟩
    | empty _ _ _ hworker | beat _ _ _ hworker | rest _ _ _ hworker | renew _ _ hworker
    | settle _ _ hworker =>
      rw [hworker] at h'
      exact Or.inl ⟨h', by simp⟩
    | pop _ _ _ hworker | claim _ _ _ _ _ hworker | skip _ _ _ _ hworker | start _ _ hworker
    | report _ _ _ hworker | commit _ _ _ hworker | commitFailed _ _ _ hworker
    | deadLetter _ _ hworker | crash _ hworker =>
      rw [hworker] at h'
      cases h'

/-! ## The database clock -/

theorem now_step (hstep : step settings s a = some s') : s.store.now ≤ s'.store.now := by
  cases move_of_step hstep with
  | worker hmove _ _ _ => exact hmove.now_eq.ge
  | api hmove _ _ _ => exact hmove.now_eq.ge
  | maintenance hmove _ _ => exact hmove.now_eq.ge
  | tick hle hstore _ _ _ =>
    rw [hstore]
    exact hle
  | tamper hstore _ _ _ => rw [hstore]

end JobQueue
