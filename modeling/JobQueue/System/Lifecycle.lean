import JobQueue.System.History

/-!
# The life of a row under atomic operations

`LifeStep` is the life cycle of a single row as the ten statements and operations on it
describe it: each changes the row as it finds it, under its own guard. The ORM operations do
not work that way, they flush a snapshot. But where the commit of a call finds the row that
its `SELECT` loaded, and a worker writes to a job only while it owns it (`atomicStep`), every
step of the system is a step of that life cycle (`life_step`).
-/

namespace JobQueue

open Relational Transition

variable {settings : Settings} {s s' s₀ : State} {a : Action} {tr : List (State × Action)}
  {j : UUID} {row row' : Job}

/-! ## The life cycle -/

inductive LifeEvent
  | claim | renew | report | complete | fail | cancel | retry | promote | reap | cleanup

/-- What an event makes of the row it finds. -/
inductive LifeStep (settings : Settings) : LifeEvent → Job → Job → Prop
  | claim {now clock lease w row} (hready : Job.ready now row = true) :
      LifeStep settings .claim row (row.claim now clock lease w)
  | renew {w lease row} (hheld : Job.heldBy w row = true) :
      LifeStep settings .renew row { row with leasedUntil := some lease }
  | report {w pct row} (hheld : Job.heldBy w row = true) :
      LifeStep settings .report row (reportProgress pct row)
  | complete {w clock result row} (hheld : Job.heldBy w row = true) :
      LifeStep settings .complete row (completeJob clock result row)
  | fail {w clock raised row} (hheld : Job.heldBy w row = true) :
      LifeStep settings .fail row (Raised.apply settings clock raised row)
  | cancel {row : Job} (hok : row.cancellable = true) :
      LifeStep settings .cancel row (cancelJob row)
  | retry {clock row} (hok : Job.retryable row = true) :
      LifeStep settings .retry row (manualRetry clock row)
  | promote {now row} (hdue : Job.dueAt now row = true) :
      LifeStep settings .promote row row.promote
  | reap {now row} (hexpired : Job.expired now row = true) : LifeStep settings .reap row row.reap
  | cleanup {row : Job} : LifeStep settings .cleanup row { row with idempotencyKey := none }

/-- An update of the reaper that resets job `j`. -/
def resets (j : UUID) (e : State × Action) : Bool :=
  match e.2 with
  | .maintenance (.reaperUpdate began) =>
      e.1.maintenance.reaper.head? = some j ∧ (e.1.row j).any (Job.expired began)
  | _ => false

theorem resets_row (hstep : step settings s a = some s') (h : resets j (s, a) = true) :
    ∃ began row, a = .maintenance (.reaperUpdate began) ∧ s.row j = some row ∧
      row.expired began = true ∧ s'.row j = some row.reap := by
  unfold resets at h
  split at h
  · rename_i began heq
    simp only [decide_eq_true_eq, Option.any_eq_true] at h heq
    obtain ⟨hhead, row, hrow, hexpired⟩ := h
    subst heq
    refine ⟨began, row, rfl, hrow, hexpired, ?_⟩
    cases maintenance_move hstep with
    | reap hreaper _ hstore _ =>
      rw [hreaper] at hhead
      cases hhead
      have hlookup : s.store.jobs.lookup j = some row := hrow
      simp [State.row, hstore, reapOne, Table.lookup_updateWhere, hlookup, hexpired]
  · cases h

/-- The entry of a history shows the event on job `j`; of the events nobody searches for,
nothing is asked. -/
def LifeEvent.seen (j : UUID) (e : State × Action) : LifeEvent → Bool
  | .claim => claims j e
  | .complete => finalises j .completed e
  | .fail => finalises j .pending e || finalises j .failed e
  | .cancel => cancels j e
  | .retry => reopens j e
  | .reap => resets j e
  | .renew | .report | .promote | .cleanup => true

/-! ## Atomic operations -/

/-- The commit of a `cancel_job` or a `manual_retry` finds the row as its `SELECT` loaded
it. -/
def freshCommit (s : State) : Action → Bool
  | .api c .commit =>
      match s.calls c with
      | .cancelling m | .retrying m => s.row m.id = some m.loaded
      | _ => true
  | _ => true

/-- The commit of a progress report, a completion or a failure finds the row owned by the
worker that sends it. -/
def ownerCommit (s : State) : Action → Bool
  | .worker w .commit =>
      match (s.workers w).executor with
      | .finalising m => (s.row m.id).any (Job.heldBy w)
      | _ => true
  | .worker w (.report _) =>
      match (s.workers w).executor with
      | .executing m => (s.row m.id).any (Job.heldBy w)
      | _ => true
  | _ => true

/-- No other write to the row comes between the parts of an operation. -/
def atomicStep (s : State) (a : Action) : Bool := freshCommit s a && ownerCommit s a

/-! ## The snapshot of an owner -/

/-- The snapshot of a worker that owns the row is the row, up to a renewed lease and a
cleared key; the snapshot has a lease. -/
structure Owned (w : WorkerId) (m : Mapped) (row : Job) : Prop where
  holds : Holds w m row
  lease : m.loaded.leasedUntil ≠ none

/-- A worker with an attempt in hand either has lost the row, or its snapshot is good. -/
def State.OwnedInv (s : State) : Prop :=
  ∀ w m, s.inHand w = some m →
    ∃ row, s.row m.id = some row ∧ (row.heldBy w = true → Owned w m row)

theorem State.OwnedInv.owned {w : WorkerId} {m : Mapped} (h : s.OwnedInv)
    (hm : s.inHand w = some m) (hrow : s.row m.id = some row) (hheld : row.heldBy w = true) :
    Owned w m row := by
  obtain ⟨row', hrow', howned⟩ := h w m hm
  rw [hrow] at hrow'
  cases hrow'
  exact howned hheld

theorem heldBy_iff {w : WorkerId} :
    row.heldBy w = true ↔ row.status = .processing ∧ row.workerId = some w := by
  simp [Job.heldBy]

/-- The flush of an owner leaves what the operation makes of the row as it is now, if the
operation does not read the lease or the key and clears the lease or keeps it. -/
theorem Owned.flush_complete {w : WorkerId} {m : Mapped} {clock : Timestamp} {result : Json}
    (h : Owned w m row) (hcurrent : m.current = completeJob clock result m.loaded) :
    m.flush row = completeJob clock result row := by
  obtain ⟨lease, key, rfl⟩ := h.holds.same
  have hlease : written m.loaded.leasedUntil none lease = none := written_of_ne _ h.lease.symm
  simp [Mapped.flush, hcurrent, completeJob, hlease]

theorem Owned.flush_fail {w : WorkerId} {m : Mapped} {clock : Timestamp} {raised : Raised}
    (h : Owned w m row) (hcurrent : m.current = Raised.apply settings clock raised m.loaded) :
    m.flush row = Raised.apply settings clock raised row := by
  obtain ⟨lease, key, rfl⟩ := h.holds.same
  have hlease : written m.loaded.leasedUntil none lease = none := written_of_ne _ h.lease.symm
  have hsame : retries raised.permanent
      { m.loaded with leasedUntil := lease, idempotencyKey := key } =
      retries raised.permanent m.loaded := rfl
  simp only [Raised.apply, applyFailure] at hcurrent ⊢
  rw [hsame]
  by_cases hretries : retries raised.permanent m.loaded = true
  · rw [if_pos hretries] at hcurrent ⊢
    simp [Mapped.flush, hcurrent, scheduleRetry, recordFailure, hlease]
  · rw [if_neg hretries] at hcurrent ⊢
    simp [Mapped.flush, hcurrent, failPermanently, recordFailure, hlease]

theorem Owned.flush_report {w : WorkerId} {m : Mapped} {pct : Int} (h : Owned w m row)
    (hcurrent : m.current = m.loaded) :
    { m with current := reportProgress pct m.current }.flush row = reportProgress pct row := by
  obtain ⟨lease, key, rfl⟩ := h.holds.same
  simp [Mapped.flush, hcurrent, reportProgress]

/-! ## The invariant -/

/-- What a step leaves of the row of an attempt in hand, if the worker owns it afterwards. -/
theorem owned_step {w : WorkerId} {m : Mapped} (h : s.OwnedInv) (hatomic : atomicStep s a = true)
    (hshaped : s.Shaped settings) (hm : s.inHand w = some m) (hrow : s.row m.id = some row)
    (hown : a ≠ .worker w .commit) (hreport : ∀ pct, a ≠ .worker w (.report pct))
    (hheld' : row'.heldBy w = true) (hchange : RowStep settings s m.id a row row') :
    Owned w m row' := by
  obtain ⟨hstatus', hworker'⟩ := heldBy_iff.mp hheld'
  cases hchange with
  | @claim v began clock _ hpopped =>
    -- the claimer is another worker, and now the owner
    cases hworker'
    simp [State.inHand, hpopped, Executor.inHand] at hm
  | @report v pct n _ hexecuting hid =>
    have hhand : s.inHand v = some n := inHand_of_executing hexecuting
    have hheld : row.heldBy v = true := by
      simpa [atomicStep, ownerCommit, hexecuting, hid, hrow] using (Bool.and_eq_true_iff.mp hatomic).2
    have howned := h.owned hhand (hid ▸ hrow) hheld
    have hshape := hshaped.executor v
    rw [hexecuting] at hshape
    rw [howned.flush_report hshape.2] at hworker'
    have hvw : v = w := by simpa [reportProgress, (heldBy_iff.mp hheld).2] using hworker'
    exact absurd rfl (hvw ▸ hreport pct)
  | finalise hfinalising =>
    have hstatus := finalising_status hshaped hfinalising
    rw [← finalising_flush_status hshaped hfinalising row, hstatus'] at hstatus
    simp at hstatus
  | @renew v clock _ _ hheld =>
    obtain ⟨hstatus, hworker⟩ := heldBy_iff.mp hheld
    have hvw : row.workerId = some w := hworker'
    have howned := h.owned hm hrow (heldBy_iff.mpr ⟨hstatus, hvw⟩)
    obtain ⟨lease, key, rfl⟩ := howned.holds.same
    exact ⟨⟨howned.holds.status, howned.holds.worker, _, key, rfl⟩, howned.lease⟩
  | cancel hcancelling =>
    rw [cancelling_flush_status hshaped hcancelling] at hstatus'
    cases hstatus'
  | retry hretrying =>
    rw [retrying_flush_status hshaped hretrying] at hstatus'
    cases hstatus'
  | promote => cases hstatus'
  | reap => cases hstatus'
  | cleanup =>
    have howned := h.owned hm hrow (heldBy_iff.mpr ⟨hstatus', hworker'⟩)
    obtain ⟨lease, key, rfl⟩ := howned.holds.same
    exact ⟨⟨howned.holds.status, howned.holds.worker, lease, none, rfl⟩, howned.lease⟩

theorem ownedInv_step (h : s.OwnedInv) (hatomic : atomicStep s a = true)
    (hshaped : s.Shaped settings) (hstep : step settings s a = some s') : s'.OwnedInv := by
  intro w m' hm'
  rcases inHand_step hstep hm' with
    ⟨began, clock, row, rfl, _, _, _, hload, hclaimed⟩ | ⟨m, hm, hid, hown, hloaded⟩
  · refine ⟨_, hclaimed, fun _ => ⟨⟨?_, ?_, m'.loaded.leasedUntil, m'.loaded.idempotencyKey, rfl⟩, ?_⟩⟩
    · rw [hload]
      rfl
    · rw [hload]
      rfl
    · rw [hload]
      simp [Mapped.load, Job.claim]
  · obtain ⟨row, hrow, howned⟩ := h w m hm
    obtain ⟨row', hrow', hcase⟩ := row_step hstep hrow
    refine ⟨row', hid ▸ hrow', fun hheld' => ?_⟩
    rcases hloaded with ⟨hloaded, hreport⟩ | ⟨pct, rfl, hexecuting, hloaded⟩
    · have hkept : Owned w m row' := by
        rcases hcase with rfl | hchange
        · exact howned hheld'
        · exact owned_step h hatomic hshaped hm hrow hown hreport hheld' hchange
      exact ⟨⟨hloaded ▸ hkept.holds.status, hloaded ▸ hkept.holds.worker,
        hloaded ▸ hkept.holds.same⟩, hloaded ▸ hkept.lease⟩
    · have hshape := hshaped.executor w
      rw [hexecuting] at hshape
      have hheld : row.heldBy w = true := by
        simpa [atomicStep, ownerCommit, hexecuting, hrow] using (Bool.and_eq_true_iff.mp hatomic).2
      have hflush := report_row hstep hexecuting
      rw [hrow, hrow'] at hflush
      rw [Option.some.inj hflush]
      have hkept := holds_report pct hshape.2 (howned hheld).holds
      refine ⟨⟨hloaded ▸ hkept.status, hloaded ▸ hkept.worker, hloaded ▸ hkept.same⟩, ?_⟩
      rw [hloaded, hshape.2]
      exact (howned hheld).lease

theorem ownedInv_of_run (hquiet : s₀.Quiet) (hrun : Run (step settings) s₀ tr s)
    (hatomic : ∀ e ∈ tr, atomicStep e.1 e.2 = true) : s.OwnedInv := by
  refine hrun.induct (C := fun s a => atomicStep s a = true) hatomic
    (I := fun _ s => s.OwnedInv) ?_ ?_
  · intro w m hm
    rw [hquiet.inHand w] at hm
    cases hm
  · intro tr s a s' hrun _ h ha hstep
    exact ownedInv_step h ha (shaped_of_run hquiet hrun) hstep

/-- Under atomic operations a step of the system moves a row on in its life, or leaves it. -/
theorem life_step (h : s.OwnedInv) (hatomic : atomicStep s a = true) (hshaped : s.Shaped settings)
    (hstep : step settings s a = some s') (hrow : s.row j = some row) (hrow' : s'.row j = some row') :
    row' = row ∨ ∃ event : LifeEvent, LifeStep settings event row row' ∧
      event.seen j (s, a) = true := by
  obtain ⟨row₁, hrow₁, hcase⟩ := row_step hstep hrow
  rw [hrow'] at hrow₁
  cases hrow₁
  obtain ⟨hfresh, howner⟩ := Bool.and_eq_true_iff.mp hatomic
  rcases hcase with hsame | hchange
  · exact Or.inl hsame
  · right
    cases hchange with
    | claim hpopped _ hready =>
      exact ⟨_, .claim hready, claims_iff.mpr ⟨_, _, _, row, rfl, hpopped, hrow, hready⟩⟩
    | @report w pct m _ hexecuting hid =>
      subst hid
      have hheld : row.heldBy w = true := by
        simpa [ownerCommit, hexecuting, hrow] using howner
      have howned := h.owned (inHand_of_executing hexecuting) hrow hheld
      have hshape := hshaped.executor w
      rw [hexecuting] at hshape
      rw [howned.flush_report hshape.2]
      exact ⟨_, .report hheld, rfl⟩
    | @finalise w m _ hfinalising hid =>
      subst hid
      have hheld : row.heldBy w = true := by
        simpa [ownerCommit, hfinalising, hrow] using howner
      have howned := h.owned (inHand_of_finalising hfinalising) hrow hheld
      have hfinalises : ∀ status, m.current.status = status →
          finalises m.id status (s, .worker w .commit) = true :=
        fun status hstatus => finalises_iff.mpr ⟨w, m, rfl, hfinalising, rfl, hstatus⟩
      have hshape := hshaped.executor w
      rw [hfinalising] at hshape
      rcases hshape.2 with ⟨clock, result, heq⟩ | ⟨clock, raised, heq⟩
      · rw [howned.flush_complete heq]
        exact ⟨_, .complete hheld, hfinalises _ (by rw [heq]; rfl)⟩
      · rw [howned.flush_fail heq]
        refine ⟨_, .fail hheld, ?_⟩
        have hstatus := applyFailure_status settings clock (raised.errorMessage settings)
          raised.permanent m.loaded
        simp only [LifeEvent.seen, Bool.or_eq_true]
        split at hstatus
        · exact Or.inl (hfinalises _ (by rw [heq]; exact hstatus))
        · exact Or.inr (hfinalises _ (by rw [heq]; exact hstatus))
    | renew _ hheld => exact ⟨_, .renew hheld, rfl⟩
    | @cancel c m _ hcancelling hid =>
      subst hid
      obtain rfl : row = m.loaded := by
        simpa [freshCommit, hcancelling, hrow] using hfresh
      have hshape := hshaped.call c
      rw [hcancelling] at hshape
      rw [Mapped.flush_loaded, hshape.2]
      exact ⟨_, .cancel hshape.1, cancels_iff.mpr ⟨c, m, rfl, hcancelling, rfl⟩⟩
    | @retry c m _ hretrying hid =>
      subst hid
      obtain rfl : row = m.loaded := by
        simpa [freshCommit, hretrying, hrow] using hfresh
      have hshape := hshaped.call c
      rw [hretrying] at hshape
      obtain ⟨hok, clock, heq⟩ := hshape
      rw [Mapped.flush_loaded, heq]
      exact ⟨_, .retry hok, reopens_iff.mpr ⟨c, m, rfl, hretrying, rfl⟩⟩
    | promote _ hdue => exact ⟨_, .promote hdue, rfl⟩
    | reap _ hexpired hhead =>
      exact ⟨_, .reap hexpired, by simp [LifeEvent.seen, resets, hhead, hrow, hexpired]⟩
    | cleanup => exact ⟨_, .cleanup, rfl⟩

end JobQueue
