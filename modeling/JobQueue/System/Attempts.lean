import JobQueue.System.History

/-!
# The attempt a worker is engaged in

A worker is engaged with a job from the claim that wins it until it lets go of it, after the
finalising commit and, for a failed job, the push to the dead-letter list. What happens to a
job that only workers act on is told by three kinds of steps:

* a claim that wins it (`claims`);
* a step of the executor of a worker engaged with it (`attends`);
* any other step, which leaves the row but for its lease and its key, and every executor
  engaged with the job, as they are (`aside_step`).
-/

namespace JobQueue

open Relational Transition

variable {settings : Settings} {s s' s₀ : State} {a : Action} {tr : List (State × Action)}
  {j : UUID} {row row' : Job}

/-! ## Engagement -/

def Executor.engaged : Executor → Option UUID
  | .claimed m | .executing m | .finalising m => some m.id
  | .deadLettering jobId => some jobId
  | .idle | .popped _ | .crashed => none

def State.engaged (s : State) (w : WorkerId) : Option UUID := (s.workers w).executor.engaged

/-- A step of the executor of a worker that is engaged with job `j`. -/
def attends (j : UUID) (e : State × Action) : Bool :=
  match e.2 with
  | .worker w .start | .worker w (.report _) | .worker w (.finish _ _) | .worker w (.fail _ _)
  | .worker w .commit | .worker w .deadLetter => e.1.engaged w = some j
  | _ => false

/-- The handler's exception ends attempt `i` at job `j`. -/
def fails (j : UUID) (i : Nat) (e : State × Action) : Bool :=
  match e.2 with
  | .worker w (.fail _ _) =>
      match (e.1.workers w).executor with
      | .executing m => m.id = j ∧ m.loaded.attemptCount = i
      | _ => false
  | _ => false

/-- Job `j` is pushed to the dead-letter list. -/
def buries (j : UUID) (e : State × Action) : Bool :=
  match e.2 with
  | .worker w .deadLetter => (e.1.workers w).executor = .deadLettering j
  | _ => false

theorem fails_iff {i : Nat} : fails j i (s, a) = true ↔ ∃ w raised clock m,
    a = .worker w (.fail raised clock) ∧ (s.workers w).executor = .executing m ∧ m.id = j ∧
      m.loaded.attemptCount = i := by
  constructor
  · intro h
    unfold fails at h
    split at h
    · rename_i w raised clock heq
      split at h
      · rename_i m hexecuting
        simp only [decide_eq_true_eq] at h
        exact ⟨w, raised, clock, m, heq, hexecuting, h.1, h.2⟩
      · cases h
    · cases h
  · rintro ⟨w, raised, clock, m, rfl, hexecuting, hid, hattempt⟩
    simp [fails, hexecuting, hid, hattempt]

theorem buries_iff : buries j (s, a) = true ↔ ∃ w,
    a = .worker w .deadLetter ∧ (s.workers w).executor = .deadLettering j := by
  constructor
  · intro h
    unfold buries at h
    split at h
    · rename_i w heq
      exact ⟨w, heq, by simpa using h⟩
    · cases h
  · rintro ⟨w, rfl, hdead⟩
    simp [buries, hdead]

/-- The push puts the job at the head of `jobs:dead_letter`. -/
theorem deadLetters_of_buries (h : buries j (s, a) = true) (hstep : step settings s a = some s') :
    s'.store.redis.deadLetters = (j :: s.store.redis.deadLetters).take deadLetterMaxLen := by
  obtain ⟨w, rfl, hdead⟩ := buries_iff.mp h
  cases own_move hstep with
  | deadLetter hphase hstore _ =>
    rw [hdead] at hphase
    cases hphase
    rw [hstore]
    rfl

theorem attends_of_fails {i : Nat} (h : fails j i (s, a) = true) : attends j (s, a) = true := by
  obtain ⟨w, raised, clock, m, rfl, hexecuting, hid, _⟩ := fails_iff.mp h
  simp [attends, State.engaged, hexecuting, Executor.engaged, hid]

theorem attends_of_buries (h : buries j (s, a) = true) : attends j (s, a) = true := by
  obtain ⟨w, rfl, hdead⟩ := buries_iff.mp h
  simp [attends, State.engaged, hdead, Executor.engaged]

/-! ## The turns of an engaged worker -/

/-- What a step of an engaged executor does to the stores and to the executor. -/
inductive Turn (settings : Settings) (st : Store) :
    Executor → WorkerAction → Store → Executor → Prop
  | start (m : Mapped) : Turn settings st (.claimed m) .start st (.executing m)
  | report (m : Mapped) (pct : Int) :
      Turn settings st (.executing m) (.report pct)
        { st with jobs := st.jobs.flush { m with current := reportProgress pct m.current } }
        (.executing { m with current := reportProgress pct m.current }.flushed)
  | finish (m : Mapped) (result : Json) (clock : Timestamp) :
      Turn settings st (.executing m) (.finish result clock) st
        (.finalising { m with current := completeJob clock result m.current })
  | fail (m : Mapped) (raised : Raised) (clock : Timestamp) :
      Turn settings st (.executing m) (.fail raised clock) st
        (.finalising { m with current := raised.apply settings clock m.current })
  | commit (m : Mapped) :
      Turn settings st (.finalising m) .commit { st with jobs := st.jobs.flush m }
        (if m.current.status = .failed then .deadLettering m.id else .idle)
  | deadLetter (jobId : UUID) :
      Turn settings st (.deadLettering jobId) .deadLetter
        { st with redis := st.redis.deadLetter jobId } .idle

theorem attends_turn (hstep : step settings s a = some s') (h : attends j (s, a) = true) :
    ∃ w b, a = .worker w b ∧ s.engaged w = some j ∧
      Turn settings s.store (s.workers w).executor b s'.store (s'.workers w).executor := by
  cases move_of_step hstep with
  | @worker w b hmove _ _ _ =>
    cases hmove with
    | @start m hphase hstore hworker =>
      refine ⟨w, _, rfl, by simpa [attends] using h, ?_⟩
      rw [hphase, hstore, hworker]
      exact .start m
    | @report pct m hphase _ hstore hworker =>
      refine ⟨w, _, rfl, by simpa [attends] using h, ?_⟩
      rw [hphase, hstore, hworker]
      exact .report m pct
    | @finish result clock m hphase hstore hworker =>
      refine ⟨w, _, rfl, by simpa [attends] using h, ?_⟩
      rw [hphase, hstore, hworker]
      exact .finish m result clock
    | @fail raised clock m hphase hstore hworker =>
      refine ⟨w, _, rfl, by simpa [attends] using h, ?_⟩
      rw [hphase, hstore, hworker]
      exact .fail m raised clock
    | @commit m hphase hstatus hstore hworker =>
      refine ⟨w, _, rfl, by simpa [attends] using h, ?_⟩
      have hturn : Turn settings s.store (.finalising m) .commit _ _ := .commit m
      rw [if_neg hstatus] at hturn
      rw [hphase, hstore, hworker]
      exact hturn
    | @commitFailed m hphase hstatus hstore hworker =>
      refine ⟨w, _, rfl, by simpa [attends] using h, ?_⟩
      have hturn : Turn settings s.store (.finalising m) .commit _ _ := .commit m
      rw [if_pos hstatus] at hturn
      rw [hphase, hstore, hworker]
      exact hturn
    | @deadLetter jobId hphase hstore hworker =>
      refine ⟨w, _, rfl, by simpa [attends] using h, ?_⟩
      rw [hphase, hstore, hworker]
      exact .deadLetter jobId
    | pop | empty | claim | skip | beat | rest | renew | settle | crash => simp [attends] at h
  | api | maintenance | tick | tamper => simp [attends] at h

/-! ## How a worker becomes engaged -/

/-- A worker becomes engaged with a job only by a claim that wins it. -/
theorem engaged_step {w : WorkerId} (hstep : step settings s a = some s')
    (h' : s'.engaged w = some j) :
    s.engaged w = some j ∨
      (claims j (s, a) = true ∧ ∃ began clock, a = .worker w (.claim began clock)) := by
  rcases worker_move hstep w with ⟨_, heq⟩ | ⟨b, rfl, hmove⟩
  · left
    rw [State.engaged, ← heq]
    exact h'
  · unfold State.engaged at h' ⊢
    cases hmove with
    | @claim began clock jobId row hpopped _ hrow hready _ hworker =>
      right
      rw [hworker] at h'
      cases h'
      exact ⟨claims_iff.mpr ⟨w, began, clock, row, rfl, hpopped, hrow, hready⟩, began, clock, rfl⟩
    | start hphase _ hworker | report hphase _ _ hworker | finish hphase _ hworker
    | fail hphase _ hworker | commitFailed hphase _ _ hworker =>
      left
      rw [hworker] at h'
      rw [hphase]
      exact h'
    | empty _ _ _ hworker | beat _ _ _ hworker | rest _ _ _ hworker | renew _ _ hworker
    | settle _ _ hworker =>
      left
      rw [hworker] at h'
      exact h'
    | pop _ _ _ hworker | skip _ _ _ _ hworker | commit _ _ _ hworker | deadLetter _ _ hworker
    | crash _ hworker =>
      rw [hworker] at h'
      cases h'

/-- A worker engaged with a job has claimed it in a run that started with no worker engaged
with it. -/
theorem claims_of_engaged {w : WorkerId} (hrun : Run (step settings) s₀ tr s)
    (hfree : ∀ v, s₀.engaged v ≠ some j) (h : s.engaged w = some j) :
    ∃ e ∈ tr, claims j e = true := by
  induction hrun with
  | nil => exact absurd h (hfree w)
  | @snoc tr s a s' hrun hstep ih =>
    rcases engaged_step hstep h with hbefore | ⟨hclaims, _⟩
    · obtain ⟨e, he, hclaims⟩ := ih hbefore
      exact ⟨e, List.mem_append_left _ he, hclaims⟩
    · exact ⟨(s, a), List.mem_append_right _ (List.mem_singleton_self _), hclaims⟩

theorem State.Quiet.engaged (h : s.Quiet) (w : WorkerId) : s.engaged w = none := by
  simp [State.engaged, h.workers w, Executor.engaged]

/-! ## Steps that only workers take at a job -/

/-- The step does not disturb job `j`: its worker does not crash, its lease is not reaped,
and no call of the API writes to its row. -/
def undisturbed (j : UUID) (s : State) : Action → Bool
  | .worker w .crash => s.engaged w ≠ some j
  | .api c .commit =>
      match s.calls c with
      | .cancelling m | .retrying m => m.id ≠ j
      | _ => true
  | .maintenance (.reaperUpdate began) =>
      s.maintenance.reaper.head? = some j → (s.row j).all fun row => !row.expired began
  | _ => true

/-- The rows differ at most in the lease and the idempotency key. -/
def Job.Resembles (row' row : Job) : Prop :=
  ∃ lease key, row' = { row with leasedUntil := lease, idempotencyKey := key }

theorem Job.resembles_self (row : Job) : row.Resembles row :=
  ⟨row.leasedUntil, row.idempotencyKey, rfl⟩

theorem Holds.resembles {w : WorkerId} {m : Mapped} (h : Holds w m row)
    (hrow : row'.Resembles row) : Holds w m row' := by
  obtain ⟨lease, key, rfl⟩ := hrow
  obtain ⟨lease', key', rfl⟩ := h.same
  exact ⟨h.status, h.worker, lease, key, rfl⟩

/-- What a step leaves that is neither a claim of job `j` nor a step of a worker engaged
with it. -/
structure Aside (j : UUID) (s s' : State) : Prop where
  row : ∀ row, s.row j = some row → ∃ row', s'.row j = some row' ∧ row'.Resembles row
  executor : ∀ w, s.engaged w = some j → (s'.workers w).executor = (s.workers w).executor
  engaged : ∀ w, s'.engaged w = some j → s.engaged w = some j

theorem aside_row (hstep : step settings s a = some s') (hkeep : undisturbed j s a = true)
    (hclaims : claims j (s, a) = false) (hattends : attends j (s, a) = false)
    (hrow : s.row j = some row) (hstatus : row.status ≠ .scheduled) :
    ∃ row', s'.row j = some row' ∧ row'.Resembles row := by
  obtain ⟨row', hrow', hcase⟩ := row_step hstep hrow
  refine ⟨row', hrow', ?_⟩
  rcases hcase with rfl | hchange
  · exact row'.resembles_self
  · cases hchange with
    | claim hpopped _ hready =>
      rw [claims_iff.mpr ⟨_, _, _, row, rfl, hpopped, hrow, hready⟩] at hclaims
      cases hclaims
    | report hexecuting hid =>
      simp [attends, State.engaged, hexecuting, Executor.engaged, hid] at hattends
    | finalise hfinalising hid =>
      simp [attends, State.engaged, hfinalising, Executor.engaged, hid] at hattends
    | renew => exact ⟨_, row.idempotencyKey, rfl⟩
    | cancel hcancelling hid => simp [undisturbed, hcancelling, hid] at hkeep
    | retry hretrying hid => simp [undisturbed, hretrying, hid] at hkeep
    | promote _ hdue =>
      rw [Job.dueAt_iff] at hdue
      exact absurd hdue.1 hstatus
    | reap _ hexpired hhead => simp [undisturbed, hhead, hrow, hexpired] at hkeep
    | cleanup => exact ⟨row.leasedUntil, none, rfl⟩

theorem aside_executor {w : WorkerId} (hstep : step settings s a = some s')
    (hkeep : undisturbed j s a = true) (hattends : attends j (s, a) = false)
    (h : s.engaged w = some j) : (s'.workers w).executor = (s.workers w).executor := by
  rcases worker_move hstep w with ⟨_, heq⟩ | ⟨b, rfl, hmove⟩
  · rw [heq]
  · cases hmove with
    | start | report | finish | fail | commit | commitFailed | deadLetter =>
      simp [attends, h] at hattends
    | crash => simp [undisturbed, h] at hkeep
    | pop hphase _ _ _ | claim hphase _ _ _ _ _ | skip hphase _ _ _ _ =>
      -- an engaged worker pops and claims nothing
      rw [State.engaged, hphase] at h
      cases h
    | empty _ _ _ hworker | beat _ _ _ hworker | rest _ _ _ hworker | renew _ _ hworker
    | settle _ _ hworker => rw [hworker]

theorem aside_step (hstep : step settings s a = some s') (hkeep : undisturbed j s a = true)
    (hclaims : claims j (s, a) = false) (hattends : attends j (s, a) = false)
    (hstatus : ∀ row, s.row j = some row → row.status ≠ .scheduled) : Aside j s s' where
  row row hrow := aside_row hstep hkeep hclaims hattends hrow (hstatus row hrow)
  executor w h := aside_executor hstep hkeep hattends h
  engaged w h' := by
    rcases engaged_step hstep h' with h | ⟨h, _⟩
    · exact h
    · rw [hclaims] at h
      cases h

end JobQueue
