import JobQueue.System.History

/-!
# The two tasks of one worker

A worker seen by itself: its executor task and its heartbeat task take turns at their
awaits, and between any two steps PostgreSQL and Redis are what others have made of them.
Every run of the whole system is such a run for each of its workers (`tasks_run`).

`live` says of an attempt that its row has been the attempt's since the claim. In the whole
system it is enough to look at the row as it is now (`live_of_run`): no other statement
makes a row processing under a worker's id.
-/

namespace JobQueue

open Relational Transition

variable {settings : Settings} {s s' s₀ : State} {a : Action} {tr : List (State × Action)}
  {j : UUID} {row row' : Job} {w : WorkerId} {m : Mapped}

/-! ## Steps -/

inductive TaskAction
  | own (b : WorkerAction)
  /-- Others change the database or Redis, in any way. -/
  | elsewhere (st : Store)

def taskStep (settings : Settings) (w : WorkerId) (x : Store × Worker) :
    TaskAction → Option (Store × Worker)
  | .own b => workerStep settings x.1 w x.2 b
  | .elsewhere st => some (st, x.2)

def TaskAction.isClaim : TaskAction → Bool
  | .own (.claim _ _) => true
  | _ => false

/-- The `UPDATE` of `renew_job_lease`. -/
def TaskAction.isRenewal : TaskAction → Bool
  | .own (.renew _) => true
  | _ => false

/-! ## Histories -/

abbrev TaskEntry := (Store × Worker) × TaskAction

variable {past : List TaskEntry} {x x' : Store × Worker} {b : TaskAction}

/-- The entries after the last claim of the executor. -/
def sinceClaim (past : List TaskEntry) : List TaskEntry :=
  past.rtakeWhile fun e => !e.2.isClaim

/-- The executor has claimed since the last `UPDATE` of the heartbeat. -/
def claimedSinceRenewal (past : List TaskEntry) : Bool :=
  (past.rtakeWhile fun e => !e.2.isRenewal).any fun e => e.2.isClaim

/-- The row is that of the attempt: processing under the worker's id, with its count. -/
def current (w : WorkerId) (m : Mapped) (st : Store) : Bool :=
  (st.jobs.lookup m.id).any fun row =>
    row.status = .processing ∧ row.workerId = some w ∧ row.attemptCount = m.loaded.attemptCount

/-- The row has been that of the attempt in every state since the claim, and still is. -/
def live (w : WorkerId) (past : List TaskEntry) (st : Store) (m : Mapped) : Bool :=
  (sinceClaim past).all (fun e => current w m e.1.1) && current w m st

theorem current_iff {st : Store} : current w m st = true ↔
    ∃ row, st.jobs.lookup m.id = some row ∧ OwnedBy w m.loaded.attemptCount row := by
  simp only [current, Option.any_eq_true, decide_eq_true_eq]
  constructor
  · rintro ⟨row, hrow, hstatus, hworker, hattempt⟩
    exact ⟨row, hrow, hstatus, hworker, hattempt⟩
  · rintro ⟨row, hrow, h⟩
    exact ⟨row, hrow, h.status, h.worker, h.attempt⟩

theorem current_congr {n : Mapped} {st : Store} (hid : n.id = m.id)
    (hattempt : n.loaded.attemptCount = m.loaded.attemptCount) : current w n st = current w m st := by
  rw [current, current, hid, hattempt]

theorem live_congr {n : Mapped} {st : Store} (hid : n.id = m.id)
    (hattempt : n.loaded.attemptCount = m.loaded.attemptCount) :
    live w past st n = live w past st m := by
  have hsame : ∀ st, current w n st = current w m st := fun _ => current_congr hid hattempt
  simp [live, hsame]

theorem sinceClaim_claim (h : b.isClaim = true) : sinceClaim (past ++ [(x, b)]) = [] :=
  List.rtakeWhile_concat_neg _ _ _ (by simp [h])

theorem sinceClaim_other (h : b.isClaim = false) :
    sinceClaim (past ++ [(x, b)]) = sinceClaim past ++ [(x, b)] :=
  List.rtakeWhile_concat_pos _ _ _ (by simp [h])

/-- An attempt is live after a step if it was before and the row is still its own. -/
theorem live_snoc {st : Store} (h : b.isClaim = false) :
    live w (past ++ [(x, b)]) st m = (live w past x.1 m && current w m st) := by
  simp [live, sinceClaim_other h, Bool.and_assoc]

theorem claimedSinceRenewal_other (h : b.isRenewal = false) :
    claimedSinceRenewal (past ++ [(x, b)]) = (claimedSinceRenewal past || b.isClaim) := by
  rw [claimedSinceRenewal, List.rtakeWhile_concat_pos _ _ _ (by simp [h]), List.any_append]
  simp [claimedSinceRenewal]

/-! ## Runs of the system as runs of the tasks -/

/-- What an entry of the system's history is for worker `w`. -/
def taskAction (settings : Settings) (w : WorkerId) (e : State × Action) : TaskAction :=
  match e.2 with
  | .worker v b => if v = w then .own b else elsewhere
  | _ => elsewhere
where elsewhere : TaskAction := .elsewhere ((step settings e.1 e.2).elim e.1.store State.store)

def tasks (settings : Settings) (w : WorkerId) (tr : List (State × Action)) : List TaskEntry :=
  tr.map fun e => ((e.1.store, e.1.workers w), taskAction settings w e)

theorem taskAction_own {c : WorkerAction} :
    taskAction settings w (s, .worker w c) = .own c := by
  simp [taskAction]

theorem taskAction_other (hstep : step settings s a = some s') (h : ∀ c, a ≠ .worker w c) :
    taskAction settings w (s, a) = .elsewhere s'.store := by
  unfold taskAction
  split
  · rename_i v c heq
    simp only at heq
    subst heq
    have hv : v ≠ w := by
      rintro rfl
      exact h c rfl
    rw [if_neg hv, taskAction.elsewhere, hstep]
    rfl
  · rw [taskAction.elsewhere, hstep]
    rfl

theorem tasks_run (w : WorkerId) (hrun : Run (step settings) s₀ tr s) :
    Run (taskStep settings w) (s₀.store, s₀.workers w) (tasks settings w tr)
      (s.store, s.workers w) := by
  induction hrun with
  | nil => exact .nil
  | @snoc tr s a s' _ hstep ih =>
    rw [tasks, List.map_append]
    refine ih.snoc ?_
    rcases worker_move hstep w with ⟨hother, hsame⟩ | ⟨c, rfl, _⟩
    · rw [taskAction_other hstep hother, hsame]
      rfl
    · obtain ⟨r, hr, rfl⟩ := Option.map_eq_some_iff.mp hstep
      rw [taskAction_own]
      simpa [taskStep] using hr

/-! ## The row of an attempt is never given back -/

/-- A row that is a worker's attempt after a step other than its claims was so before. -/
theorem ownedBy_back {n : Nat} (hshaped : s.Shaped settings) (hstep : step settings s a = some s')
    (hclaim : ∀ began clock, a ≠ .worker w (.claim began clock)) (hrow' : s'.row j = some row')
    (h : OwnedBy w n row') : ∃ row, s.row j = some row ∧ OwnedBy w n row := by
  cases hrow : s.row j with
  | none =>
    obtain ⟨_, _, data, key, t, rfl⟩ := new_row hshaped hstep hrow hrow'
    have hstatus := h.status
    simp only [newJob] at hstatus
    split at hstatus <;> cases hstatus
  | some row =>
    refine ⟨row, rfl, ?_⟩
    obtain ⟨row₁, hrow₁, hcase⟩ := row_step hstep hrow
    rw [hrow'] at hrow₁
    cases hrow₁
    rcases hcase with rfl | hchange
    · exact h
    · have hstatus := h.status
      cases hchange with
      | @claim v began clock =>
        have hworker := h.worker
        cases hworker
        exact absurd rfl (hclaim began clock)
      | @report v pct n _ hexecuting =>
        have hshape := hshaped.executor v
        rw [hexecuting] at hshape
        have hworker := h.worker
        have hattempt := h.attempt
        simp [Mapped.flush, reportProgress, hshape.2] at hstatus hworker hattempt
        exact ⟨hstatus, hworker, hattempt⟩
      | finalise hfinalising =>
        have hwritten := finalising_status hshaped hfinalising
        rw [← finalising_flush_status hshaped hfinalising row, hstatus] at hwritten
        simp at hwritten
      | renew => exact ⟨h.status, h.worker, h.attempt⟩
      | cancel hcancelling =>
        rw [cancelling_flush_status hshaped hcancelling] at hstatus
        cases hstatus
      | retry hretrying =>
        rw [retrying_flush_status hshaped hretrying] at hstatus
        cases hstatus
      | promote => cases hstatus
      | reap => cases hstatus
      | cleanup => exact ⟨h.status, h.worker, h.attempt⟩

/-- In the whole system an attempt in hand whose row is its own has been live since its
claim. -/
theorem live_of_run (hquiet : s₀.Quiet) (hrun : Run (step settings) s₀ tr s)
    (hm : s.inHand w = some m) (h : current w m s.store = true) :
    live w (tasks settings w tr) s.store m = true := by
  induction hrun generalizing m with
  | nil =>
    rw [hquiet.inHand w] at hm
    cases hm
  | @snoc tr s a s' hrun hstep ih =>
    have hshaped := shaped_of_run hquiet hrun
    rw [tasks, List.map_append]
    by_cases hclaim : (taskAction settings w (s, a)).isClaim = true
    · simp [live, sinceClaim_claim hclaim, h]
    · have hclaim : (taskAction settings w (s, a)).isClaim = false :=
        Bool.eq_false_of_not_eq_true hclaim
      have hother : ∀ began clock, a ≠ .worker w (.claim began clock) := by
        rintro began clock rfl
        rw [taskAction_own] at hclaim
        cases hclaim
      rcases inHand_step hstep hm with ⟨began, clock, _, rfl, _⟩ | ⟨n, hn, hid, _, hloaded⟩
      · exact absurd rfl (hother began clock)
      · have hattempt : m.loaded.attemptCount = n.loaded.attemptCount := by
          rcases hloaded with ⟨hloaded, _⟩ | ⟨pct, _, _, hloaded⟩
          · rw [hloaded]
          · rw [hloaded]
            exact (executor_counters hshaped hn).1
        obtain ⟨row', hrow', howned⟩ := current_iff.mp h
        obtain ⟨row, hrow, howned⟩ := ownedBy_back hshaped hstep hother hrow' howned
        have hbefore : current w n s.store = true :=
          current_iff.mpr ⟨row, hid ▸ hrow, hattempt ▸ howned⟩
        have hlive := ih hn hbefore
        rw [List.map_singleton, live_snoc hclaim, h, Bool.and_true, live_congr hid hattempt]
        exact hlive

end JobQueue
