import JobQueue.System.History

/-!
# Cancellation against execution

`cancel_job` checks the status at its `SELECT` and writes `cancelled` by primary key at its
commit. In between a worker may claim the job, so that the commit falls on a running or a
finished job (`cancel_overwrites_a_running_job`). A commit is safe exactly when every
attempt claimed since the `SELECT` has been put back for a retry and no other cancel came
first: then the job was waiting, is in nobody's hands and stays cancelled
(`cancel_is_final`).
-/

namespace JobQueue

open Transition

variable {settings : Settings} {s s' s₀ : State} {a : Action} {tr : List (State × Action)}
  {j : UUID} {row row' : Job}

/-! ## The job of a cancel in flight -/

/-- The statuses a job can have after `n` claims and `k` rescheduled attempts, where it was
waiting before them. -/
def Stage (status : JobStatus) (n k : Nat) : Prop :=
  (status = .pending ∨ status = .scheduled) ∧ n = k ∨
    (status = .processing ∨ status = .completed ∨ status = .failed) ∧ n = k + 1

theorem Stage.of_processing {status : JobStatus} {n k : Nat} (h : Stage status n k)
    (hstatus : status = .processing) : n = k + 1 := by
  rcases h with ⟨h, _⟩ | ⟨_, h⟩
  · rcases h with h | h <;> simp [hstatus] at h
  · exact h

theorem Stage.waiting {status : JobStatus} {n : Nat} (h : Stage status n n) :
    status = .pending ∨ status = .scheduled := by
  rcases h with ⟨h, _⟩ | ⟨_, h⟩
  · exact h
  · omega

/-- One step of the others: without a cancel the stage follows the claims and the
rescheduled attempts. -/
theorem stage_step {between : List (State × Action)} (hholding : s.Holding)
    (hshaped : s.Shaped settings) (hreaps : a.reaps = false)
    (hretry : ∀ c m, s.calls c ≠ .retrying m) (hstep : step settings s a = some s')
    (hrow : s.row j = some row) (hcancels : cancels j (s, a) = false)
    (h : Stage row.status (between.countP (claims j)) (between.countP (finalises j .pending))) :
    ∃ row', s'.row j = some row' ∧
      Stage row'.status ((between ++ [(s, a)]).countP (claims j))
        ((between ++ [(s, a)]).countP (finalises j .pending)) := by
  obtain ⟨row', hrow', hcase⟩ := row_step hstep hrow
  refine ⟨row', hrow', ?_⟩
  simp only [List.countP_append, List.countP_singleton]
  rcases hcase with rfl | hchange
  · have hno : finalises j .pending (s, a) = false := by
      by_contra hf
      have hf' := Bool.eq_true_of_not_eq_false hf
      have hbefore := finalises_processing hholding hf' hrow
      have hafter := finalises_status hshaped hstep hf' hrow hrow'
      exact absurd (hbefore.symm.trans hafter) (by simp)
    rw [claims_eq_false_of_unchanged hstep hrow hrow', hno]
    exact h
  · cases hchange with
    | @claim w began clock _ hpopped hbegan hready =>
      have hclaims : claims j (s, .worker w (.claim began clock)) = true :=
        claims_iff.mpr ⟨w, began, clock, row, rfl, hpopped, hrow, hready⟩
      rw [Job.ready_iff] at hready
      rw [hclaims]
      refine Or.inr ⟨Or.inl rfl, ?_⟩
      rcases h with ⟨_, h⟩ | ⟨hstatus, _⟩
      · simp [finalises, h]
      · simp [hready.1] at hstatus
    | @report w pct m _ hexecuting hid =>
      have hshape := hshaped.executor w
      rw [hexecuting] at hshape
      have hsame : ({ m with current := reportProgress pct m.current }.flush row).status =
          row.status := by simp [Mapped.flush, reportProgress, hshape.2]
      rw [hsame]
      exact h
    | @finalise w m _ hfinalising hid =>
      have hmine : s.inHand w = some m := inHand_of_finalising hfinalising
      obtain ⟨held, hheld, hholds⟩ := hholding w m hmine
      rw [hid, hrow] at hheld
      cases hheld
      have hn := h.of_processing hholds.row_status
      rw [finalising_flush_status hshaped hfinalising]
      have hfin : finalises j .pending (s, .worker w .commit) =
          decide (m.current.status = .pending) := by simp [finalises, hfinalising, hid]
      rw [hfin]
      rcases finalising_status hshaped hfinalising with hstatus | hstatus | hstatus
      · exact Or.inr ⟨Or.inr (Or.inl hstatus), by simp [claims, hstatus, hn]⟩
      · exact Or.inl ⟨Or.inl hstatus, by simp [claims, hstatus, hn]⟩
      · exact Or.inr ⟨Or.inr (Or.inr hstatus), by simp [claims, hstatus, hn]⟩
    | renew => exact h
    | cancel hcancelling hid =>
      have := cancels_iff.mpr ⟨_, _, rfl, hcancelling, hid⟩
      rw [this] at hcancels
      cases hcancels
    | retry hretrying => exact absurd hretrying (hretry _ _)
    | promote _ hdue =>
      rw [Job.dueAt_iff] at hdue
      rcases h with ⟨_, h⟩ | ⟨hstatus, _⟩
      · exact Or.inl ⟨Or.inl rfl, by simpa [claims, finalises] using h⟩
      · simp [hdue.1] at hstatus
    | reap => cases hreaps
    | cleanup => exact h

/-! ## Runs without reaping and manual retries -/

/-- The step, if it is the commit of a `cancel_job`, comes when every attempt claimed since
the `SELECT` of the call has been put back by `apply_failure`, and before any other cancel
of the job. -/
def cancelUnraced (past : List (State × Action)) (s : State) : Action → Bool
  | .api c .commit =>
      match s.calls c with
      | .cancelling m =>
          (since c past).countP (claims m.id) = (since c past).countP (finalises m.id .pending) ∧
            (since c past).countP (cancels m.id) = 0
      | _ => true
  | _ => true

/-- The invariant: ownership holds, the job of a cancel in flight is at the stage its
history tells, and a job whose cancel has committed is cancelled. -/
structure CancelInv (tr : List (State × Action)) (s : State) : Prop where
  holding : s.Holding
  stage : ∀ c m, s.calls c = .cancelling m → ∃ row, s.row m.id = some row ∧
    ((since c tr).countP (cancels m.id) = 0 →
      Stage row.status ((since c tr).countP (claims m.id))
        ((since c tr).countP (finalises m.id .pending)))
  final : ∀ j, (∃ e ∈ tr, cancels j e = true) → ∃ row, s.row j = some row ∧
    row.status = .cancelled

/-- A commit of `cancel_job` finds a waiting job exactly when it is unraced. -/
theorem cancel_waiting_iff {c : Nat} {m : Mapped} (h : CancelInv tr s)
    (hcancelling : s.calls c = .cancelling m) :
    (∃ row, s.row m.id = some row ∧ (row.status = .pending ∨ row.status = .scheduled)) ↔
      cancelUnraced tr s (.api c .commit) = true := by
  obtain ⟨row, hrow, hstage⟩ := h.stage c m hcancelling
  simp only [cancelUnraced, hcancelling, decide_eq_true_eq]
  constructor
  · rintro ⟨row', hrow', hwaiting⟩
    rw [hrow] at hrow'
    cases hrow'
    have hnone : (since c tr).countP (cancels m.id) = 0 := by
      by_contra hsome
      obtain ⟨e, he, hcancels⟩ := List.countP_pos_iff.mp (Nat.pos_of_ne_zero hsome)
      obtain ⟨row', hrow', hstatus⟩ := h.final m.id ⟨e, mem_of_mem_since he, hcancels⟩
      rw [hrow] at hrow'
      cases hrow'
      simp [hstatus] at hwaiting
    refine ⟨?_, hnone⟩
    rcases hstage hnone with ⟨_, heq⟩ | ⟨hstatus, _⟩
    · exact heq
    · rcases hwaiting with hw | hw <;> simp [hw] at hstatus
  · rintro ⟨heq, hnone⟩
    have hst := hstage hnone
    rw [heq] at hst
    exact ⟨row, hrow, hst.waiting⟩

/-- A cancelled row keeps its status. -/
theorem cancelled_step (hholding : s.Holding) (hshaped : s.Shaped settings)
    (hreaps : a.reaps = false) (hretry : ∀ c m, s.calls c ≠ .retrying m)
    (hstep : step settings s a = some s') (hrow : s.row j = some row)
    (hstatus : row.status = .cancelled) :
    ∃ row', s'.row j = some row' ∧ row'.status = .cancelled := by
  obtain ⟨row', hrow', hcase⟩ := row_step hstep hrow
  refine ⟨row', hrow', ?_⟩
  have hfree : ∀ w m, s.inHand w = some m → m.id ≠ j := by
    rintro w m hm rfl
    exact not_inHand_of_status hholding hrow (by simp [hstatus]) hm
  rcases hcase with rfl | hchange
  · exact hstatus
  · cases hchange with
    | claim _ _ hready =>
      rw [Job.ready_iff] at hready
      exact absurd (hstatus.symm.trans hready.1) (by simp)
    | @report w _ m _ hexecuting hid =>
      exact absurd hid (hfree w m (inHand_of_executing hexecuting))
    | @finalise w m _ hfinalising hid =>
      exact absurd hid (hfree w m (inHand_of_finalising hfinalising))
    | renew | cleanup => exact hstatus
    | cancel hcancelling => exact cancelling_flush_status hshaped hcancelling row
    | retry hretrying => exact absurd hretrying (hretry _ _)
    | promote _ hdue =>
      rw [Job.dueAt_iff] at hdue
      exact absurd (hstatus.symm.trans hdue.1) (by simp)
    | reap => cases hreaps

theorem cancelInv_step (h : CancelInv tr s) (hunraced : cancelUnraced tr s a = true)
    (hshaped : s.Shaped settings) (hreaps : a.reaps = false)
    (hretry : ∀ c m, s.calls c ≠ .retrying m) (hstep : step settings s a = some s') :
    CancelInv (tr ++ [(s, a)]) s' where
  holding := by
    refine holding_step h.holding hshaped ?_ hstep
    refine not_intrudes h.holding (leaseKept_of_not_reaps hreaps) ?_
    rintro c m row rfl (hcall | hcall) hrow
    · obtain ⟨row', hrow', hwaiting⟩ := (cancel_waiting_iff h hcall).mpr hunraced
      rw [hrow] at hrow'
      cases hrow'
      rcases hwaiting with hw | hw <;> simp [hw]
    · exact absurd hcall (hretry c m)
  stage := by
    intro c m hcall
    rcases cancelling_step hstep hcall with ⟨hbefore, hother⟩ | ⟨row, rfl, hrow, hstore, hok, hm⟩
    · obtain ⟨row, hrow, hstage⟩ := h.stage c m hbefore
      obtain ⟨row', hrow', _⟩ := row_step hstep hrow
      rw [since_other hother]
      refine ⟨row', hrow', ?_⟩
      intro hnone
      rw [List.countP_append, List.countP_singleton] at hnone
      have hcancels : cancels m.id (s, a) = false := by
        by_contra hc
        rw [Bool.eq_true_of_not_eq_false hc] at hnone
        simp at hnone
      have hst := hstage (by omega)
      obtain ⟨row'', hrow'', hst'⟩ :=
        stage_step h.holding hshaped hreaps hretry hstep hrow hcancels hst
      rw [hrow'] at hrow''
      cases hrow''
      exact hst'
    · rw [since_own]
      refine ⟨row, by rw [State.row, hstore]; exact hrow, ?_⟩
      intro _
      exact Or.inl ⟨by simpa [Job.cancellable] using hok, rfl⟩
  final := by
    rintro j ⟨e, he, hcancels⟩
    rcases List.mem_append.mp he with he | he
    · obtain ⟨row, hrow, hstatus⟩ := h.final j ⟨e, he, hcancels⟩
      exact cancelled_step h.holding hshaped hreaps hretry hstep hrow hstatus
    · rw [List.mem_singleton] at he
      subst he
      obtain ⟨c, m, rfl, hcall, rfl⟩ := cancels_iff.mp hcancels
      obtain ⟨row, hrow, _⟩ := (cancel_waiting_iff h hcall).mpr hunraced
      refine ⟨m.flush row, ?_, cancelling_flush_status hshaped hcall row⟩
      rw [cancel_row hstep hcall, hrow]
      rfl

theorem cancelInv_of_run (hquiet : s₀.Quiet) (hrun : Run (step settings) s₀ tr s)
    (hscope : ∀ e ∈ tr, e.2.reaps = false ∧ e.2.startsRetry = false)
    (hunraced : Throughout (fun past s a => cancelUnraced past s a = true) tr) :
    CancelInv tr s := by
  have hboth : Throughout (fun past s a => (a.reaps = false ∧ a.startsRetry = false) ∧
      cancelUnraced past s a = true) tr := by
    rintro past e future rfl
    exact ⟨hscope e (by simp), hunraced past e future rfl⟩
  refine hrun.induct_past hboth ?_ ?_
  · refine ⟨hquiet.holding, ?_, by simp⟩
    intro c m hcall
    simp [hquiet.calls c] at hcall
  · intro tr s a s' hrun hpast h ha hstep
    have hretry := not_retrying_of_run hquiet hrun fun e he => by
      obtain ⟨past, future, rfl⟩ := List.append_of_mem he
      exact (hpast past e future rfl).1.2
    exact cancelInv_step h ha.2 (shaped_of_run hquiet hrun) ha.1.1 hretry hstep

/-- In a run of unraced cancels, the commit of a `cancel_job` finds the job waiting and in
nobody's hands; in whatever state `s` the run then comes to, the job is cancelled and in
nobody's hands. -/
theorem cancel_is_final {tr₁ tr₂ : List (State × Action)} {s₁ : State} {c : Nat} {m : Mapped}
    (hquiet : s₀.Quiet)
    (hrun : Run (step settings) s₀ (tr₁ ++ (s₁, .api c .commit) :: tr₂) s)
    (hscope : ∀ e ∈ tr₁ ++ (s₁, .api c .commit) :: tr₂,
      e.2.reaps = false ∧ e.2.startsRetry = false)
    (hunraced : Throughout (fun past s a => cancelUnraced past s a = true)
      (tr₁ ++ (s₁, .api c .commit) :: tr₂))
    (hcancelling : s₁.calls c = .cancelling m) :
    ((∃ row, s₁.row m.id = some row ∧ (row.status = .pending ∨ row.status = .scheduled)) ∧
        ∀ w n, s₁.inHand w = some n → n.id ≠ m.id) ∧
      (∃ row, s.row m.id = some row ∧ row.status = .cancelled) ∧
        ∀ w n, s.inHand w = some n → n.id ≠ m.id := by
  obtain ⟨_, hrun₁, _, _⟩ := hrun.split
  have hinv₁ := cancelInv_of_run hquiet hrun₁
    (fun e he => hscope e (List.mem_append_left _ he)) hunraced.prefix
  have hinv := cancelInv_of_run hquiet hrun hscope hunraced
  have hnow := hunraced tr₁ (s₁, .api c .commit) tr₂ rfl
  obtain ⟨row₁, hrow₁, hwaiting⟩ := (cancel_waiting_iff hinv₁ hcancelling).mpr hnow
  obtain ⟨row, hrow, hstatus⟩ := hinv.final m.id
    ⟨(s₁, .api c .commit), by simp, cancels_iff.mpr ⟨c, m, rfl, hcancelling, rfl⟩⟩
  refine ⟨⟨⟨row₁, hrow₁, hwaiting⟩, ?_⟩, ⟨row, hrow, hstatus⟩, ?_⟩
  · intro w n hn hid
    refine not_inHand_of_status hinv₁.holding (hid ▸ hrow₁) ?_ hn
    rcases hwaiting with hw | hw <;> simp [hw]
  · intro w n hn hid
    exact not_inHand_of_status hinv.holding (hid ▸ hrow) (by simp [hstatus]) hn

theorem cancel_is_final_once :
    ∃ tr₁ s₁ m tr₂ s, Run (step {}) (State.initial 0) (tr₁ ++ (s₁, .api 1 .commit) :: tr₂) s ∧
      s₁.calls 1 = .cancelling m ∧
      ((∃ row, s₁.row m.id = some row ∧ (row.status = .pending ∨ row.status = .scheduled)) ∧
        ∀ w n, s₁.inHand w = some n → n.id ≠ m.id) ∧
      (∃ row, s.row m.id = some row ∧ row.status = .cancelled) ∧
        ∀ w n, s.inHand w = some n → n.id ≠ m.id := by
  -- the attempt claimed after the `SELECT` fails and is put back before the commit
  obtain ⟨tr, s, hrun, hactions, hcheck⟩ := run_of_check (step {}) (State.initial 0)
    [.api 0 (.submit webhookRequest none), .api 0 (.insert 1),
      .api 0 .commit, .api 0 .command, .api 1 (.cancel 1), .worker "w1" .dequeue,
      .worker "w1" (.claim 0 0), .worker "w1" .start,
      .worker "w1" (.fail (.handlerError ⟨"HandlerError", "boom"⟩) 0), .worker "w1" .commit,
      .api 1 .commit, .tick 30000000, .worker "w1" .dequeue]
    (fun tr _ => throughout cancelUnraced [] tr ∧
      tr.any fun e => e.2.ofCall 1 ∧ cancels 1 e) (by decide +kernel)
  simp only [decide_eq_true_eq, List.any_eq_true] at hcheck
  obtain ⟨hunraced, ⟨s₁, a⟩, hmem, hcall, hcancels⟩ := hcheck
  obtain ⟨c, m, rfl, hcancelling, hid⟩ := cancels_iff.mp hcancels
  obtain rfl : c = 1 := by simpa [Action.ofCall] using hcall
  obtain ⟨tr₁, tr₂, rfl⟩ := List.append_of_mem hmem
  have hscope := forall_of_actions (p := fun a => a.reaps = false ∧ a.startsRetry = false)
    hactions (by decide)
  exact ⟨tr₁, s₁, m, tr₂, s, hrun, hcancelling,
    cancel_is_final (State.quiet_initial 0) hrun hscope
      (fun past e future heq => throughout_of_check hunraced past e future heq) hcancelling⟩

/-! ## A raced cancel -/

/-- Worker `w1` claims the job between the `SELECT` and the commit of `cancel_job`. The call
cancels the job while its handler runs, and the worker then completes it. -/
theorem cancel_overwrites_a_running_job :
    ∃ tr s s' tr' s'', Run (step {}) (State.initial 0) tr s ∧
      step {} s (.api 1 .commit) = some s' ∧ Run (step {}) s' tr' s'' ∧
      (∀ e ∈ tr ++ tr', e.2.reaps = false ∧ e.2.startsRetry = false) ∧
      (∃ m, s.calls 1 = .cancelling m ∧ m.id = 1) ∧
      (∃ row, s.row 1 = some row ∧ row.status = .processing) ∧
      (∃ row, s'.row 1 = some row ∧ row.status = .cancelled) ∧
      (∃ n, s'.inHand "w1" = some n ∧ n.id = 1) ∧
      ∃ row, s''.row 1 = some row ∧ row.status = .completed := by
  obtain ⟨tr, s, hrun, hactions, hcheck⟩ := run_of_check (step {}) (State.initial 0)
    [.api 0 (.submit webhookRequest none), .api 0 (.insert 1),
      .api 0 .commit, .api 0 .command, .api 1 (.cancel 1), .worker "w1" .dequeue,
      .worker "w1" (.claim 0 0), .worker "w1" .start]
    (fun _ s => cancels 1 (s, .api 1 .commit) ∧
      ((s.row 1).any (·.status = .processing)) ∧
      (step {} s (.api 1 .commit)).any fun s' =>
        (s'.row 1).any (·.status = .cancelled) ∧ (s'.inHand "w1").any (·.id = 1) ∧
        (exec (step {}) s' [.worker "w1" (.finish (.obj []) 0), .worker "w1" .commit]).any
          fun r => (r.2.row 1).any (·.status = .completed)) (by decide +kernel)
  simp only [Option.any_eq_true, decide_eq_true_eq] at hcheck
  obtain ⟨hcancels, hbefore, s', hstep, hafter, hmine, ⟨tr', s''⟩, hexec, hend⟩ := hcheck
  obtain ⟨c, m, heq, hcancelling, hid⟩ := cancels_iff.mp hcancels
  cases heq
  have hscope : ∀ e ∈ tr, e.2.reaps = false ∧ e.2.startsRetry = false :=
    forall_of_actions (p := fun a => a.reaps = false ∧ a.startsRetry = false) hactions (by decide)
  have hscope' : ∀ e ∈ tr', e.2.reaps = false ∧ e.2.startsRetry = false :=
    forall_of_actions (p := fun a => a.reaps = false ∧ a.startsRetry = false)
      (exec_actions hexec) (by decide)
  refine ⟨tr, s, s', tr', s'', hrun, hstep, run_of_exec hexec, ?_, ⟨m, hcancelling, hid⟩, hbefore,
    hafter, hmine, hend⟩
  intro e he
  rcases List.mem_append.mp he with h | h
  · exact hscope e h
  · exact hscope' e h

end JobQueue
