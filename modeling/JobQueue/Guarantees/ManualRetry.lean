import JobQueue.System.History
import Mathlib.Data.Finset.Card

/-!
# Manual retry under concurrency

`manual_retry` checks that the job has failed at its `SELECT`, adds one to the limit it
loaded and writes both by primary key at its commit. Of two calls that load the same failure
the second re-opens the job again, by then perhaps running, and repeats the increment of the
first (`second_retry_reopens_a_running_job`). Where no manual retry of the job commits
between the `SELECT` and the commit of another, every failure is re-opened once at most and
every success counts (`manual_retry_reopens_once`).
-/

namespace JobQueue

open Transition

variable {settings : Settings} {s s' s₀ : State} {a : Action} {tr : List (State × Action)}
  {j : UUID} {row row' : Job}

/-! ## What is promised -/

/-- The API process or its Redis fails under a call. -/
def Action.outage : Action → Bool
  | .api _ .fault | .api _ .drop => true
  | _ => false

/-- Where a `manual_retry` of job `j` that found the job can stand. -/
def Call.Retrying (j : UUID) : Call → Prop
  | .retrying m => m.id = j
  | .clearing k | .returned (.retried k) => k = j
  | .raised (.conflict _) => True
  | _ => False

/-- Manual retries of job `j` in a history, which found the row `row₀` at its start. A call
takes effect at its commit. -/
structure RetriedOnce (j : UUID) (row₀ : Job) (tr : List (State × Action)) (s : State) :
    Prop where
  /-- Each commit finds a failed job. -/
  finds_failed : ∀ e ∈ tr, reopens j e = true → ∃ row, e.1.row j = some row ∧
    row.status = .failed
  /-- Between two commits the job enters `failed`. -/
  once : ∀ before e between e' after, tr = before ++ e :: (between ++ e' :: after) →
    reopens j e = true → reopens j e' = true → ∃ x ∈ between, finalises j .failed x = true
  /-- A call succeeds or raises a conflict. -/
  outcome : ∀ e ∈ tr, ∀ c clock, e.2 = .api c (.manualRetry j clock) →
    (s.calls c).Retrying j
  /-- Once no call is between its commit and its return, the limit has grown by the number
  of the calls that have returned. -/
  counted : (∀ c, s.calls c ≠ .clearing j) → ∃ (row : Job) (succeeded : Finset Nat),
    s.row j = some row ∧ (∀ c, c ∈ succeeded ↔ s.calls c = .returned (.retried j)) ∧
      row.maxAttempts = row₀.maxAttempts + succeeded.card

/-! ## The row of a retry in flight -/

/-- A failed row changes its status and its limit by a commit of `manual_retry` only. -/
theorem failed_step (hholding : s.Holding) (hshaped : s.Shaped settings)
    (hreaps : a.reaps = false) (hcancel : ∀ c m, s.calls c ≠ .cancelling m)
    (hstep : step settings s a = some s') (hrow : s.row j = some row)
    (hstatus : row.status = .failed) (hreopens : reopens j (s, a) = false) :
    ∃ row', s'.row j = some row' ∧ row'.status = .failed ∧
      row'.maxAttempts = row.maxAttempts := by
  obtain ⟨row', hrow', hcase⟩ := row_step hstep hrow
  refine ⟨row', hrow', ?_, maxAttempts_step hshaped hstep hrow hrow' hreopens⟩
  have hfree : ∀ w m, s.inHand w = some m → m.id ≠ j := by
    rintro w m hm rfl
    exact not_inHand_of_status hholding hrow (by simp [hstatus]) hm
  rcases hcase with rfl | hchange
  · exact hstatus
  · cases hchange with
    | claim _ _ hready =>
      rw [Job.ready_iff] at hready
      exact absurd (hstatus.symm.trans hready.1) (by simp)
    | @report w _ m _ hexecuting hid =>
      exact absurd hid (hfree w m (inHand_of_executing hexecuting))
    | @finalise w m _ hfinalising hid =>
      exact absurd hid (hfree w m (inHand_of_finalising hfinalising))
    | renew | cleanup => exact hstatus
    | cancel hcancelling => exact absurd hcancelling (hcancel _ _)
    | retry hretrying hid =>
      rw [reopens_iff.mpr ⟨_, _, rfl, hretrying, hid⟩] at hreopens
      cases hreopens
    | promote _ hdue =>
      rw [Job.dueAt_iff] at hdue
      exact absurd (hstatus.symm.trans hdue.1) (by simp)
    | reap => cases hreaps

/-- A job enters `failed` by a finalising commit only. -/
theorem not_failed_step (hshaped : s.Shaped settings) (hstep : step settings s a = some s')
    (hrow : s.row j = some row) (hstatus : row.status ≠ .failed)
    (hno : finalises j .failed (s, a) = false) :
    ∃ row', s'.row j = some row' ∧ row'.status ≠ .failed := by
  obtain ⟨row', hrow', hcase⟩ := row_step hstep hrow
  refine ⟨row', hrow', ?_⟩
  rcases hcase with rfl | hchange
  · exact hstatus
  · cases hchange with
    | @report w pct m _ hexecuting hid =>
      have hshape := hshaped.executor w
      rw [hexecuting] at hshape
      simpa [Mapped.flush, reportProgress, hshape.2] using hstatus
    | @finalise w m _ hfinalising hid =>
      rw [finalising_flush_status hshaped hfinalising]
      intro hfailed
      rw [finalises_iff.mpr ⟨w, m, rfl, hfinalising, hid, hfailed⟩] at hno
      cases hno
    | cancel hcancelling => simp [cancelling_flush_status hshaped hcancelling]
    | retry hretrying => simp [retrying_flush_status hshaped hretrying]
    | renew | cleanup => exact hstatus
    | claim | promote | reap => simp [Job.claim, Job.promote, Job.reap]

/-! ## Runs without reaping and cancels -/

/-- The step, if it is the commit of a `manual_retry`, comes before any other manual retry
of the job since the `SELECT` of the call. -/
def retryUnraced (past : List (State × Action)) (s : State) : Action → Bool
  | .api c .commit =>
      match s.calls c with
      | .retrying m => (since c past).countP (reopens m.id) = 0
      | _ => true
  | _ => true

/-- The invariant: ownership holds, a retry in flight has loaded the failed row as it is
unless another came first, and the limit counts the commits. -/
structure RetryInv (s₀ : State) (tr : List (State × Action)) (s : State) : Prop where
  holding : s.Holding
  failed : ∀ c m, s.calls c = .retrying m → ∃ row, s.row m.id = some row ∧
    ((since c tr).countP (reopens m.id) = 0 →
      row.status = .failed ∧ row.maxAttempts = m.loaded.maxAttempts)
  limit : ∀ j row₀, s₀.row j = some row₀ → ∃ row, s.row j = some row ∧
    row.maxAttempts = row₀.maxAttempts + tr.countP (reopens j)

theorem retry_finds_failed {c : Nat} {m : Mapped} (h : RetryInv s₀ tr s)
    (hunraced : retryUnraced tr s (.api c .commit) = true) (hretrying : s.calls c = .retrying m) :
    ∃ row, s.row m.id = some row ∧ row.status = .failed ∧
      row.maxAttempts = m.loaded.maxAttempts := by
  obtain ⟨row, hrow, hfailed⟩ := h.failed c m hretrying
  simp only [retryUnraced, hretrying, decide_eq_true_eq] at hunraced
  exact ⟨row, hrow, hfailed hunraced⟩

theorem retryInv_step (h : RetryInv s₀ tr s) (hunraced : retryUnraced tr s a = true)
    (hshaped : s.Shaped settings) (hreaps : a.reaps = false)
    (hcancel : ∀ c m, s.calls c ≠ .cancelling m) (hstep : step settings s a = some s') :
    RetryInv s₀ (tr ++ [(s, a)]) s' where
  holding := by
    refine holding_step h.holding hshaped ?_ hstep
    refine not_intrudes h.holding (leaseKept_of_not_reaps hreaps) ?_
    rintro c m row rfl (hcall | hcall) hrow
    · exact absurd hcall (hcancel c m)
    · obtain ⟨row', hrow', hfailed, _⟩ := retry_finds_failed h hunraced hcall
      rw [hrow] at hrow'
      cases hrow'
      simp [hfailed]
  failed := by
    intro c m hcall
    rcases retrying_step hstep hcall with
      ⟨hbefore, hother⟩ | ⟨row, clock, rfl, hrow, hstore, hok, hm⟩
    · obtain ⟨row, hrow, hfailed⟩ := h.failed c m hbefore
      obtain ⟨row', hrow', _⟩ := row_step hstep hrow
      rw [since_other hother]
      refine ⟨row', hrow', ?_⟩
      intro hnone
      rw [List.countP_append, List.countP_singleton] at hnone
      have hreopens : reopens m.id (s, a) = false := by
        by_contra hr
        rw [Bool.eq_true_of_not_eq_false hr] at hnone
        simp at hnone
      obtain ⟨hstatus, hmax⟩ := hfailed (by omega)
      obtain ⟨row'', hrow'', hstatus'', hmax''⟩ :=
        failed_step h.holding hshaped hreaps hcancel hstep hrow hstatus hreopens
      rw [hrow'] at hrow''
      cases hrow''
      exact ⟨hstatus'', hmax''.trans hmax⟩
    · rw [since_own]
      refine ⟨row, by rw [State.row, hstore]; exact hrow, ?_⟩
      intro _
      refine ⟨by simpa [Job.retryable] using hok, ?_⟩
      rw [hm]
      rfl
  limit := by
    intro j row₀ hrow₀
    obtain ⟨row, hrow, hmax⟩ := h.limit j row₀ hrow₀
    obtain ⟨row', hrow', _⟩ := row_step hstep hrow
    refine ⟨row', hrow', ?_⟩
    rw [List.countP_append, List.countP_singleton]
    cases hreopens : reopens j (s, a) with
    | false =>
      rw [maxAttempts_step hshaped hstep hrow hrow' hreopens, hmax]
      simp
    | true =>
      obtain ⟨c, m, rfl, hcall, rfl⟩ := reopens_iff.mp hreopens
      obtain ⟨row₁, hrow₁, _, hloaded⟩ := retry_finds_failed h hunraced hcall
      rw [hrow] at hrow₁
      cases hrow₁
      have hflush := retry_row hstep hcall
      rw [hrow', hrow] at hflush
      simp only [Option.map_some, Option.some.injEq] at hflush
      have hcurrent := (retrying_counters hshaped hcall).2
      have hwritten : (m.flush row).maxAttempts = m.current.maxAttempts :=
        written_of_ne _ (by omega)
      rw [hflush, hwritten]
      simp only [if_true]
      omega

theorem retryInv_of_run (hquiet : s₀.Quiet) (hrun : Run (step settings) s₀ tr s)
    (hscope : ∀ e ∈ tr, e.2.reaps = false ∧ e.2.startsCancel = false)
    (hunraced : Throughout (fun past s a => retryUnraced past s a = true) tr) :
    RetryInv s₀ tr s := by
  have hboth : Throughout (fun past s a => (a.reaps = false ∧ a.startsCancel = false) ∧
      retryUnraced past s a = true) tr := by
    rintro past e future rfl
    exact ⟨hscope e (by simp), hunraced past e future rfl⟩
  refine hrun.induct_past hboth ?_ ?_
  · refine ⟨hquiet.holding, ?_, ?_⟩
    · intro c m hcall
      simp [hquiet.calls c] at hcall
    · intro j row₀ hrow₀
      exact ⟨row₀, hrow₀, by simp⟩
  · intro tr s a s' hrun hpast h ha hstep
    have hcancel := not_cancelling_of_run hquiet hrun fun e he => by
      obtain ⟨past, future, rfl⟩ := List.append_of_mem he
      exact (hpast past e future rfl).1.2
    exact retryInv_step h ha.2 (shaped_of_run hquiet hrun) ha.1.1 hcancel hstep

/-! ## What a call comes to -/

/-- The call has committed and not failed since. -/
def Call.Committed (j : UUID) (call : Call) : Prop :=
  call = .clearing j ∨ call = .returned (.retried j)

theorem retrying_outcome {st st' : Store} {call call' : Call} {b : CallAction}
    (hmove : CallMove settings st st' call call' b) (hb : b ≠ .fault ∧ b ≠ .drop)
    (h : call.Retrying j) : call'.Retrying j := by
  cases hmove with
  | commitRetry hphase _ hcall | clear hphase _ hcall =>
    rw [hphase] at h
    rw [hcall]
    exact h
  | fault => exact absurd rfl hb.1
  | drop | dropInserted => exact absurd rfl hb.2
  | _ =>
    -- the call is in no phase of a manual retry
    subst_vars
    cases h

/-- A call commits by its own commit, and with no outage stays committed. -/
theorem committed_step {st st' : Store} {call call' : Call} {b : CallAction}
    (hmove : CallMove settings st st' call call' b) (hb : b ≠ .fault ∧ b ≠ .drop) :
    call'.Committed j ↔ call.Committed j ∨ b = .commit ∧ ∃ m, call = .retrying m ∧ m.id = j := by
  cases hmove with
  | commitRefused hphase _ _ hcall =>
    rcases hcall with ⟨_, _, hcall⟩ | hcall <;> simp [Call.Committed, hphase, hcall]
  | fault => exact absurd rfl hb.1
  | drop | dropInserted => exact absurd rfl hb.2
  | _ =>
    subst_vars
    simp [Call.Committed]

theorem no_outage {c : Nat} {b : CallAction} (h : (Action.api c b).outage = false) :
    b ≠ .fault ∧ b ≠ .drop := by
  constructor <;> rintro rfl <;> cases h

/-- A `manual_retry` that found the job is retrying, succeeds or raises a conflict. -/
theorem outcome_step (hout : a.outage = false) (hstep : step settings s a = some s')
    (hfound : (s.row j).isSome)
    (h : ∀ e ∈ tr, ∀ c clock, e.2 = .api c (.manualRetry j clock) → (s.calls c).Retrying j) :
    ∀ e ∈ tr ++ [(s, a)], ∀ c clock, e.2 = .api c (.manualRetry j clock) →
      (s'.calls c).Retrying j := by
  intro e he c clock heq
  rcases List.mem_append.mp he with he | he
  · have hbefore := h e he c clock heq
    rcases call_move hstep c with ⟨_, hsame⟩ | ⟨b, rfl, hmove⟩
    · rw [hsame]
      exact hbefore
    · exact retrying_outcome hmove (no_outage hout) hbefore
  · rw [List.mem_singleton] at he
    subst he
    simp only at heq
    subst heq
    obtain ⟨row, hrow⟩ := Option.isSome_iff_exists.mp hfound
    cases api_move hstep with
    | retryMissing _ hmissing _ _ =>
      rw [State.row, hmissing] at hrow
      cases hrow
    | retryRefused _ _ _ _ hcall =>
      rw [hcall]
      simp [Call.Retrying, retryConflict]
    | manualRetry _ _ _ _ hcall =>
      rw [hcall]
      rfl

/-- As many calls have committed as the history has commits. -/
theorem counted_step (hout : a.outage = false) (hstep : step settings s a = some s')
    {committed : Finset Nat} (hmem : ∀ c, c ∈ committed ↔ (s.calls c).Committed j)
    (hcard : committed.card = tr.countP (reopens j)) :
    ∃ committed' : Finset Nat, (∀ c, c ∈ committed' ↔ (s'.calls c).Committed j) ∧
      committed'.card = (tr ++ [(s, a)]).countP (reopens j) := by
  rw [List.countP_append, List.countP_singleton]
  cases hreopens : reopens j (s, a) with
  | true =>
    obtain ⟨c, m, rfl, hcall, hid⟩ := reopens_iff.mp hreopens
    have hnew : c ∉ committed := by
      rw [hmem, hcall]
      simp [Call.Committed]
    refine ⟨insert c committed, ?_, ?_⟩
    · intro d
      rw [Finset.mem_insert, hmem]
      rcases call_move hstep d with ⟨hother, hsame⟩ | ⟨b, hb, hmove⟩
      · have hne : d ≠ c := by
          rintro rfl
          exact hother _ rfl
        simp [hsame, hne]
      · cases hb
        rw [committed_step hmove (no_outage hout)]
        simp [hcall, hid]
    · rw [Finset.card_insert_of_notMem hnew, hcard]
      rfl
  | false =>
    refine ⟨committed, ?_, by rw [hcard]; rfl⟩
    intro d
    rw [hmem]
    rcases call_move hstep d with ⟨_, hsame⟩ | ⟨b, rfl, hmove⟩
    · rw [hsame]
    · rw [committed_step hmove (no_outage hout)]
      refine ⟨Or.inl, ?_⟩
      rintro (h | ⟨rfl, m, hm, hid⟩)
      · exact h
      · rw [reopens_iff.mpr ⟨d, m, rfl, hm, hid⟩] at hreopens
        cases hreopens

/-! ## The guarantee -/

theorem not_failed_of_run {t : State} (hshaped : t.Shaped settings)
    (hrun : Run (step settings) t tr s) (hrow : t.row j = some row) (hstatus : row.status ≠ .failed)
    (hno : ∀ e ∈ tr, finalises j .failed e = false) :
    ∃ row', s.row j = some row' ∧ row'.status ≠ .failed := by
  refine (hrun.invariant (C := fun s a => finalises j .failed (s, a) = false)
    (I := fun s => s.Shaped settings ∧ ∃ row', s.row j = some row' ∧ row'.status ≠ .failed)
    hno ⟨hshaped, row, hrow, hstatus⟩ ?_).2
  rintro s a s' ⟨hshaped, row, hrow, hstatus⟩ hno hstep
  exact ⟨shaped_step hshaped hstep, not_failed_step hshaped hstep hrow hstatus hno⟩

/-- A re-opened job is not failed until an attempt at it fails. -/
theorem not_failed_after_reopen {t t' : State} {c : Nat} {m : Mapped} {row : Job}
    {between : List (State × Action)} (hshaped : s.Shaped settings)
    (hcall : s.calls c = .retrying m) (hrow : s.row m.id = some row)
    (hstep : step settings s (.api c .commit) = some t) (hrun : Run (step settings) t between t')
    (hno : ∀ x ∈ between, finalises m.id .failed x = false) :
    ∃ row', t'.row m.id = some row' ∧ row'.status ≠ .failed := by
  have hrow' := retry_row hstep hcall
  rw [hrow] at hrow'
  have hpending : (m.flush row).status ≠ .failed := by
    simp [retrying_flush_status hshaped hcall]
  exact not_failed_of_run (shaped_step hshaped hstep) hrun hrow' hpending hno

/-- In every run of unraced manual retries, each failure is re-opened once at most, every
other call raises a conflict and every success adds one to the limit. -/
theorem manual_retry_reopens_once {row₀ : Job} (hquiet : s₀.Quiet)
    (hrun : Run (step settings) s₀ tr s) (hrow₀ : s₀.row j = some row₀)
    (hscope : ∀ e ∈ tr, e.2.reaps = false ∧ e.2.startsCancel = false ∧ e.2.outage = false)
    (hunraced : Throughout (fun past s a => retryUnraced past s a = true) tr) :
    RetriedOnce j row₀ tr s := by
  have hscope' : ∀ e ∈ tr, e.2.reaps = false ∧ e.2.startsCancel = false :=
    fun e he => ⟨(hscope e he).1, (hscope e he).2.1⟩
  have hinv : ∀ past future t, tr = past ++ future → Run (step settings) s₀ past t →
      RetryInv s₀ past t := by
    rintro past future t rfl hpast
    exact retryInv_of_run hquiet hpast (fun e he => hscope' e (List.mem_append_left _ he))
      hunraced.prefix
  have hfinds : ∀ past e future, tr = past ++ e :: future → Run (step settings) s₀ past e.1 →
      reopens j e = true → ∃ row, e.1.row j = some row ∧ row.status = .failed := by
    rintro past ⟨t, a⟩ future heq hpast hreopens
    have hunraced' := hunraced past (t, a) future heq
    obtain ⟨c, m, rfl, hcall, rfl⟩ := reopens_iff.mp hreopens
    obtain ⟨row, hrow, hfailed, _⟩ :=
      retry_finds_failed (hinv past _ t heq hpast) hunraced' hcall
    exact ⟨row, hrow, hfailed⟩
  refine ⟨?_, ?_, ?_, ?_⟩
  · intro e he hreopens
    obtain ⟨past, future, t, heq, hpast, _, _⟩ := hrun.split_of_mem he
    exact hfinds past e future heq hpast hreopens
  · intro before e between e' after heq hreopens hreopens'
    by_contra hnone
    have hno : ∀ x ∈ between, finalises j .failed x = false := by
      intro x hx
      by_contra hf
      exact hnone ⟨x, hx, Bool.eq_true_of_not_eq_false hf⟩
    rw [heq] at hrun
    obtain ⟨t, hrun₁, hstep, hrun₂⟩ := hrun.split
    obtain ⟨t', hrun₃, hstep', _⟩ := hrun₂.split
    obtain ⟨s₁, a⟩ := e
    obtain ⟨c, m, rfl, hcall, rfl⟩ := reopens_iff.mp hreopens
    obtain ⟨row₁, hrow₁, _⟩ := hfinds before _ _ heq hrun₁ hreopens
    obtain ⟨row', hrow', hstatus'⟩ :=
      not_failed_after_reopen (shaped_of_run hquiet hrun₁) hcall hrow₁ hstep hrun₃ hno
    have hpast : Run (step settings) s₀ (before ++ (s₁, .api c .commit) :: between) e'.1 := by
      have := (hrun₁.snoc hstep).append hrun₃
      simpa using this
    obtain ⟨row'', hrow'', hfailed⟩ := hfinds _ e' after (by simp [heq]) hpast hreopens'
    rw [hrow'] at hrow''
    cases hrow''
    exact hstatus' hfailed
  · refine hrun.induct (C := fun _ a => a.outage = false) (fun e he => (hscope e he).2.2)
      (I := fun tr s => ∀ e ∈ tr, ∀ c clock, e.2 = .api c (.manualRetry j clock) →
        (s.calls c).Retrying j) (by simp) ?_
    intro tr s a s' hrun _ ih hout hstep
    obtain ⟨row, hrow⟩ := row_of_run hrun hrow₀
    exact outcome_step hout hstep (by simp [hrow]) ih
  · intro hreturned
    obtain ⟨committed, hmem, hcard⟩ := hrun.induct (C := fun _ a => a.outage = false)
      (fun e he => (hscope e he).2.2)
      (I := fun tr s => ∃ committed : Finset Nat,
        (∀ c, c ∈ committed ↔ (s.calls c).Committed j) ∧ committed.card = tr.countP (reopens j))
      ⟨∅, by simp [hquiet.calls, Call.Committed], by simp⟩
      (fun _ _ _ _ _ _ ⟨_, hmem, hcard⟩ hout hstep => counted_step hout hstep hmem hcard)
    obtain ⟨row, hrow, hmax⟩ := (hinv tr [] s (by simp) hrun).limit j row₀ hrow₀
    refine ⟨row, committed, hrow, ?_, by rw [hmax, hcard]⟩
    intro c
    rw [hmem]
    simp [Call.Committed, hreturned c]

/-- A quiet system whose only job has used up its three attempts. -/
def failedState : State :=
  { store :=
    { jobs := (∅ : Jobs).insert 1
        { newJob {} webhookRequest none 0 with
          status := .failed, attemptCount := 3, errorMessage := some "boom"
          completedAt := some 0 } } }

theorem quiet_failedState : failedState.Quiet := ⟨fun _ => rfl, fun _ => rfl, rfl, rfl⟩

theorem manual_retry_reopens_once_twice :
    ∃ tr s row₀, Run (step {}) failedState tr s ∧ failedState.row 1 = some row₀ ∧
      tr.countP (reopens 1) = 2 ∧ RetriedOnce 1 row₀ tr s := by
  -- the second call comes too late for the first failure, the third re-opens the next one
  obtain ⟨tr, s, hrun, hactions, hcheck⟩ := run_of_check (step {}) failedState
    [.api 0 (.manualRetry 1 0), .api 0 .commit, .api 1 (.manualRetry 1 0), .api 0 .command,
      .maintenance (.feederSelect 10 [1]), .maintenance .feederPush, .worker "w1" .dequeue,
      .worker "w1" (.claim 0 0), .worker "w1" .start,
      .worker "w1" (.fail (.handlerError ⟨"HandlerError", "boom"⟩) 0), .worker "w1" .commit,
      .worker "w1" .deadLetter, .api 2 (.manualRetry 1 0), .api 2 .commit, .api 2 .command]
    (fun tr _ => throughout retryUnraced [] tr ∧ tr.countP (reopens 1) = 2)
    (by decide +kernel)
  simp only [decide_eq_true_eq] at hcheck
  obtain ⟨row₀, hrow₀⟩ := Option.isSome_iff_exists.mp
    (show (failedState.row 1).isSome = true by decide +kernel)
  have hscope := forall_of_actions
    (p := fun a => a.reaps = false ∧ a.startsCancel = false ∧ a.outage = false) hactions
    (by decide)
  exact ⟨tr, s, row₀, hrun, hrow₀, hcheck.2,
    manual_retry_reopens_once quiet_failedState hrun hrow₀ hscope
      (throughout_of_check hcheck.1)⟩

/-! ## Two retries of one failure -/

/-- Two calls load the same failure. The first re-opens the job, which is fed and claimed;
the second then puts the running job back to pending, and the limit has grown by one only. -/
theorem second_retry_reopens_a_running_job :
    ∃ tr s row₀, Run (step {}) failedState tr s ∧ failedState.row 1 = some row₀ ∧
      (∀ e ∈ tr, e.2.reaps = false ∧ e.2.startsCancel = false ∧ e.2.outage = false) ∧
      (∃ e ∈ tr, reopens 1 e = true ∧ ∃ row, e.1.row 1 = some row ∧ row.status = .processing) ∧
      s.calls 0 = .returned (.retried 1) ∧ s.calls 1 = .returned (.retried 1) ∧
      (∃ row, s.row 1 = some row ∧ row.maxAttempts = row₀.maxAttempts + 1) ∧
      ¬ RetriedOnce 1 row₀ tr s := by
  obtain ⟨tr, s, hrun, hactions, hcheck⟩ := run_of_check (step {}) failedState
    [.api 0 (.manualRetry 1 0), .api 1 (.manualRetry 1 0), .api 0 .commit, .api 0 .command,
      .maintenance (.feederSelect 10 [1]), .maintenance .feederPush, .worker "w1" .dequeue,
      .worker "w1" (.claim 0 0), .worker "w1" .start, .api 1 .commit, .api 1 .command]
    (fun tr s =>
      (tr.any fun e => reopens 1 e ∧ (e.1.row 1).any (·.status = .processing)) ∧
      s.calls 0 = .returned (.retried 1) ∧ s.calls 1 = .returned (.retried 1) ∧
      (failedState.row 1).any fun row₀ => (s.row 1).any fun row =>
        row.maxAttempts = row₀.maxAttempts + 1) (by decide +kernel)
  simp only [decide_eq_true_eq, List.any_eq_true, Option.any_eq_true] at hcheck
  obtain ⟨⟨e, he, hreopens, row₁, hrow₁, hstatus⟩, hcall₀, hcall₁, row₀, hrow₀, hmax⟩ := hcheck
  refine ⟨tr, s, row₀, hrun, hrow₀, forall_of_actions
    (p := fun a => a.reaps = false ∧ a.startsCancel = false ∧ a.outage = false) hactions
    (by decide), ⟨e, he, hreopens, row₁, hrow₁, hstatus⟩, hcall₀, hcall₁, hmax, ?_⟩
  intro h
  obtain ⟨row, hrow, hfailed⟩ := h.finds_failed e he hreopens
  rw [hrow₁] at hrow
  cases hrow
  exact absurd (hstatus.symm.trans hfailed) (by simp)

end JobQueue
