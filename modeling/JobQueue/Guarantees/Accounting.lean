import JobQueue.System.History

/-!
# Attempt accounting

Every write but the claim works from a snapshot that may be several claims old, and none of
them assigns `attempt_count`. So the count is the number of the claims that have won, it
never falls, and no two executions of a handler see the same attempt of a job, whatever
interleaves (`attempts_are_counted`).
-/

namespace JobQueue

open Relational Transition

variable {settings : Settings} {s s' s₀ : State} {a : Action} {tr : List (State × Action)}
  {j : UUID} {row row' : Job} {now : Timestamp}

/-! ## Handler executions -/

/-- The start of a handler: the job and the attempt count of the instance it is given. -/
def startsHandler (e : State × Action) : Option (UUID × Nat) :=
  match e.2 with
  | .worker w .start =>
      match (e.1.workers w).executor with
      | .claimed m => some (m.id, m.current.attemptCount)
      | _ => none
  | _ => none

/-- The executions of a history, each with its job and its attempt. -/
def executions (tr : List (State × Action)) : List (UUID × Nat) := tr.filterMap startsHandler

theorem startsHandler_iff {p : UUID × Nat} : startsHandler (s, a) = some p ↔ ∃ w m,
    a = .worker w .start ∧ (s.workers w).executor = .claimed m ∧
      p = (m.id, m.current.attemptCount) := by
  constructor
  · intro h
    unfold startsHandler at h
    split at h
    · rename_i w heq
      split at h
      · rename_i m hclaimed
        cases h
        exact ⟨w, m, heq, hclaimed, rfl⟩
      · cases h
    · cases h
  · rintro ⟨w, m, rfl, hclaimed, rfl⟩
    simp [startsHandler, hclaimed]

theorem executions_snoc (tr : List (State × Action)) (e : State × Action) :
    executions (tr ++ [e]) = executions tr ++ (startsHandler e).toList := by
  simp only [executions, List.filterMap_append]
  cases h : startsHandler e with
  | none => simp [h]
  | some p => simp [h]

/-! ## The count of a row -/

theorem attempts_step (hquiet : s₀.Quiet) (hrun : Run (step settings) s₀ tr s)
    (hstep : step settings s a = some s') (j : UUID) :
    s'.attempts j = s.attempts j + if claims j (s, a) then 1 else 0 := by
  have hbefore := attempts_of_run hquiet hrun j
  have hafter := attempts_of_run hquiet (hrun.snoc hstep) j
  rw [List.countP_append, List.countP_singleton] at hafter
  omega

theorem attempts_mono (hquiet : s₀.Quiet) (hrun : Run (step settings) s₀ tr s)
    (hstep : step settings s a = some s') (j : UUID) : s.attempts j ≤ s'.attempts j := by
  rw [attempts_step hquiet hrun hstep j]
  omega

/-! ## Claimed attempts -/

/-- A worker is before the start of its handler because it was there already, or because its
claim has just won and has counted the attempt. -/
theorem claimed_step {w : WorkerId} {m : Mapped} (hstep : step settings s a = some s')
    (h' : (s'.workers w).executor = .claimed m) :
    ((s.workers w).executor = .claimed m ∧ a ≠ .worker w .start) ∨
      ((∃ began clock, a = .worker w (.claim began clock)) ∧ claims m.id (s, a) = true ∧
        m.current.attemptCount = s.attempts m.id + 1) := by
  rcases worker_move hstep w with ⟨hother, hsame⟩ | ⟨b, rfl, hmove⟩
  · exact Or.inl ⟨hsame ▸ h', hother _⟩
  · cases hmove with
    | @claim began clock jobId row hpopped _ hrow hready _ hworker =>
      rw [hworker] at h'
      cases h'
      refine Or.inr ⟨⟨began, clock, rfl⟩, ?_, ?_⟩
      · exact claims_iff.mpr ⟨w, began, clock, row, rfl, hpopped, hrow, hready⟩
      · rw [Mapped.load, State.attempts_of_row hrow]
        rfl
    | empty _ _ _ hworker | beat _ _ _ hworker | rest _ _ _ hworker | renew _ _ hworker
    | settle _ _ hworker =>
      rw [hworker] at h'
      exact Or.inl ⟨h', by simp⟩
    | _ =>
      rename_i hworker
      rw [hworker] at h'
      cases h'

/-! ## The invariant -/

/-- The attempts that have started, and those that are claimed and about to start, are
numbered apart. -/
structure AttemptInv (tr : List (State × Action)) (s : State) : Prop where
  nodup : (executions tr).Nodup
  started : ∀ p ∈ executions tr, p.2 ≤ s.attempts p.1
  claimed : ∀ w m, (s.workers w).executor = .claimed m →
    m.current.attemptCount ≤ s.attempts m.id ∧ (m.id, m.current.attemptCount) ∉ executions tr
  apart : ∀ v w m n, (s.workers v).executor = .claimed m → (s.workers w).executor = .claimed n →
    m.id = n.id → m.current.attemptCount = n.current.attemptCount → v = w

theorem attemptInv_step (hquiet : s₀.Quiet) (hrun : Run (step settings) s₀ tr s)
    (h : AttemptInv tr s) (hstep : step settings s a = some s') :
    AttemptInv (tr ++ [(s, a)]) s' := by
  have hmono := attempts_mono hquiet hrun hstep
  have hcount := attempts_step hquiet hrun hstep
  -- the attempt of a claim that has just won has the next number
  have hnew : ∀ m : Mapped, claims m.id (s, a) = true →
      m.current.attemptCount = s.attempts m.id + 1 → (m.id, m.current.attemptCount) ∉ executions tr ∧
      m.current.attemptCount ≤ s'.attempts m.id := by
    intro m hclaims hattempt
    refine ⟨?_, ?_⟩
    · intro hmem
      have := h.started _ hmem
      simp only at this
      omega
    · rw [hcount m.id, hclaims, if_pos rfl]
      omega
  refine ⟨?_, ?_, ?_, ?_⟩
  · rw [executions_snoc]
    cases hstart : startsHandler (s, a) with
    | none => simpa using h.nodup
    | some p =>
      obtain ⟨w, m, _, hclaimed, rfl⟩ := startsHandler_iff.mp hstart
      simp only [Option.toList_some]
      exact List.nodup_append'.mpr ⟨h.nodup, List.nodup_singleton _, by
        simpa using (h.claimed w m hclaimed).2⟩
  · intro p hp
    rw [executions_snoc, List.mem_append] at hp
    rcases hp with hp | hp
    · exact (h.started p hp).trans (hmono p.1)
    · obtain ⟨w, m, _, hclaimed, rfl⟩ := startsHandler_iff.mp (by simpa using hp)
      exact (h.claimed w m hclaimed).1.trans (hmono m.id)
  · intro w m hclaimed'
    rw [executions_snoc, List.mem_append, not_or]
    rcases claimed_step hstep hclaimed' with ⟨hclaimed, hno⟩ | ⟨⟨began, clock, rfl⟩, hclaims, hattempt⟩
    · obtain ⟨hle, hnot⟩ := h.claimed w m hclaimed
      refine ⟨hle.trans (hmono m.id), hnot, ?_⟩
      intro hmem
      obtain ⟨v, n, rfl, hother, heq⟩ := startsHandler_iff.mp (by simpa using hmem)
      simp only [Prod.mk.injEq] at heq
      have hvw := h.apart w v m n hclaimed hother heq.1 heq.2
      exact hno (by rw [hvw])
    · obtain ⟨hnot, hle⟩ := hnew m hclaims hattempt
      exact ⟨hle, hnot, by simp [startsHandler]⟩
  · intro v w m n hv hw hid hattempt
    rcases claimed_step hstep hv with ⟨hv, _⟩ | ⟨⟨began, clock, rfl⟩, hclaims, hnext⟩
    · rcases claimed_step hstep hw with ⟨hw, _⟩ | ⟨_, hclaims', hnext'⟩
      · exact h.apart v w m n hv hw hid hattempt
      · have hle := (h.claimed v m hv).1
        rw [hid] at hle
        omega
    · rcases claimed_step hstep hw with ⟨hw, _⟩ | ⟨⟨_, _, heq⟩, _, _⟩
      · have hle := (h.claimed w n hw).1
        rw [← hid] at hle
        omega
      · cases heq
        rfl

theorem attemptInv_of_run (hquiet : s₀.Quiet) (hrun : Run (step settings) s₀ tr s) :
    AttemptInv tr s := by
  refine hrun.induct (C := fun _ _ => True) (by simp) ?_
    fun tr s a s' hrun _ h _ hstep => attemptInv_step hquiet hrun h hstep
  refine ⟨by simp [executions], by simp [executions], ?_, ?_⟩
  · intro w m hclaimed
    simp [hquiet.workers w] at hclaimed
  · intro v w m n hclaimed
    simp [hquiet.workers v] at hclaimed

/-- The attempt a handler sees, from its start to its end, is that of its start. -/
theorem executing_started {w : WorkerId} {m : Mapped} (hquiet : s₀.Quiet)
    (hrun : Run (step settings) s₀ tr s) (hexecuting : (s.workers w).executor = .executing m) :
    (m.id, m.current.attemptCount) ∈ executions tr := by
  induction hrun generalizing m with
  | nil => simp [hquiet.workers w] at hexecuting
  | @snoc tr s a s' hrun hstep ih =>
    rw [executions_snoc, List.mem_append]
    rcases worker_move hstep w with ⟨_, hsame⟩ | ⟨b, rfl, hmove⟩
    · exact Or.inl (ih (hsame ▸ hexecuting))
    · cases hmove with
      | start hclaimed _ hworker =>
        rw [hworker] at hexecuting
        cases hexecuting
        exact Or.inr (by simp [startsHandler, hclaimed])
      | report hbefore _ _ hworker =>
        rw [hworker] at hexecuting
        cases hexecuting
        have hstarted := ih hbefore
        exact Or.inl hstarted
      | empty _ _ _ hworker | beat _ _ _ hworker | rest _ _ _ hworker | renew _ _ hworker
      | settle _ _ hworker =>
        rw [hworker] at hexecuting
        exact Or.inl (ih hexecuting)
      | _ =>
        rename_i hworker
        rw [hworker] at hexecuting
        cases hexecuting

/-! ## The guarantee -/

/-- In every run of the whole system the attempt count of a job is the number of its won
claims and never falls, and the executions of its handler have different attempts, each of
which the handler sees throughout. -/
theorem attempts_are_counted (hrun : Run (step settings) (State.initial now) tr s) :
    (∀ j row, s.row j = some row → row.attemptCount = tr.countP (claims j)) ∧
      (∀ e ∈ tr, ∀ j row, e.1.row j = some row →
        ∃ row', s.row j = some row' ∧ row.attemptCount ≤ row'.attemptCount) ∧
      (executions tr).Nodup ∧
      ∀ w m, (s.workers w).executor = .executing m →
        (m.id, m.current.attemptCount) ∈ executions tr := by
  have hquiet := State.quiet_initial now
  have hcount : ∀ tr s j row, Run (step settings) (State.initial now) tr s → s.row j = some row →
      row.attemptCount = tr.countP (claims j) := by
    intro tr s j row hrun hrow
    have hattempts := attempts_of_run hquiet hrun j
    have hzero : (State.initial now).attempts j = 0 := by
      simp [State.attempts, State.row, State.initial]
    rw [State.attempts_of_row hrow, hzero] at hattempts
    omega
  refine ⟨fun j row hrow => hcount tr s j row hrun hrow, ?_,
    (attemptInv_of_run hquiet hrun).nodup, fun w m h => executing_started hquiet hrun h⟩
  intro e he j row hrow
  obtain ⟨tr₁, tr₂, t, rfl, hrun₁, ht, hrun₂⟩ := hrun.split_of_mem he
  obtain ⟨row', hrow'⟩ := row_of_run ((Run.of_step ht).append hrun₂) hrow
  refine ⟨row', hrow', ?_⟩
  rw [hcount _ _ j row hrun₁ hrow, hcount _ _ j row' hrun hrow', List.countP_append]
  omega

/-- A reaped worker reports progress and completes while its successor runs: the attempts of
the two are told apart. -/
theorem attempts_are_counted_stale :
    ∃ tr s, Run (step {}) (State.initial 0) tr s ∧ executions tr = [(1, 1), (1, 2)] ∧
      (∀ j row, s.row j = some row → row.attemptCount = tr.countP (claims j)) ∧
      (∀ e ∈ tr, ∀ j row, e.1.row j = some row →
        ∃ row', s.row j = some row' ∧ row.attemptCount ≤ row'.attemptCount) ∧
      (executions tr).Nodup ∧
      ∀ w m, (s.workers w).executor = .executing m →
        (m.id, m.current.attemptCount) ∈ executions tr := by
  obtain ⟨tr, s, hrun, _, hcheck⟩ := run_of_check (step {}) (State.initial 0)
    [.api 0 (.submit { webhookRequest with jobType := .batch } none), .api 0 (.insert 1),
      .api 0 .commit, .api 0 .command, .worker "w1" .dequeue, .worker "w1" (.claim 0 0),
      .worker "w1" .start, .tick 61000000, .maintenance (.reaperSelect 10 [1]),
      .maintenance (.reaperUpdate 61000000), .maintenance (.feederSelect 10 [1]),
      .maintenance .feederPush, .worker "w2" .dequeue, .worker "w2" (.claim 61000000 61000000),
      .worker "w2" .start, .worker "w1" (.report 50), .worker "w1" (.finish (.obj []) 61000000),
      .worker "w1" .commit]
    (fun tr _ => executions tr = [(1, 1), (1, 2)]) (by decide +kernel)
  exact ⟨tr, s, hrun, by simpa using hcheck, attempts_are_counted hrun⟩

end JobQueue
