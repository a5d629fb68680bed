import JobQueue.System.Ownership
import Mathlib.Data.List.DropRight

/-!
# Events in the history of a job

What the statements of a history did to one job, told from each action and the state it was
taken in: claims that won, finalising commits, commits of `cancel_job` and of
`manual_retry`. A history is searched and counted for these events.
-/

namespace JobQueue

open Relational Transition

variable {settings : Settings} {s s' s₀ : State} {a : Action} {tr : List (State × Action)}
  {j : UUID} {row row' : Job}

/-! ## Events -/

/-- A `claim_job` that wins job `j`. -/
def claims (j : UUID) (e : State × Action) : Bool :=
  match e.2 with
  | .worker w (.claim began _) =>
      match (e.1.workers w).executor with
      | .popped k => k = j ∧ (e.1.row j).any (Job.ready began)
      | _ => false
  | _ => false

/-- A finalising commit on job `j` that sets the status to `status`. -/
def finalises (j : UUID) (status : JobStatus) (e : State × Action) : Bool :=
  match e.2 with
  | .worker w .commit =>
      match (e.1.workers w).executor with
      | .finalising m => m.id = j ∧ m.current.status = status
      | _ => false
  | _ => false

/-- A commit of `cancel_job` on job `j`. -/
def cancels (j : UUID) (e : State × Action) : Bool :=
  match e.2 with
  | .api c .commit =>
      match e.1.calls c with
      | .cancelling m => m.id = j
      | _ => false
  | _ => false

/-- A commit of `manual_retry` on job `j`. -/
def reopens (j : UUID) (e : State × Action) : Bool :=
  match e.2 with
  | .api c .commit =>
      match e.1.calls c with
      | .retrying m => m.id = j
      | _ => false
  | _ => false

theorem claims_iff : claims j (s, a) = true ↔ ∃ w began clock row,
    a = .worker w (.claim began clock) ∧ (s.workers w).executor = .popped j ∧
      s.row j = some row ∧ row.ready began = true := by
  constructor
  · intro h
    unfold claims at h
    split at h
    · rename_i w began clock heq
      split at h
      · rename_i k hpopped
        simp only [Option.any_eq_true, decide_eq_true_eq] at h
        obtain ⟨rfl, row, hrow, hready⟩ := h
        exact ⟨w, began, clock, row, heq, hpopped, hrow, hready⟩
      · cases h
    · cases h
  · rintro ⟨w, began, clock, row, rfl, hpopped, hrow, hready⟩
    simp [claims, hpopped, hrow, hready]

theorem finalises_iff {status : JobStatus} : finalises j status (s, a) = true ↔ ∃ w m,
    a = .worker w .commit ∧ (s.workers w).executor = .finalising m ∧ m.id = j ∧
      m.current.status = status := by
  constructor
  · intro h
    unfold finalises at h
    split at h
    · rename_i w heq
      split at h
      · rename_i m hfinalising
        simp only [decide_eq_true_eq] at h
        exact ⟨w, m, heq, hfinalising, h.1, h.2⟩
      · cases h
    · cases h
  · rintro ⟨w, m, rfl, hfinalising, hid, hstatus⟩
    simp [finalises, hfinalising, hid, hstatus]

theorem cancels_iff : cancels j (s, a) = true ↔ ∃ c m,
    a = .api c .commit ∧ s.calls c = .cancelling m ∧ m.id = j := by
  constructor
  · intro h
    unfold cancels at h
    split at h
    · rename_i c heq
      split at h
      · rename_i m hcancelling
        exact ⟨c, m, heq, hcancelling, by simpa using h⟩
      · cases h
    · cases h
  · rintro ⟨c, m, rfl, hcancelling, hid⟩
    simp [cancels, hcancelling, hid]

theorem reopens_iff : reopens j (s, a) = true ↔ ∃ c m,
    a = .api c .commit ∧ s.calls c = .retrying m ∧ m.id = j := by
  constructor
  · intro h
    unfold reopens at h
    split at h
    · rename_i c heq
      split at h
      · rename_i m hretrying
        exact ⟨c, m, heq, hretrying, by simpa using h⟩
      · cases h
    · cases h
  · rintro ⟨c, m, rfl, hretrying, hid⟩
    simp [reopens, hretrying, hid]

/-! ## The time since the `SELECT` of a call -/

/-- The action is one of call `c`. -/
def Action.ofCall (c : Nat) : Action → Bool
  | .api d _ => d = c
  | _ => false

/-- The entries after the last action of call `c`: while the call is about to commit, those
since its `SELECT`. -/
def since (c : Nat) (tr : List (State × Action)) : List (State × Action) :=
  tr.rtakeWhile fun e => !e.2.ofCall c

theorem since_own {c : Nat} {b : CallAction} : since c (tr ++ [(s, .api c b)]) = [] :=
  List.rtakeWhile_concat_neg _ _ _ (by simp [Action.ofCall])

theorem since_other {c : Nat} (h : ∀ b, a ≠ .api c b) :
    since c (tr ++ [(s, a)]) = since c tr ++ [(s, a)] := by
  refine List.rtakeWhile_concat_pos _ _ _ ?_
  cases a with
  | api d b =>
    have : d ≠ c := by
      rintro rfl
      exact h b rfl
    simp [Action.ofCall, this]
  | worker | maintenance | tick | tamper => rfl

theorem mem_of_mem_since {c : Nat} {e : State × Action} (h : e ∈ since c tr) : e ∈ tr :=
  (List.rtakeWhile_suffix _ _).subset h

/-! ## Events of a step that leaves or changes the row -/

/-- The statement that wins the claim. -/
theorem claims_row (hstep : step settings s a = some s') (h : claims j (s, a) = true) :
    ∃ w began clock row, a = .worker w (.claim began clock) ∧ s.row j = some row ∧
      row.ready began = true ∧ began ≤ s.store.now ∧
      s'.row j = some (row.claim began clock settings.workerLease w) ∧
      (s'.workers w).executor =
        .claimed (Mapped.load j (row.claim began clock settings.workerLease w)) := by
  obtain ⟨w, began, clock, row, rfl, hpopped, hrow, hready⟩ := claims_iff.mp h
  cases own_move hstep with
  | claim hpopped' hbegan hrow' _ hstore hworker =>
    rw [hpopped] at hpopped'
    cases hpopped'
    obtain rfl := Option.some.inj (hrow.symm.trans hrow')
    refine ⟨w, began, clock, row, rfl, hrow, hready, hbegan, ?_, ?_⟩
    · rw [State.row, hstore]
      exact AList.lookup_insert _
    · rw [hworker]
  | skip hpopped' _ hnot _ _ =>
    rw [hpopped] at hpopped'
    cases hpopped'
    rw [hnot row hrow] at hready
    cases hready

theorem claims_eq_false_of_unchanged (hstep : step settings s a = some s')
    (hrow : s.row j = some row) (hrow' : s'.row j = some row) : claims j (s, a) = false := by
  by_contra h
  obtain ⟨w, began, clock, row₁, _, hrow₁, _, _, hrow₂, _⟩ :=
    claims_row hstep (Bool.eq_true_of_not_eq_false h)
  rw [hrow] at hrow₁
  rw [hrow'] at hrow₂
  cases hrow₁
  have hattempt : row.attemptCount = row.attemptCount + 1 := by
    conv_lhs => rw [Option.some.inj hrow₂]
    rfl
  omega

theorem finalises_row {status : JobStatus} (hstep : step settings s a = some s')
    (h : finalises j status (s, a) = true) (hrow : s.row j = some row) :
    ∃ w m, a = .worker w .commit ∧ (s.workers w).executor = .finalising m ∧ m.id = j ∧
      m.current.status = status ∧ s'.row j = some (m.flush row) := by
  obtain ⟨w, m, rfl, hfinalising, rfl, hstatus⟩ := finalises_iff.mp h
  exact ⟨w, m, rfl, hfinalising, rfl, hstatus, by rw [finalise_row hstep hfinalising, hrow]; rfl⟩

/-! ## What the flush of an instance in flight writes -/

theorem finalising_status {w : WorkerId} {m : Mapped} (hshaped : s.Shaped settings)
    (hfinalising : (s.workers w).executor = .finalising m) :
    m.current.status = .completed ∨ m.current.status = .pending ∨ m.current.status = .failed := by
  have hshape := hshaped.executor w
  rw [hfinalising] at hshape
  rcases hshape.2 with ⟨clock, result, heq⟩ | ⟨clock, raised, heq⟩
  · left
    rw [heq]
    rfl
  · right
    rw [heq, Raised.apply, applyFailure_status]
    by_cases hretries : retries raised.permanent m.loaded = true
    · left
      rw [if_pos hretries]
    · right
      rw [if_neg hretries]

/-- A finalising commit always writes the status. -/
theorem finalising_flush_status {w : WorkerId} {m : Mapped} (hshaped : s.Shaped settings)
    (hfinalising : (s.workers w).executor = .finalising m) (row : Job) :
    (m.flush row).status = m.current.status := by
  have hshape := hshaped.executor w
  rw [hfinalising] at hshape
  have hstatus := finalising_status hshaped hfinalising
  refine written_of_ne _ ?_
  rw [hshape.1]
  rcases hstatus with h | h | h <;> simp [h]

/-- A commit of `cancel_job` always writes the status. -/
theorem cancelling_flush_status {c : Nat} {m : Mapped} (hshaped : s.Shaped settings)
    (hcancelling : s.calls c = .cancelling m) (row : Job) :
    (m.flush row).status = .cancelled := by
  have hshape := hshaped.call c
  rw [hcancelling] at hshape
  obtain ⟨hok, hcurrent⟩ := hshape
  have hstatus : m.current.status = .cancelled := by rw [hcurrent]; rfl
  rw [← hstatus]
  refine written_of_ne _ ?_
  rw [hstatus]
  intro h
  simp [Job.cancellable, ← h] at hok

/-- A commit of `manual_retry` always writes the status. -/
theorem retrying_flush_status {c : Nat} {m : Mapped} (hshaped : s.Shaped settings)
    (hretrying : s.calls c = .retrying m) (row : Job) :
    (m.flush row).status = .pending := by
  have hshape := hshaped.call c
  rw [hretrying] at hshape
  obtain ⟨hok, clock, hcurrent⟩ := hshape
  have hstatus : m.current.status = .pending := by rw [hcurrent]; rfl
  rw [← hstatus]
  refine written_of_ne _ ?_
  rw [hstatus]
  intro h
  simp [Job.retryable, ← h] at hok

/-- A finalising commit finds its own attempt where ownership holds. -/
theorem finalises_processing {status : JobStatus} (hholding : s.Holding)
    (h : finalises j status (s, a) = true) (hrow : s.row j = some row) :
    row.status = .processing := by
  obtain ⟨w, m, rfl, hfinalising, rfl, _⟩ := finalises_iff.mp h
  obtain ⟨row', hrow', hholds⟩ :=
    hholding w m (inHand_of_finalising hfinalising)
  rw [hrow] at hrow'
  cases hrow'
  exact hholds.row_status

theorem finalises_status {status : JobStatus} (hshaped : s.Shaped settings)
    (hstep : step settings s a = some s') (h : finalises j status (s, a) = true)
    (hrow : s.row j = some row) (hrow' : s'.row j = some row') : row'.status = status := by
  obtain ⟨w, m, rfl, hfinalising, rfl, hstatus, hflush⟩ := finalises_row hstep h hrow
  rw [hrow'] at hflush
  cases hflush
  rw [finalising_flush_status hshaped hfinalising, hstatus]

/-! ## The counters of a row -/

/-- The instances in flight carry the attempt count they loaded, whatever they assign. -/
theorem executor_counters {w : WorkerId} {m : Mapped} (hshaped : s.Shaped settings)
    (hm : s.inHand w = some m) :
    m.current.attemptCount = m.loaded.attemptCount ∧
      m.current.maxAttempts = m.loaded.maxAttempts := by
  have hshape := hshaped.executor w
  unfold State.inHand at hm
  cases hphase : (s.workers w).executor with
  | claimed n | executing n =>
    rw [hphase] at hm hshape
    cases hm
    rw [hshape.2]
    exact ⟨rfl, rfl⟩
  | finalising n =>
    rw [hphase] at hm hshape
    cases hm
    rcases hshape.2 with ⟨clock, result, heq⟩ | ⟨clock, raised, heq⟩
    · rw [heq]
      exact ⟨rfl, rfl⟩
    · rw [heq]
      exact ⟨applyFailure_attemptCount _ _ _ _ _, applyFailure_maxAttempts _ _ _ _ _⟩
  | idle | popped | deadLettering | crashed =>
    rw [hphase] at hm
    cases hm

theorem cancelling_counters {c : Nat} {m : Mapped} (hshaped : s.Shaped settings)
    (hcancelling : s.calls c = .cancelling m) :
    m.current.attemptCount = m.loaded.attemptCount ∧
      m.current.maxAttempts = m.loaded.maxAttempts := by
  have hshape := hshaped.call c
  rw [hcancelling] at hshape
  rw [hshape.2]
  exact ⟨rfl, rfl⟩

theorem retrying_counters {c : Nat} {m : Mapped} (hshaped : s.Shaped settings)
    (hretrying : s.calls c = .retrying m) :
    m.current.attemptCount = m.loaded.attemptCount ∧
      m.current.maxAttempts = m.loaded.maxAttempts + 1 := by
  have hshape := hshaped.call c
  rw [hretrying] at hshape
  obtain ⟨_, clock, heq⟩ := hshape
  rw [heq]
  exact ⟨rfl, rfl⟩

/-- Only a won claim moves the attempt count, in any interleaving and from any snapshot. -/
theorem attemptCount_step (hshaped : s.Shaped settings) (hstep : step settings s a = some s')
    (hrow : s.row j = some row) (hrow' : s'.row j = some row') :
    row'.attemptCount = row.attemptCount + if claims j (s, a) then 1 else 0 := by
  obtain ⟨row₁, hrow₁, hcase⟩ := row_step hstep hrow
  rw [hrow'] at hrow₁
  cases hrow₁
  have hwritten : ∀ m : Mapped, m.current.attemptCount = m.loaded.attemptCount →
      (m.flush row).attemptCount = row.attemptCount := by
    intro m hm
    simp [Mapped.flush, hm]
  rcases hcase with rfl | hchange
  · rw [claims_eq_false_of_unchanged hstep hrow hrow']
    simp
  · cases hchange with
    | claim hpopped _ hready =>
      rw [claims_iff.mpr ⟨_, _, _, row, rfl, hpopped, hrow, hready⟩]
      rfl
    | report hexecuting hid =>
      have := executor_counters hshaped (inHand_of_executing hexecuting)
      rw [hwritten _ (by simpa [reportProgress] using this.1)]
      simp [claims]
    | finalise hfinalising hid =>
      have := executor_counters hshaped (inHand_of_finalising hfinalising)
      rw [hwritten _ this.1]
      simp [claims]
    | cancel hcancelling =>
      rw [hwritten _ (cancelling_counters hshaped hcancelling).1]
      simp [claims]
    | retry hretrying =>
      rw [hwritten _ (retrying_counters hshaped hretrying).1]
      simp [claims]
    | renew | promote | reap | cleanup => rfl

/-- Only a commit of `manual_retry` moves the attempt limit. -/
theorem maxAttempts_step (hshaped : s.Shaped settings) (hstep : step settings s a = some s')
    (hrow : s.row j = some row) (hrow' : s'.row j = some row')
    (hreopens : reopens j (s, a) = false) : row'.maxAttempts = row.maxAttempts := by
  obtain ⟨row₁, hrow₁, hcase⟩ := row_step hstep hrow
  rw [hrow'] at hrow₁
  cases hrow₁
  have hwritten : ∀ m : Mapped, m.current.maxAttempts = m.loaded.maxAttempts →
      (m.flush row).maxAttempts = row.maxAttempts := by
    intro m hm
    simp [Mapped.flush, hm]
  rcases hcase with rfl | hchange
  · rfl
  · cases hchange with
    | report hexecuting hid =>
      have := executor_counters hshaped (inHand_of_executing hexecuting)
      exact hwritten _ (by simpa [reportProgress] using this.2)
    | finalise hfinalising hid =>
      have := executor_counters hshaped (inHand_of_finalising hfinalising)
      exact hwritten _ this.2
    | cancel hcancelling => exact hwritten _ (cancelling_counters hshaped hcancelling).2
    | retry hretrying hid =>
      rw [reopens_iff.mpr ⟨_, _, rfl, hretrying, hid⟩] at hreopens
      cases hreopens
    | claim | renew | promote | reap | cleanup => rfl

/-- What a new row starts with. -/
theorem new_row (hshaped : s.Shaped settings) (hstep : step settings s a = some s')
    (hrow : s.row j = none) (hrow' : s'.row j = some row) :
    row.attemptCount = 0 ∧ 0 < row.maxAttempts ∧
      ∃ data key t, row = newJob settings data key t := by
  obtain ⟨c, rfl, hcall, _⟩ := row_new hstep hrow hrow'
  have hshape := hshaped.call c
  rw [hcall] at hshape
  obtain ⟨hmax, data, key, t, rfl⟩ := hshape
  exact ⟨rfl, hmax, data, key, t, rfl⟩

/-- The attempts of a job, none for a job that has no row. -/
def State.attempts (s : State) (j : UUID) : Nat := ((s.row j).map Job.attemptCount).getD 0

theorem State.attempts_of_row (h : s.row j = some row) : s.attempts j = row.attemptCount := by
  simp [State.attempts, h]

/-- The attempt count is the number of the claims that have won, in any interleaving. -/
theorem attempts_of_run (hquiet : s₀.Quiet) (hrun : Run (step settings) s₀ tr s) (j : UUID) :
    s.attempts j = s₀.attempts j + tr.countP (claims j) := by
  induction hrun with
  | nil => simp
  | @snoc tr s a s' hrun hstep ih =>
    have hshaped := shaped_of_run hquiet hrun
    rw [List.countP_append, List.countP_singleton, ← Nat.add_assoc, ← ih]
    cases hrow : s.row j with
    | none =>
      have hclaims : claims j (s, a) = false := by
        by_contra h
        obtain ⟨_, _, _, row, _, _, hrow', _⟩ := claims_iff.mp (Bool.eq_true_of_not_eq_false h)
        rw [hrow] at hrow'
        cases hrow'
      have hzero : s.attempts j = 0 := by simp [State.attempts, hrow]
      rw [hclaims, hzero]
      cases hrow' : s'.row j with
      | none => simp [State.attempts, hrow']
      | some row' =>
        rw [State.attempts_of_row hrow', (new_row hshaped hstep hrow hrow').1]
        rfl
    | some row =>
      obtain ⟨row', hrow', _⟩ := row_step hstep hrow
      rw [State.attempts_of_row hrow', State.attempts_of_row hrow]
      exact attemptCount_step hshaped hstep hrow hrow'

/-! ## The attempt in hand -/

/-- Worker `w` claimed job `j` in this history, and the claim brought the attempt count
to `n`. -/
def ClaimedAs (w : WorkerId) (j : UUID) (n : Nat) (tr : List (State × Action)) : Prop :=
  ∃ e ∈ tr, (∃ began clock, e.2 = .worker w (.claim began clock)) ∧ claims j e = true ∧
    ∃ row, e.1.row j = some row ∧ n = row.attemptCount + 1

/-- The attempt count a worker has loaded for the attempt in its hand is that of its
claim. -/
theorem claimedAs_of_inHand {w : WorkerId} {m : Mapped} (hquiet : s₀.Quiet)
    (hrun : Run (step settings) s₀ tr s) (hm : s.inHand w = some m) :
    ClaimedAs w m.id m.loaded.attemptCount tr := by
  induction hrun generalizing m with
  | nil =>
    rw [hquiet.inHand w] at hm
    cases hm
  | @snoc tr s a s' hrun hstep ih =>
    rcases inHand_step hstep hm with
      ⟨began, clock, row, rfl, hpopped, hrow, hready, hload, _⟩ | ⟨n, hn, hid, _, hloaded⟩
    · refine ⟨_, List.mem_append_right _ (List.mem_singleton_self _), ⟨began, clock, rfl⟩, ?_,
        row, hrow, by rw [hload]; rfl⟩
      exact claims_iff.mpr ⟨w, began, clock, row, rfl, hpopped, hrow, hready⟩
    · obtain ⟨e, he, hclaim⟩ := ih hn
      have hsame : m.loaded.attemptCount = n.loaded.attemptCount := by
        rcases hloaded with ⟨hloaded, _⟩ | ⟨pct, _, _, hloaded⟩
        · rw [hloaded]
        · rw [hloaded]
          exact (executor_counters (shaped_of_run hquiet hrun) hn).1
      rw [hid, hsame]
      exact ⟨e, List.mem_append_left _ he, hclaim⟩

end JobQueue
