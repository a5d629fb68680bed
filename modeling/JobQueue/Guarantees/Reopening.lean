import JobQueue.System.History

/-!
# What a manual retry grants

`manual_retry` raises the limit of a failed job by one. After that the job is claimed until
its attempt count reaches the limit, so the retry grants one attempt just if the count had
reached the old limit when the job failed (`manual_retry_grants_one_iff`). A job that failed
for good before that, by an unknown job type, has its spare attempts granted as well
(`permanent_failure_grants_three`).
-/

namespace JobQueue

open Relational Transition

variable {settings : Settings} {s s' s₀ : State} {a : Action} {tr : List (State × Action)}
  {j : UUID} {row row' row₀ : Job}

/-! ## What is promised -/

/-- The steps of the feeder, of `process_one` and the heartbeats, and of the clock, in which
each attempt at job `j` fails with an error that is not permanent, and manual retries of
`j`, none of which commits after the row has changed since its `SELECT`. -/
def continuesRetry (j : UUID) (s : State) : Action → Bool
  | .worker w (.finish _ _) => (s.workers w).executor.inHand.all fun m => m.id ≠ j
  | .worker w (.fail raised _) =>
      (s.workers w).executor.inHand.all fun m => m.id = j → raised.permanent = false
  | .worker _ .crash => false
  | .worker _ _ => true
  | .api _ (.manualRetry k _) => k = j
  | .api c .commit =>
      match s.calls c with
      | .retrying m => m.id = j ∧ s.row j = some m.loaded
      | _ => false
  | .api _ .command => true
  | .maintenance (.feederSelect _ _) | .maintenance .feederPush => true
  | .tick _ => true
  | _ => false

/-- Job `j` has the row `row₀` and is in no worker's hand. -/
structure Laid (settings : Settings) (j : UUID) (row₀ : Job) (s : State) : Prop where
  row : s.row j = some row₀
  shaped : s.Shaped settings
  free : ∀ w m, s.inHand w = some m → m.id ≠ j

/-- Manual retries of job `j`, from the failed row `row₀` on, grant one attempt each. -/
structure GrantsOne (settings : Settings) (j : UUID) (row₀ : Job) : Prop where
  /-- Never more claims than retries, at most one fewer, and as many whenever the job has
  failed. -/
  exact : ∀ s₀ tr s, Laid settings j row₀ s₀ → Run (step settings) s₀ tr s →
    (∀ e ∈ tr, continuesRetry j e.1 e.2 = true) →
    tr.countP (claims j) ≤ tr.countP (reopens j) ∧
      tr.countP (reopens j) ≤ tr.countP (claims j) + 1 ∧
      ∀ row, s.row j = some row → row.status = .failed →
        tr.countP (claims j) = tr.countP (reopens j)
  /-- Any number of retries can follow each other, each with its attempt. -/
  possible : ∀ k, ∃ s₀ tr s row, Laid settings j row₀ s₀ ∧ Run (step settings) s₀ tr s ∧
    (∀ e ∈ tr, continuesRetry j e.1 e.2 = true) ∧ tr.countP (reopens j) = k ∧
    tr.countP (claims j) = k ∧ s.row j = some row ∧ row.status = .failed

/-! ## The rounds of a job -/

/-- The counters of the row by the events of the history, and the phase of the round by the
status: a retry is pending, or it has been claimed. -/
structure RetryRounds (settings : Settings) (j : UUID) (row₀ : Job) (tr : List (State × Action))
    (s : State) (row : Job) : Prop where
  found : s.row j = some row
  shaped : s.Shaped settings
  holding : s.HoldingOf j
  failing : ∀ w m, (s.workers w).executor = .finalising m → m.id = j →
    ∃ clock raised, Raised.permanent raised = false ∧
      m.current = raised.apply settings clock m.loaded
  attempts : row.attemptCount = row₀.attemptCount + tr.countP (claims j)
  limit : row.maxAttempts = row₀.maxAttempts + tr.countP (reopens j)
  phase : (row.status = .pending ∧ tr.countP (reopens j) = tr.countP (claims j) + 1) ∨
    ((row.status = .processing ∨ row.status = .failed) ∧
      tr.countP (reopens j) = tr.countP (claims j))

theorem Laid.rounds (h : Laid settings j row₀ s) (hfailed : row₀.status = .failed) :
    RetryRounds settings j row₀ [] s row₀ where
  found := h.row
  shaped := h.shaped
  holding w m hm hid := absurd hid (h.free w m hm)
  failing w m hfinalising hid := absurd hid (h.free w m (inHand_of_finalising hfinalising))
  attempts := by simp
  limit := by simp
  phase := Or.inr ⟨Or.inr hfailed, by simp⟩

/-- A retry in scope takes a failed row to the row it assigns. -/
theorem reopens_row (hshaped : s.Shaped settings) (hscope : continuesRetry j s a = true)
    (hstep : step settings s a = some s') (hreopens : reopens j (s, a) = true) :
    ∃ row clock, s.row j = some row ∧ row.status = .failed ∧
      s'.row j = some (manualRetry clock row) ∧ claims j (s, a) = false := by
  obtain ⟨c, m, rfl, hretrying, rfl⟩ := reopens_iff.mp hreopens
  simp only [continuesRetry, hretrying, true_and, decide_eq_true_eq] at hscope
  have hshape := hshaped.call c
  rw [hretrying] at hshape
  obtain ⟨hok, clock, hcurrent⟩ := hshape
  refine ⟨m.loaded, clock, hscope, by simpa [Job.retryable] using hok, ?_, rfl⟩
  rw [retry_row hstep hretrying, hscope, Option.map_some, Mapped.flush_loaded, hcurrent]

/-- No step in scope takes an attempt at the job from its worker. -/
theorem not_intrudesOn (hholding : s.HoldingOf j) (hshaped : s.Shaped settings)
    (hscope : continuesRetry j s a = true) : ¬ s.IntrudesOn settings j a := by
  rintro ⟨w, m, row, row', hm, hid, hrow, _, ⟨began, rfl⟩ | ⟨c, rfl⟩⟩
  · cases hscope
  · -- the commit finds a failed row, and a job in hand is processing
    obtain ⟨row₁, hrow₁, hholds⟩ := hholding w m hm hid
    have hstatus := hholds.row_status
    simp only [continuesRetry] at hscope
    split at hscope
    · rename_i n hretrying
      rw [decide_eq_true_eq] at hscope
      have hshape := hshaped.call c
      rw [hretrying] at hshape
      have hfailed : n.loaded.status = .failed := by simpa [Job.retryable] using hshape.1
      rw [hscope.2] at hrow₁
      cases hrow₁
      rw [hfailed] at hstatus
      cases hstatus
    · cases hscope

/-- The instance of a finalising commit has been through `apply_failure`. -/
theorem failing_step (hshaped : s.Shaped settings) (hscope : continuesRetry j s a = true)
    (hfailing : ∀ w m, (s.workers w).executor = .finalising m → m.id = j →
      ∃ clock raised, Raised.permanent raised = false ∧
        m.current = raised.apply settings clock m.loaded)
    (hstep : step settings s a = some s') {w : WorkerId} {m : Mapped}
    (hfinalising : (s'.workers w).executor = .finalising m) (hid : m.id = j) :
    ∃ clock raised, Raised.permanent raised = false ∧
      m.current = raised.apply settings clock m.loaded := by
  rcases finalising_step hstep hfinalising with
    ⟨hbefore, _⟩ | ⟨n, hexecuting, ⟨result, clock, rfl, rfl⟩ | ⟨raised, clock, rfl, rfl⟩⟩
  · exact hfailing w m hbefore hid
  · simp only [continuesRetry, hexecuting, Executor.inHand, Option.all_some,
      decide_eq_true_eq] at hscope
    exact absurd hid hscope
  · have hshape := hshaped.executor w
    rw [hexecuting] at hshape
    simp only [continuesRetry, hexecuting, Executor.inHand, Option.all_some,
      decide_eq_true_eq] at hscope
    exact ⟨clock, raised, hscope hid, by rw [← hshape.2]⟩

/-- The finalising commit of an attempt that is the last one. -/
theorem finalise_fails {w : WorkerId} {m : Mapped} (h : RetryRounds settings j row₀ tr s row)
    (hspent : row₀.maxAttempts ≤ row₀.attemptCount)
    (hfinalising : (s.workers w).executor = .finalising m) (hid : m.id = j) :
    (m.flush row).status = .failed ∧ row.status = .processing := by
  have hm : s.inHand w = some m := inHand_of_finalising hfinalising
  obtain ⟨row₁, hrow₁, hholds⟩ := h.holding w m hm hid
  rw [h.found] at hrow₁
  cases hrow₁
  obtain ⟨clock, raised, hordinary, hcurrent⟩ := h.failing w m hfinalising hid
  refine ⟨?_, hholds.row_status⟩
  rw [finalising_flush_status h.shaped hfinalising, hcurrent, Raised.apply, applyFailure_status,
    hordinary]
  -- the counters of the claimed row are those of the row
  have hcounters : m.loaded.attemptCount = row.attemptCount ∧
      m.loaded.maxAttempts = row.maxAttempts := by
    obtain ⟨lease, key, rfl⟩ := hholds.same
    exact ⟨rfl, rfl⟩
  have hround : tr.countP (reopens j) = tr.countP (claims j) := by
    rcases h.phase with ⟨hpending, _⟩ | ⟨_, hround⟩
    · rw [hholds.row_status] at hpending
      cases hpending
    · exact hround
  have hattempts := h.attempts
  have hlimit := h.limit
  have hlast : retries false m.loaded = false := by
    simp only [retries, shouldRetry, Bool.not_false, Bool.true_and, decide_eq_false_iff_not]
    omega
  simp [hlast]

/-- A retry in scope finds a round that is over, and opens the next one. -/
theorem RetryRounds.reopened (h : RetryRounds settings j row₀ tr s row)
    (hscope : continuesRetry j s a = true) (hstep : step settings s a = some s')
    (hrow' : s'.row j = some row') (hreopens : reopens j (s, a) = true) :
    ∃ clock, row' = manualRetry clock row ∧ claims j (s, a) = false ∧
      tr.countP (reopens j) = tr.countP (claims j) := by
  obtain ⟨row₁, clock, hrow₁, hfailed, hretried, hclaims⟩ :=
    reopens_row h.shaped hscope hstep hreopens
  rw [h.found] at hrow₁
  rw [hrow'] at hretried
  cases hrow₁
  cases hretried
  rcases h.phase with ⟨hpending, _⟩ | ⟨_, hround⟩
  · rw [hfailed] at hpending
    cases hpending
  · exact ⟨clock, rfl, hclaims, hround⟩

/-- Any other step in scope keeps to the round: a claim takes it up, and the failure of the
last attempt ends it. -/
theorem RetryRounds.phase_step (h : RetryRounds settings j row₀ tr s row)
    (hspent : row₀.maxAttempts ≤ row₀.attemptCount) (hscope : continuesRetry j s a = true)
    (hstep : step settings s a = some s') (hrow' : s'.row j = some row')
    (hreopens : reopens j (s, a) = false) :
    (row'.status = .pending ∧ tr.countP (reopens j) =
      tr.countP (claims j) + (if claims j (s, a) then 1 else 0) + 1) ∨
    ((row'.status = .processing ∨ row'.status = .failed) ∧
      tr.countP (reopens j) = tr.countP (claims j) + if claims j (s, a) then 1 else 0) := by
  obtain ⟨row₁, hrow₁, hcase⟩ := row_step hstep h.found
  rw [hrow'] at hrow₁
  cases hrow₁
  rcases hcase with rfl | hchange
  · rw [claims_eq_false_of_unchanged hstep h.found hrow']
    exact h.phase
  · cases hchange with
    | claim hpopped _ hready =>
      rw [claims_iff.mpr ⟨_, _, _, row, rfl, hpopped, h.found, hready⟩]
      rw [Job.ready_iff] at hready
      rcases h.phase with ⟨_, hround⟩ | ⟨hstatus, _⟩
      · exact Or.inr ⟨Or.inl rfl, by simp [hround]⟩
      · rw [hready.1] at hstatus
        simp at hstatus
    | @report w pct m _ hexecuting hid =>
      have hshape := h.shaped.executor w
      rw [hexecuting] at hshape
      have hstatus : ({ m with current := reportProgress pct m.current }.flush row).status =
          row.status := by
        simp [Mapped.flush, reportProgress, hshape.2]
      rw [hstatus]
      exact h.phase
    | @finalise w m _ hfinalising hid =>
      obtain ⟨hfailed, hprocessing⟩ := finalise_fails h hspent hfinalising hid
      rcases h.phase with ⟨hpending, _⟩ | ⟨_, hround⟩
      · rw [hprocessing] at hpending
        cases hpending
      · exact Or.inr ⟨Or.inr hfailed, hround⟩
    | renew => exact h.phase
    | retry hretrying hid =>
      rw [reopens_iff.mpr ⟨_, _, rfl, hretrying, hid⟩] at hreopens
      cases hreopens
    | cancel hcancelling => simp [continuesRetry, hcancelling] at hscope
    | promote | reap | cleanup => cases hscope

theorem rounds_step (h : RetryRounds settings j row₀ tr s row)
    (hspent : row₀.maxAttempts ≤ row₀.attemptCount) (hscope : continuesRetry j s a = true)
    (hstep : step settings s a = some s') :
    ∃ row', RetryRounds settings j row₀ (tr ++ [(s, a)]) s' row' := by
  obtain ⟨row', hrow', _⟩ := row_step hstep h.found
  have hcounts : ∀ p : State × Action → Bool, (tr ++ [(s, a)]).countP p =
      tr.countP p + if p (s, a) then 1 else 0 := by
    intro p
    rw [List.countP_append, List.countP_singleton]
  refine ⟨row', hrow', shaped_step h.shaped hstep, holdingOf_step h.holding h.shaped
    (not_intrudesOn h.holding h.shaped hscope) hstep,
    fun _ _ => failing_step h.shaped hscope h.failing hstep, ?_, ?_, ?_⟩
  · rw [attemptCount_step h.shaped hstep h.found hrow', h.attempts, hcounts, Nat.add_assoc]
  · cases hreopens : reopens j (s, a) with
    | false =>
      rw [maxAttempts_step h.shaped hstep h.found hrow' hreopens, h.limit, hcounts, hreopens]
      simp
    | true =>
      obtain ⟨clock, rfl, _⟩ := h.reopened hscope hstep hrow' hreopens
      rw [hcounts, hreopens]
      simp only [manualRetry, h.limit, if_true]
      omega
  · rw [hcounts, hcounts]
    cases hreopens : reopens j (s, a) with
    | false => exact h.phase_step hspent hscope hstep hrow' hreopens
    | true =>
      obtain ⟨clock, rfl, hclaims, hround⟩ := h.reopened hscope hstep hrow' hreopens
      exact Or.inl ⟨rfl, by simp [hclaims, hround]⟩

theorem rounds_of_run (hspent : row₀.maxAttempts ≤ row₀.attemptCount)
    (hfailed : row₀.status = .failed) (hlaid : Laid settings j row₀ s₀)
    (hrun : Run (step settings) s₀ tr s) (hscope : ∀ e ∈ tr, continuesRetry j e.1 e.2 = true) :
    ∃ row, RetryRounds settings j row₀ tr s row := by
  refine hrun.induct (C := fun s a => continuesRetry j s a = true) hscope
    (I := fun tr s => ∃ row, RetryRounds settings j row₀ tr s row) ⟨row₀, hlaid.rounds hfailed⟩ ?_
  rintro tr s a s' _ _ ⟨row, h⟩ ha hstep
  exact rounds_step h hspent ha hstep

/-! ## A job on its own -/

/-- A system whose only row is that of job `j`, with a single worker. -/
def lone (j : UUID) (row : Job) (now : Timestamp) (p : Worker) (calls : Nat → Call)
    (pending : SortedSet UUID) (deadLetters : List UUID) (feeder : List (UUID × Int)) : State where
  store :=
    { jobs := AList.singleton j row
      redis := { pending := pending, deadLetters := deadLetters }
      now := now }
  workers := Function.update (fun _ => {}) "worker" p
  calls := calls
  maintenance := { feeder := feeder }

section

variable {now clock : Timestamp} {p : Worker} {calls : Nat → Call} {pending : SortedSet UUID}
  {dead : List UUID} {feeder : List (UUID × Int)}

theorem lookup_singleton_self : AList.lookup j (AList.singleton j row : Jobs) = some row := by
  exact List.dlookup_cons_eq (β := fun _ => Job) [] j row

theorem updateWhere_singleton {guard : Job → Bool} {set : Job → Job} (h : guard row = true) :
    Table.updateWhere (AList.singleton j row : Jobs) j guard set =
      (AList.singleton j (set row), some (set row)) := by
  rw [Table.updateWhere_of_lookup lookup_singleton_self h, AList.insert_singleton_eq]

theorem flush_singleton {m : Mapped} (hid : m.id = j) :
    Jobs.flush (AList.singleton j row) m = AList.singleton j (m.flush row) := by
  subst hid
  rw [Jobs.flush, updateWhere_singleton rfl]

theorem lone_select {c : Nat} (hcall : calls c = .unused) (hfailed : row.status = .failed) :
    step settings (lone j row now p calls pending dead feeder) (.api c (.manualRetry j clock)) =
      some (lone j row now p (Function.update calls c
        (.retrying { Mapped.load j row with current := manualRetry clock row }))
        pending dead feeder) := by
  simp [step, callStep, lone, hcall, retrySelect, lookup_singleton_self, Job.retryable, hfailed]

theorem lone_commitRetry {c : Nat} {m : Mapped} (hcall : calls c = .retrying m) (hid : m.id = j) :
    step settings (lone j row now p calls pending dead feeder) (.api c .commit) =
      some (lone j (m.flush row) now p (Function.update calls c (.clearing j))
        pending dead feeder) := by
  simp [step, callStep, lone, hcall, flush_singleton hid, hid]

theorem lone_clear {c : Nat} (hcall : calls c = .clearing j) :
    step settings (lone j row now p calls pending dead feeder) (.api c .command) =
      some (lone j row now p (Function.update calls c (.returned (.retried j)))
        pending (dead.filter (· ≠ j)) feeder) := by
  simp only [step, callStep, lone, hcall, Option.map_some]
  rfl

theorem sorts_singleton {p : Job → Bool} {le : Job → Job → Bool} (h : p row = true) :
    Table.Sorts (AList.singleton j row : Jobs) p le [j] := by
  refine ⟨?_, List.pairwise_singleton _ _⟩
  have hselected : Table.matching (AList.singleton j row : Jobs) p = [j] := by
    show List.map Sigma.fst (List.filter (fun e : Sigma fun _ : UUID => Job => p e.2)
      [⟨j, row⟩]) = [j]
    rw [List.filter_cons_of_pos (by simpa using h)]
    rfl
  rw [hselected]

theorem lone_feed (hready : row.ready now = true) :
    step settings (lone j row now p calls ∅ dead []) (.maintenance (.feederSelect 1 [j])) =
      some (lone j row now p calls ∅ dead
        [(j, priorityScore row.priority row.createdAt)]) := by
  simp [step, maintenanceStep, lone, sorts_singleton hready, feederBatch, lookup_singleton_self]

theorem lone_push {score : Int} :
    step settings (lone j row now p calls ∅ dead [(j, score)]) (.maintenance .feederPush) =
      some (lone j row now p calls (AList.singleton j (Binary64.round score)) dead []) := by
  rfl

theorem zpopmin_singleton (score : ℚ) :
    SortedSet.zpopmin (AList.singleton j score : SortedSet UUID) = (∅, some j) := by
  have hordered : SortedSet.ordered (AList.singleton j score : SortedSet UUID) = [⟨j, score⟩] := rfl
  have herase : AList.erase j (AList.singleton j score : SortedSet UUID) = ∅ := by
    apply AList.ext
    exact List.kerase_cons_eq (s := (⟨j, score⟩ : Sigma fun _ : UUID => ℚ)) (l := []) rfl
  simp [SortedSet.zpopmin, hordered, herase]

theorem lone_pop {score : ℚ} (hidle : p.executor = .idle) :
    step settings (lone j row now p calls (AList.singleton j score) dead feeder)
      (.worker "worker" .dequeue) =
      some (lone j row now { p with executor := .popped j } calls ∅ dead feeder) := by
  simp [step, workerStep, lone, hidle, Redis.dequeue, zpopmin_singleton]

theorem lone_claim (hpopped : p.executor = .popped j) (hready : row.ready now = true) :
    step settings (lone j row now p calls pending dead feeder)
      (.worker "worker" (.claim now clock)) =
      some (lone j (row.claim now clock settings.workerLease "worker") now
        { p with
          executor := .claimed (Mapped.load j (row.claim now clock settings.workerLease "worker")) }
        calls pending dead feeder) := by
  simp [step, workerStep, lone, hpopped, claimJob, updateWhere_singleton hready]

theorem lone_start {m : Mapped} (hclaimed : p.executor = .claimed m) :
    step settings (lone j row now p calls pending dead feeder) (.worker "worker" .start) =
      some (lone j row now { p with executor := .executing m, holder := some m.id }
        calls pending dead feeder) := by
  simp [step, workerStep, lone, hclaimed]

theorem lone_fail {m : Mapped} {raised : Raised} (hexecuting : p.executor = .executing m) :
    step settings (lone j row now p calls pending dead feeder)
      (.worker "worker" (.fail raised clock)) =
      some (lone j row now
        { p with
          executor := .finalising { m with current := raised.apply settings clock m.current } }
        calls pending dead feeder) := by
  simp [step, workerStep, lone, hexecuting]

theorem lone_commit {m : Mapped} (hfinalising : p.executor = .finalising m) (hid : m.id = j) :
    step settings (lone j row now p calls pending dead feeder) (.worker "worker" .commit) =
      some (lone j (m.flush row) now
        (if m.current.status = .failed then { p with executor := .deadLettering m.id }
          else p.release m.id) calls pending dead feeder) := by
  simp [step, workerStep, lone, hfinalising, flush_singleton hid]

theorem lone_bury (hdead : p.executor = .deadLettering j) :
    step settings (lone j row now p calls pending dead feeder) (.worker "worker" .deadLetter) =
      some (lone j row now (p.release j) calls pending ((j :: dead).take deadLetterMaxLen)
        feeder) := by
  simp [step, workerStep, lone, hdead, Redis.deadLetter]

theorem lone_tick {t : Timestamp} (hle : now ≤ t) :
    step settings (lone j row now p calls pending dead feeder) (.tick t) =
      some (lone j row t p calls pending dead feeder) := by
  simp [step, lone, hle]

/-! ## Runs of the lone job -/

/-- A run in scope with so many manual retries of job `j` and so many attempts at it. -/
def Leads (settings : Settings) (j : UUID) (retried attempted : Nat) (s s' : State) : Prop :=
  ∃ tr, Run (step settings) s tr s' ∧ (∀ e ∈ tr, continuesRetry j e.1 e.2 = true) ∧
    tr.countP (reopens j) = retried ∧ tr.countP (claims j) = attempted

theorem Leads.refl : Leads settings j 0 0 s s := ⟨[], .nil, by simp, rfl, rfl⟩

theorem Leads.trans {k n k' n' : Nat} {t : State} (h : Leads settings j k n s t)
    (h' : Leads settings j k' n' t s') : Leads settings j (k + k') (n + n') s s' := by
  obtain ⟨tr, hrun, hscope, hretried, hattempted⟩ := h
  obtain ⟨tr', hrun', hscope', hretried', hattempted'⟩ := h'
  refine ⟨tr ++ tr', hrun.append hrun', ?_, ?_, ?_⟩
  · intro e he
    rcases List.mem_append.mp he with he | he
    · exact hscope e he
    · exact hscope' e he
  · rw [List.countP_append, hretried, hretried']
  · rw [List.countP_append, hattempted, hattempted']

theorem Leads.of_step {k n : Nat} (hstep : step settings s a = some s')
    (hscope : continuesRetry j s a = true) (hretried : (reopens j (s, a)).toNat = k)
    (hattempted : (claims j (s, a)).toNat = n) : Leads settings j k n s s' := by
  refine ⟨[(s, a)], Run.of_step hstep, ?_, ?_, ?_⟩
  · intro e he
    rw [List.mem_singleton.mp he]
    exact hscope
  · rw [List.countP_singleton, ← hretried]
    cases reopens j (s, a) <;> rfl
  · rw [List.countP_singleton, ← hattempted]
    cases claims j (s, a) <;> rfl

theorem lone_reopened {c : Nat} (hcall : calls c = .unused) (hfailed : row.status = .failed) :
    Leads settings j 1 0 (lone j row now p calls pending dead feeder)
      (lone j (manualRetry clock row) now p (Function.update calls c (.returned (.retried j)))
        pending (dead.filter (· ≠ j)) feeder) := by
  obtain ⟨m, hm⟩ : ∃ m : Mapped,
      m = { Mapped.load j row with current := manualRetry clock row } := ⟨_, rfl⟩
  have hid : m.id = j := by rw [hm]; rfl
  have hloaded : m.loaded = row := by rw [hm]; rfl
  have hflush : m.flush row = manualRetry clock row := by
    rw [← hloaded, Mapped.flush_loaded, hm]
    rfl
  have hselected : Leads settings j 0 0 (lone j row now p calls pending dead feeder)
      (lone j row now p (Function.update calls c (.retrying m)) pending dead feeder) :=
    .of_step (hm ▸ lone_select hcall hfailed) (by simp [continuesRetry]) rfl rfl
  have hcommitted : Leads settings j 1 0
      (lone j row now p (Function.update calls c (.retrying m)) pending dead feeder)
      (lone j (manualRetry clock row) now p (Function.update calls c (.clearing j))
        pending dead feeder) := by
    refine .of_step (a := .api c .commit) ?_ ?_ ?_ rfl
    · rw [lone_commitRetry (Function.update_self c (.retrying m) calls) hid, hflush,
        Function.update_idem]
    · simp [continuesRetry, lone, State.row, lookup_singleton_self, hid, hloaded]
    · simp [reopens, lone, hid]
  have hcleared : Leads settings j 0 0
      (lone j (manualRetry clock row) now p (Function.update calls c (.clearing j))
        pending dead feeder)
      (lone j (manualRetry clock row) now p (Function.update calls c (.returned (.retried j)))
        pending (dead.filter (· ≠ j)) feeder) := by
    refine .of_step (a := .api c .command) ?_ rfl rfl rfl
    rw [lone_clear (Function.update_self c (.clearing j) calls), Function.update_idem]
  exact hselected.trans (hcommitted.trans hcleared)

theorem lone_attempted (hidle : p.executor = .idle) (hready : row.ready now = true) :
    Leads settings j 0 1 (lone j row now p calls ∅ dead [])
      (lone j (row.claim now now settings.workerLease "worker") now
        { p with
          executor := .executing
            (Mapped.load j (row.claim now now settings.workerLease "worker"))
          holder := some j } calls ∅ dead []) := by
  have hfed : Leads settings j 0 0 (lone j row now p calls ∅ dead [])
      (lone j row now p calls ∅ dead [(j, priorityScore row.priority row.createdAt)]) :=
    .of_step (lone_feed hready) rfl rfl rfl
  have hpushed : Leads settings j 0 0
      (lone j row now p calls ∅ dead [(j, priorityScore row.priority row.createdAt)])
      (lone j row now p calls (AList.singleton j
        (Binary64.round (priorityScore row.priority row.createdAt))) dead []) :=
    .of_step lone_push rfl rfl rfl
  have hpopped : Leads settings j 0 0
      (lone j row now p calls (AList.singleton j
        (Binary64.round (priorityScore row.priority row.createdAt))) dead [])
      (lone j row now { p with executor := .popped j } calls ∅ dead []) :=
    .of_step (lone_pop hidle) rfl rfl rfl
  have hclaimed : Leads settings j 0 1
      (lone j row now { p with executor := .popped j } calls ∅ dead [])
      (lone j (row.claim now now settings.workerLease "worker") now
        { p with
          executor := .claimed (Mapped.load j (row.claim now now settings.workerLease "worker")) }
        calls ∅ dead []) := by
    refine .of_step (lone_claim rfl hready) rfl rfl ?_
    simp [claims, lone, State.row, lookup_singleton_self, hready]
  exact hfed.trans (hpushed.trans (hpopped.trans (hclaimed.trans
    (.of_step (lone_start rfl) rfl rfl rfl))))

theorem lone_failed (settings : Settings) (now : Timestamp) (p : Worker) (calls : Nat → Call)
    (pending : SortedSet UUID) (dead : List UUID) (feeder : List (UUID × Int)) {raised : Raised}
    (hordinary : raised.permanent = false)
    (hexecuting : p.executor = .executing (Mapped.load j row)) :
    ∃ p' dead', p'.executor = .idle ∧ Leads settings j 0 0
      (lone j row now p calls pending dead feeder)
      (lone j (raised.apply settings now row) now p' calls pending dead' feeder) := by
  obtain ⟨m, hm⟩ : ∃ m : Mapped,
      m = { Mapped.load j row with current := raised.apply settings now row } := ⟨_, rfl⟩
  have hid : m.id = j := by rw [hm]; rfl
  have hcurrent : m.current = raised.apply settings now row := by rw [hm]
  have hflush : m.flush row = raised.apply settings now row := by
    have hloaded : m.loaded = row := by rw [hm]; rfl
    rw [← hloaded, Mapped.flush_loaded, hcurrent, hloaded]
  have hraised : Leads settings j 0 0 (lone j row now p calls pending dead feeder)
      (lone j row now { p with executor := .finalising m } calls pending dead feeder) := by
    refine .of_step (a := .worker "worker" (.fail raised now)) ?_ ?_ rfl rfl
    · rw [lone_fail hexecuting, hm]
      rfl
    · simp [continuesRetry, lone, hexecuting, Executor.inHand, hordinary]
  have hcommitted : Leads settings j 0 0
      (lone j row now { p with executor := .finalising m } calls pending dead feeder)
      (lone j (raised.apply settings now row) now
        (if m.current.status = .failed then { p with executor := .deadLettering j }
          else p.release j) calls pending dead feeder) := by
    refine .of_step (a := .worker "worker" .commit) ?_ rfl rfl rfl
    rw [lone_commit rfl hid, hflush, hid]
    rfl
  by_cases hfailed : m.current.status = .failed
  · rw [if_pos hfailed] at hcommitted
    have hburied : Leads settings j 0 0
        (lone j (raised.apply settings now row) now { p with executor := .deadLettering j }
          calls pending dead feeder)
        (lone j (raised.apply settings now row) now
          (Worker.release { p with executor := .deadLettering j } j) calls pending
          ((j :: dead).take deadLetterMaxLen) feeder) :=
      .of_step (lone_bury rfl) rfl rfl rfl
    exact ⟨_, _, rfl, hraised.trans (hcommitted.trans hburied)⟩
  · rw [if_neg hfailed] at hcommitted
    exact ⟨_, _, rfl, hraised.trans hcommitted⟩

/-- The row after a manual retry, the attempt it allows and the failure of that. -/
def Job.triedAgain (settings : Settings) (now : Timestamp) (raised : Raised) (job : Job) : Job :=
  raised.apply settings now ((manualRetry now job).claim now now settings.workerLease "worker")

theorem triedAgain_counters (settings : Settings) (now : Timestamp) (raised : Raised) (row : Job) :
    (row.triedAgain settings now raised).attemptCount = row.attemptCount + 1 ∧
      (row.triedAgain settings now raised).maxAttempts = row.maxAttempts + 1 := by
  simp [Job.triedAgain, Raised.apply, Job.claim, manualRetry]

theorem triedAgain_status (settings : Settings) (now : Timestamp) {raised : Raised} (row : Job)
    (hordinary : raised.permanent = false) :
    (row.triedAgain settings now raised).status =
      if row.attemptCount < row.maxAttempts then .pending else .failed := by
  simp [Job.triedAgain, Raised.apply, applyFailure_status, retries, hordinary, shouldRetry,
    Job.claim, manualRetry]

theorem lone_triedAgain (settings : Settings) (j : UUID) (now : Timestamp) (calls : Nat → Call)
    (dead : List UUID) {raised : Raised} {c : Nat} (hordinary : raised.permanent = false)
    (hfailed : row.status = .failed) (hidle : p.executor = .idle) (hcall : calls c = .unused) :
    ∃ p' dead', p'.executor = .idle ∧ Leads settings j 1 1 (lone j row now p calls ∅ dead [])
      (lone j (row.triedAgain settings now raised) now p'
        (Function.update calls c (.returned (.retried j))) ∅ dead' []) := by
  have hready : (manualRetry now row).ready now = true := by
    rw [Job.ready_iff]
    refine ⟨rfl, ?_⟩
    rintro _ ⟨⟩
    exact le_rfl
  have hreopened : Leads settings j 1 0 (lone j row now p calls ∅ dead [])
      (lone j (manualRetry now row) now p (Function.update calls c (.returned (.retried j))) ∅
        (dead.filter (· ≠ j)) []) := lone_reopened hcall hfailed
  obtain ⟨p', dead', hidle', hended⟩ := lone_failed settings now
    { p with
      executor := .executing
        (Mapped.load j ((manualRetry now row).claim now now settings.workerLease "worker"))
      holder := some j }
    (Function.update calls c (.returned (.retried j))) ∅ (dead.filter (· ≠ j)) [] hordinary rfl
  exact ⟨p', dead', hidle', hreopened.trans ((lone_attempted hidle hready).trans hended)⟩

/-- The start of the runs: nothing is in flight. -/
def laidOut (j : UUID) (row : Job) : State := lone j row 0 {} (fun _ => .unused) ∅ [] []

theorem laid_laidOut (settings : Settings) (j : UUID) (row : Job) :
    Laid settings j row (laidOut j row) := by
  have hworkers : ∀ w, (laidOut j row).workers w = {} := by
    intro w
    simp [laidOut, lone]
  refine ⟨lookup_singleton_self, ⟨?_, ?_⟩, ?_⟩
  · intro w
    rw [hworkers]
    trivial
  · intro c
    trivial
  · intro w m hm
    simp [State.inHand, hworkers, Executor.inHand] at hm

def ordinaryError : Raised := .handlerError ⟨"HandlerError", "boom"⟩

theorem ordinaryError_permanent : ordinaryError.permanent = false := rfl

/-- With the old limit reached, every retry is one round that ends in a failure. -/
theorem lone_rounds (settings : Settings) (k : Nat) (calls : Nat → Call) (dead : List UUID)
    {n : Nat}
    (hspent : row.maxAttempts ≤ row.attemptCount) (hfailed : row.status = .failed)
    (hidle : p.executor = .idle) (hcalls : ∀ c, n ≤ c → calls c = .unused) :
    ∃ row' p' calls' dead', row'.status = .failed ∧ Leads settings j k k
      (lone j row now p calls ∅ dead []) (lone j row' now p' calls' ∅ dead' []) := by
  induction k generalizing row p calls dead n with
  | zero => exact ⟨row, p, calls, dead, hfailed, .refl⟩
  | succ k ih =>
    obtain ⟨hattempts, hlimit⟩ := triedAgain_counters settings now ordinaryError row
    have hstatus := triedAgain_status settings now row ordinaryError_permanent
    rw [if_neg (by omega)] at hstatus
    obtain ⟨p', dead', hidle', hround⟩ :=
      lone_triedAgain settings j now calls dead ordinaryError_permanent hfailed hidle
        (hcalls n le_rfl)
    have hunused : ∀ c, n + 1 ≤ c →
        Function.update calls n (.returned (.retried j)) c = .unused := by
      intro c hc
      rw [Function.update_of_ne (by omega)]
      exact hcalls c (by omega)
    obtain ⟨row', p'', calls', dead'', hfailed', hrest⟩ :=
      ih _ dead' (by omega) hstatus hidle' hunused
    refine ⟨row', p'', calls', dead'', hfailed', ?_⟩
    rw [Nat.add_comm k 1]
    exact hround.trans hrest

/-- With an attempt left, a retry is followed by two attempts. -/
theorem lone_two_attempts (settings : Settings) (j : UUID)
    (hleft : row.attemptCount < row.maxAttempts) (hfailed : row.status = .failed) :
    ∃ s', Leads settings j 1 2 (laidOut j row) s' := by
  obtain ⟨p', dead', hidle', hround⟩ := lone_triedAgain settings j 0 (fun _ => .unused) []
    (p := {}) (c := 0) ordinaryError_permanent hfailed rfl rfl
  have hstatus := triedAgain_status settings 0 row ordinaryError_permanent
  rw [if_pos hleft] at hstatus
  -- the clock moves on to the end of the backoff
  let t := max 0 ((row.triedAgain settings 0 ordinaryError).nextRunAt.getD 0)
  have hready : (row.triedAgain settings 0 ordinaryError).ready t = true := by
    rw [Job.ready_iff]
    refine ⟨hstatus, ?_⟩
    intro u hu
    apply le_max_of_le_right
    rw [hu]
    exact le_rfl
  have hticked : Leads settings j 0 0
      (lone j (row.triedAgain settings 0 ordinaryError) 0 p'
        (Function.update (fun _ => .unused) 0 (.returned (.retried j))) ∅ dead' [])
      (lone j (row.triedAgain settings 0 ordinaryError) t p'
        (Function.update (fun _ => .unused) 0 (.returned (.retried j))) ∅ dead' []) :=
    .of_step (lone_tick (le_max_left 0 _)) rfl rfl rfl
  exact ⟨_, hround.trans (hticked.trans (lone_attempted hidle' hready))⟩

end

/-! ## The guarantee -/

/-- From a failed row on, manual retries grant one attempt each just if the attempt count of
the row has reached its limit. -/
theorem manual_retry_grants_one_iff (settings : Settings) (j : UUID) (row₀ : Job)
    (hfailed : row₀.status = .failed) :
    GrantsOne settings j row₀ ↔ row₀.maxAttempts ≤ row₀.attemptCount := by
  constructor
  · intro h
    by_contra hleft
    obtain ⟨s, tr, hrun, hscope, hretried, hattempted⟩ :=
      lone_two_attempts settings j (not_le.mp hleft) hfailed
    have hbound := (h.exact _ tr s (laid_laidOut settings j row₀) hrun hscope).1
    omega
  · intro hspent
    refine ⟨?_, ?_⟩
    · intro s₀ tr s hlaid hrun hscope
      obtain ⟨row, h⟩ := rounds_of_run hspent hfailed hlaid hrun hscope
      rcases h.phase with ⟨hpending, hround⟩ | ⟨_, hround⟩
      · refine ⟨by omega, by omega, ?_⟩
        intro row' hrow' hstatus
        rw [h.found] at hrow'
        cases hrow'
        rw [hpending] at hstatus
        cases hstatus
      · exact ⟨by omega, by omega, fun _ _ _ => hround.symm⟩
    · intro k
      obtain ⟨row, p, calls, dead, hstatus, tr, hrun, hscope, hretried, hattempted⟩ :=
        lone_rounds settings k (fun _ => .unused) [] hspent hfailed (p := {}) (n := 0) rfl
          (fun _ _ => rfl)
      exact ⟨_, tr, _, row, laid_laidOut settings j row₀, hrun, hscope, hretried, hattempted,
        lookup_singleton_self, hstatus⟩

/-- A job that has used up its three attempts. -/
theorem manual_retry_grants_one_exhausted :
    GrantsOne {} 1 { newJob {} webhookRequest none 0 with
      status := .failed, attemptCount := 3, errorMessage := some "boom"
      completedAt := some 0 } :=
  (manual_retry_grants_one_iff {} 1 _ rfl).mpr (by decide)

/-- A job fails for good at its first attempt of three, as its type has no handler. One manual
retry then allows three attempts, each of which fails with a handler error. -/
theorem permanent_failure_grants_three :
    ∃ tr₀ s₀ row₀ tr s, Run (step {}) (State.initial 0) tr₀ s₀ ∧ s₀.row 1 = some row₀ ∧
      row₀.status = .failed ∧ row₀.attemptCount = 1 ∧ row₀.maxAttempts = 3 ∧
      Run (step {}) s₀ tr s ∧ (∀ e ∈ tr, continuesRetry 1 e.1 e.2 = true) ∧
      tr.countP (reopens 1) = 1 ∧ tr.countP (claims 1) = 3 ∧
      ∃ row, s.row 1 = some row ∧ row.status = .failed := by
  obtain ⟨tr₀, s₀, hrun₀, _, hcheck⟩ := run_of_check (step {}) (State.initial 0)
    [.api 0 (.submit webhookRequest none), .api 0 (.insert 1), .api 0 .commit, .api 0 .command,
      .worker "w" .dequeue, .worker "w" (.claim 0 0), .worker "w" .start,
      .worker "w" (.fail (.unknownJobType ⟨"UnknownJobTypeError", "no handler"⟩) 0),
      .worker "w" .commit, .worker "w" .deadLetter]
    (fun _ s₀ => ((s₀.row 1).any fun row => row.status = .failed ∧ row.attemptCount = 1 ∧
        row.maxAttempts = 3) ∧
      (exec (step {}) s₀
        [.api 1 (.manualRetry 1 0), .api 1 .commit, .api 1 .command,
          .maintenance (.feederSelect 10 [1]), .maintenance .feederPush, .worker "w" .dequeue,
          .worker "w" (.claim 0 0), .worker "w" .start, .worker "w" (.fail ordinaryError 0),
          .worker "w" .commit, .tick 200000000,
          .maintenance (.feederSelect 10 [1]), .maintenance .feederPush, .worker "w" .dequeue,
          .worker "w" (.claim 200000000 200000000), .worker "w" .start,
          .worker "w" (.fail ordinaryError 200000000), .worker "w" .commit, .tick 400000000,
          .maintenance (.feederSelect 10 [1]), .maintenance .feederPush, .worker "w" .dequeue,
          .worker "w" (.claim 400000000 400000000), .worker "w" .start,
          .worker "w" (.fail ordinaryError 400000000), .worker "w" .commit]).any fun r =>
        (r.1.all fun e => continuesRetry 1 e.1 e.2) ∧ r.1.countP (reopens 1) = 1 ∧
          r.1.countP (claims 1) = 3 ∧ ((r.2.row 1).any fun row => row.status = .failed))
    (by decide +kernel)
  simp only [decide_eq_true_eq, Option.any_eq_true, List.all_eq_true] at hcheck
  obtain ⟨⟨row₀, hrow₀, hstatus, hattempts, hlimit⟩, ⟨tr, s⟩, hexec, hscope, hretried, hattempted,
    row, hrow, hfailed⟩ := hcheck
  exact ⟨tr₀, s₀, row₀, tr, s, hrun₀, hrow₀, hstatus, hattempts, hlimit, run_of_exec hexec, hscope,
    hretried, hattempted, row, hrow, hfailed⟩

end JobQueue
