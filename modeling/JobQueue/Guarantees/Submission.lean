import JobQueue.System.Keys

/-!
# Concurrent submissions under one idempotency key

`submit_job` looks the key up, inserts and commits in three statements. PostgreSQL checks
the unique index at the `INSERT`, which the flush sends before the `try` that catches
`IntegrityError`: of two calls that both miss the key the second raises
(`concurrent_duplicate_raises`), and the branch that would return the first call's job is
never taken (`recovery_unreachable`). Calls that look the key up while no other is between
its lookup and its commit agree on one job (`submissions_agree`).
-/

namespace JobQueue

open Transition

variable {settings : Settings} {s s' s₀ : State} {a : Action} {tr : List (State × Action)}
  {key : String}

/-! ## Runs of submissions -/

/-- An action of a `submit_job` whose key normalises to `key`, or the clock. -/
def Action.submits (key : String) : Action → Bool
  | .api _ (.submit _ idempotencyKey) =>
      match normalizeIdempotencyKey idempotencyKey with
      | .ok cleaned => cleaned = some key
      | .error _ => false
  | .api _ (.insert _) | .api _ .commit | .api _ .command | .tick _ => true
  | _ => false

/-- The call has missed the key and not committed. -/
def Call.opened : Call → Bool
  | .inserting _ _ _ | .inserted _ _ => true
  | _ => false

/-- The call has begun and not ended. -/
def Call.underway : Call → Bool
  | .inserting _ _ _ | .inserted _ _ | .pushing _ _ => true
  | _ => false

/-- A new row breaks no constraint but possibly that on its key: its id is new. -/
def State.freshInsert (s : State) : Action → Bool
  | .api _ (.insert jobId) => (s.row jobId).isNone
  | _ => true

/-- A call looks the key up only while no other is between its lookup and its commit. -/
def State.Serial (s : State) (a : Action) : Prop :=
  ∀ c data idempotencyKey, a = .api c (.submit data idempotencyKey) →
    ∀ d, (s.calls d).opened = false

/-! ## What is promised -/

/-- The calls of a run from `s₀` agree in `s`. -/
structure Agreement (settings : Settings) (s₀ s : State) : Prop where
  /-- No call raises. -/
  normal : ∀ c e, s.calls c ≠ .raised e
  /-- No call waits: each has its next step, whatever new id the database generates. -/
  enabled : ∀ c jobId, (s.calls c).underway = true → s.row jobId = none →
    ∃ b, (b = .insert jobId ∨ b = .commit ∨ b = .command) ∧
      (step settings s (.api c b)).isSome = true
  /-- Before the first commit nothing is written and nobody has returned. After it there is
  one new row; the call that created it returns it as created and dispatches it, every other
  call returns it as existing. -/
  outcome : (s.store.jobs = s₀.store.jobs ∧ s.store.redis = s₀.store.redis ∧
      ∀ c, s.calls c = .unused ∨ (s.calls c).opened = true) ∨
    ∃ c jobId job, s₀.row jobId = none ∧ s.store.jobs = s₀.store.jobs.insert jobId job ∧
      (s.calls c = .pushing jobId job ∧ s.store.redis = s₀.store.redis ∨
        s.calls c = .returned (.created jobId) ∧
          s.store.redis = dispatch s₀.store.redis jobId job) ∧
      ∀ d, d ≠ c → s.calls d = .unused ∨ s.calls d = .returned (.existing jobId)

/-! ## The phases of a serial run -/

/-- Nobody has begun; one call is about to insert; it has inserted; it has committed. -/
inductive SubmitPhase (key : String) (s₀ s : State) : Prop
  | resting (hcalls : ∀ c, s.calls c = .unused) (hjobs : s.store.jobs = s₀.store.jobs)
      (hstaged : s.store.staged = []) (hredis : s.store.redis = s₀.store.redis)
  | inserting (c : Nat) (data : JobCreate) (began : Timestamp)
      (hcall : s.calls c = .inserting data (some key) began)
      (hcalls : ∀ d, d ≠ c → s.calls d = .unused) (hjobs : s.store.jobs = s₀.store.jobs)
      (hstaged : s.store.staged = []) (hredis : s.store.redis = s₀.store.redis)
  | inserted (c : Nat) (jobId : UUID) (job : Job) (hcall : s.calls c = .inserted jobId job)
      (hcalls : ∀ d, d ≠ c → s.calls d = .unused) (hjobs : s.store.jobs = s₀.store.jobs)
      (hstaged : s.store.staged = [(jobId, job)]) (hredis : s.store.redis = s₀.store.redis)
      (hkey : job.idempotencyKey = some key) (hnew : s₀.row jobId = none)
      (hok : violates s₀.store.jobs jobId job = false)
  | committed (c : Nat) (jobId : UUID) (job : Job)
      (hcall : s.calls c = .pushing jobId job ∧ s.store.redis = s₀.store.redis ∨
        s.calls c = .returned (.created jobId) ∧
          s.store.redis = dispatch s₀.store.redis jobId job)
      (hcalls : ∀ d, d ≠ c → s.calls d = .unused ∨ s.calls d = .returned (.existing jobId))
      (hjobs : s.store.jobs = s₀.store.jobs.insert jobId job) (hstaged : s.store.staged = [])
      (hkey : job.idempotencyKey = some key) (hnew : s₀.row jobId = none)

/-- Where no row holds the key, a new row with it is found by it. -/
theorem findJobByIdempotencyKey_insert {jobs : Jobs} {jobId : UUID} {job : Job}
    (hnone : findJobByIdempotencyKey jobs key = none) (hkey : job.idempotencyKey = some key) :
    findJobByIdempotencyKey (jobs.insert jobId job) key = some jobId := by
  rw [findJobByIdempotencyKey_none] at hnone
  cases hfind : findJobByIdempotencyKey (jobs.insert jobId job) key with
  | none =>
    rw [findJobByIdempotencyKey_none] at hfind
    exact absurd hkey (hfind jobId job (AList.lookup_insert _))
  | some found =>
    obtain ⟨row, hrow, hrowkey⟩ := findJobByIdempotencyKey_some hfind
    by_cases hid : found = jobId
    · rw [hid]
    · rw [AList.lookup_insert_ne hid] at hrow
      exact absurd hrowkey (hnone found row hrow)

theorem SubmitPhase.congr (h : SubmitPhase key s₀ s) (hcalls : s'.calls = s.calls)
    (hjobs : s'.store.jobs = s.store.jobs) (hstaged : s'.store.staged = s.store.staged)
    (hredis : s'.store.redis = s.store.redis) : SubmitPhase key s₀ s' := by
  cases h with
  | resting h₁ h₂ h₃ h₄ =>
    rw [← hcalls] at h₁
    exact .resting h₁ (hjobs.trans h₂) (hstaged.trans h₃) (hredis.trans h₄)
  | inserting c data began h₁ h₂ h₃ h₄ h₅ =>
    rw [← hcalls] at h₁ h₂
    exact .inserting c data began h₁ h₂ (hjobs.trans h₃) (hstaged.trans h₄) (hredis.trans h₅)
  | inserted c jobId job h₁ h₂ h₃ h₄ h₅ h₆ h₇ h₈ =>
    rw [← hcalls] at h₁ h₂
    exact .inserted c jobId job h₁ h₂ (hjobs.trans h₃) (hstaged.trans h₄) (hredis.trans h₅) h₆ h₇ h₈
  | committed c jobId job h₁ h₂ h₃ h₄ h₅ h₆ =>
    rw [← hcalls, ← hredis] at h₁
    rw [← hcalls] at h₂
    exact .committed c jobId job h₁ h₂ (hjobs.trans h₃) (hstaged.trans h₄) h₅ h₆

theorem normal_of_submits {c : Nat} {data : JobCreate} {idempotencyKey : Option String}
    (h : (Action.api c (.submit data idempotencyKey)).submits key = true) :
    normalizeIdempotencyKey idempotencyKey = .ok (some key) := by
  simp only [Action.submits] at h
  split at h
  · rename_i cleaned hnormal
    rw [hnormal, of_decide_eq_true h]
  · cases h

/-- All an unused call does in a run of submissions is to look the key up. -/
theorem CallMove.lookup {st st' : Store} {p' : Call} {c : Nat} {b : CallAction}
    (h : CallMove settings st st' .unused p' b) (hsubmits : (Action.api c b).submits key = true) :
    ∃ data idempotencyKey, b = .submit data idempotencyKey ∧ st' = st ∧
      (findJobByIdempotencyKey st.jobs key = none ∧ p' = .inserting data (some key) st.now ∨
        ∃ jobId, findJobByIdempotencyKey st.jobs key = some jobId ∧
          p' = .returned (.existing jobId)) := by
  cases h with
  | submitInvalid _ hinvalid _ _ =>
    rw [normal_of_submits hsubmits] at hinvalid
    cases hinvalid
  | submitExisting _ hnormal hfound hstore hcall =>
    rw [normal_of_submits hsubmits] at hnormal
    cases hnormal
    exact ⟨_, _, rfl, hstore, Or.inr ⟨_, hfound, hcall⟩⟩
  | submit _ hnormal hnew hstore hcall =>
    rw [normal_of_submits hsubmits] at hnormal
    cases hnormal
    exact ⟨_, _, rfl, hstore, Or.inl ⟨hnew key rfl, hcall⟩⟩
  | cancelMissing | cancelRefused | cancel | retryMissing | retryRefused | manualRetry | fault
  | drop => cases hsubmits
  | _ => contradiction

/-- A call that has returned has no step in a run of submissions. -/
theorem CallMove.not_returned {st st' : Store} {p' : Call} {c : Nat} {b : CallAction}
    {value : Returned} (h : CallMove settings st st' (.returned value) p' b)
    (hsubmits : (Action.api c b).submits key = true) : False := by
  cases h with
  | fault | drop => cases hsubmits
  | _ => contradiction

section

variable {c : Nat} {b : CallAction} {jobId : UUID} {job : Job}

/-- The first call looks the key up, and misses it. -/
theorem SubmitPhase.lookup (hnone : findJobByIdempotencyKey s₀.store.jobs key = none)
    (hmove : CallMove settings s.store s'.store .unused (s'.calls c) b)
    (hothers : ∀ d, d ≠ c → s'.calls d = s.calls d)
    (hsubmits : (Action.api c b).submits key = true) (hcalls : ∀ d, s.calls d = .unused)
    (hjobs : s.store.jobs = s₀.store.jobs) (hstaged : s.store.staged = [])
    (hredis : s.store.redis = s₀.store.redis) : SubmitPhase key s₀ s' := by
  obtain ⟨data, k, rfl, hstore, hlookup⟩ := hmove.lookup hsubmits
  rw [hjobs, hnone] at hlookup
  rcases hlookup with ⟨_, hcall⟩ | ⟨_, hfound, _⟩
  · refine .inserting c data s.store.now hcall ?_ ?_ ?_ ?_
    · intro d hd
      rw [hothers d hd]
      exact hcalls d
    · rw [hstore, hjobs]
    · rw [hstore, hstaged]
    · rw [hstore, hredis]
  · cases hfound

/-- The open call inserts its row: the id is new, and so is the key. -/
theorem SubmitPhase.insert {data : JobCreate} {began : Timestamp}
    (hlimit : 0 < settings.defaultMaxAttempts)
    (hnone : findJobByIdempotencyKey s₀.store.jobs key = none)
    (hmove : CallMove settings s.store s'.store (.inserting data (some key) began) (s'.calls c) b)
    (hothers : ∀ d, d ≠ c → s'.calls d = s.calls d)
    (hsubmits : (Action.api c b).submits key = true)
    (hfresh : s.freshInsert (.api c b) = true) (hcalls : ∀ d, d ≠ c → s.calls d = .unused)
    (hjobs : s.store.jobs = s₀.store.jobs) (hstaged : s.store.staged = [])
    (hredis : s.store.redis = s₀.store.redis) : SubmitPhase key s₀ s' := by
  cases hmove with
  | @insertRefused jobId _ _ _ hinserting _ hviolates _ _ =>
    cases hinserting
    have hnew : s.row jobId = none := Option.isNone_iff_eq_none.mp hfresh
    rw [State.row, hjobs] at hnew
    simp [violates, newJob, hjobs, hnew, hnone, Nat.ne_of_gt hlimit] at hviolates
  | @insert jobId _ _ _ hinserting _ hok hstore hcall =>
    cases hinserting
    have hnew : s.row jobId = none := Option.isNone_iff_eq_none.mp hfresh
    rw [State.row, hjobs] at hnew
    rw [hjobs] at hok
    refine .inserted c jobId _ hcall ?_ ?_ ?_ ?_ rfl hnew hok
    · intro d hd
      rw [hothers d hd]
      exact hcalls d hd
    · rw [hstore, ← hjobs]
    · rw [hstore, hstaged]
    · rw [hstore, hredis]
  | fault | drop | dropInserted => cases hsubmits
  | _ => contradiction

/-- The open call commits its row. -/
theorem SubmitPhase.commit
    (hmove : CallMove settings s.store s'.store (.inserted jobId job) (s'.calls c) b)
    (hothers : ∀ d, d ≠ c → s'.calls d = s.calls d)
    (hsubmits : (Action.api c b).submits key = true) (hcalls : ∀ d, d ≠ c → s.calls d = .unused)
    (hjobs : s.store.jobs = s₀.store.jobs) (hstaged : s.store.staged = [(jobId, job)])
    (hredis : s.store.redis = s₀.store.redis) (hkey : job.idempotencyKey = some key)
    (hnew : s₀.row jobId = none) (hok : violates s₀.store.jobs jobId job = false) :
    SubmitPhase key s₀ s' := by
  cases hmove with
  | commitRefused hinserted hviolates _ _ =>
    cases hinserted
    rw [hjobs, hok] at hviolates
    cases hviolates
  | commitSubmit hinserted _ hstore hcall =>
    cases hinserted
    refine .committed c jobId job (Or.inl ⟨hcall, ?_⟩) ?_ ?_ ?_ hkey hnew
    · rw [hstore]
      exact hredis
    · intro d hd
      rw [hothers d hd]
      exact Or.inl (hcalls d hd)
    · rw [hstore, hjobs]
    · rw [hstore]
      simp [Store.unstage, hstaged]
  | fault | drop | dropInserted => cases hsubmits
  | _ => contradiction

/-- The call that has committed dispatches its job. -/
theorem SubmitPhase.push
    (hmove : CallMove settings s.store s'.store (.pushing jobId job) (s'.calls c) b)
    (hothers : ∀ d, d ≠ c → s'.calls d = s.calls d)
    (hsubmits : (Action.api c b).submits key = true) (hredis : s.store.redis = s₀.store.redis)
    (hcalls : ∀ d, d ≠ c → s.calls d = .unused ∨ s.calls d = .returned (.existing jobId))
    (hjobs : s.store.jobs = s₀.store.jobs.insert jobId job) (hstaged : s.store.staged = [])
    (hkey : job.idempotencyKey = some key) (hnew : s₀.row jobId = none) :
    SubmitPhase key s₀ s' := by
  cases hmove with
  | push hpushing hstore hcall =>
    cases hpushing
    refine .committed c jobId job (Or.inr ⟨hcall, ?_⟩) ?_ ?_ ?_ hkey hnew
    · rw [hstore, hredis]
    · intro d hd
      rw [hothers d hd]
      exact hcalls d hd
    · rw [hstore]
      exact hjobs
    · rw [hstore]
      exact hstaged
  | fault | drop | dropInserted => cases hsubmits
  | _ => contradiction

/-- After the commit every other call that looks the key up returns the new job. -/
theorem CallMove.follow
    (hmove : CallMove settings s.store s'.store (s.calls c) (s'.calls c) b)
    (hsubmits : (Action.api c b).submits key = true)
    (hnone : findJobByIdempotencyKey s₀.store.jobs key = none)
    (hjobs : s.store.jobs = s₀.store.jobs.insert jobId job) (hkey : job.idempotencyKey = some key)
    (hcall : s.calls c = .unused ∨ s.calls c = .returned (.existing jobId)) :
    s'.store = s.store ∧ s'.calls c = .returned (.existing jobId) := by
  rcases hcall with hunused | hreturned
  · rw [hunused] at hmove
    obtain ⟨_, _, _, hstore, hlookup⟩ := hmove.lookup hsubmits
    rw [hjobs, findJobByIdempotencyKey_insert hnone hkey] at hlookup
    rcases hlookup with ⟨hmissed, _⟩ | ⟨_, hfound, hcall'⟩
    · cases hmissed
    · cases hfound
      exact ⟨hstore, hcall'⟩
  · rw [hreturned] at hmove
    exact (hmove.not_returned hsubmits).elim

end

theorem submitPhase_step (hlimit : 0 < settings.defaultMaxAttempts)
    (hnone : findJobByIdempotencyKey s₀.store.jobs key = none) (h : SubmitPhase key s₀ s)
    (hsubmits : a.submits key = true) (hfresh : s.freshInsert a = true) (hserial : s.Serial a)
    (hstep : step settings s a = some s') : SubmitPhase key s₀ s' := by
  cases move_of_step hstep with
  | worker | maintenance | tamper => cases hsubmits
  | tick _ hstore _ hcalls _ =>
    exact h.congr hcalls (by rw [hstore]) (by rw [hstore]) (by rw [hstore])
  | @api d b hmove hothers _ _ =>
    -- while a call is open no other begins
    have hclosed : s.calls d = .unused → ∀ c, (s.calls c).opened = false := by
      intro hunused
      rw [hunused] at hmove
      obtain ⟨data, k, rfl, _⟩ := hmove.lookup hsubmits
      exact hserial d data k rfl
    cases h with
    | resting hcalls hjobs hstaged hredis =>
      rw [hcalls d] at hmove
      exact .lookup hnone hmove hothers hsubmits hcalls hjobs hstaged hredis
    | inserting c data began hcall hcalls hjobs hstaged hredis =>
      by_cases hc : d = c
      · subst hc
        rw [hcall] at hmove
        exact .insert hlimit hnone hmove hothers hsubmits hfresh hcalls hjobs hstaged hredis
      · have hopen := hclosed (hcalls d hc) c
        simp [hcall, Call.opened] at hopen
    | inserted c jobId job hcall hcalls hjobs hstaged hredis hkey hnew hok =>
      by_cases hc : d = c
      · subst hc
        rw [hcall] at hmove
        exact .commit hmove hothers hsubmits hcalls hjobs hstaged hredis hkey hnew hok
      · have hopen := hclosed (hcalls d hc) c
        simp [hcall, Call.opened] at hopen
    | committed c jobId job hcall hcalls hjobs hstaged hkey hnew =>
      by_cases hc : d = c
      · subst hc
        rcases hcall with ⟨hcall, hredis⟩ | ⟨hcall, _⟩
        · rw [hcall] at hmove
          exact .push hmove hothers hsubmits hredis hcalls hjobs hstaged hkey hnew
        · rw [hcall] at hmove
          exact (hmove.not_returned hsubmits).elim
      · obtain ⟨hstore, hfollows⟩ := hmove.follow hsubmits hnone hjobs hkey (hcalls d hc)
        refine .committed c jobId job ?_ ?_ ?_ ?_ hkey hnew
        · rw [hothers c (Ne.symm hc), hstore]
          exact hcall
        · intro c' hc'
          by_cases hd : c' = d
          · rw [hd]
            exact Or.inr hfollows
          · rw [hothers c' hd]
            exact hcalls c' hc'
        · rw [hstore, hjobs]
        · rw [hstore, hstaged]

theorem submitPhase_of_run (hquiet : s₀.Quiet) (hlimit : 0 < settings.defaultMaxAttempts)
    (hnone : findJobByIdempotencyKey s₀.store.jobs key = none)
    (hrun : Run (step settings) s₀ tr s)
    (hsubmits : ∀ e ∈ tr, e.2.submits key = true ∧ e.1.freshInsert e.2 = true)
    (hserial : ∀ e ∈ tr, e.1.Serial e.2) : SubmitPhase key s₀ s := by
  refine hrun.invariant (C := fun s a => (a.submits key = true ∧ s.freshInsert a = true) ∧ s.Serial a)
    (fun e he => ⟨hsubmits e he, hserial e he⟩) (.resting hquiet.calls rfl hquiet.staged rfl) ?_
  intro s a s' h ha hstep
  exact submitPhase_step hlimit hnone h ha.1.1 ha.1.2 ha.2 hstep

/-! ## The guarantee -/

/-- In every run of submissions under one key in which no call looks the key up while
another is between its lookup and its commit, the calls agree. -/
theorem submissions_agree (hquiet : s₀.Quiet) (hlimit : 0 < settings.defaultMaxAttempts)
    (hnone : findJobByIdempotencyKey s₀.store.jobs key = none)
    (hrun : Run (step settings) s₀ tr s)
    (hsubmits : ∀ e ∈ tr, e.2.submits key = true ∧ e.1.freshInsert e.2 = true)
    (hserial : ∀ e ∈ tr, e.1.Serial e.2) : Agreement settings s₀ s := by
  cases submitPhase_of_run hquiet hlimit hnone hrun hsubmits hserial with
  | resting hcalls hjobs hstaged hredis =>
    refine ⟨?_, ?_, Or.inl ⟨hjobs, hredis, fun c => Or.inl (hcalls c)⟩⟩
    · intro c e
      simp [hcalls c]
    · intro c jobId hunderway
      simp [hcalls c, Call.underway] at hunderway
  | inserting c data began hcall hcalls hjobs hstaged hredis =>
    refine ⟨?_, ?_, Or.inl ⟨hjobs, hredis, ?_⟩⟩
    · intro d e
      by_cases hd : d = c
      · simp [hd, hcall]
      · simp [hcalls d hd]
    · intro d jobId hunderway hnew
      by_cases hd : d = c
      · subst hd
        refine ⟨.insert jobId, Or.inl rfl, ?_⟩
        have hblocked : s.store.blocked jobId (some key) = false := by
          simp [Store.blocked, hstaged]
        simp only [step, hcall, callStep, hblocked, Bool.false_eq_true, if_false]
        split <;> rfl
      · simp [hcalls d hd, Call.underway] at hunderway
    · intro d
      by_cases hd : d = c
      · exact Or.inr (by simp [hd, hcall, Call.opened])
      · exact Or.inl (hcalls d hd)
  | inserted c jobId job hcall hcalls hjobs hstaged hredis hkey hnew hok =>
    refine ⟨?_, ?_, Or.inl ⟨hjobs, hredis, ?_⟩⟩
    · intro d e
      by_cases hd : d = c
      · simp [hd, hcall]
      · simp [hcalls d hd]
    · intro d _ hunderway _
      by_cases hd : d = c
      · subst hd
        refine ⟨.commit, Or.inr (Or.inl rfl), ?_⟩
        simp [step, hcall, callStep]
      · simp [hcalls d hd, Call.underway] at hunderway
    · intro d
      by_cases hd : d = c
      · exact Or.inr (by simp [hd, hcall, Call.opened])
      · exact Or.inl (hcalls d hd)
  | committed c jobId job hcall hcalls hjobs hstaged hkey hnew =>
    refine ⟨?_, ?_, Or.inr ⟨c, jobId, job, hnew, hjobs, hcall, hcalls⟩⟩
    · intro d e
      by_cases hd : d = c
      · subst hd
        rcases hcall with ⟨hcall, _⟩ | ⟨hcall, _⟩ <;> simp [hcall]
      · rcases hcalls d hd with hu | hr
        · simp [hu]
        · simp [hr]
    · intro d _ hunderway _
      by_cases hd : d = c
      · subst hd
        rcases hcall with ⟨hcall, _⟩ | ⟨hcall, _⟩
        · refine ⟨.command, Or.inr (Or.inr rfl), ?_⟩
          simp [step, hcall, callStep]
        · simp [hcall, Call.underway] at hunderway
      · rcases hcalls d hd with hu | hr
        · simp [hu, Call.underway] at hunderway
        · simp [hr, Call.underway] at hunderway

/-- What `State.Serial` says of the calls `cs`, computed. -/
def serial (cs : List Nat) (s : State) : Action → Bool
  | .api _ (.submit _ _) => cs.all fun d => !(s.calls d).opened
  | _ => true

/-- Calls that do not act in a run are not open. -/
theorem serial_of_check {cs : List Nat} (hquiet : s₀.Quiet) (hrun : Run (step settings) s₀ tr s)
    (hothers : ∀ e ∈ tr, ∀ c b, e.2 = .api c b → c ∈ cs)
    (hcheck : ∀ e ∈ tr, serial cs e.1 e.2 = true) : ∀ e ∈ tr, e.1.Serial e.2 := by
  intro e he c data k ha d
  by_cases hd : d ∈ cs
  · have hall := hcheck e he
    simp only [ha, serial, List.all_eq_true, Bool.not_eq_true'] at hall
    exact hall d hd
  · obtain ⟨past, future, _, rfl, hpast, _, _⟩ := hrun.split_of_mem he
    have hno : ∀ e' ∈ past, ∀ b, e'.2 ≠ .api d b := fun e' he' b hb =>
      hd (hothers e' (List.mem_append_left _ he') d b hb)
    rw [call_of_not_acted hquiet hpast hno]
    rfl

theorem submissions_agree_twice :
    ∃ tr s, Run (step {}) (State.initial 0) tr s ∧ s.calls 0 = .returned (.created 1) ∧
      s.calls 1 = .returned (.existing 1) ∧ Agreement {} (State.initial 0) s := by
  -- the second call begins between the commit and the command of the first
  obtain ⟨tr, s, hrun, hactions, hcheck⟩ := run_of_check (step {}) (State.initial 0)
    [.api 0 (.submit webhookRequest (some "k")),
      .api 0 (.insert 1), .api 0 .commit,
      .api 1 (.submit webhookRequest (some " k ")),
      .api 0 .command]
    (fun tr s => (tr.all fun e => e.2.submits "k" ∧ e.1.freshInsert e.2) ∧
      (tr.all fun e => serial [0, 1] e.1 e.2) ∧
      s.calls 0 = .returned (.created 1) ∧ s.calls 1 = .returned (.existing 1))
    (by decide +kernel)
  simp only [decide_eq_true_eq, List.all_eq_true] at hcheck
  obtain ⟨hsubmits, hserial, hcall₀, hcall₁⟩ := hcheck
  have hothers : ∀ e ∈ tr, ∀ c b, e.2 = .api c b → c ∈ [0, 1] := by
    refine forall_of_actions (p := fun a => ∀ c b, a = .api c b → c ∈ [0, 1]) hactions ?_
    simp
  exact ⟨tr, s, hrun, hcall₀, hcall₁,
    submissions_agree (State.quiet_initial 0) (by decide) (by decide +kernel) hrun hsubmits
      (serial_of_check (State.quiet_initial 0) hrun hothers hserial)⟩

/-! ## Two calls that miss the key -/

/-- In every run of the whole system a commit of `submit_job` succeeds. The handler of
`IntegrityError` around it is never entered. -/
theorem recovery_unreachable {c : Nat} {jobId : UUID} {job : Job} (hquiet : s₀.Quiet)
    (hrun : Run (step settings) s₀ tr s) (hcall : s.calls c = .inserted jobId job) :
    (submitCommit s.store jobId job).2 = .pushing jobId job := by
  have hstaged := staged_of_run hquiet hrun
  have hok : violates s.store.jobs jobId job = false :=
    hstaged.fresh (jobId, job) (hstaged.member c jobId job hcall)
  simp [submitCommit, hok]

/-- Both calls look the key up before either commits. The `INSERT` of the second raises. -/
theorem concurrent_duplicate_raises :
    ∃ tr s, Run (step {}) (State.initial 0) tr s ∧
      (∀ e ∈ tr, e.2.submits "k" = true ∧ e.1.freshInsert e.2 = true) ∧
      s.calls 0 = .returned (.created 1) ∧ s.calls 1 = .raised .integrity ∧
      ¬ Agreement {} (State.initial 0) s := by
  obtain ⟨tr, s, hrun, _, hcheck⟩ := run_of_check (step {}) (State.initial 0)
    [.api 0 (.submit webhookRequest (some "k")),
      .api 1 (.submit webhookRequest (some "k")),
      .api 0 (.insert 1), .api 0 .commit, .api 0 .command, .api 1 (.insert 2)]
    (fun tr s => (tr.all fun e => e.2.submits "k" ∧ e.1.freshInsert e.2) ∧
      s.calls 0 = .returned (.created 1) ∧ s.calls 1 = .raised .integrity) (by decide +kernel)
  simp only [decide_eq_true_eq, List.all_eq_true] at hcheck
  obtain ⟨hsubmits, hcall₀, hcall₁⟩ := hcheck
  refine ⟨tr, s, hrun, hsubmits, hcall₀, hcall₁, ?_⟩
  intro h
  exact h.normal 1 .integrity hcall₁

end JobQueue
