import JobQueue.System.History

/-!
# Redis failures after the commit

`submit_job`, `cancel_job` and `manual_retry` commit to PostgreSQL first and send their
Redis commands afterwards. The commands are meant as best-effort, since the feeder and the
scheduler make up for a lost one, but no `try` surrounds them: a command that fails makes
the call raise although its change is committed (`fault_misreports`). A call tells its
client the truth exactly if none of its commands fails (`reports_iff_no_fault`).
-/

namespace JobQueue

open Transition

variable {settings : Settings} {s s' s₀ : State} {a : Action} {tr : List (State × Action)}
  {c : Nat}

/-! ## What a call owes to its client -/

/-- The entry commits the transaction of call `c`: the answer the client is owed. -/
def commitOf (c : Nat) (e : State × Action) : Option Returned :=
  match e.2 with
  | .api d .commit =>
      if d = c then
        match e.1.calls c with
        | .inserted jobId job =>
            if violates e.1.store.jobs jobId job then none else some (.created jobId)
        | .cancelling m => some (.cancelled m.id)
        | .retrying m => some (.retried m.id)
        | _ => none
      else none
  | _ => none

/-- Call `c` raises only if it has committed nothing, and then none of its steps has changed
the table. Once it has committed it returns the job, or is about to. -/
structure Reports (settings : Settings) (c : Nat) (tr : List (State × Action)) (s : State) :
    Prop where
  raised : ∀ error, s.calls c = .raised error → ∀ e ∈ tr, commitOf c e = none
  unchanged : ∀ error, s.calls c = .raised error → ∀ e ∈ tr, e.2.ofCall c = true →
    ∀ t, step settings e.1 e.2 = some t → t.store.jobs = e.1.store.jobs
  returned : ∀ e ∈ tr, ∀ value, commitOf c e = some value →
    s.calls c = .returned value ∨ (s.calls c).outstanding = some value

theorem commitOf_other (h : ∀ b, a ≠ .api c b) : commitOf c (s, a) = none := by
  cases a with
  | api d b =>
    have hne : d ≠ c := by
      rintro rfl
      exact h b rfl
    cases b <;> simp [commitOf, hne]
  | worker | maintenance | tick | tamper => rfl

/-- A step of a call that commits nothing leaves the table as it is. -/
theorem jobs_of_commitOf_none (ha : a.ofCall c = true) (hstep : step settings s a = some s')
    (hcommit : commitOf c (s, a) = none) : s'.store.jobs = s.store.jobs := by
  cases move_of_step hstep with
  | @api d b hmove _ _ _ =>
    obtain rfl : d = c := by simpa [Action.ofCall] using ha
    have hframe := hmove.jobs_eq
    cases hmove with
    | commitRefused _ _ hstore _ =>
      rw [hstore]
      rfl
    | commitSubmit hinserted hok _ _ => simp [commitOf, hinserted, hok] at hcommit
    | commitCancel hphase _ _ | commitRetry hphase _ _ => simp [commitOf, hphase] at hcommit
    | _ => exact hframe (by simp)
  | worker | maintenance | tick | tamper => cases ha

/-! ## The course of a call -/

/-- Where call `c` stands after the history `tr`: it has not committed, it has committed, or
one of its commands has failed. -/
inductive Course (c : Nat) (tr : List (State × Action)) (call : Call) : Prop
  | working (hcommit : ∀ e ∈ tr, commitOf c e = none) (hfault : ∀ e ∈ tr, e.2 ≠ .api c .fault)
      (hcall : call.outstanding = none)
  | committed (value : Returned) (hcommit : ∃ e ∈ tr, commitOf c e = some value)
      (honly : ∀ e ∈ tr, ∀ v, commitOf c e = some v → v = value)
      (hfault : ∀ e ∈ tr, e.2 ≠ .api c .fault)
      (hcall : call = .returned value ∨ call.outstanding = some value ∨ call = .dropped)
  | failed (hcommit : ∃ e ∈ tr, commitOf c e ≠ none) (hfault : ∃ e ∈ tr, e.2 = .api c .fault)
      (hcall : call = .raised .redis ∨ call = .dropped)

/-- A step that neither commits the call nor fails for it only moves it on. -/
theorem Course.move {call call' : Call} (h : Course c tr call)
    (hcommit : commitOf c (s, a) = none) (hfault : a ≠ .api c .fault)
    (hworking : call.outstanding = none → call'.outstanding = none)
    (hcommitted : ∀ value, call = .returned value ∨ call.outstanding = some value ∨
      call = .dropped → call' = .returned value ∨ call'.outstanding = some value ∨
      call' = .dropped)
    (hfailed : call = .raised .redis ∨ call = .dropped →
      call' = .raised .redis ∨ call' = .dropped) : Course c (tr ++ [(s, a)]) call' := by
  have hnot : ∀ p : State × Action → Prop, (∀ e ∈ tr, p e) → p (s, a) →
      ∀ e ∈ tr ++ [(s, a)], p e := by
    intro p hp hlast e he
    rcases List.mem_append.mp he with he | he
    · exact hp e he
    · rw [List.mem_singleton.mp he]
      exact hlast
  cases h with
  | working hc hf hcall =>
    exact .working (hnot _ hc hcommit) (hnot _ hf hfault) (hworking hcall)
  | committed value hc honly hf hcall =>
    obtain ⟨e, he, hvalue⟩ := hc
    refine .committed value ⟨e, List.mem_append_left _ he, hvalue⟩ (hnot _ honly ?_)
      (hnot _ hf hfault) (hcommitted value hcall)
    intro v hv
    rw [hcommit] at hv
    cases hv
  | failed hc hf hcall =>
    obtain ⟨e, he, hvalue⟩ := hc
    obtain ⟨e', he', hfault'⟩ := hf
    exact .failed ⟨e, List.mem_append_left _ he, hvalue⟩ ⟨e', List.mem_append_left _ he', hfault'⟩
      (hfailed hcall)

/-- A call commits while it is still working, and then owes its answer. -/
theorem Course.commit {call call' : Call} {b : CallAction} (h : Course c tr call)
    (value : Returned) (hcommit : commitOf c (s, .api c b) = some value) (hb : b ≠ .fault)
    (hcall : call.outstanding = none ∧ (∀ v, call ≠ .returned v) ∧ call ≠ .dropped ∧
      call ≠ .raised .redis)
    (hcall' : call'.outstanding = some value) : Course c (tr ++ [(s, .api c b)]) call' := by
  obtain ⟨hnone, hreturned, hdropped, hraised⟩ := hcall
  cases h with
  | working hc hf _ =>
    refine .committed value ⟨_, by simp, hcommit⟩ ?_ ?_ (Or.inr (Or.inl hcall'))
    · intro e he v hv
      rcases List.mem_append.mp he with he | he
      · rw [hc e he] at hv
        cases hv
      · rw [List.mem_singleton.mp he, hcommit] at hv
        exact (Option.some.inj hv).symm
    · intro e he
      rcases List.mem_append.mp he with he | he
      · exact hf e he
      · rw [List.mem_singleton.mp he]
        simpa using hb
  | committed v _ _ _ hcase =>
    rcases hcase with hcase | hcase | hcase
    · exact absurd hcase (hreturned v)
    · rw [hnone] at hcase
      cases hcase
    · exact absurd hcase hdropped
  | failed _ _ hcase =>
    rcases hcase with hcase | hcase
    · exact absurd hcase hraised
    · exact absurd hcase hdropped

/-- A command fails while an answer is owed. -/
theorem Course.fail {call : Call} {value : Returned} (h : Course c tr call)
    (hcall : call.outstanding = some value) :
    Course c (tr ++ [(s, .api c .fault)]) (.raised .redis) := by
  cases h with
  | working _ _ hnone =>
    rw [hnone] at hcall
    cases hcall
  | committed v hc _ _ _ =>
    obtain ⟨e, he, hvalue⟩ := hc
    refine .failed ⟨e, List.mem_append_left _ he, ?_⟩
      ⟨_, List.mem_append_right _ (List.mem_singleton_self _), rfl⟩ (Or.inl rfl)
    rw [hvalue]
    simp
  | failed hc _ hcase => rcases hcase with rfl | rfl <;> cases hcall

theorem course_step (h : Course c tr (s.calls c)) (hstep : step settings s a = some s') :
    Course c (tr ++ [(s, a)]) (s'.calls c) := by
  rcases call_move hstep c with ⟨hother, heq⟩ | ⟨b, rfl, hmove⟩
  · rw [heq]
    exact h.move (commitOf_other hother) (hother _) id (fun _ => id) id
  · cases hmove with
    | commitSubmit hinserted hok _ hcall =>
      rw [hinserted] at h
      rw [hcall]
      exact h.commit _ (by simp [commitOf, hinserted, hok]) (by simp)
        (by simp [Call.outstanding]) rfl
    | commitCancel hphase _ hcall | commitRetry hphase _ hcall =>
      rw [hphase] at h
      rw [hcall]
      exact h.commit _ (by simp [commitOf, hphase]) (by simp) (by simp [Call.outstanding]) rfl
    | commitRefused hinserted hviolates _ hcall =>
      rw [hinserted] at h
      refine h.move (by simp [commitOf, hinserted, hviolates]) (by simp) (fun _ => ?_) ?_ ?_
      · rcases hcall with ⟨_, _, hcall⟩ | hcall <;> rw [hcall] <;> rfl
      · simp [Call.outstanding]
      · simp
    | fault howed _ hcall =>
      rw [hcall]
      exact h.fail howed
    | drop _ _ hcall | dropInserted _ _ hcall =>
      rw [hcall]
      refine h.move rfl (by simp) (fun _ => rfl) ?_ ?_ <;> simp
    | submitInvalid hphase _ _ hcall | submitExisting hphase _ _ _ hcall
    | submit hphase _ _ _ hcall | insertRefused hphase _ _ _ hcall | insert hphase _ _ _ hcall
    | cancelMissing hphase _ _ hcall | cancelRefused hphase _ _ _ hcall | cancel hphase _ _ _ hcall
    | retryMissing hphase _ _ hcall | retryRefused hphase _ _ _ hcall
    | manualRetry hphase _ _ _ hcall =>
      -- the call has not committed yet
      rw [hphase] at h
      rw [hcall]
      refine h.move rfl (by simp) (fun _ => rfl) ?_ ?_ <;> simp [Call.outstanding]
    | push hphase _ hcall | removePending hphase _ hcall | removeScheduled hphase _ hcall
    | clear hphase _ hcall =>
      -- the answer that was owed is given, or is owed still
      rw [hphase] at h
      rw [hcall]
      refine h.move rfl (by simp) ?_ ?_ ?_ <;> simp [Call.outstanding]

theorem course_of_run (hquiet : s₀.Quiet) (hrun : Run (step settings) s₀ tr s) (c : Nat) :
    Course c tr (s.calls c) := by
  refine hrun.induct (C := fun _ _ => True) (by simp) (I := fun tr s => Course c tr (s.calls c))
    ?_ fun _ _ _ _ _ _ h _ hstep => course_step h hstep
  refine .working (by simp) (by simp) ?_
  rw [hquiet.calls c]
  rfl

/-! ## The guarantee -/

/-- In every run, a call whose client is still there reports what it has committed if and
only if none of its Redis commands fails. -/
theorem reports_iff_no_fault (hquiet : s₀.Quiet) (hrun : Run (step settings) s₀ tr s)
    (hclient : s.calls c ≠ .dropped) :
    Reports settings c tr s ↔ ∀ e ∈ tr, e.2 ≠ .api c .fault := by
  have hcourse := course_of_run hquiet hrun c
  constructor
  · intro h e he hfault
    cases hcourse with
    | working _ hno _ => exact hno e he hfault
    | committed _ _ _ hno _ => exact hno e he hfault
    | failed hcommit _ hcall =>
      obtain ⟨e', he', hvalue⟩ := hcommit
      exact hvalue (h.raised .redis (hcall.resolve_right hclient) e' he')
  · intro hno
    have hunchanged : (∀ e ∈ tr, commitOf c e = none) → ∀ e ∈ tr, e.2.ofCall c = true →
        ∀ t, step settings e.1 e.2 = some t → t.store.jobs = e.1.store.jobs :=
      fun hnone e he hof t ht => jobs_of_commitOf_none hof ht (hnone e he)
    cases hcourse with
    | working hnone _ _ =>
      refine ⟨fun _ _ => hnone, fun _ _ => hunchanged hnone, ?_⟩
      intro e he value hvalue
      rw [hnone e he] at hvalue
      cases hvalue
    | committed value _ honly _ hcall =>
      have hnot : ∀ error, s.calls c ≠ .raised error := by
        intro error hraised
        rw [hraised] at hcall
        simp [Call.outstanding] at hcall
      refine ⟨fun error h => absurd h (hnot error), fun error h => absurd h (hnot error), ?_⟩
      intro e he v hv
      rw [honly e he v hv]
      rcases hcall with hcall | hcall | hcall
      · exact Or.inl hcall
      · exact Or.inr hcall
      · exact absurd hcall hclient
    | failed _ hfault _ =>
      obtain ⟨e, he, heq⟩ := hfault
      exact absurd heq (hno e he)

/-- A submission and the cancel of its job, with Redis up. -/
theorem reports_iff_no_fault_cancel :
    ∃ tr s, Run (step {}) (State.initial 0) tr s ∧ s.calls 1 = .returned (.cancelled 1) ∧
      (Reports {} 1 tr s ↔ ∀ e ∈ tr, e.2 ≠ .api 1 .fault) := by
  obtain ⟨tr, s, hrun, _, hcheck⟩ := run_of_check (step {}) (State.initial 0)
    [.api 0 (.submit webhookRequest none), .api 0 (.insert 1), .api 0 .commit, .api 0 .command,
      .api 1 (.cancel 1), .api 1 .commit, .api 1 .command, .api 1 .command]
    (fun _ s => s.calls 1 = .returned (.cancelled 1)) (by decide +kernel)
  simp only [decide_eq_true_eq] at hcheck
  exact ⟨tr, s, hrun, hcheck,
    reports_iff_no_fault (State.quiet_initial 0) hrun (by rw [hcheck]; simp)⟩

/-- Redis fails after the commit of a submission without a key; the client gets an error,
submits again and has two jobs. -/
theorem fault_misreports :
    ∃ tr s, Run (step {}) (State.initial 0) tr s ∧ s.calls 0 = .raised .redis ∧
      s.calls 1 = .returned (.created 2) ∧ (s.row 1).isSome ∧ (s.row 2).isSome ∧
      ¬ Reports {} 0 tr s := by
  obtain ⟨tr, s, hrun, _, hcheck⟩ := run_of_check (step {}) (State.initial 0)
    [.api 0 (.submit webhookRequest none), .api 0 (.insert 1), .api 0 .commit, .api 0 .fault,
      .api 1 (.submit webhookRequest none), .api 1 (.insert 2), .api 1 .commit,
      .api 1 .command]
    (fun tr s => s.calls 0 = .raised .redis ∧ s.calls 1 = .returned (.created 2) ∧
      (s.row 1).isSome ∧ (s.row 2).isSome ∧ tr.any fun e => (commitOf 0 e).isSome)
    (by decide +kernel)
  simp only [decide_eq_true_eq, List.any_eq_true] at hcheck
  obtain ⟨hraised, hcreated, hfirst, hsecond, e, he, hcommit⟩ := hcheck
  refine ⟨tr, s, hrun, hraised, hcreated, hfirst, hsecond, ?_⟩
  intro h
  rw [h.raised .redis hraised e he] at hcommit
  cases hcommit

end JobQueue
