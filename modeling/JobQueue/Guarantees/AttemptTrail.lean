import JobQueue.Guarantees.Accounting
import JobQueue.System.Audit
import Mathlib.Data.List.Perm.Subperm
import Mathlib.Order.Interval.Finset.Basic
import Mathlib.Data.Int.Interval

/-!
# The attempts on record

A worker that has lost its lease still puts its start and its outcome on record, so the rows
of several attempts interleave in the trail of a job. They can be told apart in every
interleaving (`attempts_on_record`): no attempt is started twice or fails twice, an attempt
fails only after its start, and there are no more outcomes than starts and no more starts
than attempts.
-/

namespace JobQueue

open Relational Transition Journal

variable {settings : Settings} {now : Timestamp} {s s' s₀ : State} {a : Action}
  {tr : List (State × Action)} {j : UUID} {row row' : Job} {e : JobLog} {log : List JobLog}

/-! ## Outcomes -/

/-- The commit that ends an attempt: the job and the attempt count of its instance. -/
def endsAttempt (e : State × Action) : Option (UUID × Nat) :=
  match e.2 with
  | .worker w .commit =>
      match (e.1.workers w).executor with
      | .finalising m => some (m.id, m.current.attemptCount)
      | _ => none
  | _ => none

def outcomes (tr : List (State × Action)) : List (UUID × Nat) := tr.filterMap endsAttempt

theorem endsAttempt_iff {p : UUID × Nat} : endsAttempt (s, a) = some p ↔ ∃ w m,
    a = .worker w .commit ∧ (s.workers w).executor = .finalising m ∧
      p = (m.id, m.current.attemptCount) := by
  constructor
  · intro h
    unfold endsAttempt at h
    split at h
    · rename_i w heq
      split at h
      · rename_i m hfinalising
        cases h
        exact ⟨w, m, heq, hfinalising, rfl⟩
      · cases h
    · cases h
  · rintro ⟨w, m, rfl, hfinalising, rfl⟩
    simp [endsAttempt, hfinalising]

theorem outcomes_snoc (tr : List (State × Action)) (e : State × Action) :
    outcomes (tr ++ [e]) = outcomes tr ++ (endsAttempt e).toList := by
  simp only [outcomes, List.filterMap_append]
  cases h : endsAttempt e with
  | none => simp [h]
  | some p => simp [h]

/-! ## Attempts in hand are numbered apart -/

structure OutcomeInv (tr : List (State × Action)) (s : State) : Prop where
  nodup : (outcomes tr).Nodup
  ended : ∀ p ∈ outcomes tr, p.2 ≤ s.attempts p.1
  hand : ∀ w m, s.inHand w = some m →
    m.loaded.attemptCount ≤ s.attempts m.id ∧ (m.id, m.loaded.attemptCount) ∉ outcomes tr
  apart : ∀ v w m n, s.inHand v = some m → s.inHand w = some n → m.id = n.id →
    m.loaded.attemptCount = n.loaded.attemptCount → v = w

/-- An attempt in hand was in hand, and its worker does not end it, or it has just been
claimed and has the next number. -/
theorem inHand_attempt_step {w : WorkerId} {m : Mapped} (hshaped : s.Shaped settings)
    (hstep : step settings s a = some s') (h' : s'.inHand w = some m) :
    (∃ n, s.inHand w = some n ∧ m.id = n.id ∧ m.loaded.attemptCount = n.loaded.attemptCount ∧
        a ≠ .worker w .commit) ∨
      ((∃ began clock, a = .worker w (.claim began clock)) ∧ claims m.id (s, a) = true ∧
        m.loaded.attemptCount = s.attempts m.id + 1) := by
  rcases inHand_step hstep h' with
    ⟨began, clock, row, rfl, hpopped, hrow, hready, hload, _⟩ | ⟨n, hn, hid, hcommit, hloaded⟩
  · refine Or.inr ⟨⟨began, clock, rfl⟩, ?_, ?_⟩
    · exact claims_iff.mpr ⟨w, began, clock, row, rfl, hpopped, hrow, hready⟩
    · rw [State.attempts_of_row hrow, hload]
      rfl
  · refine Or.inl ⟨n, hn, hid, ?_, hcommit⟩
    rcases hloaded with ⟨hloaded, _⟩ | ⟨pct, _, _, hloaded⟩
    · rw [hloaded]
    · rw [hloaded]
      exact (executor_counters hshaped hn).1

theorem outcomeInv_step (hquiet : s₀.Quiet) (hrun : Run (step settings) s₀ tr s)
    (h : OutcomeInv tr s) (hstep : step settings s a = some s') :
    OutcomeInv (tr ++ [(s, a)]) s' := by
  have hshaped := shaped_of_run hquiet hrun
  have hmono := attempts_mono hquiet hrun hstep
  have hcount := attempts_step hquiet hrun hstep
  -- what a commit ends was in hand
  have hends : ∀ p, endsAttempt (s, a) = some p → ∃ w m, a = .worker w .commit ∧
      s.inHand w = some m ∧ p = (m.id, m.loaded.attemptCount) := by
    intro p hp
    obtain ⟨w, m, rfl, hfinalising, rfl⟩ := endsAttempt_iff.mp hp
    have hm := inHand_of_finalising hfinalising
    exact ⟨w, m, rfl, hm, by rw [(executor_counters hshaped hm).1]⟩
  refine ⟨?_, ?_, ?_, ?_⟩
  · rw [outcomes_snoc]
    cases hend : endsAttempt (s, a) with
    | none => simpa using h.nodup
    | some p =>
      obtain ⟨w, m, _, hm, rfl⟩ := hends p hend
      simp only [Option.toList_some]
      exact List.nodup_append'.mpr ⟨h.nodup, List.nodup_singleton _, by
        simpa using (h.hand w m hm).2⟩
  · intro p hp
    rw [outcomes_snoc, List.mem_append] at hp
    rcases hp with hp | hp
    · exact (h.ended p hp).trans (hmono p.1)
    · obtain ⟨w, m, _, hm, rfl⟩ := hends p (by simpa using hp)
      exact (h.hand w m hm).1.trans (hmono m.id)
  · intro w m hm'
    rw [outcomes_snoc, List.mem_append, not_or]
    rcases inHand_attempt_step hshaped hstep hm' with
      ⟨n, hn, hid, hsame, hcommit⟩ | ⟨⟨began, clock, rfl⟩, hclaims, hnext⟩
    · obtain ⟨hle, hnot⟩ := h.hand w n hn
      rw [hid, hsame]
      refine ⟨hle.trans (hmono n.id), hnot, ?_⟩
      intro hmem
      obtain ⟨v, k, rfl, hk, heq⟩ := hends _ (by simpa using hmem)
      simp only [Prod.mk.injEq] at heq
      have hvw := h.apart w v n k hn hk heq.1 heq.2
      exact hcommit (by rw [hvw])
    · refine ⟨?_, ?_, by simp [endsAttempt]⟩
      · rw [hcount m.id, hclaims, if_pos rfl]
        omega
      · intro hmem
        have hle := h.ended _ hmem
        simp only at hle
        omega
  · intro v w m n hv hw hid hattempt
    rcases inHand_attempt_step hshaped hstep hv with
      ⟨m₀, hv, hmid, hm, _⟩ | ⟨⟨began, clock, rfl⟩, hclaims, hnext⟩
    · rcases inHand_attempt_step hshaped hstep hw with ⟨n₀, hw, hnid, hn, _⟩ | ⟨_, _, hnext'⟩
      · exact h.apart v w m₀ n₀ hv hw (by rw [← hmid, ← hnid, hid]) (by rw [← hm, ← hn, hattempt])
      · have hle := (h.hand v m₀ hv).1
        rw [← hmid, hid] at hle
        omega
    · rcases inHand_attempt_step hshaped hstep hw with
        ⟨n₀, hw, hnid, hn, _⟩ | ⟨⟨_, _, heq⟩, _, _⟩
      · have hle := (h.hand w n₀ hw).1
        rw [← hnid, ← hid] at hle
        omega
      · cases heq
        rfl

theorem outcomeInv_of_run (hquiet : s₀.Quiet) (hrun : Run (step settings) s₀ tr s) :
    OutcomeInv tr s := by
  refine hrun.induct (C := fun _ _ => True) (by simp) ?_
    fun tr s a s' hrun _ h _ hstep => outcomeInv_step hquiet hrun h hstep
  refine ⟨by simp [outcomes], by simp [outcomes], ?_, ?_⟩
  · intro w m hm
    simp [hquiet.inHand w] at hm
  · intro v w m n hv
    simp [hquiet.inHand v] at hv

/-- An attempt that is about to be finalised was started. -/
theorem finalising_started {w : WorkerId} {m : Mapped} (hquiet : s₀.Quiet)
    (hrun : Run (step settings) s₀ tr s) (hfinalising : (s.workers w).executor = .finalising m) :
    (m.id, m.current.attemptCount) ∈ executions tr := by
  induction hrun generalizing m with
  | nil => simp [hquiet.workers w] at hfinalising
  | @snoc tr s a s' hrun hstep ih =>
    rw [executions_snoc, List.mem_append]
    left
    rcases finalising_step hstep hfinalising with ⟨hbefore, _⟩ | ⟨n, hexecuting, hended⟩
    · exact ih hbefore
    · have hstarted := executing_started hquiet hrun hexecuting
      rcases hended with ⟨result, clock, _, rfl⟩ | ⟨raised, clock, _, rfl⟩
      · exact hstarted
      · simpa [Raised.apply] using hstarted

theorem one_le_of_started (hquiet : s₀.Quiet) (hrun : Run (step settings) s₀ tr s) :
    ∀ p ∈ executions tr, 1 ≤ p.2 := by
  induction hrun with
  | nil => simp [executions]
  | @snoc tr s a s' hrun hstep ih =>
    intro p hp
    rw [executions_snoc, List.mem_append] at hp
    rcases hp with hp | hp
    · exact ih p hp
    · obtain ⟨w, m, _, hclaimed, rfl⟩ := startsHandler_iff.mp (by simpa using hp)
      have hm : s.inHand w = some m := by
        rw [State.inHand, hclaimed]
        rfl
      obtain ⟨_, _, _, _, row, _, hattempt⟩ := claimedAs_of_inHand hquiet hrun hm
      have hsame := (executor_counters (shaped_of_run hquiet hrun) hm).1
      show 1 ≤ m.current.attemptCount
      omega

/-! ## The rows of the trail are the events of the history -/

/-- The number of an attempt at job `j`. -/
def attemptAt (j : UUID) (p : UUID × Nat) : Option Int := if p.1 = j then some p.2 else none

/-- A row about the end of an attempt of job `j`. -/
def JobLog.ends (j : UUID) (e : JobLog) : Bool :=
  e.jobId = j ∧
    (e.message = "job completed" ∨ e.message = "retry scheduled" ∨
      e.message = "job failed permanently")

theorem newJob_status (settings : Settings) (data : JobCreate) (key : Option String) (t : Timestamp) :
    (newJob settings data key t).status = .scheduled ∨
      (newJob settings data key t).status = .pending := by
  unfold newJob
  by_cases h : data.scheduledAt.isSome = true
  · exact Or.inl (if_pos h)
  · exact Or.inr (if_neg h)

theorem starts_jobStartedLog {w : WorkerId} {m : Mapped} (hstatus : m.current.status = .processing)
    (j : UUID) : (jobStartedLog w m).starts j = attemptAt j (m.id, m.current.attemptCount) := by
  have hid : (jobStartedLog w m).jobId = m.id := rfl
  have hnumber : (jobStartedLog w m).number "attempt_count" = some (m.current.attemptCount : Int) :=
    rfl
  simp [JobLog.starts, attemptAt, hid, hnumber, hstatus]

theorem starts_none {status : JobStatus} (h : e.status = some status) (hne : status ≠ .processing)
    (j : UUID) : e.starts j = none := by
  simp [JobLog.starts, h, hne]

theorem failure_none (h : e.number "attempt_count" = none) (j : UUID) : e.failure j = none := by
  simp [JobLog.failure, h]

/-- A completion has no attempt count on record, a failure has that of its instance. -/
theorem failure_outcomeLog {m : Mapped} (j : UUID) : (outcomeLog m).failure j = none ∨
    (outcomeLog m).failure j = attemptAt j (m.id, m.current.attemptCount) := by
  have hfailure : ∀ e : JobLog, ∀ status, e.jobId = m.id → e.status = some status →
      status ≠ .processing → e.number "attempt_count" = some (m.current.attemptCount : Int) →
      e.failure j = attemptAt j (m.id, m.current.attemptCount) := by
    intro e status hid hstatus hne hnumber
    simp [JobLog.failure, attemptAt, hid, hstatus, hne, hnumber]
  unfold outcomeLog
  split
  · exact Or.inl (failure_none rfl j)
  · exact Or.inr (hfailure _ .failed rfl (status_jobFailedLog _ _) (by simp) rfl)
  · exact Or.inr (hfailure _ .pending rfl (status_retryScheduledLog _ _) (by simp) rfl)

theorem ends_outcomeLog (m : Mapped) (j : UUID) : (outcomeLog m).ends j = decide (m.id = j) := by
  have hends : ∀ e : JobLog, e.jobId = m.id →
      (e.message = "job completed" ∨ e.message = "retry scheduled" ∨
        e.message = "job failed permanently") → e.ends j = decide (m.id = j) := by
    intro e hid hmessage
    simp [JobLog.ends, hid, hmessage]
  unfold outcomeLog
  split
  · exact hends _ rfl (Or.inl rfl)
  · exact hends _ rfl (Or.inr (Or.inr rfl))
  · exact hends _ rfl (Or.inr (Or.inl rfl))

/-- What the row of a step says about starts and ends is what the step does. -/
theorem auditRows_events (hshaped : s.Shaped settings) (a : Action) (j : UUID) :
    (auditRows s a).filterMap (JobLog.starts j) =
        (startsHandler (s, a)).toList.filterMap (attemptAt j) ∧
      ((auditRows s a).filterMap (JobLog.failure j)).Sublist
        ((endsAttempt (s, a)).toList.filterMap (attemptAt j)) ∧
      (auditRows s a).countP (JobLog.ends j) =
        (endsAttempt (s, a)).toList.countP fun p => p.1 = j := by
  cases hlogged : logged s a with
  | none =>
    have hnoStart : startsHandler (s, a) = none := by
      rw [Option.eq_none_iff_forall_ne_some]
      intro p hp
      obtain ⟨w, m, rfl, hclaimed, _⟩ := startsHandler_iff.mp hp
      simp [logged_iff.mpr (.start hclaimed)] at hlogged
    have hnoEnd : endsAttempt (s, a) = none := by
      rw [Option.eq_none_iff_forall_ne_some]
      intro p hp
      obtain ⟨w, m, rfl, hfinalising, _⟩ := endsAttempt_iff.mp hp
      simp [logged_iff.mpr (.outcome hfinalising)] at hlogged
    rw [auditRows, hlogged, hnoStart, hnoEnd]
    exact ⟨rfl, List.Sublist.refl _, rfl⟩
  | some e =>
    have hlogs := logged_iff.mp hlogged
    rw [auditRows_of_logs hlogs]
    cases hlogs with
    | @start w m hclaimed =>
      have hshape := hshaped.executor w
      rw [hclaimed] at hshape
      have hstatus : m.current.status = .processing := hshape.2 ▸ hshape.1
      have hstart : startsHandler (s, .worker w .start) = some (m.id, m.current.attemptCount) :=
        startsHandler_iff.mpr ⟨w, m, rfl, hclaimed, rfl⟩
      have hfailure : (jobStartedLog w m).failure j = none := by
        simp [JobLog.failure, hstatus]
      have hends : (jobStartedLog w m).ends j = false := by
        simp [JobLog.ends, jobStartedLog]
      rw [hstart]
      refine ⟨?_, ?_, ?_⟩
      · simp only [List.filterMap_cons, starts_jobStartedLog hstatus, Option.toList_some,
          List.filterMap_nil]
      · simp [hfailure]
      · simp [hends, endsAttempt]
    | @outcome w m hfinalising =>
      have hend : endsAttempt (s, .worker w .commit) = some (m.id, m.current.attemptCount) :=
        endsAttempt_iff.mpr ⟨w, m, rfl, hfinalising, rfl⟩
      rw [hend]
      refine ⟨?_, ?_, ?_⟩
      · have hnone : (outcomeLog m).starts j = none := by
          refine starts_none (status_outcomeLog hshaped hfinalising) ?_ j
          rcases finalising_status hshaped hfinalising with h | h | h <;> simp [h]
        simp [hnone, startsHandler]
      · rcases failure_outcomeLog (m := m) j with h | h
        · simp [h]
        · simp only [List.filterMap_cons, h, Option.toList_some]
          exact List.Sublist.refl _
      · simp [List.countP_singleton, ends_outcomeLog]
    | @create c jobId job hcall hok =>
      have hshape := hshaped.call c
      rw [hcall] at hshape
      obtain ⟨_, data, key, t, rfl⟩ := hshape
      have hne : (newJob settings data key t).status ≠ .processing := by
        rcases newJob_status settings data key t with h | h <;> rw [h] <;> simp
      have hnone := starts_none (status_jobCreatedLog jobId (newJob settings data key t)) hne j
      have hfailure := failure_none (e := jobCreatedLog jobId (newJob settings data key t)) rfl j
      refine ⟨?_, ?_, ?_⟩
      · simp [hnone, startsHandler]
      · simp [hfailure]
      · simp [JobLog.ends, jobCreatedLog, endsAttempt]
    | @cancel c m hcancelling =>
      have hnone := starts_none (status_jobCancelledLog m.id) (by simp) j
      have hfailure := failure_none (e := jobCancelledLog m.id) rfl j
      refine ⟨?_, ?_, ?_⟩
      · simp [hnone, startsHandler]
      · simp [hfailure]
      · simp [JobLog.ends, jobCancelledLog, endsAttempt]
    | @retry c m hretrying =>
      have hnone := starts_none (status_manualRetryLog m.id m.current) (by simp) j
      have hfailure := failure_none (e := manualRetryLog m.id m.current) rfl j
      refine ⟨?_, ?_, ?_⟩
      · simp [hnone, startsHandler]
      · simp [hfailure]
      · simp [JobLog.ends, manualRetryLog, endsAttempt]

/-- So it is along a run. -/
theorem trail_events (hquiet : s₀.Quiet) (hrun : Run (step settings) s₀ tr s) (j : UUID) :
    (journal auditRows tr).filterMap (JobLog.starts j) = (executions tr).filterMap (attemptAt j) ∧
      ((journal auditRows tr).filterMap (JobLog.failure j)).Sublist
        ((outcomes tr).filterMap (attemptAt j)) ∧
      (journal auditRows tr).countP (JobLog.ends j) = (outcomes tr).countP fun p => p.1 = j := by
  induction hrun with
  | nil => exact ⟨rfl, List.Sublist.refl _, rfl⟩
  | @snoc tr s a s' hrun hstep ih =>
    obtain ⟨hstarts, hfailures, hends⟩ := ih
    obtain ⟨hstart, hfailure, hend⟩ := auditRows_events (shaped_of_run hquiet hrun) a j
    rw [journal_snoc, executions_snoc, outcomes_snoc]
    simp only [List.filterMap_append, List.countP_append]
    exact ⟨by rw [hstarts, hstart], hfailures.append hfailure, by rw [hends, hend]⟩

/-- An attempt that fails is on record already. -/
theorem failure_after_start (hquiet : s₀.Quiet) (hrun : Run (step settings) s₀ tr s) {n : Int} :
    ∀ past e future, journal auditRows tr = past ++ e :: future → e.failure j = some n →
      n ∈ past.filterMap (JobLog.starts j) := by
  induction hrun with
  | nil =>
    intro past e future heq
    simp at heq
  | @snoc tr s a s' hrun hstep ih =>
    intro past e future heq hfailure
    rw [journal_snoc] at heq
    cases hlogged : logged s a with
    | none =>
      rw [auditRows, hlogged] at heq
      exact ih past e future (by simpa using heq) hfailure
    | some e' =>
      have hlogs := logged_iff.mp hlogged
      rw [auditRows_of_logs hlogs] at heq
      rcases List.eq_nil_or_concat future with rfl | ⟨future, last, rfl⟩
      · -- the last row is that of an attempt in hand, which has started
        obtain ⟨rfl, hlast⟩ := List.append_inj' heq rfl
        cases hlast
        have hevents := auditRows_events (shaped_of_run hquiet hrun) a j
        rw [auditRows_of_logs hlogs] at hevents
        have hmem : n ∈ [e].filterMap (JobLog.failure j) := by simp [hfailure]
        obtain ⟨p, hp, hat⟩ := List.mem_filterMap.mp (hevents.2.1.subset hmem)
        obtain ⟨w, m, rfl, hfinalising, rfl⟩ := endsAttempt_iff.mp (Option.mem_toList.mp hp)
        rw [(trail_events hquiet hrun j).1]
        exact List.mem_filterMap.mpr ⟨_, finalising_started hquiet hrun hfinalising, hat⟩
      · rw [List.concat_eq_append, ← List.cons_append, ← List.append_assoc] at heq
        obtain ⟨hpast, _⟩ := List.append_inj' heq rfl
        exact ih past e future hpast hfailure

/-! ## The guarantee -/

theorem nodup_attemptAt {l : List (UUID × Nat)} (h : l.Nodup) (j : UUID) :
    (l.filterMap (attemptAt j)).Nodup := by
  refine h.filterMap ?_
  intro p q n hp hq
  simp only [attemptAt, Option.mem_def, Option.ite_none_right_eq_some, Option.some.injEq] at hp hq
  obtain ⟨hpj, hpn⟩ := hp
  obtain ⟨hqj, hqn⟩ := hq
  refine Prod.ext (hpj.trans hqj.symm) ?_
  omega

theorem length_attemptAt (l : List (UUID × Nat)) (j : UUID) :
    (l.filterMap (attemptAt j)).length = l.countP fun p => p.1 = j := by
  induction l with
  | nil => rfl
  | cons p l ih =>
    by_cases hp : p.1 = j
    · simp [attemptAt, hp, ← ih]
    · simp [attemptAt, hp, ← ih]

/-- A list without repetitions between `1` and `n` is no longer than `n`. -/
theorem length_le_of_nodup {l : List Int} {n : Nat} (h : l.Nodup)
    (hl : ∀ i ∈ l, 1 ≤ i ∧ i ≤ n) : l.length ≤ n := by
  have hsubset : l.toFinset ⊆ Finset.Icc (1 : Int) n := by
    intro i hi
    exact Finset.mem_Icc.mpr (hl i (List.mem_toFinset.mp hi))
  have hcard := Finset.card_le_card hsubset
  rw [List.toFinset_card_of_nodup h, Int.card_Icc] at hcard
  omega

/-- In every reachable state of the whole system with its table `job_logs`, for each job: the
rows of its starts have different attempts, each between one and the attempt count; the rows
of its failures have different attempts, and each comes after the start of its attempt; and
the ends on record are no more than the starts, which are no more than the attempts. -/
theorem attempts_on_record {x : State × List JobLog} {tr : List ((State × List JobLog) × Action)}
    (hrun : Run (auditedStep settings) (State.initial now, []) tr x) (j : UUID) :
    (x.2.filterMap (JobLog.starts j)).Nodup ∧
      (∀ n ∈ x.2.filterMap (JobLog.starts j), 1 ≤ n ∧ n ≤ x.1.attempts j) ∧
      (x.2.filterMap (JobLog.failure j)).Nodup ∧
      (∀ past e future, x.2 = past ++ e :: future → ∀ n, e.failure j = some n →
        n ∈ past.filterMap (JobLog.starts j)) ∧
      x.2.countP (JobLog.ends j) ≤ (x.2.filterMap (JobLog.starts j)).length ∧
      (x.2.filterMap (JobLog.starts j)).length ≤ x.1.attempts j := by
  have hquiet := State.quiet_initial now
  obtain ⟨hbase, hlog⟩ := run_of_journaled hrun
  rw [List.nil_append] at hlog
  obtain ⟨hstarts, hfailures, hends⟩ := trail_events hquiet hbase j
  have hattempts := attemptInv_of_run hquiet hbase
  have houtcomes := outcomeInv_of_run hquiet hbase
  have hnodup := nodup_attemptAt hattempts.nodup j
  have hbounds : ∀ n ∈ (executions (tr.map bare)).filterMap (attemptAt j),
      1 ≤ n ∧ n ≤ x.1.attempts j := by
    intro n hn
    obtain ⟨p, hp, hat⟩ := List.mem_filterMap.mp hn
    have hlow := one_le_of_started hquiet hbase p hp
    have hhigh := hattempts.started p hp
    simp only [attemptAt, Option.ite_none_right_eq_some, Option.some.injEq] at hat
    obtain ⟨rfl, rfl⟩ := hat
    omega
  rw [hlog, hstarts, hends]
  refine ⟨hnodup, hbounds, (nodup_attemptAt houtcomes.nodup j).sublist hfailures, ?_, ?_,
    length_le_of_nodup hnodup hbounds⟩
  · intro past e future heq n hn
    exact failure_after_start hquiet hbase past e future heq hn
  · rw [length_attemptAt]
    have hsubset : outcomes (tr.map bare) ⊆ executions (tr.map bare) := by
      intro p hp
      obtain ⟨e, he, hend⟩ := List.mem_filterMap.mp hp
      obtain ⟨tr₁, tr₂, t, htr, hrun₁, _, _⟩ := hbase.split_of_mem he
      obtain ⟨w, m, _, hfinalising, rfl⟩ := endsAttempt_iff.mp hend
      have hstarted := finalising_started hquiet hrun₁ hfinalising
      rw [htr, executions, List.filterMap_append]
      exact List.mem_append_left _ hstarted
    exact (houtcomes.nodup.subperm hsubset).countP_le _

/-- A reaped worker starts late and fails for good, after its successor has started: the rows
of the two attempts interleave. -/
theorem attempts_on_record_late :
    ∃ tr x, Run (auditedStep {}) (State.initial 0, []) tr x ∧
      x.2.filterMap (JobLog.starts 1) = [2, 1] ∧ x.2.filterMap (JobLog.failure 1) = [1] ∧
      (∀ past e future, x.2 = past ++ e :: future → ∀ n, e.failure 1 = some n →
        n ∈ past.filterMap (JobLog.starts 1)) ∧
      (x.2.filterMap (JobLog.starts 1)).length ≤ x.1.attempts 1 := by
  obtain ⟨tr, x, hrun, _, hcheck⟩ := run_of_check (auditedStep {}) (State.initial 0, [])
    [.api 0 (.submit webhookRequest none), .api 0 (.insert 1), .api 0 .commit, .api 0 .command,
      .worker "w1" .dequeue, .worker "w1" (.claim 0 0), .tick 61000000,
      .maintenance (.reaperSelect 10 [1]), .maintenance (.reaperUpdate 61000000),
      .maintenance (.feederSelect 10 [1]), .maintenance .feederPush, .worker "w2" .dequeue,
      .worker "w2" (.claim 61000000 61000000), .worker "w2" .start, .worker "w1" .start,
      .worker "w1" (.fail (.unknownJobType ⟨"UnknownJobTypeError", ""⟩) 61000000),
      .worker "w1" .commit]
    (fun _ x => x.2.filterMap (JobLog.starts 1) = [2, 1] ∧
      x.2.filterMap (JobLog.failure 1) = [1]) (by decide +kernel)
  simp only [decide_eq_true_eq] at hcheck
  obtain ⟨_, _, _, hafter, _, hle⟩ := attempts_on_record hrun 1
  exact ⟨tr, x, hrun, hcheck.1, hcheck.2, hafter, hle⟩

end JobQueue
