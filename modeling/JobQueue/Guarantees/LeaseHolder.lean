import JobQueue.System.Tasks

/-!
# The lease holder of a worker

The heartbeat task reads the job id from the lease holder, renews the lease in the database,
and after that, if the renewal found nothing, clears the holder if it still names the job.
The executor may have given up the job in the meantime and claimed it again: the holder
names it again, for another attempt, and is cleared all the same (`overtaken`). This is the
one way in which a live attempt loses its heartbeat (`live_attempt_is_tended_iff`).
-/

namespace JobQueue

open Relational Transition

variable {settings : Settings} {s s' s₀ : State} {a : Action} {tr : List (State × Action)}
  {w : WorkerId} {m : Mapped} {past : List TaskEntry} {st st₀ : Store} {x x' : Store × Worker}
  {b : TaskAction}

/-! ## An attempt that is tended -/

/-- The heartbeat renews the lease of the attempt: the next tick reads its id, and an
`UPDATE` for that id extends the lease. -/
structure Tended (settings : Settings) (w : WorkerId) (x : Store × Worker) (m : Mapped) : Prop where
  holder : x.2.holder = some m.id
  beat : x.2.heartbeat = .resting →
    workerStep settings x.1 w x.2 .beat = some (x.1, { x.2 with heartbeat := .renewing m.id })
  renew : x.2.heartbeat = .renewing m.id → ∀ clock, ∃ x',
    workerStep settings x.1 w x.2 (.renew clock) = some x' ∧
      x'.2 = { x.2 with heartbeat := .answered m.id true } ∧
      ∃ row, x'.1.jobs.lookup m.id = some row ∧
        row.leasedUntil = some (clock + settings.workerLease)

/-- Every handler that runs an attempt whose row is still its own is tended. -/
def Coherent (settings : Settings) (w : WorkerId) (past : List TaskEntry) (x : Store × Worker) :
    Prop :=
  ∀ m, x.2.executor = .executing m → live w past x.1 m = true → Tended settings w x m

/-- The heartbeat task resumes from a renewal that found nothing, while the executor runs a
live attempt of the same job that it has claimed since. -/
def overtaken (w : WorkerId) (past : List TaskEntry) (x : Store × Worker) : TaskAction → Bool
  | .own .settle =>
      match x.2.executor, x.2.heartbeat with
      | .executing m, .answered jobId false =>
          jobId = m.id && live w past x.1 m && claimedSinceRenewal past
      | _, _ => false
  | _ => false

theorem overtaken_settle (hrunning : x.2.executor = .executing m)
    (hanswered : x.2.heartbeat = .answered m.id false) :
    overtaken w past x (.own .settle) = (live w past x.1 m && claimedSinceRenewal past) := by
  simp [overtaken, hrunning, hanswered]

/-- An `UPDATE` for a row that is the worker's finds it. -/
theorem renew_current (settings : Settings) (h : current w m st = true) (clock : Timestamp) :
    ∃ row : Job, renewJobLease st.jobs clock m.id w settings.workerLease =
      (st.jobs.insert m.id { row with leasedUntil := some (clock + settings.workerLease) }, true) := by
  obtain ⟨row, hrow, howned⟩ := current_iff.mp h
  refine ⟨row, ?_⟩
  have hheld : row.heldBy w = true := by simp [Job.heldBy, howned.status, howned.worker]
  simp [renewJobLease, Table.updateWhere_of_lookup hrow hheld]

/-- The holder is all that matters. -/
theorem tended_of_holder (hlive : live w past x.1 m = true) (h : x.2.holder = some m.id) :
    Tended settings w x m where
  holder := h
  beat hresting := by simp [workerStep, hresting, h]
  renew hrenewing clock := by
    obtain ⟨row, hrenewed⟩ :=
      renew_current settings (Bool.and_eq_true_iff.mp hlive).2 clock
    refine ⟨_, by simp only [workerStep, hrenewing]; rfl, ?_, ?_⟩
    · rw [hrenewed]
    · rw [hrenewed]
      exact ⟨_, AList.lookup_insert _, rfl⟩

/-! ## The invariant -/

/-- Between its claim and the end of its handler, the worker's attempt `m` if it is live: once
the handler runs the holder names it, and a renewal of it that found nothing was sent before
the claim. -/
structure HolderInv (past : List TaskEntry) (p : Worker) (m : Mapped) : Prop where
  holder : p.executor = .executing m → p.holder = some m.id
  missed : p.heartbeat = .answered m.id false → claimedSinceRenewal past = true

/-- A step other than the `UPDATE` of a renewal keeps the invariant, if it keeps holder,
heartbeat and attempt. -/
theorem HolderInv.keep {p p' : Worker} {m' : Mapped} (h : HolderInv past p m)
    (hrenewal : b.isRenewal = false) (hid : m'.id = m.id)
    (hexecutor : p'.executor = .executing m' → p.executor = .executing m)
    (hholder : p'.holder = p.holder) (hheartbeat : p'.heartbeat = p.heartbeat) :
    HolderInv (past ++ [(x, b)]) p' m' where
  holder hrunning := by rw [hholder, hid, h.holder (hexecutor hrunning)]
  missed hanswered := by
    rw [hheartbeat, hid] at hanswered
    rw [claimedSinceRenewal_other hrenewal, h.missed hanswered, Bool.true_or]

/-- A renewal that no claim has overtaken leaves the holder of a live attempt. -/
theorem HolderInv.settle {st : Store} {p : Worker} {jobId : UUID} {renewed : Bool}
    (h : HolderInv past p m) (hlive : live w past st m = true)
    (hok : overtaken w past (st, p) (.own .settle) = false)
    (hrunning : p.executor = .executing m) (hanswered : p.heartbeat = .answered jobId renewed) :
    (if (!renewed && p.holder = some jobId) = true then none else p.holder) = some m.id := by
  have hholder : p.holder = some m.id := h.holder hrunning
  -- it would be cleared by a miss on this job, but then the claim has overtaken it
  have hkeep : (!renewed && p.holder = some jobId) = false := by
    cases renewed with
    | true => rfl
    | false =>
      rw [hholder]
      by_contra hclears
      obtain rfl : m.id = jobId := by simpa using hclears
      rw [overtaken_settle hrunning hanswered, hlive, h.missed hanswered] at hok
      cases hok
  rw [hkeep, if_neg Bool.false_ne_true]
  exact hholder

theorem holderInv_step (hshaped : x.2.executor.Shaped settings)
    (h : ∀ m, x.2.executor.inHand = some m → live w past x.1 m = true → HolderInv past x.2 m)
    (hok : overtaken w past x b = false) (hstep : taskStep settings w x b = some x')
    (hm : x'.2.executor.inHand = some m) (hlive : live w (past ++ [(x, b)]) x'.1 m = true) :
    HolderInv (past ++ [(x, b)]) x'.2 m := by
  obtain ⟨st, p⟩ := x
  obtain ⟨st', p'⟩ := x'
  have hbefore : b.isClaim = false → live w past st m = true := by
    intro hclaim
    rw [live_snoc hclaim] at hlive
    exact (Bool.and_eq_true_iff.mp hlive).1
  cases b with
  | elsewhere st₁ =>
    cases hstep
    exact (h m hm (hbefore rfl)).keep rfl rfl id rfl rfl
  | own c =>
    cases workerMove_of_step hstep with
    | claim _ _ _ _ _ hworker | skip _ _ _ _ hworker =>
      subst hworker
      -- whatever the heartbeat has in hand was sent before this claim
      refine ⟨fun hrunning => (by cases hrunning), fun _ => ?_⟩
      rw [claimedSinceRenewal_other rfl]
      exact Bool.or_true _
    | start hclaimed _ hworker =>
      subst hworker
      cases hm
      have hinv := h m (by rw [hclaimed]; rfl) (hbefore rfl)
      refine ⟨fun _ => rfl, ?_⟩
      intro hanswered
      rw [claimedSinceRenewal_other rfl, hinv.missed hanswered, Bool.true_or]
    | @report pct n hexecuting _ _ hworker =>
      subst hworker
      cases hm
      replace hshaped : p.executor.Shaped settings := hshaped
      rw [hexecuting] at hshaped
      have hattempt : (reportProgress pct n.current).attemptCount = n.loaded.attemptCount := by
        rw [hshaped.2]
        rfl
      have hsame : live w past st { n with current := reportProgress pct n.current }.flushed =
          live w past st n := live_congr rfl hattempt
      have hlive' : live w past st n = true := by
        rw [← hsame]
        exact hbefore rfl
      exact (h n (by rw [hexecuting]; rfl) hlive').keep rfl rfl (fun _ => hexecuting) rfl rfl
    | @finish _ _ n hexecuting _ hworker | @fail _ _ n hexecuting _ hworker =>
      subst hworker
      cases hm
      have hlive' : live w past st n = true := hbefore rfl
      have hinv := h n (by rw [hexecuting]; rfl) hlive'
      exact hinv.keep rfl rfl (fun hrunning => by cases hrunning) rfl rfl
    | beat _ _ _ hworker =>
      subst hworker
      have hinv := h m hm (hbefore rfl)
      exact ⟨hinv.holder, fun hanswered => by cases hanswered⟩
    | rest _ _ _ hworker =>
      subst hworker
      exact (h m hm (hbefore rfl)).keep rfl rfl id rfl rfl
    | renew _ _ hworker =>
      subst hworker
      have hinv := h m hm (hbefore rfl)
      refine ⟨hinv.holder, ?_⟩
      intro hanswered
      -- the row is the worker's, so the `UPDATE` has found it
      simp only [Heartbeat.answered.injEq] at hanswered
      obtain ⟨rfl, hmissed⟩ := hanswered
      obtain ⟨row, hrenewed⟩ := renew_current settings (Bool.and_eq_true_iff.mp (hbefore rfl)).2 _
      rw [hrenewed] at hmissed
      cases hmissed
    | settle hanswered _ hworker =>
      subst hworker
      have hinv := h m hm (hbefore rfl)
      exact ⟨fun hrunning => hinv.settle (hbefore rfl) hok hrunning hanswered,
        fun hanswered' => by cases hanswered'⟩
    | empty hidle _ _ hworker =>
      subst hworker
      replace hm : p'.executor.inHand = some m := hm
      rw [hidle] at hm
      cases hm
    | pop _ _ _ hworker | commit _ _ _ hworker | commitFailed _ _ _ hworker
    | deadLetter _ _ hworker | crash _ hworker =>
      subst hworker
      cases hm

theorem shaped_of_tasks (hrun : Run (taskStep settings w) (st₀, {}) past x) :
    x.2.executor.Shaped settings := by
  refine hrun.invariant (C := fun _ _ => True) (I := fun x => x.2.executor.Shaped settings)
    (by simp) trivial ?_
  intro x b x' h _ hstep
  cases b with
  | elsewhere st =>
    cases hstep
    exact h
  | own c => exact (workerMove_of_step hstep).shaped h

theorem holderInv_of_run (hrun : Run (taskStep settings w) (st₀, {}) past x)
    (hok : Throughout (fun past x b => overtaken w past x b = false) past)
    (hm : x.2.executor.inHand = some m) (hlive : live w past x.1 m = true) :
    HolderInv past x.2 m := by
  refine hrun.induct_past hok (I := fun past x => ∀ m, x.2.executor.inHand = some m →
    live w past x.1 m = true → HolderInv past x.2 m) ?_ ?_ m hm hlive
  · intro m hm
    cases hm
  · intro past x b x' hrun _ h hb hstep m hm hlive
    exact holderInv_step (shaped_of_tasks hrun) h hb hstep hm hlive

/-! ## The guarantee -/

theorem coherent_of_run (hrun : Run (taskStep settings w) (st₀, {}) past x)
    (hok : Throughout (fun past x b => overtaken w past x b = false) past) :
    Coherent settings w past x := by
  intro m hrunning hlive
  have hinv := holderInv_of_run hrun hok (by rw [hrunning]; rfl) hlive
  exact tended_of_holder hlive (hinv.holder hrunning)

/-- A renewal that is overtaken clears the holder of a live attempt. -/
theorem not_coherent_of_overtaken (hstep : taskStep settings w x b = some x')
    (h : overtaken w past x b = true) : ¬ Coherent settings w (past ++ [(x, b)]) x' := by
  obtain ⟨st, p⟩ := x
  unfold overtaken at h
  split at h
  · split at h
    · rename_i m jobId hrunning hanswered
      simp only [Bool.and_eq_true, decide_eq_true_eq] at h
      obtain ⟨⟨rfl, hlive⟩, -⟩ := h
      replace hanswered : p.heartbeat = .answered m.id false := hanswered
      simp only [taskStep, workerStep, hanswered, Option.some.injEq] at hstep
      subst hstep
      intro hcoherent
      have hcurrent : current w m st = true := (Bool.and_eq_true_iff.mp hlive).2
      have hafter : live w (past ++ [((st, p), .own .settle)]) st m = true := by
        rw [live_snoc rfl, hlive, hcurrent]
        rfl
      have hholder := (hcoherent m hrunning hafter).holder
      by_cases hp : p.holder = some m.id
      · simp [hp] at hholder
      · simp [hp] at hholder
    · cases h
  · cases h

/-- In every interleaving of the two tasks of a worker, in a database that others change in
any way, the live attempts are tended in every state if and only if no renewal that found
nothing is overtaken by a claim of the same job. -/
theorem live_attempt_is_tended_iff (hrun : Run (taskStep settings w) (st₀, {}) past x) :
    (∀ before after y, past = before ++ after → Run (taskStep settings w) (st₀, {}) before y →
      Coherent settings w before y) ↔
    Throughout (fun before y b => overtaken w before y b = false) past := by
  constructor
  · rintro h before ⟨y, b⟩ after rfl
    by_contra hovertaken
    obtain ⟨t, hbefore, hstep, -⟩ := hrun.split
    refine not_coherent_of_overtaken hstep (Bool.eq_true_of_not_eq_false hovertaken) ?_
    exact h _ after t (by simp) (hbefore.snoc hstep)
  · rintro hok before after y rfl hbefore
    exact coherent_of_run hbefore hok.prefix

/-- Job 1 is ready and queued, after `attempts` attempts. -/
def queuedStore (attempts : Nat) : Store where
  jobs := (∅ : Jobs).insert 1 { newJob {} webhookRequest none 0 with attemptCount := attempts }
  redis := (({} : Redis).enqueue 1 0).1

/-- The job is claimed for its second attempt after the heartbeat has let go of the first. -/
theorem live_attempt_is_tended_iff_twice :
    ∃ past x m, Run (taskStep {} "w1") ({}, {}) past x ∧ x.2.executor = .executing m ∧
      m.loaded.attemptCount = 2 ∧ x.2.holder = some m.id := by
  obtain ⟨past, x, hrun, _, hcheck⟩ := run_of_check (taskStep {} "w1") ({}, {})
    [.elsewhere (queuedStore 0), .own .dequeue, .own (.claim 0 0), .own .start, .own .beat,
      .own (.fail .timeout 0), .own .commit, .own (.renew 0), .own .settle,
      .elsewhere (queuedStore 1), .own .dequeue, .own (.claim 0 0), .own .start]
    (fun past x => throughout (fun past x b => !overtaken "w1" past x b) [] past &&
      x.2.executor.inHand.any fun m => x.2.executor = .executing m &&
        live "w1" past x.1 m && m.loaded.attemptCount = 2) (by decide +kernel)
  obtain ⟨hok, hrunning⟩ := Bool.and_eq_true_iff.mp hcheck
  obtain ⟨m, _, hrunning⟩ := (Option.any_eq_true _ _).mp hrunning
  simp only [Bool.and_eq_true, decide_eq_true_eq] at hrunning
  obtain ⟨⟨hexecuting, hlive⟩, hattempt⟩ := hrunning
  have hall := (live_attempt_is_tended_iff hrun).mpr fun before e after heq => by
    simpa using throughout_of_check hok before e after heq
  have hcoherent := hall past [] x (by simp) hrun
  exact ⟨past, x, m, hrun, hexecuting, hattempt, (hcoherent m hexecuting hlive).holder⟩

/-- In a run of the whole system `w1` fails job 1 while a renewal of it is under way; the
`UPDATE` of the renewal finds the job given up, and before the heartbeat task resumes `w1`
has claimed the job again. The handler runs without a heartbeat. -/
theorem overtaken_renewal_clears_holder :
    ∃ tr s m row, Run (step {}) (State.initial 0) tr s ∧
      (s.workers "w1").executor = .executing m ∧ s.row m.id = some row ∧
      OwnedBy "w1" m.loaded.attemptCount row ∧ (s.workers "w1").holder = none ∧
      Run (taskStep {} "w1") ((State.initial 0).store, {}) (tasks {} "w1" tr)
        (s.store, s.workers "w1") ∧
      ¬ Coherent {} "w1" (tasks {} "w1" tr) (s.store, s.workers "w1") := by
  obtain ⟨tr, s, hrun, _, hcheck⟩ := run_of_check (step {}) (State.initial 0)
    [.api 0 (.submit webhookRequest none), .api 0 (.insert 1), .api 0 .commit, .api 0 .command,
      .worker "w1" .dequeue, .worker "w1" (.claim 0 0), .worker "w1" .start,
      .worker "w1" .beat, .worker "w1" (.fail .timeout 0), .worker "w1" .commit,
      .worker "w1" (.renew 0), .tick 30000000, .maintenance (.feederSelect 10 [1]),
      .maintenance .feederPush, .worker "w1" .dequeue,
      .worker "w1" (.claim 30000000 30000000), .worker "w1" .start, .worker "w1" .settle]
    (fun _ s => decide ((s.workers "w1").holder = none) &&
      (s.workers "w1").executor.inHand.any fun m =>
        (s.workers "w1").executor = .executing m && current "w1" m s.store) (by decide +kernel)
  obtain ⟨hholder, hrunning⟩ := Bool.and_eq_true_iff.mp hcheck
  rw [decide_eq_true_eq] at hholder
  obtain ⟨m, hinHand, hrunning⟩ := (Option.any_eq_true _ _).mp hrunning
  simp only [Bool.and_eq_true, decide_eq_true_eq] at hrunning
  obtain ⟨hexecuting, hcurrent⟩ := hrunning
  obtain ⟨row, hrow, howned⟩ := current_iff.mp hcurrent
  refine ⟨tr, s, m, row, hrun, hexecuting, hrow, howned, hholder, tasks_run "w1" hrun, ?_⟩
  intro hcoherent
  have hlive := live_of_run (State.quiet_initial 0) hrun hinHand hcurrent
  have htended := (hcoherent m hexecuting hlive).holder
  rw [hholder] at htended
  cases htended

/-! ## In the whole system -/

/-- In a run of the whole system in which no renewal of a worker is overtaken, the heartbeat
tends every handler of the worker whose row is that of its attempt. -/
theorem owned_attempt_is_tended (hquiet : s₀.Quiet) (hrun : Run (step settings) s₀ tr s)
    (hok : Throughout (fun past x b => overtaken w past x b = false) (tasks settings w tr))
    (hexecuting : (s.workers w).executor = .executing m) (h : current w m s.store = true) :
    Tended settings w (s.store, s.workers w) m := by
  have htasks := tasks_run w hrun
  rw [hquiet.workers w] at htasks
  have hlive := live_of_run hquiet hrun (inHand_of_executing hexecuting) h
  exact coherent_of_run htasks hok m hexecuting hlive

end JobQueue
