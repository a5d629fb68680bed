import JobQueue.System.Attempts
import Mathlib.Data.ENat.Lattice

/-!
# The retry contract

A pending job that has not been tried is claimed until its handler succeeds or its attempts
are used up, with the backoff between a failure and the next claim. `Phase` says how far the
attempts have come; it is kept by every step that does not disturb the job (`phase_step`),
and the contract is read off from it (`retry_contract`).
-/

namespace JobQueue

open Relational Transition

variable {settings : Settings} {s s' s₀ s₁ : State} {a : Action}
  {tr before : List (State × Action)} {j : UUID} {row row' row₀ : Job}

/-! ## Handler outcomes -/

/-- How the handler of an attempt ends. -/
inductive Outcome
  | success
  | failure (raised : Raised)
  deriving DecidableEq

/-- The index of the first success, from 1 on; infinite if there is none. -/
noncomputable def firstSuccess (outcome : Nat → Outcome) : ℕ∞ :=
  ⨅ i ∈ {i : Nat | 1 ≤ i ∧ outcome i = .success}, (i : ℕ∞)

section

variable {outcome : Nat → Outcome} {n : Nat}

theorem le_firstSuccess_iff : (n : ℕ∞) ≤ firstSuccess outcome ↔
    ∀ i, 1 ≤ i → i < n → outcome i ≠ .success := by
  unfold firstSuccess
  rw [le_iInf₂_iff]
  constructor
  · intro h i hi hlt hsuccess
    have : n ≤ i := by exact_mod_cast h i ⟨hi, hsuccess⟩
    omega
  · rintro h i ⟨hi, hsuccess⟩
    have : n ≤ i := by
      by_contra hlt
      exact h i hi (by omega) hsuccess
    exact_mod_cast this

theorem one_le_firstSuccess (outcome : Nat → Outcome) : ((1 : Nat) : ℕ∞) ≤ firstSuccess outcome := by
  refine le_firstSuccess_iff.mpr ?_
  intro i hi hlt
  omega

theorem firstSuccess_eq (h : (n : ℕ∞) ≤ firstSuccess outcome) (hpos : 1 ≤ n)
    (hsuccess : outcome n = .success) : firstSuccess outcome = n :=
  le_antisymm (iInf₂_le n ⟨hpos, hsuccess⟩) h

theorem lt_firstSuccess {raised : Raised} (h : (n : ℕ∞) ≤ firstSuccess outcome)
    (hfailure : outcome n = .failure raised) : (n : ℕ∞) < firstSuccess outcome := by
  rw [← ENat.natCast_add_one_le_iff]
  have hnext : ((n + 1 : Nat) : ℕ∞) ≤ firstSuccess outcome := by
    refine le_firstSuccess_iff.mpr ?_
    intro i hi hlt
    rcases Nat.lt_succ_iff_lt_or_eq.mp hlt with hlt | rfl
    · exact le_firstSuccess_iff.mp h i hi hlt
    · simp [hfailure]
  exact_mod_cast hnext

end

/-- The handler of attempt `i` at job `j` ends as `outcome i`, and `apply_failure` reads the
database's time. -/
def follows (outcome : Nat → Outcome) (j : UUID) (s : State) : Action → Bool
  | .worker w (.finish _ _) =>
      match (s.workers w).executor with
      | .executing m => m.id = j → outcome m.loaded.attemptCount = .success
      | _ => true
  | .worker w (.fail raised clock) =>
      match (s.workers w).executor with
      | .executing m =>
          m.id = j → outcome m.loaded.attemptCount = .failure raised ∧ clock = s.store.now
      | _ => true
  | _ => true

/-! ## A failed attempt -/

section

variable {raised : Raised} {job : Job}

theorem apply_of_left (settings : Settings) (clock : Timestamp) (hpermanent : raised.permanent = false)
    (hleft : job.attemptCount < job.maxAttempts) :
    (raised.apply settings clock job).status = .pending ∧
      (raised.apply settings clock job).nextRunAt =
        some (clock + backoffSeconds settings job.attemptCount) := by
  have hretries : retries raised.permanent job = true := by
    simp [retries, shouldRetry, hpermanent, hleft]
  unfold Raised.apply applyFailure
  rw [if_pos hretries]
  exact ⟨rfl, rfl⟩

theorem apply_of_none_left (settings : Settings) (clock : Timestamp) (raised : Raised)
    (hleft : ¬ job.attemptCount < job.maxAttempts) :
    (raised.apply settings clock job).status = .failed := by
  have hretries : ¬ retries raised.permanent job = true := by
    simp [retries, shouldRetry, hleft]
  unfold Raised.apply applyFailure
  rw [if_neg hretries]
  rfl

/-- The flush of an attempt in hand always writes its next run. -/
theorem Holds.flush_nextRunAt {w : WorkerId} {m : Mapped} (h : Holds w m row) :
    (m.flush row).nextRunAt = m.current.nextRunAt := by
  obtain ⟨lease, key, rfl⟩ := h.same
  exact written_fresh _ _

theorem Holds.row_limit {w : WorkerId} {m : Mapped} (h : Holds w m row) :
    row.maxAttempts = m.loaded.maxAttempts := by
  obtain ⟨lease, key, rfl⟩ := h.same
  rfl

end

/-! ## Phases of a job -/

/-- How far the attempts at a job have come, where `n` claims have won: its row is `row`,
the attempts `failures` are those numbered `n` that failed, and the job has been pushed
`pushes` times. -/
inductive Phase (settings : Settings) (outcome : Nat → Outcome) (j : UUID) (s : State)
    (row : Job) (n : Nat) : (failures : List (State × Action)) → (pushes : Nat) → Prop
  | waiting {failures} (hstatus : row.status = .pending) (hfree : ∀ w, s.engaged w ≠ some j)
      (hleft : n < row.maxAttempts) (hfirst : (n : ℕ∞) < firstSuccess outcome)
      (hdue : 1 ≤ n → ∃ f, failures = [f] ∧
        row.nextRunAt = some (f.1.store.now + backoffSeconds settings n)) :
      Phase settings outcome j s row n failures 0
  | running {w m} (hexecutor : (s.workers w).executor = .claimed m ∨
        (s.workers w).executor = .executing m) (hid : m.id = j) (hholds : Holds w m row)
      (hfree : ∀ v, s.engaged v = some j → v = w) (hpos : 1 ≤ n) (hleft : n ≤ row.maxAttempts)
      (hfirst : (n : ℕ∞) ≤ firstSuccess outcome) : Phase settings outcome j s row n [] 0
  | completing {w m clock result} (hexecutor : (s.workers w).executor = .finalising m)
      (hid : m.id = j) (hholds : Holds w m row)
      (hcurrent : m.current = completeJob clock result m.loaded)
      (hfree : ∀ v, s.engaged v = some j → v = w) (hleft : n ≤ row.maxAttempts)
      (hfirst : firstSuccess outcome = n) : Phase settings outcome j s row n [] 0
  | failing {w m} {raised : Raised} {f} (hexecutor : (s.workers w).executor = .finalising m)
      (hid : m.id = j) (hholds : Holds w m row) (hpermanent : raised.permanent = false)
      (hcurrent : m.current = raised.apply settings f.1.store.now m.loaded)
      (hfree : ∀ v, s.engaged v = some j → v = w) (hpos : 1 ≤ n) (hleft : n ≤ row.maxAttempts)
      (hfirst : (n : ℕ∞) < firstSuccess outcome) : Phase settings outcome j s row n [f] 0
  | completed (hstatus : row.status = .completed) (hfree : ∀ w, s.engaged w ≠ some j)
      (hleft : n ≤ row.maxAttempts) (hfirst : firstSuccess outcome = n) :
      Phase settings outcome j s row n [] 0
  | burying {w failures} (hstatus : row.status = .failed)
      (hexecutor : (s.workers w).executor = .deadLettering j)
      (hfree : ∀ v, s.engaged v = some j → v = w) (hleft : n = row.maxAttempts)
      (hfirst : (n : ℕ∞) < firstSuccess outcome) : Phase settings outcome j s row n failures 0
  | buried {failures} (hstatus : row.status = .failed) (hfree : ∀ w, s.engaged w ≠ some j)
      (hleft : n = row.maxAttempts) (hfirst : (n : ℕ∞) < firstSuccess outcome) :
      Phase settings outcome j s row n failures 1

namespace Phase

variable {outcome : Nat → Outcome} {n : Nat} {failures : List (State × Action)} {pushes : Nat}

theorem not_scheduled (h : Phase settings outcome j s row n failures pushes) :
    row.status ≠ .scheduled := by
  cases h with
  | waiting hstatus | completed hstatus | burying hstatus | buried hstatus => simp [hstatus]
  | running _ _ hholds | completing _ _ hholds | failing _ _ hholds => simp [hholds.row_status]

/-- A step aside of the job keeps its phase. -/
theorem aside (h : Phase settings outcome j s row n failures pushes) (haside : Aside j s s')
    (hrow : row'.Resembles row) : Phase settings outcome j s' row' n failures pushes := by
  have hnone : (∀ w, s.engaged w ≠ some j) → ∀ w, s'.engaged w ≠ some j := fun hfree w h =>
    hfree w (haside.engaged w h)
  have hone : ∀ w, (∀ v, s.engaged v = some j → v = w) → ∀ v, s'.engaged v = some j → v = w :=
    fun w hfree v h => hfree v (haside.engaged v h)
  have hsame : ∀ w, s.engaged w = some j → (s'.workers w).executor = (s.workers w).executor :=
    haside.executor
  have hheld : ∀ w m, Holds w m row → Holds w m row' := fun w m h => h.resembles hrow
  obtain ⟨lease, key, rfl⟩ := hrow
  cases h with
  | waiting hstatus hfree hleft hfirst hdue => exact .waiting hstatus (hnone hfree) hleft hfirst hdue
  | @running w m hexecutor hid hholds hfree hpos hleft hfirst =>
    refine .running ?_ hid (hheld _ _ hholds) (hone w hfree) hpos hleft hfirst
    rw [hsame w]
    · exact hexecutor
    · rcases hexecutor with h | h <;> simp [State.engaged, h, Executor.engaged, hid]
  | @completing w m _ _ hexecutor hid hholds hcurrent hfree hleft hfirst =>
    refine .completing ?_ hid (hheld _ _ hholds) hcurrent (hone w hfree) hleft hfirst
    rw [hsame w (by simp [State.engaged, hexecutor, Executor.engaged, hid]), hexecutor]
  | @failing w m _ _ hexecutor hid hholds hpermanent hcurrent hfree hpos hleft hfirst =>
    refine .failing ?_ hid (hheld _ _ hholds) hpermanent hcurrent (hone w hfree) hpos hleft hfirst
    rw [hsame w (by simp [State.engaged, hexecutor, Executor.engaged, hid]), hexecutor]
  | completed hstatus hfree hleft hfirst => exact .completed hstatus (hnone hfree) hleft hfirst
  | @burying w _ hstatus hexecutor hfree hleft hfirst =>
    refine .burying (w := w) hstatus ?_ (hone w hfree) hleft hfirst
    rw [hsame w (by simp [State.engaged, hexecutor, Executor.engaged]), hexecutor]
  | buried hstatus hfree hleft hfirst => exact .buried hstatus (hnone hfree) hleft hfirst

/-- A claim wins a job only while it waits. -/
theorem claim (h : Phase settings outcome j s row n failures pushes)
    (hstep : step settings s a = some s') (hclaims : claims j (s, a) = true)
    (hrow : s.row j = some row) : pushes = 0 ∧
      (1 ≤ n → ∃ f, failures = [f] ∧ f.1.store.now + backoffSeconds settings n ≤ s.store.now) ∧
      ∃ row', s'.row j = some row' ∧ row'.maxAttempts = row.maxAttempts ∧
        row'.attemptCount = row.attemptCount + 1 ∧
        Phase settings outcome j s' row' (n + 1) [] 0 := by
  obtain ⟨w, began, clock, row₁, rfl, hrow₁, hready, hbegan, hrow', hclaimed⟩ :=
    claims_row hstep hclaims
  rw [hrow] at hrow₁
  cases hrow₁
  rw [Job.ready_iff] at hready
  cases h with
  | waiting hstatus hfree hleft hfirst hdue =>
    refine ⟨rfl, ?_, _, hrow', rfl, rfl, ?_⟩
    · intro hpos
      obtain ⟨f, hf, hnext⟩ := hdue hpos
      exact ⟨f, hf, (hready.2 _ hnext).trans hbegan⟩
    · refine .running (Or.inl hclaimed) rfl ⟨rfl, rfl, _, _, rfl⟩ ?_ (by omega) hleft ?_
      · intro v hv
        rcases engaged_step hstep hv with hbefore | ⟨_, began', clock', heq⟩
        · exact absurd hbefore (hfree v)
        · cases heq
          rfl
      · exact_mod_cast ENat.natCast_add_one_le_iff.mpr hfirst
  | running _ _ hholds | completing _ _ hholds | failing _ _ hholds =>
    simp [hholds.row_status] at hready
  | completed hstatus | burying hstatus | buried hstatus => simp [hstatus] at hready

end Phase

/-! ## A step on the job -/

/-- A step of worker `w` on job `j`, with which it is engaged. -/
structure Attended (settings : Settings) (j : UUID) (s s' : State) (w : WorkerId)
    (b : WorkerAction) (row row' : Job) : Prop where
  step : step settings s (.worker w b) = some s'
  engaged : s.engaged w = some j
  turn : Turn settings s.store (s.workers w).executor b s'.store (s'.workers w).executor
  still : ∀ v, s'.engaged v = some j → s.engaged v = some j
  before : s.row j = some row
  after : s'.row j = some row'
  limit : row'.maxAttempts = row.maxAttempts

theorem attended_of_step (hstep : step settings s a = some s') (hattends : attends j (s, a) = true)
    (hclaims : claims j (s, a) = false) (hrow : s.row j = some row) (hrow' : s'.row j = some row')
    (hmax : row'.maxAttempts = row.maxAttempts) :
    ∃ w b, a = .worker w b ∧ Attended settings j s s' w b row row' := by
  obtain ⟨w, b, rfl, hengaged, hturn⟩ := attends_turn hstep hattends
  refine ⟨w, b, rfl, hstep, hengaged, hturn, ?_, hrow, hrow', hmax⟩
  intro v hv
  rcases engaged_step hstep hv with hbefore | ⟨hclaim, _⟩
  · exact hbefore
  · rw [hclaims] at hclaim
    cases hclaim

namespace Attended

variable {w : WorkerId} {b : WorkerAction} {m : Mapped}

theorem row_eq (h : Attended settings j s s' w b row row')
    (hjobs : s'.store.jobs = s.store.jobs) : row' = row := by
  have hafter := h.after
  rw [State.row, hjobs] at hafter
  exact Option.some.inj (hafter.symm.trans h.before)

theorem alone (h : Attended settings j s s' w b row row')
    (hfree : ∀ v, s.engaged v = some j → v = w) : ∀ v, s'.engaged v = some j → v = w :=
  fun v hv => hfree v (h.still v hv)

theorem released (h : Attended settings j s s' w b row row')
    (hfree : ∀ v, s.engaged v = some j → v = w) (hidle : (s'.workers w).executor = .idle) :
    ∀ v, s'.engaged v ≠ some j := by
  intro v hv
  rw [h.alone hfree v hv, State.engaged, hidle] at hv
  cases hv

/-- The one step on an attempt that is to be finalised is its commit. -/
theorem finalised (h : Attended settings j s s' w b row row')
    (hfinalising : (s.workers w).executor = .finalising m) (hid : m.id = j) :
    b = .commit ∧ row' = m.flush row ∧ (s'.workers w).executor =
      if m.current.status = .failed then .deadLettering m.id else .idle := by
  have hturn := h.turn
  generalize (s'.workers w).executor = executor' at hturn
  generalize s'.store = store' at hturn
  rw [hfinalising] at hturn
  cases hturn with
  | commit =>
    have hflush := finalise_row h.step hfinalising
    rw [hid, h.after, h.before] at hflush
    exact ⟨rfl, Option.some.inj hflush, rfl⟩

end Attended

namespace Phase

variable {outcome : Nat → Outcome} {n : Nat} {failures : List (State × Action)} {pushes : Nat}
  {w : WorkerId} {b : WorkerAction} {m : Mapped}

/-- The handler reports, or comes to its outcome. -/
theorem attend_executing (h : Attended settings j s s' w b row row')
    (hshaped : s.Shaped settings)
    (houtcome : ∀ i raised, outcome i = .failure raised → raised.permanent = false)
    (hfollows : follows outcome j s (.worker w b) = true) (hattempt : row.attemptCount = n)
    (hexecuting : (s.workers w).executor = .executing m) (hid : m.id = j) (hholds : Holds w m row)
    (hfree : ∀ v, s.engaged v = some j → v = w) (hpos : 1 ≤ n) (hleft : n ≤ row.maxAttempts)
    (hfirst : (n : ℕ∞) ≤ firstSuccess outcome) :
    Phase settings outcome j s' row' n
      (if fails j n (s, .worker w b) then [(s, .worker w b)] else [])
      (if buries j (s, .worker w b) then 1 else 0) := by
  have hloaded : m.loaded.attemptCount = n := hholds.row_attempt.symm.trans hattempt
  have hcurrent : m.current = m.loaded := by
    have hshape := hshaped.executor w
    rw [hexecuting] at hshape
    exact hshape.2
  have hturn := h.turn
  generalize hexecutor' : (s'.workers w).executor = executor' at hturn
  generalize hstore' : s'.store = store' at hturn
  rw [hexecuting] at hturn
  cases hturn with
  | report _ pct =>
    have hreport := report_row h.step hexecuting
    rw [hid, h.after, h.before] at hreport
    cases hreport
    exact .running (Or.inr hexecutor') hid (holds_report pct hcurrent hholds) (h.alone hfree) hpos
      (h.limit ▸ hleft) hfirst
  | finish _ result clock =>
    cases h.row_eq (by rw [hstore'])
    simp only [follows, hexecuting, hid, hloaded, decide_eq_true_eq, forall_const] at hfollows
    exact .completing hexecutor' hid ⟨hholds.status, hholds.worker, hholds.same⟩
      (by rw [hcurrent]) (h.alone hfree) hleft (firstSuccess_eq hfirst hpos hfollows)
  | fail _ raised clock =>
    cases h.row_eq (by rw [hstore'])
    simp only [follows, hexecuting, hid, hloaded, decide_eq_true_eq, forall_const] at hfollows
    obtain ⟨hfailure, rfl⟩ := hfollows
    have hfails : fails j n (s, .worker w (.fail raised s.store.now)) = true :=
      fails_iff.mpr ⟨w, raised, _, m, rfl, hexecuting, hid, hloaded⟩
    rw [if_pos hfails]
    exact .failing hexecutor' hid ⟨hholds.status, hholds.worker, hholds.same⟩
      (houtcome n raised hfailure) (by rw [hcurrent]) (h.alone hfree) hpos hleft
      (lt_firstSuccess hfirst hfailure)

/-- The commit of a failed attempt: with attempts left the job waits for the backoff, and
otherwise it is to be pushed. -/
theorem attend_failing {raised : Raised} {f : State × Action}
    (h : Attended settings j s s' w b row row') (hshaped : s.Shaped settings)
    (hattempt : row.attemptCount = n) (hfinalising : (s.workers w).executor = .finalising m)
    (hid : m.id = j) (hholds : Holds w m row) (hpermanent : raised.permanent = false)
    (hcurrent : m.current = raised.apply settings f.1.store.now m.loaded)
    (hfree : ∀ v, s.engaged v = some j → v = w) (hleft : n ≤ row.maxAttempts)
    (hfirst : (n : ℕ∞) < firstSuccess outcome) : Phase settings outcome j s' row' n [f] 0 := by
  obtain ⟨_, hflush, hexecutor'⟩ := h.finalised hfinalising hid
  have hlimit := h.limit
  subst hflush
  have hstatus := finalising_flush_status hshaped hfinalising row
  have hloaded : m.loaded.attemptCount = n := hholds.row_attempt.symm.trans hattempt
  have hloadedLimit := hholds.row_limit
  by_cases hmore : m.loaded.attemptCount < m.loaded.maxAttempts
  · obtain ⟨hpending, hnext⟩ := apply_of_left settings f.1.store.now hpermanent hmore
    rw [← hcurrent] at hpending hnext
    rw [if_neg (by simp [hpending])] at hexecutor'
    refine .waiting (hstatus.trans hpending) (h.released hfree hexecutor') (by omega) hfirst ?_
    intro _
    exact ⟨f, rfl, by rw [hholds.flush_nextRunAt, hnext, hloaded]⟩
  · have hfailed := apply_of_none_left settings f.1.store.now raised hmore
    rw [← hcurrent] at hfailed
    rw [if_pos hfailed, hid] at hexecutor'
    exact .burying (hstatus.trans hfailed) hexecutor' (h.alone hfree) (by omega) hfirst

/-- A step of the executor engaged with the job moves it to the next phase. -/
theorem attend (hphase : Phase settings outcome j s row n failures pushes)
    (h : Attended settings j s s' w b row row') (hshaped : s.Shaped settings)
    (houtcome : ∀ i raised, outcome i = .failure raised → raised.permanent = false)
    (hfollows : follows outcome j s (.worker w b) = true) (hattempt : row.attemptCount = n) :
    Phase settings outcome j s' row' n
      (failures ++ if fails j n (s, .worker w b) then [(s, .worker w b)] else [])
      (pushes + if buries j (s, .worker w b) then 1 else 0) := by
  cases hphase with
  | waiting _ hfree | completed _ hfree | buried _ hfree => exact absurd h.engaged (hfree w)
  | running hexecutor hid hholds hfree hpos hleft hfirst =>
    cases hfree w h.engaged
    rw [List.nil_append, zero_add]
    rcases hexecutor with hclaimed | hexecuting
    · have hturn := h.turn
      generalize hexecutor' : (s'.workers w).executor = executor' at hturn
      generalize hstore' : s'.store = store' at hturn
      rw [hclaimed] at hturn
      cases hturn with
      | start =>
        cases h.row_eq (by rw [hstore'])
        exact .running (Or.inr hexecutor') hid hholds (h.alone hfree) hpos hleft hfirst
    · exact attend_executing h hshaped houtcome hfollows hattempt hexecuting hid hholds hfree hpos
        hleft hfirst
  | @completing _ m clock result hexecutor hid hholds hcurrent hfree hleft hfirst =>
    cases hfree w h.engaged
    obtain ⟨rfl, hflush, hexecutor'⟩ := h.finalised hexecutor hid
    have hlimit := h.limit
    subst hflush
    have hstatus : m.current.status = .completed := by rw [hcurrent]; rfl
    rw [if_neg (by simp [hstatus])] at hexecutor'
    exact .completed ((finalising_flush_status hshaped hexecutor row).trans hstatus)
      (h.released hfree hexecutor') (hlimit ▸ hleft) hfirst
  | failing hexecutor hid hholds hpermanent hcurrent hfree _ hleft hfirst =>
    cases hfree w h.engaged
    obtain ⟨rfl, _⟩ := h.finalised hexecutor hid
    exact attend_failing h hshaped hattempt hexecutor hid hholds hpermanent hcurrent hfree hleft
      hfirst
  | burying hstatus hexecutor hfree hleft hfirst =>
    cases hfree w h.engaged
    have hturn := h.turn
    generalize hexecutor' : (s'.workers w).executor = executor' at hturn
    generalize hstore' : s'.store = store' at hturn
    rw [hexecutor] at hturn
    cases hturn with
    | deadLetter =>
      cases h.row_eq (by rw [hstore'])
      have hburies : buries j (s, .worker w .deadLetter) = true :=
        buries_iff.mpr ⟨w, rfl, hexecutor⟩
      rw [if_pos hburies, zero_add]
      simp only [fails, Bool.false_eq_true, if_false, List.append_nil]
      exact .buried hstatus (h.released hfree hexecutor') hleft hfirst

/-- The handler runs in no phase but that of its attempt. -/
theorem executing (h : Phase settings outcome j s row n failures pushes) {w : WorkerId}
    {m : Mapped} (hexecuting : (s.workers w).executor = .executing m) (hid : m.id = j) :
    m.loaded.attemptCount = row.attemptCount := by
  have hengaged : s.engaged w = some j := by
    simp [State.engaged, hexecuting, Executor.engaged, hid]
  cases h with
  | waiting _ hfree | completed _ hfree | buried _ hfree => exact absurd hengaged (hfree w)
  | running hexecutor _ hholds hfree =>
    rcases hexecutor with hother | hother
    · rw [← hfree w hengaged, hexecuting] at hother
      cases hother
    · rw [← hfree w hengaged, hexecuting] at hother
      cases hother
      exact hholds.row_attempt.symm
  | completing hexecutor _ _ _ hfree | failing hexecutor _ _ _ _ hfree
  | burying _ hexecutor hfree =>
    rw [← hfree w hengaged, hexecuting] at hexecutor
    cases hexecutor

theorem bounded (h : Phase settings outcome j s row n failures pushes) :
    (n : ℕ∞) ≤ min (firstSuccess outcome) row.maxAttempts := by
  have hcast : ∀ k : Nat, n ≤ k → (n : ℕ∞) ≤ k := fun k hk => by exact_mod_cast hk
  cases h with
  | waiting _ _ hleft hfirst => exact le_min hfirst.le (hcast _ hleft.le)
  | running _ _ _ _ _ hleft hfirst => exact le_min hfirst (hcast _ hleft)
  | completing _ _ _ _ _ hleft hfirst | completed _ _ hleft hfirst =>
    exact le_min hfirst.ge (hcast _ hleft)
  | failing _ _ _ _ _ _ _ hleft hfirst => exact le_min hfirst.le (hcast _ hleft)
  | burying _ _ _ hleft hfirst | buried _ _ hleft hfirst =>
    exact le_min hfirst.le (hcast _ hleft.le)

/-- A job that has been claimed as often as it can be and is not processing is completed or
failed. -/
theorem finalised (h : Phase settings outcome j s row n failures pushes)
    (hn : (n : ℕ∞) = min (firstSuccess outcome) row.maxAttempts)
    (hstatus : row.status ≠ .processing) :
    (firstSuccess outcome ≤ row.maxAttempts → row.status = .completed) ∧
      (row.maxAttempts < firstSuccess outcome → row.status = .failed) := by
  cases h with
  | waiting _ _ hleft hfirst =>
    have hlt : (n : ℕ∞) < min (firstSuccess outcome) row.maxAttempts :=
      lt_min hfirst (by exact_mod_cast hleft)
    exact absurd hn hlt.ne
  | running _ _ hholds | completing _ _ hholds | failing _ _ hholds =>
    exact absurd hholds.row_status hstatus
  | completed hcompleted _ hleft hfirst =>
    refine ⟨fun _ => hcompleted, fun hlt => ?_⟩
    rw [hfirst] at hlt
    have : row.maxAttempts < n := by exact_mod_cast hlt
    omega
  | burying hfailed _ _ hleft hfirst | buried hfailed _ hleft hfirst =>
    refine ⟨fun hle => ?_, fun _ => hfailed⟩
    rw [← hleft] at hle
    exact absurd hle (not_le.mpr hfirst)

theorem pushed (h : Phase settings outcome j s row n failures pushes) :
    (row.status ≠ .failed → pushes = 0) ∧ (row.status = .failed →
      (pushes = 1 ∧ ∀ w, (s.workers w).executor ≠ .deadLettering j) ∨
      (pushes = 0 ∧ ∃ w, (s.workers w).executor = .deadLettering j)) := by
  cases h with
  | waiting hstatus | completed hstatus => simp [hstatus]
  | running _ _ hholds | completing _ _ hholds | failing _ _ hholds => simp [hholds.row_status]
  | @burying w _ hstatus hexecutor =>
    refine ⟨fun hne => absurd hstatus hne, fun _ => Or.inr ⟨rfl, w, hexecutor⟩⟩
  | buried hstatus hfree =>
    refine ⟨fun hne => absurd hstatus hne, fun _ => Or.inl ⟨rfl, ?_⟩⟩
    intro w hexecutor
    exact hfree w (by simp [State.engaged, hexecutor, Executor.engaged])

end Phase

/-! ## The phase along a run -/

/-- Nobody has tried the job yet. -/
structure Untried (settings : Settings) (j : UUID) (s : State) (row : Job) : Prop where
  shaped : s.Shaped settings
  found : s.row j = some row
  pending : row.status = .pending
  attempts : row.attemptCount = 0
  limit : 1 ≤ row.maxAttempts
  free : ∀ w, s.engaged w ≠ some j

/-- A pending job without attempts is untried in every state the system can reach. -/
theorem untried_of_run (hquiet : s₁.Quiet) (hbefore : Run (step settings) s₁ before s₀)
    (hrow : s₀.row j = some row₀) (hpending : row₀.status = .pending)
    (hattempts : row₀.attemptCount = 0) (hlimit : 1 ≤ row₀.maxAttempts) :
    Untried settings j s₀ row₀ := by
  refine ⟨shaped_of_run hquiet hbefore, hrow, hpending, hattempts, hlimit, ?_⟩
  intro w hengaged
  have hfree : ∀ v, s₁.engaged v ≠ some j := fun v => by simp [hquiet.engaged v]
  obtain ⟨e, he, hclaims⟩ := claims_of_engaged hbefore hfree hengaged
  have hcount := attempts_of_run hquiet hbefore j
  rw [State.attempts_of_row hrow, hattempts] at hcount
  have hpos : 0 < before.countP (claims j) := List.countP_pos_iff.mpr ⟨e, he, hclaims⟩
  omega

/-- The phase and the counters after the history `tr`, for a job with the limit `limit`. -/
structure Tracked (settings : Settings) (outcome : Nat → Outcome) (limit : Nat) (j : UUID)
    (tr : List (State × Action)) (s : State) (row : Job) : Prop where
  shaped : s.Shaped settings
  found : s.row j = some row
  limit : row.maxAttempts = limit
  attempts : row.attemptCount = tr.countP (claims j)
  phase : Phase settings outcome j s row (tr.countP (claims j))
    (tr.filter (fails j (tr.countP (claims j)))) (tr.countP (buries j))
  late : ∀ e ∈ tr, ∀ i, fails j i e = true → i ≤ tr.countP (claims j)

variable {outcome : Nat → Outcome} {limit : Nat}

theorem Untried.tracked (h : Untried settings j s₀ row₀) :
    Tracked settings outcome row₀.maxAttempts j [] s₀ row₀ where
  shaped := h.shaped
  found := h.found
  limit := rfl
  attempts := h.attempts
  phase := by
    refine .waiting h.pending h.free h.limit ?_ (by simp)
    exact lt_of_lt_of_le (by simp) (one_le_firstSuccess outcome)
  late := by simp

namespace Tracked

/-- No attempt fails before it is claimed. -/
theorem late_snoc (h : Tracked settings outcome limit j tr s row) :
    ∀ e ∈ tr ++ [(s, a)], ∀ i, fails j i e = true → i ≤ tr.countP (claims j) := by
  intro e he i hfails
  rcases List.mem_append.mp he with he | he
  · exact h.late e he i hfails
  · rw [List.mem_singleton.mp he] at hfails
    obtain ⟨w, raised, clock, m, rfl, hexecuting, hid, rfl⟩ := fails_iff.mp hfails
    rw [h.phase.executing hexecuting hid, h.attempts]

/-- A claim of the job. -/
theorem claimed (h : Tracked settings outcome limit j tr s row)
    (hclaims : claims j (s, a) = true) (hstep : step settings s a = some s') :
    ∃ row', Tracked settings outcome limit j (tr ++ [(s, a)]) s' row' := by
  have hcount : (tr ++ [(s, a)]).countP (claims j) = tr.countP (claims j) + 1 := by
    rw [List.countP_append, List.countP_singleton, if_pos hclaims]
  have hburied : (tr ++ [(s, a)]).countP (buries j) = tr.countP (buries j) := by
    obtain ⟨_, _, _, _, rfl, _⟩ := claims_iff.mp hclaims
    rw [List.countP_append, List.countP_singleton]
    rfl
  have hnew : (tr ++ [(s, a)]).filter (fails j (tr.countP (claims j) + 1)) = [] := by
    rw [List.filter_eq_nil_iff]
    intro e he hfails
    have hle := h.late_snoc e he _ hfails
    omega
  obtain ⟨hnone, _, row', hrow', hmax, hattempt, hphase⟩ := h.phase.claim hstep hclaims h.found
  refine ⟨row', shaped_step h.shaped hstep, hrow', hmax.trans h.limit, ?_, ?_, ?_⟩
  · rw [hattempt, hcount, h.attempts]
  · rw [hcount, hnew, hburied, hnone]
    exact hphase
  · intro e he i hfails
    have hle := h.late_snoc e he i hfails
    omega

/-- A step on the job by the worker engaged with it. -/
theorem attended (h : Tracked settings outcome limit j tr s row)
    (houtcome : ∀ i raised, outcome i = .failure raised → raised.permanent = false)
    (hfollows : follows outcome j s a = true) (hclaims : claims j (s, a) = false)
    (hattends : attends j (s, a) = true) (hstep : step settings s a = some s') :
    ∃ row', Tracked settings outcome limit j (tr ++ [(s, a)]) s' row' := by
  have hcount : (tr ++ [(s, a)]).countP (claims j) = tr.countP (claims j) := by
    rw [List.countP_append, List.countP_singleton, hclaims]
    rfl
  obtain ⟨row', hrow', _⟩ := row_step hstep h.found
  have hattempt := attemptCount_step h.shaped hstep h.found hrow'
  rw [hclaims] at hattempt
  have hmax : row'.maxAttempts = row.maxAttempts := by
    refine maxAttempts_step h.shaped hstep h.found hrow' ?_
    obtain ⟨w, b, rfl, _⟩ := attends_turn hstep hattends
    rfl
  refine ⟨row', shaped_step h.shaped hstep, hrow', hmax.trans h.limit, ?_, ?_, ?_⟩
  · rw [hcount, hattempt, h.attempts]
    simp
  · rw [hcount, List.filter_append, List.filter_singleton, cond_eq_ite, List.countP_append,
      List.countP_singleton]
    obtain ⟨w, b, rfl, hattended⟩ := attended_of_step hstep hattends hclaims h.found hrow' hmax
    exact h.phase.attend hattended h.shaped houtcome hfollows h.attempts
  · rw [hcount]
    exact h.late_snoc

/-- A step aside of the job. -/
theorem passed (h : Tracked settings outcome limit j tr s row) (hkeep : undisturbed j s a = true)
    (hclaims : claims j (s, a) = false) (hattends : attends j (s, a) = false)
    (hstep : step settings s a = some s') :
    ∃ row', Tracked settings outcome limit j (tr ++ [(s, a)]) s' row' := by
  have hcount : (tr ++ [(s, a)]).countP (claims j) = tr.countP (claims j) := by
    rw [List.countP_append, List.countP_singleton, hclaims]
    rfl
  have hfails : fails j (tr.countP (claims j)) (s, a) = false := by
    by_contra hfails
    rw [attends_of_fails (Bool.eq_true_of_not_eq_false hfails)] at hattends
    cases hattends
  have hbury : buries j (s, a) = false := by
    by_contra hbury
    rw [attends_of_buries (Bool.eq_true_of_not_eq_false hbury)] at hattends
    cases hattends
  have haside := aside_step hstep hkeep hclaims hattends fun row₁ hrow₁ => by
    rw [h.found] at hrow₁
    cases hrow₁
    exact h.phase.not_scheduled
  obtain ⟨row', hrow', hresembles⟩ := haside.row row h.found
  have hphase := h.phase.aside haside hresembles
  obtain ⟨lease, key, rfl⟩ := hresembles
  refine ⟨_, shaped_step h.shaped hstep, hrow', h.limit, ?_, ?_, ?_⟩
  · rw [hcount]
    exact h.attempts
  · rw [hcount, List.filter_append, List.filter_singleton, List.countP_append,
      List.countP_singleton, hfails, hbury]
    simpa using hphase
  · rw [hcount]
    exact h.late_snoc

end Tracked

theorem tracked_step (h : Tracked settings outcome limit j tr s row)
    (houtcome : ∀ i raised, outcome i = .failure raised → raised.permanent = false)
    (hkeep : undisturbed j s a = true) (hfollows : follows outcome j s a = true)
    (hstep : step settings s a = some s') :
    ∃ row', Tracked settings outcome limit j (tr ++ [(s, a)]) s' row' := by
  cases hclaims : claims j (s, a) with
  | true => exact h.claimed hclaims hstep
  | false =>
    cases hattends : attends j (s, a) with
    | true => exact h.attended houtcome hfollows hclaims hattends hstep
    | false => exact h.passed hkeep hclaims hattends hstep

theorem tracked_of_run (h : Untried settings j s₀ row₀)
    (houtcome : ∀ i raised, outcome i = .failure raised → raised.permanent = false)
    (hrun : Run (step settings) s₀ tr s)
    (hscope : ∀ e ∈ tr, undisturbed j e.1 e.2 = true ∧ follows outcome j e.1 e.2 = true) :
    ∃ row, Tracked settings outcome row₀.maxAttempts j tr s row := by
  refine hrun.induct (C := fun s a => undisturbed j s a = true ∧ follows outcome j s a = true)
    hscope (I := fun tr s => ∃ row, Tracked settings outcome row₀.maxAttempts j tr s row)
    ⟨row₀, h.tracked⟩ ?_
  rintro tr s a s' _ _ ⟨row, htracked⟩ ⟨hkeep, hfollows⟩ hstep
  exact tracked_step htracked houtcome hkeep hfollows hstep

/-! ## The contract -/

/-- No step of a worker adds to `jobs:pending`. -/
theorem pending_of_worker {w : WorkerId} {b : WorkerAction} {id : UUID}
    (hstep : step settings s (.worker w b) = some s') (h : id ∈ s'.store.redis.pending) :
    id ∈ s.store.redis.pending := by
  cases own_move hstep with
  | pop _ hpop hstore _ =>
    rw [hstore] at h
    obtain ⟨_, hredis⟩ := Redis.dequeue_some hpop
    rw [hredis] at h
    exact (AList.mem_erase.mp h).2
  | _ =>
    rename_i hstore _
    rw [hstore] at h
    exact h

/-- What the history `tr` to the state `s` shows of job `j` with the given limit of attempts,
whose handler ends as `outcome` says. -/
structure RetryContract (settings : Settings) (outcome : Nat → Outcome) (limit : Nat) (j : UUID)
    (tr : List (State × Action)) (s : State) (row : Job) : Prop where
  claimed : (tr.countP (claims j) : ℕ∞) ≤ min (firstSuccess outcome) limit
  finalised : (tr.countP (claims j) : ℕ∞) = min (firstSuccess outcome) limit →
    row.status ≠ .processing →
      (firstSuccess outcome ≤ limit → row.status = .completed) ∧
        (limit < firstSuccess outcome → row.status = .failed) ∧
        (row.attemptCount : ℕ∞) = min (firstSuccess outcome) limit
  /-- It is never claimed again. -/
  once : ∀ past e future, tr = past ++ e :: future → claims j e = true →
    (past.countP (claims j) : ℕ∞) < min (firstSuccess outcome) limit
  /-- Before the claim of attempt `i + 1`, attempt `i` has failed once, at least its backoff
  ago. -/
  backoff : ∀ past e future i, tr = past ++ e :: future → claims j e = true →
    past.countP (claims j) = i → 1 ≤ i → ∃ f, past.filter (fails j i) = [f] ∧
      f.1.store.now + backoffSeconds settings i ≤ e.1.store.now
  pending : ∀ e ∈ tr, ∀ w b t, e.2 = .worker w b → step settings e.1 e.2 = some t →
    ∀ id, id ∈ t.store.redis.pending → id ∈ e.1.store.redis.pending
  /-- The job has been pushed once if it has failed, unless its worker is about to. A push puts
  it at the head of the dead-letter list (`deadLetters_of_buries`). -/
  buried : (row.status ≠ .failed → tr.countP (buries j) = 0) ∧
    (row.status = .failed →
      (tr.countP (buries j) = 1 ∧ ∀ w, (s.workers w).executor ≠ .deadLettering j) ∨
      (tr.countP (buries j) = 0 ∧ ∃ w, (s.workers w).executor = .deadLettering j))

/-- The retry contract, for every limit of attempts and every sequence of handler outcomes, in
every run that does not disturb a pending job without attempts. -/
theorem retry_contract (hquiet : s₁.Quiet) (hbefore : Run (step settings) s₁ before s₀)
    (hrow₀ : s₀.row j = some row₀) (hpending : row₀.status = .pending)
    (huntried : row₀.attemptCount = 0) (hlimit : 1 ≤ row₀.maxAttempts)
    (houtcome : ∀ i raised, outcome i = .failure raised → raised.permanent = false)
    (hrun : Run (step settings) s₀ tr s)
    (hscope : ∀ e ∈ tr, undisturbed j e.1 e.2 = true ∧ follows outcome j e.1 e.2 = true) :
    ∃ row, s.row j = some row ∧
      RetryContract settings outcome row₀.maxAttempts j tr s row := by
  have hstart := untried_of_run hquiet hbefore hrow₀ hpending huntried hlimit
  obtain ⟨row, htracked⟩ := tracked_of_run hstart houtcome hrun hscope
  refine ⟨row, htracked.found, ?_⟩
  have hclaim : ∀ past e future, tr = past ++ e :: future → claims j e = true →
      ((past.countP (claims j) : ℕ∞) < min (firstSuccess outcome) row₀.maxAttempts) ∧
        ∀ i, past.countP (claims j) = i → 1 ≤ i → ∃ f, past.filter (fails j i) = [f] ∧
          f.1.store.now + backoffSeconds settings i ≤ e.1.store.now := by
    rintro past ⟨s₂, a⟩ future rfl hclaims
    obtain ⟨t, hpast, hstep, _⟩ := hrun.split
    obtain ⟨row₂, htracked₂⟩ := tracked_of_run hstart houtcome hpast fun e he =>
      hscope e (List.mem_append_left _ he)
    obtain ⟨_, hdue, row₃, _, hmax, _, hphase⟩ :=
      htracked₂.phase.claim hstep hclaims htracked₂.found
    refine ⟨?_, ?_⟩
    · have hnext := hphase.bounded
      rw [hmax, htracked₂.limit] at hnext
      exact ENat.natCast_add_one_le_iff.mp (by exact_mod_cast hnext)
    · rintro i rfl hpos
      exact hdue hpos
  have hlimit := htracked.limit
  constructor
  case claimed => exact hlimit ▸ htracked.phase.bounded
  case finalised =>
    intro hcount hstatus
    rw [← hlimit] at hcount ⊢
    obtain ⟨hcompleted, hfailed⟩ := htracked.phase.finalised hcount hstatus
    exact ⟨hcompleted, hfailed, by rw [htracked.attempts, hcount]⟩
  case once => exact fun past e future htr hclaims => (hclaim past e future htr hclaims).1
  case backoff => exact fun past e future i htr hclaims => (hclaim past e future htr hclaims).2 i
  case pending =>
    intro e _ w b t hb hstep id hid
    rw [hb] at hstep
    exact pending_of_worker hstep hid
  case buried => exact htracked.phase.pushed

/-- A job that waits to be fed. -/
def pendingState : State :=
  { store :=
    { jobs := (∅ : Jobs).insert 1 (newJob {} webhookRequest none 0) } }

theorem quiet_pendingState : pendingState.Quiet := ⟨fun _ => rfl, fun _ => rfl, rfl, rfl⟩

/-- The first attempt fails and the second one succeeds. -/
def recovers (i : Nat) : Outcome :=
  if i = 1 then .failure (.handlerError ⟨"HandlerError", "boom"⟩) else .success

theorem retry_contract_recovery :
    ∃ tr s row, Run (step {}) pendingState tr s ∧ s.row 1 = some row ∧ row.status = .completed ∧
      tr.countP (claims 1) = 2 ∧ RetryContract {} recovers 3 1 tr s row := by
  -- the id comes back too early and is popped, then it is fed after the backoff
  obtain ⟨tr, s, hrun, _, hcheck⟩ := run_of_check (step {}) pendingState
    [.maintenance (.feederSelect 10 [1]), .maintenance .feederPush, .worker "w1" .dequeue,
      .worker "w1" (.claim 0 0), .worker "w1" .start, .tick 1000000,
      .worker "w1" (.fail (.handlerError ⟨"HandlerError", "boom"⟩) 1000000),
      .worker "w1" .commit, .tamper (({} : Redis).enqueue 1 0).1, .worker "w2" .dequeue,
      .worker "w2" (.claim 1000000 1000000), .tick 31000000, .maintenance (.feederSelect 10 [1]),
      .maintenance .feederPush, .worker "w2" .dequeue, .worker "w2" (.claim 31000000 31000000),
      .worker "w2" .start, .worker "w2" (.finish (.obj []) 31000000), .worker "w2" .commit]
    (fun tr s => (tr.all fun e => undisturbed 1 e.1 e.2 ∧ follows recovers 1 e.1 e.2) ∧
      tr.countP (claims 1) = 2 ∧ (s.row 1).any fun row => row.status = .completed)
    (by decide +kernel)
  simp only [decide_eq_true_eq, List.all_eq_true, Option.any_eq_true] at hcheck
  obtain ⟨hscope, hclaims, row, hrow, hstatus⟩ := hcheck
  have houtcome : ∀ i raised, recovers i = .failure raised → raised.permanent = false := by
    intro i raised h
    unfold recovers at h
    split at h
    · cases h
      rfl
    · cases h
  obtain ⟨row', hrow', hcontract⟩ := retry_contract quiet_pendingState .nil
    rfl rfl rfl (by decide) houtcome hrun hscope
  rw [hrow] at hrow'
  cases hrow'
  exact ⟨tr, s, row, hrun, hrow, hstatus, hclaims, hcontract⟩

end JobQueue
