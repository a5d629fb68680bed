import JobQueue.System.Passages

/-!
# Every attempt is accounted for

Where no other write to a row comes between the parts of an operation, a job goes through its
life cycle edge by edge, and the commits on it keep books (`accounts_balance`): every claim is
followed by exactly one of a completion, a retry, a failure for good or a reset by the reaper,
unless the job is being processed; every failure for good is followed by its manual retry,
unless the job is failed; a job is completed once at most, cancelled once at most, and nothing
moves it after either.
-/

namespace JobQueue

open Relational Transition

variable {settings : Settings} {s s' : State} {tr : List (State × Action)} {j : UUID}
  {now : Timestamp}

/-! ## Counting the edges of a route -/

theorem countP_passages (p : Passage → Bool) (es : List Passage) :
    es.countP p =
      (if p .submit then es.count .submit else 0) + (if p .claim then es.count .claim else 0) +
      (if p .complete then es.count .complete else 0) + (if p .defer then es.count .defer else 0) +
      (if p .fail then es.count .fail else 0) + (if p .reset then es.count .reset else 0) +
      (if p .cancel then es.count .cancel else 0) + if p .reopen then es.count .reopen else 0 := by
  induction es with
  | nil => simp
  | cons e es ih =>
    rw [List.countP_cons, ih]
    by_cases hp : p e = true
    · cases e <;> simp only [hp, if_true, List.count_cons] <;> simp <;> omega
    · cases e <;> simp [hp]

/-- A commit is on the route of a job as often as the history shows it. -/
theorem count_route (p : Passage) (j : UUID) (tr : List (State × Action)) :
    (tr.filterMap (passage j)).count p = tr.countP (p.shown j) := by
  rw [List.count_filterMap]
  apply List.countP_congr
  intro e _
  rw [beq_iff_eq]
  exact passage_iff

/-! ## The books of a job -/

structure Accounts (j : UUID) (tr : List (State × Action)) (s : State) : Prop where
  attempts : tr.countP (claims j) =
    tr.countP (finalises j .completed) + tr.countP (finalises j .pending) +
      tr.countP (finalises j .failed) + tr.countP (resets j) +
      if s.place j = .processing then 1 else 0
  failures : tr.countP (finalises j .failed) =
    tr.countP (reopens j) + if s.place j = .failed then 1 else 0
  completions : tr.countP (finalises j .completed) = if s.place j = .completed then 1 else 0
  cancellations : tr.countP (cancels j) = if s.place j = .cancelled then 1 else 0
  waits : (if s.place j = .absent then 0 else 1) + tr.countP (finalises j .pending) +
      tr.countP (resets j) + tr.countP (reopens j) =
    tr.countP (claims j) + tr.countP (cancels j) + if s.place j = .waiting then 1 else 0

/-- Each place is entered as often as it is left, but for the place the job is at. -/
theorem accounts_of_route (h : lifecycle.Route .absent (tr.filterMap (passage j)) (s.place j)) :
    Accounts j tr s := by
  have hbalance := h.balance
  simp only [countP_passages, count_route, lifecycle, Passage.shown] at hbalance
  eta_reduce at hbalance
  have habsent := hbalance .absent
  have hwaiting := hbalance .waiting
  have hprocessing := hbalance .processing
  have hcompleted := hbalance .completed
  have hfailed := hbalance .failed
  have hcancelled := hbalance .cancelled
  constructor
  all_goals
    cases hplace : s.place j
    all_goals
      simp [hplace, -List.countP_eq_zero] at habsent hwaiting hprocessing hcompleted hfailed hcancelled ⊢
      omega

/-- No edge leaves `completed` and `cancelled`: the rest of a run does not move the job. -/
theorem final_of_route (h : lifecycle.Route (s.place j) (tr.filterMap (passage j)) (s'.place j))
    (hfinal : s.place j = .completed ∨ s.place j = .cancelled) :
    s'.place j = s.place j ∧ ∀ e ∈ tr, passage j e = none := by
  have hsink : ∀ p, lifecycle.source p ≠ s.place j := by
    intro p
    rcases hfinal with hplace | hplace
    · rw [hplace]
      cases p <;> decide
    · rw [hplace]
      cases p <;> decide
  obtain ⟨hnil, hplace⟩ := h.of_sink hsink
  exact ⟨hplace, List.filterMap_eq_nil_iff.mp hnil⟩

/-- In every run of atomic operations the commits on a job go edge by edge from no row to where
the row is now, so that its books balance; and a job that has been completed or cancelled stays
so, with no further commit that moves it. -/
theorem accounts_balance (hrun : Run (step settings) (State.initial now) tr s)
    (hatomic : ∀ e ∈ tr, atomicStep e.1 e.2 = true) (j : UUID) :
    lifecycle.Route .absent (tr.filterMap (passage j)) (s.place j) ∧ Accounts j tr s ∧
      ∀ past e future, tr = past ++ e :: future →
        e.1.place j = .completed ∨ e.1.place j = .cancelled →
        s.place j = e.1.place j ∧ ∀ e' ∈ e :: future, passage j e' = none := by
  have horderly := orderly_of_run (State.quiet_initial now) hrun hatomic
  have hroute := route_of_run hrun horderly j
  refine ⟨hroute, accounts_of_route hroute, ?_⟩
  rintro past e future rfl hfinal
  obtain ⟨t, _, hrest⟩ := hrun.cut
  obtain rfl : e.1 = t := hrest.head
  refine final_of_route (route_of_run hrest ?_ j) hfinal
  intro e' he'
  exact horderly e' (List.mem_append_right _ he')

/-- A first attempt is lost with its worker and reset, the second completes the job. -/
theorem accounts_balance_reset :
    ∃ tr s, Run (step {}) (State.initial 0) tr s ∧ s.place 1 = .completed ∧
      tr.countP (claims 1) = 2 ∧ tr.countP (resets 1) = 1 ∧ Accounts 1 tr s := by
  obtain ⟨tr, s, hrun, _, hcheck⟩ := run_of_check (step {}) (State.initial 0)
    [.api 0 (.submit webhookRequest none), .api 0 (.insert 1), .api 0 .commit, .api 0 .command,
      .worker "w1" .dequeue, .worker "w1" (.claim 0 0), .worker "w1" .crash, .tick 61000000,
      .maintenance (.reaperSelect 10 [1]), .maintenance (.reaperUpdate 61000000),
      .maintenance (.feederSelect 10 [1]), .maintenance .feederPush, .worker "w2" .dequeue,
      .worker "w2" (.claim 61000000 61000000), .worker "w2" .start,
      .worker "w2" (.finish .null 61000000), .worker "w2" .commit]
    (fun tr s => (tr.all fun e => atomicStep e.1 e.2) ∧ s.place 1 = .completed ∧
      tr.countP (claims 1) = 2 ∧ tr.countP (resets 1) = 1) (by decide +kernel)
  simp only [decide_eq_true_eq, List.all_eq_true] at hcheck
  obtain ⟨hatomic, hplace, hclaims, hresets⟩ := hcheck
  exact ⟨tr, s, hrun, hplace, hclaims, hresets, (accounts_balance hrun hatomic 1).2.1⟩

end JobQueue
