import JobQueue.System.History

/-!
# Mutual exclusion under live leases

As long as no lease of a live worker runs out while it holds a job, no two workers hold the
same job, and each finalising commit falls on the attempt it finalises. The workers crash
at will, Redis loses and repeats ids at will, and the lease of a crashed worker is reaped.
-/

namespace JobQueue

open Transition

variable {settings : Settings} {s s' s₀ : State} {a : Action} {tr : List (State × Action)}

/-! ## What is assumed of a run -/

/-- The commit of a cancel or of a manual retry directly follows the `SELECT` of its
call. -/
def callAtomic (past : List (State × Action)) (s : State) : Action → Bool
  | .api c .commit =>
      match s.calls c with
      | .cancelling _ | .retrying _ => since c past = []
      | _ => true
  | _ => true

/-- The database clock has not passed the lease of a job in the hand of a live worker. -/
def State.LeasesLive (s : State) : Prop :=
  ∀ w m row t, s.inHand w = some m → s.row m.id = some row → row.leasedUntil = some t →
    s.store.now ≤ t

theorem State.LeasesLive.leaseKept (h : s.LeasesLive) : s.LeaseKept a := by
  rintro began w m row rfl hbegan hm _ hrow
  by_contra hexpired
  rw [Bool.not_eq_false, Job.expired_iff] at hexpired
  obtain ⟨_, t, hlease, ht⟩ := hexpired
  have hnow := h w m row t hm hrow hlease
  exact lt_irrefl _ (ht.trans_le (hbegan.trans hnow))

/-! ## The invariant -/

/-- Ownership holds, and a call whose `SELECT` was the last step has loaded the row as it
is. -/
structure ExclusionInv (tr : List (State × Action)) (s : State) : Prop where
  holding : s.Holding
  fresh : ∀ c m, s.calls c = .cancelling m ∨ s.calls c = .retrying m → since c tr = [] →
    ∃ row, s.row m.id = some row ∧ row.status ≠ .processing

theorem exclusionInv_step (h : ExclusionInv tr s) (hatomic : callAtomic tr s a = true)
    (hlive : s.LeasesLive) (hshaped : s.Shaped settings) (hstep : step settings s a = some s') :
    ExclusionInv (tr ++ [(s, a)]) s' where
  holding := by
    refine holding_step h.holding hshaped ?_ hstep
    refine not_intrudes h.holding hlive.leaseKept ?_
    rintro c m row rfl hcall hrow
    have hnone : since c tr = [] := by
      rcases hcall with hc | hc <;> simpa [callAtomic, hc] using hatomic
    obtain ⟨row', hrow', hstatus⟩ := h.fresh c m hcall hnone
    rw [hrow] at hrow'
    cases hrow'
    exact hstatus
  fresh := by
    rintro c m (hcall | hcall) hnone
    · rcases cancelling_step hstep hcall with ⟨_, hother⟩ | ⟨row, rfl, hrow, hstore, hok, _⟩
      · rw [since_other hother] at hnone
        simp at hnone
      · refine ⟨row, by rw [State.row, hstore]; exact hrow, ?_⟩
        intro hstatus
        simp [Job.cancellable, hstatus] at hok
    · rcases retrying_step hstep hcall with
        ⟨_, hother⟩ | ⟨row, clock, rfl, hrow, hstore, hok, _⟩
      · rw [since_other hother] at hnone
        simp at hnone
      · refine ⟨row, by rw [State.row, hstore]; exact hrow, ?_⟩
        intro hstatus
        simp [Job.retryable, hstatus] at hok

theorem exclusionInv_of_run (hquiet : s₀.Quiet) (hrun : Run (step settings) s₀ tr s)
    (hatomic : Throughout (fun past s a => callAtomic past s a = true) tr)
    (hlive : ∀ e ∈ tr, e.1.LeasesLive) : ExclusionInv tr s := by
  have hboth : Throughout (fun past s a => callAtomic past s a = true ∧ s.LeasesLive) tr := by
    rintro past e future rfl
    exact ⟨hatomic past e future rfl, hlive e (by simp)⟩
  refine hrun.induct_past hboth ⟨hquiet.holding, ?_⟩ ?_
  · intro c m hcall
    simp [hquiet.calls c] at hcall
  · intro tr s a s' hrun _ h ha hstep
    exact exclusionInv_step h ha.1 ha.2 (shaped_of_run hquiet hrun) hstep

/-! ## The guarantee -/

/-- In every run in which the leases of live workers are live, no two workers are between
the claim and the finalising commit of the same job, and every finalising commit hits the
row of the attempt that its worker claimed. -/
theorem mutual_exclusion (hquiet : s₀.Quiet) (hrun : Run (step settings) s₀ tr s)
    (hatomic : Throughout (fun past s a => callAtomic past s a = true) tr)
    (hlive : ∀ e ∈ tr, e.1.LeasesLive) :
    (∀ v w m n, s.inHand v = some m → s.inHand w = some n → m.id = n.id → v = w) ∧
      ∀ past s₁ w future m, tr = past ++ (s₁, .worker w .commit) :: future →
        (s₁.workers w).executor = .finalising m →
        ∃ row n, s₁.row m.id = some row ∧ OwnedBy w n row ∧ ClaimedAs w m.id n past := by
  refine ⟨?_, ?_⟩
  · intro v w m n hm hn hid
    exact holder_unique (exclusionInv_of_run hquiet hrun hatomic hlive).holding hm hn hid
  · rintro past s₁ w future m rfl hfinalising
    obtain ⟨_, hrun₁, _, _⟩ := hrun.split
    have hinv := exclusionInv_of_run hquiet hrun₁ hatomic.prefix
      fun e he => hlive e (List.mem_append_left _ he)
    have hm : s₁.inHand w = some m := inHand_of_finalising hfinalising
    obtain ⟨row, hrow, hholds⟩ := hinv.holding w m hm
    exact ⟨row, _, hrow, hholds.ownedBy, claimedAs_of_inHand hquiet hrun₁ hm⟩

/-- What `State.LeasesLive` says of the workers `ws`, computed. -/
def leasesLive (ws : List WorkerId) (s : State) : Bool :=
  ws.all fun w => (s.inHand w).all fun m => (s.row m.id).all fun row =>
    row.leasedUntil.all fun t => s.store.now ≤ t

/-- Workers that do not act in a run have no leases. -/
theorem leasesLive_of_check {ws : List WorkerId} (hquiet : s₀.Quiet)
    (hrun : Run (step settings) s₀ tr s)
    (hothers : ∀ e ∈ tr, ∀ w b, e.2 = .worker w b → w ∈ ws)
    (hcheck : ∀ e ∈ tr, leasesLive ws e.1 = true) : ∀ e ∈ tr, e.1.LeasesLive := by
  intro e he w m row t hm hrow hlease
  by_cases hw : w ∈ ws
  · have hall := hcheck e he
    simp only [leasesLive, List.all_eq_true, Option.all_eq_true, decide_eq_true_eq] at hall
    exact hall w hw m hm row hrow t hlease
  · obtain ⟨past, future, _, rfl, hpast, _, _⟩ := hrun.split_of_mem he
    have hno : ∀ e' ∈ past, ∀ b, e'.2 ≠ .worker w b := fun e' he' b hb =>
      hw (hothers e' (List.mem_append_left _ he') w b hb)
    rw [inHand_of_not_acted hquiet hpast hno] at hm
    cases hm

theorem mutual_exclusion_after_crash :
    ∃ tr s, Run (step {}) (State.initial 0) tr s ∧ tr.countP (claims 1) = 2 ∧
      (∀ v w m n, s.inHand v = some m → s.inHand w = some n → m.id = n.id → v = w) ∧
      ∀ past s₁ w future m, tr = past ++ (s₁, .worker w .commit) :: future →
        (s₁.workers w).executor = .finalising m →
        ∃ row n, s₁.row m.id = some row ∧ OwnedBy w n row ∧ ClaimedAs w m.id n past := by
  -- `w1` crashes with the job in hand; its lease runs out and is reaped before `w2` claims
  obtain ⟨tr, s, hrun, hactions, hcheck⟩ := run_of_check (step {}) (State.initial 0)
    [.api 0 (.submit webhookRequest none), .api 0 (.insert 1),
      .api 0 .commit, .api 0 .command, .worker "w1" .dequeue, .worker "w1" (.claim 0 0),
      .worker "w1" .crash, .tick 61000000, .maintenance (.reaperSelect 10 [1]),
      .maintenance (.reaperUpdate 61000000), .maintenance (.feederSelect 10 [1]),
      .maintenance .feederPush, .worker "w2" .dequeue, .worker "w2" (.claim 61000000 61000000),
      .worker "w2" .start, .worker "w2" .beat, .worker "w2" (.renew 61000000),
      .worker "w2" (.finish (.obj []) 61000000), .worker "w2" .commit]
    (fun tr _ => throughout callAtomic [] tr ∧ tr.countP (claims 1) = 2 ∧
      tr.all fun e => leasesLive ["w1", "w2"] e.1) (by decide +kernel)
  simp only [decide_eq_true_eq, List.all_eq_true] at hcheck
  obtain ⟨hatomic, hclaims, hlive⟩ := hcheck
  have hothers : ∀ e ∈ tr, ∀ w b, e.2 = .worker w b → w ∈ ["w1", "w2"] := by
    refine forall_of_actions (p := fun a => ∀ w b, a = .worker w b → w ∈ ["w1", "w2"]) hactions ?_
    simp
  exact ⟨tr, s, hrun, hclaims, mutual_exclusion (State.quiet_initial 0) hrun
    (throughout_of_check hatomic)
    (leasesLive_of_check (State.quiet_initial 0) hrun hothers hlive)⟩

end JobQueue
