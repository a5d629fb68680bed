import JobQueue.System.Tasks

/-!
# Who is busy with a job

A row that is processing names a worker. In every interleaving, with stale snapshots, reaped
leases and crashes, that worker either has exactly this attempt in its hand, or it has
crashed: no other worker, and no worker that rests, is ever named by a processing row
(`custody_of_run`).
-/

namespace JobQueue

open Relational Transition

variable {settings : Settings} {s s' : State} {a : Action} {tr : List (State × Action)}
  {j : UUID} {row row' : Job} {w : WorkerId} {m : Mapped} {n : Nat} {now : Timestamp}

/-- Worker `w` has attempt `n` at job `j` in its hand, or it has crashed. -/
def State.Attends (s : State) (w : WorkerId) (j : UUID) (n : Nat) : Prop :=
  (s.workers w).executor = .crashed ∨
    ∃ m, s.inHand w = some m ∧ m.id = j ∧ m.loaded.attemptCount = n

/-- Where a step leaves the attempt in a worker's hand. -/
theorem attends_step (hshaped : s.Shaped settings) (hstep : step settings s a = some s')
    (h : s.Attends w j n) : s'.Attends w j n ∨
      ∃ m, a = .worker w .commit ∧ (s.workers w).executor = .finalising m ∧ m.id = j := by
  rcases worker_move hstep w with ⟨_, heq⟩ | ⟨b, rfl, hmove⟩
  · left
    unfold State.Attends State.inHand at h ⊢
    rw [heq]
    exact h
  · rcases h with hcrashed | ⟨m, hm, hid, hattempt⟩
    · cases hmove with
      | crash _ hworker =>
        left
        left
        rw [hworker]
      | pop hphase | empty hphase | claim hphase | skip hphase | start hphase | report hphase
      | finish hphase | fail hphase | commit hphase | commitFailed hphase
      | deadLetter hphase =>
        rw [hcrashed] at hphase
        cases hphase
      | beat _ _ _ hworker | rest _ _ _ hworker | renew _ _ hworker | settle _ _ hworker =>
        left
        left
        rw [hworker]
        exact hcrashed
    · have hshape := hshaped.executor w
      unfold State.inHand at hm
      cases hmove with
      | crash _ hworker =>
        left
        left
        rw [hworker]
      | pop hphase | empty hphase | claim hphase | skip hphase | deadLetter hphase =>
        rw [hphase] at hm
        cases hm
      | start hphase _ hworker | finish hphase _ hworker | fail hphase _ hworker =>
        rw [hphase] at hm
        cases hm
        left
        right
        rw [State.inHand, hworker]
        exact ⟨_, rfl, hid, hattempt⟩
      | @report pct _ hphase _ _ hworker =>
        rw [hphase] at hm hshape
        cases hm
        -- the snapshot is brought up to date, with the count it has
        left
        right
        rw [State.inHand, hworker]
        refine ⟨_, rfl, hid, ?_⟩
        show (reportProgress pct m.current).attemptCount = n
        rw [hshape.2]
        exact hattempt
      | commit hphase | commitFailed hphase =>
        rw [hphase] at hm
        cases hm
        exact Or.inr ⟨m, rfl, hphase, hid⟩
      | beat _ _ _ hworker | rest _ _ _ hworker | renew _ _ hworker | settle _ _ hworker =>
        refine Or.inl (Or.inr ⟨m, ?_, hid, hattempt⟩)
        rw [State.inHand, hworker]
        exact hm

/-- The attempt a row names is attended. -/
def State.Custody (s : State) : Prop :=
  ∀ j row w, s.row j = some row → OwnedBy w row.attemptCount row → s.Attends w j row.attemptCount

/-- A won claim gives the row to the worker that has it in its hand. -/
theorem custody_claim {began clock : Timestamp}
    (hstep : step settings s (.worker w (.claim began clock)) = some s')
    (hclaims : claims j (s, .worker w (.claim began clock)) = true) :
    ∃ row', s'.row j = some row' ∧ s'.Attends w j row'.attemptCount := by
  obtain ⟨v, _, _, row, ha, _, _, _, hrow', hexecutor⟩ := claims_row hstep hclaims
  cases ha
  refine ⟨_, hrow', Or.inr ?_⟩
  rw [State.inHand, hexecutor]
  exact ⟨_, rfl, rfl, rfl⟩

/-- A worker that claims has nothing in hand and has not crashed. -/
theorem not_attends_of_claim {began clock : Timestamp}
    (hstep : step settings s (.worker w (.claim began clock)) = some s') : ¬ s.Attends w j n := by
  have hpopped : ∃ k, (s.workers w).executor = .popped k := by
    cases own_move hstep with
    | claim hpopped | skip hpopped => exact ⟨_, hpopped⟩
  obtain ⟨k, hpopped⟩ := hpopped
  rintro (hcrashed | ⟨m, hm, _⟩)
  · rw [hpopped] at hcrashed
    cases hcrashed
  · rw [State.inHand, hpopped] at hm
    cases hm

theorem custody_step (h : s.Custody) (hshaped : s.Shaped settings)
    (hstep : step settings s a = some s') : s'.Custody := by
  intro j row' w hrow' hown'
  by_cases hclaim : ∃ began clock, a = .worker w (.claim began clock)
  · obtain ⟨began, clock, rfl⟩ := hclaim
    cases hclaims : claims j (s, .worker w (.claim began clock)) with
    | true =>
      obtain ⟨row₁, hrow₁, hattends⟩ := custody_claim hstep hclaims
      rw [hrow'] at hrow₁
      cases hrow₁
      exact hattends
    | false =>
      -- the claim was of another job, so the row has named the worker before
      cases hrow : s.row j with
      | none =>
        obtain ⟨_, ha, _⟩ := row_new hstep hrow hrow'
        cases ha
      | some row =>
        obtain ⟨row₁, hrow₁, hcase⟩ := row_step hstep hrow
        rw [hrow'] at hrow₁
        cases hrow₁
        rcases hcase with rfl | hchange
        · exact absurd (h j row' w hrow hown') (not_attends_of_claim hstep)
        · cases hchange with
          | claim hpopped _ hready =>
            rw [claims_iff.mpr ⟨_, _, _, row, rfl, hpopped, hrow, hready⟩] at hclaims
            cases hclaims
  · obtain ⟨row, hrow, hown⟩ := ownedBy_back hshaped hstep
      (fun began clock ha => hclaim ⟨began, clock, ha⟩) hrow' hown'
    have hattends := h j row w hrow (hown.attempt.symm ▸ hown)
    rw [hown.attempt] at hattends
    rcases attends_step hshaped hstep hattends with hkept | ⟨m, rfl, hfinalising, rfl⟩
    · exact hkept
    · -- the commit would have taken the row out of `processing`
      have hfinalises : finalises m.id m.current.status (s, .worker w .commit) = true :=
        finalises_iff.mpr ⟨w, m, rfl, hfinalising, rfl, rfl⟩
      have hstatus := finalises_status hshaped hstep hfinalises hrow hrow'
      have hwritten := finalising_status hshaped hfinalising
      rw [← hstatus, hown'.status] at hwritten
      simp at hwritten

theorem custody_of_run (hrun : Run (step settings) (State.initial now) tr s) : s.Custody := by
  refine hrun.induct (C := fun _ _ => True) (by simp) (I := fun _ s => s.Custody) ?_ ?_
  · intro j row w hrow
    simp [State.row, State.initial] at hrow
  · intro tr s a s' hrun _ h _ hstep
    exact custody_step h (shaped_of_run (State.quiet_initial now) hrun) hstep

end JobQueue
