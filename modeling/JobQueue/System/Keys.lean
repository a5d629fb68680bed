import JobQueue.System.History

/-!
# Idempotency keys across the system

A row keeps its key and its creation time through every write but the cleanup
(`key_step`). Rows that wait for their commit have broken no constraint and cannot break one
while they wait (`staged_of_run`).
-/

namespace JobQueue

open Relational Transition

variable {settings : Settings} {s s' s₀ : State} {a : Action} {tr : List (State × Action)}
  {j : UUID} {row row' : Job}

/-! ## The key of a row -/

/-- No instance in flight has assigned the key or the creation time. -/
theorem flush_key (row : Job) {m : Mapped} (hkey : m.current.idempotencyKey = m.loaded.idempotencyKey)
    (hcreated : m.current.createdAt = m.loaded.createdAt) :
    (m.flush row).idempotencyKey = row.idempotencyKey ∧
      (m.flush row).createdAt = row.createdAt := by
  simp [Mapped.flush, hkey, hcreated]

theorem key_step (hshaped : s.Shaped settings) (hstep : step settings s a = some s')
    (hrow : s.row j = some row) (hrow' : s'.row j = some row') :
    row'.createdAt = row.createdAt ∧ (row'.idempotencyKey = row.idempotencyKey ∨
      ∃ clock, a = .maintenance (.cleanup clock) ∧ row.createdAt < clock - idempotencyTtl ∧
        row'.idempotencyKey = none) := by
  obtain ⟨row₁, hrow₁, hcase⟩ := row_step hstep hrow
  rw [hrow'] at hrow₁
  cases hrow₁
  have hflush : ∀ m : Mapped, m.current.idempotencyKey = m.loaded.idempotencyKey →
      m.current.createdAt = m.loaded.createdAt → (m.flush row).createdAt = row.createdAt ∧
      ((m.flush row).idempotencyKey = row.idempotencyKey ∨
        ∃ clock, a = .maintenance (.cleanup clock) ∧ row.createdAt < clock - idempotencyTtl ∧
          (m.flush row).idempotencyKey = none) := by
    intro m hkey hcreated
    obtain ⟨hk, hc⟩ := flush_key row hkey hcreated
    exact ⟨hc, Or.inl hk⟩
  rcases hcase with rfl | hchange
  · exact ⟨rfl, Or.inl rfl⟩
  · cases hchange with
    | @report w pct m _ hexecuting =>
      have hshape := hshaped.executor w
      rw [hexecuting] at hshape
      exact hflush _ (by rw [hshape.2]; rfl) (by rw [hshape.2]; rfl)
    | @finalise w m _ hfinalising =>
      have hshape := hshaped.executor w
      rw [hfinalising] at hshape
      rcases hshape.2 with ⟨clock, result, heq⟩ | ⟨clock, raised, heq⟩
      · exact hflush m (by rw [heq]; rfl) (by rw [heq]; rfl)
      · refine hflush m ?_ ?_
        · rw [heq, Raised.apply, applyFailure]
          split <;> rfl
        · rw [heq, Raised.apply, applyFailure]
          split <;> rfl
    | @cancel c m _ hcancelling =>
      have hshape := hshaped.call c
      rw [hcancelling] at hshape
      exact hflush m (by rw [hshape.2]; rfl) (by rw [hshape.2]; rfl)
    | @retry c m _ hretrying =>
      have hshape := hshaped.call c
      rw [hretrying] at hshape
      obtain ⟨_, clock, heq⟩ := hshape
      exact hflush m (by rw [heq]; rfl) (by rw [heq]; rfl)
    | cleanup _ hexpired => exact ⟨rfl, Or.inr ⟨_, rfl, hexpired, rfl⟩⟩
    | claim | renew | promote | reap => exact ⟨rfl, Or.inl rfl⟩

/-! ## Rows that wait for their commit -/

/-- Two rows that can be in the table together. -/
def Apart (e e' : UUID × Job) : Prop :=
  e.1 ≠ e'.1 ∧ ∀ key, e.2.idempotencyKey = some key → e'.2.idempotencyKey ≠ some key

instance : Std.Symm Apart where
  symm _ _ h := ⟨h.1.symm, fun key hb ha => h.2 key ha hb⟩

/-- The inserted and uncommitted rows: each belongs to one call, no two share their id or
their key, and none breaks a constraint. -/
structure State.StagedInv (s : State) : Prop where
  member : ∀ c j job, s.calls c = .inserted j job → (j, job) ∈ s.store.staged
  owner : ∀ c d j job job', s.calls c = .inserted j job → s.calls d = .inserted j job' → c = d
  distinct : s.store.staged.Pairwise Apart
  fresh : ∀ e ∈ s.store.staged, violates s.store.jobs e.1 e.2 = false

/-- A table without new ids and keys lets a row in that it let in before. -/
theorem violates_mono {jobs jobs' : Jobs} {job : Job} (h : violates jobs j job = false)
    (hid : jobs.lookup j = none → jobs'.lookup j = none)
    (hkey : ∀ key k row', job.idempotencyKey = some key → jobs'.lookup k = some row' →
      row'.idempotencyKey = some key →
      ∃ row, jobs.lookup k = some row ∧ row.idempotencyKey = some key) :
    violates jobs' j job = false := by
  simp only [violates, Bool.or_eq_false_iff] at h ⊢
  obtain ⟨⟨⟨⟨hlookup, hfind⟩, hmax⟩, hlow⟩, hhigh⟩ := h
  refine ⟨⟨⟨⟨?_, ?_⟩, hmax⟩, hlow⟩, hhigh⟩
  · simpa using hid (by simpa using hlookup)
  · cases hjob : job.idempotencyKey with
    | none => rfl
    | some key =>
      simp only [hjob, Option.any_some, Option.isSome_eq_false_iff, Option.isNone_iff_eq_none,
        findJobByIdempotencyKey_none] at hfind ⊢
      intro k row' hrow' hrowkey
      obtain ⟨row, hrow, hk⟩ := hkey key k row' hjob hrow' hrowkey
      exact hfind k row hrow hk

/-- A step that commits no submission adds no row and no key. -/
theorem rows_mono (hshaped : s.Shaped settings) (hstep : step settings s a = some s')
    (hno : ∀ c k job, a = .api c .commit → s.calls c ≠ .inserted k job) (k : UUID) :
    (s.row k = none → s'.row k = none) ∧
      ∀ row', s'.row k = some row' → ∃ row, s.row k = some row ∧
        (row'.idempotencyKey = row.idempotencyKey ∨ row'.idempotencyKey = none) := by
  have hnew : s.row k = none → s'.row k = none := by
    intro hrow
    by_contra hrow'
    obtain ⟨row', hrow'⟩ := Option.ne_none_iff_exists'.mp hrow'
    obtain ⟨c, ha, hcall, _⟩ := row_new hstep hrow hrow'
    exact hno c k row' ha hcall
  refine ⟨hnew, ?_⟩
  intro row' hrow'
  cases hrow : s.row k with
  | none =>
    rw [hnew hrow] at hrow'
    cases hrow'
  | some row =>
    refine ⟨row, rfl, ?_⟩
    rcases (key_step hshaped hstep hrow hrow').2 with hkey | ⟨_, _, _, hkey⟩
    · exact Or.inl hkey
    · exact Or.inr hkey

/-- A step that leaves the waiting rows as they are and commits none of them. -/
theorem State.StagedInv.keep (h : s.StagedInv) (hshaped : s.Shaped settings)
    (hstep : step settings s a = some s') (hstaged : s'.store.staged = s.store.staged)
    (hcalls : ∀ c j job, s'.calls c = .inserted j job → s.calls c = .inserted j job)
    (hno : ∀ c k job, a = .api c .commit → s.calls c ≠ .inserted k job) : s'.StagedInv where
  member c j job hcall := by
    rw [hstaged]
    exact h.member c j job (hcalls c j job hcall)
  owner c d j job job' hc hd := h.owner c d j job job' (hcalls c j job hc) (hcalls d j job' hd)
  distinct := by
    rw [hstaged]
    exact h.distinct
  fresh := by
    rw [hstaged]
    intro e he
    refine violates_mono (h.fresh e he) (rows_mono hshaped hstep hno e.1).1 ?_
    intro key k row' hkey hrow' hrowkey
    obtain ⟨row, hrow, hsame | hnone⟩ := (rows_mono hshaped hstep hno k).2 row' hrow'
    · exact ⟨row, hrow, hsame ▸ hrowkey⟩
    · rw [hnone] at hrowkey
      cases hrowkey

/-- The waiting row of one call goes, and with the commit into the table. -/
theorem State.StagedInv.unstage {c : Nat} {jobId : UUID} {job : Job} (h : s.StagedInv)
    (hcall : s.calls c = .inserted jobId job)
    (hstaged : s'.store.staged = (s.store.unstage jobId).staged)
    (hcalls : ∀ d j job', s'.calls d = .inserted j job' → d ≠ c ∧ s.calls d = .inserted j job')
    (hjobs : s'.store.jobs = s.store.jobs ∨ s'.store.jobs = s.store.jobs.insert jobId job) :
    s'.StagedInv where
  member d j job' hd := by
    obtain ⟨hne, hbefore⟩ := hcalls d j job' hd
    rw [hstaged]
    refine List.mem_filter.mpr ⟨h.member d j job' hbefore, ?_⟩
    simp only [decide_eq_true_eq]
    rintro rfl
    exact hne (h.owner d c j job' job hbefore hcall)
  owner d d' j job₁ job₂ hd hd' :=
    h.owner d d' j job₁ job₂ (hcalls d j job₁ hd).2 (hcalls d' j job₂ hd').2
  distinct := by
    rw [hstaged]
    exact h.distinct.filter _
  fresh := by
    rw [hstaged]
    intro e he
    obtain ⟨hmem, hne⟩ := List.mem_filter.mp he
    simp only [decide_eq_true_eq] at hne
    rcases hjobs with hjobs | hjobs
    · rw [hjobs]
      exact h.fresh e hmem
    · have hmine := h.member c jobId job hcall
      have hapart : Apart e (jobId, job) := h.distinct.forall hmem hmine (by rintro rfl; exact hne rfl)
      rw [hjobs]
      refine violates_mono (h.fresh e hmem) ?_ ?_
      · intro hnone
        rw [AList.lookup_insert_ne hne]
        exact hnone
      · intro key k row' hkey hrow' hrowkey
        by_cases hk : k = jobId
        · subst hk
          rw [AList.lookup_insert] at hrow'
          cases hrow'
          exact absurd hrowkey (hapart.2 key hkey)
        · rw [AList.lookup_insert_ne hk] at hrow'
          exact ⟨row', hrow', hrowkey⟩

/-- A call sends its `INSERT`: the row waits, apart from the others. -/
theorem State.StagedInv.insert {c : Nat} {jobId : UUID} {job : Job} (h : s.StagedInv)
    (hblocked : s.store.blocked jobId job.idempotencyKey = false)
    (hok : violates s.store.jobs jobId job = false)
    (hstore : s'.store = { s.store with staged := (jobId, job) :: s.store.staged })
    (hcall : s'.calls c = .inserted jobId job) (hcalls : ∀ d, d ≠ c → s'.calls d = s.calls d) :
    s'.StagedInv := by
  simp only [Store.blocked, List.any_eq_false, decide_eq_true_eq, not_or, not_and] at hblocked
  have hothers : ∀ d j job', s'.calls d = .inserted j job' →
      (d = c ∧ j = jobId ∧ job' = job) ∨ s.calls d = .inserted j job' := by
    intro d j job' hd
    by_cases hdc : d = c
    · subst hdc
      rw [hcall] at hd
      cases hd
      exact Or.inl ⟨rfl, rfl, rfl⟩
    · exact Or.inr (hcalls d hdc ▸ hd)
  refine ⟨?_, ?_, ?_, ?_⟩
  · intro d j job' hd
    rw [hstore]
    rcases hothers d j job' hd with ⟨_, rfl, rfl⟩ | hbefore
    · exact List.mem_cons_self
    · exact List.mem_cons_of_mem _ (h.member d j job' hbefore)
  · intro d d' j job₁ job₂ hd hd'
    rcases hothers d j job₁ hd with ⟨hdc, rfl, _⟩ | hbefore
    · rcases hothers d' j job₂ hd' with ⟨hdc', _, _⟩ | hbefore'
      · rw [hdc, hdc']
      · exact absurd rfl (hblocked _ (h.member d' j job₂ hbefore')).1
    · rcases hothers d' j job₂ hd' with ⟨_, rfl, _⟩ | hbefore'
      · exact absurd rfl (hblocked _ (h.member d j job₁ hbefore)).1
      · exact h.owner d d' j job₁ job₂ hbefore hbefore'
  · rw [hstore]
    refine List.pairwise_cons.mpr ⟨?_, h.distinct⟩
    intro e he
    obtain ⟨hid, hkey⟩ := hblocked e he
    refine ⟨Ne.symm hid, ?_⟩
    intro k hk he'
    have hkey' : job.idempotencyKey = some k := hk
    exact hkey (by simp [hkey']) (by rw [he', hkey'])
  · intro e he
    rw [hstore] at he ⊢
    rcases List.mem_cons.mp he with rfl | he
    · exact hok
    · exact h.fresh e he

theorem staged_step (h : s.StagedInv) (hshaped : s.Shaped settings)
    (hstep : step settings s a = some s') : s'.StagedInv := by
  cases move_of_step hstep with
  | @api c b hmove hcalls _ _ =>
    -- a call that is not waiting after its step leaves the others as they were
    have hothers : (∀ j job, s'.calls c ≠ .inserted j job) → ∀ d j job,
        s'.calls d = .inserted j job → d ≠ c ∧ s.calls d = .inserted j job := by
      intro hnot d j job hd
      have hdc : d ≠ c := by
        rintro rfl
        exact hnot j job hd
      exact ⟨hdc, hcalls d hdc ▸ hd⟩
    -- and one that was not waiting before leaves the open rows, too
    have hkept : (∀ j job, s.calls c ≠ .inserted j job) →
        (∀ j job, s'.calls c ≠ .inserted j job) → s'.StagedInv := by
      intro hbefore hafter
      refine h.keep hshaped hstep (hmove.staged_eq hbefore hafter)
        (fun d j job hd => (hothers hafter d j job hd).2) ?_
      intro d j job ha
      rw [← (Action.api.inj ha).1]
      exact hbefore j job
    cases hmove with
    | insert _ hblocked hok hstore hcall => exact h.insert hblocked hok hstore hcall hcalls
    | commitRefused hinserted hviolates _ _ =>
      rw [h.fresh _ (h.member c _ _ hinserted)] at hviolates
      cases hviolates
    | commitSubmit hinserted _ hstore hcall =>
      exact h.unstage hinserted (by rw [hstore]) (hothers (by simp [hcall]))
        (Or.inr (by rw [hstore]))
    | dropInserted hinserted hstore hcall =>
      exact h.unstage hinserted (by rw [hstore]) (hothers (by simp [hcall]))
        (Or.inl (by rw [hstore]; rfl))
    | drop hinserted _ hcall => exact hkept hinserted (by simp [hcall])
    | fault howed _ hcall =>
      refine hkept ?_ (by simp [hcall])
      intro j job hc
      rw [hc] at howed
      cases howed
    | submitInvalid hphase _ _ hcall | submitExisting hphase _ _ _ hcall
    | submit hphase _ _ _ hcall | insertRefused hphase _ _ _ hcall
    | cancelMissing hphase _ _ hcall | cancelRefused hphase _ _ _ hcall
    | cancel hphase _ _ _ hcall | retryMissing hphase _ _ hcall
    | retryRefused hphase _ _ _ hcall | manualRetry hphase _ _ _ hcall
    | commitCancel hphase _ hcall | commitRetry hphase _ hcall | push hphase _ hcall
    | removePending hphase _ hcall | removeScheduled hphase _ hcall | clear hphase _ hcall =>
      exact hkept (by simp [hphase]) (by simp [hcall])
  | worker hmove _ hcalls _ =>
    exact h.keep hshaped hstep hmove.staged_eq (fun _ _ _ hc => hcalls ▸ hc) (by simp)
  | maintenance hmove _ hcalls =>
    exact h.keep hshaped hstep hmove.staged_eq (fun _ _ _ hc => hcalls ▸ hc) (by simp)
  | tick _ hstore _ hcalls _ | tamper hstore _ hcalls _ =>
    exact h.keep hshaped hstep (by rw [hstore]) (fun _ _ _ hc => hcalls ▸ hc) (by simp)

theorem staged_of_run (hquiet : s₀.Quiet) (hrun : Run (step settings) s₀ tr s) :
    s.StagedInv := by
  refine hrun.induct (C := fun _ _ => True) (by simp) (I := fun _ s => s.StagedInv) ?_ ?_
  · refine ⟨?_, ?_, by simp [hquiet.staged], by simp [hquiet.staged]⟩
    · intro c j job hcall
      simp [hquiet.calls c] at hcall
    · intro c d j job job' hcall
      simp [hquiet.calls c] at hcall
  · intro tr s a s' hrun _ h _ hstep
    exact staged_step h (shaped_of_run hquiet hrun) hstep

end JobQueue
