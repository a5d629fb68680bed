import JobQueue.System.Keys

/-!
# The idempotency window

A key is unique among the committed rows (`unique_of_run`), and only the cleanup takes it
from its row, once the shared clock has passed the creation time by the time to live. So a
submission that finishes within that time finds the row and returns it, and changes nothing
(`idempotency_window`).
-/

namespace JobQueue

open Relational Transition

variable {settings : Settings} {s s' s₀ : State} {a : Action} {tr : List (State × Action)}
  {j : UUID} {row row' : Job} {c : Nat} {key : String}

/-! ## Uniqueness -/

/-- At most one row holds a given key. -/
def State.Unique (s : State) : Prop :=
  ∀ j k row row' key, s.row j = some row → s.row k = some row' →
    row.idempotencyKey = some key → row'.idempotencyKey = some key → j = k

/-- A row that has just come holds a key that no earlier row held. -/
theorem new_key {k : UUID} (hstep : step settings s a = some s') (hnone : s.row j = none)
    (hnew : s'.row j = some row) (hkey : row.idempotencyKey = some key)
    (hrow : s.row k = some row') : row'.idempotencyKey ≠ some key := by
  obtain ⟨_, _, _, hok⟩ := row_new hstep hnone hnew
  simp only [violates, Bool.or_eq_false_iff, hkey, Option.any_some, Option.isSome_eq_false_iff,
    Option.isNone_iff_eq_none, findJobByIdempotencyKey_none] at hok
  exact hok.1.1.1.2 k row' hrow

theorem unique_step (h : s.Unique) (hshaped : s.Shaped settings)
    (hstep : step settings s a = some s') : s'.Unique := by
  intro j k row row' key hrow hrow' hkey hkey'
  -- what held the key before the step, or has just come
  have hbefore : ∀ i job, s'.row i = some job → job.idempotencyKey = some key →
      (∃ old, s.row i = some old ∧ old.idempotencyKey = some key) ∨ s.row i = none := by
    intro i job hjob hjobkey
    cases hold : s.row i with
    | none => exact Or.inr rfl
    | some old =>
      refine Or.inl ⟨old, rfl, ?_⟩
      rcases (key_step hshaped hstep hold hjob).2 with hsame | ⟨_, _, _, hgone⟩
      · rw [← hsame]
        exact hjobkey
      · rw [hgone] at hjobkey
        cases hjobkey
  rcases hbefore j row hrow hkey with ⟨old, hold, holdkey⟩ | hnone
  · rcases hbefore k row' hrow' hkey' with ⟨old', hold', holdkey'⟩ | hnone'
    · exact h j k old old' key hold hold' holdkey holdkey'
    · exact absurd holdkey (new_key hstep hnone' hrow' hkey' hold)
  · rcases hbefore k row' hrow' hkey' with ⟨old', hold', holdkey'⟩ | hnone'
    · exact absurd holdkey' (new_key hstep hnone hrow hkey hold')
    · -- one step commits one submission
      obtain ⟨d, ha, hcall, _⟩ := row_new hstep hnone hrow
      obtain ⟨d', ha', hcall', _⟩ := row_new hstep hnone' hrow'
      rw [ha] at ha'
      cases ha'
      rw [hcall] at hcall'
      cases hcall'
      rfl

theorem unique_of_run (hquiet : s₀.Quiet) (hunique : s₀.Unique)
    (hrun : Run (step settings) s₀ tr s) : s.Unique := by
  refine hrun.induct (C := fun _ _ => True) (by simp) (I := fun _ s => s.Unique) hunique ?_
  intro tr s a s' hrun _ h _ hstep
  exact unique_step h (shaped_of_run hquiet hrun) hstep

/-! ## The time to live -/

/-- The cleanup reads its clock before its statement, from the clock of the database. -/
def sharedClock (s : State) : Action → Bool
  | .maintenance (.cleanup clock) => clock ≤ s.store.now
  | _ => true

/-- The row still has its key, or the clock has passed its time to live. -/
theorem key_kept (hshaped : s.Shaped settings) (hclock : sharedClock s a = true)
    (hstep : step settings s a = some s') (hrow : s.row j = some row) :
    ∃ row', s'.row j = some row' ∧ row'.createdAt = row.createdAt ∧
      (row'.idempotencyKey = row.idempotencyKey ∨
        (∃ clock, a = .maintenance (.cleanup clock)) ∧ row'.idempotencyKey = none ∧
          row.createdAt + idempotencyTtl < s.store.now) := by
  obtain ⟨row', hrow', _⟩ := row_step hstep hrow
  obtain ⟨hcreated, hkey⟩ := key_step hshaped hstep hrow hrow'
  refine ⟨row', hrow', hcreated, ?_⟩
  rcases hkey with hkey | ⟨clock, ha, hexpired, hnone⟩
  · exact Or.inl hkey
  · subst ha
    have hle : clock ≤ s.store.now := by simpa [sharedClock] using hclock
    exact Or.inr ⟨⟨clock, rfl⟩, hnone, (lt_sub_iff_add_lt.mp hexpired).trans_le hle⟩

theorem key_of_run (hquiet : s₀.Quiet) {tr₁ tr₂ : List (State × Action)}
    (hrun₁ : Run (step settings) s₀ tr₁ s) (hrun₂ : Run (step settings) s tr₂ s')
    (hclock : ∀ e ∈ tr₂, sharedClock e.1 e.2 = true) (hrow : s.row j = some row)
    (hwithin : s'.store.now ≤ row.createdAt + idempotencyTtl) :
    ∃ row', s'.row j = some row' ∧ row'.createdAt = row.createdAt ∧
      row'.idempotencyKey = row.idempotencyKey := by
  induction hrun₂ with
  | nil => exact ⟨row, hrow, rfl, rfl⟩
  | @snoc tr₂ t a t' hrun₂ hstep ih =>
    have hnow := now_step hstep
    obtain ⟨row₁, hrow₁, hcreated₁, hkey₁⟩ :=
      ih (fun e he => hclock e (List.mem_append_left _ he)) (hnow.trans hwithin)
    obtain ⟨row₂, hrow₂, hcreated₂, hkey₂⟩ := key_kept (shaped_of_run hquiet (hrun₁.append hrun₂))
      (hclock (t, a) (List.mem_append_right _ (List.mem_singleton_self _))) hstep hrow₁
    refine ⟨row₂, hrow₂, hcreated₂.trans hcreated₁, ?_⟩
    rcases hkey₂ with hkey₂ | ⟨_, _, hpassed⟩
    · exact hkey₂.trans hkey₁
    · rw [hcreated₁] at hpassed
      exact absurd (hpassed.trans_le (hnow.trans hwithin)) (lt_irrefl _)

/-! ## The submission -/

theorem CallMove.ne_unused {st st' : Store} {p p' : Call} {b : CallAction}
    (h : CallMove settings st st' p p' b) : p' ≠ .unused := by
  rintro rfl
  cases h with
  | commitRefused _ _ _ hcall => simp at hcall
  | _ =>
    rename_i hcall
    cases hcall

/-- A call that is unused has not acted. -/
theorem not_acted_of_unused (hrun : Run (step settings) s tr s') (hunused : s'.calls c = .unused) :
    s.calls c = .unused ∧ ∀ e ∈ tr, e.2.ofCall c = false := by
  induction hrun with
  | nil => exact ⟨hunused, by simp⟩
  | @snoc tr t a t' _ hstep ih =>
    rcases call_move hstep c with ⟨hother, hsame⟩ | ⟨b, _, hmove⟩
    · obtain ⟨hstart, hno⟩ := ih (hsame ▸ hunused)
      refine ⟨hstart, ?_⟩
      intro e he
      rcases List.mem_append.mp he with he | he
      · exact hno e he
      · rw [List.mem_singleton.mp he]
        cases a with
        | api d b =>
          have hne : d ≠ c := by
            rintro rfl
            exact hother b rfl
          simp [Action.ofCall, hne]
        | worker | maintenance | tick | tamper => rfl
    · exact absurd hunused hmove.ne_unused

/-- A call that has returned can at most lose its client. -/
def Call.Over (value : Returned) (call : Call) : Prop := call = .returned value ∨ call = .dropped

theorem over_step {value : Returned} (h : (s.calls c).Over value)
    (hstep : step settings s a = some s') :
    (s'.calls c).Over value ∧ (a.ofCall c = true → s'.store = s.store) := by
  rcases call_move hstep c with ⟨hother, hsame⟩ | ⟨b, rfl, hmove⟩
  · refine ⟨hsame ▸ h, ?_⟩
    intro hof
    cases a with
    | api d b =>
      obtain rfl : d = c := by simpa [Action.ofCall] using hof
      exact absurd rfl (hother b)
    | worker | maintenance | tick | tamper => cases hof
  · -- the one move of a call that is over is its drop
    generalize s.calls c = p at h hmove
    cases hmove with
    | drop _ hstore hcall => exact ⟨Or.inr hcall, fun _ => hstore⟩
    | fault howed _ _ => rcases h with rfl | rfl <;> cases howed
    | _ => rcases h with rfl | rfl <;> contradiction

theorem over_of_run {value : Returned} (hrun : Run (step settings) s tr s')
    (h : (s.calls c).Over value) : (s'.calls c).Over value ∧
      ∀ e ∈ tr, e.2.ofCall c = true → ∀ t, step settings e.1 e.2 = some t →
        t.store = e.1.store := by
  induction hrun with
  | nil => exact ⟨h, by simp⟩
  | @snoc tr t a t' _ hstep ih =>
    obtain ⟨hover, hsame⟩ := ih
    obtain ⟨hover', hsame'⟩ := over_step hover hstep
    refine ⟨hover', ?_⟩
    intro e he
    rcases List.mem_append.mp he with he | he
    · exact hsame e he
    · obtain rfl := List.mem_singleton.mp he
      intro hof t₁ ht₁
      rw [hstep] at ht₁
      cases ht₁
      exact hsame' hof

/-- A submission whose key a row holds returns that row. -/
theorem submit_existing {data : JobCreate} {idempotencyKey : Option String} (hunique : s.Unique)
    (hnormal : normalizeIdempotencyKey idempotencyKey = .ok (some key))
    (hstep : step settings s (.api c (.submit data idempotencyKey)) = some s')
    (hrow : s.row j = some row) (hkey : row.idempotencyKey = some key) :
    s.calls c = .unused ∧ s'.calls c = .returned (.existing j) ∧ s'.store = s.store := by
  have hfound : findJobByIdempotencyKey s.store.jobs key = some j := by
    cases hfind : findJobByIdempotencyKey s.store.jobs key with
    | none => exact absurd hkey (findJobByIdempotencyKey_none.mp hfind j row hrow)
    | some k =>
      obtain ⟨job, hjob, hjobkey⟩ := findJobByIdempotencyKey_some hfind
      rw [hunique k j job row key hjob hrow hjobkey hkey]
  cases api_move hstep with
  | submitInvalid _ hnormal' _ _ =>
    rw [hnormal] at hnormal'
    cases hnormal'
  | submitExisting hunused hnormal' hfound' hstore hcall =>
    rw [hnormal] at hnormal'
    cases hnormal'
    rw [hfound] at hfound'
    cases hfound'
    exact ⟨hunused, hcall, hstore⟩
  | submit _ hnormal' hnew _ _ =>
    rw [hnormal] at hnormal'
    cases hnormal'
    exact absurd (hnew key rfl) (by simp [hfound])

/-! ## The guarantee -/

/-- In every run in which the processes and the database share a clock: no two rows hold one
key; no step takes a key from its row but a cleanup after the time to live; and a
submission under the key of a row that is there before it begins, if it finishes within the
time to live of the row, returns the row and leaves the stores alone. -/
theorem idempotency_window (hquiet : s₀.Quiet) (hunique : s₀.Unique)
    (hrun : Run (step settings) s₀ tr s) (hclock : ∀ e ∈ tr, sharedClock e.1 e.2 = true) :
    s.Unique ∧
    (∀ e ∈ tr, ∀ t j row, step settings e.1 e.2 = some t → e.1.row j = some row →
      ∃ row', t.row j = some row' ∧ row'.createdAt = row.createdAt ∧
        (row'.idempotencyKey = row.idempotencyKey ∨
          (∃ clock, e.2 = .maintenance (.cleanup clock)) ∧ row'.idempotencyKey = none ∧
            row.createdAt + idempotencyTtl < e.1.store.now)) ∧
    ∀ tr₁ e₁ tr₂ j row key c data idempotencyKey, tr = tr₁ ++ e₁ :: tr₂ →
      e₁.1.row j = some row → row.idempotencyKey = some key →
      normalizeIdempotencyKey idempotencyKey = .ok (some key) →
      (∃ e ∈ e₁ :: tr₂, e.2 = .api c (.submit data idempotencyKey)) →
      s.store.now ≤ row.createdAt + idempotencyTtl →
      (s.calls c).Over (.existing j) ∧
        ∀ e ∈ tr, e.2.ofCall c = true → ∀ t, step settings e.1 e.2 = some t →
          t.store = e.1.store := by
  refine ⟨unique_of_run hquiet hunique hrun, ?_, ?_⟩
  · intro e he t j row ht hrow
    obtain ⟨_, _, _, _, hrun₁, _, _⟩ := hrun.split_of_mem he
    exact key_kept (shaped_of_run hquiet hrun₁) (hclock e he) ht hrow
  · rintro tr₁ e₁ tr₂ j row key c data idempotencyKey rfl hrow hkey hnormal ⟨e, he, ha⟩ hwithin
    obtain ⟨m, hrun₁, hrun₂⟩ := hrun.cut
    have hm := hrun₂.head
    subst hm
    -- the run from the state of the row to the submission, and from there to the end
    obtain ⟨past, future, hsplit⟩ := List.append_of_mem he
    rw [hsplit] at hrun₂ hclock ⊢
    obtain ⟨t, hbefore, ht, hafter⟩ := hrun₂.split
    have hnow : e.1.store.now ≤ row.createdAt + idempotencyTtl :=
      (now_step ht).trans ((now_le_of_run hafter).trans hwithin)
    obtain ⟨row', hrow', _, hkey'⟩ := key_of_run hquiet hrun₁ hbefore
      (fun e' he' => hclock e' (by simp [he'])) hrow hnow
    have hunique' := unique_of_run hquiet hunique (hrun₁.append hbefore)
    rw [ha] at ht
    obtain ⟨hunused, hreturned, hstore⟩ :=
      submit_existing hunique' hnormal ht hrow' (hkey'.trans hkey)
    obtain ⟨hover, hsame⟩ := over_of_run hafter (Or.inl hreturned)
    refine ⟨hover, ?_⟩
    intro e' he' hof t' ht'
    rcases List.mem_append.mp he' with he' | he'
    · exact absurd hof (by simp [(not_acted_of_unused hrun₁
        (not_acted_of_unused hbefore hunused).1).2 e' he'])
    rcases List.mem_append.mp he' with he' | he'
    · exact absurd hof (by simp [(not_acted_of_unused hbefore hunused).2 e' he'])
    rcases List.mem_cons.mp he' with rfl | he'
    · rw [ha, ht] at ht'
      cases ht'
      exact hstore
    · exact hsame e' he' hof t' ht'

/-- The job has completed and the cleanup has run, exactly 24 hours after the submission:
the key still leads to the job. -/
theorem idempotency_window_last_moment :
    ∃ tr s, Run (step {}) (State.initial 0) tr s ∧ s.Unique ∧
      s.store.now = idempotencyTtl ∧ (s.calls 1).Over (.existing 1) ∧
      ∀ e ∈ tr, e.2.ofCall 1 = true → ∀ t, step {} e.1 e.2 = some t → t.store = e.1.store := by
  obtain ⟨tr, s, hrun, hactions, hcheck⟩ := run_of_check (step {}) (State.initial 0)
    ([.api 0 (.submit webhookRequest (some "k")), .api 0 (.insert 1), .api 0 .commit,
      .api 0 .command, .worker "w1" .dequeue, .worker "w1" (.claim 0 0), .worker "w1" .start,
      .worker "w1" (.finish (.obj []) 0), .worker "w1" .commit, .tick 86400000000,
      .maintenance (.cleanup 86400000000)] ++ [.api 1 (.submit webhookRequest (some " k "))])
    (fun tr s => s.store.now = 86400000000 ∧ (tr.all fun e => sharedClock e.1 e.2) ∧
      tr.all fun e => e.2.ofCall 1 →
        (e.1.row 1).any fun row => row.idempotencyKey = some "k" ∧ row.createdAt = 0)
    (by decide +kernel)
  simp only [decide_eq_true_eq, List.all_eq_true, Option.any_eq_true] at hcheck
  obtain ⟨hnow, hclock, hrows⟩ := hcheck
  obtain ⟨tr₁, tr₂, rfl, _, hlast⟩ := List.map_eq_append_iff.mp hactions
  obtain ⟨e₁, tr₃, rfl, he₁, _⟩ := List.map_eq_cons_iff.mp hlast
  obtain ⟨row, hrow, hkey, hcreated⟩ := hrows e₁ (by simp) (by rw [he₁]; rfl)
  have hunique : (State.initial 0).Unique := by
    intro j k row row' key hj
    simp [State.row, State.initial] at hj
  obtain ⟨hs, _, hsubmit⟩ := idempotency_window (State.quiet_initial 0) hunique hrun hclock
  obtain ⟨hover, hsame⟩ := hsubmit tr₁ e₁ tr₃ 1 row "k" 1 webhookRequest (some " k ") rfl hrow hkey
    (by decide +kernel) ⟨e₁, by simp, he₁⟩ (by rw [hnow, hcreated]; decide)
  exact ⟨_, s, hrun, hs, by rw [hnow]; rfl, hover, hsame⟩

end JobQueue
