import JobQueue.Library.Backlog
import JobQueue.System.Moves

/-!
# The reaper is exact

The candidates of a call of `reap_expired_leases` are stale by the time they are updated:
between the `SELECT` and an `UPDATE` any commits of the other parties may fall. Each
`UPDATE` tests the row as it stands, against the `now()` of its own transaction, so that it
changes an expired row or nothing, and the call counts the rows it has changed. Left alone,
calls work off the expired rows, the oldest leases first.
-/

namespace JobQueue

open Relational Transition

variable {settings : Settings} {s s' s₀ s₁ : State} {a : Action} {tr : List (State × Action)}
  {j : UUID} {row : Job} {limit : Nat} {order : List UUID} {began t₀ : Timestamp}

/-! ## One `UPDATE` -/

theorem reap_ne (h : row.expired began = true) : row.reap ≠ row := by
  intro heq
  have hstatus := (Job.expired_iff.mp h).1
  rw [← heq] at hstatus
  cases hstatus

/-- An `UPDATE` of the reaper changes its candidate's row if that is expired, and no other
row. -/
theorem reaperUpdate_row
    (hstep : step settings s (.maintenance (.reaperUpdate began)) = some s') :
    ∃ jobId rest, s.maintenance.reaper = jobId :: rest ∧ s'.maintenance.reaper = rest ∧
      began ≤ s.store.now ∧ s'.store.now = s.store.now ∧
      ∀ j, s'.row j = if j = jobId then
        (s.row j).map fun row => if row.expired began then row.reap else row
      else s.row j := by
  cases move_of_step hstep with
  | maintenance hmove _ _ =>
    cases hmove with
    | @reap _ jobId rest hreaper hbegan hstore hparty =>
      refine ⟨jobId, rest, hreaper, by rw [hparty], hbegan, by rw [hstore], ?_⟩
      intro j
      rw [State.row, hstore, reapOne, Table.lookup_updateWhere]
      by_cases hj : j = jobId
      · rw [if_pos hj, if_pos hj, State.row, hj]
      · rw [if_neg hj, if_neg hj, State.row]

theorem reaperUpdate_changes
    (hstep : step settings s (.maintenance (.reaperUpdate began)) = some s') :
    s'.row j ≠ s.row j ↔ s.maintenance.reaper.head? = some j ∧
      ∃ row, s.row j = some row ∧ row.expired began = true := by
  obtain ⟨jobId, rest, hreaper, _, _, _, hrows⟩ := reaperUpdate_row hstep
  rw [hrows, hreaper, List.head?_cons, Option.some.injEq]
  by_cases hj : j = jobId
  · subst hj
    rw [if_pos rfl]
    cases hrow : s.row j with
    | none => simp
    | some row =>
      cases hexpired : row.expired began with
      | true => simp [hexpired, reap_ne hexpired]
      | false => simp [hexpired]
  · rw [if_neg hj]
    simp [Ne.symm hj]

/-- The row that an `UPDATE` changes was expired, and differs in the four columns that the
reaper writes. -/
theorem reaperUpdate_reaps
    (hstep : step settings s (.maintenance (.reaperUpdate began)) = some s')
    (hchanged : s'.row j ≠ s.row j) :
    ∃ row, s.row j = some row ∧ row.expired began = true ∧ s'.row j = some row.reap := by
  obtain ⟨jobId, rest, hreaper, _, _, _, hrows⟩ := reaperUpdate_row hstep
  obtain ⟨hhead, row, hrow, hexpired⟩ := (reaperUpdate_changes hstep).mp hchanged
  rw [hreaper, List.head?_cons, Option.some.injEq] at hhead
  refine ⟨row, hrow, hexpired, ?_⟩
  rw [hrows, if_pos hhead.symm, hrow, Option.map_some, if_pos hexpired]

/-! ## One call -/

/-- The candidate of an `UPDATE` of the reaper. -/
def reaperCandidate (e : State × Action) : Option UUID :=
  match e.2 with
  | .maintenance (.reaperUpdate _) => e.1.maintenance.reaper.head?
  | _ => none

/-- The id that an `UPDATE` of the reaper returns. -/
def reaperReturns (e : State × Action) : Option UUID :=
  match e.2 with
  | .maintenance (.reaperUpdate began) =>
      e.1.maintenance.reaper.head?.filter fun j => (reapOne e.1.store.jobs began j).2.isSome
  | _ => none

/-- `reaped`: the number of `UPDATE`s that have returned a row. -/
def reapedCount (tr : List (State × Action)) : Nat := (tr.filterMap reaperReturns).length

/-- The steps between the `SELECT` of a call and its end: no other call, and the process is
not restarted. -/
def Action.withinCall (a : Action) : Prop :=
  a ≠ .maintenance .restart ∧ ∀ limit order, a ≠ .maintenance (.reaperSelect limit order)

theorem reaperReturns_iff
    (hstep : step settings s (.maintenance (.reaperUpdate began)) = some s') :
    reaperReturns (s, .maintenance (.reaperUpdate began)) = some j ↔ s'.row j ≠ s.row j := by
  rw [reaperUpdate_changes hstep]
  simp only [reaperReturns, Option.filter_eq_some_iff, reapOne]
  apply and_congr_right
  intro _
  rcases Table.updateWhere_cases s.store.jobs j (Job.expired began) Job.reap with
    ⟨row, hrow, hexpired, heq⟩ | ⟨hno, heq⟩
  · rw [heq]
    simp only [Option.isSome_some, true_iff]
    exact ⟨row, hrow, hexpired⟩
  · rw [heq]
    simp only [Option.isSome_none, Bool.false_eq_true, false_iff]
    rintro ⟨row, hrow, hexpired⟩
    rw [hno row hrow] at hexpired
    cases hexpired

theorem reaperCandidate_of_returns {e : State × Action} (h : reaperReturns e = some j) :
    reaperCandidate e = some j := by
  unfold reaperReturns at h
  unfold reaperCandidate
  split at h
  · exact (Option.filter_eq_some_iff.mp h).1
  · cases h

theorem sublist_filterMap {α β : Type} {f g : α → Option β}
    (h : ∀ x y, f x = some y → g x = some y) (l : List α) :
    (l.filterMap f).Sublist (l.filterMap g) := by
  induction l with
  | nil => exact .slnil
  | cons x l ih =>
    cases hf : f x with
    | some y =>
      rw [List.filterMap_cons_some hf, List.filterMap_cons_some (h x y hf)]
      exact ih.cons_cons y
    | none =>
      rw [List.filterMap_cons_none hf]
      cases hg : g x with
      | none => rwa [List.filterMap_cons_none hg]
      | some y =>
        rw [List.filterMap_cons_some hg]
        exact ih.cons y

theorem reaper_step (hstep : step settings s a = some s') (hwithin : a.withinCall) :
    (reaperCandidate (s, a)).toList ++ s'.maintenance.reaper = s.maintenance.reaper := by
  cases move_of_step hstep with
  | maintenance hmove _ _ =>
    cases hmove with
    | reap hreaper _ _ hparty => simp [reaperCandidate, hreaper, hparty]
    | reaperSelect => exact absurd rfl (hwithin.2 _ _)
    | restart => exact absurd rfl hwithin.1
    | _ =>
      rename_i hparty
      simp [reaperCandidate, hparty]
  | worker _ _ _ hmaintenance | api _ _ _ hmaintenance | tick _ _ _ _ hmaintenance
  | tamper _ _ _ hmaintenance => simp [reaperCandidate, hmaintenance]

/-- A call updates its candidates one after the other. -/
theorem reaperCandidates_of_run (hrun : Run (step settings) s₁ tr s)
    (hwithin : ∀ e ∈ tr, e.2.withinCall) :
    tr.filterMap reaperCandidate ++ s.maintenance.reaper = s₁.maintenance.reaper := by
  refine hrun.induct (C := fun _ a => a.withinCall) hwithin
    (I := fun tr s => tr.filterMap reaperCandidate ++ s.maintenance.reaper =
      s₁.maintenance.reaper) rfl ?_
  intro tr s a s' _ _ h ha hstep
  have hone : [(s, a)].filterMap reaperCandidate = (reaperCandidate (s, a)).toList := by
    cases hcand : reaperCandidate (s, a) with
    | none => simp [hcand]
    | some k => simp [hcand]
  rw [List.filterMap_append, hone, List.append_assoc, reaper_step hstep ha, h]

theorem reaperSelect_sorts
    (hstep : step settings s (.maintenance (.reaperSelect limit order)) = some s') :
    s.maintenance.reaper = [] ∧
      Table.Sorts s.store.jobs (Job.expired s.store.now) Job.leasedBefore order ∧
      s'.store = s.store ∧ s'.maintenance.reaper = order.take limit := by
  cases move_of_step hstep with
  | maintenance hmove _ _ =>
    cases hmove with
    | reaperSelect hreaper hsorts hstore hparty =>
      exact ⟨hreaper, hsorts, hstore, by rw [hparty]⟩

/-- An `UPDATE` of the reaper, in the history of a call, that changes the row of `j`. -/
def ChangedByReaper (settings : Settings) (tr : List (State × Action)) (j : UUID) : Prop :=
  ∃ e ∈ tr, ∃ began s', e.2 = .maintenance (.reaperUpdate began) ∧
    step settings e.1 e.2 = some s' ∧ s'.row j ≠ e.1.row j

theorem changedByReaper_iff (hrun : Run (step settings) s₁ tr s) :
    ChangedByReaper settings tr j ↔ j ∈ tr.filterMap reaperReturns := by
  rw [List.mem_filterMap]
  constructor
  · rintro ⟨⟨t, _⟩, he, began, s', rfl, hstep, hchanged⟩
    exact ⟨_, he, (reaperReturns_iff hstep).mpr hchanged⟩
  · rintro ⟨⟨t, a⟩, he, hreturns⟩
    have hupdate : ∃ began, a = .maintenance (.reaperUpdate began) := by
      unfold reaperReturns at hreturns
      split at hreturns
      · rename_i began heq
        exact ⟨began, heq⟩
      · cases hreturns
    obtain ⟨began, rfl⟩ := hupdate
    obtain ⟨_, _, s', _, _, hstep, _⟩ := hrun.split_of_mem he
    exact ⟨_, he, began, s', rfl, hstep, (reaperReturns_iff hstep).mp hreturns⟩

/-- The count of a call is the number of the rows that it has changed. -/
theorem reapedCount_eq_card
    (hselect : step settings s₀ (.maintenance (.reaperSelect limit order)) = some s₁)
    (hrun : Run (step settings) s₁ tr s) (hwithin : ∀ e ∈ tr, e.2.withinCall) :
    ∃ changed : Finset UUID, changed.card = reapedCount tr ∧
      ∀ j, j ∈ changed ↔ ChangedByReaper settings tr j := by
  obtain ⟨_, hsorts, _, hreaper⟩ := reaperSelect_sorts hselect
  have hcandidates := reaperCandidates_of_run hrun hwithin
  have hnodup : (tr.filterMap reaperReturns).Nodup := by
    apply List.Nodup.sublist (sublist_filterMap (fun _ _ => reaperCandidate_of_returns) tr)
    apply List.Nodup.sublist (List.sublist_append_left _ s.maintenance.reaper)
    rw [hcandidates, hreaper]
    exact hsorts.nodup.sublist (List.take_sublist _ _)
  refine ⟨(tr.filterMap reaperReturns).toFinset, List.toFinset_card_of_nodup hnodup, ?_⟩
  intro j
  rw [List.mem_toFinset, changedByReaper_iff hrun]

/-! ## Calls with nothing else going on -/

/-- The steps of calls with `limit` and no other party than the clock, none of whose
transactions starts before `t₀`. -/
def Action.reaperAlone (limit : Nat) (t₀ : Timestamp) : Action → Prop
  | .maintenance (.reaperSelect l _) => l = limit
  | .maintenance (.reaperUpdate began) => t₀ ≤ began
  | .tick _ => True
  | _ => False

def startsCall (e : State × Action) : Bool :=
  match e.2 with
  | .maintenance (.reaperSelect _ _) => true
  | _ => false

/-- The processing rows whose lease had expired at `t₀`. -/
def expiredIds (t₀ : Timestamp) (jobs : Jobs) : Finset UUID :=
  (Table.matching jobs (Job.expired t₀)).toFinset

theorem mem_expiredIds {jobs : Jobs} : j ∈ expiredIds t₀ jobs ↔
    ∃ row, jobs.lookup j = some row ∧ row.expired t₀ = true := by
  rw [expiredIds, List.mem_toFinset, Table.mem_matching]

theorem expired_mono (h : row.expired t₀ = true) (hle : t₀ ≤ began) :
    row.expired began = true := by
  obtain ⟨hstatus, t, ht, hlt⟩ := Job.expired_iff.mp h
  exact Job.expired_iff.mpr ⟨hstatus, t, ht, lt_of_lt_of_le hlt hle⟩

/-- The batch of a call takes the oldest leases, so the rows that had expired at `t₀` come
before those that expired later. -/
theorem batch_takes_oldest {jobs : Jobs} {now : Timestamp} (hle : t₀ ≤ now)
    (horder : Table.Sorts jobs (Job.expired now) Job.leasedBefore order) (limit : Nat) :
    min limit (expiredIds t₀ jobs).card ≤
      (expiredIds t₀ jobs ∩ (order.take limit).toFinset).card := by
  have hlisted : ∀ id ∈ expiredIds t₀ jobs, id ∈ order := by
    intro id hid
    obtain ⟨row, hrow, hexpired⟩ := mem_expiredIds.mp hid
    exact horder.mem_iff.mpr ⟨row, hrow, expired_mono hexpired hle⟩
  by_cases hall : ∀ id ∈ order.take limit, id ∈ expiredIds t₀ jobs
  · -- the batch is full of such rows
    have hinter : expiredIds t₀ jobs ∩ (order.take limit).toFinset =
        (order.take limit).toFinset := by
      apply Finset.inter_eq_right.mpr
      intro id hid
      exact hall id (List.mem_toFinset.mp hid)
    have hcard : (expiredIds t₀ jobs).card ≤ order.length := by
      rw [← List.toFinset_card_of_nodup horder.nodup]
      apply Finset.card_le_card
      intro id hid
      exact List.mem_toFinset.mpr (hlisted id hid)
    rw [hinter, List.toFinset_card_of_nodup (horder.nodup.sublist (List.take_sublist _ _)),
      List.length_take]
    omega
  · -- a later one is in the batch, and every such row before it
    push Not at hall
    obtain ⟨k, hk, hlate⟩ := hall
    have hinter : expiredIds t₀ jobs ∩ (order.take limit).toFinset = expiredIds t₀ jobs := by
      apply Finset.inter_eq_left.mpr
      intro id hid
      rw [List.mem_toFinset]
      by_contra hnot
      have hdrop : id ∈ order.drop limit := by
        have hsplit := hlisted id hid
        rw [← List.take_append_drop limit order, List.mem_append] at hsplit
        exact hsplit.resolve_left hnot
      have hpairs := horder.2
      rw [← List.take_append_drop limit order, List.pairwise_append] at hpairs
      have hbefore := hpairs.2.2 k hk id hdrop
      obtain ⟨row, hrow, hexpired⟩ := mem_expiredIds.mp hid
      obtain ⟨row', hrow', hexpired'⟩ := horder.mem_iff.mp (List.mem_of_mem_take hk)
      obtain ⟨_, t, ht, hlt⟩ := Job.expired_iff.mp hexpired
      obtain ⟨hstatus', t', ht', _⟩ := Job.expired_iff.mp hexpired'
      simp only [Table.compareAt, hrow, hrow', Job.leasedBefore, ht, ht', decide_eq_true_eq]
        at hbefore
      exact hlate (mem_expiredIds.mpr ⟨row', hrow', Job.expired_iff.mpr
        ⟨hstatus', t', ht', lt_of_le_of_lt hbefore hlt⟩⟩)
    rw [hinter]
    exact min_le_right _ _

/-- An `UPDATE` in a transaction after `t₀` takes its candidate out of the rows that had
expired at `t₀`. -/
theorem expiredIds_update (hle : t₀ ≤ began)
    (hstep : step settings s (.maintenance (.reaperUpdate began)) = some s') :
    expiredIds t₀ s'.store.jobs \ s'.maintenance.reaper.toFinset =
      expiredIds t₀ s.store.jobs \ s.maintenance.reaper.toFinset := by
  obtain ⟨jobId, rest, hreaper, hrest, _, _, hrows⟩ := reaperUpdate_row hstep
  ext k
  rw [hreaper, hrest, Finset.mem_sdiff, Finset.mem_sdiff, List.mem_toFinset, List.mem_toFinset,
    List.mem_cons, mem_expiredIds, mem_expiredIds]
  change (∃ row, s'.row k = some row ∧ _) ∧ _ ↔ (∃ row, s.row k = some row ∧ _) ∧ _
  rw [hrows]
  by_cases hk : k = jobId
  · rw [if_pos hk]
    refine iff_of_false ?_ fun h => h.2 (Or.inl hk)
    rintro ⟨⟨row', hrow', hexpired⟩, _⟩
    obtain ⟨row, _, heq⟩ := Option.map_eq_some_iff.mp hrow'
    rw [← heq] at hexpired
    split at hexpired
    · have hstatus := (Job.expired_iff.mp hexpired).1
      cases hstatus
    · rename_i hnot
      exact hnot (expired_mono hexpired hle)
  · rw [if_neg hk]
    simp [hk]

/-- Each call takes a batch from the rows that had expired at the start. -/
theorem calls_work (hrun : Run (step settings) s₀ tr s) (hresting : s₀.maintenance.reaper = [])
    (halone : ∀ e ∈ tr, e.2.reaperAlone limit s₀.store.now) :
    ∃ batches, batches.length = tr.countP startsCall ∧
      Backlog.Works limit (expiredIds s₀.store.now s₀.store.jobs) batches
        (expiredIds s₀.store.now s.store.jobs \ s.maintenance.reaper.toFinset) := by
  apply And.right (a := s₀.store.now ≤ s.store.now)
  refine hrun.induct (C := fun _ a => a.reaperAlone limit s₀.store.now) halone
    (I := fun tr s => s₀.store.now ≤ s.store.now ∧ ∃ batches,
      batches.length = tr.countP startsCall ∧
      Backlog.Works limit (expiredIds s₀.store.now s₀.store.jobs) batches
        (expiredIds s₀.store.now s.store.jobs \ s.maintenance.reaper.toFinset)) ?_ ?_
  · refine ⟨le_rfl, [], rfl, ?_⟩
    simp only [hresting, List.toFinset_nil, Finset.sdiff_empty]
    exact .nil _
  · rintro tr s a s' _ _ ⟨hclock, batches, hlength, hworks⟩ ha hstep
    cases a with
    | tick t =>
      cases move_of_step hstep with
      | tick hle hstore _ _ hmaintenance =>
        refine ⟨?_, batches, ?_, ?_⟩
        · rw [hstore]
          exact hclock.trans hle
        · simpa [startsCall] using hlength
        · rw [hstore, hmaintenance]
          exact hworks
    | maintenance b =>
      cases b with
      | reaperSelect l order =>
        obtain rfl : l = limit := ha
        obtain ⟨hreaper, hsorts, hstore, hreaper'⟩ := reaperSelect_sorts hstep
        rw [hreaper, List.toFinset_nil, Finset.sdiff_empty] at hworks
        rw [hstore, hreaper']
        refine ⟨hclock,
          batches ++ [expiredIds s₀.store.now s.store.jobs ∩ (order.take l).toFinset], ?_, ?_⟩
        · simp [startsCall, hlength]
        · rw [← Finset.sdiff_inter_self_left]
          exact hworks.snoc Finset.inter_subset_left (batch_takes_oldest hclock hsorts l)
      | reaperUpdate began =>
        obtain ⟨_, _, _, _, _, hnow, _⟩ := reaperUpdate_row hstep
        refine ⟨by rwa [hnow], batches, ?_, ?_⟩
        · simpa [startsCall] using hlength
        · rw [expiredIds_update ha hstep]
          exact hworks
      | _ => cases ha
    | worker | api | tamper => cases ha

/-- A call that has selected its candidates can be carried to its end. -/
theorem exists_callEnd (settings : Settings) (limit : Nat) (s : State) :
    ∃ tr s', Run (step settings) s tr s' ∧
    (∀ e ∈ tr, e.2.reaperAlone limit s.store.now) ∧ tr.countP startsCall = 0 ∧
    s'.maintenance.reaper = [] ∧ s'.store.now = s.store.now := by
  induction hreaper : s.maintenance.reaper generalizing s with
  | nil => exact ⟨[], s, .nil, by simp, rfl, hreaper, rfl⟩
  | cons jobId rest ih =>
    obtain ⟨s₁, hstep⟩ : ∃ s₁,
        step settings s (.maintenance (.reaperUpdate s.store.now)) = some s₁ := by
      simp [step, maintenanceStep, hreaper]
    obtain ⟨_, rest', hcons, hrest, _, hnow, _⟩ := reaperUpdate_row hstep
    have hrest' : s₁.maintenance.reaper = rest := by
      rw [hreaper] at hcons
      cases hcons
      exact hrest
    obtain ⟨tr, s', hrun, halone, hcount, hdone, hnow'⟩ := ih s₁ hrest'
    refine ⟨_, s', (Run.of_step hstep).append hrun, ?_, ?_, hdone, hnow'.trans hnow⟩
    · intro e he
      rcases List.mem_append.mp he with he | he
      · rw [List.mem_singleton.mp he]
        exact le_rfl
      · rw [← hnow]
        exact halone e he
    · rw [List.countP_append, hcount]
      rfl

/-- Calls can be repeated any number of times. -/
theorem exists_calls (n : Nat) (hresting : s₀.maintenance.reaper = []) :
    ∃ tr s, Run (step settings) s₀ tr s ∧ (∀ e ∈ tr, e.2.reaperAlone limit s₀.store.now) ∧
      tr.countP startsCall = n ∧ s.maintenance.reaper = [] ∧ s.store.now = s₀.store.now := by
  induction n with
  | zero => exact ⟨[], s₀, .nil, by simp, rfl, hresting, rfl⟩
  | succ n ih =>
    obtain ⟨tr, s, hrun, halone, hcount, hdone, hnow⟩ := ih
    obtain ⟨order, horder⟩ := exists_reaper_order s.store.jobs s.store.now
    obtain ⟨s₁, hselect⟩ : ∃ s₁,
        step settings s (.maintenance (.reaperSelect limit order)) = some s₁ := by
      simp [step, maintenanceStep, hdone, horder]
    obtain ⟨_, _, hstore, _⟩ := reaperSelect_sorts hselect
    obtain ⟨tr', s', hrun', halone', hcount', hdone', hnow'⟩ :=
      exists_callEnd settings limit s₁
    refine ⟨_, s', (hrun.snoc hselect).append hrun', ?_, ?_, hdone', ?_⟩
    · intro e he
      rw [List.append_assoc, List.mem_append, List.mem_append] at he
      rcases he with he | he | he
      · exact halone e he
      · rw [List.mem_singleton.mp he]
        rfl
      · rw [← hnow, ← hstore]
        exact halone' e he
    · rw [List.countP_append, List.countP_append, hcount, hcount']
      rfl
    · rw [hnow', hstore, hnow]

/-! ## The guarantee -/

/-- From any state in which the reaper rests. After the `SELECT` of a call and any steps of
the other parties: an `UPDATE` changes a row just if it is the candidate's and then has an
expired lease by the start of its transaction, and the new row differs in what `Job.reap`
writes; and the count is the number of rows changed. With no other party, calls can be
repeated, and `⌈n / limit⌉` of them leave none of `n` expired rows. -/
theorem reaping_is_exact (settings : Settings) (s₀ : State) (limit : Nat) (hlimit : 1 ≤ limit)
    (hresting : s₀.maintenance.reaper = []) :
    (∀ order s₁ tr s, step settings s₀ (.maintenance (.reaperSelect limit order)) = some s₁ →
      Run (step settings) s₁ tr s → (∀ e ∈ tr, e.2.withinCall) →
      (∀ e ∈ tr, ∀ began s', e.2 = .maintenance (.reaperUpdate began) →
        step settings e.1 e.2 = some s' → ∀ j,
        (s'.row j ≠ e.1.row j ↔ e.1.maintenance.reaper.head? = some j ∧
          ∃ row, e.1.row j = some row ∧ row.expired began = true) ∧
        (s'.row j ≠ e.1.row j → ∃ row, e.1.row j = some row ∧ s'.row j = some row.reap)) ∧
      ∃ changed : Finset UUID, changed.card = reapedCount tr ∧
        ∀ j, j ∈ changed ↔ ChangedByReaper settings tr j) ∧
    (∀ n, ∃ tr s, Run (step settings) s₀ tr s ∧
      (∀ e ∈ tr, e.2.reaperAlone limit s₀.store.now) ∧ tr.countP startsCall = n ∧
      s.maintenance.reaper = []) ∧
    ∀ tr s, Run (step settings) s₀ tr s → (∀ e ∈ tr, e.2.reaperAlone limit s₀.store.now) →
      s.maintenance.reaper = [] →
      (expiredIds s₀.store.now s₀.store.jobs).card ⌈/⌉ limit ≤ tr.countP startsCall →
      ∀ j row, s.row j = some row → row.expired s₀.store.now = false := by
  refine ⟨?_, ?_, ?_⟩
  · intro order s₁ tr s hselect hrun hwithin
    refine ⟨?_, reapedCount_eq_card hselect hrun hwithin⟩
    rintro ⟨t, _⟩ _ began s' rfl hstep j
    refine ⟨reaperUpdate_changes hstep, ?_⟩
    intro hchanged
    obtain ⟨row, hrow, _, hreaped⟩ := reaperUpdate_reaps hstep hchanged
    exact ⟨row, hrow, hreaped⟩
  · intro n
    obtain ⟨tr, s, hrun, halone, hcount, hdone, _⟩ := exists_calls n hresting
    exact ⟨tr, s, hrun, halone, hcount, hdone⟩
  · intro tr s hrun halone hdone hcalls j row hrow
    obtain ⟨batches, hlength, hworks⟩ := calls_work hrun hresting halone
    rw [hdone, List.toFinset_nil, Finset.sdiff_empty] at hworks
    have hnone := hworks.eq_empty hlimit (by rwa [hlength])
    by_contra hexpired
    have hmem := mem_expiredIds.mpr ⟨row, hrow, Bool.eq_true_of_not_eq_false hexpired⟩
    rw [hnone] at hmem
    exact absurd hmem (Finset.notMem_empty j)

/-- A processing row with the lease `leasedUntil`. -/
def leasedJob (w : WorkerId) (leasedUntil : Timestamp) : Job :=
  { newJob {} webhookRequest none 0 with
    status := .processing, workerId := some w, leasedUntil := some leasedUntil }

/-- With a limit of one, two calls recover two jobs. -/
theorem reaping_is_exact_two :
    ∃ tr s, Run (step {})
      { store := { jobs := ((∅ : Jobs).insert 1 (leasedJob "a" 5)).insert 2 (leasedJob "b" 7)
                   now := 10 } } tr s ∧ tr.countP startsCall = 2 ∧
      ∀ j row, s.row j = some row → row.expired 10 = false := by
  obtain ⟨_, hexists, hdone⟩ := reaping_is_exact {}
    { store := { jobs := ((∅ : Jobs).insert 1 (leasedJob "a" 5)).insert 2 (leasedJob "b" 7)
                 now := 10 } } 1 le_rfl rfl
  obtain ⟨tr, s, hrun, halone, hcount, hreaper⟩ := hexists 2
  refine ⟨tr, s, hrun, hcount, hdone tr s hrun halone hreaper ?_⟩
  rw [hcount]
  decide +kernel

/-- Two expired jobs are selected. After the first `UPDATE` the second job is renewed, but the
transaction of its `UPDATE` starts when the renewed lease has expired as well. -/
theorem renewed_job_reaped :
    ∃ tr s₁ row₁ tr' s₂ row₂ s₃, Run (step {}) (State.initial 0) tr s₁ ∧
      tr.map Prod.snd = [.api 0 (.submit webhookRequest none), .api 0 (.insert 1), .api 0 .commit,
        .api 0 .command, .api 1 (.submit webhookRequest none), .api 1 (.insert 2), .api 1 .commit,
        .api 1 .command, .worker "a" .dequeue, .worker "a" (.claim 0 0), .worker "a" .start,
        .worker "b" .dequeue, .worker "b" (.claim 0 0), .worker "b" .start, .worker "b" .beat,
        .tick 61000000, .maintenance (.reaperSelect 100 [1, 2]),
        .maintenance (.reaperUpdate 61000000)] ∧
      s₁.maintenance.reaper = [2] ∧ s₁.row 2 = some row₁ ∧ row₁.leasedUntil = some 60000000 ∧
      Run (step {}) s₁ tr' s₂ ∧
      tr'.map Prod.snd = [.worker "b" (.renew 61000000), .tick 122000000] ∧
      s₂.row 2 = some row₂ ∧ row₂.leasedUntil = some 121000000 ∧
      step {} s₂ (.maintenance (.reaperUpdate 122000000)) = some s₃ ∧ s₃.row 2 ≠ s₂.row 2 := by
  obtain ⟨tr, s₁, hrun, hactions, hcheck⟩ := run_of_check (step {}) (State.initial 0)
    [.api 0 (.submit webhookRequest none), .api 0 (.insert 1), .api 0 .commit,
      .api 0 .command, .api 1 (.submit webhookRequest none), .api 1 (.insert 2), .api 1 .commit,
      .api 1 .command, .worker "a" .dequeue, .worker "a" (.claim 0 0), .worker "a" .start,
      .worker "b" .dequeue, .worker "b" (.claim 0 0), .worker "b" .start, .worker "b" .beat,
      .tick 61000000, .maintenance (.reaperSelect 100 [1, 2]),
      .maintenance (.reaperUpdate 61000000)]
    (fun _ s₁ => s₁.maintenance.reaper = [2] ∧
      ((s₁.row 2).any fun row => row.leasedUntil = some 60000000) ∧
      (exec (step {}) s₁ [.worker "b" (.renew 61000000), .tick 122000000]).any fun r =>
        ((r.2.row 2).any fun row => row.leasedUntil = some 121000000) ∧
        (step {} r.2 (.maintenance (.reaperUpdate 122000000))).any fun s₃ =>
          s₃.row 2 ≠ r.2.row 2)
    (by decide +kernel)
  simp only [decide_eq_true_eq, Option.any_eq_true] at hcheck
  obtain ⟨hreaper, ⟨row₁, hrow₁, hlease₁⟩, ⟨tr', s₂⟩, hexec, ⟨row₂, hrow₂, hlease₂⟩, s₃, hstep,
    hchanged⟩ := hcheck
  exact ⟨tr, s₁, row₁, tr', s₂, row₂, s₃, hrun, hactions, hreaper, hrow₁, hlease₁,
    run_of_exec hexec, exec_actions hexec, hrow₂, hlease₂, hstep, hchanged⟩

end JobQueue
