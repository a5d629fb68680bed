import JobQueue.Guarantees.Pagination
import JobQueue.System.Requests

/-!
# Reading the list of jobs while the system runs

The pages of `list_jobs` are offsets into the jobs as they stand when each page is asked for.
Between two pages jobs are submitted and processed. A row is never deleted and keeps its
`created_at` and its type, so in a list that is not filtered by status a job only moves back:
a client that pages until an empty page has seen every job that was there when it began, and
some of them again where newer ones came in (`listing_while_running`). With a filter by
status jobs also leave the list, and one behind them is passed over
(`filtered_listing_misses_job`).
-/

namespace JobQueue

open Relational Transition

/-! ## The client -/

/-- What a client collects from page `k` on, and the state in which it gets its empty page.
The system takes any steps between two pages. -/
inductive ListsAlong (settings : Settings) (q : ListQuery) :
    Nat → State → List (UUID × Job) → State → Prop
  | stop {k s selected} (hselects : Table.Selects s.store.jobs q.admits Job.listsBefore selected)
      (hempty : (listJobs s.store.jobs (q.page k) selected).1 = []) : ListsAlong settings q k s [] s
  | next {k s selected tr t rest last}
      (hselects : Table.Selects s.store.jobs q.admits Job.listsBefore selected)
      (hpage : (listJobs s.store.jobs (q.page k) selected).1 ≠ [])
      (hrun : Run (step settings) s tr t) (hrest : ListsAlong settings q (k + 1) t rest last) :
      ListsAlong settings q k s ((listJobs s.store.jobs (q.page k) selected).1 ++ rest) last

variable {settings : Settings} {q : ListQuery} {s₀ s s' : State} {tr : List (State × Action)}
  {j : UUID} {row : Job} {collected : List (UUID × Job)} {k : Nat}

/-- The number of listed jobs that are newer than `createdAt`. -/
def newer (q : ListQuery) (createdAt : Timestamp) (s : State) : Nat :=
  (Table.rows s.store.jobs q.admits).countP fun e => createdAt < e.2.createdAt

/-- The times a client got job `j`. -/
def timesListed (j : UUID) (collected : List (UUID × Job)) : Nat :=
  collected.countP fun e => e.1 = j

/-! ## The table while the system runs -/

theorem mem_rows {jobs : Jobs} {p : Job → Bool} {e : UUID × Job} :
    e ∈ Table.rows jobs p ↔ jobs.lookup e.1 = some e.2 ∧ p e.2 = true := by
  simp only [Table.rows, List.mem_map, List.mem_filter]
  constructor
  · rintro ⟨⟨k, r⟩, ⟨hmem, hp⟩, rfl⟩
    exact ⟨AList.mem_lookup_iff.mpr hmem, hp⟩
  · rintro ⟨hrow, hp⟩
    exact ⟨⟨e.1, e.2⟩, ⟨AList.mem_lookup_iff.mp hrow, hp⟩, rfl⟩

theorem nodup_stamped (jobs : Jobs) (p : Job → Bool) :
    ((Table.rows jobs p).map fun e => (e.1, e.2.createdAt)).Nodup := by
  apply List.Nodup.of_map Prod.fst
  rw [List.map_map]
  have hkeys : (Table.rows jobs p).map (Prod.fst ∘ fun e => (e.1, e.2.createdAt)) =
      Table.matching jobs p := by
    rw [Table.rows, List.map_map]
    rfl
  rw [hkeys]
  exact Table.nodup_matching jobs p

/-- Between two pages the system takes a run from a state that it has reached. -/
def Between (settings : Settings) (s₀ s s' : State) : Prop :=
  (∃ tr, Run (step settings) s₀ tr s) ∧ ∃ tr, Run (step settings) s tr s'

/-- A list that is not filtered by status loses no job, and no job in it changes its place in
time. -/
theorem list_grows (hquiet : s₀.Quiet) (hstatus : q.status = none) :
    Paging.Grows listKey (fun s : State => Table.rows s.store.jobs q.admits)
      (Between settings s₀) := by
  rintro s s' ⟨⟨tr₁, hrun₁⟩, tr₂, hrun₂⟩
  have hsubset : ((Table.rows s.store.jobs q.admits).map fun e => (e.1, e.2.createdAt)) ⊆
      (Table.rows s'.store.jobs q.admits).map fun e => (e.1, e.2.createdAt) := by
    intro x hx
    obtain ⟨⟨j, row⟩, he, rfl⟩ := List.mem_map.mp hx
    obtain ⟨hrow, hadmits⟩ := mem_rows.mp he
    obtain ⟨row', hrow', hrequest⟩ := request_of_run hquiet hrun₁ hrun₂ hrow
    have htype : row'.jobType = row.jobType := congrArg Request.jobType hrequest
    have hcreated : row'.createdAt = row.createdAt := congrArg Request.createdAt hrequest
    refine List.mem_map.mpr ⟨(j, row'), mem_rows.mpr ⟨hrow', ?_⟩, ?_⟩
    · simpa [ListQuery.admits, hstatus, htype] using hadmits
    · rw [hcreated]
  obtain ⟨kept, hperm, hsublist⟩ := List.subperm_of_subset (nodup_stamped _ _) hsubset
  have hperm' := hperm.map fun x => OrderDual.toDual x.2
  have hsublist' := hsublist.map fun x => OrderDual.toDual x.2
  rw [List.map_map] at hperm' hsublist'
  exact ⟨_, hperm', hsublist'⟩

/-! ## The client as one of a growing result -/

theorem ListsAlong.browses (h : ListsAlong settings q k s collected s')
    (hrun : Run (step settings) s₀ tr s) :
    Paging.Browses listKey q.limit (fun s : State => Table.rows s.store.jobs q.admits)
      (Between settings s₀) k s collected s' := by
  induction h generalizing tr with
  | stop hselects hempty => exact .stop (selects_iff.mp hselects) hempty
  | next hselects hpage hbetween _ ih =>
    exact .next (selects_iff.mp hselects) hpage ⟨⟨tr, hrun⟩, _, hbetween⟩
      (ih (hrun.append hbetween))

theorem ListsAlong.reaches (h : ListsAlong settings q k s collected s') :
    ∃ tr, Run (step settings) s tr s' := by
  induction h with
  | stop => exact ⟨[], .nil⟩
  | next _ _ hrun _ ih =>
    obtain ⟨tr, hrest⟩ := ih
    exact ⟨_, hrun.append hrest⟩

/-- The row a client gets of a job is the one the job had at some time in between. -/
theorem ListsAlong.sound (h : ListsAlong settings q k s collected s') :
    ∀ e ∈ collected, ∃ tr t tr', Run (step settings) s tr t ∧ Run (step settings) t tr' s' ∧
      t.row e.1 = some e.2 ∧ q.admits e.2 = true := by
  induction h with
  | stop => simp
  | @next k s selected tr t rest last hselects hpage hrun hrest ih =>
    intro e he
    rcases List.mem_append.mp he with he | he
    · have hin : e ∈ selected := List.mem_of_mem_drop (List.mem_of_mem_take he)
      obtain ⟨hrow, hadmits⟩ := mem_rows.mp (hselects.1.mem_iff.mp hin)
      obtain ⟨tr', hafter⟩ := hrest.reaches
      exact ⟨[], s, _, .nil, hrun.append hafter, hrow, hadmits⟩
    · obtain ⟨tr₁, u, tr₂, hrun₁, hrun₂, hrow⟩ := ih e he
      exact ⟨_, u, tr₂, hrun.append hrun₁, hrun₂, hrow⟩

theorem rank_eq_newer (q : ListQuery) (createdAt : Timestamp) (s : State) :
    Paging.rank listKey (Table.rows s.store.jobs q.admits) (OrderDual.toDual createdAt) =
      newer q createdAt s := by
  simp only [Paging.rank, newer, listKey, OrderDual.toDual_lt_toDual]

/-- Rows that carry the `created_at` of job `j` only where they are its own. -/
theorem group_eq_timesListed {items : List (UUID × Job)}
    (hsame : ∀ e ∈ items, e.2.createdAt = row.createdAt ↔ e.1 = j) :
    Paging.group listKey items (OrderDual.toDual row.createdAt) = timesListed j items := by
  apply List.countP_congr
  intro e he
  simpa [listKey] using hsame e he

theorem timesListed_rows {jobs : Jobs} {p : Job → Bool} :
    timesListed j (Table.rows jobs p) ≤ 1 := by
  have hkeys : (Table.rows jobs p).map Prod.fst = Table.matching jobs p := by
    rw [Table.rows, List.map_map]
    rfl
  have hnodup := Table.nodup_matching jobs p
  rw [← hkeys] at hnodup
  have hcount := List.nodup_iff_count_le_one.mp hnodup j
  rw [List.count, List.countP_map] at hcount
  refine le_trans (List.countP_mono_left ?_) hcount
  intro e _ he
  simpa using he

/-! ## The guarantee -/

/-- A client that reads the list of jobs, of all states, until it gets an empty page, while the
system takes any steps, has got every job that was in the list when it began and whose
`created_at` no other listed job shares. It gets such a job again at most once for each newer
job that came into the list in between. -/
theorem listing_while_running {now : Timestamp} (hstatus : q.status = none)
    (hrun : Run (step settings) (State.initial now) tr s)
    (hlists : ListsAlong settings q 0 s collected s') (hrow : s.row j = some row)
    (hadmits : q.admits row = true)
    (honly : ∀ i other, s'.row i = some other → q.admits other = true →
      other.createdAt = row.createdAt → i = j) :
    1 ≤ timesListed j collected ∧
      timesListed j collected + newer q row.createdAt s ≤ newer q row.createdAt s' + 1 := by
  have hquiet := State.quiet_initial now
  have hgrows : Paging.Grows listKey (fun s : State => Table.rows s.store.jobs q.admits)
      (Between settings (State.initial now)) := list_grows hquiet hstatus
  have hbrowses := hlists.browses hrun
  -- whatever row was read, job `j` and its `created_at` tell each other in it
  have hsame : ∀ t tr₁ tr₂, Run (step settings) s tr₁ t → Run (step settings) t tr₂ s' →
      ∀ i other, t.row i = some other → q.admits other = true →
        (other.createdAt = row.createdAt ↔ i = j) := by
    intro t tr₁ tr₂ hrun₁ hrun₂ i other hother hother_admits
    constructor
    · intro hcreated
      obtain ⟨later, hlater, hrequest⟩ := request_of_run hquiet (hrun.append hrun₁) hrun₂ hother
      have htype : later.jobType = other.jobType := congrArg Request.jobType hrequest
      have hstays : later.createdAt = other.createdAt := congrArg Request.createdAt hrequest
      refine honly i later hlater ?_ (hstays.trans hcreated)
      simpa [ListQuery.admits, hstatus, htype] using hother_admits
    · rintro rfl
      obtain ⟨later, hlater, hrequest⟩ := request_of_run hquiet hrun hrun₁ hrow
      rw [hother] at hlater
      cases hlater
      exact congrArg Request.createdAt hrequest
  have hstart : Paging.group listKey (Table.rows s.store.jobs q.admits)
      (OrderDual.toDual row.createdAt) = timesListed j (Table.rows s.store.jobs q.admits) := by
    apply group_eq_timesListed
    intro e he
    obtain ⟨hother, hother_admits⟩ := mem_rows.mp he
    obtain ⟨tr', hrun'⟩ := hlists.reaches
    exact hsame s [] tr' .nil hrun' e.1 e.2 hother hother_admits
  have hend : Paging.group listKey (Table.rows s'.store.jobs q.admits)
      (OrderDual.toDual row.createdAt) = timesListed j (Table.rows s'.store.jobs q.admits) := by
    apply group_eq_timesListed
    intro e he
    obtain ⟨hother, hother_admits⟩ := mem_rows.mp he
    obtain ⟨tr', hrun'⟩ := hlists.reaches
    exact hsame s' tr' [] hrun' .nil e.1 e.2 hother hother_admits
  have hgot : Paging.group listKey collected (OrderDual.toDual row.createdAt) =
      timesListed j collected := by
    apply group_eq_timesListed
    intro e he
    obtain ⟨tr₁, t, tr₂, hrun₁, hrun₂, hother, hother_admits⟩ := hlists.sound e he
    exact hsame t tr₁ tr₂ hrun₁ hrun₂ e.1 e.2 hother hother_admits
  have hhas : 1 ≤ timesListed j (Table.rows s.store.jobs q.admits) := by
    apply List.countP_pos_iff.mpr
    exact ⟨(j, row), mem_rows.mpr ⟨hrow, hadmits⟩, by simp⟩
  rw [← hstart] at hhas
  have hunique : timesListed j (Table.rows s'.store.jobs q.admits) ≤ 1 := timesListed_rows
  rw [← hend] at hunique
  have hseen := hbrowses.collected hgrows q.limit_ge hhas hunique (by omega)
  have hagain := hbrowses.repeated hgrows hhas hunique
  simp only [rank_eq_newer, hgot] at hseen hagain
  constructor
  · exact hseen
  · omega

/-- With one job a page, job 1 is listed as pending; then job 2 is submitted, a worker claims
job 1, and the second page has job 1 again. -/
theorem listing_while_running_again :
    ∃ tr s collected s', Run (step {}) (State.initial 0) tr s ∧
      ListsAlong {} { limit := 1 } 0 s collected s' ∧
      collected.map (fun e => (e.1, e.2.status)) = [(1, .pending), (1, .processing)] ∧
      1 ≤ timesListed 1 collected ∧
      timesListed 1 collected + newer { limit := 1 } 0 s ≤ newer { limit := 1 } 0 s' + 1 := by
  let pending := newJob {} webhookRequest none 0
  let running := pending.claim 5 5 (Settings.workerLease {}) "w1"
  let second := newJob {} webhookRequest none 5
  let acts : List Action := [.tick 5, .api 1 (.submit webhookRequest none), .api 1 (.insert 2),
    .api 1 .commit, .api 0 .command, .worker "w1" .dequeue, .worker "w1" (.claim 5 5)]
  obtain ⟨tr, s, hrun, _, hcheck⟩ := run_of_check (step {}) (State.initial 0)
    [.api 0 (.submit webhookRequest none), .api 0 (.insert 1), .api 0 .commit]
    (fun _ s => s.row 1 = some pending ∧
      Table.Selects s.store.jobs (ListQuery.admits { limit := 1 }) Job.listsBefore [(1, pending)] ∧
      (exec (step {}) s acts).any fun r => r.2.row 1 = some running ∧
        Table.Selects r.2.store.jobs (ListQuery.admits { limit := 1 }) Job.listsBefore
          [(2, second), (1, running)]) (by decide +kernel)
  simp only [decide_eq_true_eq, Option.any_eq_true] at hcheck
  obtain ⟨hrow, hselects, ⟨tr', s'⟩, hexec, hrow', hselects'⟩ := hcheck
  have hlists : ListsAlong {} { limit := 1 } 0 s ([(1, pending)] ++ ([(1, running)] ++ [])) s' :=
    .next hselects (List.cons_ne_nil _ _) (run_of_exec hexec)
      (.next hselects' (List.cons_ne_nil _ _) .nil (.stop hselects' rfl))
  refine ⟨tr, s, _, s', hrun, hlists, by decide, ?_⟩
  refine listing_while_running rfl hrun hlists hrow (by decide) ?_
  intro i other hother hadmits hcreated
  have hin : (i, other) ∈ [(2, second), (1, running)] :=
    hselects'.1.mem_iff.mpr (mem_rows.mpr ⟨hother, hadmits⟩)
  rcases List.mem_cons.mp hin with heq | hin
  · cases heq
    exact absurd hcreated (by decide)
  · cases List.mem_singleton.mp hin
    rfl

/-- In a list of the pending jobs, with one job a page, job 2 is listed and then cancelled. Job 1
moves to its place, and the client that asks for the second page never gets it. -/
theorem filtered_listing_misses_job :
    ∃ tr s collected s' row, Run (step {}) (State.initial 0) tr s ∧
      ListsAlong {} { status := some .pending, limit := 1 } 0 s collected s' ∧
      s.row 1 = some row ∧ s'.row 1 = some row ∧ row.status = .pending ∧
      timesListed 1 collected = 0 := by
  let first := newJob {} webhookRequest none 0
  let second := newJob {} webhookRequest none 5
  let q : ListQuery := { status := some .pending, limit := 1 }
  obtain ⟨tr, s, hrun, _, hcheck⟩ := run_of_check (step {}) (State.initial 0)
    [.api 0 (.submit webhookRequest none), .api 0 (.insert 1), .api 0 .commit, .tick 5,
      .api 1 (.submit webhookRequest none), .api 1 (.insert 2), .api 1 .commit]
    (fun _ s => s.row 1 = some first ∧
      Table.Selects s.store.jobs q.admits Job.listsBefore [(2, second), (1, first)] ∧
      (exec (step {}) s [.api 2 (.cancel 2), .api 2 .commit]).any fun r =>
        r.2.row 1 = some first ∧
        Table.Selects r.2.store.jobs q.admits Job.listsBefore [(1, first)]) (by decide +kernel)
  simp only [decide_eq_true_eq, Option.any_eq_true] at hcheck
  obtain ⟨hrow, hselects, ⟨tr', s'⟩, hexec, hrow', hselects'⟩ := hcheck
  have hlists : ListsAlong {} q 0 s ([(2, second)] ++ []) s' :=
    .next hselects (List.cons_ne_nil _ _) (run_of_exec hexec) (.stop hselects' rfl)
  exact ⟨tr, s, _, s', first, hrun, hlists, hrow, hrow', rfl, by decide⟩

end JobQueue
