import JobQueue.Library.Backlog
import JobQueue.Model.Service
import JobQueue.Model.Maintenance

/-!
# The scheduler promotes what is due

Cycles of the scheduler at a fixed database time and with nothing else going on. Whatever
`jobs:scheduled` holds, a cycle moves the due jobs among its candidates and nothing else,
counts them, and clears its candidates from `jobs:scheduled`; stale entries are additional
candidates and take no due row's place (`Promotes`). So the due jobs are a backlog, and
cycles work it off (`scheduler_promotes_all_due`).
-/

namespace JobQueue

open Relational

variable {now : Timestamp} {limit : Nat} {jobs jobs' : Jobs} {q q' : Redis} {ids : List UUID}
  {id : UUID} {row : Job}

/-! ## Due jobs -/

def dueIds (now : Timestamp) (jobs : Jobs) : Finset UUID :=
  (Table.matching jobs (Job.dueAt now)).toFinset

theorem mem_dueIds : id ∈ dueIds now jobs ↔ ∃ row, jobs.lookup id = some row ∧
    row.dueAt now = true := by
  rw [dueIds, List.mem_toFinset, Table.mem_matching]

theorem promote_not_due (row : Job) : row.promote.dueAt now = false := by
  simp [Job.dueAt, Job.promote]

/-- The jobs that a cycle with the candidates `ids` moves. -/
def movedIds (now : Timestamp) (jobs : Jobs) (ids : List UUID) : Finset UUID :=
  ids.toFinset ∩ dueIds now jobs

theorem mem_movedIds : id ∈ movedIds now jobs ids ↔ id ∈ ids ∧ id ∈ dueIds now jobs := by
  rw [movedIds, Finset.mem_inter, List.mem_toFinset]

/-- A promoted job is due no more, and the others are as before. -/
theorem dueIds_promote (jobId : UUID) (row : Job) :
    dueIds now (jobs.insert jobId row.promote) = (dueIds now jobs).erase jobId := by
  ext k
  rw [Finset.mem_erase, mem_dueIds, mem_dueIds]
  by_cases hk : k = jobId
  · subst hk
    simp [promote_not_due]
  · rw [AList.lookup_insert_ne hk]
    simp [hk]

theorem movedIds_cons_due {jobId : UUID} (hrow : jobs.lookup jobId = some row)
    (hdue : row.dueAt now = true) :
    movedIds now jobs (jobId :: ids) =
      insert jobId (movedIds now (jobs.insert jobId row.promote) ids) := by
  have hmem : jobId ∈ dueIds now jobs := mem_dueIds.mpr ⟨row, hrow, hdue⟩
  ext k
  rw [Finset.mem_insert, mem_movedIds, mem_movedIds, dueIds_promote, Finset.mem_erase,
    List.mem_cons]
  by_cases hk : k = jobId
  · subst hk
    simp [hmem]
  · simp [hk]

theorem movedIds_cons_stale {jobId : UUID}
    (hstale : ∀ row, jobs.lookup jobId = some row → row.dueAt now = false) :
    movedIds now jobs (jobId :: ids) = movedIds now jobs ids := by
  have hnot : jobId ∉ dueIds now jobs := by
    rw [mem_dueIds]
    rintro ⟨row, hrow, hdue⟩
    rw [hstale row hrow] at hdue
    cases hdue
  ext k
  rw [mem_movedIds, mem_movedIds, List.mem_cons]
  by_cases hk : k = jobId
  · subst hk
    simp [hnot]
  · simp [hk]

/-! ## One candidate -/

/-- Redis after the commands for a promoted candidate. -/
def Redis.promote (q : Redis) (jobId : UUID) (row : Job) : Redis :=
  ((q.removeScheduled jobId).enqueue jobId (priorityScore row.priority row.createdAt)).1

theorem promoteAll_cons_due {jobId : UUID} (hrow : jobs.lookup jobId = some row)
    (hdue : row.dueAt now = true) :
    promoteAll now jobs q (jobId :: ids) =
      let rest := promoteAll now (jobs.insert jobId row.promote) (q.promote jobId row) ids
      (rest.1, rest.2.1, rest.2.2 + 1) := by
  have hpromoted : promoteScheduled jobs now jobId =
      (jobs.insert jobId row.promote, some row.promote) :=
    Table.updateWhere_of_lookup hrow hdue
  rw [promoteAll, hpromoted]
  rfl

theorem promoteAll_cons_stale {jobId : UUID}
    (hstale : ∀ row, jobs.lookup jobId = some row → row.dueAt now = false) :
    promoteAll now jobs q (jobId :: ids) = promoteAll now jobs (q.removeScheduled jobId) ids := by
  have hdropped : promoteScheduled jobs now jobId = (jobs, none) := by
    rcases Table.updateWhere_cases jobs jobId (Job.dueAt now) Job.promote with
      ⟨row, hrow, hdue, _⟩ | ⟨_, hnone⟩
    · rw [hstale row hrow] at hdue
      cases hdue
    · exact hnone
  rw [promoteAll, hdropped]

theorem due_or_stale (now : Timestamp) (jobs : Jobs) (jobId : UUID) :
    (∃ row, jobs.lookup jobId = some row ∧ row.dueAt now = true) ∨
      ∀ row, jobs.lookup jobId = some row → row.dueAt now = false := by
  cases hrow : jobs.lookup jobId with
  | none =>
    right
    intro row h
    cases h
  | some row =>
    cases hdue : row.dueAt now with
    | true => exact Or.inl ⟨row, rfl, hdue⟩
    | false =>
      right
      rintro _ ⟨⟩
      exact hdue

/-! ## All candidates of a cycle -/

theorem promoteAll_count (ids : List UUID) (jobs : Jobs) (q : Redis) :
    (promoteAll now jobs q ids).2.2 = (movedIds now jobs ids).card := by
  induction ids generalizing jobs q with
  | nil => simp [promoteAll, movedIds]
  | cons jobId ids ih =>
    rcases due_or_stale now jobs jobId with ⟨row, hrow, hdue⟩ | hstale
    · have hnot : jobId ∉ movedIds now (jobs.insert jobId row.promote) ids := by
        rw [mem_movedIds, dueIds_promote]
        simp
      rw [promoteAll_cons_due hrow hdue, movedIds_cons_due hrow hdue,
        Finset.card_insert_of_notMem hnot, ← ih]
    · rw [promoteAll_cons_stale hstale, movedIds_cons_stale hstale, ih]

theorem promoteAll_scheduled (ids : List UUID) (jobs : Jobs) (q : Redis) :
    id ∈ (promoteAll now jobs q ids).2.1.scheduled ↔ id ∈ q.scheduled ∧ id ∉ ids := by
  induction ids generalizing jobs q with
  | nil => simp [promoteAll]
  | cons jobId ids ih =>
    have hremove : ∀ row, (q.promote jobId row).scheduled = (q.removeScheduled jobId).scheduled :=
      fun _ => rfl
    have hcons : (id ∈ (q.removeScheduled jobId).scheduled ∧ id ∉ ids) ↔
        id ∈ q.scheduled ∧ id ∉ jobId :: ids := by
      rw [Redis.removeScheduled, SortedSet.mem_zrem, List.mem_cons]
      tauto
    rcases due_or_stale now jobs jobId with ⟨row, hrow, hdue⟩ | hstale
    · rw [promoteAll_cons_due hrow hdue, ← hcons, ← hremove row]
      exact ih _ _
    · rw [promoteAll_cons_stale hstale, ← hcons]
      exact ih _ _

theorem promote_pending_ne {jobId : UUID} (h : id ≠ jobId) :
    (q.promote jobId row).pending.lookup id = q.pending.lookup id :=
  SortedSet.lookup_zadd_ne h

/-- A cycle leaves the queue's entries of jobs that it does not move. -/
theorem promoteAll_pending_other (ids : List UUID) (jobs : Jobs) (q : Redis)
    (h : id ∉ movedIds now jobs ids) :
    (promoteAll now jobs q ids).2.1.pending.lookup id = q.pending.lookup id := by
  induction ids generalizing jobs q with
  | nil => rfl
  | cons jobId ids ih =>
    rcases due_or_stale now jobs jobId with ⟨row, hrow, hdue⟩ | hstale
    · rw [movedIds_cons_due hrow hdue, Finset.mem_insert, not_or] at h
      rw [promoteAll_cons_due hrow hdue]
      exact (ih _ _ h.2).trans (promote_pending_ne h.1)
    · rw [movedIds_cons_stale hstale] at h
      rw [promoteAll_cons_stale hstale]
      exact ih _ _ h

/-- A job that a cycle moves is queued with its score. -/
theorem promoteAll_pending (ids : List UUID) (jobs : Jobs) (q : Redis)
    (h : id ∈ movedIds now jobs ids) (hrow : jobs.lookup id = some row) :
    (promoteAll now jobs q ids).2.1.pending.lookup id =
      some (Binary64.round (priorityScore row.priority row.createdAt)) := by
  induction ids generalizing jobs q with
  | nil => simp [movedIds] at h
  | cons jobId ids ih =>
    rcases due_or_stale now jobs jobId with ⟨row₁, hrow₁, hdue⟩ | hstale
    · rw [promoteAll_cons_due hrow₁ hdue]
      rw [movedIds_cons_due hrow₁ hdue, Finset.mem_insert] at h
      by_cases hid : id = jobId
      · -- the later candidates do not touch its entry
        subst hid
        rw [hrow] at hrow₁
        cases hrow₁
        have hnot : id ∉ movedIds now (jobs.insert id row.promote) ids := by
          rw [mem_movedIds, dueIds_promote]
          simp
        exact (promoteAll_pending_other ids _ _ hnot).trans (SortedSet.lookup_zadd _ _ _)
      · exact ih _ _ (h.resolve_left hid) (by rwa [AList.lookup_insert_ne hid])
    · rw [movedIds_cons_stale hstale] at h
      rw [promoteAll_cons_stale hstale]
      exact ih _ _ h hrow

/-! ## One cycle -/

/-- The rows that are scheduled in one table and pending in the other. -/
def scheduledToPending (jobs jobs' : Jobs) : Finset UUID :=
  (Table.matching jobs fun job => job.status = .scheduled).toFinset.filter fun id =>
    (jobs'.lookup id).any fun job => job.status = .pending

theorem mem_scheduledToPending : id ∈ scheduledToPending jobs jobs' ↔
    (∃ row, jobs.lookup id = some row ∧ row.status = .scheduled) ∧
      ∃ row', jobs'.lookup id = some row' ∧ row'.status = .pending := by
  simp only [scheduledToPending, Finset.mem_filter, List.mem_toFinset, Table.mem_matching,
    decide_eq_true_eq, Option.any_eq_true]

/-- What a cycle of the scheduler has done, by its result. -/
structure Promotes (now : Timestamp) (limit : Nat) (jobs : Jobs) (q : Redis)
    (result : Jobs × Redis × Nat) : Prop where
  count : result.2.2 = (scheduledToPending jobs result.1).card
  enough : min limit (dueIds now jobs).card ≤ result.2.2
  moved : ∀ id ∈ scheduledToPending jobs result.1, ∃ row, jobs.lookup id = some row ∧
    row.dueAt now = true ∧ result.1.lookup id = some row.promote ∧
    result.2.1.pending.lookup id =
      some (Binary64.round (priorityScore row.priority row.createdAt)) ∧
    id ∉ result.2.1.scheduled
  others : ∀ id, id ∉ scheduledToPending jobs result.1 → result.1.lookup id = jobs.lookup id
  taken : ∀ id ∈ q.dueScheduled (timestamp now) limit, id ∉ result.2.1.scheduled

variable {order : List UUID}

theorem scheduledToPending_cycle (limit : Nat) (moment now : Timestamp) (order : List UUID)
    (jobs : Jobs) (q : Redis) :
    scheduledToPending jobs (promoteDueScheduled limit moment now order jobs q).1 =
      movedIds now jobs (candidates (q.dueScheduled (timestamp moment) limit) (order.take limit)) := by
  ext id
  rw [mem_scheduledToPending, mem_movedIds, mem_dueIds, lookup_promoteDueScheduled]
  constructor
  · rintro ⟨⟨row, hrow, hscheduled⟩, row', hrow', hpending⟩
    rw [hrow] at hrow'
    split at hrow'
    · rename_i hin
      refine ⟨hin, row, hrow, ?_⟩
      by_contra hdue
      simp only [Option.map_some, if_neg hdue, Option.some.injEq] at hrow'
      rw [← hrow', hscheduled] at hpending
      cases hpending
    · cases hrow'
      rw [hscheduled] at hpending
      cases hpending
  · rintro ⟨hin, row, hrow, hdue⟩
    refine ⟨⟨row, hrow, (Job.dueAt_iff.mp hdue).1⟩, row.promote, ?_, rfl⟩
    rw [if_pos hin, hrow]
    simp [hdue]

theorem promotes_cycle (limit : Nat) (q : Redis)
    (horder : Table.Sorts jobs (Job.dueAt now) Job.scheduledBefore order) :
    Promotes now limit jobs q (promoteDueScheduled limit now now order jobs q) where
  count := by
    rw [scheduledToPending_cycle]
    exact promoteAll_count _ _ _
  enough := by
    -- the rows that the `SELECT` returns are candidates, whatever Redis has returned
    have hsub : (order.take limit).toFinset ⊆ movedIds now jobs
        (candidates (q.dueScheduled (timestamp now) limit) (order.take limit)) := by
      intro id hid
      have hin := List.mem_toFinset.mp hid
      rw [mem_movedIds, mem_candidates, mem_dueIds]
      exact ⟨Or.inr hin, horder.mem_iff.mp (List.mem_of_mem_take hin)⟩
    have hcard : (dueIds now jobs).card = order.length := by
      rw [dueIds, List.toFinset_card_of_nodup (Table.nodup_matching _ _), horder.length]
    have htake : (order.take limit).toFinset.card = min limit order.length := by
      rw [List.toFinset_card_of_nodup (horder.nodup.sublist (List.take_sublist _ _)),
        List.length_take]
    rw [promoteDueScheduled, promoteAll_count, hcard, ← htake]
    exact Finset.card_le_card hsub
  moved id hid := by
    rw [scheduledToPending_cycle] at hid
    obtain ⟨hin, hdue⟩ := mem_movedIds.mp hid
    obtain ⟨row, hrow, hdue⟩ := mem_dueIds.mp hdue
    refine ⟨row, hrow, hdue, ?_, promoteAll_pending _ _ _ hid hrow, ?_⟩
    · rw [lookup_promoteDueScheduled, if_pos hin, hrow]
      simp [hdue]
    · rw [promoteDueScheduled, promoteAll_scheduled]
      exact fun h => h.2 hin
  others id hid := by
    rw [scheduledToPending_cycle, mem_movedIds, not_and] at hid
    rw [lookup_promoteDueScheduled]
    split
    · rename_i hin
      have hnot := hid hin
      rw [mem_dueIds] at hnot
      cases hrow : jobs.lookup id with
      | none => rfl
      | some row =>
        have hdue : ¬ row.dueAt now = true := fun hdue => hnot ⟨row, hrow, hdue⟩
        simp [hdue]
    · rfl
  taken id hid := by
    rw [promoteDueScheduled, promoteAll_scheduled]
    exact fun h => h.2 (mem_candidates.mpr (Or.inl hid))

/-- A member of `jobs:scheduled` whose score has come is gone after a cycle, unless `limit` others
came before it. -/
theorem Promotes.gone {result : Jobs × Redis × Nat} {q : Redis} {limit : Nat} {r : ℚ}
    (h : Promotes now limit jobs q result) (hid : q.scheduled.lookup id = some r)
    (hdue : r ≤ timestamp now) (hlimit : (q.dueScheduled (timestamp now) limit).length < limit) :
    id ∉ result.2.1.scheduled := by
  apply h.taken
  by_contra hout
  have hfull := (Redis.dueScheduled_first hid hdue hout).1
  omega

/-- The jobs that were due and not moved are due still. -/
theorem dueIds_cycle {result : Jobs × Redis × Nat} {q : Redis}
    (h : Promotes now limit jobs q result) :
    scheduledToPending jobs result.1 ⊆ dueIds now jobs ∧
      dueIds now result.1 = dueIds now jobs \ scheduledToPending jobs result.1 := by
  constructor
  · intro id hid
    obtain ⟨row, hrow, hdue, _⟩ := h.moved id hid
    exact mem_dueIds.mpr ⟨row, hrow, hdue⟩
  · ext id
    rw [Finset.mem_sdiff]
    by_cases hid : id ∈ scheduledToPending jobs result.1
    · obtain ⟨row, _, _, hpromoted, _⟩ := h.moved id hid
      simp [hid, mem_dueIds, hpromoted, promote_not_due]
    · rw [mem_dueIds, mem_dueIds, h.others id hid]
      simp [hid]

/-! ## Repeated cycles -/

/-- Cycles one after the other, on any answers of their `SELECT`s; the jobs that each moves
are listed. -/
inductive Promotions (now : Timestamp) (limit : Nat) :
    Jobs → Redis → List (Finset UUID) → Jobs → Redis → Prop
  | nil (jobs : Jobs) (q : Redis) : Promotions now limit jobs q [] jobs q
  | cons {jobs q cycles jobs' q'} (order : List UUID)
      (horder : Table.Sorts jobs (Job.dueAt now) Job.scheduledBefore order)
      (hrest : Promotions now limit (promoteDueScheduled limit now now order jobs q).1
        (promoteDueScheduled limit now now order jobs q).2.1 cycles jobs' q') :
      Promotions now limit jobs q
        (scheduledToPending jobs (promoteDueScheduled limit now now order jobs q).1 :: cycles)
        jobs' q'

theorem exists_promotions (now : Timestamp) (limit n : Nat) (jobs : Jobs) (q : Redis) :
    ∃ cycles jobs' q', cycles.length = n ∧ Promotions now limit jobs q cycles jobs' q' := by
  induction n generalizing jobs q with
  | zero => exact ⟨[], jobs, q, rfl, .nil jobs q⟩
  | succ n ih =>
    obtain ⟨order, horder⟩ := exists_scheduler_order jobs now
    obtain ⟨cycles, jobs', q', hlength, hcycles⟩ := ih _ _
    exact ⟨_, jobs', q', by rw [List.length_cons, hlength], .cons order horder hcycles⟩

theorem Promotions.works {cycles : List (Finset UUID)}
    (h : Promotions now limit jobs q cycles jobs' q') :
    Backlog.Works limit (dueIds now jobs) cycles (dueIds now jobs') := by
  induction h with
  | nil => exact .nil _
  | @cons jobs q cycles jobs' q' order horder _ ih =>
    have hcycle := promotes_cycle limit q horder
    obtain ⟨hsub, hleft⟩ := dueIds_cycle hcycle
    rw [hleft] at ih
    exact .cons hsub (hcycle.count ▸ hcycle.enough) ih

/-! ## The guarantee -/

/-- From any table and any content of Redis: a cycle of the scheduler returns the number of
rows it moves, which is `min limit d` at least for `d` due jobs, and is exact
(`Promotes`); and cycles can be repeated, `⌈d / limit⌉` of them leaving no due job. -/
theorem scheduler_promotes_all_due (now : Timestamp) (limit : Nat) (jobs : Jobs) (q : Redis)
    (hlimit : 1 ≤ limit) :
    (∀ order, Table.Sorts jobs (Job.dueAt now) Job.scheduledBefore order →
      Promotes now limit jobs q (promoteDueScheduled limit now now order jobs q)) ∧
    (∀ n, ∃ cycles jobs' q', cycles.length = n ∧ Promotions now limit jobs q cycles jobs' q') ∧
    ∀ cycles jobs' q', Promotions now limit jobs q cycles jobs' q' →
      (dueIds now jobs).card ⌈/⌉ limit ≤ cycles.length →
      ∀ id row, jobs'.lookup id = some row → row.dueAt now = false := by
  refine ⟨fun order => promotes_cycle limit q, fun n => exists_promotions now limit n jobs q, ?_⟩
  intro cycles jobs' q' hcycles hlength id row hrow
  have hnone : dueIds now jobs' = ∅ := hcycles.works.eq_empty hlimit hlength
  by_contra hdue
  have hin := mem_dueIds.mpr ⟨row, hrow, Bool.eq_true_of_not_eq_false hdue⟩
  rw [hnone] at hin
  exact absurd hin (Finset.notMem_empty id)

/-- Two due jobs, of which Redis knows one, with a stale entry before it. -/
def twoDue : Jobs :=
  ((∅ : Jobs).insert 1 (newJob {} { webhookRequest with scheduledAt := some 5 } none 0)).insert 2
    (newJob {} { webhookRequest with scheduledAt := some 7 } none 0)

/-- With a limit of one, two cycles promote both. -/
theorem scheduler_promotes_all_due_two :
    ∃ cycles jobs' q', cycles.length = 2 ∧
      Promotions 10 1 twoDue ((({} : Redis).schedule 9 0).schedule 2 7) cycles jobs' q' ∧
      ∀ id row, jobs'.lookup id = some row → row.dueAt 10 = false := by
  obtain ⟨_, hexists, hdone⟩ := scheduler_promotes_all_due 10 1 twoDue
    ((({} : Redis).schedule 9 0).schedule 2 7) le_rfl
  obtain ⟨cycles, jobs', q', hlength, hcycles⟩ := hexists 2
  have hdue : (dueIds 10 twoDue).card = 2 := by decide +kernel
  refine ⟨cycles, jobs', q', hlength, hcycles, hdone cycles jobs' q' hcycles ?_⟩
  rw [hdue, hlength]
  decide

end JobQueue
