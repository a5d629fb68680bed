import JobQueue.Library.Backlog
import JobQueue.Model.Worker
import JobQueue.Model.Service
import JobQueue.Model.Maintenance

/-!
# Redis is rebuilt from PostgreSQL

Rounds of one feeder cycle and of dequeuing and claiming until `jobs:pending` is empty, at a
fixed database time and with nothing else going on. Whatever Redis held at first, the rounds
claim each ready job once, leave all other rows alone and end after one round for each
`limit` ready jobs (`redis_rebuilt`): the ready jobs are a backlog and each round claims a
batch of it (`Rounds.works`).
-/

namespace JobQueue

open Relational

variable {now lease : Timestamp} {limit : Nat} {jobs jobs' : Jobs} {q q' : Redis} {id : UUID}
  {row : Job}

/-! ## Dequeuing and claiming until nothing is left -/

/-- Who makes a claim, and what that worker's clock shows then. -/
abbrev Claimer := WorkerId × Timestamp

/-- `dequeue` and `claim_job` until `dequeue` returns `None`; the claims that won are listed.
The claimer of each turn is given by the number of turns still allowed. -/
def drain (now lease : Timestamp) (claimer : Nat → Claimer) :
    Nat → Jobs → Redis → Jobs × Redis × List UUID
  | 0, jobs, q => (jobs, q, [])
  | n + 1, jobs, q =>
      match q.dequeue.2 with
      | none => (jobs, q, [])
      | some jobId =>
          let claimed := claimJob jobs now (claimer n).2 jobId (claimer n).1 lease
          let rest := drain now lease claimer n claimed.1 q.dequeue.1
          (rest.1, rest.2.1, if claimed.2.isSome then jobId :: rest.2.2 else rest.2.2)

/-- The ids of the jobs the feeder and `claim_job` call ready. -/
def readyIds (now : Timestamp) (jobs : Jobs) : Finset UUID :=
  (Table.matching jobs (Job.ready now)).toFinset

theorem mem_readyIds : id ∈ readyIds now jobs ↔ ∃ row, jobs.lookup id = some row ∧
    row.ready now = true := by
  rw [readyIds, List.mem_toFinset, Table.mem_matching]

theorem claim_not_ready (clock : Timestamp) (w : WorkerId) (row : Job) :
    (row.claim now clock lease w).ready now = false := by
  simp [Job.ready, Job.claim]

/-- What a drain leaves, and which claims it won. -/
structure Drained (now lease : Timestamp) (jobs : Jobs) (q : Redis) (claims : List UUID)
    (jobs' : Jobs) (q' : Redis) : Prop where
  empty : ∀ id, id ∉ q'.pending
  nodup : claims.Nodup
  mem_claims : ∀ id, id ∈ claims ↔ id ∈ q.pending ∧ id ∈ readyIds now jobs
  claimed : ∀ id row, id ∈ claims → jobs.lookup id = some row →
    ∃ clock w, jobs'.lookup id = some (row.claim now clock lease w)
  others : ∀ id, id ∉ claims → jobs'.lookup id = jobs.lookup id

/-- One turn: a claim on a job of the queue, then a drain of the rest. -/
theorem Drained.turn {jobId : UUID} {clock : Timestamp} {w : WorkerId} {claims : List UUID}
    (hpop : q.dequeue.2 = some jobId)
    (h : Drained now lease (claimJob jobs now clock jobId w lease).1 q.dequeue.1 claims jobs' q') :
    Drained now lease jobs q
      (if (claimJob jobs now clock jobId w lease).2.isSome then jobId :: claims else claims)
      jobs' q' := by
  obtain ⟨hmem, hrest⟩ := Redis.dequeue_some hpop
  have hpending : ∀ id, id ∈ q.dequeue.1.pending ↔ id ≠ jobId ∧ id ∈ q.pending := by
    intro id
    rw [hrest]
    exact AList.mem_erase
  rcases Table.updateWhere_cases jobs jobId (Job.ready now) (Job.claim now clock lease w) with
    ⟨row, hrow, hready, hclaim⟩ | ⟨hnot, hclaim⟩
  · -- the claim wins
    rw [claimJob, hclaim] at h ⊢
    have hother : ∀ id, id ≠ jobId →
        (id ∈ readyIds now (jobs.insert jobId (row.claim now clock lease w)) ↔
          id ∈ readyIds now jobs) := by
      intro id hid
      rw [mem_readyIds, mem_readyIds, AList.lookup_insert_ne hid]
    have hnew : jobId ∉ claims := by
      intro hin
      have := ((h.mem_claims jobId).mp hin).1
      exact ((hpending jobId).mp this).1 rfl
    refine ⟨h.empty, ?_, ?_, ?_, ?_⟩
    · exact List.nodup_cons.mpr ⟨hnew, h.nodup⟩
    · intro id
      simp only [Option.isSome_some, if_true, List.mem_cons, h.mem_claims, hpending]
      by_cases hid : id = jobId
      · subst hid
        simp only [true_or, true_iff]
        exact ⟨hmem, mem_readyIds.mpr ⟨row, hrow, hready⟩⟩
      · simp only [hid, false_or, ne_eq, not_false_eq_true, true_and, hother id hid]
    · intro id row' hin hrow'
      simp only [Option.isSome_some, if_true, List.mem_cons] at hin
      by_cases hid : id = jobId
      · subst hid
        rw [hrow] at hrow'
        cases hrow'
        exact ⟨clock, w, by rw [h.others id hnew, AList.lookup_insert]⟩
      · refine h.claimed id row' (hin.resolve_left hid) ?_
        rw [AList.lookup_insert_ne hid]
        exact hrow'
    · intro id hout
      simp only [Option.isSome_some, if_true, List.mem_cons, not_or] at hout
      rw [h.others id hout.2, AList.lookup_insert_ne hout.1]
  · -- the job is gone, taken or not due: the entry was stale
    rw [claimJob, hclaim] at h ⊢
    have hstale : jobId ∉ readyIds now jobs := by
      rw [mem_readyIds]
      rintro ⟨row, hrow, hready⟩
      rw [hnot row hrow] at hready
      cases hready
    refine ⟨h.empty, h.nodup, ?_, h.claimed, h.others⟩
    intro id
    simp only [Option.isSome_none, Bool.false_eq_true, if_false, h.mem_claims, hpending]
    constructor
    · rintro ⟨⟨_, hq⟩, hready⟩
      exact ⟨hq, hready⟩
    · rintro ⟨hq, hready⟩
      refine ⟨⟨?_, hq⟩, hready⟩
      rintro rfl
      exact hstale hready

/-- With nothing in the queue there is nothing to do. -/
theorem Drained.stop (hnone : q.dequeue.2 = none) : Drained now lease jobs q [] jobs q := by
  have hempty := Redis.dequeue_none_iff.mp hnone
  refine ⟨hempty, List.nodup_nil, ?_, by simp, fun _ _ => rfl⟩
  intro id
  simp [hempty id]

/-- As many turns as the queue has entries empty it. -/
theorem drained_drain (claimer : Nat → Claimer) (n : Nat) (jobs : Jobs) (q : Redis)
    (hn : q.pending.zcard ≤ n) :
    Drained now lease jobs q (drain now lease claimer n jobs q).2.2
      (drain now lease claimer n jobs q).1 (drain now lease claimer n jobs q).2.1 := by
  induction n generalizing jobs q with
  | zero =>
    refine .stop ?_
    have hnil : q.pending.entries = [] := List.length_eq_zero_iff.mp (Nat.le_zero.mp hn)
    simp [Redis.dequeue, SortedSet.zpopmin, SortedSet.ordered, hnil]
  | succ n ih =>
    unfold drain
    split
    · rename_i hnone
      exact .stop hnone
    · rename_i jobId hpop
      have hless : q.dequeue.1.pending.zcard < q.pending.zcard :=
        SortedSet.zcard_zpopmin_lt hpop
      exact Drained.turn hpop (ih _ _ (by omega))

/-! ## Rounds -/

/-- One round: a feeder cycle on the answer `order`, then a drain by some claimers. -/
def round (now lease : Timestamp) (limit : Nat) (order : List UUID) (claimer : Nat → Claimer)
    (jobs : Jobs) (q : Redis) : Jobs × Redis × List UUID :=
  let fed := (promoteReadyJobs limit order jobs q).1
  drain now lease claimer fed.pending.zcard jobs fed

/-- Rounds one after the other, on any answers and by any claimers; the claims of each are
listed. -/
inductive Rounds (now lease : Timestamp) (limit : Nat) :
    Jobs → Redis → List (List UUID) → Jobs → Redis → Prop
  | nil (jobs : Jobs) (q : Redis) : Rounds now lease limit jobs q [] jobs q
  | cons {jobs q rounds jobs' q'} (order : List UUID) (claimer : Nat → Claimer)
      (horder : Table.Sorts jobs (Job.ready now) Job.feedsBefore order)
      (hrest : Rounds now lease limit (round now lease limit order claimer jobs q).1
        (round now lease limit order claimer jobs q).2.1 rounds jobs' q') :
      Rounds now lease limit jobs q
        ((round now lease limit order claimer jobs q).2.2 :: rounds) jobs' q'

theorem drained_round (order : List UUID) (claimer : Nat → Claimer) (jobs : Jobs) (q : Redis) :
    Drained now lease jobs (promoteReadyJobs limit order jobs q).1
      (round now lease limit order claimer jobs q).2.2
      (round now lease limit order claimer jobs q).1
      (round now lease limit order claimer jobs q).2.1 :=
  drained_drain claimer _ jobs _ le_rfl

/-- There is always a next round: the feeder's `SELECT` has an answer and every drain
ends. -/
theorem exists_rounds (now lease : Timestamp) (limit n : Nat) (jobs : Jobs) (q : Redis) :
    ∃ rounds jobs' q', rounds.length = n ∧ Rounds now lease limit jobs q rounds jobs' q' := by
  induction n generalizing jobs q with
  | zero => exact ⟨[], jobs, q, rfl, .nil jobs q⟩
  | succ n ih =>
    obtain ⟨order, horder⟩ := exists_feeder_order jobs now
    obtain ⟨rounds, jobs', q', hlength, hrounds⟩ := ih _ _
    exact ⟨_, jobs', q', by rw [List.length_cons, hlength],
      .cons order (fun _ => ("worker", now)) horder hrounds⟩

/-- A round claims a batch of the ready jobs: at least `limit` of them, if there are so many,
and leaves the others ready. -/
theorem round_batch {order claims : List UUID}
    (horder : Table.Sorts jobs (Job.ready now) Job.feedsBefore order)
    (h : Drained now lease jobs (promoteReadyJobs limit order jobs q).1 claims jobs' q') :
    claims.toFinset ⊆ readyIds now jobs ∧
      min limit (readyIds now jobs).card ≤ claims.toFinset.card ∧
      readyIds now jobs' = readyIds now jobs \ claims.toFinset := by
  refine ⟨?_, ?_, ?_⟩
  · intro id hid
    exact ((h.mem_claims id).mp (List.mem_toFinset.mp hid)).2
  · have hready : ∀ id ∈ order, id ∈ readyIds now jobs := fun id hid =>
      mem_readyIds.mpr (horder.mem_iff.mp hid)
    have hsub : (order.take limit).toFinset ⊆ claims.toFinset := by
      intro id hid
      have hin := List.mem_toFinset.mp hid
      have hid' := hready id (List.mem_of_mem_take hin)
      obtain ⟨row, hrow, _⟩ := mem_readyIds.mp hid'
      refine List.mem_toFinset.mpr ((h.mem_claims id).mpr ⟨?_, hid'⟩)
      rw [promoteReadyJobs, mem_feed, mem_feederBatch]
      exact Or.inr ⟨hin, row, hrow⟩
    have hcard : (readyIds now jobs).card = order.length := by
      rw [readyIds, List.toFinset_card_of_nodup (Table.nodup_matching _ _), horder.length]
    have htake : (order.take limit).toFinset.card = min limit order.length := by
      rw [List.toFinset_card_of_nodup (horder.nodup.sublist (List.take_sublist _ _)),
        List.length_take]
    rw [hcard, ← htake]
    exact Finset.card_le_card hsub
  · ext id
    rw [Finset.mem_sdiff, List.mem_toFinset]
    by_cases hid : id ∈ claims
    · have hin := ((h.mem_claims id).mp hid).2
      obtain ⟨row, hrow, _⟩ := mem_readyIds.mp hin
      obtain ⟨clock, w, hrow'⟩ := h.claimed id row hid hrow
      simp only [hid, not_true_eq_false, and_false, iff_false, mem_readyIds, hrow']
      rintro ⟨_, ⟨⟩, hready⟩
      rw [claim_not_ready] at hready
      cases hready
    · rw [mem_readyIds, mem_readyIds, h.others id hid]
      simp [hid]

/-- The rounds work off the ready jobs. -/
theorem Rounds.works {rounds : List (List UUID)}
    (h : Rounds now lease limit jobs q rounds jobs' q') :
    Backlog.Works limit (readyIds now jobs) (rounds.map List.toFinset) (readyIds now jobs') := by
  induction h with
  | nil => exact .nil _
  | @cons jobs q rounds jobs' q' order claimer horder _ ih =>
    have hround : Drained now lease jobs (promoteReadyJobs limit order jobs q).1 _ _ _ :=
      drained_round order claimer jobs q
    obtain ⟨hsub, hbatch, hleft⟩ := round_batch horder hround
    rw [hleft] at ih
    exact .cons hsub hbatch ih

/-- After its last round the queue is empty. -/
theorem Rounds.empty {rounds : List (List UUID)}
    (h : Rounds now lease limit jobs q rounds jobs' q') (hsome : rounds ≠ []) :
    ∀ id, id ∉ q'.pending := by
  induction h with
  | nil => exact absurd rfl hsome
  | @cons jobs q rounds jobs' q' order claimer _ hrest ih =>
    cases hrest with
    | nil => exact (drained_round order claimer jobs q).empty
    | cons order' claimer' horder' hrest' => exact ih (by simp)

/-- Whatever the rounds claimed was claimed once and by one claimer; the other rows are as
they were. -/
theorem Rounds.rows {rounds : List (List UUID)}
    (h : Rounds now lease limit jobs q rounds jobs' q') :
    rounds.flatten.Nodup ∧
      (∀ id row, id ∈ rounds.flatten → jobs.lookup id = some row →
        ∃ clock w, jobs'.lookup id = some (row.claim now clock lease w)) ∧
      ∀ id, id ∉ rounds.flatten → jobs'.lookup id = jobs.lookup id := by
  induction h with
  | nil => simp
  | @cons jobs q rounds jobs' q' order claimer horder hrest ih =>
    obtain ⟨hnodup, hclaimed, hothers⟩ := ih
    have hround : Drained now lease jobs (promoteReadyJobs limit order jobs q).1 _ _ _ :=
      drained_round order claimer jobs q
    have hleft := (round_batch horder hround).2.2
    -- a job claimed in this round is not ready in the next ones
    have hlater : ∀ id ∈ rounds.flatten,
        id ∉ (round now lease limit order claimer jobs q).2.2 := by
      intro id hid hin
      obtain ⟨claims, hmem, hclaims⟩ := List.mem_flatten.mp hid
      have hsub := hrest.works.batch_subset _ (List.mem_map_of_mem hmem)
      have hready := hsub (List.mem_toFinset.mpr hclaims)
      rw [hleft, Finset.mem_sdiff, List.mem_toFinset] at hready
      exact hready.2 hin
    refine ⟨?_, ?_, ?_⟩
    · rw [List.flatten_cons, List.nodup_append']
      exact ⟨hround.nodup, hnodup, fun id hin hid => hlater id hid hin⟩
    · intro id row hid hrow
      rw [List.flatten_cons, List.mem_append] at hid
      by_cases hin : id ∈ rounds.flatten
      · refine hclaimed id row hin ?_
        rw [hround.others id (hlater id hin)]
        exact hrow
      · obtain ⟨clock, w, hrow'⟩ := hround.claimed id row (hid.resolve_right hin) hrow
        exact ⟨clock, w, by rw [hothers id hin, hrow']⟩
    · intro id hid
      rw [List.flatten_cons, List.mem_append, not_or] at hid
      rw [hothers id hid.2, hround.others id hid.1]

/-! ## The guarantee -/

/-- The goal of the rounds, from the table `jobs` with the claims `claims`. -/
structure Rebuilt (now lease : Timestamp) (jobs : Jobs) (claims : List UUID) (jobs' : Jobs)
    (q' : Redis) : Prop where
  /-- Each ready job has been claimed exactly once. -/
  claimed : ∀ id row, jobs.lookup id = some row → row.ready now = true →
    claims.count id = 1 ∧ ∃ clock w, jobs'.lookup id = some (row.claim now clock lease w)
  /-- No other job has been claimed or altered. -/
  others : ∀ id, (∀ row, jobs.lookup id = some row → row.ready now = false) →
    id ∉ claims ∧ jobs'.lookup id = jobs.lookup id
  /-- `jobs:pending` is empty. -/
  empty : ∀ id, id ∉ q'.pending
  /-- The feeder has nothing more to add. -/
  done : ∀ limit order, Table.Sorts jobs' (Job.ready now) Job.feedsBefore order →
    (promoteReadyJobs limit order jobs' q').2 = 0

/-- From any table and any content of Redis, the rounds can be gone through, and once there
have been `max 1 ⌈r / limit⌉` of them, with `r` the number of ready jobs at the start, they
have reached their goal. -/
theorem redis_rebuilt (now lease : Timestamp) (limit : Nat) (jobs : Jobs) (q : Redis)
    (hlimit : 1 ≤ limit) :
    (∀ n, ∃ rounds jobs' q', rounds.length = n ∧ Rounds now lease limit jobs q rounds jobs' q') ∧
      ∀ rounds jobs' q', Rounds now lease limit jobs q rounds jobs' q' →
        max 1 ((Table.matching jobs (Job.ready now)).length ⌈/⌉ limit) ≤ rounds.length →
        Rebuilt now lease jobs rounds.flatten jobs' q' := by
  refine ⟨fun n => exists_rounds now lease limit n jobs q, ?_⟩
  intro rounds jobs' q' hrounds hlength
  have hcard : (readyIds now jobs).card = (Table.matching jobs (Job.ready now)).length :=
    List.toFinset_card_of_nodup (Table.nodup_matching _ _)
  have hworks := hrounds.works
  have hnone : readyIds now jobs' = ∅ := by
    refine hworks.eq_empty (by omega) ?_
    rw [hcard, List.length_map]
    exact (le_max_right _ _).trans hlength
  have hmem : ∀ id, id ∈ rounds.flatten ↔ id ∈ readyIds now jobs := by
    intro id
    have hleft := hworks.mem_iff (i := id)
    simp only [hnone, Finset.notMem_empty, false_iff, not_and, not_forall, List.mem_map] at hleft
    rw [List.mem_flatten]
    constructor
    · rintro ⟨claims, hclaims, hid⟩
      exact hworks.batch_subset _ (List.mem_map_of_mem hclaims) (List.mem_toFinset.mpr hid)
    · intro hid
      obtain ⟨_, ⟨claims, hclaims, rfl⟩, hin⟩ := hleft hid
      exact ⟨claims, hclaims, by simpa using hin⟩
  obtain ⟨hnodup, hclaimed, hothers⟩ := hrounds.rows
  refine ⟨?_, ?_, ?_, ?_⟩
  · intro id row hrow hready
    have hin := (hmem id).mpr (mem_readyIds.mpr ⟨row, hrow, hready⟩)
    exact ⟨List.count_eq_one_of_mem hnodup hin, hclaimed id row hin hrow⟩
  · intro id hnot
    have hout : id ∉ rounds.flatten := by
      rw [hmem, mem_readyIds]
      rintro ⟨row, hrow, hready⟩
      rw [hnot row hrow] at hready
      cases hready
    exact ⟨hout, hothers id hout⟩
  · refine hrounds.empty ?_
    rintro rfl
    simp at hlength
  · intro limit' order horder
    have horder' : order = [] := by
      rw [List.eq_nil_iff_forall_not_mem]
      intro id hid
      have hin := mem_readyIds.mpr (horder.mem_iff.mp hid)
      rw [hnone] at hin
      simp at hin
    subst horder'
    simp [promoteReadyJobs, feederBatch, feed]

/-- A table with two ready jobs. -/
def twoReady : Jobs :=
  ((∅ : Jobs).insert 1 (newJob {} webhookRequest none 0)).insert 2
    (newJob {} { jobType := .webhook, payload := .obj [], priority := 5 } none 0)

/-- With a limit of one and a stale entry in Redis, two rounds rebuild it. -/
theorem redis_rebuilt_two :
    ∃ rounds jobs' q', rounds.length = 2 ∧
      Rounds 0 60000000 1 twoReady (({} : Redis).enqueue 9 0).1 rounds jobs' q' ∧
      Rebuilt 0 60000000 twoReady rounds.flatten jobs' q' := by
  obtain ⟨hexists, hgoal⟩ :=
    redis_rebuilt 0 60000000 1 twoReady (({} : Redis).enqueue 9 0).1 le_rfl
  obtain ⟨rounds, jobs', q', hlength, hrounds⟩ := hexists 2
  have hready : (Table.matching twoReady (Job.ready 0)).length = 2 := by decide +kernel
  refine ⟨rounds, jobs', q', hlength, hrounds, hgoal rounds jobs' q' hrounds ?_⟩
  rw [hready, hlength]
  decide

end JobQueue
