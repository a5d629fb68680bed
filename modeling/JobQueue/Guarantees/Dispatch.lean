import JobQueue.Model.Service
import JobQueue.Model.Maintenance

/-!
# The order of dispatch

The feeder selects the ready jobs by priority and creation time, the queue returns them by
score. A score keeps whole milliseconds only, and two jobs of one score leave the queue in
the order of their ids. `dispatch_order_iff` says for which tables the two orders are the
same; `same_millisecond_reordered` is a table for which they are not.
-/

namespace JobQueue

open Relational

/-! ## Dequeuing until the queue is empty -/

/-- `dequeue` until it returns nothing, with the ids returned. -/
inductive Drains : Redis → List UUID → Prop
  | nil {q : Redis} (h : q.dequeue.2 = none) : Drains q []
  | cons {q : Redis} {jobId : UUID} {ids : List UUID} (h : q.dequeue.2 = some jobId)
      (hrest : Drains q.dequeue.1 ids) : Drains q (jobId :: ids)

variable {q : Redis} {ids order : List UUID} {jobs : Jobs} {now : Timestamp} {limit : Nat}
  {a b : UUID} {row row' : Job}

theorem drains_iff_pops : Drains q ids ↔ q.pending.Pops ids := by
  constructor
  · intro h
    induction h with
    | nil h => exact .nil h
    | cons h _ ih => exact .cons h ih
  · intro h
    generalize hpending : q.pending = pending at h
    induction h generalizing q with
    | nil h => exact .nil (by rw [← hpending] at h; exact h)
    | cons h _ ih =>
      subst hpending
      exact .cons h (ih rfl)

/-- Dequeuing until the queue is empty has one outcome. -/
theorem drains_iff : Drains q ids ↔ ids = q.pending.ordered.map Sigma.fst :=
  drains_iff_pops.trans SortedSet.pops_iff

/-! ## The two orders of a pair -/

/-- The feeder's query returns the one row before the other, and not the other way round. -/
def FedFirst (row row' : Job) : Prop :=
  row'.priority < row.priority ∨
    (row.priority = row'.priority ∧ row.createdAt < row'.createdAt)

theorem FedFirst.asymm (h : FedFirst row row') : ¬ FedFirst row' row := by
  rintro (h' | ⟨h', h''⟩)
  · rcases h with h | ⟨h, _⟩ <;> omega
  · rcases h with h | ⟨_, h⟩
    · omega
    · exact lt_asymm h h''

theorem fedFirst_of_feedsBefore (h : row.feedsBefore row' = true)
    (hne : row.createdAt ≠ row'.createdAt) : FedFirst row row' := by
  simp only [Job.feedsBefore, decide_eq_true_eq] at h
  rcases h with h | ⟨h, h'⟩
  · exact Or.inl h
  · exact Or.inr ⟨h, lt_of_le_of_ne h' hne⟩

/-- What the scores of a pair have to satisfy for the queue to return the pair in the order
of the feeder's query. -/
structure ScoresAgree (a b : UUID) (row row' : Job) : Prop where
  /-- Within a priority, the whole milliseconds or the ids keep the order of creation. -/
  created : row.priority = row'.priority → row.createdAt < row'.createdAt →
    createdAtEpochMs row.createdAt = createdAtEpochMs row'.createdAt → a < b
  /-- The whole milliseconds do not outweigh a higher priority. -/
  priority : row'.priority < row.priority →
    let apart := createdAtEpochMs row.createdAt - createdAtEpochMs row'.createdAt
    let room := (row.priority - row'.priority) * priorityScale
    apart < room ∨ (apart = room ∧ a < b)

/-- The order of two scores. -/
theorem scores_iff (hfed : FedFirst row row') (hafter : 0 ≤ row.createdAt) :
    (priorityScore row.priority row.createdAt < priorityScore row'.priority row'.createdAt ∨
      (priorityScore row.priority row.createdAt = priorityScore row'.priority row'.createdAt ∧
        a < b)) ↔ ScoresAgree a b row row' := by
  unfold priorityScore
  constructor
  · intro h
    refine ⟨?_, ?_⟩
    · intro hpriority _ hms
      rw [hpriority, hms] at h
      rcases h with h | ⟨_, h⟩
      · exact absurd h (lt_irrefl _)
      · exact h
    · intro _
      rw [sub_mul]
      rcases h with h | ⟨h, hid⟩
      · left
        linarith
      · right
        refine ⟨?_, hid⟩
        linarith
  · intro h
    rcases hfed with hpriority | ⟨hpriority, hcreated⟩
    · have hroom := h.priority hpriority
      rw [sub_mul] at hroom
      rcases hroom with hroom | ⟨hroom, hid⟩
      · left
        linarith
      · right
        refine ⟨?_, hid⟩
        linarith
    · rw [hpriority]
      rcases (createdAtEpochMs_mono hafter hcreated.le).eq_or_lt with hms | hms
      · exact Or.inr ⟨by rw [hms], h.created hpriority hcreated hms⟩
      · exact Or.inl (by linarith)

/-! ## A list in a given order -/

/-- In a list that an asymmetric relation orders, a relation holds between the earlier and
the later elements just if it holds wherever the first one does. -/
theorem pairwise_iff_of_ordered {α : Type} {l : List α} {S R : α → α → Prop}
    (hordered : l.Pairwise S) (hasymm : ∀ x ∈ l, ∀ y ∈ l, S x y → ¬ S y x) :
    l.Pairwise R ↔ ∀ x ∈ l, ∀ y ∈ l, S x y → R x y := by
  constructor
  · intro hR x hx y hy
    refine List.Pairwise.forall_of_forall_of_flip (R := fun x y => S x y → R x y) ?_ ?_ ?_ hx hy
    · intro x hx h
      exact absurd h (hasymm x hx x hx h)
    · refine hR.imp ?_
      intro x y h _
      exact h
    · refine hordered.imp_of_mem ?_
      intro x y hx hy h h'
      exact absurd h' (hasymm x hx y hy h)
  · intro h
    exact hordered.imp_of_mem fun hx hy hS => h _ hx _ hy hS

/-! ## The guarantee -/

/-- The score of a job in the queue after the feeder has fed the ready jobs. -/
theorem lookup_fed (hlimit : order.length ≤ limit) (hempty : q.pending = ∅) (ha : a ∈ order)
    (hrow : jobs.lookup a = some row) :
    (promoteReadyJobs limit order jobs q).1.pending.lookup a =
      some (Binary64.round (priorityScore row.priority row.createdAt)) := by
  have hscore : ∀ score, (a, score) ∈ feederBatch jobs (order.take limit) →
      score = priorityScore row.priority row.createdAt := by
    intro score hmem
    obtain ⟨id, _, hid⟩ := List.mem_filterMap.mp hmem
    obtain ⟨row', hrow', heq⟩ := Option.map_eq_some_iff.mp hid
    cases heq
    rw [hrow] at hrow'
    cases hrow'
    rfl
  refine lookup_feed (by simp [hempty]) (List.mem_filterMap.mpr ⟨a, ?_, by simp [hrow]⟩) hscore
  rwa [List.take_of_length_le hlimit]

theorem mem_fed (horder : Table.Sorts jobs (Job.ready now) Job.feedsBefore order)
    (hlimit : order.length ≤ limit) (hempty : q.pending = ∅) :
    a ∈ (promoteReadyJobs limit order jobs q).1.pending ↔ a ∈ order := by
  rw [promoteReadyJobs, mem_feed, mem_feederBatch, List.take_of_length_le hlimit, hempty]
  constructor
  · rintro (h | ⟨h, _⟩)
    · exact absurd h (AList.notMem_empty a)
    · exact h
  · intro h
    obtain ⟨row, hrow, _⟩ := horder.mem_iff.mp h
    exact Or.inr ⟨h, row, hrow⟩

/-- The order of a query over distinct creation times is strict. -/
theorem pairwise_fedFirst (horder : Table.Sorts jobs (Job.ready now) Job.feedsBefore order)
    (hdistinct : ∀ a b row row', jobs.lookup a = some row → jobs.lookup b = some row' →
      row.ready now = true → row'.ready now = true → row.createdAt = row'.createdAt → a = b) :
    order.Pairwise fun a b => ∀ row row', jobs.lookup a = some row →
      jobs.lookup b = some row' → FedFirst row row' := by
  refine (horder.2.and horder.nodup).imp_of_mem ?_
  rintro a b ha hb ⟨hab, hne⟩ row row' hrow hrow'
  obtain ⟨_, hrow₁, hready⟩ := horder.mem_iff.mp ha
  obtain ⟨_, hrow₂, hready'⟩ := horder.mem_iff.mp hb
  rw [hrow] at hrow₁
  rw [hrow'] at hrow₂
  cases hrow₁
  cases hrow₂
  simp only [Table.compareAt, hrow, hrow'] at hab
  exact fedFirst_of_feedsBefore hab fun h => hne (hdistinct a b _ _ hrow hrow' hready hready' h)

/-- Two fed jobs whose scores are exact leave the queue in the order of the query just if
their scores agree with it. -/
theorem fed_before_iff (hlimit : order.length ≤ limit) (hempty : q.pending = ∅) (ha : a ∈ order)
    (hb : b ∈ order) (hrow : jobs.lookup a = some row) (hrow' : jobs.lookup b = some row')
    (hexact : Binary64.round (priorityScore row.priority row.createdAt) =
      priorityScore row.priority row.createdAt)
    (hexact' : Binary64.round (priorityScore row'.priority row'.createdAt) =
      priorityScore row'.priority row'.createdAt)
    (hfirst : FedFirst row row') (hafter : 0 ≤ row.createdAt) :
    (∀ r s, (promoteReadyJobs limit order jobs q).1.pending.lookup a = some r →
      (promoteReadyJobs limit order jobs q).1.pending.lookup b = some s →
      r < s ∨ (r = s ∧ a ≤ b)) ↔ ScoresAgree a b row row' := by
  have hne : a ≠ b := by
    rintro rfl
    rw [hrow] at hrow'
    cases hrow'
    exact hfirst.asymm hfirst
  rw [← scores_iff hfirst hafter, lookup_fed hlimit hempty ha hrow,
    lookup_fed hlimit hempty hb hrow', hexact, hexact']
  constructor
  · intro h
    have hpair := h _ _ rfl rfl
    rw [Int.cast_lt, Int.cast_inj] at hpair
    exact hpair.imp_right fun h => ⟨h.1, lt_of_le_of_ne h.2 hne⟩
  · rintro h _ _ ⟨⟩ ⟨⟩
    rw [Int.cast_lt, Int.cast_inj]
    exact h.imp_right fun h => ⟨h.1, h.2.le⟩

/-- The ready jobs, fed into an empty queue, are dispatched in the order of the feeder's query
just if the scores of every two of them agree with that order. -/
theorem dispatch_order_iff (jobs : Jobs) (now : Timestamp) (limit : Nat) (order : List UUID)
    (q : Redis) (horder : Table.Sorts jobs (Job.ready now) Job.feedsBefore order)
    (hlimit : order.length ≤ limit) (hempty : q.pending = ∅)
    (hpriority : ∀ id row, jobs.lookup id = some row → row.ready now = true →
      -1000 ≤ row.priority ∧ row.priority ≤ 1000)
    (hcreated : ∀ id row, jobs.lookup id = some row → row.ready now = true →
      0 ≤ row.createdAt ∧ row.createdAt ≤ datetimeMax)
    (hdistinct : ∀ a b row row', jobs.lookup a = some row → jobs.lookup b = some row' →
      row.ready now = true → row'.ready now = true → row.createdAt = row'.createdAt → a = b) :
    Drains (promoteReadyJobs limit order jobs q).1 order ↔
      ∀ a b row row', jobs.lookup a = some row → jobs.lookup b = some row' →
        row.ready now = true → row'.ready now = true → FedFirst row row' →
        ScoresAgree a b row row' := by
  -- the score of a row is exact in the queue
  have hexact : ∀ a row, jobs.lookup a = some row → row.ready now = true →
      Binary64.round (priorityScore row.priority row.createdAt) =
        priorityScore row.priority row.createdAt := by
    intro a row hrow hready
    obtain ⟨hlow, hhigh⟩ := hpriority a row hrow hready
    obtain ⟨hafter, hbefore⟩ := hcreated a row hrow hready
    exact Binary64.round_intCast (abs_priorityScore_lt hlow hhigh hafter hbefore)
  have hpair : ∀ a b row row', jobs.lookup a = some row → jobs.lookup b = some row' →
      row.ready now = true → row'.ready now = true → FedFirst row row' →
      ((∀ r s, (promoteReadyJobs limit order jobs q).1.pending.lookup a = some r →
        (promoteReadyJobs limit order jobs q).1.pending.lookup b = some s →
        r < s ∨ (r = s ∧ a ≤ b)) ↔ ScoresAgree a b row row') := by
    intro a b row row' hrow hrow' hready hready' hfirst
    exact fed_before_iff hlimit hempty (horder.mem_iff.mpr ⟨row, hrow, hready⟩)
      (horder.mem_iff.mpr ⟨row', hrow', hready'⟩) hrow hrow' (hexact a row hrow hready)
      (hexact b row' hrow' hready') hfirst (hcreated a row hrow hready).1
  have hfed := pairwise_fedFirst horder hdistinct
  rw [drains_iff_pops, SortedSet.pops_iff_pairwise horder.nodup
    fun a => (mem_fed horder hlimit hempty).symm, pairwise_iff_of_ordered hfed]
  · constructor
    · intro h a b row row' hrow hrow' hready hready' hfirst
      apply (hpair a b row row' hrow hrow' hready hready' hfirst).mp
      apply h a (horder.mem_iff.mpr ⟨row, hrow, hready⟩) b
        (horder.mem_iff.mpr ⟨row', hrow', hready'⟩)
      intro row₁ row₂ hrow₁ hrow₂
      rw [hrow] at hrow₁
      rw [hrow'] at hrow₂
      cases hrow₁
      cases hrow₂
      exact hfirst
    · intro h a ha b hb hfirst
      obtain ⟨row, hrow, hready⟩ := horder.mem_iff.mp ha
      obtain ⟨row', hrow', hready'⟩ := horder.mem_iff.mp hb
      apply (hpair a b row row' hrow hrow' hready hready' (hfirst row row' hrow hrow')).mpr
      exact h a b row row' hrow hrow' hready hready' (hfirst row row' hrow hrow')
  · intro a ha b hb hfirst hback
    obtain ⟨row, hrow, _⟩ := horder.mem_iff.mp ha
    obtain ⟨row', hrow', _⟩ := horder.mem_iff.mp hb
    exact (hfirst row row' hrow hrow').asymm (hback row' row hrow' hrow)

def readyPair (first second : Job) : Jobs := ((∅ : Jobs).insert 1 first).insert 2 second

theorem lookup_readyPair {first second : Job} (h : (readyPair first second).lookup a = some row) :
    (a = 1 ∧ row = first) ∨ (a = 2 ∧ row = second) := by
  unfold readyPair at h
  by_cases h2 : a = 2
  · subst h2
    rw [AList.lookup_insert] at h
    exact Or.inr ⟨rfl, (Option.some.inj h).symm⟩
  · rw [AList.lookup_insert_ne h2] at h
    by_cases h1 : a = 1
    · subst h1
      rw [AList.lookup_insert] at h
      exact Or.inl ⟨rfl, (Option.some.inj h).symm⟩
    · rw [AList.lookup_insert_ne h1] at h
      cases h

/-- A job of a higher priority is dispatched before an older one. -/
theorem dispatch_order_two :
    Drains (promoteReadyJobs 100 [2, 1] (readyPair
      (newJob {} webhookRequest none 1000000)
      (newJob {} { webhookRequest with
        priority := 5, priority_ge := by decide, priority_le := by decide } none 7000000)) {}).1
      [2, 1] := by
  refine (dispatch_order_iff _ 8000000 100 [2, 1] {} (by decide +kernel) (by decide) rfl
    ?_ ?_ ?_).mpr ?_
  · intro a row h _
    rcases lookup_readyPair h with ⟨_, rfl⟩ | ⟨_, rfl⟩ <;> decide
  · intro a row h _
    rcases lookup_readyPair h with ⟨_, rfl⟩ | ⟨_, rfl⟩ <;> decide
  · intro a b row row' h h' _ _
    rcases lookup_readyPair h with ⟨rfl, rfl⟩ | ⟨rfl, rfl⟩ <;>
      rcases lookup_readyPair h' with ⟨rfl, rfl⟩ | ⟨rfl, rfl⟩ <;> decide
  · intro a b row row' h h' _ _ hfirst
    rcases lookup_readyPair h with ⟨rfl, rfl⟩ | ⟨rfl, rfl⟩ <;>
      rcases lookup_readyPair h' with ⟨rfl, rfl⟩ | ⟨rfl, rfl⟩
    · exact absurd hfirst hfirst.asymm
    · exact absurd hfirst (by unfold FedFirst; decide)
    · refine ⟨fun h => absurd h (by decide), fun _ => Or.inl (by decide +kernel)⟩
    · exact absurd hfirst hfirst.asymm

/-- Two jobs of one priority and one millisecond: the older has the larger id and is
dispatched last. -/
theorem same_millisecond_reordered :
    let jobs := readyPair (newJob {} webhookRequest none 1700000000000200)
      (newJob {} webhookRequest none 1700000000000100)
    Table.Sorts jobs (Job.ready 1700000001000000) Job.feedsBefore [2, 1] ∧
      (∀ e ∈ jobs.entries, e.2.priority = 0 ∧ 0 < e.2.createdAt) ∧
      (jobs.entries.map fun e => e.2.createdAt).Nodup ∧
      Drains (promoteReadyJobs 100 [2, 1] jobs {}).1 [1, 2] ∧
      ¬ Drains (promoteReadyJobs 100 [2, 1] jobs {}).1 [2, 1] := by
  intro jobs
  refine ⟨by decide +kernel, by decide +kernel, by decide +kernel, ?_, ?_⟩
  · exact drains_iff.mpr (by decide +kernel)
  · rw [drains_iff]
    decide +kernel

end JobQueue
