import JobQueue.Library.Paging
import JobQueue.Model.Service

/-!
# Reading the list of jobs page by page

`list_jobs` sorts by `created_at` alone, and PostgreSQL may answer each query with the jobs
of one time in another order. A client that reads the pages of an unchanging table gets every
matching job exactly once just if no page boundary lies among jobs of one time
(`pagination_exact_iff`).
-/

namespace JobQueue

open Relational

/-! ## The client -/

/-- The query for page `k`. -/
def ListQuery.page (q : ListQuery) (k : Nat) : ListQuery := { q with offset := k * q.limit }

/-- The jobs and the totals a client gets from page `k` on until it gets an empty page, where
`answers i` is the answer from which `list_jobs` cuts page `i`. -/
inductive Lists (jobs : Jobs) (q : ListQuery) (answers : Nat → List (UUID × Job)) :
    Nat → List (UUID × Job) → List Nat → Prop
  | stop {k} (hempty : (listJobs jobs (q.page k) (answers k)).1 = []) :
      Lists jobs q answers k [] [(listJobs jobs (q.page k) (answers k)).2]
  | next {k rest totals} (hpage : (listJobs jobs (q.page k) (answers k)).1 ≠ [])
      (hrest : Lists jobs q answers (k + 1) rest totals) :
      Lists jobs q answers k ((listJobs jobs (q.page k) (answers k)).1 ++ rest)
        ((listJobs jobs (q.page k) (answers k)).2 :: totals)

/-- The pages together are the matching jobs, and every total is their number. -/
structure Covers (jobs : Jobs) (q : ListQuery) (collected : List (UUID × Job))
    (totals : List Nat) : Prop where
  once : collected.Perm (Table.rows jobs q.admits)
  newestFirst : collected.Pairwise fun e e' => e'.2.createdAt ≤ e.2.createdAt
  total : ∀ n ∈ totals, n = collected.length

/-- Whatever order PostgreSQL chooses for each query, the client comes to an empty page and
has got the matching jobs. -/
def PagesExactly (jobs : Jobs) (q : ListQuery) : Prop :=
  ∀ answers : Nat → List (UUID × Job),
    (∀ k, Table.Selects jobs q.admits Job.listsBefore (answers k)) →
    ∃ collected totals, Lists jobs q answers 0 collected totals ∧ Covers jobs q collected totals

/-! ## The list as a sorted result -/

variable {jobs : Jobs} {q : ListQuery} {answers : Nat → List (UUID × Job)} {k : Nat}
  {collected : List (UUID × Job)} {totals : List Nat}

/-- The sort key of the list. -/
def listKey (e : UUID × Job) : Intᵒᵈ := OrderDual.toDual e.2.createdAt

theorem selects_iff {selected : List (UUID × Job)} :
    Table.Selects jobs q.admits Job.listsBefore selected ↔
      Paging.Answers listKey (Table.rows jobs q.admits) selected := by
  simp [Table.Selects, Paging.Answers, Job.listsBefore, listKey]

theorem Lists.reads (h : Lists jobs q answers k collected totals) :
    Paging.Reads q.limit answers k collected ∧
      ∀ n ∈ totals, n = (Table.rows jobs q.admits).length := by
  induction h with
  | stop hempty =>
    refine ⟨.stop hempty, ?_⟩
    intro n hn
    exact List.mem_singleton.mp hn
  | next hpage _ ih =>
    refine ⟨.next hpage ih.1, ?_⟩
    intro n hn
    rcases List.mem_cons.mp hn with rfl | hn
    · rfl
    · exact ih.2 n hn

theorem exists_lists (h : Paging.Reads q.limit answers k collected) :
    ∃ totals, Lists jobs q answers k collected totals := by
  induction h with
  | stop hempty => exact ⟨_, .stop hempty⟩
  | next hpage _ ih =>
    obtain ⟨totals, hrest⟩ := ih
    exact ⟨_, .next hpage hrest⟩

theorem covers_iff (h : Lists jobs q answers k collected totals) :
    Covers jobs q collected totals ↔
      Paging.Answers listKey (Table.rows jobs q.admits) collected := by
  constructor
  · intro hcovers
    exact ⟨hcovers.once, hcovers.newestFirst⟩
  · intro hanswers
    refine ⟨hanswers.1, hanswers.2, ?_⟩
    intro n hn
    rw [h.reads.2 n hn, hanswers.1.length_eq]

/-! ## The guarantee -/

/-- The pages of the list cover it exactly just if no boundary of pages lies between the first
and the last of the matching jobs with one `created_at`. -/
theorem pagination_exact_iff (jobs : Jobs) (q : ListQuery) : PagesExactly jobs q ↔
    ∀ e ∈ Table.rows jobs q.admits, ∀ k,
      ¬ ((Table.rows jobs q.admits).countP
            (fun e' => e.2.createdAt < e'.2.createdAt) < k * q.limit ∧
        k * q.limit < (Table.rows jobs q.admits).countP
            (fun e' => e.2.createdAt ≤ e'.2.createdAt)) := by
  have hwhole := Paging.reads_exact_iff listKey q.limit_ge (Table.nodup_rows jobs q.admits)
  refine .trans ?_ hwhole
  constructor
  · intro h answers hanswers
    obtain ⟨collected, totals, hlists, hcovers⟩ :=
      h answers fun k => selects_iff.mpr (hanswers k)
    exact ⟨collected, hlists.reads.1, (covers_iff hlists).mp hcovers⟩
  · intro h answers hanswers
    obtain ⟨collected, hreads, hexact⟩ := h answers fun k => selects_iff.mp (hanswers k)
    obtain ⟨totals, hlists⟩ := exists_lists hreads
    exact ⟨collected, totals, hlists, (covers_iff hlists).mpr hexact⟩

/-- Two jobs that were submitted at the same time. -/
def twoAtOnce : Jobs :=
  ((∅ : Jobs).insert 1 (newJob {} webhookRequest none 0)).insert 2
    (newJob {} webhookRequest none 0)

/-- PostgreSQL answers the query for the first page with job 1 first, and the others with
job 2 first. -/
def eitherFirst (k : Nat) : List (UUID × Job) :=
  if k = 0 then [(1, newJob {} webhookRequest none 0), (2, newJob {} webhookRequest none 0)]
  else [(2, newJob {} webhookRequest none 0), (1, newJob {} webhookRequest none 0)]

/-- With one job a page, a client gets job 1 on both pages and job 2 on none. -/
theorem tied_job_listed_twice : ¬ PagesExactly twoAtOnce { limit := 1 } := by
  intro h
  have hanswers : ∀ k, Table.Selects twoAtOnce (ListQuery.admits { limit := 1 }) Job.listsBefore
      (eitherFirst k) := by
    intro k
    unfold eitherFirst
    split
    · decide
    · decide
  obtain ⟨collected, totals, hlists, hcovers⟩ := h eitherFirst hanswers
  have htwice : Paging.Reads 1 eitherFirst 0
      ([(1, newJob {} webhookRequest none 0)] ++ ([(1, newJob {} webhookRequest none 0)] ++ [])) :=
    .next (by decide) (.next (by decide) (.stop (by decide)))
  have hnodup := hcovers.once.nodup_iff.mpr (Table.nodup_rows _ _)
  rw [hlists.reads.1.unique htwice] at hnodup
  simp at hnodup

end JobQueue
