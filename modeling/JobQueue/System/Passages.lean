import JobQueue.Library.Routes
import JobQueue.System.Lifecycle
import JobQueue.System.Requests

/-!
# The life cycle of a job as a graph

A job waits (`scheduled` or `pending`), is processed, and ends `completed`, `cancelled` or
`failed`; a manual retry takes it from `failed` back. The eight commits that move it are the
edges of the graph. `passage` reads off an entry of a history which of them, if any, it shows
on a job; under atomic operations a step moves the job along the edge it shows, and otherwise
leaves it where it is (`moves_step`). Promotion is no edge: it moves a job between the two
kinds of waiting.
-/

namespace JobQueue

open Relational Transition

variable {settings : Settings} {s s' s₀ : State} {a : Action} {tr : List (State × Action)}
  {j : UUID} {row row' : Job}

/-! ## The graph -/

inductive Place
  | absent | waiting | processing | completed | failed | cancelled
  deriving DecidableEq

def JobStatus.place : JobStatus → Place
  | .scheduled | .pending => .waiting
  | .processing => .processing
  | .completed => .completed
  | .failed => .failed
  | .cancelled => .cancelled

def State.place (s : State) (j : UUID) : Place :=
  match s.row j with
  | none => .absent
  | some row => row.status.place

theorem place_of_row (h : s.row j = some row) : s.place j = row.status.place := by
  unfold State.place
  rw [h]

theorem place_of_none (h : s.row j = none) : s.place j = .absent := by
  unfold State.place
  rw [h]

/-- The commits that move a job. `defer` is a failure with a retry left. -/
inductive Passage
  | submit | claim | complete | defer | fail | reset | cancel | reopen
  deriving DecidableEq

def lifecycle : Wiring Place Passage where
  source
    | .submit => .absent
    | .claim | .cancel => .waiting
    | .complete | .defer | .fail | .reset => .processing
    | .reopen => .failed
  target
    | .submit | .defer | .reset | .reopen => .waiting
    | .claim => .processing
    | .complete => .completed
    | .fail => .failed
    | .cancel => .cancelled

/-! ## What a history shows -/

/-- The entry shows this commit on job `j`. -/
def Passage.shown (j : UUID) (e : State × Action) : Passage → Bool
  | .submit => (submits j e).isSome
  | .claim => claims j e
  | .complete => finalises j .completed e
  | .defer => finalises j .pending e
  | .fail => finalises j .failed e
  | .reset => resets j e
  | .cancel => cancels j e
  | .reopen => reopens j e

/-- The commit on job `j` that the entry shows. -/
def passage (j : UUID) (e : State × Action) : Option Passage :=
  [.submit, .claim, .complete, .defer, .fail, .reset, .cancel, .reopen].find? fun p => p.shown j e

/-- What kind of action shows a commit. -/
theorem shown_cases {p : Passage} (h : p.shown j (s, a) = true) :
    (p = .submit ∧ ∃ c job, a = .api c .commit ∧ s.calls c = .inserted j job) ∨
    (p = .cancel ∧ ∃ c m, a = .api c .commit ∧ s.calls c = .cancelling m) ∨
    (p = .reopen ∧ ∃ c m, a = .api c .commit ∧ s.calls c = .retrying m) ∨
    (p = .claim ∧ ∃ w began clock, a = .worker w (.claim began clock)) ∨
    (p = .reset ∧ ∃ began, a = .maintenance (.reaperUpdate began)) ∨
    ∃ w m, a = .worker w .commit ∧ (s.workers w).executor = .finalising m ∧
      ((p = .complete ∧ m.current.status = .completed) ∨
        (p = .defer ∧ m.current.status = .pending) ∨ p = .fail ∧ m.current.status = .failed) := by
  cases p with
  | submit =>
    obtain ⟨job, hjob⟩ := Option.isSome_iff_exists.mp h
    obtain ⟨c, ha, hcall, _⟩ := submits_iff.mp hjob
    exact Or.inl ⟨rfl, c, job, ha, hcall⟩
  | cancel =>
    obtain ⟨c, m, ha, hcall, _⟩ := cancels_iff.mp h
    exact Or.inr (Or.inl ⟨rfl, c, m, ha, hcall⟩)
  | reopen =>
    obtain ⟨c, m, ha, hcall, _⟩ := reopens_iff.mp h
    exact Or.inr (Or.inr (Or.inl ⟨rfl, c, m, ha, hcall⟩))
  | claim =>
    obtain ⟨w, began, clock, _, ha, _⟩ := claims_iff.mp h
    exact Or.inr (Or.inr (Or.inr (Or.inl ⟨rfl, w, began, clock, ha⟩)))
  | reset =>
    replace h : resets j (s, a) = true := h
    unfold resets at h
    split at h
    · rename_i began ha
      exact Or.inr (Or.inr (Or.inr (Or.inr (Or.inl ⟨rfl, began, ha⟩))))
    · cases h
  | complete | defer | fail =>
    obtain ⟨w, m, ha, hfinalising, _, hstatus⟩ := finalises_iff.mp h
    refine Or.inr (Or.inr (Or.inr (Or.inr (Or.inr ⟨w, m, ha, hfinalising, ?_⟩))))
    simp [hstatus]

/-- An entry shows one commit at most. -/
theorem shown_unique {p q : Passage} (hp : p.shown j (s, a) = true)
    (hq : q.shown j (s, a) = true) : p = q := by
  rcases shown_cases hp with ⟨rfl, c, job, rfl, hcall⟩ | ⟨rfl, c, m, rfl, hcall⟩ |
    ⟨rfl, c, m, rfl, hcall⟩ | ⟨rfl, w, began, clock, rfl⟩ | ⟨rfl, began, rfl⟩ |
    ⟨w, m, rfl, hfinalising, hp⟩
  all_goals
    rcases shown_cases hq with ⟨rfl, c', job', ha, hcall'⟩ | ⟨rfl, c', m', ha, hcall'⟩ |
      ⟨rfl, c', m', ha, hcall'⟩ | ⟨rfl, w', began', clock', ha⟩ | ⟨rfl, began', ha⟩ |
      ⟨w', m', ha, hfinalising', hq⟩
    all_goals grind

theorem passage_iff {p : Passage} : passage j (s, a) = some p ↔ p.shown j (s, a) = true := by
  constructor
  · intro h
    exact List.find?_some h
  · intro h
    cases hq : passage j (s, a) with
    | none =>
      have hnone := List.find?_eq_none.mp hq p (by cases p <;> simp)
      exact absurd h hnone
    | some q => rw [shown_unique h (List.find?_some hq)]

/-! ## The step of a job -/

/-- Under atomic operations a commit finds the job at the source of its edge and leaves it at
the target. -/
theorem shown_moves {p : Passage} (hatomic : atomicStep s a = true) (hshaped : s.Shaped settings)
    (hstep : step settings s a = some s') (h : p.shown j (s, a) = true) :
    s.place j = lifecycle.source p ∧ s'.place j = lifecycle.target p := by
  obtain ⟨hfresh, howner⟩ := Bool.and_eq_true_iff.mp hatomic
  have hfinalise : ∀ status, finalises j status (s, a) = true →
      s.place j = .processing ∧ s'.place j = status.place := by
    intro status h
    obtain ⟨w, m, rfl, hfinalising, rfl, hstatus⟩ := finalises_iff.mp h
    obtain ⟨row, hrow, hheld⟩ : ∃ row, s.row m.id = some row ∧ row.heldBy w = true := by
      simpa [ownerCommit, hfinalising, Option.any_eq_true] using howner
    obtain ⟨_, _, _, _, _, _, hrow'⟩ := finalises_row hstep h hrow
    rw [place_of_row hrow, place_of_row hrow', finalises_status hshaped hstep h hrow hrow',
      (heldBy_iff.mp hheld).1]
    exact ⟨rfl, rfl⟩
  cases p with
  | submit =>
    obtain ⟨job, hjob⟩ := Option.isSome_iff_exists.mp h
    obtain ⟨hnone, hrow'⟩ := submits_row hstep hjob
    obtain ⟨_, _, data, key, t, rfl⟩ := new_row hshaped hstep hnone hrow'
    rw [place_of_none hnone, place_of_row hrow']
    refine ⟨rfl, ?_⟩
    unfold newJob
    cases data.scheduledAt <;> rfl
  | claim =>
    obtain ⟨w, began, clock, row, _, hrow, hready, _, hrow', _⟩ := claims_row hstep h
    rw [place_of_row hrow, place_of_row hrow', (Job.ready_iff.mp hready).1]
    exact ⟨rfl, rfl⟩
  | complete => exact hfinalise .completed h
  | defer => exact hfinalise .pending h
  | fail => exact hfinalise .failed h
  | reset =>
    obtain ⟨began, row, _, hrow, hexpired, hrow'⟩ := resets_row hstep h
    rw [place_of_row hrow, place_of_row hrow', (Job.expired_iff.mp hexpired).1]
    exact ⟨rfl, rfl⟩
  | cancel =>
    obtain ⟨c, m, rfl, hcancelling, rfl⟩ := cancels_iff.mp h
    have hrow : s.row m.id = some m.loaded := by simpa [freshCommit, hcancelling] using hfresh
    have hshape := hshaped.call c
    rw [hcancelling] at hshape
    have hrow' := cancel_row hstep hcancelling
    rw [hrow] at hrow'
    rw [place_of_row hrow, place_of_row hrow', cancelling_flush_status hshaped hcancelling]
    refine ⟨?_, rfl⟩
    have hstatus : m.loaded.status = .pending ∨ m.loaded.status = .scheduled := by
      simpa [Job.cancellable] using hshape.1
    rcases hstatus with hstatus | hstatus
    · rw [hstatus]
      rfl
    · rw [hstatus]
      rfl
  | reopen =>
    obtain ⟨c, m, rfl, hretrying, rfl⟩ := reopens_iff.mp h
    have hrow : s.row m.id = some m.loaded := by simpa [freshCommit, hretrying] using hfresh
    have hshape := hshaped.call c
    rw [hretrying] at hshape
    have hrow' := retry_row hstep hretrying
    rw [hrow] at hrow'
    have hstatus : m.loaded.status = .failed := by simpa [Job.retryable] using hshape.1
    rw [place_of_row hrow, place_of_row hrow', retrying_flush_status hshaped hretrying, hstatus]
    exact ⟨rfl, rfl⟩

/-- An event that moves a row shows its commit. -/
theorem place_life {event : LifeEvent} (hlife : LifeStep settings event row row')
    (hseen : event.seen j (s, a) = true) (hnone : passage j (s, a) = none) :
    row'.status.place = row.status.place := by
  have hnot : ∀ p : Passage, p.shown j (s, a) ≠ true := by
    intro p hp
    rw [passage_iff.mpr hp] at hnone
    cases hnone
  cases hlife with
  | claim => exact absurd hseen (hnot .claim)
  | complete => exact absurd hseen (hnot .complete)
  | fail =>
    rcases Bool.or_eq_true_iff.mp hseen with hseen | hseen
    · exact absurd hseen (hnot .defer)
    · exact absurd hseen (hnot .fail)
  | cancel => exact absurd hseen (hnot .cancel)
  | retry => exact absurd hseen (hnot .reopen)
  | reap => exact absurd hseen (hnot .reset)
  | promote hdue =>
    show JobStatus.place .pending = row.status.place
    rw [(Job.dueAt_iff.mp hdue).1]
    rfl
  | renew | report | cleanup => rfl

/-- What is known of each step of a run of atomic operations. -/
structure Orderly (settings : Settings) (s : State) (a : Action) : Prop where
  atomic : atomicStep s a = true
  shaped : s.Shaped settings
  owned : s.OwnedInv

theorem orderly_of_run (hquiet : s₀.Quiet) (hrun : Run (step settings) s₀ tr s)
    (hatomic : ∀ e ∈ tr, atomicStep e.1 e.2 = true) : ∀ e ∈ tr, Orderly settings e.1 e.2 := by
  intro e he
  obtain ⟨past, future, t, rfl, hbefore, _, _⟩ := hrun.split_of_mem he
  refine ⟨hatomic e he, shaped_of_run hquiet hbefore, ownedInv_of_run hquiet hbefore ?_⟩
  intro e' he'
  exact hatomic e' (List.mem_append_left _ he')

/-- Under atomic operations a step takes a job along the edge it shows, or leaves it. -/
theorem moves_step (h : Orderly settings s a) (hstep : step settings s a = some s') (j : UUID) :
    lifecycle.Moves (s.place j) (passage j (s, a)) (s'.place j) := by
  cases hshown : passage j (s, a) with
  | some p =>
    obtain ⟨hsource, htarget⟩ := shown_moves h.atomic h.shaped hstep (passage_iff.mp hshown)
    rw [hsource, htarget]
    exact .go p
  | none =>
    suffices hsame : s'.place j = s.place j by
      rw [hsame]
      exact .stay _
    cases hrow : s.row j with
    | none =>
      cases hrow' : s'.row j with
      | none => rw [place_of_none hrow, place_of_none hrow']
      | some row' =>
        -- the row is new, and the entry shows its submission
        obtain ⟨c, ha, hcall, hok⟩ := row_new hstep hrow hrow'
        have hsubmits : Passage.submit.shown j (s, a) = true := by
          rw [Passage.shown, submits_iff.mpr ⟨c, ha, hcall, hok⟩]
          rfl
        rw [passage_iff.mpr hsubmits] at hshown
        cases hshown
    | some row =>
      obtain ⟨row', hrow', _⟩ := row_step hstep hrow
      rw [place_of_row hrow, place_of_row hrow']
      rcases life_step h.owned h.atomic h.shaped hstep hrow hrow' with rfl | ⟨event, hlife, hseen⟩
      · rfl
      · exact place_life hlife hseen hshown

/-- In every run of atomic operations the commits on a job form a route through the graph. -/
theorem route_of_run (hrun : Run (step settings) s₀ tr s)
    (horderly : ∀ e ∈ tr, Orderly settings e.1 e.2) (j : UUID) :
    lifecycle.Route (s₀.place j) (tr.filterMap (passage j)) (s.place j) := by
  apply Run.route (f := fun s => s.place j) hrun horderly
  intro s a s' h hstep
  exact moves_step h hstep j

end JobQueue
