import JobQueue.Library.Transition
import Mathlib.Data.Fintype.Basic
import Mathlib.Logic.Function.Basic

/-!
# Periodic loops that run together

A group of tasks, each `while not stop: (its calls, one after the other); wait`, is awaited
as one. An exception of a call ends the round of its loop if the calls are guarded, and the
loop itself if they are not; then it ends the group, and the other tasks are cancelled.
The group survives without a stop exactly as long as no call of an unguarded loop raises
(`survives_iff`).
-/

namespace LoopGroup

open Transition

variable {ι κ ε : Type} {i : ι}

/-! ## A loop and its group -/

structure Loop (κ : Type) where
  calls : List κ
  /-- The calls stand in a `try` whose `except` clause goes on with the wait. -/
  guarded : Bool := false

/-- Where a loop stands. `testing` is before its `while` condition, `calling` awaits a call
with the others still to come. -/
inductive Phase (κ : Type)
  | testing
  | calling (call : κ) (rest : List κ)
  | waiting
  | returned
  | raised
  | cancelled

def Phase.inside : Phase κ → Bool
  | .testing | .calling _ _ | .waiting => true
  | .returned | .raised | .cancelled => false

def Phase.isReturned : Phase κ → Bool
  | .returned => true
  | _ => false

/-- Go on with the calls that are left. -/
def Phase.next : List κ → Phase κ
  | [] => .waiting
  | call :: rest => .calling call rest

structure Group (ι κ ε : Type) where
  phases : ι → Phase κ := fun _ => .testing
  stop : Bool := false
  /-- What the `await` of the group has given: nothing yet, a return or the first
  exception. -/
  outcome : Option (Except ε Unit) := none

inductive Action (ι ε : Type)
  | test (i : ι)
  | answer (i : ι) (raised : Option ε)
  | wake (i : ι)
  | stop
  | complete
  | cancel (i : ι)

variable [DecidableEq ι]

def Group.move (g : Group ι κ ε) (i : ι) (phase : Phase κ) : Group ι κ ε :=
  { g with phases := Function.update g.phases i phase }

section moves

variable {g : Group ι κ ε}

theorem Group.move_same (phase : Phase κ) : (g.move i phase).phases i = phase := by
  simp [Group.move]

theorem Group.move_other {k : ι} (phase : Phase κ) (h : k ≠ i) :
    (g.move i phase).phases k = g.phases k := by
  simp [Group.move, Function.update_of_ne h]

/-- After a move a phase is the new one or was there before. -/
theorem Group.move_phase {phase phase' : Phase κ} {k : ι} (h : (g.move i phase).phases k = phase') :
    phase = phase' ∨ g.phases k = phase' := by
  by_cases hk : k = i
  · subst hk
    rw [Group.move_same] at h
    exact Or.inl h
  · rw [Group.move_other phase hk] at h
    exact Or.inr h

theorem Group.move_ne {phase phase' : Phase κ} (hne : phase ≠ phase')
    (h : ∀ k, g.phases k ≠ phase') (k : ι) : (g.move i phase).phases k ≠ phase' := by
  intro hk
  rcases Group.move_phase hk with hk | hk
  · exact hne hk
  · exact h k hk

end moves

def step [Fintype ι] (loops : ι → Loop κ) (g : Group ι κ ε) : Action ι ε → Option (Group ι κ ε)
  | .test i =>
      match g.phases i with
      | .testing => some (g.move i (if g.stop then .returned else .next (loops i).calls))
      | _ => none
  | .answer i raised =>
      match g.phases i, raised with
      | .calling _ rest, none => some (g.move i (.next rest))
      | .calling _ _, some exc =>
          if (loops i).guarded then some (g.move i .waiting)
          else some { g.move i .raised with outcome := some (g.outcome.getD (.error exc)) }
      | _, _ => none
  -- the wait ends with its time or with the stop
  | .wake i =>
      match g.phases i with
      | .waiting => some (g.move i .testing)
      | _ => none
  | .stop => some { g with stop := true }
  | .complete =>
      if g.outcome.isNone ∧ ∀ i, (g.phases i).isReturned = true then
        some { g with outcome := some (.ok ()) }
      else none
  -- the caller has left with the exception, and its event loop closes
  | .cancel i =>
      match g.outcome with
      | some (.error _) => if (g.phases i).inside then some (g.move i .cancelled) else none
      | _ => none

/-- Every loop is inside its `while`, and the group is still awaited. -/
structure Group.Survives (g : Group ι κ ε) : Prop where
  inside : ∀ i, (g.phases i).inside = true
  awaited : g.outcome = none

/-- The exception of a call that nothing in its loop catches. -/
def escapes (loops : ι → Loop κ) (e : Group ι κ ε × Action ι ε) : Bool :=
  match e.2 with
  | .answer i (some _) => !(loops i).guarded
  | _ => false

variable {loops : ι → Loop κ} {g g' : Group ι κ ε} {a : Action ι ε}
  {tr : List (Group ι κ ε × Action ι ε)}

theorem Phase.next_calling {calls rest : List κ} {call : κ}
    (h : Phase.next calls = .calling call rest) : calls = call :: rest := by
  cases calls with
  | nil => cases h
  | cons first others =>
    cases h
    rfl

theorem Phase.next_inside (calls : List κ) : (Phase.next calls).inside = true := by
  cases calls <;> rfl

/-! ## What a step does -/

/-- A step lets a loop go on, ends one after the stop, ends one with an exception or cancels
one when the group has raised; or it sets the stop, or completes the group. -/
inductive Effect (loops : ι → Loop κ) (g : Group ι κ ε) : Action ι ε → Group ι κ ε → Prop
  | go {b : Action ι ε} {phase : Phase κ} (i : ι) (hbefore : (g.phases i).inside = true)
      (hphase : phase.inside = true) (hcaught : escapes loops (g, b) = false) :
      Effect loops g b (g.move i phase)
  | leave {i : ι} (hbefore : (g.phases i).inside = true) (hstop : g.stop = true) :
      Effect loops g (.test i) (g.move i .returned)
  | raise {i : ι} {exc : ε} (hbefore : (g.phases i).inside = true)
      (hescapes : (loops i).guarded = false) :
      Effect loops g (.answer i (some exc))
        { g.move i .raised with outcome := some (g.outcome.getD (.error exc)) }
  | stop : Effect loops g .stop { g with stop := true }
  | complete (hreturned : ∀ i, g.phases i = .returned) :
      Effect loops g .complete { g with outcome := some (.ok ()) }
  | cancel {i : ι} {exc : ε} (hraised : g.outcome = some (.error exc))
      (hbefore : (g.phases i).inside = true) : Effect loops g (.cancel i) (g.move i .cancelled)

theorem effect_of_step [Fintype ι] (hstep : step loops g a = some g') : Effect loops g a g' := by
  cases a with
  | test i =>
    simp only [step] at hstep
    split at hstep
    · rename_i htesting
      cases hstep
      have hbefore : (g.phases i).inside = true := by rw [htesting]; rfl
      cases hstop : g.stop with
      | true => exact .leave hbefore hstop
      | false => exact .go i hbefore (Phase.next_inside _) rfl
    · cases hstep
  | answer i raised =>
    simp only [step] at hstep
    split at hstep
    · rename_i call rest hcalling
      cases hstep
      exact .go i (by rw [hcalling]; rfl) (Phase.next_inside _) rfl
    · rename_i call rest exc hcalling
      have hbefore : (g.phases i).inside = true := by rw [hcalling]; rfl
      split at hstep
      · rename_i hguarded
        cases hstep
        exact .go i hbefore rfl (by simp [escapes, hguarded])
      · rename_i hguarded
        cases hstep
        exact .raise hbefore (Bool.eq_false_of_not_eq_true hguarded)
    · cases hstep
  | wake i =>
    simp only [step] at hstep
    split at hstep
    · rename_i hwaiting
      cases hstep
      exact .go i (by rw [hwaiting]; rfl) rfl rfl
    · cases hstep
  | stop =>
    cases hstep
    exact .stop
  | complete =>
    simp only [step] at hstep
    split at hstep
    · rename_i hall
      cases hstep
      refine .complete fun i => ?_
      have hreturned := hall.2 i
      cases hphase : g.phases i <;> rw [hphase] at hreturned <;> first | rfl | cases hreturned
    · cases hstep
  | cancel i =>
    simp only [step] at hstep
    split at hstep
    · rename_i exc hraised
      split at hstep
      · rename_i hbefore
        cases hstep
        exact .cancel hraised hbefore
      · cases hstep
    · cases hstep

/-! ## Runs -/

structure GroupInv (loops : ι → Loop κ) (tr : List (Group ι κ ε × Action ι ε))
    (g : Group ι κ ε) : Prop where
  returned : ∀ i, g.phases i = .returned → g.stop = true
  completed : g.outcome = some (.ok ()) → ∀ i, g.phases i = .returned
  /-- Without an exception that escapes no task ends with one and none is cancelled. -/
  quiet : (∀ e ∈ tr, escapes loops e = false) →
    (∀ i, g.phases i ≠ .raised ∧ g.phases i ≠ .cancelled) ∧ ∀ exc, g.outcome ≠ some (.error exc)
  /-- A task that has ended with an exception stays so. -/
  raised : (∃ e ∈ tr, escapes loops e = true) → ∃ i, g.phases i = .raised

omit [DecidableEq ι] in
theorem groupInv_start (loops : ι → Loop κ) : GroupInv loops [] ({} : Group ι κ ε) where
  returned i h := by cases h
  completed h := by cases h
  quiet _ := ⟨fun i => ⟨by simp, by simp⟩, by simp⟩
  raised h := by simp at h

/-- What a move of a loop leaves of the invariant, if it is not the raise of an exception. -/
theorem GroupInv.move {phase : Phase κ} (h : GroupInv loops tr g)
    (hbefore : (g.phases i).inside = true) (hcaught : escapes loops (g, a) = false)
    (hreturned : phase = .returned → g.stop = true) (hraised : phase ≠ .raised)
    (hcancelled : phase = .cancelled → ∃ exc, g.outcome = some (.error exc)) :
    GroupInv loops (tr ++ [(g, a)]) (g.move i phase) where
  returned k hk := by
    rcases Group.move_phase hk with hk | hk
    · exact hreturned hk
    · exact h.returned k hk
  completed hdone := by
    rw [h.completed hdone i] at hbefore
    cases hbefore
  quiet hall := by
    obtain ⟨hphases, houtcome⟩ := h.quiet fun e he => hall e (List.mem_append_left _ he)
    have hne : phase ≠ .cancelled := by
      intro heq
      obtain ⟨exc, hexc⟩ := hcancelled heq
      exact houtcome exc hexc
    exact ⟨fun k => ⟨Group.move_ne hraised (fun k => (hphases k).1) k,
      Group.move_ne hne (fun k => (hphases k).2) k⟩, houtcome⟩
  raised := by
    rintro ⟨e, he, hescapes⟩
    rcases List.mem_append.mp he with he | he
    · obtain ⟨k, hk⟩ := h.raised ⟨e, he, hescapes⟩
      have hne : k ≠ i := by
        rintro rfl
        rw [hk] at hbefore
        cases hbefore
      exact ⟨k, (Group.move_other phase hne).trans hk⟩
    · rw [List.mem_singleton.mp he, hcaught] at hescapes
      cases hescapes

omit [DecidableEq ι] in
/-- What a step that moves no loop leaves of it. -/
theorem GroupInv.still (h : GroupInv loops tr g) (hcaught : escapes loops (g, a) = false)
    (hphases : g'.phases = g.phases) (hstop : g.stop = true → g'.stop = true)
    (houtcome : g'.outcome = g.outcome ∨
      (g'.outcome = some (.ok ()) ∧ ∀ i, g.phases i = .returned)) :
    GroupInv loops (tr ++ [(g, a)]) g' where
  returned k hk := hstop (h.returned k (hphases ▸ hk))
  completed hdone := by
    rw [hphases]
    rcases houtcome with hsame | ⟨_, hall⟩
    · exact h.completed (hsame ▸ hdone)
    · exact hall
  quiet hall := by
    obtain ⟨hquiet, herror⟩ := h.quiet fun e he => hall e (List.mem_append_left _ he)
    rw [hphases]
    refine ⟨hquiet, ?_⟩
    rcases houtcome with hsame | ⟨hok, _⟩
    · rwa [hsame]
    · simp [hok]
  raised := by
    rintro ⟨e, he, hescapes⟩
    rw [hphases]
    rcases List.mem_append.mp he with he | he
    · exact h.raised ⟨e, he, hescapes⟩
    · rw [List.mem_singleton.mp he, hcaught] at hescapes
      cases hescapes

variable [Fintype ι]

theorem groupInv_step (h : GroupInv loops tr g) (hstep : step loops g a = some g') :
    GroupInv loops (tr ++ [(g, a)]) g' := by
  cases effect_of_step hstep with
  | @go _ phase i hbefore hphase hcaught =>
    have hends : ∀ ended : Phase κ, ended.inside = false → phase ≠ ended := by
      rintro ended hended rfl
      rw [hphase] at hended
      cases hended
    exact h.move hbefore hcaught (fun heq => absurd heq (hends _ rfl)) (hends _ rfl)
      fun heq => absurd heq (hends _ rfl)
  | leave hbefore hstop =>
    exact h.move hbefore rfl (fun _ => hstop) (by simp) (by simp)
  | @raise i exc hbefore hescapes =>
    refine ⟨?_, ?_, ?_, fun _ => ⟨i, Group.move_same _⟩⟩
    · intro k hk
      rcases Group.move_phase hk with hk | hk
      · cases hk
      · exact h.returned k hk
    · intro hdone
      -- a group with a loop inside has not completed
      cases houtcome : g.outcome with
      | none => simp [houtcome] at hdone
      | some result =>
        simp only [houtcome, Option.getD_some] at hdone
        rw [h.completed (houtcome.trans hdone) i] at hbefore
        cases hbefore
    · intro hall
      have hnow := hall _ (List.mem_append_right _ (List.mem_singleton_self _))
      simp [escapes, hescapes] at hnow
  | stop => exact h.still rfl rfl (fun _ => rfl) (Or.inl rfl)
  | complete hreturned => exact h.still rfl rfl id (Or.inr ⟨rfl, hreturned⟩)
  | cancel hraised hbefore =>
    exact h.move hbefore rfl (by simp) (by simp) fun _ => ⟨_, hraised⟩

theorem groupInv_of_run (hrun : Run (step loops) ({} : Group ι κ ε) tr g) :
    GroupInv loops tr g := by
  induction hrun with
  | nil => exact groupInv_start loops
  | snoc _ hstep ih => exact groupInv_step ih hstep

/-- A loop awaits one of its calls, with those that follow it still to come. -/
theorem suffix_of_run (hrun : Run (step loops) ({} : Group ι κ ε) tr g) {call : κ} {rest : List κ}
    (h : g.phases i = .calling call rest) : call :: rest <:+ (loops i).calls := by
  induction hrun generalizing call rest with
  | nil => cases h
  | @snoc tr g a g' _ hstep ih =>
    cases a with
    | test k =>
      simp only [step] at hstep
      split at hstep
      · cases hstep
        by_cases hk : i = k
        · subst hk
          rw [Group.move_same] at h
          split at h
          · cases h
          · rw [Phase.next_calling h]
        · rw [Group.move_other _ hk] at h
          exact ih h
      · cases hstep
    | answer k raised =>
      simp only [step] at hstep
      split at hstep
      · rename_i done others hcalling
        cases hstep
        by_cases hk : i = k
        · subst hk
          rw [Group.move_same] at h
          have hsuffix := ih hcalling
          rw [Phase.next_calling h] at hsuffix
          exact (List.suffix_cons done (call :: rest)).trans hsuffix
        · rw [Group.move_other _ hk] at h
          exact ih h
      · split at hstep
        all_goals
          cases hstep
          rcases Group.move_phase h with hnow | hbefore
          · cases hnow
          · exact ih hbefore
      · cases hstep
    | wake | cancel =>
      simp only [step] at hstep
      repeat' split at hstep
      all_goals cases hstep
      all_goals
        rcases Group.move_phase h with hnow | hbefore
        · cases hnow
        · exact ih hbefore
    | stop =>
      cases hstep
      exact ih h
    | complete =>
      simp only [step] at hstep
      split at hstep
      · cases hstep
        exact ih h
      · cases hstep

/-- A loop returns only after the stop. -/
theorem stop_of_returned (hrun : Run (step loops) ({} : Group ι κ ε) tr g)
    (h : g.phases i = .returned) : g.stop = true :=
  (groupInv_of_run hrun).returned i h

/-- As long as the stop is not set, every loop is inside its `while` and the group awaited if
and only if no exception has escaped. -/
theorem survives_iff [Nonempty ι] (hrun : Run (step loops) ({} : Group ι κ ε) tr g)
    (hstop : g.stop = false) : g.Survives ↔ ∀ e ∈ tr, escapes loops e = false := by
  have hinv := groupInv_of_run hrun
  have hreturned : ∀ i, g.phases i ≠ .returned := by
    intro i hi
    rw [hinv.returned i hi] at hstop
    cases hstop
  constructor
  · intro hsurvives e he
    by_contra hescapes
    obtain ⟨i, hi⟩ := hinv.raised ⟨e, he, Bool.eq_true_of_not_eq_false hescapes⟩
    have hinside := hsurvives.inside i
    rw [hi] at hinside
    cases hinside
  · intro hall
    obtain ⟨hphases, houtcome⟩ := hinv.quiet hall
    refine ⟨?_, ?_⟩
    · intro i
      have hraised := (hphases i).1
      have hcancelled := (hphases i).2
      have hleft := hreturned i
      cases hphase : g.phases i with
      | testing | calling | waiting => rfl
      | returned => exact absurd hphase hleft
      | raised => exact absurd hphase hraised
      | cancelled => exact absurd hphase hcancelled
    · cases hdone : g.outcome with
      | none => rfl
      | some result =>
        cases result with
        | ok value => exact absurd (hinv.completed hdone (Classical.arbitrary ι)) (hreturned _)
        | error exc => exact absurd hdone (houtcome exc)

end LoopGroup
