import JobQueue.Library.Transition
import Mathlib.Data.Finset.Card

/-!
# Counting the parties in a phase

A party enters a phase by one kind of step and leaves it by another. In every run the steps
that enter are as many as those that leave and the parties that are in the phase; where
there are none, the two kinds of steps are as many.
-/

namespace Transition

variable {σ α ι : Type} {step : σ → α → Option σ} {s₀ s : σ} {tr : List (σ × α)}

/-- What a step of the party `actor` does to the phase: `enter` and `leave` tell whether it
is a step into or out of it. -/
structure Turnover (busy busy' : ι → Prop) (actor : Option ι) (enter leave : Bool) : Prop where
  busy_iff : ∀ i, busy' i ↔ (busy i ∧ ¬ (leave = true ∧ actor = some i)) ∨
    (enter = true ∧ actor = some i)
  entering : enter = true → leave = false ∧ ∃ i, actor = some i ∧ ¬ busy i
  leaving : leave = true → ∃ i, actor = some i ∧ busy i

variable [DecidableEq ι] {busy busy' : ι → Prop} {actor : Option ι} {enter leave : Bool}

theorem Turnover.card (h : Turnover busy busy' actor enter leave) {F : Finset ι}
    (hF : ∀ i, i ∈ F ↔ busy i) :
    ∃ F' : Finset ι, (∀ i, i ∈ F' ↔ busy' i) ∧
      F'.card + (if leave then 1 else 0) = F.card + if enter then 1 else 0 := by
  by_cases henter : enter = true
  · obtain ⟨hleave, i, hactor, hnot⟩ := h.entering henter
    refine ⟨insert i F, ?_, ?_⟩
    · intro k
      rw [h.busy_iff, Finset.mem_insert, hF, hleave, henter, hactor]
      simp only [Bool.false_eq_true, false_and, not_false_eq_true, and_true, true_and,
        Option.some.injEq, eq_comm]
      tauto
    · rw [Finset.card_insert_of_notMem (fun hi => hnot ((hF i).mp hi)), hleave, henter]
      rfl
  · by_cases hleave : leave = true
    · obtain ⟨i, hactor, hbusy⟩ := h.leaving hleave
      refine ⟨F.erase i, ?_, ?_⟩
      · intro k
        rw [h.busy_iff, Finset.mem_erase, hF, hactor]
        simp only [hleave, henter, Option.some.injEq, true_and]
        tauto
      · have hcard := Finset.card_erase_add_one ((hF i).mpr hbusy)
        rw [if_pos hleave, if_neg henter]
        exact hcard
    · refine ⟨F, ?_, by simp [henter, hleave]⟩
      intro k
      rw [h.busy_iff, hF]
      simp [henter, hleave]

/-- Of the steps into the phase, as many as there are parties in it have not been followed by
a step out of it. -/
theorem Run.outstanding (hrun : Run step s₀ tr s) {C : σ → α → Prop} (hC : ∀ e ∈ tr, C e.1 e.2)
    {busy : σ → ι → Prop} {actor : α → Option ι} {enter leave : σ × α → Bool}
    (h0 : ∀ i, ¬ busy s₀ i)
    (hs : ∀ s a s', C s a → step s a = some s' →
      Turnover (busy s) (busy s') (actor a) (enter (s, a)) (leave (s, a))) :
    ∃ F : Finset ι, (∀ i, i ∈ F ↔ busy s i) ∧ tr.countP enter = F.card + tr.countP leave := by
  refine hrun.induct hC (I := fun tr s => ∃ F : Finset ι, (∀ i, i ∈ F ↔ busy s i) ∧
    tr.countP enter = F.card + tr.countP leave) ⟨∅, by simpa using h0, rfl⟩ ?_
  rintro tr s a s' - - ⟨F, hF, hcount⟩ ha hstep
  obtain ⟨F', hF', hcard⟩ := (hs s a s' ha hstep).card hF
  refine ⟨F', hF', ?_⟩
  rw [List.countP_append, List.countP_append, List.countP_singleton, List.countP_singleton]
  omega

/-- Where no party is in the phase, every step into it has been followed by one out of it. -/
theorem Run.settled (hrun : Run step s₀ tr s) {C : σ → α → Prop} (hC : ∀ e ∈ tr, C e.1 e.2)
    {busy : σ → ι → Prop} {actor : α → Option ι} {enter leave : σ × α → Bool}
    (h0 : ∀ i, ¬ busy s₀ i)
    (hs : ∀ s a s', C s a → step s a = some s' →
      Turnover (busy s) (busy s') (actor a) (enter (s, a)) (leave (s, a)))
    (hidle : ∀ i, ¬ busy s i) : tr.countP enter = tr.countP leave := by
  obtain ⟨F, hF, hcount⟩ := hrun.outstanding hC h0 hs
  have hempty : F = ∅ := Finset.eq_empty_of_forall_notMem fun i hi => hidle i ((hF i).mp hi)
  rw [hempty] at hcount
  simpa using hcount

end Transition
