import Mathlib.Algebra.Order.Floor.Div
import Mathlib.Data.Finset.Card

/-!
# Working off a backlog in batches

A backlog is a finite set. Each round takes some of it away, at least `limit` of its members
as long as there are so many. What is left is what no batch holds, and `⌈n / limit⌉` rounds
take a backlog of `n` away.
-/

namespace Backlog

variable {ι : Type} [DecidableEq ι]

/-- Rounds that take the batches `Cs` away, one after the other, from `R` and leave `R'`. -/
inductive Works (limit : ℕ) : Finset ι → List (Finset ι) → Finset ι → Prop
  | nil (R) : Works limit R [] R
  | cons {R C Cs R'} (hsub : C ⊆ R) (hbatch : min limit R.card ≤ C.card)
      (hrest : Works limit (R \ C) Cs R') : Works limit R (C :: Cs) R'

variable {limit : ℕ} {R R' : Finset ι} {Cs : List (Finset ι)} {i : ι}

/-- What is left is what no round took. -/
theorem Works.mem_iff (h : Works limit R Cs R') : i ∈ R' ↔ i ∈ R ∧ ∀ C ∈ Cs, i ∉ C := by
  induction h with
  | nil => simp
  | cons _ _ _ ih =>
    rw [ih, Finset.mem_sdiff, List.forall_mem_cons, and_assoc]

/-- One more round at the end. -/
theorem Works.snoc {C Q : Finset ι} (h : Works limit R Cs Q) (hsub : C ⊆ Q)
    (hbatch : min limit Q.card ≤ C.card) : Works limit R (Cs ++ [C]) (Q \ C) := by
  induction h with
  | nil R => exact .cons hsub hbatch (.nil _)
  | cons hsub₁ hbatch₁ _ ih => exact .cons hsub₁ hbatch₁ (ih hsub hbatch)

theorem Works.batch_subset (h : Works limit R Cs R') : ∀ C ∈ Cs, C ⊆ R := by
  induction h with
  | nil => simp
  | cons hsub _ _ ih =>
    intro D hD
    rcases List.mem_cons.mp hD with rfl | hD
    · exact hsub
    · exact (ih D hD).trans Finset.sdiff_subset

theorem Works.card_le (h : Works limit R Cs R') : R'.card ≤ R.card - Cs.length * limit := by
  induction h with
  | nil => simp
  | @cons R C Cs R' hsub hbatch _ ih =>
    rw [Finset.card_sdiff_of_subset hsub] at ih
    have hle := Finset.card_le_card hsub
    rw [List.length_cons, Nat.succ_mul]
    omega

/-- Enough rounds leave nothing. -/
theorem Works.eq_empty (h : Works limit R Cs R') (hlimit : 0 < limit)
    (hrounds : R.card ⌈/⌉ limit ≤ Cs.length) : R' = ∅ := by
  have hcover : R.card ≤ limit * Cs.length := by
    simpa using (ceilDiv_le_iff_le_smul hlimit).mp hrounds
  have hcard := h.card_le
  rw [← Finset.card_eq_zero]
  rw [Nat.mul_comm] at hcover
  omega

end Backlog
