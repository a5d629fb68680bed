import JobQueue.Library.Transition
import Mathlib.Algebra.BigOperators.Group.Finset.Basic
import Mathlib.Algebra.BigOperators.Ring.Finset

/-!
# Routes of an object through a graph

While a system runs, an object of it is at one place after another. If every step either
leaves it where it is or takes it along an edge of a graph, and the history shows which, then
the edges shown form a route. A route enters a place as often as it leaves it, up to its two
ends (`Wiring.Route.balance`), and it never leaves a place that no edge leaves
(`Wiring.Route.of_sink`). Where an entry shows an edge of one object only, the edges of all
objects together balance against the numbers of objects at each place (`balance_all`).
-/

namespace Transition

variable {σ α ρ ε : Type} {step : σ → α → Option σ} {s₀ s : σ} {tr : List (σ × α)}

structure Wiring (ρ ε : Type) where
  source : ε → ρ
  target : ε → ρ

variable {G : Wiring ρ ε} {x y z : ρ} {es fs : List ε}

/-- The object stays, or goes along the edge that is shown. -/
inductive Wiring.Moves (G : Wiring ρ ε) : ρ → Option ε → ρ → Prop
  | stay (x : ρ) : G.Moves x none x
  | go (e : ε) : G.Moves (G.source e) (some e) (G.target e)

/-- The edges lead from `x` to the place, one after the other. -/
inductive Wiring.Route (G : Wiring ρ ε) (x : ρ) : List ε → ρ → Prop
  | nil : G.Route x [] x
  | snoc {es : List ε} {e : ε} (h : G.Route x es (G.source e)) :
      G.Route x (es ++ [e]) (G.target e)

theorem Wiring.Route.move (h : G.Route x es y) {shown : Option ε} (hmove : G.Moves y shown z) :
    G.Route x (es ++ shown.toList) z := by
  cases hmove with
  | stay => simpa using h
  | go e => exact h.snoc

/-- A route enters a place as often as it leaves it, but for its start and its end. -/
theorem Wiring.Route.balance [DecidableEq ρ] (h : G.Route x es y) (z : ρ) :
    es.countP (fun e => G.target e = z) + (if x = z then 1 else 0) =
      es.countP (fun e => G.source e = z) + if y = z then 1 else 0 := by
  induction h with
  | nil => rfl
  | @snoc es e _ ih =>
    rw [List.countP_append, List.countP_append, List.countP_singleton, List.countP_singleton]
    simp only [decide_eq_true_eq]
    omega

/-- A route from a place that no edge leaves goes nowhere. -/
theorem Wiring.Route.of_sink (h : G.Route x es y) (hsink : ∀ e, G.source e ≠ x) :
    es = [] ∧ y = x := by
  induction h with
  | nil => exact ⟨rfl, rfl⟩
  | @snoc es e h ih => exact absurd ih.2 (hsink e)

/-! ## Routes in a run -/

variable {f : σ → ρ} {shown : σ × α → Option ε} {C : σ → α → Prop}

/-- If each step of a run moves the object as its entry shows, the history shows its route. -/
theorem Run.route (hrun : Run step s₀ tr s) (hC : ∀ e ∈ tr, C e.1 e.2)
    (hs : ∀ s a s', C s a → step s a = some s' →
      G.Moves (f s) (shown (s, a)) (f s')) :
    G.Route (f s₀) (tr.filterMap shown) (f s) := by
  refine hrun.induct hC (I := fun tr s => G.Route (f s₀) (tr.filterMap shown) (f s))
    .nil ?_
  intro tr s a s' _ _ ih ha hstep
  have hmove := ih.move (hs s a s' ha hstep)
  rw [List.filterMap_append]
  cases hshown : shown (s, a) with
  | none => simpa [hshown] using hmove
  | some e => simpa [hshown] using hmove

/-! ## Many objects -/

section

variable {ι : Type} {about : σ × α → Option ι} {shown : ι → σ × α → Option ε}
  {ids : Finset ι}

/-- The edge that an entry shows, of the object it is about. -/
def edgeOf (about : σ × α → Option ι) (shown : ι → σ × α → Option ε) (e : σ × α) : Option ε :=
  (about e).bind fun i => shown i e

/-- The edges of a history are those of its objects. -/
theorem sum_countP_shown {q : ε → Bool}
    (habout : ∀ e ∈ tr, ∀ i p, shown i e = some p → about e = some i)
    (hids : ∀ e ∈ tr, ∀ i p, shown i e = some p → q p = true → i ∈ ids) :
    ∑ i ∈ ids, (tr.filterMap (shown i)).countP q =
      (tr.filterMap (edgeOf about shown)).countP q := by
  induction tr with
  | nil => simp
  | cons e tr ih =>
    have hrest := ih (fun e he => habout e (List.mem_cons_of_mem _ he))
      (fun e he => hids e (List.mem_cons_of_mem _ he))
    have hcons : ∀ f : σ × α → Option ε, ((e :: tr).filterMap f).countP q =
        (if (f e).any q then 1 else 0) + (tr.filterMap f).countP q := by
      intro f
      rw [List.filterMap_cons]
      cases f e with
      | none => simp
      | some p =>
        simp only [List.countP_cons, Option.any_some]
        omega
    simp only [hcons, Finset.sum_add_distrib, hrest, Nat.add_right_cancel_iff]
    -- no other object than the one the entry is about shows an edge
    cases hsubject : about e with
    | none =>
      have hnone : ∀ i, shown i e = none := by
        intro i
        by_contra h
        obtain ⟨p, hp⟩ := Option.ne_none_iff_exists'.mp h
        rw [habout e (List.mem_cons_self) i p hp] at hsubject
        cases hsubject
      simp [edgeOf, hsubject, hnone]
    | some j =>
      have hother : ∀ i, i ≠ j → shown i e = none := by
        intro i hij
        by_contra h
        obtain ⟨p, hp⟩ := Option.ne_none_iff_exists'.mp h
        rw [habout e (List.mem_cons_self) i p hp] at hsubject
        exact hij (Option.some.inj hsubject)
      have hedge : edgeOf about shown e = shown j e := by simp [edgeOf, hsubject]
      rw [hedge, Finset.sum_eq_single j]
      · intro i _ hij
        simp [hother i hij]
      · intro hj
        rw [if_neg]
        intro hq
        obtain ⟨p, hp, hqp⟩ := (Option.any_eq_true _ _).mp hq
        exact hj (hids e (List.mem_cons_self) j p hp hqp)

/-- All objects together enter a place as often as they leave it, but for those that were there
at the start and those that are there now. -/
theorem balance_all [DecidableEq ρ] {place₀ place : ι → ρ}
    (hroute : ∀ i ∈ ids, G.Route (place₀ i) (tr.filterMap (shown i)) (place i))
    (habout : ∀ e ∈ tr, ∀ i p, shown i e = some p → about e = some i)
    (hids : ∀ e ∈ tr, ∀ i p, shown i e = some p → i ∈ ids) (z : ρ) :
    (tr.filterMap (edgeOf about shown)).countP (fun e => G.target e = z) +
        (ids.filter fun i => place₀ i = z).card =
      (tr.filterMap (edgeOf about shown)).countP (fun e => G.source e = z) +
        (ids.filter fun i => place i = z).card := by
  have hsum := Finset.sum_congr rfl fun i hi => (hroute i hi).balance z
  rw [Finset.sum_add_distrib, Finset.sum_add_distrib,
    sum_countP_shown habout (fun e he i p h _ => hids e he i p h),
    sum_countP_shown habout (fun e he i p h _ => hids e he i p h)] at hsum
  rw [Finset.card_filter, Finset.card_filter]
  exact hsum

end

end Transition
