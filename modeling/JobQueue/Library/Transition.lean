import Mathlib.Data.List.Basic
import Mathlib.Order.Basic

/-!
# Runs of a labelled transition system

The system is a partial function `step : σ → α → Option σ`: `step s a` is the state after
the action `a`, and `none` where `a` is not enabled. A run is recorded with its whole
history, a list of pairs of a state and the action taken there, so that a property of a
run can speak about its past and be proved by induction on it.
-/

namespace Transition

variable {σ α : Type}

/-- `Run step s₀ tr s`: from `s₀` the actions of `tr`, each paired with the state it was
taken in, lead to `s`. -/
inductive Run (step : σ → α → Option σ) (s₀ : σ) : List (σ × α) → σ → Prop
  | nil : Run step s₀ [] s₀
  | snoc {tr s a s'} (hrun : Run step s₀ tr s) (hstep : step s a = some s') :
      Run step s₀ (tr ++ [(s, a)]) s'

variable {step : σ → α → Option σ} {s₀ s s' : σ} {tr : List (σ × α)}

/-! ## Conditions on a history -/

/-- Every entry of the history satisfies `C`, which may speak about the entries before it. -/
def Throughout (C : List (σ × α) → σ → α → Prop) (tr : List (σ × α)) : Prop :=
  ∀ past e future, tr = past ++ e :: future → C past e.1 e.2

theorem throughout_snoc {C : List (σ × α) → σ → α → Prop} {a : α}
    (h : Throughout C (tr ++ [(s, a)])) : Throughout C tr ∧ C tr s a := by
  constructor
  · rintro past e future rfl
    exact h past e (future ++ [(s, a)]) (by simp)
  · exact h tr (s, a) [] rfl

theorem throughout_of_forall {C : σ → α → Prop} (h : ∀ e ∈ tr, C e.1 e.2) :
    Throughout (fun _ => C) tr := by
  rintro past e future rfl
  exact h e (by simp)

theorem Throughout.prefix {C : List (σ × α) → σ → α → Prop} {tr' : List (σ × α)}
    (h : Throughout C (tr ++ tr')) : Throughout C tr := by
  rintro past e future rfl
  exact h past e (future ++ tr') (by simp)

theorem Throughout.snoc {C : List (σ × α) → σ → α → Prop} {a : α} (h : Throughout C tr)
    (ha : C tr s a) : Throughout C (tr ++ [(s, a)]) := by
  intro past e future heq
  rcases List.eq_nil_or_concat future with rfl | ⟨future', e', rfl⟩
  · obtain ⟨rfl, hlast⟩ := List.append_inj' heq rfl
    cases hlast
    exact ha
  · rw [List.concat_eq_append, ← List.cons_append, ← List.append_assoc] at heq
    exact h past e future' (List.append_inj' heq rfl).1

/-- `Throughout` for a condition that computes, on the entries `tr` that follow `past`. -/
def throughout (f : List (σ × α) → σ → α → Bool) (past : List (σ × α)) :
    List (σ × α) → Bool
  | [] => true
  | e :: tr => f past e.1 e.2 && throughout f (past ++ [e]) tr

theorem throughout_of_check {f : List (σ × α) → σ → α → Bool} {before : List (σ × α)}
    (h : throughout f before tr = true) :
    ∀ past e future, tr = past ++ e :: future → f (before ++ past) e.1 e.2 = true := by
  induction tr generalizing before with
  | nil =>
    intro past e future heq
    simp at heq
  | cons e tr ih =>
    simp only [throughout, Bool.and_eq_true] at h
    intro past e' future heq
    cases past with
    | nil =>
      cases heq
      simpa using h.1
    | cons e'' past =>
      cases heq
      simpa using ih h.2 past e' future rfl

/-! ## Induction over a run -/

/-- An invariant of history and state. The step case may use that the run so far is a run
that satisfies what the whole run satisfies. -/
theorem Run.induct_past (hrun : Run step s₀ tr s) {C : List (σ × α) → σ → α → Prop}
    (hC : Throughout C tr) {I : List (σ × α) → σ → Prop} (h0 : I [] s₀)
    (hs : ∀ tr s a s', Run step s₀ tr s → Throughout C tr → I tr s → C tr s a →
      step s a = some s' → I (tr ++ [(s, a)]) s') : I tr s := by
  induction hrun with
  | nil => exact h0
  | @snoc tr s a s' hrun hstep ih =>
    obtain ⟨hpast, ha⟩ := throughout_snoc hC
    exact hs tr s a s' hrun hpast (ih hpast) ha hstep

/-- The same for a condition on the entries one by one. -/
theorem Run.induct (hrun : Run step s₀ tr s) {C : σ → α → Prop}
    (hC : ∀ e ∈ tr, C e.1 e.2) {I : List (σ × α) → σ → Prop} (h0 : I [] s₀)
    (hs : ∀ tr s a s', Run step s₀ tr s → (∀ e ∈ tr, C e.1 e.2) → I tr s → C s a →
      step s a = some s' → I (tr ++ [(s, a)]) s') : I tr s := by
  refine hrun.induct_past (throughout_of_forall hC) h0 ?_
  intro tr s a s' hrun hpast hI ha hstep
  refine hs tr s a s' hrun ?_ hI ha hstep
  intro e he
  obtain ⟨past, future, rfl⟩ := List.append_of_mem he
  exact hpast past e future rfl

/-- An invariant of the state alone. -/
theorem Run.invariant (hrun : Run step s₀ tr s) {C : σ → α → Prop}
    (hC : ∀ e ∈ tr, C e.1 e.2) {I : σ → Prop} (h0 : I s₀)
    (hs : ∀ s a s', I s → C s a → step s a = some s' → I s') : I s :=
  hrun.induct hC (I := fun _ s => I s) h0 (fun _ s a s' _ _ hI ha hstep => hs s a s' hI ha hstep)

/-- Steps that cost one of a budget `f`, which no step of the run replenishes. -/
theorem Run.spends (hrun : Run step s₀ tr s) {J : σ → Prop} {f : σ → Nat}
    {p : σ × α → Bool} (h0 : J s₀)
    (hs : ∀ s a s', J s → step s a = some s' →
      J s' ∧ f s' + (if p (s, a) then 1 else 0) ≤ f s) :
    J s ∧ tr.countP p + f s ≤ f s₀ := by
  induction hrun with
  | nil => exact ⟨h0, by simp⟩
  | @snoc tr s a s' _ hstep ih =>
    obtain ⟨hJ, hspent⟩ := ih
    obtain ⟨hJ', hcost⟩ := hs s a s' hJ hstep
    refine ⟨hJ', ?_⟩
    rw [List.countP_append, List.countP_singleton]
    omega

/-! ## The last step of a kind -/

/-- The value of `f` where `p` last held in a history, `d` if it never did. -/
def latest {β : Type} (p : σ × α → Bool) (f : σ → β) (d : β) (tr : List (σ × α)) : β :=
  tr.foldl (fun v e => if p e then f e.1 else v) d

theorem latest_snoc {β : Type} (p : σ × α → Bool) (f : σ → β) (d : β) (tr : List (σ × α))
    (e : σ × α) : latest p f d (tr ++ [e]) = if p e then f e.1 else latest p f d tr := by
  rw [latest, List.foldl_append]
  rfl

theorem latest_of_never {β : Type} {p : σ × α → Bool} (f : σ → β) (d : β)
    (h : ∀ e ∈ tr, p e = false) : latest p f d tr = d := by
  induction tr with
  | nil => rfl
  | cons e tr ih =>
    rw [latest, List.foldl_cons, h e List.mem_cons_self]
    exact ih fun e' he' => h e' (List.mem_cons_of_mem e he')

/-- What no step lowers is, wherever it is looked up, at most what it is now. -/
theorem Run.latest_le {β : Type} [Preorder β] {f : σ → β} (hrun : Run step s₀ tr s)
    (hmono : ∀ s a s', step s a = some s' → f s ≤ f s') (p : σ × α → Bool) :
    latest p f (f s₀) tr ≤ f s := by
  induction hrun with
  | nil => exact le_rfl
  | @snoc tr s a s' hrun hstep ih =>
    have hle := hmono s a s' hstep
    rw [latest_snoc]
    split
    · exact hle
    · exact ih.trans hle

/-! ## Cutting and gluing runs -/

theorem Run.append {tr' : List (σ × α)} (h : Run step s₀ tr s) (h' : Run step s tr' s') :
    Run step s₀ (tr ++ tr') s' := by
  induction h' with
  | nil => simpa using h
  | snoc _ hstep ih =>
    rw [← List.append_assoc]
    exact ih.snoc hstep

theorem Run.of_step {a : α} (h : step s a = some s') : Run step s [(s, a)] s' := by
  simpa using Run.snoc Run.nil h

/-- A run of one system is one of another that takes the same steps there. -/
theorem Run.congr {step' : σ → α → Option σ} (hrun : Run step s₀ tr s)
    (h : ∀ e ∈ tr, step' e.1 e.2 = step e.1 e.2) : Run step' s₀ tr s := by
  induction hrun with
  | nil => exact .nil
  | @snoc tr s a s' hrun hstep ih =>
    refine .snoc (ih fun e he => h e (List.mem_append_left _ he)) ?_
    rw [h (s, a) (by simp)]
    exact hstep

/-- A run is cut at any of its entries into the run before it, its step and the run after. -/
theorem Run.split {e : σ × α} {tr₁ tr₂ : List (σ × α)}
    (hrun : Run step s₀ (tr₁ ++ e :: tr₂) s) :
    ∃ t, Run step s₀ tr₁ e.1 ∧ step e.1 e.2 = some t ∧ Run step t tr₂ s := by
  generalize htr : tr₁ ++ e :: tr₂ = tr at hrun
  induction hrun generalizing tr₂ with
  | nil => simp at htr
  | @snoc tr s a s' hrun hstep ih =>
    rcases List.eq_nil_or_concat tr₂ with rfl | ⟨tr₂, last, rfl⟩
    · obtain ⟨rfl, hlast⟩ := List.append_inj' htr rfl
      cases hlast
      exact ⟨s', hrun, hstep, .nil⟩
    · rw [List.concat_eq_append, ← List.cons_append, ← List.append_assoc] at htr
      obtain ⟨rfl, hlast⟩ := List.append_inj' htr rfl
      cases hlast
      obtain ⟨t, h₁, ht, h₂⟩ := ih rfl
      exact ⟨t, h₁, ht, by simpa using h₂.snoc hstep⟩

theorem Run.split_of_mem {e : σ × α} (hrun : Run step s₀ tr s) (he : e ∈ tr) :
    ∃ tr₁ tr₂ t, tr = tr₁ ++ e :: tr₂ ∧ Run step s₀ tr₁ e.1 ∧ step e.1 e.2 = some t ∧
      Run step t tr₂ s := by
  obtain ⟨tr₁, tr₂, rfl⟩ := List.append_of_mem he
  obtain ⟨t, h₁, ht, h₂⟩ := hrun.split
  exact ⟨tr₁, tr₂, t, rfl, h₁, ht, h₂⟩

theorem Run.eq_of_nil (hrun : Run step s₀ [] s) : s = s₀ := by
  generalize htr : ([] : List (σ × α)) = tr at hrun
  cases hrun with
  | nil => rfl
  | snoc => simp at htr

/-- The last step of a nonempty run. -/
theorem Run.last {e : σ × α} (hrun : Run step s₀ (tr ++ [e]) s) :
    Run step s₀ tr e.1 ∧ step e.1 e.2 = some s := by
  obtain ⟨t, h₁, ht, h₂⟩ := hrun.split
  rw [h₂.eq_of_nil]
  exact ⟨h₁, ht⟩

/-- A run is cut between any two of its steps. -/
theorem Run.cut {tr₁ tr₂ : List (σ × α)} (hrun : Run step s₀ (tr₁ ++ tr₂) s) :
    ∃ t, Run step s₀ tr₁ t ∧ Run step t tr₂ s := by
  cases tr₂ with
  | nil => exact ⟨s, by simpa using hrun, .nil⟩
  | cons e tr₂ =>
    obtain ⟨t, h₁, ht, h₂⟩ := hrun.split
    exact ⟨e.1, h₁, (Run.of_step ht).append h₂⟩

/-- A run starts in the state of its first entry. -/
theorem Run.head {e : σ × α} (hrun : Run step s₀ (e :: tr) s) : e.1 = s₀ := by
  have hrun' : Run step s₀ ([] ++ e :: tr) s := hrun
  obtain ⟨_, h₁, _, _⟩ := hrun'.split
  exact h₁.eq_of_nil

/-! ## Runs of one party -/

/-- A run by actions of one kind leads from `s` to `s'`. -/
def RunOf (step : σ → α → Option σ) (p : α → Prop) (s s' : σ) : Prop :=
  ∃ tr, Run step s tr s' ∧ ∀ e ∈ tr, p e.2

theorem RunOf.refl {p : α → Prop} : RunOf step p s s := ⟨[], .nil, by simp⟩

theorem RunOf.trans {p : α → Prop} {t : σ} (h : RunOf step p s t) (h' : RunOf step p t s') :
    RunOf step p s s' := by
  obtain ⟨tr, hrun, hall⟩ := h
  obtain ⟨tr', hrun', hall'⟩ := h'
  refine ⟨tr ++ tr', hrun.append hrun', ?_⟩
  intro e he
  rcases List.mem_append.mp he with he | he
  · exact hall e he
  · exact hall' e he

theorem RunOf.of_step {p : α → Prop} {a : α} (hstep : step s a = some s') (ha : p a) :
    RunOf step p s s' := by
  refine ⟨[(s, a)], Run.of_step hstep, ?_⟩
  intro e he
  rw [List.mem_singleton.mp he]
  exact ha

theorem RunOf.mono {p q : α → Prop} (hpq : ∀ a, p a → q a) (h : RunOf step p s s') :
    RunOf step q s s' := by
  obtain ⟨tr, hrun, hall⟩ := h
  exact ⟨tr, hrun, fun e he => hpq e.2 (hall e he)⟩

/-! ## Executing a list of actions -/

/-- The history and the final state of executing `as` from `s`, when each is enabled. -/
def exec (step : σ → α → Option σ) (s : σ) : List α → Option (List (σ × α) × σ)
  | [] => some ([], s)
  | a :: as => (step s a).bind fun t => (exec step t as).map fun r => ((s, a) :: r.1, r.2)

theorem run_of_exec {as : List α} (h : exec step s as = some (tr, s')) : Run step s tr s' := by
  induction as generalizing s tr with
  | nil =>
    cases h
    exact .nil
  | cons a as ih =>
    obtain ⟨t, ht, h⟩ := Option.bind_eq_some_iff.mp h
    obtain ⟨⟨tr', u⟩, hu, heq⟩ := Option.map_eq_some_iff.mp h
    cases heq
    exact (Run.of_step ht).append (ih hu)

/-- The history of an execution lists the executed actions. -/
theorem exec_actions {as : List α} (h : exec step s as = some (tr, s')) : tr.map Prod.snd = as := by
  induction as generalizing s tr with
  | nil =>
    cases h
    rfl
  | cons a as ih =>
    obtain ⟨t, _, h⟩ := Option.bind_eq_some_iff.mp h
    obtain ⟨⟨tr', u⟩, hu, heq⟩ := Option.map_eq_some_iff.mp h
    cases heq
    rw [List.map_cons, ih hu]

/-- What holds of the executed actions holds of every action of the history. -/
theorem forall_of_actions {as : List α} {p : α → Prop} (h : tr.map Prod.snd = as)
    (hp : ∀ a ∈ as, p a) : ∀ e ∈ tr, p e.2 := by
  intro e he
  exact hp e.2 (h ▸ List.mem_map_of_mem he)

/-- A run found by execution, with what is computed of its history and its final state. -/
theorem run_of_check (step : σ → α → Option σ) (s : σ) (as : List α)
    (check : List (σ × α) → σ → Bool) (h : (exec step s as).any (fun r => check r.1 r.2) = true) :
    ∃ tr s', Run step s tr s' ∧ tr.map Prod.snd = as ∧ check tr s' = true := by
  obtain ⟨⟨tr, s'⟩, hexec, hcheck⟩ := (Option.any_eq_true _ _).mp h
  exact ⟨tr, s', run_of_exec hexec, exec_actions hexec, hcheck⟩

end Transition
