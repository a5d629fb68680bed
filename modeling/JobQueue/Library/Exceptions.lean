import Mathlib.Data.List.Basic

/-!
# Evaluation of programs with state and exceptions

A program `x : EStateM ε σ α` run in a state returns a value or raises an exception, and in
both cases leaves a state: what was done before an exception stays done. The rules say how
the result of a program follows from the results of its parts. A computation without a state
is an `Except ε α`.
-/

namespace Except

variable {ε ε' α β : Type}

theorem map_eq_ok {x : Except ε α} {f : α → β} {b : β} :
    x.map f = .ok b ↔ ∃ a, x = .ok a ∧ f a = b := by
  cases x <;> simp [Except.map]

theorem mapError_eq_ok {x : Except ε α} {f : ε → ε'} {a : α} :
    x.mapError f = .ok a ↔ x = .ok a := by
  cases x <;> simp [Except.mapError]

end Except

namespace EStateM

variable {ε σ α β : Type} {x : EStateM ε σ α} {s s' : σ} {a : α} {e : ε}

theorem bind_of_ok (h : x s = .ok a s') (f : α → EStateM ε σ β) : (x >>= f) s = f a s' := by
  show EStateM.bind x f s = f a s'
  simp only [EStateM.bind, h]

theorem bind_of_error (h : x s = .error e s') (f : α → EStateM ε σ β) :
    (x >>= f) s = .error e s' := by
  show EStateM.bind x f s = .error e s'
  simp only [EStateM.bind, h]

theorem tryCatch_of_ok (h : x s = .ok a s') (f : ε → EStateM ε σ α) :
    tryCatch x f s = .ok a s' := by
  show EStateM.tryCatch x f s = .ok a s'
  simp only [EStateM.tryCatch, h]

theorem tryCatch_of_error (h : x s = .error e s') (f : ε → EStateM ε σ α) :
    tryCatch x f s = f e s' := by
  show EStateM.tryCatch x f s = f e s'
  simp only [EStateM.tryCatch, h]
  rfl

/-- A program with a cleanup returns if both do. -/
theorem tryFinally_of_ok {y : EStateM ε σ β} {b : β} {s'' : σ} (h : x s = .ok a s')
    (hy : y s' = .ok b s'') : tryFinally x y s = .ok a s'' := by
  simp only [tryFinally, tryFinally', Functor.map, EStateM.map, h, hy]

/-- An exception of the program is raised again after the cleanup, unless the cleanup raises
one of its own. -/
theorem tryFinally_of_error {y : EStateM ε σ β} (h : x s = .error e s') :
    ∃ e' s'', tryFinally x y s = .error e' s'' ∧
      ((∃ b, y s' = .ok b s'') ∨ ∃ e₁, y s' = .error e₁ s'') := by
  simp only [tryFinally, tryFinally', Functor.map, EStateM.map, h]
  cases hy : y s' with
  | ok b s'' => exact ⟨e, s'', rfl, Or.inl ⟨b, rfl⟩⟩
  | error e' s'' => exact ⟨e', s'', rfl, Or.inr ⟨e', rfl⟩⟩

/-! ## What a result tells of the parts -/

theorem of_bind_ok {f : α → EStateM ε σ β} {b : β} {s'' : σ} (h : (x >>= f) s = .ok b s'') :
    ∃ a s', x s = .ok a s' ∧ f a s' = .ok b s'' := by
  cases hx : x s with
  | ok a s' =>
    rw [bind_of_ok hx] at h
    exact ⟨a, s', rfl, h⟩
  | error e s' =>
    rw [bind_of_error hx] at h
    cases h

theorem of_bind_error {f : α → EStateM ε σ β} {s'' : σ} (h : (x >>= f) s = .error e s'') :
    x s = .error e s'' ∨ ∃ a s', x s = .ok a s' ∧ f a s' = .error e s'' := by
  cases hx : x s with
  | ok a s' =>
    rw [bind_of_ok hx] at h
    exact Or.inr ⟨a, s', rfl, h⟩
  | error e' s' =>
    rw [bind_of_error hx] at h
    cases h
    exact Or.inl rfl

theorem of_tryCatch_ok {f : ε → EStateM ε σ α} {s'' : σ} (h : tryCatch x f s = .ok a s'') :
    x s = .ok a s'' ∨ ∃ e s', x s = .error e s' ∧ f e s' = .ok a s'' := by
  cases hx : x s with
  | ok a' s' =>
    rw [tryCatch_of_ok hx] at h
    exact Or.inl h
  | error e s' =>
    rw [tryCatch_of_error hx] at h
    exact Or.inr ⟨e, s', rfl, h⟩

theorem of_tryFinally_ok {y : EStateM ε σ β} {s'' : σ} (h : tryFinally x y s = .ok a s'') :
    ∃ b s', x s = .ok a s' ∧ y s' = .ok b s'' := by
  cases hx : x s with
  | error e s' =>
    obtain ⟨e', s₁, herror, _⟩ := tryFinally_of_error (y := y) hx
    rw [herror] at h
    cases h
  | ok a' s' =>
    cases hy : y s' with
    | ok b s₁ =>
      rw [tryFinally_of_ok hx hy] at h
      cases h
      exact ⟨b, s', rfl, hy⟩
    | error e s₁ =>
      simp only [tryFinally, tryFinally', Functor.map, EStateM.map, hx, hy] at h
      cases h

theorem of_tryCatch_error {f : ε → EStateM ε σ α} {s'' : σ} (h : tryCatch x f s = .error e s'') :
    ∃ e₁ s', x s = .error e₁ s' ∧ f e₁ s' = .error e s'' := by
  cases hx : x s with
  | ok a' s' =>
    rw [tryCatch_of_ok hx] at h
    cases h
  | error e₁ s' =>
    rw [tryCatch_of_error hx] at h
    exact ⟨e₁, s', rfl, h⟩

/-- An exception comes from the program and passes the cleanup, or from the cleanup. -/
theorem of_tryFinally_error {y : EStateM ε σ β} {s'' : σ} (h : tryFinally x y s = .error e s'') :
    ∃ s', ((∃ e₁, x s = .error e₁ s') ∨ ∃ a, x s = .ok a s') ∧
      ((∃ b, y s' = .ok b s'') ∨ ∃ e₁, y s' = .error e₁ s'') := by
  simp only [tryFinally, tryFinally', Functor.map, EStateM.map] at h
  cases hx : x s with
  | ok a s' =>
    refine ⟨s', Or.inr ⟨a, rfl⟩, ?_⟩
    cases hy : y s' with
    | ok b s₁ =>
      simp only [hx, hy] at h
      cases h
    | error e₁ s₁ =>
      simp only [hx, hy] at h
      cases h
      exact Or.inr ⟨e, rfl⟩
  | error e₁ s' =>
    refine ⟨s', Or.inl ⟨e₁, rfl⟩, ?_⟩
    cases hy : y s' with
    | ok b s₁ =>
      simp only [hx, hy] at h
      cases h
      exact Or.inl ⟨b, rfl⟩
    | error e₂ s₁ =>
      simp only [hx, hy] at h
      cases h
      exact Or.inr ⟨e, rfl⟩

/-! ## Loops -/

/-- A loop keeps what each of its turns keeps. -/
theorem forM_of_ok {I : σ → Prop} {f : β → EStateM ε σ PUnit}
    (h : ∀ b s, I s → ∃ s', f b s = .ok ⟨⟩ s' ∧ I s') (bs : List β) (hs : I s) :
    ∃ s', (forM bs f : EStateM ε σ PUnit) s = .ok ⟨⟩ s' ∧ I s' := by
  induction bs generalizing s with
  | nil => exact ⟨s, rfl, hs⟩
  | cons b bs ih =>
    obtain ⟨s₁, hb, h₁⟩ := h b s hs
    obtain ⟨s₂, hbs, h₂⟩ := ih h₁
    refine ⟨s₂, ?_, h₂⟩
    rw [List.forM_cons, bind_of_ok hb]
    exact hbs

/-- A loop that returns has kept what each of its turns that returns keeps. -/
theorem of_forM_ok {I : σ → Prop} {f : β → EStateM ε σ PUnit}
    (h : ∀ b s s', I s → f b s = .ok ⟨⟩ s' → I s') {bs : List β}
    (hbs : (forM bs f : EStateM ε σ PUnit) s = .ok ⟨⟩ s') (hs : I s) : I s' := by
  induction bs generalizing s with
  | nil =>
    cases hbs
    exact hs
  | cons b bs ih =>
    rw [List.forM_cons] at hbs
    obtain ⟨_, s₁, hb, hrest⟩ := of_bind_ok hbs
    exact ih hrest (h b s s₁ hs hb)

/-- A loop that raises has kept, up to the turn that raises, what each turn that returns
keeps. -/
theorem of_forM_error {I : σ → Prop} {f : β → EStateM ε σ PUnit}
    (h : ∀ b s s', I s → f b s = .ok ⟨⟩ s' → I s') {bs : List β}
    (hbs : (forM bs f : EStateM ε σ PUnit) s = .error e s') (hs : I s) :
    ∃ b s₁, I s₁ ∧ f b s₁ = .error e s' := by
  induction bs generalizing s with
  | nil => cases hbs
  | cons b bs ih =>
    rw [List.forM_cons] at hbs
    rcases of_bind_error hbs with hb | ⟨_, s₁, hb, hrest⟩
    · exact ⟨b, s, hs, hb⟩
    · exact ih hrest (h b s s₁ hs hb)

/-! ## What exceptions leave -/

/-- Every exception of the program leaves a state with `P`. -/
def Raises (P : σ → Prop) (x : EStateM ε σ α) : Prop := ∀ s e s', x s = .error e s' → P s'

theorem Raises.bind {P : σ → Prop} {f : α → EStateM ε σ β} (hx : Raises P x)
    (hf : ∀ a, Raises P (f a)) : Raises P (x >>= f) := by
  intro s e s' h
  rcases of_bind_error h with hfirst | ⟨a, s₁, _, hrest⟩
  · exact hx s e s' hfirst
  · exact hf a s₁ e s' hrest

theorem raises_modify {P : σ → Prop} (f : σ → σ) :
    Raises P (modify f : EStateM ε σ PUnit) := by
  intro s e s' h
  cases h

theorem raises_forM {P : σ → Prop} {f : β → EStateM ε σ PUnit} (h : ∀ b, Raises P (f b))
    (bs : List β) : Raises P (forM bs f : EStateM ε σ PUnit) := by
  induction bs with
  | nil =>
    intro s e s' h
    cases h
  | cons b bs ih =>
    rw [List.forM_cons]
    exact (h b).bind fun _ => ih

/-! ## What a program leaves alone

`view` is the part of the state that the program may change only where it returns, or not at
all. -/

section

variable {γ : Type} {view : σ → γ} {f : α → EStateM ε σ β}

/-- The program changes nothing of the view. -/
def Spares (view : σ → γ) (x : EStateM ε σ α) : Prop :=
  ∀ s, (∀ a s', x s = .ok a s' → view s' = view s) ∧ ∀ e s', x s = .error e s' → view s' = view s

/-- The program changes nothing of the view if it raises. -/
def Atomic (view : σ → γ) (x : EStateM ε σ α) : Prop :=
  ∀ s e s', x s = .error e s' → view s' = view s

theorem Spares.atomic (h : Spares view x) : Atomic view x := fun s => (h s).2

theorem Spares.bind (hx : Spares view x) (hf : ∀ a, Spares view (f a)) :
    Spares view (x >>= f) := by
  intro s
  refine ⟨?_, ?_⟩
  · intro b s'' h
    obtain ⟨a, s', hfirst, hrest⟩ := of_bind_ok h
    rw [(hf a s').1 b s'' hrest, (hx s).1 a s' hfirst]
  · intro e s'' h
    rcases of_bind_error h with hfirst | ⟨a, s', hfirst, hrest⟩
    · exact (hx s).2 e s'' hfirst
    · rw [(hf a s').2 e s'' hrest, (hx s).1 a s' hfirst]

/-- A program is atomic if what comes before its one change spares the view. -/
theorem Atomic.of_spares_bind (hx : Spares view x) (hf : ∀ a, Atomic view (f a)) :
    Atomic view (x >>= f) := by
  intro s e s'' h
  rcases of_bind_error h with hfirst | ⟨a, s', hfirst, hrest⟩
  · exact (hx s).2 e s'' hfirst
  · rw [hf a s' e s'' hrest, (hx s).1 a s' hfirst]

/-- A program is atomic if nothing raises after its one change. -/
theorem Atomic.bind_of_returns (hx : Atomic view x)
    (hf : ∀ s a s', x s = .ok a s' → ∀ e s'', f a s' ≠ .error e s'') : Atomic view (x >>= f) := by
  intro s e s'' h
  rcases of_bind_error h with hfirst | ⟨a, s', hfirst, hrest⟩
  · exact hx s e s'' hfirst
  · exact absurd hrest (hf s a s' hfirst e s'')

theorem spares_pure (a : α) : Spares view (pure a : EStateM ε σ α) := by
  intro s
  refine ⟨?_, ?_⟩
  · intro a' s' h
    cases h
    rfl
  · intro e s' h
    cases h

theorem spares_throw (e : ε) : Spares view (throw e : EStateM ε σ α) := by
  intro s
  refine ⟨?_, ?_⟩
  · intro a s' h
    cases h
  · intro e' s' h
    cases h
    rfl

theorem spares_modify {g : σ → σ} (h : ∀ s, view (g s) = view s) :
    Spares view (modify g : EStateM ε σ PUnit) := by
  intro s
  refine ⟨?_, ?_⟩
  · intro a s' hmodify
    cases hmodify
    exact h s
  · intro e s' hmodify
    cases hmodify

end

end EStateM
