import JobQueue.Library.Transition

/-!
# Systems that keep a journal

Some steps of a system write entries into a journal, which nothing reads and nothing takes
back. The journal after a run is then a function of the history of the run, so an invariant
of state and journal is proved over the runs of the system itself.

A reader of the journal looks for the latest entry that tells him something.
-/

namespace Journal

open Transition

variable {σ α ε β : Type} {step : σ → α → Option σ} {emit : σ → α → List ε}
  {s₀ s : σ} {a : α} {tr : List (σ × α)}

/-! ## The journal of a history -/

/-- What the steps of a history have written, in their order. -/
def journal (emit : σ → α → List ε) (tr : List (σ × α)) : List ε :=
  tr.flatMap fun e => emit e.1 e.2

@[simp] theorem journal_nil (emit : σ → α → List ε) : journal emit [] = [] := rfl

theorem journal_snoc : journal emit (tr ++ [(s, a)]) = journal emit tr ++ emit s a := by
  unfold journal
  rw [List.flatMap_append, List.flatMap_cons, List.flatMap_nil, List.append_nil]

/-! ## The journal as a part of the state -/

def journaled (step : σ → α → Option σ) (emit : σ → α → List ε) (x : σ × List ε) (a : α) :
    Option (σ × List ε) :=
  (step x.1 a).map fun s => (s, x.2 ++ emit x.1 a)

/-- The entry of a history without the journal. -/
def bare (e : (σ × List ε) × α) : σ × α := (e.1.1, e.2)

/-- A run with a journal is a run of the system, and the journal is that of its history. -/
theorem run_of_journaled {x x' : σ × List ε} {tr : List ((σ × List ε) × α)}
    (hrun : Run (journaled step emit) x tr x') :
    Run step x.1 (tr.map bare) x'.1 ∧ x'.2 = x.2 ++ journal emit (tr.map bare) := by
  induction hrun with
  | nil => exact ⟨.nil, by simp⟩
  | @snoc tr y a y' _ hstep ih =>
    obtain ⟨hbase, hlog⟩ := ih
    obtain ⟨s, hs, rfl⟩ := Option.map_eq_some_iff.mp hstep
    rw [List.map_append]
    refine ⟨hbase.snoc hs, ?_⟩
    have hlast : [(y, a)].map bare = [((y.1, a) : σ × α)] := rfl
    rw [hlast, journal_snoc, ← List.append_assoc, ← hlog]

/-! ## Reading a journal -/

/-- What the last entry says that `read` finds something in. -/
def latest (read : ε → Option β) (l : List ε) : Option β := (l.filterMap read).getLast?

@[simp] theorem latest_nil (read : ε → Option β) : latest read [] = none := rfl

theorem latest_append (read : ε → Option β) (l l' : List ε) :
    latest read (l ++ l') = (latest read l').or (latest read l) := by
  unfold latest
  rw [List.filterMap_append, List.getLast?_append]

theorem latest_eq_none {read : ε → Option β} {l : List ε} (h : ∀ e ∈ l, read e = none) :
    latest read l = none := by
  rw [latest, List.filterMap_eq_nil_iff.mpr h]
  rfl

theorem latest_of_none {read : ε → Option β} {l' : List ε} (h : ∀ e ∈ l', read e = none)
    (l : List ε) : latest read (l ++ l') = latest read l := by
  rw [latest_append, latest_eq_none h]
  rfl

theorem latest_concat {read : ε → Option β} {e : ε} {b : β} (h : read e = some b)
    (l : List ε) : latest read (l ++ [e]) = some b := by
  rw [latest_append, latest, List.filterMap_cons_some h]
  rfl

end Journal
