import Mathlib.Data.List.Basic

/-!
# A capped list of recent entries

A list is kept by two commands: an entry is pushed to the front, and what lies beyond the
cap is cut off; or all occurrences of an entry are removed. What the list holds after a
sequence of commands is told from the sequence: an entry is present if the last command on
it was a push. As long as the commands on each entry take turns, a push and then a removal
(`InOrder`), the list holds no entry twice and only present ones, and a present entry is
missing only if enough other pushes came after its own.
-/

namespace CappedList

variable {α : Type} [DecidableEq α] {a b : α} {cap : ℕ}

inductive Command (α : Type)
  | push (a : α)
  | remove (a : α)

/-- `LPUSH` and `LTRIM`, or `LREM` of every occurrence. -/
def apply (cap : ℕ) (l : List α) : Command α → List α
  | .push a => (a :: l).take cap
  | .remove a => l.filter (· ≠ a)

def run (cap : ℕ) (cmds : List (Command α)) : List α := cmds.foldl (apply cap) []

/-- The last command on `a` is a push. -/
def present (a : α) (cmds : List (Command α)) : Bool :=
  cmds.foldl (fun held c =>
    match c with
    | .push b => if b = a then true else held
    | .remove b => if b = a then false else held) false

/-- The number of pushes after the last one of `a`. -/
def later (a : α) (cmds : List (Command α)) : ℕ :=
  cmds.foldl (fun n c =>
    match c with
    | .push b => if b = a then 0 else n + 1
    | .remove _ => n) 0

/-- The commands on each entry take turns, beginning with a push. -/
inductive InOrder : List (Command α) → Prop
  | nil : InOrder []
  | push {cmds a} (h : InOrder cmds) (habsent : present a cmds = false) :
      InOrder (cmds ++ [.push a])
  | remove {cmds a} (h : InOrder cmds) (hpresent : present a cmds = true) :
      InOrder (cmds ++ [.remove a])

variable {cmds : List (Command α)}

/-! ## One more command -/

@[simp] theorem run_nil : run cap ([] : List (Command α)) = [] := rfl

@[simp] theorem run_snoc (c : Command α) : run cap (cmds ++ [c]) = apply cap (run cap cmds) c := by
  simp [run]

@[simp] theorem present_push :
    present a (cmds ++ [.push b]) = if b = a then true else present a cmds := by
  simp [present]

@[simp] theorem present_remove :
    present a (cmds ++ [.remove b]) = if b = a then false else present a cmds := by
  simp [present]

@[simp] theorem later_push :
    later a (cmds ++ [.push b]) = if b = a then 0 else later a cmds + 1 := by
  simp [later]

@[simp] theorem later_remove : later a (cmds ++ [.remove b]) = later a cmds := by
  simp [later]

/-! ## What the list holds -/

theorem length_run_le (cap : ℕ) (h : InOrder cmds) : (run cap cmds).length ≤ cap := by
  induction h with
  | nil => exact Nat.zero_le cap
  | push =>
    rw [run_snoc]
    exact List.length_take_le _ _
  | remove _ _ ih =>
    rw [run_snoc]
    exact Nat.le_trans (List.length_filter_le _ _) ih

theorem present_of_mem (h : InOrder cmds) (hmem : a ∈ run cap cmds) : present a cmds = true := by
  induction h with
  | nil => simp at hmem
  | @push cmds b _ _ ih =>
    rw [present_push]
    split
    · rfl
    · rename_i hne
      have htaken := List.mem_of_mem_take (by simpa [apply] using hmem)
      rcases List.mem_cons.mp htaken with heq | hold
      · exact absurd heq.symm hne
      · exact ih hold
  | @remove cmds b _ _ ih =>
    simp only [run_snoc, apply, List.mem_filter, decide_eq_true_eq] at hmem
    rw [present_remove, if_neg (Ne.symm hmem.2)]
    exact ih hmem.1

theorem nodup_run (cap : ℕ) (h : InOrder cmds) : (run cap cmds).Nodup := by
  induction h with
  | nil => exact List.nodup_nil
  | @push cmds b hcmds habsent ih =>
    have hnot : b ∉ run cap cmds := by
      intro hmem
      rw [present_of_mem hcmds hmem] at habsent
      cases habsent
    rw [run_snoc]
    exact (List.nodup_cons.mpr ⟨hnot, ih⟩).sublist (List.take_sublist _ _)
  | remove _ _ ih =>
    rw [run_snoc]
    exact ih.filter _

/-- A present entry has been pushed back no further than the later pushes can. -/
theorem position_of_present (cap : ℕ) (h : InOrder cmds) (hpresent : present a cmds = true) :
    (∃ front back, run cap cmds = front ++ a :: back ∧ front.length ≤ later a cmds) ∨
      cap ≤ later a cmds := by
  induction h with
  | nil => cases hpresent
  | @push cmds b _ _ ih =>
    rw [run_snoc, apply, later_push]
    by_cases hb : b = a
    · subst hb
      rw [if_pos rfl]
      cases cap with
      | zero => exact Or.inr (Nat.zero_le _)
      | succ cap => exact Or.inl ⟨[], (run (cap + 1) cmds).take cap, by simp, Nat.le_refl _⟩
    · rw [present_push, if_neg hb] at hpresent
      rw [if_neg hb]
      rcases ih hpresent with ⟨front, back, hrun, hfront⟩ | hcap
      · by_cases hcut : front.length + 1 < cap
        · left
          refine ⟨b :: front, back.take (cap - (front.length + 2)), ?_, by simpa using hfront⟩
          rw [hrun, ← List.cons_append, List.take_append, List.take_of_length_le
            (by simp; omega), List.length_cons, List.take_cons (by omega)]
          congr 3
        · right
          omega
      · right
        omega
  | @remove cmds b _ _ ih =>
    have hb : b ≠ a := by
      rintro rfl
      simp at hpresent
    rw [present_remove, if_neg hb] at hpresent
    rw [run_snoc, apply, later_remove]
    rcases ih hpresent with ⟨front, back, hrun, hfront⟩ | hcap
    · left
      refine ⟨front.filter (· ≠ b), back.filter (· ≠ b), ?_, ?_⟩
      · rw [hrun, List.filter_append, List.filter_cons_of_pos (by simpa using Ne.symm hb)]
      · exact Nat.le_trans (List.length_filter_le _ _) hfront
    · exact Or.inr hcap

theorem mem_of_present (cap : ℕ) (h : InOrder cmds) (hpresent : present a cmds = true) :
    a ∈ run cap cmds ∨ cap ≤ later a cmds := by
  rcases position_of_present cap h hpresent with ⟨front, back, hrun, _⟩ | hcap
  · left
    simp [hrun]
  · exact Or.inr hcap

/-! ## Counting the commands on an entry -/

def isPush (a : α) : Command α → Bool
  | .push b => b = a
  | .remove _ => false

def isRemove (a : α) : Command α → Bool
  | .push _ => false
  | .remove b => b = a

/-- Of commands that take turns, there is one push more than removals while the entry is
present. -/
theorem countP_push (a : α) (h : InOrder cmds) :
    cmds.countP (isPush a) = cmds.countP (isRemove a) + if present a cmds then 1 else 0 := by
  induction h with
  | nil => rfl
  | @push cmds b _ habsent ih =>
    rw [List.countP_append, List.countP_append, List.countP_singleton, List.countP_singleton,
      present_push, ih]
    by_cases hb : b = a
    · subst hb
      simp [isPush, isRemove, habsent]
    · simp [isPush, isRemove, hb]
  | @remove cmds b _ hpresent ih =>
    rw [List.countP_append, List.countP_append, List.countP_singleton, List.countP_singleton,
      present_remove, ih]
    by_cases hb : b = a
    · subst hb
      simp [isPush, isRemove, hpresent]
    · simp [isPush, isRemove, hb]

end CappedList
