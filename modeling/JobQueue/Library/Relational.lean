import Mathlib.Data.List.AList
import Mathlib.Data.List.Sort
import Mathlib.Data.Set.Finite.Lattice

/-!
# Tables with a primary key

A table is a finite map from primary keys to rows. The statements below are the ones a
client sends: a conditional `UPDATE` of one row that re-evaluates its `WHERE` clause on the
row as it stands and returns the new row, an `UPDATE` of every matching row, and a
`SELECT` with an `ORDER BY`. A `SELECT` is answered in any order its `ORDER BY` allows, so
an answer is a relation (`Sorts`) and not a function.
-/

namespace Relational

abbrev Table (κ ρ : Type) := AList (fun _ : κ => ρ)

namespace Table

variable {κ ρ : Type} [DecidableEq κ] {t : Table κ ρ} {k j : κ} {r r' : ρ}
  {guard p : ρ → Bool} {set : ρ → ρ}

/-! ## Conditional update of one row -/

/-- `UPDATE … SET set WHERE key = k AND guard RETURNING *`. -/
def updateWhere (t : Table κ ρ) (k : κ) (guard : ρ → Bool) (set : ρ → ρ) :
    Table κ ρ × Option ρ :=
  match t.lookup k with
  | some r => if guard r then (t.insert k (set r), some (set r)) else (t, none)
  | none => (t, none)

theorem updateWhere_of_lookup (h : t.lookup k = some r) (hg : guard r = true) :
    t.updateWhere k guard set = (t.insert k (set r), some (set r)) := by
  simp [updateWhere, h, hg]

theorem updateWhere_of_not (h : t.lookup k = some r) (hg : guard r = false) :
    t.updateWhere k guard set = (t, none) := by
  simp [updateWhere, h, hg]

theorem updateWhere_of_none (h : t.lookup k = none) :
    t.updateWhere k guard set = (t, none) := by
  simp [updateWhere, h]

/-- The two outcomes of the statement, with all that each says. -/
theorem updateWhere_cases (t : Table κ ρ) (k : κ) (guard : ρ → Bool) (set : ρ → ρ) :
    (∃ r, t.lookup k = some r ∧ guard r = true ∧
      t.updateWhere k guard set = (t.insert k (set r), some (set r))) ∨
    ((∀ r, t.lookup k = some r → guard r = false) ∧ t.updateWhere k guard set = (t, none)) := by
  cases h : t.lookup k with
  | none => exact Or.inr ⟨by simp, updateWhere_of_none h⟩
  | some r =>
    cases hg : guard r with
    | true => exact Or.inl ⟨r, rfl, hg, updateWhere_of_lookup h hg⟩
    | false =>
      refine Or.inr ⟨?_, updateWhere_of_not h hg⟩
      rintro _ ⟨⟩
      exact hg

theorem updateWhere_of_returning_none (h : (t.updateWhere k guard set).2 = none) :
    (t.updateWhere k guard set).1 = t := by
  rcases updateWhere_cases t k guard set with ⟨r, _, _, heq⟩ | ⟨_, heq⟩
  · rw [heq] at h
    cases h
  · rw [heq]

theorem lookup_updateWhere_ne (h : j ≠ k) :
    (t.updateWhere k guard set).1.lookup j = t.lookup j := by
  rcases updateWhere_cases t k guard set with ⟨_, _, _, heq⟩ | ⟨_, heq⟩
  · rw [heq, AList.lookup_insert_ne h]
  · rw [heq]

theorem lookup_updateWhere (t : Table κ ρ) (k j : κ) (guard : ρ → Bool) (set : ρ → ρ) :
    (t.updateWhere k guard set).1.lookup j =
      if j = k then (t.lookup k).map (fun r => if guard r then set r else r) else t.lookup j := by
  by_cases hj : j = k
  · subst hj
    rw [if_pos rfl]
    rcases updateWhere_cases t j guard set with ⟨r, hr, hg, heq⟩ | ⟨hno, heq⟩
    · rw [heq, AList.lookup_insert, hr]
      simp [hg]
    · rw [heq]
      cases hr : t.lookup j with
      | none => rfl
      | some r => simp [hno r hr]
  · rw [if_neg hj, lookup_updateWhere_ne hj]

/-- A statement that changes a row finds it by its key and its guard. -/
theorem updateWhere_changed (h : t.lookup j = some r)
    (h' : (t.updateWhere k guard set).1.lookup j = some r') :
    r' = r ∨ (j = k ∧ guard r = true ∧ r' = set r) := by
  rw [lookup_updateWhere] at h'
  split at h'
  · rename_i hj
    subst hj
    rw [h] at h'
    cases hg : guard r with
    | true => exact Or.inr ⟨rfl, rfl, by simpa [hg] using h'.symm⟩
    | false => exact Or.inl (by simpa [hg] using h'.symm)
  · rw [h] at h'
    exact Or.inl (by simpa using h'.symm)

theorem lookup_updateWhere_none_iff :
    (t.updateWhere k guard set).1.lookup j = none ↔ t.lookup j = none := by
  rw [lookup_updateWhere]
  split
  · rename_i hj
    subst hj
    simp
  · rfl

/-- The statement sees the rows of a table only. -/
theorem updateWhere_congr {t' : Table κ ρ} (h : ∀ j, t.lookup j = t'.lookup j) :
    (t.updateWhere k guard set).2 = (t'.updateWhere k guard set).2 ∧
      ∀ j, (t.updateWhere k guard set).1.lookup j = (t'.updateWhere k guard set).1.lookup j := by
  constructor
  · unfold updateWhere
    rw [h k]
    cases t'.lookup k with
    | none => rfl
    | some r => cases hg : guard r <;> simp [hg]
  · intro j
    rw [lookup_updateWhere, lookup_updateWhere, h k, h j]

/-! ## Conditional updates one after the other -/

/-- The conditional `UPDATE` of each key of a list in turn. -/
def updateEach (t : Table κ ρ) (ks : List κ) (guard : ρ → Bool) (set : ρ → ρ) : Table κ ρ :=
  ks.foldl (fun t k => (t.updateWhere k guard set).1) t

/-- Where `set` leaves the `WHERE` clause, each listed row that satisfies it is updated once
and no other row is. -/
theorem lookup_updateEach (hset : ∀ r, guard r = true → guard (set r) = false)
    (t : Table κ ρ) (ks : List κ) (j : κ) :
    (t.updateEach ks guard set).lookup j =
      if j ∈ ks then (t.lookup j).map (fun r => if guard r then set r else r)
      else t.lookup j := by
  induction ks generalizing t with
  | nil => simp [updateEach]
  | cons k ks ih =>
    have hstep : t.updateEach (k :: ks) guard set =
        (t.updateWhere k guard set).1.updateEach ks guard set := rfl
    rw [hstep, ih, lookup_updateWhere]
    by_cases hj : j = k
    · subst hj
      have htwice : ∀ r, (if guard (if guard r then set r else r) then
          set (if guard r then set r else r) else if guard r then set r else r) =
          if guard r then set r else r := by
        intro r
        cases hg : guard r with
        | true => simp [hset r hg]
        | false => simp [hg]
      simp only [if_true, List.mem_cons, true_or, Option.map_map, Function.comp_def, htwice]
      split <;> rfl
    · simp [hj]

/-! ## Update of every matching row -/

/-- `UPDATE … SET set WHERE guard`. -/
def updateAll (t : Table κ ρ) (guard : ρ → Bool) (set : ρ → ρ) : Table κ ρ where
  entries := t.entries.map fun e => ⟨e.1, if guard e.2 then set e.2 else e.2⟩
  nodupKeys := by
    have hkeys : (t.entries.map fun e =>
        (⟨e.1, if guard e.2 then set e.2 else e.2⟩ : Sigma fun _ : κ => ρ)).keys =
        t.entries.keys := by
      simp [List.keys, Function.comp_def]
    rw [List.NodupKeys, hkeys]
    exact t.keys_nodup

theorem lookup_updateAll (t : Table κ ρ) (guard : ρ → Bool) (set : ρ → ρ) (j : κ) :
    (t.updateAll guard set).lookup j =
      (t.lookup j).map fun r => if guard r then set r else r := by
  cases h : t.lookup j with
  | none =>
    rw [AList.lookup_eq_none, AList.mem_keys] at h
    simp only [Option.map_none]
    rw [AList.lookup_eq_none, AList.mem_keys]
    simpa [updateAll, AList.keys, List.keys, Function.comp_def] using h
  | some r =>
    have hmem : (⟨j, r⟩ : Sigma fun _ : κ => ρ) ∈ t.entries := AList.mem_lookup_iff.mp h
    exact AList.mem_lookup_iff.mpr (List.mem_map.mpr ⟨⟨j, r⟩, hmem, rfl⟩)

/-! ## Select -/

/-- The keys of the rows a `WHERE` clause selects, in the order they are stored. -/
def matching (t : Table κ ρ) (p : ρ → Bool) : List κ :=
  (t.entries.filter fun e => p e.2).map Sigma.fst

theorem mem_matching : k ∈ t.matching p ↔ ∃ r, t.lookup k = some r ∧ p r = true := by
  simp only [matching, List.mem_map, List.mem_filter]
  constructor
  · rintro ⟨⟨k, r⟩, ⟨hmem, hp⟩, rfl⟩
    exact ⟨r, AList.mem_lookup_iff.mpr hmem, hp⟩
  · rintro ⟨r, hr, hp⟩
    exact ⟨⟨k, r⟩, ⟨AList.mem_lookup_iff.mp hr, hp⟩, rfl⟩

omit [DecidableEq κ] in
theorem nodup_matching (t : Table κ ρ) (p : ρ → Bool) : (t.matching p).Nodup :=
  (List.Sublist.map _ List.filter_sublist).nodup t.keys_nodup

/-- `le` on the rows stored under two keys; an absent row compares with nothing. -/
def compareAt (t : Table κ ρ) (le : ρ → ρ → Bool) (a b : κ) : Bool :=
  match t.lookup a, t.lookup b with
  | some r, some r' => le r r'
  | _, _ => false

/-- `order` is one answer to `SELECT key … WHERE p ORDER BY le` before any `LIMIT`: the
selected keys, each once, in some order that `le` allows. -/
def Sorts (t : Table κ ρ) (p : ρ → Bool) (le : ρ → ρ → Bool) (order : List κ) : Prop :=
  order.Perm (t.matching p) ∧ order.Pairwise fun a b => t.compareAt le a b = true

instance (t : Table κ ρ) (p : ρ → Bool) (le : ρ → ρ → Bool) (order : List κ) :
    Decidable (t.Sorts p le order) :=
  inferInstanceAs (Decidable (_ ∧ _))

theorem Sorts.mem_iff {le : ρ → ρ → Bool} {order : List κ} (h : t.Sorts p le order) :
    k ∈ order ↔ ∃ r, t.lookup k = some r ∧ p r = true :=
  h.1.mem_iff.trans mem_matching

theorem Sorts.nodup {le : ρ → ρ → Bool} {order : List κ} (h : t.Sorts p le order) :
    order.Nodup :=
  h.1.nodup_iff.mpr (nodup_matching t p)

theorem Sorts.length {le : ρ → ρ → Bool} {order : List κ} (h : t.Sorts p le order) :
    order.length = (t.matching p).length :=
  h.1.length_eq

theorem Sorts.mono {le le' : ρ → ρ → Bool} {order : List κ} (h : t.Sorts p le order)
    (hle : ∀ a b, le a b = true → le' a b = true) : t.Sorts p le' order := by
  refine ⟨h.1, h.2.imp ?_⟩
  intro a b hab
  unfold compareAt at hab ⊢
  split at hab
  · exact hle _ _ hab
  · cases hab

/-- A `SELECT` over a total preorder has an answer. -/
theorem exists_sorts (t : Table κ ρ) (p : ρ → Bool) {le : ρ → ρ → Bool}
    (htot : ∀ a b, le a b = true ∨ le b a = true)
    (htrans : ∀ a b c, le a b = true → le b c = true → le a c = true) :
    ∃ order, t.Sorts p le order := by
  let rows := (t.entries.filter fun e => p e.2).insertionSort fun a b => le a.2 b.2 = true
  have hperm : rows.Perm (t.entries.filter fun e => p e.2) := List.perm_insertionSort _ _
  have hrows : ∀ e ∈ rows, t.lookup e.1 = some e.2 := fun e he =>
    AList.mem_lookup_iff.mpr (List.mem_of_mem_filter (hperm.mem_iff.mp he))
  have : Std.Total fun a b : Sigma fun _ : κ => ρ => le a.2 b.2 = true := ⟨fun a b => htot _ _⟩
  have : IsTrans (Sigma fun _ : κ => ρ) fun a b => le a.2 b.2 = true :=
    ⟨fun _ _ _ => htrans _ _ _⟩
  refine ⟨rows.map Sigma.fst, hperm.map _, ?_⟩
  rw [List.pairwise_map]
  refine (List.pairwise_insertionSort _ _).imp_of_mem ?_
  intro a b ha hb hab
  simp only [compareAt, hrows a ha, hrows b hb]
  exact hab

/-- So has one that sorts by a column. -/
theorem exists_sorts_by {β : Type} [LinearOrder β] (t : Table κ ρ) (p : ρ → Bool) (column : ρ → β) :
    ∃ order, t.Sorts p (fun r r' => column r ≤ column r') order := by
  refine exists_sorts t p ?_ ?_
  · intro a b
    simpa using le_total (column a) (column b)
  · intro a b c hab hbc
    simp only [decide_eq_true_eq] at hab hbc ⊢
    exact hab.trans hbc

/-- The values of a column that may be null are bounded. -/
theorem exists_le_column {β : Type} [LinearOrder β] [Nonempty β] (t : Table κ ρ)
    (column : ρ → Option β) :
    ∃ b, ∀ k r v, t.lookup k = some r → column r = some v → v ≤ b := by
  obtain ⟨b, hb⟩ := (List.finite_toSet (t.entries.filterMap fun e => column e.2)).bddAbove
  refine ⟨b, ?_⟩
  intro k r v hr hv
  apply hb
  show v ∈ t.entries.filterMap fun e => column e.2
  exact List.mem_filterMap.mpr ⟨⟨k, r⟩, AList.mem_lookup_iff.mp hr, hv⟩

/-! ## Select of whole rows -/

/-- The rows a `WHERE` clause selects, with their keys, in the order they are stored. -/
def rows (t : Table κ ρ) (p : ρ → Bool) : List (κ × ρ) :=
  (t.entries.filter fun e => p e.2).map fun e => (e.1, e.2)

/-- `selected` is one answer to `SELECT * … WHERE p ORDER BY le` before any `LIMIT`. -/
def Selects (t : Table κ ρ) (p : ρ → Bool) (le : ρ → ρ → Bool) (selected : List (κ × ρ)) :
    Prop :=
  selected.Perm (t.rows p) ∧ selected.Pairwise fun e e' => le e.2 e'.2 = true

instance [DecidableEq ρ] (t : Table κ ρ) (p : ρ → Bool) (le : ρ → ρ → Bool)
    (selected : List (κ × ρ)) : Decidable (t.Selects p le selected) :=
  inferInstanceAs (Decidable (_ ∧ _))

omit [DecidableEq κ] in
theorem nodup_rows (t : Table κ ρ) (p : ρ → Bool) : (t.rows p).Nodup := by
  apply List.Nodup.of_map Prod.fst
  have hkeys : (t.rows p).map Prod.fst = t.matching p := by
    rw [rows, List.map_map]
    rfl
  rw [hkeys]
  exact nodup_matching t p

omit [DecidableEq κ] in
theorem length_rows (t : Table κ ρ) (p : ρ → Bool) :
    (t.rows p).length = t.entries.countP fun e => p e.2 := by
  rw [rows, List.length_map, List.countP_eq_length_filter]

/-- The rows of a table are as many as the keys that hold them. -/
theorem card_keys (t : Table κ ρ) (p : ρ → Bool) :
    (t.keys.toFinset.filter fun k => (t.lookup k).any p).card = (t.rows p).length := by
  have hkeys : (t.keys.toFinset.filter fun k => (t.lookup k).any p) = (t.matching p).toFinset := by
    ext k
    simp only [Finset.mem_filter, List.mem_toFinset, mem_matching, Option.any_eq_true]
    constructor
    · rintro ⟨_, hrow⟩
      exact hrow
    · rintro ⟨r, hr, hp⟩
      exact ⟨AList.lookup_isSome.mp (by simp [hr]), r, hr, hp⟩
  rw [hkeys, List.toFinset_card_of_nodup (nodup_matching t p), matching, rows, List.length_map,
    List.length_map]

/-- `groups` is one answer to `SELECT column, count(*) … GROUP BY column`. -/
def Groups {γ : Type} [DecidableEq γ] (t : Table κ ρ) (column : ρ → γ)
    (groups : List (γ × Nat)) : Prop :=
  (groups.map Prod.fst).Nodup ∧
    (∀ g ∈ groups, g.2 = (t.rows fun r => column r = g.1).length) ∧
    ∀ e ∈ t.entries, column e.2 ∈ groups.map Prod.fst

instance {γ : Type} [DecidableEq γ] (t : Table κ ρ) (column : ρ → γ) (groups : List (γ × Nat)) :
    Decidable (t.Groups column groups) :=
  inferInstanceAs (Decidable (_ ∧ _ ∧ _))

omit [DecidableEq κ] in
/-- A value that no group is about is that of no row. -/
theorem Groups.length_eq_zero {γ : Type} [DecidableEq γ] {column : ρ → γ}
    {groups : List (γ × Nat)} (h : t.Groups column groups) {v : γ}
    (hv : v ∉ groups.map Prod.fst) : (t.rows fun r => column r = v).length = 0 := by
  rw [length_rows, List.countP_eq_zero]
  intro e he heq
  rw [decide_eq_true_eq] at heq
  exact hv (heq ▸ h.2.2 e he)

omit [DecidableEq κ] in
/-- The rows of two conditions that exclude each other. -/
theorem length_rows_or (t : Table κ ρ) {p q : ρ → Bool} (h : ∀ r, p r = true → q r = false) :
    (t.rows fun r => p r || q r).length = (t.rows p).length + (t.rows q).length := by
  simp only [length_rows]
  induction t.entries with
  | nil => rfl
  | cons e es ih =>
    have hboth := h e.2
    simp only [List.countP_cons, ih]
    cases hp : p e.2 with
    | true =>
      rw [hboth hp]
      simp only [Bool.true_or, if_true, Bool.false_eq_true, if_false]
      omega
    | false =>
      simp only [Bool.false_or, Bool.false_eq_true, if_false]
      omega

end Table

end Relational
