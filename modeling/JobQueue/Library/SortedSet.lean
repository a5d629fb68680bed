import Mathlib.Data.List.AList
import Mathlib.Data.List.Sort
import Mathlib.Data.Rat.Cast.Order

/-!
# Sorted sets

A sorted set maps its members to scores and is read in increasing score, equal scores in
the order of the members. The operations are the Redis commands of the same names; a score
is a double, given by the rational it denotes.
-/

abbrev SortedSet (α : Type) := AList fun _ : α => ℚ

namespace SortedSet

variable {α : Type} [LinearOrder α] {z : SortedSet α} {a b : α} {score : ℚ}

/-- The order in which entries are read. -/
def Before (x y : Sigma fun _ : α => ℚ) : Prop := x.2 < y.2 ∨ (x.2 = y.2 ∧ x.1 ≤ y.1)

instance : DecidableRel (Before (α := α)) := fun x y =>
  inferInstanceAs (Decidable (x.2 < y.2 ∨ (x.2 = y.2 ∧ x.1 ≤ y.1)))

instance : Std.Total (Before (α := α)) where
  total x y := by
    rcases lt_trichotomy x.2 y.2 with h | h | h
    · exact Or.inl (Or.inl h)
    · rcases le_total x.1 y.1 with h' | h'
      · exact Or.inl (Or.inr ⟨h, h'⟩)
      · exact Or.inr (Or.inr ⟨h.symm, h'⟩)
    · exact Or.inr (Or.inl h)

instance : IsTrans (Sigma fun _ : α => ℚ) Before where
  trans x y w := by
    rintro (h | ⟨h, h'⟩) (g | ⟨g, g'⟩)
    · exact Or.inl (h.trans g)
    · exact Or.inl (g ▸ h)
    · exact Or.inl (h ▸ g)
    · exact Or.inr ⟨h.trans g, h'.trans g'⟩

instance antisymm_before : Std.Antisymm (Before (α := α)) where
  antisymm x y := by
    rintro (h | ⟨h, h'⟩) (g | ⟨g, g'⟩)
    · exact absurd (h.trans g) (lt_irrefl _)
    · exact absurd (g ▸ h) (lt_irrefl _)
    · exact absurd (h ▸ g) (lt_irrefl _)
    · cases x
      cases y
      cases h
      cases le_antisymm h' g'
      rfl

/-- `ZRANGE key 0 -1 WITHSCORES`. -/
def ordered (z : SortedSet α) : List (Sigma fun _ : α => ℚ) := z.entries.insertionSort Before

/-- `ZADD key score member`, with `NX` leaving a present member as it is. The answer is
whether the member is new. -/
def zadd (z : SortedSet α) (a : α) (score : ℚ) (nx : Bool) : SortedSet α × Bool :=
  if (z.lookup a).isSome then (if nx then z else z.insert a score, false)
  else (z.insert a score, true)

/-- `ZREM key member`. -/
def zrem (z : SortedSet α) (a : α) : SortedSet α := z.erase a

/-- `ZPOPMIN key 1`. -/
def zpopmin (z : SortedSet α) : SortedSet α × Option α :=
  match z.ordered with
  | [] => (z, none)
  | e :: _ => (z.erase e.1, some e.1)

/-- `ZRANGEBYSCORE key -inf max LIMIT 0 num`. -/
def zrangebyscore (z : SortedSet α) (max : ℚ) (num : ℕ) : List α :=
  ((z.ordered.filter fun e => e.2 ≤ max).take num).map Sigma.fst

/-- `ZRANGEBYSCORE key min +inf WITHSCORES`. -/
def zrangebyscoreFrom (z : SortedSet α) (min : ℚ) : List (Sigma fun _ : α => ℚ) :=
  z.ordered.filter fun e => min ≤ e.2

/-- `ZREMRANGEBYSCORE key -inf max`. -/
def zremrangebyscore (z : SortedSet α) (max : ℚ) : SortedSet α where
  entries := z.entries.filter fun e => ¬ e.2 ≤ max
  nodupKeys := z.nodupKeys.sublist List.filter_sublist

/-- `ZCARD key`. -/
def zcard (z : SortedSet α) : ℕ := z.entries.length

/-! ## Members -/

theorem ordered_perm (z : SortedSet α) : z.ordered.Perm z.entries := List.perm_insertionSort _ _

theorem ordered_pairwise (z : SortedSet α) : z.ordered.Pairwise Before :=
  List.pairwise_insertionSort _ _

theorem mem_ordered {e : Sigma fun _ : α => ℚ} : e ∈ z.ordered ↔ z.lookup e.1 = some e.2 :=
  (ordered_perm z).mem_iff.trans AList.mem_lookup_iff.symm

theorem mem_keys_ordered : a ∈ z.ordered.map Sigma.fst ↔ a ∈ z :=
  ((ordered_perm z).map Sigma.fst).mem_iff.trans AList.mem_keys.symm

theorem mem_zadd {nx : Bool} : b ∈ (z.zadd a score nx).1 ↔ b = a ∨ b ∈ z := by
  unfold zadd
  split
  · rename_i h
    have ha : a ∈ z := AList.lookup_isSome.mp h
    cases nx with
    | true =>
      refine ⟨Or.inr, ?_⟩
      rintro (rfl | hb)
      · exact ha
      · exact hb
    | false => simp [AList.mem_insert]
  · simp [AList.mem_insert]

theorem mem_zrem : b ∈ z.zrem a ↔ b ≠ a ∧ b ∈ z := AList.mem_erase

/-! ## Scores -/

/-- The entries with a score above `max` stay, and no others. -/
theorem lookup_zremrangebyscore {max r : ℚ} :
    (z.zremrangebyscore max).lookup a = some r ↔ z.lookup a = some r ∧ max < r := by
  have hentry : ∀ y : SortedSet α, y.lookup a = some r ↔ (⟨a, r⟩ : Sigma fun _ : α => ℚ) ∈
      y.entries := fun _ => AList.mem_lookup_iff
  rw [hentry, hentry]
  simp [zremrangebyscore]

theorem mem_zrangebyscoreFrom {min : ℚ} {e : Sigma fun _ : α => ℚ} :
    e ∈ z.zrangebyscoreFrom min ↔ z.lookup e.1 = some e.2 ∧ min ≤ e.2 := by
  rw [zrangebyscoreFrom, List.mem_filter, mem_ordered, decide_eq_true_eq]

/-- The range has members with a score up to `max` only. -/
theorem lookup_of_mem_zrangebyscore {max : ℚ} {num : ℕ} (h : a ∈ z.zrangebyscore max num) :
    ∃ r, z.lookup a = some r ∧ r ≤ max := by
  obtain ⟨e, he, rfl⟩ := List.mem_map.mp h
  obtain ⟨hmem, hmax⟩ := List.mem_filter.mp (List.mem_of_mem_take he)
  exact ⟨e.2, mem_ordered.mp hmem, by simpa using hmax⟩

/-- A member with such a score that the range leaves out comes after all of the range, which
has `num` members then. -/
theorem zrangebyscore_first {max r : ℚ} {num : ℕ} (hb : z.lookup b = some r) (hmax : r ≤ max)
    (hout : b ∉ z.zrangebyscore max num) : (z.zrangebyscore max num).length = num ∧
      ∀ a ∈ z.zrangebyscore max num, ∀ q, z.lookup a = some q → Before ⟨a, q⟩ ⟨b, r⟩ := by
  have hmem : (⟨b, r⟩ : Sigma fun _ : α => ℚ) ∈ z.ordered.filter fun e => e.2 ≤ max :=
    List.mem_filter.mpr ⟨mem_ordered.mpr hb, by simpa using hmax⟩
  have hsorted := (ordered_pairwise z).filter fun e => decide (e.2 ≤ max)
  generalize hlist : (z.ordered.filter fun e => decide (e.2 ≤ max)) = es at hmem hsorted
  have hrange : z.zrangebyscore max num = (es.take num).map Sigma.fst := by
    rw [← hlist]
    rfl
  rw [hrange] at hout ⊢
  have hdrop : (⟨b, r⟩ : Sigma fun _ : α => ℚ) ∈ es.drop num := by
    rw [← List.take_append_drop num es, List.mem_append] at hmem
    rcases hmem with htake | hdrop
    · exact absurd (List.mem_map_of_mem htake) hout
    · exact hdrop
  rw [← List.take_append_drop num es, List.pairwise_append] at hsorted
  refine ⟨?_, ?_⟩
  · have hlong : num < es.length := by
      have hpos := List.length_pos_of_mem hdrop
      rw [List.length_drop] at hpos
      omega
    rw [List.length_map, List.length_take]
    omega
  · intro a ha q hq
    obtain ⟨e, he, rfl⟩ := List.mem_map.mp ha
    have hscore : z.lookup e.1 = some e.2 := by
      apply mem_ordered.mp
      exact List.mem_of_mem_filter (hlist ▸ List.mem_of_mem_take he)
    rw [hq] at hscore
    cases hscore
    exact hsorted.2.2 e he _ hdrop

theorem lookup_zadd (z : SortedSet α) (a : α) (score : ℚ) :
    (z.zadd a score false).1.lookup a = some score := by
  unfold zadd
  split <;> exact AList.lookup_insert z

theorem lookup_zadd_ne {nx : Bool} (h : b ≠ a) : (z.zadd a score nx).1.lookup b = z.lookup b := by
  unfold zadd
  split
  · cases nx with
    | true => rfl
    | false => exact AList.lookup_insert_ne h
  · exact AList.lookup_insert_ne h

theorem lookup_zadd_new {nx : Bool} (h : a ∉ z) : (z.zadd a score nx).1.lookup a = some score := by
  unfold zadd
  rw [if_neg (mt AList.lookup_isSome.mp h)]
  exact AList.lookup_insert z

/-- `NX` leaves every score as it is. -/
theorem lookup_zadd_nx {r : ℚ} (h : z.lookup b = some r) :
    (z.zadd a score true).1.lookup b = some r := by
  by_cases hb : b = a
  · subst hb
    simp [zadd, h]
  · rw [lookup_zadd_ne hb, h]

theorem lookup_zadd_of_some {nx : Bool} {r : ℚ} (h : (z.zadd a score nx).1.lookup b = some r) :
    z.lookup b = some r ∨ (b = a ∧ r = score) := by
  have hinsert : (z.insert a score).lookup b = some r → z.lookup b = some r ∨ (b = a ∧ r = score) := by
    intro h
    by_cases hb : b = a
    · subst hb
      rw [AList.lookup_insert] at h
      exact Or.inr ⟨rfl, (Option.some.inj h).symm⟩
    · rw [AList.lookup_insert_ne hb] at h
      exact Or.inl h
  unfold zadd at h
  split at h
  · cases nx with
    | true => exact Or.inl h
    | false => exact hinsert h
  · exact hinsert h

theorem lookup_erase_of_some {r : ℚ} (h : (AList.erase a z).lookup b = some r) :
    z.lookup b = some r := by
  by_cases hb : b = a
  · subst hb
    rw [AList.lookup_erase] at h
    cases h
  · rwa [AList.lookup_erase_ne hb] at h

/-! ## Popping -/

theorem zpopmin_none_iff : z.zpopmin.2 = none ↔ ∀ b, b ∉ z := by
  have hmem : ∀ b, b ∈ z ↔ ∃ e ∈ z.ordered, e.1 = b := by
    intro b
    rw [← AList.lookup_isSome, Option.isSome_iff_exists]
    constructor
    · rintro ⟨q, hq⟩
      exact ⟨⟨b, q⟩, mem_ordered.mpr hq, rfl⟩
    · rintro ⟨e, he, rfl⟩
      exact ⟨e.2, mem_ordered.mp he⟩
  unfold zpopmin
  cases h : z.ordered with
  | nil => simp [hmem, h]
  | cons e es =>
    simp only [reduceCtorEq, false_iff, not_forall, not_not]
    exact ⟨e.1, (hmem e.1).mpr ⟨e, by simp [h], rfl⟩⟩

/-- A popped member was present and is removed. -/
theorem zpopmin_some (h : z.zpopmin.2 = some a) : a ∈ z ∧ z.zpopmin.1 = z.erase a := by
  unfold zpopmin at h ⊢
  cases ho : z.ordered with
  | nil => simp [ho] at h
  | cons e es =>
    simp only [ho, Option.some.injEq] at h ⊢
    subst h
    exact ⟨AList.lookup_isSome.mp (by simp [mem_ordered.mp (ho ▸ List.mem_cons_self)]), rfl⟩

/-- The popped member comes before every other. -/
theorem zpopmin_before (h : z.zpopmin.2 = some a) : ∃ q, z.lookup a = some q ∧
    ∀ b r, z.lookup b = some r → q < r ∨ (q = r ∧ a ≤ b) := by
  have hsorted := ordered_pairwise z
  unfold zpopmin at h
  cases ho : z.ordered with
  | nil => simp [ho] at h
  | cons e es =>
    simp only [ho, Option.some.injEq] at h
    subst h
    rw [ho, List.pairwise_cons] at hsorted
    refine ⟨e.2, mem_ordered.mp (ho ▸ List.mem_cons_self), ?_⟩
    intro b r hb
    have hmem : (⟨b, r⟩ : Sigma fun _ : α => ℚ) ∈ e :: es := ho ▸ mem_ordered.mpr hb
    rcases List.mem_cons.mp hmem with heq | hrest
    · rw [← heq]
      exact Or.inr ⟨rfl, le_rfl⟩
    · exact hsorted.1 _ hrest

theorem zpopmin_of_none (h : z.zpopmin.2 = none) : z.zpopmin.1 = z := by
  unfold zpopmin at h ⊢
  cases ho : z.ordered with
  | nil => rfl
  | cons e es => simp [ho] at h

theorem zcard_zpopmin_lt (h : z.zpopmin.2 = some a) : z.zpopmin.1.zcard < z.zcard := by
  obtain ⟨hmem, heq⟩ := zpopmin_some h
  have hlen : ∀ y : SortedSet α, y.zcard = y.keys.length := fun y => by
    simp [zcard, AList.keys, List.keys]
  rw [heq, hlen, hlen, AList.keys_erase, List.length_erase_of_mem (AList.mem_keys.mp hmem)]
  exact Nat.sub_lt (List.length_pos_of_mem (AList.mem_keys.mp hmem)) Nat.one_pos

/-! ## Popping until nothing is left -/

/-- `ZPOPMIN` until it finds nothing, with the members popped. -/
inductive Pops : SortedSet α → List α → Prop
  | nil {y : SortedSet α} (h : y.zpopmin.2 = none) : Pops y []
  | cons {y : SortedSet α} {m : α} {l : List α} (h : y.zpopmin.2 = some m)
      (hrest : Pops y.zpopmin.1 l) : Pops y (m :: l)

theorem nodup_ordered (z : SortedSet α) : (z.ordered.map Sigma.fst).Nodup :=
  ((ordered_perm z).map Sigma.fst).nodup_iff.mpr z.keys_nodup

theorem nodup_zrangebyscoreFrom (z : SortedSet α) (min : ℚ) :
    ((z.zrangebyscoreFrom min).map Sigma.fst).Nodup :=
  (nodup_ordered z).sublist (List.filter_sublist.map _)

theorem ordered_erase {e : Sigma fun _ : α => ℚ} {es : List (Sigma fun _ : α => ℚ)}
    (h : z.ordered = e :: es) : ordered (z.erase e.1) = es := by
  have hsorted := ordered_pairwise z
  have hnodup := nodup_ordered z
  rw [h, List.pairwise_cons] at hsorted
  rw [h, List.map_cons, List.nodup_cons] at hnodup
  refine List.Perm.eq_of_pairwise' (ordered_pairwise _) hsorted.2 ?_
  have hnodups : ∀ y : SortedSet α, y.ordered.Nodup := fun y => (nodup_ordered y).of_map _
  rw [List.perm_ext_iff_of_nodup (hnodups _) (List.Nodup.of_map _ hnodup.2)]
  intro d
  have hz : d = e ∨ d ∈ es ↔ z.lookup d.1 = some d.2 := by
    rw [← mem_ordered, h, List.mem_cons]
  rw [mem_ordered]
  by_cases hd : d.1 = e.1
  · rw [hd, AList.lookup_erase]
    simp only [reduceCtorEq, false_iff]
    intro hmem
    exact hnodup.1 (hd ▸ List.mem_map_of_mem hmem)
  · rw [AList.lookup_erase_ne hd, ← hz]
    constructor
    · rintro (rfl | hmem)
      · exact absurd rfl hd
      · exact hmem
    · exact Or.inr

theorem pops_iff {l : List α} : Pops z l ↔ l = z.ordered.map Sigma.fst := by
  constructor
  · intro h
    induction h with
    | @nil z h =>
      cases ho : z.ordered with
      | nil => rfl
      | cons e es => simp [zpopmin, ho] at h
    | @cons z a l h _ ih =>
      cases ho : z.ordered with
      | nil => simp [zpopmin, ho] at h
      | cons e es =>
        simp only [zpopmin, ho, Option.some.injEq] at h ih
        rw [ih, ordered_erase ho, ← h, List.map_cons]
  · rintro rfl
    induction ho : z.ordered generalizing z with
    | nil => exact .nil (by simp [zpopmin, ho])
    | cons e es ih =>
      refine .cons (by simp [zpopmin, ho]) ?_
      simp only [zpopmin, ho]
      exact ih (ordered_erase ho)

/-- The order in which the members are popped is a given one, if the scores allow it. -/
theorem pops_iff_pairwise {l : List α} (hnodup : l.Nodup) (hmem : ∀ a, a ∈ l ↔ a ∈ z) :
    Pops z l ↔ l.Pairwise fun a b => ∀ r s, z.lookup a = some r → z.lookup b = some s →
      r < s ∨ (r = s ∧ a ≤ b) := by
  rw [pops_iff]
  constructor
  · rintro rfl
    rw [List.pairwise_map]
    refine (ordered_pairwise z).imp_of_mem ?_
    intro d e hd he hbefore r s hr hs
    rw [mem_ordered.mp hd] at hr
    rw [mem_ordered.mp he] at hs
    cases hr
    cases hs
    exact hbefore
  · intro hpairwise
    have hscore : ∀ a ∈ l, ∃ r, z.lookup a = some r := fun a ha =>
      Option.isSome_iff_exists.mp (AList.lookup_isSome.mpr ((hmem a).mp ha))
    have hsorted : (l.map fun a => (⟨a, (z.lookup a).getD 0⟩ : Sigma fun _ : α => ℚ)).Pairwise
        Before := by
      rw [List.pairwise_map]
      refine hpairwise.imp_of_mem ?_
      intro a b ha hb hab
      obtain ⟨r, hr⟩ := hscore a ha
      obtain ⟨s, hs⟩ := hscore b hb
      simp only [hr, hs, Option.getD_some]
      exact hab r s hr hs
    have hperm : (l.map fun a => (⟨a, (z.lookup a).getD 0⟩ : Sigma fun _ : α => ℚ)).Perm
        z.ordered := by
      have hnodup' : (l.map fun a => (⟨a, (z.lookup a).getD 0⟩ : Sigma fun _ : α => ℚ)).Nodup :=
        List.Nodup.of_map Sigma.fst (by simpa [Function.comp_def] using hnodup)
      rw [List.perm_ext_iff_of_nodup hnodup' (List.Nodup.of_map _ (nodup_ordered z))]
      rintro ⟨a, r⟩
      rw [mem_ordered, List.mem_map]
      constructor
      · rintro ⟨b, hb, heq⟩
        cases heq
        obtain ⟨r, hr⟩ := hscore a hb
        simp [hr]
      · intro hr
        refine ⟨a, (hmem a).mpr (AList.lookup_isSome.mp (by simp [hr])), ?_⟩
        simp only at hr
        rw [hr, Option.getD_some]
    rw [← hperm.eq_of_pairwise' hsorted (ordered_pairwise z)]
    simp [Function.comp_def]

end SortedSet
