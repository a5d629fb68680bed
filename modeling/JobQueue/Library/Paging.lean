import Mathlib.Data.List.Perm.Subperm
import Mathlib.Data.List.Sort

/-!
# Reading a sorted result page by page

A query is answered with the items of `base` in some order that the sort key allows, and a
client reads it in pages of `limit` items until it gets an empty one. Each page is cut from
an answer of its own, and the answers may differ where items have equal keys.

`reads_exact_iff`: whatever the answers are, the pages are together an answer again just if
no page boundary lies inside a group of items with equal keys.

Where items are added while the client reads, an item with a key of its own is still collected
(`Browses.collected`), and again at most once for each item added before it
(`Browses.repeated`).
-/

namespace Paging

variable {α β : Type} [LinearOrder β] {key : α → β} {base order : List α}

/-! ## Answers and pages -/

/-- The items in an order that sorts them by their key. -/
def Answers (key : α → β) (base order : List α) : Prop :=
  order.Perm base ∧ order.Pairwise fun a b => key a ≤ key b

/-- `LIMIT limit OFFSET offset` -/
def page (limit offset : Nat) (order : List α) : List α := (order.drop offset).take limit

/-- What a client collects from page `k` on, where `answers i` is the answer from which page
`i` is cut. -/
inductive Reads (limit : Nat) (answers : Nat → List α) : Nat → List α → Prop
  | stop {k} (hempty : page limit (k * limit) (answers k) = []) : Reads limit answers k []
  | next {k rest} (hpage : page limit (k * limit) (answers k) ≠ [])
      (hrest : Reads limit answers (k + 1) rest) :
      Reads limit answers k (page limit (k * limit) (answers k) ++ rest)

/-- No page boundary lies strictly between the first and the last of the items that have the
key of `x`. -/
def Whole (key : α → β) (base : List α) (limit : Nat) (x : α) : Prop :=
  ∀ k, ¬ (base.countP (fun y => key y < key x) < k * limit ∧
    k * limit < base.countP (fun y => key y ≤ key x))

theorem exists_answers (key : α → β) (base : List α) : ∃ order, Answers key base order := by
  have : Std.Total fun a b : α => key a ≤ key b := ⟨fun a b => le_total (key a) (key b)⟩
  have : IsTrans α fun a b => key a ≤ key b := ⟨fun _ _ _ => le_trans⟩
  exact ⟨base.insertionSort fun a b => key a ≤ key b, List.perm_insertionSort _ _,
    List.pairwise_insertionSort _ _⟩

/-! ## Positions in an answer -/

/-- Where the items that satisfy `p` come first, their count tells the position of the last. -/
theorem sat_iff_lt_countP {p : α → Bool} {l : List α} {i : Nat} {x : α}
    (hfirst : l.Pairwise fun a b => p b = true → p a = true) (hx : l[i]? = some x) :
    p x = true ↔ i < l.countP p := by
  induction l generalizing i with
  | nil => simp at hx
  | cons a l ih =>
    obtain ⟨ha, hl⟩ := List.pairwise_cons.mp hfirst
    cases hp : p a with
    | false =>
      -- no item satisfies `p`
      have hnone : ∀ b ∈ a :: l, ¬ p b = true := by
        intro b hb hpb
        rcases List.mem_cons.mp hb with rfl | hb
        · rw [hp] at hpb
          cases hpb
        · rw [ha b hb hpb] at hp
          cases hp
      rw [List.countP_eq_zero.mpr hnone]
      exact iff_of_false (hnone x (List.mem_of_getElem? hx)) (Nat.not_lt_zero i)
    | true =>
      rw [List.countP_cons, hp, if_pos rfl]
      cases i with
      | zero =>
        simp only [List.getElem?_cons_zero, Option.some.injEq] at hx
        rw [← hx, hp]
        exact iff_of_true rfl (Nat.succ_pos _)
      | succ i => rw [ih hl hx, Nat.add_lt_add_iff_right]

variable {x : α} {i : Nat}

theorem Answers.lt_iff (h : Answers key base order) (hx : order[i]? = some x) (z : α) :
    key x < key z ↔ i < base.countP fun y => key y < key z := by
  rw [← h.1.countP_eq, ← sat_iff_lt_countP (h.2.imp ?_) hx, decide_eq_true_eq]
  intro a b hab hb
  rw [decide_eq_true_eq] at hb ⊢
  exact hab.trans_lt hb

theorem Answers.le_iff (h : Answers key base order) (hx : order[i]? = some x) (z : α) :
    key x ≤ key z ↔ i < base.countP fun y => key y ≤ key z := by
  rw [← h.1.countP_eq, ← sat_iff_lt_countP (h.2.imp ?_) hx, decide_eq_true_eq]
  intro a b hab hb
  rw [decide_eq_true_eq] at hb ⊢
  exact hab.trans hb

/-- At a boundary of pages that splits no group, the keys tell which items come before it. -/
theorem Answers.lt_boundary_iff {limit k : Nat} (h : Answers key base order)
    (hx : order[i]? = some x) (hwhole : Whole key base limit x) :
    i < k * limit ↔ base.countP (fun y => key y ≤ key x) ≤ k * limit := by
  have hupTo := (h.le_iff hx x).mp le_rfl
  have hbefore := mt (h.lt_iff hx x).mpr (lt_irrefl _)
  have hboundary := hwhole k
  omega

/-- All answers have the same items after such a boundary. -/
theorem Answers.drop_perm {order' : List α} {limit : Nat} (h : Answers key base order)
    (h' : Answers key base order') (hnodup : base.Nodup)
    (hwhole : ∀ x ∈ base, Whole key base limit x) (k : Nat) :
    (order.drop (k * limit)).Perm (order'.drop (k * limit)) := by
  have hmem : ∀ {l : List α}, Answers key base l → ∀ x, x ∈ l.drop (k * limit) ↔
      x ∈ base ∧ ¬ base.countP (fun y => key y ≤ key x) ≤ k * limit := by
    intro l hl x
    constructor
    · intro hx
      obtain ⟨i, hi⟩ := List.getElem?_of_mem hx
      rw [List.getElem?_drop] at hi
      have hbase : x ∈ base := hl.1.mem_iff.mp (List.mem_of_getElem? hi)
      refine ⟨hbase, ?_⟩
      rw [← hl.lt_boundary_iff hi (hwhole x hbase)]
      omega
    · rintro ⟨hbase, hafter⟩
      obtain ⟨i, hi⟩ := List.getElem?_of_mem (hl.1.mem_iff.mpr hbase)
      rw [← hl.lt_boundary_iff hi (hwhole x hbase), not_lt] at hafter
      apply List.mem_of_getElem? (i := i - k * limit)
      rw [List.getElem?_drop, Nat.add_sub_cancel' hafter, hi]
  rw [List.perm_ext_iff_of_nodup]
  · intro x
    rw [hmem h, hmem h']
  · exact (h.1.nodup_iff.mpr hnodup).sublist (List.drop_sublist _ _)
  · exact (h'.1.nodup_iff.mpr hnodup).sublist (List.drop_sublist _ _)

/-! ## What a client collects -/

section

variable {limit k : Nat} {answers : Nat → List α} {collected collected' : List α}

theorem page_eq_nil_iff {offset : Nat} (hlimit : 1 ≤ limit) :
    page limit offset order = [] ↔ order.length ≤ offset := by
  rw [page, List.take_eq_nil_iff, List.drop_eq_nil_iff]
  omega

theorem page_append_drop (limit k : Nat) (order : List α) :
    page limit (k * limit) order ++ order.drop ((k + 1) * limit) = order.drop (k * limit) := by
  rw [page, Nat.add_one_mul, ← List.drop_drop, List.take_append_drop]

theorem Reads.unique (h : Reads limit answers k collected) (h' : Reads limit answers k collected') :
    collected = collected' := by
  induction h generalizing collected' with
  | stop hempty =>
    cases h' with
    | stop => rfl
    | next hpage => exact absurd hempty hpage
  | next hpage _ ih =>
    cases h' with
    | stop hempty => exact absurd hempty hpage
    | next _ hrest => rw [ih hrest]

/-- The client comes to an empty page. -/
theorem exists_reads (hlimit : 1 ≤ limit) (hlength : ∀ i, (answers i).length = base.length)
    (k : Nat) : ∃ collected, Reads limit answers k collected := by
  by_cases hempty : page limit (k * limit) (answers k) = []
  · exact ⟨[], .stop hempty⟩
  · have hmore : k * limit < base.length := by
      rw [page_eq_nil_iff hlimit, hlength] at hempty
      omega
    obtain ⟨rest, hrest⟩ := exists_reads hlimit hlength (k + 1)
    exact ⟨_, .next hempty hrest⟩
termination_by base.length - k * limit
decreasing_by
  rw [Nat.add_mul]
  omega

/-- From page `k` on, the client collects what every answer has there, in sorted order. -/
theorem Reads.sound (hlimit : 1 ≤ limit) (hnodup : base.Nodup)
    (hwhole : ∀ x ∈ base, Whole key base limit x) (hanswers : ∀ i, Answers key base (answers i))
    (h : Reads limit answers k collected) (horder : Answers key base order) :
    collected.Perm (order.drop (k * limit)) ∧ collected.Pairwise fun a b => key a ≤ key b := by
  induction h with
  | @stop k hempty =>
    rw [page_eq_nil_iff hlimit, (hanswers k).1.length_eq, ← horder.1.length_eq] at hempty
    rw [List.drop_eq_nil_iff.mpr hempty]
    exact ⟨.refl _, .nil⟩
  | @next k rest hpage hrest ih =>
    have hagree := (hanswers k).drop_perm horder hnodup hwhole
    have hperm : rest.Perm ((answers k).drop ((k + 1) * limit)) :=
      ih.1.trans (hagree (k + 1)).symm
    have hsplit := page_append_drop limit k (answers k)
    constructor
    · refine .trans ?_ (hagree k)
      rw [← hsplit]
      exact hperm.append_left _
    · -- what follows the page in its own answer is not before it
      have hsorted := (hanswers k).2.sublist (List.drop_sublist (k * limit) _)
      rw [← hsplit, List.pairwise_append] at hsorted
      rw [List.pairwise_append]
      refine ⟨hsorted.1, ih.2, ?_⟩
      intro a ha b hb
      exact hsorted.2.2 a ha b (hperm.mem_iff.mp hb)

/-! ## A group across a boundary -/

/-- A client that gets one answer all the time collects the rest of it. -/
theorem reads_const (hlimit : 1 ≤ limit) (k : Nat) (h : ∀ i, k ≤ i → answers i = order) :
    Reads limit answers k (order.drop (k * limit)) := by
  by_cases hempty : page limit (k * limit) (answers k) = []
  · have hlength := hempty
    rw [h k le_rfl, page_eq_nil_iff hlimit] at hlength
    rw [List.drop_eq_nil_iff.mpr hlength]
    exact .stop hempty
  · have hmore : k * limit < order.length := by
      rw [h k le_rfl, page_eq_nil_iff hlimit] at hempty
      omega
    have hrest := reads_const hlimit (k + 1) fun i hi => h i (by omega)
    have hnext := Reads.next hempty hrest
    rw [h k le_rfl, page_append_drop] at hnext
    exact hnext
termination_by order.length - k * limit
decreasing_by
  rw [Nat.add_mul]
  omega

/-- Pages that are cut from one answer, before pages that are cut from others. -/
theorem reads_take {n : Nat} (hlimit : 1 ≤ limit) (hsame : ∀ i, i < n → answers i = order)
    (hlong : n * limit ≤ order.length) (hkn : k ≤ n) (h : Reads limit answers n collected) :
    Reads limit answers k ((order.drop (k * limit)).take ((n - k) * limit) ++ collected) := by
  induction hkn using Nat.decreasingInduction with
  | self => simpa using h
  | of_succ k hk ih =>
    have hnext : n - k = n - (k + 1) + 1 := by omega
    have hpage : page limit (k * limit) (answers k) ≠ [] := by
      have hmore := Nat.mul_le_mul_right limit hk
      rw [Nat.succ_mul] at hmore
      rw [hsame k hk, ne_eq, page_eq_nil_iff hlimit]
      omega
    have hreads := Reads.next hpage ih
    rw [hsame k hk, Nat.add_one_mul, ← List.drop_drop] at hreads
    rw [hnext, Nat.add_one_mul, Nat.add_comm, List.take_add, List.append_assoc]
    exact hreads

/-- Two neighbours with equal keys may as well be answered the other way round. -/
theorem Answers.swap {front back : List α} {y z : α}
    (h : Answers key base (front ++ y :: z :: back)) (hle : key z ≤ key y) :
    Answers key base (front ++ z :: y :: back) := by
  refine ⟨.trans ((List.Perm.swap y z back).append_left front) h.1, ?_⟩
  have hsorted := h.2
  simp only [List.pairwise_append, List.pairwise_cons, List.mem_cons] at hsorted ⊢
  obtain ⟨hfront, ⟨hy, hz, hback⟩, hcross⟩ := hsorted
  refine ⟨hfront, ⟨?_, fun b hb => hy b (Or.inr hb), hback⟩, ?_⟩
  · intro b hb
    rcases hb with rfl | hb
    · exact hle
    · exact hz b hb
  · intro a ha b hb
    exact hcross a ha b (by tauto)

/-- Where position `m + 1` is inside a group of equal keys, some other answer has there the
item that this one has at position `m`. -/
theorem Answers.exists_moved {x : α} {m : Nat} (h : Answers key base order)
    (hbefore : base.countP (fun y => key y < key x) ≤ m)
    (hupTo : m + 1 < base.countP fun y => key y ≤ key x) :
    ∃ (other : List α) (y : α), Answers key base other ∧ order[m]? = some y ∧
      other[m + 1]? = some y := by
  have hm : m + 1 < order.length := by
    rw [h.1.length_eq]
    exact hupTo.trans_le List.countP_le_length
  obtain ⟨y, hy⟩ : ∃ y, order[m] = y := ⟨_, rfl⟩
  obtain ⟨z, hz⟩ : ∃ z, order[m + 1] = z := ⟨_, rfl⟩
  have hymem : order[m]? = some y := List.getElem?_eq_some_iff.mpr ⟨by omega, hy⟩
  have hzmem : order[m + 1]? = some z := List.getElem?_eq_some_iff.mpr ⟨hm, hz⟩
  have hyx : key x ≤ key y := by
    rw [← not_lt, h.lt_iff hymem x]
    omega
  have hzx : key z ≤ key x := by
    rw [h.le_iff hzmem x]
    exact hupTo
  have hcut : order = order.take m ++ y :: z :: order.drop (m + 2) := by
    rw [← hy, ← hz, ← List.drop_eq_getElem_cons hm, ← List.drop_eq_getElem_cons (by omega),
      List.take_append_drop]
  refine ⟨order.take m ++ z :: y :: order.drop (m + 2), y, ?_, hymem, ?_⟩
  · rw [hcut] at h
    exact h.swap (hzx.trans hyx)
  · have hshort : (order.take m).length = m := by
      rw [List.length_take]
      omega
    rw [List.getElem?_append_right (by omega), hshort]
    simp

/-- If a boundary splits a group, a client may get one item on both sides of it. -/
theorem exists_twice (hlimit : 1 ≤ limit) {x : α} (hsplit : ¬ Whole key base limit x) :
    ∃ (answers : Nat → List α) (collected : List α), (∀ i, Answers key base (answers i)) ∧
      Reads limit answers 0 collected ∧ ¬ collected.Nodup := by
  simp only [Whole, not_forall, not_not] at hsplit
  obtain ⟨n, hbefore, hupTo⟩ := hsplit
  obtain ⟨order, horder⟩ := exists_answers key base
  have hlength : n * limit ≤ order.length := by
    rw [horder.1.length_eq]
    exact (hupTo.trans_le List.countP_le_length).le
  obtain ⟨m, hm⟩ : ∃ m, n * limit = m + 1 := ⟨n * limit - 1, by omega⟩
  obtain ⟨other, y, hother, hy, hy'⟩ := horder.exists_moved (x := x) (m := m) (by omega) (by omega)
  refine ⟨fun i => if i < n then order else other, order.take (n * limit) ++
    other.drop (n * limit), ?_, ?_, ?_⟩
  · intro i
    show Answers key base (if i < n then order else other)
    split
    · exact horder
    · exact hother
  · have hrest : Reads limit (fun i => if i < n then order else other) n
        (other.drop (n * limit)) :=
      reads_const hlimit n fun i hi => if_neg (not_lt.mpr hi)
    have hreads := reads_take hlimit (fun i hi => if_pos hi) hlength (Nat.zero_le n) hrest
    simpa using hreads
  · -- `y` comes last before the boundary, and first after it
    intro hnodup
    have hin : y ∈ order.take (n * limit) := by
      apply List.mem_of_getElem? (i := m)
      rw [List.getElem?_take_of_lt (by omega), hy]
    have hin' : y ∈ other.drop (n * limit) := by
      apply List.mem_of_getElem? (i := 0)
      rw [List.getElem?_drop, hm, Nat.add_zero, hy']
    exact List.disjoint_of_nodup_append hnodup hin hin'

/-- Whatever the answers are, a client collects every item once and in sorted order, just if no
boundary splits a group of equal keys. -/
theorem reads_exact_iff (key : α → β) (hlimit : 1 ≤ limit) (hnodup : base.Nodup) :
    (∀ answers : Nat → List α, (∀ i, Answers key base (answers i)) →
      ∃ collected, Reads limit answers 0 collected ∧ Answers key base collected) ↔
      ∀ x ∈ base, Whole key base limit x := by
  constructor
  · intro h x _
    by_contra hsplit
    obtain ⟨answers, twice, hanswers, htwice, hnot⟩ := exists_twice hlimit hsplit
    obtain ⟨collected, hreads, hexact⟩ := h answers hanswers
    rw [htwice.unique hreads] at hnot
    exact hnot (hexact.1.nodup_iff.mpr hnodup)
  · intro hwhole answers hanswers
    obtain ⟨collected, hreads⟩ :=
      exists_reads hlimit (fun i => (hanswers i).1.length_eq) 0
    have hsound := hreads.sound hlimit hnodup hwhole hanswers (hanswers 0)
    rw [Nat.zero_mul, List.drop_zero] at hsound
    exact ⟨collected, hreads, hsound.1.trans (hanswers 0).1, hsound.2⟩

end

/-! ## Items that are added while a client reads -/

section

variable {σ : Type}

/-- What a client collects from page `k` on, and the state in which it gets its empty page.
`base s` are the items in state `s`, and `moves` tells how the state may change between two
pages. -/
inductive Browses (key : α → β) (limit : Nat) (base : σ → List α) (moves : σ → σ → Prop) :
    Nat → σ → List α → σ → Prop
  | stop {k s order} (horder : Answers key (base s) order)
      (hempty : page limit (k * limit) order = []) : Browses key limit base moves k s [] s
  | next {k s order s' rest last} (horder : Answers key (base s) order)
      (hpage : page limit (k * limit) order ≠ []) (hmoves : moves s s')
      (hrest : Browses key limit base moves (k + 1) s' rest last) :
      Browses key limit base moves k s (page limit (k * limit) order ++ rest) last

variable {base : σ → List α} {moves : σ → σ → Prop} {limit k : Nat} {s s' : σ} {got : List α}
  {v : β}

/-- Keys are added only. -/
def Grows (key : α → β) (base : σ → List α) (moves : σ → σ → Prop) : Prop :=
  ∀ s s', moves s s' → ((base s).map key).Subperm ((base s').map key)

/-- The position of the first item with the key `v`. -/
def rank (key : α → β) (items : List α) (v : β) : Nat := items.countP fun y => key y < v

/-- The number of items with the key `v`. -/
def group (key : α → β) (items : List α) (v : β) : Nat := items.countP fun y => key y = v

theorem countP_le_eq (key : α → β) (items : List α) (v : β) :
    items.countP (fun y => key y ≤ v) = rank key items v + group key items v := by
  unfold rank group
  induction items with
  | nil => rfl
  | cons a items ih =>
    simp only [List.countP_cons, ih, decide_eq_true_eq]
    rcases lt_trichotomy (key a) v with h | h | h
    · rw [if_pos h.le, if_pos h, if_neg h.ne]
      omega
    · rw [if_pos h.le, if_neg h.not_lt, if_pos h]
      omega
    · rw [if_neg h.not_ge, if_neg h.not_gt, if_neg h.ne']
      omega

theorem group_append (key : α → β) (items items' : List α) (v : β) :
    group key (items ++ items') v = group key items v + group key items' v :=
  List.countP_append

/-- An item with a key of its own has one position in all answers. -/
theorem Answers.position {items order : List α} (h : Answers key items order)
    (hone : group key items v = 1) {x : α} {i : Nat} (hx : order[i]? = some x) :
    key x = v ↔ i = rank key items v := by
  have hupTo := countP_le_eq key items v
  obtain ⟨z, hz, hzv⟩ := List.countP_pos_iff.mp (hone ▸ Nat.one_pos)
  rw [decide_eq_true_eq] at hzv
  have hlt := h.lt_iff hx z
  have hle := h.le_iff hx z
  rw [hzv] at hlt hle
  show key x = v ↔ i = items.countP fun y => key y < v
  have hrank : rank key items v = items.countP fun y => key y < v := rfl
  constructor
  · rintro rfl
    have hnot := mt hlt.mpr (lt_irrefl _)
    have hin := hle.mp le_rfl
    omega
  · intro hi
    apply le_antisymm
    · apply hle.mpr
      omega
    · rw [← not_lt, hlt]
      omega

/-- Such an item is on the page its position belongs to. -/
theorem Answers.group_page {items order : List α} (h : Answers key items order)
    (hone : group key items v = 1) (offset : Nat) :
    group key (page limit offset order) v =
      if offset ≤ rank key items v ∧ rank key items v < offset + limit then 1 else 0 := by
  have hat : ∀ t y, (page limit offset order)[t]? = some y →
      t < limit ∧ order[offset + t]? = some y := by
    intro t y ht
    rw [page, List.getElem?_take] at ht
    split at ht
    · rename_i hlt
      rw [List.getElem?_drop] at ht
      exact ⟨hlt, ht⟩
    · cases ht
  split
  · rename_i hin
    obtain ⟨z, hz, hzv⟩ := List.countP_pos_iff.mp (hone ▸ Nat.one_pos)
    rw [decide_eq_true_eq] at hzv
    obtain ⟨i, hi⟩ := List.getElem?_of_mem (h.1.mem_iff.mpr hz)
    have hrank := (h.position hone hi).mp hzv
    apply le_antisymm
    · have hsub : (page limit offset order).Sublist order :=
        (List.take_sublist _ _).trans (List.drop_sublist _ _)
      rw [← hone, group, group, ← h.1.countP_eq]
      exact hsub.countP_le
    · apply List.countP_pos_iff.mpr
      refine ⟨z, List.mem_of_getElem? (i := i - offset) ?_, by simpa using hzv⟩
      rw [page, List.getElem?_take_of_lt (by omega), List.getElem?_drop,
        Nat.add_sub_cancel' (by omega), hi]
  · rename_i hout
    apply List.countP_eq_zero.mpr
    intro y hy hyv
    rw [decide_eq_true_eq] at hyv
    obtain ⟨t, ht⟩ := List.getElem?_of_mem hy
    obtain ⟨hlt, hpos⟩ := hat t y ht
    have hrank := (h.position hone hpos).mp hyv
    omega

theorem Grows.rank_le (h : Grows key base moves) (hmoves : moves s s') :
    rank key (base s) v ≤ rank key (base s') v := by
  have hle := (h s s' hmoves).countP_le fun u => decide (u < v)
  rw [List.countP_map, List.countP_map] at hle
  exact hle

theorem Grows.group_le (h : Grows key base moves) (hmoves : moves s s') :
    group key (base s) v ≤ group key (base s') v := by
  have hle := (h s s' hmoves).countP_le fun u => decide (u = v)
  rw [List.countP_map, List.countP_map] at hle
  exact hle

theorem Browses.grown (hgrows : Grows key base moves)
    (h : Browses key limit base moves k s got s') :
    rank key (base s) v ≤ rank key (base s') v ∧ group key (base s) v ≤ group key (base s') v := by
  induction h with
  | stop => exact ⟨le_rfl, le_rfl⟩
  | next _ _ hmoves _ ih =>
    exact ⟨(hgrows.rank_le hmoves).trans ih.1, (hgrows.group_le hmoves).trans ih.2⟩

/-- An item of the beginning whose key stays its own is on some page. -/
theorem Browses.collected (hgrows : Grows key base moves) (hlimit : 1 ≤ limit)
    (h : Browses key limit base moves k s got s') (hhas : 1 ≤ group key (base s) v)
    (honly : group key (base s') v ≤ 1) (hahead : k * limit ≤ rank key (base s) v) :
    1 ≤ group key got v := by
  induction h with
  | @stop k s order horder hempty =>
    rw [page_eq_nil_iff hlimit, horder.1.length_eq] at hempty
    have hupTo : (base s).countP (fun y => key y ≤ v) ≤ (base s).length :=
      List.countP_le_length
    have hsplit := countP_le_eq key (base s) v
    omega
  | @next k s order s' rest last horder _ hmoves hrest ih =>
    have hgrown := hrest.grown (v := v) hgrows
    have hgroup := hgrows.group_le (v := v) hmoves
    have hrank := hgrows.rank_le (v := v) hmoves
    rw [group_append, horder.group_page (by omega)]
    split
    · omega
    · -- it is behind this page, and can only have moved further back
      rename_i hout
      have hnext := Nat.add_one_mul k limit
      have hin := ih (by omega) honly (by omega)
      omega

/-- It comes again at most once for each item that is added before it. -/
theorem Browses.repeated (hgrows : Grows key base moves)
    (h : Browses key limit base moves k s got s') (hhas : 1 ≤ group key (base s) v)
    (honly : group key (base s') v ≤ 1) :
    group key got v + max (rank key (base s) v) (k * limit) ≤
      max (rank key (base s') v + 1) (k * limit) := by
  induction h with
  | @stop k s order horder hempty =>
    have hnone : group key ([] : List α) v = 0 := rfl
    omega
  | @next k s order s' rest last horder _ hmoves hrest ih =>
    have hgrown := hrest.grown (v := v) hgrows
    have hgroup := hgrows.group_le (v := v) hmoves
    have hrank := hgrows.rank_le (v := v) hmoves
    have hnext := Nat.add_one_mul k limit
    have hrest := ih (by omega) honly
    rw [group_append, horder.group_page (by omega)]
    split
    · omega
    · omega

end

end Paging
