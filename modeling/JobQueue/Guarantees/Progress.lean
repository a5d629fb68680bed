import JobQueue.Model.Batch
import JobQueue.System.History

/-!
# Progress of a batch attempt

The values of `progress_pct` that are committed between the claim of a batch job and the
commit that completes it. Only the worker that holds the job writes the column, and neither
the claim nor a retry resets it: the first value is what the attempts before have left. The
values rise to the full hundred, which they reach with the last item, just if the first
report is not below that value and the list is not of an astronomic length
(`batch_progress_rises_iff`).
-/

namespace JobQueue

open Relational Transition

variable {settings : Settings} {s s' s₀ : State} {a : Action} {tr : List (State × Action)}
  {j : UUID} {w : WorkerId} {row row' : Job} {behaviour : Behaviour}

/-! ## An attempt at a batch job -/

/-- `job.payload.get("items")` is the list `items`. -/
def Json.HasItems (payload : Json) (items : List Json) : Prop :=
  ∃ fields, payload = .obj fields ∧ fields.lookup "items" = some (.arr items)

/-- A report of worker `w`. -/
def reports (w : WorkerId) (e : State × Action) : Bool :=
  match e.2 with
  | .worker v (.report _) => v = w
  | _ => false

/-- Worker `w` runs a handler that behaves as `behaviour`, where `past` is what has happened
since its claim. An exception may cut the handler short. -/
def performs (w : WorkerId) (behaviour : Behaviour) (past : List (State × Action)) (_ : State) :
    Action → Bool
  | .worker v (.report pct) => v = w → behaviour.reports[past.countP (reports w)]? = some pct
  | .worker v (.finish result _) =>
      v = w → past.countP (reports w) = behaviour.reports.length ∧
        behaviour.ending = .returns result
  | _ => true

/-- What happens from the claim of batch job `j`, found as `row`, by worker `w` to the commit
by which it completes the job. No other worker has the job in hand meanwhile. -/
structure BatchAttempt (settings : Settings) (w : WorkerId) (j : UUID) (row : Job)
    (tr : List (State × Action)) (s : State) : Prop where
  claimed : ∃ now past s₀ began clock s₁, Run (step settings) (State.initial now) past s₀ ∧
    s₀.row j = some row ∧ claims j (s₀, .worker w (.claim began clock)) = true ∧
    step settings s₀ (.worker w (.claim began clock)) = some s₁ ∧ Run (step settings) s₁ tr s
  batch : row.jobType = .batch
  handler : Throughout (fun past s a => performs w (Batch.run row.payload) past s a = true) tr
  alone : ∀ e ∈ tr, ∀ v m, e.1.inHand v = some m → m.id = j → v = w
  completes : ∃ past s₃, tr = past ++ [(s₃, .worker w .commit)] ∧
    finalises j .completed (s₃, .worker w .commit) = true ∧
    ∀ e ∈ past, e.2 ≠ .worker w .commit

def State.progress (s : State) (j : UUID) : Option Int := (s.row j).map Job.progressPct

/-- The committed values of `progress_pct` in the states of a history that ends in `s`. -/
def committed (j : UUID) (tr : List (State × Action)) (s : State) : List Int :=
  (tr.map Prod.fst ++ [s]).filterMap fun s => s.progress j

/-- The progress of worker `w` at a job of so many items is monotone. -/
structure Rises (w : WorkerId) (j : UUID) (total : Nat) (tr : List (State × Action))
    (s : State) : Prop where
  bounds : ∀ v ∈ committed j tr s, 0 ≤ v ∧ v ≤ 100
  monotone : (committed j tr s).Pairwise (· ≤ ·)
  /-- No hundred before the report that follows the last item. -/
  early : ∀ past e future, tr = past ++ e :: future → past.countP (reports w) < total →
    ∀ v, e.1.progress j = some v → v < 100
  final : s.progress j = some 100

/-! ## Who writes the progress of a job -/

/-- The finalising commit writes the full hundred, or leaves the progress alone. -/
theorem finalising_progress {m : Mapped} (hshaped : s.Shaped settings)
    (hfinalising : (s.workers w).executor = .finalising m) :
    m.current.progressPct = 100 ∨
      (m.current.progressPct = m.loaded.progressPct ∧ m.current.status ≠ .completed) := by
  have hshape := hshaped.executor w
  rw [hfinalising] at hshape
  obtain ⟨_, ⟨clock, result, hcurrent⟩ | ⟨clock, raised, hcurrent⟩⟩ := hshape
  · exact Or.inl (by rw [hcurrent]; rfl)
  · right
    rw [hcurrent, Raised.apply]
    constructor
    · unfold applyFailure
      split <;> rfl
    · rw [applyFailure_status]
      split <;> simp

/-- The progress of a row changes by a report or a finalising commit of a worker that has
the job in hand. -/
theorem progress_step (hshaped : s.Shaped settings) (hstep : step settings s a = some s')
    (hrow : s.row j = some row) (hrow' : s'.row j = some row') :
    row'.progressPct = row.progressPct ∨ ∃ v m, s.inHand v = some m ∧ m.id = j ∧
      (a = .worker v .commit ∨ ∃ pct, a = .worker v (.report pct)) ∧
      0 ≤ row'.progressPct ∧ row'.progressPct ≤ 100 := by
  obtain ⟨row₁, hrow₁, hcase⟩ := row_step hstep hrow
  rw [hrow'] at hrow₁
  cases hrow₁
  rcases hcase with rfl | hchange
  · exact Or.inl rfl
  · cases hchange with
    | @report v pct m _ hexecuting hid =>
      have hwritten : ({ m with current := reportProgress pct m.current }.flush row).progressPct =
          written m.loaded.progressPct (max 0 (min 100 pct)) row.progressPct := rfl
      rw [hwritten, written]
      split
      · exact Or.inl rfl
      · refine Or.inr ⟨v, m, ?_, hid, Or.inr ⟨pct, rfl⟩, ?_, ?_⟩
        · exact inHand_of_executing hexecuting
        · omega
        · omega
    | @finalise v m _ hfinalising hid =>
      have hwritten : (m.flush row).progressPct =
          written m.loaded.progressPct m.current.progressPct row.progressPct := rfl
      rw [hwritten]
      rcases finalising_progress hshaped hfinalising with hfull | ⟨hsame, _⟩
      · rw [hfull, written]
        split
        · exact Or.inl rfl
        · exact Or.inr ⟨v, m, inHand_of_finalising hfinalising, hid, Or.inl rfl, by norm_num,
            by norm_num⟩
      · rw [hsame, written_self]
        exact Or.inl rfl
    | @cancel c m _ hcancelling hid =>
      have hshape := hshaped.call c
      rw [hcancelling] at hshape
      left
      simp [Mapped.flush, hshape.2, cancelJob]
    | @retry c m _ hretrying hid =>
      have hshape := hshaped.call c
      rw [hretrying] at hshape
      obtain ⟨_, clock, hcurrent⟩ := hshape
      left
      simp [Mapped.flush, hcurrent, manualRetry]
    | claim | renew | promote | reap | cleanup => exact Or.inl rfl

/-- Every row shows a percentage. -/
theorem progress_of_run {now : Timestamp} (hrun : Run (step settings) (State.initial now) tr s)
    (hrow : s.row j = some row) : 0 ≤ row.progressPct ∧ row.progressPct ≤ 100 := by
  induction hrun generalizing row with
  | nil => cases hrow
  | @snoc tr s a s' hrun hstep ih =>
    have hshaped := shaped_of_run (State.quiet_initial now) hrun
    cases hold : s.row j with
    | none =>
      obtain ⟨_, _, data, key, t, rfl⟩ := new_row hshaped hstep hold hrow
      exact ⟨le_rfl, by norm_num [newJob]⟩
    | some old =>
      rcases progress_step hshaped hstep hold hrow with hsame | ⟨_, _, _, _, _, hbounds⟩
      · rw [hsame]
        exact ih hold
      · exact hbounds

/-! ## Values along a history -/

/-- A history is cut where a count has reached a given number. -/
theorem exists_prefix_countP {α : Type} {q : α → Bool} {l : List α} {k : Nat}
    (hk : k ≤ l.countP q) : ∃ past future, l = past ++ future ∧ past.countP q = k := by
  induction l generalizing k with
  | nil => exact ⟨[], [], rfl, (Nat.le_zero.mp hk).symm⟩
  | cons x l ih =>
    cases k with
    | zero => exact ⟨[], x :: l, rfl, rfl⟩
    | succ k =>
      rw [List.countP_cons] at hk
      by_cases hx : q x = true
      · rw [if_pos hx] at hk
        obtain ⟨past, future, rfl, hcount⟩ := ih (Nat.le_of_succ_le_succ hk)
        exact ⟨x :: past, future, rfl, by rw [List.countP_cons, hcount, if_pos hx]⟩
      · rw [if_neg hx] at hk
        obtain ⟨past, future, rfl, hcount⟩ := ih hk
        exact ⟨x :: past, future, rfl, by rw [List.countP_cons, hcount, if_neg hx]⟩

theorem le_of_pairwise {l : List Int} (h : l.Pairwise (· ≤ ·)) {i k : Nat} (hik : i ≤ k)
    {x y : Int} (hx : l[i]? = some x) (hy : l[k]? = some y) : x ≤ y := by
  obtain ⟨hi, rfl⟩ := List.getElem?_eq_some_iff.mp hx
  obtain ⟨hk, rfl⟩ := List.getElem?_eq_some_iff.mp hy
  rcases hik.eq_or_lt with rfl | hlt
  · exact le_rfl
  · exact List.pairwise_iff_getElem.mp h i k hi hk hlt

/-- If the progress in each state is the level that a count of its past selects, then it does
not decrease where the levels do not. -/
theorem committed_pairwise {l : List Int} {q : State × Action → Bool}
    (hlevel : ∀ past e future, tr = past ++ e :: future → e.1.progress j = l[past.countP q]?)
    (hlast : s.progress j = some 100) (hpairwise : l.Pairwise (· ≤ ·)) (hle : ∀ v ∈ l, v ≤ 100) :
    (committed j tr s).Pairwise (· ≤ ·) := by
  have hat : ∀ i (hi : i < tr.length), tr[i].1.progress j = l[(tr.take i).countP q]? := by
    intro i hi
    exact hlevel (tr.take i) tr[i] (tr.drop (i + 1)) (by simp)
  unfold committed
  rw [List.pairwise_filterMap, List.pairwise_append, List.pairwise_map,
    List.pairwise_iff_getElem]
  refine ⟨?_, List.pairwise_singleton _ _, ?_⟩
  · intro i k hi hk hik x hx y hy
    rw [hat i hi] at hx
    rw [hat k hk] at hy
    exact le_of_pairwise hpairwise ((List.take_sublist_take_left hik.le).countP_le) hx hy
  · intro t ht t' ht' x hx y hy
    obtain ⟨e, he, rfl⟩ := List.mem_map.mp ht
    obtain ⟨i, hi, rfl⟩ := List.getElem_of_mem he
    rw [List.mem_singleton.mp ht', hlast] at hy
    rw [hat i hi] at hx
    cases hy
    exact hle x (List.mem_of_getElem? hx)

theorem mem_committed {v : Int} (h : v ∈ committed j tr s) :
    (∃ past e future, tr = past ++ e :: future ∧ e.1.progress j = some v) ∨
      s.progress j = some v := by
  obtain ⟨t, ht, hv⟩ := List.mem_filterMap.mp h
  rcases List.mem_append.mp ht with ht | ht
  · obtain ⟨e, he, rfl⟩ := List.mem_map.mp ht
    obtain ⟨past, future, rfl⟩ := List.append_of_mem he
    exact Or.inl ⟨past, e, future, rfl, hv⟩
  · rw [List.mem_singleton.mp ht] at hv
    exact Or.inr hv

/-! ## The attempt under way -/

/-- What an attempt commits: the progress it finds, then each report as clamped. -/
def levels (left : Int) (reports : List Int) : List Int :=
  left :: reports.map fun pct => max 0 (min 100 pct)

/-- Worker `w` has job `j` in hand and has made the reports of the history `tr` since its
claim. -/
structure Underway (w : WorkerId) (j : UUID) (left : Int) (behaviour : Behaviour)
    (tr : List (State × Action)) (s : State) : Prop where
  level : ∃ m row, s.inHand w = some m ∧ m.id = j ∧ s.row j = some row ∧
    row.progressPct = m.loaded.progressPct ∧
    (levels left behaviour.reports)[tr.countP (reports w)]? = some row.progressPct
  done : ∀ m, (s.workers w).executor = .finalising m → m.current.status = .completed →
    tr.countP (reports w) = behaviour.reports.length

theorem not_reports (h : ∀ pct, a ≠ .worker w (.report pct)) : reports w (s, a) = false := by
  unfold reports
  split
  · rename_i v pct heq
    exact decide_eq_false fun hv => h pct (hv ▸ heq)
  · rfl

/-- A worker keeps its job until it commits or dies. -/
theorem inHand_kept {m : Mapped} (hm : s.inHand w = some m) (hcommit : a ≠ .worker w .commit)
    (hcrash : a ≠ .worker w .crash) (hstep : step settings s a = some s') :
    ∃ m', s'.inHand w = some m' ∧ m'.id = m.id := by
  rw [State.inHand] at hm
  rcases worker_move hstep w with ⟨_, heq⟩ | ⟨b, rfl, hmove⟩
  · exact ⟨m, by rw [State.inHand, heq]; exact hm, rfl⟩
  · cases hmove with
    | pop hphase _ _ _ | empty hphase _ _ _ | claim hphase _ _ _ _ _ | skip hphase _ _ _ _
    | deadLetter hphase _ _ =>
      rw [hphase] at hm
      cases hm
    | start hphase _ hworker | report hphase _ _ hworker | finish hphase _ hworker
    | fail hphase _ hworker =>
      rw [hphase] at hm
      cases hm
      rw [State.inHand, hworker]
      exact ⟨_, rfl, rfl⟩
    | beat _ _ _ hworker | rest _ _ _ hworker | renew _ _ hworker | settle _ _ hworker =>
      exact ⟨m, by rw [State.inHand, hworker]; exact hm, rfl⟩
    | commit | commitFailed => exact absurd rfl hcommit
    | crash => exact absurd rfl hcrash

/-- A worker about to complete a job has made every report of its handler. -/
theorem done_step (hperforms : performs w behaviour tr s a = true)
    (hdone : ∀ m, (s.workers w).executor = .finalising m → m.current.status = .completed →
      tr.countP (reports w) = behaviour.reports.length)
    (hstep : step settings s a = some s') {m : Mapped}
    (hfinalising : (s'.workers w).executor = .finalising m)
    (hcompleted : m.current.status = .completed) :
    (tr ++ [(s, a)]).countP (reports w) = behaviour.reports.length := by
  rw [List.countP_append, List.countP_singleton]
  rcases finalising_step hstep hfinalising with
    ⟨hbefore, hsilent⟩ | ⟨n, hexecuting, ⟨result, clock, rfl, _⟩ | ⟨raised, clock, rfl, rfl⟩⟩
  · simp [not_reports hsilent, hdone m hbefore hcompleted]
  · simp only [performs, true_implies, decide_eq_true_eq] at hperforms
    simp [reports, hperforms.1]
  · -- a failed attempt completes nothing
    simp only [Raised.apply, applyFailure_status] at hcompleted
    split at hcompleted <;> cases hcompleted

theorem underway_step {left : Int} (h : Underway w j left behaviour tr s)
    (hshaped : s.Shaped settings) (hperforms : performs w behaviour tr s a = true)
    (halone : ∀ v m, s.inHand v = some m → m.id = j → v = w)
    (hcommit : a ≠ .worker w .commit) (hcrash : a ≠ .worker w .crash)
    (hstep : step settings s a = some s') : Underway w j left behaviour (tr ++ [(s, a)]) s' := by
  refine ⟨?_, fun m => done_step hperforms h.done hstep⟩
  obtain ⟨m, row, hm, hid, hrow, hloaded, hlevel⟩ := h.level
  obtain ⟨m', hm', hid'⟩ := inHand_kept hm hcommit hcrash hstep
  obtain ⟨row', hrow', _⟩ := row_step hstep hrow
  refine ⟨m', row', hm', hid'.trans hid, hrow', ?_⟩
  rw [List.countP_append, List.countP_singleton]
  rcases inHand_step hstep hm' with
    ⟨_, _, _, _, hpopped, _⟩ | ⟨n, hn, _, _, ⟨hsame, hsilent⟩ | ⟨pct, rfl, hexecuting, hreport⟩⟩
  · rw [State.inHand, hpopped] at hm
    cases hm
  · obtain rfl : n = m := Option.some.inj (hn.symm.trans hm)
    have hkept : row'.progressPct = row.progressPct := by
      rcases progress_step hshaped hstep hrow hrow' with hkept | ⟨v, n, hn, hid, ha, _⟩
      · exact hkept
      · -- a worker that writes the row has the job in hand, so it is `w`
        obtain rfl := halone v n hn hid
        rcases ha with rfl | ⟨pct, rfl⟩
        · exact absurd rfl hcommit
        · exact absurd rfl (hsilent pct)
    rw [hkept, hsame, not_reports hsilent]
    exact ⟨hloaded, hlevel⟩
  · have hinHand : s.inHand w = some n := hn
    obtain rfl : n = m := Option.some.inj (hinHand.symm.trans hm)
    have hshape := hshaped.executor w
    rw [hexecuting] at hshape
    have hwritten := report_row hstep hexecuting
    rw [hid, hrow, hrow'] at hwritten
    have hprogress : row'.progressPct = max 0 (min 100 pct) := by
      rw [Option.some.inj hwritten]
      show written n.loaded.progressPct (max 0 (min 100 pct)) row.progressPct = _
      rw [hloaded, written_fresh]
    have hnext : behaviour.reports[tr.countP (reports w)]? = some pct := by
      simpa [performs] using hperforms
    rw [hprogress, hreport]
    refine ⟨rfl, ?_⟩
    simp [levels, reports, hnext]

/-- A dead worker stays dead. -/
theorem not_crash_of_run (hrun : Run (step settings) s₀ tr s)
    (hlive : (s.workers w).executor ≠ .crashed) : ∀ e ∈ tr, e.2 ≠ .worker w .crash := by
  induction hrun with
  | nil => simp
  | @snoc tr s a s' hrun hstep ih =>
    have hbefore : (s.workers w).executor ≠ .crashed ∧ a ≠ .worker w .crash := by
      rcases worker_move hstep w with ⟨hother, heq⟩ | ⟨b, rfl, hmove⟩
      · rw [heq] at hlive
        exact ⟨hlive, hother .crash⟩
      · cases hmove with
        | pop hphase | empty hphase | claim hphase | skip hphase | start hphase
        | report hphase | finish hphase | fail hphase | commit hphase | commitFailed hphase
        | deadLetter hphase =>
          rw [hphase]
          simp
        | beat _ _ _ hworker | rest _ _ _ hworker | renew _ _ hworker | settle _ _ hworker =>
          rw [hworker] at hlive
          exact ⟨hlive, by simp⟩
        | crash _ hworker =>
          rw [hworker] at hlive
          exact absurd rfl hlive
    intro e he
    rcases List.mem_append.mp he with he | he
    · exact ih hbefore.1 e he
    · rw [List.mem_singleton.mp he]
      exact hbefore.2

theorem underway_claim {began clock : Timestamp} (hrow : s.row j = some row)
    (hclaims : claims j (s, .worker w (.claim began clock)) = true)
    (hstep : step settings s (.worker w (.claim began clock)) = some s') :
    Underway w j row.progressPct behaviour [] s' := by
  obtain ⟨_, _, _, row₁, heq, hpopped, hrow₁, hready⟩ := claims_iff.mp hclaims
  cases heq
  rw [hrow] at hrow₁
  cases hrow₁
  cases own_move hstep with
  | @claim _ _ jobId row₂ hpopped' _ hrow₂ _ hstore hworker =>
    rw [hpopped] at hpopped'
    cases hpopped'
    obtain rfl : row₂ = row := Option.some.inj (hrow₂.symm.trans hrow)
    refine ⟨⟨_, _, by rw [State.inHand, hworker]; rfl, rfl, ?_, rfl, rfl⟩, ?_⟩
    · rw [State.row, hstore]
      exact AList.lookup_insert _
    · intro m hfinalising
      rw [hworker] at hfinalising
      cases hfinalising
  | skip hpopped' _ hnot _ _ =>
    rw [hpopped] at hpopped'
    cases hpopped'
    rw [hnot row hrow] at hready
    cases hready

namespace BatchAttempt

/-- The attempt is under way in every state of its history. -/
theorem underway (h : BatchAttempt settings w j row tr s) {past future : List (State × Action)}
    {e : State × Action} (htr : tr = past ++ e :: future) :
    e.1.Shaped settings ∧ Underway w j row.progressPct (Batch.run row.payload) past e.1 := by
  obtain ⟨now, before, s₀, began, clock, s₁, hrun₀, hrow, hclaims, hstep, hrun⟩ := h.claimed
  obtain ⟨past', s₃, htr', hfinalises, hcommits⟩ := h.completes
  have hshaped₁ : s₁.Shaped settings :=
    shaped_step (shaped_of_run (State.quiet_initial now) hrun₀) hstep
  -- no step before the last one commits or kills the worker
  have hcrashes : ∀ x ∈ past', x.2 ≠ .worker w .crash := by
    subst htr'
    apply not_crash_of_run hrun.last.1
    obtain ⟨_, m, heq, hfinalising, _⟩ := finalises_iff.mp hfinalises
    cases heq
    rw [hfinalising]
    simp
  have hearlier : ∀ x ∈ past, x ∈ past' := by
    intro x hx
    rcases List.eq_nil_or_concat future with rfl | ⟨future, last, rfl⟩
    · obtain ⟨rfl, _⟩ := List.append_inj' (htr'.symm.trans htr) rfl
      exact hx
    · rw [List.concat_eq_append, ← List.cons_append, ← List.append_assoc] at htr
      obtain ⟨rfl, _⟩ := List.append_inj' (htr'.symm.trans htr) rfl
      exact List.mem_append_left _ hx
  have hhandler := h.handler
  have halone := h.alone
  subst htr
  obtain ⟨_, hrun', _, _⟩ := hrun.split
  refine hrun'.induct_past
    (C := fun past s a => performs w (Batch.run row.payload) past s a = true ∧
      (∀ v m, s.inHand v = some m → m.id = j → v = w) ∧ a ≠ .worker w .commit ∧
      a ≠ .worker w .crash)
    (I := fun past s => s.Shaped settings ∧
      Underway w j row.progressPct (Batch.run row.payload) past s) ?_
    ⟨hshaped₁, underway_claim hrow hclaims hstep⟩ ?_
  · rintro before' x after rfl
    have hx : x ∈ before' ++ x :: after := by simp
    have hperforms := Throughout.prefix hhandler before' x after rfl
    exact ⟨hperforms, halone x (List.mem_append_left _ hx),
      hcommits x (hearlier x hx), hcrashes x (hearlier x hx)⟩
  · intro tr s a s' _ _ ⟨hshaped, hunderway⟩ ⟨hperforms, halone, hcommit, hcrash⟩ hstep
    exact ⟨shaped_step hshaped hstep,
      underway_step hunderway hshaped hperforms halone hcommit hcrash hstep⟩

theorem progress_eq (h : BatchAttempt settings w j row tr s) {past future : List (State × Action)}
    {e : State × Action} (htr : tr = past ++ e :: future) :
    e.1.progress j =
      (levels row.progressPct (Batch.run row.payload).reports)[past.countP (reports w)]? := by
  obtain ⟨_, row', _, _, hrow', _, hlevel⟩ := (h.underway htr).2.level
  rw [hlevel, State.progress, hrow', Option.map_some]

theorem progress_last (h : BatchAttempt settings w j row tr s) :
    s.progress j = some 100 ∧
      tr.countP (reports w) = (Batch.run row.payload).reports.length := by
  obtain ⟨_, _, _, _, _, _, _, _, _, _, hrun⟩ := h.claimed
  obtain ⟨past, s₃, rfl, hfinalises, _⟩ := h.completes
  obtain ⟨_, m, heq, hfinalising, hid, hstatus⟩ := finalises_iff.mp hfinalises
  cases heq
  obtain ⟨hshaped, hunderway⟩ := h.underway rfl
  obtain ⟨n, row', hn, _, hrow', hloaded, _⟩ := hunderway.level
  have hm : s₃.inHand w = some m := inHand_of_finalising hfinalising
  obtain rfl : n = m := Option.some.inj (hn.symm.trans hm)
  constructor
  · have hwritten := finalise_row hrun.last.2 hfinalising
    rw [hid, hrow'] at hwritten
    rw [State.progress, hwritten, Option.map_some, Option.map_some]
    congr 1
    show written n.loaded.progressPct n.current.progressPct row'.progressPct = 100
    rw [hloaded, written_fresh]
    rcases finalising_progress hshaped hfinalising with hfull | ⟨_, hnot⟩
    · exact hfull
    · exact absurd hstatus hnot
  · rw [List.countP_append, hunderway.done n hfinalising hstatus]
    simp [reports]

/-- Every number of reports is reached in some state. -/
theorem exists_level (h : BatchAttempt settings w j row tr s) {k : Nat}
    (hk : k ≤ (Batch.run row.payload).reports.length) :
    ∃ past e future, tr = past ++ e :: future ∧ past.countP (reports w) = k := by
  have hcount := h.progress_last.2
  obtain ⟨past, s₃, rfl, _⟩ := h.completes
  rw [List.countP_append, show List.countP (reports w) [(s₃, .worker w .commit)] = 0 from rfl,
    Nat.add_zero] at hcount
  obtain ⟨before, after, rfl, hbefore⟩ := exists_prefix_countP (hcount ▸ hk)
  cases after with
  | nil => exact ⟨before, _, [], by rw [List.append_nil], hbefore⟩
  | cons e after => exact ⟨before, e, _, by rw [List.append_assoc, List.cons_append], hbefore⟩

end BatchAttempt

/-! ## The levels of a batch -/

section

variable {payload : Json} {items : List Json} {left : Int} {i : Nat}

theorem reports_of_items (hitems : payload.HasItems items) (hne : items ≠ []) :
    (Batch.run payload).reports =
      (List.range items.length).map (Batch.itemPercent items.length) := by
  obtain ⟨fields, rfl, hlookup⟩ := hitems
  have hlength : items.length ≠ 0 := fun h => hne (List.eq_nil_of_length_eq_zero h)
  simp [Batch.run, hlookup, hlength]

theorem reports_of_no_items (hitems : payload.HasItems []) :
    (Batch.run payload).reports = [100] := by
  obtain ⟨fields, rfl, hlookup⟩ := hitems
  simp [Batch.run, hlookup]

/-- The percentages need no clamping. -/
theorem levels_of_items (hitems : payload.HasItems items) (hne : items ≠ []) :
    levels left (Batch.run payload).reports =
      left :: (List.range items.length).map (Batch.itemPercent items.length) := by
  rw [levels, reports_of_items hitems hne, List.map_map]
  congr 1
  apply List.map_congr_left
  intro i hi
  have hle := Batch.itemPercent_le (List.mem_range.mp hi)
  have hnonneg := Batch.itemPercent_nonneg items.length i
  simp only [Function.comp_apply]
  omega

theorem level_of_item (hitems : payload.HasItems items) (hne : items ≠ [])
    (hi : i < items.length) :
    (levels left (Batch.run payload).reports)[i + 1]? =
      some (Batch.itemPercent items.length i) := by
  simp [levels_of_items hitems hne, hi]

/-- The levels of a batch that finds no more progress than it reports first. -/
theorem levels_pairwise (hitems : payload.HasItems items) (hne : items ≠ [])
    (hleft : left ≤ Batch.itemPercent items.length 0) :
    (levels left (Batch.run payload).reports).Pairwise (· ≤ ·) := by
  rw [levels_of_items hitems hne, List.pairwise_cons, List.pairwise_map]
  constructor
  · intro v hv
    obtain ⟨i, _, rfl⟩ := List.mem_map.mp hv
    exact hleft.trans (Batch.itemPercent_mono _ (Nat.zero_le i))
  · apply List.pairwise_lt_range.imp
    intro i k hlt
    exact Batch.itemPercent_mono _ hlt.le

theorem mem_levels {reports : List Int} {v : Int} (hleft : 0 ≤ left ∧ left ≤ 100)
    (hv : v ∈ levels left reports) : 0 ≤ v ∧ v ≤ 100 := by
  rcases List.mem_cons.mp hv with rfl | hv
  · exact hleft
  · obtain ⟨pct, _, rfl⟩ := List.mem_map.mp hv
    constructor <;> omega

end

/-! ## The guarantee -/

namespace BatchAttempt

variable {items : List Json}

/-- What the row shows when the attempt begins. -/
theorem left_bounds (h : BatchAttempt settings w j row tr s) :
    0 ≤ row.progressPct ∧ row.progressPct ≤ 100 := by
  obtain ⟨_, _, _, _, _, _, hrun, hrow, _⟩ := h.claimed
  exact progress_of_run hrun hrow

theorem bounds (h : BatchAttempt settings w j row tr s) :
    ∀ v ∈ committed j tr s, 0 ≤ v ∧ v ≤ 100 := by
  intro v hv
  rcases mem_committed hv with ⟨past, e, future, htr, hv⟩ | hv
  · rw [h.progress_eq htr] at hv
    exact mem_levels h.left_bounds (List.mem_of_getElem? hv)
  · rw [h.progress_last.1] at hv
    cases hv
    exact ⟨by norm_num, le_rfl⟩

theorem monotone (h : BatchAttempt settings w j row tr s)
    (hlevels : (levels row.progressPct (Batch.run row.payload).reports).Pairwise (· ≤ ·)) :
    (committed j tr s).Pairwise (· ≤ ·) :=
  committed_pairwise (fun _ _ _ => h.progress_eq) h.progress_last.1 hlevels
    fun _ hv => (mem_levels h.left_bounds hv).2

/-- A state in which so many reports have been made shows the value of the level. -/
theorem exists_shown (h : BatchAttempt settings w j row tr s) {k : Nat} {v : Int}
    (hlevel : (levels row.progressPct (Batch.run row.payload).reports)[k]? = some v) :
    ∃ past e future, tr = past ++ e :: future ∧ past.countP (reports w) = k ∧
      e.1.progress j = some v := by
  obtain ⟨hk, _⟩ := List.getElem?_eq_some_iff.mp hlevel
  have hk' : k ≤ (Batch.run row.payload).reports.length := by
    simp only [levels, List.length_cons, List.length_map] at hk
    omega
  obtain ⟨past, e, future, htr, hcount⟩ := h.exists_level hk'
  exact ⟨past, e, future, htr, hcount, by rw [h.progress_eq htr, hcount, hlevel]⟩

/-- If the progress is monotone, then the first report is not below what it finds. -/
theorem left_le (h : BatchAttempt settings w j row tr s)
    (hmonotone : (committed j tr s).Pairwise (· ≤ ·)) {v : Int}
    (hlevel : (levels row.progressPct (Batch.run row.payload).reports)[1]? = some v) :
    row.progressPct ≤ v := by
  obtain ⟨past, e, future, rfl, hcount, hv⟩ := h.exists_shown hlevel
  cases past with
  | nil => cases hcount
  | cons first past =>
    have hfirst : first.1.progress j = some row.progressPct := by
      rw [h.progress_eq (List.nil_append _).symm]
      rfl
    unfold committed at hmonotone
    rw [List.pairwise_filterMap] at hmonotone
    simp only [List.cons_append, List.map_cons, List.pairwise_cons] at hmonotone
    exact hmonotone.1 e.1 (by simp) _ hfirst v hv

end BatchAttempt

/-- The progress of an attempt is monotone just if the list is empty or the progress its claim
finds is at most the share of one item, and not yet the hundred. -/
theorem batch_progress_rises_iff {items : List Json} (h : BatchAttempt settings w j row tr s)
    (hitems : row.payload.HasItems items) :
    Rises w j items.length tr s ↔ items = [] ∨
      (row.progressPct * items.length ≤ 100 ∧ row.progressPct < 100 ∧
        items.length < 100 * 2 ^ 47) := by
  by_cases hne : items = []
  · subst hne
    refine iff_of_true ⟨h.bounds, h.monotone ?_, ?_, h.progress_last.1⟩ (Or.inl rfl)
    · rw [levels, reports_of_no_items hitems]
      simpa using h.left_bounds.2
    · intro past e future _ hcount
      cases hcount
  · have hpos : 0 < items.length := List.length_pos_iff.mpr hne
    have hfirst := Batch.le_first_iff h.left_bounds.1 hpos
    constructor
    · intro hrises
      right
      refine ⟨?_, ?_, ?_⟩
      · apply hfirst.mp
        exact h.left_le hrises.monotone (level_of_item hitems hne hpos)
      · obtain ⟨past, e, future, htr, hcount, hv⟩ :=
          h.exists_shown (k := 0) (v := row.progressPct) rfl
        exact hrises.early past e future htr (by omega) _ hv
      · by_cases hone : items.length = 1
        · omega
        · -- the state that shows the report before the last one
          have hlast : (levels row.progressPct
              (Batch.run row.payload).reports)[items.length - 2 + 1]? =
                some (Batch.itemPercent items.length (items.length - 2)) :=
            level_of_item hitems hne (by omega)
          obtain ⟨past, e, future, htr, hcount, hv⟩ := h.exists_shown hlast
          rw [← Batch.itemPercent_lt_iff (i := items.length - 2) (by omega)]
          exact hrises.early past e future htr (by omega) _ hv
    · rintro (hnil | ⟨hleft, hhundred, hlength⟩)
      · exact absurd hnil hne
      · refine ⟨h.bounds, h.monotone ?_, ?_, h.progress_last.1⟩
        · exact levels_pairwise hitems hne (hfirst.mpr hleft)
        · intro past e future htr hcount v hv
          rw [h.progress_eq htr] at hv
          cases hk : past.countP (reports w) with
          | zero =>
            rw [hk] at hv
            cases hv
            exact hhundred
          | succ k =>
            rw [hk, level_of_item hitems hne (by omega)] at hv
            cases hv
            calc Batch.itemPercent items.length k
                ≤ Batch.itemPercent items.length (items.length - 2) :=
                  Batch.itemPercent_mono _ (by omega)
              _ < 100 := (Batch.itemPercent_lt_iff (by omega)).mpr hlength

/-! ## Two attempts at a batch of three -/

/-- Not an action of another worker. -/
def Action.spares (w : WorkerId) : Action → Bool
  | .worker v _ => v = w
  | _ => true

/-- Where worker `w` acts alone, no other has anything in hand. -/
theorem alone_of_spares {now : Timestamp} (hrun : Run (step settings) (State.initial now) tr s)
    (hspares : ∀ e ∈ tr, e.2.spares w = true) {v : WorkerId} {m : Mapped}
    (hm : s.inHand v = some m) : v = w := by
  by_contra hne
  rw [inHand_of_not_acted (State.quiet_initial now) hrun] at hm
  · cases hm
  · intro e he b heq
    have hown := hspares e he
    simp only [heq, Action.spares, decide_eq_true_eq] at hown
    exact hne hown

/-- The attempt of a worker that acts alone: `before` leads to its claim and `middle` from
there to the completing commit, while `check` is computed of the row the claim finds. -/
theorem exists_batchAttempt (w : WorkerId) (j : UUID) (before middle : List Action)
    (began clock : Timestamp) (check : Job → Bool)
    (hspares : ∀ a ∈ before ++ middle, a.spares w = true)
    (hcommit : ∀ a ∈ middle, a ≠ .worker w .commit)
    (h : (exec (step {}) (State.initial 0) before).any (fun r₀ =>
      claims j (r₀.2, .worker w (.claim began clock)) ∧ (r₀.2.row j).any fun row =>
        row.jobType = .batch ∧ check row ∧
        (step {} r₀.2 (.worker w (.claim began clock))).any fun s₁ =>
          (exec (step {}) s₁ middle).any fun r =>
            throughout (performs w (Batch.run row.payload)) [] (r.1 ++ [(r.2, .worker w .commit)]) ∧
            finalises j .completed (r.2, .worker w .commit) ∧
            (step {} r.2 (.worker w .commit)).isSome) = true) :
    ∃ row tr s, BatchAttempt {} w j row tr s ∧ check row = true := by
  simp only [Option.any_eq_true, decide_eq_true_eq, Option.isSome_iff_exists] at h
  obtain ⟨⟨past, s₀⟩, hpast, hclaims, row, hrow, hbatch, hcheck, s₁, hclaim, ⟨mid, s₃⟩, hmid,
    hhandler, hfinalises, s, hlast⟩ := h
  have hrun₀ := run_of_exec hpast
  have hrun := (run_of_exec hmid).snoc hlast
  refine ⟨row, mid ++ [(s₃, .worker w .commit)], s,
    ⟨⟨0, past, s₀, began, clock, s₁, hrun₀, hrow, hclaims, hclaim, hrun⟩, hbatch, ?_, ?_, mid, s₃,
      rfl, hfinalises, forall_of_actions (exec_actions hmid) hcommit⟩, hcheck⟩
  · intro before e future htr
    simpa using throughout_of_check hhandler before e future htr
  · intro e he v m hm _
    obtain ⟨tr₁, tr₂, t, htr, hrun₁, _⟩ := hrun.split_of_mem he
    refine alone_of_spares ((hrun₀.snoc hclaim).append hrun₁) ?_ hm
    have hpast' : ∀ x ∈ past, x.2.spares w = true := forall_of_actions (exec_actions hpast)
      fun a ha => hspares a (List.mem_append_left _ ha)
    have hmid' : ∀ x ∈ mid, x.2.spares w = true := forall_of_actions (exec_actions hmid)
      fun a ha => hspares a (List.mem_append_right _ ha)
    intro x hx
    rcases List.mem_append.mp hx with hx | hx
    · rcases List.mem_append.mp hx with hx | hx
      · exact hpast' x hx
      · rw [List.mem_singleton.mp hx]
        simp [Action.spares]
    · have hx' : x ∈ mid ++ [(s₃, Action.worker w .commit)] := by
        rw [htr]
        exact List.mem_append_left _ hx
      rcases List.mem_append.mp hx' with hx' | hx'
      · exact hmid' x hx'
      · rw [List.mem_singleton.mp hx']
        simp [Action.spares]

def batchRequest : JobCreate :=
  { webhookRequest with
    jobType := .batch
    payload := .obj [("items", .arr [.null, .null, .null])] }

/-- The submission of a batch of three, up to the id a worker has popped. -/
def submitted : List Action :=
  [.api 0 (.submit batchRequest none), .api 0 (.insert 1), .api 0 .commit, .api 0 .command,
    .worker "w" .dequeue]

theorem hasItems_batchRequest :
    batchRequest.payload.HasItems [.null, .null, .null] := ⟨_, rfl, rfl⟩

/-- A first attempt. -/
theorem batch_progress_rises_first : ∃ row tr s, BatchAttempt {} "w" 1 row tr s ∧
    row.payload.HasItems [.null, .null, .null] ∧ Rises "w" 1 3 tr s := by
  obtain ⟨row, tr, s, h, hcheck⟩ := exists_batchAttempt "w" 1 submitted
    [.worker "w" .start, .worker "w" (.report 33), .worker "w" (.report 66),
      .worker "w" (.report 100), .worker "w" (.finish (Batch.processed 3) 0)] 0 0
    (fun row => row.payload = batchRequest.payload ∧ row.progressPct = 0)
    (by simp [submitted, Action.spares]) (by simp) (by decide +kernel)
  rw [decide_eq_true_eq] at hcheck
  have hitems : row.payload.HasItems [.null, .null, .null] :=
    hcheck.1 ▸ hasItems_batchRequest
  refine ⟨row, tr, s, h, hitems, (batch_progress_rises_iff h hitems).mpr (Or.inr ?_)⟩
  rw [hcheck.2]
  decide

/-- The first attempt reports two of the three items and times out. The second finds 66
percent in the row and commits 33 next. -/
theorem second_attempt_falls_back : ∃ row tr s, BatchAttempt {} "w" 1 row tr s ∧
    row.payload.HasItems [.null, .null, .null] ∧ ¬ Rises "w" 1 3 tr s := by
  obtain ⟨row, tr, s, h, hcheck⟩ := exists_batchAttempt "w" 1
    (submitted ++ [.worker "w" (.claim 0 0), .worker "w" .start, .worker "w" (.report 33),
      .worker "w" (.report 66), .worker "w" (.fail .timeout 0), .worker "w" .commit,
      .tick 200000000, .maintenance (.feederSelect 10 [1]), .maintenance .feederPush,
      .worker "w" .dequeue])
    [.worker "w" .start, .worker "w" (.report 33), .worker "w" (.report 66),
      .worker "w" (.report 100), .worker "w" (.finish (Batch.processed 3) 0)] 200000000 200000000
    (fun row => row.payload = batchRequest.payload ∧ row.progressPct = 66)
    (by simp [submitted, Action.spares]) (by simp) (by decide +kernel)
  rw [decide_eq_true_eq] at hcheck
  have hitems : row.payload.HasItems [.null, .null, .null] :=
    hcheck.1 ▸ hasItems_batchRequest
  refine ⟨row, tr, s, h, hitems, ?_⟩
  intro hrises
  have hfirst : Batch.itemPercent 3 0 = 33 := by decide +kernel
  have hfalls : row.progressPct ≤ Batch.itemPercent 3 0 :=
    h.left_le hrises.monotone (level_of_item hitems (by simp) (i := 0) (by decide))
  rw [hcheck.2, hfirst] at hfalls
  exact absurd hfalls (by decide)

end JobQueue
