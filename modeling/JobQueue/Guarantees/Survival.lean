import JobQueue.Model.Loops

/-!
# What ends the maintenance process

Of the four loops only the cleanup catches the exceptions of its call. In every interleaving
the process goes on, with all loops inside their `while`, as long as no other call has raised
and the stop is not set (`maintenance_survives_iff`). One exception of the feeder, the
scheduler or the reaper ends them all (`failed_feeder_ends_maintenance`).
-/

namespace JobQueue

open Transition LoopGroup

variable {ε : Type} {g : Group MaintenanceLoop CycleCall ε}
  {tr : List (Group MaintenanceLoop CycleCall ε × LoopGroup.Action MaintenanceLoop ε)}
  {e : Group MaintenanceLoop CycleCall ε × LoopGroup.Action MaintenanceLoop ε}

/-- The call whose exception an entry of a history shows. -/
def failedCall (e : Group MaintenanceLoop CycleCall ε × LoopGroup.Action MaintenanceLoop ε) :
    Option CycleCall :=
  match e.2 with
  | .answer l (some _) =>
      match e.1.phases l with
      | .calling call _ => some call
      | _ => none
  | _ => none

/-- The exceptions that escape from their loop are those of any call but the cleanup. -/
theorem escapes_iff (hrun : Run (LoopGroup.step maintenanceLoops) {} tr g) (he : e ∈ tr) :
    escapes maintenanceLoops e = true ↔ ∃ call, failedCall e = some call ∧ call ≠ .runCleanupOnce := by
  obtain ⟨g₁, a⟩ := e
  obtain ⟨past, _, g₂, _, hpast, hstep, _⟩ := hrun.split_of_mem he
  cases a with
  | answer l raised =>
    cases raised with
    | none => simp [escapes, failedCall]
    | some exc =>
      cases hphase : g₁.phases l with
      | calling call rest =>
        have hsuffix := suffix_of_run hpast hphase
        cases l with
        | feeder =>
          have hcall : call = .promoteReadyJobs := by
            simpa [maintenanceLoops, runFeederLoop] using hsuffix.subset List.mem_cons_self
          simp [escapes, failedCall, hphase, hcall, maintenanceLoops, runFeederLoop]
        | scheduler =>
          have hcall : call = .promoteDueScheduled ∨ call = .nextScheduledScore := by
            simpa [maintenanceLoops, runSchedulerLoop] using hsuffix.subset List.mem_cons_self
          rcases hcall with hcall | hcall <;>
            simp [escapes, failedCall, hphase, hcall, maintenanceLoops, runSchedulerLoop]
        | reaper =>
          have hcall : call = .reapExpiredLeases := by
            simpa [maintenanceLoops, runReaperLoop] using hsuffix.subset List.mem_cons_self
          simp [escapes, failedCall, hphase, hcall, maintenanceLoops, runReaperLoop]
        | cleanup =>
          have hcall : call = .runCleanupOnce := by
            simpa [maintenanceLoops, runIdempotencyCleanupLoop] using
              hsuffix.subset List.mem_cons_self
          simp [escapes, failedCall, hphase, hcall, maintenanceLoops, runIdempotencyCleanupLoop]
      | testing | waiting | returned | raised | cancelled => simp [LoopGroup.step, hphase] at hstep
  | test | wake | stop | complete | cancel => simp [escapes, failedCall]

/-! ## The guarantee -/

/-- In every run of the four loops: a loop returns only after the stop; and while the stop is
not set, all four are inside their `while` and the process has not left `gather` if and only
if no call but the cleanup has raised. -/
theorem maintenance_survives_iff (hrun : Run (LoopGroup.step maintenanceLoops) {} tr g) :
    (∀ l, g.phases l = .returned → g.stop = true) ∧
      (g.stop = false → (g.Survives ↔
        ∀ e ∈ tr, ∀ call, failedCall e = some call → call = .runCleanupOnce)) := by
  refine ⟨fun l => stop_of_returned hrun, ?_⟩
  intro hstop
  rw [survives_iff hrun hstop]
  constructor
  · intro h e he call hcall
    by_contra hne
    have hescapes := (escapes_iff hrun he).mpr ⟨call, hcall, hne⟩
    rw [h e he] at hescapes
    cases hescapes
  · intro h e he
    by_contra hescapes
    obtain ⟨call, hcall, hne⟩ := (escapes_iff hrun he).mp (Bool.eq_true_of_not_eq_false hescapes)
    exact hne (h e he call hcall)

/-- The cleanup fails, and the process goes on. -/
theorem maintenance_survives_iff_cleanup :
    ∃ (tr : List (Group MaintenanceLoop CycleCall Unit × LoopGroup.Action MaintenanceLoop Unit))
      (g : Group MaintenanceLoop CycleCall Unit), Run (LoopGroup.step maintenanceLoops) {} tr g ∧
      (∃ e ∈ tr, failedCall e = some .runCleanupOnce) ∧ g.Survives := by
  obtain ⟨tr, g, hrun, _, hcheck⟩ := run_of_check
    (LoopGroup.step (ι := MaintenanceLoop) (ε := Unit) maintenanceLoops) {}
    [.test .feeder, .test .cleanup, .answer .cleanup (some ()), .answer .feeder none,
      .wake .cleanup, .test .cleanup, .test .scheduler, .answer .scheduler none,
      .answer .scheduler none]
    (fun tr g => g.stop = false ∧ (tr.any fun e => failedCall e = some .runCleanupOnce) ∧
      tr.all fun e => (failedCall e).all fun call => call = .runCleanupOnce) (by decide +kernel)
  simp only [decide_eq_true_eq, List.any_eq_true, List.all_eq_true, Option.all_eq_true] at hcheck
  obtain ⟨hstop, hfailed, hall⟩ := hcheck
  exact ⟨tr, g, hrun, hfailed, ((maintenance_survives_iff hrun).2 hstop).mpr hall⟩

/-- A single exception of the feeder: `gather` raises, the process closes, and no loop is
left, without a stop. -/
theorem failed_feeder_ends_maintenance :
    ∃ (tr : List (Group MaintenanceLoop CycleCall Unit × LoopGroup.Action MaintenanceLoop Unit))
      (g : Group MaintenanceLoop CycleCall Unit), Run (LoopGroup.step maintenanceLoops) {} tr g ∧
      g.stop = false ∧ g.outcome.isSome ∧ ∀ l, (g.phases l).inside = false := by
  obtain ⟨tr, g, hrun, _, hcheck⟩ := run_of_check
    (LoopGroup.step (ι := MaintenanceLoop) (ε := Unit) maintenanceLoops) {}
    [.test .feeder, .test .scheduler, .test .reaper, .test .cleanup, .answer .feeder (some ()),
      .cancel .scheduler, .cancel .reaper, .cancel .cleanup]
    (fun _ g => g.stop = false ∧ g.outcome.isSome ∧ ∀ l, (g.phases l).inside = false)
    (by decide +kernel)
  simp only [decide_eq_true_eq] at hcheck
  exact ⟨tr, g, hrun, hcheck⟩

end JobQueue
