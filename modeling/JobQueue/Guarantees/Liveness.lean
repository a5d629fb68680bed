import JobQueue.Model.Heartbeats
import Mathlib.Data.List.Induction
import Mathlib.Tactic.Linarith

/-!
# Which workers are listed as alive

Every beat prunes the set of beats for all workers. The pruning removes a beat that is exactly
the time to live old, which the query still counts as recent. So the list shows the workers
with a recent beat, whatever has been pruned, unless at the time of the query a worker beats
and the last beat of another is just that old (`alive_workers_exact_iff`).
-/

namespace JobQueue

/-! ## Sequences of calls -/

/-- A call that changes the set. -/
inductive HeartbeatCall
  | beat (workerId : WorkerId) (now : ℚ)
  | offline (workerId : WorkerId)
  deriving DecidableEq

def HeartbeatCall.workerId : HeartbeatCall → WorkerId
  | .beat workerId _ | .offline workerId => workerId

/-- The time of a beat. -/
def HeartbeatCall.beatTime : HeartbeatCall → Option ℚ
  | .beat _ now => some now
  | .offline _ => none

def HeartbeatCall.apply (ttl : ℚ) (h : Heartbeats) : HeartbeatCall → Heartbeats
  | .beat workerId now => h.workerHeartbeat workerId now ttl
  | .offline workerId => h.workerOffline workerId

/-- The set after the calls in turn. -/
def heartbeats (ttl : ℚ) (calls : List HeartbeatCall) : Heartbeats :=
  calls.foldl (HeartbeatCall.apply ttl) ∅

/-- The times of the beats, in the order of the calls. -/
def beatTimes (calls : List HeartbeatCall) : List ℚ := calls.filterMap HeartbeatCall.beatTime

/-- The time of the most recent call of worker `w`, if that is a beat. -/
def lastBeat (w : WorkerId) (calls : List HeartbeatCall) : Option ℚ :=
  (calls.filter fun call => call.workerId = w).getLast?.bind HeartbeatCall.beatTime

/-- At time `now` the list shows each worker whose most recent call is a beat that is at most
`ttl` old, once and with the time of that beat, and no other worker. -/
structure ListsAlive (ttl now : ℚ) (calls : List HeartbeatCall) : Prop where
  exact : ∀ w t, (w, t) ∈ (heartbeats ttl calls).listAliveWorkers now ttl ↔
    lastBeat w calls = some t ∧ now - ttl ≤ t
  once : (((heartbeats ttl calls).listAliveWorkers now ttl).map Prod.fst).Nodup

/-! ## One more call -/

section

variable {ttl now t : ℚ} {v w : WorkerId} {calls : List HeartbeatCall} {call : HeartbeatCall}

theorem heartbeats_snoc (ttl : ℚ) (calls : List HeartbeatCall) (call : HeartbeatCall) :
    heartbeats ttl (calls ++ [call]) = call.apply ttl (heartbeats ttl calls) := by
  rw [heartbeats, List.foldl_append]
  rfl

theorem lastBeat_snoc_self (calls : List HeartbeatCall) (call : HeartbeatCall) :
    lastBeat call.workerId (calls ++ [call]) = call.beatTime := by
  simp [lastBeat, List.filter_append]

theorem lastBeat_snoc_ne (h : call.workerId ≠ w) :
    lastBeat w (calls ++ [call]) = lastBeat w calls := by
  simp [lastBeat, List.filter_append, h]

theorem beatTimes_snoc (calls : List HeartbeatCall) (call : HeartbeatCall) :
    beatTimes (calls ++ [call]) = beatTimes calls ++ call.beatTime.toList := by
  rw [beatTimes, List.filterMap_append]
  cases h : call.beatTime with
  | none => simp [beatTimes, h]
  | some t => simp [beatTimes, h]

/-! ## What the pruning leaves -/

/-- The set holds the last beats of the workers, without those that were `ttl` old or older
at some beat. -/
theorem lookup_heartbeats_iff (httl : 0 < ttl) (hordered : (beatTimes calls).Pairwise (· ≤ ·)) :
    (heartbeats ttl calls).lookup w = some t ↔
      lastBeat w calls = some t ∧ ∀ u ∈ beatTimes calls, u - ttl < t := by
  induction calls using List.reverseRecOn generalizing t with
  | nil => simp [heartbeats, lastBeat]
  | append_singleton calls call ih =>
    rw [beatTimes_snoc, List.pairwise_append] at hordered
    obtain ⟨hpast, _, hlater⟩ := hordered
    rw [heartbeats_snoc, beatTimes_snoc]
    cases call with
    | beat v now =>
      have hbefore : ∀ u ∈ beatTimes calls, u ≤ now := fun u hu => hlater u hu now (by
        simp [HeartbeatCall.beatTime])
      by_cases hv : v = w
      · subst hv
        have hlast : lastBeat v (calls ++ [.beat v now]) = some now :=
          lastBeat_snoc_self calls (.beat v now)
        rw [hlast, HeartbeatCall.apply, Heartbeats.lookup_workerHeartbeat _ _ _ httl,
          Option.some.injEq]
        constructor
        · rintro rfl
          refine ⟨rfl, ?_⟩
          intro u hu
          have hu' : u ≤ t := by
            rcases List.mem_append.mp hu with hu | hu
            · exact hbefore u hu
            · exact (List.mem_singleton.mp hu).le
          linarith
        · rintro ⟨rfl, _⟩
          rfl
      · have hlast : lastBeat w (calls ++ [.beat v now]) = lastBeat w calls := lastBeat_snoc_ne hv
        rw [hlast, HeartbeatCall.apply, Heartbeats.lookup_workerHeartbeat_ne (Ne.symm hv), ih hpast]
        simp only [HeartbeatCall.beatTime, Option.toList_some, List.mem_append, List.mem_singleton]
        constructor
        · rintro ⟨⟨hbeat, hkept⟩, hnow⟩
          refine ⟨hbeat, ?_⟩
          rintro u (hu | rfl)
          · exact hkept u hu
          · exact hnow
        · rintro ⟨hbeat, hkept⟩
          exact ⟨⟨hbeat, fun u hu => hkept u (Or.inl hu)⟩, hkept now (Or.inr rfl)⟩
    | offline v =>
      have hnone : (HeartbeatCall.offline v).beatTime.toList = [] := rfl
      rw [hnone, List.append_nil]
      by_cases hv : v = w
      · subst hv
        have hlast : lastBeat v (calls ++ [.offline v]) = none :=
          lastBeat_snoc_self calls (.offline v)
        rw [hlast, HeartbeatCall.apply, Heartbeats.lookup_workerOffline]
        simp
      · have hlast : lastBeat w (calls ++ [.offline v]) = lastBeat w calls := lastBeat_snoc_ne hv
        rw [hlast, HeartbeatCall.apply, Heartbeats.lookup_workerOffline_ne (Ne.symm hv), ih hpast]

end

/-! ## The guarantee -/

/-- The list is exact just if not both some worker's last beat is exactly `ttl` old and some
worker has beaten at the very time of the query. -/
theorem alive_workers_exact_iff (ttl now : ℚ) (calls : List HeartbeatCall) (httl : 0 < ttl)
    (hordered : (beatTimes calls).Pairwise (· ≤ ·)) (hnow : ∀ t ∈ beatTimes calls, t ≤ now) :
    ListsAlive ttl now calls ↔
      ¬ ((∃ w, lastBeat w calls = some (now - ttl)) ∧ now ∈ beatTimes calls) := by
  constructor
  · rintro h ⟨⟨w, hlast⟩, hbeat⟩
    have hlisted := (h.exact w (now - ttl)).mpr ⟨hlast, le_rfl⟩
    rw [Heartbeats.mem_listAliveWorkers, lookup_heartbeats_iff httl hordered] at hlisted
    exact lt_irrefl _ (hlisted.1.2 now hbeat)
  · intro h
    refine ⟨?_, Heartbeats.nodup_listAliveWorkers _ _ _⟩
    intro w t
    rw [Heartbeats.mem_listAliveWorkers, lookup_heartbeats_iff httl hordered]
    constructor
    · rintro ⟨⟨hlast, _⟩, hrecent⟩
      exact ⟨hlast, hrecent⟩
    · rintro ⟨hlast, hrecent⟩
      refine ⟨⟨hlast, ?_⟩, hrecent⟩
      intro u hu
      have hle := hnow u hu
      by_contra hnot
      -- then the beat is exactly `ttl` old, and `u` is the time of the query
      have hu' : u = now := by linarith
      have ht : t = now - ttl := by linarith
      subst hu' ht
      exact h ⟨⟨w, hlast⟩, hu⟩

/-- Worker "a" has gone stale, "c" has left, and "b" is alive. -/
theorem alive_workers_exact_three : ListsAlive 15 20
    [.beat "a" 0, .beat "c" 10, .beat "b" 15, .offline "c"] := by
  apply (alive_workers_exact_iff 15 20 _ (by norm_num) (by decide) (by decide)).mpr
  rintro ⟨_, hbeat⟩
  simp [beatTimes, HeartbeatCall.beatTime] at hbeat

/-- At the time of the query worker "b" beats, and removes the beat of worker "a", which is
exactly as old as the query allows. -/
theorem boundary_beat_pruned : ¬ ListsAlive 15 15 [.beat "a" 0, .beat "b" 15] := by
  intro h
  have hlisted := (h.exact "a" 0).mpr ⟨rfl, by norm_num⟩
  rw [Heartbeats.mem_listAliveWorkers] at hlisted
  have hpruned : (heartbeats 15 [.beat "a" 0, .beat "b" 15]).lookup "a" = none := by decide +kernel
  rw [hpruned] at hlisted
  cases hlisted.1

end JobQueue
