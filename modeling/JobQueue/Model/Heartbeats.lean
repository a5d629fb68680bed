import JobQueue.Library.SortedSet
import JobQueue.Model.Job
import Mathlib.Data.String.Basic

/-!
# The heartbeats of the workers

The commands of `QueueClient` (`app/queue/client.py`) on `workers:heartbeat`, a sorted set of
worker ids with the time of each worker's last beat. The caller gives the time and the time to
live, both in seconds and exact. The two commands of a beat are sent as one transaction.
-/

namespace JobQueue

/-- `workers:heartbeat` -/
abbrev Heartbeats := SortedSet WorkerId

namespace Heartbeats

/-- Refresh the score of the worker and prune stale members. -/
def workerHeartbeat (h : Heartbeats) (workerId : WorkerId) (now ttlSeconds : ℚ) : Heartbeats :=
  SortedSet.zremrangebyscore (SortedSet.zadd h workerId now false).1 (now - ttlSeconds)

/-- Remove the worker. -/
def workerOffline (h : Heartbeats) (workerId : WorkerId) : Heartbeats := SortedSet.zrem h workerId

/-- The workers with a recent beat, and its time. -/
def listAliveWorkers (h : Heartbeats) (now ttlSeconds : ℚ) : List (WorkerId × ℚ) :=
  (SortedSet.zrangebyscoreFrom h (now - ttlSeconds)).map fun e => (e.1, e.2)

variable {h : Heartbeats} {v w : WorkerId} {now ttl t : ℚ}

/-- A beat stays, as its own time to live has not run out. -/
theorem lookup_workerHeartbeat (h : Heartbeats) (w : WorkerId) (now : ℚ) (httl : 0 < ttl) :
    (h.workerHeartbeat w now ttl).lookup w = some t ↔ t = now := by
  rw [workerHeartbeat, SortedSet.lookup_zremrangebyscore, SortedSet.lookup_zadd,
    Option.some.injEq]
  constructor
  · rintro ⟨rfl, _⟩
    rfl
  · rintro rfl
    exact ⟨rfl, sub_lt_self t httl⟩

/-- Of the other workers those stay whose time to live has not run out. -/
theorem lookup_workerHeartbeat_ne (hne : v ≠ w) :
    (h.workerHeartbeat w now ttl).lookup v = some t ↔ h.lookup v = some t ∧ now - ttl < t := by
  rw [workerHeartbeat, SortedSet.lookup_zremrangebyscore, SortedSet.lookup_zadd_ne hne]

theorem lookup_workerOffline (h : Heartbeats) (w : WorkerId) :
    (h.workerOffline w).lookup w = none := AList.lookup_erase w h

theorem lookup_workerOffline_ne (hne : v ≠ w) : (h.workerOffline w).lookup v = h.lookup v :=
  AList.lookup_erase_ne hne

theorem mem_listAliveWorkers :
    (w, t) ∈ h.listAliveWorkers now ttl ↔ h.lookup w = some t ∧ now - ttl ≤ t := by
  rw [listAliveWorkers, List.mem_map]
  constructor
  · rintro ⟨e, he, heq⟩
    cases heq
    exact SortedSet.mem_zrangebyscoreFrom.mp he
  · intro hmem
    exact ⟨⟨w, t⟩, SortedSet.mem_zrangebyscoreFrom.mpr hmem, rfl⟩

/-- No worker is listed twice. -/
theorem nodup_listAliveWorkers (h : Heartbeats) (now ttl : ℚ) :
    ((h.listAliveWorkers now ttl).map Prod.fst).Nodup := by
  have hnodup := SortedSet.nodup_zrangebyscoreFrom h (now - ttl)
  rw [listAliveWorkers, List.map_map]
  exact hnodup

end Heartbeats

end JobQueue
