import JobQueue.Model.Job

/-!
# Settings

The settings of `app/config.py` that the job lifecycle reads, with their defaults.
Durations are in microseconds.
-/

namespace JobQueue

structure Settings where
  /-- `worker_lease_seconds` -/
  workerLease : Timestamp := 60 * 10 ^ 6
  /-- `job_timeout_seconds` -/
  jobTimeout : Timestamp := 30 * 10 ^ 6
  /-- The text `f"{job_timeout_seconds:g}"` of the handler timeout. -/
  jobTimeoutText : String := "30"
  defaultMaxAttempts : Nat := 3
  /-- `retry_backoff_after_attempt_1_seconds` -/
  retryBackoffAfterAttempt1 : Timestamp := 30 * 10 ^ 6
  /-- `retry_backoff_after_attempt_2_seconds` -/
  retryBackoffAfterAttempt2 : Timestamp := 120 * 10 ^ 6
  /-- `email_mock_sleep_seconds` -/
  emailMockSleep : Timestamp := 500 * 10 ^ 3
  /-- `webhook_mock_sleep_seconds` -/
  webhookMockSleep : Timestamp := 300 * 10 ^ 3
  /-- `report_mock_sleep_seconds` -/
  reportMockSleep : Timestamp := 10 ^ 6
  /-- `batch_item_sleep_seconds` -/
  batchItemSleep : Timestamp := 50 * 10 ^ 3

end JobQueue
