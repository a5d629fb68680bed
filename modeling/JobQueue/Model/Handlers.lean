import JobQueue.Model.AuditLog
import JobQueue.Model.Batch

/-!
# The handlers

`app/jobs/registry.py` and the handlers it maps the job types to. Each is a mock: it waits,
checks the field of the payload it needs, and answers with a document. What it does is given
without its pauses, which are added up apart (`handlerPauses`). What a handler draws at random
is given from outside: the hex digits of a fresh UUID, and `random.Random(seed).random()` as a
function of the seed.
-/

namespace JobQueue

/-! ## Texts of values -/

/-- A character of a text that is shown between quotes `quote`. -/
def reprChar (printable : Char → Bool) (quote : Nat) (c : Char) : String :=
  let n := c.toNat
  if n = quote then "\\" ++ String.singleton c
  else if n = 92 then "\\\\"
  else if n = 9 then "\\t"
  else if n = 10 then "\\n"
  else if n = 13 then "\\r"
  else if 32 ≤ n ∧ n < 127 then String.singleton c
  else if 128 ≤ n ∧ printable c then String.singleton c
  else if n < 256 then "\\x" ++ digits 16 2 n
  else if n < 65536 then "\\u" ++ digits 16 4 n
  else "\\U" ++ digits 16 8 n

/-- `repr(text)`: single quotes, unless there are such in the text and no double ones. -/
def pyRepr (printable : Char → Bool) (text : String) : String :=
  let single := text.toList.any fun c => c.toNat = 39
  let double := text.toList.any fun c => c.toNat = 34
  let quote := if single && !double then 34 else 39
  let mark := String.singleton (Char.ofNat quote)
  mark ++ String.join (text.toList.map (reprChar printable quote)) ++ mark

example : pyRepr (fun _ => true) "a\\b\n" = "'a\\\\b\\n'" := by decide

/-- What a handler reads besides the job. -/
structure Ambient where
  /-- The first draw of a generator with the given seed. -/
  random : String → ℚ
  /-- `str.isprintable` for one character. -/
  printable : Char → Bool
  /-- `str(value)` of a document that is no text. -/
  shown : Json → String

/-! ## The handlers -/

/-- An `Exception` that a handler raises in a controlled way. -/
def handlerError (message : String) : Thrown :=
  { cls := .handlerError, typeName := "HandlerError", text := some message }

/-- `payload.get` where the payload is no `dict`. -/
def noGet (payload : Json) : Thrown :=
  { cls := .other
    typeName := "AttributeError"
    text := some ("'" ++ payload.typeName ++ "' object has no attribute 'get'") }

/-- The check of a field that has to be a text and not empty, and what follows it. -/
def withText (kind field : String) (payload : Json) (answer : String → Ending) : Ending :=
  match payload with
  | .obj fields =>
      match fields.lookup field with
      | some (.str text) =>
          if text = "" then
            .raises (handlerError (kind ++ " payload missing required field '" ++ field ++ "'"))
          else answer text
      | _ => .raises (handlerError (kind ++ " payload missing required field '" ++ field ++ "'"))
  | other => .raises (noGet other)

/-- `run` of `app/jobs/email.py`. -/
def Email.run (hex : String) (payload : Json) : Ending :=
  withText "email" "to" payload fun recipient =>
    .returns (.obj [("status", .str "sent"), ("to", .str recipient),
      ("message_id", .str ("msg_" ++ hex))])

/-- The seed of a webhook job's generator. -/
def Webhook.seed (jobId : UUID) (attemptCount : Nat) : String :=
  uuidText jobId ++ ":" ++ toString attemptCount

/-- The text of the failure of a delivery. -/
def Webhook.failure (env : Ambient) (url : String) : String :=
  "webhook delivery failed for url=" ++ pyRepr env.printable url

/-- The literal `0.2`. -/
def Webhook.failureRate : ℚ := Binary64.round (1 / 5)

/-- `run` of `app/jobs/webhook.py`. -/
def Webhook.run (env : Ambient) (jobId : UUID) (attemptCount : Nat) (payload : Json) : Ending :=
  withText "webhook" "url" payload fun url =>
    if env.random (Webhook.seed jobId attemptCount) < Webhook.failureRate then
      .raises (handlerError (Webhook.failure env url))
    else .returns (.obj [("status", .str "delivered"), ("url", .str url), ("status_code", .int 200)])

/-- A value in an f-string. -/
def Ambient.format (env : Ambient) : Json → String
  | .str text => text
  | value => env.shown value

/-- The document of a report with the given name. -/
def Report.ready (env : Ambient) (hex : String) (name : Json) : Json :=
  .obj [("status", .str "ready"), ("report_id", .str ("rpt_" ++ hex)), ("name", name),
    ("download_url", .str ("/reports/" ++ env.format name ++ ".pdf"))]

/-- `run` of `app/jobs/report.py`. -/
def Report.run (env : Ambient) (hex : String) (payload : Json) : Ending :=
  match payload with
  | .obj fields => .returns (Report.ready env hex ((fields.lookup "name").getD (.str "report")))
  | other => .raises (noGet other)

/-! ## The registry -/

/-- A handler under `process_one`: only that of a batch job is given the reporter. -/
abbrev Handler := Ambient → String → UUID → Job → Behaviour

/-- `_HANDLERS` -/
def handlers : JobType → Handler
  | .email => fun _ hex _ job => { ending := Email.run hex job.payload }
  | .webhook => fun env _ jobId job =>
      { ending := Webhook.run env jobId job.attemptCount job.payload }
  | .report => fun env hex _ job => { ending := Report.run env hex job.payload }
  | .batch => fun _ _ _ job => Batch.run job.payload

/-- `JobType(value)` -/
def JobType.ofValue (value : String) : Option JobType :=
  [JobType.email, .webhook, .report, .batch].find? fun jobType => jobType.value = value

/-- The handler for a job type or for its text, or the `UnknownJobTypeError`. -/
def getHandler (env : Ambient) : JobType ⊕ String → Except Thrown Handler
  | .inl jobType => .ok (handlers jobType)
  | .inr text =>
      match JobType.ofValue text with
      | some jobType => .ok (handlers jobType)
      | none => .error
          { cls := .unknownJobTypeError
            typeName := "UnknownJobTypeError"
            text := some ("unknown job_type: " ++ pyRepr env.printable text) }

/-- What the `try` statement of `process_one` gets from the handler of a job. -/
def runHandler (env : Ambient) (hex : String) (jobId : UUID) (job : Job) : Behaviour :=
  match getHandler env (.inl job.jobType) with
  | .ok handler => handler env hex jobId job
  | .error exc => { ending := .raises exc }

/-- The pauses of a handler that returns: one before it reads the payload, or one per item. -/
def handlerPauses (settings : Settings) (job : Job) : Timestamp :=
  match job.jobType with
  | .email => settings.emailMockSleep
  | .webhook => settings.webhookMockSleep
  | .report => settings.reportMockSleep
  | .batch =>
      match job.payload with
      | .obj fields =>
          match fields.lookup "items" with
          | some (.arr items) => items.length * settings.batchItemSleep
          | _ => 0
      | _ => 0

/-- A handler reads the type, the payload and the number of the attempt. -/
theorem runHandler_congr (env : Ambient) (hex : String) (jobId : UUID) {job job' : Job}
    (htype : job.jobType = job'.jobType) (hpayload : job.payload = job'.payload)
    (hattempts : job.attemptCount = job'.attemptCount) :
    runHandler env hex jobId job = runHandler env hex jobId job' := by
  unfold runHandler getHandler
  rw [htype]
  cases job'.jobType with
  | email | webhook | report | batch => simp only [handlers, hpayload, hattempts]

/-- Only a batch handler reports. -/
theorem runHandler_reports (env : Ambient) (hex : String) (jobId : UUID) {job : Job}
    (h : job.jobType ≠ .batch) : (runHandler env hex jobId job).reports = [] := by
  unfold runHandler getHandler
  cases htype : job.jobType with
  | batch => exact absurd htype h
  | email | webhook | report => rfl

end JobQueue
