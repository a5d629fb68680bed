import JobQueue.Model.Service

/-!
# Request and response schemas

`app/api/schemas.py`: what a body has to satisfy to become a `JobCreate`, and the responses a
row is rendered as. Pydantic has taken the fields of the body to their types already; its
e-mail and URL types are given by what they make of a text, and the text of a float by
`repr`. A schema reports the error of its field before the fields it does not know.
-/

namespace JobQueue

/-- Cap of the JSONB payload size. -/
def payloadMaxBytes : Nat := 65536

def batchMaxItems : Nat := 1000

/-! ## JSON text -/

/-- A UTF-16 code unit as `json.dumps` escapes it. -/
def unicodeEscape (unit : Nat) : String := "\\u" ++ digits 16 4 unit

/-- A character of a text, with `ensure_ascii` on. -/
def jsonEscape (c : Char) : String :=
  let n := c.toNat
  if n = 34 then "\\\""
  else if n = 92 then "\\\\"
  else if n = 10 then "\\n"
  else if n = 13 then "\\r"
  else if n = 9 then "\\t"
  else if n = 12 then "\\f"
  else if n = 8 then "\\b"
  else if 32 ≤ n ∧ n < 127 then String.singleton c
  else if n < 65536 then unicodeEscape n
  else unicodeEscape (55296 + (n - 65536) / 1024) ++ unicodeEscape (56320 + (n - 65536) % 1024)

def jsonString (s : String) : String := "\"" ++ String.join (s.toList.map jsonEscape) ++ "\""

mutual

/-- `json.dumps`, with the text `floatText` of a float. -/
def Json.dumps (floatText : ℚ → String) : Json → String
  | .null => "null"
  | .bool b => if b then "true" else "false"
  | .int n => toString n
  | .real q => floatText q
  | .str s => jsonString s
  | .arr items => "[" ++ ", ".intercalate (Json.dumpsItems floatText items) ++ "]"
  | .obj fields => "\x7b" ++ ", ".intercalate (Json.dumpsFields floatText fields) ++ "\x7d"

def Json.dumpsItems (floatText : ℚ → String) : List Json → List String
  | [] => []
  | item :: items => item.dumps floatText :: Json.dumpsItems floatText items

def Json.dumpsFields (floatText : ℚ → String) : List (String × Json) → List String
  | [] => []
  | (key, value) :: fields =>
      (jsonString key ++ ": " ++ value.dumps floatText) :: Json.dumpsFields floatText fields

end

example : (Json.obj [("to", .str "a\"é"), ("n", .arr [.int (-1), .null])]).dumps (fun _ => "") =
    "\x7b\"to\": \"a\\\"\\u00e9\", \"n\": [-1, null]\x7d" := by decide

/-! ## Payload schemas -/

/-- The types of pydantic's errors, with their contexts. -/
inductive Problem
  | missing
  | extraForbidden
  | stringType
  | stringTooShort (minLength : Nat)
  | stringTooLong (maxLength : Nat)
  | listType
  | tooLong (maxLength actualLength : Nat)
  | urlType
  | greaterThanEqual (ge : Int)
  | lessThanEqual (le : Int)
  | valueError (message : String)
  deriving DecidableEq

structure FieldError where
  loc : String
  problem : Problem
  deriving DecidableEq

/-- The types of pydantic that other packages implement: the normal form of a text, or the
message of the error. -/
structure Pydantic where
  emailStr : String → Except String String
  httpUrl : String → Except String String
  floatText : ℚ → String

/-- The value of a model's field. A default is not validated. -/
def fieldValue (field : String) (default : Option Json) (validate : Json → Except Problem Json)
    (payload : List (String × Json)) : Except Problem Json :=
  match payload.lookup field, default with
  | some value, _ => validate value
  | none, some value => .ok value
  | none, none => .error .missing

/-- A model with one field and `extra="forbid"`, as `model_dump` returns it. -/
def validateModel (field : String) (default : Option Json)
    (validate : Json → Except Problem Json) (payload : List (String × Json)) :
    Except (List FieldError) Json :=
  let extra := (payload.filter fun entry => entry.1 ≠ field).map fun entry =>
    FieldError.mk entry.1 .extraForbidden
  match fieldValue field default validate payload with
  | .error problem => .error (⟨field, problem⟩ :: extra)
  | .ok value => if extra = [] then .ok (.obj [(field, value)]) else .error extra

def emailPayload (py : Pydantic) : List (String × Json) → Except (List FieldError) Json :=
  validateModel "to" none fun
    | .str text => (py.emailStr text).map Json.str |>.mapError .valueError
    | _ => .error .stringType

def webhookPayload (py : Pydantic) : List (String × Json) → Except (List FieldError) Json :=
  validateModel "url" none fun
    | .str text => (py.httpUrl text).map Json.str |>.mapError .valueError
    | _ => .error .urlType

def reportPayload : List (String × Json) → Except (List FieldError) Json :=
  validateModel "name" (some (.str "report")) fun
    | .str name =>
        if 255 < name.length then .error (.stringTooLong 255)
        else if name.length < 1 then .error (.stringTooShort 1)
        else .ok (.str name)
    | _ => .error .stringType

def batchPayload : List (String × Json) → Except (List FieldError) Json :=
  validateModel "items" none fun
    | .arr items =>
        if batchMaxItems < items.length then .error (.tooLong batchMaxItems items.length)
        else .ok (.arr items)
    | _ => .error .listType

/-- `_PAYLOAD_BY_TYPE` -/
def payloadByType (py : Pydantic) : JobType → List (String × Json) → Except (List FieldError) Json
  | .email => emailPayload py
  | .webhook => webhookPayload py
  | .report => reportPayload
  | .batch => batchPayload

/-! ## Requests -/

/-- A `datetime` of a request: wall clock time, and the offset of its zone if it has one. -/
structure Datetime where
  wall : Timestamp
  offset : Option Timestamp

/-- The fields of a request body. -/
structure JobBody where
  jobType : JobType
  payload : List (String × Json) := []
  priority : Int := 0
  scheduledAt : Option Datetime := none

/-- A time without a zone is taken to be in UTC. -/
def scheduledAtMustBeFuture (now : Timestamp) :
    Option Datetime → Except String (Option Timestamp)
  | none => .ok none
  | some value =>
      let instant := value.wall - value.offset.getD 0
      if instant ≤ now then .error "scheduled_at must be in the future" else .ok (some instant)

/-- Why a body is answered with 422. -/
inductive Rejection
  | fields (errors : List FieldError)
  | payloadTooLarge (message : String)
  | payload (errors : List FieldError)
  deriving DecidableEq

def validatePayloadForJobType (py : Pydantic) (body : JobBody) : Except Rejection Json :=
  let raw := (Json.obj body.payload).dumps py.floatText
  if payloadMaxBytes < raw.utf8ByteSize then
    .error (.payloadTooLarge ("payload must be at most " ++ toString payloadMaxBytes ++
      " bytes (got " ++ toString raw.utf8ByteSize ++ ")"))
  else (payloadByType py body.jobType body.payload).mapError .payload

def JobBody.fieldErrors (now : Timestamp) (body : JobBody) : List FieldError :=
  (if body.priority < -1000 then [⟨"priority", .greaterThanEqual (-1000)⟩]
    else if 1000 < body.priority then [⟨"priority", .lessThanEqual 1000⟩] else []) ++
  match scheduledAtMustBeFuture now body.scheduledAt with
  | .error message => [⟨"scheduled_at", .valueError message⟩]
  | .ok _ => []

/-- `JobCreate.model_validate`. The payload is looked at only if the fields are right, and is
replaced by its normal form. -/
def JobCreate.validate (py : Pydantic) (now : Timestamp) (body : JobBody) :
    Except Rejection JobCreate :=
  match scheduledAtMustBeFuture now body.scheduledAt with
  | .error _ => .error (.fields (body.fieldErrors now))
  | .ok scheduledAt =>
      if h : -1000 ≤ body.priority ∧ body.priority ≤ 1000 then
        (validatePayloadForJobType py body).map fun payload =>
          { jobType := body.jobType, payload := payload, priority := body.priority,
            scheduledAt := scheduledAt, priority_ge := h.1, priority_le := h.2 }
      else .error (.fields (body.fieldErrors now))

/-! ## Responses -/

structure JobResponse where
  id : UUID
  jobType : JobType
  status : JobStatus
  priority : Int
  payload : List (String × Json)
  progressPct : Int
  attemptCount : Nat
  maxAttempts : Nat
  result : Option (List (String × Json))
  errorMessage : Option String
  createdAt : Timestamp
  startedAt : Option Timestamp
  completedAt : Option Timestamp
  scheduledAt : Option Timestamp
  nextRunAt : Option Timestamp
  deriving DecidableEq

/-- `JobResponse.model_validate(job)`, `none` where the payload or the result is no `dict`. -/
def JobResponse.validate (jobId : UUID) (job : Job) : Option JobResponse :=
  match job.payload, job.result with
  | .obj payload, none => some (response payload none)
  | .obj payload, some (.obj result) => some (response payload (some result))
  | _, _ => none
where
  response (payload : List (String × Json)) (result : Option (List (String × Json))) :
      JobResponse :=
    { id := jobId, jobType := job.jobType, status := job.status, priority := job.priority,
      payload := payload, progressPct := job.progressPct, attemptCount := job.attemptCount,
      maxAttempts := job.maxAttempts, result := result, errorMessage := job.errorMessage,
      createdAt := job.createdAt, startedAt := job.startedAt, completedAt := job.completedAt,
      scheduledAt := job.scheduledAt, nextRunAt := job.nextRunAt }

end JobQueue
