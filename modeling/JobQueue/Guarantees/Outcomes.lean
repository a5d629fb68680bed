import JobQueue.Model.Handlers
import JobQueue.Model.Schemas
import JobQueue.System.Requests
import JobQueue.System.Sessions

/-!
# From the request to the outcome

The API validates a payload before the job is stored, some worker runs the handler long after
that, maybe several times, and any client may read the row. This file follows the payload all
the way: it is stored in its normal form, no handler ever misses the field it needs, a stored
result is the document the handler makes of the job's own payload, and a stored error is a
timeout or the failed delivery of a webhook. So a row can always be rendered.
-/

namespace JobQueue

open Relational Transition

variable {settings : Settings} {py : Pydantic} {env : Ambient} {s s' : State} {a : Action}
  {tr : List (State × Action)} {j : UUID} {row row' : Job} {now : Timestamp}

/-! ## Payloads in their normal form -/

/-- The payloads that `payloadByType` returns. -/
def JobType.Normal (py : Pydantic) : JobType → Json → Prop
  | .email, payload => ∃ raw recipient, py.emailStr raw = .ok recipient ∧
      payload = .obj [("to", .str recipient)]
  | .webhook, payload => ∃ raw url, py.httpUrl raw = .ok url ∧ payload = .obj [("url", .str url)]
  | .report, payload => ∃ name : String, 1 ≤ name.length ∧ name.length ≤ 255 ∧
      payload = .obj [("name", .str name)]
  | .batch, payload => ∃ items : List Json, items.length ≤ batchMaxItems ∧
      payload = .obj [("items", .arr items)]

/-- A model accepts no field but its own, and returns it alone. -/
theorem validateModel_ok {field : String} {default : Option Json}
    {validate : Json → Except Problem Json} {payload : List (String × Json)} {normal : Json}
    (h : validateModel field default validate payload = .ok normal) :
    ∃ value, normal = .obj [(field, value)] ∧
      ((∃ raw, validate raw = .ok value) ∨ default = some value) := by
  unfold validateModel at h
  split at h
  · cases h
  · rename_i value hvalue
    simp only at h
    split at h
    · cases h
      refine ⟨value, rfl, ?_⟩
      unfold fieldValue at hvalue
      split at hvalue
      · exact Or.inl ⟨_, hvalue⟩
      · cases hvalue
        exact Or.inr rfl
      · cases hvalue
    · cases h

theorem normal_of_payloadByType {jobType : JobType} {payload : List (String × Json)}
    {normal : Json} (h : payloadByType py jobType payload = .ok normal) :
    jobType.Normal py normal := by
  cases jobType with
  | email =>
    obtain ⟨value, rfl, ⟨raw, hraw⟩ | hdefault⟩ := validateModel_ok h
    · split at hraw
      · rename_i text
        obtain ⟨recipient, hrecipient, rfl⟩ := Except.map_eq_ok.mp (Except.mapError_eq_ok.mp hraw)
        exact ⟨text, recipient, hrecipient, rfl⟩
      · cases hraw
    · cases hdefault
  | webhook =>
    obtain ⟨value, rfl, ⟨raw, hraw⟩ | hdefault⟩ := validateModel_ok h
    · split at hraw
      · rename_i text
        obtain ⟨url, hurl, rfl⟩ := Except.map_eq_ok.mp (Except.mapError_eq_ok.mp hraw)
        exact ⟨text, url, hurl, rfl⟩
      · cases hraw
    · cases hdefault
  | report =>
    obtain ⟨value, rfl, ⟨raw, hraw⟩ | hdefault⟩ := validateModel_ok h
    · split at hraw
      · rename_i name
        split at hraw
        · cases hraw
        · split at hraw
          · cases hraw
          · cases hraw
            exact ⟨name, by omega, by omega, rfl⟩
      · cases hraw
    · cases hdefault
      exact ⟨"report", by decide, by decide, rfl⟩
  | batch =>
    obtain ⟨value, rfl, ⟨raw, hraw⟩ | hdefault⟩ := validateModel_ok h
    · split at hraw
      · rename_i items
        split at hraw
        · cases hraw
        · cases hraw
          exact ⟨items, by omega, rfl⟩
      · cases hraw
    · cases hdefault

/-- The payload of a validated request is in its normal form. -/
theorem normal_of_validate {body : JobBody} {data : JobCreate}
    (h : JobCreate.validate py now body = .ok data) : data.jobType.Normal py data.payload := by
  unfold JobCreate.validate at h
  split at h
  · cases h
  · split at h
    · obtain ⟨payload, hpayload, rfl⟩ := Except.map_eq_ok.mp h
      unfold validatePayloadForJobType at hpayload
      simp only at hpayload
      split at hpayload
      · cases hpayload
      · exact normal_of_payloadByType (Except.mapError_eq_ok.mp hpayload)
    · cases h

/-! ## What the handlers make of them -/

/-- What the packages behind pydantic promise: a normal form is not empty. -/
structure Pydantic.Lawful (py : Pydantic) : Prop where
  emailStr_ne : ∀ raw recipient, py.emailStr raw = .ok recipient → recipient ≠ ""
  httpUrl_ne : ∀ raw url, py.httpUrl raw = .ok url → url ≠ ""

/-- The document `result` answers a job with that payload. -/
def JobType.Answers : JobType → (payload result : Json) → Prop
  | .email, payload, result => ∃ recipient hex, payload = .obj [("to", .str recipient)] ∧
      result = .obj [("status", .str "sent"), ("to", .str recipient),
        ("message_id", .str ("msg_" ++ hex))]
  | .webhook, payload, result => ∃ url, payload = .obj [("url", .str url)] ∧
      result = .obj [("status", .str "delivered"), ("url", .str url), ("status_code", .int 200)]
  | .report, payload, result => ∃ name hex, payload = .obj [("name", .str name)] ∧
      result = .obj [("status", .str "ready"), ("report_id", .str ("rpt_" ++ hex)),
        ("name", .str name), ("download_url", .str ("/reports/" ++ name ++ ".pdf"))]
  | .batch, payload, result => ∃ items : List Json, payload = .obj [("items", .arr items)] ∧
      result = .obj [("status", .str "processed"), ("processed", .int items.length),
        ("failed", .int 0)]

/-- Why job `j`, with that payload, may have failed with an exception of its handler: the draw
of some attempt at a webhook job was against it. -/
def JobType.Fails (env : Ambient) (j : UUID) (jobType : JobType) (payload : Json)
    (exc : Thrown) : Prop :=
  jobType = .webhook ∧ ∃ url n, payload = .obj [("url", .str url)] ∧
    env.random (Webhook.seed j n) < Webhook.failureRate ∧
    exc = handlerError (Webhook.failure env url)

theorem withText_ok {kind field text : String} (answer : String → Ending) (h : text ≠ "") :
    withText kind field (.obj [(field, .str text)]) answer = answer text := by
  have hfield : List.lookup field [(field, Json.str text)] = some (.str text) :=
    List.lookup_cons_self
  unfold withText
  simp only [hfield, if_neg h]

theorem run_items_ending (items : List Json) :
    (Batch.run (.obj [("items", .arr items)])).ending =
      .returns (Batch.processed items.length) := by
  have hitems : List.lookup "items" [("items", Json.arr items)] = some (.arr items) :=
    List.lookup_cons_self
  unfold Batch.run
  simp only [hitems]
  split
  · rename_i hempty
    rw [hempty]
  · rfl

/-- A handler that is given a normal payload answers it, or fails as a webhook may. -/
theorem runHandler_normal (hlaw : py.Lawful) (hex : String) (hnormal : row.jobType.Normal py row.payload) :
    (∃ result, (runHandler env hex j row).ending = .returns result ∧
      row.jobType.Answers row.payload result) ∨
    ∃ exc, (runHandler env hex j row).ending = .raises exc ∧
      row.jobType.Fails env j row.payload exc := by
  unfold runHandler getHandler
  cases htype : row.jobType with
  | email =>
    rw [htype] at hnormal
    obtain ⟨raw, recipient, hraw, hpayload⟩ := hnormal
    refine Or.inl ⟨_, ?_, recipient, hex, hpayload, rfl⟩
    show Email.run hex row.payload = _
    rw [hpayload, Email.run, withText_ok _ (hlaw.emailStr_ne raw recipient hraw)]
  | webhook =>
    rw [htype] at hnormal
    obtain ⟨raw, url, hraw, hpayload⟩ := hnormal
    show (∃ result, Webhook.run env j row.attemptCount row.payload = _ ∧ _) ∨
      ∃ exc, Webhook.run env j row.attemptCount row.payload = _ ∧ _
    rw [hpayload, Webhook.run, withText_ok _ (hlaw.httpUrl_ne raw url hraw)]
    by_cases hdraw : env.random (Webhook.seed j row.attemptCount) < Webhook.failureRate
    · rw [if_pos hdraw]
      exact Or.inr ⟨_, rfl, rfl, url, row.attemptCount, rfl, hdraw, rfl⟩
    · rw [if_neg hdraw]
      exact Or.inl ⟨_, rfl, url, rfl, rfl⟩
  | report =>
    rw [htype] at hnormal
    obtain ⟨name, _, _, hpayload⟩ := hnormal
    refine Or.inl ⟨_, ?_, name, hex, hpayload, rfl⟩
    show Report.run env hex row.payload = _
    rw [hpayload]
    rfl
  | batch =>
    rw [htype] at hnormal
    obtain ⟨items, _, hpayload⟩ := hnormal
    refine Or.inl ⟨_, ?_, items, hpayload, rfl⟩
    show (Batch.run row.payload).ending = _
    rw [hpayload]
    exact run_items_ending items

/-! ## The condition on a run -/

/-- A request reaches `submit_job` by the validation of some body, at some time. -/
def Action.Validated (py : Pydantic) : Action → Prop
  | .api _ (.submit data _) => ∃ clock body, JobCreate.validate py clock body = .ok data
  | _ => True

/-- An attempt ends as the handler of its job ends, or by the timeout. -/
def State.Handles (env : Ambient) (s : State) : Action → Prop
  | .worker w (.finish result _) => ∀ m, (s.workers w).executor = .executing m →
      ∃ hex, (runHandler env hex m.id m.current).ending = .returns result
  | .worker w (.fail raised _) => ∀ m, (s.workers w).executor = .executing m →
      raised = .timeout ∨ ∃ hex exc, (runHandler env hex m.id m.current).ending = .raises exc ∧
        raised = Py.raised exc
  | _ => True

/-! ## The invariant -/

/-- The row of job `j`, or an instance of it, agrees with its payload. -/
structure Job.Sound (settings : Settings) (py : Pydantic) (env : Ambient) (j : UUID)
    (row : Job) : Prop where
  payload : row.jobType.Normal py row.payload
  result : ∀ result, row.result = some result → row.jobType.Answers row.payload result
  error : ∀ message, row.errorMessage = some message →
    message = Raised.timeout.errorMessage settings ∨
      ∃ exc, row.jobType.Fails env j row.payload exc ∧
        message = (Py.raised exc).errorMessage settings

theorem Job.Sound.of_empty (hpayload : row.jobType.Normal py row.payload)
    (hresult : row.result = none) (herror : row.errorMessage = none) :
    row.Sound settings py env j where
  payload := hpayload
  result := by
    intro result h
    rw [hresult] at h
    cases h
  error := by
    intro message h
    rw [herror] at h
    cases h

/-- A row that takes its result and its error from two sound ones, or none, is sound. -/
theorem Job.Sound.mix {job : Job} (h : row.Sound settings py env j)
    (hjob : job.Sound settings py env j) (htype : job.jobType = row.jobType)
    (hpayload : job.payload = row.payload) (htype' : row'.jobType = row.jobType)
    (hpayload' : row'.payload = row.payload)
    (hresult : row'.result = row.result ∨ row'.result = job.result)
    (herror : row'.errorMessage = row.errorMessage ∨ row'.errorMessage = job.errorMessage) :
    row'.Sound settings py env j where
  payload := by
    rw [htype', hpayload']
    exact h.payload
  result := by
    intro result heq
    rw [htype', hpayload']
    rcases hresult with hsame | hsame
    · exact h.result result (hsame ▸ heq)
    · rw [← htype, ← hpayload]
      exact hjob.result result (hsame ▸ heq)
  error := by
    intro message heq
    rw [htype', hpayload']
    rcases herror with hsame | hsame
    · exact h.error message (hsame ▸ heq)
    · rw [← htype, ← hpayload]
      exact hjob.error message (hsame ▸ heq)

theorem Job.Sound.of_eq (h : row.Sound settings py env j) (htype : row'.jobType = row.jobType)
    (hpayload : row'.payload = row.payload) (hresult : row'.result = row.result)
    (herror : row'.errorMessage = row.errorMessage) : row'.Sound settings py env j :=
  h.mix h rfl rfl htype hpayload (Or.inl hresult) (Or.inl herror)

theorem written_cases {β : Type} [DecidableEq β] (loaded current stored : β) :
    written loaded current stored = stored ∨ written loaded current stored = current := by
  unfold written
  split
  · exact Or.inl rfl
  · exact Or.inr rfl

/-- The rows are sound, and so is what the calls and the workers are about to write. -/
structure State.Sound (settings : Settings) (py : Pydantic) (env : Ambient) (s : State) :
    Prop where
  row : ∀ j row, s.row j = some row → row.Sound settings py env j
  inserting : ∀ c data key began, s.calls c = .inserting data key began →
    data.jobType.Normal py data.payload
  inserted : ∀ c jobId job, s.calls c = .inserted jobId job →
    job.jobType.Normal py job.payload ∧ job.result = none ∧ job.errorMessage = none
  inHand : ∀ w m, s.inHand w = some m → ∃ row, s.row m.id = some row ∧
    m.loaded.request = row.request
  finalising : ∀ w m, (s.workers w).executor = .finalising m →
    m.current.Sound settings py env m.id

theorem State.Quiet.sound (hquiet : s.Quiet) (hempty : ∀ j, s.row j = none) :
    s.Sound settings py env where
  row j row h := by
    rw [hempty] at h
    cases h
  inserting c data key began h := by
    rw [hquiet.calls] at h
    cases h
  inserted c jobId job h := by
    rw [hquiet.calls] at h
    cases h
  inHand w m h := by
    rw [hquiet.inHand] at h
    cases h
  finalising w m h := by
    rw [hquiet.workers] at h
    cases h

/-! ## A step -/

theorem sound_row (h : s.Sound settings py env) (hshaped : s.Shaped settings)
    (hstep : step settings s a = some s') (hrow' : s'.row j = some row') : row'.Sound settings py env j := by
  cases hrow : s.row j with
  | none =>
    obtain ⟨c, _, hinserted, _⟩ := row_new hstep hrow hrow'
    obtain ⟨hnormal, hresult, herror⟩ := h.inserted c j row' hinserted
    exact .of_empty hnormal hresult herror
  | some row =>
    have hsound := h.row j row hrow
    have hrequest := request_step hshaped hstep hrow hrow'
    simp only [Job.request, Request.mk.injEq] at hrequest
    obtain ⟨row₁, hrow₁, hcase⟩ := row_step hstep hrow
    rw [hrow'] at hrow₁
    cases hrow₁
    rcases hcase with rfl | hchange
    · exact hsound
    · cases hchange with
      | @report w pct m _ hexecuting =>
        have hshape := hshaped.executor w
        rw [hexecuting] at hshape
        refine hsound.of_eq hrequest.1 hrequest.2.1 ?_ ?_ <;>
          simp [Mapped.flush, reportProgress, hshape.2]
      | @finalise w m _ hfinalising hid =>
        subst hid
        obtain ⟨row₁, hrow₁, hloaded⟩ := h.inHand w m (inHand_of_finalising hfinalising)
        rw [hrow] at hrow₁
        cases hrow₁
        have hcurrent := (finalising_request hshaped hfinalising).trans hloaded
        simp only [Job.request, Request.mk.injEq] at hcurrent
        exact hsound.mix (h.finalising w m hfinalising) hcurrent.1 hcurrent.2.1 hrequest.1
          hrequest.2.1 (written_cases _ _ _) (written_cases _ _ _)
      | @cancel c m _ hcancelling =>
        have hshape := hshaped.call c
        rw [hcancelling] at hshape
        refine hsound.of_eq hrequest.1 hrequest.2.1 ?_ ?_ <;>
          simp [Mapped.flush, cancelJob, hshape.2]
      | @retry c m _ hretrying =>
        have hshape := hshaped.call c
        rw [hretrying] at hshape
        obtain ⟨_, clock, hcurrent⟩ := hshape
        -- the error is cleared
        have hcleared : ({ row with errorMessage := none } : Job).Sound settings py env j :=
          ⟨hsound.payload, hsound.result, by simp⟩
        refine hsound.mix hcleared rfl rfl hrequest.1 hrequest.2.1 (Or.inl ?_) ?_
        · simp [Mapped.flush, manualRetry, hcurrent]
        · have hnone : m.current.errorMessage = none := by rw [hcurrent]; rfl
          rw [← hnone]
          exact written_cases _ _ _
      | claim | renew | promote | reap | cleanup => exact hsound.of_eq rfl rfl rfl rfl

theorem sound_inserting {c : Nat} {data : JobCreate} {key : Option String} {began : Timestamp}
    (h : s.Sound settings py env) (hvalidated : a.Validated py)
    (hstep : step settings s a = some s') (hcall : s'.calls c = .inserting data key began) :
    data.jobType.Normal py data.payload := by
  rcases call_move hstep c with ⟨_, hsame⟩ | ⟨b, rfl, hmove⟩
  · exact h.inserting c data key began (hsame ▸ hcall)
  · cases hmove with
    | submit _ _ _ _ hnew =>
      rw [hnew] at hcall
      cases hcall
      obtain ⟨clock, body, hbody⟩ := hvalidated
      exact normal_of_validate hbody
    | commitRefused _ _ _ hnew =>
      rcases hnew with ⟨_, _, hnew⟩ | hnew <;> rw [hnew] at hcall <;> cases hcall
    | _ =>
      rename_i hnew
      rw [hnew] at hcall
      cases hcall

theorem sound_inserted {c : Nat} {jobId : UUID} {job : Job} (h : s.Sound settings py env)
    (hstep : step settings s a = some s') (hcall : s'.calls c = .inserted jobId job) :
    job.jobType.Normal py job.payload ∧ job.result = none ∧ job.errorMessage = none := by
  rcases call_move hstep c with ⟨_, hsame⟩ | ⟨b, rfl, hmove⟩
  · exact h.inserted c jobId job (hsame ▸ hcall)
  · cases hmove with
    | insert hinserting _ _ _ hnew =>
      rw [hnew] at hcall
      cases hcall
      exact ⟨h.inserting c _ _ _ hinserting, rfl, rfl⟩
    | commitRefused _ _ _ hnew =>
      rcases hnew with ⟨_, _, hnew⟩ | hnew <;> rw [hnew] at hcall <;> cases hcall
    | _ =>
      rename_i hnew
      rw [hnew] at hcall
      cases hcall

/-- An instance in hand has the request of its row. -/
theorem sound_inHand {w : WorkerId} {m' : Mapped} (h : s.Sound settings py env)
    (hshaped : s.Shaped settings) (hstep : step settings s a = some s')
    (hm' : s'.inHand w = some m') :
    ∃ row, s'.row m'.id = some row ∧ m'.loaded.request = row.request := by
  rcases inHand_step hstep hm' with ⟨_, _, _, _, _, _, _, _, hrow'⟩ | ⟨m, hm, hid, _, hloaded⟩
  · exact ⟨m'.loaded, hrow', rfl⟩
  · obtain ⟨row, hrow, hrequest⟩ := h.inHand w m hm
    obtain ⟨row', hrow', _⟩ := row_step hstep hrow
    refine ⟨row', by rw [hid]; exact hrow', ?_⟩
    rw [request_step hshaped hstep hrow hrow', ← hrequest]
    rcases hloaded with ⟨hsame, _⟩ | ⟨pct, _, hexecuting, hreported⟩
    · rw [hsame]
    · have hshape := hshaped.executor w
      rw [hexecuting] at hshape
      rw [hreported, hshape.2]
      rfl

/-- The handler of an attempt is given the normal payload of its job. -/
theorem executing_normal {w : WorkerId} {m : Mapped} (h : s.Sound settings py env)
    (hshaped : s.Shaped settings) (hexecuting : (s.workers w).executor = .executing m) :
    m.current.jobType.Normal py m.current.payload := by
  obtain ⟨row, hrow, hrequest⟩ := h.inHand w m (inHand_of_executing hexecuting)
  have hshape := hshaped.executor w
  rw [hexecuting] at hshape
  simp only [Job.request, Request.mk.injEq] at hrequest
  rw [hshape.2, hrequest.1, hrequest.2.1]
  exact (h.row m.id row hrow).payload

/-- What the failure path leaves of the payload and the outcome. -/
theorem raised_outcome (settings : Settings) (clock : Timestamp) (raised : Raised) (job : Job) :
    (raised.apply settings clock job).jobType = job.jobType ∧
      (raised.apply settings clock job).payload = job.payload ∧
      (raised.apply settings clock job).result = none ∧
      (raised.apply settings clock job).errorMessage = some (raised.errorMessage settings) := by
  unfold Raised.apply applyFailure
  split <;> exact ⟨rfl, rfl, rfl, rfl⟩

theorem sound_finalising {w : WorkerId} {m' : Mapped} (hlaw : py.Lawful)
    (h : s.Sound settings py env) (hshaped : s.Shaped settings) (hhandles : s.Handles env a)
    (hstep : step settings s a = some s') (hm' : (s'.workers w).executor = .finalising m') :
    m'.current.Sound settings py env m'.id := by
  rcases finalising_step hstep hm' with ⟨hsame, _⟩ | ⟨m, hexecuting, hends⟩
  · exact h.finalising w m' hsame
  · have hnormal := executing_normal h hshaped hexecuting
    rcases hends with ⟨result, clock, rfl, rfl⟩ | ⟨raised, clock, rfl, rfl⟩
    · obtain ⟨hex, hreturns⟩ := hhandles m hexecuting
      refine ⟨hnormal, ?_, by simp [completeJob]⟩
      intro result' heq
      cases heq
      rcases runHandler_normal hlaw hex hnormal with ⟨_, hends, hanswers⟩ | ⟨exc, hends, _⟩
      · rw [hreturns] at hends
        cases hends
        exact hanswers
      · rw [hreturns] at hends
        cases hends
    · have hcauses := hhandles m hexecuting
      obtain ⟨htype, hpayload, hresult, herror⟩ := raised_outcome settings clock raised m.current
      refine ⟨?_, ?_, ?_⟩
      · rw [htype, hpayload]
        exact hnormal
      · intro result heq
        rw [hresult] at heq
        cases heq
      · intro message heq
        rw [herror] at heq
        cases heq
        rw [htype, hpayload]
        rcases hcauses with rfl | ⟨hex, exc, hraises, rfl⟩
        · exact Or.inl rfl
        · rcases runHandler_normal hlaw hex hnormal with ⟨_, hends, _⟩ | ⟨exc', hends, hfails⟩
          · rw [hraises] at hends
            cases hends
          · rw [hraises] at hends
            cases hends
            exact Or.inr ⟨exc, hfails, rfl⟩

theorem sound_of_run (hlaw : py.Lawful) (hrun : Run (step settings) (State.initial now) tr s)
    (hvalidated : ∀ e ∈ tr, e.2.Validated py) (hhandles : ∀ e ∈ tr, e.1.Handles env e.2) :
    s.Sound settings py env := by
  refine hrun.induct (C := fun s a => a.Validated py ∧ s.Handles env a)
    (fun e he => ⟨hvalidated e he, hhandles e he⟩)
    (I := fun _ s => s.Sound settings py env) ?_ ?_
  · exact (State.quiet_initial now).sound fun _ => rfl
  · intro tr s a s' hrun _ h ha hstep
    have hshaped := shaped_of_run (State.quiet_initial now) hrun
    exact
      { row := fun j row hrow => sound_row h hshaped hstep hrow
        inserting := fun c data key began hcall => sound_inserting h ha.1 hstep hcall
        inserted := fun c jobId job hcall => sound_inserted h hstep hcall
        inHand := fun w m hm => sound_inHand h hshaped hstep hm
        finalising := fun w m hm => sound_finalising hlaw h hshaped ha.2 hstep hm }

/-! ## The guarantee -/

/-- What a client may rely on when it reads the row of job `j`. -/
structure Job.Outcome (settings : Settings) (py : Pydantic) (env : Ambient) (j : UUID)
    (row : Job) : Prop extends row.Sound settings py env j where
  /-- The response model takes the row. -/
  rendered : ∃ response, JobResponse.validate j row = some response

theorem Job.Sound.outcome (h : row.Sound settings py env j) : row.Outcome settings py env j := by
  refine ⟨h, ?_⟩
  have hpayload : ∃ fields, row.payload = .obj fields := by
    have hnormal := h.payload
    cases htype : row.jobType with
    | email | webhook =>
      rw [htype] at hnormal
      obtain ⟨_, _, _, heq⟩ := hnormal
      exact ⟨_, heq⟩
    | report =>
      rw [htype] at hnormal
      obtain ⟨_, _, _, heq⟩ := hnormal
      exact ⟨_, heq⟩
    | batch =>
      rw [htype] at hnormal
      obtain ⟨_, _, heq⟩ := hnormal
      exact ⟨_, heq⟩
  obtain ⟨fields, hpayload⟩ := hpayload
  have hresult : ∀ result, row.result = some result → ∃ fields, result = .obj fields := by
    intro result heq
    have hanswers := h.result result heq
    cases htype : row.jobType with
    | email | report =>
      rw [htype] at hanswers
      obtain ⟨_, _, _, hresult⟩ := hanswers
      exact ⟨_, hresult⟩
    | webhook | batch =>
      rw [htype] at hanswers
      obtain ⟨_, _, hresult⟩ := hanswers
      exact ⟨_, hresult⟩
  unfold JobResponse.validate
  rw [hpayload]
  cases hr : row.result with
  | none => exact ⟨_, rfl⟩
  | some result =>
    obtain ⟨fields, rfl⟩ := hresult result hr
    exact ⟨_, rfl⟩

/-- Where requests are validated and attempts end as the handlers do, every row in every
reachable state has a payload in its normal form, a result, if any, that answers this payload,
an error, if any, that is a timeout or a failed delivery, and a response. -/
theorem outcomes_match_requests (hlaw : py.Lawful)
    (hrun : Run (step settings) (State.initial now) tr s)
    (hvalidated : ∀ e ∈ tr, e.2.Validated py) (hhandles : ∀ e ∈ tr, e.1.Handles env e.2)
    (hrow : s.row j = some row) : row.Outcome settings py env j :=
  ((sound_of_run hlaw hrun hvalidated hhandles).row j row hrow).outcome

/-- Texts that are in their normal form already, and draws that are against a delivery. -/
def plainPydantic : Pydantic where
  emailStr text := if text = "" then .error "value is not a valid email address" else .ok text
  httpUrl text := if text = "" then .error "input is empty" else .ok text
  floatText _ := "0.0"

def unluckyAmbient : Ambient where
  random _ := 0
  printable _ := true
  shown _ := ""

theorem lawful_plainPydantic : plainPydantic.Lawful := by
  refine ⟨?_, ?_⟩
  all_goals
    intro raw normal h
    simp only [plainPydantic] at h
    split at h
    · cases h
    · cases h
      assumption

/-- The attempts of an execution that end as their handlers do, where a handler draws `hex`. -/
def handlesWith (env : Ambient) (hex : String) (s : State) : Action → Bool
  | .worker w (.finish result _) =>
      match (s.workers w).executor with
      | .executing m => (runHandler env hex m.id m.current).ending = .returns result
      | _ => true
  | .worker w (.fail raised _) =>
      match (s.workers w).executor with
      | .executing m =>
          match (runHandler env hex m.id m.current).ending with
          | .raises exc => raised = Py.raised exc
          | _ => false
      | _ => true
  | _ => true

theorem handles_of_handlesWith {hex : String} (h : handlesWith env hex s a = true) :
    s.Handles env a := by
  unfold handlesWith at h
  unfold State.Handles
  split
  · rename_i w result clock
    intro m hexecuting
    simp only [hexecuting, decide_eq_true_eq] at h
    exact ⟨hex, h⟩
  · rename_i w raised clock
    intro m hexecuting
    simp only [hexecuting] at h
    cases hending : (runHandler env hex m.id m.current).ending with
    | raises exc =>
      simp only [hending, decide_eq_true_eq] at h
      exact Or.inr ⟨hex, exc, hending, h⟩
    | returns result => simp [hending] at h
    | overruns => simp [hending] at h
    | interrupted pct point => simp [hending] at h
  · trivial

/-- An e-mail is sent, and the first delivery of a webhook fails. -/
theorem outcomes_match_requests_mixed :
    ∃ tr s sent failed, Run (step {}) (State.initial 0) tr s ∧
      (s.row 1 = some sent ∧ sent.status = .completed ∧
        sent.Outcome {} plainPydantic unluckyAmbient 1) ∧
      s.row 2 = some failed ∧ failed.errorMessage.isSome ∧
        failed.Outcome {} plainPydantic unluckyAmbient 2 := by
  let email : JobCreate :=
    { webhookRequest with jobType := .email, payload := .obj [("to", .str "a@example.com")] }
  let webhook : JobCreate :=
    { webhookRequest with payload := .obj [("url", .str "http://example.com/")] }
  have hemail : JobCreate.validate plainPydantic 0
      { jobType := .email, payload := [("to", .str "a@example.com")] } = .ok email := by
    decide +kernel
  have hwebhook : JobCreate.validate plainPydantic 0
      { jobType := .webhook, payload := [("url", .str "http://example.com/")] } = .ok webhook := by
    decide +kernel
  obtain ⟨tr, s, hrun, hactions, hcheck⟩ := run_of_check (step {}) (State.initial 0)
    [.api 0 (.submit email none), .api 0 (.insert 1), .api 0 .commit, .api 0 .command,
      .api 1 (.submit webhook none), .api 1 (.insert 2), .api 1 .commit, .api 1 .command,
      .worker "w" .dequeue, .worker "w" (.claim 0 0), .worker "w" .start,
      .worker "w" (.finish (.obj [("status", .str "sent"), ("to", .str "a@example.com"),
        ("message_id", .str "msg_0123456789ab")]) 0), .worker "w" .commit,
      .worker "w" .dequeue, .worker "w" (.claim 0 0), .worker "w" .start,
      .worker "w" (.fail (Py.raised (handlerError
        (Webhook.failure unluckyAmbient "http://example.com/"))) 0), .worker "w" .commit]
    (fun tr s => (s.row 1).any (·.status = .completed) ∧ (s.row 2).any (·.errorMessage.isSome) ∧
      tr.all fun e => handlesWith unluckyAmbient "0123456789ab" e.1 e.2) (by decide +kernel)
  simp only [Option.any_eq_true, decide_eq_true_eq, List.all_eq_true] at hcheck
  obtain ⟨⟨sent, hsent, hcompleted⟩, ⟨failed, hfailed, herror⟩, hhandles⟩ := hcheck
  have hvalidated : ∀ e ∈ tr, e.2.Validated plainPydantic := by
    refine forall_of_actions (p := Action.Validated plainPydantic) hactions ?_
    simp only [List.forall_mem_cons, Action.Validated, and_true, true_and, List.not_mem_nil,
      false_imp_iff, implies_true]
    exact ⟨⟨0, _, hemail⟩, 0, _, hwebhook⟩
  have houtcome : ∀ j row, s.row j = some row → row.Outcome {} plainPydantic unluckyAmbient j :=
    fun j row hrow => outcomes_match_requests lawful_plainPydantic hrun hvalidated
      (fun e he => handles_of_handlesWith (hhandles e he)) hrow
  exact ⟨tr, s, sent, failed, hrun, ⟨hsent, hcompleted, houtcome 1 sent hsent⟩, hfailed, herror,
    houtcome 2 failed hfailed⟩

end JobQueue
