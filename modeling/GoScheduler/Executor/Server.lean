import GoScheduler.Executor.Records

/-! `GRPCServer` and the process it runs in. A step is what one thread does under the mutex of
the server, one operation of the store, a call out of the process, or several of these where
no other thread can tell. Whatever comes from outside is an input of the step: the clock,
errors of file operations, how a handler returned, what Core and container runtimes answered.
A process may stop between any two steps and be started again on the same directory. -/
namespace GoScheduler.Executor

open Process

section Data

/-- `execution`, with the context that its `cancel` cancels. A time is its nanoseconds, zero
for the zero time. -/
structure Execution where
  context : ℕ
  executionID : Bytes
  state : RunState
  message : Bytes
  finishedAt : Int
  deriving DecidableEq

structure ExecutionCompletion where
  runID : Bytes
  finishedAt : Int
  deriving DecidableEq

inductive Slots where
  | script
  | http
  | docker
  deriving DecidableEq

inductive Code where
  | invalidArgument
  | notFound
  | unavailable
  | resourceExhausted
  deriving DecidableEq

inductive Refusal where
  | invalidDispatch  -- `invalid dispatch request`
  | handlerNotFound (handler : Bytes)  -- `handler %q not found`
  | draining  -- `executor is draining`
  | persistenceUnavailable  -- `executor completion persistence is unavailable`
  | concurrencyLimit (executionType : Slots)  -- `executor %s concurrency limit reached`
  | persistExecution (cause : Error)  -- `persist accepted execution: %v`
  | runIDRequired  -- `run_id is required`
  | persistCancellation (cause : Error)  -- `persist cancellation: %v`
  | cancelExternal  -- `cancel external execution: %v`
  | persistExternalCancellation (cause : Error)  -- `persist external cancellation: %v`
  deriving DecidableEq

def Refusal.code : Refusal → Code
  | .invalidDispatch | .runIDRequired => .invalidArgument
  | .handlerNotFound _ => .notFound
  | .concurrencyLimit _ => .resourceExhausted
  | .draining | .persistenceUnavailable | .persistExecution _ | .persistCancellation _
  | .cancelExternal | .persistExternalCancellation _ => .unavailable

structure Settings where
  codec : Codec
  -- The options of the completion store, where there is one.
  options : Option (List FileCompletionStore.Options)
  historyLimit : Int := 10000
  historyRetention : Int := 24 * 3600 * 1000000000
  completionMaxAttempts : ℕ := 6
  limit : Slots → ℕ
  limit_pos : ∀ executionType, 0 < limit executionType
  handlers : Bytes → Bool
  cancellers : Bytes → Bool

/-- `GRPCServer`. `store` are the counters of the store it was given. -/
structure Server where
  store : Option FileCompletionStore
  serving : Bool  -- Recovery is over: deliveries are made and requests are answered.
  runs : AList fun _ : Bytes => Execution
  draining : Bool
  completed : List ExecutionCompletion
  slots : Slots → ℕ  -- Slots in use.
  completionStoreFailed : Bool
  contexts : ℕ  -- The contexts made so far, and those cancelled.
  cancelled : List ℕ

def Server.initial (store : Option FileCompletionStore) : Server where
  store := store
  serving := store.isNone
  runs := ∅
  draining := false
  completed := []
  slots := fun _ => 0
  completionStoreFailed := false
  contexts := 0
  cancelled := []

/-- What a step finds outside the process. -/
structure Input where
  -- `time.Now()`, where the deadline of a request is set and where it is used otherwise.
  arrivedAt : Int := 0
  now : Int := 0
  createdAt : Time
  fault : Option ℕ := none  -- The error of a file operation, after so many that were made.
  newString : Bytes := []
  result : HandlerResult := .succeeded
  reply : Reply := .success
  elapsed : Bool := true  -- The backoff ended before the deadline of the report.
  cancelled : Bool := true  -- The canceller of the container runtime succeeded.

inductive Recovery where
  | begun  -- Before `List`.
  | listed (completed : List Bytes)  -- Before `ListExecutions`.
  -- In the first loop over `requests`, with those of `todo` ahead.
  | reconciling (completed : List Bytes) (requests todo : List DispatchRequest)
  -- In the first loop, after `Save` for `request`.
  | removing (completed : List Bytes) (requests : List DispatchRequest) (request : DispatchRequest)
      (todo : List DispatchRequest)
  | resuming (completed : List Bytes) (todo : List DispatchRequest)  -- In the second loop.

inductive Persistence where
  | absent  -- There is no store.
  | persisted
  | failed
  deriving DecidableEq

inductive Thread where
  -- `execute`, in the handler.
  | handling (request : DispatchRequest) (context : ℕ) (slots : Option Slots)
  | finishing (request : DispatchRequest) (result : HandlerResult)  -- `finish`, at its beginning.
  -- `finish` of an execution that awaits its callback, before `DeleteExecution`.
  | awaiting (request : DispatchRequest)
  | saving (request : DispatchRequest) (record : CompletionRecord)  -- `finish`, before `Save`.
  -- `finish`, before `DeleteExecution`.
  | clearing (request : DispatchRequest) (record : CompletionRecord)
  -- `finish`, after `DeleteExecution` failed.
  | unclean (request : DispatchRequest) (record : CompletionRecord)
  -- `finish`, before the state of the execution changes.
  | closing (request : DispatchRequest) (record : CompletionRecord) (persistence : Persistence)
  -- `reportCompletion`, before the attempt of that number.
  | reporting (record : CompletionRecord) (attempt : ℕ)
  -- `Cancel`, after the mutex was released.
  | cancelling (request : CancelRequest) (cancelledInMemory : Bool)
  -- `Cancel`, after `DeleteExecution` failed.
  | refusing (request : CancelRequest) (refusal : Refusal)
  -- `deliverPersistedCompletions`, before a record is reported.
  | delivering (record : CompletionRecord)
  -- `deliverPersistedCompletions`, before a record is deleted.
  | delivered (record : CompletionRecord)
  | recovering (recovery : Recovery)

inductive Event where
  | started (request : DispatchRequest) (context : ℕ) (recovered : Bool)  -- A handler was started.
  -- A dispatch request was answered.
  | dispatched (request : DispatchRequest) (answer : Except Refusal DispatchResponse)
  | returned (request : DispatchRequest) (result : HandlerResult)  -- A handler returned.
  | received (request : CancelRequest)  -- A cancel request was received.
  -- A cancel request was answered, with whether it was accepted.
  | answered (request : CancelRequest) (answer : Except Refusal Bool)
  | reported (runID : Bytes) (reply : Reply)  -- Core answered a completion.
  deriving DecidableEq

structure Shared where
  server : Server
  disk : Disk

/-- What comes of a step of a thread: the threads that take its place, and whether the process
exits. -/
structure Outcome where
  shared : Shared
  threads : List Thread := []
  events : List Event := []
  exits : Bool := false

end Data

section Sections

variable (cfg : Settings)

def forget (runs : AList fun _ : Bytes => Execution) (oldest : ExecutionCompletion) :
    AList fun _ : Bytes => Execution :=
  match runs.lookup oldest.runID with
  | some current =>
      if current.state ≠ .running ∧ current.finishedAt = oldest.finishedAt then
        runs.erase oldest.runID
      else runs
  | none => runs

def pruneHistory (limit retention now : Int) :
    List ExecutionCompletion → (AList fun _ : Bytes => Execution) →
      List ExecutionCompletion × AList fun _ : Bytes => Execution
  | [], runs => ([], runs)
  | oldest :: rest, runs =>
      let overLimit := 0 ≤ limit ∧ limit < (oldest :: rest).length
      let expired := 0 < retention ∧ retention ≤ now - oldest.finishedAt
      if ¬overLimit ∧ ¬expired then (oldest :: rest, runs)
      else pruneHistory limit retention now rest (forget runs oldest)

def Server.pruneExecutionHistory (now : Int) (s : Server) : Server :=
  let kept := pruneHistory cfg.historyLimit cfg.historyRetention now s.completed s.runs
  { s with completed := kept.1, runs := kept.2 }

/-- What `finish` and `Cancel` do to an execution that was running. -/
def Server.settle (now : Int) (runID : Bytes) (current : Execution) (state : RunState)
    (message : Bytes) (s : Server) : Server :=
  Server.pruneExecutionHistory cfg now
    { s with
      runs := s.runs.insert runID { current with state, message, finishedAt := now }
      cancelled := current.context :: s.cancelled
      completed := s.completed ++ [⟨runID, now⟩] }

def Server.running (s : Server) (runID : Bytes) : Option Execution :=
  (s.runs.lookup runID).filter fun current => current.state = .running

def Shared.perform (operation : Shelf → Except Error Unit × Shelf) (s : Shared) :
    Except Error Unit × Shared :=
  match s.server.store with
  | none => (.ok (), s)
  | some store =>
      let done := operation ⟨store, s.disk⟩
      (done.1, ⟨{ s.server with store := some done.2.store }, done.2.disk⟩)

def Shared.failStore (s : Shared) : Shared :=
  { s with server := { s.server with completionStoreFailed := true } }

def isExternallyRecoverable (request : DispatchRequest) : Bool :=
  request.scriptLanguage = text "docker" || request.scriptLanguage = text "kubernetes"

def slotsFor (request : DispatchRequest) : Option Slots :=
  if request.scriptLanguage = text "kubernetes" then none
  else if request.scriptLanguage = text "docker" then some .docker
  else if request.http ∨ request.handler = text "__http__" then some .http
  else some .script

def isInvalid (request : DispatchRequest) : Bool :=
  request.runId = [] || request.jobId = [] || request.handler = [] || request.callbackToken = [] ||
    request.timeoutSeconds < 1 || 86400 < request.timeoutSeconds

def DispatchRequest.timed (request : DispatchRequest) (recovered : Bool) (now : Int) :
    DispatchRequest :=
  if recovered = false ∨ request.executionDeadlineUnixMilli = 0 then
    { request with
      executionDeadlineUnixMilli := (now + request.timeoutSeconds * 1000000000) / 1000000 }
  else request

structure Dispatched where
  answer : Except Refusal DispatchResponse
  shared : Shared
  started : Option (DispatchRequest × ℕ × Option Slots) := none

def Server.acquire (s : Server) : Option Slots → Server
  | none => s
  | some executionType =>
      { s with slots := Function.update s.slots executionType (s.slots executionType + 1) }

def Server.release (s : Server) : Option Slots → Server
  | none => s
  | some executionType =>
      { s with slots := Function.update s.slots executionType (s.slots executionType - 1) }

def Server.register (runID executionID : Bytes) (slots : Option Slots) (s : Server) : Server :=
  { s.acquire slots with
    runs := s.runs.insert runID ⟨s.contexts, executionID, .running, [], 0⟩
    contexts := s.contexts + 1 }

def startExecution (inp : Input) (request : DispatchRequest) (s : Shared) : Dispatched :=
  match slotsFor request with
  | some executionType =>
      if cfg.limit executionType ≤ s.server.slots executionType then
        { answer := .error (.concurrencyLimit executionType), shared := s }
      else persist (some executionType)
  | none => persist none
where
  persist (slots : Option Slots) : Dispatched :=
    match s.perform (Shelf.saveExecution cfg.codec inp.fault request) with
    | (.error e, s) => { answer := .error (.persistExecution e), shared := s.failStore }
    | (.ok _, s) =>
        let executionID :=
          if request.externalExecutionId = [] then inp.newString else request.externalExecutionId
        { answer := .ok ⟨true, executionID, .running⟩
          shared := { s with server := s.server.register request.runId executionID slots }
          started := some (request, s.server.contexts, slots) }

def dispatch (inp : Input) (recovered : Bool) (request : DispatchRequest) (s : Shared) :
    Dispatched :=
  if isInvalid request then { answer := .error .invalidDispatch, shared := s }
  else if cfg.handlers request.handler = false then
    { answer := .error (.handlerNotFound request.handler), shared := s }
  else if s.server.draining then { answer := .error .draining, shared := s }
  else if s.server.completionStoreFailed then
    { answer := .error .persistenceUnavailable, shared := s }
  else
    let pruned := { s with server := s.server.pruneExecutionHistory cfg inp.now }
    match pruned.server.runs.lookup request.runId with
    | some current =>
        { answer := .ok ⟨true, current.executionID, current.state⟩, shared := pruned }
    | none => startExecution cfg inp (request.timed recovered inp.arrivedAt) pruned

def Dispatched.thread (d : Dispatched) : List Thread :=
  d.started.toList.map fun x => .handling x.1 x.2.1 x.2.2

def Dispatched.events (d : Dispatched) (recovered : Bool) : List Event :=
  d.started.toList.map fun x => .started x.1 x.2.1 recovered

def truncate (value : Bytes) (limit : ℕ) : Bytes := value.take limit

def completionRecord (inp : Input) (request : DispatchRequest) (result : HandlerResult) :
    CompletionRecord where
  runID := request.runId
  token := request.callbackToken
  succeeded := result = .succeeded
  message := match result with
    | .failed message => truncate message 4096
    | _ => []
  createdAt := inp.createdAt

def finish (inp : Input) (request : DispatchRequest) (result : HandlerResult) (s : Shared) :
    Outcome :=
  match result with
  | .awaitingCallback =>
      let server := match s.server.running request.runId with
        | some current =>
            { s.server with
              runs := s.server.runs.insert request.runId { current with state := .waitingCallback }
              cancelled := current.context :: s.server.cancelled }
        | none => s.server
      { shared := { s with server },
        threads := if s.server.store.isSome then [.awaiting request] else [] }
  | _ =>
      let record := completionRecord inp request result
      if s.server.store.isNone then { shared := s, threads := [.closing request record .absent] }
      else if (s.server.running request.runId).isSome then
        { shared := s, threads := [.saving request record] }
      else { shared := s }

/-- `finish`, where it changes the state of the execution, and the report that follows. -/
def transition (inp : Input) (request : DispatchRequest) (record : CompletionRecord)
    (persistence : Persistence) (s : Shared) : Outcome :=
  match s.server.running request.runId with
  | some current =>
      let state := if record.succeeded then .succeeded else .failed
      { shared := { s with
          server := s.server.settle cfg inp.now request.runId current state record.message },
        threads := if persistence = .persisted then [] else [.reporting record 1] }
  | none => { shared := s }

/-- `finish`, from where it takes the mutex after the operations of the store. -/
def close (inp : Input) (request : DispatchRequest) (record : CompletionRecord)
    (persistence : Persistence) (s : Shared) : Outcome :=
  transition cfg inp request record persistence
    (if persistence = .failed then s.failStore else s)

def report (inp : Input) (record : CompletionRecord) (attempt : ℕ) (s : Shared) : Outcome :=
  if cfg.completionMaxAttempts < attempt then { shared := s }
  else
    { shared := s
      threads :=
        if inp.reply = .other ∧ attempt < cfg.completionMaxAttempts ∧ inp.elapsed then
          [.reporting record (attempt + 1)]
        else []
      events := [.reported record.runID inp.reply] }

/-- `Cancel`, under the mutex. -/
def cancelInMemory (inp : Input) (request : CancelRequest) (s : Server) : Bool × Server :=
  match s.runs.lookup request.runId with
  | some current =>
      if current.state = .running then
        (true, s.settle cfg inp.now request.runId current .cancelled request.reason)
      else (current.state = .cancelled, s)
  | none => (false, s)

def deletePersistedExecution (inp : Input) (request : CancelRequest) (refusal : Error → Refusal)
    (s : Shared) : Outcome :=
  match s.perform (Shelf.deleteExecution inp.fault request.runId) with
  | (.ok _, s) => { shared := s, events := [.answered request (.ok true)] }
  | (.error e, s) => { shared := s, threads := [.refusing request (refusal e)] }

/-- `Cancel`, after the mutex was released. -/
def answerCancel (inp : Input) (request : CancelRequest) (cancelledInMemory : Bool) (s : Shared) :
    Outcome :=
  if request.externalExecutionId = [] ∨ request.jobId = [] ∨ request.scriptLanguage = [] then
    if cancelledInMemory then deletePersistedExecution inp request .persistCancellation s
    else { shared := s, events := [.answered request (.ok false)] }
  else if cfg.cancellers request.scriptLanguage = false then
    if request.scriptLanguage = text "docker" ∨ request.scriptLanguage = text "kubernetes" then
      { shared := s, events := [.answered request (.ok false)] }
    else deletePersistedExecution inp request .persistCancellation s
  else if inp.cancelled then deletePersistedExecution inp request .persistExternalCancellation s
  else { shared := s, events := [.answered request (.error .cancelExternal)] }

def exit (s : Shared) : Outcome := { shared := s, exits := true }

def recoveredRecord (inp : Input) (request : DispatchRequest) (message : String) :
    CompletionRecord where
  runID := request.runId
  token := request.callbackToken
  succeeded := false
  message := text message
  createdAt := inp.createdAt

/-- The first loop of `RecoverExecutions`, for one request. -/
def reconcile (inp : Input) (completed : List Bytes) (requests : List DispatchRequest)
    (request : DispatchRequest) (todo : List DispatchRequest) (s : Shared) : Outcome :=
  if request.runId ∈ completed then
    match s.perform (Shelf.deleteExecution inp.fault request.runId) with
    | (.ok _, s) => { shared := s, threads := [.recovering (.reconciling completed requests todo)] }
    | (.error _, s) => exit s
  else if isExternallyRecoverable request then
    if request.executionDeadlineUnixMilli = 0 ∨
        inp.now < request.executionDeadlineUnixMilli * 1000000 then
      { shared := s, threads := [.recovering (.reconciling completed requests todo)] }
    else if cfg.cancellers request.scriptLanguage = false ∨ inp.cancelled = false then exit s
    else persist "execution deadline exceeded while executor was unavailable"
  else persist "executor restarted before process-local execution completed"
where
  persist (message : String) : Outcome :=
    match s.perform (Shelf.save cfg.codec inp.fault (recoveredRecord inp request message)) with
    | (.ok _, s) =>
        { shared := s, threads := [.recovering (.removing completed requests request todo)] }
    | (.error _, s) => exit s

/-- `RecoverExecutions`, up to the end of its next operation of the store. -/
def recover (inp : Input) (recovery : Recovery) (s : Shared) : Outcome :=
  match s.server.store with
  | none => { shared := s }
  | some store => match recovery with
    | .begun => match Shelf.list cfg.codec inp.fault ⟨store, s.disk⟩ with
        | .error _ => exit s
        | .ok records =>
            { shared := s, threads := [.recovering (.listed (records.map CompletionRecord.runID))] }
    | .listed completed => match Shelf.listExecutions cfg.codec inp.fault ⟨store, s.disk⟩ with
        | .error _ => exit s
        | .ok requests =>
            { shared := s, threads := [.recovering (.reconciling completed requests requests)] }
    | .reconciling completed requests (request :: todo) =>
        reconcile cfg inp completed requests request todo s
    | .reconciling completed requests [] =>
        { shared := s, threads := [.recovering (.resuming completed requests)] }
    | .removing completed requests request todo =>
        match s.perform (Shelf.deleteExecution inp.fault request.runId) with
        | (.error _, s) => exit s
        | (.ok _, s) =>
            let completed :=
              if isExternallyRecoverable request then request.runId :: completed else completed
            { shared := s, threads := [.recovering (.reconciling completed requests todo)] }
    | .resuming completed (request :: todo) =>
        if request.runId ∈ completed ∨ isExternallyRecoverable request = false then
          { shared := s, threads := [.recovering (.resuming completed todo)] }
        else
          let d := dispatch cfg inp true request s
          match d.answer with
          | .error _ => exit d.shared
          | .ok _ =>
              { shared := d.shared
                threads := .recovering (.resuming completed todo) :: d.thread
                events := d.events true }
    | .resuming _ [] => { shared := { s with server := { s.server with serving := true } } }

def Thread.step (inp : Input) (s : Shared) : Thread → Outcome
  | .handling request _ slots =>
      { shared := { s with server := s.server.release slots }
        threads := [.finishing request inp.result]
        events := [.returned request inp.result] }
  | .finishing request result => finish inp request result s
  | .awaiting request =>
      { shared := (s.perform (Shelf.deleteExecution inp.fault request.runId)).2 }
  | .saving request record => match s.perform (Shelf.save cfg.codec inp.fault record) with
      | (.ok _, s) => { shared := s, threads := [.clearing request record] }
      | (.error _, s) => { shared := s, threads := [.closing request record .failed] }
  | .clearing request record =>
      match s.perform (Shelf.deleteExecution inp.fault request.runId) with
      | (.ok _, s) => { shared := s, threads := [.closing request record .persisted] }
      | (.error _, s) => { shared := s, threads := [.unclean request record] }
  | .unclean request record =>
      { shared := s.failStore, threads := [.closing request record .persisted] }
  | .closing request record persistence => close cfg inp request record persistence s
  | .reporting record attempt => report cfg inp record attempt s
  | .cancelling request cancelledInMemory => answerCancel cfg inp request cancelledInMemory s
  | .refusing request refusal =>
      { shared := s.failStore, events := [.answered request (.error refusal)] }
  | .delivering record =>
      { shared := s
        threads := if inp.reply = .other then [] else [.delivered record]
        events := [.reported record.runID inp.reply] }
  | .delivered record => { shared := (s.perform (Shelf.delete inp.fault record.runID)).2 }
  | .recovering recovery => recover cfg inp recovery s

end Sections

section Calls

theorem perform_eq (operation : Shelf → Except Error Unit × Shelf) (s : Shared) :
    ∃ res store disk, s.perform operation = (res, ⟨{ s.server with store }, disk⟩) := by
  unfold Shared.perform
  split
  · exact ⟨_, _, _, rfl⟩
  · exact ⟨_, _, _, rfl⟩

theorem timed_runId (request : DispatchRequest) (recovered : Bool) (now : Int) :
    (request.timed recovered now).runId = request.runId := by
  unfold DispatchRequest.timed
  split
  · rfl
  · rfl

theorem slotsFor_timed (request : DispatchRequest) (recovered : Bool) (now : Int) :
    slotsFor (request.timed recovered now) = slotsFor request := by
  unfold DispatchRequest.timed
  split
  · rfl
  · rfl

variable {cfg : Settings} {inp : Input} {request : DispatchRequest} {s : Shared}
  {P : Dispatched → Prop}

theorem dispatch_cases (recovered : Bool)
    (hrefused : ∀ refusal, P { answer := .error refusal, shared := s })
    (hknown : ∀ current,
      (s.server.pruneExecutionHistory cfg inp.now).runs.lookup request.runId = some current →
      P { answer := .ok ⟨true, current.executionID, current.state⟩
          shared := { s with server := s.server.pruneExecutionHistory cfg inp.now } })
    (hnew : (s.server.pruneExecutionHistory cfg inp.now).runs.lookup request.runId = none →
      P (startExecution cfg inp (request.timed recovered inp.arrivedAt)
        { s with server := s.server.pruneExecutionHistory cfg inp.now })) :
    P (dispatch cfg inp recovered request s) := by
  unfold dispatch
  split
  · exact hrefused _
  split
  · exact hrefused _
  split
  · exact hrefused _
  split
  · exact hrefused _
  dsimp only
  split
  · next current hcurrent => exact hknown current hcurrent
  · next hnone => exact hnew hnone

theorem startExecution_cases (hfull : ∀ refusal, P { answer := .error refusal, shared := s })
    (hpersist : ∀ slots, P (startExecution.persist cfg inp request s slots)) :
    P (startExecution cfg inp request s) := by
  unfold startExecution
  split
  · split
    · exact hfull _
    · exact hpersist _
  · exact hpersist _

end Calls

section History

variable {limit retention now : Int} {runID : Bytes} {e : Execution}

theorem running_eq_some {server : Server} :
    server.running runID = some e ↔ server.runs.lookup runID = some e ∧ e.state = .running := by
  simp [Server.running, Option.filter_eq_some_iff]

/-- The entries that pruning takes: from the oldest on, as long as there are too many or the
oldest has expired. -/
def dueHistory (limit retention now : Int) : List ExecutionCompletion → List ExecutionCompletion
  | [] => []
  | oldest :: rest =>
      if (0 ≤ limit ∧ limit < (oldest :: rest).length) ∨
          (0 < retention ∧ retention ≤ now - oldest.finishedAt) then
        oldest :: dueHistory limit retention now rest
      else []

def ExecutionCompletion.IsOf (entry : ExecutionCompletion) (runID : Bytes) (e : Execution) : Prop :=
  entry.runID = runID ∧ e.state ≠ .running ∧ e.finishedAt = entry.finishedAt

theorem lookup_forget_ne (runs : AList fun _ : Bytes => Execution) {oldest : ExecutionCompletion}
    (h : runID ≠ oldest.runID) : (forget runs oldest).lookup runID = runs.lookup runID := by
  unfold forget
  split
  · split
    · exact AList.lookup_erase_ne h
    · rfl
  · rfl

theorem lookup_forget (runs : AList fun _ : Bytes => Execution) (oldest : ExecutionCompletion) :
    (forget runs oldest).lookup runID = some e ↔
      runs.lookup runID = some e ∧ ¬oldest.IsOf runID e := by
  unfold ExecutionCompletion.IsOf
  by_cases hrun : runID = oldest.runID
  · subst hrun
    unfold forget
    cases hlookup : runs.lookup oldest.runID with
    | none => simp [hlookup]
    | some current =>
      by_cases hgone : current.state ≠ .running ∧ current.finishedAt = oldest.finishedAt
      · simp only [if_pos hgone, AList.lookup_erase, true_and]
        refine ⟨fun h => (by cases h), fun ⟨h, hkept⟩ => ?_⟩
        cases h
        exact absurd hgone hkept
      · simp only [if_neg hgone, hlookup, true_and]
        refine ⟨fun h => ⟨h, fun hof => ?_⟩, And.left⟩
        cases h
        exact hgone hof
  · rw [lookup_forget_ne runs hrun]
    simp [Ne.symm hrun]

theorem lookup_pruneHistory (completed : List ExecutionCompletion)
    (runs : AList fun _ : Bytes => Execution) :
    (pruneHistory limit retention now completed runs).2.lookup runID = some e ↔
      runs.lookup runID = some e ∧
        ∀ entry ∈ dueHistory limit retention now completed, ¬entry.IsOf runID e := by
  induction completed generalizing runs with
  | nil => simp [pruneHistory, dueHistory]
  | cons oldest rest ih =>
    unfold pruneHistory dueHistory
    by_cases hdue : (0 ≤ limit ∧ limit < (oldest :: rest).length) ∨
        (0 < retention ∧ retention ≤ now - oldest.finishedAt)
    · simp only [← not_or, hdue, not_true, if_true, if_false, ih, lookup_forget, List.mem_cons,
        forall_eq_or_imp, and_assoc]
    · rw [if_pos (not_or.1 hdue), if_neg hdue]
      simp

end History

section Machine

structure Node where
  server : Server
  threads : List Thread
  log : List Event

/-- The directory, the process that runs on it, and what was seen of earlier ones. -/
structure Machine where
  disk : Disk
  node : Option Node
  past : List Event

inductive Label where
  | start (inp : Input)  -- The process is started.
  | stop  -- The process stops and the machine runs on.
  -- The machine stops: of the unsynced changes only `kept` have reached the disk.
  | powerLoss (kept : List Change) (garbage : Name → Bytes)
  | dispatch (request : DispatchRequest) (inp : Input)
  | cancel (request : CancelRequest) (inp : Input)
  | drain  -- `Drain`, and the end of its context.
  | drainExpired
  | deliver (inp : Input)  -- A round of `deliverPersistedCompletions`.
  | advance (thread : ℕ) (inp : Input)  -- The thread at that place takes its next step.

def Thread.isDelivery : Thread → Bool
  | .delivering _ | .delivered _ => true
  | _ => false

namespace Machine

def init : Machine where
  disk := ⟨∅, [], []⟩
  node := none
  past := []

def history (m : Machine) : List Event :=
  match m.node with
  | some node => node.log ++ m.past
  | none => m.past

def halted (m : Machine) (disk : Disk) : Machine :=
  { disk, node := none, past := m.history }

def expire (s : Server) : Server :=
  { s with
    cancelled := (s.runs.entries.filter fun e => e.2.state = .running).map (fun e => e.2.context) ++
      s.cancelled }

variable (cfg : Settings)

def start (m : Machine) (inp : Input) : Machine :=
  match cfg.options with
  | none => { m with node := some ⟨.initial none, [], []⟩ }
  | some options => match Shelf.newFileCompletionStore cfg.codec inp.fault options m.disk with
      | (.error _, disk) => { m with disk := disk.abandon }
      | (.ok store, disk) =>
          { m with disk, node := some ⟨.initial (some store), [.recovering .begun], []⟩ }

def receiveDispatch (s : Shared) (request : DispatchRequest) (inp : Input) : Outcome :=
  let d := Executor.dispatch cfg inp false request s
  { shared := d.shared
    threads := d.thread
    events := .dispatched request d.answer :: d.events false }

def receiveCancel (s : Shared) (request : CancelRequest) (inp : Input) : Outcome :=
  if request.runId = [] then
    { shared := s
      events := [.answered request (.error .runIDRequired), .received request] }
  else
    let done := cancelInMemory cfg inp request s.server
    { shared := { s with server := done.2 }
      threads := [.cancelling request done.1]
      events := [.received request] }

def deliver (s : Shared) (inp : Input) : Outcome :=
  match s.server.store with
  | none => { shared := s }
  | some store => match Shelf.list cfg.codec inp.fault ⟨store, s.disk⟩ with
      | .error _ => { shared := s }
      | .ok records => { shared := s, threads := records.map .delivering }

def act (node : Node) (disk : Disk) : Label → Option (Outcome × List Thread)
  | .dispatch request inp =>
      if node.server.serving then
        some (receiveDispatch cfg ⟨node.server, disk⟩ request inp, node.threads)
      else none
  | .cancel request inp =>
      if node.server.serving then
        some (receiveCancel cfg ⟨node.server, disk⟩ request inp, node.threads)
      else none
  | .drain => some ({ shared := ⟨{ node.server with draining := true }, disk⟩ }, node.threads)
  | .drainExpired => some ({ shared := ⟨expire node.server, disk⟩ }, node.threads)
  | .deliver inp =>
      if node.server.serving ∧ node.threads.any Thread.isDelivery = false then
        some (deliver cfg ⟨node.server, disk⟩ inp, node.threads)
      else none
  | .advance i inp => match node.threads[i]? with
      | some thread => some (thread.step cfg inp ⟨node.server, disk⟩, node.threads.eraseIdx i)
      | none => none
  | _ => none

def apply (m : Machine) (node : Node) (outcome : Outcome) (others : List Thread) : Machine :=
  let m' : Machine :=
    { disk := outcome.shared.disk
      node := some ⟨outcome.shared.server, outcome.threads ++ others, outcome.events ++ node.log⟩
      past := m.past }
  if outcome.exits then m'.halted outcome.shared.disk.abandon else m'

def step (m : Machine) : Label → Option Machine
  | .start inp => if m.node.isSome then none else some (m.start cfg inp)
  | .stop => if m.node.isSome then some (m.halted m.disk.abandon) else none
  | .powerLoss kept garbage =>
      if kept.Sublist m.disk.changes then some (m.halted (m.disk.lose kept garbage)) else none
  | l => match m.node with
      | some node => (act cfg node m.disk l).map fun x => m.apply node x.1 x.2
      | none => none

def run (m : Machine) : List Label → Option Machine
  | [] => some m
  | l :: ls => (m.step cfg l).bind fun m' => run m' ls

def runWhile (ok : Machine → Label → Prop) [∀ m l, Decidable (ok m l)] (m : Machine) :
    List Label → Option Machine
  | [] => some m
  | l :: ls => if ok m l then (m.step cfg l).bind fun m' => runWhile ok m' ls else none

inductive Reachable (ok : Machine → Label → Prop) : Machine → Prop where
  | init : Reachable ok Machine.init
  | step {m m' : Machine} {l : Label} (hm : Reachable ok m) (hs : m.step cfg l = some m')
      (hok : ok m l) : Reachable ok m'

inductive Acts (node : Node) (disk : Disk) : Label → Outcome → List Thread → Prop where
  | dispatch (request : DispatchRequest) (inp : Input) (hserving : node.server.serving = true) :
      Acts node disk (.dispatch request inp)
        (receiveDispatch cfg ⟨node.server, disk⟩ request inp) node.threads
  | cancel (request : CancelRequest) (inp : Input) (hserving : node.server.serving = true) :
      Acts node disk (.cancel request inp)
        (receiveCancel cfg ⟨node.server, disk⟩ request inp) node.threads
  | drain : Acts node disk .drain { shared := ⟨{ node.server with draining := true }, disk⟩ }
      node.threads
  | drainExpired :
      Acts node disk .drainExpired { shared := ⟨expire node.server, disk⟩ } node.threads
  | deliver (inp : Input) (hserving : node.server.serving = true)
      (hidle : node.threads.any Thread.isDelivery = false) :
      Acts node disk (.deliver inp) (deliver cfg ⟨node.server, disk⟩ inp) node.threads
  | advance (i : ℕ) (inp : Input) (thread : Thread) (hthread : node.threads[i]? = some thread) :
      Acts node disk (.advance i inp) (thread.step cfg inp ⟨node.server, disk⟩)
        (node.threads.eraseIdx i)

inductive Step (m : Machine) : Label → Machine → Prop where
  | start (inp : Input) (hnode : m.node = none) : Step m (.start inp) (m.start cfg inp)
  | stop (node : Node) (hnode : m.node = some node) : Step m .stop (m.halted m.disk.abandon)
  | powerLoss (kept : List Change) (garbage : Name → Bytes) (hkept : kept.Sublist m.disk.changes) :
      Step m (.powerLoss kept garbage) (m.halted (m.disk.lose kept garbage))
  | act {l : Label} (node : Node) (outcome : Outcome) (others : List Thread)
      (hnode : m.node = some node) (hacts : Acts cfg node m.disk l outcome others) :
      Step m l (m.apply node outcome others)

variable {cfg} {m m' : Machine}

theorem act_cases {node : Node} {disk : Disk} {l : Label} {outcome : Outcome} {others : List Thread}
    (hact : act cfg node disk l = some (outcome, others)) :
    Acts cfg node disk l outcome others := by
  unfold act at hact
  split at hact
  · split at hact
    · next hserving =>
      cases hact
      exact .dispatch _ _ hserving
    · cases hact
  · split at hact
    · next hserving =>
      cases hact
      exact .cancel _ _ hserving
    · cases hact
  · cases hact
    exact .drain
  · cases hact
    exact .drainExpired
  · split at hact
    · next hserving =>
      cases hact
      exact .deliver _ hserving.1 hserving.2
    · cases hact
  · split at hact
    · next thread hthread =>
      cases hact
      exact .advance _ _ thread hthread
    · cases hact
  · cases hact

theorem Acts.others {node : Node} {disk : Disk} {l : Label} {outcome : Outcome}
    {others : List Thread} (h : Acts cfg node disk l outcome others) : others ⊆ node.threads := by
  cases h with
  | advance i inp thread => exact List.eraseIdx_subset
  | _ => exact List.Subset.refl _

theorem step_cases {l : Label} (hs : m.step cfg l = some m') : Step cfg m l m' := by
  unfold step at hs
  split at hs
  · split at hs
    · cases hs
    · next hnode =>
      cases hs
      exact .start _ (Option.not_isSome_iff_eq_none.1 hnode)
  · split at hs
    · next hnode =>
      cases hs
      obtain ⟨node, hnode⟩ := Option.isSome_iff_exists.1 hnode
      exact .stop node hnode
    · cases hs
  · split at hs
    · next hkept =>
      cases hs
      exact .powerLoss _ _ hkept
    · cases hs
  · split at hs
    · next node hnode =>
      obtain ⟨⟨outcome, others⟩, hact, rfl⟩ := Option.map_eq_some_iff.1 hs
      exact .act node outcome others hnode (act_cases hact)
    · cases hs

theorem apply_node {node node' : Node} {outcome : Outcome} {others : List Thread}
    (h : (m.apply node outcome others).node = some node') :
    outcome.exits = false ∧
      node' = ⟨outcome.shared.server, outcome.threads ++ others, outcome.events ++ node.log⟩ := by
  unfold apply at h
  cases hexits : outcome.exits with
  | true =>
    rw [hexits] at h
    cases h
  | false =>
    rw [hexits] at h
    cases h
    exact ⟨rfl, rfl⟩

theorem apply_history {node : Node} {outcome : Outcome} {others : List Thread}
    (hnode : m.node = some node) :
    (m.apply node outcome others).history = outcome.events ++ m.history := by
  have hold : m.history = node.log ++ m.past := by rw [history, hnode]
  unfold apply
  split
  · rw [hold, ← List.append_assoc]
    rfl
  · rw [hold, ← List.append_assoc]
    rfl

theorem apply_visible {node : Node} {outcome : Outcome} {others : List Thread} :
    (m.apply node outcome others).disk.visible = outcome.shared.disk.visible := by
  unfold apply
  split
  · exact Disk.visible_abandon _
  · rfl

theorem start_history (hnode : m.node = none) (inp : Input) :
    (m.start cfg inp).history = m.history := by
  have hpast : m.history = m.past := by rw [history, hnode]
  unfold start
  split
  · exact hpast.symm
  · split
    · rw [hpast, history, hnode]
    · exact hpast.symm

theorem Reachable.of_any {ok : Machine → Label → Prop} (hm : Reachable cfg ok m) :
    Reachable cfg (fun _ _ => True) m := by
  induction hm with
  | init => exact .init
  | step _ hs _ ih => exact .step ih hs trivial

theorem Reachable.run {ls : List Label} (hm : Reachable cfg (fun _ _ => True) m)
    (hr : m.run cfg ls = some m') : Reachable cfg (fun _ _ => True) m' := by
  induction ls generalizing m with
  | nil =>
    cases hr
    exact hm
  | cons l ls ih =>
    obtain ⟨m₁, hs, hr'⟩ := Option.bind_eq_some_iff.1 hr
    exact ih (.step hm hs trivial) hr'

theorem Reachable.runWhile {ok : Machine → Label → Prop} [∀ m l, Decidable (ok m l)]
    {ls : List Label} (hm : Reachable cfg ok m) (hr : m.runWhile cfg ok ls = some m') :
    Reachable cfg ok m' := by
  induction ls generalizing m with
  | nil =>
    cases hr
    exact hm
  | cons l ls ih =>
    unfold Machine.runWhile at hr
    split at hr
    · next hok =>
      obtain ⟨m₁, hs, hr'⟩ := Option.bind_eq_some_iff.1 hr
      exact ih (.step hm hs hok) hr'
    · cases hr

end Machine

end Machine

section Sample

-- Of the records and requests that differ from these in their runs only, that is all there is to
-- store.
def Codec.perRun (record : CompletionRecord) (request : DispatchRequest) : Codec where
  marshal r := if r = { record with runID := r.runID } then some r.runID else none
  unmarshal raw := some { record with runID := raw }.stored
  unmarshal_marshal := by
    intro r raw h
    split at h
    · next hr =>
      cases h
      rw [← hr]
    · cases h
  marshalRequest r := if r = { request with runId := r.runId } then some r.runId else none
  unmarshalRequest raw := some { request with runId := raw }
  unmarshalRequest_marshalRequest := by
    intro r raw h
    split at h
    · next hr =>
      cases h
      rw [← hr]
    · cases h

def dockerRequest : DispatchRequest where
  runId := text "7"
  jobId := text "1"
  handler := text "__docker__"
  callbackToken := text "token"
  timeoutSeconds := 60
  externalExecutionId := text "7"
  scriptLanguage := text "docker"
  http := false
  executionDeadlineUnixMilli := 60000
  payload := []

def newYear : Time := .newYear 2024

def dockerRecord : CompletionRecord where
  runID := text "7"
  token := text "token"
  succeeded := true
  message := []
  createdAt := newYear

def plainSettings (options : Option (List FileCompletionStore.Options)) : Settings where
  codec := .perRun dockerRecord dockerRequest
  options := options
  limit := fun _ => 1
  limit_pos := fun _ => one_pos
  handlers := fun _ => true
  cancellers := fun _ => false

def recovered : List Label :=
  [.start { createdAt := newYear }, .advance 0 { createdAt := newYear },
    .advance 0 { createdAt := newYear }, .advance 0 { createdAt := newYear },
    .advance 0 { createdAt := newYear }]

end Sample

end GoScheduler.Executor
