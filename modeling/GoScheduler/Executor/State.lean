import GoScheduler.Process.Disk
import GoScheduler.Text.Rfc3339

/-! The records of the executor process and what it exchanges with Core and with handlers.
Texts are byte strings, as in Go. -/
namespace GoScheduler.Executor

open Process

abbrev Time : Type := Text.Time

abbrev text (s : String) : Bytes := Text.bytes s

instance lawfulBEqBytes : LawfulBEq Bytes := inferInstance

/-- The fields the executor reads; `payload` are those it only hands to the handler. -/
structure DispatchRequest where
  runId : Bytes
  jobId : Bytes
  handler : Bytes
  callbackToken : Bytes
  timeoutSeconds : Int
  externalExecutionId : Bytes
  scriptLanguage : Bytes
  http : Bool
  executionDeadlineUnixMilli : Int
  payload : Bytes
  deriving DecidableEq

structure CompletionRecord where
  runID : Bytes
  token : Bytes
  succeeded : Bool
  message : Bytes
  createdAt : Time
  deriving DecidableEq

structure CancelRequest where
  runId : Bytes
  reason : Bytes
  externalExecutionId : Bytes
  jobId : Bytes
  scriptLanguage : Bytes
  deriving DecidableEq

inductive RunState where
  | running
  | succeeded
  | failed
  | cancelled
  | waitingCallback
  deriving DecidableEq

structure DispatchResponse where
  accepted : Bool
  executionId : Bytes
  state : RunState
  deriving DecidableEq

inductive Error where
  | context  -- The context is cancelled or past its deadline.
  | runID  -- `completion run ID must contain only letters, digits, dots, underscores, or hyphens`
  | token  -- `completion token must be between 1 and 4096 bytes`
  | message  -- `completion message exceeds 4096 bytes`
  | createdAt  -- `completion creation time is required`
  | encode  -- `encode completion record`, `encode execution record`
  | size  -- `completion record exceeds size limit`, `execution record exceeds size limit`
  -- `completion state contains %d records; maximum is %d`, and the same of executions
  | capacity (present maximum : Int)
  | alreadyExists (runID : Bytes)  -- `completion record for run %q already exists`
  | requestRequired  -- `execution request is required`
  | requestIncomplete  -- `execution request is incomplete`
  -- `execution record for run %q already exists with different content`
  | differentContent (runID : Bytes)
  | read (entry : Name)  -- `read completion record %q`, `read execution record %q`
  -- `completion record %q exceeds size limit`, `execution record %q exceeds size limit`
  | entrySize (entry : Name)
  | decode (entry : Name)  -- `decode completion record %q`, `decode execution record %q`
  | validate (entry : Name) (cause : Error)  -- `validate completion record %q`
  -- `completion record %q has mismatched run ID`, `execution record %q has invalid or mismatched
  -- run ID`
  | mismatched (entry : Name)
  | tooManyOptions  -- `at most one completion store options value is supported`
  | maximumNotPositive  -- `maximum completion and execution records must be positive`
  -- `executor state exceeds configured capacity`
  | exceedsCapacity (completions maxCompletions executions maxExecutions : Int)
  | io  -- A file operation, or the context of the request.
  deriving DecidableEq

inductive HandlerResult where
  | succeeded
  | failed (message : Bytes)
  | awaitingCallback  -- `ErrAwaitingCallback`
  deriving DecidableEq

/-- Core's answer to a completion: success, one of the errors that no later attempt can
change, or any other error. -/
inductive Reply where
  | success
  | permanent
  | other
  deriving DecidableEq

structure FileCompletionStore where
  pending : Int
  max : Int
  executions : Int
  maxExecutions : Int
  deriving DecidableEq

end GoScheduler.Executor
