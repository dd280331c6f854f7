import GoScheduler.Store.RunState

/-! The transactions that move a run: dispatch to an executor, completion and failure
reported by a worker, the callback of an executor, expiry of callbacks, and cancellation.
A worker passes back the run as it was claimed. -/
namespace GoScheduler.Store
open ReadCommitted Schedule

def leasedBy (token : ℕ) (r : Run) : Bool :=
  r.status == .running && (r.lease.map Lease.token == some token)

/-- `requireRunLease`, and the token itself. -/
def requireRunLease (run : Run) : Tx ℕ :=
  match run.lease with
  | some lease => pure lease.token
  | none => .fail .conflict

def Run.finish (r : Run) (status : RunStatus) (now : Int) : Run :=
  { r.enter status with finishedAt := some now, lease := none, callback := none }

def waitForCallback (responseStatus tokenHash : ℕ) (deadline : Int) (r : Run) : Run :=
  { r.enter .waitingCallback with
    responseStatus := responseStatus
    callback := some ⟨tokenHash, timestamp deadline⟩
    lease := none }

def updateLeasedRun (run : Run) (set : Run → Run) : Tx Run := do
  let token ← requireRunLease run
  match ← updateRun run.id (leasedBy token) set with
  | some r => pure r
  | none => .fail .conflict

def assignClaimedRunExecutor (run : Run) (nodeID address : String) : Tx Unit := do
  let _ ← updateLeasedRun run fun r =>
    { r with executorNodeID := nodeID, executorAddress := address }
  pure ()

def prepareClaimedExecutorDispatch (now : Int) (run : Run) (nodeID address : String)
    (tokenHash : ℕ) (deadline : Int) : Tx Unit := do
  let _ ← updateLeasedRun run fun r =>
    waitForCallback 202 tokenHash deadline
      { r with executorNodeID := nodeID, executorAddress := address }
  emitRunLifecycleEvent now run.id .waitingCallback

def markClaimedWaitingCallback (now : Int) (run : Run) (status tokenHash : ℕ)
    (deadline : Int) : Tx Unit := do
  let _ ← updateLeasedRun run (waitForCallback status tokenHash deadline)
  emitRunLifecycleEvent now run.id .waitingCallback

def completeRun (env : Env) (now : Int) (run : Run) (success : Bool) (status : ℕ)
    (errorMessage : String) : Tx Unit := do
  let state : RunStatus := if success then .succeeded else .failed
  let _ ← updateLeasedRun run fun r =>
    { r.finish state now with responseStatus := status, errorMessage := errorMessage }
  emitRunLifecycleEvent now run.id state
  .when (success = false) (emitRunEvent now run.id state .exhausted)
  .when (success = true) (enqueueDependentRuns env now run)
  rearmFixedDelay env run now

/-- `retryDelay` is absent where the engine has decided not to retry. -/
def failRun (env : Env) (now : Int) (run : Run) (state : RunStatus) (status : ℕ)
    (errorMessage : String) (retryDelay : Option Int) : Tx (Option Run) := do
  if state ≠ .failed ∧ state ≠ .timedOut then .fail (.invalidFailureState state) else
  let _ ← updateLeasedRun run fun r =>
    { r.finish state now with responseStatus := status, errorMessage := errorMessage }
  emitRunLifecycleEvent now run.id state
  match retryDelay with
  | none => do
      emitRunEvent now run.id state .exhausted
      rearmFixedDelay env run now
      pure none
  | some delay => some <$> insertRetryRun now run delay

def awaitsCallback (tokenHash : ℕ) (now : Int) (r : Run) : Bool :=
  r.status == .waitingCallback &&
    r.callback.any fun c => c.tokenHash == tokenHash && now < c.deadline

def maxRetriesOf (jobID : ℕ) (d : Db) : Option ℕ := (d.row (.job jobID)).map Job.maxRetries

def retryOrExhaust (env : Env) (now : Int) (r : Run) (status : RunStatus) (maxRetries : ℕ) :
    Tx Unit :=
  if r.attempt ≤ maxRetries then do
    let _ ← insertRetryRun now r (callbackRetryDelay r.attempt)
    pure ()
  else do
    emitRunEvent now r.id status .exhausted
    rearmFixedDelay env r now

def completeCallback (env : Env) (now : Int) (runID tokenHash : ℕ) (succeeded : Bool)
    (message : String) : Tx Unit := do
  let state : RunStatus := if succeeded then .succeeded else .failed
  match ← updateRun runID (awaitsCallback tokenHash now) fun r =>
      { r.finish state now with errorMessage := if succeeded then "" else message } with
  | none => .fail .notFound
  | some terminal =>
      match ← select (maxRetriesOf terminal.jobID) with
      | none => .fail .notFound
      | some maxRetries =>
          emitRunLifecycleEvent now runID state
          if succeeded then
            enqueueDependentRuns env now terminal
            rearmFixedDelay env terminal now
          else retryOrExhaust env now terminal state maxRetries

def callbackExpiryBatchSize : ℕ := 200

def callbackExpired (now : Int) (r : Run) : Bool :=
  r.status == .waitingCallback && r.callback.any fun c => c.deadline ≤ now

def expiredCallbacks (now : Int) (d : Db) : List (Key × Run × ℕ) :=
  ((runs d).filter (callbackExpired now)).filterMap fun r =>
    (maxRetriesOf r.jobID d).map fun n => (.run r.id, r, n)

def expireCallback (env : Env) (now : Int) (item : Run × ℕ) : Tx Unit := do
  match ← updateRun item.1.id (fun r => r.status == .waitingCallback) fun r =>
      { r.finish .timedOut now with errorMessage := "callback deadline exceeded" } with
  | none => .fail .notFound
  | some _ =>
      emitRunLifecycleEvent now item.1.id .timedOut
      retryOrExhaust env now item.1 .timedOut item.2

def expireCallbacks (env : Env) (now : Int) : Tx Unit := do
  let expired ← .exec (.skipLocked (expiredCallbacks now) callbackExpiryBatchSize)
  .forEach expired (expireCallback env now)

def cancellable (tenantID : ℕ) (r : Run) : Bool := r.tenantID == tenantID && r.status.active

def cancelRun (env : Env) (now : Int) (tenantID runID : ℕ) (reason : String) : Tx Run := do
  match ← updateRun runID (cancellable tenantID) fun r =>
      { r.finish .cancelled (r.finishedAt.getD now) with errorMessage := reason } with
  | some run =>
      emitRunLifecycleEvent now run.id .cancelled
      .when (run.executorAddress ≠ "") (enqueueExecutorCancellation run reason)
      rearmFixedDelay env run (run.finishedAt.getD now)
      pure run
  | none =>
      match ← select fun d => (d.row (.run runID)).filter fun r => r.tenantID == tenantID with
      | none => .fail .notFound
      | some run =>
          if run.status = .cancelled then
            .when (run.executorAddress ≠ "") (enqueueExecutorCancellation run run.errorMessage)
            pure run
          else .fail .notCancellable

end GoScheduler.Store
