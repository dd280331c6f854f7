import GoScheduler.Store.Schema

/-! Transitions of runs: lifecycle events, re-arming of fixed-delay jobs, cancellation
by the overlap policy, retries, dispatch to dependent jobs, and the transactions by which
workers, callbacks and operators end a run. `now` is the timestamp of the transaction. A
statement that inserts from a query, or updates several rows, is a query followed by one
step for each row, since a row may change between the two. -/
namespace GoScheduler.Store
open ReadCommitted Schedule

structure Cipher where
  encrypt : String → Option (List ℕ × ℕ)
  decrypt : List ℕ → ℕ → Option String

/-- What the store is configured with and the library functions it calls. -/
structure Env where
  calendar : Calendar
  cipher : Option Cipher
  unmarshalHeaders : String → Bool
  unmarshalRegistryAuth : String → Bool
  overrideNodeID : String → String

section Statements

def newUUID : Tx ℕ := .exec (.fresh .uuid)

def timeNow : Tx Int := .exec .clock

def select {β : Type} (query : Db → β) : Tx β := .exec (.select query)

def lockJob (id : ℕ) (p : Job → Bool) : Tx (Option Job) :=
  .exec (.lock (V := Row) (Key.job id) p)

def updateJobRow (id : ℕ) (p : Job → Bool) (set : Job → Job) : Tx (Option Job) :=
  .exec (.update (V := Row) (Key.job id) p set)

def updateRun (id : ℕ) (p : Run → Bool) (set : Run → Run) : Tx (Option Run) :=
  .exec (.update (V := Row) (Key.run id) p set)

def insertRow (k : Key) (v : Row k) : Tx Unit := do
  if ← .exec (.insert k v) then pure () else .fail .duplicateKey

end Statements

section Outbox

def outboxEvent (now : Int) (topic : Topic) (r : Run) : OutboxEvent where
  tenantID := r.tenantID
  topic := topic
  runID := r.id
  jobID := r.jobID
  status := r.status
  attempt := r.attempt
  triggerType := r.triggerType
  scheduledAt := r.scheduledAt
  occurredAt := now

def emitRunEvent (now : Int) (runID : ℕ) (expectedStatus : RunStatus) (topic : Topic) :
    Tx Unit := do
  let eventID ← newUUID
  match ← select fun d => d.row (.run runID) with
  | some r =>
      if r.status = expectedStatus then
        insertRow (.outboxEvent eventID) (outboxEvent now topic r)
      else pure ()
  | none => pure ()

def emitRunLifecycleEvent (now : Int) (runID : ℕ) (runStatus : RunStatus) : Tx Unit :=
  emitRunEvent now runID runStatus (.status runStatus)

/-- Every insertion of a run is followed by the event of its first status. -/
def insertRun (now : Int) (r : Run) : Tx Unit := do
  insertRow (.run r.id) r
  emitRunLifecycleEvent now r.id r.status

end Outbox

section Rearm

def unfinishedShard (groupID : ℕ) (r : Run) : Bool :=
  (r.broadcast.map Broadcast.groupID == some groupID) && r.rescheduleOnTerminal &&
    r.status.active

def unfinishedShards (groupID : ℕ) (d : Db) : Bool := (runs d).any (unfinishedShard groupID)

def rearmJob (env : Env) (jobID : ℕ) (terminalAt : Int) : Tx Unit := do
  match ← lockJob jobID fun j => j.scheduleType == .fixedDelay with
  | none => pure ()
  | some j =>
      if !j.enabled || j.nextRunAt.isSome then pure () else
      match next env.calendar .fixedDelay j.scheduleExpression j.timezone terminalAt with
      | .error e => .fail (.schedule e)
      | .ok t =>
          let _ ← updateJobRow jobID
            (fun j => j.enabled && j.scheduleType == .fixedDelay && j.nextRunAt.isNone)
            fun j => { j with nextRunAt := some (timestamp t), lastRunAt := some terminalAt }
          pure ()

def rearmFixedDelay (env : Env) (r : Run) (terminalAt : Int) : Tx Unit :=
  if !r.rescheduleOnTerminal then pure () else
  match r.broadcast with
  | none => rearmJob env r.jobID terminalAt
  | some b => do
      if ← select (unfinishedShards b.groupID) then pure ()
      else rearmJob env r.jobID terminalAt

end Rearm

section BlockPolicy

inductive BlockAction where
  | enqueue | skip | cancelAndEnqueue
deriving DecidableEq, Repr

def canonicalBlockPolicy : OverlapPolicy → OverlapPolicy
  | .queue => .serial
  | .skip => .discardLater
  | policy => policy

def decideBlockAction (policy : OverlapPolicy) (hasActive : Bool) : BlockAction :=
  if !hasActive then .enqueue else
  match canonicalBlockPolicy policy with
  | .discardLater => .skip
  | .coverEarly => .cancelAndEnqueue
  | _ => .enqueue

def enqueueExecutorCancellation (run : Run) (reason : String) : Tx Unit := do
  let job ← select fun d => (d.row (.job run.jobID)).filter fun j => j.tenantID == run.tenantID
  match job with
  | none => .fail .notFound
  | some j =>
      let command : ExecutorCommand := {
        executorAddress := run.executorAddress
        reason := reason
        externalExecutionID := run.externalExecutionID
        jobID := run.jobID
        scriptLanguage := j.scriptLanguage
        kubernetesClusterID := j.kubernetesClusterID }
      .exec (.upsert (.command run.tenantID run.id) command fun old =>
        { command with executorAddress := old.executorAddress, reason := old.reason })

def coverRun (now : Int) (r : Run) : Run :=
  { r.enter .cancelled with
    finishedAt := some now
    errorMessage := "block strategy: covered by newer trigger"
    lease := none
    callback := none }

def activeOfJob (jobID : ℕ) (r : Run) : Bool := r.jobID == jobID && r.status.active

/-- The covering `UPDATE`: the rows of its snapshot, each checked again when it is reached. -/
def coverActiveRuns (now : Int) (jobID : ℕ) : Tx (List Run) := do
  let ids ← select fun d => ((runs d).filter (activeOfJob jobID)).map Run.id
  .foldEach ids [] fun covered id => do
    match ← updateRun id (activeOfJob jobID) (coverRun now) with
    | some r => pure (covered ++ [r])
    | none => pure covered

def settleCoveredRun (env : Env) (now : Int) (r : Run) : Tx Unit := do
  emitRunLifecycleEvent now r.id .cancelled
  .when (r.executorAddress ≠ "")
    (enqueueExecutorCancellation r "block strategy: covered by newer trigger")
  rearmFixedDelay env r now

def coverEarly (env : Env) (now : Int) (jobID : ℕ) : Tx Unit := do
  let covered ← coverActiveRuns now jobID
  .forEach covered (settleCoveredRun env now)

def applyBlockAction (env : Env) (now : Int) (jobID : ℕ) (action : BlockAction) :
    Tx BlockAction := do
  .when (action = .cancelAndEnqueue) (coverEarly env now jobID)
  pure action

def hasActiveRun (jobID : ℕ) (d : Db) : Bool := (runs d).any (activeOfJob jobID)

def applyBlockPolicy (env : Env) (now : Int) (jobID : ℕ) (policy : OverlapPolicy) :
    Tx BlockAction := do
  let hasActive ← select (hasActiveRun jobID)
  applyBlockAction env now jobID (decideBlockAction policy hasActive)

def pendingCount (jobID : ℕ) (d : Db) : ℕ :=
  (runs d).countP fun r => r.jobID == jobID && r.status == .pending

end BlockPolicy

section Broadcasting

structure BroadcastShard where
  nodeID : String
  address : String
  index : ℕ
  total : ℕ
deriving DecidableEq, Repr

def liveExecutorNodes (now : Int) (groupID : Option ℕ) (d : Db) : List ExecutorNode :=
  ((executorNodes d).filter fun n =>
    (some n.groupID == groupID) && (n.isStatic || now < n.expiresAt)).insertionSort
      fun a b => a.nodeID ≤ b.nodeID

def filterExecutorNodes (nodes : List ExecutorNode) (required excluded : List String) :
    List ExecutorNode :=
  nodes.filter fun n => required.all (n.labels.contains ·) && !excluded.any (n.labels.contains ·)

def planBroadcastShards (nodes : List ExecutorNode) : List BroadcastShard :=
  let sorted := nodes.insertionSort fun a b => a.nodeID ≤ b.nodeID
  sorted.mapIdx fun index n => ⟨n.nodeID, n.address, index, sorted.length⟩

def jobExecutorLabels (jobID : ℕ) (d : Db) : List String × List String :=
  match d.row (.job jobID) with
  | some j => (j.requiredExecutorLabels, j.excludedExecutorLabels)
  | none => ([], [])

def planShards (now : Int) (jobID : ℕ) (groupID : Option ℕ) : Tx (List BroadcastShard) := do
  let nodes ← select (liveExecutorNodes now groupID)
  let (required, excluded) ← select (jobExecutorLabels jobID)
  pure (planBroadcastShards (filterExecutorNodes nodes required excluded))

def Run.onShard (r : Run) (groupID : ℕ) (shard : BroadcastShard) : Run :=
  { r with
    executorNodeID := shard.nodeID
    executorAddress := shard.address
    broadcast := some ⟨groupID, shard.index, shard.total⟩ }

end Broadcasting

section Retry

def callbackRetryDelay (attempt : ℕ) : Int := second * 2 ^ min (max attempt 1 - 1) 6

def retryRun (previous : Run) (id : ℕ) (at_ delay : Int) : Run where
  id := id
  tenantID := previous.tenantID
  jobID := previous.jobID
  triggerType := .retry
  status := .pending
  attempt := previous.attempt + 1
  scheduledAt := timestamp at_
  availableAt := timestamp at_ + delay
  runtimeInput := previous.runtimeInput
  parentRunID := previous.parentRunID
  retryOfRunID := some previous.id
  externalExecutionID := id
  executorNodeID := previous.executorNodeID
  executorAddress := previous.executorAddress
  broadcast := previous.broadcast
  rescheduleOnTerminal := previous.rescheduleOnTerminal
  overrideAddresses := previous.overrideAddresses
  history := [.pending]
  epoch := previous.epoch

def insertRetryRun (now : Int) (previous : Run) (delay : Int) : Tx Run := do
  let id ← newUUID
  let at_ ← timeNow
  let r := retryRun previous id at_ delay
  insertRun now r
  pure r

end Retry

section Dependents

structure Dependent where
  id : ℕ
  policy : OverlapPolicy
  maxQueue : ℕ
  executorGroupID : Option ℕ
  routeStrategy : Option RouteStrategy
deriving DecidableEq, Repr

def routeStrategy (d : Db) (groupID : Option ℕ) : Option RouteStrategy :=
  groupID.bind fun g => (d.row (.executorGroup g)).map ExecutorGroup.routeStrategy

def dependentJobs (tenantID parentJobID : ℕ) (d : Db) : List Dependent :=
  (((dependencies d).filter fun e =>
    e.tenantID == tenantID && e.parentJobID == parentJobID).filterMap fun e =>
      (d.row (.job e.childJobID)).map fun j =>
        (⟨e.childJobID, j.overlapPolicy, j.maxQueueSize, j.executorGroupID,
          routeStrategy d j.executorGroupID⟩ : Dependent)).insertionSort fun a b => a.id ≤ b.id

def dependentRun (now scheduledAt : Int) (parent : Run) (childID id : ℕ) (status : RunStatus)
    (message : String) : Run where
  id := id
  tenantID := parent.tenantID
  jobID := childID
  triggerType := .dependency
  status := status
  scheduledAt := timestamp scheduledAt
  availableAt := now
  parentRunID := some parent.id
  externalExecutionID := id
  finishedAt := if status = .skipped then some now else none
  errorMessage := message
  history := [status]

def insertDependentShards (now scheduledAt : Int) (parent : Run) (childID runID : ℕ)
    (shards : List BroadcastShard) : Tx Unit := do
  let groupID ← newUUID
  .forEach shards fun shard => do
    let fresh ← newUUID
    let id := if shard.index = 0 then runID else fresh
    insertRun now
      ((dependentRun now scheduledAt parent childID id .pending "").onShard groupID shard)

def dispatchDependent (env : Env) (now : Int) (parent : Run) (child : Dependent) : Tx Unit := do
  .exec (.acquire (.advisoryLock child.id))
  let runID ← newUUID
  let scheduledAt ← timeNow
  let reserved ← .exec (.insert (.dispatch parent.id child.id)
    ⟨parent.id, child.id, runID, timestamp scheduledAt⟩)
  if !reserved then pure () else
  let pending ← select (pendingCount child.id)
  let action ← applyBlockPolicy env now child.id child.policy
  if action = .skip ∨ action = .enqueue ∧ child.maxQueue ≤ pending then
    insertRun now (dependentRun now scheduledAt parent child.id runID .skipped
      "dependency trigger skipped by block strategy or queue limit")
  else if child.routeStrategy = some .shardingBroadcast then
    let shards ← planShards now child.id child.executorGroupID
    if shards = [] then .fail (.noLiveExecutorNodes (some child.id))
    else if action = .enqueue ∧ child.maxQueue < pending + shards.length then
      insertRun now (dependentRun now scheduledAt parent child.id runID .skipped
        "dependency trigger skipped by queue limit")
    else insertDependentShards now scheduledAt parent child.id runID shards
  else insertRun now (dependentRun now scheduledAt parent child.id runID .pending "")

def enqueueDependentRuns (env : Env) (now : Int) (parent : Run) : Tx Unit := do
  let children ← select (dependentJobs parent.tenantID parent.jobID)
  .exec (.upsert (.dependents parent.id) (children.map Dependent.id) fun _ =>
    children.map Dependent.id)
  .forEach children (dispatchDependent env now parent)

end Dependents

end GoScheduler.Store
