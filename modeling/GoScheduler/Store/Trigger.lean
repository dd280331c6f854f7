import GoScheduler.Store.RunState
import GoScheduler.Text.Space

/-! The manual trigger of a job, with idempotency keys and executor address overrides. -/
namespace GoScheduler.Store
open ReadCommitted Schedule

structure TriggerState where
  maxQueue : ℕ
  policy : OverlapPolicy
  routeStrategy : Option RouteStrategy
  executorGroupID : Option ℕ
  pending : ℕ
deriving DecidableEq, Repr

def triggerState (tenantID jobID : ℕ) (d : Db) : Option TriggerState :=
  ((d.row (.job jobID)).filter fun j => j.tenantID == tenantID).map fun j =>
    ⟨j.maxQueueSize, j.overlapPolicy, routeStrategy d j.executorGroupID, j.executorGroupID,
      pendingCount jobID d⟩

def normalizeExecutorAddress (address : String) : String :=
  String.ofList ((Text.trimSpace address).toList.reverse.dropWhile (· == '/')).reverse

def unregisteredOverrideAddresses (nodes : List ExecutorNode) (addresses : List String) :
    List String :=
  let registered := nodes.map fun n => normalizeExecutorAddress n.address
  addresses.filter fun a => !registered.contains (normalizeExecutorAddress a)

def overrideExecutorNodes (env : Env) (addresses : List String) : List ExecutorNode :=
  addresses.map fun a => ⟨0, env.overrideNodeID a, a, true, 0, []⟩

structure TriggerRequest where
  tenantID : ℕ
  jobID : ℕ
  key : String := ""
  input : String := ""
  overrideAddresses : List String := []
deriving DecidableEq, Repr

def manualRun (now : Int) (req : TriggerRequest) (id : ℕ) (scheduledAt : Int)
    (status : RunStatus) : Run where
  id := id
  tenantID := req.tenantID
  jobID := req.jobID
  triggerType := .manual
  status := status
  scheduledAt := timestamp scheduledAt
  availableAt := now
  runtimeInput := req.input
  externalExecutionID := id
  overrideAddresses := req.overrideAddresses
  finishedAt := if status = .skipped then some now else none
  errorMessage := if status = .skipped then "block strategy: discard later" else ""
  history := [status]

def idempotentRun (req : TriggerRequest) (d : Db) : Option Run :=
  (d.row (.idempotency req.tenantID req.jobID req.key)).bind fun e =>
    (d.row (.run e.runID)).filter fun r => r.scheduledAt == e.scheduledAt

def insertManualShards (now : Int) (req : TriggerRequest) (runID : ℕ) (scheduledAt : Int)
    (shards : List BroadcastShard) : Tx Run := do
  let groupID ← newUUID
  .forEach shards fun shard => do
    let fresh ← newUUID
    let id := if shard.index = 0 then runID else fresh
    insertRun now ((manualRun now req id scheduledAt .pending).onShard groupID shard)
  match shards with
  | [] => .fail (.noLiveExecutorNodes none)
  | shard :: _ => pure ((manualRun now req runID scheduledAt .pending).onShard groupID shard)

/-- The part of a trigger that follows the check of the idempotency key. -/
def triggerReserved (env : Env) (now : Int) (req : TriggerRequest) (runID : ℕ)
    (scheduledAt : Int) (state : TriggerState) : Tx Run := do
  let missing ← (if req.overrideAddresses = [] then pure [] else do
    let nodes ← select (liveExecutorNodes now state.executorGroupID)
    pure (unregisteredOverrideAddresses nodes req.overrideAddresses) : Tx (List String))
  if missing ≠ [] then .fail (.overrideAddressNotRegistered missing) else
  let action ← applyBlockPolicy env now req.jobID state.policy
  if action = .enqueue ∧ state.maxQueue ≤ state.pending then .fail .queueFull
  else if action = .skip then
    let r := manualRun now req runID scheduledAt .skipped
    insertRun now r
    pure r
  else if state.routeStrategy = some .shardingBroadcast then
    let shards ← (if req.overrideAddresses = [] then
        planShards now req.jobID state.executorGroupID
      else pure (planBroadcastShards (overrideExecutorNodes env req.overrideAddresses)) :
      Tx (List BroadcastShard))
    if shards = [] then .fail (.noLiveExecutorNodes none)
    else if action = .enqueue ∧ state.maxQueue < state.pending + shards.length then
      .fail .queueFull
    else insertManualShards now req runID scheduledAt shards
  else
    let r := manualRun now req runID scheduledAt .pending
    insertRun now r
    pure r

def triggerJobWithOptions (env : Env) (now : Int) (req : TriggerRequest) : Tx Run := do
  let runID ← newUUID
  let scheduledAt ← timeNow
  .exec (.acquire (.advisoryLock req.jobID))
  match ← select (triggerState req.tenantID req.jobID) with
  | none => .fail .notFound
  | some state =>
      if req.overrideAddresses ≠ [] ∧ state.executorGroupID = none then
        .fail .overrideRequiresExecutorGroup
      else if req.key = "" then triggerReserved env now req runID scheduledAt state
      else
        let reserved ← .exec (.insert (.idempotency req.tenantID req.jobID req.key)
          ⟨runID, timestamp scheduledAt⟩)
        if reserved then triggerReserved env now req runID scheduledAt state
        else match ← select (idempotentRun req) with
          | some r => pure r
          | none => .fail .notFound

end GoScheduler.Store
