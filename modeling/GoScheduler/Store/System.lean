import GoScheduler.Store.Jobs
import GoScheduler.Store.RunTransactions
import GoScheduler.Store.Trigger

/-! The transactions of any number of Cores and API servers on one database. The
registries of tenants, executor groups, nodes and clusters are written by single-row
transactions of which only the rows are modelled. Transactions are numbered, so the same
operation can be issued any number of times. -/
namespace GoScheduler.Store
open ReadCommitted Schedule

inductive Operation where
  | createTenant (id : ℕ) (row : Tenant)
  | createExecutorGroup (id : ℕ) (row : ExecutorGroup)
  | updateExecutorGroup (id : ℕ) (row : ExecutorGroup)
  | registerExecutor (row : ExecutorNode)
  | createKubernetesCluster (row : KubernetesCluster)
  | updateKubernetesCluster (row : KubernetesCluster)
  | createJob (job : Job) (secrets : Secrets)
  | updateJob (job : Job) (secrets : Secrets)
  | setJobEnabled (tenantID id : ℕ) (enabled : Bool) (version : ℕ)
  | setJobDependencies (tenantID parentJobID : ℕ) (childJobIDs : List ℕ)
  | triggerJob (request : TriggerRequest)
  | enqueueDue (batchSize : ℕ)
  | claimRuns (owner : String) (limit : ℕ) (lease : Int)
  | assignClaimedRunExecutor (run : Run) (nodeID address : String)
  | prepareClaimedExecutorDispatch (run : Run) (nodeID address : String) (tokenHash : ℕ)
      (deadline : Int)
  | markClaimedWaitingCallback (run : Run) (status tokenHash : ℕ) (deadline : Int)
  | completeRun (run : Run) (success : Bool) (status : ℕ) (errorMessage : String)
  | failRun (run : Run) (state : RunStatus) (status : ℕ) (errorMessage : String)
      (retryDelay : Option Int)
  | completeCallback (runID tokenHash : ℕ) (succeeded : Bool) (message : String)
  | expireCallbacks
  | cancelRun (tenantID runID : ℕ) (reason : String)
deriving DecidableEq

/-- An operation issued at the time `now`, the value of `now()` in its statements. -/
structure Transaction where
  serial : ℕ
  now : Int
  operation : Operation
deriving DecidableEq

inductive Result where
  | done
  | job (j : Job)
  | run (r : Run)
  | retry (r : Option Run)
  | claimed (cs : List ClaimedRun)

def operationProgram (env : Env) (now : Int) : Operation → Tx Result
  | .createTenant id row => do insertRow (.tenant id) row; pure .done
  | .createExecutorGroup id row => do insertRow (.executorGroup id) row; pure .done
  | .updateExecutorGroup id row => do
      let _ ← .exec (.update (V := Row) (Key.executorGroup id) (fun _ => true) fun _ => row)
      pure .done
  | .registerExecutor row => do
      .exec (.upsert (V := Row) (Key.executorNode row.groupID row.nodeID) row fun _ => row)
      pure .done
  | .createKubernetesCluster row => do insertRow (.kubernetesCluster row.id) row; pure .done
  | .updateKubernetesCluster row => do
      let _ ← .exec (.update (V := Row) (Key.kubernetesCluster row.id) (fun _ => true) fun _ => row)
      pure .done
  | .createJob job secrets => .job <$> createJob env job secrets
  | .updateJob job secrets => .job <$> updateJob env job secrets
  | .setJobEnabled tenantID id enabled version =>
      .job <$> setJobEnabled env tenantID id enabled version
  | .setJobDependencies tenantID parentJobID childJobIDs => do
      setJobDependencies tenantID parentJobID childJobIDs; pure .done
  | .triggerJob request => .run <$> triggerJobWithOptions env now request
  | .enqueueDue batchSize => do enqueueDue env now batchSize; pure .done
  | .claimRuns owner limit lease => .claimed <$> claimRuns env now owner limit lease
  | .assignClaimedRunExecutor run nodeID address => do
      assignClaimedRunExecutor run nodeID address; pure .done
  | .prepareClaimedExecutorDispatch run nodeID address tokenHash deadline => do
      prepareClaimedExecutorDispatch now run nodeID address tokenHash deadline; pure .done
  | .markClaimedWaitingCallback run status tokenHash deadline => do
      markClaimedWaitingCallback now run status tokenHash deadline; pure .done
  | .completeRun run success status errorMessage => do
      completeRun env now run success status errorMessage; pure .done
  | .failRun run state status errorMessage retryDelay =>
      .retry <$> failRun env now run state status errorMessage retryDelay
  | .completeCallback runID tokenHash succeeded message => do
      completeCallback env now runID tokenHash succeeded message; pure .done
  | .expireCallbacks => do expireCallbacks env now; pure .done
  | .cancelRun tenantID runID reason => .run <$> cancelRun env now tenantID runID reason

def claimedRunOf : Operation → Option Run
  | .assignClaimedRunExecutor run _ _ => some run
  | .prepareClaimedExecutorDispatch run _ _ _ _ => some run
  | .markClaimedWaitingCallback run _ _ _ => some run
  | .completeRun run _ _ _ => some run
  | .failRun run _ _ _ _ => some run
  | _ => none

abbrev SchedulerMachine := Machine Transaction Key Row StoreError Result

def anyCaller (env : Env) : ReadCommitted.System Transaction Key Row StoreError Result where
  program := fun t => operationProgram env t.now t.operation
  admissible := fun d t => t.now == d.clock

section Sample

def plainEnv : Env where
  calendar := ⟨fun _ => true, fun _ _ _ => .error (.cron "no cron")⟩
  cipher := none
  unmarshalHeaders := fun _ => true
  unmarshalRegistryAuth := fun _ => true
  overrideNodeID := id

def plainJob : Job where
  id := 0
  tenantID := 1
  scheduleType := .fixedRate
  scheduleExpression := "60"
  timezone := "UTC"
  overlapPolicy := .serial
  misfirePolicy := .catchUp

end Sample

end GoScheduler.Store
