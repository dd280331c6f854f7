import GoScheduler.ReadCommitted.Triples
import GoScheduler.Schedule
import Mathlib.Data.List.Sort

/-! The tables of the scheduler. Identifiers are numbers, and an absent identifier is
`none` where the columns hold NULL and the Go structs the empty string. Columns that no
modelled statement reads (names, descriptions, HTTP targets, response bodies) are left
out. Three fields of a run and two tables record history that no statement reads: the
statuses and claims of a run, the job version its schedule fired under, the claims
delivered to Cores and the children a completion found. -/
namespace GoScheduler.Store
open ReadCommitted Schedule

inductive RunStatus where
  | pending | running | waitingCallback | succeeded | failed | timedOut | cancelled | skipped
deriving DecidableEq, Repr

def RunStatus.active : RunStatus → Bool
  | .pending | .running | .waitingCallback => true
  | _ => false

inductive TriggerType where
  | schedule | manual | retry | dependency
deriving DecidableEq, Repr

inductive OverlapPolicy where
  | queue | skip | serial | discardLater | coverEarly | parallel
deriving DecidableEq, Repr

inductive RouteStrategy where
  | first | last | round | random | hash | lfu | lru | failover | busyover | shardingBroadcast
deriving DecidableEq, Repr

structure Broadcast where
  groupID : ℕ
  index : ℕ
  total : ℕ
deriving DecidableEq, Repr

structure Lease where
  owner : String
  token : ℕ
  until_ : Int
deriving DecidableEq, Repr

structure Callback where
  tokenHash : ℕ
  deadline : Int
deriving DecidableEq, Repr

structure Run where
  id : ℕ
  tenantID : ℕ
  jobID : ℕ
  triggerType : TriggerType
  status : RunStatus
  attempt : ℕ := 1
  scheduledAt : Int
  availableAt : Int
  runtimeInput : String := ""
  parentRunID : Option ℕ := none
  retryOfRunID : Option ℕ := none
  externalExecutionID : ℕ
  executorNodeID : String := ""
  executorAddress : String := ""
  broadcast : Option Broadcast := none
  rescheduleOnTerminal : Bool := false
  overrideAddresses : List String := []
  lease : Option Lease := none
  callback : Option Callback := none
  startedAt : Option Int := none
  finishedAt : Option Int := none
  responseStatus : ℕ := 0
  errorMessage : String := ""
  history : List RunStatus  -- Every status the run has been in, the current one first.
  claims : List ℕ := []  -- The lease tokens of its claims, the latest first.
  -- The version of the job when its schedule fired; a retry keeps it.
  epoch : ℕ := 0
deriving DecidableEq, Repr

def Run.enter (r : Run) (s : RunStatus) : Run :=
  { r with status := s, history := if r.status = s then r.history else s :: r.history }

structure Sealed where
  encrypted : List ℕ := []
  keyVersion : Option ℕ := none
deriving DecidableEq, Repr

structure Job where
  id : ℕ
  tenantID : ℕ
  scheduleType : ScheduleType
  scheduleExpression : String
  timezone : String
  headers : String := "{}"
  encryptedHeaders : Sealed := {}
  dockerRegistryAuth : Sealed := {}
  timeoutSeconds : ℕ := 30
  maxRetries : ℕ := 0
  overlapPolicy : OverlapPolicy
  misfirePolicy : MisfirePolicy
  enabled : Bool := true
  nextRunAt : Option Int := none
  lastRunAt : Option Int := none
  version : ℕ := 1
  maxConcurrentRuns : ℕ := 1
  maxCatchUp : ℕ := 10
  callbackTimeoutSeconds : ℕ := 3600
  maxQueueSize : ℕ := 1000
  executorGroupID : Option ℕ := none
  scriptLanguage : String := ""
  scriptSource : String := ""
  kubernetesClusterID : Option ℕ := none
  requiredExecutorLabels : List String := []
  excludedExecutorLabels : List String := []
deriving DecidableEq, Repr

structure ClaimedRun where
  run : Run
  job : Job
deriving DecidableEq, Repr

structure Tenant where
  maxConcurrentRuns : ℕ
deriving DecidableEq, Repr

structure ExecutorGroup where
  routeStrategy : RouteStrategy
deriving DecidableEq, Repr

structure ExecutorNode where
  groupID : ℕ
  nodeID : String
  address : String
  isStatic : Bool
  expiresAt : Int
  labels : List String
deriving DecidableEq, Repr

structure KubernetesCluster where
  id : ℕ
  maxConcurrentJobs : ℕ
deriving DecidableEq, Repr

/-- `job.run.` followed by a status or by `exhausted`. -/
inductive Topic where
  | status (s : RunStatus)
  | exhausted
deriving DecidableEq, Repr

structure OutboxEvent where
  tenantID : ℕ
  topic : Topic
  runID : ℕ
  jobID : ℕ
  status : RunStatus
  attempt : ℕ
  triggerType : TriggerType
  scheduledAt : Int
  occurredAt : Int
deriving DecidableEq, Repr

structure Dependency where
  tenantID : ℕ
  parentJobID : ℕ
  childJobID : ℕ
deriving DecidableEq, Repr

structure DependencyDispatch where
  parentRunID : ℕ
  childJobID : ℕ
  childRunID : ℕ
  childScheduledAt : Int
deriving DecidableEq, Repr

structure IdempotencyRecord where
  runID : ℕ
  scheduledAt : Int
deriving DecidableEq, Repr

structure ExecutorCommand where
  executorAddress : String
  reason : String
  externalExecutionID : ℕ
  jobID : ℕ
  scriptLanguage : String
  kubernetesClusterID : Option ℕ
deriving DecidableEq, Repr

structure JobScriptVersion where
  jobID : ℕ
  revision : ℕ
  scriptLanguage : String
  scriptSource : String
  remark : String
deriving DecidableEq, Repr

inductive Key where
  | tenant (id : ℕ)
  | executorGroup (id : ℕ)
  | executorNode (groupID : ℕ) (nodeID : String)
  | kubernetesCluster (id : ℕ)
  | job (id : ℕ)
  | jobScriptVersion (id : ℕ)
  | run (id : ℕ)
  | outboxEvent (id : ℕ)
  | dependency (parentJobID childJobID : ℕ)
  | dispatch (parentRunID childJobID : ℕ)
  | idempotency (tenantID jobID : ℕ) (key : String)
  | command (tenantID runID : ℕ)
  | claim (token : ℕ)
  | dependents (runID : ℕ)
  | advisoryLock (jobID : ℕ)
  | uuid (id : ℕ)
deriving DecidableEq, Repr

abbrev Row : Key → Type
  | .tenant _ => Tenant
  | .executorGroup _ => ExecutorGroup
  | .executorNode _ _ => ExecutorNode
  | .kubernetesCluster _ => KubernetesCluster
  | .job _ => Job
  | .jobScriptVersion _ => JobScriptVersion
  | .run _ => Run
  | .outboxEvent _ => OutboxEvent
  | .dependency _ _ => Dependency
  | .dispatch _ _ => DependencyDispatch
  | .idempotency _ _ _ => IdempotencyRecord
  | .command _ _ => ExecutorCommand
  | .claim _ => ClaimedRun
  | .dependents _ => List ℕ
  | .advisoryLock _ => Unit
  | .uuid _ => Unit

abbrev Db := Database Key Row

inductive StoreError where
  | notFound | conflict | queueFull | notCancellable | dependencyCycle
  | overrideRequiresExecutorGroup
  | overrideAddressNotRegistered (missing : List String)
  | invalidFailureState (state : RunStatus)
  | encryptedHeadersRequireCipher | encryptHeaders | decryptHeaders | unmarshalHeaders
  | registryAuthRequiresCipher | encryptRegistryAuth | decryptRegistryAuth
  | unmarshalRegistryAuth
  | schedule (e : ScheduleError)
  | noLiveExecutorNodes (jobID : Option ℕ)
  | duplicateKey
  | remarkTooLong
deriving DecidableEq, Repr

abbrev Tx (α : Type) := Program Key Row StoreError α

section Tables

def runs (d : Db) : List Run := d.keys.filterMap fun
  | .run id => d.row (.run id)
  | _ => none

def jobs (d : Db) : List Job := d.keys.filterMap fun
  | .job id => d.row (.job id)
  | _ => none

def executorNodes (d : Db) : List ExecutorNode := d.keys.filterMap fun
  | .executorNode g n => d.row (.executorNode g n)
  | _ => none

def kubernetesClusters (d : Db) : List KubernetesCluster := d.keys.filterMap fun
  | .kubernetesCluster id => d.row (.kubernetesCluster id)
  | _ => none

def dependencies (d : Db) : List Dependency := d.keys.filterMap fun
  | .dependency p c => d.row (.dependency p c)
  | _ => none

def jobScriptVersions (d : Db) : List JobScriptVersion := d.keys.filterMap fun
  | .jobScriptVersion id => d.row (.jobScriptVersion id)
  | _ => none

end Tables

end GoScheduler.Store
