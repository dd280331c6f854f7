import GoScheduler.Store.RunState

/-! The two transactions of a Core's tick: enqueueing the occurrences of due jobs and
claiming runs under the concurrency limits. The claim is a statement that locks the
clusters with claimable work and then a statement with a later snapshot, which ranks the
candidates and updates the rows it can lock. -/
namespace GoScheduler.Store
open ReadCommitted Schedule

section Decoding

def openSealed (env : Env) (s : Sealed) (missing failed : StoreError) :
    Except StoreError (Option String) :=
  if s.encrypted = [] then .ok none else
  match env.cipher, s.keyVersion with
  | some cipher, some version => match cipher.decrypt s.encrypted version with
      | some plain => .ok (some plain)
      | none => .error failed
  | _, _ => .error missing

/-- The part of `scanJob` that can fail on a stored row: the sealed columns. -/
def scanJob (env : Env) (j : Job) : Except StoreError Job := do
  let headers ← openSealed env j.encryptedHeaders .encryptedHeadersRequireCipher .decryptHeaders
  if !env.unmarshalHeaders (headers.getD j.headers) then .error .unmarshalHeaders else
  match ← openSealed env j.dockerRegistryAuth .registryAuthRequiresCipher
      .decryptRegistryAuth with
  | some plain =>
      if env.unmarshalRegistryAuth plain then .ok j else .error .unmarshalRegistryAuth
  | none => .ok j

def liftExcept {α : Type} : Except StoreError α → Tx α
  | .ok a => pure a
  | .error e => .fail e

end Decoding

section EnqueueDue

def isDue (now : Int) (j : Job) : Bool := j.enabled && j.nextRunAt.any (· ≤ now)

def dueJobs (now : Int) (d : Db) : List (Key × Job) :=
  (((jobs d).filter (isDue now)).insertionSort fun a b =>
    a.nextRunAt.getD 0 ≤ b.nextRunAt.getD 0).map fun j => (.job j.id, j)

/-- A missing group is an error; a job without a group has no strategy. -/
def executorRouteStrategies (due : List Job) (d : Db) :
    Option (List (Option ℕ × Option RouteStrategy)) :=
  due.mapM fun j => match j.executorGroupID with
    | none => some (none, none)
    | some g => (d.row (.executorGroup g)).map fun e => (some g, some e.routeStrategy)

def scheduledRun (now : Int) (j : Job) (id : ℕ) (scheduledAt : Int) (status : RunStatus) :
    Run where
  id := id
  tenantID := j.tenantID
  jobID := j.id
  triggerType := .schedule
  status := status
  scheduledAt := timestamp scheduledAt
  availableAt := now
  externalExecutionID := id
  rescheduleOnTerminal := j.scheduleType == .fixedDelay
  finishedAt := if status = .skipped then some now else none
  errorMessage := if status = .skipped then "block strategy: discard later or queue full" else ""
  history := [status]
  epoch := j.version

def advanceJob (next : Int) (j : Job) : Job :=
  { j with
    lastRunAt := j.nextRunAt
    nextRunAt := if next = zeroTime then none else some (timestamp next)
    enabled := if next = zeroTime ∧ j.scheduleType = .once then false else j.enabled }

def jobRunQueueState (jobID : ℕ) (d : Db) : ℕ × Bool := (pendingCount jobID d, hasActiveRun jobID d)

/-- One row for an occurrence; a skipped fixed-delay occurrence is scheduled anew. -/
def enqueueOne (env : Env) (now : Int) (j : Job) (goNow : Int) (next_ : Int)
    (scheduledAt : Int) (status : RunStatus) : Tx Int := do
  let runID ← newUUID
  insertRun now (scheduledRun now j runID scheduledAt status)
  if j.scheduleType = .fixedDelay ∧ status = .skipped then
    match next env.calendar j.scheduleType j.scheduleExpression j.timezone goNow with
    | .ok t => pure t
    | .error e => .fail (.schedule e)
  else pure next_

def insertScheduledShards (now : Int) (j : Job) (scheduledAt : Int)
    (shards : List BroadcastShard) : Tx Unit := do
  let groupID ← newUUID
  .forEach shards fun shard => do
    let runID ← newUUID
    insertRun now ((scheduledRun now j runID scheduledAt .pending).onShard groupID shard)

def enqueueOccurrence (env : Env) (now : Int) (j : Job) (strategy : Option RouteStrategy)
    (goNow : Int) (next_ scheduledAt : Int) : Tx Int := do
  let (queued, hasActive) ← select (jobRunQueueState j.id)
  let action ← applyBlockAction env now j.id (decideBlockAction j.overlapPolicy hasActive)
  if action = .skip ∨ action = .enqueue ∧ j.maxQueueSize ≤ queued then
    enqueueOne env now j goNow next_ scheduledAt .skipped
  else if strategy = some .shardingBroadcast then
    let shards ← planShards now j.id j.executorGroupID
    if shards = [] then .fail (.noLiveExecutorNodes (some j.id))
    else if action = .enqueue ∧ j.maxQueueSize < queued + shards.length then
      enqueueOne env now j goNow next_ scheduledAt .skipped
    else
      insertScheduledShards now j scheduledAt shards
      pure next_
  else enqueueOne env now j goNow next_ scheduledAt .pending

inductive BatchItem where
  | insertRun (r : Run)
  | advanceJob (jobID : ℕ) (next : Int)

def queueOccurrence (now : Int) (j : Job) (batch : List BatchItem) (scheduledAt : Int) :
    Tx (List BatchItem) := do
  let runID ← newUUID
  pure (batch ++ [.insertRun (scheduledRun now j runID scheduledAt .pending)])

def enqueueJob (env : Env) (now : Int) (batch : List BatchItem)
    (item : Job × Option RouteStrategy) : Tx (List BatchItem) := do
  let (j, strategy) := item
  match j.nextRunAt with
  | none => pure batch
  | some firstDue =>
      let goNow ← timeNow
      match due env.calendar j.scheduleType j.scheduleExpression j.timezone j.misfirePolicy
          firstDue goNow j.maxCatchUp with
      | .error e => .fail (.schedule e)
      | .ok (occurrences, next_) =>
          if j.overlapPolicy = .parallel ∧ strategy ≠ some .shardingBroadcast then
            let batch ← .foldEach occurrences batch (queueOccurrence now j)
            pure (batch ++ [.advanceJob j.id next_])
          else
            let next_ ← .foldEach occurrences next_ (enqueueOccurrence env now j strategy goNow)
            let _ ← updateJobRow j.id (fun _ => true) (advanceJob next_)
            pure batch

def runBatchItem (now : Int) : BatchItem → Tx Unit
  | .insertRun r => insertRun now r
  | .advanceJob jobID next => do
      let _ ← updateJobRow jobID (fun _ => true) (advanceJob next)
      pure ()

def enqueueDue (env : Env) (now : Int) (batchSize : ℕ) : Tx Unit := do
  let rows ← .exec (.skipLocked (dueJobs now) batchSize)
  let due ← liftExcept (rows.mapM (scanJob env))
  match ← select (executorRouteStrategies due) with
  | none => .fail .notFound
  | some strategies =>
      let batch ← .foldEach (due.zip (strategies.map Prod.snd)) [] (enqueueJob env now)
      .forEach batch (runBatchItem now)

end EnqueueDue

section ClaimRuns

def claimable (now : Int) (r : Run) : Bool :=
  (r.status == .pending && decide (r.availableAt ≤ now)) ||
    (r.status == .running && r.lease.any fun l => l.until_ < now)

def occupies (now : Int) (r : Run) : Bool :=
  (r.status == .running && r.lease.any fun l => now ≤ l.until_) || r.status == .waitingCallback

def clusterOf (d : Db) (r : Run) : Option ℕ :=
  (d.row (.job r.jobID)).bind Job.kubernetesClusterID

def claimClusters (now : Int) (d : Db) : List ℕ :=
  (((kubernetesClusters d).filter fun kc =>
    (runs d).any fun r => claimable now r && (clusterOf d r == some kc.id)).map
      KubernetesCluster.id).insertionSort fun a b => a ≤ b

structure Candidate where
  run : Run
  job : Job
  tenantMax : ℕ
deriving DecidableEq, Repr

def candidates (now : Int) (d : Db) : List Candidate :=
  ((runs d).filter (claimable now)).filterMap fun r => do
    let j ← d.row (.job r.jobID)
    let t ← d.row (.tenant r.tenantID)
    return ⟨r, j, t.maxConcurrentRuns⟩

def claimOrder (a b : Run) : Bool :=
  decide (a.availableAt < b.availableAt) ||
    (a.availableAt == b.availableAt && decide (a.id ≤ b.id))

/-- `row_number() OVER (PARTITION BY part ORDER BY available_at, id)`. -/
def rowNumber {α : Type} [BEq α] (part : Candidate → α) (cs : List Candidate) (c : Candidate) : ℕ :=
  cs.countP fun x => part x == part c && claimOrder x.run c.run

def occupied (now : Int) (d : Db) (p : Run → Bool) : ℕ :=
  (runs d).countP fun r => occupies now r && p r

def jobLimit (c : Candidate) : ℕ :=
  match c.run.broadcast with
  | some b => max c.job.maxConcurrentRuns b.total
  | none => c.job.maxConcurrentRuns

def clusterLimit (d : Db) (cluster : ℕ) : ℕ :=
  ((d.row (.kubernetesCluster cluster)).map KubernetesCluster.maxConcurrentJobs).getD 1

def withinLimits (now : Int) (d : Db) (cs : List Candidate) (c : Candidate) : Bool :=
  decide (rowNumber (fun x => x.run.jobID) cs c ≤
    jobLimit c - occupied now d fun r => r.jobID == c.run.jobID) &&
  decide (rowNumber (fun x => x.run.tenantID) cs c ≤
    c.tenantMax - occupied now d fun r => r.tenantID == c.run.tenantID) &&
  match c.job.kubernetesClusterID with
  | none => true
  | some k => decide (rowNumber (fun x => x.job.kubernetesClusterID) cs c ≤
      clusterLimit d k - occupied now d fun r => clusterOf d r == some k)

def eligible (now : Int) (d : Db) : List Candidate :=
  let cs := candidates now d
  (cs.filter (withinLimits now d cs)).insertionSort fun a b => claimOrder a.run b.run

def leaseDuration (lease : Int) (j : Job) : Int := max lease ((j.timeoutSeconds + 30) * second)

def claim (now : Int) (owner : String) (token : ℕ) (lease : Int) (j : Job) (r : Run) : Run :=
  { r.enter .running with
    lease := some ⟨owner, token, now + leaseDuration lease j⟩
    startedAt := r.startedAt <|> some now
    claims := token :: r.claims }

/-- The row of one eligible run, locked, as the update of the claim statement finds it. -/
def claimOne (now : Int) (owner : String) (lease : Int) (claimed : List ClaimedRun)
    (item : Run × Job) : Tx (List ClaimedRun) := do
  let token ← newUUID
  match ← updateRun item.1.id (claimable now) (claim now owner token lease item.2) with
  | none => pure claimed
  | some r =>
      let eventID ← newUUID
      .when (item.1.status = .pending)
        (insertRow (.outboxEvent eventID) (outboxEvent now (.status .running) r))
      insertRow (.claim token) ⟨r, item.2⟩
      pure (claimed ++ [⟨r, item.2⟩])

/-- The eligible runs that still exist, with the newest version of their rows. -/
def eligibleRows (cs : List Candidate) (d : Db) : List (Key × Run × Job) :=
  cs.filterMap fun c => (d.row (.run c.run.id)).map fun r => (.run c.run.id, r, c.job)

def claimRuns (env : Env) (now : Int) (owner : String) (limit : ℕ) (lease : Int) :
    Tx (List ClaimedRun) := do
  let clusters ← select (claimClusters now)
  .forEach clusters fun id => do
    let _ ← .exec (.lock (V := Row) (Key.kubernetesCluster id) fun _ => true)
    pure ()
  let cs ← select (eligible now)
  let rows ← .exec (.skipLocked (eligibleRows cs) limit)
  let claimed ← .foldEach rows [] (claimOne now owner lease)
  let _ ← liftExcept (claimed.mapM fun c => scanJob env c.job)
  pure claimed

end ClaimRuns

end GoScheduler.Store
