import GoScheduler.Fallible
import GoScheduler.Store.System

/-! The choice of an executor node for a claimed run. The registry does not change during
the call, so every statement reads one database at one time; the counters and uses that a
reservation records are passed along. A group and the jobs that name it belong to one
tenant, so the statements' condition on the tenant is one on the job. -/
namespace GoScheduler.Core
open Store Schedule Fallible

inductive RepositoryCall where
  | executorLabels | routeStrategy | routeCandidates | reserve
deriving DecidableEq, Repr

inductive RouteError where
  | missingBroadcastMetadata  -- `broadcast run is missing fixed executor or shard metadata`.
  | database (call : RepositoryCall)
  | notFound
  | noLiveNodes  -- `no live executor nodes`.
  | noneAvailable (strategy : RouteStrategy)  -- `no failover executor available`.
  | contextDone
  | unsupportedStrategy (strategy : RouteStrategy)
  -- `selected executor disappeared`.
  | selectedDisappeared
deriving DecidableEq, Repr

structure ExecutorCandidate where
  id : String
  address : String
  useCount : ℕ := 0
  lastUsedAt : Int := zeroTime
deriving DecidableEq, Repr

/-- What the choice depends on beside the database: the hash of `crypto/md5`, the answers
of the nodes to probes, the random number drawn, the end of the context and failures of
the connection. -/
structure RouteEnv where
  xxlRouteHash : String → UInt32
  jobKey : ℕ → String
  probeExecutor : RouteStrategy → ℕ → String → Bool
  random : ℕ
  ended : ℕ → Bool  -- Whether the context has ended before the `i`-th probe.
  fails : RepositoryCall → Bool
  store : Env

def ExecutorCandidate.byID (nodes : List ExecutorCandidate) : List ExecutorCandidate :=
  nodes.insertionSort fun a b => a.id ≤ b.id

def sortAndFirst (first : ExecutorCandidate) (rest : List ExecutorCandidate)
    (less : ExecutorCandidate → ExecutorCandidate → Bool) : ExecutorCandidate :=
  ((first :: rest).insertionSort fun a b => less b a = false).headD first

def consistentHashExecutor (hash : String → UInt32) (first : ExecutorCandidate)
    (rest : List ExecutorCandidate) (routeKey : String) : ExecutorCandidate :=
  let ring := ((first :: rest).flatMap fun node => (List.range 100).map fun index =>
    (hash ("SHARD-" ++ node.address ++ "-NODE-" ++ toString index), node)).insertionSort
      fun a b => a.1 ≤ b.1
  ((ring.find? fun v => hash routeKey ≤ v.1).or ring.head?).elim first (·.2)

def selectExecutorNode (hash : String → UInt32) (nodes : List ExecutorCandidate)
    (strategy : RouteStrategy) (cursor : Int) (random : ℕ) (routeKey : String) :
    Except RouteError ExecutorCandidate :=
  match ExecutorCandidate.byID nodes with
  | [] => .error .noLiveNodes
  | first :: rest =>
      match strategy with
      | .first => .ok first
      | .last => .ok ((first :: rest).getLast (by simp))
      | .round => .ok ((first :: rest).getD (cursor.toNat % (rest.length + 1)) first)
      | .random => .ok ((first :: rest).getD (random % (rest.length + 1)) first)
      | .hash => .ok (consistentHashExecutor hash first rest routeKey)
      | .lfu => .ok (sortAndFirst first rest fun l r =>
          l.useCount < r.useCount || (l.useCount == r.useCount && l.id < r.id))
      | .lru => .ok (sortAndFirst first rest fun l r =>
          if l.lastUsedAt = r.lastUsedAt then l.id < r.id else l.lastUsedAt < r.lastUsedAt)
      | .failover | .busyover | .shardingBroadcast => .error (.unsupportedStrategy strategy)

def probeInTurn (env : RouteEnv) (strategy : RouteStrategy) (jobID : ℕ) :
    ℕ → List ExecutorCandidate → Except RouteError ExecutorCandidate
  | _, [] => .error (.noneAvailable strategy)
  | i, node :: rest =>
      if env.ended i then .error .contextDone
      else if env.probeExecutor strategy jobID node.address then .ok node
      else probeInTurn env strategy jobID (i + 1) rest

def selectActiveExecutor (env : RouteEnv) (strategy : RouteStrategy) (jobID : ℕ)
    (nodes : List ExecutorCandidate) : Except RouteError ExecutorCandidate :=
  if nodes = [] then .error .noLiveNodes
  else probeInTurn env strategy jobID 0 (ExecutorCandidate.byID nodes)

/-- A row of `executor_job_route_state` or `executor_override_route_state`. -/
structure RouteUse where
  groupID : ℕ
  useCount : ℕ
  lastUsedAt : Int
deriving DecidableEq, Repr

structure RouteTables where
  counters : ℕ → Option Int
  uses : ℕ → String → Option RouteUse
  overrideUses : ℕ → String → Option RouteUse

structure ExecutorRoutingSnapshot where
  strategy : RouteStrategy
  cursor : Int
  nodes : List ExecutorNode
  uses : ExecutorNode → Option RouteUse

def executorRouteStrategy (d : Db) (tenantID : ℕ) (groupID : Option ℕ) (jobID : ℕ) :
    Option RouteStrategy :=
  (d.row (.job jobID)).bind fun j =>
    if j.tenantID = tenantID ∧ j.executorGroupID = groupID then routeStrategy d groupID else none

def routableNodes (now : Int) (groupID : Option ℕ) (d : Db) : List ExecutorNode :=
  ((executorNodes d).filter fun n =>
    (some n.groupID == groupID) && (n.isStatic || now < n.expiresAt)).insertionSort
      fun a b => (if a.isStatic then a.address else a.nodeID) ≤
        if b.isStatic then b.address else b.nodeID

/-- The `NOT EXISTS` condition of `ExecutorRouteCandidates`. -/
def labelsMatch (labels : List String × List String) (n : ExecutorNode) : Bool :=
  !((labels.1.any fun l => !n.labels.contains l) || labels.2.any fun l => n.labels.contains l)

/-- No strategy is returned where no node is. -/
def executorRouteCandidates (now : Int) (d : Db) (tenantID : ℕ) (groupID : Option ℕ)
    (jobID : ℕ) : Except RouteError (Option RouteStrategy × List ExecutorNode) :=
  match executorRouteStrategy d tenantID groupID jobID with
  | none => .error .notFound
  | some strategy =>
      let nodes := (routableNodes now groupID d).filter (labelsMatch (jobExecutorLabels jobID d))
      .ok (if nodes = [] then none else some strategy, nodes)

def RouteTables.count (t : RouteTables) (jobID : ℕ) : Int := (t.counters jobID).elim 0 (· + 1)

def RouteUse.next (groupID : ℕ) (now : Int) (use : Option RouteUse) : RouteUse :=
  use.elim ⟨groupID, 1, now⟩ fun u => ⟨u.groupID, u.useCount + 1, now⟩

def reserveExecutorRoute (now : Int) (d : Db) (t : RouteTables) (tenantID : ℕ)
    (groupID : Option ℕ) (jobID : ℕ)
    (selector : ExecutorRoutingSnapshot → Except RouteError ExecutorNode) :
    Except RouteError (ExecutorNode × RouteTables) :=
  match executorRouteStrategy d tenantID groupID jobID with
  | none => .error .notFound
  | some strategy => do
      let cursor := t.count jobID
      let selected ← selector ⟨strategy, cursor, routableNodes now groupID d, fun n =>
        (t.uses jobID n.nodeID).filter fun u => u.groupID == n.groupID⟩
      .ok (selected, { t with
        counters := Function.update t.counters jobID (some cursor)
        uses := Function.update t.uses jobID (Function.update (t.uses jobID) selected.nodeID
          (some (.next (groupID.getD 0) now (t.uses jobID selected.nodeID)))) })

def reserveExecutorOverrideRoute (env : Env) (now : Int) (d : Db) (t : RouteTables)
    (tenantID : ℕ) (groupID : Option ℕ) (jobID : ℕ) (addresses : List String)
    (selector : ExecutorRoutingSnapshot → Except RouteError ExecutorNode) :
    Except RouteError (ExecutorNode × RouteTables) :=
  match executorRouteStrategy d tenantID groupID jobID with
  | none => .error .notFound
  | some strategy => do
      let cursor := t.count jobID
      let selected ← selector ⟨strategy, cursor, overrideExecutorNodes env addresses, fun n =>
        t.overrideUses jobID n.address⟩
      .ok (selected, { t with
        counters := Function.update t.counters jobID (some cursor)
        overrideUses := Function.update t.overrideUses jobID (Function.update
          (t.overrideUses jobID) selected.address
          (some (.next 0 now (t.overrideUses jobID selected.address)))) })

def fixedExecutorForRecovery (r : Run) (j : Job) : Bool :=
  j.scriptLanguage == "docker" && r.executorAddress != ""

def recordedNode (r : Run) : ExecutorNode := ⟨0, r.executorNodeID, r.executorAddress, false, 0, []⟩

def nodeNamed (id : String) (nodes : List ExecutorNode) : Except RouteError ExecutorNode :=
  match nodes.find? fun n => n.nodeID == id with
  | some n => .ok n
  | none => .error .selectedDisappeared

def ExecutorRoutingSnapshot.candidate (snapshot : ExecutorRoutingSnapshot) (n : ExecutorNode) :
    ExecutorCandidate :=
  ⟨n.nodeID, n.address, (snapshot.uses n).elim 0 (·.useCount),
    (snapshot.uses n).elim zeroTime (·.lastUsedAt)⟩

def selectReserved (env : RouteEnv) (c : ClaimedRun) (labels : List String × List String)
    (snapshot : ExecutorRoutingSnapshot) : Except RouteError ExecutorNode := do
  let nodes := if c.run.overrideAddresses = [] then
      filterExecutorNodes snapshot.nodes labels.1 labels.2
    else snapshot.nodes
  let selected ← selectExecutorNode env.xxlRouteHash (nodes.map snapshot.candidate)
    snapshot.strategy snapshot.cursor env.random (env.jobKey c.job.id)
  nodeNamed selected.id nodes

def unlessFails (env : RouteEnv) (call : RepositoryCall) {α : Type} (result : Except RouteError α) :
    Except RouteError α :=
  if env.fails call then .error (.database call) else result

def routeNodes (env : RouteEnv) (now : Int) (d : Db) (c : ClaimedRun) :
    Except RouteError (Option RouteStrategy × List ExecutorNode) :=
  if c.run.overrideAddresses ≠ [] then do
    let _ ← unlessFails env .executorLabels (.ok (jobExecutorLabels c.job.id d))
    let strategy ← unlessFails env .routeStrategy
      (match executorRouteStrategy d c.job.tenantID c.job.executorGroupID c.job.id with
        | none => .error .notFound
        | some strategy => .ok strategy)
    .ok (some strategy, overrideExecutorNodes env.store c.run.overrideAddresses)
  else do
    let (strategy, nodes) ← unlessFails env .routeCandidates
      (executorRouteCandidates now d c.job.tenantID c.job.executorGroupID c.job.id)
    -- The labels are loaded later, so that this filter lets every node pass.
    .ok (strategy, filterExecutorNodes nodes [] [])

def routeClaimedExecutor (env : RouteEnv) (now : Int) (d : Db) (t : RouteTables)
    (c : ClaimedRun) : Except RouteError (ExecutorNode × RouteTables) :=
  match c.run.broadcast with
  | some shard =>
      if c.run.executorNodeID = "" ∨ c.run.executorAddress = "" ∨ shard.total < 1 then
        .error .missingBroadcastMetadata
      else .ok (recordedNode c.run, t)
  | none =>
      if fixedExecutorForRecovery c.run c.job then .ok (recordedNode c.run, t) else do
      let (strategy, nodes) ← routeNodes env now d c
      if strategy = some .failover ∨ strategy = some .busyover then
        let selected ← selectActiveExecutor env (strategy.getD .failover) c.job.id
          (nodes.map fun n => ⟨n.nodeID, n.address, 0, zeroTime⟩)
        let node ← nodeNamed selected.id nodes
        .ok (node, t)
      else match nodes with
        | [node] => .ok (node, t)
        | _ =>
            if c.run.overrideAddresses = [] then do
              let labels ← unlessFails env .executorLabels (.ok (jobExecutorLabels c.job.id d))
              unlessFails env .reserve (reserveExecutorRoute now d t c.job.tenantID
                c.job.executorGroupID c.job.id (selectReserved env c labels))
            else
              unlessFails env .reserve (reserveExecutorOverrideRoute env.store now d t
                c.job.tenantID c.job.executorGroupID c.job.id c.run.overrideAddresses
                (selectReserved env c (jobExecutorLabels c.job.id d)))

/-! Every node a branch returns is one of the nodes it looked at. -/

theorem mem_of_nodeNamed {id : String} {nodes : List ExecutorNode} {n : ExecutorNode}
    (h : nodeNamed id nodes = .ok n) : n ∈ nodes := by
  unfold nodeNamed at h
  split at h
  · rename_i found hfound
    injection h with h
    exact h ▸ List.mem_of_find?_eq_some hfound
  · exact absurd h (by simp)

theorem mem_of_selectReserved {env : RouteEnv} {c : ClaimedRun}
    {labels : List String × List String} {snapshot : ExecutorRoutingSnapshot} {n : ExecutorNode}
    (h : selectReserved env c labels snapshot = .ok n) :
    n ∈ if c.run.overrideAddresses = [] then
      filterExecutorNodes snapshot.nodes labels.1 labels.2 else snapshot.nodes := by
  unfold selectReserved at h
  obtain ⟨selected, -, hn⟩ := exists_of_bind_ok h
  exact mem_of_nodeNamed hn

theorem ok_of_unlessFails {env : RouteEnv} {call : RepositoryCall} {α : Type}
    {result : Except RouteError α} {a : α} (h : unlessFails env call result = .ok a) :
    result = .ok a := by
  unfold unlessFails at h
  split at h
  · exact absurd h (by simp)
  · exact h

/-- A registered node may run the job: it is in the group of the job, has not expired and
has every label the job requires and none it excludes. -/
def Admitted (now : Int) (j : Job) (row : ExecutorNode) : Prop :=
  some row.groupID = j.executorGroupID ∧ (row.isStatic ∨ now < row.expiresAt) ∧
    (∀ l ∈ j.requiredExecutorLabels, l ∈ row.labels) ∧
    ∀ l ∈ j.excludedExecutorLabels, l ∉ row.labels

instance (now : Int) (j : Job) (row : ExecutorNode) : Decidable (Admitted now j row) :=
  inferInstanceAs (Decidable (_ ∧ _ ∧ _ ∧ _))

def Eligible (now : Int) (d : Db) (jobID : ℕ) (n : ExecutorNode) : Prop :=
  ∃ j ∈ d.row (.job jobID), ∃ row ∈ executorNodes d,
    row.nodeID = n.nodeID ∧ row.address = n.address ∧ Admitted now j row

instance (now : Int) (d : Db) (jobID : ℕ) (n : ExecutorNode) :
    Decidable (Eligible now d jobID n) :=
  inferInstanceAs (Decidable (∃ j ∈ d.row (.job jobID), _))

theorem mem_routableNodes {now : Int} {groupID : Option ℕ} {d : Db} {n : ExecutorNode} :
    n ∈ routableNodes now groupID d ↔ n ∈ executorNodes d ∧ some n.groupID = groupID ∧
      (n.isStatic ∨ now < n.expiresAt) := by
  simp [routableNodes, List.mem_insertionSort]

theorem labelsMatch_iff {labels : List String × List String} {n : ExecutorNode} :
    labelsMatch labels n = true ↔
      (∀ l ∈ labels.1, l ∈ n.labels) ∧ ∀ l ∈ labels.2, l ∉ n.labels := by
  simp [labelsMatch]

theorem mem_filterExecutorNodes {nodes : List ExecutorNode} {required excluded : List String}
    {n : ExecutorNode} : n ∈ filterExecutorNodes nodes required excluded ↔
      n ∈ nodes ∧ (∀ l ∈ required, l ∈ n.labels) ∧ ∀ l ∈ excluded, l ∉ n.labels := by
  simp [filterExecutorNodes]

theorem executorRouteStrategy_some {d : Db} {tenantID jobID : ℕ} {groupID : Option ℕ}
    {strategy : RouteStrategy}
    (h : executorRouteStrategy d tenantID groupID jobID = some strategy) :
    ∃ j, d.row (.job jobID) = some j ∧ j.executorGroupID = groupID := by
  obtain ⟨j, hj, hif⟩ := Option.bind_eq_some_iff.mp h
  split at hif
  · rename_i hjob
    exact ⟨j, hj, hjob.2⟩
  · exact absurd hif (by simp)

theorem eligible_of_candidate {now : Int} {d : Db} {tenantID jobID : ℕ} {groupID : Option ℕ}
    {strategy : Option RouteStrategy} {nodes : List ExecutorNode} {n : ExecutorNode}
    (h : executorRouteCandidates now d tenantID groupID jobID = .ok (strategy, nodes))
    (hn : n ∈ nodes) : Eligible now d jobID n := by
  unfold executorRouteCandidates at h
  split at h
  · exact absurd h (by simp)
  · rename_i found hfound
    obtain ⟨j, hj, hgroup⟩ := executorRouteStrategy_some hfound
    simp only [Except.ok.injEq, Prod.mk.injEq] at h
    rw [← h.2, List.mem_filter, mem_routableNodes, labelsMatch_iff] at hn
    obtain ⟨⟨hmem, hin, hlive⟩, hlabels⟩ := hn
    simp only [jobExecutorLabels, hj] at hlabels
    exact ⟨j, hj, n, hmem, rfl, rfl, hin.trans hgroup.symm, hlive, hlabels⟩

theorem eligible_of_reserved {now : Int} {d : Db} {t t' : RouteTables} {tenantID jobID : ℕ}
    {groupID : Option ℕ} {env : RouteEnv} {c : ClaimedRun} {n : ExecutorNode}
    (hplain : c.run.overrideAddresses = [])
    (h : reserveExecutorRoute now d t tenantID groupID jobID
      (selectReserved env c (jobExecutorLabels jobID d)) = .ok (n, t')) :
    Eligible now d jobID n := by
  unfold reserveExecutorRoute at h
  split at h
  · exact absurd h (by simp)
  · rename_i found hfound
    obtain ⟨j, hj, hgroup⟩ := executorRouteStrategy_some hfound
    obtain ⟨selected, hselected, hok⟩ := exists_of_bind_ok h
    simp only [Except.ok.injEq, Prod.mk.injEq] at hok
    rw [hok.1] at hselected
    have hmem := mem_of_selectReserved hselected
    rw [if_pos hplain, mem_filterExecutorNodes, mem_routableNodes] at hmem
    obtain ⟨⟨hmem, hin, hlive⟩, hlabels⟩ := hmem
    simp only [jobExecutorLabels, hj] at hlabels
    exact ⟨j, hj, n, hmem, rfl, rfl, hin.trans hgroup.symm, hlive, hlabels⟩

theorem mem_overrideExecutorNodes {env : Env} {addresses : List String} {n : ExecutorNode}
    (h : n ∈ overrideExecutorNodes env addresses) : n.address ∈ addresses := by
  obtain ⟨a, ha, rfl⟩ := List.mem_map.mp h
  exact ha

theorem mem_of_reservedOverride {now : Int} {d : Db} {t t' : RouteTables} {tenantID jobID : ℕ}
    {groupID : Option ℕ} {env : RouteEnv} {c : ClaimedRun} {labels : List String × List String}
    {n : ExecutorNode} (hoverride : c.run.overrideAddresses ≠ [])
    (h : reserveExecutorOverrideRoute env.store now d t tenantID groupID jobID
      c.run.overrideAddresses (selectReserved env c labels) = .ok (n, t')) :
    n.address ∈ c.run.overrideAddresses := by
  unfold reserveExecutorOverrideRoute at h
  split at h
  · exact absurd h (by simp)
  · obtain ⟨selected, hselected, hok⟩ := exists_of_bind_ok h
    simp only [Except.ok.injEq, Prod.mk.injEq] at hok
    rw [hok.1] at hselected
    have hmem := mem_of_selectReserved hselected
    rw [if_neg hoverride] at hmem
    exact mem_overrideExecutorNodes hmem

/-- Where a run may go: to an address its trigger overrides the group with, or to an
eligible node. -/
def Permitted (now : Int) (d : Db) (c : ClaimedRun) (n : ExecutorNode) : Prop :=
  (c.run.overrideAddresses ≠ [] ∧ n.address ∈ c.run.overrideAddresses) ∨
    Eligible now d c.job.id n

instance (now : Int) (d : Db) (c : ClaimedRun) (n : ExecutorNode) :
    Decidable (Permitted now d c n) :=
  inferInstanceAs (Decidable (_ ∨ _))

theorem permitted_of_routeNodes {env : RouteEnv} {now : Int} {d : Db} {c : ClaimedRun}
    {strategy : Option RouteStrategy} {nodes : List ExecutorNode}
    (h : routeNodes env now d c = .ok (strategy, nodes)) {n : ExecutorNode} (hn : n ∈ nodes) :
    Permitted now d c n := by
  unfold routeNodes at h
  split at h
  · rename_i hoverride
    obtain ⟨labels, -, h⟩ := exists_of_bind_ok h
    obtain ⟨found, -, h⟩ := exists_of_bind_ok h
    simp only [Except.ok.injEq, Prod.mk.injEq] at h
    rw [← h.2] at hn
    exact .inl ⟨hoverride, mem_overrideExecutorNodes hn⟩
  · obtain ⟨⟨found, candidates⟩, hcandidates, h⟩ := exists_of_bind_ok h
    simp only [Except.ok.injEq, Prod.mk.injEq] at h
    rw [← h.2, mem_filterExecutorNodes] at hn
    exact .inr (eligible_of_candidate (ok_of_unlessFails hcandidates) hn.1)

/-- A run that belongs to no broadcast goes to a permitted node, except that a Docker run
with a recorded node goes to that node, whether or not it is still permitted. -/
theorem routeClaimedExecutor_permitted (env : RouteEnv) (now : Int) (d : Db) (t t' : RouteTables)
    (c : ClaimedRun) (n : ExecutorNode) (hbroadcast : c.run.broadcast = none)
    (h : routeClaimedExecutor env now d t c = .ok (n, t')) :
    Permitted now d c n ∨
      (c.job.scriptLanguage = "docker" ∧ c.run.executorAddress ≠ "" ∧
        n.nodeID = c.run.executorNodeID ∧ n.address = c.run.executorAddress) := by
  unfold routeClaimedExecutor at h
  rw [hbroadcast] at h
  dsimp only at h
  split at h
  · rename_i hfixed
    simp only [fixedExecutorForRecovery, Bool.and_eq_true, beq_iff_eq, bne_iff_ne] at hfixed
    simp only [Except.ok.injEq, Prod.mk.injEq] at h
    right
    rw [← h.1]
    exact ⟨hfixed.1, hfixed.2, rfl, rfl⟩
  left
  obtain ⟨⟨strategy, nodes⟩, hnodes, h⟩ := exists_of_bind_ok h
  dsimp only at h
  split at h
  · obtain ⟨selected, -, h⟩ := exists_of_bind_ok h
    obtain ⟨node, hnode, h⟩ := exists_of_bind_ok h
    simp only [Except.ok.injEq, Prod.mk.injEq] at h
    rw [← h.1]
    exact permitted_of_routeNodes hnodes (mem_of_nodeNamed hnode)
  split at h
  · simp only [Except.ok.injEq, Prod.mk.injEq] at h
    rw [← h.1]
    exact permitted_of_routeNodes hnodes (by simp)
  split at h
  · rename_i hplain
    obtain ⟨labels, hlabels, h⟩ := exists_of_bind_ok h
    have heq := ok_of_unlessFails hlabels
    simp only [Except.ok.injEq] at heq
    rw [← heq] at h
    exact .inr (eligible_of_reserved hplain (ok_of_unlessFails h))
  · rename_i hoverride
    exact .inl ⟨hoverride, mem_of_reservedOverride hoverride (ok_of_unlessFails h)⟩

def dockerJob : Job :=
  { plainJob with id := 1, executorGroupID := some 7, scriptLanguage := "docker" }

def dockerRegistry : Db :=
  ⟨[.executorGroup 7, .executorNode 7 "a", .executorNode 7 "b", .job 1],
    fun
    | .executorGroup id => if id = 7 then some ⟨.round⟩ else none
    | .executorNode g n =>
        if g = 7 ∧ n = "a" then some ⟨7, "a", "a:9090", false, 50, []⟩
        else if g = 7 ∧ n = "b" then some ⟨7, "b", "b:9090", false, 200, []⟩
        else none
    | .job id => if id = 1 then some dockerJob else none
    | _ => none,
    100⟩

def dockerRetry (nodeID address : String) : ClaimedRun :=
  { run := { id := 5, tenantID := 1, jobID := 1, triggerType := .retry, status := .running
             attempt := 2, scheduledAt := 90, availableAt := 90, retryOfRunID := some 4
             externalExecutionID := 5, executorNodeID := nodeID, executorAddress := address
             history := [.running, .pending] }
    job := dockerJob }

def quietEnv : RouteEnv where
  xxlRouteHash _ := 0
  jobKey _ := ""
  probeExecutor _ _ _ := true
  random := 0
  ended _ := false
  fails _ := false
  store := plainEnv

def noRoutes : RouteTables := ⟨fun _ => none, fun _ _ => none, fun _ _ => none⟩

/-- A retry goes back to the node that has expired. -/
theorem docker_retry_not_permitted : ∃ n t',
    routeClaimedExecutor quietEnv 100 dockerRegistry noRoutes (dockerRetry "a" "a:9090") =
      .ok (n, t') ∧ ¬ Permitted 100 dockerRegistry (dockerRetry "a" "a:9090") n :=
  ⟨_, _, rfl, by decide⟩

theorem docker_first_attempt_permitted : ∃ n t',
    routeClaimedExecutor quietEnv 100 dockerRegistry noRoutes (dockerRetry "" "") =
      .ok (n, t') ∧ (Permitted 100 dockerRegistry (dockerRetry "" "") n ∨
        (dockerJob.scriptLanguage = "docker" ∧ "" ≠ "" ∧ n.nodeID = "" ∧ n.address = "")) :=
  ⟨_, _, rfl, routeClaimedExecutor_permitted quietEnv 100 dockerRegistry noRoutes _
    (dockerRetry "" "") _ rfl rfl⟩

end GoScheduler.Core
