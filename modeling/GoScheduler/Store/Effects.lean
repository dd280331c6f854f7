import GoScheduler.ReadCommitted.Judgement
import GoScheduler.Store.Transitions

/-! What the transactions of the store write, whatever they read: the transitions of runs,
new runs, the schedule of jobs, and rows of a few other kinds. A property of writes that
allows these writes holds of all of them, and so does every judgement that also holds of
covering the runs of a job. -/
namespace GoScheduler.Store
open ReadCommitted Schedule

def Job.labels (j : Job) : List String × List String :=
  (j.requiredExecutorLabels, j.excludedExecutorLabels)

def Key.aside : Key → Bool
  | .outboxEvent _ | .dispatch _ _ | .command _ _ | .claim _ | .dependents _
  | .advisoryLock _ | .uuid _ => true
  | _ => false

def Key.registered : Key → Bool
  | .tenant _ | .executorGroup _ | .executorNode _ _ | .kubernetesCluster _ | .job _
  | .jobScriptVersion _ | .dependency _ _ => true
  | _ => false

def Job.rearmed (j : Job) (nextRunAt lastRunAt : Option Int) (enabled : Bool) : Job :=
  { j with nextRunAt := nextRunAt, lastRunAt := lastRunAt, enabled := enabled }

/-- A property of writes that allows the transitions `old` and the creation of the runs in
`new`. -/
structure AllowsRuns (old : ℕ → Run → Run → Prop) (new : Run → Prop) (W : Db → Write Row → Prop) :
    Prop where
  same : ∀ d k, W d ⟨k, d.row k⟩
  aside : ∀ d (k : Key) v, k.aside = true → (∀ tenantID runID, k ≠ .command tenantID runID) →
    W d ⟨k, v⟩
  move : ∀ d id r r', d.row (.run id) = some r → old id r r' → W d ⟨.run id, some r'⟩
  create : ∀ d r, d.row (.run r.id) = none → new r → W d ⟨.run r.id, some r⟩
  rearm : ∀ d id j next last enabled, d.row (.job id) = some j →
    W d ⟨.job id, some (j.rearmed next last enabled)⟩

structure AllowsCancels (old : ℕ → Run → Run → Prop) (new : Run → Prop)
    (W : Db → Write Row → Prop) : Prop extends AllowsRuns old new W where
  command : ∀ d tenantID runID v, W d ⟨.command tenantID runID, v⟩

variable {old : ℕ → Run → Run → Prop} {new : Run → Prop} {W : Db → Write Row → Prop} {env : Env}
  {now : Int}

section Statements

theorem select_effect {β : Type} (query : Db → β) : (select query).Effect W fun _ => True := .select

theorem timeNow_effect : timeNow.Effect W fun _ => True := .clock

theorem insertRow_effect {k : Key} {v : Row k} (h : ∀ d : Db, d.row k = none → W d ⟨k, some v⟩) :
    (insertRow k v).Effect W fun _ => True := by
  refine Program.Effect.bind (.insert h) fun b _ => ?_
  split
  · exact .pure trivial
  · exact .fail

theorem liftExcept_effect {α : Type} (x : Except StoreError α) :
    (liftExcept x).Effect W fun _ => True := by
  cases x with
  | ok a => exact .pure trivial
  | error e => exact .fail

theorem liftExcept_ok_effect {α : Type} (x : Except StoreError α) :
    (liftExcept x).Effect W fun a => x = .ok a := by
  cases x with
  | ok a => exact .pure rfl
  | error e => exact .fail

theorem scheduleNext_effect (j : Job) (after : Int) :
    (scheduleNext env j after).Effect W fun _ => True := by
  unfold scheduleNext
  split
  · exact .pure trivial
  · exact .fail

theorem nextRunForEnabledState_effect (j : Job) (enabled : Bool) (goNow : Int) :
    (nextRunForEnabledState env j enabled goNow).Effect W fun _ => True := by
  unfold nextRunForEnabledState
  split
  · exact .pure trivial
  · exact (scheduleNext_effect _ _).bind fun t _ => .pure trivial

theorem leasedBy_running {token : ℕ} {r : Run} (h : leasedBy token r = true) :
    r.status = .running := by
  simp only [leasedBy, Bool.and_eq_true, beq_iff_eq] at h
  exact h.1

theorem updateLeasedRun_effect (run : Run) {set : Run → Run}
    (h : ∀ (d : Db) lease r, run.lease = some lease → d.row (.run run.id) = some r →
      leasedBy lease.token r = true → W d ⟨.run run.id, some (set r)⟩) :
    (updateLeasedRun run set).Effect W fun _ => True := by
  unfold updateLeasedRun requireRunLease
  cases hlease : run.lease with
  | none => exact .fail
  | some lease =>
    have hupdate : (updateRun run.id (leasedBy lease.token) set).Effect W fun _ => True :=
      .update (V := Row) (k := Key.run run.id) fun d r hr hleased => h d lease r hlease hr hleased
    refine hupdate.bind fun r _ => ?_
    cases r with
    | none => exact .fail
    | some r => exact .pure trivial

variable (hW : AllowsRuns old new W)
include hW

theorem updateRun_effect {id : ℕ} {p : Run → Bool} {set : Run → Run}
    (h : ∀ r, p r = true → old id r (set r)) : (updateRun id p set).Effect W fun _ => True :=
  .update (V := Row) (k := Key.run id) fun d r hr hp => hW.move d id r _ hr (h r hp)

theorem newUUID_effect : newUUID.Effect W fun _ => True :=
  .fresh fun d n => hW.aside d (.uuid n) none rfl nofun

theorem lockJob_effect {id : ℕ} {p : Job → Bool} : (lockJob id p).Effect W fun _ => True :=
  .lock fun d => hW.same d (.job id)

theorem updateJobRow_effect {id : ℕ} {p : Job → Bool} {set : Job → Job}
    (h : ∀ j, ∃ next last enabled, set j = j.rearmed next last enabled) :
    (updateJobRow id p set).Effect W fun _ => True :=
  .update (V := Row) (k := Key.job id) fun d j hj _ => by
    obtain ⟨next, last, enabled, hset⟩ := h j
    rw [hset]
    exact hW.rearm d id j next last enabled hj

end Statements

section Runs

variable (hW : AllowsRuns old new W)
include hW

theorem emitRunEvent_effect (runID : ℕ) (status : RunStatus) (topic : Topic) :
    (emitRunEvent now runID status topic).Effect W fun _ => True := by
  refine (newUUID_effect hW).bind fun eventID _ => (select_effect _).bind fun r _ => ?_
  cases r with
  | none => exact .pure trivial
  | some r =>
    dsimp only
    split
    · exact insertRow_effect fun d _ => hW.aside d _ _ rfl (by simp)
    · exact .pure trivial

theorem insertRun_effect {r : Run} (hr : new r) : (insertRun now r).Effect W fun _ => True :=
  (insertRow_effect fun d hfree => hW.create d r hfree hr).bind fun _ _ =>
    emitRunEvent_effect hW _ _ _

theorem rearmJob_effect (jobID : ℕ) (terminalAt : Int) :
    (rearmJob env jobID terminalAt).Effect W fun _ => True := by
  refine (lockJob_effect hW).bind fun j _ => ?_
  cases j with
  | none => exact .pure trivial
  | some j =>
    dsimp only
    split
    · exact .pure trivial
    · split
      · exact .fail
      · refine Program.Effect.bind (Q := fun _ => True) ?_ fun _ _ => .pure trivial
        exact updateJobRow_effect hW fun j => ⟨_, _, j.enabled, rfl⟩

theorem rearmFixedDelay_effect (r : Run) (terminalAt : Int) :
    (rearmFixedDelay env r terminalAt).Effect W fun _ => True := by
  unfold rearmFixedDelay
  split
  · exact .pure trivial
  · split
    · exact rearmJob_effect hW _ _
    · refine (select_effect _).bind fun b _ => ?_
      split
      · exact .pure trivial
      · exact rearmJob_effect hW _ _

omit hW in
theorem planShards_effect (jobID : ℕ) (groupID : Option ℕ) :
    (planShards now jobID groupID).Effect W fun _ => True := by
  refine (select_effect _).bind fun nodes _ => (select_effect _).bind fun labels _ => ?_
  exact .pure trivial

theorem insertRetryRun_effect (hnew : ∀ r, NewRun r → new r) (previous : Run) (delay : Int) :
    (insertRetryRun now previous delay).Effect W fun _ => True := by
  refine (newUUID_effect hW).bind fun id _ => timeNow_effect.bind fun at_ _ => ?_
  refine Program.Effect.bind (Q := fun _ => True) ?_ fun _ _ => .pure trivial
  exact insertRun_effect hW (hnew _ ⟨.inl rfl, rfl, rfl⟩)

theorem insertDependentShards_effect {parent : Run} {childID runID : ℕ} {scheduledAt : Int}
    (hnew : ∀ r : Run, r.jobID = childID → NewRun r → new r) (shards : List BroadcastShard) :
    (insertDependentShards now scheduledAt parent childID runID shards).Effect W
      fun _ => True := by
  refine (newUUID_effect hW).bind fun groupID _ => .forEach fun shard _ => ?_
  exact (newUUID_effect hW).bind fun fresh _ =>
    insertRun_effect hW (hnew _ rfl ⟨.inl rfl, rfl, rfl⟩)

theorem claimOne_effect {owner : String} {lease : Int}
    (hclaim : ∀ token j id r, claimable now r = true → old id r (claim now owner token lease j r))
    (claimed : List ClaimedRun) (item : Run × Job) :
    (claimOne now owner lease claimed item).Effect W fun _ => True := by
  refine (newUUID_effect hW).bind fun token _ => ?_
  refine (updateRun_effect hW fun r => hclaim token item.2 item.1.id r).bind fun r _ => ?_
  cases r with
  | none => exact .pure trivial
  | some r =>
    refine (newUUID_effect hW).bind fun eventID _ => ?_
    refine Program.Effect.bind (.when fun _ => ?_) fun _ _ => ?_
    · exact insertRow_effect fun d _ => hW.aside d _ _ rfl nofun
    · exact (insertRow_effect fun d _ => hW.aside d (.claim token) _ rfl nofun).bind
        fun _ _ => .pure trivial

theorem claimRuns_effect {owner : String} {lease : Int}
    (hclaim : ∀ token j id r, claimable now r = true → old id r (claim now owner token lease j r))
    (limit : ℕ) : (claimRuns env now owner limit lease).Effect W fun _ => True := by
  refine (select_effect _).bind fun clusters _ => Program.Effect.bind (.forEach fun id _ => ?_)
    fun _ _ => (select_effect _).bind fun cs _ => ?_
  · exact Program.Effect.bind (.lock fun d => hW.same d _) fun _ _ => .pure trivial
  · refine Program.Effect.bind (.skipLocked hW.same) fun rows _ => ?_
    refine Program.Effect.bind (Q := fun _ => True) ?_ fun claimed _ => ?_
    · exact .foldEach trivial fun claimed item _ _ => claimOne_effect hW hclaim _ _
    · exact (liftExcept_effect _).bind fun _ _ => .pure trivial

theorem leased_effect (run : Run) {set : Run → Run} (h : ∀ lease r, run.lease = some lease →
      leasedBy lease.token r = true → old run.id r (set r)) :
    (updateLeasedRun run set).Effect W fun _ => True :=
  updateLeasedRun_effect run fun d lease r hlease hr hleased =>
    hW.move d run.id r _ hr (h lease r hlease hleased)

theorem markClaimedWaitingCallback_effect {run : Run} {status tokenHash : ℕ} {deadline : Int}
    (hwait : ∀ lease r, run.lease = some lease → leasedBy lease.token r = true →
      old run.id r (waitForCallback status tokenHash deadline r)) :
    (markClaimedWaitingCallback now run status tokenHash deadline).Effect W fun _ => True :=
  (leased_effect hW run hwait).bind fun _ _ => emitRunEvent_effect hW _ _ _

theorem retryOrExhaust_effect (hnew : ∀ r, NewRun r → new r) (r : Run) (status : RunStatus)
    (maxRetries : ℕ) : (retryOrExhaust env now r status maxRetries).Effect W fun _ => True := by
  unfold retryOrExhaust
  split
  · exact (insertRetryRun_effect hW hnew _ _).bind fun _ _ => .pure trivial
  · exact (emitRunEvent_effect hW _ _ _).bind fun _ _ => rearmFixedDelay_effect hW _ _

theorem failRun_effect {run : Run} {state : RunStatus} {status : ℕ} {message : String}
    (hend : (state = .failed ∨ state = .timedOut) → ∀ lease r, run.lease = some lease →
      leasedBy lease.token r = true →
      old run.id r { r.finish state now with responseStatus := status, errorMessage := message })
    (hnew : ∀ r, NewRun r → new r) (retryDelay : Option Int) :
    (failRun env now run state status message retryDelay).Effect W fun _ => True := by
  unfold failRun
  split
  · exact .fail
  · next hstate =>
    rw [not_and_or, not_not, not_not] at hstate
    refine (leased_effect hW run (hend hstate)).bind fun _ _ =>
      (emitRunEvent_effect hW _ _ _).bind fun _ _ => ?_
    cases retryDelay with
    | none =>
      refine (emitRunEvent_effect hW _ _ _).bind fun _ _ => ?_
      exact (rearmFixedDelay_effect hW _ _).bind fun _ _ => .pure trivial
    | some delay => exact (insertRetryRun_effect hW hnew _ _).bind fun _ _ => .pure trivial

theorem expireCallbacks_effect (hexpire : ∀ id r, r.status = .waitingCallback →
      old id r { r.finish .timedOut now with errorMessage := "callback deadline exceeded" })
    (hnew : ∀ r, NewRun r → new r) : (expireCallbacks env now).Effect W fun _ => True := by
  refine Program.Effect.bind (.skipLocked hW.same) fun expired _ => .forEach fun item _ => ?_
  refine (updateRun_effect hW fun r hwaiting => hexpire _ r (beq_iff_eq.1 hwaiting)).bind
    fun r _ => ?_
  cases r with
  | none => exact .fail
  | some r =>
    exact (emitRunEvent_effect hW _ _ _).bind fun _ _ => retryOrExhaust_effect hW hnew _ _ _

end Runs

section Occurrences

def NewRuns (batch : List BatchItem) : Prop := ∀ r, .insertRun r ∈ batch → NewRun r

theorem NewRuns.append {batch batch' : List BatchItem} (h : NewRuns batch) (h' : NewRuns batch') :
    NewRuns (batch ++ batch') := fun r hr => (List.mem_append.1 hr).elim (h r) (h' r)

variable (hW : AllowsRuns old new W) {j : Job}
include hW

theorem enqueueOne_effect (hnew : ∀ r : Run, r.jobID = j.id → NewRun r → new r)
    (goNow next_ at_ : Int) {status : RunStatus} (hstatus : status = .pending ∨ status = .skipped) :
    (enqueueOne env now j goNow next_ at_ status).Effect W fun _ => True := by
  refine (newUUID_effect hW).bind fun id _ =>
    (insertRun_effect hW (hnew _ rfl ⟨hstatus, rfl, rfl⟩)).bind fun _ _ => ?_
  split
  · split
    · exact .pure trivial
    · exact .fail
  · exact .pure trivial

theorem insertScheduledShards_effect (hnew : ∀ r : Run, r.jobID = j.id → NewRun r → new r)
    (at_ : Int)
    (shards : List BroadcastShard) :
    (insertScheduledShards now j at_ shards).Effect W fun _ => True := by
  refine (newUUID_effect hW).bind fun groupID _ => .forEach fun shard _ => ?_
  exact (newUUID_effect hW).bind fun id _ => insertRun_effect hW (hnew _ rfl ⟨.inl rfl, rfl, rfl⟩)

theorem queueOccurrence_effect (batch : List BatchItem) (at_ : Int) :
    (queueOccurrence now j batch at_).Effect W fun batch' => NewRuns batch → NewRuns batch' := by
  refine (newUUID_effect hW).bind fun id _ => .pure fun h => h.append fun r hr => ?_
  cases List.mem_singleton.1 hr
  exact ⟨.inl rfl, rfl, rfl⟩

theorem advanceJob_effect (jobID : ℕ) (next : Int) :
    (updateJobRow jobID (fun _ => true) (advanceJob next)).Effect W fun _ => True :=
  updateJobRow_effect hW fun _ => ⟨_, _, _, rfl⟩

theorem insertManualShards_effect {req : TriggerRequest}
    (hnew : ∀ r : Run, r.jobID = req.jobID → NewRun r → new r) (runID : ℕ) (scheduledAt : Int)
    (shards : List BroadcastShard) :
    (insertManualShards now req runID scheduledAt shards).Effect W fun _ => True := by
  refine (newUUID_effect hW).bind fun groupID _ => Program.Effect.bind (.forEach fun shard _ => ?_)
    fun _ _ => ?_
  · exact (newUUID_effect hW).bind fun fresh _ =>
      insertRun_effect hW (hnew _ rfl ⟨.inl rfl, rfl, rfl⟩)
  · cases shards with
    | nil => exact .fail
    | cons shard shards => exact .pure trivial

end Occurrences

section Cancels

variable (hW : AllowsCancels old new W)
include hW

theorem enqueueExecutorCancellation_effect (r : Run) (reason : String) :
    (enqueueExecutorCancellation r reason).Effect W fun _ => True := by
  refine (select_effect _).bind fun job _ => ?_
  cases job with
  | none => exact .fail
  | some j => exact .upsert fun d w => hW.command d _ _ _

theorem coverEarly_effect {jobID : ℕ}
    (hcover : ∀ id r, activeOfJob jobID r = true → old id r (coverRun now r)) :
    (coverEarly env now jobID).Effect W fun _ => True := by
  refine Program.Effect.bind (Q := fun _ => True) ?_ fun covered _ => .forEach fun r _ => ?_
  · refine (select_effect _).bind fun ids _ => .foldEach trivial fun covered id _ _ => ?_
    refine (updateRun_effect hW.toAllowsRuns (hcover id)).bind fun r _ => ?_
    cases r <;> exact .pure trivial
  · refine (emitRunEvent_effect hW.toAllowsRuns _ _ _).bind fun _ _ => ?_
    refine Program.Effect.bind (.when fun _ => ?_) fun _ _ =>
      rearmFixedDelay_effect hW.toAllowsRuns _ _
    exact enqueueExecutorCancellation_effect hW _ _

theorem cancelRun_effect (hcancel : ∀ id r at_ reason, r.status.active = true →
      old id r { r.finish .cancelled at_ with errorMessage := reason }) (tenantID runID : ℕ)
    (reason : String) : (cancelRun env now tenantID runID reason).Effect W fun _ => True := by
  have hupdate : ∀ r, cancellable tenantID r = true → old runID r
      { r.finish .cancelled (r.finishedAt.getD now) with errorMessage := reason } := fun r h => by
    simp only [cancellable, Bool.and_eq_true] at h
    exact hcancel runID r _ reason h.2
  refine (updateRun_effect hW.toAllowsRuns hupdate).bind fun r _ => ?_
  cases r with
  | some r =>
    refine (emitRunEvent_effect hW.toAllowsRuns _ _ _).bind fun _ _ => ?_
    refine Program.Effect.bind (.when fun _ => ?_) fun _ _ =>
      (rearmFixedDelay_effect hW.toAllowsRuns _ _).bind fun _ _ => .pure trivial
    exact enqueueExecutorCancellation_effect hW _ _
  | none =>
    refine (select_effect _).bind fun r _ => ?_
    cases r with
    | none => exact .fail
    | some r =>
      dsimp only
      split
      · refine Program.Effect.bind (.when fun _ => ?_) fun _ _ => .pure trivial
        exact enqueueExecutorCancellation_effect hW _ _
      · exact .fail

end Cancels

/-- A judgement of the programs whose writes are allowed, and of covering the runs of `jobs`. -/
structure Covers (env : Env) (now : Int) (J : Judgement Key Row StoreError) (jobs : ℕ → Prop)
    (W : Db → Write Row → Prop) : Prop where
  effect : ∀ {α : Type} {p : Tx α} {S : α → Prop}, p.Effect W S → J.holds p S
  cover : ∀ jobID, jobs jobID → J.holds (coverEarly env now jobID) fun _ => True

theorem AllowsCancels.covers {jobs : ℕ → Prop} (hW : AllowsCancels old new W)
    (hcover : ∀ id r, jobs r.jobID → r.status.active = true → old id r (coverRun now r)) :
    Covers env now (.effect W) jobs W where
  effect := id
  cover := fun jobID hjob => coverEarly_effect hW fun id r h => by
    simp only [activeOfJob, Bool.and_eq_true, beq_iff_eq] at h
    exact hcover id r (h.1 ▸ hjob) h.2

section Covers

variable {J : Judgement Key Row StoreError} {jobs : ℕ → Prop} (hW : AllowsRuns old new W)
  (hJ : Covers env now J jobs W)
include hJ

theorem applyBlockAction_holds {jobID : ℕ} (hjob : jobs jobID) (action : BlockAction) :
    J.holds (applyBlockAction env now jobID action) fun a => a = action :=
  J.bind (J.when fun _ => hJ.cover jobID hjob) fun _ _ => J.pure rfl

theorem applyBlockPolicy_holds {jobID : ℕ} (hjob : jobs jobID) (policy : OverlapPolicy) :
    J.holds (applyBlockPolicy env now jobID policy) fun _ => True :=
  J.bind (hJ.effect (select_effect _)) fun _ _ =>
    J.weaken (applyBlockAction_holds hJ hjob _) fun _ _ => trivial

include hW

theorem dispatchDependent_holds {parent : Run} {c : Dependent} (hjob : jobs c.id)
    (hnew : ∀ r : Run, r.jobID = c.id → NewRun r → new r) :
    J.holds (dispatchDependent env now parent c) fun _ => True := by
  have hinsert : ∀ scheduledAt runID status message, status = .pending ∨ status = .skipped →
      J.holds (insertRun now (dependentRun now scheduledAt parent c.id runID status message))
        fun _ => True := fun _ _ _ _ hstatus =>
    hJ.effect (insertRun_effect hW (hnew _ rfl ⟨hstatus, rfl, rfl⟩))
  refine J.bind (hJ.effect (.acquire fun d => hW.same d _)) fun _ _ => ?_
  refine J.bind (hJ.effect (newUUID_effect hW)) fun runID _ =>
    J.bind (hJ.effect timeNow_effect) fun scheduledAt _ => ?_
  refine J.bind (hJ.effect (.insert fun d _ => hW.aside d _ _ rfl nofun)) fun reserved _ => ?_
  split
  · exact J.pure trivial
  refine J.bind (hJ.effect (select_effect _)) fun pending _ =>
    J.bind (applyBlockPolicy_holds hJ hjob _) fun action _ => ?_
  split
  · exact hinsert _ _ _ _ (.inr rfl)
  split
  · refine J.bind (hJ.effect (planShards_effect _ _)) fun shards _ => ?_
    split
    · exact J.fail
    · split
      · exact hinsert _ _ _ _ (.inr rfl)
      · exact hJ.effect (insertDependentShards_effect hW hnew shards)
  · exact hinsert _ _ _ _ (.inl rfl)

theorem enqueueDependentRuns_holds (hjobs : ∀ jobID, jobs jobID) (hnew : ∀ r, NewRun r → new r)
    (parent : Run) : J.holds (enqueueDependentRuns env now parent) fun _ => True := by
  refine J.bind (hJ.effect (select_effect _)) fun children _ => ?_
  refine J.bind (hJ.effect (.upsert fun d w => hW.aside d _ _ rfl nofun)) fun _ _ =>
    J.forEach fun c _ => ?_
  exact dispatchDependent_holds hW hJ (hjobs _) fun r _ => hnew r

theorem completeRun_holds (hjobs : ∀ jobID, jobs jobID) (hnew : ∀ r, NewRun r → new r) {run : Run}
    {success : Bool} {status : ℕ} {message : String}
    (hend : ∀ lease r, run.lease = some lease → leasedBy lease.token r = true →
      old run.id r { r.finish (if success then .succeeded else .failed) now with
        responseStatus := status, errorMessage := message }) :
    J.holds (completeRun env now run success status message) fun _ => True := by
  refine J.bind (hJ.effect (leased_effect hW run hend)) fun _ _ => ?_
  refine J.bind (hJ.effect (emitRunEvent_effect hW _ _ _)) fun _ _ => ?_
  refine J.bind (J.when fun _ => hJ.effect (emitRunEvent_effect hW _ _ _)) fun _ _ => ?_
  refine J.bind (J.when fun _ => enqueueDependentRuns_holds hW hJ hjobs hnew _) fun _ _ => ?_
  exact hJ.effect (rearmFixedDelay_effect hW _ _)

theorem completeCallback_holds (hjobs : ∀ jobID, jobs jobID) (hnew : ∀ r, NewRun r → new r)
    {runID tokenHash : ℕ} {succeeded : Bool} {message : String}
    (hend : ∀ r, awaitsCallback tokenHash now r = true →
      old runID r { r.finish (if succeeded then .succeeded else .failed) now with
        errorMessage := if succeeded then "" else message }) :
    J.holds (completeCallback env now runID tokenHash succeeded message) fun _ => True := by
  refine J.bind (hJ.effect (updateRun_effect hW hend)) fun terminal _ => ?_
  cases terminal with
  | none => exact J.fail
  | some terminal =>
    refine J.bind (hJ.effect (select_effect _)) fun maxRetries _ => ?_
    cases maxRetries with
    | none => exact J.fail
    | some maxRetries =>
      refine J.bind (hJ.effect (emitRunEvent_effect hW _ _ _)) fun _ _ => ?_
      split
      · exact J.bind (enqueueDependentRuns_holds hW hJ hjobs hnew _) fun _ _ =>
          hJ.effect (rearmFixedDelay_effect hW _ _)
      · exact hJ.effect (retryOrExhaust_effect hW hnew _ _ _)

theorem enqueueOccurrence_holds {j : Job} (hjob : jobs j.id)
    (hnew : ∀ r : Run, r.jobID = j.id → NewRun r → new r) (strategy : Option RouteStrategy)
    (goNow next_ at_ : Int) :
    J.holds (enqueueOccurrence env now j strategy goNow next_ at_) fun _ => True := by
  have hone : ∀ status, status = .pending ∨ status = .skipped →
      J.holds (enqueueOne env now j goNow next_ at_ status) fun _ => True :=
    fun status hstatus => hJ.effect (enqueueOne_effect hW hnew _ _ _ hstatus)
  refine J.bind (hJ.effect (select_effect _)) fun state _ =>
    J.bind (applyBlockAction_holds hJ hjob _) fun action _ => ?_
  split
  · exact hone .skipped (.inr rfl)
  · split
    · refine J.bind (hJ.effect (planShards_effect _ _)) fun shards _ => ?_
      split
      · exact J.fail
      · split
        · exact hone .skipped (.inr rfl)
        · exact J.bind (hJ.effect (insertScheduledShards_effect hW hnew _ _)) fun _ _ =>
            J.pure trivial
    · exact hone .pending (.inl rfl)

theorem enqueueJob_holds {j : Job} (hjob : jobs j.id)
    (hnew : ∀ r : Run, r.jobID = j.id → NewRun r → new r) (batch : List BatchItem)
    (strategy : Option RouteStrategy) :
    J.holds (enqueueJob env now batch (j, strategy)) fun batch' =>
      NewRuns batch → NewRuns batch' := by
  unfold enqueueJob
  dsimp only
  split
  · exact J.pure id
  · refine J.bind (hJ.effect timeNow_effect) fun goNow _ => ?_
    split
    · exact J.fail
    · split
      · refine J.bind (S := fun batch' => NewRuns batch → NewRuns batch') ?_ fun batch' hbatch =>
          J.pure fun h => (hbatch h).append fun r hr => by simp at hr
        refine J.foldEach id fun batch' at_ _ hbatch => ?_
        exact hJ.effect ((queueOccurrence_effect hW batch' at_).weaken fun _ h => h ∘ hbatch)
      · refine J.bind (S := fun _ => True) ?_ fun next' _ =>
          J.bind (hJ.effect (advanceJob_effect hW _ _)) fun _ _ => J.pure id
        exact J.foldEach trivial fun next' at_ _ _ =>
          enqueueOccurrence_holds hW hJ hjob hnew _ _ _ _

theorem enqueueDue_holds (hjobs : ∀ jobID, jobs jobID) (hnew : ∀ r, NewRun r → new r)
    (batchSize : ℕ) : J.holds (enqueueDue env now batchSize) fun _ => True := by
  refine J.bind (hJ.effect (.skipLocked hW.same)) fun rows _ =>
    J.bind (hJ.effect (liftExcept_effect _)) fun due _ =>
      J.bind (hJ.effect (select_effect _)) fun strategies _ => ?_
  cases strategies with
  | none => exact J.fail
  | some strategies =>
    refine J.bind (S := NewRuns) ?_ fun batch hbatch => J.forEach fun item hitem => ?_
    · refine J.foldEach (fun r hr => by simp at hr) fun batch item _ hbatch => ?_
      exact J.weaken (enqueueJob_holds hW hJ (hjobs _) (fun r _ => hnew r) _ _) fun _ h => h hbatch
    · cases item with
      | insertRun r => exact hJ.effect (insertRun_effect hW (hnew r (hbatch r hitem)))
      | advanceJob jobID next =>
        exact J.bind (hJ.effect (advanceJob_effect hW _ _)) fun _ _ => J.pure trivial

theorem triggerReserved_holds {req : TriggerRequest} (hjob : jobs req.jobID)
    (hnew : ∀ r : Run, r.jobID = req.jobID → NewRun r → new r) (runID : ℕ) (scheduledAt : Int)
    (state : TriggerState) :
    J.holds (triggerReserved env now req runID scheduledAt state) fun _ => True := by
  have hinsert : ∀ status, status = .pending ∨ status = .skipped →
      J.holds (insertRun now (manualRun now req runID scheduledAt status)) fun _ => True :=
    fun _ hstatus => hJ.effect (insertRun_effect hW (hnew _ rfl ⟨hstatus, rfl, rfl⟩))
  refine J.bind (S := fun _ => True) ?_ fun missing _ => ?_
  · split
    · exact J.pure trivial
    · exact J.bind (hJ.effect (select_effect _)) fun _ _ => J.pure trivial
  split
  · exact J.fail
  refine J.bind (applyBlockPolicy_holds hJ hjob _) fun action _ => ?_
  split
  · exact J.fail
  split
  · exact J.bind (hinsert _ (.inr rfl)) fun _ _ => J.pure trivial
  split
  · refine J.bind (S := fun _ => True) ?_ fun shards _ => ?_
    · split
      · exact hJ.effect (planShards_effect _ _)
      · exact J.pure trivial
    split
    · exact J.fail
    split
    · exact J.fail
    · exact hJ.effect (insertManualShards_effect hW hnew _ _ _)
  · exact J.bind (hinsert _ (.inl rfl)) fun _ _ => J.pure trivial

theorem triggerJobWithOptions_holds {req : TriggerRequest}
    (hkey : req.key = "" ∨ ∀ d v, W d ⟨.idempotency req.tenantID req.jobID req.key, v⟩)
    (hjob : jobs req.jobID) (hnew : ∀ r : Run, r.jobID = req.jobID → NewRun r → new r) :
    J.holds (triggerJobWithOptions env now req) fun _ => True := by
  refine J.bind (hJ.effect (newUUID_effect hW)) fun runID _ =>
    J.bind (hJ.effect timeNow_effect) fun scheduledAt _ => ?_
  refine J.bind (hJ.effect (.acquire fun d => hW.same d _)) fun _ _ =>
    J.bind (hJ.effect (select_effect _)) fun state _ => ?_
  cases state with
  | none => exact J.fail
  | some state =>
    have hrest := triggerReserved_holds hW hJ hjob hnew runID scheduledAt state
    dsimp only
    split
    · exact J.fail
    · split
      · exact hrest
      · next hne =>
        refine J.bind (hJ.effect (.insert fun d _ => hkey.resolve_left hne d _))
          fun reserved _ => ?_
        split
        · exact hrest
        · refine J.bind (hJ.effect (select_effect _)) fun r _ => ?_
          cases r with
          | none => exact J.fail
          | some r => exact J.pure trivial

end Covers

section Edits

theorem setJobDependencies_effect (hedit : ∀ d parent child v, W d ⟨.dependency parent child, v⟩)
    (tenantID parentJobID : ℕ) (childJobIDs : List ℕ) :
    (setJobDependencies tenantID parentJobID childJobIDs).Effect W fun _ => True := by
  refine (select_effect _).bind fun count _ => ?_
  split
  · exact .fail
  · refine (select_effect _).bind fun old _ => Program.Effect.bind (.forEach fun childID _ => ?_)
      fun _ _ => .forEach fun childID _ => ?_
    · exact Program.Effect.bind (.delete fun d => hedit d _ _ _) fun _ _ => .pure trivial
    · split
      · exact .fail
      · refine (select_effect _).bind fun b _ => ?_
        split
        · exact .fail
        · exact insertRow_effect fun d _ => hedit d _ _ _

variable (hW : AllowsRuns old new W) (hedit : ∀ d (k : Key) v, k.registered = true → W d ⟨k, v⟩)
include hW hedit

theorem insertJobScriptVersion_effect (j : Job) (remark : String) :
    (insertJobScriptVersion j remark).Effect W fun _ => True := by
  refine (newUUID_effect hW).bind fun id _ => (select_effect _).bind fun latest _ => ?_
  exact insertRow_effect fun d _ => hedit d _ _ rfl

theorem storeNewJob_effect (j : Job) (t : Int) (secrets : Secrets) (id : ℕ) :
    (storeNewJob env j t secrets id).Effect W fun _ => True := by
  refine (liftExcept_effect _).bind fun stored _ => ?_
  refine (insertRow_effect fun d _ => hedit d _ _ rfl).bind fun _ _ => ?_
  refine Program.Effect.bind (.when fun _ => ?_) fun _ _ => .pure trivial
  exact insertJobScriptVersion_effect hW hedit _ _

theorem createJob_effect (request : Job) (secrets : Secrets) :
    (createJob env request secrets).Effect W fun _ => True := by
  refine timeNow_effect.bind fun goNow _ => (scheduleNext_effect _ _).bind fun t _ => ?_
  exact (newUUID_effect hW).bind fun id _ => storeNewJob_effect hW hedit _ t secrets id

omit hW in
theorem editJobRow_effect {id : ℕ} {p : Job → Bool} {set : Job → Job} :
    (updateJobRow id p set).Effect W fun _ => True :=
  .update (V := Row) (k := Key.job id) fun d _ _ _ => hedit d _ _ rfl

theorem updateJob_effect (request : Job) (secrets : Secrets) :
    (updateJob env request secrets).Effect W fun _ => True := by
  refine timeNow_effect.bind fun goNow _ => (scheduleNext_effect _ _).bind fun t _ => ?_
  refine (liftExcept_effect _).bind fun stored _ => (lockJob_effect hW).bind
    fun current _ => ?_
  cases current with
  | none => exact .fail
  | some current =>
    refine (liftExcept_effect _).bind fun _ _ => ?_
    split
    · exact .fail
    · refine (editJobRow_effect hedit).bind fun row _ => ?_
      cases row with
      | none => exact .fail
      | some row =>
        refine Program.Effect.bind (.when fun _ => ?_) fun _ _ => .pure trivial
        exact insertJobScriptVersion_effect hW hedit _ _

theorem setJobEnabled_effect (tenantID id : ℕ) (enabled : Bool) (version : ℕ) :
    (setJobEnabled env tenantID id enabled version).Effect W fun _ => True := by
  refine (lockJob_effect hW).bind fun job _ => ?_
  cases job with
  | none => exact .fail
  | some job =>
    refine (liftExcept_effect _).bind fun _ _ => ?_
    split
    · exact .fail
    · split
      · exact .pure trivial
      · refine timeNow_effect.bind fun goNow _ => (nextRunForEnabledState_effect _ _ _).bind
          fun nextRunAt _ => (editJobRow_effect hedit).bind fun row _ => ?_
        cases row with
        | none => exact .fail
        | some row => exact liftExcept_effect _

end Edits

section Operations

def editsJob : Operation → Bool
  | .createJob _ _ | .updateJob _ _ | .setJobEnabled _ _ _ _ => true
  | _ => false

theorem edit_effect {op : Operation} (hW : AllowsRuns old new W)
    (hedit : ∀ d (k : Key) v, k.registered = true → W d ⟨k, v⟩) (hop : editsJob op = true) :
    (operationProgram env now op).Effect W fun _ => True := by
  cases op with
  | createJob => exact (createJob_effect hW hedit _ _).map
  | updateJob => exact (updateJob_effect hW hedit _ _).map
  | setJobEnabled => exact (setJobEnabled_effect hW hedit _ _ _ _).map
  | _ => simp [editsJob] at hop

theorem leased_of {t : Transaction} {w : Run} (hop : claimedRunOf t.operation = some w)
    {lease : Lease} {r : Run} (hlease : w.lease = some lease) (h : leasedBy lease.token r = true) :
    Leased t w.id w r := by
  simp only [leasedBy, Bool.and_eq_true, beq_iff_eq] at h
  exact ⟨hop, rfl, h.1, lease, hlease, h.2⟩

def coversRuns : Operation → Bool
  | .triggerJob _ | .enqueueDue _ | .completeRun _ _ _ _ | .completeCallback _ _ _ _ => true
  | _ => false

/-- What holds of an operation, given that it holds of claims, of `CancelRun` and of the edits of
jobs. -/
theorem operationProgram_holds {t : Transaction} {J : Judgement Key Row StoreError}
    {jobs : ℕ → Prop} (hW : AllowsRuns old new W) (hJ : Covers env t.now J jobs W)
    (hjobs : coversRuns t.operation = true → ∀ jobID, jobs jobID)
    (hmove : ∀ id r r', Move t id r r' → r'.status ≠ .cancelled → old id r r')
    (hnew : ∀ r, NewRun r → new r)
    (hregistry : ∀ d (k : Key) v, k.registered = true → (∀ id, k ≠ .job id) →
      (∀ id, k ≠ .jobScriptVersion id) → W d ⟨k, v⟩)
    (htrigger : ∀ req, t.operation = .triggerJob req → req.key = "" ∨
      ∀ d v, W d ⟨.idempotency req.tenantID req.jobID req.key, v⟩)
    (hclaim : ∀ owner limit lease, t.operation = .claimRuns owner limit lease →
      J.holds (claimRuns env t.now owner limit lease) fun _ => True)
    (hcancel : ∀ tenantID runID reason, t.operation = .cancelRun tenantID runID reason →
      J.holds (cancelRun env t.now tenantID runID reason) fun _ => True)
    (hedit : editsJob t.operation = true →
      J.holds (operationProgram env t.now t.operation) fun _ => True) :
    J.holds (operationProgram env t.now t.operation) fun _ => True := by
  have hdone : ∀ {α : Type} {p : Tx α} {f : α → Result}, J.holds p (fun _ => True) →
      J.holds (f <$> p) fun _ => True := fun h => J.bind h fun _ _ => J.pure trivial
  have hrow : ∀ {α : Type} {p : Tx α} {f : α → Result}, p.Effect W (fun _ => True) →
      J.holds (f <$> p) fun _ => True := fun h => hdone (hJ.effect h)
  cases hop : t.operation with
  | createJob => exact hop ▸ hedit (by rw [hop]; rfl)
  | updateJob => exact hop ▸ hedit (by rw [hop]; rfl)
  | setJobEnabled => exact hop ▸ hedit (by rw [hop]; rfl)
  | createTenant id row =>
    exact hrow (insertRow_effect fun d _ => hregistry d (.tenant id) _ rfl nofun nofun)
  | createExecutorGroup id row =>
    exact hrow (insertRow_effect fun d _ => hregistry d (.executorGroup id) _ rfl nofun nofun)
  | createKubernetesCluster row =>
    exact hrow
      (insertRow_effect fun d _ => hregistry d (.kubernetesCluster row.id) _ rfl nofun nofun)
  | updateExecutorGroup id row =>
    exact hrow (.update fun d _ _ _ => hregistry d (.executorGroup id) _ rfl nofun nofun)
  | updateKubernetesCluster row =>
    exact hrow (.update fun d _ _ _ => hregistry d (.kubernetesCluster row.id) _ rfl nofun nofun)
  | registerExecutor row =>
    exact hrow
      (.upsert fun d _ => hregistry d (.executorNode row.groupID row.nodeID) _ rfl nofun nofun)
  | setJobDependencies =>
    exact hrow (setJobDependencies_effect (fun d parent child v =>
      hregistry d (.dependency parent child) v rfl nofun nofun) _ _ _)
  | triggerJob req =>
    exact hdone (triggerJobWithOptions_holds hW hJ (htrigger req hop) (hjobs (by rw [hop]; rfl) _)
      fun r _ => hnew r)
  | enqueueDue => exact hdone (enqueueDue_holds hW hJ (hjobs (by rw [hop]; rfl)) hnew _)
  | claimRuns => exact hdone (hclaim _ _ _ hop)
  | assignClaimedRunExecutor run nodeID address =>
    refine hrow ((leased_effect hW run fun lease r hlease h => ?_).bind fun _ _ => .pure trivial)
    refine hmove _ r _ (.assign (leased_of (by rw [hop]; rfl) hlease h) _ _ (by rw [hop]; rfl)) ?_
    simp [leasedBy_running h]
  | prepareClaimedExecutorDispatch run nodeID address tokenHash deadline =>
    refine hrow ((leased_effect hW run fun lease r hlease h => ?_).bind fun _ _ =>
      emitRunEvent_effect hW _ _ _)
    exact hmove _ r _ (.wait (leased_of (by rw [hop]; rfl) hlease h) _ _ _ _ _
      (.inl (by rw [hop]; rfl))) nofun
  | markClaimedWaitingCallback =>
    refine hrow (markClaimedWaitingCallback_effect hW fun lease r hlease h => ?_)
    exact hmove _ r _ (.wait (leased_of (by rw [hop]; rfl) hlease h) _ _ _ r.executorNodeID
      r.executorAddress (.inr rfl)) nofun
  | completeRun run success =>
    refine hdone
      (completeRun_holds hW hJ (hjobs (by rw [hop]; rfl)) hnew fun lease r hlease h => ?_)
    refine hmove _ r _ (.report (leased_of (by rw [hop]; rfl) hlease h) ?_ _ _) ?_
    · cases success
      · exact .inr (.inl rfl)
      · exact .inl rfl
    · cases success <;> nofun
  | failRun run state =>
    refine hrow (failRun_effect hW (fun hstate lease r hlease h => ?_) hnew _)
    refine hmove _ r _ (.report (leased_of (by rw [hop]; rfl) hlease h) (.inr hstate) _ _) ?_
    rcases hstate with rfl | rfl <;> nofun
  | completeCallback runID tokenHash succeeded =>
    refine hdone (completeCallback_holds hW hJ (hjobs (by rw [hop]; rfl)) hnew fun r h => ?_)
    refine hmove _ r _ (.callback hop h) ?_
    cases succeeded <;> nofun
  | expireCallbacks =>
    exact hrow (expireCallbacks_effect hW (fun id r h => hmove id r _ (.expire hop h) nofun) hnew)
  | cancelRun => exact hdone (hcancel _ _ _ hop)

theorem operationProgram_effect {t : Transaction} (hW : AllowsCancels old new W)
    (hmove : ∀ id r r', Move t id r r' → old id r r') (hnew : ∀ r, NewRun r → new r)
    (hregistry : ∀ d (k : Key) v, k.registered = true → (∀ id, k ≠ .job id) →
      (∀ id, k ≠ .jobScriptVersion id) → W d ⟨k, v⟩)
    (htrigger : ∀ req, t.operation = .triggerJob req → req.key = "" ∨
      ∀ d v, W d ⟨.idempotency req.tenantID req.jobID req.key, v⟩)
    (hclaim : ∀ owner token limit lease j id r, t.operation = .claimRuns owner limit lease →
      claimable t.now r = true → old id r (claim t.now owner token lease j r))
    (hedit : editsJob t.operation = true →
      (operationProgram env t.now t.operation).Effect W fun _ => True) :
    (operationProgram env t.now t.operation).Effect W fun _ => True := by
  have hJ : Covers env t.now (.effect W) (fun _ => True) W :=
    hW.covers fun id r _ hactive => hmove id r _ (.cover hactive)
  refine operationProgram_holds hW.toAllowsRuns hJ (fun _ _ => trivial)
    (fun id r r' h _ => hmove id r r' h) hnew hregistry htrigger ?_ ?_ hedit
  · intro owner limit lease hop
    exact claimRuns_effect hW.toAllowsRuns
      (fun token j id r => hclaim _ token limit _ j id r hop) limit
  · intro tenantID runID reason _
    exact cancelRun_effect hW (fun id r at_ reason h => hmove id r _ (.cancel h at_ reason)) _ _ _

end Operations

end GoScheduler.Store
