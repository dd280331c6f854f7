import GoScheduler.Store.System

/-! What a transaction can make of one run: the columns that stay, the rows as they are
inserted, and the transitions, each with the operation that makes it and what it asks of
the row. -/
namespace GoScheduler.Store
open ReadCommitted Schedule

structure Run.Same (r q : Run) : Prop where
  id : r.id = q.id
  tenantID : r.tenantID = q.tenantID
  jobID : r.jobID = q.jobID
  triggerType : r.triggerType = q.triggerType
  attempt : r.attempt = q.attempt
  scheduledAt : r.scheduledAt = q.scheduledAt
  runtimeInput : r.runtimeInput = q.runtimeInput
  parentRunID : r.parentRunID = q.parentRunID
  retryOfRunID : r.retryOfRunID = q.retryOfRunID
  broadcast : r.broadcast = q.broadcast
  rescheduleOnTerminal : r.rescheduleOnTerminal = q.rescheduleOnTerminal
  overrideAddresses : r.overrideAddresses = q.overrideAddresses
  epoch : r.epoch = q.epoch

theorem Run.Same.refl (r : Run) : r.Same r := by constructor <;> rfl

theorem Run.Same.symm {r q : Run} (h : r.Same q) : q.Same r := by
  constructor <;> simp only [h.id, h.tenantID, h.jobID, h.triggerType, h.attempt, h.scheduledAt,
    h.runtimeInput, h.parentRunID, h.retryOfRunID, h.broadcast, h.rescheduleOnTerminal,
    h.overrideAddresses, h.epoch]

theorem Run.Same.trans {r q s : Run} (h : r.Same q) (h' : q.Same s) : r.Same s := by
  constructor <;> simp only [h.id, h.tenantID, h.jobID, h.triggerType, h.attempt, h.scheduledAt,
    h.runtimeInput, h.parentRunID, h.retryOfRunID, h.broadcast, h.rescheduleOnTerminal,
    h.overrideAddresses, h.epoch, h'.id, h'.tenantID, h'.jobID, h'.triggerType, h'.attempt,
    h'.scheduledAt, h'.runtimeInput, h'.parentRunID, h'.retryOfRunID, h'.broadcast,
    h'.rescheduleOnTerminal, h'.overrideAddresses, h'.epoch]

structure NewRun (r : Run) : Prop where
  status : r.status = .pending ∨ r.status = .skipped
  history : r.history = [r.status]
  claims : r.claims = []

theorem NewRun.not_cancelled {r : Run} (h : NewRun r) : r.status ≠ .cancelled := by
  rcases h.status with hstatus | hstatus <;> simp [hstatus]

section Moves

def assigns : Operation → Bool
  | .assignClaimedRunExecutor _ _ _ | .prepareClaimedExecutorDispatch _ _ _ _ _ => true
  | _ => false

variable (t : Transaction) (id : ℕ)

structure Leased (w r : Run) : Prop where
  operation : claimedRunOf t.operation = some w
  id : w.id = id
  running : r.status = .running
  token : ∃ l, w.lease = some l ∧ r.lease.map Lease.token = some l.token

/-- The transitions of the row under `id`, other than its claims. -/
inductive Move (r : Run) : Run → Prop where
  | assign {w : Run} (hw : Leased t id w r) (nodeID address : String)
      (hop : assigns t.operation = true) :
      Move r { r with executorNodeID := nodeID, executorAddress := address }
  | wait {w : Run} (hw : Leased t id w r) (status tokenHash : ℕ) (deadline : Int)
      (nodeID address : String)
      (haddress : assigns t.operation = true ∨ address = r.executorAddress) :
      Move r (waitForCallback status tokenHash deadline
        { r with executorNodeID := nodeID, executorAddress := address })
  | report {w : Run} {state : RunStatus} (hw : Leased t id w r)
      (hstate : state = .succeeded ∨ state = .failed ∨ state = .timedOut) (status : ℕ)
      (message : String) :
      Move r { r.finish state t.now with responseStatus := status, errorMessage := message }
  | callback {tokenHash : ℕ} {succeeded : Bool} {message : String}
      (hop : t.operation = .completeCallback id tokenHash succeeded message)
      (hr : awaitsCallback tokenHash t.now r = true) :
      Move r { r.finish (if succeeded then .succeeded else .failed) t.now with
        errorMessage := if succeeded then "" else message }
  | expire (hop : t.operation = .expireCallbacks) (hr : r.status = .waitingCallback) :
      Move r { r.finish .timedOut t.now with errorMessage := "callback deadline exceeded" }
  | cancel (hr : r.status.active = true) (at_ : Int) (reason : String) :
      Move r { r.finish .cancelled at_ with errorMessage := reason }
  | cover (hr : r.status.active = true) : Move r (coverRun t.now r)

end Moves

section Transitions

variable {t : Transaction} {id : ℕ} {r r' : Run}

theorem awaitsCallback_waiting {tokenHash : ℕ} {now : Int}
    (h : awaitsCallback tokenHash now r = true) :
    r.status = .waitingCallback := by
  simp only [awaitsCallback, Bool.and_eq_true, beq_iff_eq] at h
  exact h.1

theorem Move.same (h : Move t id r r') : r'.Same r := by
  cases h <;> constructor <;> rfl

theorem Move.active (h : Move t id r r') : r.status.active = true := by
  cases h with
  | assign hw | wait hw | report hw => simp [hw.running, RunStatus.active]
  | callback _ hr => simp [awaitsCallback_waiting hr, RunStatus.active]
  | expire _ hr => simp [hr, RunStatus.active]
  | cancel hr | cover hr => exact hr

theorem Move.address (h : Move t id r r') (hop : assigns t.operation = false) :
    r'.executorAddress = r.executorAddress := by
  cases h with
  | assign _ _ _ hassigns => simp [hop] at hassigns
  | wait _ _ _ _ _ _ haddress => exact haddress.resolve_left (by simp [hop])
  | _ => rfl

theorem claim_same (now : Int) (owner : String) (token : ℕ) (lease : Int) (j : Job) (r : Run) :
    r.Same (claim now owner token lease j r) := by
  constructor <;> rfl

theorem claimable_active {now : Int} (h : claimable now r = true) : r.status.active = true := by
  simp only [claimable, Bool.or_eq_true, Bool.and_eq_true, beq_iff_eq] at h
  rcases h with h | h <;> simp [h.1, RunStatus.active]

theorem claimable_claim (now : Int) (owner : String) (token : ℕ) (lease : Int) (j : Job) :
    claimable now (claim now owner token lease j r) = false := by
  have hlow : 0 ≤ leaseDuration lease j := by
    unfold leaseDuration second
    omega
  simp only [claimable, claim, Run.enter, Option.any_some, Bool.or_eq_false_iff]
  constructor
  · simp
  · simp
    omega

end Transitions

end GoScheduler.Store
