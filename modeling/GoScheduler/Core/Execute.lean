import GoScheduler.Core.Routing
import GoScheduler.Text.Utf8

/-! The execution of a claimed run by the engine, together with the goroutine that watches
for its cancellation. The watcher reads the status of the run at its ticks and cancels the
context when the run is not running; the context bounds the routing, the transaction that
prepares the dispatch and the dispatch itself. Other actors change anything but the run,
the parent context stays open and the timeout of the job does not elapse. -/
namespace GoScheduler.Core
open Store ReadCommitted

inductive DispatchAnswer where
  | accepted
  | rejected  -- `executor rejected run`.
  -- A failure of the connection or an error of the executor.
  | failed (message : Text.Bytes)
deriving DecidableEq, Repr

inductive Phase where
  | starting
  | routing
  | loadingCluster (node : ExecutorNode)
  | preparing (node : ExecutorNode)
  -- The preparation has committed and the dispatch has not returned.
  | dispatching (node : ExecutorNode)
  -- The dispatch has returned an error, to be reported by `CompleteCallback`.
  | reporting (message : Text.Bytes)
  | failing (message : String)  -- A step before the dispatch has failed, to be reported by `fail`.
  | returned
deriving DecidableEq, Repr

inductive Watcher where
  | ticking
  | stopping  -- It has read that the run is not running and is about to cancel.
  | done
deriving DecidableEq, Repr

structure Execution where
  d : Db
  routes : RouteTables
  cancelled : Bool
  phase : Phase
  watcher : Watcher

structure ExecuteCall where
  claimed : ClaimedRun
  hasTransport : Bool
  tokenHash : ℕ
  callbackDeadline : Int
  store : Env

inductive ExecuteLabel where
  | check (tokenFails : Bool)
  | route (env : RouteEnv) (now : Int)
  | loadCluster (fails : Bool)
  -- The transaction, whose answer may be lost.
  | prepare (now : Int) (inps : List (Input Key)) (lost : Bool)
  | dispatchReturns (answer : DispatchAnswer)
  | report (now : Int) (inps : List (Input Key))
  | fail (now : Int) (inps : List (Input Key)) (state : RunStatus) (retryDelay : Option Int)
  | leave  -- The deferred call of `cancel`.
  | tick (fails : Bool)  -- A tick of the watcher, whose query may fail.
  | stop
  | seeDone  -- The watcher sees the end of the context.
  | other (d' : Db)  -- Another actor changes the database, but not the run.

def isRunRunning (d : Db) (runID : ℕ) : Bool :=
  (d.row (.run runID)).any fun r => r.status == .running

def truncateMessage (value : Text.Bytes) (limit : ℕ) : Text.Bytes := value.take limit

def dispatchError (cancelled : Bool) (answer : DispatchAnswer) : Option Text.Bytes :=
  if cancelled then some (Text.bytes "dispatch executor: context canceled")
  else match answer with
    | .accepted => none
    | .rejected => some (Text.bytes "executor rejected run")
    | .failed message => some (Text.bytes "dispatch executor: " ++ message)

/-- What `execute` passes to `CompleteCallback` after a failed dispatch. -/
def Phase.callbackMessage : Phase → Option Text.Bytes
  | .reporting message => some (truncateMessage message 4096)
  | _ => none

def Execution.startError (x : ExecuteCall) (tokenFails : Bool) : Option String :=
  if !x.hasTransport then some "executor gRPC transport is required"
  else if x.claimed.job.executorGroupID = none then some "job requires an executor group"
  else if tokenFails then some "generate callback token"
  else none

section Steps

variable (x : ExecuteCall)

def Execution.step (s : Execution) : ExecuteLabel → Option Execution
  | .check tokenFails =>
      match s.phase with
      | .starting => some { s with phase := (startError x tokenFails).elim .routing .failing }
      | _ => none
  | .route env now =>
      match s.phase with
      | .routing =>
          match routeClaimedExecutor env now s.d s.routes x.claimed with
          | .ok (node, routes) => some { s with phase := .loadingCluster node, routes := routes }
          | .error _ => some { s with phase := .failing "route" }
      | _ => none
  | .loadCluster fails =>
      match s.phase with
      | .loadingCluster node =>
          if fails && x.claimed.job.kubernetesClusterID.isSome then
            some { s with phase := .failing "load kubernetes cluster" }
          else some { s with phase := .preparing node }
      | _ => none
  | .prepare now inps lost =>
      match s.phase with
      | .preparing node =>
          if s.cancelled then some { s with phase := .failing "context canceled" } else
          match (prepareClaimedExecutorDispatch now x.claimed.run node.nodeID node.address
              x.tokenHash x.callbackDeadline).transact inps s.d with
          | some (.ok _, d') => some { s with
              d := d', phase := if lost then .failing "connection lost" else .dispatching node }
          | some (.error _, d') => some { s with d := d', phase := .failing "conflict" }
          | none => none
      | _ => none
  | .dispatchReturns answer =>
      match s.phase with
      | .dispatching _ => some { s with
          phase := (dispatchError s.cancelled answer).elim .returned .reporting }
      | _ => none
  | .report now inps =>
      match s.phase.callbackMessage with
      | some message =>
          match Text.decode message with
          | some text =>
              match (completeCallback x.store now x.claimed.run.id x.tokenHash false
                  text).transact inps s.d with
              | some (_, d') => some { s with d := d', phase := .returned }
              | none => none
          -- The statement fails, which is logged.
          | none => some { s with phase := .returned }
      | none => none
  | .fail now inps state retryDelay =>
      match s.phase with
      | .failing message =>
          match (failRun x.store now x.claimed.run state 0 message retryDelay).transact
              inps s.d with
          | some (_, d') => some { s with d := d', phase := .returned }
          | none => none
      | _ => none
  | .leave =>
      match s.phase with
      | .returned => some { s with cancelled := true }
      | _ => none
  | .tick fails =>
      match s.watcher with
      | .ticking =>
          if fails || isRunRunning s.d x.claimed.run.id then some s
          else some { s with watcher := .stopping }
      | _ => none
  | .stop =>
      match s.watcher with
      | .stopping => some { s with cancelled := true, watcher := .done }
      | _ => none
  | .seeDone => if s.cancelled then some { s with watcher := .done } else none
  | .other d' =>
      if d'.row (.run x.claimed.run.id) = s.d.row (.run x.claimed.run.id) then
        some { s with d := d' }
      else none

def Execution.run : Execution → List ExecuteLabel → Option Execution
  | s, [] => some s
  | s, l :: ls => (s.step x l).bind fun s' => s'.run ls

structure Execution.Starts (s : Execution) : Prop where
  phase : s.phase = .starting
  watcher : s.watcher = .ticking
  cancelled : s.cancelled = false
  running : isRunRunning s.d x.claimed.run.id = true

def Phase.isDispatching : Phase → Bool
  | .dispatching _ => true
  | _ => false

/-- The watcher learns no status between the commit of the preparation and the return of the
dispatch: it does not read, or the read fails. -/
def Execution.Unread (s : Execution) : ExecuteLabel → Prop
  | .tick fails => fails = true ∨ s.phase.isDispatching = false
  | _ => True

def Execution.UnreadRun : Execution → List ExecuteLabel → Prop
  | _, [] => True
  | s, l :: ls => s.Unread l ∧ ∀ s' ∈ s.step x l, s'.UnreadRun ls

instance decidableUnread (s : Execution) : (l : ExecuteLabel) → Decidable (s.Unread l)
  | .tick fails => inferInstanceAs (Decidable (fails = true ∨ s.phase.isDispatching = false))
  | .check _ | .route _ _ | .loadCluster _ | .prepare _ _ _ | .dispatchReturns _ | .report _ _
  | .fail _ _ _ _ | .leave | .stop | .seeDone | .other _ => .isTrue trivial

instance decidableUnreadRun : (s : Execution) → (ls : List ExecuteLabel) →
    Decidable (s.UnreadRun x ls)
  | _, [] => .isTrue trivial
  | s, l :: ls =>
      have : DecidablePred fun s' : Execution => s'.UnreadRun x ls :=
        fun s' => decidableUnreadRun s' ls
      inferInstanceAs (Decidable (s.Unread l ∧ ∀ s' ∈ s.step x l, _))

end Steps

def Phase.unprepared : Phase → Bool
  | .starting | .routing | .loadingCluster _ | .preparing _ => true
  | _ => false

def Phase.isReporting : Phase → Bool
  | .reporting _ => true
  | _ => false

structure Execution.Healthy (x : ExecuteCall) (accepts : Prop) (s : Execution) : Prop where
  running : s.phase.unprepared = true → isRunRunning s.d x.claimed.run.id = true
  live : s.phase.unprepared = true ∨ s.phase.isDispatching = true →
    s.cancelled = false ∧ s.watcher ≠ .stopping
  unreported : accepts → s.phase.isReporting = false

variable {x : ExecuteCall} {accepts : Prop} {s s' : Execution} {l : ExecuteLabel}

theorem Execution.Starts.healthy (h : s.Starts x) : s.Healthy x accepts where
  running _ := h.running
  live _ := ⟨h.cancelled, by simp [h.watcher]⟩
  unreported _ := by simp [h.phase, Phase.isReporting]

theorem Execution.Healthy.move (h : s.Healthy x accepts) {phase : Phase} {routes : RouteTables}
    (hfrom : s.phase.unprepared = true) (hto : phase.isReporting = false) :
    ({ s with phase := phase, routes := routes } : Execution).Healthy x accepts where
  running _ := h.running hfrom
  live _ := h.live (.inl hfrom)
  unreported _ := hto

theorem Execution.healthy_of_past (hphase : s'.phase.unprepared = false)
    (hdispatch : s'.phase.isDispatching = false)
    (hreport : accepts → s'.phase.isReporting = false) : s'.Healthy x accepts where
  running h := by simp [hphase] at h
  live h := by simp [hphase, hdispatch] at h
  unreported := hreport

theorem Execution.Healthy.step (h : s.Healthy x accepts) (hunread : s.Unread l)
    (haccepts : accepts → ∀ answer, l = .dispatchReturns answer → answer = .accepted)
    (hstep : s.step x l = some s') : s'.Healthy x accepts := by
  cases l with
  | check tokenFails =>
    simp only [Execution.step] at hstep
    split at hstep
    · rename_i hphase
      injection hstep with hstep
      subst hstep
      apply h.move (by rw [hphase]; rfl)
      cases startError x tokenFails <;> rfl
    · exact absurd hstep (by simp)
  | route env now =>
    simp only [Execution.step] at hstep
    split at hstep
    · rename_i hphase
      split at hstep
      all_goals
        injection hstep with hstep
        subst hstep
        exact h.move (by rw [hphase]; rfl) rfl
    · exact absurd hstep (by simp)
  | loadCluster fails =>
    simp only [Execution.step] at hstep
    split at hstep
    · rename_i hphase
      split at hstep
      all_goals
        injection hstep with hstep
        subst hstep
        exact h.move (by rw [hphase]; rfl) rfl
    · exact absurd hstep (by simp)
  | prepare now inps lost =>
    simp only [Execution.step] at hstep
    split at hstep
    · rename_i node hphase
      have hlive := h.live (.inl (by rw [hphase]; rfl))
      rw [if_neg (by simp [hlive.1])] at hstep
      split at hstep
      · injection hstep with hstep
        subst hstep
        exact ⟨by cases lost <;> simp [Phase.unprepared], fun _ => hlive,
          fun _ => by cases lost <;> rfl⟩
      · injection hstep with hstep
        subst hstep
        exact healthy_of_past rfl rfl fun _ => rfl
      · exact absurd hstep (by simp)
    · exact absurd hstep (by simp)
  | dispatchReturns answer =>
    simp only [Execution.step] at hstep
    split at hstep
    · rename_i node hphase
      have hopen := (h.live (.inr (by rw [hphase]; rfl))).1
      injection hstep with hstep
      subst hstep
      refine healthy_of_past ?_ ?_ fun hyes => ?_
      · cases dispatchError s.cancelled answer <;> rfl
      · cases dispatchError s.cancelled answer <;> rfl
      · rw [haccepts hyes answer rfl, hopen]
        rfl
    · exact absurd hstep (by simp)
  | report now inps =>
    simp only [Execution.step] at hstep
    split at hstep
    · split at hstep
      · split at hstep
        · injection hstep with hstep
          subst hstep
          exact healthy_of_past rfl rfl fun _ => rfl
        · exact absurd hstep (by simp)
      · injection hstep with hstep
        subst hstep
        exact healthy_of_past rfl rfl fun _ => rfl
    · exact absurd hstep (by simp)
  | fail now inps state retryDelay =>
    simp only [Execution.step] at hstep
    split at hstep
    · split at hstep
      · injection hstep with hstep
        subst hstep
        exact healthy_of_past rfl rfl fun _ => rfl
      · exact absurd hstep (by simp)
    · exact absurd hstep (by simp)
  | leave =>
    simp only [Execution.step] at hstep
    split at hstep
    · rename_i hphase
      injection hstep with hstep
      subst hstep
      exact healthy_of_past (by simp [hphase, Phase.unprepared])
        (by simp [hphase, Phase.isDispatching]) (by simp [hphase, Phase.isReporting])
    · exact absurd hstep (by simp)
  | tick fails =>
    simp only [Execution.step] at hstep
    split at hstep
    · split at hstep
      · injection hstep with hstep
        exact hstep ▸ h
      · rename_i hread
        injection hstep with hstep
        subst hstep
        -- The run is running before the preparation, and no read succeeds until the return.
        rw [Bool.or_eq_true, not_or] at hread
        refine healthy_of_past ?_ (hunread.resolve_left hread.1) h.unreported
        by_contra hphase
        rw [Bool.not_eq_false] at hphase
        exact hread.2 (h.running hphase)
    · exact absurd hstep (by simp)
  | stop =>
    simp only [Execution.step] at hstep
    split at hstep
    · rename_i hwatcher
      injection hstep with hstep
      subst hstep
      have hpast : ¬ (s.phase.unprepared = true ∨ s.phase.isDispatching = true) :=
        fun hphase => (h.live hphase).2 hwatcher
      simp only [not_or, Bool.not_eq_true] at hpast
      exact healthy_of_past hpast.1 hpast.2 h.unreported
    · exact absurd hstep (by simp)
  | seeDone =>
    simp only [Execution.step] at hstep
    split at hstep
    · rename_i hcancelled
      injection hstep with hstep
      subst hstep
      exact ⟨h.running, fun hphase => ⟨(h.live hphase).1, by simp⟩, h.unreported⟩
    · exact absurd hstep (by simp)
  | other d' =>
    simp only [Execution.step] at hstep
    split at hstep
    · rename_i hsame
      injection hstep with hstep
      subst hstep
      refine ⟨fun hphase => ?_, h.live, h.unreported⟩
      have hrunning := h.running hphase
      unfold isRunRunning at hrunning ⊢
      rw [hsame]
      exact hrunning
    · exact absurd hstep (by simp)

theorem Execution.Healthy.run {ls : List ExecuteLabel} (h : s.Healthy x accepts)
    (hunread : s.UnreadRun x ls)
    (haccepts : accepts → ∀ answer, .dispatchReturns answer ∈ ls → answer = .accepted)
    (hrun : s.run x ls = some s') : s'.Healthy x accepts := by
  induction ls generalizing s with
  | nil => exact Option.some.inj hrun ▸ h
  | cons l ls ih =>
    obtain ⟨t, hstep, hrest⟩ := Option.bind_eq_some_iff.mp hrun
    have hnext := h.step hunread.1
      (fun hyes answer hl => haccepts hyes answer (hl ▸ List.mem_cons_self ..)) hstep
    exact ih hnext (hunread.2 t hstep)
      (fun hyes answer hmem => haccepts hyes answer (List.mem_cons_of_mem _ hmem)) hrest

/-- While the watcher learns no status of a run between its preparation and the return of
the dispatch, the context of the dispatch is open until it returns, and a run
that its executor accepts is not reported as failed. -/
theorem dispatch_not_aborted (x : ExecuteCall) (s₀ s : Execution) (ls : List ExecuteLabel)
    (hstart : s₀.Starts x) (hrun : s₀.run x ls = some s) (hunread : s₀.UnreadRun x ls) :
    (s.phase.isDispatching = true → s.cancelled = false) ∧
    ((∀ answer, .dispatchReturns answer ∈ ls → answer = .accepted) →
      s.phase.isReporting = false) := by
  have hhealthy : s.Healthy x (∀ answer, .dispatchReturns answer ∈ ls → answer = .accepted) :=
    hstart.healthy.run hunread (fun h => h) hrun
  exact ⟨fun hphase => (hhealthy.live (.inr hphase)).1, hhealthy.unreported⟩

def claimedScriptRun : ClaimedRun :=
  { run := { id := 5, tenantID := 1, jobID := 1, triggerType := .manual, status := .running
             scheduledAt := 90, availableAt := 90, externalExecutionID := 5
             lease := some ⟨"core", 9, 500⟩, history := [.running, .pending] }
    job := { dockerJob with scriptLanguage := "shell" } }

def scriptExecution : Execution where
  d := ⟨.run 5 :: .uuid 5 :: dockerRegistry.keys, fun
    | .run id => if id = 5 then some claimedScriptRun.run else none
    | k => dockerRegistry.row k, 100⟩
  routes := noRoutes
  cancelled := false
  phase := .starting
  watcher := .ticking

def scriptCall : ExecuteCall := ⟨claimedScriptRun, true, 77, 4000000, plainEnv⟩

def inputsAt (now : Int) (uuid : ℕ) : List (Input Key) :=
  (List.range 20).map fun i => ⟨now, uuid + i, []⟩

def upToPrepare : List ExecuteLabel :=
  [.check false, .tick false, .route quietEnv 100, .loadCluster false,
   .prepare 100 (inputsAt 100 200) false]

theorem scriptExecution_starts : scriptExecution.Starts scriptCall :=
  ⟨rfl, rfl, rfl, rfl⟩

/-- The watcher reads `waiting_callback` during the dispatch and cancels its context: the
executor has accepted the run, and the engine reports it as failed. -/
theorem accepted_run_reported_failed :
    ∃ s t, scriptExecution.run scriptCall (upToPrepare ++ [.tick false, .stop]) = some s ∧
      s.phase.isDispatching = true ∧ s.cancelled = true ∧
      s.run scriptCall [.dispatchReturns .accepted, .report 101 (inputsAt 101 300)] = some t ∧
      (t.d.row (.run 5)).map Run.status = some .failed := by
  have hcancelled : (scriptExecution.run scriptCall (upToPrepare ++ [.tick false, .stop])).map
      (fun s => (s.phase.isDispatching, s.cancelled,
        (s.run scriptCall [.dispatchReturns .accepted, .report 101 (inputsAt 101 300)]).map
          fun t => (t.d.row (.run 5)).map Run.status)) =
      some (true, true, some (some .failed)) := by decide +kernel
  obtain ⟨s, hs, hall⟩ := Option.map_eq_some_iff.mp hcancelled
  simp only [Prod.mk.injEq] at hall
  obtain ⟨t, ht, hfailed⟩ := Option.map_eq_some_iff.mp hall.2.2
  exact ⟨s, t, hs, hall.1, hall.2.1, ht, hfailed⟩

theorem accepted_run_not_reported :
    ∃ s, scriptExecution.run scriptCall
        (upToPrepare ++ [.tick true, .dispatchReturns .accepted, .tick false, .stop]) = some s ∧
      (s.d.row (.run 5)).map Run.status = some .waitingCallback ∧
      s.phase.isReporting = false := by
  have hwaiting : (scriptExecution.run scriptCall
      (upToPrepare ++ [.tick true, .dispatchReturns .accepted, .tick false, .stop])).map
        (fun s => (s.d.row (.run 5)).map Run.status) = some (some .waitingCallback) := by
    decide +kernel
  obtain ⟨s, hs, hstatus⟩ := Option.map_eq_some_iff.mp hwaiting
  refine ⟨s, hs, hstatus, (dispatch_not_aborted scriptCall scriptExecution s _
    scriptExecution_starts hs (by decide +kernel)).2 ?_⟩
  simp [upToPrepare]

end GoScheduler.Core
