import GoScheduler.Executor.Server
import GoScheduler.Store.Schema

/-! Cancel commands as Core delivers them: the request that `processExecutorCommands` builds
from the row of a command, and what the executor answers to it. -/
namespace GoScheduler.Executor

open Process

section Commands

structure UuidText where
  text : ℕ → Bytes
  valid : ∀ id, validateCompletionRunID (text id) = .ok ()

/-- The request `processExecutorCommands` builds for a run. -/
def cancelRequest (uuid : UuidText) (runID : ℕ) (command : Store.ExecutorCommand) :
    CancelRequest where
  runId := uuid.text runID
  reason := text command.reason
  externalExecutionId := uuid.text command.externalExecutionID
  jobId := uuid.text command.jobID
  scriptLanguage := text command.scriptLanguage

end Commands

section Answers

variable {cfg : Settings} {uuid : UuidText} {m m' : Machine} {node : Node} {inp : Input}

theorem UuidText.ne_nil (uuid : UuidText) (id : ℕ) : uuid.text id ≠ [] := by
  intro h
  have hvalid := uuid.valid id
  rw [h] at hvalid
  cases hvalid

theorem text_eq_nil {s : String} : text s = [] ↔ s = "" := by
  refine ⟨fun h => Text.bytes_injective (h.trans ?_), fun h => ?_⟩
  · rfl
  · rw [h]
    rfl

theorem perform_deleteExecution_ok {runID : Bytes} (hvalid : validateCompletionRunID runID = .ok ())
    (fault : Option ℕ) (s : Shared) :
    (∃ s', s.perform (Shelf.deleteExecution fault runID) = (.ok (), s')) ↔
      s.server.store = none ∨ fault = none := by
  unfold Shared.perform Shelf.deleteExecution
  rw [hvalid]
  cases s.server.store with
  | none => simp
  | some store =>
    cases fault with
    | none => simp [Shelf.attempt]
    | some n => simp [Shelf.attempt]

def Outcome.Answers (outcome : Outcome) (request : CancelRequest) (answer : Except Refusal Bool) :
    Prop :=
  outcome.events = [.answered request answer]

theorem deletePersistedExecution_accepts {request : CancelRequest}
    (hvalid : validateCompletionRunID request.runId = .ok ()) (refusal : Error → Refusal)
    (s : Shared) :
    (deletePersistedExecution inp request refusal s).Answers request (.ok true) ↔
      s.server.store = none ∨ inp.fault = none := by
  rw [← perform_deleteExecution_ok hvalid]
  unfold deletePersistedExecution Outcome.Answers
  generalize s.perform (Shelf.deleteExecution inp.fault request.runId) = done
  obtain ⟨res, s'⟩ := done
  cases res with
  | ok _ => simp
  | error e => simp

theorem answerCancel_accepts (cfg : Settings) (uuid : UuidText) (inp : Input) (runID : ℕ)
    (known : Bool) {command : Store.ExecutorCommand}
    (hlanguage : command.scriptLanguage ≠ "docker" ∧ command.scriptLanguage ≠ "kubernetes")
    (s : Shared) :
    (answerCancel cfg inp (cancelRequest uuid runID command) known s).Answers
        (cancelRequest uuid runID command) (.ok true) ↔
      (command.scriptLanguage ≠ "" ∨ known = true) ∧ (s.server.store = none ∨ inp.fault = none) ∧
        (command.scriptLanguage ≠ "" → cfg.cancellers (text command.scriptLanguage) = true →
          inp.cancelled = true) := by
  have hvalid : validateCompletionRunID (cancelRequest uuid runID command).runId = .ok () :=
    uuid.valid runID
  have hcommand :
      (cancelRequest uuid runID command).scriptLanguage = text command.scriptLanguage := rfl
  have hdocker : text command.scriptLanguage ≠ text "docker" :=
    fun h => hlanguage.1 (Text.bytes_injective h)
  have hkubernetes : text command.scriptLanguage ≠ text "kubernetes" :=
    fun h => hlanguage.2 (Text.bytes_injective h)
  have hempty : ((cancelRequest uuid runID command).externalExecutionId = [] ∨
      (cancelRequest uuid runID command).jobId = [] ∨
        (cancelRequest uuid runID command).scriptLanguage = []) ↔ command.scriptLanguage = "" := by
    simp only [cancelRequest, uuid.ne_nil, false_or]
    exact text_eq_nil
  unfold answerCancel
  by_cases hscript : command.scriptLanguage = ""
  · rw [if_pos (hempty.2 hscript)]
    cases known with
    | true => simp [deletePersistedExecution_accepts hvalid, hscript]
    | false => simp [Outcome.Answers, hscript]
  · rw [if_neg fun h => hscript (hempty.1 h), hcommand]
    by_cases hcanceller : cfg.cancellers (text command.scriptLanguage) = false
    · rw [if_pos hcanceller, if_neg fun h => h.elim hdocker hkubernetes,
        deletePersistedExecution_accepts hvalid]
      simp [hscript, hcanceller]
    · have hregistered : cfg.cancellers (text command.scriptLanguage) = true :=
        Bool.eq_true_of_not_eq_false hcanceller
      rw [if_neg hcanceller]
      cases hcancelled : inp.cancelled with
      | true => simp [deletePersistedExecution_accepts hvalid, hscript]
      | false => simp [Outcome.Answers, hscript, hregistered]

theorem cancelInMemory_idle {request : CancelRequest} {s : Server}
    (h : s.running request.runId = none) :
    cancelInMemory cfg inp request s =
      ((s.runs.lookup request.runId).any fun current => current.state = .cancelled, s) := by
  unfold cancelInMemory
  unfold Server.running at h
  cases hlookup : s.runs.lookup request.runId with
  | none => rfl
  | some current =>
    rw [hlookup] at h
    have hstate : current.state ≠ .running := by simpa using h
    simp [hstate]

theorem receiveCancel_idle {request : CancelRequest} {s : Shared} (hrun : request.runId ≠ [])
    (h : s.server.running request.runId = none) :
    Machine.receiveCancel cfg s request inp =
      { shared := s
        threads := [.cancelling request
          ((s.server.runs.lookup request.runId).any fun current => current.state = .cancelled)]
        events := [.received request] } := by
  unfold Machine.receiveCancel
  rw [if_neg hrun, cancelInMemory_idle h]

theorem step_cancelling (cfg : Settings) (inp : Input) {i : ℕ} {request : CancelRequest}
    {known : Bool} (hnode : m.node = some node)
    (hthread : node.threads[i]? = some (.cancelling request known)) :
    ∃ m' node', m.step cfg (.advance i inp) = some m' ∧ m'.node = some node' ∧
      node'.log = (answerCancel cfg inp request known ⟨node.server, m.disk⟩).events ++
        node.log := by
  have hexits : (answerCancel cfg inp request known ⟨node.server, m.disk⟩).exits = false := by
    unfold answerCancel deletePersistedExecution
    repeat' split
    all_goals rfl
  simp only [Machine.step, hnode, Machine.act, hthread, Option.map_some, Machine.apply, Thread.step,
    hexits]
  exact ⟨_, _, rfl, rfl, rfl⟩

/-- The executor accepts the cancellation of a run that does not run there if the run has a
script language or is held as cancelled, unless deleting its record or a registered canceller
fails. -/
theorem command_accepted_iff (cfg : Settings) (uuid : UuidText) (m : Machine) (node : Node)
    (runID : ℕ) (command : Store.ExecutorCommand) (inp : Input) (hnode : m.node = some node)
    (hserving : node.server.serving = true)
    (hlanguage : command.scriptLanguage ≠ "docker" ∧ command.scriptLanguage ≠ "kubernetes")
    (hidle : node.server.running (uuid.text runID) = none) :
    ∃ (m₁ : Machine) (node₁ : Node) (known : Bool),
      m.step cfg (.cancel (cancelRequest uuid runID command) inp) = some m₁ ∧
      m₁.node = some node₁ ∧ .cancelling (cancelRequest uuid runID command) known ∈ node₁.threads ∧
      ∀ (m₂ : Machine) (node₂ : Node) (i : ℕ) (inp₂ : Input), m₂.node = some node₂ →
        node₂.threads[i]? = some (.cancelling (cancelRequest uuid runID command) known) →
        ∃ (m₃ : Machine) (node₃ : Node), m₂.step cfg (.advance i inp₂) = some m₃ ∧
          m₃.node = some node₃ ∧
          (node₃.log = .answered (cancelRequest uuid runID command) (.ok true) :: node₂.log ↔
            (command.scriptLanguage ≠ "" ∨ ∃ current,
              node.server.runs.lookup (uuid.text runID) = some current ∧
                current.state = .cancelled) ∧
            (node₂.server.store = none ∨ inp₂.fault = none) ∧
            (command.scriptLanguage ≠ "" → cfg.cancellers (text command.scriptLanguage) = true →
              inp₂.cancelled = true)) := by
  have hrun : (cancelRequest uuid runID command).runId ≠ [] := uuid.ne_nil runID
  have hstep : m.step cfg (.cancel (cancelRequest uuid runID command) inp) = some (m.apply node
      (Machine.receiveCancel cfg ⟨node.server, m.disk⟩ (cancelRequest uuid runID command) inp)
      node.threads) := by
    simp only [Machine.step, hnode, Machine.act, hserving, if_true, Option.map_some]
  rw [receiveCancel_idle hrun hidle] at hstep
  refine ⟨_, _, _, hstep, rfl, List.mem_cons_self, fun m₂ node₂ i inp₂ hnode₂ hthread => ?_⟩
  obtain ⟨m₃, node₃, hstep₃, hnode₃, hlog⟩ := step_cancelling cfg inp₂ hnode₂ hthread
  refine ⟨m₃, node₃, hstep₃, hnode₃, ?_⟩
  have haccepts := answerCancel_accepts cfg uuid inp₂ runID
    ((node.server.runs.lookup (uuid.text runID)).any fun current => current.state = .cancelled)
    hlanguage ⟨node₂.server, m₂.disk⟩
  have hheld : ((node.server.runs.lookup (uuid.text runID)).any fun current =>
      decide (current.state = .cancelled)) = true ↔ ∃ current,
        node.server.runs.lookup (uuid.text runID) = some current ∧ current.state = .cancelled := by
    simp [Option.any_eq_true]
  rw [hheld] at haccepts
  rw [← haccepts, hlog, ← List.singleton_append, List.append_cancel_right_eq]
  rfl

end Answers

section Sample

def digitText : UuidText where
  text id := [48 + UInt8.ofNat (id % 10)]
  valid id := by
    have hdigits : ∀ k < 10, validateCompletionRunID [48 + UInt8.ofNat k] = .ok () := by decide
    exact hdigits _ (Nat.mod_lt id (by decide))

def httpRequest : DispatchRequest :=
  { dockerRequest with scriptLanguage := [], http := true, handler := text "__http__" }

def httpCommand (scriptLanguage : String) : Store.ExecutorCommand where
  executorAddress := "executor"
  reason := "cancelled"
  externalExecutionID := 7
  jobID := 1
  scriptLanguage := scriptLanguage
  kubernetesClusterID := none

def awaitingCallback : List Label :=
  [.start { createdAt := newYear }, .dispatch httpRequest { createdAt := newYear },
    .advance 0 { createdAt := newYear, result := .awaitingCallback },
    .advance 0 { createdAt := newYear }]

def deliverCommand (command : Store.ExecutorCommand) : List Label :=
  [.cancel (cancelRequest digitText 7 command) { createdAt := newYear },
    .advance 0 { createdAt := newYear }]

/-- The run that awaits its callback does not run, and its cancellation is not accepted. -/
theorem http_command_rejected :
    ∃ (m : Machine) (node : Node), Machine.Reachable (plainSettings none) (fun _ _ => True) m ∧
      m.node = some node ∧ node.server.serving = true ∧
      node.server.running (digitText.text 7) = none ∧
      ((m.run (plainSettings none) (deliverCommand (httpCommand ""))).bind Machine.node).map
          (fun node' => node'.log.head?) =
        some (some (.answered (cancelRequest digitText 7 (httpCommand "")) (.ok false))) := by
  have hrun : ((Machine.init.run (plainSettings none) awaitingCallback).bind fun m =>
      m.node.bind fun node =>
        ((m.run (plainSettings none) (deliverCommand (httpCommand ""))).bind Machine.node).map
          fun node' => (node.server.serving, node.server.running (digitText.text 7),
            node'.log.head?)) =
      some (true, none,
        some (.answered (cancelRequest digitText 7 (httpCommand "")) (.ok false))) := by
    decide +kernel
  obtain ⟨m, hm, hrun⟩ := Option.bind_eq_some_iff.1 hrun
  obtain ⟨node, hnode, hrun⟩ := Option.bind_eq_some_iff.1 hrun
  obtain ⟨node', hnode', hfacts⟩ := Option.map_eq_some_iff.1 hrun
  simp only [Prod.mk.injEq] at hfacts
  refine ⟨m, node, Machine.Reachable.init.run hm, hnode, hfacts.1, hfacts.2.1, ?_⟩
  rw [hnode', Option.map_some, hfacts.2.2]

theorem script_command_accepted :
    ∃ (m₁ : Machine) (node₁ : Node) (known : Bool),
      (Machine.init.start (plainSettings none) { createdAt := newYear }).step (plainSettings none)
        (.cancel (cancelRequest digitText 7 (httpCommand "bash")) { createdAt := newYear }) =
          some m₁ ∧
      m₁.node = some node₁ ∧
      .cancelling (cancelRequest digitText 7 (httpCommand "bash")) known ∈ node₁.threads ∧
      ∀ (m₂ : Machine) (node₂ : Node) (i : ℕ), m₂.node = some node₂ →
        node₂.threads[i]? =
          some (.cancelling (cancelRequest digitText 7 (httpCommand "bash")) known) →
        ∃ (m₃ : Machine) (node₃ : Node),
          m₂.step (plainSettings none) (.advance i { createdAt := newYear }) = some m₃ ∧
          m₃.node = some node₃ ∧
          node₃.log =
            .answered (cancelRequest digitText 7 (httpCommand "bash")) (.ok true) :: node₂.log := by
  obtain ⟨m₁, node₁, known, hstep, hnode, hthread, hall⟩ :=
    command_accepted_iff (plainSettings none)
    digitText (Machine.init.start (plainSettings none) { createdAt := newYear })
    ⟨.initial none, [], []⟩ 7 (httpCommand "bash") { createdAt := newYear } rfl rfl (by decide) rfl
  refine ⟨m₁, node₁, known, hstep, hnode, hthread, fun m₂ node₂ i hnode₂ hthread₂ => ?_⟩
  obtain ⟨m₃, node₃, hstep₃, hnode₃, hiff⟩ :=
    hall m₂ node₂ i { createdAt := newYear } hnode₂ hthread₂
  exact ⟨m₃, node₃, hstep₃, hnode₃, hiff.2 ⟨.inl (by decide), .inr rfl, fun _ h => by cases h⟩⟩

end Sample

end GoScheduler.Executor
