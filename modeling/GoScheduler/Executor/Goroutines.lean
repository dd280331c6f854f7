import GoScheduler.Executor.Server

/-! The goroutines of a running executor, as the scheduler may interleave them. `dispatch` is two
steps, since it keeps the mutex of the server while it calls `SaveExecution`; `execute` is one step
for each of its two calls of `markActive`, for the handler and for the slot it gives back;
`Dispatch` returns in a step of its own. What `finish`, `Cancel`, recovery and deliveries do is
taken from the threads of `Thread`, none of which goes on while it waits for the mutex. -/
namespace GoScheduler.Executor

open Process

section Data

structure Started where
  request : DispatchRequest
  context : ℕ
  slots : Option Slots
  deriving DecidableEq

inductive Phase where
  | launched  -- Before `markActive(1)`.
  | handling  -- In the handler.
  | returned (result : HandlerResult)  -- In `release`, before `markActive(-1)`.
  | unmarked (result : HandlerResult)  -- In `release`, before the slot is given back.
  deriving DecidableEq

/-- Who calls `dispatch`: Core, or the second loop of `RecoverExecutions`. -/
inductive Caller where
  | core
  | recovery (completed : List Bytes) (todo : List DispatchRequest)

inductive Goroutine where
  -- `dispatch`, in `SaveExecution`: it holds the mutex.
  | admitted (request : DispatchRequest) (slots : Option Slots) (caller : Caller)
  | answering (e : Started)  -- `Dispatch`, before it returns that the execution is running.
  | execute (phase : Phase) (e : Started)
  -- `execute`, in `finish`: in the body, or in the deferred function after a panic.
  | finishing (request : DispatchRequest) (thread : Thread) (panicked : Bool)
  | other (thread : Thread)

inductive Occurrence where
  -- `Dispatch` returned and registered nothing.
  | dispatched (request : DispatchRequest) (answer : Except Refusal DispatchResponse)
  | registered (e : Started)
  | acknowledged (e : Started)  -- `Dispatch` returned that the execution is running.
  | returned (e : Started)  -- The handler returned or panicked.
  | released (e : Started)  -- The end of `release`.
  deriving DecidableEq

/-- A running executor. `active` is that of its `Server`; `log` has the latest first. -/
structure Host where
  shared : Shared
  active : AList fun _ : Bytes => Int
  goroutines : List Goroutine
  log : List Occurrence

structure Change where
  shared : Shared
  active : AList fun _ : Bytes => Int
  goroutines : List Goroutine
  log : List Occurrence

inductive Admission where
  | answered (answer : Except Refusal DispatchResponse) (server : Server)
  | admitted (request : DispatchRequest) (slots : Option Slots) (server : Server)

inductive Move where
  | dispatch (request : DispatchRequest) (inp : Input)
  | cancel (request : CancelRequest) (inp : Input)
  | drain
  | drainExpired
  | deliver (inp : Input)
  | advance (goroutine : ℕ) (inp : Input)  -- The goroutine at that place takes its next step.
  -- The handler that the goroutine has called panics, or the `Reporter`.
  | panics (goroutine : ℕ) (value : Bytes)

structure InspectRequest where
  runId : Bytes
  jobId : Bytes

inductive ExecutionState where
  | idle
  | busy
  | execution (runId executionId : Bytes) (state : RunState) (message : Bytes)
  | notFound
  deriving DecidableEq

end Data

section Counters

def markActive (jobID : Bytes) (delta : Int) (active : AList fun _ : Bytes => Int) :
    AList fun _ : Bytes => Int :=
  let count := (active.lookup jobID).getD 0 + delta
  if count ≤ 0 then active.erase jobID else active.insert jobID count

def activeCount (active : AList fun _ : Bytes => Int) (jobID : Bytes) : Int :=
  (active.lookup jobID).getD 0

theorem activeCount_markActive (active : AList fun _ : Bytes => Int) (jobID : Bytes) (delta : Int) :
    activeCount (markActive jobID delta active) jobID =
      max 0 (activeCount active jobID + delta) := by
  unfold markActive
  dsimp only
  split
  · next h =>
    rw [activeCount, AList.lookup_erase]
    exact (max_eq_left h).symm
  · next h =>
    rw [activeCount, AList.lookup_insert]
    exact (max_eq_right (not_le.1 h).le).symm

theorem activeCount_markActive_ne (active : AList fun _ : Bytes => Int) {jobID other : Bytes}
    (delta : Int) (h : other ≠ jobID) :
    activeCount (markActive jobID delta active) other = activeCount active other := by
  unfold markActive
  dsimp only
  split
  · rw [activeCount, AList.lookup_erase_ne h, activeCount]
  · rw [activeCount, AList.lookup_insert_ne h, activeCount]

def Server.occupied (s : Server) : Option Slots → Bool
  | none => true
  | some executionType => 0 < s.slots executionType

end Counters

section Steps

variable (cfg : Settings)

def admitNew (request : DispatchRequest) (server : Server) : Admission :=
  match slotsFor request with
  | none => .admitted request none server
  | some executionType =>
      if cfg.limit executionType ≤ server.slots executionType then
        .answered (.error (.concurrencyLimit executionType)) server
      else .admitted request (some executionType) (server.acquire (some executionType))

/-- `dispatch`, up to `SaveExecution`. -/
def admitDispatch (inp : Input) (recovered : Bool) (request : DispatchRequest) (server : Server) :
    Admission :=
  if isInvalid request then .answered (.error .invalidDispatch) server
  else if cfg.handlers request.handler = false then
    .answered (.error (.handlerNotFound request.handler)) server
  else if server.draining then .answered (.error .draining) server
  else if server.completionStoreFailed then .answered (.error .persistenceUnavailable) server
  else
    let pruned := server.pruneExecutionHistory cfg inp.now
    match pruned.runs.lookup request.runId with
    | some current => .answered (.ok ⟨true, current.executionID, current.state⟩) pruned
    | none => admitNew cfg (request.timed recovered inp.arrivedAt) pruned

def Settings.reachesMutex (request : DispatchRequest) : Bool :=
  !isInvalid request && cfg.handlers request.handler

def Server.enroll (runID executionID : Bytes) (s : Server) : Server :=
  { s with
    runs := s.runs.insert runID ⟨s.contexts, executionID, .running, [], 0⟩
    contexts := s.contexts + 1 }

/-- `dispatch`, from `SaveExecution` on. -/
def persistAdmitted (inp : Input) (request : DispatchRequest) (slots : Option Slots) (s : Shared) :
    Dispatched :=
  match s.perform (Shelf.saveExecution cfg.codec inp.fault request) with
  | (.error e, s) =>
      { answer := .error (.persistExecution e)
        shared := Shared.failStore { s with server := s.server.release slots } }
  | (.ok _, s) =>
      let executionID :=
        if request.externalExecutionId = [] then inp.newString else request.externalExecutionId
      { answer := .ok ⟨true, executionID, .running⟩
        shared := { s with server := s.server.enroll request.runId executionID }
        started := some (request, s.server.contexts, slots) }

/-- `invokeHandler`, where the handler panics. -/
def handlerPanic (value : Bytes) : HandlerResult := .failed (text "handler panic: " ++ value)

def Thread.takesMutex (s : Server) : Thread → Bool
  | .finishing _ .awaitingCallback => true
  | .finishing _ _ => s.store.isSome
  | .unclean _ _ | .closing _ _ _ | .refusing _ _ => true
  | _ => false

def Thread.resumes (s : Server) : Thread → Option (DispatchRequest × Caller)
  | .recovering (.resuming completed (request :: todo)) =>
      if s.store.isNone ∨ request.runId ∈ completed ∨ isExternallyRecoverable request = false then
        none
      else some (request, .recovery completed todo)
  | _ => none

def Goroutine.isAdmitted : Goroutine → Bool
  | .admitted _ _ _ => true
  | _ => false

def Goroutine.isDelivery : Goroutine → Bool
  | .other thread => thread.isDelivery
  | _ => false

namespace Host

def locked (h : Host) : Bool := h.goroutines.any Goroutine.isAdmitted

def answer (h : Host) (request : DispatchRequest) (answer : Except Refusal DispatchResponse)
    (shared : Shared) : Caller → Option Change
  | .core => some ⟨shared, h.active, [], [.dispatched request answer]⟩
  | .recovery completed todo => match answer with
      | .error _ => none
      | .ok _ => some ⟨shared, h.active, [.other (.recovering (.resuming completed todo))], []⟩

def enter (h : Host) (inp : Input) (request : DispatchRequest) (recovered : Bool)
    (caller : Caller) : Option Change :=
  if cfg.reachesMutex request && h.locked then none
  else match admitDispatch cfg inp recovered request h.shared.server with
    | .answered result server => h.answer request result { h.shared with server } caller
    | .admitted request slots server =>
        some ⟨{ h.shared with server }, h.active, [.admitted request slots caller], []⟩

def launch (e : Started) : Caller → List Goroutine
  | .core => [.execute .launched e, .answering e]
  | .recovery completed todo =>
      [.execute .launched e, .other (.recovering (.resuming completed todo))]

def save (h : Host) (inp : Input) (request : DispatchRequest) (slots : Option Slots)
    (caller : Caller) : Option Change :=
  let d := persistAdmitted cfg inp request slots h.shared
  match d.started with
  | some (request, context, slots) =>
      some ⟨d.shared, h.active, launch ⟨request, context, slots⟩ caller,
        [.registered ⟨request, context, slots⟩]⟩
  | none =>
      if h.shared.server.occupied slots then h.answer request d.answer d.shared caller else none

def execute (h : Host) (inp : Input) (e : Started) : Phase → Option Change
  | .launched =>
      some ⟨h.shared, markActive e.request.jobId 1 h.active, [.execute .handling e], []⟩
  | .handling => some ⟨h.shared, h.active, [.execute (.returned inp.result) e], [.returned e]⟩
  | .returned result =>
      some ⟨h.shared, markActive e.request.jobId (-1) h.active, [.execute (.unmarked result) e], []⟩
  | .unmarked result =>
      if h.shared.server.occupied e.slots then
        some ⟨{ h.shared with server := h.shared.server.release e.slots }, h.active,
          [.finishing e.request (.finishing e.request result) false], [.released e]⟩
      else none

/-- The next step of a thread; without the mutex it needs, or after the end of the process, there
is none. -/
def follow (h : Host) (inp : Input) (thread : Thread) (wrap : Thread → Goroutine) : Option Change :=
  if thread.takesMutex h.shared.server && h.locked then none
  else
    let o := thread.step cfg inp h.shared
    if o.exits then none else some ⟨o.shared, h.active, o.threads.map wrap, []⟩

def advance (h : Host) (inp : Input) : Goroutine → Option Change
  | .admitted request slots caller => h.save cfg inp request slots caller
  | .answering e => some ⟨h.shared, h.active, [], [.acknowledged e]⟩
  | .execute phase e => h.execute inp e phase
  | .finishing request thread panicked =>
      h.follow cfg inp thread fun thread => .finishing request thread panicked
  | .other thread => match thread.resumes h.shared.server with
      | some (request, caller) => h.enter cfg inp request true caller
      | none => h.follow cfg inp thread .other

/-- What a panic leads to. `released` is set when `finish` is called, so that the deferred function
of `execute` gives nothing back a second time; nothing recovers from a panic in that function. -/
def panics (h : Host) (value : Bytes) : Goroutine → Option Change
  | .execute .handling e =>
      some ⟨h.shared, h.active, [.execute (.returned (handlerPanic value)) e], [.returned e]⟩
  | .finishing request (.reporting _ _) false =>
      some ⟨h.shared, h.active,
        [.finishing request (.finishing request (handlerPanic value)) true], []⟩
  | _ => none

def apply (change : Change) (log : List Occurrence) (others : List Goroutine) : Host where
  shared := change.shared
  active := change.active
  goroutines := change.goroutines ++ others
  log := change.log ++ log

def receive (h : Host) (o : Outcome) : Host :=
  apply ⟨o.shared, h.active, o.threads.map .other, []⟩ h.log h.goroutines

def step (h : Host) : Move → Option Host
  | .dispatch request inp =>
      if h.shared.server.serving then
        (h.enter cfg inp request false .core).map fun change => apply change h.log h.goroutines
      else none
  | .cancel request inp =>
      if h.shared.server.serving && (request.runId = [] || !h.locked) then
        some (h.receive (Machine.receiveCancel cfg h.shared request inp))
      else none
  | .drain =>
      if h.locked then none
      else some { h with shared.server.draining := true }
  | .drainExpired =>
      if h.locked then none
      else some { h with shared.server := Machine.expire h.shared.server }
  | .deliver inp =>
      if h.shared.server.serving && !h.goroutines.any Goroutine.isDelivery then
        some (h.receive (Machine.deliver cfg h.shared inp))
      else none
  | .advance i inp => do
      let g ← h.goroutines[i]?
      let change ← h.advance cfg inp g
      return apply change h.log (h.goroutines.eraseIdx i)
  | .panics i value => do
      let g ← h.goroutines[i]?
      let change ← h.panics value g
      return apply change h.log (h.goroutines.eraseIdx i)

def start (inp : Input) (disk : Disk) : Option Host :=
  match cfg.options with
  | none => some ⟨⟨.initial none, disk⟩, ∅, [], []⟩
  | some options => match Shelf.newFileCompletionStore cfg.codec inp.fault options disk with
      | (.error _, _) => none
      | (.ok store, disk) =>
          some ⟨⟨.initial (some store), disk⟩, ∅, [.other (.recovering .begun)], []⟩

def run (h : Host) : List Move → Option Host
  | [] => some h
  | l :: ls => (h.step cfg l).bind fun h' => run h' ls

inductive Reachable : Host → Prop where
  | start {h : Host} (inp : Input) (disk : Disk) (hstart : Host.start cfg inp disk = some h) :
      Reachable h
  | step {h h' : Host} {l : Move} (hh : Reachable h) (hs : h.step cfg l = some h') : Reachable h'

variable {cfg} in
theorem Reachable.run {h h' : Host} {ls : List Move} (hh : Reachable cfg h)
    (hr : h.run cfg ls = some h') : Reachable cfg h' := by
  induction ls generalizing h with
  | nil =>
    cases hr
    exact hh
  | cons l ls ih =>
    obtain ⟨h₁, hs, hr'⟩ := Option.bind_eq_some_iff.1 hr
    exact ih (hh.step hs) hr'

def jobBusy (h : Host) (jobID : Bytes) : Bool := 0 < activeCount h.active jobID

def inspect (h : Host) (request : InspectRequest) : ExecutionState :=
  if request.jobId ≠ [] ∧ request.runId = [] then
    if h.jobBusy request.jobId then .busy else .idle
  else match h.shared.server.runs.lookup request.runId with
    | none => .notFound
    | some current => .execution request.runId current.executionID current.state current.message

end Host

end Steps

section Dispatch

variable {cfg : Settings} {inp : Input} {request : DispatchRequest} {s : Shared}

theorem release_acquire (server : Server) (slots : Option Slots) :
    (server.acquire slots).release slots = server := by
  cases slots with
  | none => rfl
  | some executionType => simp [Server.acquire, Server.release]

theorem register_eq_enroll (server : Server) (slots : Option Slots) (runID executionID : Bytes) :
    server.register runID executionID slots = (server.acquire slots).enroll runID executionID := by
  cases slots with
  | none => rfl
  | some executionType => rfl

theorem perform_acquire (operation : Shelf → Except Error Unit × Shelf) (slots : Option Slots) :
    Shared.perform operation { s with server := s.server.acquire slots } =
      ((s.perform operation).1, { (s.perform operation).2 with
        server := (s.perform operation).2.server.acquire slots }) := by
  cases slots with
  | none => rfl
  | some executionType =>
    rcases s with ⟨⟨_ | store, _⟩, disk⟩
    · rfl
    · rfl

theorem persist_eq (slots : Option Slots) :
    startExecution.persist cfg inp request s slots =
      persistAdmitted cfg inp request slots { s with server := s.server.acquire slots } := by
  unfold startExecution.persist persistAdmitted
  rw [perform_acquire]
  rcases s.perform (Shelf.saveExecution cfg.codec inp.fault request) with ⟨_ | _, s'⟩
  · simp only [release_acquire]
  · have hcontexts : (s'.server.acquire slots).contexts = s'.server.contexts := by
      cases slots with
      | none => rfl
      | some executionType => rfl
    simp only [register_eq_enroll, hcontexts]

def Admission.completed (cfg : Settings) (inp : Input) (s : Shared) : Admission → Dispatched
  | .answered answer server => { answer, shared := { s with server } }
  | .admitted request slots server => persistAdmitted cfg inp request slots { s with server }

theorem startExecution_eq :
    startExecution cfg inp request s = (admitNew cfg request s.server).completed cfg inp s := by
  unfold startExecution admitNew
  cases slotsFor request with
  | none => exact persist_eq none
  | some executionType =>
    dsimp only
    split
    · rfl
    · exact persist_eq (some executionType)

theorem dispatch_eq (recovered : Bool) :
    dispatch cfg inp recovered request s =
      (admitDispatch cfg inp recovered request s.server).completed cfg inp s := by
  unfold dispatch admitDispatch
  split
  · rfl
  split
  · rfl
  split
  · rfl
  split
  · rfl
  dsimp only
  cases (s.server.pruneExecutionHistory cfg inp.now).runs.lookup request.runId with
  | some current => rfl
  | none => exact startExecution_eq

end Dispatch

section Frames

variable {cfg : Settings} {inp : Input} {s s' : Shared}

structure Shared.SameSlots (s s' : Shared) : Prop where
  slots : s'.server.slots = s.server.slots
  contexts : s'.server.contexts = s.server.contexts

theorem Shared.SameSlots.refl (s : Shared) : s.SameSlots s := ⟨rfl, rfl⟩

theorem Shared.SameSlots.perform {operation : Shelf → Except Error Unit × Shelf}
    {res : Except Error Unit} (h : s.perform operation = (res, s')) : s.SameSlots s' := by
  obtain ⟨res', store, disk, hdone⟩ := perform_eq operation s
  rw [hdone] at h
  cases h
  exact ⟨rfl, rfl⟩

def Thread.isHandling : Thread → Bool
  | .handling _ _ _ => true
  | _ => false

theorem answerCancel_sameSlots (request : CancelRequest) (known : Bool) :
    s.SameSlots (answerCancel cfg inp request known s).shared := by
  unfold answerCancel deletePersistedExecution
  repeat' split
  all_goals first
    | exact .refl s
    | exact .perform ‹_›

theorem reconcile_sameSlots (completed : List Bytes) (requests todo : List DispatchRequest)
    (request : DispatchRequest) :
    s.SameSlots (reconcile cfg inp completed requests request todo s).shared := by
  unfold reconcile reconcile.persist
  repeat' split
  all_goals first
    | exact .refl s
    | exact .perform ‹_›

theorem resumes_ne_none {server : Server} {store : FileCompletionStore} {completed : List Bytes}
    {request : DispatchRequest} {todo : List DispatchRequest} (hstore : server.store = some store)
    (h : ¬(request.runId ∈ completed ∨ isExternallyRecoverable request = false)) :
    (Thread.recovering (.resuming completed (request :: todo))).resumes server ≠ none := by
  simp [Thread.resumes, hstore, h]

theorem recover_sameSlots {recovery : Recovery}
    (hresumes : (Thread.recovering recovery).resumes s.server = none) :
    s.SameSlots (recover cfg inp recovery s).shared := by
  unfold recover
  split
  · exact .refl s
  · next store hstore =>
    split
    · split
      all_goals exact .refl s
    · split
      all_goals exact .refl s
    · exact reconcile_sameSlots _ _ _ _
    · exact .refl s
    · split
      all_goals exact .perform ‹_›
    · next completed request todo =>
      split
      · exact .refl s
      · next hdispatch => exact absurd hresumes (resumes_ne_none hstore hdispatch)
    · exact ⟨rfl, rfl⟩

theorem step_sameSlots {thread : Thread} (hhandling : thread.isHandling = false)
    (hresumes : thread.resumes s.server = none) :
    s.SameSlots (thread.step cfg inp s).shared := by
  cases thread with
  | handling request context slots => cases hhandling
  | finishing request result =>
    simp only [Thread.step, finish]
    repeat' split
    all_goals exact ⟨rfl, rfl⟩
  | awaiting request => exact .perform rfl
  | saving request record =>
    simp only [Thread.step]
    split
    all_goals exact .perform ‹_›
  | clearing request record =>
    simp only [Thread.step]
    split
    all_goals exact .perform ‹_›
  | unclean request record => exact ⟨rfl, rfl⟩
  | closing request record persistence =>
    simp only [Thread.step, close, transition]
    repeat' split
    all_goals exact ⟨rfl, rfl⟩
  | reporting record attempt =>
    simp only [Thread.step, report]
    split
    all_goals exact .refl s
  | cancelling request known => exact answerCancel_sameSlots request known
  | refusing request refusal => exact ⟨rfl, rfl⟩
  | delivering record => exact .refl s
  | delivered record => exact .perform rfl
  | recovering recovery => exact recover_sameSlots hresumes

theorem recover_not_handling {recovery : Recovery}
    (hresumes : (Thread.recovering recovery).resumes s.server = none) :
    ∀ t ∈ (recover cfg inp recovery s).threads, t.isHandling = false := by
  unfold recover
  split
  · simp
  · next store hstore =>
    split
    · split
      all_goals simp [Thread.isHandling, exit]
    · split
      all_goals simp [Thread.isHandling, exit]
    · unfold reconcile reconcile.persist
      repeat' split
      all_goals simp [Thread.isHandling, exit]
    · simp [Thread.isHandling]
    · split
      all_goals simp [Thread.isHandling, exit]
    · next completed request todo =>
      split
      · simp [Thread.isHandling]
      · next hdispatch => exact absurd hresumes (resumes_ne_none hstore hdispatch)
    · simp

theorem step_not_handling {thread : Thread} (hresumes : thread.resumes s.server = none) :
    ∀ t ∈ (thread.step cfg inp s).threads, t.isHandling = false := by
  cases thread with
  | finishing request result =>
    simp only [Thread.step, finish]
    repeat' split
    all_goals simp [Thread.isHandling]
  | saving request record =>
    simp only [Thread.step]
    split
    all_goals simp [Thread.isHandling]
  | clearing request record =>
    simp only [Thread.step]
    split
    all_goals simp [Thread.isHandling]
  | closing request record persistence =>
    simp only [Thread.step, close, transition]
    repeat' split
    all_goals simp [Thread.isHandling]
  | reporting record attempt =>
    simp only [Thread.step, report]
    repeat' split
    all_goals simp [Thread.isHandling]
  | cancelling request known =>
    simp only [Thread.step, answerCancel, deletePersistedExecution]
    repeat' split
    all_goals simp [Thread.isHandling]
  | delivering record =>
    simp only [Thread.step]
    split
    all_goals simp [Thread.isHandling]
  | recovering recovery => exact recover_not_handling hresumes
  | _ => simp [Thread.step, Thread.isHandling]

def Thread.isFinish : Thread → Bool
  | .finishing _ _ | .awaiting _ | .saving _ _ | .clearing _ _ | .unclean _ _ | .closing _ _ _
  | .reporting _ _ => true
  | _ => false

theorem isHandling_of_isFinish {thread : Thread} (h : thread.isFinish = true) :
    thread.isHandling = false := by
  cases thread with
  | handling request context slots => cases h
  | _ => rfl

theorem resumes_of_isFinish {thread : Thread} (h : thread.isFinish = true) (server : Server) :
    thread.resumes server = none := by
  cases thread with
  | recovering recovery => cases h
  | _ => rfl

theorem step_isFinish {thread : Thread} (h : thread.isFinish = true) :
    ∀ t ∈ (thread.step cfg inp s).threads, t.isFinish = true := by
  cases thread with
  | finishing request result =>
    simp only [Thread.step, finish]
    repeat' split
    all_goals simp [Thread.isFinish]
  | awaiting request => simp [Thread.step]
  | saving request record =>
    simp only [Thread.step]
    split
    all_goals simp [Thread.isFinish]
  | clearing request record =>
    simp only [Thread.step]
    split
    all_goals simp [Thread.isFinish]
  | unclean request record => simp [Thread.step, Thread.isFinish]
  | closing request record persistence =>
    simp only [Thread.step, close, transition]
    repeat' split
    all_goals simp [Thread.isFinish]
  | reporting record attempt =>
    simp only [Thread.step, report]
    repeat' split
    all_goals simp [Thread.isFinish]
  | _ => cases h

end Frames

end GoScheduler.Executor
