import GoScheduler.Executor.History

/-! Repeated dispatch requests for one run. That a run was accepted is known from the memory
of the process alone; the outcome of its handler is on disk until Core has answered it. -/
namespace GoScheduler.Executor

open Process

section Pruned

variable (cfg : Settings) (now : Int)

def Shared.prune (s : Shared) : Shared :=
  { s with server := s.server.pruneExecutionHistory cfg now }

def Dispatched.prune (d : Dispatched) : Dispatched := { d with shared := d.shared.prune cfg now }

def Outcome.prune (o : Outcome) : Outcome := { o with shared := o.shared.prune cfg now }

variable {cfg now} {inp : Input} {s : Shared} {server : Server}

theorem pruneExecutionHistory_prune {now' : Int} (hnow : now ≤ now') (server : Server) :
    (server.pruneExecutionHistory cfg now).pruneExecutionHistory cfg now' =
      server.pruneExecutionHistory cfg now' := by
  have hpruned : cfg.prune now' ((cfg.prune now server.completed server.runs).1 ++ [])
      (cfg.prune now server.completed server.runs).2 =
        cfg.prune now' (server.completed ++ []) server.runs :=
    pruneHistory_append hnow server.completed [] server.runs
  rw [List.append_nil, List.append_nil] at hpruned
  exact congrArg (fun kept => { server with completed := kept.1, runs := kept.2 }) hpruned

@[simp] theorem Shared.prune_prune (s : Shared) :
    (s.prune cfg now).prune cfg now = s.prune cfg now := by
  unfold Shared.prune
  rw [pruneExecutionHistory_prune le_rfl]

theorem running_prune (server : Server) (runID : Bytes) :
    (server.pruneExecutionHistory cfg now).running runID = server.running runID := by
  ext e
  rw [running_eq_some, running_eq_some]
  exact ⟨fun h => ⟨lookup_of_prune h.1, h.2⟩, fun h => ⟨lookup_prune_of_running h.1 h.2, h.2⟩⟩

theorem perform_prune (operation : Shelf → Except Error Unit × Shelf) (s : Shared) :
    (s.prune cfg now).perform operation =
      ((s.perform operation).1, (s.perform operation).2.prune cfg now) := by
  obtain ⟨⟨store⟩, disk⟩ := s
  cases store with
  | none => rfl
  | some store => rfl

theorem dispatch_prune (hnow : now ≤ inp.now) (again : Bool) (request : DispatchRequest) :
    (dispatch cfg inp again request (s.prune cfg now)).prune cfg now =
      (dispatch cfg inp again request s).prune cfg now := by
  have hpruned : (s.prune cfg now).server.pruneExecutionHistory cfg inp.now =
      s.server.pruneExecutionHistory cfg inp.now := pruneExecutionHistory_prune hnow s.server
  have hrefused (refusal : Refusal) :
      Dispatched.prune cfg now { answer := .error refusal, shared := s.prune cfg now } =
        Dispatched.prune cfg now { answer := .error refusal, shared := s } := by
    simp [Dispatched.prune]
  have hdraining : (s.prune cfg now).server.draining = s.server.draining := rfl
  have hfailed : (s.prune cfg now).server.completionStoreFailed =
    s.server.completionStoreFailed := rfl
  have hdisk : (s.prune cfg now).disk = s.disk := rfl
  unfold dispatch
  rw [hdraining, hfailed, hpruned, hdisk]
  split
  · exact hrefused _
  split
  · exact hrefused _
  split
  · exact hrefused _
  split
  · exact hrefused _
  rfl

theorem Dispatched.of_prune {d d' : Dispatched} (h : d.prune cfg now = d'.prune cfg now) :
    d.answer = d'.answer ∧ d.shared.prune cfg now = d'.shared.prune cfg now ∧
      d.started = d'.started := by
  obtain ⟨answer, shared, started⟩ := d
  obtain ⟨answer', shared', started'⟩ := d'
  simpa only [Dispatched.prune, Dispatched.mk.injEq] using h

theorem settle_prune {runID : Bytes} {e : Execution} {now' : Int} (hnow : now ≤ now')
    (h : Queued server.completed server.runs) (hrunning : server.running runID = some e)
    (state : RunState) (message : Bytes) :
    (server.pruneExecutionHistory cfg now).settle cfg now' runID e state message =
      server.settle cfg now' runID e state message := by
  have hnot := h.not_mem (isTerminal_of_running hrunning)
  simp only [Server.settle, Server.pruneExecutionHistory]
  rw [pruneHistory_append_insert hnow _ _ _ _ hnot]

theorem transition_prune (hnow : now ≤ inp.now)
    (h : Queued s.server.completed s.server.runs) (request : DispatchRequest)
    (record : CompletionRecord) (persistence : Persistence) :
    (transition cfg inp request record persistence (s.prune cfg now)).prune cfg now =
      (transition cfg inp request record persistence s).prune cfg now := by
  have hsame : (s.prune cfg now).server.running request.runId =
    s.server.running request.runId := running_prune s.server request.runId
  unfold transition
  rw [hsame]
  cases hrunning : s.server.running request.runId with
  | none => simp [Outcome.prune]
  | some current =>
    dsimp only
    simp only [Shared.prune, settle_prune hnow h hrunning]

theorem close_prune (hnow : now ≤ inp.now)
    (h : Queued s.server.completed s.server.runs) (request : DispatchRequest)
    (record : CompletionRecord) (persistence : Persistence) :
    (close cfg inp request record persistence (s.prune cfg now)).prune cfg now =
      (close cfg inp request record persistence s).prune cfg now := by
  unfold close
  split
  · exact transition_prune (s := s.failStore) hnow h request record persistence
  · exact transition_prune hnow h request record persistence

theorem finish_prune (h : Queued s.server.completed s.server.runs) (request : DispatchRequest)
    (result : HandlerResult) :
    (finish inp request result (s.prune cfg now)).prune cfg now =
      (finish inp request result s).prune cfg now := by
  have hsame : (s.prune cfg now).server.running request.runId =
    s.server.running request.runId := running_prune s.server request.runId
  have hstore : (s.prune cfg now).server.store = s.server.store := rfl
  unfold finish
  rw [hsame, hstore]
  split
  · cases hrunning : s.server.running request.runId with
    | none => simp [Outcome.prune, Shared.prune, pruneExecutionHistory_prune]
    | some current =>
      have hnot := h.not_mem (isTerminal_of_running hrunning)
      simp only [Outcome.prune, Shared.prune, Server.pruneExecutionHistory]
      rw [← List.append_nil (pruneHistory _ _ _ s.server.completed s.server.runs).1,
        pruneHistory_append_insert le_rfl _ _ _ _ hnot, List.append_nil]
  · dsimp only
    repeat' split
    all_goals simp [Outcome.prune]

theorem Outcome.prune_prune (o : Outcome) : (o.prune cfg now).prune cfg now = o.prune cfg now := by
  simp [Outcome.prune]

theorem answerCancel_prune (request : CancelRequest) (known : Bool) :
    answerCancel cfg inp request known (s.prune cfg now) =
      (answerCancel cfg inp request known s).prune cfg now := by
  have hdelete (refusal : Error → Refusal) :
      deletePersistedExecution inp request refusal (s.prune cfg now) =
        (deletePersistedExecution inp request refusal s).prune cfg now := by
    unfold deletePersistedExecution
    rw [perform_prune]
    rcases s.perform (Shelf.deleteExecution inp.fault request.runId) with ⟨_ | _, s'⟩ <;> rfl
  unfold answerCancel
  repeat' split
  all_goals first
    | exact hdelete _
    | rfl

theorem reconcile_prune (completed : List Bytes) (requests todo : List DispatchRequest)
    (request : DispatchRequest) :
    reconcile cfg inp completed requests request todo (s.prune cfg now) =
      (reconcile cfg inp completed requests request todo s).prune cfg now := by
  have hpersist (message : String) :
      reconcile.persist cfg inp completed requests request todo (s.prune cfg now) message =
        (reconcile.persist cfg inp completed requests request todo s message).prune cfg now := by
    unfold reconcile.persist
    rw [perform_prune]
    rcases s.perform (Shelf.save cfg.codec inp.fault (recoveredRecord inp request message)) with
      ⟨_ | _, s'⟩ <;> rfl
  unfold reconcile
  split
  · rw [perform_prune]
    rcases s.perform (Shelf.deleteExecution inp.fault request.runId) with ⟨_ | _, s'⟩ <;> rfl
  · repeat' split
    all_goals first
      | exact hpersist _
      | rfl

theorem resume_prune (hnow : now ≤ inp.now) (completed : List Bytes) (request : DispatchRequest)
    (todo : List DispatchRequest) :
    (recover cfg inp (.resuming completed (request :: todo)) (s.prune cfg now)).prune cfg now =
      (recover cfg inp (.resuming completed (request :: todo)) s).prune cfg now := by
  have hstore : (s.prune cfg now).server.store = s.server.store := rfl
  have hdispatch : (dispatch cfg inp true request (s.prune cfg now)).prune cfg now =
    (dispatch cfg inp true request s).prune cfg now := dispatch_prune hnow true request
  unfold recover
  rw [hstore]
  cases s.server.store with
  | none => exact Outcome.prune_prune { shared := s }
  | some store =>
    dsimp only
    split
    · exact Outcome.prune_prune { shared := s, threads := _ }
    · obtain ⟨hanswer, hshared, hstarted⟩ := Dispatched.of_prune hdispatch
      rw [hanswer]
      split
      · simp only [Outcome.prune, exit, hshared]
      · simp only [Outcome.prune, hshared, Dispatched.thread, Dispatched.events, hstarted]

theorem recover_prune (hnow : now ≤ inp.now) (recovery : Recovery) :
    (recover cfg inp recovery (s.prune cfg now)).prune cfg now =
      (recover cfg inp recovery s).prune cfg now := by
  by_cases hresume : ∃ completed request todo, recovery = .resuming completed (request :: todo)
  · obtain ⟨completed, request, todo, rfl⟩ := hresume
    exact resume_prune hnow completed request todo
  · suffices hsame : recover cfg inp recovery (s.prune cfg now) =
        (recover cfg inp recovery s).prune cfg now by
      rw [hsame, Outcome.prune_prune]
    have hstore : (s.prune cfg now).server.store = s.server.store := rfl
    have hdisk : (s.prune cfg now).disk = s.disk := rfl
    unfold recover
    rw [hstore, hdisk]
    cases s.server.store with
    | none => rfl
    | some store =>
      dsimp only
      cases recovery with
      | begun =>
        dsimp only
        split <;> rfl
      | listed completed =>
        dsimp only
        split <;> rfl
      | reconciling completed requests todo =>
        cases todo with
        | nil => rfl
        | cons request todo => exact reconcile_prune completed requests todo request
      | removing completed requests request todo =>
        dsimp only
        rw [perform_prune]
        rcases s.perform (Shelf.deleteExecution inp.fault request.runId) with ⟨_ | _, s'⟩ <;> rfl
      | resuming completed todo =>
        cases todo with
        | nil => rfl
        | cons request todo => exact absurd ⟨completed, request, todo, rfl⟩ hresume

/-- A step of a thread comes to the same whether or not the history was pruned before. -/
theorem thread_prune (hnow : now ≤ inp.now) (h : Queued s.server.completed s.server.runs)
    (thread : Thread) :
    (thread.step cfg inp (s.prune cfg now)).prune cfg now =
      (thread.step cfg inp s).prune cfg now := by
  have hprune {o : Outcome} (ho : thread.step cfg inp (s.prune cfg now) = o.prune cfg now) :
      (thread.step cfg inp (s.prune cfg now)).prune cfg now = o.prune cfg now := by
    rw [ho, Outcome.prune_prune]
  cases thread with
  | handling request context slots =>
    refine hprune ?_
    cases slots <;> rfl
  | finishing request result => exact finish_prune h request result
  | awaiting request =>
    refine hprune ?_
    simp only [Thread.step, perform_prune]
    rfl
  | saving request record =>
    refine hprune ?_
    simp only [Thread.step, perform_prune]
    rcases s.perform (Shelf.save cfg.codec inp.fault record) with ⟨_ | _, s'⟩ <;> rfl
  | clearing request record =>
    refine hprune ?_
    simp only [Thread.step, perform_prune]
    rcases s.perform (Shelf.deleteExecution inp.fault request.runId) with ⟨_ | _, s'⟩ <;> rfl
  | unclean request record => exact hprune rfl
  | closing request record persistence => exact close_prune hnow h request record persistence
  | reporting record attempt =>
    refine hprune ?_
    simp only [Thread.step, report]
    split <;> rfl
  | cancelling request known => exact hprune (answerCancel_prune request known)
  | refusing request refusal => exact hprune rfl
  | delivering record => exact hprune rfl
  | delivered record =>
    refine hprune ?_
    simp only [Thread.step, perform_prune]
    rfl
  | recovering recovery => exact recover_prune hnow recovery

theorem receiveDispatch_prune (hnow : now ≤ inp.now) (request : DispatchRequest) :
    (Machine.receiveDispatch cfg (s.prune cfg now) request inp).prune cfg now =
      (Machine.receiveDispatch cfg s request inp).prune cfg now := by
  have hdispatch : (dispatch cfg inp false request (s.prune cfg now)).prune cfg now =
    (dispatch cfg inp false request s).prune cfg now := dispatch_prune hnow false request
  obtain ⟨hanswer, hshared, hstarted⟩ := Dispatched.of_prune hdispatch
  simp only [Machine.receiveDispatch, Outcome.prune, hanswer, hshared, hstarted, Dispatched.thread,
    Dispatched.events]

theorem filter_running_prune (completed : List ExecutionCompletion)
    (runs : AList fun _ : Bytes => Execution) :
    (cfg.prune now completed runs).2.entries.filter (fun e => e.2.state = .running) =
      runs.entries.filter fun e => e.2.state = .running := by
  unfold Settings.prune
  induction completed generalizing runs with
  | nil => rfl
  | cons oldest rest ih =>
    unfold pruneHistory
    dsimp only
    split
    · rfl
    · rw [ih]
      unfold forget
      split
      · next current hcurrent =>
        split
        · next hidle => exact Table.filter_entries_erase hcurrent (by simpa using hidle.1)
        · rfl
      · rfl

theorem expire_prune (server : Server) :
    Machine.expire (server.pruneExecutionHistory cfg now) =
      (Machine.expire server).pruneExecutionHistory cfg now := by
  have hrunning : ((server.pruneExecutionHistory cfg now).runs.entries.filter fun e =>
      e.2.state = .running) = server.runs.entries.filter fun e => e.2.state = .running :=
    filter_running_prune server.completed server.runs
  simp only [Machine.expire, hrunning]
  rfl

end Pruned

section Later

variable (cfg : Settings) (now : Int)

/-- Steps that come after that time, other than a cancel request. -/
def Label.Later : Label → Prop
  | .dispatch _ inp | .advance _ inp => now ≤ inp.now
  | .cancel _ _ => False
  | _ => True

/-- What is left of a machine after a step that came to this outcome. -/
def Outcome.core (o : Outcome) (others : List Thread) : Disk × Option (Server × List Thread) :=
  if o.exits then (o.shared.disk.abandon, none)
  else (o.shared.disk, some (o.shared.server, o.threads ++ others))

namespace Machine

def answer (m : Machine) (request : DispatchRequest) (inp : Input) :
    Option (Except Refusal DispatchResponse) :=
  m.node.bind fun node =>
    if node.server.serving then
      some (Executor.dispatch cfg inp false request ⟨node.server, m.disk⟩).answer
    else none

def answerAfter (m : Machine) (ls : List Label) (request : DispatchRequest) (inp : Input) :
    Option (Except Refusal DispatchResponse) :=
  (m.run cfg ls).bind fun m' => m'.answer cfg request inp

/-- What the steps of a machine after that time depend on. -/
def coreAt (m : Machine) : Disk × Option (Server × List Thread) :=
  (m.disk, m.node.map fun node => (node.server.pruneExecutionHistory cfg now, node.threads))

variable {cfg now} {m m' : Machine} {node node' : Node} {l : Label}

theorem act_core (hserver : node'.server = node.server) (hthreads : node'.threads = node.threads)
    (disk : Disk) (l : Label) : act cfg node' disk l = act cfg node disk l := by
  cases l with
  | start => rfl
  | stop => rfl
  | powerLoss => rfl
  | _ => simp only [act, hserver, hthreads]

theorem act_prune (h : Queued node.server.completed node.server.runs) (hl : l.Later now)
    (disk : Disk) :
    (act cfg { node with server := node.server.pruneExecutionHistory cfg now } disk l).map
        (Prod.map (Outcome.prune cfg now) id) =
      (act cfg node disk l).map (Prod.map (Outcome.prune cfg now) id) := by
  have hserving : (node.server.pruneExecutionHistory cfg now).serving = node.server.serving := rfl
  cases l with
  | start => rfl
  | stop => rfl
  | powerLoss => rfl
  | dispatch request inp =>
    simp only [act, hserving]
    split
    · exact congrArg (fun o => some (o, node.threads))
        (receiveDispatch_prune (s := ⟨node.server, disk⟩) hl request)
    · rfl
  | cancel request inp => exact hl.elim
  | drain =>
    exact congrArg (fun shared => some (({ shared } : Outcome), node.threads))
      (Shared.prune_prune ⟨{ node.server with draining := true }, disk⟩)
  | drainExpired =>
    simp only [act, expire_prune]
    exact congrArg (fun shared => some (({ shared } : Outcome), node.threads))
      (Shared.prune_prune ⟨expire node.server, disk⟩)
  | deliver inp =>
    have hsame : deliver cfg (Shared.prune cfg now ⟨node.server, disk⟩) inp =
        (deliver cfg ⟨node.server, disk⟩ inp).prune cfg now := by
      unfold deliver
      simp only [Shared.prune, Server.pruneExecutionHistory]
      repeat' split
      all_goals rfl
    simp only [act, hserving]
    split
    · refine congrArg (fun o => some (o, node.threads)) ?_
      exact (congrArg (Outcome.prune cfg now) hsame).trans (Outcome.prune_prune _)
    · rfl
  | advance i inp =>
    simp only [act]
    split
    · next thread hthread =>
      exact congrArg (fun o => some (o, node.threads.eraseIdx i))
        (thread_prune (s := ⟨node.server, disk⟩) hl h thread)
    · rfl

theorem apply_coreAt (o : Outcome) (others : List Thread) :
    (m.apply node o others).coreAt cfg now = Outcome.core (o.prune cfg now) others := by
  unfold apply Outcome.core
  cases hexits : o.exits with
  | true => simp [Outcome.prune, hexits, coreAt, halted, Shared.prune]
  | false => simp [Outcome.prune, hexits, coreAt, Shared.prune]

theorem coreAt_cases (h : m'.coreAt cfg now = m.coreAt cfg now) :
    m'.disk = m.disk ∧ (m'.node = none ∧ m.node = none ∨ ∃ node' node, m'.node = some node' ∧
      m.node = some node ∧ node'.server.pruneExecutionHistory cfg now =
        node.server.pruneExecutionHistory cfg now ∧ node'.threads = node.threads) := by
  obtain ⟨hdisk, hnode⟩ := Prod.mk.inj h
  refine ⟨hdisk, ?_⟩
  cases hm : m.node with
  | none =>
    rw [hm, Option.map_none, Option.map_eq_none_iff] at hnode
    exact .inl ⟨hnode, rfl⟩
  | some node =>
    rw [hm] at hnode
    obtain ⟨node', hnode', hsame⟩ := Option.map_eq_some_iff.1 hnode
    obtain ⟨hserver, hthreads⟩ := Prod.mk.inj hsame
    exact .inr ⟨node', node, hnode', rfl, hserver, hthreads⟩

theorem act_coreAt (h : Queued node.server.completed node.server.runs)
    (h' : Queued node'.server.completed node'.server.runs)
    (hserver : node'.server.pruneExecutionHistory cfg now =
      node.server.pruneExecutionHistory cfg now) (hthreads : node'.threads = node.threads)
    (hl : l.Later now) (disk : Disk) :
    (act cfg node' disk l).map (fun x => (m'.apply node' x.1 x.2).coreAt cfg now) =
      (act cfg node disk l).map fun x => (m.apply node x.1 x.2).coreAt cfg now := by
  have hcore (m : Machine) (node : Node) : (fun x : Outcome × List Thread =>
      (m.apply node x.1 x.2).coreAt cfg now) =
        (fun x => Outcome.core x.1 x.2) ∘ Prod.map (Outcome.prune cfg now) id :=
    funext fun x => apply_coreAt x.1 x.2
  have hsame : act cfg { node' with server := node'.server.pruneExecutionHistory cfg now } disk l =
      act cfg { node with server := node.server.pruneExecutionHistory cfg now } disk l := by
    refine act_core ?_ ?_ disk l
    · exact hserver
    · exact hthreads
  rw [hcore, hcore, ← Option.map_map, ← Option.map_map, ← act_prune h hl, ← act_prune h' hl, hsame]

theorem step_coreAt {ok : Machine → Label → Prop} (hm : Reachable cfg ok m)
    (hm' : Reachable cfg ok m') (h : m'.coreAt cfg now = m.coreAt cfg now) (hl : l.Later now) :
    (m'.step cfg l).map (coreAt cfg now) = (m.step cfg l).map (coreAt cfg now) := by
  obtain ⟨hdisk, ⟨hnode', hnode⟩ | ⟨node', node, hnode', hnode, hserver, hthreads⟩⟩ :=
    coreAt_cases h
  · cases l with
    | start inp =>
      simp only [step, hnode', hnode, Option.isSome_none, Bool.false_eq_true, if_false,
        Option.map_some, start, hdisk]
      repeat' split
      all_goals rfl
    | powerLoss kept garbage =>
      simp only [step, hdisk]
      split
      · rfl
      · rfl
    | _ => simp [step, hnode', hnode]
  · have hqueued := (ledger hm hnode).queued
    have hqueued' := (ledger hm' hnode').queued
    cases l with
    | start inp => simp [step, hnode', hnode]
    | stop => simp [step, hnode', hnode, hdisk, halted, coreAt]
    | powerLoss kept garbage =>
      simp only [step, hdisk]
      split
      · rfl
      · rfl
    | _ =>
      simp only [step, hnode', hnode, hdisk, Option.map_map]
      exact act_coreAt hqueued hqueued' hserver hthreads hl m.disk

/-- Machines that `f` does not tell apart, and whose steps it does not, give the same answers after
the same steps, if the answers depend on `f` alone. -/
theorem answerAfter_congr {α : Type} {f : Machine → α} {inv : Machine → Prop} {p : Label → Prop}
    (hinv : ∀ m l m', inv m → m.step cfg l = some m' → inv m')
    (hstep : ∀ m m' l, inv m → inv m' → p l → f m' = f m →
      (m'.step cfg l).map f = (m.step cfg l).map f)
    {request : DispatchRequest} {inp : Input}
    (hanswer : ∀ m m', f m' = f m → m'.answer cfg request inp = m.answer cfg request inp)
    {ls : List Label} (hls : ∀ l ∈ ls, p l) (hm : inv m) (hm' : inv m') (h : f m' = f m) :
    m'.answerAfter cfg ls request inp = m.answerAfter cfg ls request inp := by
  induction ls generalizing m m' with
  | nil => exact hanswer m m' h
  | cons l ls ih =>
    obtain ⟨hl, hls⟩ := List.forall_mem_cons.1 hls
    have hsame := hstep m m' l hm hm' hl h
    unfold answerAfter run
    cases hs : m.step cfg l with
    | none =>
      rw [hs, Option.map_none, Option.map_eq_none_iff] at hsame
      rw [hsame]
    | some m₁ =>
      rw [hs] at hsame
      obtain ⟨m₁', hs', hf⟩ := Option.map_eq_some_iff.1 hsame
      rw [hs']
      exact ih hls (hinv m l m₁ hm hs) (hinv m' l m₁' hm' hs') hf

theorem answer_coreAt (h : m'.coreAt cfg now = m.coreAt cfg now) {request : DispatchRequest}
    {inp : Input} (hnow : now ≤ inp.now) :
    m'.answer cfg request inp = m.answer cfg request inp := by
  obtain ⟨hdisk, ⟨hnode', hnode⟩ | ⟨node', node, hnode', hnode, hserver, hthreads⟩⟩ :=
    coreAt_cases h
  · simp only [answer, hnode', hnode, Option.bind_none]
  · have hserving : (node'.server.pruneExecutionHistory cfg now).serving =
        (node.server.pruneExecutionHistory cfg now).serving := by
      rw [hserver]
    change node'.server.serving = node.server.serving at hserving
    have hanswer (s : Shared) : (Executor.dispatch cfg inp false request (s.prune cfg now)).answer =
        (Executor.dispatch cfg inp false request s).answer :=
      (Dispatched.of_prune (dispatch_prune hnow false request)).1
    simp only [answer, hnode', hnode, hdisk, hserving, Option.bind_some]
    rw [← hanswer ⟨node'.server, m.disk⟩, ← hanswer ⟨node.server, m.disk⟩, Shared.prune,
      Shared.prune,
      hserver]

end Machine

end Later

section Recall

variable {cfg : Settings} {inp : Input} {s : Shared} {m m' : Machine} {node : Node} {disk : Disk}
  {l : Label} {o : Outcome} {others : List Thread} {runID : Bytes} {u : Thread}

/-- The run whose completion record a thread is about to write, or whose handler it is in. -/
def Thread.work : Thread → Option Bytes
  | .handling request _ _ | .finishing request _ => some request.runId
  | .saving _ record => some record.runID
  | _ => none

def Server.Knows (s : Server) (runID : Bytes) : Prop := (s.runs.lookup runID).isSome = true

theorem dispatch_work (again : Bool) (request : DispatchRequest) :
    ∀ u ∈ (dispatch cfg inp again request s).thread, u.work = some runID →
      (dispatch cfg inp again request s).shared.server.Knows runID := by
  intro u hu hwork
  obtain ⟨x, hx, rfl⟩ := List.mem_map.1 hu
  obtain ⟨hrun, -, e, hrunning, -⟩ := dispatch_begins again x (Option.mem_toList.1 hx)
  rw [← Option.some.inj hwork, hrun]
  exact Option.isSome_iff_exists.2 ⟨e, (running_eq_some.1 hrunning).1⟩

theorem recover_work (recovery : Recovery) :
    ∀ u ∈ (recover cfg inp recovery s).threads, u.work = some runID →
      (recover cfg inp recovery s).shared.server.Knows runID := by
  unfold recover
  cases s.server.store with
  | none => exact List.forall_mem_nil _
  | some store =>
    dsimp only
    cases recovery with
    | resuming completed todo =>
      cases todo with
      | nil => exact List.forall_mem_nil _
      | cons request todo =>
        dsimp only
        split
        · simp [Thread.work]
        · split
          · exact List.forall_mem_nil _
          · exact List.forall_mem_cons.2 ⟨nofun, dispatch_work true request⟩
    | reconciling completed requests todo =>
      cases todo with
      | nil => simp [Thread.work]
      | cons request todo =>
        simp only [reconcile, reconcile.persist]
        repeat' split
        all_goals simp [Thread.work, exit]
    | _ =>
      dsimp only
      split
      all_goals simp [Thread.work, exit]

/-- Only a step of a thread that works for the run, or one that has just put the run into memory,
leaves a thread that works for it. -/
theorem thread_work (thread : Thread) :
    ∀ u ∈ (thread.step cfg inp s).threads, u.work = some runID →
      thread.work = some runID ∨ (thread.step cfg inp s).shared.server.Knows runID := by
  cases thread with
  | handling request context slots =>
    simp only [Thread.step, Thread.work, List.mem_singleton, forall_eq]
    exact .inl
  | finishing request result =>
    simp only [Thread.step, finish]
    repeat' split
    all_goals simp [Thread.work, completionRecord]
    exact .inl
  | saving request record =>
    simp only [Thread.step]
    split
    all_goals simp [Thread.work]
  | clearing request record =>
    simp only [Thread.step]
    split
    all_goals simp [Thread.work]
  | closing request record persistence =>
    simp only [Thread.step, close, transition]
    repeat' split
    all_goals simp [Thread.work]
  | reporting record attempt =>
    simp only [Thread.step, report]
    repeat' split
    all_goals simp [Thread.work]
  | cancelling request known =>
    simp only [Thread.step, answerCancel, deletePersistedExecution]
    repeat' split
    all_goals simp [Thread.work]
  | delivering record =>
    simp only [Thread.step]
    split
    all_goals simp [Thread.work]
  | recovering recovery => exact fun u hu hwork => .inr (recover_work recovery u hu hwork)
  | _ => simp [Thread.step, Thread.work]

theorem acts_work (hacts : Machine.Acts cfg node disk l o others) (hu : u ∈ o.threads)
    (hwork : u.work = some runID) :
    (∃ t ∈ node.threads, t.work = some runID) ∨ o.shared.server.Knows runID := by
  cases hacts with
  | dispatch request inp => exact .inr (dispatch_work false request u hu hwork)
  | cancel request inp =>
    unfold Machine.receiveCancel at hu
    split at hu
    · cases hu
    · cases List.mem_singleton.1 hu
      cases hwork
  | drain => cases hu
  | drainExpired => cases hu
  | deliver inp =>
    unfold Machine.deliver at hu
    split at hu
    · cases hu
    split at hu
    · cases hu
    · obtain ⟨record, -, rfl⟩ := List.mem_map.1 hu
      cases hwork
  | advance i inp t hthread =>
    refine (thread_work t u hu hwork).imp_left fun ht => ?_
    exact ⟨t, List.mem_of_getElem? hthread, ht⟩

theorem Thread.work_of_writes {t : Thread} (h : completionFileName runID ∈ t.writes) :
    t.work = some runID ∨ t.duty = some none := by
  unfold Thread.writes at h
  split at h
  · exact .inl (congrArg some (completionFileName_injective (List.mem_singleton.1 h)).symm)
  · exact .inr rfl
  · exact .inr rfl
  · cases h

/-- A new completion record is written by a thread that works for the run, or by the recovery. -/
theorem acts_stored (hacts : Machine.Acts cfg node disk l o others)
    (hnew : completionFileName runID ∉ disk.visible)
    (hin : completionFileName runID ∈ o.shared.disk.visible) :
    ∃ t ∈ node.threads, t.work = some runID ∨ t.duty = some none := by
  rcases acts_within hacts with hw | ⟨i, inp, t, -, -, -, rfl, -⟩
  · by_contra hnone
    refine hw.disk (fun d => completionFileName runID ∉ d.visible) (fun _ h => h)
      (fun n hn d raw hd hmem => ?_) (fun n _ d hd hmem => hd (Shelf.mem_change_none.1 hmem).2)
      hnew hin
    refine (Shelf.mem_change_some.1 hmem).elim (fun heq => ?_) hd
    subst heq
    cases hacts with
    | dispatch request inp =>
      exact completionFileName_ne_executionFileName _ _ (List.mem_singleton.1 hn)
    | advance i inp t hthread =>
      simp only [Label.writes, hthread, Option.map_some, Option.getD_some] at hn
      exact hnone ⟨t, List.mem_of_getElem? hthread, Thread.work_of_writes hn⟩
    | _ => cases hn
  · exact absurd hin hnew

def Machine.serving (m : Machine) : Bool := m.node.any fun node => node.server.serving

/-- The step prunes no entry of the run, and a process that begins to answer requests while the
completion record of the run is on disk has the run in memory: it has resumed it itself. -/
def Kept (cfg : Settings) (runID : Bytes) (m : Machine) (l : Label) : Prop :=
  (∀ node ∈ m.node, (l.touch cfg node).Retains cfg runID) ∧
    (m.serving = false → ∀ m' ∈ m.step cfg l, ∀ node' ∈ m'.node, node'.server.serving = true →
      completionFileName runID ∈ m'.disk.visible → node'.server.Knows runID)

instance (s : Server) (runID : Bytes) : Decidable (s.Knows runID) :=
  inferInstanceAs (Decidable (_ = true))

instance (m : Machine) (l : Label) : Decidable (Kept cfg runID m l) :=
  inferInstanceAs (Decidable (_ ∧ _))

structure Recalls (runID : Bytes) (m : Machine) (node : Node) : Prop where
  work : ∀ t ∈ node.threads, t.work = some runID → node.server.Knows runID
  stored : node.server.serving = true → completionFileName runID ∈ m.disk.visible →
    node.server.Knows runID

theorem Recalls.act (h : Recalls runID m node) (hord : Ordered node)
    (hnode : m.node = some node) (hacts : Machine.Acts cfg node m.disk l o others)
    (hs : m.step cfg l = some m') (hkept : Kept cfg runID m l) {node' : Node}
    (hnode' : m'.node = some node') (hm' : m' = m.apply node o others) :
    Recalls runID m' node' := by
  subst hm'
  have hvisible : (m.apply node o others).disk.visible = o.shared.disk.visible :=
    Machine.apply_visible
  have hserving : m.serving = node.server.serving := by
    rw [Machine.serving, hnode, Option.any_some]
  have hknows : node.server.Knows runID → o.shared.server.Knows runID := by
    intro hknown
    obtain ⟨e, he⟩ := Option.isSome_iff_exists.1 hknown
    obtain ⟨e', he', -⟩ := (acts_history hacts).retains (hkept.1 node hnode) he
    exact Option.isSome_iff_exists.2 ⟨e', he'⟩
  obtain ⟨-, rfl⟩ := Machine.apply_node hnode'
  refine ⟨fun u hu hwork => ?_, fun hserves hin => ?_⟩
  · rcases List.mem_append.1 hu with hu | hu
    · rcases acts_work hacts hu hwork with ⟨t, ht, hwork⟩ | hknown
      · exact hknows (h.work t ht hwork)
      · exact hknown
    · exact hknows (h.work u (hacts.others hu) hwork)
  · cases hbefore : node.server.serving with
    | false => exact hkept.2 (hserving.trans hbefore) _ hs _ hnode' hserves hin
    | true =>
      rw [hvisible] at hin
      by_cases hold : completionFileName runID ∈ m.disk.visible
      · exact hknows (h.stored hbefore hold)
      · obtain ⟨t, ht, hwork | hduty⟩ := acts_stored hacts hold hin
        · exact hknows (h.work t ht hwork)
        · have hfits := hord.fits none (List.mem_filterMap.2 ⟨t, ht, hduty⟩)
          rw [hfits.1] at hbefore
          cases hbefore

theorem recalls (hm : Machine.Reachable cfg (Kept cfg runID) m) :
    ∀ node, m.node = some node → Recalls runID m node := by
  induction hm with
  | init => exact fun node hnode => by cases hnode
  | @step m m' l hm hs hkept ih =>
    intro node' hnode'
    cases Machine.step_cases hs with
    | start inp hnone =>
      refine ⟨fun t ht hwork => ?_, fun hserves hin => ?_⟩
      · unfold Machine.start at hnode'
        split at hnode'
        · cases hnode'
          cases ht
        split at hnode'
        · cases hnone.symm.trans hnode'
        · cases hnode'
          cases List.mem_singleton.1 ht
          cases hwork
      · have hserving : m.serving = false := by
          rw [Machine.serving, hnone, Option.any_none]
        exact hkept.2 hserving _ hs node' hnode' hserves hin
    | stop => cases hnode'
    | powerLoss => cases hnode'
    | act node o others hnode hacts =>
      exact (ih node hnode).act (ordered hm node hnode) hnode hacts hs hkept hnode' rfl

/-- A dispatch request for a run in memory starts nothing and changes no more than what pruning
does. -/
theorem dispatch_known {request : DispatchRequest} (hknown : s.server.Knows request.runId)
    (hretains : (dispatchTouch cfg inp request s.server).Retains cfg request.runId) :
    (dispatch cfg inp false request s).started = none ∧
      (dispatch cfg inp false request s).shared.prune cfg inp.now = s.prune cfg inp.now := by
  obtain ⟨e, he⟩ := Option.isSome_iff_exists.1 hknown
  unfold dispatchTouch at hretains
  unfold dispatch
  split
  · exact ⟨rfl, rfl⟩
  split
  · exact ⟨rfl, rfl⟩
  split
  · exact ⟨rfl, rfl⟩
  split
  · exact ⟨rfl, rfl⟩
  next hvalid hhandler hdraining hfailed =>
  rw [if_neg (by simp_all)] at hretains
  have hkept : (s.server.pruneExecutionHistory cfg inp.now).runs.lookup request.runId = some e :=
    hretains.lookup he
  dsimp only
  rw [hkept]
  exact ⟨rfl, Shared.prune_prune s⟩

theorem step_known {request : DispatchRequest} (hnode : m.node = some node)
    (hserving : node.server.serving = true) (hknown : node.server.Knows request.runId)
    (hretains : ((Label.dispatch request inp).touch cfg node).Retains cfg request.runId) :
    ∃ (m' : Machine) (node' : Node) (answer : Except Refusal DispatchResponse),
      m.step cfg (.dispatch request inp) = some m' ∧ m'.node = some node' ∧
      node'.log = .dispatched request answer :: node.log ∧ node'.threads = node.threads ∧
      m'.coreAt cfg inp.now = m.coreAt cfg inp.now := by
  have hstep : m.step cfg (.dispatch request inp) = some (m.apply node
      (Machine.receiveDispatch cfg ⟨node.server, m.disk⟩ request inp) node.threads) := by
    simp only [Machine.step, hnode, Machine.act, hserving, if_true, Option.map_some]
  obtain ⟨hstarted, hshared⟩ := dispatch_known (s := ⟨node.server, m.disk⟩) hknown hretains
  have hthread : (dispatch cfg inp false request ⟨node.server, m.disk⟩).thread = [] := by
    rw [Dispatched.thread, hstarted]
    rfl
  have hevents : (dispatch cfg inp false request ⟨node.server, m.disk⟩).events false = [] := by
    rw [Dispatched.events, hstarted]
    rfl
  refine ⟨_, _, (dispatch cfg inp false request ⟨node.server, m.disk⟩).answer, hstep, rfl, ?_, ?_,
    ?_⟩
  · simp only [Machine.receiveDispatch, hevents, List.singleton_append]
  · simp only [Machine.receiveDispatch, hthread, List.nil_append]
  · rw [Machine.apply_coreAt]
    simp only [Machine.receiveDispatch, hthread, Outcome.prune, hshared]
    simp only [Outcome.core, Shared.prune, Machine.coreAt, hnode]
    rfl

/-- While the completion record of a run is on disk, a dispatch request for the run starts no
handler, and every later request is answered as it would have been without it. -/
theorem repeated_dispatch_harmless (cfg : Settings) (m : Machine) (node : Node)
    (request : DispatchRequest) (inp : Input)
    (hm : Machine.Reachable cfg (Kept cfg request.runId) m) (hnode : m.node = some node)
    (hserving : node.server.serving = true)
    (hstored : completionFileName request.runId ∈ m.disk.visible)
    (hkept : Kept cfg request.runId m (.dispatch request inp)) :
    ∃ (m' : Machine) (node' : Node) (answer : Except Refusal DispatchResponse),
      m.step cfg (.dispatch request inp) = some m' ∧ m'.node = some node' ∧
      node'.log = .dispatched request answer :: node.log ∧ node'.threads = node.threads ∧
      ∀ ls r inp', (∀ l ∈ ls, l.Later inp.now) → inp.now ≤ inp'.now →
        m'.answerAfter cfg ls r inp' = m.answerAfter cfg ls r inp' := by
  have hknown := (recalls hm node hnode).stored hserving hstored
  obtain ⟨m', node', answer, hs, hnode', hlog, hthreads, hcore⟩ :=
    step_known hnode hserving hknown (hkept.1 node hnode)
  refine ⟨m', node', answer, hs, hnode', hlog, hthreads, fun ls r inp' hls hnow => ?_⟩
  exact Machine.answerAfter_congr (fun m l m' hm hs => .step hm hs trivial)
    (fun m m' l hm hm' hl h => Machine.step_coreAt hm hm' h hl)
    (fun m m' h => Machine.answer_coreAt h hnow) hls hm.of_any (.step hm.of_any hs trivial) hcore

end Recall

section Sample

def completed : List Label :=
  .dispatch dockerRequest { createdAt := newYear } ::
    List.replicate 5 (.advance 0 { createdAt := newYear })

def otherRequest : DispatchRequest := { dockerRequest with runId := text "8" }

/-- The process is started again before the completion is delivered. A repeated dispatch then
starts a second handler, whose completion cannot be saved, and another run is refused that would
have been accepted. -/
theorem completed_run_started_again :
    ∃ (m : Machine) (node : Node),
      Machine.Reachable (plainSettings (some [])) (fun _ _ => True) m ∧ m.node = some node ∧
      node.server.serving = true ∧ completionFileName dockerRequest.runId ∈ m.disk.visible ∧
      ((m.step (plainSettings (some [])) (.dispatch dockerRequest { createdAt := newYear })).bind
          Machine.node).map (fun node' => .started dockerRequest 0 false ∈ node'.log) = some True ∧
      m.answer (plainSettings (some [])) otherRequest { createdAt := newYear } =
        some (.ok ⟨true, text "7", .running⟩) ∧
      m.answerAfter (plainSettings (some [])) completed otherRequest { createdAt := newYear } =
        some (.error .persistenceUnavailable) := by
  have hrun : ((Machine.init.run (plainSettings (some []))
      (recovered ++ completed ++ .stop :: recovered)).bind fun m => m.node.bind fun node =>
        ((m.step (plainSettings (some [])) (.dispatch dockerRequest { createdAt := newYear })).bind
          Machine.node).map fun node' =>
        (decide (node.server.serving = true ∧
            completionFileName dockerRequest.runId ∈ m.disk.visible ∧
            .started dockerRequest 0 false ∈ node'.log),
          m.answer (plainSettings (some [])) otherRequest { createdAt := newYear },
          m.answerAfter (plainSettings (some [])) completed otherRequest
            { createdAt := newYear })) =
      some (true, some (.ok ⟨true, text "7", .running⟩),
        some (.error .persistenceUnavailable)) := by
    decide +kernel
  obtain ⟨m, hm, hrun⟩ := Option.bind_eq_some_iff.1 hrun
  obtain ⟨node, hnode, hrun⟩ := Option.bind_eq_some_iff.1 hrun
  obtain ⟨node', hnode', hfacts⟩ := Option.map_eq_some_iff.1 hrun
  simp only [Prod.mk.injEq, decide_eq_true_eq] at hfacts
  obtain ⟨⟨hserving, hstored, hstarted⟩, hbefore, hafter⟩ := hfacts
  refine ⟨m, node, Machine.Reachable.init.run hm, hnode, hserving, hstored, ?_, hbefore, hafter⟩
  rw [hnode', Option.map_some, eq_true hstarted]

/-- After a restart the process finishes the run itself: a repeated dispatch starts nothing, and
another run is accepted. -/
theorem completed_run_not_started_again :
    ∃ (m m' : Machine) (node node' : Node) (answer : Except Refusal DispatchResponse),
      Machine.Reachable (plainSettings (some []))
        (Kept (plainSettings (some [])) dockerRequest.runId) m ∧ m.node = some node ∧
      completionFileName dockerRequest.runId ∈ m.disk.visible ∧
      m.step (plainSettings (some [])) (.dispatch dockerRequest { createdAt := newYear }) =
        some m' ∧
      m'.node = some node' ∧ node'.log = .dispatched dockerRequest answer :: node.log ∧
      m'.answerAfter (plainSettings (some [])) [] otherRequest { createdAt := newYear } =
        some (.ok ⟨true, text "7", .running⟩) := by
  have hrun : ((Machine.init.runWhile (plainSettings (some []))
      (Kept (plainSettings (some [])) dockerRequest.runId)
      (recovered ++ .stop :: recovered ++ completed)).bind fun m => m.node.map fun node =>
        (node.server.serving, decide (completionFileName dockerRequest.runId ∈ m.disk.visible),
          decide (Kept (plainSettings (some [])) dockerRequest.runId m
            (.dispatch dockerRequest { createdAt := newYear })),
          m.answerAfter (plainSettings (some [])) [] otherRequest { createdAt := newYear })) =
      some (true, true, true, some (.ok ⟨true, text "7", .running⟩)) := by
    decide +kernel
  obtain ⟨m, hm, hrun⟩ := Option.bind_eq_some_iff.1 hrun
  obtain ⟨node, hnode, hfacts⟩ := Option.map_eq_some_iff.1 hrun
  simp only [Prod.mk.injEq, decide_eq_true_eq] at hfacts
  obtain ⟨hserving, hstored, hkept, hother⟩ := hfacts
  have hreach := Machine.Reachable.init.runWhile hm
  obtain ⟨m', node', answer, hs, hnode', hlog, -, hlater⟩ := repeated_dispatch_harmless
    (plainSettings (some [])) m node dockerRequest { createdAt := newYear } hreach hnode hserving
    hstored hkept
  refine ⟨m, m', node, node', answer, hreach, hnode, hstored, hs, hnode', hlog, ?_⟩
  rw [hlater [] otherRequest { createdAt := newYear } (List.forall_mem_nil _) le_rfl]
  exact hother

end Sample

end GoScheduler.Executor
