import GoScheduler.Executor.Footprint

/-! The executions that an executor keeps in memory. `completed` is the queue of those that have
ended, in the order of their ends; `pruneExecutionHistoryLocked` takes the oldest from both. An
execution that awaits its callback has no place in the queue, and one that was cancelled gets its
place before its handler has returned. -/
namespace GoScheduler.Executor

open Process

section Touches

def RunState.isTerminal : RunState → Bool
  | .succeeded | .failed | .cancelled => true
  | .running | .waitingCallback => false

/-- What a step does to the executions in memory. -/
inductive Touch where
  | nothing
  | awaits (runID : Bytes)  -- An execution that was running awaits its callback.
  -- `pruneExecutionHistoryLocked` is called on these.
  | prunes (now : Int) (completed : List ExecutionCompletion)
      (runs : AList fun _ : Bytes => Execution)

variable (cfg : Settings)

def dispatchTouch (inp : Input) (request : DispatchRequest) (s : Server) : Touch :=
  if isInvalid request || !cfg.handlers request.handler || s.draining ||
    s.completionStoreFailed then
    .nothing
  else .prunes inp.now s.completed s.runs

def concludeTouch (now : Int) (runID : Bytes) (state : RunState) (message : Bytes) (s : Server) :
    Touch :=
  match s.running runID with
  | some current =>
      .prunes now (s.completed ++ [⟨runID, now⟩])
        (s.runs.insert runID { current with state, message, finishedAt := now })
  | none => .nothing

def Thread.touch (inp : Input) (s : Server) : Thread → Touch
  | .finishing request .awaitingCallback =>
      if (s.running request.runId).isSome then .awaits request.runId else .nothing
  | .closing request record _ =>
      concludeTouch inp.now request.runId (if record.succeeded then .succeeded else .failed)
        record.message s
  | .recovering (.resuming completed (request :: _)) =>
      if s.store.isNone ∨ request.runId ∈ completed ∨ isExternallyRecoverable request = false then
        .nothing
      else dispatchTouch cfg inp request s
  | _ => .nothing

def Label.touch (node : Node) : Label → Touch
  | .dispatch request inp => dispatchTouch cfg inp request node.server
  | .cancel request inp =>
      if request.runId = [] then .nothing
      else concludeTouch inp.now request.runId .cancelled request.reason node.server
  | .advance i inp => match node.threads[i]? with
      | some thread => thread.touch cfg inp node.server
      | none => .nothing
  | _ => .nothing

def Settings.prune (now : Int) (completed : List ExecutionCompletion)
    (runs : AList fun _ : Bytes => Execution) :
    List ExecutionCompletion × AList fun _ : Bytes => Execution :=
  pruneHistory cfg.historyLimit cfg.historyRetention now completed runs

inductive HistoryChange (s s' : Server) : Touch → Prop where
  | nothing (hruns : s'.runs = s.runs) (hcompleted : s'.completed = s.completed)
      (hcontexts : s'.contexts = s.contexts) (hcancelled : s.cancelled ⊆ s'.cancelled) :
      HistoryChange s s' .nothing
  | awaits (runID : Bytes) (e : Execution) (hrunning : s.running runID = some e)
      (hruns : s'.runs = s.runs.insert runID { e with state := .waitingCallback })
      (hcompleted : s'.completed = s.completed) (hcontexts : s'.contexts = s.contexts)
      (hcancelled : s'.cancelled = e.context :: s.cancelled) : HistoryChange s s' (.awaits runID)
  | prunes (now : Int) (hpruned : (s'.completed, s'.runs) = cfg.prune now s.completed s.runs)
      (hcontexts : s'.contexts = s.contexts) (hcancelled : s'.cancelled = s.cancelled) :
      HistoryChange s s' (.prunes now s.completed s.runs)
  | begins (now : Int) (runID : Bytes) (e : Execution)
      (hnew : (cfg.prune now s.completed s.runs).2.lookup runID = none)
      (hstate : e.state = .running) (hcontext : e.context = s.contexts)
      (hcompleted : s'.completed = (cfg.prune now s.completed s.runs).1)
      (hruns : s'.runs = (cfg.prune now s.completed s.runs).2.insert runID e)
      (hcontexts : s'.contexts = s.contexts + 1) (hcancelled : s'.cancelled = s.cancelled) :
      HistoryChange s s' (.prunes now s.completed s.runs)
  | settles (now : Int) (runID : Bytes) (e : Execution) (state : RunState) (message : Bytes)
      (hrunning : s.running runID = some e) (hstate : state.isTerminal = true)
      (hpruned : (s'.completed, s'.runs) = cfg.prune now (s.completed ++ [⟨runID, now⟩])
        (s.runs.insert runID { e with state, message, finishedAt := now }))
      (hcontexts : s'.contexts = s.contexts)
      (hcancelled : s'.cancelled = e.context :: s.cancelled) :
      HistoryChange s s' (.prunes now (s.completed ++ [⟨runID, now⟩])
        (s.runs.insert runID { e with state, message, finishedAt := now }))

end Touches

section Steps

variable {cfg : Settings} {inp : Input} {s : Shared}

theorem HistoryChange.refl (server : Server) : HistoryChange cfg server server .nothing :=
  .nothing rfl rfl rfl (List.Subset.refl _)

theorem HistoryChange.perform {operation : Shelf → Except Error Unit × Shelf}
    {res : Except Error Unit} {s' : Shared} (h : s.perform operation = (res, s')) :
    HistoryChange cfg s.server s'.server .nothing := by
  obtain ⟨res', store, disk, hdone⟩ := perform_eq operation s
  rw [hdone] at h
  cases h
  exact .nothing rfl rfl rfl (List.Subset.refl _)

theorem persist_history {now : Int} {request : DispatchRequest} {server : Server} {disk : Disk}
    (slots : Option Slots)
    (hnew : (server.pruneExecutionHistory cfg now).runs.lookup request.runId = none) :
    HistoryChange cfg server
      (startExecution.persist cfg inp request ⟨server.pruneExecutionHistory cfg now, disk⟩
        slots).shared.server (.prunes now server.completed server.runs) := by
  obtain ⟨res, store, disk', hdone⟩ := perform_eq
    (Shelf.saveExecution cfg.codec inp.fault request) ⟨server.pruneExecutionHistory cfg now, disk⟩
  unfold startExecution.persist
  rw [hdone]
  cases res with
  | error e => exact .prunes now rfl rfl rfl
  | ok _ =>
    refine .begins now request.runId ⟨server.contexts, _, .running, [], 0⟩ hnew rfl rfl ?_ rfl rfl
      ?_
    all_goals cases slots <;> rfl

theorem dispatch_history (recovered : Bool) (request : DispatchRequest) :
    HistoryChange cfg s.server (dispatch cfg inp recovered request s).shared.server
      (dispatchTouch cfg inp request s.server) := by
  unfold dispatch dispatchTouch
  split
  · next h => simpa [h] using HistoryChange.refl s.server
  split
  · next h => simpa [h] using HistoryChange.refl s.server
  split
  · next h => simpa [h] using HistoryChange.refl s.server
  split
  · next h => simpa [h] using HistoryChange.refl s.server
  next hvalid hhandler hdraining hfailed =>
  rw [if_neg (by simp_all)]
  dsimp only
  split
  · exact .prunes inp.now rfl rfl rfl
  · next hnew =>
    refine startExecution_cases (P := fun d => HistoryChange cfg s.server d.shared.server _)
      (fun _ => .prunes inp.now rfl rfl rfl) fun slots => persist_history slots ?_
    rw [timed_runId]
    exact hnew

theorem transition_history {s₁ : Shared} (request : DispatchRequest) (record : CompletionRecord)
    (persistence : Persistence) (hruns : s₁.server.runs = s.server.runs)
    (hcompleted : s₁.server.completed = s.server.completed)
    (hcontexts : s₁.server.contexts = s.server.contexts)
    (hcancelled : s₁.server.cancelled = s.server.cancelled) :
    HistoryChange cfg s.server (transition cfg inp request record persistence s₁).shared.server
      ((Thread.closing request record persistence).touch cfg inp s.server) := by
  have hsame : s₁.server.running request.runId = s.server.running request.runId := by
    rw [Server.running, hruns, Server.running]
  unfold transition
  simp only [Thread.touch, concludeTouch]
  rw [hsame]
  cases hrunning : s.server.running request.runId with
  | some e =>
    refine .settles inp.now request.runId e _ record.message hrunning ?_ ?_ hcontexts ?_
    · split
      · rfl
      · rfl
    · rw [← hcompleted, ← hruns]
      rfl
    · rw [← hcancelled]
      rfl
  | none => exact .nothing hruns hcompleted hcontexts (hcancelled ▸ List.Subset.refl _)

theorem close_history (request : DispatchRequest) (record : CompletionRecord)
    (persistence : Persistence) :
    HistoryChange cfg s.server (close cfg inp request record persistence s).shared.server
      ((Thread.closing request record persistence).touch cfg inp s.server) := by
  unfold close
  split
  · exact transition_history request record persistence rfl rfl rfl rfl
  · exact transition_history request record persistence rfl rfl rfl rfl

theorem cancelInMemory_history (request : CancelRequest) (server : Server) :
    HistoryChange cfg server (cancelInMemory cfg inp request server).2
      (concludeTouch inp.now request.runId .cancelled request.reason server) := by
  unfold cancelInMemory concludeTouch Server.running
  cases hlookup : server.runs.lookup request.runId with
  | none => exact .refl server
  | some e =>
    by_cases hstate : e.state = .running
    · have hrunning : server.running request.runId = some e := running_eq_some.2 ⟨hlookup, hstate⟩
      simp only [Option.filter_some, hstate, decide_true, if_true]
      exact .settles inp.now request.runId e .cancelled request.reason hrunning rfl rfl rfl rfl
    · simp only [Option.filter_some, hstate, decide_false, Bool.false_eq_true, if_false]
      exact .refl server

theorem finish_history (request : DispatchRequest) (result : HandlerResult) :
    HistoryChange cfg s.server (finish inp request result s).shared.server
      ((Thread.finishing request result).touch cfg inp s.server) := by
  unfold finish
  split
  · simp only [Thread.touch]
    cases hrunning : s.server.running request.runId with
    | none => exact .refl _
    | some e => exact .awaits request.runId e hrunning rfl rfl rfl rfl
  · next hresult =>
    have htouch : (Thread.finishing request result).touch cfg inp s.server = .nothing := by
      cases result with
      | awaitingCallback => exact absurd rfl hresult
      | _ => rfl
    rw [htouch]
    dsimp only
    repeat' split
    all_goals exact .refl _

theorem answerCancel_history (request : CancelRequest) (known : Bool) :
    HistoryChange cfg s.server (answerCancel cfg inp request known s).shared.server .nothing := by
  unfold answerCancel deletePersistedExecution
  repeat' split
  all_goals first
    | exact .refl _
    | exact .perform ‹_›

theorem reconcile_history (completed : List Bytes) (requests todo : List DispatchRequest)
    (request : DispatchRequest) :
    HistoryChange cfg s.server (reconcile cfg inp completed requests request todo s).shared.server
      .nothing := by
  unfold reconcile reconcile.persist
  repeat' split
  all_goals first
    | exact .refl _
    | exact .perform ‹_›

theorem recover_history (recovery : Recovery) :
    HistoryChange cfg s.server (recover cfg inp recovery s).shared.server
      ((Thread.recovering recovery).touch cfg inp s.server) := by
  unfold recover
  cases hstore : s.server.store with
  | none =>
    have htouch : (Thread.recovering recovery).touch cfg inp s.server = .nothing := by
      cases recovery with
      | resuming completed todo =>
        cases todo with
        | nil => rfl
        | cons request todo => simp [Thread.touch, hstore]
      | _ => rfl
    rw [htouch]
    exact .refl _
  | some store =>
    simp only
    cases recovery with
    | begun =>
      dsimp only
      split
      all_goals exact .refl _
    | listed completed =>
      dsimp only
      split
      all_goals exact .refl _
    | reconciling completed requests todo =>
      cases todo with
      | nil => exact .refl _
      | cons request todo => exact reconcile_history completed requests todo request
    | removing completed requests request todo =>
      dsimp only
      split
      all_goals exact .perform ‹_›
    | resuming completed todo =>
      cases todo with
      | nil => exact .nothing rfl rfl rfl (List.Subset.refl _)
      | cons request todo =>
        dsimp only
        split
        · next hskip =>
          simp only [Thread.touch, if_pos (Or.inr hskip)]
          exact .refl _
        · next hdispatch =>
          simp only [Thread.touch, hstore, Option.isNone_some, Bool.false_eq_true, false_or,
            if_neg hdispatch]
          split
          all_goals exact dispatch_history true request

theorem thread_history (thread : Thread) :
    HistoryChange cfg s.server (thread.step cfg inp s).shared.server
      (thread.touch cfg inp s.server) := by
  cases thread with
  | handling request context slots =>
    cases slots with
    | none => exact .refl _
    | some executionType => exact .nothing rfl rfl rfl (List.Subset.refl _)
  | finishing request result => exact finish_history request result
  | awaiting request => exact .perform rfl
  | saving request record =>
    simp only [Thread.step]
    split
    all_goals exact .perform ‹_›
  | clearing request record =>
    simp only [Thread.step]
    split
    all_goals exact .perform ‹_›
  | unclean request record => exact .nothing rfl rfl rfl (List.Subset.refl _)
  | closing request record persistence => exact close_history request record persistence
  | reporting record attempt =>
    simp only [Thread.step, report]
    split
    all_goals exact .refl _
  | cancelling request known => exact answerCancel_history request known
  | refusing request refusal => exact .nothing rfl rfl rfl (List.Subset.refl _)
  | delivering record => exact .refl _
  | delivered record => exact .perform rfl
  | recovering recovery => exact recover_history recovery

theorem acts_history {node : Node} {disk : Disk} {l : Label} {o : Outcome} {others : List Thread}
    (hacts : Machine.Acts cfg node disk l o others) :
    HistoryChange cfg node.server o.shared.server (l.touch cfg node) := by
  cases hacts with
  | dispatch request inp => exact dispatch_history (s := ⟨node.server, disk⟩) false request
  | cancel request inp =>
    simp only [Label.touch]
    unfold Machine.receiveCancel
    split
    · exact .refl _
    · exact cancelInMemory_history request node.server
  | drain => exact .nothing rfl rfl rfl (List.Subset.refl _)
  | drainExpired => exact .nothing rfl rfl rfl (List.subset_append_right _ _)
  | deliver inp =>
    rw [deliver_shared]
    exact .refl _
  | advance i inp thread hthread =>
    simp only [Label.touch, hthread]
    exact thread_history (s := ⟨node.server, disk⟩) thread

end Steps

section Queue

variable {limit retention now : Int} {completed : List ExecutionCompletion}
  {runs : AList fun _ : Bytes => Execution} {runID : Bytes} {e : Execution}

/-- The queue has one entry for each execution that has ended, and no other. -/
structure Queued (completed : List ExecutionCompletion)
    (runs : AList fun _ : Bytes => Execution) : Prop where
  nodup : (completed.map ExecutionCompletion.runID).Nodup
  sound : ∀ entry ∈ completed, ∃ e, runs.lookup entry.runID = some e ∧
    e.state.isTerminal = true ∧ e.finishedAt = entry.finishedAt
  complete : ∀ runID e, runs.lookup runID = some e → e.state.isTerminal = true →
    runID ∈ completed.map ExecutionCompletion.runID

theorem ne_running_of_isTerminal {state : RunState} (h : state.isTerminal = true) :
    state ≠ .running := by
  rintro rfl
  cases h

theorem queued_empty : Queued [] ∅ := by
  refine ⟨List.nodup_nil, List.forall_mem_nil _, fun runID e h => ?_⟩
  rw [AList.lookup_empty] at h
  cases h

theorem Queued.forget_eq {oldest : ExecutionCompletion} (h : Queued (oldest :: completed) runs) :
    forget runs oldest = runs.erase oldest.runID := by
  obtain ⟨e, hlookup, hterminal, hfinished⟩ := h.sound oldest List.mem_cons_self
  simp [forget, hlookup, ne_running_of_isTerminal hterminal, hfinished]

theorem Queued.tail {oldest : ExecutionCompletion} (h : Queued (oldest :: completed) runs) :
    Queued completed (forget runs oldest) := by
  have hnodup := List.nodup_cons.1 h.nodup
  rw [h.forget_eq]
  refine ⟨hnodup.2, fun entry hentry => ?_, fun runID e hlookup hterminal => ?_⟩
  · have hne : entry.runID ≠ oldest.runID := fun heq =>
      hnodup.1 (heq ▸ List.mem_map_of_mem hentry)
    rw [AList.lookup_erase_ne hne]
    exact h.sound entry (List.mem_cons_of_mem oldest hentry)
  · obtain ⟨hne, hlookup⟩ := Table.lookup_erase_eq_some_iff.1 hlookup
    exact (List.mem_cons.1 (h.complete runID e hlookup hterminal)).resolve_left hne

theorem Queued.pruneHistory (h : Queued completed runs) :
    Queued (pruneHistory limit retention now completed runs).1
      (pruneHistory limit retention now completed runs).2 := by
  induction completed generalizing runs with
  | nil => exact h
  | cons oldest rest ih =>
    unfold Executor.pruneHistory
    dsimp only
    split
    · exact h
    · exact ih h.tail

theorem Queued.not_mem (h : Queued completed runs)
    (hrunning : ∀ e, runs.lookup runID = some e → e.state.isTerminal = false) :
    runID ∉ completed.map ExecutionCompletion.runID := by
  intro hmem
  obtain ⟨entry, hentry, rfl⟩ := List.mem_map.1 hmem
  obtain ⟨e, hlookup, hterminal, -⟩ := h.sound entry hentry
  rw [hrunning e hlookup] at hterminal
  cases hterminal

theorem Queued.insert (h : Queued completed runs)
    (hrunning : ∀ e', runs.lookup runID = some e' → e'.state.isTerminal = false)
    (he : e.state.isTerminal = false) : Queued completed (runs.insert runID e) := by
  have hnot := h.not_mem hrunning
  refine ⟨h.nodup, fun entry hentry => ?_, fun runID' e' hlookup hterminal => ?_⟩
  · have hne : entry.runID ≠ runID := fun heq => hnot (heq ▸ List.mem_map_of_mem hentry)
    rw [AList.lookup_insert_ne hne]
    exact h.sound entry hentry
  · obtain ⟨rfl, rfl⟩ | ⟨-, hlookup⟩ := Table.lookup_insert_eq_some_iff.1 hlookup
    · rw [he] at hterminal
      cases hterminal
    · exact h.complete runID' e' hlookup hterminal

theorem Queued.conclude (h : Queued completed runs)
    (hrunning : ∀ e', runs.lookup runID = some e' → e'.state.isTerminal = false)
    (he : e.state.isTerminal = true) :
    Queued (completed ++ [⟨runID, e.finishedAt⟩]) (runs.insert runID e) := by
  have hnot := h.not_mem hrunning
  refine ⟨?_, fun entry hentry => ?_, fun runID' e' hlookup hterminal => ?_⟩
  · rw [List.map_append, List.nodup_append]
    refine ⟨h.nodup, List.nodup_singleton _, fun a ha b hb hab => ?_⟩
    have haID : a = runID := hab.trans (List.mem_singleton.1 hb)
    exact hnot (haID ▸ ha)
  · rcases List.mem_append.1 hentry with hentry | hentry
    · have hne : entry.runID ≠ runID := fun heq => hnot (heq ▸ List.mem_map_of_mem hentry)
      rw [AList.lookup_insert_ne hne]
      exact h.sound entry hentry
    · cases List.mem_singleton.1 hentry
      exact ⟨e, AList.lookup_insert _, he, rfl⟩
  · rw [List.map_append, List.mem_append]
    obtain ⟨heq, -⟩ | ⟨-, hlookup⟩ := Table.lookup_insert_eq_some_iff.1 hlookup
    · exact .inr (List.mem_singleton.2 heq)
    · exact .inl (h.complete runID' e' hlookup hterminal)

theorem length_pruneHistory (hlimit : 0 ≤ limit) :
    ((pruneHistory limit retention now completed runs).1.length : Int) ≤ limit := by
  induction completed generalizing runs with
  | nil => exact hlimit
  | cons oldest rest ih =>
    unfold pruneHistory
    dsimp only
    split
    · next hkept => exact not_lt.1 fun hlt => hkept.1 ⟨hlimit, hlt⟩
    · exact ih

/-- What was pruned before need not be pruned again, also where entries came after it. -/
theorem pruneHistory_append {now' : Int} (hnow : now ≤ now')
    (completed tail : List ExecutionCompletion)
    (runs : AList fun _ : Bytes => Execution) :
    pruneHistory limit retention now' ((pruneHistory limit retention now completed runs).1 ++ tail)
      (pruneHistory limit retention now completed runs).2 =
    pruneHistory limit retention now' (completed ++ tail) runs := by
  induction completed generalizing runs with
  | nil => rfl
  | cons oldest rest ih =>
    by_cases hdue : (0 ≤ limit ∧ limit < (oldest :: rest).length) ∨
        (0 < retention ∧ retention ≤ now - oldest.finishedAt)
    · have hlater : ¬(¬(0 ≤ limit ∧ limit < (oldest :: (rest ++ tail)).length) ∧
          ¬(0 < retention ∧ retention ≤ now' - oldest.finishedAt)) := by
        simp only [List.length_cons, List.length_append] at hdue ⊢
        omega
      have hnow : pruneHistory limit retention now (oldest :: rest) runs =
          pruneHistory limit retention now rest (forget runs oldest) :=
        if_neg fun hkept => hdue.elim hkept.1 hkept.2
      rw [hnow, ih]
      exact (if_neg hlater).symm
    · have hkept :
          pruneHistory limit retention now (oldest :: rest) runs = (oldest :: rest, runs) :=
        if_pos (not_or.1 hdue)
      rw [hkept]

theorem forget_insert (e : Execution) {oldest : ExecutionCompletion} (hne : oldest.runID ≠ runID)
    (runs : AList fun _ : Bytes => Execution) :
    forget (runs.insert runID e) oldest = (forget runs oldest).insert runID e := by
  unfold forget
  rw [AList.lookup_insert_ne hne]
  split
  · split
    · exact Table.erase_insert_of_ne hne _
    · rfl
  · rfl

theorem pruneHistory_insert (e : Execution) (completed : List ExecutionCompletion)
    (runs : AList fun _ : Bytes => Execution)
    (hnot : runID ∉ completed.map ExecutionCompletion.runID) :
    pruneHistory limit retention now completed (runs.insert runID e) =
      ((pruneHistory limit retention now completed runs).1,
        (pruneHistory limit retention now completed runs).2.insert runID e) := by
  induction completed generalizing runs with
  | nil => rfl
  | cons oldest rest ih =>
    rw [List.map_cons, List.mem_cons, not_or] at hnot
    unfold pruneHistory
    dsimp only
    split
    · rfl
    · rw [forget_insert e (Ne.symm hnot.1), ih _ hnot.2]

theorem pruneHistory_append_insert {now' : Int} (hnow : now ≤ now') (e : Execution)
    (completed tail : List ExecutionCompletion) (runs : AList fun _ : Bytes => Execution)
    (hnot : runID ∉ completed.map ExecutionCompletion.runID) :
    pruneHistory limit retention now' ((pruneHistory limit retention now completed runs).1 ++ tail)
      ((pruneHistory limit retention now completed runs).2.insert runID e) =
    pruneHistory limit retention now' (completed ++ tail) (runs.insert runID e) := by
  have happend : pruneHistory limit retention now' ((pruneHistory limit retention now completed
      (runs.insert runID e)).1 ++ tail) _ = _ := pruneHistory_append hnow completed tail _
  rwa [pruneHistory_insert e completed runs hnot] at happend

end Queue

section Invariant

variable {cfg : Settings} {s s' : Server} {touch : Touch}

structure Server.Ledger (s : Server) : Prop where
  queued : Queued s.completed s.runs
  fresh : ∀ runID e, s.runs.lookup runID = some e → e.context < s.contexts

theorem isTerminal_of_running {runID : Bytes} {e : Execution}
    (hrunning : s.running runID = some e) :
    ∀ e', s.runs.lookup runID = some e' → e'.state.isTerminal = false := by
  obtain ⟨hlookup, hstate⟩ := running_eq_some.1 hrunning
  intro e' hlookup'
  cases hlookup.symm.trans hlookup'
  rw [hstate]
  rfl

theorem lookup_of_prune {now : Int} {completed : List ExecutionCompletion}
    {runs : AList fun _ : Bytes => Execution} {runID : Bytes} {e : Execution}
    (h : (cfg.prune now completed runs).2.lookup runID = some e) : runs.lookup runID = some e :=
  ((lookup_pruneHistory completed runs).1 h).1

theorem Server.Ledger.change (h : s.Ledger) (hchange : HistoryChange cfg s s' touch) :
    s'.Ledger := by
  cases hchange with
  | nothing hruns hcompleted hcontexts =>
    constructor
    · rw [hruns, hcompleted]
      exact h.queued
    · rw [hruns, hcontexts]
      exact h.fresh
  | awaits runID e hrunning hruns hcompleted hcontexts =>
    have hlookup := (running_eq_some.1 hrunning).1
    constructor
    · rw [hruns, hcompleted]
      exact h.queued.insert (isTerminal_of_running hrunning) rfl
    · rw [hruns, hcontexts]
      exact Table.forall_insert h.fresh (h.fresh runID e hlookup)
  | prunes now hpruned hcontexts =>
    obtain ⟨hcompleted, hruns⟩ := Prod.mk.inj hpruned
    constructor
    · rw [hruns, hcompleted]
      exact h.queued.pruneHistory
    · rw [hruns, hcontexts]
      exact fun runID e hlookup => h.fresh runID e (lookup_of_prune hlookup)
  | begins now runID e hnew hstate hcontext hcompleted hruns hcontexts =>
    have hpruned : ∀ runID e, (cfg.prune now s.completed s.runs).2.lookup runID = some e →
        e.context < s.contexts + 1 := fun runID e hlookup =>
      Nat.lt_succ_of_lt (h.fresh runID e (lookup_of_prune hlookup))
    constructor
    · rw [hruns, hcompleted]
      refine h.queued.pruneHistory.insert (fun e' he' => ?_) (by rw [hstate]; rfl)
      cases hnew.symm.trans he'
    · rw [hruns, hcontexts]
      exact Table.forall_insert hpruned (by omega)
  | settles now runID e state message hrunning hstate hpruned hcontexts =>
    obtain ⟨hcompleted, hruns⟩ := Prod.mk.inj hpruned
    have hlookup := (running_eq_some.1 hrunning).1
    constructor
    · rw [hruns, hcompleted]
      exact (h.queued.conclude (e := { e with state, message, finishedAt := now })
        (isTerminal_of_running hrunning) hstate).pruneHistory
    · rw [hruns, hcontexts]
      refine fun runID' e' hlookup' =>
        Table.forall_insert h.fresh ?_ runID' e' (lookup_of_prune hlookup')
      exact h.fresh runID e hlookup

theorem HistoryChange.length_le (hlimit : 0 ≤ cfg.historyLimit)
    (hchange : HistoryChange cfg s s' touch) (h : (s.completed.length : Int) ≤ cfg.historyLimit) :
    (s'.completed.length : Int) ≤ cfg.historyLimit := by
  cases hchange with
  | nothing hruns hcompleted hcontexts => exact hcompleted ▸ h
  | awaits runID e hrunning hruns hcompleted hcontexts => exact hcompleted ▸ h
  | prunes now hpruned hcontexts =>
    rw [(Prod.mk.inj hpruned).1]
    exact length_pruneHistory hlimit
  | begins now runID e hnew hstate hcontext hcompleted hruns hcontexts =>
    rw [hcompleted]
    exact length_pruneHistory hlimit
  | settles now runID e state message hrunning hstate hpruned hcontexts =>
    rw [(Prod.mk.inj hpruned).1]
    exact length_pruneHistory hlimit

def Server.Settled (s : Server) : Prop :=
  ∀ runID e, s.runs.lookup runID = some e → e.state ≠ .waitingCallback

theorem Server.Settled.change (h : s.Settled) (hchange : HistoryChange cfg s s' touch)
    (htouch : ∀ runID, touch ≠ .awaits runID) : s'.Settled := by
  unfold Server.Settled
  cases hchange with
  | nothing hruns hcompleted hcontexts =>
    rw [hruns]
    exact h
  | awaits runID e hrunning hruns hcompleted hcontexts => exact absurd rfl (htouch runID)
  | prunes now hpruned hcontexts =>
    rw [(Prod.mk.inj hpruned).2]
    exact fun runID e hlookup => h runID e (lookup_of_prune hlookup)
  | begins now runID e hnew hstate hcontext hcompleted hruns hcontexts =>
    rw [hruns]
    refine Table.forall_insert (fun runID e hlookup => h runID e (lookup_of_prune hlookup)) ?_
    rw [hstate]
    nofun
  | settles now runID e state message hrunning hstate hpruned hcontexts =>
    rw [(Prod.mk.inj hpruned).2]
    refine fun runID' e' hlookup => Table.forall_insert h ?_ runID' e' (lookup_of_prune hlookup)
    rintro rfl
    cases hstate

end Invariant

section Retention

variable {cfg : Settings} {s s' : Server} {touch : Touch} {runID : Bytes} {e : Execution}

/-- Where the step prunes the history, it takes no entry of the run. -/
def Touch.Retains (cfg : Settings) (runID : Bytes) : Touch → Prop
  | .prunes now completed _ =>
      ∀ entry ∈ dueHistory cfg.historyLimit cfg.historyRetention now completed, entry.runID ≠ runID
  | _ => True

instance (cfg : Settings) (runID : Bytes) : (touch : Touch) → Decidable (touch.Retains cfg runID)
  | .prunes now completed _ => inferInstanceAs (Decidable (∀ entry ∈
      dueHistory cfg.historyLimit cfg.historyRetention now completed, entry.runID ≠ runID))
  | .nothing | .awaits _ => .isTrue trivial

theorem Touch.Retains.lookup {now : Int} {completed : List ExecutionCompletion}
    {runs : AList fun _ : Bytes => Execution}
    (h : (Touch.prunes now completed runs).Retains cfg runID)
    (hlookup : runs.lookup runID = some e) :
    (cfg.prune now completed runs).2.lookup runID = some e :=
  (lookup_pruneHistory completed runs).2 ⟨hlookup, fun entry hentry hof => h entry hentry hof.1⟩

theorem lookup_prune_of_running {now : Int} {completed : List ExecutionCompletion}
    {runs : AList fun _ : Bytes => Execution} (hlookup : runs.lookup runID = some e)
    (hstate : e.state = .running) : (cfg.prune now completed runs).2.lookup runID = some e :=
  (lookup_pruneHistory completed runs).2 ⟨hlookup, fun _ _ hof => hof.2.1 hstate⟩

/-- An execution that is retained stays in memory, as it is once it does not run. -/
theorem HistoryChange.retains (hchange : HistoryChange cfg s s' touch)
    (hretains : touch.Retains cfg runID) (hlookup : s.runs.lookup runID = some e) :
    ∃ e', s'.runs.lookup runID = some e' ∧ (e.state ≠ .running → e' = e) := by
  cases hchange with
  | nothing hruns => exact ⟨e, hruns ▸ hlookup, fun _ => rfl⟩
  | awaits runID₁ e₁ hrunning hruns =>
    rw [hruns]
    by_cases heq : runID = runID₁
    · subst heq
      obtain ⟨hlookup₁, hstate⟩ := running_eq_some.1 hrunning
      cases hlookup.symm.trans hlookup₁
      exact ⟨_, AList.lookup_insert _, fun hidle => absurd hstate hidle⟩
    · exact ⟨e, (AList.lookup_insert_ne heq).trans hlookup, fun _ => rfl⟩
  | prunes now hpruned =>
    rw [(Prod.mk.inj hpruned).2]
    exact ⟨e, hretains.lookup hlookup, fun _ => rfl⟩
  | begins now runID₁ e₁ hnew hstate hcontext hcompleted hruns =>
    have hkept := hretains.lookup hlookup
    have hne : runID ≠ runID₁ := by
      rintro rfl
      cases hnew.symm.trans hkept
    rw [hruns]
    exact ⟨e, (AList.lookup_insert_ne hne).trans hkept, fun _ => rfl⟩
  | settles now runID₁ e₁ state message hrunning hstate hpruned =>
    rw [(Prod.mk.inj hpruned).2]
    by_cases heq : runID = runID₁
    · subst heq
      obtain ⟨hlookup₁, hrunning⟩ := running_eq_some.1 hrunning
      cases hlookup.symm.trans hlookup₁
      exact ⟨_, hretains.lookup (AList.lookup_insert _), fun hidle => absurd hrunning hidle⟩
    · exact ⟨e, hretains.lookup ((AList.lookup_insert_ne heq).trans hlookup), fun _ => rfl⟩

theorem HistoryChange.cancelled (hchange : HistoryChange cfg s s' touch) :
    s.cancelled ⊆ s'.cancelled := by
  cases hchange with
  | nothing hruns hcompleted hcontexts hcancelled => exact hcancelled
  | awaits runID e hrunning hruns hcompleted hcontexts hcancelled =>
    exact hcancelled ▸ List.subset_cons_self _ _
  | prunes now hpruned hcontexts hcancelled => exact hcancelled ▸ List.Subset.refl _
  | begins now runID e hnew hstate hcontext hcompleted hruns hcontexts hcancelled =>
    exact hcancelled ▸ List.Subset.refl _
  | settles now runID e state message hrunning hstate hpruned hcontexts hcancelled =>
    exact hcancelled ▸ List.subset_cons_self _ _

/-- An execution runs on or its context is cancelled. -/
theorem HistoryChange.running (hchange : HistoryChange cfg s s' touch)
    (hrunning : s.running runID = some e) :
    s'.running runID = some e ∨ e.context ∈ s'.cancelled := by
  obtain ⟨hlookup, hstate⟩ := running_eq_some.1 hrunning
  cases hchange with
  | nothing hruns =>
    rw [running_eq_some, hruns]
    exact .inl ⟨hlookup, hstate⟩
  | awaits runID₁ e₁ hrunning₁ hruns hcompleted hcontexts hcancelled =>
    rw [running_eq_some, hruns, hcancelled]
    by_cases heq : runID = runID₁
    · subst heq
      cases hrunning.symm.trans hrunning₁
      exact .inr List.mem_cons_self
    · exact .inl ⟨(AList.lookup_insert_ne heq).trans hlookup, hstate⟩
  | prunes now hpruned =>
    rw [running_eq_some, (Prod.mk.inj hpruned).2]
    exact .inl ⟨lookup_prune_of_running hlookup hstate, hstate⟩
  | begins now runID₁ e₁ hnew hstate₁ hcontext hcompleted hruns =>
    have hkept : (cfg.prune now s.completed s.runs).2.lookup runID = some e :=
      lookup_prune_of_running hlookup hstate
    have hne : runID ≠ runID₁ := by
      rintro rfl
      cases hnew.symm.trans hkept
    rw [running_eq_some, hruns]
    exact .inl ⟨(AList.lookup_insert_ne hne).trans hkept, hstate⟩
  | settles now runID₁ e₁ state message hrunning₁ hstate₁ hpruned hcontexts hcancelled =>
    rw [running_eq_some, (Prod.mk.inj hpruned).2, hcancelled]
    by_cases heq : runID = runID₁
    · subst heq
      cases hrunning.symm.trans hrunning₁
      exact .inr List.mem_cons_self
    · exact .inl ⟨lookup_prune_of_running ((AList.lookup_insert_ne heq).trans hlookup) hstate,
        hstate⟩

variable {inp : Input} {request : DispatchRequest} {shared : Shared}

theorem persist_begins (slots : Option Slots) :
    ∀ x ∈ (startExecution.persist cfg inp request shared slots).started, x.1 = request ∧
      ∃ e, (startExecution.persist cfg inp request shared slots).shared.server.running
        request.runId =
        some e ∧ e.context = x.2.1 := by
  unfold startExecution.persist
  split
  · exact fun x hx => by cases hx
  · intro x hx
    cases hx
    exact ⟨rfl, _, running_eq_some.2 ⟨AList.lookup_insert _, rfl⟩, rfl⟩

/-- A dispatch that starts a handler has not found the run, and the run is in memory afterwards. -/
theorem dispatch_begins (recovered : Bool) :
    ∀ x ∈ (dispatch cfg inp recovered request shared).started, x.1.runId = request.runId ∧
      (cfg.prune inp.now shared.server.completed shared.server.runs).2.lookup request.runId = none ∧
      ∃ e, (dispatch cfg inp recovered request shared).shared.server.running request.runId =
        some e ∧
        e.context = x.2.1 := by
  refine dispatch_cases (P := fun d => ∀ x ∈ d.started, x.1.runId = request.runId ∧
      (cfg.prune inp.now shared.server.completed shared.server.runs).2.lookup request.runId = none ∧
      ∃ e, d.shared.server.running request.runId = some e ∧ e.context = x.2.1) recovered
    (fun _ _ hx => by cases hx) (fun _ _ _ hx => by cases hx) fun hnew => ?_
  have hrun := timed_runId request recovered inp.arrivedAt
  generalize request.timed recovered inp.arrivedAt = timed at hrun
  refine startExecution_cases (P := fun d => ∀ x ∈ d.started, x.1.runId = request.runId ∧
      (cfg.prune inp.now shared.server.completed shared.server.runs).2.lookup request.runId = none ∧
      ∃ e, d.shared.server.running request.runId = some e ∧ e.context = x.2.1)
    (fun _ _ hx => by cases hx) fun slots x hx => ?_
  obtain ⟨hx, e, hrunning, hcontext⟩ := persist_begins slots x hx
  rw [hrun] at hrunning
  exact ⟨by rw [hx, hrun], hnew, e, hrunning, hcontext⟩

end Retention

section Bound

def Thread.handles (context : ℕ) : Thread → Bool
  | .handling _ c _ => c = context
  | _ => false

def Node.handles (node : Node) (context : ℕ) : Bool := node.threads.any (Thread.handles context)

/-- The number of executions in memory whose handler has returned, as soon as `finish` has seen to
it. -/
def Node.retained (node : Node) : ℕ :=
  node.server.runs.entries.countP fun entry =>
    entry.2.state ≠ .running && !node.handles entry.2.context

def Node.Keeps (node node' : Node) : Prop :=
  ∀ runID e, node.server.runs.lookup runID = some e → node.handles e.context = true →
    ∃ e', node'.server.runs.lookup runID = some e' ∧ e'.context = e.context

/-- No handler that the step has to do with returns `ErrAwaitingCallback` for an execution that
is running. -/
def Node.Settles (cfg : Settings) (node : Node) (l : Label) : Prop :=
  ∀ runID, l.touch cfg node ≠ .awaits runID

def Machine.Settles (cfg : Settings) (m : Machine) (l : Label) : Prop :=
  ∀ node ∈ m.node, node.Settles cfg l

instance (touch : Touch) : Decidable (∀ runID, touch ≠ .awaits runID) :=
  match touch with
  | .nothing => isTrue nofun
  | .awaits runID => isFalse fun h => h runID rfl
  | .prunes _ _ _ => isTrue nofun

instance (cfg : Settings) (node : Node) (l : Label) : Decidable (node.Settles cfg l) :=
  inferInstanceAs (Decidable (∀ runID, l.touch cfg node ≠ .awaits runID))

instance (cfg : Settings) (m : Machine) (l : Label) : Decidable (Machine.Settles cfg m l) :=
  inferInstanceAs (Decidable (∀ node ∈ m.node, node.Settles cfg l))

def Touch.Spares (cfg : Settings) (p : ℕ → Prop) : Touch → Prop
  | .prunes now completed runs =>
      ∀ runID e, runs.lookup runID = some e → p e.context →
        ∀ entry ∈ dueHistory cfg.historyLimit cfg.historyRetention now completed,
          ¬entry.IsOf runID e
  | _ => True

/-- Of the entries of the queue that the step prunes, its own among them, none was made for an
execution whose handler has not returned. -/
def Node.Spares (cfg : Settings) (node : Node) (l : Label) : Prop :=
  (l.touch cfg node).Spares cfg fun context => node.handles context = true

variable {cfg : Settings} {s s' : Server} {touch : Touch} {node node' : Node} {m m' : Machine}

theorem Server.Ledger.countP_le (h : s.Ledger) (hsettled : s.Settled)
    (p : (Σ _ : Bytes, Execution) → Bool) (hp : ∀ x, p x = true → x.2.state ≠ .running) :
    s.runs.entries.countP p ≤ s.completed.length := by
  have hnodup : ((s.runs.entries.filter p).map Sigma.fst).Nodup :=
    List.Nodup.sublist (List.filter_sublist.map Sigma.fst) s.runs.nodupKeys
  have hsubset : (s.runs.entries.filter p).map Sigma.fst ⊆
      s.completed.map ExecutionCompletion.runID := by
    intro runID hmem
    obtain ⟨⟨_, e⟩, hentry, rfl⟩ := List.mem_map.1 hmem
    obtain ⟨hentry, hstate⟩ := List.mem_filter.1 hentry
    have hlookup := AList.mem_lookup_iff.2 hentry
    refine h.queued.complete _ e hlookup ?_
    have hrunning := hp _ hstate
    have hwaiting := hsettled _ e hlookup
    cases he : e.state with
    | running => exact absurd he hrunning
    | waitingCallback => exact absurd he hwaiting
    | _ => rfl
  rw [List.countP_eq_length_filter]
  simpa using (List.subperm_of_subset hnodup hsubset).length_le

theorem prune_keeps_iff (now : Int) (completed : List ExecutionCompletion)
    (runs : AList fun _ : Bytes => Execution) (p : ℕ → Prop) :
    (∀ runID e, runs.lookup runID = some e → p e.context →
      ∃ e', (cfg.prune now completed runs).2.lookup runID = some e' ∧ e'.context = e.context) ↔
    ∀ runID e, runs.lookup runID = some e → p e.context →
      ∀ entry ∈ dueHistory cfg.historyLimit cfg.historyRetention now completed,
        ¬entry.IsOf runID e := by
  refine forall₄_congr fun runID e hlookup hp => ⟨?_, fun hdue => ?_⟩
  · rintro ⟨e', hkept, -⟩
    obtain ⟨hlookup', hdue⟩ := (lookup_pruneHistory completed runs).1 hkept
    cases hlookup.symm.trans hlookup'
    exact hdue
  · exact ⟨e, (lookup_pruneHistory completed runs).2 ⟨hlookup, hdue⟩, rfl⟩

theorem forall_context_insert {runs : AList fun _ : Bytes => Execution} {runID : Bytes}
    {e : Execution} (hlookup : runs.lookup runID = some e) (e₁ : Execution)
    (hcontext : e₁.context = e.context) (r : Bytes → ℕ → Prop) :
    (∀ runID' e', runs.lookup runID' = some e' → r runID' e'.context) ↔
      ∀ runID' e', (runs.insert runID e₁).lookup runID' = some e' → r runID' e'.context := by
  refine forall_congr' fun runID' => ?_
  by_cases heq : runID' = runID
  · subst heq
    simp [hlookup, hcontext]
  · rw [AList.lookup_insert_ne heq]

theorem HistoryChange.keeps_iff (hchange : HistoryChange cfg s s' touch) (h : s.Ledger)
    (p : ℕ → Prop) :
    (∀ runID e, s.runs.lookup runID = some e → p e.context →
      ∃ e', s'.runs.lookup runID = some e' ∧ e'.context = e.context) ↔ touch.Spares cfg p := by
  cases hchange with
  | nothing hruns hcompleted hcontexts =>
    exact iff_of_true (fun runID e hlookup _ => ⟨e, hruns ▸ hlookup, rfl⟩) trivial
  | awaits runID e hrunning hruns hcompleted hcontexts =>
    refine iff_of_true (fun runID' e' hlookup _ => ?_) trivial
    rw [hruns]
    by_cases heq : runID' = runID
    · subst heq
      cases hlookup.symm.trans (running_eq_some.1 hrunning).1
      exact ⟨_, AList.lookup_insert _, rfl⟩
    · exact ⟨e', (AList.lookup_insert_ne heq).trans hlookup, rfl⟩
  | prunes now hpruned hcontexts =>
    rw [(Prod.mk.inj hpruned).2]
    exact prune_keeps_iff now s.completed s.runs p
  | begins now runID e hnew hstate hcontext hcompleted hruns hcontexts =>
    refine Iff.trans ?_ (prune_keeps_iff now s.completed s.runs p)
    rw [hruns]
    refine forall₄_congr fun runID' e' hlookup _ => ?_
    by_cases heq : runID' = runID
    · -- The run was pruned and begins again, in a context of its own.
      subst heq
      have hne : e.context ≠ e'.context := by
        have := h.fresh runID' e' hlookup
        omega
      simp [hnew, hne]
    · rw [AList.lookup_insert_ne heq]
  | settles now runID e state message hrunning hstate hpruned hcontexts =>
    refine Iff.trans ?_ (prune_keeps_iff now _ _ p)
    rw [← hpruned]
    exact forall_context_insert (running_eq_some.1 hrunning).1
      { e with state, message, finishedAt := now } rfl fun runID' context =>
        p context → ∃ e', s'.runs.lookup runID' = some e' ∧ e'.context = context

theorem step_history {l : Label} (hs : m.step cfg l = some m') (hnode : m.node = some node)
    (hnode' : m'.node = some node') :
    HistoryChange cfg node.server node'.server (l.touch cfg node) := by
  cases Machine.step_cases hs with
  | start inp hnone => cases hnone.symm.trans hnode
  | stop node₁ hnode₁ => cases hnode'
  | powerLoss kept garbage hkept => cases hnode'
  | act node₁ o others hnode₁ hacts =>
    cases hnode.symm.trans hnode₁
    obtain ⟨-, rfl⟩ := Machine.apply_node hnode'
    exact acts_history hacts

/-- What holds of a new server and is kept by the steps of a process holds of all its servers. -/
theorem server_invariant {ok : Machine → Label → Prop} {p : Server → Prop}
    (hinitial : ∀ store, p (.initial store))
    (hstep : ∀ m l node s', ok m l → m.node = some node → p node.server →
      HistoryChange cfg node.server s' (l.touch cfg node) → p s')
    (hm : Machine.Reachable cfg ok m) (hnode : m.node = some node) : p node.server := by
  induction hm generalizing node with
  | init => cases hnode
  | @step m m' l hm hs hok ih =>
    cases hold : m.node with
    | some node₀ => exact hstep m l node₀ _ hok hold (ih hold) (step_history hs hold hnode)
    | none =>
      cases Machine.step_cases hs with
      | start inp hnone =>
        unfold Machine.start at hnode
        split at hnode
        · cases hnode
          exact hinitial none
        · split at hnode
          · rw [hold] at hnode
            cases hnode
          · cases hnode
            exact hinitial _
      | stop node₁ hnode₁ => cases hnode
      | powerLoss kept garbage hkept => cases hnode
      | act node₁ o others hnode₁ hacts => cases hold.symm.trans hnode₁

theorem ledger {ok : Machine → Label → Prop} (hm : Machine.Reachable cfg ok m)
    (hnode : m.node = some node) : node.server.Ledger := by
  refine server_invariant (fun store => ⟨queued_empty, fun runID e h => ?_⟩)
    (fun _ _ _ _ _ _ h hchange => h.change hchange) hm hnode
  rw [Server.initial, AList.lookup_empty] at h
  cases h

end Bound

/-- The executions in memory whose handler has returned are within the limit in every run in which
no handler returns `ErrAwaitingCallback` for an execution that is running; and a step keeps the
executions whose handler has not returned exactly where it prunes none of them. -/
theorem history_bounded (cfg : Settings) (hlimit : 0 ≤ cfg.historyLimit) :
    (∀ m node, Machine.Reachable cfg (Machine.Settles cfg) m → m.node = some node →
      (node.retained : Int) ≤ cfg.historyLimit) ∧
    ∀ m l m' node node', Machine.Reachable cfg (fun _ _ => True) m → m.step cfg l = some m' →
      m.node = some node → m'.node = some node' → (node.Keeps node' ↔ node.Spares cfg l) := by
  constructor
  · intro m node hm hnode
    have hlength : (node.server.completed.length : Int) ≤ cfg.historyLimit :=
      server_invariant (p := fun s => (s.completed.length : Int) ≤ cfg.historyLimit)
        (fun _ => hlimit) (fun _ _ _ _ _ _ h hchange => hchange.length_le hlimit h) hm hnode
    have hsettled : node.server.Settled := by
      refine server_invariant (p := Server.Settled) (fun store runID e h => ?_)
        (fun m l node s' hok hold h hchange => h.change hchange (hok node hold)) hm hnode
      rw [Server.initial, AList.lookup_empty] at h
      cases h
    have hcount : node.retained ≤ node.server.completed.length :=
      (ledger hm hnode).countP_le hsettled _ fun x hx => by simp at hx; exact hx.1
    omega
  · intro m l m' node node' hm hs hnode hnode'
    exact (step_history hs hnode hnode').keeps_iff (ledger hm hnode)
      fun context => node.handles context = true

section Sample

def forgetfulSettings : Settings := { plainSettings none with historyLimit := 1 }

def scriptRequest : DispatchRequest :=
  { dockerRequest with
    runId := text "8", handler := text "__script__", scriptLanguage := text "bash"
    externalExecutionId := text "8" }

def handledRun (request : DispatchRequest) (result : HandlerResult) : List Label :=
  [.dispatch request { createdAt := newYear },
    .advance 0 { createdAt := newYear, result := result },
    .advance 0 { createdAt := newYear }]

theorem history_bounded_replaced :
    0 ≤ forgetfulSettings.historyLimit ∧ ∃ m node,
      Machine.Reachable forgetfulSettings (Machine.Settles forgetfulSettings) m ∧
      m.node = some node ∧ .returned dockerRequest .succeeded ∈ node.log ∧
      .returned scriptRequest .succeeded ∈ node.log ∧ node.retained = 1 ∧
      (node.retained : Int) ≤ forgetfulSettings.historyLimit := by
  have hlimit : 0 ≤ forgetfulSettings.historyLimit := by decide
  have hrun : ((Machine.init.runWhile forgetfulSettings (Machine.Settles forgetfulSettings)
      (.start { createdAt := newYear } ::
        handledRun dockerRequest .succeeded ++ .advance 0 { createdAt := newYear } ::
          .advance 0 { createdAt := newYear } :: handledRun scriptRequest .succeeded ++
            [.advance 0 { createdAt := newYear }])).bind fun m => m.node.map fun node =>
      (decide (.returned dockerRequest .succeeded ∈ node.log),
        decide (.returned scriptRequest .succeeded ∈ node.log), node.retained)) =
      some (true, true, 1) := by
    decide +kernel
  obtain ⟨m, hm, hrun⟩ := Option.bind_eq_some_iff.1 hrun
  obtain ⟨node, hnode, hfacts⟩ := Option.map_eq_some_iff.1 hrun
  simp only [Prod.mk.injEq, decide_eq_true_eq] at hfacts
  have hreachable := Machine.Reachable.init.runWhile hm
  exact ⟨hlimit, m, node, hreachable, hnode, hfacts.1, hfacts.2.1, hfacts.2.2,
    (history_bounded forgetfulSettings hlimit).1 m node hreachable hnode⟩

/-- Two executions await their callbacks, and both stay in memory. Two executions are cancelled
while their handlers run, and the second takes the place of the first. -/
theorem history_exceeded :
    (∃ m node, Machine.Reachable forgetfulSettings (fun _ _ => True) m ∧ m.node = some node ∧
      node.threads = [] ∧ forgetfulSettings.historyLimit < node.retained) ∧
    ∃ m l m' node node' e, Machine.Reachable forgetfulSettings (fun _ _ => True) m ∧
      m.step forgetfulSettings l = some m' ∧ m.node = some node ∧ m'.node = some node' ∧
      node.server.runs.lookup dockerRequest.runId = some e ∧ node'.handles e.context = true ∧
      node'.server.runs.lookup dockerRequest.runId = none := by
  constructor
  · have hrun : ((Machine.init.run forgetfulSettings (.start { createdAt := newYear } ::
        handledRun dockerRequest .awaitingCallback ++
          handledRun scriptRequest .awaitingCallback)).bind fun m => m.node.map fun node =>
        (node.threads.isEmpty, node.retained)) = some (true, 2) := by
      decide +kernel
    obtain ⟨m, hm, hrun⟩ := Option.bind_eq_some_iff.1 hrun
    obtain ⟨node, hnode, hfacts⟩ := Option.map_eq_some_iff.1 hrun
    simp only [Prod.mk.injEq, List.isEmpty_iff] at hfacts
    refine ⟨m, node, Machine.Reachable.init.run hm, hnode, hfacts.1, ?_⟩
    rw [hfacts.2]
    decide
  · have hrun : ((Machine.init.run forgetfulSettings [.start { createdAt := newYear },
        .dispatch dockerRequest { createdAt := newYear },
        .dispatch scriptRequest { createdAt := newYear },
        .cancel ⟨dockerRequest.runId, [], [], [], []⟩ { createdAt := newYear }]).bind fun m =>
        (m.step forgetfulSettings (.cancel ⟨scriptRequest.runId, [], [], [], []⟩
          { createdAt := newYear })).bind fun m' => m.node.bind fun node =>
            m'.node.bind fun node' =>
        (node.server.runs.lookup dockerRequest.runId).map fun e =>
          (node'.handles e.context, node'.server.runs.lookup dockerRequest.runId)) =
        some (true, none) := by
      decide +kernel
    obtain ⟨m, hm, hrun⟩ := Option.bind_eq_some_iff.1 hrun
    obtain ⟨m', hs, hrun⟩ := Option.bind_eq_some_iff.1 hrun
    obtain ⟨node, hnode, hrun⟩ := Option.bind_eq_some_iff.1 hrun
    obtain ⟨node', hnode', hrun⟩ := Option.bind_eq_some_iff.1 hrun
    obtain ⟨e, he, hfacts⟩ := Option.map_eq_some_iff.1 hrun
    exact ⟨m, _, m', node, node', e, Machine.Reachable.init.run hm, hs, hnode, hnode', he,
      congrArg Prod.fst hfacts, congrArg Prod.snd hfacts⟩

end Sample

end GoScheduler.Executor
