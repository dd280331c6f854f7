import GoScheduler.Executor.CancelCommands
import GoScheduler.Executor.History
import GoScheduler.Executor.RecoveredRuns

/-! Cancellation against dispatch, within one process. An execution that was cancelled stays
in memory, where a later dispatch of the run finds it, until the history is pruned. -/
namespace GoScheduler.Executor

open Process

section Begins

variable {cfg : Settings} {inp : Input} {s : Shared} {request : DispatchRequest}

theorem dispatchTouch_of_started {recovered : Bool} {x : DispatchRequest × ℕ × Option Slots}
    (hx : x ∈ (dispatch cfg inp recovered request s).started) :
    dispatchTouch cfg inp request s.server =
      .prunes inp.now s.server.completed s.server.runs := by
  unfold dispatch at hx
  unfold dispatchTouch
  refine if_neg fun hrefused => ?_
  repeat' split at hx
  all_goals first
    | cases hx
    | simp_all

variable {r : DispatchRequest} {c : ℕ} {b : Bool}

theorem dispatched_begins {again : Bool}
    (he : .started r c b ∈ (dispatch cfg inp again request s).events again) :
    ((dispatchTouch cfg inp request s.server).Retains cfg r.runId →
      s.server.runs.lookup r.runId = none) ∧
    ∃ e, (dispatch cfg inp again request s).shared.server.running r.runId = some e ∧
      e.context = c := by
  unfold Dispatched.events at he
  obtain ⟨x, hx, heq⟩ := List.mem_map.1 he
  cases heq
  have hstarted := Option.mem_toList.1 hx
  obtain ⟨hrun, hnew, e, hrunning, hcontext⟩ := dispatch_begins _ x hstarted
  rw [hrun, dispatchTouch_of_started hstarted]
  refine ⟨fun hretains => ?_, e, hrunning, hcontext⟩
  refine Option.eq_none_iff_forall_not_mem.2 fun e hlookup => ?_
  cases hnew.symm.trans (hretains.lookup hlookup)

theorem acts_begins {node : Node} {disk : Disk} {l : Label} {o : Outcome} {others : List Thread}
    (hacts : Machine.Acts cfg node disk l o others) (he : .started r c b ∈ o.events) :
    ((l.touch cfg node).Retains cfg r.runId → node.server.runs.lookup r.runId = none) ∧
      ∃ e, o.shared.server.running r.runId = some e ∧ e.context = c := by
  cases hacts with
  | dispatch request inp =>
    exact dispatched_begins (s := ⟨node.server, disk⟩) ((List.mem_cons.1 he).resolve_left nofun)
  | cancel request inp =>
    unfold Machine.receiveCancel at he
    split at he <;> simp at he
  | drain => cases he
  | drainExpired => cases he
  | deliver inp =>
    unfold Machine.deliver at he
    repeat' split at he
    all_goals cases he
  | advance i inp thread hthread =>
    obtain ⟨rfl, completed, request, todo, rfl, -, -⟩ := step_events cfg inp _ thread _ he
    simp only [Label.touch, hthread, Thread.touch, Thread.step, recover] at he ⊢
    cases hstore : node.server.store with
    | none =>
      rw [hstore] at he
      cases he
    | some store =>
      simp only [hstore, Option.isNone_some, Bool.false_eq_true, false_or] at he ⊢
      by_cases hskip : request.runId ∈ completed ∨ isExternallyRecoverable request = false
      · rw [if_pos hskip] at he
        cases he
      · rw [if_neg hskip] at he ⊢
        rw [if_neg hskip]
        split at he
        · cases he
        · exact dispatched_begins (s := ⟨node.server, disk⟩) he

end Begins

section Answers

variable (cfg : Settings) (inp : Input) (s : Shared)

structure Outcome.Aside (o : Outcome) (p : CancelRequest → Prop) : Prop where
  received : ∀ q, .received q ∉ o.events
  accepted : ∀ q, .answered q (.ok true) ∈ o.events → p q
  cancelling : ∀ q known, .cancelling q known ∉ o.threads

theorem thread_aside (thread : Thread) (h : ∀ q known, thread ≠ .cancelling q known) :
    (thread.step cfg inp s).Aside fun _ => False := by
  cases thread with
  | cancelling q known => exact absurd rfl (h q known)
  | handling request context slots => constructor <;> simp [Thread.step]
  | finishing request result =>
    simp only [Thread.step, finish]
    repeat' split
    all_goals constructor <;> simp
  | awaiting request => constructor <;> simp [Thread.step]
  | saving request record =>
    simp only [Thread.step]
    split
    all_goals constructor <;> simp
  | clearing request record =>
    simp only [Thread.step]
    split
    all_goals constructor <;> simp
  | unclean request record => constructor <;> simp [Thread.step]
  | closing request record persistence =>
    simp only [Thread.step, close, transition]
    repeat' split
    all_goals constructor <;> simp
  | reporting record attempt =>
    simp only [Thread.step, report]
    repeat' split
    all_goals constructor <;> simp
  | refusing request refusal => constructor <;> simp [Thread.step]
  | delivering record =>
    simp only [Thread.step]
    split
    all_goals constructor <;> simp
  | delivered record => constructor <;> simp [Thread.step]
  | recovering recovery =>
    simp only [Thread.step, recover, reconcile, reconcile.persist, Dispatched.thread,
      Dispatched.events]
    repeat' split
    all_goals constructor <;> simp [exit]

theorem cancelling_aside (q : CancelRequest) (known : Bool) :
    ((Thread.cancelling q known).step cfg inp s).Aside fun q' => q' = q := by
  simp only [Thread.step, answerCancel, deletePersistedExecution]
  repeat' split
  all_goals constructor <;> simp

end Answers

section Runs

variable {cfg : Settings} {m m' : Machine} {node : Node} {l : Label}

def Server.Finds (s : Server) (runID : Bytes) : Label → Prop
  | .cancel request _ => request.runId = runID → (s.runs.lookup runID).isSome = true
  | _ => True

/-- The step prunes no entry of the run, and if it is a cancel request for the run, then the run
is in memory. -/
def Held (cfg : Settings) (runID : Bytes) (m : Machine) (l : Label) : Prop :=
  ∀ node ∈ m.node, (l.touch cfg node).Retains cfg runID ∧ node.server.Finds runID l

instance (s : Server) (runID : Bytes) : (l : Label) → Decidable (s.Finds runID l)
  | .cancel request _ => inferInstanceAs
      (Decidable (request.runId = runID → (s.runs.lookup runID).isSome = true))
  | .start _ | .stop | .powerLoss _ _ | .dispatch _ _ | .drain | .drainExpired | .deliver _
  | .advance _ _ => .isTrue trivial

instance (runID : Bytes) (m : Machine) (l : Label) : Decidable (Held cfg runID m l) :=
  inferInstanceAs (Decidable (∀ node ∈ m.node,
    (l.touch cfg node).Retains cfg runID ∧ node.server.Finds runID l))

/-- `Cancel` leaves no execution of its run running. -/
theorem cancelInMemory_running (inp : Input) (request : CancelRequest) (server : Server) :
    (cancelInMemory cfg inp request server).2.running request.runId = none := by
  refine Option.eq_none_iff_forall_not_mem.2 fun e he => ?_
  obtain ⟨hlookup, hstate⟩ := running_eq_some.1 he
  unfold cancelInMemory at hlookup
  split at hlookup
  · next current hcurrent =>
    split at hlookup
    · have hsettled := (lookup_pruneHistory _ _).1 hlookup
      rw [AList.lookup_insert] at hsettled
      cases hsettled.1
      cases hstate
    · next hidle =>
      cases hcurrent.symm.trans hlookup
      exact hidle hstate
  · next hnone => cases hnone.symm.trans hlookup

theorem acts_aside {disk : Disk} {o : Outcome} {others : List Thread}
    (hacts : Machine.Acts cfg node disk l o others) (hl : ∀ request inp, l ≠ .cancel request inp) :
    o.Aside fun q => ∃ known, .cancelling q known ∈ node.threads := by
  cases hacts with
  | cancel request inp => exact absurd rfl (hl request inp)
  | dispatch request inp =>
    constructor <;> simp [Machine.receiveDispatch, Dispatched.events, Dispatched.thread]
  | drain => constructor <;> simp
  | drainExpired => constructor <;> simp
  | deliver inp =>
    unfold Machine.deliver
    repeat' split
    all_goals constructor <;> simp
  | advance i inp thread hthread =>
    by_cases hcancel : ∃ q known, thread = .cancelling q known
    · obtain ⟨q, known, rfl⟩ := hcancel
      have haside := cancelling_aside cfg inp ⟨node.server, disk⟩ q known
      refine ⟨haside.received, fun q' hq' => ⟨known, ?_⟩, haside.cancelling⟩
      rw [haside.accepted q' hq']
      exact List.mem_of_getElem? hthread
    · have hother : ∀ q known, thread ≠ .cancelling q known :=
        fun q known heq => hcancel ⟨q, known, heq⟩
      have haside := thread_aside cfg inp ⟨node.server, disk⟩ thread hother
      exact ⟨haside.received, fun q hq => (haside.accepted q hq).elim, haside.cancelling⟩

/-- What a process keeps to, as long as its steps hold the run. -/
structure Guarded (runID : Bytes) (node : Node) : Prop where
  -- A handler whose context is not cancelled is the one of an execution that runs.
  started : ∀ r c b, .started r c b ∈ node.log →
    c ∈ node.server.cancelled ∨ ∃ e, node.server.running r.runId = some e ∧ e.context = c
  -- Once a cancel request for the run was received, the run is in memory and does not run.
  received : ∀ q, .received q ∈ node.log → q.runId = runID → runID ≠ [] →
    ∃ e, node.server.runs.lookup runID = some e ∧ e.state ≠ .running
  accepted : ∀ q, .answered q (.ok true) ∈ node.log → .received q ∈ node.log ∧ q.runId ≠ []
  cancelling : ∀ q known, .cancelling q known ∈ node.threads →
    .received q ∈ node.log ∧ q.runId ≠ []

variable {runID : Bytes} {disk : Disk} {o : Outcome} {others : List Thread}

theorem Guarded.started_act (h : Guarded runID node)
    (hacts : Machine.Acts cfg node disk l o others) {r : DispatchRequest} {c : ℕ} {b : Bool}
    (hin : .started r c b ∈ o.events ++ node.log) :
    c ∈ o.shared.server.cancelled ∨
      ∃ e, o.shared.server.running r.runId = some e ∧ e.context = c := by
  have hchange := acts_history hacts
  rcases List.mem_append.1 hin with hnew | hold
  · exact .inr (acts_begins hacts hnew).2
  · rcases h.started r c b hold with hc | ⟨e, he, rfl⟩
    · exact .inl (hchange.cancelled hc)
    · exact (hchange.running he).symm.imp_right fun he' => ⟨e, he', rfl⟩

theorem Guarded.idle_act (h : Guarded runID node) (hacts : Machine.Acts cfg node disk l o others)
    (hretains : (l.touch cfg node).Retains cfg runID) {q : CancelRequest}
    (hq : .received q ∈ node.log) (hrun : q.runId = runID) (hne : runID ≠ []) :
    ∃ e, o.shared.server.runs.lookup runID = some e ∧ e.state ≠ .running := by
  obtain ⟨e, he, hstate⟩ := h.received q hq hrun hne
  obtain ⟨e', he', hsame⟩ := (acts_history hacts).retains hretains he
  exact ⟨e', he', hsame hstate ▸ hstate⟩

/-- A cancel request that finds the run leaves it in memory, and not running. -/
theorem receiveCancel_idles {request : CancelRequest} {inp : Input}
    (hretains : ((Label.cancel request inp).touch cfg node).Retains cfg request.runId)
    (hfound : (node.server.runs.lookup request.runId).isSome = true) (hne : request.runId ≠ []) :
    ∃ e, (Machine.receiveCancel cfg ⟨node.server, disk⟩ request inp).shared.server.runs.lookup
      request.runId = some e ∧ e.state ≠ .running := by
  simp only [Label.touch, if_neg hne] at hretains
  rw [Machine.receiveCancel, if_neg hne]
  obtain ⟨e, he⟩ := Option.isSome_iff_exists.1 hfound
  obtain ⟨e', he', -⟩ := (cancelInMemory_history request node.server).retains hretains he
  refine ⟨e', he', fun hrunning => ?_⟩
  cases (cancelInMemory_running inp request node.server).symm.trans
    (running_eq_some.2 ⟨he', hrunning⟩)

theorem Guarded.cancel (h : Guarded runID node) {request : CancelRequest} {inp : Input}
    (hacts : Machine.Acts cfg node disk (.cancel request inp) o others)
    (hretains : ((Label.cancel request inp).touch cfg node).Retains cfg runID)
    (hfinds : node.server.Finds runID (.cancel request inp)) :
    Guarded runID ⟨o.shared.server, o.threads ++ others, o.events ++ node.log⟩ := by
  have hmem : ∀ event ∈ node.log, event ∈ o.events ++ node.log :=
    fun event => List.mem_append_right o.events
  have hidle : ∀ q, .received q ∈ node.log → q.runId = runID → runID ≠ [] →
      ∃ e, o.shared.server.runs.lookup runID = some e ∧ e.state ≠ .running :=
    fun q => h.idle_act hacts hretains
  refine ⟨fun r c b => h.started_act hacts, ?_, ?_, ?_⟩
  all_goals cases hacts
  · rintro q hq rfl hne
    rcases List.mem_append.1 hq with hnew | hold
    · have hq' : q = request := by
        unfold Machine.receiveCancel at hnew
        split at hnew <;> simpa using hnew
      subst hq'
      exact receiveCancel_idles hretains (hfinds rfl) hne
    · exact hidle q hold rfl hne
  · intro q hq
    have hold : .answered q (.ok true) ∈ node.log := by
      refine (List.mem_append.1 hq).resolve_left fun hnew => ?_
      unfold Machine.receiveCancel at hnew
      split at hnew <;> simp at hnew
    exact (h.accepted q hold).imp_left (hmem _)
  · intro q known hq
    unfold Machine.receiveCancel at hq ⊢
    split at hq
    · exact (h.cancelling q known hq).imp_left (List.mem_append_right _)
    · next hne =>
      rw [if_neg hne]
      rcases List.mem_cons.1 hq with hnew | hold
      · cases hnew
        exact ⟨List.mem_cons_self, hne⟩
      · exact (h.cancelling q known hold).imp_left (List.mem_append_right _)

theorem Guarded.act (h : Guarded runID node) (hacts : Machine.Acts cfg node disk l o others)
    (hretains : (l.touch cfg node).Retains cfg runID) (hfinds : node.server.Finds runID l) :
    Guarded runID ⟨o.shared.server, o.threads ++ others, o.events ++ node.log⟩ := by
  by_cases hl : ∃ request inp, l = .cancel request inp
  · obtain ⟨request, inp, rfl⟩ := hl
    exact h.cancel hacts hretains hfinds
  · have haside := acts_aside hacts fun request inp heq => hl ⟨request, inp, heq⟩
    have hmem : ∀ event ∈ node.log, event ∈ o.events ++ node.log :=
      fun event => List.mem_append_right o.events
    refine ⟨fun r c b => h.started_act hacts, fun q hq => ?_, fun q hq => ?_, fun q known hq => ?_⟩
    · exact h.idle_act hacts hretains ((List.mem_append.1 hq).resolve_left (haside.received q))
    · rcases List.mem_append.1 hq with hnew | hold
      · obtain ⟨known, hthread⟩ := haside.accepted q hnew
        exact (h.cancelling q known hthread).imp_left (hmem _)
      · exact (h.accepted q hold).imp_left (hmem _)
    · have hold := (List.mem_append.1 hq).resolve_left (haside.cancelling q known)
      exact (h.cancelling q known (hacts.others hold)).imp_left (hmem _)

theorem guarded_initial (store : Option FileCompletionStore) {threads : List Thread}
    (h : ∀ q known, .cancelling q known ∉ threads) : Guarded runID ⟨.initial store, threads, []⟩ :=
  ⟨fun _ _ _ hin => (by cases hin), fun _ hin => (by cases hin), fun _ hin => (by cases hin),
    fun q known hin => absurd hin (h q known)⟩

theorem guarded_start {inp : Input} (h : (m.start cfg inp).node = some node) (hm : m.node = none) :
    Guarded runID node := by
  unfold Machine.start at h
  split at h
  · cases h
    exact guarded_initial none fun q known hin => by cases hin
  · split at h
    · rw [hm] at h
      cases h
    · cases h
      exact guarded_initial _ fun q known hin => by simp at hin

theorem guarded (hm : Machine.Reachable cfg (Held cfg runID) m) :
    ∀ node, m.node = some node → Guarded runID node := by
  induction hm with
  | init => exact fun node h => by cases h
  | @step m m' l hm hs hheld ih =>
    intro node' hnode'
    cases Machine.step_cases hs with
    | start inp hnode => exact guarded_start hnode' hnode
    | stop => cases hnode'
    | powerLoss => cases hnode'
    | act node o others hnode hacts =>
      obtain ⟨-, rfl⟩ := Machine.apply_node hnode'
      obtain ⟨hretains, hfinds⟩ := hheld node hnode
      exact (ih node hnode).act hacts hretains hfinds

/-- What holds once a cancel request was accepted: every handler of its run that was started
has had its context cancelled, and no step starts another. -/
theorem cancelled_run_stays (cfg : Settings) (m : Machine) (node : Node) (q : CancelRequest)
    (hm : Machine.Reachable cfg (Held cfg q.runId) m) (hnode : m.node = some node)
    (haccepted : .answered q (.ok true) ∈ node.log) :
    (∀ r c b, .started r c b ∈ node.log → r.runId = q.runId → c ∈ node.server.cancelled) ∧
      ∀ l m' node', m.step cfg l = some m' → Held cfg q.runId m l → m'.node = some node' →
        ∀ r c b, .started r c b ∈ node'.log → r.runId = q.runId → .started r c b ∈ node.log := by
  have h := guarded hm node hnode
  obtain ⟨hreceived, hrun⟩ := h.accepted q haccepted
  obtain ⟨e, he, hstate⟩ := h.received q hreceived rfl hrun
  refine ⟨fun r c b hin hr => ?_, fun l m' node' hs hheld hnode' r c b hin hr => ?_⟩
  · refine (h.started r c b hin).resolve_right fun ⟨e', he', _⟩ => ?_
    rw [hr, running_eq_some, he] at he'
    cases he'.1
    exact hstate he'.2
  · cases Machine.step_cases hs with
    | start inp hnone => cases hnone.symm.trans hnode
    | stop => cases hnode'
    | powerLoss => cases hnode'
    | act node₁ o others hnode₁ hacts =>
      cases hnode.symm.trans hnode₁
      obtain ⟨-, rfl⟩ := Machine.apply_node hnode'
      refine (List.mem_append.1 hin).resolve_left fun hnew => ?_
      have hnone := (acts_begins hacts hnew).1
      rw [hr] at hnone
      cases he.symm.trans (hnone (hheld node hnode).1)

end Runs

section Sample

def bashRequest : DispatchRequest :=
  { dockerRequest with scriptLanguage := text "bash", handler := text "__script__" }

def bashCancel : CancelRequest := cancelRequest digitText 7 (httpCommand "bash")

/-- A cancel request for a run that the process does not know is accepted, and a dispatch of
the run that arrives afterwards starts its handler. -/
theorem cancelled_run_started :
    ∃ (m : Machine) (node : Node), Machine.Reachable (plainSettings none) (fun _ _ => True) m ∧
      m.node = some node ∧ .answered bashCancel (.ok true) ∈ node.log ∧
      ((m.step (plainSettings none) (.dispatch bashRequest { createdAt := newYear })).bind
          Machine.node).map (fun node' => node'.log.any (fun event => match event with
            | .started r c _ => r.runId = bashCancel.runId ∧ c ∉ node'.server.cancelled
            | _ => false)) = some true := by
  have hrun : ((Machine.init.run (plainSettings none) [.start { createdAt := newYear },
      .cancel bashCancel { createdAt := newYear }, .advance 0 { createdAt := newYear }]).bind
        fun m => m.node.bind fun node =>
        ((m.step (plainSettings none) (.dispatch bashRequest { createdAt := newYear })).bind
          Machine.node).map fun node' =>
        (decide (.answered bashCancel (.ok true) ∈ node.log),
          node'.log.any (fun event => match event with
            | .started r c _ => r.runId = bashCancel.runId ∧ c ∉ node'.server.cancelled
            | _ => false))) = some (true, true) := by
    decide +kernel
  obtain ⟨m, hm, hrun⟩ := Option.bind_eq_some_iff.1 hrun
  obtain ⟨node, hnode, hrun⟩ := Option.bind_eq_some_iff.1 hrun
  obtain ⟨node', hnode', hfacts⟩ := Option.map_eq_some_iff.1 hrun
  rw [Prod.mk.injEq, decide_eq_true_eq] at hfacts
  refine ⟨m, node, Machine.Reachable.init.run hm, hnode, hfacts.1, ?_⟩
  rw [hnode', Option.map_some, hfacts.2]

/-- The cancel request finds the run and the history has room for it alone: its handler is
cancelled, and the dispatch that comes after the answer starts no other one. -/
theorem cancelled_run_not_started :
    ∃ (m m' : Machine) (node node' : Node),
      Machine.Reachable forgetfulSettings (Held forgetfulSettings bashCancel.runId) m ∧
      m.node = some node ∧ .answered bashCancel (.ok true) ∈ node.log ∧
      (∃ r c b, .started r c b ∈ node.log ∧ r.runId = bashCancel.runId ∧
        c ∈ node.server.cancelled) ∧
      m.step forgetfulSettings (.dispatch bashRequest { createdAt := newYear }) = some m' ∧
      m'.node = some node' ∧
      ∀ r c b, .started r c b ∈ node'.log → r.runId = bashCancel.runId →
        .started r c b ∈ node.log := by
  have hrun : ((Machine.init.runWhile forgetfulSettings (Held forgetfulSettings bashCancel.runId)
      [.start { createdAt := newYear }, .dispatch bashRequest { createdAt := newYear },
        .cancel bashCancel { createdAt := newYear }, .advance 0 { createdAt := newYear }]).bind
        fun m => m.node.bind fun node => (m.step forgetfulSettings
          (.dispatch bashRequest { createdAt := newYear })).bind fun m' => m'.node.map fun _ =>
        (decide (.answered bashCancel (.ok true) ∈ node.log),
          decide (.started { bashRequest with executionDeadlineUnixMilli := 60000 } 0 false ∈
            node.log), decide (Held forgetfulSettings bashCancel.runId m
              (.dispatch bashRequest { createdAt := newYear })))) = some (true, true, true) := by
    decide +kernel
  obtain ⟨m, hm, hrun⟩ := Option.bind_eq_some_iff.1 hrun
  obtain ⟨node, hnode, hrun⟩ := Option.bind_eq_some_iff.1 hrun
  obtain ⟨m', hs, hrun⟩ := Option.bind_eq_some_iff.1 hrun
  obtain ⟨node', hnode', hfacts⟩ := Option.map_eq_some_iff.1 hrun
  simp only [Prod.mk.injEq, decide_eq_true_eq] at hfacts
  have hreach := Machine.Reachable.init.runWhile hm
  obtain ⟨hcancelled, hlater⟩ :=
    cancelled_run_stays forgetfulSettings m node bashCancel hreach hnode hfacts.1
  exact ⟨m, m', node, node', hreach, hnode, hfacts.1,
    ⟨_, _, _, hfacts.2.1, rfl, hcancelled _ _ _ hfacts.2.1 rfl⟩, hs, hnode',
    hlater _ m' node' hs hfacts.2.2 hnode'⟩

end Sample

end GoScheduler.Executor
