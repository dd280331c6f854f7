import GoScheduler.Executor.RecoveredRuns

/-! Runs that were acknowledged to Core, against processes that stop at any point and file
operations that fail. Such a run keeps its execution record until its completion record is
written or Core no longer waits for it. -/
namespace GoScheduler.Executor

open Process

section Records

variable {codec : Codec} {fault : Option ℕ} {s s' : Shared} {u : Unit}

theorem Shelf.save_mem {record : CompletionRecord} {shelf : Shelf}
    (h : (shelf.save codec fault record).1 = .ok u) :
    completionFileName record.runID ∈ (shelf.save codec fault record).2.disk.visible := by
  unfold Shelf.save at h ⊢
  split at h
  · cases h
  · cases fault with
    | none => exact Shelf.mem_change_some.2 (.inl rfl)
    | some n => cases h

theorem Shelf.saveExecution_mem {request : DispatchRequest} {shelf : Shelf}
    (h : (shelf.saveExecution codec fault request).1 = .ok u) :
    executionFileName request.runId ∈ (shelf.saveExecution codec fault request).2.disk.visible := by
  unfold Shelf.saveExecution at h ⊢
  split at h
  · cases h
  next steps hsteps =>
  cases fault with
  | some n => cases h
  | none =>
    rcases executionSteps_cases hsteps with rfl | ⟨raw, last, -, rfl, hlast⟩
    · -- Nothing is written where the record is there already.
      by_contra hnew
      have hnone : shelf.disk.visible.lookup _ = none := AList.lookup_eq_none.2 hnew
      simp only [executionSteps, hnone] at hsteps
      obtain ⟨⟨⟩, -, hsteps⟩ := Fallible.exists_of_bind_ok hsteps
      repeat' split at hsteps
      all_goals cases hsteps
    · show _ ∈ (last _).disk.visible
      rw [hlast]
      exact Shelf.mem_change_some.2 (.inl rfl)

theorem perform_mem {operation : Shelf → Except Error Unit × Shelf} {n : Name}
    (hstore : s.server.store.isSome = true) (hdone : s.perform operation = (.ok u, s'))
    (h : ∀ shelf, (operation shelf).1 = .ok u → n ∈ (operation shelf).2.disk.visible) :
    n ∈ s'.disk.visible := by
  obtain ⟨store, hstore⟩ := Option.isSome_iff_exists.1 hstore
  simp only [Shared.perform, hstore, Prod.mk.injEq] at hdone
  obtain ⟨hok, rfl⟩ := hdone
  exact h _ hok

end Records

section Started

variable {cfg : Settings} {inp : Input} {s : Shared} {node : Node} {disk : Disk} {l : Label}
  {o : Outcome} {others : List Thread}

def Dispatched.Saved (d : Dispatched) : Prop :=
  ∀ x ∈ d.started, executionFileName x.1.runId ∈ d.shared.disk.visible

theorem dispatch_saved (hstore : s.server.store.isSome = true) (recovered : Bool)
    (request : DispatchRequest) : (dispatch cfg inp recovered request s).Saved := by
  refine dispatch_cases (P := Dispatched.Saved) recovered (fun _ _ hx => by cases hx)
    (fun _ _ _ hx => by cases hx) fun _ => ?_
  refine startExecution_cases (P := Dispatched.Saved) (fun _ _ hx => by cases hx)
    fun slots x hx => ?_
  unfold startExecution.persist at hx ⊢
  split at hx
  · cases hx
  · next hdone =>
    cases hx
    have hsaved := perform_mem (s := ⟨s.server.pruneExecutionHistory cfg inp.now, s.disk⟩) hstore
      hdone fun shelf => Shelf.saveExecution_mem
    exact hsaved

theorem acts_started (hacts : Machine.Acts cfg node disk l o others)
    (hstore : node.server.store.isSome = true) {r : DispatchRequest} {c : ℕ}
    (he : .started r c false ∈ o.events) : executionFileName r.runId ∈ o.shared.disk.visible := by
  rcases acts_events hacts he with ⟨t, -, hrecovered, -⟩ | hanswers
  · cases hrecovered
  · cases hacts with
    | dispatch request inp =>
      obtain ⟨x, hx, heq⟩ :=
        List.mem_map.1 ((List.mem_cons.1 he).resolve_left fun heq => by cases heq)
      cases heq
      exact dispatch_saved hstore false request x (Option.mem_toList.1 hx)
    | cancel request inp =>
      obtain heq | ⟨_, heq⟩ := hanswers
      all_goals cases heq
    | _ => cases hanswers

end Started

section Reliance

/-- Core waits for no completion of the run: it has answered one, has asked for a cancellation, or
was told of a callback. -/
def Event.Dismisses (runID : Bytes) : Event → Prop
  | .reported r reply => r = runID ∧ reply ≠ .other
  | .received request => request.runId = runID
  | .returned request result => request.runId = runID ∧ result = .awaitingCallback
  | _ => False

def Recovery.through : Recovery → List Bytes
  | .begun => []
  | .listed completed | .reconciling completed _ _ | .resuming completed _ => completed
  | .removing completed _ request _ => request.runId :: completed

def Thread.Relies (runID : Bytes) (ended dismissed : Prop) : Thread → Prop
  | .finishing request result => request.runId = runID → result = .awaitingCallback → ended
  | .awaiting request | .clearing request _ => request.runId = runID → ended
  | .cancelling request _ => request.runId = runID → ended
  | .recovering recovery => runID ∈ recovery.through → ended
  | .delivered record => record.runID = runID → dismissed
  | .saving request record => record.runID = request.runId
  | _ => True

variable {cfg : Settings} {inp : Input} {s : Shared} {runID : Bytes} {t : Thread}
  {ended dismissed ended' dismissed' : Prop}

theorem Thread.Relies.mono (h : t.Relies runID ended dismissed) (hended : ended → ended')
    (hdismissed : dismissed → dismissed') : t.Relies runID ended' dismissed' := by
  cases t
  all_goals first
    | trivial
    | exact fun hrun => hended (h hrun)
    | exact fun hrun hresult => hended (h hrun hresult)
    | exact fun hrun => hdismissed (h hrun)

theorem Thread.Relies.of_removes (h : t.Relies runID ended dismissed) (hended : dismissed → ended)
    (hremoves : executionFileName runID ∈ t.removes) : ended := by
  have hname (r : Bytes) : executionFileName runID = executionFileName r ↔ r = runID := by
    rw [executionFileName_injective.eq_iff, eq_comm]
  have hne (r : Bytes) := (completionFileName_ne_executionFileName r runID).symm
  unfold Thread.removes at hremoves
  repeat' split at hremoves
  all_goals simp only [List.mem_cons, List.not_mem_nil, hname, hne, or_false] at hremoves
  · exact h hremoves
  · exact h hremoves
  · exact h hremoves
  · exact hended (h hremoves)
  · next hmem => exact h (hremoves ▸ hmem)
  · exact h (hremoves ▸ List.mem_cons_self)

def Outcome.Relies (runID : Bytes) (ended dismissed : Prop) (o : Outcome) : Prop :=
  (completionFileName runID ∈ o.shared.disk.visible → ended) →
    (∀ e ∈ o.events, e.Dismisses runID → dismissed) →
      ∀ u ∈ o.threads, u.Relies runID ended dismissed

theorem reconcile_relies {completed : List Bytes} {requests todo : List DispatchRequest}
    {request : DispatchRequest} (hstore : s.server.store.isSome = true)
    (h : runID ∈ completed → ended) :
    (reconcile cfg inp completed requests request todo s).Relies runID ended dismissed := by
  have hpersist (message : String) : (reconcile.persist cfg inp completed requests request todo s
      message).Relies runID ended dismissed := by
    unfold reconcile.persist
    split
    · next hdone =>
      refine fun hsaved _ => List.forall_mem_singleton.2 fun hrun => ?_
      rcases List.mem_cons.1 hrun with rfl | hrun
      · exact hsaved (perform_mem hstore hdone fun shelf => Shelf.save_mem)
      · exact h hrun
    · exact fun _ _ => List.forall_mem_nil _
  unfold reconcile
  repeat' split
  all_goals first
    | exact hpersist _
    | exact fun _ _ => List.forall_mem_nil _
    | exact fun _ _ => List.forall_mem_singleton.2 h

theorem recover_relies {recovery : Recovery} (hstore : s.server.store.isSome = true)
    (h : runID ∈ recovery.through → ended) :
    (recover cfg inp recovery s).Relies runID ended dismissed := by
  obtain ⟨store, hsome⟩ := Option.isSome_iff_exists.1 hstore
  unfold recover
  simp only [hsome]
  cases recovery with
  | begun =>
    dsimp only
    split
    · exact fun _ _ => List.forall_mem_nil _
    · next records hrecords =>
      exact fun hsaved _ => List.forall_mem_singleton.2 fun hrun =>
        hsaved ((Shelf.mem_list hrecords).1 hrun)
  | listed completed =>
    dsimp only
    split
    · exact fun _ _ => List.forall_mem_nil _
    · exact fun _ _ => List.forall_mem_singleton.2 h
  | reconciling completed requests todo =>
    cases todo with
    | nil => exact fun _ _ => List.forall_mem_singleton.2 h
    | cons request todo => exact reconcile_relies hstore h
  | removing completed requests request todo =>
    dsimp only
    split
    · exact fun _ _ => List.forall_mem_nil _
    · refine fun _ _ => List.forall_mem_singleton.2 fun hrun => h ?_
      split at hrun
      · exact hrun
      · exact List.mem_cons_of_mem _ hrun
  | resuming completed todo =>
    cases todo with
    | nil => exact fun _ _ => List.forall_mem_nil _
    | cons request todo =>
      dsimp only
      split
      · exact fun _ _ => List.forall_mem_singleton.2 h
      · split
        · exact fun _ _ => List.forall_mem_nil _
        · refine fun _ _ => List.forall_mem_cons.2 ⟨h, fun u hu => ?_⟩
          obtain ⟨x, -, rfl⟩ := List.mem_map.1 hu
          trivial

theorem step_relies (hstore : s.server.store.isSome = true) (h : t.Relies runID ended dismissed)
    (hended : dismissed → ended) : (t.step cfg inp s).Relies runID ended dismissed := by
  cases t with
  | handling request context slots =>
    exact fun _ hseen => List.forall_mem_singleton.2 fun hrun hresult =>
      hended (hseen _ List.mem_cons_self ⟨hrun, hresult⟩)
  | finishing request result =>
    cases result with
    | awaitingCallback =>
      simp only [Thread.step, finish, hstore, if_true]
      exact fun _ _ => List.forall_mem_singleton.2 fun hrun => h hrun rfl
    | _ =>
      simp only [Thread.step, finish]
      repeat' split
      all_goals simp [Outcome.Relies, Thread.Relies, completionRecord]
  | saving request record =>
    simp only [Thread.step]
    split
    · next hdone =>
      refine fun hsaved _ => List.forall_mem_singleton.2 fun hrun => hsaved ?_
      rw [← hrun, ← h]
      exact perform_mem hstore hdone fun shelf => Shelf.save_mem
    · exact fun _ _ => List.forall_mem_singleton.2 trivial
  | closing request record persistence =>
    intro _ _ u hu
    obtain ⟨-, rfl⟩ := close_threads hu
    trivial
  | delivering record =>
    simp only [Thread.step]
    split
    · exact fun _ _ => List.forall_mem_nil _
    · next hreply =>
      exact fun _ hseen => List.forall_mem_singleton.2 fun hrun =>
        hseen _ List.mem_cons_self ⟨hrun, hreply⟩
  | recovering recovery => exact recover_relies hstore h
  | _ =>
    -- These threads remove nothing after their next step.
    simp only [Thread.step, report, answerCancel, deletePersistedExecution]
    repeat' split
    all_goals simp [Outcome.Relies, Thread.Relies]

end Reliance

section Runs

variable {cfg : Settings} {m : Machine} {node : Node} {l : Label} {o : Outcome}
  {others : List Thread} {runID : Bytes}

def Machine.Dismissed (m : Machine) (runID : Bytes) : Prop := ∃ e ∈ m.history, e.Dismisses runID

def Machine.Ended (m : Machine) (runID : Bytes) : Prop :=
  completionFileName runID ∈ m.disk.visible ∨ m.Dismissed runID

def Label.isPowerLoss : Label → Bool
  | .powerLoss _ _ => true
  | _ => false

/-- The processes may stop at any point, the machine runs on. -/
abbrev Powered (_ : Machine) (l : Label) : Prop := l.isPowerLoss = false

structure Survives (runID : Bytes) (m : Machine) : Prop where
  record : ∀ r c, .started r c false ∈ m.history → r.runId = runID →
    executionFileName runID ∈ m.disk.visible ∨ m.Ended runID
  store : ∀ node, m.node = some node → node.server.store.isSome = true
  threads : ∀ node, m.node = some node → ∀ t ∈ node.threads,
    t.Relies runID (m.Ended runID) (m.Dismissed runID)

theorem Machine.Dismissed.apply (h : m.Dismissed runID) (hnode : m.node = some node) :
    (m.apply node o others).Dismissed runID := by
  obtain ⟨e, he, hdismisses⟩ := h
  exact ⟨e, Machine.apply_history (m := m) hnode ▸ List.mem_append_right _ he, hdismisses⟩

variable (h : Survives runID m) (hnode : m.node = some node)
  (hacts : Machine.Acts cfg node m.disk l o others)
include h hnode hacts

theorem Survives.ended_apply (hended : m.Ended runID) : (m.apply node o others).Ended runID := by
  unfold Machine.Ended
  rw [Machine.apply_visible]
  rcases hended with hin | hdismissed
  · refine (acts_completion hacts hin).imp_right fun ⟨⟨i, inp, record, _, ht, hrun⟩, _⟩ => ?_
    exact (h.threads node hnode _ (List.mem_of_getElem? ht) hrun).apply hnode
  · exact .inr (hdismissed.apply hnode)

theorem Survives.execution_act (hin : executionFileName runID ∈ m.disk.visible) :
    executionFileName runID ∈ o.shared.disk.visible ∨ m.Ended runID := by
  rcases acts_within hacts with hw | ⟨i, inp, t, -, -, -, rfl, -⟩
  · by_cases hremoves : executionFileName runID ∈ l.removes node
    · cases hacts with
      | advance i inp t hthread =>
        simp only [Label.removes, hthread, Option.map_some, Option.getD_some] at hremoves
        exact .inr
          ((h.threads node hnode t (List.mem_of_getElem? hthread)).of_removes .inr hremoves)
      | _ => cases hremoves
    · refine .inl (hw.disk (fun d => executionFileName runID ∈ d.visible) (fun _ h => h)
        (fun _ _ _ _ h => Shelf.mem_change_some.2 (.inr h)) (fun n hn d h => ?_) hin)
      exact Shelf.mem_change_none.2 ⟨fun heq => hremoves (heq ▸ hn), h⟩
  · exact .inl hin

theorem Survives.threads_act : ∀ u ∈ o.threads ++ others, u.Relies runID
    ((m.apply node o others).Ended runID) ((m.apply node o others).Dismissed runID) := by
  have hdismissed (h : m.Dismissed runID) : (m.apply node o others).Dismissed runID := h.apply hnode
  have hold (t : Thread) (ht : t ∈ node.threads) :=
    (h.threads node hnode t ht).mono (h.ended_apply hnode hacts) hdismissed
  have hseen : ∀ e ∈ o.events, e.Dismisses runID → (m.apply node o others).Dismissed runID :=
    fun e he hdismisses =>
      ⟨e, Machine.apply_history (m := m) hnode ▸ List.mem_append_left _ he, hdismisses⟩
  refine fun u hu => (List.mem_append.1 hu).elim (fun hnew => ?_) fun hothers =>
    hold u (hacts.others hothers)
  cases hacts with
  | dispatch request inp =>
    obtain ⟨x, -, rfl⟩ := List.mem_map.1 hnew
    trivial
  | cancel request inp =>
    unfold Machine.receiveCancel at hnew hseen
    split at hnew
    · cases hnew
    · next hnamed =>
      cases List.mem_singleton.1 hnew
      exact fun hrun => .inr (hseen (.received request) (by simp [hnamed]) hrun)
  | drain => cases hnew
  | drainExpired => cases hnew
  | deliver inp =>
    unfold Machine.deliver at hnew
    repeat' split at hnew
    · cases hnew
    · cases hnew
    · obtain ⟨record, -, rfl⟩ := List.mem_map.1 hnew
      trivial
  | advance i inp t hthread =>
    refine step_relies (h.store node hnode) (hold t (List.mem_of_getElem? hthread)) .inr
      (fun hin => .inl ?_) hseen u hnew
    rwa [Machine.apply_visible]

theorem Survives.act : Survives runID (m.apply node o others) where
  record r c he hrun := by
    rw [Machine.apply_visible]
    rw [Machine.apply_history hnode] at he
    rcases List.mem_append.1 he with hnew | hold
    · exact .inl (hrun ▸ acts_started hacts (h.store node hnode) hnew)
    · exact ((h.record r c hold hrun).elim (h.execution_act hnode hacts) .inr).imp_right
        (h.ended_apply hnode hacts)
  store node' hnode' := by
    obtain ⟨-, rfl⟩ := Machine.apply_node hnode'
    rcases acts_within hacts with hw | ⟨i, inp, t, -, -, -, rfl, -⟩
    · exact hw.store.trans (h.store node hnode)
    · exact h.store node hnode
  threads node' hnode' := by
    obtain ⟨-, rfl⟩ := Machine.apply_node hnode'
    exact h.threads_act hnode hacts

omit hnode hacts

theorem Survives.of_history {m' : Machine} (hhistory : m'.history = m.history)
    (hexecution : executionFileName runID ∈ m.disk.visible →
      executionFileName runID ∈ m'.disk.visible)
    (hcompletion : completionFileName runID ∈ m.disk.visible →
      completionFileName runID ∈ m'.disk.visible)
    (hfresh : ∀ node, m'.node = some node → node.server.store.isSome = true ∧
      ∀ t ∈ node.threads, t = .recovering .begun) : Survives runID m' where
  record r c he hrun := by
    refine (h.record r c (hhistory ▸ he) hrun).imp hexecution (.imp hcompletion ?_)
    exact fun ⟨e, hin, hdismisses⟩ => ⟨e, hhistory ▸ hin, hdismisses⟩
  store node hnode := (hfresh node hnode).1
  threads node hnode t ht := by
    rw [(hfresh node hnode).2 t ht]
    exact fun hrun => by cases hrun

omit h

theorem start_mem {inp : Input} {options : List FileCompletionStore.Options} {n : Name}
    (hoptions : cfg.options = some options) (hname : isInterrupted n = false)
    (hin : n ∈ m.disk.visible) : n ∈ (m.start cfg inp).disk.visible := by
  have hopened :
      n ∈ (Shelf.newFileCompletionStore cfg.codec inp.fault options m.disk).2.visible := by
    refine Shelf.newFileCompletionStore_keeps (P := fun d => n ∈ d.visible) options
      (fun d n' hn hd => Shelf.mem_change_none.2 ⟨fun heq => ?_, hd⟩) hin
    rw [heq, hn] at hname
    cases hname
  simp only [Machine.start, hoptions]
  split
  all_goals next hdone =>
    rw [hdone] at hopened
    simpa using hopened

theorem start_fresh {inp : Input} {options : List FileCompletionStore.Options}
    (hoptions : cfg.options = some options) (hnone : m.node = none)
    (hnode : (m.start cfg inp).node = some node) :
    node.server.store.isSome = true ∧ ∀ t ∈ node.threads, t = .recovering .begun := by
  simp only [Machine.start, hoptions] at hnode
  split at hnode
  · cases hnone.symm.trans hnode
  · cases hnode
    exact ⟨rfl, List.forall_mem_singleton.2 rfl⟩

theorem survives (hm : Machine.Reachable cfg Powered m) (hoptions : cfg.options.isSome = true)
    (hname : isInterrupted (executionFileName runID) = false) : Survives runID m := by
  induction hm with
  | init =>
    exact ⟨fun r c he => (by cases he), fun node hnode => (by cases hnode),
      fun node hnode => (by cases hnode)⟩
  | @step m m' l hm hs hok ih =>
    cases Machine.step_cases hs with
    | start inp hnone =>
      obtain ⟨options, hsome⟩ := Option.isSome_iff_exists.1 hoptions
      have hname' : isInterrupted (completionFileName runID) = false :=
        Bool.eq_false_iff.2 fun hi => by
          rw [isInterrupted_executionFileName hi] at hname
          cases hname
      exact ih.of_history (Machine.start_history hnone inp) (start_mem hsome hname)
        (start_mem hsome hname') fun node => start_fresh hsome hnone
    | stop =>
      exact ih.of_history rfl (by simp [Machine.halted]) (by simp [Machine.halted])
        fun node hnode => by cases hnode
    | powerLoss => cases hok
    | act node o others hnode hacts => exact ih.act hnode hacts

/-- Whatever file operations fail and wherever processes stop, a run that a dispatch has started
has an execution record until it has a completion record or Core no longer waits for it. -/
theorem started_run_survives (cfg : Settings) (m : Machine) (hoptions : cfg.options.isSome = true)
    (hm : Machine.Reachable cfg Powered m) (r : DispatchRequest) (c : ℕ)
    (hstarted : .started r c false ∈ m.history)
    (hname : isInterrupted (executionFileName r.runId) = false) :
    executionFileName r.runId ∈ m.disk.visible ∨ completionFileName r.runId ∈ m.disk.visible ∨
      ∃ e ∈ m.history, e.Dismisses r.runId :=
  (survives hm hoptions hname).record r c hstarted rfl

theorem killed_run_survives :
    ∃ m : Machine, Machine.Reachable (plainSettings (some [])) Powered m ∧
      .started dockerRequest 0 false ∈ m.history ∧ (executionFileName (text "7") ∈ m.disk.visible ∨
        completionFileName (text "7") ∈ m.disk.visible ∨
          ∃ e ∈ m.history, e.Dismisses (text "7")) := by
  have hrun : ((Machine.init.runWhile (plainSettings (some [])) Powered
      (recovered ++ [.dispatch dockerRequest { createdAt := newYear },
        .advance 0 { createdAt := newYear }, .advance 0 { createdAt := newYear },
        .advance 0 { createdAt := newYear, fault := some 1 }, .stop])).map fun m =>
      decide (.started dockerRequest 0 false ∈ m.history)) = some true := by decide +kernel
  obtain ⟨m, hm, hstarted⟩ := Option.map_eq_some_iff.1 hrun
  have hreach := Machine.Reachable.init.runWhile hm
  have hstarted := of_decide_eq_true hstarted
  exact ⟨m, hreach, hstarted, started_run_survives _ m rfl hreach _ 0 hstarted (by decide)⟩

end Runs

end GoScheduler.Executor
