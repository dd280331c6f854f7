import GoScheduler.Executor.Footprint

/-! Runs whose completion Core has accepted, against the recovery of later processes. The
execution record of such a run may still be there; its completion record then is too, and the
recovery leaves the run alone. -/
namespace GoScheduler.Executor

open Process

section Events

variable (cfg : Settings) (inp : Input) (s : Shared)

def Event.From (t : Thread) : Event → Prop
  | .started r _ recovered => recovered = true ∧ ∃ completed request todo,
      t = .recovering (.resuming completed (request :: todo)) ∧ request.runId ∉ completed ∧
        r.runId = request.runId
  | .dispatched _ _ | .received _ => False
  | .returned request _ => ∃ context slots, t = .handling request context slots
  | .answered request _ => (∃ known, t = .cancelling request known) ∨
      ∃ refusal, t = .refusing request refusal
  | .reported runID _ => ∃ record, record.runID = runID ∧
      (t = .delivering record ∨ ∃ attempt, t = .reporting record attempt)

theorem persist_started (request : DispatchRequest) (slots : Option Slots) :
    ∀ x ∈ (startExecution.persist cfg inp request s slots).started, x.1 = request := by
  unfold startExecution.persist
  split
  · simp
  · simp

theorem dispatch_started (recovered : Bool) (request : DispatchRequest) :
    ∀ x ∈ (dispatch cfg inp recovered request s).started, x.1.runId = request.runId := by
  refine dispatch_cases (P := fun d => ∀ x ∈ d.started, x.1.runId = request.runId) recovered
    (fun _ _ hx => by cases hx) (fun _ _ _ hx => by cases hx) fun _ => ?_
  refine startExecution_cases (P := fun d => ∀ x ∈ d.started, x.1.runId = request.runId)
    (fun _ _ hx => by cases hx) fun slots x hx => ?_
  rw [persist_started cfg inp _ _ slots x hx, timed_runId]

theorem dispatch_events (recovered : Bool) (request : DispatchRequest) (e : Event)
    (he : e ∈ (dispatch cfg inp recovered request s).events recovered) :
    ∃ r c, e = .started r c recovered ∧ r.runId = request.runId := by
  unfold Dispatched.events at he
  obtain ⟨x, hx, rfl⟩ := List.mem_map.1 he
  exact ⟨x.1, x.2.1, rfl, dispatch_started cfg inp s recovered request x (Option.mem_toList.1 hx)⟩

theorem recover_events (recovery : Recovery) (e : Event)
    (he : e ∈ (recover cfg inp recovery s).events) :
    e.From (.recovering recovery) := by
  unfold recover at he
  cases hstore : s.server.store with
  | none => simp [hstore] at he
  | some store =>
    simp only [hstore] at he
    cases recovery with
    | begun =>
      dsimp only at he
      split at he
      all_goals cases he
    | listed completed =>
      dsimp only at he
      split at he
      all_goals cases he
    | reconciling completed requests todo =>
      cases todo with
      | nil => cases he
      | cons request todo =>
        simp only [reconcile, reconcile.persist] at he
        repeat' split at he
        all_goals cases he
    | removing completed requests request todo =>
      dsimp only at he
      split at he
      all_goals cases he
    | resuming completed todo =>
      cases todo with
      | nil => cases he
      | cons request todo =>
        dsimp only at he
        split at he
        · cases he
        · next hskip =>
          split at he
          · cases he
          · obtain ⟨r, c, rfl, hr⟩ := dispatch_events cfg inp s true request e he
            exact ⟨rfl, completed, request, todo, rfl, (not_or.1 hskip).1, hr⟩

theorem step_events (t : Thread) (e : Event) (he : e ∈ (t.step cfg inp s).events) : e.From t := by
  cases t with
  | handling request context slots =>
    cases List.mem_singleton.1 he
    exact ⟨context, slots, rfl⟩
  | finishing request result =>
    simp only [Thread.step, finish] at he
    repeat' split at he
    all_goals cases he
  | awaiting request => cases he
  | saving request record =>
    simp only [Thread.step] at he
    split at he
    all_goals cases he
  | clearing request record =>
    simp only [Thread.step] at he
    split at he
    all_goals cases he
  | unclean request record => cases he
  | closing request record persistence =>
    simp only [Thread.step, close, transition] at he
    repeat' split at he
    all_goals cases he
  | reporting record attempt =>
    simp only [Thread.step, report] at he
    split at he
    · cases he
    · cases List.mem_singleton.1 he
      exact ⟨record, rfl, .inr ⟨attempt, rfl⟩⟩
  | cancelling request known =>
    simp only [Thread.step, answerCancel, deletePersistedExecution] at he
    repeat' split at he
    all_goals cases he
    all_goals first
      | exact .inl ⟨known, rfl⟩
      | next h => cases h
  | refusing request refusal =>
    cases List.mem_singleton.1 he
    exact .inr ⟨refusal, rfl⟩
  | delivering record =>
    cases List.mem_singleton.1 he
    exact ⟨record, rfl, .inl rfl⟩
  | delivered record => cases he
  | recovering recovery => exact recover_events cfg inp s recovery e he

variable {cfg} {node : Node} {disk : Disk} {l : Label} {o : Outcome} {others : List Thread}

def Event.Answers : Label → Event → Prop
  | .dispatch request _, e => (∃ answer, e = .dispatched request answer) ∨
      ∃ r c, e = .started r c false ∧ r.runId = request.runId
  | .cancel request _, e => e = .received request ∨
      ∃ refusal, e = .answered request (.error refusal)
  | _, _ => False

theorem acts_events (hacts : Machine.Acts cfg node disk l o others) {e : Event}
    (he : e ∈ o.events) :
    (∃ t ∈ node.threads, e.From t) ∨ e.Answers l := by
  cases hacts with
  | dispatch request inp =>
    rcases List.mem_cons.1 he with rfl | hstarted
    · exact .inr (.inl ⟨_, rfl⟩)
    · exact .inr (.inr (dispatch_events cfg inp _ false request e hstarted))
  | cancel request inp =>
    unfold Machine.receiveCancel at he
    split at he
    · simp only [List.mem_cons, List.not_mem_nil, or_false] at he
      exact .inr (he.symm.imp_right fun h => ⟨_, h⟩)
    · exact .inr (.inl (List.mem_singleton.1 he))
  | drain => cases he
  | drainExpired => cases he
  | deliver inp =>
    unfold Machine.deliver at he
    repeat' split at he
    all_goals cases he
  | advance i inp t hthread =>
    exact .inl ⟨t, List.mem_of_getElem? hthread, step_events cfg inp _ t e he⟩

end Events

section Accepted

def Machine.Accepted (m : Machine) (runID : Bytes) : Prop := .reported runID .success ∈ m.history

def Shelf.Admits (codec : Codec) (record : CompletionRecord) (s : Shelf) : Prop :=
  validateCompletionRecord record = .ok () ∧
    (∃ raw ∈ codec.marshal record, raw.length ≤ maxCompletionRecordBytes) ∧
    s.store.pending < s.store.max ∧ completionFileName record.runID ∉ s.disk.visible

def Node.Saves (cfg : Settings) (node : Node) (disk : Disk) (i : ℕ) (inp : Input) : Prop :=
  match node.threads[i]?, node.server.store with
  | some (.saving _ record), some store =>
      inp.fault = none ∧ Shelf.Admits cfg.codec record ⟨store, disk⟩
  | _, _ => True

/-- `finish` saves its completions, no run is dispatched again once its completion was accepted,
and a machine that stops loses no change of the directory. -/
def Recorded (cfg : Settings) (m : Machine) : Label → Prop
  | .powerLoss kept _ => kept = m.disk.changes
  | .dispatch request _ => ¬m.Accepted request.runId
  | .advance i inp => ∀ node ∈ m.node, node.Saves cfg m.disk i inp
  | _ => True

instance (m : Machine) (runID : Bytes) : Decidable (m.Accepted runID) := by
  unfold Machine.Accepted
  infer_instance

instance (codec : Codec) (record : CompletionRecord) (s : Shelf) :
    Decidable (s.Admits codec record) := by
  unfold Shelf.Admits
  infer_instance

instance (cfg : Settings) (node : Node) (disk : Disk) (i : ℕ) (inp : Input) :
    Decidable (node.Saves cfg disk i inp) := by
  unfold Node.Saves
  split <;> infer_instance

instance (cfg : Settings) (m : Machine) : (l : Label) → Decidable (Recorded cfg m l)
  | .powerLoss kept _ => inferInstanceAs (Decidable (kept = m.disk.changes))
  | .dispatch request _ => inferInstanceAs (Decidable (¬m.Accepted request.runId))
  | .advance i inp => inferInstanceAs (Decidable (∀ node ∈ m.node, node.Saves cfg m.disk i inp))
  | .start _ | .stop | .cancel _ _ | .drain | .drainExpired | .deliver _ => .isTrue trivial

def Recovery.Skips (accepted : Bytes → Prop) (d : Directory) : Recovery → Prop
  | .begun => True
  | .listed completed => ∀ runID, accepted runID → executionFileName runID ∈ d → runID ∈ completed
  | .reconciling completed requests _ | .removing completed requests _ _
  | .resuming completed requests =>
      ∀ request ∈ requests, accepted request.runId → request.runId ∈ completed

def Thread.Settled (bare : Prop) (accepted : Bytes → Prop) (d : Directory) : Thread → Prop
  | .recovering recovery => recovery.Skips accepted d
  | .delivering record => completionFileName record.runID ∈ d
  | .closing _ _ persistence => persistence = .persisted ∨ bare
  | .reporting _ _ => bare
  | _ => True

/-- What is left on disk of the accepted runs, and what the threads rely on. -/
structure Settled (cfg : Settings) (m : Machine) : Prop where
  bare : cfg.options = none → ∀ n, n ∉ m.disk.visible
  kept : ∀ runID, m.Accepted runID → executionFileName runID ∈ m.disk.visible →
    completionFileName runID ∈ m.disk.visible ∨
      m.node = none ∧ isInterrupted (executionFileName runID) = true
  store : ∀ node, m.node = some node → node.server.store.isSome = cfg.options.isSome
  threads : ∀ node, m.node = some node → ∀ t ∈ node.threads,
    t.Settled (cfg.options = none) m.Accepted m.disk.visible

variable {cfg : Settings} {inp : Input} {s : Shared} {accepted accepted' : Bytes → Prop}
  {d d' : Directory} {t : Thread}

theorem Shelf.Admits.save {record : CompletionRecord} {shelf : Shelf}
    (h : shelf.Admits cfg.codec record) : (Shelf.save cfg.codec none record shelf).1 = .ok () := by
  obtain ⟨hvalid, ⟨raw, hraw, hsize⟩, hroom, hnew⟩ := h
  have hsavable : Shelf.savable cfg.codec record shelf = .ok raw := by
    unfold Shelf.savable
    rw [hvalid, Option.mem_def.1 hraw]
    simp [bind, Except.bind, not_lt.2 hsize, not_le.2 hroom, hnew]
  unfold Shelf.save
  rw [hsavable]
  rfl

theorem Recovery.Skips.mono {recovery : Recovery} (h : recovery.Skips accepted d)
    (haccepted : ∀ runID, accepted' runID → accepted runID)
    (hexecution : ∀ runID, accepted runID → executionFileName runID ∈ d' →
      executionFileName runID ∈ d) : recovery.Skips accepted' d' := by
  cases recovery with
  | begun => trivial
  | listed completed =>
    exact fun runID hacc hin => h runID (haccepted runID hacc)
      (hexecution runID (haccepted runID hacc) hin)
  | reconciling completed requests todo => exact fun r hr hacc => h r hr (haccepted _ hacc)
  | removing completed requests request todo => exact fun r hr hacc => h r hr (haccepted _ hacc)
  | resuming completed todo => exact fun r hr hacc => h r hr (haccepted _ hacc)

theorem thread_settled (dispatched : Dispatched) (bare : Prop) :
    ∀ u ∈ dispatched.thread, u.Settled bare accepted d := by
  intro u hu
  obtain ⟨x, -, rfl⟩ := List.mem_map.1 hu
  trivial

theorem reconcile_settled {completed : List Bytes} {requests todo : List DispatchRequest}
    {request : DispatchRequest} (bare : Prop)
    (h : ∀ request ∈ requests, accepted request.runId → request.runId ∈ completed) :
    ∀ u ∈ (reconcile cfg inp completed requests request todo s).threads,
      u.Settled bare accepted d := by
  intro u hu
  simp only [reconcile, reconcile.persist] at hu
  repeat' split at hu
  all_goals cases hu
  all_goals first
    | exact h
    | next hu => cases hu

theorem recover_settled {recovery : Recovery} (bare : Prop)
    (hkept : ∀ runID, accepted runID → executionFileName runID ∈ s.disk.visible →
      completionFileName runID ∈ s.disk.visible)
    (h : recovery.Skips accepted s.disk.visible) :
    ∀ u ∈ (recover cfg inp recovery s).threads,
      u.Settled bare accepted (recover cfg inp recovery s).shared.disk.visible := by
  unfold recover
  cases s.server.store with
  | none => exact fun u hu => by cases hu
  | some store =>
    dsimp only
    cases recovery with
    | begun =>
      dsimp only
      split
      · exact fun u hu => by cases hu
      · next records hrecords =>
        refine List.forall_mem_singleton.2 fun runID hacc hin => ?_
        exact (Shelf.mem_list hrecords).2 (hkept runID hacc hin)
    | listed completed =>
      dsimp only
      split
      · exact fun u hu => by cases hu
      · next requests hrequests =>
        refine List.forall_mem_singleton.2 fun request hrequest hacc => ?_
        exact h request.runId hacc (Shelf.mem_listExecutions hrequests hrequest)
    | reconciling completed requests todo =>
      cases todo with
      | nil => exact List.forall_mem_singleton.2 h
      | cons request todo => exact reconcile_settled bare h
    | removing completed requests request todo =>
      dsimp only
      split
      · exact fun u hu => by cases hu
      · refine List.forall_mem_singleton.2 fun r hr hacc => ?_
        split
        · exact List.mem_cons_of_mem _ (h r hr hacc)
        · exact h r hr hacc
    | resuming completed todo =>
      cases todo with
      | nil => exact fun u hu => by cases hu
      | cons request todo =>
        have hrest : ∀ r ∈ todo, accepted r.runId → r.runId ∈ completed :=
          fun r hr => h r (List.mem_cons_of_mem request hr)
        dsimp only
        split
        · exact List.forall_mem_singleton.2 hrest
        · split
          · exact fun u hu => by cases hu
          · exact List.forall_mem_cons.2 ⟨hrest, thread_settled _ bare⟩

theorem close_threads {request : DispatchRequest} {record : CompletionRecord}
    {persistence : Persistence} {u : Thread}
    (hu : u ∈ (close cfg inp request record persistence s).threads) :
    persistence ≠ .persisted ∧ u = .reporting record 1 := by
  unfold close transition at hu
  generalize (if persistence = .failed then s.failStore else s).server.running request.runId =
    running at hu
  cases running with
  | none => cases hu
  | some current =>
    by_cases hsaved : persistence = .persisted
    · simp [hsaved] at hu
    · simp only [if_neg hsaved, List.mem_singleton] at hu
      exact ⟨hsaved, hu⟩

theorem perform_save {record : CompletionRecord} (h : ∀ store ∈ s.server.store,
      inp.fault = none ∧ Shelf.Admits cfg.codec record ⟨store, s.disk⟩) :
    (s.perform (Shelf.save cfg.codec inp.fault record)).1 = .ok () := by
  unfold Shared.perform
  split
  · rfl
  · next store hstore =>
    obtain ⟨hfault, hadmits⟩ := h store hstore
    rw [hfault]
    exact hadmits.save

theorem step_settled (bare : Prop) (hbare : s.server.store = none → bare)
    (hsaves : ∀ request record, t = .saving request record → ∀ store ∈ s.server.store,
      inp.fault = none ∧ Shelf.Admits cfg.codec record ⟨store, s.disk⟩)
    (hkept : ∀ runID, accepted runID → executionFileName runID ∈ s.disk.visible →
      completionFileName runID ∈ s.disk.visible)
    (h : t.Settled bare accepted s.disk.visible) :
    ∀ u ∈ (t.step cfg inp s).threads,
      u.Settled bare accepted (t.step cfg inp s).shared.disk.visible := by
  cases t with
  | handling request context slots => exact List.forall_mem_singleton.2 trivial
  | finishing request result =>
    simp only [Thread.step, finish]
    repeat' split
    all_goals simp [Thread.Settled]
    next hnone => exact hbare (Option.isNone_iff_eq_none.1 hnone)
  | awaiting request => exact fun u hu => by cases hu
  | saving request record =>
    simp only [Thread.step]
    split
    · exact List.forall_mem_singleton.2 trivial
    · next hfailed =>
      have hsaved := perform_save (hsaves request record rfl)
      rw [hfailed] at hsaved
      cases hsaved
  | clearing request record =>
    simp only [Thread.step]
    split
    · exact List.forall_mem_singleton.2 (.inl rfl)
    · exact List.forall_mem_singleton.2 trivial
  | unclean request record => exact List.forall_mem_singleton.2 (.inl rfl)
  | closing request record persistence =>
    intro u hu
    obtain ⟨hunsaved, rfl⟩ := close_threads hu
    exact h.resolve_left hunsaved
  | reporting record attempt =>
    simp only [Thread.step, report]
    repeat' split
    all_goals simp [Thread.Settled]
    exact h
  | cancelling request known =>
    simp only [Thread.step, answerCancel, deletePersistedExecution]
    repeat' split
    all_goals simp [Thread.Settled]
  | refusing request refusal => exact fun u hu => by cases hu
  | delivering record =>
    simp only [Thread.step]
    split
    all_goals simp [Thread.Settled]
  | delivered record => exact fun u hu => by cases hu
  | recovering recovery => exact recover_settled bare hkept h

end Accepted

section Runs

variable {cfg : Settings} {m m' : Machine} {node : Node} {l : Label} {o : Outcome}
  {others : List Thread}

theorem perform_delete_order {s : Shared} {fault : Option ℕ} {runID : Bytes}
    (hin : completionFileName runID ∈ s.disk.visible)
    (hgone : completionFileName runID ∉ (s.perform (Shelf.delete fault runID)).2.disk.visible) :
    executionFileName runID ∉ (s.perform (Shelf.delete fault runID)).2.disk.visible := by
  unfold Shared.perform at hgone ⊢
  split at hgone
  · exact absurd hin hgone
  · next store hstore =>
    exact Shelf.delete_order hin hgone

/-- Where a step removes a completion record it is that of a delivery, and the execution
record is gone. -/
theorem acts_completion (hacts : Machine.Acts cfg node m.disk l o others) {runID : Bytes}
    (hin : completionFileName runID ∈ m.disk.visible) :
    completionFileName runID ∈ o.shared.disk.visible ∨
      (∃ i inp record, l = .advance i inp ∧ node.threads[i]? = some (.delivered record) ∧
        record.runID = runID) ∧ executionFileName runID ∉ o.shared.disk.visible := by
  rcases acts_within hacts with hw | ⟨i, inp, t, -, -, -, rfl, -⟩
  · by_cases hremoves : completionFileName runID ∈ l.removes node
    · cases hacts with
      | advance i inp t hthread =>
        simp only [Label.removes, hthread, Option.map_some, Option.getD_some] at hremoves
        obtain ⟨record, rfl, rfl⟩ := Thread.delivered_of_removes hremoves
        by_cases hgone : completionFileName record.runID ∈
            ((Thread.delivered record).step cfg inp ⟨node.server, m.disk⟩).shared.disk.visible
        · exact .inl hgone
        · exact .inr ⟨⟨i, inp, record, rfl, hthread, rfl⟩, perform_delete_order hin hgone⟩
      | _ => cases hremoves
    · refine .inl (hw.disk (fun d => completionFileName runID ∈ d.visible) (fun _ h => h)
        (fun _ _ _ _ h => Shelf.mem_change_some.2 (.inr h)) (fun n hn d h => ?_) hin)
      exact Shelf.mem_change_none.2 ⟨fun heq => hremoves (heq ▸ hn), h⟩
  · exact .inl hin

theorem acts_execution (hacts : Machine.Acts cfg node m.disk l o others)
    (hnode : m.node = some node)
    (h : Settled cfg m) (hok : Recorded cfg m l) {runID : Bytes} (haccepted : m.Accepted runID)
    (hin : executionFileName runID ∈ o.shared.disk.visible) :
    executionFileName runID ∈ m.disk.visible := by
  rcases acts_within hacts with hw | ⟨i, inp, t, -, -, -, rfl, -⟩
  · by_contra hnew
    refine hw.disk (fun d => executionFileName runID ∉ d.visible) (fun _ h => h)
      (fun n hn d raw hd hmem => ?_) (fun n _ d hd hmem => hd (Shelf.mem_change_none.1 hmem).2)
      hnew hin
    refine (Shelf.mem_change_some.1 hmem).elim (fun heq => ?_) hd
    subst heq
    cases hacts with
    | dispatch request inp =>
      cases executionFileName_injective (List.mem_singleton.1 hn)
      exact hok haccepted
    | advance i inp t hthread =>
      simp only [Label.writes, hthread, Option.map_some, Option.getD_some] at hn
      obtain ⟨completed, request, todo, rfl, hskip, rfl⟩ := Thread.resuming_of_writes hn
      have hskips := h.threads node hnode _ (List.mem_of_getElem? hthread)
      exact hskip (hskips request List.mem_cons_self haccepted)
    | _ => cases hn
  · exact hin

theorem Settled.store_none (h : Settled cfg m) (hnode : m.node = some node) :
    node.server.store = none ↔ cfg.options = none := by
  rw [← Option.isNone_iff_eq_none, ← Option.isNone_iff_eq_none, ← Option.not_isSome,
    ← Option.not_isSome, h.store node hnode]

/-- While there is a process, an accepted run that has an execution record has a completion
record. -/
theorem Settled.completion (h : Settled cfg m) (hnode : m.node = some node) {runID : Bytes}
    (hacc : m.Accepted runID) (hin : executionFileName runID ∈ m.disk.visible) :
    completionFileName runID ∈ m.disk.visible :=
  (h.kept runID hacc hin).resolve_right fun hnone => by cases hnone.1.symm.trans hnode

theorem acts_accepted (hacts : Machine.Acts cfg node m.disk l o others) (hnode : m.node = some node)
    (h : Settled cfg m) {runID : Bytes} {reply : Reply} (he : .reported runID reply ∈ o.events) :
    cfg.options = none ∨ completionFileName runID ∈ m.disk.visible ∧ some runID ∈ node.duties := by
  rcases acts_events hacts he with ⟨t, ht, record, rfl, rfl | ⟨attempt, rfl⟩⟩ | hanswers
  · exact .inr ⟨h.threads node hnode _ ht, List.mem_filterMap.2 ⟨_, ht, rfl⟩⟩
  · exact .inl (h.threads node hnode _ ht)
  · cases l with
    | dispatch request inp =>
      obtain ⟨_, heq⟩ | ⟨_, _, heq, -⟩ := hanswers
      all_goals cases heq
    | cancel request inp =>
      obtain heq | ⟨_, heq⟩ := hanswers
      all_goals cases heq
    | _ => cases hanswers

theorem accepted_of_recovering (hacts : Machine.Acts cfg node m.disk l o others)
    (hnode : m.node = some node) (h : Settled cfg m) (hord : Ordered node)
    (hrecovering : none ∈ node.duties) {runID : Bytes}
    (hacc : (m.apply node o others).Accepted runID) : m.Accepted runID := by
  rw [Machine.Accepted, Machine.apply_history hnode] at hacc
  refine (List.mem_append.1 hacc).resolve_left fun he => ?_
  obtain ⟨hserving, hstore⟩ := hord.fits none hrecovering
  rcases acts_accepted hacts hnode h he with hnone | ⟨-, hduty⟩
  · rw [h.store node hnode, hnone] at hstore
    cases hstore
  · exact absurd ((hord.fits _ hduty).symm.trans hserving) (by decide)

theorem others_settled (hacts : Machine.Acts cfg node m.disk l o others)
    (hnode : m.node = some node)
    (h : Settled cfg m) (hord : Ordered node) (hok : Recorded cfg m l) {u : Thread}
    (hu : u ∈ others) :
    u.Settled (cfg.options = none) (m.apply node o others).Accepted o.shared.disk.visible := by
  have hu' := hacts.others hu
  have hsettled := h.threads node hnode u hu'
  cases u with
  | recovering recovery =>
    exact Recovery.Skips.mono hsettled
      (fun _ => accepted_of_recovering hacts hnode h hord (List.mem_filterMap.2 ⟨_, hu', rfl⟩))
      fun _ => acts_execution hacts hnode h hok
  | delivering record =>
    refine (acts_completion hacts hsettled).resolve_right
      fun ⟨⟨i, inp, record', hl, ht, hrun⟩, _⟩ => ?_
    -- The record that goes is that of another delivery of the same run.
    cases hacts with
    | advance i' inp' t ht' =>
      cases hl
      have hperm := duties_perm ht
      have hnodup := hperm.nodup_iff.2 hord.exclusive
      refine (List.nodup_cons.1 hnodup).1 (List.mem_filterMap.2 ⟨_, hu, ?_⟩)
      simp only [Thread.duty, hrun]
    | _ => cases hl
  | closing request record persistence => exact hsettled
  | reporting record attempt => exact hsettled
  | _ => trivial

theorem deliver_settled (s : Shared) (inp : Input) (bare : Prop) (accepted : Bytes → Prop) :
    ∀ u ∈ (Machine.deliver cfg s inp).threads, u.Settled bare accepted s.disk.visible := by
  unfold Machine.deliver
  split
  · exact fun u hu => by cases hu
  split
  · exact fun u hu => by cases hu
  · next records hrecords =>
    intro u hu
    obtain ⟨record, hrecord, rfl⟩ := List.mem_map.1 hu
    exact (Shelf.mem_list hrecords).1 (List.mem_map_of_mem hrecord)

theorem threads_settled (hacts : Machine.Acts cfg node m.disk l o others)
    (hnode : m.node = some node)
    (h : Settled cfg m) (hord : Ordered node) (hok : Recorded cfg m l) {u : Thread}
    (hu : u ∈ o.threads) :
    u.Settled (cfg.options = none) (m.apply node o others).Accepted o.shared.disk.visible := by
  have hacts' := hacts
  cases hacts with
  | dispatch request inp => exact thread_settled _ _ u hu
  | cancel request inp =>
    unfold Machine.receiveCancel at hu
    split at hu
    · cases hu
    · cases List.mem_singleton.1 hu
      trivial
  | drain => cases hu
  | drainExpired => cases hu
  | deliver inp =>
    rw [deliver_shared]
    exact deliver_settled ⟨node.server, m.disk⟩ inp _ _ u hu
  | advance i inp t hthread =>
    have ht := List.mem_of_getElem? hthread
    have hsaves : ∀ request record, t = .saving request record → ∀ store ∈ node.server.store,
        inp.fault = none ∧ Shelf.Admits cfg.codec record ⟨store, m.disk⟩ := by
      intro request record heq store hstore
      have hsaves := hok node hnode
      simp only [Node.Saves, hthread, heq, Option.mem_def.1 hstore] at hsaves
      exact hsaves
    have hsettled := step_settled (s := ⟨node.server, m.disk⟩) (cfg.options = none)
      (h.store_none hnode).1 hsaves (fun _ => h.completion hnode) (h.threads node hnode t ht) u hu
    cases u with
    | recovering recovery =>
      have hduty : none ∈ t.duty.toList :=
        (step_duties cfg inp _ t).subset (List.mem_filterMap.2 ⟨_, hu, rfl⟩)
      have hrecovering : none ∈ node.duties :=
        List.mem_filterMap.2 ⟨t, ht, Option.mem_toList.1 hduty⟩
      exact Recovery.Skips.mono hsettled
        (fun _ => accepted_of_recovering hacts' hnode h hord hrecovering) fun _ _ hin => hin
    | _ => exact hsettled

theorem acts_bare (hacts : Machine.Acts cfg node m.disk l o others) (hnode : m.node = some node)
    (h : Settled cfg m) (hnone : cfg.options = none) (n : Name) : n ∉ o.shared.disk.visible := by
  rcases acts_within hacts with hw | ⟨i, inp, t, -, -, -, rfl, -⟩
  · rw [hw.bare ((h.store_none hnode).2 hnone)]
    exact h.bare hnone n
  · exact h.bare hnone n

theorem Settled.act (h : Settled cfg m) (hacts : Machine.Acts cfg node m.disk l o others)
    (hnode : m.node = some node) (hord : Ordered node) (hok : Recorded cfg m l) :
    Settled cfg (m.apply node o others) where
  bare hnone n hin := by
    rw [Machine.apply_visible] at hin
    exact acts_bare hacts hnode h hnone n hin
  kept runID hacc hin := by
    rw [Machine.apply_visible] at hin ⊢
    rw [Machine.Accepted, Machine.apply_history hnode] at hacc
    have hcompletion : completionFileName runID ∈ m.disk.visible := by
      rcases List.mem_append.1 hacc with hnew | hold
      · rcases acts_accepted hacts hnode h hnew with hnone | hdelivery
        · exact absurd hin (acts_bare hacts hnode h hnone _)
        · exact hdelivery.1
      · exact h.completion hnode hold (acts_execution hacts hnode h hok hold hin)
    exact .inl ((acts_completion hacts hcompletion).resolve_right fun hgone => hgone.2 hin)
  store node' hnode' := by
    obtain ⟨-, rfl⟩ := Machine.apply_node hnode'
    rw [← h.store node hnode]
    rcases acts_within hacts with hw | ⟨i, inp, t, -, -, -, rfl, -⟩
    · exact hw.store
    · rfl
  threads node' hnode' u hu := by
    obtain ⟨-, rfl⟩ := Machine.apply_node hnode'
    rw [Machine.apply_visible]
    rcases List.mem_append.1 hu with hnew | hold
    · exact threads_settled hacts hnode h hord hok hnew
    · exact others_settled hacts hnode h hord hok hold

theorem Settled.halted (h : Settled cfg m) {disk : Disk}
    (hvisible : ∀ n, n ∈ disk.visible ↔ n ∈ m.disk.visible) : Settled cfg (m.halted disk) where
  bare hnone n hin := h.bare hnone n ((hvisible n).1 hin)
  kept runID hacc hin := by
    have hold := h.kept runID hacc ((hvisible _).1 hin)
    exact hold.imp (hvisible _).2 fun hnone => ⟨rfl, hnone.2⟩
  store node hnode := by cases hnode
  threads node hnode := by cases hnode

theorem newFileCompletionStore_completion {inp : Input} {options : List FileCompletionStore.Options}
    {d : Disk} {runID : Bytes} (hin : completionFileName runID ∈ d.visible) :
    completionFileName runID ∈
        (Shelf.newFileCompletionStore cfg.codec inp.fault options d).2.visible ∨
      isInterrupted (executionFileName runID) = true := by
  by_cases hinterrupted : isInterrupted (completionFileName runID) = true
  · exact .inr (isInterrupted_executionFileName hinterrupted)
  · refine .inl (Shelf.newFileCompletionStore_keeps
      (P := fun d => completionFileName runID ∈ d.visible) options (fun d n hn hd => ?_) hin)
    exact Shelf.mem_change_none.2 ⟨fun heq => hinterrupted (heq ▸ hn), hd⟩

theorem mem_of_newFileCompletionStore {inp : Input} {options : List FileCompletionStore.Options}
    {d : Disk} {n : Name}
    (hin : n ∈ (Shelf.newFileCompletionStore cfg.codec inp.fault options d).2.visible) :
    n ∈ d.visible := by
  by_contra hnew
  exact Shelf.newFileCompletionStore_keeps (P := fun d => n ∉ d.visible) options
    (fun d _ _ hd hmem => hd (Shelf.mem_change_none.1 hmem).2) hnew hin

theorem Settled.start (h : Settled cfg m) (hnode : m.node = none) (inp : Input) :
    Settled cfg (m.start cfg inp) := by
  have hpast : m.past = m.history := by rw [Machine.history, hnode]
  unfold Machine.start
  cases hoptions : cfg.options with
  | none =>
    exact
      { bare := fun _ => h.bare hoptions
        kept := fun runID _ hin => absurd hin (h.bare hoptions _)
        store := fun node hnode => by cases hnode; rw [hoptions]; rfl
        threads := fun node hnode t ht => by cases hnode; cases ht }
  | some options =>
    dsimp only
    have hkept : ∀ runID, m.Accepted runID → executionFileName runID ∈
        (Shelf.newFileCompletionStore cfg.codec inp.fault options m.disk).2.visible →
        completionFileName runID ∈
          (Shelf.newFileCompletionStore cfg.codec inp.fault options m.disk).2.visible ∨
        isInterrupted (executionFileName runID) = true := fun runID hacc hin => by
      rcases h.kept runID hacc (mem_of_newFileCompletionStore hin) with hcompletion | hinterrupted
      · exact newFileCompletionStore_completion hcompletion
      · exact .inr hinterrupted.2
    have hopened : ∀ store n, (Shelf.newFileCompletionStore cfg.codec inp.fault options m.disk).1 =
        .ok store →
          n ∈ (Shelf.newFileCompletionStore cfg.codec inp.fault options m.disk).2.visible →
        isInterrupted n = false :=
      fun store n hok hin => ((Shelf.mem_newFileCompletionStore hok).1 hin).1
    generalize Shelf.newFileCompletionStore cfg.codec inp.fault options m.disk =
      opened at hkept hopened
    obtain ⟨res, disk⟩ := opened
    cases res with
    | error e =>
      exact
        { bare := fun hnone => by cases hoptions.symm.trans hnone
          kept := fun runID hacc hin => by
            rw [Disk.visible_abandon] at hin ⊢
            exact (hkept runID hacc hin).imp_right fun hi => ⟨hnode, hi⟩
          store := fun node hnode' => by cases hnode.symm.trans hnode'
          threads := fun node hnode' => by cases hnode.symm.trans hnode' }
    | ok store =>
      exact
        { bare := fun hnone => by cases hoptions.symm.trans hnone
          kept := fun runID hacc hin => by
            have hacc' : m.Accepted runID := by rw [Machine.Accepted, ← hpast]; exact hacc
            refine .inl ((hkept runID hacc' hin).resolve_right fun hi => ?_)
            exact absurd (hi.symm.trans (hopened store _ rfl hin)) (by decide)
          store := fun node hnode => by cases hnode; rw [hoptions]; rfl
          threads := fun node hnode t ht => by
            cases hnode
            cases List.mem_singleton.1 ht
            trivial }

theorem settled (hm : Machine.Reachable cfg (Recorded cfg) m) : Settled cfg m := by
  induction hm with
  | init =>
    exact
      { bare := fun _ n hin => by cases hin
        kept := fun runID hacc => by cases hacc
        store := fun node hnode => by cases hnode
        threads := fun node hnode => by cases hnode }
  | step hm hs hok ih =>
    cases Machine.step_cases hs with
    | start inp hnone => exact ih.start hnone inp
    | stop => exact ih.halted fun n => by rw [Disk.visible_abandon]
    | powerLoss kept garbage =>
      refine ih.halted fun n => ?_
      rw [show kept = _ from hok]
      exact Directory.mem_garble garbage
    | act node o others hnode hacts => exact ih.act hacts hnode (ordered hm node hnode) hok

/-- A recovery passes over the runs whose completion was accepted, and starts no handler for
them. -/
theorem accepted_run_not_resumed (cfg : Settings) (m : Machine)
    (hm : Machine.Reachable cfg (Recorded cfg) m) :
    (∀ node completed todo request, m.node = some node →
        .recovering (.resuming completed todo) ∈ node.threads → request ∈ todo →
        m.Accepted request.runId → request.runId ∈ completed) ∧
      ∀ l m', m.step cfg l = some m' → Recorded cfg m l →
        ∃ new, m'.history = new ++ m.history ∧
          ∀ r c, .started r c true ∈ new → ¬m.Accepted r.runId := by
  have h := settled hm
  have hskips : ∀ node completed todo request, m.node = some node →
      .recovering (.resuming completed todo) ∈ node.threads → request ∈ todo →
      m.Accepted request.runId → request.runId ∈ completed :=
    fun node completed todo request hnode ht => h.threads node hnode _ ht request
  refine ⟨hskips, fun l m' hs hok => ?_⟩
  cases Machine.step_cases hs with
  | start inp hnone => exact ⟨[], Machine.start_history hnone inp, fun r c hin => by cases hin⟩
  | stop => exact ⟨[], rfl, fun r c hin => by cases hin⟩
  | powerLoss => exact ⟨[], rfl, fun r c hin => by cases hin⟩
  | act node o others hnode hacts =>
    refine ⟨o.events, Machine.apply_history hnode, fun r c hin hacc => ?_⟩
    rcases acts_events hacts hin with ⟨t, ht, -, completed, request, todo, rfl, hnew, hr⟩ | hanswers
    · rw [hr] at hacc
      exact hnew (hskips node completed _ request hnode ht List.mem_cons_self hacc)
    · cases l with
      | dispatch request inp =>
        obtain ⟨_, heq⟩ | ⟨_, _, heq, -⟩ := hanswers
        all_goals cases heq
      | cancel request inp =>
        obtain heq | ⟨_, heq⟩ := hanswers
        all_goals cases heq
      | _ => cases hanswers

end Runs

section Sample

def acceptedFromMemory : List Label :=
  recovered ++ [.dispatch dockerRequest { createdAt := newYear },
    .advance 0 { createdAt := newYear },
    .advance 0 { createdAt := newYear }, .advance 0 { createdAt := newYear, fault := some 0 },
    .advance 0 { createdAt := newYear }, .advance 0 { createdAt := newYear }, .stop] ++ recovered

theorem accepted_run_resumed :
    ∃ m m' : Machine, Machine.Reachable (plainSettings (some [])) (fun _ _ => True) m ∧
      m.Accepted dockerRequest.runId ∧
      m.step (plainSettings (some [])) (.advance 0 { createdAt := newYear }) = some m' ∧
      m'.history = .started dockerRequest 0 true :: m.history := by
  have hrun : ((Machine.init.run (plainSettings (some [])) acceptedFromMemory).bind fun m =>
      (m.step (plainSettings (some [])) (.advance 0 { createdAt := newYear })).map fun m' =>
        (decide (.reported dockerRequest.runId .success ∈ m.history),
          decide (m'.history = .started dockerRequest 0 true :: m.history))) =
            some (true, true) := by
    decide +kernel
  obtain ⟨m, hm, hrun⟩ := Option.bind_eq_some_iff.1 hrun
  obtain ⟨m', hm', hfacts⟩ := Option.map_eq_some_iff.1 hrun
  rw [Prod.mk.injEq, decide_eq_true_eq, decide_eq_true_eq] at hfacts
  exact ⟨m, m', Machine.Reachable.init.run hm, hfacts.1, hm', hfacts.2⟩

def acceptedByDelivery : List Label :=
  recovered ++ [.dispatch dockerRequest { createdAt := newYear },
    .advance 0 { createdAt := newYear },
    .advance 0 { createdAt := newYear }, .advance 0 { createdAt := newYear },
    .advance 0 { createdAt := newYear, fault := some 0 }, .deliver { createdAt := newYear },
    .advance 0 { createdAt := newYear }, .stop] ++ recovered

theorem accepted_run_skipped :
    ∃ m : Machine, Machine.Reachable (plainSettings (some []))
      (Recorded (plainSettings (some []))) m ∧
      m.Accepted dockerRequest.runId ∧
      ∀ l m', m.step (plainSettings (some [])) l = some m' →
        Recorded (plainSettings (some [])) m l →
        ∃ new, m'.history = new ++ m.history ∧ ∀ c, .started dockerRequest c true ∉ new := by
  have hrun : ((Machine.init.runWhile (plainSettings (some [])) (Recorded (plainSettings (some [])))
      acceptedByDelivery).map fun m => decide (m.Accepted dockerRequest.runId)) = some true := by
    decide +kernel
  obtain ⟨m, hm, hfacts⟩ := Option.map_eq_some_iff.1 hrun
  have hreach := Machine.Reachable.init.runWhile hm
  have haccepted := of_decide_eq_true hfacts
  obtain ⟨-, hlater⟩ := accepted_run_not_resumed (plainSettings (some [])) m hreach
  refine ⟨m, hreach, haccepted, fun l m' hs hok => ?_⟩
  obtain ⟨new, hnew, hstarted⟩ := hlater l m' hs hok
  exact ⟨new, hnew, fun c hin => hstarted _ c hin haccepted⟩

end Sample

end GoScheduler.Executor
