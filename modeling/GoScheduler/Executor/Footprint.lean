import GoScheduler.Executor.Server
import Mathlib.Data.List.Perm.Basic

/-! Which entries of the directory a thread may create or remove with its next step, and which
threads run together: one recovery and then, one for each record, deliveries. -/
namespace GoScheduler.Executor

open Process

section Footprints

def Thread.writes : Thread → List Name
  | .saving _ record => [completionFileName record.runID]
  | .recovering (.reconciling completed _ (request :: _)) =>
      if request.runId ∈ completed then [] else [completionFileName request.runId]
  | .recovering (.resuming completed (request :: _)) =>
      if request.runId ∈ completed then [] else [executionFileName request.runId]
  | _ => []

def Thread.removes : Thread → List Name
  | .awaiting request | .clearing request _ => [executionFileName request.runId]
  | .cancelling request _ => [executionFileName request.runId]
  | .delivered record => [executionFileName record.runID, completionFileName record.runID]
  | .recovering (.reconciling completed _ (request :: _)) =>
      if request.runId ∈ completed then [executionFileName request.runId] else []
  | .recovering (.removing _ _ request _) => [executionFileName request.runId]
  | _ => []

theorem Thread.delivered_of_removes {t : Thread} {runID : Bytes}
    (h : completionFileName runID ∈ t.removes) :
    ∃ record, t = .delivered record ∧ record.runID = runID := by
  have hne (r : Bytes) : completionFileName runID ∉ [executionFileName r] := fun h =>
    completionFileName_ne_executionFileName runID r (List.mem_singleton.1 h)
  unfold Thread.removes at h
  split at h
  · exact absurd h (hne _)
  · exact absurd h (hne _)
  · exact absurd h (hne _)
  · next record =>
    rcases List.mem_cons.1 h with h | h
    · exact absurd h (completionFileName_ne_executionFileName _ _)
    · exact ⟨record, rfl, (completionFileName_injective (List.mem_singleton.1 h)).symm⟩
  · split at h
    · exact absurd h (hne _)
    · cases h
  · exact absurd h (hne _)
  · cases h

theorem Thread.resuming_of_writes {t : Thread} {runID : Bytes}
    (h : executionFileName runID ∈ t.writes) :
    ∃ completed request todo, t = .recovering (.resuming completed (request :: todo)) ∧
      request.runId ∉ completed ∧ request.runId = runID := by
  have hne (r : Bytes) : executionFileName runID ∉ [completionFileName r] := fun h =>
    completionFileName_ne_executionFileName r runID (List.mem_singleton.1 h).symm
  unfold Thread.writes at h
  split at h
  · exact absurd h (hne _)
  · split at h
    · cases h
    · exact absurd h (hne _)
  · next completed request todo =>
    split at h
    · cases h
    · next hnew =>
      exact ⟨completed, request, todo, rfl, hnew,
        (executionFileName_injective (List.mem_singleton.1 h)).symm⟩
  · cases h

def Thread.endsRecovery : Thread → Bool
  | .recovering (.resuming _ []) => true
  | _ => false

/-- A step that touches no more than these entries, and neither opens the store nor begins to
answer requests. -/
structure Within (writes removes : List Name) (s s' : Shared) : Prop where
  store : s'.server.store.isSome = s.server.store.isSome
  serving : s'.server.serving = s.server.serving
  bare : s.server.store = none → s'.disk = s.disk
  disk : ∀ P : Disk → Prop, (∀ d, P d → P d.sync) →
    (∀ n ∈ writes, ∀ d raw, P d → P (d.change [(n, some ⟨raw, true⟩)])) →
    (∀ n ∈ removes, ∀ d, P d → P (d.change [(n, none)])) → P s.disk → P s'.disk

variable {s s' s'' : Shared} {writes removes : List Name}

theorem Within.of_eq (hstore : s'.server.store = s.server.store)
    (hserving : s'.server.serving = s.server.serving) (hdisk : s'.disk = s.disk) :
    Within writes removes s s' :=
  ⟨by rw [hstore], hserving, fun _ => hdisk, fun P _ _ _ h => by rwa [hdisk]⟩

theorem Within.refl (s : Shared) : Within writes removes s s := .of_eq rfl rfl rfl

theorem Within.trans (h : Within writes removes s s') (h' : Within writes removes s' s'') :
    Within writes removes s s'' where
  store := h'.store.trans h.store
  serving := h'.serving.trans h.serving
  bare := fun hnone => by
    have hnone' : s'.server.store = none := by
      rw [← Option.isNone_iff_eq_none, ← Option.not_isSome, h.store, hnone]
      rfl
    rw [h'.bare hnone', h.bare hnone]
  disk := fun P hsync hwrite hremove hP =>
    h'.disk P hsync hwrite hremove (h.disk P hsync hwrite hremove hP)

theorem failStore_within (s : Shared) : Within writes removes s s.failStore := .of_eq rfl rfl rfl

variable {res : Except Error Unit}

theorem perform_within {operation : Shelf → Except Error Unit × Shelf}
    (hdone : s.perform operation = (res, s'))
    (hdisk : ∀ (P : Disk → Prop) (s : Shelf), (∀ d, P d → P d.sync) →
      (∀ n ∈ writes, ∀ d raw, P d → P (d.change [(n, some ⟨raw, true⟩)])) →
      (∀ n ∈ removes, ∀ d, P d → P (d.change [(n, none)])) → P s.disk → P (operation s).2.disk) :
    Within writes removes s s' := by
  obtain rfl : (s.perform operation).2 = s' := congrArg Prod.snd hdone
  unfold Shared.perform
  split
  · exact .refl s
  · next store hstore =>
    refine ⟨by rw [hstore]; rfl, rfl, fun hnone => ?_, fun P hsync hwrite hremove h =>
      hdisk P ⟨store, s.disk⟩ hsync hwrite hremove h⟩
    cases hstore.symm.trans hnone

variable {cfg : Settings} {inp : Input} {runID : Bytes} {record : CompletionRecord}
  {request : DispatchRequest}

theorem save_within (h : s.perform (Shelf.save cfg.codec inp.fault record) = (res, s')) :
    Within [completionFileName record.runID] [] s s' :=
  perform_within h fun _ _ hsync hwrite _ h =>
    Shelf.save_keeps record (hwrite _ List.mem_cons_self) hsync h

theorem saveExecution_within
    (h : s.perform (Shelf.saveExecution cfg.codec inp.fault request) = (res, s')) :
    Within [executionFileName request.runId] [] s s' :=
  perform_within h fun _ _ hsync hwrite _ h =>
    Shelf.saveExecution_keeps request (hwrite _ List.mem_cons_self) hsync h

theorem deleteExecution_within
    (h : s.perform (Shelf.deleteExecution inp.fault runID) = (res, s')) :
    Within [] [executionFileName runID] s s' :=
  perform_within h fun _ _ hsync _ hremove h =>
    Shelf.deleteExecution_keeps (hremove _ List.mem_cons_self) hsync h

theorem delete_within (h : s.perform (Shelf.delete inp.fault runID) = (res, s')) :
    Within [] [executionFileName runID, completionFileName runID] s s' :=
  perform_within h fun _ _ hsync _ hremove h =>
    Shelf.delete_keeps (hremove _ List.mem_cons_self)
      (hremove _ (List.mem_cons_of_mem _ List.mem_cons_self)) hsync h

variable (cfg inp)

theorem persist_within (request : DispatchRequest) (slots : Option Slots) (s : Shared) :
    Within [executionFileName request.runId] [] s
      (startExecution.persist cfg inp request s slots).shared := by
  unfold startExecution.persist
  split
  · next hdone => exact (saveExecution_within hdone).trans (failStore_within _)
  · next hdone =>
    refine (saveExecution_within hdone).trans (.of_eq ?_ ?_ rfl)
    all_goals cases slots <;> rfl

theorem dispatch_within (recovered : Bool) (request : DispatchRequest) (s : Shared) :
    Within [executionFileName request.runId] [] s
      (dispatch cfg inp recovered request s).shared := by
  have hpruned : Within [executionFileName request.runId] [] s
      { s with server := s.server.pruneExecutionHistory cfg inp.now } := .of_eq rfl rfl rfl
  refine dispatch_cases
    (P := fun d => Within [executionFileName request.runId] [] s d.shared) recovered
    (fun _ => .refl s) (fun _ _ => hpruned) fun _ => ?_
  refine startExecution_cases
    (P := fun d => Within [executionFileName request.runId] [] s d.shared)
    (fun _ => hpruned) fun slots => hpruned.trans ?_
  rw [← timed_runId request recovered inp.arrivedAt]
  exact persist_within cfg inp _ slots _

theorem finish_within (request : DispatchRequest) (result : HandlerResult) (s : Shared) :
    Within [] [] s (finish inp request result s).shared := by
  unfold finish
  split
  · split
    all_goals exact .of_eq rfl rfl rfl
  · dsimp only
    repeat' split
    all_goals exact .refl s

theorem close_within (request : DispatchRequest) (record : CompletionRecord)
    (persistence : Persistence) (s : Shared) :
    Within [] [] s (close cfg inp request record persistence s).shared := by
  unfold close transition
  repeat' split
  all_goals exact .of_eq rfl rfl rfl

theorem deletePersistedExecution_within (request : CancelRequest) (refusal : Error → Refusal)
    (s : Shared) :
    Within [] [executionFileName request.runId] s
      (deletePersistedExecution inp request refusal s).shared := by
  unfold deletePersistedExecution
  split
  all_goals exact deleteExecution_within ‹_›

theorem answerCancel_within (request : CancelRequest) (known : Bool) (s : Shared) :
    Within [] [executionFileName request.runId] s
      (answerCancel cfg inp request known s).shared := by
  unfold answerCancel
  repeat' split
  all_goals first
    | exact deletePersistedExecution_within inp request _ s
    | exact .refl s

theorem reconcile_within (completed : List Bytes) (requests : List DispatchRequest)
    (request : DispatchRequest) (todo : List DispatchRequest) (s : Shared) :
    Within (if request.runId ∈ completed then [] else [completionFileName request.runId])
      (if request.runId ∈ completed then [executionFileName request.runId] else []) s
      (reconcile cfg inp completed requests request todo s).shared := by
  have hpersist (message : String) : Within [completionFileName request.runId] [] s
      (reconcile.persist cfg inp completed requests request todo s message).shared := by
    unfold reconcile.persist
    split
    all_goals next hdone => exact (save_within hdone :)
  unfold reconcile
  split
  · split
    all_goals exact deleteExecution_within ‹_›
  · repeat' split
    all_goals first
      | exact hpersist _
      | exact .refl s

theorem recover_within (recovery : Recovery) (s : Shared)
    (h : (Thread.recovering recovery).endsRecovery = true → s.server.store = none) :
    Within (Thread.recovering recovery).writes (Thread.recovering recovery).removes s
      (recover cfg inp recovery s).shared := by
  unfold recover
  cases hstore : s.server.store with
  | none => exact .refl s
  | some store =>
    dsimp only
    cases recovery with
    | begun =>
      dsimp only
      split
      all_goals exact .refl s
    | listed completed =>
      dsimp only
      split
      all_goals exact .refl s
    | reconciling completed requests todo =>
      cases todo with
      | nil => exact .refl s
      | cons request todo => exact reconcile_within cfg inp completed requests request todo s
    | removing completed requests request todo =>
      dsimp only
      split
      all_goals exact deleteExecution_within ‹_›
    | resuming completed todo =>
      cases todo with
      | nil => cases hstore.symm.trans (h rfl)
      | cons request todo =>
        dsimp only [Thread.writes, Thread.removes]
        by_cases hskip : request.runId ∈ completed ∨ isExternallyRecoverable request = false
        · rw [if_pos hskip]
          exact .refl s
        · rw [if_neg hskip, if_neg (not_or.1 hskip).1]
          have hdispatch := dispatch_within cfg inp true request s
          generalize dispatch cfg inp true request s = d at hdispatch
          obtain ⟨answer, shared, started⟩ := d
          cases answer with
          | ok _ => exact hdispatch
          | error e => exact hdispatch

theorem step_within (t : Thread) (s : Shared) (h : t.endsRecovery = true → s.server.store = none) :
    Within t.writes t.removes s (t.step cfg inp s).shared := by
  cases t with
  | handling request context slots =>
    refine .of_eq ?_ ?_ rfl
    all_goals cases slots <;> rfl
  | finishing request result => exact finish_within inp request result s
  | awaiting request => exact deleteExecution_within rfl
  | saving request record =>
    simp only [Thread.step]
    split
    all_goals exact save_within ‹_›
  | clearing request record =>
    simp only [Thread.step]
    split
    all_goals exact deleteExecution_within ‹_›
  | unclean request record => exact failStore_within s
  | closing request record persistence => exact close_within cfg inp request record persistence s
  | reporting record attempt =>
    simp only [Thread.step, report]
    split
    all_goals exact .refl s
  | cancelling request known => exact answerCancel_within cfg inp request known s
  | refusing request refusal => exact failStore_within s
  | delivering record => exact .refl s
  | delivered record => exact delete_within rfl
  | recovering recovery => exact recover_within cfg inp recovery s h

theorem step_endsRecovery {t : Thread} {store : FileCompletionStore} (h : t.endsRecovery = true)
    (hstore : s.server.store = some store) :
    t.step cfg inp s = { shared := { s with server := { s.server with serving := true } } } := by
  unfold Thread.endsRecovery at h
  split at h
  · simp only [Thread.step, recover, hstore]
  · cases h

end Footprints

section Duties

variable (cfg : Settings) (inp : Input) (s : Shared)

/-- What no two threads do at a time: recover, and deliver the record of a run. -/
def Thread.duty : Thread → Option (Option Bytes)
  | .recovering _ => some none
  | .delivering record | .delivered record => some (some record.runID)
  | _ => none

theorem filterMap_duty_thread (d : Dispatched) : d.thread.filterMap Thread.duty = [] := by
  unfold Dispatched.thread
  cases d.started with
  | none => rfl
  | some x => rfl

theorem step_duties (t : Thread) :
    ((t.step cfg inp s).threads.filterMap Thread.duty).Sublist t.duty.toList := by
  cases t with
  | finishing request result =>
    simp only [Thread.step, finish]
    repeat' split
    all_goals simp [Thread.duty]
  | saving request record =>
    simp only [Thread.step]
    split
    all_goals simp [Thread.duty]
  | clearing request record =>
    simp only [Thread.step]
    split
    all_goals simp [Thread.duty]
  | closing request record persistence =>
    simp only [Thread.step, close, transition]
    repeat' split
    all_goals simp [Thread.duty]
  | reporting record attempt =>
    simp only [Thread.step, report]
    repeat' split
    all_goals simp [Thread.duty]
  | cancelling request known =>
    simp only [Thread.step, answerCancel, deletePersistedExecution]
    repeat' split
    all_goals simp [Thread.duty]
  | delivering record =>
    simp only [Thread.step]
    split
    all_goals simp [Thread.duty]
  | recovering recovery =>
    simp only [Thread.step, recover, reconcile, reconcile.persist]
    repeat' split
    all_goals simp [Thread.duty, exit, filterMap_duty_thread]
  | _ => simp [Thread.step, Thread.duty]

end Duties

section Order

variable {cfg : Settings} {node : Node} {disk : Disk} {l : Label} {o : Outcome}
  {others : List Thread} {m : Machine}

def Label.writes (node : Node) : Label → List Name
  | .dispatch request _ => [executionFileName request.runId]
  | .advance i _ => (node.threads[i]?.map Thread.writes).getD []
  | _ => []

def Label.removes (node : Node) : Label → List Name
  | .advance i _ => (node.threads[i]?.map Thread.removes).getD []
  | _ => []

theorem receiveCancel_within (s : Shared) (request : CancelRequest) (inp : Input) :
    Within [] [] s (Machine.receiveCancel cfg s request inp).shared := by
  unfold Machine.receiveCancel cancelInMemory
  repeat' split
  all_goals exact .of_eq rfl rfl rfl

theorem deliver_shared (s : Shared) (inp : Input) : (Machine.deliver cfg s inp).shared = s := by
  unfold Machine.deliver
  repeat' split
  all_goals rfl

/-- A step of the process stays within its entries, or it is the one that ends the recovery. -/
theorem acts_within (hacts : Machine.Acts cfg node disk l o others) :
    Within (l.writes node) (l.removes node) ⟨node.server, disk⟩ o.shared ∨
      ∃ i inp t, l = .advance i inp ∧ node.threads[i]? = some t ∧ t.endsRecovery = true ∧
        o = { shared := ⟨{ node.server with serving := true }, disk⟩ } ∧
        others = node.threads.eraseIdx i := by
  cases hacts with
  | dispatch request inp => exact .inl (dispatch_within cfg inp false request _)
  | cancel request inp => exact .inl (receiveCancel_within _ request inp)
  | drain => exact .inl (.of_eq rfl rfl rfl)
  | drainExpired => exact .inl (.of_eq rfl rfl rfl)
  | deliver inp =>
    rw [deliver_shared]
    exact .inl (.refl _)
  | advance i inp t hthread =>
    simp only [Label.writes, Label.removes, hthread, Option.map_some, Option.getD_some]
    rcases Option.eq_none_or_eq_some node.server.store with hstore | ⟨store, hstore⟩
    · exact .inl (step_within cfg inp t _ fun _ => hstore)
    · cases hends : t.endsRecovery with
      | false => exact .inl (step_within cfg inp t _ fun h => absurd (hends ▸ h) (by decide))
      | true =>
        have hend := step_endsRecovery cfg inp (s := ⟨node.server, disk⟩) hends hstore
        exact .inr ⟨i, inp, t, rfl, hthread, hends, hend, rfl⟩

def Node.duties (node : Node) : List (Option Bytes) := node.threads.filterMap Thread.duty

def Server.Fits (s : Server) : Option Bytes → Prop
  | none => s.serving = false ∧ s.store.isSome = true
  | some _ => s.serving = true

structure Ordered (node : Node) : Prop where
  exclusive : node.duties.Nodup
  fits : ∀ x ∈ node.duties, node.server.Fits x

theorem duties_perm {i : ℕ} {t : Thread} (hthread : node.threads[i]? = some t) :
    (t.duty.toList ++ (node.threads.eraseIdx i).filterMap Thread.duty).Perm node.duties := by
  obtain ⟨hi, rfl⟩ := List.getElem?_eq_some_iff.1 hthread
  have hperm := (List.getElem_cons_eraseIdx_perm hi).filterMap Thread.duty
  rw [List.filterMap_cons] at hperm
  cases hduty : node.threads[i].duty with
  | none =>
    rw [hduty] at hperm
    exact hperm
  | some x =>
    rw [hduty] at hperm
    exact hperm

theorem duty_of_endsRecovery {t : Thread} (h : t.endsRecovery = true) : t.duty = some none := by
  unfold Thread.endsRecovery at h
  split at h
  · rfl
  · cases h

theorem Ordered.of_subperm {node' : Node} (h : Ordered node)
    (hduties : node'.duties.Subperm node.duties)
    (hserving : node'.server.serving = node.server.serving)
    (hstore : node'.server.store.isSome = node.server.store.isSome) : Ordered node' := by
  obtain ⟨duties, hperm, hsub⟩ := hduties
  refine ⟨hperm.nodup_iff.1 (h.exclusive.sublist hsub), fun x hx => ?_⟩
  have hold := h.fits x (hsub.subset (hperm.mem_iff.2 hx))
  cases x with
  | none => exact ⟨hserving.trans hold.1, hstore.trans hold.2⟩
  | some runID => exact hserving.trans hold

theorem Ordered.idle (h : Ordered node) (hserving : node.server.serving = true)
    (hidle : node.threads.any Thread.isDelivery = false) : node.duties = [] := by
  refine List.eq_nil_iff_forall_not_mem.2 fun x hx => ?_
  have hfits := h.fits x hx
  obtain ⟨t, ht, hduty⟩ := List.mem_filterMap.1 hx
  have hnone := List.any_eq_false.1 hidle t ht
  cases t with
  | recovering recovery =>
    cases hduty
    rw [hfits.1] at hserving
    cases hserving
  | delivering record => exact hnone rfl
  | delivered record => exact hnone rfl
  | _ => cases hduty

theorem deliver_duties (cfg : Settings) (s : Shared) (inp : Input) :
    ((Machine.deliver cfg s inp).threads.filterMap Thread.duty).Nodup ∧
      none ∉ (Machine.deliver cfg s inp).threads.filterMap Thread.duty := by
  unfold Machine.deliver
  split
  · simp
  split
  · simp
  · next records hrecords =>
    have hmap : (records.map Thread.delivering).filterMap Thread.duty =
        (records.map CompletionRecord.runID).map some := by
      rw [List.filterMap_map, List.map_map, ← List.filterMap_eq_map]
      rfl
    rw [hmap]
    exact ⟨(Shelf.list_nodup hrecords).map (Option.some_injective _), by simp⟩

theorem filterMap_duty_receiveCancel (s : Shared) (request : CancelRequest) (inp : Input) :
    (Machine.receiveCancel cfg s request inp).threads.filterMap Thread.duty = [] := by
  unfold Machine.receiveCancel
  split
  · rfl
  · rfl

theorem Ordered.act (h : Ordered node) (hacts : Machine.Acts cfg node disk l o others)
    (log : List Event) : Ordered ⟨o.shared.server, o.threads ++ others, log⟩ := by
  have hkept (hw : Within (l.writes node) (l.removes node) ⟨node.server, disk⟩ o.shared)
      (hduties : (o.threads.filterMap Thread.duty ++ others.filterMap Thread.duty).Subperm
        node.duties) :
      Ordered ⟨o.shared.server, o.threads ++ others, log⟩ :=
    h.of_subperm (by rwa [Node.duties, List.filterMap_append]) hw.serving hw.store
  rcases acts_within hacts with hw | ⟨i, inp, t, rfl, hthread, hends, rfl, rfl⟩
  · cases hacts with
    | dispatch request inp =>
      refine hkept hw ?_
      rw [show (Machine.receiveDispatch cfg ⟨node.server, disk⟩ request inp).threads.filterMap
        Thread.duty = [] from filterMap_duty_thread _]
      exact List.Subperm.refl _
    | cancel request inp =>
      refine hkept hw ?_
      rw [filterMap_duty_receiveCancel]
      exact List.Subperm.refl _
    | drain => exact hkept hw (List.Subperm.refl _)
    | drainExpired => exact hkept hw (List.Subperm.refl _)
    | deliver inp hserving hidle =>
      have hnone : node.threads.filterMap Thread.duty = [] := h.idle hserving hidle
      obtain ⟨hnodup, hrounds⟩ := deliver_duties cfg ⟨node.server, disk⟩ inp
      refine ⟨?_, fun x hx => ?_⟩
      · rw [Node.duties, List.filterMap_append, hnone, List.append_nil]
        exact hnodup
      · rw [Node.duties, List.filterMap_append, hnone, List.append_nil] at hx
        cases x with
        | none => exact absurd hx hrounds
        | some runID => exact hw.serving.trans hserving
    | advance i inp t hthread =>
      exact hkept hw
        (((step_duties cfg inp _ t).append_right _).subperm.trans (duties_perm hthread).subperm)
  · -- Before the end of the recovery nothing else has a duty.
    have hperm := duties_perm hthread
    rw [duty_of_endsRecovery hends, Option.toList_some, List.singleton_append] at hperm
    have hrecovering := h.fits none (hperm.mem_iff.1 List.mem_cons_self)
    have hnone : (node.threads.eraseIdx i).filterMap Thread.duty = [] := by
      refine List.eq_nil_iff_forall_not_mem.2 fun x hx => ?_
      have hnodup := List.nodup_cons.1 (hperm.nodup_iff.2 h.exclusive)
      cases x with
      | none => exact hnodup.1 hx
      | some runID =>
        have hserving := h.fits _ (hperm.mem_iff.1 (List.mem_cons_of_mem none hx))
        rw [Server.Fits, hrecovering.1] at hserving
        cases hserving
    refine ⟨?_, fun x hx => ?_⟩
    · rw [Node.duties, List.nil_append, hnone]
      exact List.nodup_nil
    · rw [Node.duties, List.nil_append, hnone] at hx
      cases hx

theorem ordered_start {inp : Input} (hnode : (m.start cfg inp).node = some node)
    (hnone : m.node = none) : Ordered node := by
  unfold Machine.start at hnode
  split at hnode
  · cases hnode
    exact ⟨List.nodup_nil, fun x hx => by cases hx⟩
  · split at hnode
    · cases hnone.symm.trans hnode
    · cases hnode
      refine ⟨List.nodup_singleton _, fun x hx => ?_⟩
      cases List.mem_singleton.1 hx
      exact ⟨rfl, rfl⟩

theorem ordered {ok : Machine → Label → Prop} (hm : Machine.Reachable cfg ok m) :
    ∀ node, m.node = some node → Ordered node := by
  induction hm with
  | init => exact fun node hnode => by cases hnode
  | step hm hs hok ih =>
    intro node hnode
    cases Machine.step_cases hs with
    | start inp hnone => exact ordered_start hnode hnone
    | stop => cases hnode
    | powerLoss => cases hnode
    | act node₁ o others hnode₁ hacts =>
      obtain ⟨-, rfl⟩ := Machine.apply_node hnode
      exact (ih node₁ hnode₁).act hacts _

end Order

end GoScheduler.Executor
