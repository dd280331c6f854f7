import GoScheduler.Executor.IdempotentDispatch

/-! What a dispatch request that fails does to the requests that come after it. A request that fails
for a reason of its own in `SaveExecution` has the server refuse every other. -/
namespace GoScheduler.Executor

open Process

section Later

variable (cfg : Settings)

/-- A request fails for a reason of its own: its fields, its handler, its run ID, its size, its
encoding, a record of its run with different content, or that its context is over, which
`SaveExecution` finds before it makes any file operation. -/
def Refusal.OfRequest (inp : Input) : Refusal → Prop
  | .invalidDispatch | .handlerNotFound _ => True
  | .persistExecution e => match e with
      | .runID | .size | .encode | .differentContent _ => True
      | .io => inp.fault = some 0
      | _ => False
  | _ => False

structure DispatchRequest.Valid (request : DispatchRequest) : Prop where
  complete : isInvalid request = false
  handler : cfg.handlers request.handler = true

namespace Machine

/-- What the steps of a machine depend on. -/
def core (m : Machine) : Disk × Option (Server × List Thread) :=
  (m.disk, m.node.map fun node => (node.server, node.threads))

variable {cfg} {m m' : Machine}

theorem answer_eq {node : Node} (hnode : m.node = some node) (hserving : node.server.serving = true)
    (request : DispatchRequest) (inp : Input) :
    m.answer cfg request inp =
      some (Executor.dispatch cfg inp false request ⟨node.server, m.disk⟩).answer := by
  simp [answer, hnode, hserving]

theorem apply_core {node node' : Node} (o : Outcome) (others : List Thread) :
    (m'.apply node' o others).core = (m.apply node o others).core := by
  unfold apply
  split
  · rfl
  · rfl

theorem start_core (hdisk : m'.disk = m.disk) (hnode : m'.node = none ↔ m.node = none)
    (hnone : m.node = none) (inp : Input) : (m'.start cfg inp).core = (m.start cfg inp).core := by
  unfold start
  rw [hdisk]
  split
  · simp only [core]
  · split
    · simp only [core, hnone, hnode.2 hnone]
    · rfl

theorem core_cases (h : m'.core = m.core) :
    m'.disk = m.disk ∧ (m'.node = none ∧ m.node = none ∨ ∃ node' node, m'.node = some node' ∧
      m.node = some node ∧ node'.server = node.server ∧ node'.threads = node.threads) := by
  obtain ⟨hdisk, hnode⟩ := Prod.mk.inj h
  refine ⟨hdisk, ?_⟩
  cases hm : m.node with
  | none =>
    rw [hm, Option.map_none, Option.map_eq_none_iff] at hnode
    exact .inl ⟨hnode, rfl⟩
  | some node =>
    rw [hm] at hnode
    obtain ⟨node', hnode', hsame⟩ := Option.map_eq_some_iff.1 hnode
    obtain ⟨hserver, hthreads⟩ := Prod.mk.inj hsame
    exact .inr ⟨node', node, hnode', rfl, hserver, hthreads⟩

variable (cfg) in
theorem step_core (h : m'.core = m.core) (l : Label) :
    (m'.step cfg l).map core = (m.step cfg l).map core := by
  obtain ⟨hdisk, ⟨hnode', hnode⟩ | ⟨node', node, hnode', hnode, hserver, hthreads⟩⟩ := core_cases h
  · cases l with
    | start inp =>
      simp only [step, hnode', hnode, Option.isSome_none, Bool.false_eq_true, if_false,
        Option.map_some]
      rw [start_core hdisk (iff_of_true hnode' hnode) hnode]
    | powerLoss kept garbage =>
      simp only [step, hdisk]
      split
      · rfl
      · rfl
    | _ => simp [step, hnode', hnode]
  · cases l with
    | start inp => simp [step, hnode', hnode]
    | stop => simp [step, hnode', hnode, hdisk, halted, core]
    | powerLoss kept garbage =>
      simp only [step, hdisk]
      split
      · rfl
      · rfl
    | _ =>
      simp only [step, hnode', hnode, hdisk, act_core hserver hthreads, Option.map_map]
      exact congrArg (Option.map · _) (funext fun x => apply_core x.1 x.2)

theorem answer_core (h : m'.core = m.core) (request : DispatchRequest) (inp : Input) :
    m'.answer cfg request inp = m.answer cfg request inp := by
  obtain ⟨hdisk, ⟨hnode', hnode⟩ | ⟨node', node, hnode', hnode, hserver, hthreads⟩⟩ := core_cases h
  · simp only [answer, hnode', hnode, Option.bind_none]
  · simp only [answer, hnode', hnode, hserver, hdisk, Option.bind_some]

theorem answerAfter_core (h : m'.core = m.core) (ls : List Label) (request : DispatchRequest)
    (inp : Input) : m'.answerAfter cfg ls request inp = m.answerAfter cfg ls request inp :=
  answerAfter_congr (fun _ _ _ _ _ => trivial) (fun _ _ l _ _ _ h => step_core cfg h l)
    (fun _ _ h => answer_core h request inp) (fun _ _ => trivial) trivial trivial h

end Machine

variable {cfg} {inp : Input} {request : DispatchRequest} {s : Shared}

theorem persist_answer (slots : Option Slots) :
    (∃ e, (startExecution.persist cfg inp request s slots).answer = .error (.persistExecution e) ∧
      (startExecution.persist cfg inp request s slots).shared.server.completionStoreFailed = true ∧
      (startExecution.persist cfg inp request s slots).shared.server.draining = s.server.draining ∧
      (startExecution.persist cfg inp request s slots).shared.server.serving = s.server.serving ∧
      (startExecution.persist cfg inp request s slots).started = none) ∨
    ∃ response, (startExecution.persist cfg inp request s slots).answer = .ok response := by
  obtain ⟨res, store, disk, hdone⟩ :=
    perform_eq (Shelf.saveExecution cfg.codec inp.fault request) s
  unfold startExecution.persist
  rw [hdone]
  cases res with
  | error e => exact .inl ⟨e, rfl, rfl, rfl, rfl, rfl⟩
  | ok _ => exact .inr ⟨_, rfl⟩

theorem startExecution_answer :
    (∃ t, startExecution cfg inp request s =
      { answer := .error (.concurrencyLimit t), shared := s }) ∨
    ∃ slots, startExecution cfg inp request s = startExecution.persist cfg inp request s slots := by
  unfold startExecution
  split
  · split
    · exact .inl ⟨_, rfl⟩
    · exact .inr ⟨_, rfl⟩
  · exact .inr ⟨_, rfl⟩

theorem dispatch_unavailable_iff (hcomplete : isInvalid request = false)
    (hhandler : cfg.handlers request.handler = true) (hdraining : s.server.draining = false) :
    (dispatch cfg inp false request s).answer = .error .persistenceUnavailable ↔
      s.server.completionStoreFailed = true := by
  unfold dispatch
  rw [if_neg (by simp [hcomplete]), if_neg (by simp [hhandler]), if_neg (by simp [hdraining])]
  split
  · next hfailed => exact iff_of_true rfl hfailed
  · next hfailed =>
    refine iff_of_false ?_ hfailed
    dsimp only
    split
    · nofun
    · rcases startExecution_answer with ⟨t, hfull⟩ | ⟨slots, hpersist⟩
      · rw [hfull]
        nofun
      · rw [hpersist]
        rcases persist_answer slots with ⟨e, hanswer, -⟩ | ⟨response, hanswer⟩
        · rw [hanswer]
          nofun
        · rw [hanswer]
          nofun

/-- A request that passes the first checks and fails for a reason of its own fails in
`SaveExecution`. -/
theorem dispatch_of_request {refusal : Refusal} (hcomplete : isInvalid request = false)
    (hhandler : cfg.handlers request.handler = true)
    (hanswer : (dispatch cfg inp false request s).answer = .error refusal)
    (hof : refusal.OfRequest inp) :
    (s.server.draining = false ∧ s.server.completionStoreFailed = false) ∧
      (dispatch cfg inp false request s).shared.server.draining = false ∧
      (dispatch cfg inp false request s).shared.server.completionStoreFailed = true ∧
      (dispatch cfg inp false request s).shared.server.serving = s.server.serving := by
  unfold dispatch at hanswer ⊢
  rw [if_neg (by simp [hcomplete]), if_neg (by simp [hhandler])] at hanswer ⊢
  split at hanswer
  · cases hanswer
    exact hof.elim
  next hdraining =>
  split at hanswer
  · cases hanswer
    exact hof.elim
  next hfailed =>
  rw [if_neg hdraining, if_neg hfailed]
  dsimp only at hanswer ⊢
  have hbefore := And.intro (Bool.eq_false_of_not_eq_true hdraining)
    (Bool.eq_false_of_not_eq_true hfailed)
  split at hanswer
  · cases hanswer
  rcases startExecution_answer with ⟨t, hfull⟩ | ⟨slots, hpersist⟩
  · rw [hfull] at hanswer
    cases hanswer
    exact hof.elim
  · rw [hpersist] at hanswer ⊢
    rcases persist_answer slots with ⟨e, -, hstore, hdrain, hserving, -⟩ | ⟨response, hok⟩
    · exact ⟨hbefore, hdrain.trans hbefore.1, hstore, hserving⟩
    · rw [hok] at hanswer
      cases hanswer

theorem step_dispatch {m : Machine} {node : Node} (hnode : m.node = some node)
    (hserving : node.server.serving = true) (request : DispatchRequest) (inp : Input) :
    m.step cfg (.dispatch request inp) = some (m.apply node
      (Machine.receiveDispatch cfg ⟨node.server, m.disk⟩ request inp) node.threads) := by
  simp [Machine.step, hnode, Machine.act, hserving]

theorem step_refused {m : Machine} {node : Node} (hnode : m.node = some node)
    (hserving : node.server.serving = true) (inp : Input)
    (h : isInvalid request = true ∨ cfg.handlers request.handler = false) :
    ∃ m', m.step cfg (.dispatch request inp) = some m' ∧ m'.core = m.core := by
  refine ⟨_, step_dispatch hnode hserving request inp, ?_⟩
  have hdispatch : (dispatch cfg inp false request ⟨node.server, m.disk⟩).shared =
      ⟨node.server, m.disk⟩ ∧
      (dispatch cfg inp false request ⟨node.server, m.disk⟩).started = none := by
    unfold dispatch
    split
    · exact ⟨rfl, rfl⟩
    · next hcomplete =>
      rw [if_pos (h.resolve_left hcomplete)]
      exact ⟨rfl, rfl⟩
  simp [Machine.core, Machine.apply, Machine.receiveDispatch, Dispatched.thread, hdispatch.1,
    hdispatch.2, hnode]

/-- A dispatch request that fails for a reason of its own leaves the answers to later requests as
they would have been exactly if it does not get as far as the server. -/
theorem later_dispatch_iff (cfg : Settings) (m : Machine) (q r : DispatchRequest) (inp : Input)
    (refusal : Refusal) (hanswer : m.answer cfg q inp = some (.error refusal))
    (hof : refusal.OfRequest inp) (hr : r.Valid cfg) :
    (∀ ls inp', m.answerAfter cfg (.dispatch q inp :: ls) r inp' = m.answerAfter cfg ls r inp') ↔
      ¬q.Valid cfg := by
  obtain ⟨node, hnode, hanswer⟩ := Option.bind_eq_some_iff.1 hanswer
  rw [Option.ite_none_right_eq_some] at hanswer
  obtain ⟨hserving, hanswer⟩ := hanswer
  constructor
  · rintro hsame ⟨hcomplete, hhandler⟩
    obtain ⟨⟨hdraining, hfailed⟩, hdraining', hfailed', hserving'⟩ :=
      dispatch_of_request hcomplete hhandler (Option.some.inj hanswer) hof
    have hwithout : m.answerAfter cfg [] r inp ≠ some (.error .persistenceUnavailable) := by
      rw [Machine.answerAfter, Machine.run, Option.bind_some, Machine.answer_eq hnode hserving]
      intro hrefused
      have hlatched := (dispatch_unavailable_iff (s := ⟨node.server, m.disk⟩) hr.complete hr.handler
        hdraining).1 (Option.some.inj hrefused)
      rw [hfailed] at hlatched
      cases hlatched
    have hwith : m.answerAfter cfg [.dispatch q inp] r inp =
        some (.error .persistenceUnavailable) := by
      simp only [Machine.answerAfter, Machine.run, step_dispatch hnode hserving, Option.bind_some]
      rw [Machine.answer_eq rfl (hserving'.trans hserving)]
      exact congrArg some ((dispatch_unavailable_iff hr.complete hr.handler hdraining').2 hfailed')
    exact hwithout ((hsame [] inp).symm.trans hwith)
  · intro hinvalid ls inp'
    have hrefused : isInvalid q = true ∨ cfg.handlers q.handler = false := by
      by_contra hvalid
      rw [not_or, Bool.not_eq_true, Bool.not_eq_false] at hvalid
      exact hinvalid ⟨hvalid.1, hvalid.2⟩
    obtain ⟨m', hs, hcore⟩ := step_refused hnode hserving inp hrefused
    have hrun :
        m.answerAfter cfg (.dispatch q inp :: ls) r inp' = m'.answerAfter cfg ls r inp' := by
      simp only [Machine.answerAfter, Machine.run, hs, Option.bind_some]
    rw [hrun]
    exact Machine.answerAfter_core hcore ls r inp'

end Later

section Sample

theorem later_dispatch_unnamed :
    ∃ m, Machine.init.run (plainSettings (some [])) recovered = some m ∧
      m.answer (plainSettings (some [])) { dockerRequest with runId := [] }
        { createdAt := newYear } = some (.error .invalidDispatch) ∧
      ∀ ls inp', m.answerAfter (plainSettings (some []))
          (.dispatch { dockerRequest with runId := [] } { createdAt := newYear } :: ls)
          dockerRequest inp' =
        m.answerAfter (plainSettings (some [])) ls dockerRequest inp' := by
  have hrun : ((Machine.init.run (plainSettings (some [])) recovered).bind fun m =>
      m.answer (plainSettings (some [])) { dockerRequest with runId := [] }
        { createdAt := newYear }) = some (.error .invalidDispatch) := by
    decide +kernel
  obtain ⟨m, hm, hanswer⟩ := Option.bind_eq_some_iff.1 hrun
  refine ⟨m, hm, hanswer, ?_⟩
  have hvalid : dockerRequest.Valid (plainSettings (some [])) := ⟨by decide, rfl⟩
  refine (later_dispatch_iff (plainSettings (some [])) m { dockerRequest with runId := [] }
    dockerRequest { createdAt := newYear } .invalidDispatch hanswer trivial hvalid).2 ?_
  intro hcomplete
  exact absurd hcomplete.complete (by decide)

/-- A request whose run ID has a slash in it fails, and a valid one after it is refused, which would
have begun. The files are sound and there is room for more. -/
theorem later_dispatch_refused :
    ∃ m, Machine.init.run (plainSettings (some [])) recovered = some m ∧
      m.answer (plainSettings (some [])) { dockerRequest with runId := text "a/b" }
        { createdAt := newYear } = some (.error (.persistExecution .runID)) ∧
      m.answerAfter (plainSettings (some [])) [] dockerRequest { createdAt := newYear } =
        some (.ok ⟨true, text "7", .running⟩) ∧
      m.answerAfter (plainSettings (some []))
          [.dispatch { dockerRequest with runId := text "a/b" } { createdAt := newYear }]
          dockerRequest { createdAt := newYear } =
        some (.error .persistenceUnavailable) := by
  have hrun : ((Machine.init.run (plainSettings (some [])) recovered).map fun m =>
      (m.answer (plainSettings (some [])) { dockerRequest with runId := text "a/b" }
          { createdAt := newYear },
        m.answerAfter (plainSettings (some [])) [] dockerRequest { createdAt := newYear },
        m.answerAfter (plainSettings (some []))
          [.dispatch { dockerRequest with runId := text "a/b" } { createdAt := newYear }]
          dockerRequest { createdAt := newYear })) =
      some (some (.error (.persistExecution .runID)), some (.ok ⟨true, text "7", .running⟩),
        some (.error .persistenceUnavailable)) := by
    decide +kernel
  obtain ⟨m, hm, hfacts⟩ := Option.map_eq_some_iff.1 hrun
  simp only [Prod.mk.injEq] at hfacts
  exact ⟨m, hm, hfacts.1, hfacts.2.1, hfacts.2.2⟩

end Sample

end GoScheduler.Executor
