import GoScheduler.Executor.Footprint
import GoScheduler.Executor.Goroutines
import GoScheduler.Executor.IdempotentDispatch

/-! What the steps of an executor do to its slots and to the counts of active executions, and what
follows for every state of a process: slots are taken by the dispatch that holds the mutex and by
the executions registered and not released, and by nothing else. -/
namespace GoScheduler.Executor

open Process

section Effects

/-- What a goroutine carries is what `slotsFor` said, and handlers are only called by `execute`. -/
def Goroutine.Proper : Goroutine → Prop
  | .admitted request slots _ => slots = slotsFor request
  | .answering e | .execute _ e => e.slots = slotsFor e.request
  | .finishing _ thread _ => thread.isFinish = true
  | .other thread => thread.isHandling = false

def Goroutine.Aside : Goroutine → Prop
  | .finishing _ thread _ => thread.isFinish = true
  | .other thread => thread.isHandling = false
  | _ => False

theorem Goroutine.Aside.proper {g : Goroutine} (h : g.Aside) : g.Proper := by
  cases g with
  | finishing request thread panicked => exact h
  | other thread => exact h
  | _ => exact h.elim

namespace Host

def Swap (old new : List Goroutine) (h h' : Host) : Prop :=
  ∃ rest, h.goroutines.Perm (old ++ rest) ∧ h'.goroutines.Perm (new ++ rest)

inductive Effect (cfg : Settings) (h h' : Host) : Prop where
  -- No dispatch gets further and no execution moves.
  | aside (old new : List Goroutine) (hswap : Swap old new h h')
      (hold : ∀ g ∈ old, g.Aside) (hnew : ∀ g ∈ new, g.Aside)
      (hsame : h.shared.SameSlots h'.shared) (hactive : h'.active = h.active)
      (hlog : h'.log = h.log ∨ ∃ request answer, h'.log = .dispatched request answer :: h.log)
  | accept (old : List Goroutine) (request : DispatchRequest) (caller : Caller)
      (hswap : Swap old [.admitted request (slotsFor request) caller] h h')
      (hold : ∀ g ∈ old, g.Aside) (hfree : h.locked = false)
      (hroom : ∀ t, slotsFor request = some t → h.shared.server.slots t < cfg.limit t)
      (hslots : h'.shared.server.slots = (h.shared.server.acquire (slotsFor request)).slots)
      (hcontexts : h'.shared.server.contexts = h.shared.server.contexts)
      (hactive : h'.active = h.active) (hlog : h'.log = h.log)
  | refuse (request : DispatchRequest) (caller : Caller) (answer : Except Refusal DispatchResponse)
      (hswap : Swap [.admitted request (slotsFor request) caller] [] h h')
      (hslots : h'.shared.server.slots = (h.shared.server.release (slotsFor request)).slots)
      (hcontexts : h'.shared.server.contexts = h.shared.server.contexts)
      (hactive : h'.active = h.active) (hlog : h'.log = .dispatched request answer :: h.log)
  | register (e : Started) (caller : Caller)
      (hswap : Swap [.admitted e.request (slotsFor e.request) caller] (launch e caller) h h')
      (hown : e.slots = slotsFor e.request) (hnew : e.context = h.shared.server.contexts)
      (hslots : h'.shared.server.slots = h.shared.server.slots)
      (hcontexts : h'.shared.server.contexts = h.shared.server.contexts + 1)
      (hactive : h'.active = h.active) (hlog : h'.log = .registered e :: h.log)
  | acknowledge (e : Started) (hswap : Swap [.answering e] [] h h')
      (hsame : h.shared.SameSlots h'.shared) (hactive : h'.active = h.active)
      (hlog : h'.log = .acknowledged e :: h.log)
  | mark (e : Started) (hswap : Swap [.execute .launched e] [.execute .handling e] h h')
      (hsame : h.shared.SameSlots h'.shared)
      (hactive : h'.active = markActive e.request.jobId 1 h.active) (hlog : h'.log = h.log)
  | handled (e : Started) (result : HandlerResult)
      (hswap : Swap [.execute .handling e] [.execute (.returned result) e] h h')
      (hsame : h.shared.SameSlots h'.shared) (hactive : h'.active = h.active)
      (hlog : h'.log = .returned e :: h.log)
  | unmark (e : Started) (result : HandlerResult)
      (hswap : Swap [.execute (.returned result) e] [.execute (.unmarked result) e] h h')
      (hsame : h.shared.SameSlots h'.shared)
      (hactive : h'.active = markActive e.request.jobId (-1) h.active) (hlog : h'.log = h.log)
  | release (e : Started) (result : HandlerResult)
      (hswap : Swap [.execute (.unmarked result) e]
        [.finishing e.request (.finishing e.request result) false] h h')
      (hslots : h'.shared.server.slots = (h.shared.server.release e.slots).slots)
      (hcontexts : h'.shared.server.contexts = h.shared.server.contexts)
      (hactive : h'.active = h.active) (hlog : h'.log = .released e :: h.log)

end Host

def Admission.Sound (cfg : Settings) (original : DispatchRequest) (server : Server) :
    Admission → Prop
  | .answered _ server' => server'.slots = server.slots ∧ server'.contexts = server.contexts
  | .admitted request slots server' =>
      cfg.reachesMutex original = true ∧ slots = slotsFor request ∧
        slotsFor request = slotsFor original ∧
        (∀ t, slotsFor request = some t → server.slots t < cfg.limit t) ∧
        server'.slots = (server.acquire slots).slots ∧ server'.contexts = server.contexts

variable {cfg : Settings} {inp : Input}

theorem admitNew_sound {original request : DispatchRequest} {server server' : Server}
    (hreaches : cfg.reachesMutex original = true) (hkind : slotsFor request = slotsFor original)
    (hslots : server'.slots = server.slots) (hcontexts : server'.contexts = server.contexts) :
    (admitNew cfg request server').Sound cfg original server := by
  unfold admitNew
  cases hfor : slotsFor request with
  | none =>
    exact ⟨hreaches, hfor.symm, hkind, fun t ht => absurd (hfor.symm.trans ht) nofun, hslots,
      hcontexts⟩
  | some executionType =>
    dsimp only
    split
    · exact ⟨hslots, hcontexts⟩
    · next hroom =>
      refine ⟨hreaches, hfor.symm, hkind, fun t ht => ?_, ?_, hcontexts⟩
      · cases hfor.symm.trans ht
        exact hslots ▸ not_le.1 hroom
      · simp only [Server.acquire, hslots]

variable (cfg inp) in
theorem admitDispatch_sound (recovered : Bool) (request : DispatchRequest) (server : Server) :
    (admitDispatch cfg inp recovered request server).Sound cfg request server := by
  unfold admitDispatch
  split
  · exact ⟨rfl, rfl⟩
  next hvalid =>
  split
  · exact ⟨rfl, rfl⟩
  next hhandler =>
  split
  · exact ⟨rfl, rfl⟩
  split
  · exact ⟨rfl, rfl⟩
  dsimp only
  split
  · exact ⟨rfl, rfl⟩
  · have hreaches : cfg.reachesMutex request = true := by
      simp [Settings.reachesMutex, Bool.eq_false_of_not_eq_true hvalid,
        Bool.eq_true_of_not_eq_false hhandler]
    exact admitNew_sound hreaches (slotsFor_timed _ recovered inp.arrivedAt) rfl rfl

variable (cfg inp) in
theorem persistAdmitted_cases (request : DispatchRequest) (slots : Option Slots) (s : Shared) :
    (∃ refusal, (persistAdmitted cfg inp request slots s).answer = .error refusal ∧
      (persistAdmitted cfg inp request slots s).started = none ∧
      (persistAdmitted cfg inp request slots s).shared.server.slots =
        (s.server.release slots).slots ∧
      (persistAdmitted cfg inp request slots s).shared.server.contexts = s.server.contexts) ∨
    (persistAdmitted cfg inp request slots s).started = some (request, s.server.contexts, slots) ∧
      (persistAdmitted cfg inp request slots s).shared.server.slots = s.server.slots ∧
      (persistAdmitted cfg inp request slots s).shared.server.contexts =
        s.server.contexts + 1 := by
  obtain ⟨res, store, disk, hdone⟩ :=
    perform_eq (Shelf.saveExecution cfg.codec inp.fault request) s
  unfold persistAdmitted
  rw [hdone]
  cases res with
  | error e =>
    refine .inl ⟨_, rfl, rfl, ?_, ?_⟩
    all_goals cases slots <;> rfl
  | ok _ => exact .inr ⟨rfl, rfl, rfl⟩

namespace Host

variable {h h' : Host} {change : Change} {old others : List Goroutine}

theorem answer_effect {request : DispatchRequest} {result : Except Refusal DispatchResponse}
    {shared : Shared} {caller : Caller}
    (hchange : h.answer request result shared caller = some change)
    (hsame : h.shared.SameSlots shared) (hold : ∀ g ∈ old, g.Aside)
    (hperm : h.goroutines.Perm (old ++ others)) :
    Effect cfg h (apply change h.log others) := by
  unfold answer at hchange
  split at hchange
  · cases hchange
    exact .aside old [] ⟨others, hperm, .refl _⟩ hold (List.forall_mem_nil _) hsame rfl
      (.inr ⟨request, result, rfl⟩)
  · split at hchange
    · cases hchange
    · cases hchange
      exact .aside old _ ⟨others, hperm, .refl _⟩ hold (List.forall_mem_singleton.2 rfl) hsame rfl
        (.inl rfl)

theorem enter_effect {request : DispatchRequest} {recovered : Bool} {caller : Caller}
    (hchange : h.enter cfg inp request recovered caller = some change)
    (hold : ∀ g ∈ old, g.Aside) (hperm : h.goroutines.Perm (old ++ others)) :
    Effect cfg h (apply change h.log others) := by
  have hsound := admitDispatch_sound cfg inp recovered request h.shared.server
  unfold enter at hchange
  split at hchange
  · cases hchange
  next hblocked =>
  split at hchange
  · next result server hadmission =>
    rw [hadmission] at hsound
    exact answer_effect hchange ⟨hsound.1, hsound.2⟩ hold hperm
  · next request' slots server hadmission =>
    rw [hadmission] at hsound
    obtain ⟨hreaches, rfl, -, hroom, hslots, hcontexts⟩ := hsound
    cases hchange
    have hfree : h.locked = false := by
      rw [hreaches, Bool.true_and] at hblocked
      exact Bool.eq_false_of_not_eq_true hblocked
    exact .accept old request' caller ⟨others, hperm, .refl _⟩ hold hfree hroom hslots hcontexts
      rfl rfl

theorem save_effect {request : DispatchRequest} {caller : Caller}
    (hchange : h.save cfg inp request (slotsFor request) caller = some change)
    (hperm : h.goroutines.Perm (.admitted request (slotsFor request) caller :: others)) :
    Effect cfg h (apply change h.log others) := by
  unfold save at hchange
  dsimp only at hchange
  rcases persistAdmitted_cases cfg inp request (slotsFor request) h.shared with
    ⟨refusal, hanswer, hstarted, hslots, hcontexts⟩ | ⟨hstarted, hslots, hcontexts⟩
  · rw [hstarted, hanswer] at hchange
    dsimp only at hchange
    split at hchange
    · cases caller with
      | core =>
        cases hchange
        exact .refuse request .core _ ⟨others, hperm, .refl _⟩ hslots hcontexts rfl rfl
      | recovery completed todo => cases hchange
    · cases hchange
  · rw [hstarted] at hchange
    cases hchange
    exact .register ⟨request, h.shared.server.contexts, slotsFor request⟩ caller
      ⟨others, hperm, .refl _⟩ rfl rfl hslots hcontexts rfl rfl

theorem execute_effect {e : Started} {phase : Phase}
    (hchange : h.execute inp e phase = some change)
    (hperm : h.goroutines.Perm (.execute phase e :: others)) :
    Effect cfg h (apply change h.log others) := by
  cases phase with
  | launched =>
    cases hchange
    exact .mark e ⟨others, hperm, .refl _⟩ (.refl _) rfl rfl
  | handling =>
    cases hchange
    exact .handled e inp.result ⟨others, hperm, .refl _⟩ (.refl _) rfl rfl
  | returned result =>
    cases hchange
    exact .unmark e result ⟨others, hperm, .refl _⟩ (.refl _) rfl rfl
  | unmarked result =>
    simp only [execute] at hchange
    split at hchange
    · cases hchange
      refine .release e result ⟨others, hperm, .refl _⟩ rfl ?_ rfl rfl
      cases e.slots <;> rfl
    · cases hchange

theorem follow_effect {thread : Thread} {wrap : Thread → Goroutine}
    (hchange : h.follow cfg inp thread wrap = some change) (hold : (wrap thread).Aside)
    (hnew : ∀ t ∈ (thread.step cfg inp h.shared).threads, (wrap t).Aside)
    (hthread : thread.isHandling = false) (hresumes : thread.resumes h.shared.server = none)
    (hperm : h.goroutines.Perm (wrap thread :: others)) :
    Effect cfg h (apply change h.log others) := by
  unfold follow at hchange
  split at hchange
  · cases hchange
  dsimp only at hchange
  split at hchange
  · cases hchange
  · cases hchange
    refine .aside [wrap thread] _ ⟨others, hperm, .refl _⟩ (List.forall_mem_singleton.2 hold)
      (fun g hg => ?_) (step_sameSlots hthread hresumes) rfl (.inl rfl)
    obtain ⟨t, ht, rfl⟩ := List.mem_map.1 hg
    exact hnew t ht

theorem advance_effect {g : Goroutine} (hchange : h.advance cfg inp g = some change)
    (hproper : g.Proper) (hperm : h.goroutines.Perm (g :: others)) :
    Effect cfg h (apply change h.log others) := by
  cases g with
  | admitted request slots caller =>
    cases (hproper : slots = slotsFor request)
    exact save_effect hchange hperm
  | answering e =>
    cases hchange
    exact .acknowledge e ⟨others, hperm, .refl _⟩ (.refl _) rfl rfl
  | execute phase e => exact execute_effect hchange hperm
  | finishing request thread panicked =>
    exact follow_effect hchange hproper (step_isFinish hproper) (isHandling_of_isFinish hproper)
      (resumes_of_isFinish hproper _) hperm
  | other thread =>
    have haside : (Goroutine.other thread).Aside := hproper
    simp only [advance] at hchange
    split at hchange
    · exact enter_effect hchange (List.forall_mem_singleton.2 haside) hperm
    · next hresumes =>
      exact follow_effect hchange haside (step_not_handling hresumes) hproper hresumes hperm

theorem panics_effect {g : Goroutine} {value : Bytes} (hchange : h.panics value g = some change)
    (hperm : h.goroutines.Perm (g :: others)) : Effect cfg h (apply change h.log others) := by
  unfold panics at hchange
  split at hchange
  · cases hchange
    exact .handled _ _ ⟨others, hperm, .refl _⟩ (.refl _) rfl rfl
  · cases hchange
    exact .aside [_] [_] ⟨others, hperm, .refl _⟩ (List.forall_mem_singleton.2 rfl)
      (List.forall_mem_singleton.2 rfl) (.refl _) rfl (.inl rfl)
  · cases hchange

theorem perm_eraseIdx {i : ℕ} {g : Goroutine} (hg : h.goroutines[i]? = some g) :
    h.goroutines.Perm (g :: h.goroutines.eraseIdx i) := by
  obtain ⟨hi, rfl⟩ := List.getElem?_eq_some_iff.1 hg
  exact (List.getElem_cons_eraseIdx_perm hi).symm

theorem receive_effect (o : Outcome) (hsame : h.shared.SameSlots o.shared)
    (hthreads : ∀ t ∈ o.threads, t.isHandling = false) : Effect cfg h (h.receive o) := by
  refine .aside [] _ ⟨h.goroutines, .refl _, .refl _⟩ (List.forall_mem_nil _) (fun g hg => ?_)
    hsame rfl (.inl rfl)
  obtain ⟨t, ht, rfl⟩ := List.mem_map.1 hg
  exact hthreads t ht

theorem cancel_sameSlots (request : CancelRequest) (inp : Input) (s : Shared) :
    s.SameSlots (Machine.receiveCancel cfg s request inp).shared := by
  unfold Machine.receiveCancel cancelInMemory
  repeat' split
  all_goals exact ⟨rfl, rfl⟩

theorem step_effect {l : Move} (hs : h.step cfg l = some h')
    (hproper : ∀ g ∈ h.goroutines, g.Proper) : Effect cfg h h' := by
  cases l with
  | dispatch request inp =>
    simp only [step] at hs
    split at hs
    · obtain ⟨change, hchange, rfl⟩ := Option.map_eq_some_iff.1 hs
      exact enter_effect hchange (List.forall_mem_nil _) (.refl _)
    · cases hs
  | cancel request inp =>
    simp only [step] at hs
    split at hs
    · cases hs
      refine receive_effect _ (cancel_sameSlots request inp h.shared) ?_
      unfold Machine.receiveCancel
      split
      all_goals simp [Thread.isHandling]
    · cases hs
  | drain =>
    simp only [step] at hs
    split at hs
    · cases hs
    · cases hs
      exact .aside [] [] ⟨h.goroutines, .refl _, .refl _⟩ (List.forall_mem_nil _)
        (List.forall_mem_nil _) ⟨rfl, rfl⟩ rfl (.inl rfl)
  | drainExpired =>
    simp only [step] at hs
    split at hs
    · cases hs
    · cases hs
      exact .aside [] [] ⟨h.goroutines, .refl _, .refl _⟩ (List.forall_mem_nil _)
        (List.forall_mem_nil _) ⟨rfl, rfl⟩ rfl (.inl rfl)
  | deliver inp =>
    simp only [step] at hs
    split at hs
    · cases hs
      refine receive_effect _ (by rw [deliver_shared]; exact .refl _) ?_
      unfold Machine.deliver
      repeat' split
      all_goals simp [Thread.isHandling]
    · cases hs
  | advance i inp =>
    simp only [step, Option.bind_eq_bind, Option.bind_eq_some_iff] at hs
    obtain ⟨g, hg, change, hchange, hs⟩ := hs
    cases hs
    exact advance_effect hchange (hproper g (List.mem_of_getElem? hg)) (perm_eraseIdx hg)
  | panics i value =>
    simp only [step, Option.bind_eq_bind, Option.bind_eq_some_iff] at hs
    obtain ⟨g, hg, change, hchange, hs⟩ := hs
    cases hs
    exact panics_effect hchange (perm_eraseIdx hg)

end Host

end Effects

section Counts

def Goroutine.holds (executionType : Slots) : Goroutine → Bool
  | .admitted _ slots _ => slots = some executionType
  | .execute _ e => e.slots = some executionType
  | _ => false

def Goroutine.marks (jobID : Bytes) : Goroutine → Bool
  | .execute .handling e | .execute (.returned _) e => e.request.jobId = jobID
  | _ => false

def Goroutine.execution : Goroutine → Option Started
  | .execute _ e => some e
  | _ => none

theorem acquire_slots (server : Server) (slots : Option Slots) (t : Slots) :
    (server.acquire slots).slots t = server.slots t + if slots = some t then 1 else 0 := by
  cases slots with
  | none => rfl
  | some executionType =>
    by_cases h : t = executionType
    · subst h
      simp [Server.acquire]
    · simp [Server.acquire, Function.update_of_ne h, Ne.symm h]

theorem release_slots (server : Server) (slots : Option Slots) (t : Slots) :
    (server.release slots).slots t = server.slots t - if slots = some t then 1 else 0 := by
  cases slots with
  | none => rfl
  | some executionType =>
    by_cases h : t = executionType
    · subst h
      simp [Server.release]
    · simp [Server.release, Function.update_of_ne h, Ne.symm h]

variable {g : Goroutine} {gs : List Goroutine}

theorem Goroutine.Aside.holds (h : g.Aside) (t : Slots) : g.holds t = false := by
  cases g with
  | finishing request thread panicked => rfl
  | other thread => rfl
  | _ => exact h.elim

theorem Goroutine.Aside.marks (h : g.Aside) (jobID : Bytes) : g.marks jobID = false := by
  cases g with
  | finishing request thread panicked => rfl
  | other thread => rfl
  | _ => exact h.elim

theorem Goroutine.Aside.isAdmitted (h : g.Aside) : g.isAdmitted = false := by
  cases g with
  | finishing request thread panicked => rfl
  | other thread => rfl
  | _ => exact h.elim

theorem Goroutine.Aside.execution (h : g.Aside) : g.execution = none := by
  cases g with
  | finishing request thread panicked => rfl
  | other thread => rfl
  | _ => exact h.elim

theorem countP_aside {p : Goroutine → Bool} (hp : ∀ g, g.Aside → p g = false)
    (h : ∀ g ∈ gs, g.Aside) : gs.countP p = 0 := by
  refine List.countP_eq_zero.2 fun g hg => ?_
  rw [hp g (h g hg)]
  exact Bool.false_ne_true

namespace Host

variable {h h' : Host} {old new : List Goroutine}

theorem Swap.countP (hswap : Swap old new h h') (p : Goroutine → Bool) :
    h'.goroutines.countP p + old.countP p = h.goroutines.countP p + new.countP p := by
  obtain ⟨rest, hold, hnew⟩ := hswap
  rw [hold.countP_eq, hnew.countP_eq, List.countP_append, List.countP_append]
  omega

theorem Swap.mem (hswap : Swap old new h h') {g : Goroutine} (hg : g ∈ h'.goroutines) :
    g ∈ new ∨ g ∈ h.goroutines := by
  obtain ⟨rest, hold, hnew⟩ := hswap
  rcases List.mem_append.1 (hnew.mem_iff.1 hg) with hg | hg
  · exact .inl hg
  · exact .inr (hold.mem_iff.2 (List.mem_append_right old hg))

theorem Swap.gone (hswap : Swap old new h h') {g : Goroutine} (hg : g ∈ h.goroutines)
    (hgone : g ∉ h'.goroutines) : g ∈ old := by
  obtain ⟨rest, hold, hnew⟩ := hswap
  rcases List.mem_append.1 (hold.mem_iff.1 hg) with hg | hg
  · exact hg
  · exact absurd (hnew.mem_iff.2 (List.mem_append_right new hg)) hgone

theorem Swap.mem_old (hswap : Swap old new h h') {g : Goroutine} (hg : g ∈ old) :
    g ∈ h.goroutines := by
  obtain ⟨rest, hold, hnew⟩ := hswap
  exact hold.mem_iff.2 (List.mem_append_left rest hg)

theorem Swap.mem_new (hswap : Swap old new h h') {g : Goroutine} (hg : g ∈ new) :
    g ∈ h'.goroutines := by
  obtain ⟨rest, hold, hnew⟩ := hswap
  exact hnew.mem_iff.2 (List.mem_append_left rest hg)

theorem launch_countP (e : Started) (caller : Caller) {p : Goroutine → Bool}
    (hanswering : p (.answering e) = false)
    (haside : ∀ thread, p (.other thread) = false) :
    (launch e caller).countP p = if p (.execute .launched e) then 1 else 0 := by
  cases caller with
  | core => simp [launch, List.countP_cons, hanswering]
  | recovery completed todo => simp [launch, List.countP_cons, haside]

end Host

end Counts

section Invariant

variable (cfg : Settings)

namespace Host

/-- Slots and marks are those of the goroutines, and one of these at most holds the mutex. -/
structure Counted (h : Host) : Prop where
  proper : ∀ g ∈ h.goroutines, g.Proper
  mutex : h.goroutines.countP Goroutine.isAdmitted ≤ 1
  slots : ∀ t, h.shared.server.slots t = h.goroutines.countP (Goroutine.holds t)
  limit : ∀ t, h.shared.server.slots t ≤ cfg.limit t
  active : ∀ jobID, activeCount h.active jobID = h.goroutines.countP (Goroutine.marks jobID)

variable {cfg} {h h' : Host}

theorem Counted.occupied (hcounted : Counted cfg h) {g : Goroutine} {t : Slots}
    (hg : g ∈ h.goroutines) (hholds : g.holds t = true) : 0 < h.shared.server.slots t := by
  rw [hcounted.slots]
  exact List.countP_pos_iff.2 ⟨g, hg, hholds⟩

structure Balance (cfg : Settings) (old new : List Goroutine) (h h' : Host) : Prop where
  swap : Swap old new h h'
  proper : ∀ g ∈ new, g.Proper
  mutex : new.countP Goroutine.isAdmitted ≤ old.countP Goroutine.isAdmitted ∨
    h.locked = false ∧ new.countP Goroutine.isAdmitted ≤ 1
  slots : ∀ t, h'.shared.server.slots t + old.countP (Goroutine.holds t) =
    h.shared.server.slots t + new.countP (Goroutine.holds t)
  limit : ∀ t, h'.shared.server.slots t ≤ h.shared.server.slots t ∨
    h'.shared.server.slots t ≤ cfg.limit t
  active : ∀ jobID, activeCount h'.active jobID + old.countP (Goroutine.marks jobID) =
    activeCount h.active jobID + new.countP (Goroutine.marks jobID)

theorem Balance.counted {old new : List Goroutine} (hbalance : Balance cfg old new h h')
    (hcounted : Counted cfg h) : Counted cfg h' where
  proper g hg := (hbalance.swap.mem hg).elim (hbalance.proper g) (hcounted.proper g)
  mutex := by
    have hcount := hbalance.swap.countP Goroutine.isAdmitted
    rcases hbalance.mutex with hle | ⟨hfree, hle⟩
    · have := hcounted.mutex
      omega
    · have hnone : h.goroutines.countP Goroutine.isAdmitted = 0 := by
        rw [List.countP_eq_zero]
        rw [locked, List.any_eq_false] at hfree
        exact hfree
      omega
  slots t := by
    have hcount := hbalance.swap.countP (Goroutine.holds t)
    have hslots := hbalance.slots t
    have hbefore := hcounted.slots t
    omega
  limit t := (hbalance.limit t).elim (fun hle => hle.trans (hcounted.limit t)) id
  active jobID := by
    have hcount := hbalance.swap.countP (Goroutine.marks jobID)
    have hactive := hbalance.active jobID
    have hbefore := hcounted.active jobID
    omega

theorem Balance.same {old new : List Goroutine} (hswap : Swap old new h h')
    (hproper : ∀ g ∈ new, g.Proper) (hslots : h'.shared.server.slots = h.shared.server.slots)
    (hactive : h'.active = h.active)
    (hmutex : new.countP Goroutine.isAdmitted ≤ old.countP Goroutine.isAdmitted)
    (hholds : ∀ t, old.countP (Goroutine.holds t) = new.countP (Goroutine.holds t))
    (hmarks : ∀ jobID, old.countP (Goroutine.marks jobID) = new.countP (Goroutine.marks jobID)) :
    Balance cfg old new h h' where
  swap := hswap
  proper := hproper
  mutex := .inl hmutex
  slots t := by rw [hslots, hholds]
  limit t := .inl (hslots ▸ le_rfl)
  active jobID := by rw [hactive, hmarks]

theorem Counted.release (hcounted : Counted cfg h) {g : Goroutine} {slots : Option Slots}
    (hg : g ∈ h.goroutines) (hholds : ∀ t, g.holds t = decide (slots = some t)) (t : Slots) :
    (h.shared.server.release slots).slots t + [g].countP (Goroutine.holds t) =
      h.shared.server.slots t := by
  rw [release_slots, List.countP_singleton, hholds]
  by_cases ht : slots = some t
  · have := hcounted.occupied hg ((hholds t).trans (decide_eq_true ht))
    simp only [ht, if_true, decide_true]
    omega
  · simp [ht]

theorem Counted.balance (hcounted : Counted cfg h) (heffect : Effect cfg h h') :
    ∃ old new, Balance cfg old new h h' := by
  cases heffect with
  | aside old new hswap hold hnew hsame hactive =>
    refine ⟨old, new, .same hswap (fun g hg => (hnew g hg).proper) hsame.slots hactive ?_ ?_ ?_⟩
    · rw [countP_aside (fun _ h => h.isAdmitted) hnew]
      exact Nat.zero_le _
    · intro t
      rw [countP_aside (fun _ h => h.holds t) hold, countP_aside (fun _ h => h.holds t) hnew]
    · intro jobID
      rw [countP_aside (fun _ h => h.marks jobID) hold,
        countP_aside (fun _ h => h.marks jobID) hnew]
  | accept old request caller hswap hold hfree hroom hslots hcontexts hactive =>
    refine ⟨old, _, hswap, List.forall_mem_singleton.2 rfl, .inr ⟨hfree, List.countP_le_length⟩,
      fun t => ?_, fun t => ?_, fun jobID => ?_⟩
    · rw [hslots, acquire_slots, countP_aside (fun _ h => h.holds t) hold]
      simp [List.countP_singleton, Goroutine.holds]
    · rw [hslots, acquire_slots]
      by_cases ht : slotsFor request = some t
      · rw [if_pos ht]
        exact .inr (hroom t ht)
      · exact .inl (by simp [ht])
    · rw [hactive, countP_aside (fun _ h => h.marks jobID) hold]
      simp [Goroutine.marks]
  | refuse request caller answer hswap hslots hcontexts hactive =>
    have hmem := hswap.mem_old (List.mem_singleton.2 rfl)
    refine ⟨_, [], hswap, List.forall_mem_nil _, .inl (Nat.zero_le _), fun t => ?_, fun t => ?_,
      fun jobID => by rw [hactive]; rfl⟩
    · rw [hslots]
      exact hcounted.release hmem (fun _ => rfl) t
    · rw [hslots, release_slots]
      exact .inl (Nat.sub_le _ _)
  | register e caller hswap hown hnew hslots hcontexts hactive =>
    refine ⟨_, _, .same hswap ?_ hslots hactive ?_ ?_ ?_⟩
    · cases caller with
      | core => simpa [launch, Goroutine.Proper] using hown
      | recovery completed todo => simpa [launch, Goroutine.Proper, Thread.isHandling] using hown
    · rw [launch_countP e caller rfl fun _ => rfl]
      exact Nat.zero_le _
    · intro t
      rw [launch_countP e caller rfl fun _ => rfl]
      simp [List.countP_singleton, Goroutine.holds, hown]
    · intro jobID
      rw [launch_countP e caller rfl fun _ => rfl]
      rfl
  | acknowledge e hswap hsame hactive =>
    exact ⟨_, [], .same hswap (List.forall_mem_nil _) hsame.slots hactive (Nat.zero_le _)
      (fun _ => rfl) fun _ => rfl⟩
  | mark e hswap hsame hactive =>
    have hproper := hcounted.proper _ (hswap.mem_old (List.mem_singleton.2 rfl))
    refine ⟨_, _, hswap, List.forall_mem_singleton.2 hproper, .inl (Nat.zero_le _),
      fun t => by rw [hsame.slots]; rfl, fun t => .inl (hsame.slots ▸ le_rfl), fun jobID => ?_⟩
    have hcount := hcounted.active e.request.jobId
    rw [hactive, List.countP_singleton, List.countP_singleton]
    by_cases hjob : jobID = e.request.jobId
    · subst hjob
      rw [activeCount_markActive, max_eq_right (by omega)]
      simp [Goroutine.marks]
    · rw [activeCount_markActive_ne _ _ hjob]
      simp [Goroutine.marks, Ne.symm hjob]
  | handled e result hswap hsame hactive =>
    have hproper := hcounted.proper _ (hswap.mem_old (List.mem_singleton.2 rfl))
    exact ⟨_, _, .same hswap (List.forall_mem_singleton.2 hproper) hsame.slots hactive le_rfl
      (fun _ => rfl) fun _ => rfl⟩
  | unmark e result hswap hsame hactive =>
    have hmem := hswap.mem_old (List.mem_singleton.2 rfl)
    have hproper := hcounted.proper _ hmem
    refine ⟨_, _, hswap, List.forall_mem_singleton.2 hproper, .inl (Nat.zero_le _),
      fun t => by rw [hsame.slots]; rfl, fun t => .inl (hsame.slots ▸ le_rfl), fun jobID => ?_⟩
    rw [hactive, List.countP_singleton, List.countP_singleton]
    by_cases hjob : jobID = e.request.jobId
    · subst hjob
      have hcount := hcounted.active e.request.jobId
      have hpos : 0 < h.goroutines.countP (Goroutine.marks e.request.jobId) :=
        List.countP_pos_iff.2 ⟨_, hmem, decide_eq_true rfl⟩
      rw [activeCount_markActive, max_eq_right (by omega)]
      simp [Goroutine.marks]
    · rw [activeCount_markActive_ne _ _ hjob]
      simp [Goroutine.marks, Ne.symm hjob]
  | release e result hswap hslots hcontexts hactive =>
    have hmem := hswap.mem_old (List.mem_singleton.2 rfl)
    refine ⟨_, _, hswap, List.forall_mem_singleton.2 rfl, .inl (Nat.zero_le _), fun t => ?_,
      fun t => ?_, fun jobID => by rw [hactive]; rfl⟩
    · rw [hslots]
      exact hcounted.release hmem (fun _ => rfl) t
    · rw [hslots, release_slots]
      exact .inl (Nat.sub_le _ _)

theorem counted_start {inp : Input} {disk : Disk} (hstart : start cfg inp disk = some h) :
    Counted cfg h := by
  unfold start at hstart
  split at hstart
  · cases hstart
    exact ⟨List.forall_mem_nil _, Nat.zero_le _, fun _ => rfl, fun _ => Nat.zero_le _, fun _ => rfl⟩
  · split at hstart
    · cases hstart
    · cases hstart
      exact ⟨List.forall_mem_singleton.2 rfl, Nat.zero_le _, fun _ => rfl, fun _ => Nat.zero_le _,
        fun _ => rfl⟩

theorem counted (hh : Reachable cfg h) : Counted cfg h := by
  induction hh with
  | start inp disk hstart => exact counted_start hstart
  | step hh hs ih =>
    obtain ⟨old, new, hbalance⟩ := ih.balance (step_effect hs ih.proper)
    exact hbalance.counted ih

theorem Reachable.effect (hh : Reachable cfg h) {l : Move} (hs : h.step cfg l = some h') :
    Effect cfg h h' :=
  step_effect hs (counted hh).proper

end Host

end Invariant

end GoScheduler.Executor
