import GoScheduler.Executor.Chronicle
import GoScheduler.WeakFairness

/-! The slots of an executor: for every kind of execution those in use are the executions of that
kind which were registered and not released, and the one of the dispatch that holds the mutex; an
execution whose handler has returned gives its slot back, once. -/
namespace GoScheduler.Executor

open Process

section Accounts

variable (cfg : Settings)

def Goroutine.request : Goroutine → Option DispatchRequest
  | .admitted request _ _ => some request
  | .execute _ e => some e.request
  | _ => none

namespace Host

def held (h : Host) (executionType : Slots) : ℕ :=
  h.goroutines.countP fun g => g.isAdmitted && g.holds executionType

def executing (h : Host) (executionType : Slots) : ℕ :=
  (unreleased h.log).countP fun e => slotsFor e.request = some executionType

structure Accounted (h : Host) : Prop where
  balanced : ∀ t, h.shared.server.slots t = h.executing t + h.held t
  mutex : h.goroutines.countP Goroutine.isAdmitted ≤ 1
  limit : ∀ t, h.shared.server.slots t ≤ cfg.limit t
  once : ∀ e past, (.released e :: past) <:+ h.log →
    .registered e ∈ past ∧ .returned e ∈ past ∧ .released e ∉ past
  kubernetes : ∀ g ∈ h.goroutines, ∀ request, g.request = some request →
    request.scriptLanguage = text "kubernetes" → ∀ t, g.holds t = false

structure Charged (h : Host) (l : Move) (h' : Host) : Prop where
  -- Only registering and releasing an execution change what executions use, and only the dispatch
  -- with the mutex what is held for it.
  other : (∀ e, h'.log ≠ .registered e :: h.log) → (∀ e, h'.log ≠ .released e :: h.log) →
    ∀ t, h'.executing t = h.executing t
  -- A dispatch that is answered at once leaves the slots.
  answered : ∀ request inp, l = .dispatch request inp → h'.log ≠ h.log →
    h'.shared.server.slots = h.shared.server.slots
  -- Any other has taken the slot it is to use.
  admitted : ∀ request inp, l = .dispatch request inp → h'.log = h.log →
    ∀ t, h'.shared.server.slots t =
      h.shared.server.slots t + if slotsFor request = some t then 1 else 0
  -- It gives that slot back where its request was not saved, and keeps it otherwise.
  saved : ∀ i inp request slots caller, l = .advance i inp →
    h.goroutines[i]? = some (.admitted request slots caller) →
    ((∃ e, h'.log = .registered e :: h.log) ∧ h'.shared.server.slots = h.shared.server.slots) ∨
      ∀ t, h'.shared.server.slots t + (if slots = some t then 1 else 0) = h.shared.server.slots t
  -- A cancel request leaves the slots.
  cancelled : ∀ request inp, l = .cancel request inp →
    h'.shared.server.slots = h.shared.server.slots
  -- So does what follows of it, what a delivery does, and recovery where it does not dispatch.
  followed : ∀ i inp thread, l = .advance i inp → h.goroutines[i]? = some (.other thread) →
    thread.resumes h.shared.server = none → h'.shared.server.slots = h.shared.server.slots

end Host

end Accounts

section Proofs

variable {cfg : Settings}

namespace Host

variable {h h' : Host}

theorem Recorded.slots (hrecorded : Recorded h) (hproper : ∀ g ∈ h.goroutines, g.Proper)
    (t : Slots) : h.goroutines.countP (Goroutine.holds t) = h.executing t + h.held t := by
  have hexecuting : h.executing t =
      (h.goroutines.filterMap Goroutine.execution).countP fun e => slotsFor e.request = some t :=
    (hrecorded.executions.countP_eq _).symm
  rw [hexecuting, held]
  generalize h.goroutines = gs at hproper
  induction gs with
  | nil => rfl
  | cons g gs ih =>
    have ih' := ih fun g' hg' => hproper g' (List.mem_cons_of_mem g hg')
    have hg := hproper g List.mem_cons_self
    cases g with
    | execute phase e =>
      have hslots : e.slots = slotsFor e.request := hg
      simp only [List.countP_cons, List.filterMap_cons, Goroutine.execution, Goroutine.holds,
        Goroutine.isAdmitted, hslots, ih']
      simp
      omega
    | admitted request slots caller =>
      simp only [List.countP_cons, List.filterMap_cons, Goroutine.execution, Goroutine.holds,
        Goroutine.isAdmitted, ih']
      simp
      omega
    | _ =>
      simp only [List.countP_cons, List.filterMap_cons, Goroutine.execution, Goroutine.holds,
        Goroutine.isAdmitted, ih']
      simp

theorem slotsFor_kubernetes {request : DispatchRequest}
    (h : request.scriptLanguage = text "kubernetes") : slotsFor request = none := by
  rw [slotsFor, if_pos h]

theorem accounted (hh : Reachable cfg h) : Accounted cfg h where
  balanced t := by rw [(counted hh).slots, (recorded hh).slots (counted hh).proper]
  mutex := (counted hh).mutex
  limit := (counted hh).limit
  once e past hsuffix := by
    have htimed := (recorded hh).timed
    have htail : Timed past := fun o past' hpast =>
      htimed o past' (hpast.trans ((List.suffix_cons _ past).trans hsuffix))
    obtain ⟨hreturned, hreleased⟩ := htimed _ past hsuffix
    exact ⟨htail.registered_of_returned hreturned, hreturned, hreleased⟩
  kubernetes g hg request hrequest hlanguage t := by
    have hproper := (counted hh).proper g hg
    cases g with
    | admitted request' slots caller =>
      cases hrequest
      have hslots : slots = none := hproper.trans (slotsFor_kubernetes hlanguage)
      simp [Goroutine.holds, hslots]
    | execute phase e =>
      cases hrequest
      have hslots : e.slots = none := hproper.trans (slotsFor_kubernetes hlanguage)
      simp [Goroutine.holds, hslots]
    | _ => rfl

theorem Effect.recorded (heffect : Effect cfg h h') :
    h'.log = h.log ∨ ∃ o, h'.log = o :: h.log := by
  cases heffect with
  | aside old new hswap hold hnew hsame hactive hlog =>
    rcases hlog with hlog | ⟨request, answer, hlog⟩
    · exact .inl hlog
    · exact .inr ⟨_, hlog⟩
  | accept old request caller hswap hold hfree hroom hslots hcontexts hactive hlog =>
    exact .inl hlog
  | refuse request caller answer hswap hslots hcontexts hactive hlog => exact .inr ⟨_, hlog⟩
  | register e caller hswap hown hnew hslots hcontexts hactive hlog => exact .inr ⟨_, hlog⟩
  | acknowledge e hswap hsame hactive hlog => exact .inr ⟨_, hlog⟩
  | mark e hswap hsame hactive hlog => exact .inl hlog
  | handled e result hswap hsame hactive hlog => exact .inr ⟨_, hlog⟩
  | unmark e result hswap hsame hactive hlog => exact .inl hlog
  | release e result hswap hslots hcontexts hactive hlog => exact .inr ⟨_, hlog⟩

theorem Effect.executing (heffect : Effect cfg h h')
    (hregistered : ∀ e, h'.log ≠ .registered e :: h.log)
    (hreleased : ∀ e, h'.log ≠ .released e :: h.log) (t : Slots) :
    h'.executing t = h.executing t := by
  have hunreleased : unreleased h'.log = unreleased h.log := by
    rcases heffect.recorded with hlog | ⟨o, hlog⟩
    · rw [hlog]
    · rw [hlog]
      refine unreleased_other ?_ fun e ho => hreleased e (ho ▸ hlog)
      cases o with
      | registered e => exact absurd hlog (hregistered e)
      | _ => rfl
  rw [Host.executing, hunreleased, Host.executing]

theorem dispatch_slots {request : DispatchRequest} {inp : Input}
    (hs : h.step cfg (.dispatch request inp) = some h') :
    h'.log ≠ h.log ∧ h'.shared.server.slots = h.shared.server.slots ∨
      h'.log = h.log ∧ ∀ t, h'.shared.server.slots t =
        h.shared.server.slots t + if slotsFor request = some t then 1 else 0 := by
  simp only [step] at hs
  split at hs
  · obtain ⟨change, hchange, rfl⟩ := Option.map_eq_some_iff.1 hs
    have hsound := admitDispatch_sound cfg inp false request h.shared.server
    unfold enter at hchange
    split at hchange
    · cases hchange
    split at hchange
    · next result server hadmission =>
      rw [hadmission] at hsound
      cases hchange
      exact .inl ⟨List.cons_ne_self _ _, hsound.1⟩
    · next request' slots server hadmission =>
      rw [hadmission] at hsound
      obtain ⟨-, rfl, hkind, -, hslots, -⟩ := hsound
      cases hchange
      refine .inr ⟨rfl, fun t => ?_⟩
      rw [← hkind, ← acquire_slots, ← hslots]
      rfl
  · cases hs

theorem save_slots {i : ℕ} {inp : Input} {request : DispatchRequest} {slots : Option Slots}
    {caller : Caller} (hcounted : Counted cfg h)
    (hg : h.goroutines[i]? = some (.admitted request slots caller))
    (hs : h.step cfg (.advance i inp) = some h') :
    ((∃ e, h'.log = .registered e :: h.log) ∧ h'.shared.server.slots = h.shared.server.slots) ∨
      ∀ t, h'.shared.server.slots t + (if slots = some t then 1 else 0) =
        h.shared.server.slots t := by
  simp only [step, hg, Option.bind_eq_bind, Option.bind_some, Option.bind_eq_some_iff] at hs
  obtain ⟨change, hchange, hs⟩ := hs
  cases hs
  simp only [advance, save] at hchange
  rcases persistAdmitted_cases cfg inp request slots h.shared with
    ⟨refusal, hanswer, hstarted, hslots, hcontexts⟩ | ⟨hstarted, hslots, hcontexts⟩
  · rw [hstarted, hanswer] at hchange
    dsimp only at hchange
    split at hchange
    · cases caller with
      | core =>
        cases hchange
        refine .inr fun t => ?_
        have hrelease := hcounted.release (List.mem_of_getElem? hg) (fun _ => rfl) t
        rw [← hslots] at hrelease
        simpa [List.countP_singleton, Goroutine.holds, apply] using hrelease
      | recovery completed todo => cases hchange
    · cases hchange
  · rw [hstarted] at hchange
    cases hchange
    exact .inl ⟨⟨_, rfl⟩, hslots⟩

theorem charged (hh : Reachable cfg h) {l : Move} (hs : h.step cfg l = some h') :
    Charged h l h' where
  other hregistered hreleased := (hh.effect hs).executing hregistered hreleased
  answered request inp hl hlog := by
    subst hl
    rcases dispatch_slots hs with ⟨-, hslots⟩ | ⟨hsame, -⟩
    · exact hslots
    · exact absurd hsame hlog
  admitted request inp hl hlog := by
    subst hl
    rcases dispatch_slots hs with ⟨hchanged, -⟩ | ⟨-, hslots⟩
    · exact absurd hlog hchanged
    · exact hslots
  saved i inp request slots caller hl hg := by
    subst hl
    exact save_slots (counted hh) hg hs
  cancelled request inp hl := by
    subst hl
    simp only [step] at hs
    split at hs
    · cases hs
      exact (cancel_sameSlots request inp h.shared).slots
    · cases hs
  followed i inp thread hl hg hresumes := by
    subst hl
    simp only [step, hg, Option.bind_eq_bind, Option.bind_some, Option.bind_eq_some_iff] at hs
    obtain ⟨change, hchange, hs⟩ := hs
    cases hs
    simp only [advance, hresumes, follow] at hchange
    split at hchange
    · cases hchange
    split at hchange
    · cases hchange
    · cases hchange
      have hproper : thread.isHandling = false := (counted hh).proper _ (List.mem_of_getElem? hg)
      exact (step_sameSlots hproper hresumes).slots

end Host

end Proofs

section Runs

open WeakFairness

def Goroutine.inHandler : Goroutine → Bool
  | .execute .handling _ => true
  | _ => false

namespace Host

/-- A process that goes on without end; between two steps of its own time may pass. -/
structure IsRun (cfg : Settings) (run : ℕ → Host) : Prop where
  first : Reachable cfg (run 0)
  next : ∀ n, run (n + 1) = run n ∨ ∃ l, (run n).step cfg l = some (run (n + 1))

-- The code of a handler is not the executor's: it may never return.
def CanAdvance (cfg : Settings) (h : Host) (g : Goroutine) : Prop :=
  g.inHandler = false ∧ ∃ inp, (h.advance cfg inp g).isSome = true

/-- The scheduler leaves no goroutine that can go on where it is for ever, handlers apart. -/
def FairRun (cfg : Settings) (run : ℕ → Host) : Prop :=
  IsRun cfg run ∧ Fair (fun h g => g ∈ h.goroutines) (CanAdvance cfg) run

variable {cfg : Settings} {h h' : Host} {run : ℕ → Host}

theorem IsRun.reachable (hrun : IsRun cfg run) (n : ℕ) : Reachable cfg (run n) := by
  induction n with
  | zero => exact hrun.first
  | succ n ih =>
    rcases hrun.next n with hsame | ⟨l, hs⟩
    · rw [hsame]
      exact ih
    · exact ih.step hs

theorem Effect.advanced {phase : Phase} {e : Started} (heffect : Effect cfg h h')
    (hg : .execute phase e ∈ h.goroutines) (hgone : .execute phase e ∉ h'.goroutines)
    (hphase : phase.isReturned = true) :
    (∃ result, phase = .returned result ∧ .execute (.unmarked result) e ∈ h'.goroutines) ∨
      .released e ∈ h'.log := by
  cases heffect with
  | aside old new hswap hold hnew hsame hactive hlog => exact (hold _ (hswap.gone hg hgone)).elim
  | accept old request caller hswap hold hfree hroom hslots hcontexts hactive hlog =>
    exact (hold _ (hswap.gone hg hgone)).elim
  | refuse request caller answer hswap hslots hcontexts hactive hlog =>
    cases List.mem_singleton.1 (hswap.gone hg hgone)
  | register e' caller hswap hown hnew hslots hcontexts hactive hlog =>
    cases List.mem_singleton.1 (hswap.gone hg hgone)
  | acknowledge e' hswap hsame hactive hlog => cases List.mem_singleton.1 (hswap.gone hg hgone)
  | mark e' hswap hsame hactive hlog =>
    cases List.mem_singleton.1 (hswap.gone hg hgone)
    cases hphase
  | handled e' result hswap hsame hactive hlog =>
    cases List.mem_singleton.1 (hswap.gone hg hgone)
    cases hphase
  | unmark e' result hswap hsame hactive hlog =>
    cases List.mem_singleton.1 (hswap.gone hg hgone)
    exact .inl ⟨result, rfl, hswap.mem_new (List.mem_singleton.2 rfl)⟩
  | release e' result hswap hslots hcontexts hactive hlog =>
    cases List.mem_singleton.1 (hswap.gone hg hgone)
    rw [hlog]
    exact .inr List.mem_cons_self

/-- Nothing keeps an execution from its release once its handler has returned: the slot it is to
give back is there. -/
theorem canAdvance_of_isReturned (hh : Reachable cfg h) {phase : Phase} {e : Started}
    (hg : .execute phase e ∈ h.goroutines) (hphase : phase.isReturned = true) :
    CanAdvance cfg h (.execute phase e) := by
  cases phase with
  | launched => cases hphase
  | handling => cases hphase
  | returned result => exact ⟨rfl, { createdAt := newYear }, rfl⟩
  | unmarked result =>
    refine ⟨rfl, { createdAt := newYear }, ?_⟩
    have hoccupied : h.shared.server.occupied e.slots = true := by
      cases hslots : e.slots with
      | none => rfl
      | some t => exact decide_eq_true ((counted hh).occupied hg (decide_eq_true hslots))
    simp [advance, execute, hoccupied]

theorem IsRun.advanced (hrun : IsRun cfg run) {phase : Phase} {e : Started} {n : ℕ}
    (hphase : phase.isReturned = true) (hg : .execute phase e ∈ (run n).goroutines)
    (hgone : .execute phase e ∉ (run (n + 1)).goroutines) :
    (∃ result, phase = .returned result ∧
      .execute (.unmarked result) e ∈ (run (n + 1)).goroutines) ∨
      .released e ∈ (run (n + 1)).log := by
  rcases hrun.next n with hsame | ⟨l, hs⟩
  · exact absurd (hsame ▸ hg) hgone
  · exact ((hrun.reachable n).effect hs).advanced hg hgone hphase

theorem FairRun.unmarked_leadsTo (hrun : FairRun cfg run) (result : HandlerResult) (e : Started) :
    LeadsTo run (fun h => .execute (.unmarked result) e ∈ h.goroutines)
      fun h => .released e ∈ h.log := by
  refine hrun.2.leadsTo (fun k hg => canAdvance_of_isReturned (hrun.1.reachable k) hg rfl)
    fun k hg hgone => ?_
  rcases hrun.1.advanced rfl hg hgone with ⟨result', hphase, -⟩ | hreleased
  · cases hphase
  · exact hreleased

theorem FairRun.returned_leadsTo (hrun : FairRun cfg run) (result : HandlerResult) (e : Started) :
    LeadsTo run (fun h => .execute (.returned result) e ∈ h.goroutines)
      fun h => .released e ∈ h.log := by
  refine LeadsTo.trans (q := fun h => .execute (.unmarked result) e ∈ h.goroutines ∨
    .released e ∈ h.log) (hrun.2.leadsTo
      (fun k hg => canAdvance_of_isReturned (hrun.1.reachable k) hg rfl) fun k hg hgone => ?_) ?_
  · refine (hrun.1.advanced rfl hg hgone).imp_left fun ⟨result', hphase, hunmarked⟩ => ?_
    cases hphase
    exact hunmarked
  · rintro n (hunmarked | hreleased)
    · exact hrun.unmarked_leadsTo result e n hunmarked
    · exact ⟨n, le_rfl, hreleased⟩

theorem FairRun.released (hrun : FairRun cfg run) (e : Started) :
    LeadsTo run (fun h => .returned e ∈ h.log) fun h => .released e ∈ h.log := by
  intro n hreturned
  have hrecorded := recorded (hrun.1.reachable n)
  by_cases hreleased : .released e ∈ (run n).log
  · exact ⟨n, le_rfl, hreleased⟩
  have hmem : e ∈ (run n).goroutines.filterMap Goroutine.execution :=
    hrecorded.executions.mem_iff.2
      (mem_unreleased.2 ⟨hrecorded.timed.registered_of_returned hreturned, hreleased⟩)
  obtain ⟨g, hg, hexecution⟩ := List.mem_filterMap.1 hmem
  cases g with
  | execute phase e' =>
    cases hexecution
    have hphase := (hrecorded.returned phase e hg).1 hreturned
    cases phase with
    | launched => cases hphase
    | handling => cases hphase
    | returned result => exact hrun.returned_leadsTo result e n hg
    | unmarked result => exact hrun.unmarked_leadsTo result e n hg
  | _ => cases hexecution

end Host

/-- The slots of an executor are accounted exactly: in every state of a process and in every step,
and in every fair run each execution gives back its slot after its handler has returned. -/
theorem slots_accounted (cfg : Settings) :
    (∀ h, Host.Reachable cfg h → h.Accounted cfg) ∧
      (∀ h l h', Host.Reachable cfg h → h.step cfg l = some h' → h.Charged l h') ∧
      ∀ run, Host.FairRun cfg run → ∀ e,
        LeadsTo run (fun h => .returned e ∈ h.log) fun h => .released e ∈ h.log :=
  ⟨fun _ hh => Host.accounted hh, fun _ _ _ hh hs => Host.charged hh hs,
    fun _ hrun e => hrun.released e⟩

/-- A container is dispatched and its handler panics; the slot is in use until the release. -/
theorem slots_accounted_docker :
    ∃ h h' : Host, Host.Reachable (plainSettings none) h ∧ h.Accounted (plainSettings none) ∧
      h.shared.server.slots .docker = 1 ∧
      h.step (plainSettings none) (.advance 0 { createdAt := newYear }) = some h' ∧
      h.Charged (.advance 0 { createdAt := newYear }) h' ∧ h'.shared.server.slots .docker = 0 := by
  have hrun : ((Host.start (plainSettings none) { createdAt := newYear } ⟨∅, [], []⟩).bind fun h₀ =>
      (h₀.run (plainSettings none)
        [.dispatch dockerRequest { createdAt := newYear }, .advance 0 { createdAt := newYear },
          .advance 0 { createdAt := newYear }, .panics 0 [],
          .advance 0 { createdAt := newYear }]).bind
      fun h => (h.step (plainSettings none) (.advance 0 { createdAt := newYear })).map fun h' =>
        (h.shared.server.slots .docker, h'.shared.server.slots .docker)) = some (1, 0) := by
    decide +kernel
  obtain ⟨h₀, hstart, hrun⟩ := Option.bind_eq_some_iff.1 hrun
  obtain ⟨h, hh, hrun⟩ := Option.bind_eq_some_iff.1 hrun
  obtain ⟨h', hs, hfacts⟩ := Option.map_eq_some_iff.1 hrun
  have hreachable : Host.Reachable (plainSettings none) h :=
    (Host.Reachable.start _ _ hstart).run hh
  exact ⟨h, h', hreachable, (slots_accounted _).1 h hreachable, congrArg Prod.fst hfacts, hs,
    (slots_accounted _).2.1 h _ h' hreachable hs, congrArg Prod.snd hfacts⟩

end Runs

end GoScheduler.Executor
