import GoScheduler.Executor.Executions

/-! What a process has recorded of its executions, and where their goroutines are. An execution is
registered once, its handler returns after that, and it is released once and after that; in every
state the goroutines of `execute` are those of the executions registered and not released. -/
namespace GoScheduler.Executor

open Process

section Chronicle

def Occurrence.Timely (past : List Occurrence) : Occurrence → Prop
  | .dispatched _ _ => True
  | .registered e => ∀ e', .registered e' ∈ past → e'.context ≠ e.context
  | .acknowledged e => .registered e ∈ past
  | .returned e => .registered e ∈ past ∧ .returned e ∉ past
  | .released e => .returned e ∈ past ∧ .released e ∉ past

def Occurrence.registration : Occurrence → Option Started
  | .registered e => some e
  | _ => none

def registrations (log : List Occurrence) : List Started := log.filterMap Occurrence.registration

def unreleased (log : List Occurrence) : List Started :=
  (registrations log).filter fun e => .released e ∉ log

def Timed (log : List Occurrence) : Prop := ∀ o past, (o :: past) <:+ log → o.Timely past

variable {log : List Occurrence} {o : Occurrence} {e : Started}

theorem Timed.nil : Timed [] := fun _ _ h => by cases List.suffix_nil.1 h

theorem Timed.cons (htimed : Timed log) (ho : o.Timely log) : Timed (o :: log) := by
  intro o' past hsuffix
  rcases List.suffix_cons_iff.1 hsuffix with heq | hsuffix
  · cases heq
    exact ho
  · exact htimed o' past hsuffix

theorem Timed.tail (htimed : Timed (o :: log)) : Timed log := fun o' past hsuffix =>
  htimed o' past (hsuffix.trans (List.suffix_cons o log))

theorem Timed.of_mem (htimed : Timed log) (ho : o ∈ log) : ∃ past, past ⊆ log ∧ o.Timely past := by
  obtain ⟨later, past, rfl⟩ := List.append_of_mem ho
  have hsuffix : (o :: past) <:+ later ++ o :: past := List.suffix_append later (o :: past)
  exact ⟨past, fun x hx => hsuffix.subset (List.mem_cons_of_mem o hx), htimed o past hsuffix⟩

theorem Timed.registered_of_returned (htimed : Timed log) (h : .returned e ∈ log) :
    .registered e ∈ log := by
  obtain ⟨past, hsubset, hregistered, -⟩ := htimed.of_mem h
  exact hsubset hregistered

theorem Timed.returned_of_released (htimed : Timed log) (h : .released e ∈ log) :
    .returned e ∈ log := by
  obtain ⟨past, hsubset, hreturned, -⟩ := htimed.of_mem h
  exact hsubset hreturned

theorem Timed.registered_of_acknowledged (htimed : Timed log) (h : .acknowledged e ∈ log) :
    .registered e ∈ log := by
  obtain ⟨past, hsubset, hregistered⟩ := htimed.of_mem h
  exact hsubset hregistered

theorem mem_registrations : e ∈ registrations log ↔ .registered e ∈ log := by
  unfold registrations
  rw [List.mem_filterMap]
  constructor
  · rintro ⟨o, ho, h⟩
    cases o with
    | registered e' =>
      cases h
      exact ho
    | _ => cases h
  · exact fun h => ⟨_, h, rfl⟩

theorem mem_unreleased : e ∈ unreleased log ↔ .registered e ∈ log ∧ .released e ∉ log := by
  simp [unreleased, mem_registrations]

theorem Timed.nodup (htimed : Timed log) : (registrations log).Nodup := by
  induction log with
  | nil => exact List.nodup_nil
  | cons o log ih =>
    have hlog := ih htimed.tail
    cases o with
    | registered e =>
      refine List.nodup_cons.2 ⟨fun hmem => ?_, hlog⟩
      exact htimed _ log (List.suffix_refl _) e (mem_registrations.1 hmem) rfl
    | _ => exact hlog

theorem unreleased_registered (h : .released e ∉ log) :
    unreleased (.registered e :: log) = e :: unreleased log := by
  have hregistrations : registrations (.registered e :: log) = e :: registrations log := rfl
  unfold unreleased
  rw [hregistrations, List.filter_cons_of_pos (by simpa using h)]
  simp

theorem unreleased_released :
    unreleased (.released e :: log) = (unreleased log).filter fun e' => e' ≠ e := by
  have hregistrations : registrations (.released e :: log) = registrations log := rfl
  unfold unreleased
  rw [hregistrations, List.filter_filter]
  refine List.filter_congr fun e' _ => ?_
  simp [not_or]

theorem unreleased_other (hregistered : o.registration = none) (hreleased : ∀ e, o ≠ .released e) :
    unreleased (o :: log) = unreleased log := by
  have hregistrations : registrations (o :: log) = registrations log := by
    simp [registrations, hregistered]
  unfold unreleased
  rw [hregistrations]
  refine List.filter_congr fun e' _ => ?_
  simp [(hreleased e').symm]

end Chronicle

section Records

variable {cfg : Settings}

def Phase.isReturned : Phase → Bool
  | .launched | .handling => false
  | .returned _ | .unmarked _ => true

namespace Host

/-- The goroutines of `execute` are those of the executions not released, each as far as the log
has it. -/
structure Recorded (h : Host) : Prop where
  timed : Timed h.log
  executions : (h.goroutines.filterMap Goroutine.execution).Perm (unreleased h.log)
  known : ∀ e, .registered e ∈ h.log →
    e.context < h.shared.server.contexts ∧ e.slots = slotsFor e.request
  returned : ∀ phase e, .execute phase e ∈ h.goroutines →
    (.returned e ∈ h.log ↔ phase.isReturned = true)
  answering : ∀ e, .answering e ∈ h.goroutines → .registered e ∈ h.log

variable {h h' : Host} {old new : List Goroutine}

theorem Swap.executions (hswap : Swap old new h h')
    (hsame : old.filterMap Goroutine.execution = new.filterMap Goroutine.execution) :
    (h'.goroutines.filterMap Goroutine.execution).Perm
      (h.goroutines.filterMap Goroutine.execution) := by
  obtain ⟨rest, hold, hnew⟩ := hswap
  have hold' := hold.filterMap Goroutine.execution
  have hnew' := hnew.filterMap Goroutine.execution
  rw [List.filterMap_append] at hold' hnew'
  rw [hsame] at hold'
  exact hnew'.trans hold'.symm

theorem filterMap_execution_aside {gs : List Goroutine} (h : ∀ g ∈ gs, g.Aside) :
    gs.filterMap Goroutine.execution = [] :=
  List.filterMap_eq_nil_iff.2 fun g hg => (h g hg).execution

theorem mem_executions {phase : Phase} {e : Started} (hg : .execute phase e ∈ h.goroutines) :
    e ∈ h.goroutines.filterMap Goroutine.execution :=
  List.mem_filterMap.2 ⟨_, hg, rfl⟩

namespace Recorded

theorem nodup (hrecorded : Recorded h) : (h.goroutines.filterMap Goroutine.execution).Nodup :=
  hrecorded.executions.nodup_iff.2 (hrecorded.timed.nodup.filter _)

theorem unreleased (hrecorded : Recorded h) {phase : Phase} {e : Started}
    (hg : .execute phase e ∈ h.goroutines) : .registered e ∈ h.log ∧ .released e ∉ h.log :=
  mem_unreleased.1 (hrecorded.executions.mem_iff.1 (mem_executions hg))

theorem others (hrecorded : Recorded h) {phase phase' : Phase} {e e' : Started}
    (hswap : Swap [.execute phase e] new h h') (hg : .execute phase' e' ∈ h'.goroutines) :
    .execute phase' e' ∈ new ∨ .execute phase' e' ∈ h.goroutines ∧ e' ≠ e := by
  obtain ⟨rest, hold, hnew⟩ := hswap
  rcases List.mem_append.1 (hnew.mem_iff.1 hg) with hg | hg
  · exact .inl hg
  · refine .inr ⟨hold.mem_iff.2 (List.mem_append_right _ hg), ?_⟩
    rintro rfl
    have hnodup := (hold.filterMap Goroutine.execution).nodup_iff.1 hrecorded.nodup
    exact (List.nodup_cons.1 hnodup).1 (List.mem_filterMap.2 ⟨_, hg, rfl⟩)

theorem swap (hrecorded : Recorded h) (hswap : Swap old new h h') (hlog : h'.log = h.log)
    (hcontexts : h'.shared.server.contexts = h.shared.server.contexts)
    (hsame : old.filterMap Goroutine.execution = new.filterMap Goroutine.execution)
    (hreturned : ∀ phase e, .execute phase e ∈ new →
      (.returned e ∈ h.log ↔ phase.isReturned = true))
    (hanswering : ∀ e, .answering e ∈ new → .registered e ∈ h.log) : Recorded h' where
  timed := hlog ▸ hrecorded.timed
  executions := hlog ▸ (hswap.executions hsame).trans hrecorded.executions
  known := by
    rw [hlog, hcontexts]
    exact hrecorded.known
  returned phase e hg := hlog ▸ (hswap.mem hg).elim (hreturned phase e) (hrecorded.returned phase e)
  answering e hg := hlog ▸ (hswap.mem hg).elim (hanswering e) (hrecorded.answering e)

theorem record (hrecorded : Recorded h) {o : Occurrence} (ho : o.Timely h.log)
    (hregistered : o.registration = none) (hreturned : ∀ e, o ≠ .returned e)
    (hreleased : ∀ e, o ≠ .released e) : Recorded { h with log := o :: h.log } where
  timed := hrecorded.timed.cons ho
  executions := by
    rw [unreleased_other hregistered hreleased]
    exact hrecorded.executions
  known e he := by
    rcases List.mem_cons.1 he with rfl | he
    · cases hregistered
    · exact hrecorded.known e he
  returned phase e hg := by
    rw [List.mem_cons, or_iff_right (hreturned e).symm]
    exact hrecorded.returned phase e hg
  answering e hg := List.mem_cons_of_mem o (hrecorded.answering e hg)

theorem register (hrecorded : Recorded h) {e : Started} {caller : Caller}
    {request : DispatchRequest} {slots : Option Slots}
    (hswap : Swap [.admitted request slots caller] (launch e caller) h h')
    (hown : e.slots = slotsFor e.request) (hnew : e.context = h.shared.server.contexts)
    (hcontexts : h'.shared.server.contexts = h.shared.server.contexts + 1)
    (hlog : h'.log = .registered e :: h.log) : Recorded h' := by
  have hfresh : ∀ e', .registered e' ∈ h.log → e'.context ≠ e.context := by
    intro e' he'
    have := (hrecorded.known e' he').1
    omega
  have hregistered : .registered e ∉ h.log := fun he => hfresh e he rfl
  have hreturned : .returned e ∉ h.log :=
    fun he => hregistered (hrecorded.timed.registered_of_returned he)
  have hreleased : .released e ∉ h.log :=
    fun he => hreturned (hrecorded.timed.returned_of_released he)
  have hlaunch : ∀ phase e', .execute phase e' ∈ launch e caller → phase = .launched ∧ e' = e := by
    intro phase e' hg
    cases caller with
    | core => simpa [launch] using hg
    | recovery completed todo => simpa [launch] using hg
  constructor
  · rw [hlog]
    exact hrecorded.timed.cons hfresh
  · obtain ⟨rest, hold, hnew⟩ := hswap
    have hold' := hold.filterMap Goroutine.execution
    have hnew' := hnew.filterMap Goroutine.execution
    have hone : (launch e caller).filterMap Goroutine.execution = [e] := by cases caller <;> rfl
    rw [List.filterMap_append, hone] at hnew'
    rw [hlog, unreleased_registered hreleased]
    exact hnew'.trans ((hold'.symm.trans hrecorded.executions).cons e)
  · intro e' he'
    rw [hlog, List.mem_cons] at he'
    rw [hcontexts]
    rcases he' with he' | he'
    · cases he'
      exact ⟨by omega, hown⟩
    · have hknown := hrecorded.known e' he'
      exact ⟨by omega, hknown.2⟩
  · intro phase e' hg
    rw [hlog, List.mem_cons, or_iff_right (by simp)]
    rcases hswap.mem hg with hg | hg
    · obtain ⟨rfl, rfl⟩ := hlaunch phase e' hg
      simpa [Phase.isReturned] using hreturned
    · exact hrecorded.returned phase e' hg
  · intro e' hg
    rw [hlog, List.mem_cons]
    rcases hswap.mem hg with hg | hg
    · refine .inl ?_
      cases caller with
      | core => simpa [launch] using hg
      | recovery completed todo => simp [launch] at hg
    · exact .inr (hrecorded.answering e' hg)

theorem handled (hrecorded : Recorded h) {e : Started} {result : HandlerResult}
    (hswap : Swap [.execute .handling e] [.execute (.returned result) e] h h')
    (hcontexts : h'.shared.server.contexts = h.shared.server.contexts)
    (hlog : h'.log = .returned e :: h.log) : Recorded h' := by
  have hmem := hswap.mem_old (List.mem_singleton.2 rfl)
  have hunreturned : .returned e ∉ h.log := fun he =>
    absurd ((hrecorded.returned _ e hmem).1 he) Bool.false_ne_true
  constructor
  · rw [hlog]
    exact hrecorded.timed.cons ⟨(hrecorded.unreleased hmem).1, hunreturned⟩
  · rw [hlog, unreleased_other (o := .returned e) rfl nofun]
    exact (hswap.executions rfl).trans hrecorded.executions
  · intro e' he'
    rw [hlog, List.mem_cons, or_iff_right (by nofun)] at he'
    exact hcontexts ▸ hrecorded.known e' he'
  · intro phase e' hg
    rw [hlog, List.mem_cons]
    rcases hrecorded.others hswap hg with hg | ⟨hg, hne⟩
    · cases List.mem_singleton.1 hg
      exact ⟨fun _ => rfl, fun _ => .inl rfl⟩
    · rw [or_iff_right fun heq => hne (Occurrence.returned.inj heq)]
      exact hrecorded.returned phase e' hg
  · intro e' hg
    rw [hlog]
    rcases hswap.mem hg with hg | hg
    · cases List.mem_singleton.1 hg
    · exact List.mem_cons_of_mem _ (hrecorded.answering e' hg)

theorem release (hrecorded : Recorded h) {e : Started} {result : HandlerResult} {g : Goroutine}
    (hswap : Swap [.execute (.unmarked result) e] [g] h h') (hg : g.Aside)
    (hcontexts : h'.shared.server.contexts = h.shared.server.contexts)
    (hlog : h'.log = .released e :: h.log) : Recorded h' := by
  have hmem := hswap.mem_old (List.mem_singleton.2 rfl)
  have hreturned : .returned e ∈ h.log := (hrecorded.returned _ e hmem).2 rfl
  have hone : [g].filterMap Goroutine.execution = [] :=
    filterMap_execution_aside (List.forall_mem_singleton.2 hg)
  constructor
  · rw [hlog]
    exact hrecorded.timed.cons ⟨hreturned, (hrecorded.unreleased hmem).2⟩
  · obtain ⟨rest, hold, hnew⟩ := hswap
    have hold' := hold.filterMap Goroutine.execution
    have hnew' := hnew.filterMap Goroutine.execution
    rw [List.filterMap_append, hone, List.nil_append] at hnew'
    rw [hlog, unreleased_released]
    have hnodup := hold'.nodup_iff.1 hrecorded.nodup
    -- The execution is in the list once, so that the filter leaves the rest.
    have hrest : (e :: rest.filterMap Goroutine.execution).filter (fun e' => e' ≠ e) =
        rest.filterMap Goroutine.execution := by
      rw [List.filter_cons_of_neg (by simp), List.filter_eq_self]
      intro e' he'
      have hne : e' ≠ e := fun heq => (List.nodup_cons.1 hnodup).1 (heq ▸ he')
      simpa using hne
    have hfilter := (hold'.symm.trans hrecorded.executions).filter fun e' => e' ≠ e
    exact hnew'.trans (hrest ▸ hfilter)
  · intro e' he'
    rw [hlog, List.mem_cons, or_iff_right (by nofun)] at he'
    exact hcontexts ▸ hrecorded.known e' he'
  · intro phase e' hg'
    rw [hlog, List.mem_cons, or_iff_right (by nofun)]
    rcases hswap.mem hg' with hg' | hg'
    · cases List.mem_singleton.1 hg'
      exact hg.elim
    · exact hrecorded.returned phase e' hg'
  · intro e' hg'
    rw [hlog]
    rcases hswap.mem hg' with hg' | hg'
    · cases List.mem_singleton.1 hg'
      exact hg.elim
    · exact List.mem_cons_of_mem _ (hrecorded.answering e' hg')

theorem move (hrecorded : Recorded h) {phase phase' : Phase} {e : Started}
    (hswap : Swap [.execute phase e] [.execute phase' e] h h')
    (hphase : phase'.isReturned = phase.isReturned)
    (hcontexts : h'.shared.server.contexts = h.shared.server.contexts) (hlog : h'.log = h.log) :
    Recorded h' := by
  refine hrecorded.swap hswap hlog hcontexts rfl ?_ ?_
  · intro phase₁ e₁ hg
    cases List.mem_singleton.1 hg
    rw [hphase]
    exact hrecorded.returned phase e (hswap.mem_old (List.mem_singleton.2 rfl))
  · intro e₁ hg
    cases List.mem_singleton.1 hg

theorem setAside (hrecorded : Recorded h) (hswap : Swap old new h h') (hlog : h'.log = h.log)
    (hcontexts : h'.shared.server.contexts = h.shared.server.contexts)
    (hold : ∀ g ∈ old, g.execution = none) (hnew : ∀ g ∈ new, g.execution = none)
    (hanswering : ∀ e, .answering e ∉ new) : Recorded h' := by
  refine hrecorded.swap hswap hlog hcontexts ?_ ?_ fun e hg => absurd hg (hanswering e)
  · rw [List.filterMap_eq_nil_iff.2 hold, List.filterMap_eq_nil_iff.2 hnew]
  · intro phase e hg
    cases hnew _ hg

theorem effect (hrecorded : Recorded h) (heffect : Effect cfg h h') : Recorded h' := by
  cases heffect with
  | aside old new hswap hold hnew hsame hactive hlog =>
    have hswapped : Recorded { h' with log := h.log } :=
      hrecorded.setAside hswap rfl hsame.contexts (fun g hg => (hold g hg).execution)
        (fun g hg => (hnew g hg).execution) fun e hg => hnew _ hg
    rcases hlog with hlog | ⟨request, answer, hlog⟩
    · rw [← hlog] at hswapped
      exact hswapped
    · have hlogged := hswapped.record (o := .dispatched request answer) trivial rfl nofun nofun
      rw [← hlog] at hlogged
      exact hlogged
  | accept old request caller hswap hold hfree hroom hslots hcontexts hactive hlog =>
    exact hrecorded.setAside hswap hlog hcontexts (fun g hg => (hold g hg).execution)
      (List.forall_mem_singleton.2 rfl) (by simp)
  | refuse request caller answer hswap hslots hcontexts hactive hlog =>
    have hswapped : Recorded { h' with log := h.log } :=
      hrecorded.setAside hswap rfl hcontexts (List.forall_mem_singleton.2 rfl)
        (List.forall_mem_nil _) (by simp)
    have hlogged := hswapped.record (o := .dispatched request answer) trivial rfl nofun nofun
    rw [← hlog] at hlogged
    exact hlogged
  | register e caller hswap hown hnew hslots hcontexts hactive hlog =>
    exact hrecorded.register hswap hown hnew hcontexts hlog
  | acknowledge e hswap hsame hactive hlog =>
    have hswapped : Recorded { h' with log := h.log } :=
      hrecorded.setAside hswap rfl hsame.contexts (List.forall_mem_singleton.2 rfl)
        (List.forall_mem_nil _) (by simp)
    have hregistered := hrecorded.answering e (hswap.mem_old (List.mem_singleton.2 rfl))
    have hlogged := hswapped.record (o := .acknowledged e) hregistered rfl nofun nofun
    rw [← hlog] at hlogged
    exact hlogged
  | mark e hswap hsame hactive hlog => exact hrecorded.move hswap rfl hsame.contexts hlog
  | handled e result hswap hsame hactive hlog => exact hrecorded.handled hswap hsame.contexts hlog
  | unmark e result hswap hsame hactive hlog => exact hrecorded.move hswap rfl hsame.contexts hlog
  | release e result hswap hslots hcontexts hactive hlog =>
    exact hrecorded.release hswap rfl hcontexts hlog

end Recorded

theorem recorded_start {inp : Input} {disk : Disk} (hstart : start cfg inp disk = some h) :
    Recorded h := by
  unfold start at hstart
  split at hstart
  · cases hstart
    exact ⟨.nil, .refl _, nofun, nofun, nofun⟩
  · split at hstart
    · cases hstart
    · cases hstart
      exact ⟨.nil, .refl _, nofun, by simp, by simp⟩

theorem recorded (hh : Reachable cfg h) : Recorded h := by
  induction hh with
  | start inp disk hstart => exact recorded_start hstart
  | step hh hs ih => exact ih.effect (hh.effect hs)

end Host

end Records

end GoScheduler.Executor
