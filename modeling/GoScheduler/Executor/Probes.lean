import GoScheduler.Executor.Chronicle

/-! What `Inspect` answers about a job. A probe reads `active` at one moment between its start and
its return; `execute` writes it in a goroutine of its own, which may be scheduled before or after
`Dispatch` returns. -/
namespace GoScheduler.Executor

open Process

section Probes

namespace Host

/-- What a caller takes from the answer to a probe: an execution it was told of and whose handler
has not returned makes the job busy, and without one that is not released the job is idle. -/
structure Truthful (h : Host) (jobID : Bytes) : Prop where
  busy : ∀ e, .acknowledged e ∈ h.log → e.request.jobId = jobID → .returned e ∉ h.log →
    h.inspect ⟨[], jobID⟩ = .busy
  idle : (∀ e, .acknowledged e ∈ h.log → e.request.jobId = jobID → .released e ∈ h.log) →
    h.inspect ⟨[], jobID⟩ = .idle

structure UpToDate (h : Host) (jobID : Bytes) : Prop where
  -- No acknowledged execution of the job is before its first `markActive`, unless another execution
  -- of the job is between its two.
  begun : ∀ e, .acknowledged e ∈ h.log → e.request.jobId = jobID →
    .execute .launched e ∈ h.goroutines → ∃ g ∈ h.goroutines, g.marks jobID = true
  -- An execution of the job is between them only as long as one that was acknowledged has not been
  -- released.
  told : ∀ g ∈ h.goroutines, g.marks jobID = true →
    ∃ e, .acknowledged e ∈ h.log ∧ e.request.jobId = jobID ∧ .released e ∉ h.log

variable {cfg : Settings} {h : Host} {jobID : Bytes}

theorem Counted.jobBusy (hcounted : Counted cfg h) :
    h.jobBusy jobID = true ↔ ∃ g ∈ h.goroutines, g.marks jobID = true := by
  rw [Host.jobBusy, decide_eq_true_eq, hcounted.active, Int.natCast_pos, List.countP_pos_iff]

theorem inspect_job (hjob : jobID ≠ []) :
    h.inspect ⟨[], jobID⟩ = if h.jobBusy jobID then .busy else .idle :=
  if_pos ⟨hjob, rfl⟩

theorem inspect_eq_busy (hcounted : Counted cfg h) (hjob : jobID ≠ []) :
    h.inspect ⟨[], jobID⟩ = .busy ↔ ∃ g ∈ h.goroutines, g.marks jobID = true := by
  rw [inspect_job hjob, ← hcounted.jobBusy]
  cases h.jobBusy jobID with
  | true => simp
  | false => simp

theorem inspect_eq_idle (hcounted : Counted cfg h) (hjob : jobID ≠ []) :
    h.inspect ⟨[], jobID⟩ = .idle ↔ ¬∃ g ∈ h.goroutines, g.marks jobID = true := by
  rw [inspect_job hjob, ← hcounted.jobBusy]
  cases h.jobBusy jobID with
  | true => simp
  | false => simp

theorem Recorded.unreturned (hrecorded : Recorded h) {e : Started}
    (hacknowledged : .acknowledged e ∈ h.log) (hreturned : .returned e ∉ h.log) :
    .execute .launched e ∈ h.goroutines ∨ .execute .handling e ∈ h.goroutines := by
  have hregistered := hrecorded.timed.registered_of_acknowledged hacknowledged
  have hreleased : .released e ∉ h.log :=
    fun hmem => hreturned (hrecorded.timed.returned_of_released hmem)
  have hmem := hrecorded.executions.mem_iff.2 (mem_unreleased.2 ⟨hregistered, hreleased⟩)
  obtain ⟨g, hg, hexecution⟩ := List.mem_filterMap.1 hmem
  cases g with
  | execute phase e' =>
    cases hexecution
    have hphase := mt (hrecorded.returned phase e hg).2 hreturned
    cases phase with
    | launched => exact .inl hg
    | handling => exact .inr hg
    | returned result => exact absurd rfl hphase
    | unmarked result => exact absurd rfl hphase
  | _ => cases hexecution

end Host

/-- In every state of a process, probes for a job are truthful exactly where its goroutines have
got to the point. -/
theorem inspect_truthful_iff (cfg : Settings) (h : Host) (jobID : Bytes)
    (hh : Host.Reachable cfg h) (hjob : jobID ≠ []) : h.Truthful jobID ↔ h.UpToDate jobID := by
  have hcounted := Host.counted hh
  have hrecorded := Host.recorded hh
  constructor
  · intro htruthful
    refine ⟨fun e hacknowledged hof hlaunched => ?_, fun g hg hmarks => ?_⟩
    · have hreturned : .returned e ∉ h.log := fun hmem =>
        absurd ((hrecorded.returned _ e hlaunched).1 hmem) Bool.false_ne_true
      exact (Host.inspect_eq_busy hcounted hjob).1 (htruthful.busy e hacknowledged hof hreturned)
    · by_contra hall
      have hidle := htruthful.idle fun e hacknowledged hof =>
        not_not.1 fun hreleased => hall ⟨e, hacknowledged, hof, hreleased⟩
      exact (Host.inspect_eq_idle hcounted hjob).1 hidle ⟨g, hg, hmarks⟩
  · intro hupToDate
    refine ⟨fun e hacknowledged hof hreturned => ?_, fun hall => ?_⟩
    · refine (Host.inspect_eq_busy hcounted hjob).2 ?_
      rcases hrecorded.unreturned hacknowledged hreturned with hlaunched | hhandling
      · exact hupToDate.begun e hacknowledged hof hlaunched
      · exact ⟨_, hhandling, decide_eq_true hof⟩
    · refine (Host.inspect_eq_idle hcounted hjob).2 ?_
      rintro ⟨g, hg, hmarks⟩
      obtain ⟨e, hacknowledged, hof, hreleased⟩ := hupToDate.told g hg hmarks
      exact hreleased (hall e hacknowledged hof)

end Probes

section Sample

def dockerStarted : Started := ⟨dockerRequest, 0, some .docker⟩

def probed (ls : List Move) : Option Host :=
  (Host.start (plainSettings none) { createdAt := newYear } ⟨∅, [], []⟩).bind fun h =>
    h.run (plainSettings none) (.dispatch dockerRequest { createdAt := newYear } ::
      .advance 0 { createdAt := newYear } :: ls)

theorem reachable_of_probed {ls : List Move} {h : Host} (hh : probed ls = some h) :
    Host.Reachable (plainSettings none) h := by
  obtain ⟨h₀, hstart, hrun⟩ := Option.bind_eq_some_iff.1 hh
  exact (Host.Reachable.start _ _ hstart).run hrun

theorem inspect_truthful_marked :
    ∃ h, Host.Reachable (plainSettings none) h ∧ dockerRequest.jobId ≠ [] ∧
      .acknowledged dockerStarted ∈ h.log ∧ h.Truthful dockerRequest.jobId := by
  have hrun :
      (probed [.advance 0 { createdAt := newYear }, .advance 1 { createdAt := newYear }]).map
      (fun h => (decide (.acknowledged dockerStarted ∈ h.log),
        decide (.released dockerStarted ∈ h.log),
        h.goroutines.any (Goroutine.marks dockerRequest.jobId))) = some (true, false, true) := by
    decide +kernel
  obtain ⟨h, hh, hfacts⟩ := Option.map_eq_some_iff.1 hrun
  simp only [Prod.mk.injEq, decide_eq_true_eq, decide_eq_false_iff_not, List.any_eq_true] at hfacts
  obtain ⟨hacknowledged, hreleased, hmarks⟩ := hfacts
  have hjob : dockerRequest.jobId ≠ [] := by decide
  refine ⟨h, reachable_of_probed hh, hjob, hacknowledged, ?_⟩
  rw [inspect_truthful_iff (plainSettings none) h _ (reachable_of_probed hh) hjob]
  exact ⟨fun _ _ _ _ => hmarks, fun _ _ _ => ⟨_, hacknowledged, rfl, hreleased⟩⟩

/-- `Dispatch` has returned and the goroutine of `execute` was not scheduled yet: the job is said to
be idle. The other way round it is said to be busy. -/
theorem inspect_not_truthful :
    (∃ h, Host.Reachable (plainSettings none) h ∧ .acknowledged dockerStarted ∈ h.log ∧
      .returned dockerStarted ∉ h.log ∧ h.inspect ⟨[], dockerRequest.jobId⟩ = .idle ∧
      ¬h.Truthful dockerRequest.jobId) ∧
    ∃ h, Host.Reachable (plainSettings none) h ∧ (∀ e, .acknowledged e ∉ h.log) ∧
      h.inspect ⟨[], dockerRequest.jobId⟩ = .busy ∧ ¬h.Truthful dockerRequest.jobId := by
  constructor
  · have hrun : (probed [.advance 1 { createdAt := newYear }]).map
        (fun h => (decide (.acknowledged dockerStarted ∈ h.log),
          decide (.returned dockerStarted ∈ h.log), h.inspect ⟨[], dockerRequest.jobId⟩)) =
        some (true, false, .idle) := by
      decide +kernel
    obtain ⟨h, hh, hfacts⟩ := Option.map_eq_some_iff.1 hrun
    simp only [Prod.mk.injEq, decide_eq_true_eq, decide_eq_false_iff_not] at hfacts
    obtain ⟨hacknowledged, hreturned, hidle⟩ := hfacts
    refine ⟨h, reachable_of_probed hh, hacknowledged, hreturned, hidle, fun htruthful => ?_⟩
    have hbusy := htruthful.busy _ hacknowledged rfl hreturned
    rw [hidle] at hbusy
    cases hbusy
  · have hrun : (probed [.advance 0 { createdAt := newYear }]).map
        (fun h => (h.log, h.inspect ⟨[], dockerRequest.jobId⟩)) =
        some ([.registered dockerStarted], .busy) := by
      decide +kernel
    obtain ⟨h, hh, hfacts⟩ := Option.map_eq_some_iff.1 hrun
    obtain ⟨hlog, hbusy⟩ := Prod.mk.injEq _ _ _ _ ▸ hfacts
    have hnone : ∀ e, .acknowledged e ∉ h.log := by simp [hlog]
    refine ⟨h, reachable_of_probed hh, hnone, hbusy, fun htruthful => ?_⟩
    have hidle := htruthful.idle fun e he => absurd he (hnone e)
    rw [hbusy] at hidle
    cases hidle

end Sample

end GoScheduler.Executor
