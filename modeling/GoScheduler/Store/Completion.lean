import GoScheduler.ReadCommitted.Outcome
import GoScheduler.Store.Tick

/-! The report of a success. The transaction that ends the run also dispatches to the jobs
that depend on it, so an error on the way to a dependent job takes the success back. -/
namespace GoScheduler.Store
open ReadCommitted Schedule

section Sound

def Employed (d : Db) (tenantID jobID : ℕ) : Prop :=
  ∃ j, d.row (.job jobID) = some j ∧ j.tenantID = tenantID

/-- Identifiers are drawn before they are used, runs refer to jobs of their tenant, and
the schedule of a fixed-delay job was accepted when the job was stored. -/
structure Sound (env : Env) (d : Db) : Prop where
  drawn : ∀ n, .uuid n ∉ d.keys → d.row (.run n) = none ∧ d.row (.outboxEvent n) = none
  employed : ∀ id r, d.row (.run id) = some r → Employed d r.tenantID r.jobID
  scheduled : ∀ id j, d.row (.job id) = some j → j.scheduleType = .fixedDelay →
    ∀ at_, ∃ t, next env.calendar .fixedDelay j.scheduleExpression j.timezone at_ = .ok t

def Job.settings (j : Job) : ℕ × OverlapPolicy × ℕ × Option ℕ :=
  (j.tenantID, j.overlapPolicy, j.maxQueueSize, j.executorGroupID)

def Job.timing (j : Job) : ScheduleType × String × String :=
  (j.scheduleType, j.scheduleExpression, j.timezone)

/-- What has happened since `d`: only keys in `free` were used for new runs and dispatches,
and runs that had ended are as they were. -/
structure Kept (free : Key → Prop) (d d' : Db) : Prop where
  keys : d.keys ⊆ d'.keys
  unborn : ∀ n, .uuid n ∈ d.keys → ¬free (.run n) → d.row (.run n) = none →
    d'.row (.run n) = none
  dispatches : ∀ p c, ¬free (.dispatch p c) → d'.row (.dispatch p c) = d.row (.dispatch p c)
  ended : ∀ id r, d.row (.run id) = some r → r.status.active = false → d'.row (.run id) = some r
  settings : ∀ id, (d'.row (.job id)).map Job.settings = (d.row (.job id)).map Job.settings
  dependencies : ∀ p c, d'.row (.dependency p c) = d.row (.dependency p c)
  groups : ∀ g, d'.row (.executorGroup g) = d.row (.executorGroup g)

def Tame (free : Key → Prop) (d : Db) : Write Row → Prop
  | ⟨.run id, v⟩ => ∃ r', v = some r' ∧ Employed d r'.tenantID r'.jobID ∧
      ((d.row (.run id) = none ∧ free (.run id) ∧ .uuid id ∈ d.keys) ∨
        ∃ r, d.row (.run id) = some r ∧ r.status.active = true)
  | ⟨.outboxEvent id, _⟩ => .uuid id ∈ d.keys
  | ⟨.dispatch p c, _⟩ => free (.dispatch p c)
  | ⟨.job id, v⟩ => v.map Job.settings = (d.row (.job id)).map Job.settings ∧
      v.map Job.timing = (d.row (.job id)).map Job.timing
  | ⟨.dependency p c, v⟩ => v = d.row (.dependency p c)
  | ⟨.executorGroup g, v⟩ => v = d.row (.executorGroup g)
  | _ => True

variable {env : Env} {free free' : Key → Prop} {d₀ d d' d'' : Db}

theorem Kept.refl (free : Key → Prop) (d : Db) : Kept free d d :=
  ⟨fun _ h => h, fun _ _ _ h => h, fun _ _ _ => rfl, fun _ _ h _ => h, fun _ => rfl,
    fun _ _ => rfl, fun _ => rfl⟩

theorem Kept.trans (h : Kept free d d') (h' : Kept free d' d'') : Kept free d d'' where
  keys := fun _ hk => h'.keys (h.keys hk)
  unborn := fun n hn hfree hrow => h'.unborn n (h.keys hn) hfree (h.unborn n hn hfree hrow)
  dispatches := fun p c hfree => (h'.dispatches p c hfree).trans (h.dispatches p c hfree)
  ended := fun id r hr hend => h'.ended id r (h.ended id r hr hend) hend
  settings := fun id => (h'.settings id).trans (h.settings id)
  dependencies := fun p c => (h'.dependencies p c).trans (h.dependencies p c)
  groups := fun g => (h'.groups g).trans (h.groups g)

theorem Kept.mono (h : Kept free d d') (hfree : ∀ k, free k → free' k) : Kept free' d d' :=
  { h with
    unborn := fun n hn hnot => h.unborn n hn fun hk => hnot (hfree _ hk)
    dispatches := fun p c hnot => h.dispatches p c fun hk => hnot (hfree _ hk) }

theorem employed_iff {tenantID jobID : ℕ} : Employed d tenantID jobID ↔
    ((d.row (.job jobID)).map Job.settings).map Prod.fst = some tenantID := by
  unfold Employed
  cases d.row (.job jobID) <;> simp [Job.settings]

theorem Kept.employed (h : Kept free d d') {tenantID jobID : ℕ} :
    Employed d' tenantID jobID ↔ Employed d tenantID jobID := by
  rw [employed_iff, employed_iff, h.settings]

theorem Kept.write {w : Write Row} (hw : Tame free d w) : Kept free d (d.write w) := by
  obtain ⟨k, v⟩ := w
  refine ⟨fun k' hk => (d.mem_keys_write v).2 (.inl hk), fun n hn hfree hrow => ?_,
    fun p c hfree => ?_, fun id r hr hend => ?_, fun id => ?_, fun p c => ?_, fun g => ?_⟩
  · by_cases hk : .run n = k
    · subst hk
      obtain ⟨r', _, _, ⟨_, hnew, _⟩ | ⟨r, hr, _⟩⟩ := hw
      · exact absurd hnew hfree
      · rw [hrow] at hr
        cases hr
    · rw [d.row_write_ne v hk, hrow]
  · by_cases hk : .dispatch p c = k
    · subst hk
      exact absurd hw hfree
    · exact d.row_write_ne v hk
  · by_cases hk : .run id = k
    · subst hk
      obtain ⟨r', _, _, ⟨hnone, _, _⟩ | ⟨r₁, hr₁, hactive⟩⟩ := hw
      · rw [hnone] at hr
        cases hr
      · rw [hr₁] at hr
        cases hr
        rw [hend] at hactive
        cases hactive
    · rw [d.row_write_ne v hk, hr]
  · by_cases hk : .job id = k
    · subst hk
      rw [d.row_write_self v]
      exact hw.1
    · rw [d.row_write_ne v hk]
  · by_cases hk : .dependency p c = k
    · subst hk
      rw [d.row_write_self v]
      exact hw
    · exact d.row_write_ne v hk
  · by_cases hk : .executorGroup g = k
    · subst hk
      rw [d.row_write_self v]
      exact hw
    · exact d.row_write_ne v hk

theorem Sound.write (h : Sound env d) {w : Write Row} (hw : Tame free d w) :
    Sound env (d.write w) := by
  have hkept := Kept.write hw
  obtain ⟨k, v⟩ := w
  refine ⟨fun n hn => ?_, fun id r hr => ?_, fun id j hj hfixed => ?_⟩
  · rw [d.mem_keys_write v, not_or] at hn
    obtain ⟨hrun, hevent⟩ := h.drawn n hn.1
    constructor
    · by_cases hk : .run n = k
      · subst hk
        obtain ⟨r', _, _, ⟨_, _, huuid⟩ | ⟨r, hr, _⟩⟩ := hw
        · exact absurd huuid hn.1
        · rw [hrun] at hr
          cases hr
      · rw [d.row_write_ne v hk, hrun]
    · by_cases hk : .outboxEvent n = k
      · subst hk
        exact absurd hw hn.1
      · rw [d.row_write_ne v hk, hevent]
  · rw [hkept.employed]
    by_cases hk : .run id = k
    · subst hk
      rw [d.row_write_self v] at hr
      obtain ⟨r', rfl, hjob, _⟩ := hw
      cases hr
      exact hjob
    · rw [d.row_write_ne v hk] at hr
      exact h.employed id r hr
  · by_cases hk : .job id = k
    · subst hk
      rw [d.row_write_self v] at hj
      subst hj
      obtain ⟨j₀, hj₀, htiming⟩ := Option.map_eq_some_iff.1 hw.2.symm
      obtain ⟨htype, hexpr, hzone⟩ : j₀.scheduleType = j.scheduleType ∧
          j₀.scheduleExpression = j.scheduleExpression ∧ j₀.timezone = j.timezone := by
        simpa [Job.timing] using htiming
      rw [← hexpr, ← hzone]
      exact h.scheduled id j₀ hj₀ (htype.trans hfixed)
    · rw [d.row_write_ne v hk] at hj
      exact h.scheduled id j hj hfixed

end Sound

section Walk

structure Good (env : Env) (free : Key → Prop) (d₀ d : Db) : Prop where
  sound : Sound env d
  kept : Kept free d₀ d

variable {env : Env} {free : Key → Prop} {d₀ d : Db} {now : Int}

theorem Good.write (h : Good env free d₀ d) {w : Write Row} (hw : Tame free d w) :
    Good env free d₀ (d.write w) := ⟨h.sound.write hw, h.kept.trans (.write hw)⟩

theorem Sound.good (h : Sound env d) (free : Key → Prop) : Good env free d d := ⟨h, .refl free d⟩

theorem Good.andThen {free' : Key → Prop} {d' : Db} (h : Good env free d₀ d)
    (h' : Good env free' d d') (hfree : ∀ k, free' k → free k) : Good env free d₀ d' :=
  ⟨h'.sound, h.kept.trans (h'.kept.mono hfree)⟩

structure Unused (n : ℕ) (d : Db) : Prop where
  drawn : .uuid n ∈ d.keys
  run : d.row (.run n) = none
  event : d.row (.outboxEvent n) = none

theorem newUUID_ends (h : Good env free d₀ d) :
    newUUID.Ends (Returned fun n d' => Good env free d₀ d' ∧ Unused n d' ∧
      Kept (fun _ => False) d d' ∧ .uuid n ∉ d.keys) d := by
  refine .fresh (fun _ _ hn => by cases hn; rfl) fun n hn => ?_
  obtain ⟨hrun, hevent⟩ := h.sound.drawn n hn
  refine ⟨h.write trivial, ⟨?_, ?_, ?_⟩, .write trivial, hn⟩
  · exact (d.mem_keys_write _).2 (.inr rfl)
  · rw [d.row_write_ne _ (by simp), hrun]
  · rw [d.row_write_ne _ (by simp), hevent]

theorem insertRow_cases {k : Key} {v : Row k} {Q : Except StoreError Unit → Db → Prop}
    (hnew : d.row k = none → Q (.ok ()) (d.write ⟨k, some v⟩))
    (hold : d.row k ≠ none → Q (.error .duplicateKey) d) : (insertRow k v).Ends Q d := by
  refine Program.Ends.andThen (R := fun b d' => (b = true ∧ d.row k = none ∧
    d' = d.write ⟨k, some v⟩) ∨ (b = false ∧ d.row k ≠ none ∧ d' = d))
    (.insert (fun hrow => .inl ⟨rfl, hrow, rfl⟩) fun hrow => .inr ⟨rfl, hrow, rfl⟩)
      fun b d' hd' => ?_
  cases hd' with
  | inl h =>
    obtain ⟨rfl, hrow, rfl⟩ := h
    exact hnew hrow
  | inr h =>
    obtain ⟨rfl, hrow, rfl⟩ := h
    exact hold hrow

theorem insertRow_ends {k : Key} {v : Row k} {Q : Except StoreError Unit → Db → Prop}
    (hnone : d.row k = none) (h : Q (.ok ()) (d.write ⟨k, some v⟩)) :
    (insertRow k v).Ends Q d :=
  insertRow_cases (fun _ => h) fun hne => absurd hnone hne

theorem updateRun_ends {id : ℕ} {p : Run → Bool} {set : Run → Run}
    {Q : Except StoreError (Option Run) → Db → Prop}
    (hsome : ∀ r, d.row (.run id) = some r → p r = true →
      Q (.ok (some (set r))) (d.write ⟨.run id, some (set r)⟩))
    (hnone : (∀ r, d.row (.run id) = some r → p r = false) → Q (.ok none) d) :
    (updateRun id p set).Ends Q d :=
  .update (V := Row) (k := Key.run id) hsome hnone

theorem updateJobRow_ends {id : ℕ} {p : Job → Bool} {set : Job → Job}
    (h : Good env free d₀ d) (hsettings : ∀ j, (set j).settings = j.settings)
    (htiming : ∀ j, (set j).timing = j.timing) :
    (updateJobRow id p set).Ends (Returned fun _ => Good env free d₀) d := by
  refine .update (V := Row) (k := Key.job id) (fun j hj _ => h.write ?_) fun _ => h
  constructor
  · rw [hj]
    exact congrArg some (hsettings j)
  · rw [hj]
    exact congrArg some (htiming j)

theorem emitRunEvent_ends (h : Good env free d₀ d) (runID : ℕ) (status : RunStatus)
    (topic : Topic) :
    (emitRunEvent now runID status topic).Ends (Returned fun _ => Good env free d₀) d := by
  refine (newUUID_ends h).andThen fun eventID d₁ h₁ => ?_
  obtain ⟨hgood, hunused, _, _⟩ := h₁
  refine Program.Ends.andThen (R := fun _ d' => d' = d₁) (.select rfl) fun r d' hd' => ?_
  subst hd'
  cases r with
  | none => exact hgood
  | some r =>
    dsimp only
    split
    · exact insertRow_ends hunused.event (hgood.write hunused.drawn)
    · exact hgood

theorem insertRun_ends {r : Run} (h : Good env free d₀ d) (hdrawn : .uuid r.id ∈ d.keys)
    (hnone : d.row (.run r.id) = none) (hfree : free (.run r.id))
    (hjob : Employed d r.tenantID r.jobID) :
    (insertRun now r).Ends (Returned fun _ => Good env free d₀) d := by
  refine Program.Ends.andThen (R := fun _ => Good env free d₀) (insertRow_ends hnone ?_)
    fun _ d' h' => emitRunEvent_ends h' _ _ _
  exact h.write ⟨r, rfl, hjob, .inl ⟨hnone, hfree, hdrawn⟩⟩

theorem rearmJob_ends (h : Good env free d₀ d) (jobID : ℕ) (terminalAt : Int) :
    (rearmJob env jobID terminalAt).Ends (Returned fun _ => Good env free d₀) d := by
  refine Program.Ends.andThen (R := fun j d' => Good env free d₀ d' ∧ ∀ j', j = some j' →
      d.row (.job jobID) = some j' ∧ j'.scheduleType = .fixedDelay) ?_ fun j d₁ h₁ => ?_
  · refine .lock (fun j hj hp => ⟨h.write ⟨by rw [hj], by rw [hj]⟩, ?_⟩)
      ⟨h, fun j' h' => by cases h'⟩
    intro j' hj'
    cases hj'
    exact ⟨hj, by simpa using hp⟩
  obtain ⟨hgood, hrow⟩ := h₁
  cases j with
  | none => exact hgood
  | some j =>
    obtain ⟨hj, hfixed⟩ := hrow j rfl
    obtain ⟨t, ht⟩ := h.sound.scheduled jobID j hj hfixed terminalAt
    dsimp only
    split
    · exact hgood
    · rw [ht]
      refine Program.Ends.andThen (R := fun _ => Good env free d₀) ?_ fun _ d' h' => h'
      exact updateJobRow_ends hgood (fun _ => rfl) fun _ => rfl

theorem rearmFixedDelay_ends (h : Good env free d₀ d) (r : Run) (terminalAt : Int) :
    (rearmFixedDelay env r terminalAt).Ends (Returned fun _ => Good env free d₀) d := by
  unfold rearmFixedDelay
  split
  · exact h
  · split
    · exact rearmJob_ends h _ _
    · refine Program.Ends.andThen (R := fun _ d' => d' = d) (.select rfl) fun b d' hd' => ?_
      subst hd'
      split
      · exact h
      · exact rearmJob_ends h _ _

theorem enqueueExecutorCancellation_ends (h : Good env free d₀ d) {r : Run}
    (hjob : Employed d₀ r.tenantID r.jobID) (reason : String) :
    (enqueueExecutorCancellation r reason).Ends (Returned fun _ => Good env free d₀) d := by
  obtain ⟨j, hj, htenant⟩ := h.kept.employed.2 hjob
  refine Program.Ends.andThen (R := fun job d' => job = some j ∧ d' = d) (.select ⟨?_, rfl⟩)
    fun job d' hd' => ?_
  · simp [hj, htenant]
  · obtain ⟨rfl, rfl⟩ := hd'
    exact .upsert fun _ => h.write trivial

theorem coverActiveRuns_ends (h : Good env free d₀ d) (jobID : ℕ) :
    (coverActiveRuns now jobID).Ends (Returned fun covered d' => Good env free d₀ d' ∧
      ∀ r ∈ covered, Employed d₀ r.tenantID r.jobID) d := by
  refine Program.Ends.andThen (R := fun _ d' => d' = d) (.select rfl) fun ids d' hd' => ?_
  subst hd'
  refine .foldEach (fun _ covered d' => Good env free d₀ d' ∧
    ∀ r ∈ covered, Employed d₀ r.tenantID r.jobID) (fun id rest covered d₁ h₁ => ?_)
    (fun _ _ h' => h') ⟨h, by simp⟩
  obtain ⟨hgood, hcovered⟩ := h₁
  refine Program.Ends.andThen (R := fun r d' => Good env free d₀ d' ∧
    ∀ r' ∈ r, Employed d₀ r'.tenantID r'.jobID)
    (updateRun_ends (fun r hr hactive => ?_) fun _ => ?_)
    fun r d₂ h₂ => ?_
  · have hjob := hgood.sound.employed id r hr
    have hstatus : r.status.active = true := by
      simp only [activeOfJob, Bool.and_eq_true] at hactive
      exact hactive.2
    refine ⟨hgood.write ⟨_, rfl, hjob, .inr ⟨r, hr, hstatus⟩⟩, fun r' hr' => ?_⟩
    cases hr'
    exact hgood.kept.employed.1 hjob
  · exact ⟨hgood, fun r' hr' => by cases hr'⟩
  · obtain ⟨hgood₂, hnew⟩ := h₂
    cases r with
    | none => exact ⟨hgood₂, hcovered⟩
    | some r =>
      refine ⟨hgood₂, fun r' hr' => ?_⟩
      rcases List.mem_append.1 hr' with hr' | hr'
      · exact hcovered r' hr'
      · rw [List.mem_singleton.1 hr']
        exact hnew r rfl

theorem settleCoveredRun_ends (h : Good env free d₀ d) {r : Run}
    (hjob : Employed d₀ r.tenantID r.jobID) :
    (settleCoveredRun env now r).Ends (Returned fun _ => Good env free d₀) d := by
  refine (emitRunEvent_ends h _ _ _).andThen fun _ d₁ h₁ => ?_
  refine Program.Ends.andThen (R := fun _ => Good env free d₀) ?_ fun _ d₂ h₂ =>
    rearmFixedDelay_ends h₂ _ _
  exact .when (fun _ => enqueueExecutorCancellation_ends h₁ hjob _) fun _ => h₁

theorem coverEarly_ends (h : Good env free d₀ d) (jobID : ℕ) :
    (coverEarly env now jobID).Ends (Returned fun _ => Good env free d₀) d := by
  refine (coverActiveRuns_ends h jobID).andThen fun covered d₁ h₁ => ?_
  refine .forEach (fun rest d' => Good env free d₀ d' ∧
    ∀ r ∈ rest, Employed d₀ r.tenantID r.jobID) (fun r rest d₂ h₂ => ?_) (fun _ h' => h'.1) h₁
  refine (settleCoveredRun_ends h₂.1 (h₂.2 r List.mem_cons_self)).strengthen fun _ d₃ h₃ => ?_
  exact ⟨h₃, fun r' hr' => h₂.2 r' (List.mem_cons_of_mem _ hr')⟩

theorem applyBlockPolicy_ends (h : Good env free d₀ d) (jobID : ℕ) (policy : OverlapPolicy) :
    (applyBlockPolicy env now jobID policy).Ends (Returned fun action d' =>
      action = decideBlockAction policy (hasActiveRun jobID d) ∧ Good env free d₀ d') d := by
  refine Program.Ends.andThen (R := fun b d' => b = hasActiveRun jobID d ∧ d' = d)
    (.select ⟨rfl, rfl⟩) fun b d' hd' => ?_
  obtain ⟨rfl, rfl⟩ := hd'
  refine Program.Ends.andThen (R := fun _ => Good env free d₀) ?_ fun _ d₁ h₁ => ⟨rfl, h₁⟩
  exact .when (fun _ => coverEarly_ends h jobID) fun _ => h

end Walk

section Dependents

def HasNode (now : Int) (c : Dependent) (d : Db) : Prop :=
  ∃ n ∈ executorNodes d, some n.groupID = c.executorGroupID ∧
    (n.isStatic = true ∨ now < n.expiresAt) ∧
      (∀ l ∈ (jobExecutorLabels c.id d).1, l ∈ n.labels) ∧
        ∀ l ∈ (jobExecutorLabels c.id d).2, l ∉ n.labels

def Skips (c : Dependent) (d : Db) : Prop :=
  decideBlockAction c.policy (hasActiveRun c.id d) = .skip ∨
    decideBlockAction c.policy (hasActiveRun c.id d) = .enqueue ∧
      c.maxQueue ≤ pendingCount c.id d

def Dispatchable (now : Int) (d : Db) (c : Dependent) : Prop :=
  c.routeStrategy = some .shardingBroadcast → Skips c d ∨ HasNode now c d

theorem planBroadcastShards_eq_nil {nodes : List ExecutorNode} :
    planBroadcastShards nodes = [] ↔ nodes = [] := by
  rw [← List.length_eq_zero_iff, ← List.length_eq_zero_iff]
  simp [planBroadcastShards]

theorem plannedShards_eq_nil (now : Int) (c : Dependent) (d : Db) :
    plannedShards now c.id c.executorGroupID d = [] ↔ ¬HasNode now c d := by
  unfold plannedShards HasNode
  rw [planBroadcastShards_eq_nil, filterExecutorNodes, List.filter_eq_nil_iff]
  simp [liveExecutorNodes, List.mem_insertionSort]

theorem planBroadcastShards_nodup (nodes : List ExecutorNode) :
    ((planBroadcastShards nodes).map BroadcastShard.index).Nodup := by
  have hindex : (planBroadcastShards nodes).map BroadcastShard.index =
      List.range (planBroadcastShards nodes).length := by
    refine List.ext_getElem (by simp) fun i hi _ => ?_
    simp [planBroadcastShards]
  rw [hindex]
  exact List.nodup_range

variable {env : Env} {free : Key → Prop} {keep : Run → Bool} {d₀ d : Db} {now : Int}

theorem framed {α : Type} {p : Tx α} {R : α → Db → Prop} {S : α → Prop}
    (hp : p.Ends (Returned R) d) (he : p.Effect (Apart keep) S) (hf : Frame keep d₀ d) :
    p.Ends (Returned fun a d' => R a d' ∧ Frame keep d₀ d') d := by
  refine (hp.effect he (fun _ _ h hws => h.writeAll hws) hf).mono fun res d' h => ?_
  cases res with
  | ok a => exact ⟨h.1, h.2.1⟩
  | error e => exact h.1

theorem planShards_ends {jobID : ℕ} {groupID : Option ℕ}
    {Q : Except StoreError (List BroadcastShard) → Db → Prop}
    (h : Q (.ok (plannedShards now jobID groupID d)) d) :
    (planShards now jobID groupID).Ends Q d := by
  refine Program.Ends.andThen (R := fun nodes d' => nodes = liveExecutorNodes now groupID d ∧
    d' = d) (.select ⟨rfl, rfl⟩) fun nodes d₁ h₁ => ?_
  obtain ⟨rfl, rfl⟩ := h₁
  refine Program.Ends.andThen (R := fun labels d' => labels = jobExecutorLabels jobID d₁ ∧
    d' = d₁) (.select ⟨rfl, rfl⟩) fun labels d₂ h₂ => ?_
  obtain ⟨rfl, rfl⟩ := h₂
  exact h

theorem insertShards_ends (shardRun : ℕ → BroadcastShard → Run) {runID tenantID jobID : ℕ}
    {shards : List BroadcastShard} (hid : ∀ id s, (shardRun id s).id = id)
    (howner : ∀ id s, (shardRun id s).tenantID = tenantID ∧ (shardRun id s).jobID = jobID)
    (h : Good env free d₀ d) (hfree : ∀ n, free (.run n)) (hdrawn : .uuid runID ∈ d.keys)
    (hnone : d.row (.run runID) = none) (hjob : Employed d₀ tenantID jobID)
    (hnodup : (shards.map BroadcastShard.index).Nodup) :
    (Program.forEach shards fun shard => do
      let fresh ← newUUID
      insertRun now (shardRun (if shard.index = 0 then runID else fresh) shard) : Tx Unit).Ends
      (Returned fun _ => Good env free d₀) d := by
  -- the identifier is free until the first shard takes it
  refine .forEach (fun rest d' => Good env free d₀ d' ∧ .uuid runID ∈ d'.keys ∧
    (rest.map BroadcastShard.index).Nodup ∧
      (0 ∈ rest.map BroadcastShard.index → d'.row (.run runID) = none))
    (fun shard rest d₂ h₂ => ?_) (fun _ h' => h'.1) ⟨h, hdrawn, hnodup, fun _ => hnone⟩
  obtain ⟨hgood, hdrawn, hnodup, hnone⟩ := h₂
  rw [List.map_cons, List.nodup_cons] at hnodup
  refine (newUUID_ends hgood).andThen fun fresh d₃ h₃ => ?_
  obtain ⟨hgood₃, hunused, hkept, hnew⟩ := h₃
  have hne : runID ≠ fresh := fun he => hnew (he ▸ hdrawn)
  have hjob₃ := hgood₃.kept.employed.2 hjob
  set r := shardRun (if shard.index = 0 then runID else fresh) shard with hr
  have hrid : r.id = if shard.index = 0 then runID else fresh := hid _ _
  have hready : .uuid r.id ∈ d₃.keys ∧ d₃.row (.run r.id) = none := by
    by_cases hzero : shard.index = 0
    · rw [hrid, if_pos hzero]
      exact ⟨hkept.keys hdrawn, hkept.unborn _ hdrawn id (hnone (by simp [hzero]))⟩
    · rw [hrid, if_neg hzero]
      exact ⟨hunused.drawn, hunused.run⟩
  rw [← (howner (if shard.index = 0 then runID else fresh) shard).1,
    ← (howner (if shard.index = 0 then runID else fresh) shard).2] at hjob₃
  refine (insertRun_ends (hgood₃.sound.good (· = .run r.id)) hready.1 hready.2 rfl hjob₃).strengthen
    fun _ d₄ h₄ =>
      ⟨hgood₃.andThen h₄ ?_, h₄.kept.keys (hkept.keys hdrawn), hnodup.2, fun hzero => ?_⟩
  · rintro k rfl
    exact hfree _
  · -- another shard is the first one
    have hother : shard.index ≠ 0 := fun he => hnodup.1 (he ▸ hzero)
    refine h₄.kept.unborn _ (hkept.keys hdrawn) ?_ (hkept.unborn _ hdrawn id (hnone ?_))
    · rw [hrid, if_neg hother]
      simpa using hne
    · exact List.mem_cons_of_mem _ hzero

theorem insertDependentShards_ends {parent : Run} {childID runID : ℕ} {scheduledAt : Int}
    {shards : List BroadcastShard} (h : Good env free d₀ d) (hfree : ∀ n, free (.run n))
    (hdrawn : .uuid runID ∈ d.keys) (hnone : d.row (.run runID) = none)
    (hjob : Employed d₀ parent.tenantID childID)
    (hnodup : (shards.map BroadcastShard.index).Nodup) :
    (insertDependentShards now scheduledAt parent childID runID shards).Ends
      (Returned fun _ => Good env free d₀) d := by
  refine (newUUID_ends h).andThen fun groupID d₁ h₁ => ?_
  obtain ⟨hgood, _, hkept, _⟩ := h₁
  exact insertShards_ends (fun id s => (dependentRun now scheduledAt parent childID id .pending
    "").onShard groupID s) (fun _ _ => rfl) (fun _ _ => ⟨rfl, rfl⟩) hgood hfree (hkept.keys hdrawn)
    (hkept.unborn _ hdrawn id hnone) hjob hnodup

def dispatching (parentRunID childJobID : ℕ) : Key → Prop
  | .run _ => True
  | .dispatch p c => p = parentRunID ∧ c = childJobID
  | _ => False

/-- The dispatch to a dependent job fails exactly if there is a run to broadcast and no node
to broadcast it to. -/
theorem dispatchDependent_ends {parent : Run} {c : Dependent}
    (hcover : ∀ k ∉ d₀.keys, d₀.row k = none) (hframe : Frame (ofJob c.id) d₀ d)
    (h : Sound env d) (hjob : Employed d parent.tenantID c.id)
    (hnew : d.row (.dispatch parent.id c.id) = none) :
    (dispatchDependent env now parent c).Ends (Outcome
      (fun _ d' => Dispatchable now d₀ c ∧ Good env (dispatching parent.id c.id) d d')
      fun _ _ => ¬Dispatchable now d₀ c) d := by
  set free := dispatching parent.id c.id with hfree
  refine Program.Ends.andThen (R := fun _ d' => Good env free d d' ∧ Frame (ofJob c.id) d₀ d' ∧
    d'.row (.dispatch parent.id c.id) = none) (.acquire ⟨?_, ?_, ?_⟩) fun _ d₁ h₁ => ?_
  · exact (h.good free).write trivial
  · exact hframe.write hframe trivial
  · rw [d.row_write_ne _ (by simp), hnew]
  obtain ⟨hgood₁, hframe₁, hnew₁⟩ := h₁
  refine (framed (newUUID_ends hgood₁) (newUUID_effect apart_allows.toAllowsRuns) hframe₁).andThen
    fun runID d₂ h₂ => ?_
  obtain ⟨⟨hgood₂, hunused, hkept, _⟩, hframe₂⟩ := h₂
  have hnew₂ := (hkept.dispatches parent.id c.id id).trans hnew₁
  refine Program.Ends.andThen (R := fun _ d' => d' = d₂) (.clock fun _ _ => rfl)
    fun scheduledAt d' hd' => ?_
  subst hd'
  -- the dispatch is reserved
  refine Program.Ends.andThen (R := fun b d₃ => b = true ∧ Good env free d d₃ ∧
    Frame (ofJob c.id) d₀ d₃ ∧ .uuid runID ∈ d₃.keys ∧ d₃.row (.run runID) = none)
    (.insert (fun _ => ⟨rfl, hgood₂.write ⟨rfl, rfl⟩, hframe₂.write hframe₂ trivial, ?_, ?_⟩)
      fun hne => absurd hnew₂ hne) fun b d₃ h₃ => ?_
  · exact (d'.mem_keys_write _).2 (.inl hunused.drawn)
  · rw [d'.row_write_ne _ (by simp), hunused.run]
  obtain ⟨rfl, hgood₃, hframe₃, hdrawn₃, hnone₃⟩ := h₃
  refine Program.Ends.andThen (R := fun n d₄ => n = pendingCount c.id d₃ ∧ d₄ = d₃)
    (.select ⟨rfl, rfl⟩) fun pending d₄ h₄ => ?_
  obtain ⟨rfl, rfl⟩ := h₄
  have hstate := hframe₃.jobRunQueueState_eq hcover
  have hpending : pendingCount c.id d₄ = pendingCount c.id d₀ := congrArg Prod.fst hstate
  have hactive : hasActiveRun c.id d₄ = hasActiveRun c.id d₀ := congrArg Prod.snd hstate
  refine (framed (applyBlockPolicy_ends (hgood₃.sound.good fun _ => False) c.id c.policy)
    (applyBlockPolicy_holds (apart_covers fun _ _ => rfl) rfl _) hframe₃.forget).andThen
    fun action d₅ h₅ => ?_
  obtain ⟨⟨haction, hgood₅⟩, hframe₅⟩ := h₅
  rw [hactive] at haction
  have hgood : Good env free d d₅ := hgood₃.andThen hgood₅ fun _ hk => hk.elim
  have hdrawn := hgood₅.kept.keys hdrawn₃
  have hnone := hgood₅.kept.unborn runID hdrawn₃ id hnone₃
  have hjob₅ := hgood.kept.employed.2 hjob
  have hinsert : ∀ status message, Dispatchable now d₀ c →
      (insertRun now (dependentRun now scheduledAt parent c.id runID status message)).Ends
        (Outcome (fun _ d' => Dispatchable now d₀ c ∧ Good env free d d')
          fun _ _ => ¬Dispatchable now d₀ c) d₅ := by
    intro status message hok
    refine (insertRun_ends hgood hdrawn hnone trivial hjob₅).mono fun res d' hres => ?_
    cases res with
    | ok _ => exact ⟨hok, hres⟩
    | error _ => exact hres.elim
  have hskips : (action = .skip ∨ action = .enqueue ∧ c.maxQueue ≤ pendingCount c.id d₄) ↔
      Skips c d₀ := by rw [haction, hpending]; rfl
  by_cases hskip : Skips c d₀
  · rw [if_pos (hskips.2 hskip)]
    exact hinsert _ _ fun _ => .inl hskip
  rw [if_neg (hskips.not.2 hskip)]
  by_cases hroute : c.routeStrategy = some .shardingBroadcast
  · rw [if_pos hroute]
    refine Program.Ends.andThen (R := fun shards d' => shards =
      plannedShards now c.id c.executorGroupID d₅ ∧ d' = d₅) (planShards_ends ⟨rfl, rfl⟩)
      fun shards d' h' => ?_
    obtain ⟨rfl, rfl⟩ := h'
    have hplanned := plannedShards_eq_nil now c d₀
    rw [← hframe₅.plannedShards_eq hcover now c.id c.executorGroupID] at hplanned
    split
    · next hnil => exact fun hok => (hok hroute).elim hskip (hplanned.1 hnil)
    · next hne =>
        have hok : Dispatchable now d₀ c := fun _ => .inr (not_not.1 (hplanned.not.1 hne))
        split
        · exact hinsert _ _ hok
        · refine (insertDependentShards_ends hgood (fun _ => trivial) hdrawn hnone hjob
            (planBroadcastShards_nodup _)).mono fun res d' hres => ?_
          cases res with
          | ok _ => exact ⟨hok, hres⟩
          | error _ => exact hres.elim
  · rw [if_neg hroute]
    exact hinsert _ _ fun hbroadcast => absurd hbroadcast hroute

def ofJobs (jobIDs : List ℕ) (r : Run) : Bool := jobIDs.contains r.jobID

theorem Frame.mono {keep' : Run → Bool} (h : Frame keep d₀ d)
    (hkeep : ∀ r, keep' r = true → keep r = true) : Frame keep' d₀ d := by
  refine ⟨h.keys, fun id => ?_, h.nodes, h.labels⟩
  have hfilter : ∀ o : Option Run, o.filter keep' = (o.filter keep).filter keep' := by
    intro o
    cases o with
    | none => rfl
    | some r =>
      cases hr : keep' r with
      | false => cases hk : keep r <;> simp [Option.filter, hr, hk]
      | true => simp [Option.filter, hr, hkeep r hr]
  rw [hfilter, h.kept, ← hfilter]

theorem enqueueDependentRuns_ends {parent : Run} (hcover : ∀ k ∉ d₀.keys, d₀.row k = none)
    {children : List Dependent}
    (hchildren : dependentJobs parent.tenantID parent.jobID d = children)
    (hnodup : (children.map Dependent.id).Nodup)
    (hframe : Frame (ofJobs (children.map Dependent.id)) d₀ d) (h : Sound env d)
    (hjob : ∀ c ∈ children, Employed d parent.tenantID c.id)
    (hnew : ∀ c ∈ children, d.row (.dispatch parent.id c.id) = none) :
    (enqueueDependentRuns env now parent).Ends (Outcome
      (fun _ d' => (∀ c ∈ children, Dispatchable now d₀ c) ∧ Good env (fun _ => True) d d')
      fun _ _ => ¬∀ c ∈ children, Dispatchable now d₀ c) d := by
  refine Program.Ends.andThen (R := fun cs d' => cs = children ∧ d' = d) (.select ⟨hchildren, rfl⟩)
    fun cs d' h' => ?_
  obtain ⟨rfl, rfl⟩ := h'
  refine Program.Ends.andThen (R := fun _ d₁ => Good env (fun _ => False) d' d₁ ∧
    Frame (ofJobs (cs.map Dependent.id)) d₀ d₁) (.upsert fun _ => ?_) fun _ d₁ h₁ => ?_
  · exact ⟨(h.good _).write trivial, hframe.write hframe trivial⟩
  obtain ⟨hgood₁, hframe₁⟩ := h₁
  -- the children that are left are as they were, and those before them were dispatched
  refine .forEach (fun rest d₂ => (rest.Sublist cs ∧ Frame (ofJobs (rest.map Dependent.id)) d₀ d₂ ∧
      Good env (fun _ => True) d' d₂ ∧ ∀ c ∈ rest, d₂.row (.dispatch parent.id c.id) = none) ∧
      ((∀ c ∈ rest, Dispatchable now d₀ c) → ∀ c ∈ cs, Dispatchable now d₀ c))
    (fun c rest d₂ h₂ => ?_) (fun d₂ h₂ => ⟨h₂.2 (by simp), h₂.1.2.2.1⟩)
    ⟨⟨.refl _, hframe₁, ⟨hgood₁.sound, hgood₁.kept.mono fun _ hk => hk.elim⟩, fun c hc => ?_⟩, id⟩
  · obtain ⟨⟨hsub, hframe₂, hgood₂, hnew₂⟩, hdone⟩ := h₂
    have hc : c ∈ cs := hsub.subset List.mem_cons_self
    have hdistinct := (hsub.map Dependent.id).nodup hnodup
    rw [List.map_cons, List.nodup_cons] at hdistinct
    have hkeep : ∀ r : Run, r.jobID = c.id → ofJobs (rest.map Dependent.id) r = false := by
      intro r hr
      simpa [ofJobs, hr] using hdistinct.1
    have hown : Frame (ofJob c.id) d₀ d₂ := hframe₂.mono fun r hr => by
      simp only [ofJob, beq_iff_eq] at hr
      simp [ofJobs, hr]
    have hothers : Frame (ofJobs (rest.map Dependent.id)) d₀ d₂ := hframe₂.mono fun r hr => by
      simp only [ofJobs, List.contains_iff_mem] at hr
      simp only [ofJobs, List.contains_iff_mem, List.map_cons]
      exact List.mem_cons_of_mem _ hr
    have hends : (dispatchDependent env now parent c).Ends _ d₂ := dispatchDependent_ends hcover
      hown hgood₂.sound (hgood₂.kept.employed.2 (hjob c hc)) (hnew₂ c List.mem_cons_self)
    refine (hends.effect (dispatchDependent_holds apart_allows.toAllowsRuns (apart_covers hkeep) rfl
      fun r hr _ => unkept_of hkeep r hr) (fun _ _ hf hws => hf.writeAll hws)
      hothers).mono fun res d₃ h₃ => ?_
    obtain ⟨hres, hframe₃, _⟩ := h₃
    cases res with
    | error e => exact fun hall => hres (hall c hc)
    | ok _ =>
      obtain ⟨hok, hgood₃⟩ := hres
      refine ⟨⟨(List.sublist_cons_self c rest).trans hsub, hframe₃,
        hgood₂.andThen hgood₃ fun _ _ => trivial, fun c' hc' => ?_⟩, fun hrest => hdone ?_⟩
      · have hne : c'.id ≠ c.id := fun he => hdistinct.1 (he ▸ List.mem_map_of_mem hc')
        rw [hgood₃.kept.dispatches parent.id c'.id fun hfree => hne hfree.2]
        exact hnew₂ c' (List.mem_cons_of_mem _ hc')
      · rintro c' (_ | ⟨_, hc'⟩)
        · exact hok
        · exact hrest c' hc'
  · rw [hgood₁.kept.dispatches parent.id c.id id]
    exact hnew c hc

end Dependents

section Reports

structure Consistent (env : Env) (d : Db) : Prop extends WellFormed d, Sound env d where
  -- Dependencies connect different jobs of one tenant.
  related : ∀ p c e, d.row (.dependency p c) = some e → p ≠ c ∧ Employed d e.tenantID c
  -- Only a run that succeeded was dispatched to dependent jobs.
  dispatched : ∀ id r c, d.row (.run id) = some r → r.status ≠ .succeeded →
    d.row (.dispatch id c) = none

variable {env : Env} {free : Key → Prop} {keep : Run → Bool} {d₀ d : Db} {now : Int}
  {tenantID parentJobID : ℕ}

theorem mem_dependentJobs (hd : WellFormed d) {c : Dependent}
    (hc : c ∈ dependentJobs tenantID parentJobID d) :
    ∃ e, d.row (.dependency parentJobID c.id) = some e ∧ e.tenantID = tenantID := by
  simp only [dependentJobs, List.mem_insertionSort, List.mem_filterMap, List.mem_filter,
    Bool.and_eq_true, beq_iff_eq, Option.map_eq_some_iff] at hc
  obtain ⟨e, ⟨he, htenant, hparent⟩, j, _, rfl⟩ := hc
  obtain ⟨k, _, hrow⟩ := List.mem_filterMap.1 he
  split at hrow
  · obtain ⟨hp, hchild⟩ := hd.keyed.dependency _ _ e hrow
    refine ⟨e, ?_, htenant⟩
    rw [← hparent, hp, hchild]
    exact hrow
  · cases hrow

theorem nodup_dependentJobs (hd : WellFormed d) :
    ((dependentJobs tenantID parentJobID d).map Dependent.id).Nodup := by
  have hperm := (List.perm_insertionSort (fun a b : Dependent => a.id ≤ b.id) (((dependencies
    d).filter fun e => e.tenantID == tenantID && e.parentJobID == parentJobID).filterMap fun e =>
      (d.row (.job e.childJobID)).map fun j => (⟨e.childJobID, j.overlapPolicy, j.maxQueueSize,
        j.executorGroupID, routeStrategy d j.executorGroupID⟩ : Dependent))).map Dependent.id
  refine hperm.nodup_iff.2 (List.Nodup.of_map (fun id => Key.dependency parentJobID id) ?_)
  rw [List.map_map, List.filterMap_filter, dependencies, List.filterMap_filterMap]
  refine (keys_sublist (fun k c hk => ?_) d.keys).nodup hd.nodup
  obtain ⟨e, he, hc⟩ := Option.bind_eq_some_iff.1 hk
  split at he
  · obtain ⟨hp, hchild⟩ := hd.keyed.dependency _ _ e he
    split at hc
    · next hmatch =>
        simp only [Bool.and_eq_true, beq_iff_eq] at hmatch
        obtain ⟨j, _, rfl⟩ := Option.map_eq_some_iff.1 hc
        simp [← hmatch.2, hp, hchild]
    · cases hc
  · cases he

/-- The dependent jobs are read after the run has ended, and are those of the state before. -/
theorem dependentJobs_eq (hcover : ∀ k ∉ d₀.keys, d₀.row k = none) (hframe : Frame keep d₀ d)
    (hkept : Kept free d₀ d) :
    dependentJobs tenantID parentJobID d = dependentJobs tenantID parentJobID d₀ := by
  have hdeps : dependencies d = dependencies d₀ := by
    refine hframe.filterMap_keys (fun k _ => ?_) fun k hk => ?_
    · cases k with
      | dependency p c => exact hkept.dependencies p c
      | _ => rfl
    · cases k with
      | dependency p c => exact (hkept.dependencies p c).trans (hcover _ hk)
      | _ => rfl
  have hroute : routeStrategy d = routeStrategy d₀ := by
    funext groupID
    simp only [routeStrategy, hkept.groups]
  have hchild : ∀ (f : Option ℕ → Option RouteStrategy) (id : ℕ) (e : Db),
      ((e.row (.job id)).map fun j => (⟨id, j.overlapPolicy, j.maxQueueSize, j.executorGroupID,
        f j.executorGroupID⟩ : Dependent)) = ((e.row (.job id)).map Job.settings).map fun s =>
          ⟨id, s.2.1, s.2.2.1, s.2.2.2, f s.2.2.2⟩ := by
    intro f id e
    cases e.row (.job id) <;> rfl
  unfold dependentJobs
  simp only [hdeps, hroute, hchild, hkept.settings]

/-- The two ways in which a success is reported: the callback of the executor, with its
token, and a worker, with the run it claimed. -/
inductive SuccessReport where
  | callback (runID tokenHash : ℕ) (message : String)
  | worker (run : Run) (status : ℕ) (errorMessage : String)

def SuccessReport.program (env : Env) (now : Int) : SuccessReport → Tx Unit
  | .callback runID tokenHash message => completeCallback env now runID tokenHash true message
  | .worker run status errorMessage => completeRun env now run true status errorMessage

/-- The report is about the run `r` of the database: it waits for this callback, whose
deadline has not passed, or it is running under the lease of this worker. -/
def SuccessReport.Current (now : Int) (d : Db) (r : Run) : SuccessReport → Prop
  | .callback runID tokenHash _ => d.row (.run runID) = some r ∧
      awaitsCallback tokenHash now r = true
  | .worker run _ _ => d.row (.run run.id) = some r ∧
      (∃ lease, run.lease = some lease ∧ leasedBy lease.token r = true) ∧
        run.tenantID = r.tenantID ∧ run.jobID = r.jobID

def Reported (d : Db) (r : Run) : Except StoreError Unit → Db → Prop :=
  Outcome (fun _ d' => (d'.row (.run r.id)).map Run.status = some .succeeded ∧
      ∀ c ∈ dependentJobs r.tenantID r.jobID d, Dispatchable d.clock d c)
    fun _ _ => ¬∀ c ∈ dependentJobs r.tenantID r.jobID d, Dispatchable d.clock d c

theorem succeeded_ends (hd : Consistent env d) {r done parent : Run}
    (hrow : d.row (.run r.id) = some r) (hactive : r.status.active = true)
    (hstatus : done.status = .succeeded) (hdone : done.tenantID = r.tenantID ∧ done.jobID = r.jobID)
    (hparent : parent.id = r.id ∧ parent.tenantID = r.tenantID ∧ parent.jobID = r.jobID)
    (terminalAt : Int) :
    (do emitRunLifecycleEvent d.clock r.id .succeeded
        enqueueDependentRuns env d.clock parent
        rearmFixedDelay env parent terminalAt : Tx Unit).Ends (Reported d r)
      (d.write ⟨.run r.id, some done⟩) := by
  have hjob := hd.employed r.id r hrow
  have htame : Tame (fun _ => False) d ⟨.run r.id, some done⟩ :=
    ⟨done, rfl, by rw [hdone.1, hdone.2]; exact hjob, .inr ⟨r, hrow, hactive⟩⟩
  set children := dependentJobs r.tenantID r.jobID d with hchildren
  -- the run itself is not one of a dependent job
  have hother : ofJobs (children.map Dependent.id) r = false := by
    simp only [ofJobs, List.contains_eq_mem, decide_eq_false_iff_not, List.mem_map, not_exists,
      not_and]
    intro c hc hid
    obtain ⟨e, he, _⟩ := mem_dependentJobs hd.toWellFormed hc
    exact (hd.related _ _ e he).1 hid.symm
  have hother' : ofJobs (children.map Dependent.id) done = false := by
    simpa only [ofJobs, hdone.2] using hother
  have hframe : Frame (ofJobs (children.map Dependent.id)) d (d.write ⟨.run r.id, some done⟩) := by
    refine (Frame.refl _ d).write (Frame.refl _ d) ?_
    simp [Apart, hrow, Option.filter, hother, hother']
  have hwritten := Kept.write htame
  refine (framed (emitRunEvent_ends ((hd.toSound.write htame).good fun _ => False) _ _ _)
    (emitRunEvent_effect apart_allows.toAllowsRuns _ _ _) hframe).andThen fun _ d₁ h₁ => ?_
  obtain ⟨hgood₁, hframe₁⟩ := h₁
  have hkept := hwritten.trans hgood₁.kept
  have hrow₁ : d₁.row (.run r.id) = some done :=
    hgood₁.kept.ended r.id done (d.row_write_self _) (by rw [hstatus]; rfl)
  have hnew : ∀ c, d₁.row (.dispatch parent.id c) = none := by
    intro c
    rw [hkept.dispatches parent.id c id, hparent.1]
    refine hd.dispatched r.id r c hrow fun hsucceeded => ?_
    rw [hsucceeded] at hactive
    cases hactive
  have hdependents : ∀ c ∈ children, Employed d₁ parent.tenantID c.id := by
    intro c hc
    obtain ⟨e, he, htenant⟩ := mem_dependentJobs hd.toWellFormed hc
    rw [hkept.employed, hparent.2.1, ← htenant]
    exact (hd.related _ _ e he).2
  have hread : dependentJobs parent.tenantID parent.jobID d₁ = children := by
    rw [hparent.2.1, hparent.2.2]
    exact dependentJobs_eq hd.absent hframe₁ hkept
  refine (enqueueDependentRuns_ends hd.absent hread (nodup_dependentJobs hd.toWellFormed) hframe₁
    hgood₁.sound hdependents fun c _ => hnew c.id).bind (fun _ d₂ h₂ => ?_) fun _ _ h₂ => h₂
  obtain ⟨hall, hgood₂⟩ := h₂
  refine (rearmFixedDelay_ends hgood₂ _ _).mono fun res d₃ h₃ => ?_
  cases res with
  | error e => exact h₃.elim
  | ok _ =>
    refine ⟨?_, hall⟩
    rw [h₃.kept.ended r.id done hrow₁ (by rw [hstatus]; rfl), Option.map_some, hstatus]

theorem report_ends (hd : Consistent env d) {report : SuccessReport} {r : Run}
    (hr : report.Current d.clock d r) :
    (report.program env d.clock).Ends (Reported d r) d := by
  cases report with
  | callback runID tokenHash message =>
    obtain ⟨hrow, hwaits⟩ := hr
    obtain rfl := hd.keyed.run runID r hrow
    have hstatus : r.status = .waitingCallback := by
      simp only [awaitsCallback, Bool.and_eq_true, beq_iff_eq] at hwaits
      exact hwaits.1
    refine Program.Ends.andThen (R := fun terminal d' => terminal = some { r.finish .succeeded
      d.clock with errorMessage := "" } ∧ d' = d.write ⟨.run r.id, terminal⟩)
      (updateRun_ends (fun r' hr' _ => ?_) fun hnot => ?_) fun terminal d₁ h₁ => ?_
    · rw [hrow] at hr'
      cases hr'
      exact ⟨rfl, rfl⟩
    · rw [hnot r hrow] at hwaits
      cases hwaits
    obtain ⟨rfl, rfl⟩ := h₁
    obtain ⟨j, hj, _⟩ := hd.employed r.id r hrow
    refine Program.Ends.andThen (R := fun n d' => n = some j.maxRetries ∧ d' = d.write ⟨.run r.id,
      some { r.finish .succeeded d.clock with errorMessage := "" }⟩) (.select ⟨?_, rfl⟩)
      fun n d₁ h₁ => ?_
    · have hjob : (d.write ⟨.run r.id, some { r.finish .succeeded d.clock with errorMessage := ""
          }⟩).row (.job r.jobID) = some j := (d.row_write_ne _ (by simp)).trans hj
      exact congrArg (Option.map Job.maxRetries) hjob
    · obtain ⟨rfl, rfl⟩ := h₁
      refine succeeded_ends hd hrow ?_ ?_ ?_ ?_ _
      · rw [hstatus]
        rfl
      · rfl
      · exact ⟨rfl, rfl⟩
      · exact ⟨rfl, rfl, rfl⟩
  | worker run status errorMessage =>
    obtain ⟨hrow, ⟨lease, hlease, hheld⟩, htenant, hjob⟩ := hr
    have hid := hd.keyed.run run.id r hrow
    have hstatus : r.status = .running := by
      simp only [leasedBy, Bool.and_eq_true, beq_iff_eq] at hheld
      exact hheld.1
    set done : Run := { r.finish .succeeded d.clock with
      responseStatus := status, errorMessage := errorMessage } with hdone
    have hupdate : (updateLeasedRun run fun r => { r.finish .succeeded d.clock with
        responseStatus := status, errorMessage := errorMessage }).Ends
          (Returned fun _ d' => d' = d.write ⟨.run r.id, some done⟩) d := by
      unfold updateLeasedRun requireRunLease
      rw [hlease]
      refine Program.Ends.andThen (R := fun o d' => ∃ r', o = some r' ∧
        d' = d.write ⟨.run r.id, some done⟩) (updateRun_ends (fun r' hr' _ => ?_) fun hnot => ?_)
        fun o d₁ h₁ => ?_
      · rw [hrow] at hr'
        cases hr'
        rw [hid]
        exact ⟨_, rfl, rfl⟩
      · rw [hnot r hrow] at hheld
        cases hheld
      · obtain ⟨r', rfl, rfl⟩ := h₁
        exact rfl
    refine hupdate.andThen fun _ d₁ h₁ => ?_
    subst h₁
    rw [← hid] at hrow ⊢
    refine succeeded_ends hd hrow ?_ ?_ ?_ ?_ _
    · rw [hstatus]
      rfl
    · rfl
    · exact ⟨rfl, rfl⟩
    · exact ⟨hid.symm, htenant, hjob⟩

def SuccessCommits (env : Env) (d : Db) (report : SuccessReport) (r : Run) : Prop :=
  ∀ inps res d', (report.program env d.clock).transact inps d = some (res, d') →
    res = .ok () ∧ (d'.row (.run r.id)).map Run.status = some .succeeded

/-- A current report of a success can be made, and commits it exactly if every dependent
broadcast is skipped or finds a node. -/
theorem success_commits_iff (env : Env) (d : Db) (report : SuccessReport) (r : Run)
    (hd : Consistent env d) (hr : report.Current d.clock d r) :
    (∃ inps out, (report.program env d.clock).transact inps d = some out) ∧
      ∀ inps res d', (report.program env d.clock).transact inps d = some (res, d') →
        ((res = .ok () ∧ (d'.row (.run r.id)).map Run.status = some .succeeded) ↔
          ∀ c ∈ dependentJobs r.tenantID r.jobID d, Dispatchable d.clock d c) := by
  obtain ⟨hruns, hends⟩ := (report_ends hd hr).transact
  refine ⟨hruns, fun inps res d' h => ?_⟩
  rcases hends inps res d' h with ⟨_, rfl, hstatus, hall⟩ | ⟨e, _, rfl, hnot, _⟩
  · exact ⟨fun _ => hall, fun _ => ⟨rfl, hstatus⟩⟩
  · refine ⟨fun hok => ?_, fun hall => absurd hall hnot⟩
    cases hok.1

def waitingRun : Run :=
  { manualRun 0 ⟨1, 1, "", "", []⟩ 3 0 .waitingCallback with callback := some ⟨5, 2000⟩ }

def reportRow (live : Bool) : (k : Key) → Option (Row k)
  | .tenant id => if id = 1 then some ⟨10⟩ else none
  | .executorGroup id => if id = 7 then some ⟨.shardingBroadcast⟩ else none
  | .executorNode g n =>
      if live = true ∧ g = 7 ∧ n = "n" then some ⟨7, "n", "host:1", true, 0, []⟩ else none
  | .job id => if id = 1 then some (minuteJob 1) else if id = 2 then some nodelessJob else none
  | .run id => if id = 3 then some waitingRun else none
  | .dependency p c => if p = 1 ∧ c = 2 then some ⟨1, 1, 2⟩ else none
  | _ => none

def reportDb (live : Bool) : Db :=
  ⟨[.tenant 1, .executorGroup 7, .executorNode 7 "n", .job 1, .job 2, .run 3,
    .dependency 1 2, .uuid 3], reportRow live, 1000⟩

theorem reportDb_consistent (live : Bool) : Consistent plainEnv (reportDb live) where
  nodup := by cases live <;> decide
  absent := by
    intro k hk
    show reportRow live k = none
    unfold reportRow
    split
    all_goals first | rfl | (split_ifs <;> simp_all [reportDb])
  keyed := by
    constructor
    · intro id r h
      obtain ⟨rfl, ⟨⟩⟩ := Option.ite_none_right_eq_some.1 h
      rfl
    · intro id j h
      obtain ⟨rfl, rfl⟩ | ⟨rfl, rfl⟩ := sharedRow_job h
      all_goals rfl
    · intro p c e h
      obtain ⟨⟨rfl, rfl⟩, ⟨⟩⟩ := Option.ite_none_right_eq_some.1 h
      exact ⟨rfl, rfl⟩
    · intro id kc h
      cases h
  drawn := by
    intro n hn
    refine ⟨if_neg fun h3 => hn ?_, rfl⟩
    subst h3
    simp [reportDb]
  employed := by
    intro id r h
    obtain ⟨rfl, ⟨⟩⟩ := Option.ite_none_right_eq_some.1 h
    exact ⟨minuteJob 1, rfl, rfl⟩
  scheduled := by
    intro id j h hfixed
    obtain ⟨rfl, rfl⟩ | ⟨rfl, rfl⟩ := sharedRow_job h
    all_goals cases hfixed
  related := by
    intro p c e h
    obtain ⟨⟨rfl, rfl⟩, ⟨⟩⟩ := Option.ite_none_right_eq_some.1 h
    exact ⟨by decide, nodelessJob, rfl, rfl⟩
  dispatched := fun _ _ _ _ _ => rfl

def waitingReport : SuccessReport := .callback 3 5 ""

theorem waitingReport_current (live : Bool) :
    waitingReport.Current 1000 (reportDb live) waitingRun := ⟨rfl, by decide⟩

/-- The dependent broadcast has no node: the callback is answered with an error and the run
keeps waiting. -/
theorem success_rejected : ¬∀ (env : Env) (d : Db) (report : SuccessReport) (r : Run),
    Consistent env d → report.Current d.clock d r → SuccessCommits env d report r := by
  intro hall
  have hcommits := hall plainEnv (reportDb false) waitingReport waitingRun
    (reportDb_consistent false) (waitingReport_current false)
  have hrun : ((waitingReport.program plainEnv 1000).transact
      ((List.range 20).map fun i => ⟨1000, 100 + i, []⟩) (reportDb false)).map (fun out =>
        out.1) = some (.error (.noLiveExecutorNodes (some 2))) := by decide +kernel
  obtain ⟨⟨res, d'⟩, htransact, hres⟩ := Option.map_eq_some_iff.1 hrun
  have hok := (hcommits _ res d' htransact).1
  rw [hok] at hres
  cases hres

theorem success_commits_with_node : ∃ inps d',
    (waitingReport.program plainEnv 1000).transact inps (reportDb true) = some (.ok (), d') ∧
      (d'.row (.run 3)).map Run.status = some .succeeded := by
  obtain ⟨⟨inps, ⟨res, d'⟩, hrun⟩, hiff⟩ := success_commits_iff plainEnv (reportDb true)
    waitingReport waitingRun (reportDb_consistent true) (waitingReport_current true)
  have hchildren : dependentJobs waitingRun.tenantID waitingRun.jobID (reportDb true) =
      [⟨2, .serial, 1000, some 7, some .shardingBroadcast⟩] := by decide +kernel
  have hnode : ∀ c ∈ dependentJobs waitingRun.tenantID waitingRun.jobID (reportDb true),
      Dispatchable (reportDb true).clock (reportDb true) c := by
    intro c hc _
    rw [hchildren, List.mem_singleton] at hc
    subst hc
    have hlabels : jobExecutorLabels 2 (reportDb true) = ([], []) := rfl
    refine .inr ⟨⟨7, "n", "host:1", true, 0, []⟩, ?_, rfl, .inl rfl, ?_, by simp⟩
    · exact List.mem_filterMap.2 ⟨.executorNode 7 "n", by decide, rfl⟩
    · simp [hlabels]
  obtain ⟨rfl, hstatus⟩ := (hiff inps res d' hrun).2 hnode
  exact ⟨inps, d', hrun, hstatus⟩

end Reports

end GoScheduler.Store
