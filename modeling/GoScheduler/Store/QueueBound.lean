import GoScheduler.Store.Tables

/-! The bound on the queue of a job. An occurrence of a due job is recorded as pending while
the queue has room and as skipped once it is full. Jobs whose policy is `parallel` take a
shorter way, on which their occurrences are collected and inserted in one batch; there the
queue is not looked at. -/
namespace GoScheduler.Store
open ReadCommitted Schedule

variable {env : Env} {now : Int} {d d₁ d' : Db} {inps rest : List (Input Key)}

section Rows

theorem runs_insert (h : d.Tidy) {id : ℕ} (hnone : d.row (.run id) = none) (r : Run) :
    (runs (d.write ⟨.run id, some r⟩)).Perm (runs d ++ [r]) := by
  obtain ⟨ks, hmem, hnew, hold⟩ : ∃ ks : List Key, Key.run id ∉ ks ∧
      (d.write ⟨.run id, some r⟩).keys.Perm (.run id :: ks) ∧
        (d.keys.Perm ks ∨ d.keys.Perm (.run id :: ks)) := by
    by_cases hk : .run id ∈ d.keys
    · refine ⟨d.keys.erase (.run id), h.nodup.not_mem_erase, ?_, .inr (List.perm_cons_erase hk)⟩
      simpa [Database.write, Database.addKey, hk] using List.perm_cons_erase hk
    · refine ⟨d.keys, hk, ?_, .inl (.refl _)⟩
      simp only [Database.write, Database.addKey, hk, if_false]
      exact List.perm_append_comm
  have hperm : ∀ e : Db, e.keys.Perm (.run id :: ks) → (runs e).Perm
      ((e.row (.run id)).toList ++ runs { e with keys := ks }) := by
    intro e he
    refine (he.filterMap _).trans (.of_eq ?_)
    cases hr : e.row (.run id) <;> simp [runs, hr]
  have hrest : runs { d.write ⟨.run id, some r⟩ with keys := ks } = runs { d with keys := ks } := by
    refine List.filterMap_congr fun k hk => ?_
    split
    · exact d.row_write_ne _ fun he => hmem (he ▸ hk)
    · rfl
  have hbefore : (runs d).Perm (runs { d with keys := ks }) := by
    cases hold with
    | inl hks => exact hks.filterMap _
    | inr hks => simpa [hnone] using hperm d hks
  have hafter := hperm _ hnew
  rw [d.row_write_self, hrest] at hafter
  exact hafter.trans (List.perm_append_comm.trans (hbefore.symm.append_right [r]))

theorem insertRow_alone {k : Key} {v : Row k}
    (h : (insertRow k v).alone inps d = some (.ok (), rest, d')) :
    d.row k = none ∧ d' = d.write ⟨k, some v⟩ := by
  obtain ⟨b, mid, d₁, hinsert, h⟩ := Program.alone_bind_ok h
  cases inps with
  | nil => cases hinsert
  | cons inp inps =>
    cases hrow : d.row k with
    | none =>
      simp only [Program.alone, Program.exec, Stmt.eval, hrow] at hinsert
      cases hinsert
      cases h
      exact ⟨rfl, rfl⟩
    | some w =>
      simp only [Program.alone, Program.exec, Stmt.eval, hrow] at hinsert
      cases hinsert
      cases h

theorem insertRun_adds {r : Run} (hd : d.Tidy)
    (h : (insertRun now r).alone inps d = some (.ok (), rest, d')) :
    (runs d').Perm (runs d ++ [r]) := by
  obtain ⟨_, mid, d₁, hinsert, hemit⟩ := Program.alone_bind_ok h
  obtain ⟨hnone, rfl⟩ := insertRow_alone hinsert
  have hframe : Frame (fun _ => true) (d.write ⟨.run r.id, some r⟩) d' :=
    (frame_alone (emitRunEvent_effect apart_allows.toAllowsRuns _ _ _) (.refl _ _) hemit).1
  have hruns := hframe.runs_filter (hd.write _).absent
  rw [List.filter_true, List.filter_true] at hruns
  rw [hruns]
  exact runs_insert hd hnone r

theorem newUUID_runs {n : ℕ} (hd : d.Tidy)
    (h : newUUID.alone inps d = some (.ok n, rest, d')) : runs d' = runs d := by
  have hframe : Frame (fun _ => true) d d' :=
    (frame_alone (newUUID_effect apart_allows.toAllowsRuns) (.refl _ _) h).1
  have hruns := hframe.runs_filter hd.absent
  rwa [List.filter_true, List.filter_true] at hruns

end Rows

section Queue

def Run.isPending (r : Run) : Bool := r.status == .pending

/-- The rows are pending as long as fewer than `max` runs are, and skipped otherwise. -/
def Bounded (queued max : ℕ) (new : List Run) : Prop :=
  ∀ before r after, new = before ++ r :: after →
    (r.status = .pending ∧ queued + before.countP Run.isPending < max) ∨ r.status = .skipped

variable {queued max : ℕ} {new : List Run} {r : Run}

theorem Bounded.nil : Bounded queued max [] := by
  intro before r after h
  simp at h

theorem bounded_append_iff : Bounded queued max (new ++ [r]) ↔ Bounded queued max new ∧
    ((r.status = .pending ∧ queued + new.countP Run.isPending < max) ∨ r.status = .skipped) := by
  constructor
  · intro h
    refine ⟨fun before r' after heq => h before r' (after ++ [r]) ?_, h new r [] rfl⟩
    rw [heq, List.append_assoc, List.cons_append]
  · rintro ⟨h, hr⟩ before r' after heq
    rcases List.eq_nil_or_concat after with rfl | ⟨after, last, rfl⟩
    · obtain ⟨rfl, hlast⟩ := List.append_inj' heq rfl
      cases hlast
      exact hr
    · rw [List.concat_eq_append, ← List.cons_append, ← List.append_assoc] at heq
      exact h before r' after (List.append_inj' heq rfl).1

theorem Bounded.countP_le (h : Bounded queued max new) :
    queued + new.countP Run.isPending ≤ Nat.max queued max := by
  induction new using List.reverseRecOn with
  | nil => simp
  | append_singleton new r ih =>
    obtain ⟨hnew, hr⟩ := bounded_append_iff.1 h
    have hle := ih hnew
    rw [List.countP_append, List.countP_singleton]
    cases hr with
    | inl hpending =>
      have hmax : max ≤ Nat.max queued max := Nat.le_max_right _ _
      rw [if_pos (by simp [Run.isPending, hpending.1])]
      omega
    | inr hskipped => simpa [Run.isPending, hskipped] using hle

theorem bounded_pending_iff (hpending : ∀ r ∈ new, r.status = .pending) :
    Bounded queued max new ↔ new = [] ∨ queued + new.length ≤ max := by
  induction new using List.reverseRecOn with
  | nil => simp [Bounded.nil]
  | append_singleton new r ih =>
    have hall : new.countP Run.isPending = new.length :=
      List.countP_eq_length.2 fun r hr => by simp [Run.isPending, hpending r (by simp [hr])]
    have hlast : r.status = .pending := hpending r (by simp)
    rw [bounded_append_iff, ih fun r hr => hpending r (by simp [hr]), hall, hlast]
    simp only [List.length_append, List.length_singleton, List.append_eq_nil_iff, List.cons_ne_self]
    constructor
    · rintro ⟨_, ⟨_, hlt⟩ | hskipped⟩
      · exact .inr hlt
      · cases hskipped
    · rintro (⟨_, hnil⟩ | hle)
      · cases hnil
      · exact ⟨.inr (by omega), .inl ⟨trivial, by omega⟩⟩

end Queue

section General

variable {j : Job} {goNow next_ at_ : Int}

theorem pendingCount_eq (jobID : ℕ) (d : Db) :
    pendingCount jobID d = ((runs d).filter (ofJob jobID)).countP Run.isPending := by
  rw [List.countP_filter]
  exact List.countP_congr fun r _ => by simp [ofJob, Run.isPending, and_comm]

theorem enqueueOne_adds {status : RunStatus} {a : Int} (hd : d.Tidy)
    (h : (enqueueOne env now j goNow next_ at_ status).alone inps d = some (.ok a, rest, d')) :
    ∃ id, (runs d').Perm (runs d ++ [scheduledRun now j id at_ status]) := by
  obtain ⟨id, mid, d₁, hid, h⟩ := Program.alone_bind_ok h
  obtain ⟨_, mid₂, d₂, hinsert, h⟩ := Program.alone_bind_ok h
  have hrows := insertRun_adds (Program.alone_tidy hd hid) hinsert
  rw [newUUID_runs hd hid] at hrows
  have hsame : d' = d₂ := by
    split at h
    · split at h
      · cases h
        rfl
      · cases h
    · cases h
      rfl
  exact ⟨id, hsame ▸ hrows⟩

theorem decideBlockAction_ne {policy : OverlapPolicy} (h : policy ≠ .coverEarly)
    (hasActive : Bool) : decideBlockAction policy hasActive ≠ .cancelAndEnqueue := by
  cases policy <;> cases hasActive <;> simp_all [decideBlockAction, canonicalBlockPolicy]

theorem enqueueOccurrence_adds {strategy : Option RouteStrategy} {a : Int} (hd : d.Tidy)
    (hpolicy : j.overlapPolicy ≠ .coverEarly) (hroute : strategy ≠ some .shardingBroadcast)
    (h : (enqueueOccurrence env now j strategy goNow next_ at_).alone inps d =
      some (.ok a, rest, d')) :
    ∃ id status, (runs d').Perm (runs d ++ [scheduledRun now j id at_ status]) ∧
      ((status = .pending ∧ pendingCount j.id d < j.maxQueueSize) ∨ status = .skipped) := by
  obtain ⟨state, mid, d₁, hstate, h⟩ := Program.alone_bind_ok h
  obtain ⟨hstate, rfl⟩ := Program.alone_select hstate
  cases hstate
  have hne := decideBlockAction_ne hpolicy (hasActiveRun j.id d₁)
  obtain ⟨action, mid₂, d₂, haction, h⟩ := Program.alone_bind_ok h
  simp only [applyBlockAction, Program.when, if_neg hne] at haction
  cases haction
  split at h
  · obtain ⟨id, hrows⟩ := enqueueOne_adds hd h
    exact ⟨id, .skipped, hrows, .inr rfl⟩
  · next hroom =>
      obtain ⟨id, hrows⟩ := enqueueOne_adds hd h
      refine ⟨id, .pending, hrows, .inl ⟨rfl, ?_⟩⟩
      rw [not_or, not_and, Nat.not_le] at hroom
      cases haction : decideBlockAction j.overlapPolicy (hasActiveRun j.id d₁) with
      | enqueue => exact hroom.2 haction
      | skip => exact absurd haction hroom.1
      | cancelAndEnqueue => exact absurd haction hne

theorem enqueueOccurrences_adds {strategy : Option RouteStrategy} {occurrences : List Int}
    {base new : List Run} {a : Int} (hd : d.Tidy) (hpolicy : j.overlapPolicy ≠ .coverEarly)
    (hroute : strategy ≠ some .shardingBroadcast)
    (hrows : ((runs d).filter (ofJob j.id)).Perm (base ++ new))
    (hbounded : Bounded (base.countP Run.isPending) j.maxQueueSize new)
    (h : (Program.foldEach occurrences next_ (enqueueOccurrence env now j strategy goNow)).alone
      inps d = some (.ok a, rest, d')) :
    ∃ more, more.map Run.scheduledAt = occurrences.map timestamp ∧
      ((runs d').filter (ofJob j.id)).Perm (base ++ (new ++ more)) ∧
      Bounded (base.countP Run.isPending) j.maxQueueSize (new ++ more) := by
  induction occurrences generalizing d inps new next_ with
  | nil =>
    cases h
    exact ⟨[], rfl, by simpa using hrows, by simpa using hbounded⟩
  | cons at_ occurrences ih =>
    obtain ⟨next', mid, d₁, hone, h⟩ := Program.alone_bind_ok h
    obtain ⟨id, status, hadded, hstatus⟩ := enqueueOccurrence_adds hd hpolicy hroute hone
    have hof : ofJob j.id (scheduledRun now j id at_ status) = true := by simp [ofJob, scheduledRun]
    have hrows₁ : ((runs d₁).filter (ofJob j.id)).Perm
        (base ++ (new ++ [scheduledRun now j id at_ status])) := by
      refine (hadded.filter _).trans ?_
      rw [List.filter_append, List.filter_singleton, hof, ← List.append_assoc]
      exact hrows.append_right _
    have hqueued : pendingCount j.id d =
        base.countP Run.isPending + new.countP Run.isPending := by
      rw [pendingCount_eq, hrows.countP_eq, List.countP_append]
    rw [hqueued] at hstatus
    obtain ⟨more, htimes, hrows', hbounded'⟩ := ih (Program.alone_tidy hd hone) hrows₁
      (bounded_append_iff.2 ⟨hbounded, hstatus⟩) h
    refine ⟨scheduledRun now j id at_ status :: more, ?_, ?_, ?_⟩
    · simp [htimes, scheduledRun]
    · simpa using hrows'
    · simpa using hbounded'

end General

section Batch

variable {j : Job} {goNow : Int}

def batchRuns (jobID : ℕ) (batch : List BatchItem) : List Run :=
  batch.filterMap fun
    | .insertRun r => if r.jobID = jobID then some r else none
    | .advanceJob _ _ => none

@[simp] theorem batchRuns_append (jobID : ℕ) (batch batch' : List BatchItem) :
    batchRuns jobID (batch ++ batch') = batchRuns jobID batch ++ batchRuns jobID batch' :=
  List.filterMap_append

theorem queueOccurrences_queues {occurrences : List Int} {batch batch' : List BatchItem}
    (hd : d.Tidy)
    (h : (Program.foldEach occurrences batch (queueOccurrence now j)).alone inps d =
      some (.ok batch', rest, d')) :
    runs d' = runs d ∧ ∃ new, batchRuns j.id batch' = batchRuns j.id batch ++ new ∧
      new.map Run.scheduledAt = occurrences.map timestamp ∧ ∀ r ∈ new, r.status = .pending := by
  induction occurrences generalizing d inps batch with
  | nil =>
    cases h
    exact ⟨rfl, [], by simp, rfl, by simp⟩
  | cons at_ occurrences ih =>
    obtain ⟨_, mid, d₁, hone, h⟩ := Program.alone_bind_ok h
    obtain ⟨id, mid₂, d₂, hid, hone⟩ := Program.alone_bind_ok hone
    cases hone
    obtain ⟨hruns, new, hbatch, htimes, hpending⟩ := ih (Program.alone_tidy hd hid) h
    refine ⟨hruns.trans (newUUID_runs hd hid), scheduledRun now j id at_ .pending :: new, ?_,
      ?_, ?_⟩
    · rw [hbatch, batchRuns_append, List.append_assoc]
      simp [batchRuns, scheduledRun]
    · simp [htimes, scheduledRun]
    · exact List.forall_mem_cons.2 ⟨rfl, hpending⟩

theorem runBatch_adds {batch : List BatchItem} (jobID : ℕ) (hd : d.Tidy)
    (h : (Program.forEach batch (runBatchItem now)).alone inps d = some (.ok (), rest, d')) :
    ((runs d').filter (ofJob jobID)).Perm
      ((runs d).filter (ofJob jobID) ++ batchRuns jobID batch) := by
  induction batch generalizing d inps with
  | nil =>
    cases h
    simp [batchRuns]
  | cons item batch ih =>
    obtain ⟨_, mid, d₁, hone, h⟩ := Program.alone_bind_ok h
    refine (ih (Program.alone_tidy hd hone) h).trans ?_
    cases item with
    | insertRun r =>
      have hadded := (insertRun_adds hd hone).filter (ofJob jobID)
      rw [List.filter_append] at hadded
      refine (hadded.append_right _).trans (.of_eq ?_)
      by_cases hr : r.jobID = jobID <;> simp [batchRuns, ofJob, hr]
    | advanceJob id next_ =>
      obtain ⟨_, mid₂, d₂, hupdate, hone⟩ := Program.alone_bind_ok hone
      cases hone
      have hframe : Frame (ofJob jobID) d d₁ :=
        (frame_alone (advanceJob_effect apart_allows.toAllowsRuns id next_) (.refl _ _) hupdate).1
      rw [hframe.runs_filter hd.absent]
      exact .refl _

end Batch

section Jobs

variable {j j' : Job} {batch batch' batch'' : List BatchItem}

/-- The occurrences are due at some reading of the Core's clock, or there are none. -/
def DueAt (env : Env) (j : Job) (occurrences : List Int) : Prop :=
  occurrences = [] ∨ ∃ first goNow next_, j.nextRunAt = some first ∧
    due env.calendar j.scheduleType j.scheduleExpression j.timezone j.misfirePolicy first goNow
      j.maxCatchUp = .ok (occurrences, next_)

structure Untroubled (jobID : ℕ) (d d' : Db) (batch batch' : List BatchItem) : Prop where
  rows : (runs d').filter (ofJob jobID) = (runs d).filter (ofJob jobID)
  batch : batchRuns jobID batch' = batchRuns jobID batch

/-- What was done for a job: rows that were inserted, and rows that were queued. -/
structure Handled (env : Env) (j : Job) (d d' : Db) (batch batch' : List BatchItem)
    (occurrences : List Int) (inserted queued : List Run) : Prop where
  due : DueAt env j occurrences
  times : (inserted ++ queued).map Run.scheduledAt = occurrences.map timestamp
  rows : ((runs d').filter (ofJob j.id)).Perm ((runs d).filter (ofJob j.id) ++ inserted)
  batch : batchRuns j.id batch' = batchRuns j.id batch ++ queued
  fast : j.overlapPolicy = .parallel → inserted = [] ∧ ∀ r ∈ queued, r.status = .pending
  general : j.overlapPolicy ≠ .parallel →
    queued = [] ∧ Bounded (pendingCount j.id d) j.maxQueueSize inserted

theorem Untroubled.handled (h : Untroubled j.id d d' batch batch') :
    Handled env j d d' batch batch' [] [] [] := by
  refine ⟨.inl rfl, rfl, ?_, ?_, fun _ => ⟨rfl, by simp⟩, fun _ => ⟨rfl, .nil⟩⟩
  · rw [h.rows, List.append_nil]
  · rw [h.batch, List.append_nil]

theorem Handled.after {occurrences : List Int} {inserted queued : List Run}
    (h : Handled env j d₁ d' batch' batch'' occurrences inserted queued)
    (hbefore : Untroubled j.id d d₁ batch batch') :
    Handled env j d d' batch batch'' occurrences inserted queued := by
  refine ⟨h.due, h.times, hbefore.rows ▸ h.rows, hbefore.batch ▸ h.batch, h.fast, fun hne => ?_⟩
  have hcount : pendingCount j.id d₁ = pendingCount j.id d := by
    rw [pendingCount_eq, pendingCount_eq, hbefore.rows]
  exact hcount ▸ h.general hne

theorem Handled.before {occurrences : List Int} {inserted queued : List Run}
    (h : Handled env j d d₁ batch batch' occurrences inserted queued)
    (hafter : Untroubled j.id d₁ d' batch' batch'') :
    Handled env j d d' batch batch'' occurrences inserted queued := by
  refine ⟨h.due, h.times, ?_, ?_, h.fast, h.general⟩
  · rw [hafter.rows]
    exact h.rows
  · rw [hafter.batch, h.batch]

theorem batchRuns_advance (jobID id : ℕ) (next_ : Int) :
    batchRuns jobID [.advanceJob id next_] = [] := rfl

theorem queueOccurrences_apart {occurrences : List Int} {jobID : ℕ} (hne : j.id ≠ jobID)
    (h : (Program.foldEach occurrences batch (queueOccurrence now j)).alone inps d =
      some (.ok batch', rest, d')) : batchRuns jobID batch' = batchRuns jobID batch := by
  induction occurrences generalizing d inps batch with
  | nil =>
    cases h
    rfl
  | cons at_ occurrences ih =>
    obtain ⟨_, mid, d₁, hone, h⟩ := Program.alone_bind_ok h
    obtain ⟨id, mid₂, d₂, hid, hone⟩ := Program.alone_bind_ok hone
    cases hone
    rw [ih h, batchRuns_append]
    simp [batchRuns, scheduledRun, hne]

theorem enqueueJob_untroubled {strategy : Option RouteStrategy} {jobID : ℕ} (hd : d.Tidy)
    (hne : j.id ≠ jobID)
    (h : (enqueueJob env now batch (j, strategy)).alone inps d = some (.ok batch', rest, d')) :
    Untroubled jobID d d' batch batch' := by
  have hkeep : ∀ r : Run, r.jobID = j.id → ofJob jobID r = false := fun r hr => by
    simp [ofJob, hr, hne]
  have hframe : Frame (ofJob jobID) d d' := (frame_alone (enqueueJob_holds apart_allows.toAllowsRuns
    (apart_covers hkeep) rfl (fun r hr _ => unkept_of hkeep r hr) batch strategy) (.refl _ _) h).1
  refine ⟨hframe.runs_filter hd.absent, ?_⟩
  unfold enqueueJob at h
  dsimp only at h
  split at h
  · cases h
    rfl
  · obtain ⟨goNow, mid, d₁, _, h⟩ := Program.alone_bind_ok h
    split at h
    · cases h
    · split at h
      · obtain ⟨batch₁, mid₂, d₂, hloop, h⟩ := Program.alone_bind_ok h
        cases h
        rw [batchRuns_append, batchRuns_advance, List.append_nil]
        exact queueOccurrences_apart hne hloop
      · obtain ⟨_, mid₂, d₂, _, h⟩ := Program.alone_bind_ok h
        obtain ⟨_, mid₃, d₃, _, h⟩ := Program.alone_bind_ok h
        cases h
        rfl

theorem enqueueJob_handles {strategy : Option RouteStrategy} (hd : d.Tidy)
    (hpolicy : j.overlapPolicy ≠ .coverEarly) (hroute : strategy ≠ some .shardingBroadcast)
    (h : (enqueueJob env now batch (j, strategy)).alone inps d = some (.ok batch', rest, d')) :
    ∃ occurrences inserted queued,
      Handled env j d d' batch batch' occurrences inserted queued := by
  unfold enqueueJob at h
  dsimp only at h
  split at h
  · cases h
    exact ⟨[], [], [], (Untroubled.mk rfl rfl).handled⟩
  · next first hfirst =>
    obtain ⟨goNow, mid, d₁, hclock, hbody⟩ := Program.alone_bind_ok h
    rw [(Program.alone_clock hclock).1] at hbody
    split at hbody
    · cases hbody
    · next occurrences next_ hdue =>
      have hdue : DueAt env j occurrences := .inr ⟨first, goNow, next_, hfirst, hdue⟩
      split at hbody
      · next hfast =>
        obtain ⟨batch₁, mid₂, d₂, hloop, hend⟩ := Program.alone_bind_ok hbody
        cases hend
        obtain ⟨hruns, new, hbatch, htimes, hpending⟩ := queueOccurrences_queues hd hloop
        refine ⟨occurrences, [], new, hdue, htimes, ?_, ?_, fun _ => ⟨rfl, hpending⟩,
          fun hne => absurd hfast.1 hne⟩
        · rw [hruns, List.append_nil]
        · rw [batchRuns_append, batchRuns_advance, List.append_nil, hbatch]
      · next hslow =>
        obtain ⟨_, mid₂, d₂, hloop, hend⟩ := Program.alone_bind_ok hbody
        obtain ⟨_, mid₃, d₃, hupdate, hend⟩ := Program.alone_bind_ok hend
        cases hend
        obtain ⟨new, htimes, hrows, hbounded⟩ := enqueueOccurrences_adds hd hpolicy hroute
          (by rw [List.append_nil]) .nil hloop
        have hframe : Frame (ofJob j.id) d₂ d' := (frame_alone
          (advanceJob_effect apart_allows.toAllowsRuns j.id _) (.refl _ _) hupdate).1
        rw [List.nil_append] at hrows hbounded
        refine ⟨occurrences, new, [], hdue, by rw [List.append_nil, htimes], ?_, ?_, fun heq => ?_,
          fun _ => ⟨rfl, ?_⟩⟩
        · rw [hframe.runs_filter (Program.alone_tidy hd hloop).absent]
          exact hrows
        · rw [List.append_nil]
        · exact absurd ⟨heq, hroute⟩ hslow
        · rw [pendingCount_eq]
          exact hbounded

variable {js : List Job} {route : Job → Option RouteStrategy}

theorem enqueueJobs_untroubled {jobID : ℕ} (hd : d.Tidy) (hne : ∀ j ∈ js, j.id ≠ jobID)
    (h : (Program.foldEach (js.map fun j => (j, route j)) batch (enqueueJob env now)).alone inps d =
      some (.ok batch', rest, d')) : Untroubled jobID d d' batch batch' := by
  induction js generalizing d inps batch with
  | nil =>
    cases h
    exact ⟨rfl, rfl⟩
  | cons j js ih =>
    obtain ⟨hj, hjs⟩ := List.forall_mem_cons.1 hne
    obtain ⟨batch₁, mid, d₁, hone, hrest⟩ := Program.alone_bind_ok h
    have hhead := enqueueJob_untroubled hd hj hone
    have htail := ih (Program.alone_tidy hd hone) hjs hrest
    exact ⟨htail.rows.trans hhead.rows, htail.batch.trans hhead.batch⟩

theorem enqueueJobs_handle (hd : d.Tidy) (hids : (js.map Job.id).Nodup)
    (hsame : ∀ j' ∈ js, j'.id = j.id → j' = j) (hpolicy : j.overlapPolicy ≠ .coverEarly)
    (hroute : route j ≠ some .shardingBroadcast)
    (h : (Program.foldEach (js.map fun j => (j, route j)) batch (enqueueJob env now)).alone inps d =
      some (.ok batch', rest, d')) :
    ∃ occurrences inserted queued,
      Handled env j d d' batch batch' occurrences inserted queued := by
  induction js generalizing d inps batch with
  | nil =>
    cases h
    exact ⟨[], [], [], (Untroubled.mk rfl rfl).handled⟩
  | cons head js ih =>
    obtain ⟨batch₁, mid, d₁, hone, hrest⟩ := Program.alone_bind_ok h
    have hd₁ := Program.alone_tidy hd hone
    obtain ⟨hhead, hids⟩ := List.nodup_cons.1 hids
    obtain ⟨hsame_head, hsame⟩ := List.forall_mem_cons.1 hsame
    by_cases hj : head.id = j.id
    · obtain rfl := hsame_head hj
      obtain ⟨occurrences, inserted, queued, hhandled⟩ := enqueueJob_handles hd hpolicy hroute hone
      have hafter := enqueueJobs_untroubled hd₁ (fun j' hj' he => hhead
        (List.mem_map.2 ⟨j', hj', he⟩)) hrest
      exact ⟨occurrences, inserted, queued, hhandled.before hafter⟩
    · obtain ⟨occurrences, inserted, queued, hhandled⟩ := ih hd₁ hids hsame hrest
      exact ⟨occurrences, inserted, queued, hhandled.after (enqueueJob_untroubled hd hj hone)⟩

end Jobs

section Bound

variable {j : Job} {batchSize : ℕ}

structure Added (j : Job) (d d' : Db) (occurrences : List Int) (new : List Run) : Prop where
  times : new.map Run.scheduledAt = occurrences.map timestamp
  rows : ((runs d').filter (ofJob j.id)).Perm ((runs d).filter (ofJob j.id) ++ new)

theorem Added.length_eq {occurrences : List Int} {new : List Run}
    (h : Added j d d' occurrences new) : new.length = occurrences.length := by
  simpa using congrArg List.length h.times

theorem Added.eq_nil_iff {occurrences : List Int} {new : List Run}
    (h : Added j d d' occurrences new) : new = [] ↔ occurrences = [] := by
  rw [← List.length_eq_zero_iff, h.length_eq, List.length_eq_zero_iff]

theorem Added.nil (hd : WellFormed d) (hkeys : d.KeysGrow d') (hrow : d'.row = d.row) :
    Added j d d' [] [] := by
  have hruns := hd.runs_rewritten hkeys fun id => by rw [hrow]
  have hsame : (runs d).map (fun r => (d'.row (.run r.id)).getD r) = runs d := by
    refine (List.map_congr_left fun r hr => ?_).trans (List.map_id _)
    rw [hrow, hd.mem_runs_iff.1 hr]
    rfl
  rw [hsame] at hruns
  exact ⟨rfl, by rw [hruns, List.append_nil]⟩

theorem enqueueDue_adds (hd : WellFormed d) (hj : d.row (.job j.id) = some j)
    (hpolicy : j.overlapPolicy ≠ .coverEarly)
    (hroute : routeStrategy d j.executorGroupID ≠ some .shardingBroadcast)
    (h : (enqueueDue env now batchSize).alone inps d = some (.ok (), rest, d')) :
    ∃ occurrences new, DueAt env j occurrences ∧ Added j d d' occurrences new ∧
      (j.overlapPolicy = .parallel → ∀ r ∈ new, r.status = .pending) ∧
      (j.overlapPolicy ≠ .parallel → Bounded (pendingCount j.id d) j.maxQueueSize new) := by
  have htidy : d.Tidy := ⟨hd.nodup, hd.absent⟩
  obtain ⟨_, mid, d₁, hlock, hbody⟩ := Program.alone_bind_ok h
  obtain ⟨inp, _, locked, hlocked, rfl, hd₁⟩ := Program.alone_skipLocked hlock
  have hsub : locked.Sublist (dueJobs now d) :=
    hlocked ▸ (List.take_sublist _ _).trans List.filter_sublist
  have hrow : ∀ x ∈ locked, x.1 = .job x.2.id ∧ d.row (.job x.2.id) = some x.2 := fun x hx =>
    ⟨(mem_dueJobs hd.keyed (hsub.subset hx)).1, (mem_dueJobs hd.keyed (hsub.subset hx)).2.1⟩
  -- the locks leave the database as it is
  have hlocks : d₁ = d := by
    rw [hd₁]
    refine d.writeAll_same fun k hk => ?_
    obtain ⟨x, hx, rfl⟩ := List.mem_map.1 hk
    rw [(hrow x hx).1]
    exact hd.listed _ _ (hrow x hx).2
  rw [hlocks] at hbody
  have hids : ((locked.map Prod.snd).map Job.id).Nodup := by
    refine List.Nodup.of_map Key.job ?_
    have hkeys : ((locked.map Prod.snd).map Job.id).map Key.job = locked.map Prod.fst := by
      simp only [List.map_map]
      exact List.map_congr_left fun x hx => (hrow x hx).1.symm
    rw [hkeys]
    exact (nodup_dueJobs hd.keyed hd.nodup).sublist (hsub.map _)
  have hsame : ∀ j' ∈ locked.map Prod.snd, j'.id = j.id → j' = j := by
    intro j' hj' he
    obtain ⟨x, hx, rfl⟩ := List.mem_map.1 hj'
    have hx := (hrow x hx).2
    rw [he, hj] at hx
    exact (Option.some.inj hx).symm
  generalize locked.map Prod.snd = js at hbody hids hsame
  obtain ⟨due, mid₂, d₂, hscan, hroutes⟩ := Program.alone_bind_ok hbody
  cases hdecode : js.mapM (scanJob env) with
  | error e =>
    rw [hdecode] at hscan
    cases hscan
  | ok due' =>
    rw [hdecode] at hscan
    cases hscan
    obtain rfl := scanJobs_eq hdecode
    obtain ⟨strategies, mid₃, d₃, hread, hjobs⟩ := Program.alone_bind_ok hroutes
    obtain ⟨hstrategies, hd₃⟩ := Program.alone_select hread
    rw [Except.ok.inj hstrategies, hd₃] at hjobs
    cases hstrategies : executorRouteStrategies due d with
    | none =>
      rw [hstrategies] at hjobs
      cases hjobs
    | some strategies =>
      rw [hstrategies] at hjobs
      obtain ⟨batch, mid₄, d₄, hloop, hbatch⟩ := Program.alone_bind_ok hjobs
      rw [executorRouteStrategies_eq hstrategies, zip_map_self] at hloop
      obtain ⟨occurrences, inserted, queued, hhandled⟩ :=
        enqueueJobs_handle htidy hids hsame hpolicy hroute hloop
      have hadded := runBatch_adds j.id (Program.alone_tidy htidy hloop) hbatch
      rw [hhandled.batch] at hadded
      refine ⟨occurrences, inserted ++ queued, hhandled.due, ⟨hhandled.times, ?_⟩, fun hfast => ?_,
        fun hne => ?_⟩
      · rw [← List.append_assoc]
        exact hadded.trans (hhandled.rows.append_right _)
      · rw [(hhandled.fast hfast).1]
        exact (hhandled.fast hfast).2
      · rw [(hhandled.general hne).1, List.append_nil]
        exact (hhandled.general hne).2

def QueueRespected (j : Job) (d d' : Db) (occurrences : List Int) : Prop :=
  ∃ new, Added j d d' occurrences new ∧ Bounded (pendingCount j.id d) j.maxQueueSize new

theorem QueueRespected.pendingCount_le {occurrences : List Int}
    (h : QueueRespected j d d' occurrences) :
    pendingCount j.id d' ≤ max (pendingCount j.id d) j.maxQueueSize := by
  obtain ⟨new, hadded, hbounded⟩ := h
  have hle := hbounded.countP_le
  rw [pendingCount_eq, hadded.rows.countP_eq, List.countP_append, ← pendingCount_eq]
  exact hle

def backlogJob (policy : OverlapPolicy) : Job :=
  { plainJob with id := 1, overlapPolicy := policy, nextRunAt := some 0, maxQueueSize := 1 }

def backlogRow (policy : OverlapPolicy) : (k : Key) → Option (Row k)
  | .job id => if id = 1 then some (backlogJob policy) else none
  | _ => none

def backlogDb (policy : OverlapPolicy) : Db := ⟨[.job 1], backlogRow policy, 130 * second⟩

theorem backlogDb_wellFormed (policy : OverlapPolicy) : WellFormed (backlogDb policy) where
  nodup := by simp [backlogDb]
  absent := by
    intro k hk
    show backlogRow policy k = none
    unfold backlogRow
    split
    all_goals first | rfl | (split_ifs <;> simp_all [backlogDb])
  keyed := by
    constructor
    · intro id r h
      cases h
    · intro id j h
      obtain ⟨rfl, ⟨⟩⟩ := Option.ite_none_right_eq_some.1 h
      rfl
    · intro p c e h
      cases h
    · intro id kc h
      cases h

def backlogInputs : List (Input Key) := (List.range 30).map fun i => ⟨130 * second, 100 + i, []⟩

end Bound

end GoScheduler.Store
