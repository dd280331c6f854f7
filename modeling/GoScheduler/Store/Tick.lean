import GoScheduler.Fallible
import GoScheduler.Store.Effects
import GoScheduler.Store.Rows

/-! One tick of a Core: due jobs are enqueued, callbacks expire, runs are claimed. An error
of one stage ends the tick. The tick is considered while no other transaction is open. -/
namespace GoScheduler.Store
open ReadCommitted Schedule

/-- A Core with its free worker slots, and what its three transactions find outside the
database. -/
structure TickCall where
  owner : String
  slots : ℕ
  enqueue : List (Input Key)
  expire : List (Input Key)
  claim : List (Input Key)
  pause₁ : ℕ
  pause₂ : ℕ

def enqueueBatchSize : ℕ := 500

def claimLease : Int := 120 * second

def dispatch (env : Env) (c : TickCall) (d : Db) :
    Option (Except StoreError (List ClaimedRun) × Db) :=
  if c.slots = 0 then some (.ok [], d) else
  (claimRuns env d.clock c.owner c.slots claimLease).transact c.claim d

def tick (env : Env) (c : TickCall) (d : Db) :
    Option (Except StoreError (List ClaimedRun) × Db) := do
  match ← (enqueueDue env d.clock enqueueBatchSize).transact c.enqueue d with
  | (.error e, d) => some (.error e, d)
  | (.ok _, d) =>
      let d := d.advance c.pause₁
      match ← (expireCallbacks env d.clock).transact c.expire d with
      | (.error e, d) => some (.error e, d)
      | (.ok _, d) => dispatch env c (d.advance c.pause₂)

section Apart

variable (keep : Run → Bool)

def Apart (d : Db) : Write Row → Prop
  | ⟨.run id, v⟩ => v.filter keep = (d.row (.run id)).filter keep
  | ⟨.executorNode g n, v⟩ => v = d.row (.executorNode g n)
  | ⟨.job id, v⟩ => v.map Job.labels = (d.row (.job id)).map Job.labels
  | _ => True

variable {keep}

def Unkept (keep : Run → Bool) (r : Run) : Prop := ∀ r', r'.jobID = r.jobID → keep r' = false

theorem unkept_of {jobID : ℕ} (hkeep : ∀ r : Run, r.jobID = jobID → keep r = false) (r : Run)
    (hr : r.jobID = jobID) : Unkept keep r := fun r' hr' => hkeep r' (hr'.trans hr)

theorem apart_allows :
    AllowsCancels (fun _ r r' => Unkept keep r ∧ r'.Same r) (Unkept keep) (Apart keep) where
  same := fun d k => by cases k <;> simp [Apart]
  aside := fun d k v hk _ => by cases k <;> trivial
  move := fun d id r r' hrow h => by
    simp [Apart, hrow, Option.filter, h.1 r rfl, h.1 r' h.2.jobID]
  create := fun d r hrow hr => by simp [Apart, hrow, Option.filter, hr r rfl]
  rearm := fun d id j next last enabled hrow => by
    simp only [Apart, hrow, Option.map_some]
    rfl
  command := fun _ _ _ _ => trivial

theorem apart_covers {env : Env} {now : Int} {jobID : ℕ}
    (hkeep : ∀ r : Run, r.jobID = jobID → keep r = false) :
    Covers env now (.effect (Apart keep)) (· = jobID) (Apart keep) :=
  apart_allows.covers fun _ r hjob _ => ⟨unkept_of hkeep r hjob, by constructor <;> rfl⟩

end Apart

section Frame

structure Frame (keep : Run → Bool) (d₀ d : Db) : Prop where
  keys : ∃ new, d.keys = d₀.keys ++ new ∧ ∀ k ∈ new, k ∉ d₀.keys
  kept : ∀ id, (d.row (.run id)).filter keep = (d₀.row (.run id)).filter keep
  nodes : ∀ g n, d.row (.executorNode g n) = d₀.row (.executorNode g n)
  labels : ∀ id, (d.row (.job id)).map Job.labels = (d₀.row (.job id)).map Job.labels

variable {keep : Run → Bool} {d₀ d : Db}

theorem Frame.refl (keep : Run → Bool) (d : Db) : Frame keep d d :=
  ⟨⟨[], by simp⟩, fun _ => rfl, fun _ _ => rfl, fun _ => rfl⟩

theorem Frame.write (h : Frame keep d₀ d) {d' : Db} (h' : Frame keep d₀ d') {w : Write Row}
    (hw : Apart keep d' w) : Frame keep d₀ (d.write w) := by
  obtain ⟨k, v⟩ := w
  have hother : ∀ k', k' ≠ k → (d.write ⟨k, v⟩).row k' = d.row k' := fun k' hk =>
    Function.update_of_ne hk _ _
  have hself : (d.write ⟨k, v⟩).row k = v := Function.update_self ..
  refine ⟨?_, fun id => ?_, fun g n => ?_, fun id => ?_⟩
  · obtain ⟨new, hnew, hfresh⟩ := h.keys
    by_cases hk : k ∈ d.keys
    · exact ⟨new, (if_pos hk).trans hnew, hfresh⟩
    · refine ⟨new ++ [k], (if_neg hk).trans (by rw [hnew, List.append_assoc]), ?_⟩
      rw [hnew, List.mem_append, not_or] at hk
      simp only [List.mem_append, List.mem_singleton]
      rintro k' (hk' | rfl)
      · exact hfresh k' hk'
      · exact hk.1
  · by_cases hk : .run id = k
    · subst hk
      rw [hself, hw, h'.kept]
    · rw [hother _ hk, h.kept]
  · by_cases hk : .executorNode g n = k
    · subst hk
      rw [hself, hw, h'.nodes]
    · rw [hother _ hk, h.nodes]
  · by_cases hk : .job id = k
    · subst hk
      rw [hself, hw, h'.labels]
    · rw [hother _ hk, h.labels]

theorem Frame.writeAll {ws : List (Write Row)} (h : Frame keep d₀ d)
    (hws : ∀ w ∈ ws, Apart keep d w) : Frame keep d₀ (d.writeAll ws) := by
  have hall : ∀ d', Frame keep d₀ d' → Frame keep d₀ (d'.writeAll ws) := by
    induction ws with
    | nil => exact fun d' h' => h'
    | cons w ws ih =>
      intro d' h'
      rw [Database.writeAll_cons]
      refine ih (fun w' hw' => hws w' (List.mem_cons_of_mem _ hw')) _ ?_
      exact h'.write h (hws w List.mem_cons_self)
  exact hall d h

theorem Frame.filterMap_keys {β : Type} (h : Frame keep d₀ d) {f g : Key → Option β}
    (hold : ∀ k ∈ d₀.keys, f k = g k) (hnew : ∀ k ∉ d₀.keys, f k = none) :
    d.keys.filterMap f = d₀.keys.filterMap g := by
  obtain ⟨new, hkeys, hfresh⟩ := h.keys
  have hnil : new.filterMap f = [] := List.filterMap_eq_nil_iff.2 fun k hk => hnew k (hfresh k hk)
  rw [hkeys, List.filterMap_append, hnil, List.append_nil]
  exact List.filterMap_congr hold

variable (hcover : ∀ k ∉ d₀.keys, d₀.row k = none)
include hcover

theorem Frame.executorNodes_eq (h : Frame keep d₀ d) : executorNodes d = executorNodes d₀ := by
  refine h.filterMap_keys (fun k _ => ?_) fun k hk => ?_
  · cases k with
    | executorNode g n => exact h.nodes g n
    | _ => rfl
  · cases k with
    | executorNode g n => exact (h.nodes g n).trans (hcover _ hk)
    | _ => rfl

theorem Frame.runs_filter (h : Frame keep d₀ d) :
    (runs d).filter keep = (runs d₀).filter keep := by
  unfold runs
  rw [List.filter_filterMap, List.filter_filterMap]
  refine h.filterMap_keys (fun k _ => ?_) fun k hk => ?_
  · cases k with
    | run id => exact h.kept id
    | _ => rfl
  · cases k with
    | run id => exact (h.kept id).trans (by rw [hcover _ hk]; rfl)
    | _ => rfl

end Frame

section Failing

def plannedShards (now : Int) (jobID : ℕ) (groupID : Option ℕ) (d : Db) : List BroadcastShard :=
  planBroadcastShards (filterExecutorNodes (liveExecutorNodes now groupID d)
    (jobExecutorLabels jobID d).1 (jobExecutorLabels jobID d).2)

def blockAction (b : Job) (d : Db) : BlockAction :=
  decideBlockAction b.overlapPolicy (hasActiveRun b.id d)

/-- Why the processing of a due job returns an error, at a reading of the Core's clock. -/
inductive Failing (env : Env) (now : Int) (d : Db) (b : Job) (goNow : Int) : Prop where
  | headers {e : StoreError} (h : scanJob env b = .error e)
  | schedule {first : Int} {e : ScheduleError} (hfirst : b.nextRunAt = some first)
      (h : due env.calendar b.scheduleType b.scheduleExpression b.timezone b.misfirePolicy first
        goNow b.maxCatchUp = .error e)
  | broadcast {first at_ next_ : Int} {times : List Int} (hfirst : b.nextRunAt = some first)
      (hdue : due env.calendar b.scheduleType b.scheduleExpression b.timezone b.misfirePolicy
        first goNow b.maxCatchUp = .ok (at_ :: times, next_))
      (hroute : routeStrategy d b.executorGroupID = some .shardingBroadcast)
      (hnodes : plannedShards now b.id b.executorGroupID d = [])
      (hadmitted : ¬(blockAction b d = .skip ∨
        blockAction b d = .enqueue ∧ b.maxQueueSize ≤ pendingCount b.id d))

variable {env : Env} {now : Int} {d₀ d : Db} {b : Job}

def ofJob (jobID : ℕ) (r : Run) : Bool := r.jobID == jobID

section Reads

variable (hcover : ∀ k ∉ d₀.keys, d₀.row k = none)
include hcover

theorem Frame.jobRunQueueState_eq {jobID : ℕ} (h : Frame (ofJob jobID) d₀ d) :
    jobRunQueueState jobID d = jobRunQueueState jobID d₀ := by
  have hruns := h.runs_filter hcover
  have hpending : ∀ e : Db, pendingCount jobID e =
      ((runs e).filter (ofJob jobID)).countP fun r => r.status == .pending := by
    intro e
    rw [List.countP_filter]
    exact List.countP_congr fun r _ => by simp [ofJob, and_comm]
  have hactive : ∀ e : Db, hasActiveRun jobID e =
      ((runs e).filter (ofJob jobID)).any fun r => r.status.active := by
    intro e
    rw [List.any_filter]
    rfl
  rw [jobRunQueueState, jobRunQueueState, hpending, hpending, hactive, hactive, hruns]

theorem Frame.plannedShards_eq {keep : Run → Bool} (h : Frame keep d₀ d) (now : Int) (jobID : ℕ)
    (groupID : Option ℕ) :
    plannedShards now jobID groupID d = plannedShards now jobID groupID d₀ := by
  have hlabels : ∀ e : Db, jobExecutorLabels jobID e =
      ((e.row (.job jobID)).map Job.labels).getD ([], []) := by
    intro e
    unfold jobExecutorLabels
    cases e.row (.job jobID) <;> rfl
  unfold plannedShards liveExecutorNodes
  rw [hlabels, hlabels, h.labels, h.executorNodes_eq hcover]

end Reads

theorem frame_alone {α : Type} {keep : Run → Bool} {p : Tx α} {Q : α → Prop}
    (hp : p.Effect (Apart keep) Q) {inps rest : List (Input Key)} {d' : Db} {a : α}
    (hd : Frame keep d₀ d) (h : p.alone inps d = some (.ok a, rest, d')) :
    Frame keep d₀ d' ∧ Q a :=
  hp.alone (fun _ _ hf hws => hf.writeAll hws) hd h

theorem Frame.forget {keep : Run → Bool} (h : Frame keep d₀ d) : Frame (fun _ => false) d₀ d := by
  refine ⟨h.keys, fun id => ?_, h.nodes, h.labels⟩
  cases d.row (.run id) <;> cases d₀.row (.run id) <;> rfl

theorem planShards_alone {jobID : ℕ} {groupID : Option ℕ} {inps rest : List (Input Key)} {d' : Db}
    {shards : List BroadcastShard}
    (h : (planShards now jobID groupID).alone inps d = some (.ok shards, rest, d')) :
    shards = plannedShards now jobID groupID d ∧ d' = d := by
  obtain ⟨nodes, mid, d₁, hread, h⟩ := Program.alone_bind_ok h
  obtain ⟨hnodes, rfl⟩ := Program.alone_select hread
  cases hnodes
  obtain ⟨labels, mid₂, d₂, hread, h⟩ := Program.alone_bind_ok h
  obtain ⟨hlabels, rfl⟩ := Program.alone_select hread
  cases hlabels
  cases h
  exact ⟨rfl, rfl⟩

theorem enqueueOccurrence_fails (hcover : ∀ k ∉ d₀.keys, d₀.row k = none)
    (hd : Frame (ofJob b.id) d₀ d) (hnodes : plannedShards now b.id b.executorGroupID d₀ = [])
    (hadmitted : ¬(blockAction b d₀ = .skip ∨
      blockAction b d₀ = .enqueue ∧ b.maxQueueSize ≤ pendingCount b.id d₀))
    {goNow next_ at_ a : Int} {inps rest : List (Input Key)} {d' : Db} :
    (enqueueOccurrence env now b (some .shardingBroadcast) goNow next_ at_).alone inps d ≠
      some (.ok a, rest, d') := by
  intro h
  obtain ⟨state, mid, d₁, hstate, h⟩ := Program.alone_bind_ok h
  obtain ⟨hstate, rfl⟩ := Program.alone_select hstate
  cases hstate
  obtain ⟨action, mid₂, d₂, haction, h⟩ := Program.alone_bind_ok h
  obtain ⟨hframe, rfl⟩ := frame_alone
    (applyBlockAction_holds (apart_covers fun _ _ => rfl) rfl _) hd.forget haction
  have hsame := hd.jobRunQueueState_eq hcover
  have hpending : pendingCount b.id d₁ = pendingCount b.id d₀ := congrArg Prod.fst hsame
  have hactive : hasActiveRun b.id d₁ = hasActiveRun b.id d₀ := congrArg Prod.snd hsame
  simp only [hpending, hactive] at h
  rw [blockAction] at hadmitted
  rw [if_neg hadmitted, if_pos trivial] at h
  -- the shards are planned from the nodes of the state before
  obtain ⟨shards, mid₃, d₃, hplan, h⟩ := Program.alone_bind_ok h
  obtain ⟨rfl, rfl⟩ := planShards_alone hplan
  rw [if_pos ((hframe.plannedShards_eq hcover now _ _).trans hnodes)] at h
  cases h

theorem enqueueJob_fails (hcover : ∀ k ∉ d₀.keys, d₀.row k = none)
    (hd : Frame (ofJob b.id) d₀ d) {inps rest : List (Input Key)} {d' : Db}
    {batch batch' : List BatchItem} {first : Int} (hfirst : b.nextRunAt = some first)
    (hscan : scanJob env b = .ok b) (hfail : ∀ inp ∈ inps, Failing env now d₀ b inp.reading) :
    (enqueueJob env now batch (b, routeStrategy d₀ b.executorGroupID)).alone inps d ≠
      some (.ok batch', rest, d') := by
  intro h
  unfold enqueueJob at h
  simp only [hfirst] at h
  obtain ⟨goNow, mid, d₁, hclock, h⟩ := Program.alone_bind_ok h
  obtain ⟨rfl, inp, hinp, rfl⟩ := Program.alone_clock hclock
  cases hfail inp hinp with
  | headers he => simp [hscan] at he
  | schedule hfirst' he =>
    obtain rfl : first = _ := Option.some.inj (hfirst.symm.trans hfirst')
    rw [he] at h
    cases h
  | broadcast hfirst' hdue hroute hnodes hadmitted =>
    obtain rfl : first = _ := Option.some.inj (hfirst.symm.trans hfirst')
    rw [hdue] at h
    dsimp only at h
    rw [hroute, if_neg (fun hfast => hfast.2 rfl)] at h
    obtain ⟨next', mid₂, d₂, hloop, h⟩ := Program.alone_bind_ok h
    obtain ⟨next'', mid₃, d₃, hstep, hloop⟩ := Program.alone_bind_ok hloop
    exact enqueueOccurrence_fails hcover hd hnodes hadmitted hstep

/-- Jobs before the failing one leave it as it was, so the loop over the jobs never ends
well. -/
theorem enqueueJobs_fail (hcover : ∀ k ∉ d₀.keys, d₀.row k = none) {js : List Job}
    (hb : b ∈ js) (hids : ∀ j ∈ js, j.id = b.id → j = b) (hd : Frame (ofJob b.id) d₀ d)
    {inps rest : List (Input Key)} {d' : Db} {batch batch' : List BatchItem} {first : Int}
    (hfirst : b.nextRunAt = some first) (hscan : scanJob env b = .ok b)
    (hfail : ∀ inp ∈ inps, Failing env now d₀ b inp.reading) :
    (Program.foldEach (js.map fun j => (j, routeStrategy d₀ j.executorGroupID)) batch
      (enqueueJob env now)).alone inps d ≠ some (.ok batch', rest, d') := by
  induction js generalizing d inps batch with
  | nil => cases hb
  | cons j js ih =>
    intro h
    obtain ⟨batch₁, mid, d₁, hhead, h⟩ := Program.alone_bind_ok h
    by_cases hj : j = b
    · subst hj
      exact enqueueJob_fails hcover hd hfirst hscan hfail hhead
    · have hne : j.id ≠ b.id := fun he => hj (hids j List.mem_cons_self he)
      have hkeep : ∀ r : Run, r.jobID = j.id → ofJob b.id r = false := fun r hr => by
        simp [ofJob, hr, hne]
      have hmid := (Program.alone_suffix hhead).subset
      refine ih ?_ (fun j' hj' => hids j' (List.mem_cons_of_mem _ hj')) ?_ ?_ h
      · exact (List.mem_cons.1 hb).resolve_left (Ne.symm hj)
      · exact (frame_alone (enqueueJob_holds apart_allows.toAllowsRuns (apart_covers hkeep) rfl
          (fun r hr _ => unkept_of hkeep r hr) batch _) hd hhead).1
      · exact fun inp hinp => hfail inp (hmid hinp)

end Failing

section Tick

structure WellFormed (d : Db) : Prop where
  nodup : d.keys.Nodup
  absent : ∀ k ∉ d.keys, d.row k = none
  keyed : Keyed d.row

/-- A due job among fewer than a batch whose processing returns an error whenever this
transaction comes to it. No row is locked by another Core. -/
structure FailingDue (env : Env) (c : TickCall) (d : Db) (b : Job) : Prop where
  job : b ∈ jobs d
  due : isDue d.clock b = true
  few : (dueJobs d.clock d).length < enqueueBatchSize
  unlocked : ∀ inp ∈ c.enqueue, inp.skip = []
  failing : ∀ inp ∈ c.enqueue, Failing env d.clock d b inp.reading

variable {env : Env} {c : TickCall} {d d' : Db} {b : Job}

theorem scan_of_mapM {js due : List Job} (h : js.mapM (scanJob env) = .ok due) (hb : b ∈ js) :
    scanJob env b = .ok b := by
  induction js generalizing due with
  | nil => cases hb
  | cons j js ih =>
    rw [List.mapM_cons] at h
    obtain ⟨j', hj, h⟩ := Fallible.exists_of_bind_ok h
    obtain ⟨js', hjs, _⟩ := Fallible.exists_of_bind_ok h
    rcases List.mem_cons.1 hb with rfl | hb
    · rw [hj, scanJob_eq hj]
    · exact ih hjs hb

theorem enqueueDue_fails (hd : WellFormed d) (hb : FailingDue env c d b)
    {rest : List (Input Key)} :
    (enqueueDue env d.clock enqueueBatchSize).alone c.enqueue d ≠ some (.ok (), rest, d') := by
  intro h
  obtain ⟨rows, mid, d₁, hlock, h⟩ := Program.alone_bind_ok h
  have hmid := (Program.alone_suffix hlock).subset
  obtain ⟨inp, hinp, locked, hlocked, rfl, hd₁⟩ := Program.alone_skipLocked hlock
  obtain rfl : locked = dueJobs d.clock d := by
    rw [hlocked, hb.unlocked inp hinp]
    simp only [List.contains_nil, Bool.not_false, List.filter_true]
    exact List.take_of_length_le (by have := hb.few; omega)
  set js := (dueJobs d.clock d).map Prod.snd with hjs
  have hmem : b ∈ js := by
    simp only [hjs, dueJobs, List.map_map, List.mem_map, List.mem_insertionSort, List.mem_filter]
    exact ⟨b, ⟨hb.job, hb.due⟩, rfl⟩
  have hrow : ∀ j ∈ js, d.row (.job j.id) = some j := by
    intro j hj
    obtain ⟨x, hx, rfl⟩ := List.mem_map.1 hj
    exact (mem_dueJobs hd.keyed hx).2.1
  have hids : ∀ j ∈ js, j.id = b.id → j = b := fun j hj he =>
    Option.some.inj ((hrow j hj).symm.trans (he ▸ hrow b hmem))
  have hsame : d₁.row = d.row := by rw [hd₁, Database.writeAll_lockWrites]
  have hframe : Frame (ofJob b.id) d d₁ := by
    rw [hd₁]
    refine (Frame.refl _ d).writeAll fun w hw => ?_
    obtain ⟨k, _, rfl⟩ := List.mem_map.1 hw
    exact apart_allows.same d k
  -- the rows are decoded
  obtain ⟨due, mid₂, d₂, hscan, h⟩ := Program.alone_bind_ok h
  cases hdecode : js.mapM (scanJob env) with
  | error e =>
    rw [hdecode] at hscan
    cases hscan
  | ok due' =>
    rw [hdecode] at hscan
    cases hscan
    have hdecoded := scan_of_mapM hdecode hmem
    obtain rfl := scanJobs_eq hdecode
    -- the strategies of their groups are read
    obtain ⟨strategies, mid₃, d₃, hread, h⟩ := Program.alone_bind_ok h
    obtain ⟨hstrategies, rfl⟩ := Program.alone_select hread
    cases hstrategies
    cases hroutes : executorRouteStrategies js d₃ with
    | none =>
      rw [hroutes] at h
      cases h
    | some routes =>
      rw [hroutes] at h
      obtain ⟨batch, mid₄, d₄, hloop, h⟩ := Program.alone_bind_ok h
      have hroute : (fun j : Job => routeStrategy d₃ j.executorGroupID) =
          fun j : Job => routeStrategy d j.executorGroupID := by
        funext j
        simp only [routeStrategy, hsame]
      rw [executorRouteStrategies_eq hroutes, hroute, zip_map_self] at hloop
      obtain ⟨first, hfirst⟩ : ∃ first, b.nextRunAt = some first := by
        have hdue := hb.due
        cases hnext : b.nextRunAt with
        | none => simp [isDue, hnext] at hdue
        | some first => exact ⟨first, rfl⟩
      refine enqueueJobs_fail hd.absent hmem hids hframe hfirst hdecoded (fun inp hinp => ?_) hloop
      exact hb.failing inp (hmid ((Program.alone_suffix hread).subset hinp))

theorem tick_fails (hd : WellFormed d) (hb : FailingDue env c d b)
    {res : Except StoreError (List ClaimedRun)} (h : tick env c d = some (res, d')) :
    (∃ e, res = .error e) ∧ d'.row = d.row := by
  obtain ⟨⟨res₁, d₁⟩, hfirst, h⟩ := Option.bind_eq_some_iff.1 h
  obtain ⟨⟨e, rfl⟩, hrow⟩ :=
    Program.transact_of_fails (fun _ _ _ => enqueueDue_fails hd hb) hfirst
  cases h
  exact ⟨⟨e, rfl⟩, hrow⟩

def Enqueued (d d' : Db) (jobID : ℕ) : Prop :=
  ∃ id r, d.row (.run id) = none ∧ d'.row (.run id) = some r ∧ r.jobID = jobID ∧
    r.triggerType = .schedule

def ClaimedPending (d d' : Db) (id : ℕ) : Prop :=
  (d.row (.run id)).map Run.status = some .pending ∧
    (d'.row (.run id)).map Run.status = some .running

def without (d : Db) (jobID : ℕ) : Db :=
  { d with row := Function.update d.row (.job jobID) none }

/-- Two ticks, without and with the job: what the first does for others the second does. -/
def TickIsolated (env : Env) (c c' : TickCall) (d : Db) (b : Job) : Prop :=
  ∀ res₁ d₁ res₂ d₂, tick env c (without d b.id) = some (res₁, d₁) →
    tick env c' d = some (res₂, d₂) →
      (∀ a, a ≠ b.id → Enqueued (without d b.id) d₁ a → Enqueued d d₂ a) ∧
        ∀ id, ClaimedPending (without d b.id) d₁ id → ClaimedPending d d₂ id

/-- What the tick does without a failing job it does not do with it: no other job is
enqueued and no run is claimed. -/
theorem tick_not_isolated (env : Env) (c c' : TickCall) (d : Db) (b : Job) (hd : WellFormed d)
    (hb : FailingDue env c' d b) (res₁ : Except StoreError (List ClaimedRun)) (d₁ : Db)
    (res₂ : Except StoreError (List ClaimedRun)) (d₂ : Db)
    (habsent : tick env c (without d b.id) = some (res₁, d₁))
    (hpresent : tick env c' d = some (res₂, d₂)) :
    (∀ a, a ≠ b.id → Enqueued (without d b.id) d₁ a → ¬Enqueued d d₂ a ∧
        ¬TickIsolated env c c' d b) ∧
      ∀ id, ClaimedPending (without d b.id) d₁ id → ¬ClaimedPending d d₂ id ∧
        ¬TickIsolated env c c' d b := by
  obtain ⟨_, hrow⟩ := tick_fails hd hb hpresent
  have henqueued : ∀ a, ¬Enqueued d d₂ a := by
    rintro a ⟨id, r, hnone, hsome, _⟩
    rw [hrow, hnone] at hsome
    cases hsome
  have hclaimed : ∀ id, ¬ClaimedPending d d₂ id := by
    rintro id ⟨hpending, hrunning⟩
    rw [hrow, hpending] at hrunning
    cases hrunning
  refine ⟨fun a ha h => ⟨henqueued a, fun hiso => ?_⟩, fun id h => ⟨hclaimed id, fun hiso => ?_⟩⟩
  · exact henqueued a ((hiso res₁ d₁ res₂ d₂ habsent hpresent).1 a ha h)
  · exact hclaimed id ((hiso res₁ d₁ res₂ d₂ habsent hpresent).2 id h)

def minuteJob (id : ℕ) : Job :=
  { plainJob with id := id, nextRunAt := some 0 }

def nodelessJob : Job := { minuteJob 2 with executorGroupID := some 7 }

def sharedRow : (k : Key) → Option (Row k)
  | .tenant id => if id = 1 then some ⟨10⟩ else none
  | .executorGroup id => if id = 7 then some ⟨.shardingBroadcast⟩ else none
  | .job id => if id = 1 then some (minuteJob 1) else if id = 2 then some nodelessJob else none
  | .run id => if id = 3 then some (manualRun 0 ⟨1, 1, "", "", []⟩ 3 0 .pending) else none
  | _ => none

theorem sharedRow_job {id : ℕ} {j : Job} (h : sharedRow (.job id) = some j) :
    id = 1 ∧ j = minuteJob 1 ∨ id = 2 ∧ j = nodelessJob := by
  simp only [sharedRow] at h
  split_ifs at h
  all_goals simp_all

def sharedDb : Db := ⟨[.tenant 1, .executorGroup 7, .job 1, .job 2, .run 3], sharedRow, 1000⟩

def sharedCall : TickCall where
  owner := "core"
  slots := 5
  enqueue := (List.range 40).map fun i => ⟨1000, 100 + i, []⟩
  expire := (List.range 40).map fun i => ⟨1000, 200 + i, []⟩
  claim := (List.range 40).map fun i => ⟨1000, 300 + i, []⟩
  pause₁ := 0
  pause₂ := 0

theorem shared_wellFormed : WellFormed sharedDb where
  nodup := by decide
  absent := by
    intro k hk
    show sharedRow k = none
    unfold sharedRow
    split
    all_goals first | rfl | (split_ifs <;> simp_all [sharedDb])
  keyed := by
    constructor
    · intro id r h
      obtain ⟨rfl, ⟨⟩⟩ := Option.ite_none_right_eq_some.1 h
      rfl
    · intro id j h
      obtain ⟨rfl, rfl⟩ | ⟨rfl, rfl⟩ := sharedRow_job h
      all_goals rfl
    · intro p c e h
      cases h
    · intro id kc h
      cases h

theorem shared_failing : FailingDue plainEnv sharedCall sharedDb nodelessJob where
  job := List.mem_filterMap.2 ⟨.job 2, by decide, rfl⟩
  due := by decide +kernel
  few := by decide +kernel
  unlocked := by
    intro inp hinp
    obtain ⟨i, _, rfl⟩ := List.mem_map.1 hinp
    rfl
  failing := by
    intro inp hinp
    obtain ⟨i, _, rfl⟩ := List.mem_map.1 hinp
    show Failing plainEnv 1000 sharedDb nodelessJob 1000
    have hdue : Schedule.due plainEnv.calendar nodelessJob.scheduleType
        nodelessJob.scheduleExpression nodelessJob.timezone nodelessJob.misfirePolicy 0 1000
        nodelessJob.maxCatchUp = .ok ([0], 60000000000) := by decide +kernel
    exact .broadcast rfl hdue (by decide +kernel) (by decide +kernel) (by decide +kernel)

theorem shared_absent : ∃ res d₁, tick plainEnv sharedCall (without sharedDb 2) = some (res, d₁) ∧
    Enqueued (without sharedDb 2) d₁ 1 ∧ ClaimedPending (without sharedDb 2) d₁ 3 := by
  have htick : (tick plainEnv sharedCall (without sharedDb 2)).map (fun x =>
      ((x.2.row (.run 104)).map fun r => (r.jobID, r.triggerType),
        (x.2.row (.run 3)).map Run.status)) = some (some (1, .schedule), some .running) := by
    decide +kernel
  obtain ⟨⟨res, d₁⟩, heq, hrows⟩ := Option.map_eq_some_iff.1 htick
  obtain ⟨hnew, hclaimed⟩ := Prod.mk.inj hrows
  obtain ⟨r, hr, hjob⟩ := Option.map_eq_some_iff.1 hnew
  obtain ⟨hid, htype⟩ := Prod.mk.inj hjob
  exact ⟨res, d₁, heq, ⟨104, r, rfl, hr, hid, htype⟩, by decide +kernel, hclaimed⟩

theorem shared_present : ∃ res d₂, tick plainEnv sharedCall sharedDb = some (res, d₂) := by
  have htick : (tick plainEnv sharedCall sharedDb).isSome = true := by decide +kernel
  obtain ⟨⟨res, d₂⟩, heq⟩ := Option.isSome_iff_exists.1 htick
  exact ⟨res, d₂, heq⟩

/-- The broadcast job without a node holds the minute job and its pending run back. -/
theorem tick_isolated_false : ¬∀ (env : Env) (c c' : TickCall) (d : Db) (b : Job),
    WellFormed d → FailingDue env c' d b → TickIsolated env c c' d b := by
  intro hall
  have hiso := hall plainEnv sharedCall sharedCall sharedDb nodelessJob shared_wellFormed
    shared_failing
  obtain ⟨res₁, d₁, habsent, _, hclaimed⟩ := shared_absent
  obtain ⟨res₂, d₂, hpresent⟩ := shared_present
  obtain ⟨_, hrow⟩ := tick_fails shared_wellFormed shared_failing hpresent
  obtain ⟨hpending, hrunning⟩ := (hiso res₁ d₁ res₂ d₂ habsent hpresent).2 3 hclaimed
  rw [hrow, hpending] at hrunning
  cases hrunning

theorem tick_not_isolated_shared : ∃ res₁ d₁ res₂ d₂,
    tick plainEnv sharedCall (without sharedDb 2) = some (res₁, d₁) ∧
      tick plainEnv sharedCall sharedDb = some (res₂, d₂) ∧
        (Enqueued (without sharedDb 2) d₁ 1 ∧ ¬Enqueued sharedDb d₂ 1) ∧
          ClaimedPending (without sharedDb 2) d₁ 3 ∧ ¬ClaimedPending sharedDb d₂ 3 := by
  obtain ⟨res₁, d₁, habsent, henqueued, hclaimed⟩ := shared_absent
  obtain ⟨res₂, d₂, hpresent⟩ := shared_present
  have h := tick_not_isolated plainEnv sharedCall sharedCall sharedDb nodelessJob
    shared_wellFormed shared_failing res₁ d₁ res₂ d₂ habsent hpresent
  exact ⟨res₁, d₁, res₂, d₂, habsent, hpresent, ⟨henqueued, (h.1 1 (by decide) henqueued).1⟩,
    hclaimed, (h.2 3 hclaimed).1⟩

end Tick

end GoScheduler.Store
