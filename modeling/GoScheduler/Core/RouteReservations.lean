import GoScheduler.Core.Routing
import GoScheduler.ReadCommitted.History

/-! Reservations of many Cores at once. A reservation is the transaction of
`ReserveExecutorRoute` with the selector of `routeClaimedExecutor`; it takes the counter of its
job and holds it until it ends, so that the committed reservations of a job are calls of
`reserveExecutorRoute` one after the other. -/
namespace GoScheduler.Core
open Store Schedule ReadCommitted Fallible
open ReadCommitted.Program (exec)

inductive RouteKey where
  | counter (jobID : ℕ)  -- A row of `executor_job_route_counters`.
  -- A row of `executor_job_route_state`.
  | use (jobID : ℕ) (nodeID : String)
deriving DecidableEq

abbrev RouteRow : RouteKey → Type
  | .counter _ => Int
  | .use _ _ => RouteUse

abbrev RouteDb : Type := Database RouteKey RouteRow

/-- One call: which it is, when its transaction starts, the number it draws, and the claimed
run with the labels loaded for it. -/
structure Reservation where
  serial : ℕ
  now : Int
  random : ℕ
  claimed : ClaimedRun
  labels : List String × List String
deriving DecidableEq

namespace Reservation

def tenantID (t : Reservation) : ℕ := t.claimed.job.tenantID
def groupID (t : Reservation) : Option ℕ := t.claimed.job.executorGroupID
def jobID (t : Reservation) : ℕ := t.claimed.job.id

def selector (env : RouteEnv) (t : Reservation) :
    ExecutorRoutingSnapshot → Except RouteError ExecutorNode :=
  selectReserved { env with random := t.random } t.claimed t.labels

end Reservation

def usesOf (jobID : ℕ) (d : RouteDb) (n : ExecutorNode) : Option RouteUse :=
  (d.row (.use jobID n.nodeID)).filter fun u => u.groupID == n.groupID

/-- The transaction of `ReserveExecutorRoute`. The groups, jobs and nodes it reads are those of
`d`, which the reservations do not write. -/
def reserveTransaction (env : RouteEnv) (d : Db) (t : Reservation) :
    Program RouteKey RouteRow RouteError ExecutorNode :=
  match executorRouteStrategy d t.tenantID t.groupID t.jobID with
  | none => .fail .notFound
  | some strategy => do
      exec (.upsert (.counter t.jobID) (0 : Int) (· + 1))
      -- `RETURNING` is the row just written.
      let cursor ← exec (.select fun rows => rows.row (.counter t.jobID))
      let uses ← exec (.select (usesOf t.jobID))
      match t.selector env ⟨strategy, cursor.getD 0, routableNodes t.now t.groupID d, uses⟩ with
      | .error e => .fail e
      | .ok selected => do
          exec (.upsert (.use t.jobID selected.nodeID) (.next (t.groupID.getD 0) t.now none)
            fun use => .next (t.groupID.getD 0) t.now (some use))
          return selected

def routeTables (d : RouteDb) : RouteTables :=
  ⟨fun job => d.row (.counter job), fun job node => d.row (.use job node), fun _ _ => none⟩

@[simp] theorem routeTables_counters (d : RouteDb) (job : ℕ) :
    (routeTables d).counters job = d.row (.counter job) := rfl

@[simp] theorem routeTables_uses (d : RouteDb) (job : ℕ) (node : String) :
    (routeTables d).uses job node = d.row (.use job node) := rfl

def eligibleNodes (d : Db) (t : Reservation) : List ExecutorNode :=
  filterExecutorNodes (routableNodes t.now t.groupID d) t.labels.1 t.labels.2

/-- Reservations while the nodes `ids` are the eligible ones of one job, which belongs to one
group with one strategy. Every reservation reads the registry as it stands for it. -/
structure RouteSetting where
  env : RouteEnv
  registry : Reservation → Db
  jobID : ℕ
  groupID : ℕ
  strategy : RouteStrategy
  ids : List String
  nodup : ids.Nodup

namespace RouteSetting

def Admits (c : RouteSetting) (t : Reservation) : Prop :=
  t.claimed.run.overrideAddresses = [] ∧ (t.jobID = c.jobID → t.groupID = some c.groupID ∧
    executorRouteStrategy (c.registry t) t.tenantID t.groupID t.jobID = some c.strategy ∧
    ((eligibleNodes (c.registry t) t).map ExecutorNode.nodeID).Perm c.ids)

instance (c : RouteSetting) (t : Reservation) : Decidable (c.Admits t) :=
  inferInstanceAs (Decidable (_ ∧ (_ → _ ∧ _ ∧ _)))

def system (c : RouteSetting) : System Reservation RouteKey RouteRow RouteError ExecutorNode where
  program t := reserveTransaction c.env (c.registry t) t
  admissible d t := decide (t.now = d.clock ∧ c.Admits t)

def Reserves (c : RouteSetting) (t : Reservation) (n : ExecutorNode) (d d' : RouteDb) : Prop :=
  reserveExecutorRoute t.now (c.registry t) (routeTables d) t.tenantID t.groupID t.jobID
    (t.selector c.env) = .ok (n, routeTables d')

/-! Who writes uses of a job holds its counter. -/

def discipline (start : Int) : Discipline Reservation RouteKey RouteRow where
  inv d := start ≤ d.clock
  guarantee _ _ o := ∀ job node, o (.use job node) ≠ none → o (.counter job) ≠ none
  pair _ _ _ _ := True
  alone _ _ _ := True
  reading _ _ _ := True
  inv_addKey _ h := h
  inv_advance n h := h.trans (Int.le_add_of_nonneg_right (Int.natCast_nonneg n))
  inv_commit h _ _ := h

variable {c : RouteSetting} {start : Int} {t : Reservation} {o : Overlay RouteRow}
  {d d' : RouteDb} {job : ℕ} {n : ExecutorNode}

theorem routes_eq (h : (discipline start).Hop t o d d') (hk : o (.counter job) ≠ none) :
    d'.row (.counter job) = d.row (.counter job) ∧
      ∀ node, d'.row (.use job node) = d.row (.use job node) := by
  refine ⟨h.row_eq hk, fun node => ?_⟩
  cases h.interferes with
  | @commit t' o' _ hd _ _ hg =>
    have hfree : o' (.counter job) = none := (hd (.counter job)).resolve_left hk
    refine Database.overlay_row_free ?_
    by_contra hheld
    exact hg job node hheld hfree
  | grow ws => rw [Database.addKeys_row]
  | tick k => rfl

def Counted (t : Reservation) (o : Overlay RouteRow) (d : RouteDb) : Prop :=
  o = Overlay.empty.write d (.counter t.jobID) (some ((routeTables d).count t.jobID))

/-- The end of a reservation: the node is the selector's answer to the rows of the job, its use
is counted, and nothing else is held. -/
def Selected (c : RouteSetting) (start : Int) (t : Reservation) (n : ExecutorNode)
    (o : Overlay RouteRow) (d : RouteDb) : Prop :=
  ∃ strategy, executorRouteStrategy (c.registry t) t.tenantID t.groupID t.jobID = some strategy ∧
    t.selector c.env ⟨strategy, (routeTables d).count t.jobID,
      routableNodes t.now t.groupID (c.registry t), usesOf t.jobID d⟩ = .ok n ∧
    o = (Overlay.empty.write d (.counter t.jobID) (some ((routeTables d).count t.jobID))).write d
      (.use t.jobID n.nodeID)
      (some (.next (t.groupID.getD 0) t.now (d.row (.use t.jobID n.nodeID)))) ∧
    start ≤ t.now ∧ c.Admits t

theorem Counted.held (h : Counted t o d) : o (.counter t.jobID) ≠ none := by
  rw [h, Overlay.write_self]
  exact Option.some_ne_none _

theorem Counted.free (h : Counted t o d) {k : RouteKey} (hk : k ≠ .counter t.jobID) :
    o k = none := by
  rw [h, Overlay.write_ne hk, Overlay.empty_apply]

theorem Selected.held (h : Selected c start t n o d) : o (.counter t.jobID) ≠ none := by
  obtain ⟨strategy, -, -, ho, -⟩ := h
  rw [ho, Overlay.write_ne (by simp), Overlay.write_self]
  exact Option.some_ne_none _

theorem usesOf_congr (huse : ∀ node, d'.row (.use job node) = d.row (.use job node)) :
    usesOf job d' = usesOf job d := by
  funext n
  unfold usesOf
  rw [huse]

theorem count_congr (hcounter : d'.row (.counter job) = d.row (.counter job)) :
    (routeTables d').count job = (routeTables d).count job := by
  unfold RouteTables.count
  exact congrArg (fun row : Option Int => row.elim 0 (· + 1)) hcounter

theorem write_congr {k : RouteKey} (h : d'.row k = d.row k) (v : Option (RouteRow k)) :
    o.write d' k v = o.write d k v := by
  unfold Overlay.write
  rw [h]

theorem counted_stable : (discipline start).Stable t (Counted t) := by
  intro o d d' hop h
  obtain ⟨hcounter, -⟩ := routes_eq hop h.held
  unfold Counted at h ⊢
  rw [h, count_congr hcounter, write_congr hcounter]

theorem cursor_stable (cursor : Option Int) : (discipline start).Stable t fun o d =>
    Counted t o d ∧ cursor = some ((routeTables d).count t.jobID) := by
  rintro o d d' hop ⟨h, rfl⟩
  exact ⟨counted_stable o d d' hop h, by rw [count_congr (routes_eq hop h.held).1]⟩

theorem uses_stable (uses : ExecutorNode → Option RouteUse) : (discipline start).Stable t fun o d =>
    Counted t o d ∧ uses = usesOf t.jobID d := by
  rintro o d d' hop ⟨h, rfl⟩
  exact ⟨counted_stable o d d' hop h, (usesOf_congr (routes_eq hop h.held).2).symm⟩

theorem selected_stable : (discipline start).Stable t (Selected c start t n) := by
  intro o d d' hop h
  obtain ⟨hcounter, huse⟩ := routes_eq hop h.held
  obtain ⟨strategy, hstrategy, hselect, ho, hadmits⟩ := h
  refine ⟨strategy, hstrategy, ?_, ?_, hadmits⟩
  · rw [count_congr hcounter, usesOf_congr huse]
    exact hselect
  · rw [ho, count_congr hcounter, huse, write_congr hcounter, write_congr (huse _)]

theorem reserveTransaction_selected (hstart : start ≤ t.now) (hadmits : c.Admits t) :
    (discipline start).Triple t (fun o _ => o = Overlay.empty)
      (reserveTransaction c.env (c.registry t) t) (Selected c start t) := by
  unfold reserveTransaction
  cases hstrategy : executorRouteStrategy (c.registry t) t.tenantID t.groupID t.jobID with
  | none => exact .fail
  | some strategy =>
    refine .bind (Q := fun _ => Counted t) (.upsert (.overlay _) ?_) fun _ => ?_
    · rintro o d w - - rfl rfl -
      show Overlay.write _ _ _ _ = Overlay.write _ _ _ _
      rw [Database.overlay_empty]
      rfl
    refine .bind (Q := fun cursor o d => Counted t o d ∧
      cursor = some ((routeTables d).count t.jobID)) (.select counted_stable ?_) fun cursor => ?_
    · intro o d _ _ _ h
      refine ⟨h, ?_⟩
      rw [h, Database.overlay_write_self]
    refine .bind
      (Q := fun uses o d => (Counted t o d ∧ cursor = some ((routeTables d).count t.jobID)) ∧
      Counted t o d ∧ uses = usesOf t.jobID d) (.select (cursor_stable cursor) ?_) fun uses => ?_
    · intro o d _ _ _ h
      refine ⟨h, h.1, usesOf_congr fun node => ?_⟩
      exact Database.overlay_row_free (h.1.free (by simp))
    split
    · exact .fail
    next selected hselect =>
    refine .bind (Q := fun _ => Selected c start t selected)
      (.upsert ((cursor_stable cursor).and (uses_stable uses)) ?_) fun _ => .pure fun _ _ _ _ h => h
    rintro o d w - - ⟨⟨h, rfl⟩, -, rfl⟩ hw -
    refine ⟨strategy, hstrategy, hselect, ?_, hstart, hadmits⟩
    have hnext : w = .next (t.groupID.getD 0) t.now (d.row (.use t.jobID selected.nodeID)) := by
      rw [hw, Database.overlay_row_free (h.free (by simp))]
      cases d.row (.use t.jobID selected.nodeID) <;> rfl
    rw [hnext]
    exact congrArg
      (fun taken : Overlay RouteRow => taken.write d (.use t.jobID selected.nodeID) _) h

theorem selected_answer : (discipline start).Answer (Selected c start) where
  final t n o d h d' hl _ _ job node hheld := by
    have h' : Selected c start t n o d' := selected_stable.later hl h
    by_cases hjob : job = t.jobID
    · subst hjob
      exact h'.held
    · obtain ⟨strategy, -, -, ho, -⟩ := h'
      rw [ho, Overlay.write_ne (by simp [hjob]), Overlay.write_ne (by simp),
        Overlay.empty_apply] at hheld
      exact absurd rfl hheld
  later t n o d d' hl h := selected_stable.later hl h

theorem Selected.counters (h : Selected c start t n o d) : (routeTables (d.overlay o)).counters =
    Function.update (routeTables d).counters t.jobID (some ((routeTables d).count t.jobID)) := by
  obtain ⟨strategy, -, -, rfl, -⟩ := h
  funext job
  rw [routeTables_counters, Database.overlay_write_ne (by simp)]
  by_cases hjob : job = t.jobID
  · subst hjob
    rw [Database.overlay_write_self, Function.update_self]
  · rw [Database.overlay_write_ne (by simp [hjob]), Function.update_of_ne hjob]
    rfl

theorem Selected.uses (h : Selected c start t n o d) : (routeTables (d.overlay o)).uses =
    Function.update (routeTables d).uses t.jobID (Function.update ((routeTables d).uses t.jobID)
      n.nodeID
        (some (.next (t.groupID.getD 0) t.now ((routeTables d).uses t.jobID n.nodeID)))) := by
  obtain ⟨strategy, -, -, rfl, -⟩ := h
  funext job node
  rw [routeTables_uses]
  by_cases hjob : job = t.jobID
  · subst hjob
    rw [Function.update_self]
    by_cases hnode : node = n.nodeID
    · subst hnode
      rw [Database.overlay_write_self, Function.update_self]
      rfl
    · rw [Database.overlay_write_ne (by simp [hnode]), Database.overlay_write_ne (by simp),
        Function.update_of_ne hnode]
      rfl
  · rw [Database.overlay_write_ne (by simp [hjob]), Database.overlay_write_ne (by simp),
      Function.update_of_ne hjob]
    rfl

theorem Selected.reserves (h : Selected c start t n o d) : c.Reserves t n d (d.overlay o) := by
  have hcounters := h.counters
  have huses := h.uses
  obtain ⟨strategy, hstrategy, hselect, -⟩ := h
  unfold Reserves reserveExecutorRoute
  rw [hstrategy]
  dsimp only
  have hsnapshot : t.selector c.env ⟨strategy, (routeTables d).count t.jobID,
      routableNodes t.now t.groupID (c.registry t), fun n =>
        ((routeTables d).uses t.jobID n.nodeID).filter fun u => u.groupID == n.groupID⟩ = .ok n :=
    hselect
  rw [hsnapshot, ← hcounters]
  simp only [bind, Except.bind]
  rw [← huses]
  rfl

def Runs (c : RouteSetting) (m₀ m : Machine Reservation RouteKey RouteRow RouteError ExecutorNode) :
    Prop :=
  m₀.AtRest ∧ m₀.returned = [] ∧ Machine.ReachableFrom c.system (fun _ _ _ => True) m₀ m

/-- Whatever the interleaving, the committed reservations are calls of `reserveExecutorRoute` one
after the other: what holds at the start and what every call keeps holds at the end. -/
theorem Runs.history {m₀ m : Machine Reservation RouteKey RouteRow RouteError ExecutorNode}
    (hm : c.Runs m₀ m) {P : List (Reservation × ExecutorNode) → RouteDb → Prop}
    (hrows : ∀ h (d d' : RouteDb), d'.row = d.row → P h d → P h d')
    (h₀ : P [] m₀.store.committed)
    (hcall : ∀ t n h d d', m₀.store.clock ≤ t.now → c.Admits t → c.Reserves t n d d' → P h d →
      P ((t, n) :: h) d') :
    P m.history m.store.committed := by
  obtain ⟨hrest, hreturned, hreach⟩ := hm
  have hempty : m₀.history = [] := by
    rw [Machine.history, hreturned]
    rfl
  have hanswer : (discipline m₀.store.clock).Answer (Selected c m₀.store.clock) := selected_answer
  refine Discipline.SoundFor.history hanswer ?_ hrows ?_ ?_
    (.of_atRest hrest (le_refl m₀.store.clock)) ?_ hreach
  · rintro t n o d h - - hsel hP
    have hreserves := hsel.reserves
    obtain ⟨-, -, -, -, hstart, hadmits⟩ := hsel
    exact hcall t n h d _ hstart hadmits hreserves hP
  · intro t d hinv hadm
    obtain ⟨hnow, hadmits⟩ := of_decide_eq_true hadm
    exact reserveTransaction_selected (hnow ▸ hinv) hadmits _ _ hinv (fun _ _ h => by cases h) rfl
  · exact fun m l m' _ => ⟨fun _ _ _ _ _ => trivial, fun _ => trivial, fun _ _ _ => trivial⟩
  · rw [hempty]
    exact h₀

/-! What a call does, to the rows of its own job and to the others. -/

theorem Reserves.cases (h : c.Reserves t n d d') : ∃ strategy,
    executorRouteStrategy (c.registry t) t.tenantID t.groupID t.jobID = some strategy ∧
    t.selector c.env ⟨strategy, (routeTables d).count t.jobID,
      routableNodes t.now t.groupID (c.registry t), usesOf t.jobID d⟩ = .ok n ∧
    (routeTables d').counters =
      Function.update (routeTables d).counters t.jobID (some ((routeTables d).count t.jobID)) ∧
    (routeTables d').uses = Function.update (routeTables d).uses t.jobID
      (Function.update ((routeTables d).uses t.jobID) n.nodeID
        (some (.next (t.groupID.getD 0) t.now ((routeTables d).uses t.jobID n.nodeID)))) := by
  unfold Reserves reserveExecutorRoute at h
  split at h
  · cases h
  · next strategy hstrategy =>
    obtain ⟨selected, hselected, h⟩ := exists_of_bind_ok h
    simp only [Except.ok.injEq, Prod.mk.injEq] at h
    obtain ⟨rfl, htables⟩ := h
    rw [← htables]
    exact ⟨strategy, hstrategy, hselected, rfl, rfl⟩

theorem Reserves.other (h : c.Reserves t n d d') (hjob : job ≠ t.jobID) :
    d'.row (.counter job) = d.row (.counter job) ∧
      ∀ node, d'.row (.use job node) = d.row (.use job node) := by
  obtain ⟨strategy, -, -, hcounters, huses⟩ := h.cases
  constructor
  · rw [← routeTables_counters, hcounters, Function.update_of_ne hjob]
    rfl
  · intro node
    rw [← routeTables_uses, huses, Function.update_of_ne hjob]
    rfl

def candidates (c : RouteSetting) (t : Reservation) (d : RouteDb) : List ExecutorCandidate :=
  (eligibleNodes (c.registry t) t).map fun n => ⟨n.nodeID, n.address,
    (usesOf c.jobID d n).elim 0 (·.useCount), (usesOf c.jobID d n).elim zeroTime (·.lastUsedAt)⟩

theorem Reserves.choice (h : c.Reserves t n d d') (hadmits : c.Admits t)
    (hjob : t.jobID = c.jobID) :
    ∃ x, selectExecutorNode c.env.xxlRouteHash (c.candidates t d) c.strategy
      ((routeTables d).count c.jobID) t.random (c.env.jobKey c.jobID) = .ok x ∧
        x.id = n.nodeID := by
  obtain ⟨strategy, hstrategy, hselect, -⟩ := h.cases
  obtain ⟨hplain, hown⟩ := hadmits
  obtain ⟨-, hfixed, -⟩ := hown hjob
  obtain rfl : strategy = c.strategy := Option.some.inj (hstrategy.symm.trans hfixed)
  unfold Reservation.selector selectReserved at hselect
  obtain ⟨x, hx, hnamed⟩ := exists_of_bind_ok hselect
  rw [if_pos hplain] at hx hnamed
  refine ⟨x, ?_, ?_⟩
  · rw [← hx, ← hjob]
    unfold candidates
    rw [← hjob]
    rfl
  · unfold nodeNamed at hnamed
    split at hnamed
    · next found hfound =>
      cases hnamed
      have hid := List.find?_some hfound
      exact (beq_iff_eq.1 hid).symm
    · cases hnamed

theorem Reserves.rows (h : c.Reserves t n d d') (hadmits : c.Admits t) (hjob : t.jobID = c.jobID) :
    d'.row (.counter c.jobID) = some ((routeTables d).count c.jobID) ∧
      ∀ node, d'.row (.use c.jobID node) = if node = n.nodeID then
        some (.next c.groupID t.now (d.row (.use c.jobID node))) else
          d.row (.use c.jobID node) := by
  obtain ⟨strategy, -, -, hcounters, huses⟩ := h.cases
  obtain ⟨hgroup, -⟩ := hadmits.2 hjob
  rw [hjob] at hcounters huses
  constructor
  · rw [← routeTables_counters, hcounters, Function.update_self]
  · intro node
    rw [← routeTables_uses, huses, Function.update_self, hgroup]
    split
    · next he => rw [he, Function.update_self]; rfl
    · next hne => rw [Function.update_of_ne hne]; rfl

end RouteSetting

end GoScheduler.Core
