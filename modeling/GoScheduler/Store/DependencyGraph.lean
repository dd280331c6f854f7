import GoScheduler.Graph
import GoScheduler.Store.System
import Mathlib.Data.Finset.Union

/-! The dependency graph. `SetJobDependencies` looks for a cycle with a query on its own
snapshot and holds no lock that another update of the graph would wait for. Alone it keeps
the graph acyclic; two updates that are open together can each close half of a cycle. -/
namespace GoScheduler.Store
open ReadCommitted GoScheduler.Graph Relation

def Edge (d : Db) (parentJobID childJobID : ℕ) : Prop :=
  d.row (.dependency parentJobID childJobID) ≠ none

def DependenciesKeyed (d : Db) : Prop :=
  ∀ p c e, d.row (.dependency p c) = some e → e.parentJobID = p ∧ e.childJobID = c

variable {d d' : Db} {o : Overlay Row} {p c x y : ℕ}

section Query

theorem mem_dependencies {e : Dependency} : e ∈ dependencies d ↔
    ∃ p c, Key.dependency p c ∈ d.keys ∧ d.row (.dependency p c) = some e := by
  unfold dependencies
  rw [List.mem_filterMap]
  constructor
  · rintro ⟨k, hk, he⟩
    cases k with
    | dependency p c => exact ⟨p, c, hk, he⟩
    | _ => cases he
  · rintro ⟨p, c, hk, he⟩
    exact ⟨_, hk, he⟩

theorem mem_childrenOf (hkeyed : DependenciesKeyed d)
    (hcovers : ∀ k v, d.row k = some v → k ∈ d.keys) : c ∈ childrenOf d p ↔ Edge d p c := by
  unfold childrenOf
  rw [List.mem_map]
  constructor
  · rintro ⟨e, he, rfl⟩
    obtain ⟨he, hp⟩ := List.mem_filter.1 he
    obtain ⟨p', c', _, hrow⟩ := mem_dependencies.1 he
    obtain ⟨hp', hc'⟩ := hkeyed p' c' e hrow
    have hpp : p' = p := hp'.symm.trans (beq_iff_eq.1 hp)
    rw [Edge, hc', ← hpp, hrow]
    simp
  · intro hedge
    obtain ⟨e, hrow⟩ := Option.ne_none_iff_exists'.1 hedge
    obtain ⟨hp, hc⟩ := hkeyed p c e hrow
    refine ⟨e, List.mem_filter.2 ⟨mem_dependencies.2 ⟨p, c, hcovers _ e hrow, hrow⟩, ?_⟩, hc⟩
    simp [hp]

def expand (d : Db) (found : Finset ℕ) : Finset ℕ :=
  found ∪ found.biUnion fun p => (childrenOf d p).toFinset

theorem descendants_toFinset (rounds : ℕ) (found : List ℕ) :
    (descendants d rounds found).toFinset = (expand d)^[rounds] found.toFinset := by
  induction rounds generalizing found with
  | zero => rfl
  | succ rounds ih =>
    rw [descendants, ih, Function.iterate_succ_apply]
    congr 1
    ext c
    simp [expand]

theorem expand_subset (k : ℕ) : (expand d)^[k] (childrenOf d p).toFinset ⊆
    ((dependencies d).map Dependency.childJobID).toFinset := by
  have hchild : ∀ p, (childrenOf d p).toFinset ⊆
      ((dependencies d).map Dependency.childJobID).toFinset := by
    intro p c hc
    rw [List.mem_toFinset] at hc ⊢
    obtain ⟨e, he, rfl⟩ := List.mem_map.1 hc
    exact List.mem_map_of_mem (List.mem_of_mem_filter he)
  induction k with
  | zero => exact hchild p
  | succ k ih =>
    rw [Function.iterate_succ_apply']
    exact Finset.union_subset ih (Finset.biUnion_subset.2 fun p _ => hchild p)

theorem reaches_of_transGen (hkeyed : DependenciesKeyed d)
    (hcovers : ∀ k v, d.row k = some v → k ∈ d.keys) (h : TransGen (Edge d) c p) :
    reaches d c p = true := by
  have hfixed : expand d ((expand d)^[(dependencies d).length] (childrenOf d c).toFinset) =
      (expand d)^[(dependencies d).length] (childrenOf d c).toFinset := by
    refine fixed_of_card_le (fun S => Finset.subset_union_left) expand_subset ?_
    exact (List.toFinset_card_le _).trans_eq (List.length_map _)
  have hclosed : ∀ y z, y ∈ (expand d)^[(dependencies d).length] (childrenOf d c).toFinset →
      Edge d y z → z ∈ (expand d)^[(dependencies d).length] (childrenOf d c).toFinset := by
    intro y z hy hyz
    rw [← hfixed]
    refine Finset.mem_union_right _ (Finset.mem_biUnion.2 ⟨y, hy, ?_⟩)
    exact List.mem_toFinset.2 ((mem_childrenOf hkeyed hcovers).2 hyz)
  have hstart : ∀ y, Edge d c y →
      y ∈ (expand d)^[(dependencies d).length] (childrenOf d c).toFinset := by
    intro y hy
    have hadd : ∀ k, (childrenOf d c).toFinset ⊆ (expand d)^[k] (childrenOf d c).toFinset := by
      intro k
      induction k with
      | zero => exact Finset.Subset.refl _
      | succ k ih =>
        rw [Function.iterate_succ_apply']
        exact ih.trans Finset.subset_union_left
    exact hadd _ (List.mem_toFinset.2 ((mem_childrenOf hkeyed hcovers).2 hy))
  have hmem := mem_of_transGen hstart hclosed h
  have hdedup : (childrenOf d c).dedup.toFinset = (childrenOf d c).toFinset := by
    ext y
    simp
  unfold reaches
  rw [List.contains_iff_mem, ← List.mem_toFinset, descendants_toFinset, hdedup]
  exact hmem

end Query

structure SeesAcyclic (o : Overlay Row) (d : Db) : Prop where
  acyclic : Acyclic (Edge (d.overlay o))
  keyed : DependenciesKeyed (d.overlay o)

/-- No other update of the graph is open. -/
def dependencyDiscipline : Discipline Transaction Key Row where
  inv := fun d => Acyclic (Edge d) ∧ DependenciesKeyed d
  guarantee := fun _ d o => SeesAcyclic o d
  pair := fun _ _ _ _ => False
  alone := fun _ _ _ => True
  reading := fun _ _ _ => True
  inv_addKey := fun _ h => h
  inv_advance := fun _ h => h
  inv_commit := fun _ _ hg => ⟨hg.acyclic, hg.keyed⟩

variable {t : Transaction}

theorem hop_rows (h : dependencyDiscipline.Hop t o d d') :
    (d'.overlay o).row = (d.overlay o).row := by
  cases h.interferes with
  | commit _ _ hp => exact hp.elim
  | grow ws =>
    funext k
    exact Database.overlay_congr (by rw [Database.addKeys_row]) rfl
  | tick n => rfl

theorem SeesAcyclic.of_rows {o' : Overlay Row} (hrow : (d'.overlay o').row = (d.overlay o).row)
    (h : SeesAcyclic o d) : SeesAcyclic o' d' := by
  refine ⟨h.acyclic.mono fun p c hpc => ?_, fun p c e he => h.keyed p c e ?_⟩
  · rwa [Edge, ← hrow]
  · rw [← hrow, he]

theorem SeesAcyclic.stable : dependencyDiscipline.Stable t SeesAcyclic :=
  fun _ _ _ hop h => h.of_rows (hop_rows hop)

theorem edge_write {v : Option Dependency} (h : Edge ((d.addKey (.dependency p c)).overlay
    (o.write d (.dependency p c) v)) x y) : Edge (d.overlay o) x y ∨ (x = p ∧ y = c) := by
  by_cases hk : Key.dependency x y = .dependency p c
  · cases hk
    exact .inr ⟨rfl, rfl⟩
  · left
    rwa [Edge, Database.overlay_write_ne hk] at h

theorem keyed_write {v : Option Dependency} (h : DependenciesKeyed (d.overlay o))
    (hv : ∀ e, v = some e → e.parentJobID = p ∧ e.childJobID = c) :
    DependenciesKeyed ((d.addKey (.dependency p c)).overlay (o.write d (.dependency p c) v)) := by
  intro x y e he
  by_cases hk : Key.dependency x y = .dependency p c
  · cases hk
    rw [Database.overlay_write_self] at he
    exact hv e he
  · rw [Database.overlay_write_ne hk] at he
    exact h x y e he

theorem SeesAcyclic.delete (h : SeesAcyclic o d) :
    SeesAcyclic (o.write d (.dependency p c) none) (d.addKey (.dependency p c)) := by
  refine ⟨h.acyclic.mono fun x y hxy => (edge_write hxy).resolve_right ?_,
    keyed_write h.keyed (by simp)⟩
  rintro ⟨rfl, rfl⟩
  rw [Edge, Database.overlay_write_self] at hxy
  exact hxy rfl

theorem SeesAcyclic.insert (h : SeesAcyclic o d) (hne : c ≠ p)
    (hway : ¬ TransGen (Edge (d.overlay o)) c p) (tenantID : ℕ) :
    SeesAcyclic (o.write d (.dependency p c) (some ⟨tenantID, p, c⟩))
      (d.addKey (.dependency p c)) := by
  refine ⟨h.acyclic.insert (fun x y => edge_write) hne hway, keyed_write h.keyed ?_⟩
  rintro e he
  cases he
  exact ⟨rfl, rfl⟩

theorem addDependency_sees (tenantID : ℕ) :
    dependencyDiscipline.Triple t SeesAcyclic
      (do
        if c = p then .fail .dependencyCycle else
        if ← select fun d => reaches d c p then .fail .dependencyCycle
        else insertRow (.dependency p c) ⟨tenantID, p, c⟩ : Tx Unit) fun _ => SeesAcyclic := by
  split
  · exact .fail
  next hne =>
  refine .bind (.select (Q := fun cycle o d => SeesAcyclic o d ∧
    (cycle = false → ¬ TransGen (Edge (d.overlay o)) c p)) SeesAcyclic.stable ?_) fun cycle => ?_
  · intro o d _ _ hcov h
    refine ⟨h, fun hcycle hway => ?_⟩
    rw [reaches_of_transGen h.keyed (fun k v hv => hcov.mem_keys hv) hway] at hcycle
    cases hcycle
  cases cycle with
  | true => exact .fail
  | false =>
    have hstable : dependencyDiscipline.Stable t fun o d => SeesAcyclic o d ∧
        (false = false → ¬ TransGen (Edge (d.overlay o)) c p) := by
      refine .and SeesAcyclic.stable fun o d d' hop h _ => ?_
      have hedge : Edge (d'.overlay o) = Edge (d.overlay o) := by
        funext x y
        rw [Edge, hop_rows hop, Edge]
      rw [hedge]
      exact h rfl
    refine .bind (.insert (Q := fun r o d => r = true → SeesAcyclic o d) hstable
      (fun _ _ _ _ _ _ h => by cases h) ?_) fun r => ?_
    · intro o d _ _ h _ _ _
      exact h.1.insert hne (h.2 rfl) tenantID
    · cases r with
      | true => exact .pure fun _ _ _ _ h => h rfl
      | false => exact .fail

theorem setJobDependencies_sees (tenantID parentJobID : ℕ) (childJobIDs : List ℕ) :
    dependencyDiscipline.Triple t SeesAcyclic
      (setJobDependencies tenantID parentJobID childJobIDs) fun _ => SeesAcyclic := by
  refine .bind (.read SeesAcyclic.stable)
    fun count => ?_
  split
  · exact .fail
  refine .bind (.read SeesAcyclic.stable)
    fun old => ?_
  refine .bind (.forEach fun childID _ => ?_) fun _ =>
    .forEach fun childID _ => addDependency_sees tenantID
  exact .bind (.delete (Q := fun _ => SeesAcyclic) SeesAcyclic.stable (fun _ _ _ _ h _ => h)
    fun _ _ _ _ _ h _ _ _ => h.delete) fun _ => .done

def Operation.updatesDependencies (tenantID : ℕ) : Operation → Bool
  | .setJobDependencies tenant _ _ => tenant == tenantID
  | _ => false

def dependencyCallers (env : Env) (tenantID : ℕ) :
    ReadCommitted.System Transaction Key Row StoreError Result :=
  { anyCaller env with
    admissible := fun d t => t.now == d.clock && t.operation.updatesDependencies tenantID }

theorem dependency_safe {env : Env} {tenantID : ℕ} (hinv : dependencyDiscipline.inv d)
    (hadm : (dependencyCallers env tenantID).admissible d t = true) :
    dependencyDiscipline.Safe t (fun _ => dependencyDiscipline.Final t)
      ((dependencyCallers env tenantID).program t) Overlay.empty d := by
  have hoperation := (Bool.and_eq_true _ _ ▸ hadm).2
  obtain ⟨serial, now, operation⟩ := t
  cases operation with
  | setJobDependencies tenant parentJobID childJobIDs =>
    refine Discipline.Triple.bind (setJobDependencies_sees tenant parentJobID childJobIDs)
      (fun _ => .pure fun o d _ _ h d' hl _ _ => SeesAcyclic.stable.later hl h) _ d hinv
      (fun _ _ h => by cases h) ?_
    exact ⟨hinv.1, hinv.2⟩
  | _ => cases hoperation

/-- In a run in which no two updates are open at the same time the committed graph stays
acyclic. -/
theorem dependencies_acyclic {env : Env} {tenantID : ℕ} {m₀ m : SchedulerMachine}
    (hrest : m₀.AtRest) (hkeyed : DependenciesKeyed m₀.store.committed)
    (hm₀ : Acyclic (Edge m₀.store.committed))
    (hrun : Machine.ReachableFrom (dependencyCallers env tenantID) Machine.InTurn m₀ m) :
    Acyclic (Edge m.store.committed) := by
  have hmeets : ∀ (m : SchedulerMachine) l m', Machine.InTurn m l m' →
      dependencyDiscipline.Meets m l m' :=
    fun m l m' h => ⟨fun t t' hne ht ht' => hne (h t t' ht ht'), fun _ => trivial,
      fun _ _ _ => trivial⟩
  have hsound := Discipline.SoundFor.run (D := dependencyDiscipline) Discipline.answer_final
    (fun t d hinv hadm => dependency_safe hinv hadm) hmeets (.of_atRest hrest ⟨hm₀, hkeyed⟩) hrun
  exact hsound.inv.1

section Overlap

def twoJobs : SchedulerMachine := .loaded 0 ⟨0, 0, .expireCallbacks⟩
  [⟨.job 1, some { plainJob with id := 1 }⟩, ⟨.job 2, some { plainJob with id := 2 }⟩]

theorem twoJobs_no_edge (p c : ℕ) : twoJobs.store.committed.row (.dependency p c) = none := by
  have hkeys : twoJobs.store.keys = [.job 1, .job 2] := by decide +kernel
  by_contra hrow
  obtain ⟨e, he⟩ := Option.ne_none_iff_exists'.1 hrow
  have hmem := Store.mem_keys_of_row he
  simp [hkeys] at hmem

theorem twoJobs_keyed : DependenciesKeyed twoJobs.store.committed := by
  intro p c e he
  rw [twoJobs_no_edge] at he
  cases he

theorem twoJobs_acyclic : Acyclic (Edge twoJobs.store.committed) := by
  intro x hx
  obtain ⟨y, hxy, _⟩ := TransGen.head'_iff.1 hx
  exact hxy (twoJobs_no_edge x y)

def dependencySteps (t : Transaction) : List (Label Transaction Key) :=
  List.replicate 4 (.exec t ⟨0, 0, []⟩)

def setDependency (serial parentJobID childJobID : ℕ) : Transaction :=
  ⟨serial, 0, .setJobDependencies 1 parentJobID [childJobID]⟩

/-- Two updates that are open together commit a cycle. -/
theorem dependency_cycle : ∃ m : SchedulerMachine,
    Machine.ReachableFrom (dependencyCallers plainEnv 1) (fun _ _ _ => True) twoJobs m ∧
      twoJobs.AtRest ∧ DependenciesKeyed twoJobs.store.committed ∧
      Acyclic (Edge twoJobs.store.committed) ∧ ¬ Acyclic (Edge m.store.committed) := by
  obtain ⟨m, hreach, hm⟩ : ∃ m, Machine.ReachableFrom (dependencyCallers plainEnv 1)
      (fun _ _ _ => True) twoJobs m ∧ ((m.store.committed.row (.dependency 1 2)).isSome &&
        (m.store.committed.row (.dependency 2 1)).isSome) = true :=
    Machine.exists_reachableFrom (fun _ _ _ => true) (fun _ _ _ _ => trivial)
      ([.begin (setDependency 1 1 2), .begin (setDependency 2 2 1)] ++
        dependencySteps (setDependency 1 1 2) ++ dependencySteps (setDependency 2 2 1) ++
        [.finish (setDependency 1 1 2), .finish (setDependency 2 2 1)]) _ (by decide +kernel)
  rw [Bool.and_eq_true] at hm
  have hedge : ∀ p c, (m.store.committed.row (.dependency p c)).isSome = true →
      Edge m.store.committed p c := fun p c h => Option.isSome_iff_ne_none.1 h
  refine ⟨m, hreach, Machine.atRest_loaded _ _ _, twoJobs_keyed, twoJobs_acyclic, fun h => ?_⟩
  exact h 1 (.tail (.single (hedge 1 2 hm.1)) (hedge 2 1 hm.2))

theorem dependencies_acyclic_refused : ∃ m : SchedulerMachine,
    (m.store.committed.row (.dependency 1 2)).isSome = true ∧
      m.returned.map Prod.fst = [setDependency 2 2 1, setDependency 1 1 2] ∧
      Acyclic (Edge m.store.committed) := by
  obtain ⟨m, hreach, hm⟩ : ∃ m, Machine.ReachableFrom (dependencyCallers plainEnv 1)
      Machine.InTurn twoJobs m ∧ ((m.store.committed.row (.dependency 1 2)).isSome &&
        m.returned.map Prod.fst == [setDependency 2 2 1, setDependency 1 1 2]) = true :=
    Machine.exists_reachableFrom_inTurn (fun _ => rfl)
      ([.begin (setDependency 1 1 2)] ++ dependencySteps (setDependency 1 1 2) ++
        [.finish (setDependency 1 1 2), .begin (setDependency 2 2 1)] ++
        List.replicate 3 (.exec (setDependency 2 2 1) ⟨0, 0, []⟩) ++
        [.finish (setDependency 2 2 1)]) _ (by decide +kernel)
  rw [Bool.and_eq_true, beq_iff_eq] at hm
  exact ⟨m, hm.1, hm.2, dependencies_acyclic (Machine.atRest_loaded _ _ _) twoJobs_keyed
    twoJobs_acyclic hreach⟩

end Overlap

end GoScheduler.Store
