import GoScheduler.Core.Routing
import GoScheduler.HashRing

/-! The node that the strategy `hash` chooses, for any hash function that keeps the virtual
nodes apart: it is the one whose virtual node is met first from the hash of the key, whatever
the order of the nodes, so that a node that comes or goes moves only its own keys. -/
namespace GoScheduler.Core

instance hashOrder : LinearOrder UInt32 where
  le_refl := UInt32.le_refl
  le_trans _ _ _ := UInt32.le_trans
  le_antisymm _ _ := UInt32.le_antisymm
  le_total := UInt32.le_total
  lt_iff_le_not_ge a b := by
    rw [UInt32.not_le]
    exact ⟨fun h => ⟨UInt32.le_of_lt h, h⟩, And.right⟩
  toDecidableLE := inferInstance

/-- The virtual nodes of `consistentHashExecutor`, each with its hash. -/
def virtualNodes (hash : String → UInt32) (nodes : List ExecutorCandidate) :
    List (UInt32 × ExecutorCandidate) :=
  nodes.flatMap fun node => (List.range 100).map fun index =>
    (hash ("SHARD-" ++ node.address ++ "-NODE-" ++ toString index), node)

variable {hash : String → UInt32} {nodes nodes' : List ExecutorCandidate}
  {x node : ExecutorCandidate} {cursor : Int} {random : ℕ} {routeKey : String}

theorem mem_of_mem_virtualNodes {v : UInt32 × ExecutorCandidate}
    (h : v ∈ virtualNodes hash nodes) : v.2 ∈ nodes := by
  obtain ⟨n, hn, hv⟩ := List.mem_flatMap.1 h
  obtain ⟨index, -, rfl⟩ := List.mem_map.1 hv
  exact hn

theorem virtualNodes_ne_nil (hne : nodes ≠ []) : virtualNodes hash nodes ≠ [] := by
  obtain ⟨n, rest, rfl⟩ := List.exists_cons_of_ne_nil hne
  rw [virtualNodes, List.flatMap_cons]
  simp

theorem select_hash_of_locate {v : UInt32 × ExecutorCandidate}
    (hdistinct : ((virtualNodes hash nodes).map Prod.fst).Nodup)
    (hv : HashRing.locate (virtualNodes hash nodes) (hash routeKey) = some v) :
    selectExecutorNode hash nodes .hash cursor random routeKey = .ok v.2 := by
  have hperm : (ExecutorCandidate.byID nodes).Perm nodes := List.perm_insertionSort _ nodes
  have hlocate : HashRing.locate (virtualNodes hash (ExecutorCandidate.byID nodes))
      (hash routeKey) = some v := by
    have hring :
        (virtualNodes hash (ExecutorCandidate.byID nodes)).Perm (virtualNodes hash nodes) :=
      hperm.flatMap_right _
    rw [HashRing.locate_perm hdistinct hring, hv]
  unfold selectExecutorNode
  cases hsorted : ExecutorCandidate.byID nodes with
  | nil =>
    rw [hsorted] at hlocate
    cases hlocate
  | cons first rest =>
    have hring : consistentHashExecutor hash first rest routeKey =
        (HashRing.locate (virtualNodes hash (first :: rest)) (hash routeKey)).elim first
          (·.2) := rfl
    rw [hsorted] at hlocate
    dsimp only
    rw [hring, hlocate]
    rfl

theorem exists_select_hash (routeKey : String) (cursor : Int) (random : ℕ)
    (hdistinct : ((virtualNodes hash nodes).map Prod.fst).Nodup) (hne : nodes ≠ []) : ∃ v,
      HashRing.locate (virtualNodes hash nodes) (hash routeKey) = some v ∧
      selectExecutorNode hash nodes .hash cursor random routeKey = .ok v.2 := by
  obtain ⟨v, hv⟩ := HashRing.exists_locate (virtualNodes_ne_nil hne) (hash routeKey)
  exact ⟨v, hv, select_hash_of_locate hdistinct hv⟩

theorem select_hash_perm (hdistinct : ((virtualNodes hash nodes).map Prod.fst).Nodup)
    (hp : nodes'.Perm nodes) :
    selectExecutorNode hash nodes' .hash cursor random routeKey =
      selectExecutorNode hash nodes .hash cursor random routeKey := by
  by_cases hne : nodes = []
  · subst hne
    rw [hp.eq_nil]
  · obtain ⟨v, hv, hselect⟩ := exists_select_hash routeKey cursor random hdistinct hne
    have hring : (virtualNodes hash nodes').Perm (virtualNodes hash nodes) := hp.flatMap_right _
    rw [hselect]
    exact select_hash_of_locate ((hring.map Prod.fst).nodup_iff.2 hdistinct)
      ((HashRing.locate_perm hdistinct hring _).trans hv)

theorem select_hash_cons (hdistinct : ((virtualNodes hash (x :: nodes)).map Prod.fst).Nodup) :
    selectExecutorNode hash (x :: nodes) .hash cursor random routeKey = .ok x ∨
      selectExecutorNode hash nodes .hash cursor random routeKey =
        selectExecutorNode hash (x :: nodes) .hash cursor random routeKey := by
  have happend :
      virtualNodes hash (x :: nodes) = virtualNodes hash [x] ++ virtualNodes hash nodes := by
    rw [virtualNodes, List.flatMap_cons, virtualNodes, List.flatMap_cons, List.flatMap_nil,
      List.append_nil]
    rfl
  obtain ⟨v, hv, hselect⟩ := exists_select_hash routeKey cursor random hdistinct
    (List.cons_ne_nil x nodes)
  rw [hselect]
  rw [happend] at hv hdistinct
  rcases HashRing.locate_append hdistinct hv with hx | hrest
  · exact .inl (by rw [List.mem_singleton.1 (mem_of_mem_virtualNodes hx)])
  · rw [List.map_append] at hdistinct
    exact .inr (select_hash_of_locate hdistinct.of_append_right hrest)

/-- Consistent hashing: in whatever order the nodes are listed, one and the same node is chosen;
and between the nodes with `x` and those without it the choice differs only where `x` is the
choice, so that adding `x` moves the choice only to `x` and removing `x` only away from it. -/
theorem selectExecutorNode_hash_minimal (hash : String → UInt32) (nodes : List ExecutorCandidate)
    (x : ExecutorCandidate) (cursor : Int) (random : ℕ) (routeKey : String)
    (hdistinct : ((virtualNodes hash (x :: nodes)).map Prod.fst).Nodup) :
    (∃ n ∈ x :: nodes, ∀ nodes', nodes'.Perm (x :: nodes) →
      selectExecutorNode hash nodes' .hash cursor random routeKey = .ok n) ∧
    ∀ without withX, without.Perm nodes → withX.Perm (x :: nodes) →
      selectExecutorNode hash without .hash cursor random routeKey ≠
        selectExecutorNode hash withX .hash cursor random routeKey →
      selectExecutorNode hash withX .hash cursor random routeKey = .ok x := by
  constructor
  · obtain ⟨v, hv, hselect⟩ := exists_select_hash routeKey cursor random hdistinct
      (List.cons_ne_nil x nodes)
    refine ⟨v.2, mem_of_mem_virtualNodes (HashRing.locate_meets hv).1, fun nodes' hp => ?_⟩
    rw [select_hash_perm hdistinct hp, hselect]
  · intro without withX hwithout hwith hmoved
    have hrest : ((virtualNodes hash nodes).map Prod.fst).Nodup := by
      rw [virtualNodes, List.flatMap_cons, List.map_append] at hdistinct
      exact hdistinct.of_append_right
    rw [select_hash_perm hrest hwithout, select_hash_perm hdistinct hwith] at hmoved
    rw [select_hash_perm hdistinct hwith]
    exact (select_hash_cons hdistinct).resolve_right hmoved

def sampleHash (s : String) : UInt32 :=
  .ofNat (s.toList.foldl (fun n c => 31 * n + c.toNat) 0)

theorem virtualNodes_sampleHash_nodup :
    ((virtualNodes sampleHash [⟨"n1", "a", 0, 0⟩, ⟨"n2", "b", 0, 0⟩]).map Prod.fst).Nodup := by
  have htext : ∀ (a : String) (i : ℕ), ("SHARD-" ++ a ++ "-NODE-" ++ toString i).toList =
      "SHARD-".toList ++ a.toList ++ "-NODE-".toList ++ Nat.toDigits 10 i := by
    intro a i
    rw [String.toList_append, String.toList_append, String.toList_append]
    exact congrArg _ String.toList_ofList
  simp only [virtualNodes, sampleHash, htext, List.flatMap_cons, List.flatMap_nil,
    List.append_nil, List.map_append, List.map_map]
  decide +kernel

theorem selectExecutorNode_hash_sample :
    (∃ n ∈ [(⟨"n1", "a", 0, 0⟩ : ExecutorCandidate), ⟨"n2", "b", 0, 0⟩],
      ∀ nodes', nodes'.Perm [⟨"n1", "a", 0, 0⟩, ⟨"n2", "b", 0, 0⟩] →
        selectExecutorNode sampleHash nodes' .hash 0 0 "job" = .ok n) ∧
    ∀ without withX, without.Perm [⟨"n2", "b", 0, 0⟩] →
      withX.Perm [⟨"n1", "a", 0, 0⟩, ⟨"n2", "b", 0, 0⟩] →
      selectExecutorNode sampleHash without .hash 0 0 "job" ≠
        selectExecutorNode sampleHash withX .hash 0 0 "job" →
      selectExecutorNode sampleHash withX .hash 0 0 "job" = .ok ⟨"n1", "a", 0, 0⟩ :=
  selectExecutorNode_hash_minimal sampleHash [⟨"n2", "b", 0, 0⟩] ⟨"n1", "a", 0, 0⟩ 0 0 "job"
    virtualNodes_sampleHash_nodup

end GoScheduler.Core
