import GoScheduler.Store.Trigger
import Mathlib.Data.String.Basic

/-! The plan of a broadcast: one shard for each node, numbered in the order of the node ids. The
id of a manual node is made from a digest of its address, so that the order of the addresses is
kept only where the digest keeps it. The digest is a parameter. -/
namespace GoScheduler.Store

def int32 (n : ℕ) : Int := (n : Int).bmod (2 ^ 32)

theorem int32_of_lt {n : ℕ} (h : n < 2 ^ 31) : int32 n = n :=
  Int.bmod_eq_of_le (by omega) (by omega)

theorem int32_lt (n : ℕ) : int32 n < 2 ^ 31 := by
  have hlt := Int.bmod_lt (x := (n : Int)) (m := 2 ^ 32) (by norm_num)
  unfold int32
  omega

structure ShardFields where
  nodeID : String
  address : String
  index : Int
  total : Int
deriving DecidableEq, Repr

def BroadcastShard.fields (s : BroadcastShard) : ShardFields :=
  ⟨s.nodeID, s.address, int32 s.index, int32 s.total⟩

def broadcastPlan (nodes : List ExecutorNode) : List ShardFields :=
  (planBroadcastShards nodes).map BroadcastShard.fields

def replaceManualExecutorNodes (digest : String → String) (now : Int) (groupID : ℕ)
    (addresses : List String) : List ExecutorNode :=
  addresses.map fun a => ⟨groupID, "manual-" ++ digest a, a, true, now, []⟩

inductive NodeSource where
  | dynamic  -- An automatic group.
  | manual  -- A manual group.
  -- The addresses of a trigger.
  | override
deriving DecidableEq

/-- The nodes that reach the plan. A group holds normalized addresses, and labels and time take
some of its nodes away. -/
def NodeSource.Supplies (digest : String → String) : NodeSource → List ExecutorNode → Prop
  | .dynamic, nodes => ∀ n ∈ nodes, n.isStatic = false
  | .manual, nodes => ∃ now groupID addresses,
      (∀ a ∈ addresses, normalizeExecutorAddress a = a) ∧
        ∀ n ∈ nodes, n ∈ replaceManualExecutorNodes digest now groupID addresses
  | .override, nodes => ∃ (env : Env) (addresses : List String),
      (∀ a, env.overrideNodeID a = "override-" ++ digest a) ∧
        nodes = overrideExecutorNodes env addresses

def NodeSource.key : NodeSource → Option (ShardFields → String)
  | .dynamic => some ShardFields.nodeID
  | .manual => some fun s => normalizeExecutorAddress s.address
  | .override => none

/-- A plan that gives each node one shard, with every number from 0 on once and the number of all
nodes, whatever the order in which the nodes come, in the order that is promised. -/
structure Planned (source : NodeSource) (nodes : List ExecutorNode) : Prop where
  each : ((broadcastPlan nodes).map fun s => (s.nodeID, s.address)).Perm
    (nodes.map fun n => (n.nodeID, n.address))
  indices : ((broadcastPlan nodes).map ShardFields.index).Perm
    ((List.range nodes.length).map fun i : ℕ => (i : Int))
  total : ∀ s ∈ broadcastPlan nodes, s.total = nodes.length
  anyOrder : ∀ nodes', nodes'.Perm nodes → broadcastPlan nodes' = broadcastPlan nodes
  ordered : ∀ key ∈ source.key, ∀ s ∈ broadcastPlan nodes, ∀ s' ∈ broadcastPlan nodes,
    s.index < s'.index ↔ key s < key s'

def byNodeID (nodes : List ExecutorNode) : List ExecutorNode :=
  nodes.insertionSort fun a b => a.nodeID ≤ b.nodeID

variable {digest : String → String} {source : NodeSource} {nodes nodes' : List ExecutorNode}
  {s s' : ShardFields}

theorem byNodeID_perm (nodes : List ExecutorNode) : (byNodeID nodes).Perm nodes :=
  List.perm_insertionSort _ nodes

theorem byNodeID_pairwise (nodes : List ExecutorNode) :
    (byNodeID nodes).Pairwise fun a b => a.nodeID ≤ b.nodeID :=
  haveI : Std.Total fun a b : ExecutorNode => a.nodeID ≤ b.nodeID :=
    ⟨fun a b => le_total a.nodeID b.nodeID⟩
  haveI : IsTrans ExecutorNode fun a b => a.nodeID ≤ b.nodeID := ⟨fun _ _ _ => le_trans⟩
  List.pairwise_insertionSort _ nodes

theorem byNodeID_eq (hids : (nodes.map ExecutorNode.nodeID).Nodup) (hp : nodes'.Perm nodes) :
    byNodeID nodes' = byNodeID nodes := by
  have hperm : (byNodeID nodes').Perm (byNodeID nodes) :=
    ((byNodeID_perm nodes').trans hp).trans (byNodeID_perm nodes).symm
  refine hperm.eq_of_pairwise (fun a b ha hb hab hba => ?_) (byNodeID_pairwise nodes')
    (byNodeID_pairwise nodes)
  exact List.inj_on_of_nodup_map hids (((byNodeID_perm nodes').trans hp).mem_iff.1 ha)
    ((byNodeID_perm nodes).mem_iff.1 hb) (le_antisymm hab hba)

theorem broadcastPlan_eq (nodes : List ExecutorNode) : broadcastPlan nodes =
    (byNodeID nodes).mapIdx fun i n => ⟨n.nodeID, n.address, int32 i, int32 nodes.length⟩ := by
  refine List.ext_getElem (by simp [broadcastPlan, planBroadcastShards, byNodeID]) fun i _ _ => ?_
  simp [broadcastPlan, planBroadcastShards, byNodeID, BroadcastShard.fields]

theorem mem_broadcastPlan : s ∈ broadcastPlan nodes ↔
    ∃ (i : ℕ) (h : i < (byNodeID nodes).length), s = ⟨(byNodeID nodes)[i].nodeID,
      (byNodeID nodes)[i].address, int32 i, int32 nodes.length⟩ := by
  rw [broadcastPlan_eq, List.mem_mapIdx]
  exact ⟨fun ⟨i, h, e⟩ => ⟨i, h, e.symm⟩, fun ⟨i, h, e⟩ => ⟨i, h, e.symm⟩⟩

theorem place_lt_iff (hids : (nodes.map ExecutorNode.nodeID).Nodup) {i j : ℕ}
    (hi : i < (byNodeID nodes).length) (hj : j < (byNodeID nodes).length) :
    i < j ↔ (byNodeID nodes)[i].nodeID < (byNodeID nodes)[j].nodeID := by
  have hnodup : ((byNodeID nodes).map ExecutorNode.nodeID).Nodup :=
    ((byNodeID_perm nodes).map _).nodup_iff.2 hids
  have hlt : ∀ i j (hi : i < (byNodeID nodes).length) (hj : j < (byNodeID nodes).length), i < j →
      (byNodeID nodes)[i].nodeID < (byNodeID nodes)[j].nodeID := by
    intro i j hi hj hij
    refine lt_of_le_of_ne (List.pairwise_iff_getElem.1 (byNodeID_pairwise nodes) i j hi hj hij) ?_
    intro heq
    have hsame := List.pairwise_iff_getElem.1 hnodup i j (by simpa using hi) (by simpa using hj) hij
    rw [List.getElem_map, List.getElem_map] at hsame
    exact hsame heq
  refine ⟨hlt i j hi hj, fun h => ?_⟩
  rcases lt_trichotomy i j with hij | rfl | hji
  · exact hij
  · exact absurd h (lt_irrefl _)
  · exact absurd h (lt_asymm (hlt j i hj hi hji))

theorem index_lt_iff (hids : (nodes.map ExecutorNode.nodeID).Nodup) (hlen : nodes.length < 2 ^ 31)
    (hs : s ∈ broadcastPlan nodes) (hs' : s' ∈ broadcastPlan nodes) :
    s.index < s'.index ↔ s.nodeID < s'.nodeID := by
  obtain ⟨i, hi, rfl⟩ := mem_broadcastPlan.1 hs
  obtain ⟨j, hj, rfl⟩ := mem_broadcastPlan.1 hs'
  have hn := (byNodeID_perm nodes).length_eq
  dsimp only
  rw [int32_of_lt (by omega), int32_of_lt (by omega), Nat.cast_lt]
  exact place_lt_iff hids hi hj

theorem exists_shard {n : ExecutorNode} (hn : n ∈ nodes) :
    ∃ s ∈ broadcastPlan nodes, s.nodeID = n.nodeID ∧ s.address = n.address := by
  obtain ⟨i, hi, rfl⟩ := List.getElem_of_mem ((byNodeID_perm nodes).mem_iff.2 hn)
  exact ⟨_, mem_broadcastPlan.2 ⟨i, hi, rfl⟩, rfl, rfl⟩

theorem exists_node (hs : s ∈ broadcastPlan nodes) :
    ∃ n ∈ nodes, s.nodeID = n.nodeID ∧ s.address = n.address := by
  obtain ⟨i, hi, rfl⟩ := mem_broadcastPlan.1 hs
  exact ⟨_, (byNodeID_perm nodes).mem_iff.1 (List.getElem_mem hi), rfl, rfl⟩

theorem length_lt_of_planned (h : Planned source nodes) : nodes.length < 2 ^ 31 := by
  by_contra hlen
  have hne : nodes ≠ [] := by
    rintro rfl
    simp at hlen
  obtain ⟨n, hn⟩ := List.exists_mem_of_ne_nil nodes hne
  obtain ⟨s, hs, -⟩ := exists_shard hn
  have htotal := h.total s hs
  obtain ⟨i, hi, rfl⟩ := mem_broadcastPlan.1 hs
  have hlt := int32_lt nodes.length
  dsimp only at htotal
  omega

theorem plan_nodes (nodes : List ExecutorNode) :
    ((broadcastPlan nodes).map fun s => (s.nodeID, s.address)).Perm
      (nodes.map fun n => (n.nodeID, n.address)) := by
  have hmap : (broadcastPlan nodes).map (fun s => (s.nodeID, s.address)) =
      (byNodeID nodes).map fun n => (n.nodeID, n.address) := by
    rw [broadcastPlan_eq]
    exact List.ext_getElem (by simp) fun i _ _ => by simp
  rw [hmap]
  exact (byNodeID_perm nodes).map _

theorem plan_indices (hlen : nodes.length < 2 ^ 31) :
    (broadcastPlan nodes).map ShardFields.index =
      (List.range nodes.length).map fun i : ℕ => (i : Int) := by
  have hn := (byNodeID_perm nodes).length_eq
  rw [broadcastPlan_eq]
  refine List.ext_getElem (by simp [hn]) fun i hi _ => ?_
  have hlt : i < 2 ^ 31 := by
    simp only [List.length_map, List.length_mapIdx] at hi
    omega
  simp [int32_of_lt hlt]

theorem manual_lt_iff (x y : String) : "manual-" ++ x < "manual-" ++ y ↔ x < y := by
  have hmono : StrictMono fun s : String => "manual-" ++ s := by
    intro x y hxy
    rw [String.lt_iff_toList_lt] at hxy ⊢
    rw [String.toList_append, String.toList_append]
    exact List.append_left_lt hxy
  exact hmono.lt_iff_lt

theorem manual_node (hsup : NodeSource.manual.Supplies digest nodes) {n : ExecutorNode}
    (hn : n ∈ nodes) :
    n.nodeID = "manual-" ++ digest n.address ∧ normalizeExecutorAddress n.address = n.address := by
  obtain ⟨now, groupID, addresses, hnormal, hmade⟩ := hsup
  obtain ⟨a, ha, rfl⟩ := List.mem_map.1 (hmade n hn)
  exact ⟨rfl, hnormal a ha⟩

/-- The plan is as promised exactly where the number of nodes fits and, for a manual group, the
digests are in the order of the addresses. -/
theorem planned_iff (digest : String → String) (source : NodeSource) (nodes : List ExecutorNode)
    (hsup : source.Supplies digest nodes) (hids : (nodes.map ExecutorNode.nodeID).Nodup) :
    Planned source nodes ↔ nodes.length < 2 ^ 31 ∧ (source = .manual →
      ∀ a ∈ nodes, ∀ b ∈ nodes, a.address < b.address ↔ digest a.address < digest b.address) := by
  constructor
  · intro h
    have hlen := length_lt_of_planned h
    refine ⟨hlen, ?_⟩
    rintro rfl a ha b hb
    obtain ⟨s, hs, hsid, hsaddress⟩ := exists_shard ha
    obtain ⟨s', hs', hsid', hsaddress'⟩ := exists_shard hb
    have hpromised := h.ordered _ rfl s hs s' hs'
    rw [index_lt_iff hids hlen hs hs', hsid, hsid', hsaddress, hsaddress', (manual_node hsup ha).1,
      (manual_node hsup hb).1, (manual_node hsup ha).2, (manual_node hsup hb).2, manual_lt_iff]
      at hpromised
    exact hpromised.symm
  · rintro ⟨hlen, hdigest⟩
    refine ⟨plan_nodes nodes, .of_eq (plan_indices hlen), ?_, ?_, ?_⟩
    · intro s hs
      obtain ⟨i, hi, rfl⟩ := mem_broadcastPlan.1 hs
      dsimp only
      rw [int32_of_lt hlen]
    · intro nodes' hp
      rw [broadcastPlan_eq, broadcastPlan_eq, byNodeID_eq hids hp, hp.length_eq]
    · intro key hkey s hs s' hs'
      rw [index_lt_iff hids hlen hs hs']
      cases source with
      | dynamic =>
        cases hkey
        exact Iff.rfl
      | override => cases hkey
      | manual =>
        obtain rfl := Option.some.inj hkey
        obtain ⟨a, ha, hsid, hsaddress⟩ := exists_node hs
        obtain ⟨b, hb, hsid', hsaddress'⟩ := exists_node hs'
        dsimp only
        rw [hsid, hsid', hsaddress, hsaddress', (manual_node hsup ha).1, (manual_node hsup hb).1,
          (manual_node hsup ha).2, (manual_node hsup hb).2, manual_lt_iff]
        exact (hdigest rfl a ha b hb).symm

/-- The first eight bytes of the SHA-256 digests of three addresses. -/
def workerDigest (address : String) : String :=
  if address = "http://worker-a:9999" then "48849155d24212be"
  else if address = "http://worker-b:9999" then "ea1db730da3c2118"
  else "5fe0e84609991072"

def workers : List ExecutorNode := replaceManualExecutorNodes workerDigest 0 7
  ["http://worker-a:9999", "http://worker-b:9999", "http://worker-c:9999"]

/-- The digests of the first two workers are in the order of their addresses. -/
theorem planned_iff_workers : Planned .manual (replaceManualExecutorNodes workerDigest 0 7
    ["http://worker-a:9999", "http://worker-b:9999"]) :=
  (planned_iff workerDigest .manual _ ⟨0, 7, _, by decide +kernel, fun _ h => h⟩
    (by decide +kernel)).2 ⟨by decide +kernel, fun _ => by decide +kernel⟩

/-- The third worker comes before the second. -/
theorem workers_not_planned : NodeSource.manual.Supplies workerDigest workers ∧
    (workers.map ExecutorNode.nodeID).Nodup ∧ ¬ Planned .manual workers := by
  refine ⟨⟨0, 7, _, by decide +kernel, fun _ h => h⟩, by decide +kernel, fun h => ?_⟩
  have hpromised := h.ordered _ rfl ⟨"manual-5fe0e84609991072", "http://worker-c:9999", 1, 3⟩
    (by decide +kernel) ⟨"manual-ea1db730da3c2118", "http://worker-b:9999", 2, 3⟩
    (by decide +kernel)
  revert hpromised
  decide +kernel

end GoScheduler.Store
