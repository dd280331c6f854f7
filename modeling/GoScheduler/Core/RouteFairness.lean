import GoScheduler.Core.RouteReservations
import GoScheduler.Fairness
import Mathlib.Data.Prod.Lex
import Mathlib.Data.String.Basic

/-! Fairness of the reservations of one job, over every interleaving: `round` takes turns, `lfu`
keeps the use counts together, and `lru` follows the recorded start times. -/
namespace GoScheduler.Core
open Store Schedule ReadCommitted Fairness

section Select

variable {hash : String → UInt32} {nodes : List ExecutorCandidate} {cursor : Int} {random : ℕ}
  {key : String} {x : ExecutorCandidate}

theorem map_id_byID {ids : List String} (hids : (nodes.map ExecutorCandidate.id).Perm ids) :
    (ExecutorCandidate.byID nodes).map ExecutorCandidate.id = ids.insertionSort (· ≤ ·) := by
  have hsorted : (ExecutorCandidate.byID nodes).Pairwise fun a b => a.id ≤ b.id :=
    haveI : Std.Total fun a b : ExecutorCandidate => a.id ≤ b.id := ⟨fun a b => le_total a.id b.id⟩
    haveI : IsTrans ExecutorCandidate fun a b => a.id ≤ b.id := ⟨fun _ _ _ => le_trans⟩
    List.pairwise_insertionSort _ nodes
  have hperm : ((ExecutorCandidate.byID nodes).map ExecutorCandidate.id).Perm
      (ids.insertionSort (· ≤ ·)) :=
    (((List.perm_insertionSort _ nodes).map _).trans hids).trans
      (List.perm_insertionSort _ ids).symm
  exact hperm.eq_of_pairwise (fun a b _ _ => le_antisymm) (List.pairwise_map.2 hsorted)
    (List.pairwise_insertionSort _ ids)

theorem sortAndFirst_first {β : Type} [LinearOrder β] (first : ExecutorCandidate)
    (rest : List ExecutorCandidate) {less : ExecutorCandidate → ExecutorCandidate → Bool}
    {rank : ExecutorCandidate → β} (hless : ∀ a b, less a b = true ↔ rank a < rank b) :
    sortAndFirst first rest less ∈ first :: rest ∧
      ∀ y ∈ first :: rest, rank (sortAndFirst first rest less) ≤ rank y := by
  have hle : ∀ a b, less b a = false ↔ rank a ≤ rank b := fun a b => by
    rw [← not_lt, ← hless, Bool.not_eq_true]
  have hsorted : ((first :: rest).insertionSort fun a b => less b a = false).Pairwise
      fun a b => less b a = false :=
    haveI : Std.Total fun a b : ExecutorCandidate => less b a = false :=
      ⟨fun a b => by simpa only [hle] using le_total (rank a) (rank b)⟩
    haveI : IsTrans ExecutorCandidate fun a b => less b a = false :=
      ⟨fun a b c => by simpa only [hle] using le_trans⟩
    List.pairwise_insertionSort _ _
  have hmem : ∀ y, y ∈ (first :: rest).insertionSort (fun a b => less b a = false) ↔
      y ∈ first :: rest := fun y => List.mem_insertionSort _
  unfold sortAndFirst
  cases hsort : (first :: rest).insertionSort fun a b => less b a = false with
  | nil =>
    rw [hsort] at hmem
    cases (hmem first).2 List.mem_cons_self
  | cons head tail =>
    rw [hsort] at hsorted hmem
    refine ⟨(hmem head).1 List.mem_cons_self, fun y hy => ?_⟩
    rcases List.mem_cons.1 ((hmem y).2 hy) with rfl | htail
    · exact le_rfl
    · exact (hle _ _).1 ((List.pairwise_cons.1 hsorted).1 y htail)

theorem select_round {ids : List String} (hids : (nodes.map ExecutorCandidate.id).Perm ids)
    (h : selectExecutorNode hash nodes .round cursor random key = .ok x) :
    (ids.insertionSort (· ≤ ·))[cursor.toNat % ids.length]? = some x.id := by
  have hlen : ids.length = (ExecutorCandidate.byID nodes).length := by
    rw [← hids.length_eq, List.length_map]
    exact (List.perm_insertionSort _ nodes).length_eq.symm
  rw [← map_id_byID hids, hlen]
  unfold selectExecutorNode at h
  cases hsorted : ExecutorCandidate.byID nodes with
  | nil =>
    rw [hsorted] at h
    cases h
  | cons first rest =>
    rw [hsorted] at h
    injection h with h
    have hlt : cursor.toNat % (rest.length + 1) < (first :: rest).length :=
      Nat.mod_lt _ (Nat.succ_pos _)
    rw [← h, List.getElem?_map, List.length_cons, List.getElem?_eq_getElem hlt,
      List.getD_eq_getElem?_getD,
      List.getElem?_eq_getElem hlt]
    rfl

theorem select_sorted {β : Type} [LinearOrder β] {first : ExecutorCandidate}
    {rest : List ExecutorCandidate} {less : ExecutorCandidate → ExecutorCandidate → Bool}
    (rank : ExecutorCandidate → β) (hsorted : ExecutorCandidate.byID nodes = first :: rest)
    (hless : ∀ a b, less a b = true ↔ rank a < rank b) :
    sortAndFirst first rest less ∈ nodes ∧
      ∀ y ∈ nodes, rank (sortAndFirst first rest less) ≤ rank y := by
  have hmem : ∀ y, y ∈ first :: rest ↔ y ∈ nodes := fun y => by
    rw [← hsorted]
    exact List.mem_insertionSort _
  obtain ⟨hin, hleast⟩ := sortAndFirst_first first rest hless
  exact ⟨(hmem _).1 hin, fun y hy => hleast y ((hmem y).2 hy)⟩

theorem select_lfu (h : selectExecutorNode hash nodes .lfu cursor random key = .ok x) :
    x ∈ nodes ∧ ∀ y ∈ nodes, toLex (x.useCount, x.id) ≤ toLex (y.useCount, y.id) := by
  unfold selectExecutorNode at h
  cases hsorted : ExecutorCandidate.byID nodes with
  | nil =>
    rw [hsorted] at h
    cases h
  | cons first rest =>
    rw [hsorted] at h
    injection h with h
    rw [← h]
    refine select_sorted (fun c => toLex (c.useCount, c.id)) hsorted fun a b => ?_
    simp only [Prod.Lex.toLex_lt_toLex, Bool.or_eq_true, Bool.and_eq_true, decide_eq_true_eq,
      beq_iff_eq]

theorem select_lru (h : selectExecutorNode hash nodes .lru cursor random key = .ok x) :
    x ∈ nodes ∧ ∀ y ∈ nodes, toLex (x.lastUsedAt, x.id) ≤ toLex (y.lastUsedAt, y.id) := by
  unfold selectExecutorNode at h
  cases hsorted : ExecutorCandidate.byID nodes with
  | nil =>
    rw [hsorted] at h
    cases h
  | cons first rest =>
    rw [hsorted] at h
    injection h with h
    rw [← h]
    refine select_sorted (fun c => toLex (c.lastUsedAt, c.id)) hsorted fun a b => ?_
    rw [Prod.Lex.toLex_lt_toLex]
    split
    · next he => simp [he]
    · next hne => simp [hne]

end Select

namespace RouteSetting

def choices (c : RouteSetting) (h : List (Reservation × ExecutorNode)) : List (String × Int) :=
  (h.filter fun e => e.1.jobID = c.jobID).map fun e => (e.2.nodeID, e.1.now)

def useCount (c : RouteSetting) (d : RouteDb) (id : String) : ℕ :=
  (d.row (.use c.jobID id)).elim 0 (·.useCount)

def lastUsedAt (c : RouteSetting) (d : RouteDb) (id : String) : Int :=
  (d.row (.use c.jobID id)).elim zeroTime (·.lastUsedAt)

def Grouped (c : RouteSetting) (d : RouteDb) : Prop :=
  ∀ id ∈ c.ids, ∀ u ∈ d.row (.use c.jobID id), u.groupID = c.groupID

variable {c : RouteSetting} {t : Reservation} {n : ExecutorNode} {d d' : RouteDb}
  {h : List (Reservation × ExecutorNode)}

theorem choices_own (hjob : t.jobID = c.jobID) :
    c.choices ((t, n) :: h) = (n.nodeID, t.now) :: c.choices h := by
  simp [choices, hjob]

theorem choices_other (hjob : t.jobID ≠ c.jobID) : c.choices ((t, n) :: h) = c.choices h := by
  simp [choices, hjob]

theorem candidates_ids (hadmits : c.Admits t) (hjob : t.jobID = c.jobID) (d : RouteDb) :
    ((c.candidates t d).map ExecutorCandidate.id).Perm c.ids := by
  obtain ⟨-, -, hids⟩ := hadmits.2 hjob
  rwa [candidates, List.map_map]

theorem candidates_uses (hadmits : c.Admits t) (hjob : t.jobID = c.jobID) (hd : c.Grouped d)
    {y : ExecutorCandidate} (hy : y ∈ c.candidates t d) :
    y.id ∈ c.ids ∧ y.useCount = c.useCount d y.id ∧ y.lastUsedAt = c.lastUsedAt d y.id := by
  have hid : y.id ∈ c.ids := (candidates_ids hadmits hjob d).mem_iff.1 (List.mem_map_of_mem hy)
  obtain ⟨node, hnode, rfl⟩ := List.mem_map.1 hy
  have hgroup : node.groupID = c.groupID := by
    obtain ⟨hfixed, -⟩ := hadmits.2 hjob
    have hin := (mem_routableNodes.1 (mem_filterExecutorNodes.1 hnode).1).2.1
    exact Option.some.inj (hin.trans hfixed)
  have huses : usesOf c.jobID d node = d.row (.use c.jobID node.nodeID) := by
    unfold usesOf
    cases hrow : d.row (.use c.jobID node.nodeID) with
    | none => rfl
    | some u => simp [hgroup, hd _ hid u hrow]
  refine ⟨hid, ?_, ?_⟩
  · rw [huses]
    rfl
  · rw [huses]
    rfl

theorem Grouped.of_none (hnone : ∀ id ∈ c.ids, d.row (.use c.jobID id) = none) : c.Grouped d := by
  intro id hid u hu
  rw [hnone id hid] at hu
  cases hu

theorem Grouped.step (hd : c.Grouped d) (hadmits : c.Admits t) (hr : c.Reserves t n d d') :
    c.Grouped d' := by
  intro id hid u hu
  by_cases hjob : t.jobID = c.jobID
  · rw [(hr.rows hadmits hjob).2] at hu
    split at hu
    · cases hu
      cases hrow : d.row (.use c.jobID id) with
      | none => rfl
      | some u => exact hd id hid u hrow
    · exact hd id hid u hu
  · rw [(hr.other (Ne.symm hjob)).2] at hu
    exact hd id hid u hu

theorem chosen_lfu (hs : c.strategy = .lfu) (hadmits : c.Admits t) (hjob : t.jobID = c.jobID)
    (hd : c.Grouped d) (hr : c.Reserves t n d d') :
    n.nodeID ∈ c.ids ∧ ∀ id ∈ c.ids, c.useCount d n.nodeID ≤ c.useCount d id := by
  obtain ⟨x, hx, hid⟩ := hr.choice hadmits hjob
  rw [hs] at hx
  obtain ⟨hmem, hleast⟩ := select_lfu hx
  obtain ⟨hin, hcount, -⟩ := candidates_uses hadmits hjob hd hmem
  rw [← hid, ← hcount]
  refine ⟨hin, fun id hmem' => ?_⟩
  obtain ⟨y, hy, rfl⟩ := List.mem_map.1 ((candidates_ids hadmits hjob d).mem_iff.2 hmem')
  rw [← (candidates_uses hadmits hjob hd hy).2.1]
  rcases Prod.Lex.toLex_le_toLex.1 (hleast y hy) with hlt | ⟨heq, -⟩
  · exact hlt.le
  · exact heq.le

theorem chosen_lru (hs : c.strategy = .lru) (hadmits : c.Admits t) (hjob : t.jobID = c.jobID)
    (hd : c.Grouped d) (hr : c.Reserves t n d d') :
    n.nodeID ∈ c.ids ∧ ∀ id ∈ c.ids,
      toLex (c.lastUsedAt d n.nodeID, n.nodeID) ≤ toLex (c.lastUsedAt d id, id) := by
  obtain ⟨x, hx, hid⟩ := hr.choice hadmits hjob
  rw [hs] at hx
  obtain ⟨hmem, hleast⟩ := select_lru hx
  obtain ⟨hin, -, hlast⟩ := candidates_uses hadmits hjob hd hmem
  rw [← hid, ← hlast]
  refine ⟨hin, fun id hmem' => ?_⟩
  obtain ⟨y, hy, rfl⟩ := List.mem_map.1 ((candidates_ids hadmits hjob d).mem_iff.2 hmem')
  rw [← (candidates_uses hadmits hjob hd hy).2.2]
  exact hleast y hy

theorem chosen_round (hs : c.strategy = .round) (hadmits : c.Admits t) (hjob : t.jobID = c.jobID)
    (hr : c.Reserves t n d d') :
    (c.ids.insertionSort (· ≤ ·))[((routeTables d).count c.jobID).toNat % c.ids.length]? =
      some n.nodeID := by
  obtain ⟨x, hx, hid⟩ := hr.choice hadmits hjob
  rw [hs] at hx
  rw [← hid]
  exact select_round (candidates_ids hadmits hjob d) hx

variable {m₀ m : Machine Reservation RouteKey RouteRow RouteError ExecutorNode}

theorem Runs.turns (hm : c.Runs m₀ m) (hs : c.strategy = .round)
    (hcounter : ∀ count ∈ m₀.store.committed.row (.counter c.jobID), 0 ≤ count) :
    ∃ k, Turns (c.ids.insertionSort (· ≤ ·)) k ((c.choices m.history).map Prod.fst) := by
  have hfirst : 0 ≤ (routeTables m₀.store.committed).count c.jobID := by
    unfold RouteTables.count
    cases hrow : (routeTables m₀.store.committed).counters c.jobID with
    | none => exact le_rfl
    | some count => exact Int.add_nonneg (hcounter count hrow) Int.one_nonneg
  obtain ⟨k, hk⟩ := Int.eq_ofNat_of_zero_le hfirst
  refine ⟨k, (hm.history (P := fun h d =>
    (routeTables d).count c.jobID = ↑(k + (c.choices h).length) ∧
      Turns (c.ids.insertionSort (· ≤ ·)) k ((c.choices h).map Prod.fst)) ?_ ?_ ?_).2⟩
  · rintro h d d' hrow ⟨hcount, hturns⟩
    exact ⟨(count_congr (by rw [hrow])).trans hcount, hturns⟩
  · exact ⟨hk, .nil _ _⟩
  · rintro t n h d d' - hadmits hr ⟨hcount, hturns⟩
    by_cases hjob : t.jobID = c.jobID
    · rw [choices_own hjob]
      constructor
      · unfold RouteTables.count
        rw [routeTables_counters, (hr.rows hadmits hjob).1, hcount]
        simp [add_assoc]
      · refine hturns.cons ?_
        have hchosen := chosen_round hs hadmits hjob hr
        rw [hcount, Int.toNat_natCast] at hchosen
        rwa [List.length_map, List.length_insertionSort]
    · rw [choices_other hjob]
      exact ⟨(count_congr (hr.other (Ne.symm hjob)).1).trans hcount, hturns⟩

theorem useCount_own (hadmits : c.Admits t) (hjob : t.jobID = c.jobID) (hr : c.Reserves t n d d') :
    c.useCount d' = Function.update (c.useCount d) n.nodeID (c.useCount d n.nodeID + 1) := by
  funext id
  unfold useCount
  rw [(hr.rows hadmits hjob).2]
  by_cases hid : id = n.nodeID
  · subst hid
    rw [if_pos rfl, Function.update_self]
    cases d.row (.use c.jobID n.nodeID) <;> rfl
  · rw [if_neg hid, Function.update_of_ne hid]

theorem useCount_congr (huse : ∀ node, d'.row (.use c.jobID node) = d.row (.use c.jobID node)) :
    c.useCount d' = c.useCount d := by
  funext id
  unfold useCount
  rw [huse]

theorem Runs.balanced (hm : c.Runs m₀ m) (hs : c.strategy = .lfu)
    (hnone : ∀ id ∈ c.ids, m₀.store.committed.row (.use c.jobID id) = none) :
    Balanced c.ids (c.useCount m.store.committed) := by
  refine (hm.history (P := fun _ d => c.Grouped d ∧ Balanced c.ids (c.useCount d)) ?_ ?_ ?_).2
  · rintro h d d' hrow ⟨hd, hbalanced⟩
    have hsame : c.useCount d' = c.useCount d := useCount_congr fun node => by rw [hrow]
    rw [hsame]
    exact ⟨fun id hid u hu => hd id hid u (by rwa [hrow] at hu), hbalanced⟩
  · refine ⟨.of_none hnone, fun a ha b hb => ?_⟩
    unfold useCount
    rw [hnone a ha]
    exact Nat.zero_le _
  · rintro t n h d d' - hadmits hr ⟨hd, hbalanced⟩
    refine ⟨hd.step hadmits hr, ?_⟩
    by_cases hjob : t.jobID = c.jobID
    · rw [useCount_own hadmits hjob hr]
      exact hbalanced.bump (chosen_lfu hs hadmits hjob hd hr).2
    · rwa [useCount_congr (hr.other (Ne.symm hjob)).2]

def pairJob : Job := { plainJob with id := 1, executorGroupID := some 7 }

def pairRegistry (strategy : RouteStrategy) : Db :=
  ⟨[.executorGroup 7, .executorNode 7 "a", .executorNode 7 "b", .job 1],
    fun
    | .executorGroup id => if id = 7 then some ⟨strategy⟩ else none
    | .executorNode g n =>
        if g = 7 ∧ n = "a" then some ⟨7, "a", "a:9090", false, 200, []⟩
        else if g = 7 ∧ n = "b" then some ⟨7, "b", "b:9090", false, 200, []⟩
        else none
    | .job id => if id = 1 then some pairJob else none
    | _ => none,
    0⟩

def pairSetting (strategy : RouteStrategy) : RouteSetting where
  env := quietEnv
  registry _ := pairRegistry strategy
  jobID := 1
  groupID := 7
  strategy := strategy
  ids := ["a", "b"]
  nodup := by decide

def pairReservation (serial : ℕ) (now : Int) : Reservation :=
  ⟨serial, now, 0, { dockerRetry "" "" with job := pairJob }, ([], [])⟩

def reserveAll (t : Reservation) : List (Label Reservation RouteKey) :=
  List.replicate 4 (.exec t ⟨0, 0, []⟩) ++ [.finish t]

/-- The second reservation starts first and comes second to the counter. -/
def overtaking : List (Label Reservation RouteKey) :=
  [.begin (pairReservation 2 5), .tick 5, .begin (pairReservation 1 10)] ++
    reserveAll (pairReservation 1 10) ++ reserveAll (pairReservation 2 5) ++
    [.tick 1, .begin (pairReservation 3 11)] ++ reserveAll (pairReservation 3 11)

theorem exists_runs (c : RouteSetting) (clock : Int) (ls : List (Label Reservation RouteKey))
    (p : Machine Reservation RouteKey RouteRow RouteError ExecutorNode → Bool)
    (h : ((Machine.init clock).runWhile c.system (fun _ _ _ => true) ls).map p = some true) :
    ∃ m, c.Runs (Machine.init clock) m ∧ p m = true := by
  obtain ⟨m, hm, hp⟩ := Machine.exists_reachableFrom _ (fun _ _ _ _ => trivial) ls p h
  exact ⟨m, ⟨Machine.atRest_init clock, rfl, hm⟩, hp⟩

/-- Whatever the interleaving: with `round`, each node is chosen once by any committed
reservations of the job that are as many as the nodes and follow each other; with `lfu`, from a
time at which no use is recorded on, no two use counts are more than one apart. -/
theorem reservations_fair (c : RouteSetting)
    (m₀ m : Machine Reservation RouteKey RouteRow RouteError ExecutorNode) (hm : c.Runs m₀ m) :
    (c.strategy = .round →
      (∀ count ∈ m₀.store.committed.row (.counter c.jobID), 0 ≤ count) →
      ∀ window, window <:+: (c.choices m.history).map Prod.fst → window.length = c.ids.length →
        window.Perm c.ids) ∧
    (c.strategy = .lfu → (∀ id ∈ c.ids, m₀.store.committed.row (.use c.jobID id) = none) →
      ∀ a ∈ c.ids, ∀ b ∈ c.ids,
        c.useCount m.store.committed a ≤ c.useCount m.store.committed b + 1) := by
  constructor
  · intro hs hcounter window hwindow hlen
    obtain ⟨k, hturns⟩ := hm.turns hs hcounter
    have hsorted : (c.ids.insertionSort (· ≤ ·)).Perm c.ids := List.perm_insertionSort _ c.ids
    exact (hturns.window hwindow (hlen.trans hsorted.length_eq.symm)).trans hsorted
  · intro hs hnone
    exact hm.balanced hs hnone

theorem reservations_fair_pair : ∃ m m',
    (pairSetting .round).Runs (Machine.init 5) m ∧ (pairSetting .lfu).Runs (Machine.init 5) m' ∧
    ((pairSetting .round).choices m.history).map Prod.fst = ["a", "b", "a"] ∧
    (∀ window, window <:+: ((pairSetting .round).choices m.history).map Prod.fst →
      window.length = 2 → window.Perm ["a", "b"]) ∧
    (pairSetting .lfu).useCount m'.store.committed "a" = 2 ∧
    ∀ x ∈ ["a", "b"], ∀ y ∈ ["a", "b"], (pairSetting .lfu).useCount m'.store.committed x ≤
      (pairSetting .lfu).useCount m'.store.committed y + 1 := by
  obtain ⟨m, hm, hchoices⟩ := exists_runs (pairSetting .round) 5 overtaking
    (fun m => ((pairSetting .round).choices m.history).map Prod.fst == ["a", "b", "a"])
    (by decide +kernel)
  obtain ⟨m', hm', hcount⟩ := exists_runs (pairSetting .lfu) 5 overtaking
    (fun m => (pairSetting .lfu).useCount m.store.committed "a" == 2) (by decide +kernel)
  exact ⟨m, m', hm, hm', eq_of_beq hchoices,
    (reservations_fair (pairSetting .round) _ m hm).1 rfl fun _ h => (nomatch h),
    eq_of_beq hcount, (reservations_fair (pairSetting .lfu) _ m' hm').2 rfl fun _ _ => rfl⟩

/-! Recency. -/

def lastChoice (older : List (String × Int)) (id : String) : Int :=
  (older.find? fun e => e.1 = id).elim zeroTime (·.2)

theorem lastChoice_cons (e : String × Int) (older : List (String × Int)) (id : String) :
    lastChoice (e :: older) id = if id = e.1 then e.2 else lastChoice older id := by
  unfold lastChoice
  by_cases he : id = e.1
  · rw [if_pos he, List.find?_cons_of_pos (by simp [he])]
    rfl
  · rw [if_neg he, List.find?_cons_of_neg (by simp [Ne.symm he])]

theorem lastChoice_of_notMem {older : List (String × Int)} {id : String}
    (hid : id ∉ older.map Prod.fst) : lastChoice older id = zeroTime := by
  unfold lastChoice
  rw [List.find?_eq_none.2 fun e he => ?_]
  · rfl
  · simp only [decide_eq_true_eq]
    rintro rfl
    exact hid (List.mem_map_of_mem he)

theorem le_lastChoice {older : List (String × Int)} {id : String} {start : Int}
    (hstart : ∀ e ∈ older, start ≤ e.2) (hid : id ∈ older.map Prod.fst) :
    start ≤ lastChoice older id := by
  induction older with
  | nil => cases hid
  | cons e older ih =>
    rw [lastChoice_cons]
    split
    · exact hstart e List.mem_cons_self
    · next hne =>
      refine ih (fun e' he' => hstart e' (List.mem_cons_of_mem _ he')) ?_
      exact (List.mem_cons.1 hid).resolve_left hne

theorem lastUsedAt_own (hadmits : c.Admits t) (hjob : t.jobID = c.jobID)
    (hr : c.Reserves t n d d') (id : String) :
    c.lastUsedAt d' id = if id = n.nodeID then t.now else c.lastUsedAt d id := by
  unfold lastUsedAt
  rw [(hr.rows hadmits hjob).2]
  split
  · cases d.row (.use c.jobID id) <;> rfl
  · rfl

/-- Every choice was first by the start times of the last choices before it. -/
def FirstByTime (c : RouteSetting) (choices : List (String × Int)) : Prop :=
  ∀ newer e older, choices = newer ++ e :: older → e.1 ∈ c.ids ∧ ∀ id ∈ c.ids,
    toLex (lastChoice older e.1, e.1) ≤ toLex (lastChoice older id, id)

theorem FirstByTime.cons {choices : List (String × Int)} {e : String × Int}
    (hchoices : c.FirstByTime choices) (he : e.1 ∈ c.ids ∧ ∀ id ∈ c.ids,
      toLex (lastChoice choices e.1, e.1) ≤ toLex (lastChoice choices id, id)) :
    c.FirstByTime (e :: choices) := by
  intro newer e' older h
  cases newer with
  | nil =>
    cases h
    exact he
  | cons e'' newer =>
    injection h with _ h
    exact hchoices newer e' older h

theorem Runs.firstByTime (hm : c.Runs m₀ m) (hs : c.strategy = .lru)
    (hnone : ∀ id ∈ c.ids, m₀.store.committed.row (.use c.jobID id) = none) :
    (∀ e ∈ c.choices m.history, m₀.store.clock ≤ e.2) ∧ c.FirstByTime (c.choices m.history) := by
  refine (hm.history (P := fun h d => (c.Grouped d ∧
    ∀ id ∈ c.ids, c.lastUsedAt d id = lastChoice (c.choices h) id) ∧
      (∀ e ∈ c.choices h, m₀.store.clock ≤ e.2) ∧ c.FirstByTime (c.choices h)) ?_ ?_ ?_).2
  · rintro h d d' hrow ⟨⟨hd, hlast⟩, hrest⟩
    refine ⟨⟨fun id hid u hu => hd id hid u (by rwa [hrow] at hu), fun id hid => ?_⟩, hrest⟩
    rw [← hlast id hid, lastUsedAt, hrow]
    rfl
  · refine ⟨⟨.of_none hnone, fun id hid => ?_⟩, fun e he => (nomatch he), fun newer e older h => ?_⟩
    · rw [lastUsedAt, hnone id hid]
      rfl
    · exact absurd h (by simp [choices])
  · rintro t n h d d' hstart hadmits hr ⟨⟨hd, hlast⟩, htimes, hfirst⟩
    by_cases hjob : t.jobID = c.jobID
    · rw [choices_own hjob]
      obtain ⟨hin, hleast⟩ := chosen_lru hs hadmits hjob hd hr
      refine ⟨⟨hd.step hadmits hr, fun id hid => ?_⟩, ?_, hfirst.cons ⟨hin, fun id hid => ?_⟩⟩
      · rw [lastUsedAt_own hadmits hjob hr, lastChoice_cons, hlast id hid]
      · rintro e (_ | ⟨_, he⟩)
        · exact hstart
        · exact htimes e he
      · rw [← hlast id hid, ← hlast _ hin]
        exact hleast id hid
    · rw [choices_other hjob]
      refine ⟨⟨hd.step hadmits hr, fun id hid => ?_⟩, htimes, hfirst⟩
      rw [← hlast id hid, lastUsedAt, (hr.other (Ne.symm hjob)).2]
      rfl

end RouteSetting

end GoScheduler.Core
