import GoScheduler.Store.System

/-! The rows of a table under their keys: which rows a query returns, that it returns each
once, and what the scheduler reads of the jobs that are due. -/
namespace GoScheduler.Store
open ReadCommitted Schedule

structure Keyed (row : (k : Key) → Option (Row k)) : Prop where
  run : ∀ id r, row (.run id) = some r → r.id = id
  job : ∀ id j, row (.job id) = some j → j.id = id
  dependency : ∀ p c e, row (.dependency p c) = some e → e.parentJobID = p ∧ e.childJobID = c
  cluster : ∀ id kc, row (.kubernetesCluster id) = some kc → kc.id = id

section Tables

variable {d : Db}

theorem mem_runs {id : ℕ} {r : Run} (h : d.row (.run id) = some r)
    (hk : .run id ∈ d.keys) : r ∈ runs d :=
  List.mem_filterMap.2 ⟨_, hk, h⟩

theorem exists_of_mem_runs {r : Run} (h : r ∈ runs d) :
    ∃ id, d.row (.run id) = some r := by
  obtain ⟨k, _, hr⟩ := List.mem_filterMap.1 h
  split at hr
  · exact ⟨_, hr⟩
  · cases hr

theorem exists_of_mem_jobs {j : Job} (h : j ∈ jobs d) :
    ∃ id, d.row (.job id) = some j := by
  obtain ⟨k, _, hj⟩ := List.mem_filterMap.1 h
  split at hj
  · exact ⟨_, hj⟩
  · cases hj

theorem keys_sublist {κ β : Type} {f : κ → Option β} {g : β → κ}
    (h : ∀ k b, f k = some b → g b = k) (ks : List κ) :
    ((ks.filterMap f).map g).Sublist ks := by
  induction ks with
  | nil => simp
  | cons k ks ih =>
    cases hk : f k with
    | none => simpa [hk] using ih.cons k
    | some b => simpa [hk, h k b hk] using ih.cons_cons k

theorem nodup_runs (hk : Keyed d.row) (hn : d.keys.Nodup) :
    ((runs d).map fun r => Key.run r.id).Nodup := by
  refine (keys_sublist (fun k r h => ?_) d.keys).nodup hn
  split at h
  · rw [hk.run _ r h]
  · cases h

theorem nodup_jobs (hk : Keyed d.row) (hn : d.keys.Nodup) :
    ((jobs d).map fun j => Key.job j.id).Nodup := by
  refine (keys_sublist (fun k j h => ?_) d.keys).nodup hn
  split at h
  · rw [hk.job _ j h]
  · cases h

theorem nodup_eligible {now : Int} (hk : Keyed d.row) (hn : d.keys.Nodup) :
    ((eligible now d).map fun c => Key.run c.run.id).Nodup := by
  have hsub : ((candidates now d).map fun c => Key.run c.run.id).Sublist
      ((runs d).map fun r => Key.run r.id) := by
    unfold candidates
    refine List.Sublist.trans ?_ ((List.filter_sublist (p := claimable now)).map _)
    generalize (runs d).filter (claimable now) = rs
    induction rs with
    | nil => simp
    | cons r rs ih =>
      rw [List.filterMap_cons]
      split
      · exact ih.cons _
      · next c hc =>
          have hrun : c.run = r := by
            simp only [Option.bind_eq_bind, Option.bind_eq_some_iff] at hc
            obtain ⟨j, _, tn, _, hc⟩ := hc
            cases hc
            rfl
          rw [List.map_cons, hrun, List.map_cons]
          exact ih.cons_cons _
  have hperm := (List.perm_insertionSort (fun a b => claimOrder a.run b.run)
    ((candidates now d).filter (withinLimits now d (candidates now d)))).map
      fun c => Key.run c.run.id
  rw [eligible, hperm.nodup_iff]
  exact ((List.filter_sublist.map _).trans hsub).nodup (nodup_runs hk hn)

end Tables

section Due

variable {d : Db} {j : Job}

theorem mem_dueJobs {now : Int} {x : Key × Job} (hk : Keyed d.row) (h : x ∈ dueJobs now d) :
    x.1 = .job x.2.id ∧ d.row (.job x.2.id) = some x.2 ∧ isDue now x.2 = true := by
  obtain ⟨j, hj, rfl⟩ := List.mem_map.1 h
  rw [List.mem_insertionSort, List.mem_filter] at hj
  obtain ⟨id, hrow⟩ := exists_of_mem_jobs hj.1
  obtain rfl := hk.job id j hrow
  exact ⟨rfl, hrow, hj.2⟩

theorem nodup_dueJobs {now : Int} (hk : Keyed d.row) (hn : d.keys.Nodup) :
    ((dueJobs now d).map Prod.fst).Nodup := by
  have hperm := (List.perm_insertionSort (fun a b : Job => a.nextRunAt.getD 0 ≤ b.nextRunAt.getD 0)
    ((jobs d).filter (isDue now))).map fun j => Key.job j.id
  rw [dueJobs, List.map_map]
  refine hperm.nodup_iff.2 ?_
  exact (List.filter_sublist.map _).nodup (nodup_jobs hk hn)

theorem scanJob_eq {env : Env} {j' : Job} (h : scanJob env j = .ok j') : j' = j := by
  simp only [scanJob, bind, Except.bind] at h
  split at h
  · cases h
  split at h
  · cases h
  split at h
  · cases h
  split at h
  · split at h <;> cases h
    rfl
  · cases h
    rfl

theorem scanJobs_eq {env : Env} {js due : List Job} (h : js.mapM (scanJob env) = .ok due) :
    due = js := by
  induction js generalizing due with
  | nil =>
    cases h
    rfl
  | cons j js ih =>
    rw [List.mapM_cons] at h
    simp only [bind, Except.bind] at h
    split at h
    · cases h
    · next hj =>
        split at h
        · cases h
        · next hjs =>
            cases h
            rw [scanJob_eq hj, ih hjs]

theorem executorRouteStrategies_eq {due : List Job}
    {strategies : List (Option ℕ × Option RouteStrategy)}
    (h : executorRouteStrategies due d = some strategies) :
    strategies.map Prod.snd = due.map fun j => routeStrategy d j.executorGroupID := by
  induction due generalizing strategies with
  | nil =>
    cases h
    rfl
  | cons j due ih =>
    simp only [executorRouteStrategies, List.mapM_cons, Option.bind_eq_bind,
      Option.bind_eq_some_iff] at h
    obtain ⟨s, hs, ss, hss, h⟩ := h
    cases h
    rw [List.map_cons, List.map_cons, ih hss]
    congr 1
    cases hg : j.executorGroupID with
    | none =>
      rw [hg] at hs
      cases hs
      rfl
    | some g =>
      rw [hg] at hs
      obtain ⟨e, he, rfl⟩ := Option.map_eq_some_iff.1 hs
      simp [routeStrategy, he]

theorem zip_map_self {α β : Type} (f : α → β) (xs : List α) :
    xs.zip (xs.map f) = xs.map fun x => (x, f x) := by
  induction xs with
  | nil => rfl
  | cons x xs ih => rw [List.map_cons, List.zip_cons_cons, ih, List.map_cons]

end Due

end GoScheduler.Store
