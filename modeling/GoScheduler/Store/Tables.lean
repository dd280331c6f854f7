import GoScheduler.ReadCommitted.Outcome
import GoScheduler.Store.Tick

/-! The tables of a well-formed database: every row stands under its own key and is listed
once. -/
namespace GoScheduler.Store
open ReadCommitted

namespace WellFormed

variable {d : Db} {r : Run} {j : Job}

theorem listed (h : WellFormed d) (k : Key) (v : Row k) (hrow : d.row k = some v) :
    k ∈ d.keys := by
  by_contra hk
  rw [h.absent k hk] at hrow
  cases hrow

theorem mem_runs_iff (h : WellFormed d) : r ∈ runs d ↔ d.row (.run r.id) = some r := by
  constructor
  · intro hr
    obtain ⟨id, hrow⟩ := exists_of_mem_runs hr
    rwa [h.keyed.run id r hrow]
  · exact fun hrow => mem_runs hrow (h.listed _ r hrow)

theorem mem_jobs_iff (h : WellFormed d) : j ∈ jobs d ↔ d.row (.job j.id) = some j := by
  constructor
  · intro hj
    obtain ⟨id, hrow⟩ := exists_of_mem_jobs hj
    rwa [h.keyed.job id j hrow]
  · exact fun hrow => List.mem_filterMap.2 ⟨.job j.id, h.listed _ j hrow, hrow⟩

theorem nodup_runIDs (h : WellFormed d) : ((runs d).map Run.id).Nodup := by
  refine List.Nodup.of_map Key.run ?_
  rw [List.map_map]
  exact nodup_runs h.keyed h.nodup

theorem runs_rewritten (h : WellFormed d) {d' : Db} (hkeys : d.KeysGrow d')
    (hrow : ∀ id, (d'.row (.run id)).isSome = (d.row (.run id)).isSome) :
    runs d' = (runs d).map fun r => (d'.row (.run r.id)).getD r := by
  obtain ⟨new, hkeys, hnew⟩ := hkeys
  unfold runs
  rw [hkeys, List.filterMap_append, List.map_filterMap]
  refine (congrArg₂ (· ++ ·) (List.filterMap_congr fun k _ => ?_)
    (List.filterMap_eq_nil_iff.2 fun k hk => ?_)).trans (List.append_nil _)
  · split
    · next id _ =>
        have hsome := hrow id
        cases hr : d.row (.run id) with
        | none =>
          rw [hr] at hsome
          simpa using hsome
        | some r =>
          rw [hr, Option.isSome_some, Option.isSome_iff_exists] at hsome
          obtain ⟨r', hr'⟩ := hsome
          change d'.row (.run id) = some ((d'.row (.run (Run.id r))).getD r)
          rw [h.keyed.run id r hr, hr', Option.getD_some]
    · simp
  · split
    · next id =>
        have hnone : d.row (.run id) = none :=
          Option.eq_none_iff_forall_ne_some.2 fun r hr => hnew _ hk (h.listed _ r hr)
        have hsome := hrow id
        rw [hnone] at hsome
        simpa using hsome
    · rfl

theorem nodup_jobIDs (h : WellFormed d) : ((jobs d).map Job.id).Nodup := by
  refine List.Nodup.of_map Key.job ?_
  rw [List.map_map]
  exact nodup_jobs h.keyed h.nodup

end WellFormed

end GoScheduler.Store
