import GoScheduler.Store.ClaimLimits

/-! When a claim returns a run. The ranks in a tenant or a cluster are taken over all
claimable runs, also over those that their own job holds back, so runs that cannot be
claimed stand in the way of later ones that could. A job whose sealed columns cannot be
opened fails the whole claim. -/
namespace GoScheduler.Store
open ReadCommitted Schedule Ranking

variable {env : Env} {now lease : Int} {owner : String} {limit : ℕ} {d d' : Db}

section Room

def HasRoom (now : Int) (d : Db) (c : Candidate) : Prop :=
  (occupied now d fun r => r.jobID == c.run.jobID) < jobLimit c ∧
  (occupied now d fun r => r.tenantID == c.run.tenantID) < c.tenantMax ∧
  ∀ k ∈ c.job.kubernetesClusterID,
    (occupied now d fun r => clusterOf d r == some k) < clusterLimit d k

def upTo (now : Int) (d : Db) (group : Candidate → Bool) (c : Candidate) : ℕ :=
  (candidates now d).countP fun x => group x && decide (claimKey x ≤ claimKey c)

/-- The job, the tenant and the cluster of the run have room for all claimable runs up to
this one. -/
def Unblocked (now : Int) (d : Db) (c : Candidate) : Prop :=
  (occupied now d fun r => r.jobID == c.run.jobID) +
    upTo now d (fun x => x.run.jobID == c.run.jobID) c ≤ jobLimit c ∧
  (occupied now d fun r => r.tenantID == c.run.tenantID) +
    upTo now d (fun x => x.run.tenantID == c.run.tenantID) c ≤ c.tenantMax ∧
  ∀ k ∈ c.job.kubernetesClusterID, (occupied now d fun r => clusterOf d r == some k) +
    upTo now d (fun x => x.job.kubernetesClusterID == some k) c ≤ clusterLimit d k

instance (now : Int) (d : Db) : DecidablePred (Unblocked now d) := fun c => by
  unfold Unblocked
  infer_instance

def Reached (now : Int) (d : Db) (limit : ℕ) (c : Candidate) : Prop :=
  Unblocked now d c ∧
    ((candidates now d).countP fun x => Unblocked now d x ∧ claimKey x < claimKey c) < limit

theorem rowNumber_eq_upTo {α : Type} [BEq α] [LawfulBEq α] (part : Candidate → α)
    (c : Candidate) : rowNumber part (candidates now d) c =
      upTo now d (fun x => part x == part c) c := by
  rw [rowNumber_eq, List.countP_filter, upTo]
  exact List.countP_congr fun x _ => by simp [and_comm]

theorem upTo_pos {group : Candidate → Bool} {c : Candidate} (hc : c ∈ candidates now d)
    (hgroup : group c = true) : 0 < upTo now d group c :=
  List.countP_pos_iff.2 ⟨c, hc, by simp [hgroup]⟩

theorem withinLimits_iff_unblocked {c : Candidate} (hc : c ∈ candidates now d) :
    withinLimits now d (candidates now d) c = true ↔ Unblocked now d c := by
  have hrank : ∀ {n active : ℕ} {group : Candidate → Bool}, group c = true →
      (upTo now d group c ≤ n - active ↔ active + upTo now d group c ≤ n) := by
    intro n active group hgroup
    have hpos := upTo_pos hc hgroup
    omega
  rw [withinLimits_iff, rowNumber_eq_upTo, rowNumber_eq_upTo, rowNumber_eq_upTo,
    hrank (by simp), hrank (by simp)]
  refine and_congr_right fun _ => and_congr_right fun _ => forall₂_congr fun k hk => ?_
  rw [hk, hrank (by simp [hk])]

theorem mem_eligible_iff {c : Candidate} :
    c ∈ eligible now d ↔ c ∈ candidates now d ∧ Unblocked now d c := by
  rw [mem_eligible]
  exact and_congr_right fun hc => withinLimits_iff_unblocked hc

theorem picked_nil : picked now limit [] d = (eligible now d).take limit := by
  have hall : ((eligible now d).filter fun c => !([] : List Key).contains (.run c.run.id)) =
      eligible now d := List.filter_eq_self.2 fun c _ => rfl
  rw [picked, hall]

theorem mem_picked_iff (h : WellFormed d) {c : Candidate} :
    c ∈ picked now limit [] d ↔ c ∈ candidates now d ∧ Reached now d limit c := by
  have hcount : ((eligible now d).countP fun x => claimKey x < claimKey c) =
      (candidates now d).countP fun x => Unblocked now d x ∧ claimKey x < claimKey c := by
    have hperm : (eligible now d).Perm _ := List.perm_insertionSort _ _
    rw [hperm.countP_eq, List.countP_filter]
    refine List.countP_congr fun x hx => ?_
    simp [withinLimits_iff_unblocked hx, and_comm]
  rw [picked_nil, mem_take_iff (eligible_pairwise h), hcount, mem_eligible_iff, and_assoc]
  rfl

end Room

section Progress

variable {inps : List (Input Key)} {res : Except StoreError (List ClaimedRun)}

theorem exists_claimRuns (h : WellFormed d) (env : Env) (now : Int) (owner : String) (limit : ℕ)
    (lease : Int) : ∃ inps out, Undisturbed inps ∧
    (claimRuns env now owner limit lease).transact inps d = some out := by
  obtain ⟨inps, res, rest, d', hinps, hrun⟩ := (claimRuns_ends h).exists_undisturbed
  refine ⟨inps, ?_⟩
  unfold Program.transact
  rw [hrun]
  cases res with
  | ok claimed => exact ⟨_, hinps, rfl⟩
  | error e => exact ⟨_, hinps, rfl⟩

/-- A claim that finds no row locked returns a run exactly if one is not blocked and the
jobs of all it reaches are readable. -/
theorem claimRuns_returns_iff (h : WellFormed d) (hdrawn : Drawn d) (hlimit : 1 ≤ limit)
    (hinps : Undisturbed inps)
    (hres : (claimRuns env now owner limit lease).transact inps d = some (res, d')) :
    (∃ x xs, res = .ok (x :: xs)) ↔ (∃ c ∈ candidates now d, Unblocked now d c) ∧
      ∀ c ∈ candidates now d, Reached now d limit c → Readable env c.job := by
  have hreadable : (∀ c ∈ picked now limit [] d, Readable env c.job) ↔
      ∀ c ∈ candidates now d, Reached now d limit c → Readable env c.job := by
    simp only [mem_picked_iff h, and_imp]
  rw [← hreadable]
  unfold Program.transact at hres
  split at hres
  · next claimed rest d₁ hrun =>
      cases hres
      obtain ⟨inp, hinp, htaken, hread⟩ := claimRuns_alone h hrun
      rw [hinps inp hinp] at htaken hread
      rw [and_iff_left hread]
      have hlength : claimed.length = ((eligible now d).take limit).length := by
        simpa [picked_nil] using congrArg List.length htaken.columns
      constructor
      · rintro ⟨x, xs, hok⟩
        cases hok
        obtain ⟨item, hitem, _⟩ := htaken.origin x List.mem_cons_self
        obtain ⟨c, hc, _⟩ := List.mem_map.1 hitem
        exact ⟨c, mem_eligible_iff.1 (picked_sublist.subset hc)⟩
      · rintro ⟨c, hc⟩
        have hpos := List.length_pos_of_mem (mem_eligible_iff.2 hc)
        rw [List.length_take] at hlength
        obtain ⟨x, xs, rfl⟩ := List.exists_cons_of_length_pos (l := claimed) (by omega)
        exact ⟨x, xs, rfl⟩
  · next e rest d₁ hrun =>
      cases hres
      obtain ⟨inp, hinp, hnot⟩ := claimRuns_alone h hrun
      rw [hinps inp hinp] at hnot
      obtain ⟨c, hc, hunreadable⟩ := hnot hdrawn
      refine ⟨fun ⟨x, xs, hok⟩ => ?_, fun hall => absurd (hall.2 c hc) hunreadable⟩
      cases hok
  · cases hres

/-- A claim returns a run wherever one has room. -/
def WorkConserving (env : Env) (now : Int) (owner : String) (limit : ℕ) (lease : Int) (d : Db) :
    Prop :=
  (∃ c ∈ candidates now d, HasRoom now d c) → ∀ inps res d', Undisturbed inps →
    (claimRuns env now owner limit lease).transact inps d = some (res, d') →
      ∃ x xs, res = .ok (x :: xs)

/-- With no other transaction open a claim can be made, and where some run has room it
returns a run exactly if some run has room for all runs up to it and the jobs of the runs
it reaches are readable. -/
theorem workConserving_iff (h : WellFormed d) (hdrawn : Drawn d) (env : Env) (now : Int)
    (owner : String) (hlimit : 1 ≤ limit) (lease : Int) :
    (∃ inps out, Undisturbed inps ∧
      (claimRuns env now owner limit lease).transact inps d = some out) ∧
    (WorkConserving env now owner limit lease d ↔ ((∃ c ∈ candidates now d, HasRoom now d c) →
      (∃ c ∈ candidates now d, Unblocked now d c) ∧
        ∀ c ∈ candidates now d, Reached now d limit c → Readable env c.job)) := by
  have hruns := exists_claimRuns h env now owner limit lease
  refine ⟨hruns, fun hconserving hroom => ?_, fun hcond hroom inps res d' hinps hres => ?_⟩
  · obtain ⟨inps, ⟨res, d'⟩, hinps, hres⟩ := hruns
    exact (claimRuns_returns_iff h hdrawn hlimit hinps hres).1
      (hconserving hroom inps res d' hinps hres)
  · exact (claimRuns_returns_iff h hdrawn hlimit hinps hres).2 (hcond hroom)

/-- The second job has room, and so has its tenant; the claim returns nothing. -/
theorem claim_blocked : ¬∀ (env : Env) (d : Db) (now : Int) (owner : String) (limit : ℕ)
    (lease : Int), WellFormed d → Drawn d → 1 ≤ limit →
      WorkConserving env now owner limit lease d := by
  intro hall
  have hconserving := hall plainEnv (crowdedDb 2) 1000 "core" 10 claimLease
    (crowdedDb_wellFormed 2) (crowdedDb_drawn 2) (by decide)
  have hroom : ∃ c ∈ candidates 1000 (crowdedDb 2), HasRoom 1000 (crowdedDb 2) c :=
    ⟨⟨crowdedRun 5 2 20, { plainJob with id := 2 }, 2⟩, by decide +kernel, by decide +kernel,
      by decide +kernel, by decide +kernel⟩
  have hrun : ((claimRuns plainEnv 1000 "core" 10 claimLease).transact
      (List.replicate 5 ⟨1000, 0, []⟩) (crowdedDb 2)).map (fun out => out.1) = some (.ok []) := by
    decide +kernel
  obtain ⟨⟨res, d'⟩, htransact, hres⟩ := Option.map_eq_some_iff.1 hrun
  obtain ⟨x, xs, hok⟩ := hconserving hroom _ res d' (fun inp hinp => by
    rw [List.eq_of_mem_replicate hinp]) htransact
  rw [hok] at hres
  cases hres

theorem workConserving_iff_crowded :
    WorkConserving plainEnv 1000 "core" 10 claimLease (crowdedDb 3) := by
  refine (workConserving_iff (crowdedDb_wellFormed 3) (crowdedDb_drawn 3) plainEnv 1000 "core"
    (by decide) claimLease).2.2 fun _ => ⟨?_, fun c hc _ => ?_⟩
  · exact ⟨⟨crowdedRun 5 2 20, { plainJob with id := 2 }, 3⟩, by decide +kernel, by decide +kernel⟩
  · have hread : ∀ c ∈ candidates 1000 (crowdedDb 3), scanJob plainEnv c.job = .ok c.job := by
      decide +kernel
    exact ⟨_, hread c hc⟩

end Progress

end GoScheduler.Store
