import GoScheduler.Ranking
import GoScheduler.Store.Completion
import GoScheduler.Store.Tables
import Mathlib.Data.Prod.Lex

/-! The limits of a claim. With no other transaction open a claim takes runs in the order in
which they became available, each with a rank in its job, its tenant and its cluster. The
rank of the last run taken from a group bounds how many were taken from it, so no group
grows beyond its limit. The ranks count runs that another limit holds back as well. -/
namespace GoScheduler.Store
open ReadCommitted Schedule Ranking

variable {env : Env} {now lease : Int} {owner : String} {limit : ℕ} {d d₀ d' : Db}

section Order

def claimKey (c : Candidate) : Int ×ₗ ℕ := toLex (c.run.availableAt, c.run.id)

theorem claimOrder_iff {a b : Candidate} :
    claimOrder a.run b.run = true ↔ claimKey a ≤ claimKey b := by
  simp [claimOrder, claimKey, Prod.Lex.toLex_le_toLex]

theorem rowNumber_eq {α : Type} [BEq α] [LawfulBEq α] (part : Candidate → α) (cs : List Candidate)
    (c : Candidate) : rowNumber part cs c =
      (cs.filter fun x => part x == part c).countP fun x => claimKey x ≤ claimKey c := by
  rw [List.countP_filter]
  refine List.countP_congr fun x _ => ?_
  simp [claimOrder_iff, and_comm]

theorem exists_length_le_rowNumber {α : Type} [BEq α] [LawfulBEq α] (part : Candidate → α) (a : α)
    {cs taken : List Candidate} (htaken : taken.Subperm cs)
    (hne : (taken.filter fun c => part c == a) ≠ []) :
    ∃ c ∈ taken, part c = a ∧
      (taken.filter fun c => part c == a).length ≤ rowNumber part cs c := by
  obtain ⟨c, hc, hlen⟩ := exists_length_le_countP (f := claimKey)
    (htaken.filter fun c => part c == a) hne
  obtain ⟨hmem, hpart⟩ := List.mem_filter.1 hc
  rw [beq_iff_eq] at hpart
  refine ⟨c, hmem, hpart, ?_⟩
  rw [rowNumber_eq, hpart]
  exact hlen

end Order

section Candidates

theorem candidate_eq_some {r : Run} {c : Candidate} :
    (do
      let j ← d.row (.job r.jobID)
      let t ← d.row (.tenant r.tenantID)
      return ⟨r, j, t.maxConcurrentRuns⟩ : Option Candidate) = some c ↔
    c.run = r ∧ d.row (.job c.run.jobID) = some c.job ∧
      ∃ t, d.row (.tenant c.run.tenantID) = some t ∧ t.maxConcurrentRuns = c.tenantMax := by
  obtain ⟨run, job, tenantMax⟩ := c
  simp only [Option.bind_eq_bind, Option.bind_eq_some_iff, Option.pure_def, Option.some.injEq,
    Candidate.mk.injEq]
  constructor
  · rintro ⟨j, hj, t, ht, rfl, rfl, hmax⟩
    exact ⟨rfl, hj, t, ht, hmax⟩
  · rintro ⟨rfl, hj, t, ht, hmax⟩
    exact ⟨job, hj, t, ht, rfl, rfl, hmax⟩

theorem mem_candidates {c : Candidate} : c ∈ candidates now d ↔
    c.run ∈ runs d ∧ claimable now c.run = true ∧ d.row (.job c.run.jobID) = some c.job ∧
      ∃ t, d.row (.tenant c.run.tenantID) = some t ∧ t.maxConcurrentRuns = c.tenantMax := by
  unfold candidates
  rw [List.mem_filterMap]
  constructor
  · rintro ⟨r, hr, hc⟩
    obtain ⟨rfl, hrows⟩ := candidate_eq_some.1 hc
    exact ⟨(List.mem_filter.1 hr).1, (List.mem_filter.1 hr).2, hrows⟩
  · rintro ⟨hr, hclaimable, hrows⟩
    exact ⟨c.run, List.mem_filter.2 ⟨hr, hclaimable⟩, candidate_eq_some.2 ⟨rfl, hrows⟩⟩

theorem mem_eligible {c : Candidate} : c ∈ eligible now d ↔
    c ∈ candidates now d ∧ withinLimits now d (candidates now d) c = true := by
  unfold eligible
  rw [List.mem_insertionSort, List.mem_filter]

theorem eligible_subperm : (eligible now d).Subperm (candidates now d) :=
  (List.perm_insertionSort _ _).subperm.trans List.filter_sublist.subperm

theorem eligible_row (h : WellFormed d) {c : Candidate} (hc : c ∈ eligible now d) :
    d.row (.run c.run.id) = some c.run :=
  h.mem_runs_iff.1 (mem_candidates.1 (mem_eligible.1 hc).1).1

theorem nodup_eligibleIDs (h : WellFormed d) :
    ((eligible now d).map fun c => c.run.id).Nodup := by
  refine List.Nodup.of_map Key.run ?_
  rw [List.map_map]
  exact nodup_eligible h.keyed h.nodup

theorem eligible_pairwise (h : WellFormed d) :
    (eligible now d).Pairwise fun a b => claimKey a < claimKey b := by
  have hsorted : (eligible now d).Pairwise fun a b => claimKey a ≤ claimKey b := by
    have htotal : Std.Total fun a b : Candidate => claimOrder a.run b.run = true :=
      ⟨fun a b => by simpa only [claimOrder_iff] using le_total _ _⟩
    have htrans : IsTrans Candidate fun a b => claimOrder a.run b.run = true :=
      ⟨fun a b c => by simpa only [claimOrder_iff] using le_trans⟩
    exact (List.pairwise_insertionSort _ _).imp claimOrder_iff.1
  refine (hsorted.and (List.pairwise_map.1 (nodup_eligibleIDs h))).imp fun hab => ?_
  refine lt_of_le_of_ne hab.1 fun he => hab.2 ?_
  have hkeys : (_, _) = (_, _) := toLex.injective he
  exact congrArg Prod.snd hkeys

theorem eligibleRows_eq (h : WellFormed d) : eligibleRows (eligible now d) d =
    (eligible now d).map fun c => (.run c.run.id, c.run, c.job) := by
  unfold eligibleRows
  rw [← List.filterMap_eq_map]
  refine List.filterMap_congr fun c hc => ?_
  simp [eligible_row h hc]

end Candidates

section Claim

def Drawn (d : Db) : Prop :=
  ∀ n, .uuid n ∉ d.keys → d.row (.outboxEvent n) = none ∧ d.row (.claim n) = none

/-- The rows after the claims of `done`, which returned `claimed`. -/
structure Taken (d₀ : Db) (now : Int) (owner : String) (lease : Int) (done : List (Run × Job))
    (claimed : List ClaimedRun) (d : Db) : Prop where
  columns : claimed.map (fun c => (c.run.id, c.job)) = done.map fun item => (item.1.id, item.2)
  origin : ∀ c ∈ claimed, ∃ item ∈ done, ∃ token,
    c = ⟨claim now owner token lease item.2 item.1, item.2⟩
  taken : ∀ c ∈ claimed, d.row (.run c.run.id) = some c.run
  others : ∀ id, id ∉ done.map (fun item => item.1.id) → d.row (.run id) = d₀.row (.run id)
  jobs : ∀ id, d.row (.job id) = d₀.row (.job id)
  drawn : Drawn d₀ → Drawn d

variable {done : List (Run × Job)} {claimed : List ClaimedRun} {item : Run × Job}

theorem Drawn.write {w : Write Row} (h : Drawn d)
    (hevent : ∀ n, w.1 = .outboxEvent n → .uuid n ∈ d.keys)
    (hclaim : ∀ n, w.1 = .claim n → .uuid n ∈ d.keys) : Drawn (d.write w) := by
  obtain ⟨k, v⟩ := w
  intro n hn
  rw [d.mem_keys_write, not_or] at hn
  obtain ⟨h₁, h₂⟩ := h n hn.1
  rw [d.row_write_ne _ fun he => hn.1 (hevent n he.symm),
    d.row_write_ne _ fun he => hn.1 (hclaim n he.symm)]
  exact ⟨h₁, h₂⟩

theorem Taken.aside (h : Taken d₀ now owner lease done claimed d) {w : Write Row}
    (hrun : ∀ id, w.1 ≠ .run id) (hjob : ∀ id, w.1 ≠ .job id)
    (hevent : ∀ n, w.1 = .outboxEvent n → .uuid n ∈ d.keys)
    (hclaim : ∀ n, w.1 = .claim n → .uuid n ∈ d.keys) :
    Taken d₀ now owner lease done claimed (d.write w) := by
  obtain ⟨k, v⟩ := w
  have hrow : ∀ id, (d.write ⟨k, v⟩).row (.run id) = d.row (.run id) :=
    fun id => d.row_write_ne _ (hrun id).symm
  refine ⟨h.columns, h.origin, fun c hc => ?_, fun id hid => ?_, fun id => ?_,
    fun hd => (h.drawn hd).write hevent hclaim⟩
  · rw [hrow, h.taken c hc]
  · rw [hrow, h.others id hid]
  · rw [d.row_write_ne _ (hjob id).symm, h.jobs id]

theorem Taken.claim (h : Taken d₀ now owner lease done claimed d)
    (hnew : item.1.id ∉ done.map fun item => item.1.id) (token : ℕ) :
    Taken d₀ now owner lease (done ++ [item])
      (claimed ++ [⟨Store.claim now owner token lease item.2 item.1, item.2⟩])
      (d.write ⟨.run item.1.id, some (Store.claim now owner token lease item.2 item.1)⟩) := by
  have hids : ∀ c ∈ claimed, c.run.id ≠ item.1.id := by
    rintro c hc he
    obtain ⟨x, hx, token, rfl⟩ := h.origin c hc
    exact hnew (List.mem_map.2 ⟨x, hx, he⟩)
  refine ⟨?_, fun c hc => ?_, fun c hc => ?_, fun id hid => ?_, fun id => ?_, fun hd => ?_⟩
  · rw [List.map_append, List.map_append, h.columns]
    rfl
  · rw [List.mem_append, List.mem_singleton] at hc
    rcases hc with hc | rfl
    · obtain ⟨x, hx, horigin⟩ := h.origin c hc
      exact ⟨x, List.mem_append_left _ hx, horigin⟩
    · exact ⟨item, by simp, token, rfl⟩
  · rw [List.mem_append, List.mem_singleton] at hc
    rcases hc with hc | rfl
    · rw [d.row_write_ne _ (by simpa using hids c hc), h.taken c hc]
    · exact d.row_write_self _
  · rw [List.map_append, List.mem_append, not_or] at hid
    rw [d.row_write_ne _ (by simpa using hid.2), h.others id hid.1]
  · rw [d.row_write_ne _ (by simp), h.jobs id]
  · exact (h.drawn hd).write (by simp) (by simp)

theorem newUUID_taken (h : Taken d₀ now owner lease done claimed d) :
    newUUID.Ends (Returned fun n d' => Taken d₀ now owner lease done claimed d' ∧
      .uuid n ∈ d'.keys ∧ (Drawn d₀ → d'.row (.outboxEvent n) = none ∧ d'.row (.claim n) = none) ∧
        d.keys ⊆ d'.keys ∧ ∀ m, d'.row (.claim m) = d.row (.claim m)) d := by
  refine .fresh (fun _ _ hn => by cases hn; rfl) fun n hn => ⟨?_, ?_, fun hd => ?_, fun k hk => ?_,
    fun m => ?_⟩
  · exact h.aside (by simp) (by simp) (by simp) (by simp)
  · exact (d.mem_keys_write _).2 (.inr rfl)
  · rw [d.row_write_ne _ (by simp), d.row_write_ne _ (by simp)]
    exact h.drawn hd n hn
  · exact (d.mem_keys_write _).2 (.inl hk)
  · exact d.row_write_ne _ (by simp)

theorem claimOne_ends (h : Taken d₀ now owner lease done claimed d)
    (hrow : d₀.row (.run item.1.id) = some item.1) (hclaimable : claimable now item.1 = true)
    (hnew : item.1.id ∉ done.map fun item => item.1.id) :
    (claimOne now owner lease claimed item).Ends (Outcome
      (fun claimed' => Taken d₀ now owner lease (done ++ [item]) claimed')
      fun _ _ => ¬Drawn d₀) d := by
  refine (newUUID_taken h).andThen fun token d₁ h₁ => ?_
  obtain ⟨htaken₁, hdrawn₁, hfree₁, _, _⟩ := h₁
  have hrow₁ : d₁.row (.run item.1.id) = some item.1 := (htaken₁.others _ hnew).trans hrow
  let claimed' := claimed ++ [⟨claim now owner token lease item.2 item.1, item.2⟩]
  refine Program.Ends.andThen
    (R := fun r d₂ => r = some (claim now owner token lease item.2 item.1) ∧
      Taken d₀ now owner lease (done ++ [item]) claimed' d₂ ∧
      .uuid token ∈ d₂.keys ∧ (Drawn d₀ → d₂.row (.claim token) = none))
    (updateRun_ends (fun r hr _ => ?_) fun hno => ?_) fun r d₂ h₂ => ?_
  · rw [hrow₁, Option.some.injEq] at hr
    subst hr
    refine ⟨rfl, htaken₁.claim hnew token, (d₁.mem_keys_write _).2 (.inl hdrawn₁), fun hd => ?_⟩
    rw [d₁.row_write_ne _ (by simp)]
    exact (hfree₁ hd).2
  · have hfalse := hno _ hrow₁
    rw [hclaimable] at hfalse
    cases hfalse
  obtain ⟨rfl, htaken₂, hdrawn₂, hfree₂⟩ := h₂
  refine (newUUID_taken htaken₂).andThen fun eventID d₃ h₃ => ?_
  obtain ⟨htaken₃, hdrawn₃, hfree₃, hkeys, hsame⟩ := h₃
  have htoken₃ := hkeys hdrawn₂
  refine Program.Ends.bind (P := Outcome (fun _ d₄ => Taken d₀ now owner lease (done ++ [item])
      claimed' d₄ ∧ .uuid token ∈ d₄.keys ∧ (Drawn d₀ → d₄.row (.claim token) = none))
      fun _ _ => ¬Drawn d₀) (.when (fun _ => ?_) fun _ => ?_) (fun _ d₄ h₄ => ?_) fun _ _ hno => hno
  · refine insertRow_cases (fun _ => ⟨?_, ?_, fun hd => ?_⟩) fun hne hd => hne (hfree₃ hd).1
    · exact htaken₃.aside (by simp) (by simp) (by simpa using hdrawn₃) (by simp)
    · exact (d₃.mem_keys_write _).2 (.inl htoken₃)
    · rw [d₃.row_write_ne _ (by simp), hsame, hfree₂ hd]
  · exact ⟨htaken₃, htoken₃, fun hd => (hsame token).trans (hfree₂ hd)⟩
  obtain ⟨htaken₄, htoken₄, hfree₄⟩ := h₄
  refine Program.Ends.bind
    (P := Outcome (fun _ => Taken d₀ now owner lease (done ++ [item]) claimed')
    fun _ _ => ¬Drawn d₀) (insertRow_cases (fun _ => ?_) fun hne hd => hne (hfree₄ hd))
    (fun _ _ h₅ => h₅) fun _ _ hno => hno
  exact htaken₄.aside (by simp) (by simp) (by simp) (by simpa using htoken₄)

theorem claimAll_ends {rows : List (Run × Job)}
    (hrows : ∀ item ∈ rows, d.row (.run item.1.id) = some item.1 ∧ claimable now item.1 = true)
    (hnodup : (rows.map fun item => item.1.id).Nodup) :
    (Program.foldEach rows [] (claimOne now owner lease)).Ends (Outcome
      (fun claimed => Taken d now owner lease rows claimed) fun _ _ => ¬Drawn d) d := by
  refine .foldEach (fun left claimed d' => ∃ done, done ++ left = rows ∧
    Taken d now owner lease done claimed d') (fun item left claimed d₁ h₁ => ?_)
    (fun claimed d₁ h₁ => ?_) ⟨[], rfl, rfl, by simp, by simp, fun _ _ => rfl, fun _ => rfl, id⟩
  · obtain ⟨done, rfl, htaken⟩ := h₁
    obtain ⟨hrow, hclaimable⟩ := hrows item (by simp)
    rw [List.map_append, List.map_cons, List.nodup_append] at hnodup
    have hnew : item.1.id ∉ done.map fun item => item.1.id :=
      fun hid => hnodup.2.2 _ hid _ List.mem_cons_self rfl
    refine (claimOne_ends htaken hrow hclaimable hnew).mono fun res d₂ h₂ => ?_
    cases res with
    | ok claimed' => exact ⟨done ++ [item], by simp, h₂⟩
    | error e => exact h₂
  · obtain ⟨done, hdone, htaken⟩ := h₁
    rw [List.append_nil] at hdone
    exact hdone ▸ htaken

def Readable (env : Env) (j : Job) : Prop := ∃ j', scanJob env j = .ok j'

/-- The claim returns the runs it takes, unless the row of one of their jobs is unreadable. -/
theorem claimRows_ends {rows : List (Run × Job)}
    (hrows : ∀ item ∈ rows, d.row (.run item.1.id) = some item.1 ∧ claimable now item.1 = true)
    (hnodup : (rows.map fun item => item.1.id).Nodup) :
    (do
      let claimed ← .foldEach rows [] (claimOne now owner lease)
      let _ ← liftExcept (claimed.mapM fun c => scanJob env c.job)
      pure claimed : Tx (List ClaimedRun)).Ends (Outcome
        (fun claimed d' => Taken d now owner lease rows claimed d' ∧
          ∀ item ∈ rows, Readable env item.2)
        fun _ _ => Drawn d → ∃ item ∈ rows, ¬Readable env item.2) d := by
  refine (claimAll_ends hrows hnodup).bind (fun claimed d' htaken => ?_) fun e d' hno hd =>
    absurd hd hno
  have hjobs : claimed.map ClaimedRun.job = rows.map Prod.snd := by
    simpa only [List.map_map, Function.comp_def] using
      congrArg (List.map Prod.snd) htaken.columns
  have hreadable : (∃ js, (claimed.mapM fun c => scanJob env c.job) = .ok js) ↔
      ∀ item ∈ rows, Readable env item.2 := by
    rw [Fallible.exists_mapM_ok_iff]
    have hleft : (∀ c ∈ claimed, ∃ j, scanJob env c.job = .ok j) ↔
        ∀ j ∈ claimed.map ClaimedRun.job, Readable env j := by simp [Readable]
    rw [hleft, hjobs, List.forall_mem_map]
  cases hscan : claimed.mapM fun c => scanJob env c.job with
  | ok js => exact ⟨htaken, hreadable.1 ⟨js, hscan⟩⟩
  | error e =>
    intro _
    by_contra hall
    push Not at hall
    obtain ⟨js, hjs⟩ := hreadable.2 hall
    rw [hscan] at hjs
    cases hjs

end Claim

section Transaction

def picked (now : Int) (limit : ℕ) (skip : List Key) (d : Db) : List Candidate :=
  ((eligible now d).filter fun c => !skip.contains (.run c.run.id)).take limit

theorem picked_sublist {skip : List Key} : (picked now limit skip d).Sublist (eligible now d) :=
  (List.take_sublist _ _).trans List.filter_sublist

theorem lockClusters_ends (h : WellFormed d) (clusters : List ℕ) :
    (Program.forEach clusters fun id => do
      let _ ← .exec (.lock (V := Row) (Key.kubernetesCluster id) fun _ => true)
      pure () : Tx Unit).Ends (Returned fun _ d' => d' = d) d := by
  refine .forEach (fun _ d' => d' = d) (fun id left d' hd' => ?_) (fun _ hd' => hd') rfl
  subst hd'
  refine Program.Ends.andThen (R := fun _ d'' => d'' = d') (.lock (fun kc hkc _ => ?_) rfl)
    fun _ _ h' => h'
  exact d'.write_same (h.listed _ kc hkc) hkc

theorem pickedRows_eq (h : WellFormed d) (skip : List Key) :
    ((eligibleRows (eligible now d) d).filter fun r => !skip.contains r.1).take limit =
      (picked now limit skip d).map fun c => (.run c.run.id, c.run, c.job) := by
  rw [eligibleRows_eq h, List.filter_map, picked, List.map_take]
  rfl

theorem lockRuns_same (h : WellFormed d) {cs : List Candidate}
    (hcs : cs.Sublist (eligible now d)) :
    d.writeAll (lockWrites d (cs.map fun c => Key.run c.run.id)) = d := by
  refine d.writeAll_same (List.forall_mem_map.2 fun c hc => ?_)
  exact h.listed _ c.run (eligible_row h (hcs.subset hc))

theorem claimCandidates_ends (h : WellFormed d) {cs : List Candidate}
    (hcs : cs.Sublist (eligible now d)) :
    (do
      let claimed ← .foldEach (cs.map fun c => (c.run, c.job)) [] (claimOne now owner lease)
      let _ ← liftExcept (claimed.mapM fun c => scanJob env c.job)
      pure claimed : Tx (List ClaimedRun)).Ends (Outcome
        (fun claimed d' => Taken d now owner lease (cs.map fun c => (c.run, c.job)) claimed d' ∧
          ∀ c ∈ cs, Readable env c.job)
        fun _ _ => Drawn d → ∃ c ∈ cs, ¬Readable env c.job) d := by
  have hclaimable : ∀ item ∈ cs.map fun c => (c.run, c.job),
      d.row (.run item.1.id) = some item.1 ∧ claimable now item.1 = true := by
    refine List.forall_mem_map.2 fun c hc => ⟨eligible_row h (hcs.subset hc), ?_⟩
    exact (mem_candidates.1 (mem_eligible.1 (hcs.subset hc)).1).2.1
  have hnodup : ((cs.map fun c => (c.run, c.job)).map fun item => item.1.id).Nodup := by
    rw [List.map_map]
    exact (nodup_eligibleIDs h).sublist (hcs.map _)
  refine (claimRows_ends hclaimable hnodup).mono fun res d' hres => ?_
  cases res with
  | ok claimed => exact ⟨hres.1, fun c hc => hres.2 _ (List.mem_map.2 ⟨c, hc, rfl⟩)⟩
  | error e =>
    intro hd
    obtain ⟨item, hitem, hnot⟩ := hres hd
    obtain ⟨c, hc, rfl⟩ := List.mem_map.1 hitem
    exact ⟨c, hc, hnot⟩

/-- What a claim that runs alone ends in: it takes the first eligible runs that it does not
find locked. -/
theorem claimRuns_alone (h : WellFormed d) {inps rest : List (Input Key)}
    {res : Except StoreError (List ClaimedRun)}
    (hrun : (claimRuns env now owner limit lease).alone inps d = some (res, rest, d')) :
    ∃ inp ∈ inps, Outcome
      (fun claimed d' => Taken d now owner lease
          ((picked now limit inp.skip d).map fun c => (c.run, c.job)) claimed d' ∧
        ∀ c ∈ picked now limit inp.skip d, Readable env c.job)
      (fun _ _ => Drawn d → ∃ c ∈ picked now limit inp.skip d, ¬Readable env c.job) res d' := by
  obtain ⟨_, inps₁, d₁, hstep₁, ⟨_, hd₁⟩, hrun₁⟩ := Program.Ends.alone_andThen
    (R := fun b d' => b = claimClusters now d ∧ d' = d) (.select ⟨rfl, rfl⟩) hrun
  rw [hd₁] at hrun₁
  obtain ⟨_, inps₂, d₂, hstep₂, hd₂, hrun₂⟩ := (lockClusters_ends h _).alone_andThen hrun₁
  rw [hd₂] at hrun₂
  obtain ⟨_, inps₃, d₃, hstep₃, ⟨hcs, hd₃⟩, hrun₃⟩ := Program.Ends.alone_andThen
    (R := fun b d' => b = eligible now d ∧ d' = d) (.select ⟨rfl, rfl⟩) hrun₂
  rw [hcs, hd₃] at hrun₃
  obtain ⟨_, inps₄, d₄, hstep₄, _, hrun₄⟩ := Program.Ends.alone_andThen
    (R := fun _ _ => True) (.skipLocked fun _ _ _ => trivial) hrun₃
  obtain ⟨inp, hinp, rows, hrows, rfl, rfl⟩ := Program.alone_skipLocked hstep₄
  have hsuffix := (Program.alone_suffix hstep₃).trans
    ((Program.alone_suffix hstep₂).trans (Program.alone_suffix hstep₁))
  refine ⟨inp, hsuffix.mem hinp, ?_⟩
  rw [pickedRows_eq h] at hrows
  subst hrows
  simp only [List.map_map, Function.comp_def] at hrun₄
  rw [lockRuns_same h picked_sublist] at hrun₄
  exact (claimCandidates_ends h picked_sublist).alone hrun₄

theorem claimRuns_ends (h : WellFormed d) :
    (claimRuns env now owner limit lease).Ends (fun _ _ => True) d := by
  refine .readThen ((lockClusters_ends h _).andThen fun _ d₁ hd₁ => ?_)
  subst hd₁
  refine .readThen ?_
  refine Program.Ends.andThen (R := fun items d' => d' = d₁ ∧ ∃ cs : List Candidate,
    cs.Sublist (eligible now d₁) ∧ items = cs.map fun c => (c.run, c.job))
    (.skipLocked fun rows hrows _ => ?_) fun items d₂ h₂ => ?_
  · rw [eligibleRows_eq h, List.sublist_map_iff] at hrows
    obtain ⟨cs, hcs, rfl⟩ := hrows
    simp only [List.map_map, Function.comp_def]
    exact ⟨lockRuns_same h hcs, cs, hcs, rfl⟩
  · obtain ⟨rfl, cs, hcs, rfl⟩ := h₂
    exact (claimCandidates_ends h hcs).mono fun _ _ _ => trivial

end Transaction

section Limits

variable {rows : List (Run × Job)} {claimed : List ClaimedRun}

theorem length_taken_le (hrows : ∀ item ∈ rows, d.row (.run item.1.id) = some item.1)
    (hformed : WellFormed d) (p : Run → Bool) :
    (((runs d).filter fun r => (rows.map fun item => item.1.id).contains r.id).countP p) ≤
      (rows.filter fun item => p item.1).length := by
  rw [List.countP_eq_length_filter, ← List.length_map (f := Prod.fst)]
  refine (List.subperm_of_subset ?_ fun r hr => ?_).length_le
  · exact (List.Nodup.of_map _ hformed.nodup_runIDs).filter _ |>.filter _
  · obtain ⟨hr, hpr⟩ := List.mem_filter.1 hr
    obtain ⟨hr, hid⟩ := List.mem_filter.1 hr
    obtain ⟨item, hitem, hid⟩ := List.mem_map.1 (List.contains_iff_mem.1 hid)
    have hrow := hrows item hitem
    rw [hid, hformed.mem_runs_iff.1 hr] at hrow
    cases hrow
    exact List.mem_map.2 ⟨item, List.mem_filter.2 ⟨hitem, hpr⟩, rfl⟩

namespace Taken

variable (hrows : ∀ item ∈ rows, d.row (.run item.1.id) = some item.1)

include hrows

theorem claim_of_mem (ht : Taken d now owner lease rows claimed d') {item : Run × Job}
    (hitem : item ∈ rows) :
    ∃ token, ⟨Store.claim now owner token lease item.2 item.1, item.2⟩ ∈ claimed := by
  have hmem : (item.1.id, item.2) ∈ claimed.map fun c => (c.run.id, c.job) := by
    rw [ht.columns]
    exact List.mem_map.2 ⟨item, hitem, rfl⟩
  obtain ⟨c, hc, he⟩ := List.mem_map.1 hmem
  obtain ⟨hid, hjob⟩ := Prod.mk.inj he
  obtain ⟨item', hitem', token, rfl⟩ := ht.origin c hc
  have hrow := hrows item' hitem'
  rw [show item'.1.id = item.1.id from hid, hrows item hitem] at hrow
  have hitem'' : item' = item := Prod.ext (Option.some.inj hrow).symm hjob
  exact ⟨token, hitem'' ▸ hc⟩

theorem row_cases (ht : Taken d now owner lease rows claimed d') (id : ℕ) :
    d'.row (.run id) = d.row (.run id) ∨ ∃ r r', d.row (.run id) = some r ∧
      d'.row (.run id) = some r' ∧ r'.jobID = r.jobID ∧ r'.tenantID = r.tenantID := by
  by_cases hid : id ∈ rows.map fun item => item.1.id
  · obtain ⟨item, hitem, rfl⟩ := List.mem_map.1 hid
    obtain ⟨token, hc⟩ := ht.claim_of_mem hrows hitem
    exact .inr ⟨item.1, _, hrows item hitem, ht.taken _ hc, rfl, rfl⟩
  · exact .inl (ht.others id hid)

theorem isSome_row (ht : Taken d now owner lease rows claimed d') (id : ℕ) :
    (d'.row (.run id)).isSome = (d.row (.run id)).isSome := by
  cases ht.row_cases hrows id with
  | inl h => rw [h]
  | inr h =>
    obtain ⟨r, r', hr, hr', _⟩ := h
    rw [hr, hr']
    rfl

theorem row_same (ht : Taken d now owner lease rows claimed d') (hformed : WellFormed d) {r : Run}
    (hr : r ∈ runs d) : ((d'.row (.run r.id)).getD r).jobID = r.jobID ∧
      ((d'.row (.run r.id)).getD r).tenantID = r.tenantID := by
  have hrow := hformed.mem_runs_iff.1 hr
  cases ht.row_cases hrows r.id with
  | inl h =>
    rw [h, hrow]
    exact ⟨rfl, rfl⟩
  | inr h =>
    obtain ⟨r₁, r', hr₁, hr', hsame⟩ := h
    rw [hrow, Option.some.injEq] at hr₁
    rw [hr', Option.getD_some, hr₁]
    exact hsame

theorem occupied_le (ht : Taken d now owner lease rows claimed d') (hformed : WellFormed d)
    (hkeys : d.KeysGrow d') {p p' : Run → Bool}
    (hp : ∀ r r' : Run, r'.jobID = r.jobID → r'.tenantID = r.tenantID → p' r' = p r) :
    occupied now d' p' ≤ occupied now d p + (rows.filter fun item => p item.1).length := by
  let isTaken : Run → Bool := fun r => (rows.map fun item => item.1.id).contains r.id
  let update : Run → Run := fun r => (d'.row (.run r.id)).getD r
  have hsame : ∀ r ∈ runs d, p' (update r) = p r := fun r hr =>
    hp r _ (ht.row_same hrows hformed hr).1 (ht.row_same hrows hformed hr).2
  have hcount : occupied now d' p' =
      (runs d).countP fun r => occupies now (update r) && p' (update r) := by
    unfold occupied
    rw [hformed.runs_rewritten hkeys (ht.isSome_row hrows), List.countP_map]
    rfl
  have hothers : ((runs d).filter fun r => !isTaken r).countP
      (fun r => occupies now (update r) && p' (update r)) ≤ occupied now d p := by
    calc _ = ((runs d).filter fun r => !isTaken r).countP fun r => occupies now r && p r := ?_
      _ ≤ occupied now d p := List.filter_sublist.countP_le
    refine List.countP_congr fun r hr => ?_
    obtain ⟨hr, hnot⟩ := List.mem_filter.1 hr
    have hrow : d'.row (.run r.id) = d.row (.run r.id) :=
      ht.others _ fun hid => by
        rw [show isTaken r = true from List.contains_iff_mem.2 hid] at hnot
        cases hnot
    have hupdate : update r = r := by
      simp only [update, hrow, hformed.mem_runs_iff.1 hr, Option.getD_some]
    rw [hsame r hr, hupdate]
  have htaken : ((runs d).filter isTaken).countP
      (fun r => occupies now (update r) && p' (update r)) ≤
        (rows.filter fun item => p item.1).length := by
    refine le_trans (List.countP_mono_left fun r hr h => ?_) (length_taken_le hrows hformed p)
    rw [← hsame r (List.mem_of_mem_filter hr)]
    exact (Bool.and_eq_true _ _ ▸ h).2
  rw [hcount, List.countP_eq_countP_filter_add _ _ isTaken, Nat.add_comm]
  exact Nat.add_le_add hothers htaken

end Taken

theorem exists_limit {α : Type} [BEq α] [LawfulBEq α] (part : Candidate → α) (a : α)
    {cs taken : List Candidate} (htaken : taken.Subperm cs) (limit : Candidate → ℕ) (active : ℕ)
    (hwithin : ∀ c ∈ taken, part c = a → rowNumber part cs c ≤ limit c - active)
    (hne : (taken.filter fun c => part c == a) ≠ []) :
    ∃ c ∈ taken, part c = a ∧
      active + (taken.filter fun c => part c == a).length ≤ limit c := by
  obtain ⟨c, hc, hpart, hlen⟩ := exists_length_le_rowNumber part a htaken hne
  have hpos := List.length_pos_of_ne_nil hne
  have hrank := hwithin c hc hpart
  exact ⟨c, hc, hpart, by omega⟩

theorem claimRuns_takes (h : WellFormed d) {inps : List (Input Key)}
    {res : Except StoreError (List ClaimedRun)}
    (hres : (claimRuns env now owner limit lease).transact inps d = some (res, d')) :
    ∃ taken : List Candidate, taken.length ≤ limit ∧ taken.Sublist (eligible now d) ∧
      Taken d now owner lease
      (taken.map fun c => (c.run, c.job)) (res.toOption.getD []) d' := by
  have hkeys := Program.transact_keysGrow hres
  unfold Program.transact at hres
  split at hres
  · next claimed rest d₁ hrun =>
      cases hres
      obtain ⟨inp, _, htaken, _⟩ := claimRuns_alone h hrun
      exact ⟨_, List.length_take_le _ _, picked_sublist, htaken⟩
  · next e rest d₁ hrun =>
      cases hres
      refine ⟨[], Nat.zero_le _, List.nil_sublist _,
        rfl, by simp [Except.toOption], by simp [Except.toOption], fun _ _ => rfl,
        fun _ => rfl, fun hd n hn => hd n fun hold => hn ?_⟩
      obtain ⟨new, hkeys, _⟩ := hkeys
      rw [hkeys]
      exact List.mem_append_left _ hold
  · cases hres

theorem Taken.within {α : Type} [BEq α] [LawfulBEq α] {taken : List Candidate}
    (ht : Taken d now owner lease (taken.map fun c => (c.run, c.job)) claimed d')
    (hformed : WellFormed d) (hkeys : d.KeysGrow d') (htaken : taken.Sublist (eligible now d))
    (part : Candidate → α) (a : α) (limit : Candidate → ℕ) (p p' : Run → Bool)
    (hp : ∀ r r' : Run, r'.jobID = r.jobID → r'.tenantID = r.tenantID → p' r' = p r)
    (hpart : ∀ c ∈ eligible now d, p c.run = (part c == a))
    (hwithin : ∀ c ∈ eligible now d, part c = a →
      rowNumber part (candidates now d) c ≤ limit c - occupied now d p) :
    occupied now d' p' ≤ occupied now d p ∨
      ∃ c ∈ taken, part c = a ∧ occupied now d' p' ≤ limit c := by
  have hrows : ∀ item ∈ taken.map fun c => (c.run, c.job),
      d.row (.run item.1.id) = some item.1 :=
    List.forall_mem_map.2 fun c hc => eligible_row hformed (htaken.subset hc)
  have hgroup : ((taken.map fun c => (c.run, c.job)).filter fun item => p item.1).length =
      (taken.filter fun c => part c == a).length := by
    rw [List.filter_map, List.length_map]
    exact congrArg List.length (List.filter_congr fun c hc => hpart c (htaken.subset hc))
  have hle := ht.occupied_le hrows hformed hkeys hp
  rw [hgroup] at hle
  by_cases hne : (taken.filter fun c => part c == a) = []
  · left
    simpa [hne] using hle
  · right
    obtain ⟨c, hc, hcpart, hlimit⟩ := exists_limit part a
      (htaken.subperm.trans eligible_subperm) limit (occupied now d p)
      (fun c hc => hwithin c (htaken.subset hc)) hne
    exact ⟨c, hc, hcpart, hle.trans hlimit⟩

def ClaimedRun.effectiveLimit (c : ClaimedRun) : ℕ :=
  match c.run.broadcast with
  | some b => max c.job.maxConcurrentRuns b.total
  | none => c.job.maxConcurrentRuns

def largestLimit (jobID : ℕ) (claimed : List ClaimedRun) : ℕ :=
  ((claimed.filter fun c => c.run.jobID == jobID).map ClaimedRun.effectiveLimit).foldr max 0

theorem le_largestLimit {c : ClaimedRun} (hc : c ∈ claimed) :
    c.effectiveLimit ≤ largestLimit c.run.jobID claimed :=
  List.le_max_of_le (List.mem_map.2 ⟨c, List.mem_filter.2 ⟨hc, by simp⟩, rfl⟩) le_rfl

theorem withinLimits_iff {cs : List Candidate} {c : Candidate} :
    withinLimits now d cs c = true ↔
      rowNumber (fun x => x.run.jobID) cs c ≤
        jobLimit c - (occupied now d fun r => r.jobID == c.run.jobID) ∧
      rowNumber (fun x => x.run.tenantID) cs c ≤
        c.tenantMax - (occupied now d fun r => r.tenantID == c.run.tenantID) ∧
      ∀ k, c.job.kubernetesClusterID = some k →
        rowNumber (fun x => x.job.kubernetesClusterID) cs c ≤
          clusterLimit d k - occupied now d fun r => clusterOf d r == some k := by
  unfold withinLimits
  rw [Bool.and_eq_true, Bool.and_eq_true, decide_eq_true_iff, decide_eq_true_iff, and_assoc]
  refine and_congr_right fun _ => and_congr_right fun _ => ?_
  split
  · next hnone => simp [hnone]
  · next k hk => simp [hk]

/-- With no other transaction open a claim takes no more runs than it is asked for, all of
them claimable, and takes no job, tenant or cluster beyond its limit. -/
theorem claimRuns_within_limits (h : WellFormed d) {inps : List (Input Key)}
    {res : Except StoreError (List ClaimedRun)}
    (hres : (claimRuns env now owner limit lease).transact inps d = some (res, d')) :
    (res.toOption.getD []).length ≤ limit ∧
    (∀ c ∈ res.toOption.getD [], ∃ r, d.row (.run c.run.id) = some r ∧ claimable now r = true) ∧
    (∀ jobID, (occupied now d' fun r => r.jobID == jobID) ≤
      max (occupied now d fun r => r.jobID == jobID)
        (largestLimit jobID (res.toOption.getD []))) ∧
    (∀ id t, d.row (.tenant id) = some t → (occupied now d' fun r => r.tenantID == id) ≤
      max (occupied now d fun r => r.tenantID == id) t.maxConcurrentRuns) ∧
    ∀ id kc, d.row (.kubernetesCluster id) = some kc →
      (occupied now d' fun r => clusterOf d' r == some id) ≤
        max (occupied now d fun r => clusterOf d r == some id) kc.maxConcurrentJobs := by
  obtain ⟨taken, hlength, hsub, ht⟩ := claimRuns_takes h hres
  have hkeys := Program.transact_keysGrow hres
  have hlimits : ∀ c ∈ eligible now d, withinLimits now d (candidates now d) c = true :=
    fun c hc => (mem_eligible.1 hc).2
  refine ⟨?_, fun x hx => ?_, fun jobID => ?_, fun id t htenant => ?_, fun id kc hcluster => ?_⟩
  · have hcolumns := congrArg List.length ht.columns
    simp only [List.length_map] at hcolumns
    omega
  · obtain ⟨item, hitem, token, rfl⟩ := ht.origin x hx
    obtain ⟨c, hc, rfl⟩ := List.mem_map.1 hitem
    have hc := hsub.subset hc
    exact ⟨c.run, eligible_row h hc, (mem_candidates.1 (mem_eligible.1 hc).1).2.1⟩
  · cases ht.within h hkeys hsub (fun c => c.run.jobID) jobID jobLimit
      (fun r => r.jobID == jobID) (fun r => r.jobID == jobID)
      (fun r r' hjob _ => by rw [hjob]) (fun c _ => rfl)
      (fun c hc hjob => hjob ▸ (withinLimits_iff.1 (hlimits c hc)).1) with
    | inl hle => exact le_max_of_le_left hle
    | inr hle =>
      obtain ⟨c, hc, rfl, hle⟩ := hle
      obtain ⟨token, hmem⟩ := ht.claim_of_mem (List.forall_mem_map.2 fun c hc =>
        eligible_row h (hsub.subset hc)) (List.mem_map.2 ⟨c, hc, rfl⟩)
      exact le_max_of_le_right (hle.trans (le_largestLimit hmem))
  · cases ht.within h hkeys hsub (fun c => c.run.tenantID) id Candidate.tenantMax
      (fun r => r.tenantID == id) (fun r => r.tenantID == id)
      (fun r r' _ htenant => by rw [htenant]) (fun c _ => rfl)
      (fun c hc htenant => htenant ▸ (withinLimits_iff.1 (hlimits c hc)).2.1) with
    | inl hle => exact le_max_of_le_left hle
    | inr hle =>
      obtain ⟨c, hc, rfl, hle⟩ := hle
      obtain ⟨_, _, _, t', ht', hmax⟩ := mem_candidates.1 (mem_eligible.1 (hsub.subset hc)).1
      rw [htenant, Option.some.injEq] at ht'
      rw [← hmax, ← ht'] at hle
      exact le_max_of_le_right hle
  · have hjobs : ∀ r : Run, clusterOf d' r = clusterOf d r := fun r => by
      rw [clusterOf, clusterOf, ht.jobs]
    have hcluster' : ∀ c ∈ eligible now d, clusterOf d c.run = c.job.kubernetesClusterID := by
      intro c hc
      rw [clusterOf, (mem_candidates.1 (mem_eligible.1 hc).1).2.2.1]
      rfl
    cases ht.within h hkeys hsub (fun c => c.job.kubernetesClusterID) (some id)
      (fun _ => clusterLimit d id) (fun r => clusterOf d r == some id)
      (fun r => clusterOf d' r == some id)
      (fun r r' hjob _ => by rw [hjobs, clusterOf, clusterOf, hjob])
      (fun c hc => by rw [hcluster' c hc])
      (fun c hc hk => (withinLimits_iff.1 (hlimits c hc)).2.2 id hk) with
    | inl hle => exact le_max_of_le_left hle
    | inr hle =>
      obtain ⟨c, _, _, hle⟩ := hle
      rw [clusterLimit, hcluster] at hle
      exact le_max_of_le_right hle

def crowdedRun (id jobID : ℕ) (availableAt : Int) : Run :=
  manualRun availableAt ⟨1, jobID, "", "", []⟩ id 0 .pending

def underway : Run :=
  { manualRun 0 ⟨1, 1, "", "", []⟩ 3 0 .running with lease := some ⟨"core", 9, 5000⟩ }

def crowdedRow (tenantMax : ℕ) : (k : Key) → Option (Row k)
  | .tenant id => if id = 1 then some ⟨tenantMax⟩ else none
  | .job id => if id = 1 ∨ id = 2 then some { plainJob with id := id } else none
  | .run id => if id = 3 then some underway else if id = 4 then some (crowdedRun 4 1 10)
      else if id = 5 then some (crowdedRun 5 2 20) else none
  | _ => none

/-- A tenant with two jobs. The first has a run under way and one that waits for it; the
second has a run that became available later. -/
def crowdedDb (tenantMax : ℕ) : Db :=
  ⟨[.tenant 1, .job 1, .job 2, .run 3, .run 4, .run 5], crowdedRow tenantMax, 1000⟩

theorem crowdedDb_wellFormed (tenantMax : ℕ) : WellFormed (crowdedDb tenantMax) where
  nodup := by simp [crowdedDb]
  absent := by
    intro k hk
    show crowdedRow tenantMax k = none
    unfold crowdedRow
    split
    all_goals first | rfl | (split_ifs <;> simp_all [crowdedDb])
  keyed := by
    constructor
    · intro id r h
      have hrow : crowdedRow tenantMax (.run id) = some r := h
      simp only [crowdedRow] at hrow
      split_ifs at hrow with h3 h4 h5 <;> cases hrow
      · exact h3.symm
      · exact h4.symm
      · exact h5.symm
    · intro id j h
      have hrow : crowdedRow tenantMax (.job id) = some j := h
      simp only [crowdedRow] at hrow
      split_ifs at hrow
      cases hrow
      rfl
    · intro p c e h
      cases h
    · intro id kc h
      cases h

theorem crowdedDb_drawn (tenantMax : ℕ) : Drawn (crowdedDb tenantMax) := fun _ _ => ⟨rfl, rfl⟩

theorem claimRuns_within_limits_crowded : ∃ res d',
    (claimRuns plainEnv 1000 "core" 10 claimLease).transact
      ((List.range 20).map fun i => ⟨1000, 100 + i, []⟩) (crowdedDb 3) = some (res, d') ∧
    (res.toOption.getD []).map (fun c => c.run.id) = [5] ∧
    (occupied 1000 d' fun r => r.tenantID == 1) ≤
      max (occupied 1000 (crowdedDb 3) fun r => r.tenantID == 1) 3 := by
  have hrun : ((claimRuns plainEnv 1000 "core" 10 claimLease).transact
      ((List.range 20).map fun i => ⟨1000, 100 + i, []⟩) (crowdedDb 3)).map (fun out =>
        (out.1.toOption.getD []).map fun c => c.run.id) = some [5] := by decide +kernel
  obtain ⟨⟨res, d'⟩, htransact, hres⟩ := Option.map_eq_some_iff.1 hrun
  obtain ⟨_, _, _, htenant, _⟩ := claimRuns_within_limits (crowdedDb_wellFormed 3) htransact
  exact ⟨res, d', htransact, hres, htenant 1 ⟨3⟩ rfl⟩

end Limits

end GoScheduler.Store
