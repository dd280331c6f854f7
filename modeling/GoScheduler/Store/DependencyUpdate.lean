import GoScheduler.Store.Completion
import GoScheduler.Store.DependencyGraph
import GoScheduler.Store.Tables

/-! `SetJobDependencies` with no other transaction open. The old edges of the parent are
deleted and the new ones added one at a time, each after a search for a way back; the
transaction commits exactly when the graph it is asked for has no cycle. -/
namespace GoScheduler.Store
open ReadCommitted GoScheduler.Graph Relation

variable {d d₀ d' : Db} {tenantID p c x y : ℕ} {children : List ℕ}

section Search

theorem transGen_of_mem_descendants (hkeyed : DependenciesKeyed d)
    (hcovers : ∀ k v, d.row k = some v → k ∈ d.keys) {rounds : ℕ} {found : List ℕ}
    (hfound : ∀ y ∈ found, TransGen (Edge d) c y) :
    ∀ y ∈ descendants d rounds found, TransGen (Edge d) c y := by
  induction rounds generalizing found with
  | zero => exact hfound
  | succ rounds ih =>
    refine ih fun y hy => ?_
    rw [List.mem_dedup, List.mem_append, List.mem_dedup, List.mem_flatMap] at hy
    cases hy with
    | inl hold => exact hfound y hold
    | inr hnew =>
      obtain ⟨x, hx, hxy⟩ := hnew
      exact (hfound x hx).tail ((mem_childrenOf hkeyed hcovers).1 hxy)

theorem reaches_iff (hkeyed : DependenciesKeyed d)
    (hcovers : ∀ k v, d.row k = some v → k ∈ d.keys) :
    reaches d c p = true ↔ TransGen (Edge d) c p := by
  refine ⟨fun h => ?_, reaches_of_transGen hkeyed hcovers⟩
  refine transGen_of_mem_descendants hkeyed hcovers (fun y hy => ?_) p (List.contains_iff_mem.1 h)
  exact .single ((mem_childrenOf hkeyed hcovers).1 (List.mem_dedup.1 hy))

end Search

section Count

/-- A list without repetitions is as long as a list that contains it only where the longer
one has no repetitions and nothing else. -/
theorem length_eq_iff_of_subset {α : Type} {l m : List α} (hl : l.Nodup) (hlm : l ⊆ m) :
    l.length = m.length ↔ m.Nodup ∧ m ⊆ l := by
  constructor
  · intro hlen
    have hperm := (List.subperm_of_subset hl hlm).perm_of_length_le hlen.ge
    exact ⟨hperm.nodup hl, hperm.symm.subset⟩
  · intro h
    exact ((List.subperm_of_subset hl hlm).antisymm (List.subperm_of_subset h.1 h.2)).length_eq

/-- The count of the jobs that are named agrees with the number of names only where the
names differ and are all jobs of the tenant. -/
theorem countP_jobs_iff (h : WellFormed d) (tenantID : ℕ) (ids : List ℕ) :
    ((jobs d).countP fun j => j.tenantID == tenantID && ids.contains j.id) = ids.length ↔
      ids.Nodup ∧ ∀ id ∈ ids, Employed d tenantID id := by
  let found := ((jobs d).filter fun j => j.tenantID == tenantID && ids.contains j.id).map Job.id
  have hmem : ∀ id, id ∈ found ↔ id ∈ ids ∧ Employed d tenantID id := by
    intro id
    simp only [found, List.mem_map, List.mem_filter, Bool.and_eq_true, beq_iff_eq,
      List.contains_iff_mem, Employed]
    constructor
    · rintro ⟨j, ⟨hj, htenant, hid⟩, rfl⟩
      exact ⟨hid, j, h.mem_jobs_iff.1 hj, htenant⟩
    · rintro ⟨hid, j, hrow, htenant⟩
      have hj := h.keyed.job id j hrow
      rw [← hj] at hrow hid
      exact ⟨j, ⟨h.mem_jobs_iff.2 hrow, htenant, hid⟩, hj⟩
  have hnodup : found.Nodup := h.nodup_jobIDs.sublist (List.filter_sublist.map _)
  have hlength : ((jobs d).countP fun j => j.tenantID == tenantID && ids.contains j.id) =
      found.length := by
    rw [List.countP_eq_length_filter, List.length_map]
  rw [hlength, length_eq_iff_of_subset hnodup fun id hid => ((hmem id).1 hid).1]
  refine and_congr_right fun _ => forall₂_congr fun id hid => ?_
  rw [hmem, and_iff_right hid]

end Count

def replaced (d : Db) (p : ℕ) (children : List ℕ) (x y : ℕ) : Prop :=
  if x = p then y ∈ children else Edge d x y

/-- What a new list of children has to meet. -/
structure Acceptable (d : Db) (tenantID p : ℕ) (children : List ℕ) : Prop where
  employed : ∀ id ∈ p :: children, Employed d tenantID id
  distinct : (p :: children).Nodup
  acyclic : Acyclic (replaced d p children)

def DependenciesOwned (d : Db) : Prop :=
  ∀ p c e, d.row (.dependency p c) = some e → Employed d e.tenantID p

section Stages

/-- The rows of `d₀`, but the edges of `p` are those to the given children. -/
structure Rewired (d₀ : Db) (tenantID p : ℕ) (children : List ℕ) (d : Db) : Prop where
  rest : ∀ k, (∀ c, k ≠ .dependency p c) → d.row k = d₀.row k
  edges : ∀ c, Edge d p c ↔ c ∈ children
  rows : ∀ c e, d.row (.dependency p c) = some e → e = ⟨tenantID, p, c⟩
  listed : ∀ k v, d.row k = some v → k ∈ d.keys

structure Cleared (d₀ : Db) (tenantID p : ℕ) (left : List ℕ) (d : Db) : Prop where
  rest : ∀ k, (∀ c, k ≠ .dependency p c) → d.row k = d₀.row k
  edges : ∀ c e, d.row (.dependency p c) = some e → c ∈ left ∧ e.tenantID = tenantID
  listed : ∀ k v, d.row k = some v → k ∈ d.keys

theorem listed_write {w : Write Row} (h : ∀ k v, d.row k = some v → k ∈ d.keys) :
    ∀ k v, (d.write w).row k = some v → k ∈ (d.write w).keys := by
  intro k v hrow
  obtain ⟨k', v'⟩ := w
  rw [d.mem_keys_write]
  by_cases hk : k = k'
  · exact .inr hk
  · rw [d.row_write_ne _ hk] at hrow
    exact .inl (h k v hrow)

theorem Cleared.delete {left : List ℕ} (h : Cleared d₀ tenantID p (c :: left) d) :
    Cleared d₀ tenantID p left (d.write ⟨.dependency p c, none⟩) := by
  refine ⟨fun k hk => ?_, fun y e hrow => ?_, listed_write h.listed⟩
  · rw [d.row_write_ne _ (hk c), h.rest k hk]
  · by_cases hy : y = c
    · subst hy
      rw [d.row_write_self] at hrow
      cases hrow
    · rw [d.row_write_ne _ (by simpa using hy)] at hrow
      obtain ⟨hmem, htenant⟩ := h.edges y e hrow
      exact ⟨(List.mem_cons.1 hmem).resolve_left hy, htenant⟩

theorem Cleared.skip {left : List ℕ} (h : Cleared d₀ tenantID p (c :: left) d)
    (hnone : d.row (.dependency p c) = none) : Cleared d₀ tenantID p left d := by
  refine ⟨h.rest, fun y e hrow => ?_, h.listed⟩
  obtain ⟨hmem, htenant⟩ := h.edges y e hrow
  refine ⟨(List.mem_cons.1 hmem).resolve_left fun hy => ?_, htenant⟩
  rw [hy, hnone] at hrow
  cases hrow

theorem Cleared.rewired (h : Cleared d₀ tenantID p [] d) : Rewired d₀ tenantID p [] d := by
  have hnone : ∀ c, d.row (.dependency p c) = none := by
    intro c
    by_contra hrow
    obtain ⟨e, he⟩ := Option.ne_none_iff_exists'.1 hrow
    exact List.not_mem_nil (h.edges c e he).1
  refine ⟨h.rest, fun c => ?_, fun c e hrow => ?_, h.listed⟩
  · simp [Edge, hnone c]
  · rw [hnone c] at hrow
    cases hrow

namespace Rewired

theorem edge_iff (h : Rewired d₀ tenantID p children d) :
    Edge d x y ↔ replaced d₀ p children x y := by
  unfold replaced
  split
  · next hx => rw [hx, h.edges]
  · next hx => rw [Edge, Edge, h.rest _ fun c => by simp [hx]]

theorem keyed (h : Rewired d₀ tenantID p children d) (hkeyed : DependenciesKeyed d₀) :
    DependenciesKeyed d := by
  intro x y e hrow
  by_cases hx : x = p
  · subst hx
    rw [h.rows y e hrow]
    exact ⟨rfl, rfl⟩
  · rw [h.rest _ fun c => by simp [hx]] at hrow
    exact hkeyed x y e hrow

theorem owned (h : Rewired d₀ tenantID p children d) (howned : DependenciesOwned d₀)
    (hp : Employed d₀ tenantID p) : DependenciesOwned d := by
  have hjob : ∀ id, d.row (.job id) = d₀.row (.job id) := fun id => h.rest _ fun c => by simp
  intro x y e hrow
  rw [Employed, hjob]
  by_cases hx : x = p
  · subst hx
    rw [h.rows y e hrow]
    exact hp
  · rw [h.rest _ fun c => by simp [hx]] at hrow
    exact howned x y e hrow

theorem insert (h : Rewired d₀ tenantID p children d) (c : ℕ) :
    Rewired d₀ tenantID p (children ++ [c])
      (d.write ⟨.dependency p c, some ⟨tenantID, p, c⟩⟩) := by
  refine ⟨fun k hk => ?_, fun y => ?_, fun y e hrow => ?_, listed_write h.listed⟩
  · rw [d.row_write_ne _ (hk c), h.rest k hk]
  · by_cases hy : y = c
    · subst hy
      simp [Edge]
    · rw [Edge, d.row_write_ne _ (by simpa using hy), ← Edge, h.edges]
      simp [hy]
  · by_cases hy : y = c
    · subst hy
      rw [d.row_write_self] at hrow
      exact (Option.some.inj hrow).symm
    · rw [d.row_write_ne _ (by simpa using hy)] at hrow
      exact h.rows y e hrow

end Rewired

end Stages

section Update

theorem clearDependencies_ends {left : List ℕ} (h : Cleared d₀ tenantID p left d) :
    (Program.forEach left fun childID => do
      let _ ← .exec (.delete (V := Row) (Key.dependency p childID) fun e =>
        e.tenantID == tenantID)
      pure () : Tx Unit).Ends (Returned fun _ => Rewired d₀ tenantID p []) d := by
  refine .forEach (Cleared d₀ tenantID p) (fun c left d h => ?_) (fun d h => h.rewired) h
  refine Program.Ends.andThen (R := fun _ => Cleared d₀ tenantID p left)
    (.delete (fun _ _ _ => h.delete) fun hother => ?_) fun _ _ h' => h'
  refine h.skip (Option.eq_none_iff_forall_ne_some.2 fun e hrow => ?_)
  have htenant := hother e hrow
  rw [(h.edges c e hrow).2, beq_self_eq_true] at htenant
  cases htenant

/-- The graph so far has no cycle, and one more child is not refused unless it closes one. -/
theorem addDependency_ends (hkeyed : DependenciesKeyed d₀)
    (h : Rewired d₀ tenantID p children d) (hacyclic : Acyclic (Edge d)) :
    (do
      if c = p then .fail .dependencyCycle else
      if ← select fun d => reaches d c p then .fail .dependencyCycle
      else insertRow (.dependency p c) ⟨tenantID, p, c⟩ : Tx Unit).Ends
      (Outcome (fun _ d' => Rewired d₀ tenantID p (children ++ [c]) d' ∧ Acyclic (Edge d'))
        fun _ _ => c = p ∨ c ∈ children ∨ TransGen (Edge d) c p) d := by
  split
  · next hc => exact .inl hc
  next hc =>
  refine .readThen ?_
  have hreach := reaches_iff (c := c) (p := p) (h.keyed hkeyed) h.listed
  split
  · next hway => exact .inr (.inr (hreach.1 hway))
  · next hway =>
    rw [hreach] at hway
    refine insertRow_cases (fun _ => ?_) fun hrow => .inr (.inl ((h.edges c).1 hrow))
    refine ⟨h.insert c, hacyclic.insert (fun x y hxy => ?_) hc hway⟩
    rw [(h.insert c).edge_iff] at hxy
    rw [h.edge_iff]
    unfold replaced at hxy ⊢
    split at hxy
    · next hx => simpa [hx] using hxy
    · next hx => simpa [hx] using hxy

theorem not_acceptable {before left : List ℕ} (h : Rewired d₀ tenantID p before d)
    (hchildren : before ++ c :: left = children)
    (hrefused : c = p ∨ c ∈ before ∨ TransGen (Edge d) c p) :
    ¬Acceptable d₀ tenantID p children := by
  intro hacceptable
  subst hchildren
  obtain ⟨hparent, hdistinct⟩ := List.nodup_cons.1 hacceptable.distinct
  rcases hrefused with hc | hc | hway
  · exact hparent (by simp [hc])
  · exact (List.nodup_append.1 hdistinct).2.2 c hc c List.mem_cons_self rfl
  · have hwider : ∀ x y, Edge d x y → replaced d₀ p (before ++ c :: left) x y := by
      intro x y hxy
      rw [h.edge_iff] at hxy
      unfold replaced at hxy ⊢
      split
      · next hx =>
          rw [if_pos hx] at hxy
          exact List.mem_append_left _ hxy
      · next hx => rwa [if_neg hx] at hxy
    exact hacceptable.acyclic c ((TransGen.mono hwider _ _ hway).tail (by simp [replaced]))

theorem addDependencies_ends (hkeyed : DependenciesKeyed d₀)
    (h : Rewired d₀ tenantID p [] d) (hacyclic : Acyclic (Edge d)) :
    (Program.forEach children fun childID => do
      if childID = p then .fail .dependencyCycle else
      if ← select fun d => reaches d childID p then .fail .dependencyCycle
      else insertRow (.dependency p childID) ⟨tenantID, p, childID⟩ : Tx Unit).Ends
      (Outcome (fun _ d' => Rewired d₀ tenantID p children d' ∧ Acyclic (Edge d'))
        fun _ _ => ¬Acceptable d₀ tenantID p children) d := by
  refine .forEach (fun left d => ∃ before, before ++ left = children ∧
    Rewired d₀ tenantID p before d ∧ Acyclic (Edge d)) (fun c left d₁ h₁ => ?_) (fun d₁ h₁ => ?_)
    ⟨[], rfl, h, hacyclic⟩
  · obtain ⟨before, hchildren, hrewired, hacyclic₁⟩ := h₁
    refine (addDependency_ends hkeyed hrewired hacyclic₁).mono fun res d₂ h₂ => ?_
    cases res with
    | ok _ => exact ⟨before ++ [c], by simpa using hchildren, h₂⟩
    | error e => exact not_acceptable hrewired hchildren h₂
  · obtain ⟨before, hchildren, hrewired⟩ := h₁
    rw [List.append_nil] at hchildren
    exact hchildren ▸ hrewired

theorem setJobDependencies_ends (h : WellFormed d) (howned : DependenciesOwned d)
    (hacyclic : Acyclic (Edge d)) (tenantID p : ℕ) (children : List ℕ) :
    (setJobDependencies tenantID p children).Ends (Outcome
      (fun _ d' => Acceptable d tenantID p children ∧ Rewired d tenantID p children d')
      fun _ _ => ¬Acceptable d tenantID p children) d := by
  refine .readThen ?_
  have hcount := countP_jobs_iff h tenantID (p :: children)
  rw [List.length_cons] at hcount
  split
  · next hne => exact fun hacceptable => hne (hcount.2 ⟨hacceptable.distinct, hacceptable.employed⟩)
  next heq =>
  obtain ⟨hdistinct, hemployed⟩ := hcount.1 (not_not.1 heq)
  refine .readThen ?_
  have hcleared : Cleared d tenantID p (((dependencies d).filter fun e =>
      e.tenantID == tenantID && e.parentJobID == p).map Dependency.childJobID) d := by
    refine ⟨fun _ _ => rfl, fun c e hrow => ?_, h.listed⟩
    obtain ⟨hparent, hchild⟩ := h.keyed.dependency p c e hrow
    obtain ⟨j, hj, htenant⟩ := howned p c e hrow
    obtain ⟨j', hj', htenant'⟩ := hemployed p List.mem_cons_self
    rw [hj, Option.some.injEq] at hj'
    have howner : e.tenantID = tenantID := by rw [← htenant, hj', htenant']
    refine ⟨List.mem_map.2 ⟨e, List.mem_filter.2 ⟨?_, ?_⟩, hchild⟩, howner⟩
    · exact mem_dependencies.2 ⟨p, c, h.listed _ e hrow, hrow⟩
    · simp [howner, hparent]
  refine (clearDependencies_ends hcleared).andThen fun _ d₁ h₁ => ?_
  have hkeyed : DependenciesKeyed d := h.keyed.dependency
  refine (addDependencies_ends hkeyed h₁ (hacyclic.mono fun x y hxy => ?_)).mono fun res d₂ h₂ => ?_
  · rw [h₁.edge_iff] at hxy
    unfold replaced at hxy
    split at hxy
    · cases hxy
    · exact hxy
  · cases res with
    | ok _ =>
      obtain ⟨hrewired, hacyclic₂⟩ := h₂
      refine ⟨⟨hemployed, hdistinct, hacyclic₂.mono fun x y hxy => ?_⟩, hrewired⟩
      exact hrewired.edge_iff.2 hxy
    | error e => exact h₂

/-- With no other transaction open an update of the dependencies of a job returns, and
returns without an error exactly if the list is acceptable. The stored graph is then the one
asked for; otherwise it is as it was. The rows stay with the tenants of their parents. -/
theorem setJobDependencies_exact (h : WellFormed d) (howned : DependenciesOwned d)
    (hacyclic : Acyclic (Edge d)) (tenantID p : ℕ) (children : List ℕ) :
    (∃ inps out, (setJobDependencies tenantID p children).transact inps d = some out) ∧
      ∀ inps res d', (setJobDependencies tenantID p children).transact inps d = some (res, d') →
        (res = .ok () ↔ Acceptable d tenantID p children) ∧
        (res = .ok () → ∀ x y, Edge d' x y ↔ replaced d p children x y) ∧
        (res ≠ .ok () → d'.row = d.row) ∧ DependenciesOwned d' := by
  obtain ⟨hruns, hends⟩ := (setJobDependencies_ends h howned hacyclic tenantID p children).transact
  refine ⟨hruns, fun inps res d' hres => ?_⟩
  cases hends inps res d' hres with
  | inl hok =>
    obtain ⟨_, rfl, hacceptable, hrewired⟩ := hok
    exact ⟨⟨fun _ => hacceptable, fun _ => rfl⟩, fun _ x y => hrewired.edge_iff,
      fun hne => absurd rfl hne, hrewired.owned howned (hacceptable.employed p List.mem_cons_self)⟩
  | inr herror =>
    obtain ⟨e, _, rfl, hnot, hrow⟩ := herror
    refine ⟨⟨fun heq => ?_, fun hacceptable => absurd hacceptable hnot⟩, fun heq => ?_,
      fun _ => hrow, ?_⟩
    · cases heq
    · cases heq
    · simpa only [DependenciesOwned, Employed, hrow] using howned

def linkedJobs : Db where
  keys := [.job 1, .job 2, .job 3, .job 4, .dependency 1 2, .dependency 2 3]
  row := fun
    | .job id => if id ∈ [1, 2, 3, 4] then some { plainJob with id := id } else none
    | .dependency p c => if (p, c) ∈ [(1, 2), (2, 3)] then some ⟨1, p, c⟩ else none
    | _ => none
  clock := 0

theorem linkedJobs_wellFormed : WellFormed linkedJobs := by
  refine ⟨by decide, fun k hk => ?_, fun id r hrow => ?_, fun id j hrow => ?_,
    fun p c e hrow => ?_, fun id kc hrow => ?_⟩
  · cases k with
    | job id => exact if_neg fun hid => hk (by simpa [linkedJobs] using hid)
    | dependency p c => exact if_neg fun hid => hk (by simpa [linkedJobs] using hid)
    | _ => rfl
  · cases hrow
  · obtain ⟨-, hj⟩ := Option.ite_none_right_eq_some.1 hrow
    cases hj
    rfl
  · obtain ⟨-, he⟩ := Option.ite_none_right_eq_some.1 hrow
    cases he
    exact ⟨rfl, rfl⟩
  · cases hrow

theorem linkedJobs_edge {x y : ℕ} : Edge linkedJobs x y ↔ (x, y) ∈ [(1, 2), (2, 3)] := by
  have hrow : linkedJobs.row (.dependency x y) =
      if (x, y) ∈ [(1, 2), (2, 3)] then some ⟨1, x, y⟩ else none := rfl
  rw [Edge, hrow, ite_ne_right_iff]
  exact and_iff_left (by simp)

theorem linkedJobs_owned : DependenciesOwned linkedJobs := by
  intro p c e hrow
  obtain ⟨hmem, he⟩ := Option.ite_none_right_eq_some.1 hrow
  cases he
  have hp : p ∈ [1, 2, 3, 4] := by simp at hmem ⊢; omega
  exact ⟨_, if_pos hp, rfl⟩

theorem linkedJobs_acyclic : Acyclic (Edge linkedJobs) := by
  refine acyclic_of_lt fun x y hxy => ?_
  simp [linkedJobs_edge] at hxy
  omega

theorem replaced_linkedJobs (x y : ℕ) :
    replaced linkedJobs 1 [3, 4] x y ↔ (x, y) ∈ [(1, 3), (1, 4), (2, 3)] := by
  simp only [replaced, linkedJobs_edge]
  split <;> simp <;> omega

theorem linkedJobs_acceptable : Acceptable linkedJobs 1 1 [3, 4] := by
  refine ⟨?_, by decide, acyclic_of_lt fun x y hxy => ?_⟩
  · simp only [List.forall_mem_cons, List.not_mem_nil, false_implies, implies_true, and_true]
    exact ⟨⟨_, rfl, rfl⟩, ⟨_, rfl, rfl⟩, ⟨_, rfl, rfl⟩⟩
  · simp [replaced_linkedJobs] at hxy
    omega

theorem linkedJobs_not_acceptable : ¬ Acceptable linkedJobs 1 3 [4, 1] := by
  intro h
  -- The cycle is 1 → 2 → 3 → 1.
  have hfirst : replaced linkedJobs 3 [4, 1] 1 2 := by simp [replaced, linkedJobs_edge]
  have hsecond : replaced linkedJobs 3 [4, 1] 2 3 := by simp [replaced, linkedJobs_edge]
  have hback : replaced linkedJobs 3 [4, 1] 3 1 := by simp [replaced]
  exact h.acyclic 1 (((TransGen.single hfirst).tail hsecond).tail hback)

/-- With 1 → 2 → 3, the children 3 and 4 of 1 are accepted in the place of 2; 1 is no child of
3. -/
theorem setJobDependencies_exact_linked :
    (∃ inps d', (setJobDependencies 1 1 [3, 4]).transact inps linkedJobs = some (.ok (), d') ∧
      ∀ x y, Edge d' x y ↔ (x, y) ∈ [(1, 3), (1, 4), (2, 3)]) ∧
    ∃ inps e d', (setJobDependencies 1 3 [4, 1]).transact inps linkedJobs = some (.error e, d') ∧
      d'.row = linkedJobs.row := by
  have hexact :=
    setJobDependencies_exact linkedJobs_wellFormed linkedJobs_owned linkedJobs_acyclic 1
  constructor
  · obtain ⟨⟨inps, ⟨res, d'⟩, hout⟩, hends⟩ := hexact 1 [3, 4]
    obtain ⟨hok, hgraph, -, -⟩ := hends inps res d' hout
    obtain rfl := hok.2 linkedJobs_acceptable
    exact ⟨inps, d', hout, fun x y => (hgraph rfl x y).trans (replaced_linkedJobs x y)⟩
  · obtain ⟨⟨inps, ⟨res, d'⟩, hout⟩, hends⟩ := hexact 3 [4, 1]
    obtain ⟨hok, -, hsame, -⟩ := hends inps res d' hout
    have hne : res ≠ .ok () := fun hres => linkedJobs_not_acceptable (hok.1 hres)
    cases res with
    | ok u => exact absurd rfl hne
    | error e => exact ⟨inps, e, d', hout, hsame hne⟩

end Update

end GoScheduler.Store
