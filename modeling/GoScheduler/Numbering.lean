import Mathlib.Data.List.Basic

/-! Histories kept in one table. Every entry has an owner and a number; the entries of an
owner are numbered from one on, without gaps, and a new entry takes the number after the
largest. -/
namespace GoScheduler.Numbering

variable {ι α β : Type} {owner : α → β} {number : α → ℕ} {rows rows' : ι → Option α} {x : β} {n : ℕ}

/-- The entries of `x` have the numbers from one to `n`, each once. -/
structure Numbered (owner : α → β) (number : α → ℕ) (rows : ι → Option α) (x : β) (n : ℕ) :
    Prop where
  bounds : ∀ i a, rows i = some a → owner a = x → 1 ≤ number a ∧ number a ≤ n
  filled : ∀ k, 1 ≤ k → k ≤ n → ∃ i a, rows i = some a ∧ owner a = x ∧ number a = k
  unique : ∀ i i' a a', rows i = some a → rows i' = some a' → owner a = x → owner a' = x →
    number a = number a' → i = i'

def SameEntries (owner : α → β) (x : β) (rows rows' : ι → Option α) : Prop :=
  ∀ i a, owner a = x → (rows' i = some a ↔ rows i = some a)

theorem SameEntries.refl (owner : α → β) (x : β) (rows : ι → Option α) :
    SameEntries owner x rows rows := fun _ _ _ => Iff.rfl

theorem Numbered.congr (h : Numbered owner number rows x n) (hs : SameEntries owner x rows rows') :
    Numbered owner number rows' x n := by
  refine ⟨fun i a ha hx => h.bounds i a ((hs i a hx).1 ha) hx, fun k hk hn => ?_,
    fun i i' a a' ha ha' hx hx' => h.unique i i' a a' ((hs i a hx).1 ha)
      ((hs i' a' hx').1 ha') hx hx'⟩
  obtain ⟨i, a, ha, hx, hnumber⟩ := h.filled k hk hn
  exact ⟨i, a, (hs i a hx).2 ha, hx, hnumber⟩

theorem numbered_zero (h : ∀ i a, rows i = some a → owner a ≠ x) :
    Numbered owner number rows x 0 := by
  refine ⟨fun i a ha hx => absurd hx (h i a ha), fun k hk hn => ?_,
    fun i _ a _ ha _ hx => absurd hx (h i a ha)⟩
  omega

theorem Numbered.insert (h : Numbered owner number rows x n) {i₀ : ι} {a₀ : α}
    (hfree : rows i₀ = none) (hself : rows' i₀ = some a₀) (hother : ∀ i ≠ i₀, rows' i = rows i)
    (howner : owner a₀ = x) (hnumber : number a₀ = n + 1) :
    Numbered owner number rows' x (n + 1) := by
  have hcases : ∀ i a, rows' i = some a → i = i₀ ∧ a = a₀ ∨ rows i = some a := by
    intro i a ha
    by_cases hi : i = i₀
    · subst hi
      exact .inl ⟨rfl, Option.some.inj (ha.symm.trans hself)⟩
    · exact .inr ((hother i hi).symm.trans ha)
  have hnew : ∀ i a, rows i = some a → rows' i = some a := by
    intro i a ha
    refine (hother i ?_).trans ha
    rintro rfl
    rw [hfree] at ha
    cases ha
  refine ⟨fun i a ha hx => ?_, fun k hk hn => ?_, fun i i' a a' ha ha' hx hx' heq => ?_⟩
  · rcases hcases i a ha with ⟨rfl, rfl⟩ | hold
    · omega
    · have hbounds := h.bounds i a hold hx
      omega
  · by_cases hlast : k = n + 1
    · exact ⟨i₀, a₀, hself, howner, hnumber.trans hlast.symm⟩
    · obtain ⟨i, a, ha, hx, hk'⟩ := h.filled k hk (by omega)
      exact ⟨i, a, hnew i a ha, hx, hk'⟩
  · rcases hcases i a ha with ⟨rfl, rfl⟩ | hold <;> rcases hcases i' a' ha' with ⟨rfl, rfl⟩ | hold'
    · rfl
    · have hbounds := h.bounds i' a' hold' hx'
      omega
    · have hbounds := h.bounds i a hold hx
      omega
    · exact h.unique i i' a a' hold hold' hx hx' heq

theorem foldl_max_le {ks : List ℕ} {m : ℕ} (hm : m ≤ n) (h : ∀ k ∈ ks, k ≤ n) :
    ks.foldl max m ≤ n := by
  induction ks generalizing m with
  | nil => exact hm
  | cons k ks ih =>
    refine ih ?_ fun k' hk' => h k' (List.mem_cons_of_mem _ hk')
    exact Nat.max_le.2 ⟨hm, h k List.mem_cons_self⟩

theorem le_foldl_max (ks : List ℕ) (m : ℕ) : m ≤ ks.foldl max m ∧ ∀ k ∈ ks, k ≤ ks.foldl max m := by
  induction ks generalizing m with
  | nil => simp
  | cons k ks ih =>
    obtain ⟨hm, hks⟩ := ih (max m k)
    simp only [List.foldl_cons, List.forall_mem_cons]
    exact ⟨by omega, by omega, hks⟩

theorem Numbered.latest [DecidableEq β] (h : Numbered owner number rows x n) {as : List α}
    (hmem : ∀ a, a ∈ as ↔ ∃ i, rows i = some a) :
    (((as.filter fun a => owner a == x).map number).foldl max 0) = n := by
  have hle : ∀ k ∈ (as.filter fun a => owner a == x).map number, k ≤ n := by
    intro k hk
    obtain ⟨a, ha, rfl⟩ := List.mem_map.1 hk
    obtain ⟨hin, hx⟩ := List.mem_filter.1 ha
    obtain ⟨i, hi⟩ := (hmem a).1 hin
    exact (h.bounds i a hi (by simpa using hx)).2
  refine Nat.le_antisymm (foldl_max_le (Nat.zero_le n) hle) ?_
  by_cases hn : n = 0
  · omega
  · obtain ⟨i, a, ha, hx, hnumber⟩ := h.filled n (by omega) (Nat.le_refl n)
    have hin : a ∈ as.filter fun a => owner a == x :=
      List.mem_filter.2 ⟨(hmem a).2 ⟨i, ha⟩, by simpa using hx⟩
    exact (le_foldl_max _ 0).2 n (List.mem_map.2 ⟨a, hin, hnumber⟩)

end GoScheduler.Numbering
