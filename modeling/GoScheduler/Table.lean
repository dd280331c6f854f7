import Mathlib.Data.List.AList

/-! Finite tables: where a value that is found after a change comes from, which changes
commute, and how many keys there are. -/
namespace GoScheduler.Table

variable {κ ν : Type} [DecidableEq κ] {m : AList fun _ : κ => ν} {k k' : κ} {v v' : ν}

theorem lookup_insert_eq_some_iff : (m.insert k v).lookup k' = some v' ↔
    k' = k ∧ v' = v ∨ k' ≠ k ∧ m.lookup k' = some v' := by
  by_cases hk : k' = k
  · subst hk
    simp [eq_comm]
  · simp [hk]

theorem lookup_erase_eq_some_iff :
    (m.erase k).lookup k' = some v' ↔ k' ≠ k ∧ m.lookup k' = some v' := by
  by_cases hk : k' = k
  · subst hk
    simp
  · simp [hk]

theorem ne_of_lookup (hnone : m.lookup k = none) (h : m.lookup k' = some v') : k' ≠ k := by
  rintro rfl
  rw [hnone] at h
  cases h

theorem mem_of_lookup (h : m.lookup k = some v) : k ∈ m :=
  AList.lookup_isSome.1 (by rw [h]; rfl)

theorem forall_insert {p : κ → ν → Prop} (h : ∀ k v, m.lookup k = some v → p k v) (hv : p k v) :
    ∀ k' v', (m.insert k v).lookup k' = some v' → p k' v' := by
  intro k' v' hlookup
  obtain ⟨rfl, rfl⟩ | ⟨-, hlookup⟩ := lookup_insert_eq_some_iff.1 hlookup
  · exact hv
  · exact h k' v' hlookup

theorem erase_insert_of_ne (h : k' ≠ k) (v : ν) :
    (m.insert k v).erase k' = (m.erase k').insert k v := by
  refine AList.ext ?_
  change List.kerase k' (⟨k, v⟩ :: List.kerase k m.entries) =
    ⟨k, v⟩ :: List.kerase k (List.kerase k' m.entries)
  rw [List.kerase_cons_ne h, List.kerase_comm]

theorem filter_entries_erase {p : (Σ _ : κ, ν) → Bool} (h : m.lookup k = some v)
    (hp : p ⟨k, v⟩ = false) : (m.erase k).entries.filter p = m.entries.filter p := by
  obtain ⟨v', l₁, l₂, hnot, hentries, herased⟩ := List.exists_of_kerase (mem_of_lookup h)
  have hv : m.lookup k = some v' := by
    refine AList.mem_lookup_iff.2 ?_
    rw [hentries]
    exact List.mem_append_right _ List.mem_cons_self
  cases h.symm.trans hv
  change (List.kerase k m.entries).filter p = _
  rw [herased, hentries, List.filter_append, List.filter_append,
    List.filter_cons_of_neg (by simp [hp])]

theorem length_keys_insert (m : AList fun _ : κ => ν) (k : κ) (v : ν) :
    (m.insert k v).keys.length = if k ∈ m then m.keys.length else m.keys.length + 1 := by
  rw [AList.keys_insert, List.length_cons]
  split
  · next h => exact List.length_erase_add_one (AList.mem_keys.1 h)
  · next h => rw [List.erase_of_not_mem fun hmem => h (AList.mem_keys.2 hmem)]

end GoScheduler.Table
