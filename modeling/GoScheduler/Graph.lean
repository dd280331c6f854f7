import Mathlib.Data.Finset.Card

/-! Directed graphs as relations: cycles, the edges that close one, and the closure of a
finite set of vertices in rounds. -/
namespace GoScheduler.Graph
open Relation

variable {α : Type} {r s : α → α → Prop} {p c x y : α}

def Acyclic (r : α → α → Prop) : Prop := ∀ x, ¬ TransGen r x x

theorem Acyclic.mono (h : Acyclic s) (hrs : ∀ x y, r x y → s x y) : Acyclic r :=
  fun x hx => h x (TransGen.mono hrs _ _ hx)

theorem acyclic_of_lt [Preorder α] (h : ∀ x y, r x y → x < y) : Acyclic r := by
  intro x hx
  have hlt := TransGen.mono h _ _ hx
  rw [transGen_eq_self] at hlt
  exact lt_irrefl x hlt

/-- A way through a graph with one more edge avoids the edge, or comes to it and goes on from
its end. -/
theorem transGen_insert (hs : ∀ x y, s x y → r x y ∨ (x = p ∧ y = c)) (h : TransGen s x y) :
    TransGen r x y ∨ (ReflTransGen r x p ∧ ReflTransGen r c y) := by
  induction h with
  | single hxy =>
    cases hs _ _ hxy with
    | inl hr => exact .inl (.single hr)
    | inr he =>
      obtain ⟨rfl, rfl⟩ := he
      exact .inr ⟨.refl, .refl⟩
  | tail _ hyz ih =>
    cases hs _ _ hyz with
    | inl hr => exact ih.imp (fun h => h.tail hr) fun h => ⟨h.1, h.2.tail hr⟩
    | inr he =>
      obtain ⟨rfl, rfl⟩ := he
      right
      refine ⟨?_, .refl⟩
      exact ih.elim TransGen.to_reflTransGen And.left

theorem Acyclic.insert (h : Acyclic r) (hs : ∀ x y, s x y → r x y ∨ (x = p ∧ y = c))
    (hne : c ≠ p) (hway : ¬ TransGen r c p) : Acyclic s := by
  intro x hx
  cases transGen_insert hs hx with
  | inl hr => exact h x hr
  | inr hsplit =>
    have hcp := hsplit.2.trans hsplit.1
    cases reflTransGen_iff_eq_or_transGen.1 hcp with
    | inl he => exact hne he.symm
    | inr hr => exact hway hr

section Rounds

variable {f : Finset α → Finset α} {S bound : Finset α}

theorem fixed_or_le_card (hadd : ∀ S, S ⊆ f S) (k : ℕ) :
    (∃ j ≤ k, f (f^[j] S) = f^[j] S) ∨ k ≤ (f^[k] S).card := by
  induction k with
  | zero => exact .inr (Nat.zero_le _)
  | succ k ih =>
    cases ih with
    | inl hfixed =>
      obtain ⟨j, hj, hfixed⟩ := hfixed
      exact .inl ⟨j, by omega, hfixed⟩
    | inr hcard =>
      by_cases hfixed : f (f^[k] S) = f^[k] S
      · exact .inl ⟨k, by omega, hfixed⟩
      · right
        have hlt := Finset.card_lt_card (Finset.ssubset_iff_subset_ne.2 ⟨hadd (f^[k] S),
          fun he => hfixed he.symm⟩)
        rw [Function.iterate_succ_apply']
        omega

theorem fixed_of_card_le (hadd : ∀ S, S ⊆ f S) (hbound : ∀ k, f^[k] S ⊆ bound) {n : ℕ}
    (hn : bound.card ≤ n) : f (f^[n] S) = f^[n] S := by
  cases fixed_or_le_card (S := S) hadd n with
  | inl hfixed =>
    obtain ⟨j, hj, hfixed⟩ := hfixed
    obtain ⟨k, rfl⟩ := Nat.exists_eq_add_of_le hj
    have hstays : f^[k] (f^[j] S) = f^[j] S := Function.iterate_fixed hfixed k
    rw [Nat.add_comm, Function.iterate_add_apply, hstays, hfixed]
  | inr hcard =>
    have hall : f^[n] S = bound := Finset.eq_of_subset_of_card_le (hbound n) (by omega)
    have hnext : f (f^[n] S) ⊆ bound := by
      rw [← Function.iterate_succ_apply' f n S]
      exact hbound (n + 1)
    exact (hnext.trans hall.symm.subset).antisymm (hadd _)

end Rounds

theorem mem_of_transGen {S : α → Prop} (hstart : ∀ y, r x y → S y)
    (hclosed : ∀ y z, S y → r y z → S z) (h : TransGen r x y) : S y := by
  induction h with
  | single hxy => exact hstart _ hxy
  | tail _ hyz ih => exact hclosed _ _ ih hyz

end GoScheduler.Graph
