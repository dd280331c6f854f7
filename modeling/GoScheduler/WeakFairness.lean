import Mathlib.Order.Nat

/-! Runs of threads that a scheduler interleaves, without end. A run is weakly fair if no thread
that could go on is left where it is for ever. -/
namespace GoScheduler.WeakFairness

variable {σ τ : Type} {present enabled : σ → τ → Prop} {run : ℕ → σ} {p q r : σ → Prop}

def Fair (present enabled : σ → τ → Prop) (run : ℕ → σ) : Prop :=
  ∀ t n, ∃ k, n ≤ k ∧ ¬(present (run k) t ∧ enabled (run k) t)

def LeadsTo (run : ℕ → σ) (p q : σ → Prop) : Prop :=
  ∀ n, p (run n) → ∃ k, n ≤ k ∧ q (run k)

theorem LeadsTo.trans (hpq : LeadsTo run p q) (hqr : LeadsTo run q r) : LeadsTo run p r := by
  intro n hp
  obtain ⟨k, hk, hq⟩ := hpq n hp
  obtain ⟨m, hm, hr⟩ := hqr k hq
  exact ⟨m, Nat.le_trans hk hm, hr⟩

theorem Fair.leaves (hfair : Fair present enabled run) {t : τ} {n : ℕ}
    (henabled : ∀ k, present (run k) t → enabled (run k) t) (hpresent : present (run n) t) :
    ∃ k, n ≤ k ∧ present (run k) t ∧ ¬present (run (k + 1)) t := by
  by_contra hstays
  -- Otherwise it would be there for ever.
  have hall : ∀ k, n ≤ k → present (run k) t := by
    intro k hk
    induction k, hk using Nat.le_induction with
    | base => exact hpresent
    | succ k hk ih => exact not_not.1 fun hgone => hstays ⟨k, hk, ih, hgone⟩
  obtain ⟨k, hk, hnot⟩ := hfair t n
  exact hnot ⟨hall k hk, henabled k (hall k hk)⟩

theorem Fair.leadsTo (hfair : Fair present enabled run) {t : τ}
    (henabled : ∀ k, present (run k) t → enabled (run k) t)
    (hnext : ∀ k, present (run k) t → ¬present (run (k + 1)) t → q (run (k + 1))) :
    LeadsTo run (fun s => present s t) q := by
  intro n hpresent
  obtain ⟨k, hk, hbefore, hafter⟩ := hfair.leaves henabled hpresent
  exact ⟨k + 1, Nat.le_succ_of_le hk, hnext k hbefore hafter⟩

end GoScheduler.WeakFairness
