import Mathlib.Data.List.Rotate

/-! Fair choices among finitely many, seen in the list of the choices made so far, the newest
first: taking turns, taking one that was taken least often, and taking one that was not taken for
the longest. -/
namespace GoScheduler.Fairness

variable {α : Type} {xs h w : List α} {x : α} {k : ℕ} {f : α → ℕ}

/-- The choices take turns among `xs`, starting with the `k`-th. -/
def Turns (xs : List α) (k : ℕ) (h : List α) : Prop :=
  ∀ i < h.length, h.reverse[i]? = xs[(k + i) % xs.length]?

theorem Turns.nil (xs : List α) (k : ℕ) : Turns xs k [] := fun _ hi => absurd hi (Nat.not_lt_zero _)

theorem Turns.cons (hh : Turns xs k h) (hx : xs[(k + h.length) % xs.length]? = some x) :
    Turns xs k (x :: h) := by
  intro i hi
  rw [List.reverse_cons]
  rcases Nat.lt_succ_iff_lt_or_eq.1 hi with hlt | rfl
  · rw [List.getElem?_append_left (by rwa [List.length_reverse]), hh i hlt]
  · rw [List.getElem?_append_right (by rw [List.length_reverse]), List.length_reverse,
      Nat.sub_self, hx]
    rfl

theorem Turns.window (hh : Turns xs k h) (hw : w <:+: h) (hlen : w.length = xs.length) :
    w.Perm xs := by
  obtain ⟨newer, older, rfl⟩ := hw
  have hrotate : w.reverse = xs.rotate (k + older.length) := by
    refine List.ext_getElem? fun i => ?_
    by_cases hi : i < w.length
    · have hturn := hh (older.length + i) (by simp only [List.length_append]; omega)
      rw [List.reverse_append, List.reverse_append, List.getElem?_append_right (by simp),
        List.length_reverse, Nat.add_sub_cancel_left,
        List.getElem?_append_left (by rwa [List.length_reverse])] at hturn
      rw [hturn, List.getElem?_rotate (hlen ▸ hi)]
      congr 2
      omega
    · rw [List.getElem?_eq_none (by rw [List.length_reverse]; omega),
        List.getElem?_eq_none (by rw [List.length_rotate]; omega)]
  have hperm : w.reverse.Perm xs := hrotate ▸ List.rotate_perm xs _
  exact w.reverse_perm.symm.trans hperm

def Balanced (s : List α) (f : α → ℕ) : Prop := ∀ a ∈ s, ∀ b ∈ s, f a ≤ f b + 1

theorem Balanced.bump [DecidableEq α] (hf : Balanced xs f) (hmin : ∀ b ∈ xs, f x ≤ f b) :
    Balanced xs (Function.update f x (f x + 1)) := by
  intro a ha b hb
  have hab := hf a ha b hb
  have hxb := hmin b hb
  have hgrow : f b ≤ Function.update f x (f x + 1) b := by
    by_cases h : b = x
    · subst h
      rw [Function.update_self]
      exact Nat.le_succ _
    · rw [Function.update_of_ne h]
  by_cases h : a = x
  · subst h
    rw [Function.update_self]
    omega
  · rw [Function.update_of_ne h]
    omega

/-- After the choices `h`, the newest first, `x` was never chosen, or all of `xs` were and the last
choice of `x` is the earliest of their last choices. -/
def LeastRecent [DecidableEq α] (xs h : List α) (x : α) : Prop :=
  x ∉ h ∨ (∀ y ∈ xs, y ∈ h) ∧ ∀ y ∈ xs, h.idxOf y ≤ h.idxOf x

instance [DecidableEq α] (xs h : List α) (x : α) : Decidable (LeastRecent xs h x) :=
  inferInstanceAs (Decidable (_ ∨ _ ∧ _))

end GoScheduler.Fairness
