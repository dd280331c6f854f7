import Mathlib.Data.List.MinMax
import Mathlib.Data.List.Sort

/-! Places in an order: how many elements of a list stand before a given one. -/
namespace GoScheduler.Ranking

variable {α β : Type} [LinearOrder β] {f : α → β} {l s : List α} {a : α}

theorem exists_length_le_countP (hs : s.Subperm l) (hne : s ≠ []) :
    ∃ a ∈ s, s.length ≤ l.countP fun x => f x ≤ f a := by
  obtain ⟨a, ha⟩ := Option.ne_none_iff_exists'.1 (mt (List.argmax_eq_none (f := f)).1 hne)
  refine ⟨a, List.argmax_mem ha, ?_⟩
  have hall : (s.countP fun x => decide (f x ≤ f a)) = s.length :=
    List.countP_eq_length.2 fun x hx => decide_eq_true (List.le_of_mem_argmax hx ha)
  rw [← hall]
  exact hs.countP_le _

theorem mem_take_iff (hs : s.Pairwise fun x y => f x < f y) (n : ℕ) :
    a ∈ s.take n ↔ a ∈ s ∧ (s.countP fun x => f x < f a) < n := by
  induction s generalizing n with
  | nil => simp
  | cons b s ih =>
    obtain ⟨hb, hs⟩ := List.pairwise_cons.1 hs
    cases n with
    | zero => simp
    | succ n =>
      rw [List.take_succ_cons, List.mem_cons, List.mem_cons, ih hs, List.countP_cons]
      by_cases ha : a = b
      · subst ha
        have hnone : (s.countP fun x => decide (f x < f a)) = 0 :=
          List.countP_eq_zero.2 fun x hx => by simpa using (hb x hx).le
        simp [hnone]
      · have hlt : a ∈ s → f b < f a := hb a
        constructor
        · rintro (h | ⟨hmem, hcount⟩)
          · exact absurd h ha
          · refine ⟨.inr hmem, ?_⟩
            rw [if_pos (by simpa using hlt hmem)]
            omega
        · rintro ⟨h | hmem, hcount⟩
          · exact absurd h ha
          · rw [if_pos (by simpa using hlt hmem)] at hcount
            exact .inr ⟨hmem, by omega⟩

end GoScheduler.Ranking
