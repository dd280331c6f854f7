import Mathlib.Data.List.Sort
import Mathlib.Data.List.Perm.Basic

/-! Reading a growing table page by page. Rows carry a number and a reader keeps the number
of the last row it has seen; a page holds the rows of higher number, lowest first, up to a
limit. The reader has everything up to its cursor as long as no row appears below it. -/
namespace GoScheduler.Cursor

variable {α : Type*} (number : α → ℕ)

def above (after : ℕ) (rows : List α) : List α := rows.filter fun r => after < number r

def upTo (cursor : ℕ) (rows : List α) : List α := rows.filter fun r => number r ≤ cursor

def page (after limit : ℕ) (rows : List α) : List α :=
  ((above number after rows).insertionSort fun a b => number a ≤ number b).take limit

def advance (after : ℕ) (p : List α) : ℕ := (p.getLast?.map number).getD after

variable {number}

@[simp] theorem mem_above {after : ℕ} {rows : List α} {r : α} :
    r ∈ above number after rows ↔ r ∈ rows ∧ after < number r := by simp [above]

@[simp] theorem mem_upTo {cursor : ℕ} {rows : List α} {r : α} :
    r ∈ upTo number cursor rows ↔ r ∈ rows ∧ number r ≤ cursor := by simp [upTo]

@[simp] theorem upTo_append (cursor : ℕ) (rows added : List α) :
    upTo number cursor (rows ++ added) = upTo number cursor rows ++ upTo number cursor added := by
  simp [upTo]

theorem upTo_eq_nil {cursor : ℕ} {rows : List α} (h : ∀ r ∈ rows, cursor < number r) :
    upTo number cursor rows = [] := by
  simpa [upTo] using h

theorem upTo_eq_self {cursor : ℕ} {rows : List α} (h : ∀ r ∈ rows, number r ≤ cursor) :
    upTo number cursor rows = rows := by
  simpa [upTo] using h

theorem mem_of_mem_page {after limit : ℕ} {rows : List α} {r : α}
    (h : r ∈ page number after limit rows) : r ∈ rows ∧ after < number r :=
  mem_above.mp ((List.mem_insertionSort _).mp (List.mem_of_mem_take h))

theorem forall_le_of_page_nil {after limit : ℕ} {rows : List α} (hlimit : 0 < limit)
    (h : page number after limit rows = []) : ∀ r ∈ rows, number r ≤ after := by
  intro r hr
  by_contra hlt
  have hmem : r ∈ (above number after rows).insertionSort fun a b => number a ≤ number b := by
    rw [List.mem_insertionSort, mem_above]
    exact ⟨hr, by omega⟩
  rcases List.take_eq_nil_iff.mp h with h0 | hnil
  · omega
  · rw [hnil] at hmem
    exact absurd hmem (by simp)

theorem le_advance {after limit : ℕ} {rows : List α} :
    after ≤ advance number after (page number after limit rows) := by
  unfold advance
  cases h : (page number after limit rows).getLast? with
  | none => simp
  | some r =>
    have hr := mem_of_mem_page (List.mem_of_getLast? h)
    simp only [Option.map_some, Option.getD_some]
    omega

theorem upTo_advance_sorted (after limit : ℕ) {sorted : List α}
    (hsorted : sorted.Pairwise fun a b => number a < number b)
    (habove : ∀ r ∈ sorted, after < number r) :
    upTo number (advance number after (sorted.take limit)) sorted = sorted.take limit := by
  have hparts : sorted.take limit ++ sorted.drop limit = sorted := List.take_append_drop ..
  rw [← hparts, List.pairwise_append] at hsorted
  obtain ⟨hfirst, -, hcross⟩ := hsorted
  cases hlast : (sorted.take limit).getLast? with
  | none =>
    rw [List.getLast?_eq_none_iff] at hlast
    rw [hlast]
    apply upTo_eq_nil
    simpa [advance] using habove
  | some last =>
    have hadvance : advance number after (sorted.take limit) = number last := by
      simp [advance, hlast]
    have hmem := List.mem_of_getLast? hlast
    have hle : ∀ r ∈ sorted.take limit, number r ≤ number last := by
      intro r hr
      obtain ⟨init, hinit⟩ := List.getLast?_eq_some_iff.mp hlast
      rw [hinit] at hr hfirst
      rw [List.pairwise_append] at hfirst
      rcases List.mem_append.mp hr with hr | hr
      · exact (hfirst.2.2 r hr last (by simp)).le
      · rw [List.mem_singleton.mp hr]
    rw [hadvance]
    nth_rewrite 1 [← hparts]
    rw [upTo_append, upTo_eq_self hle, upTo_eq_nil (fun r hr => hcross last hmem r hr),
      List.append_nil]

theorem sorted_above {after : ℕ} {rows : List α} (hdistinct : (rows.map number).Nodup) :
    ((above number after rows).insertionSort fun a b => number a ≤ number b).Pairwise
      fun a b => number a < number b := by
  have hperm := List.perm_insertionSort (fun a b => number a ≤ number b)
    (above number after rows)
  have hne : ((above number after rows).insertionSort fun a b => number a ≤ number b).Pairwise
      fun a b => number a ≠ number b := by
    rw [← List.pairwise_map (R := (· ≠ ·))]
    apply (hperm.map number).nodup_iff.mpr
    exact hdistinct.sublist (List.filter_sublist.map number)
  have : Std.Total fun a b : α => number a ≤ number b := ⟨fun a b => le_total _ _⟩
  have : IsTrans α fun a b : α => number a ≤ number b := ⟨fun a b c => le_trans⟩
  have hle := List.pairwise_insertionSort (fun a b : α => number a ≤ number b)
    (above number after rows)
  exact (hle.and hne).imp fun h => lt_of_le_of_ne h.1 h.2

/-- One page moves the reader exactly from the rows up to the old cursor to those up to the
new one. -/
theorem upTo_advance {after limit : ℕ} {rows : List α} (hdistinct : (rows.map number).Nodup) :
    (upTo number (advance number after (page number after limit rows)) rows).Perm
      (upTo number after rows ++ page number after limit rows) := by
  set next := advance number after (page number after limit rows) with hnext
  have hmono : after ≤ next := le_advance
  have hold : upTo number next (upTo number after rows) = upTo number after rows := by
    apply upTo_eq_self
    intro r hr
    exact (mem_upTo.mp hr).2.trans hmono
  have hnew : (upTo number next (above number after rows)).Perm
      (page number after limit rows) := by
    have hperm := List.perm_insertionSort (fun a b => number a ≤ number b)
      (above number after rows)
    have hsorted := upTo_advance_sorted after limit (sorted_above hdistinct)
      fun r hr => (mem_above.mp ((List.mem_insertionSort _).mp hr)).2
    rw [page, ← hsorted]
    exact (hperm.symm.filter _)
  have hnot : (fun r => !decide (number r ≤ after)) = fun r => decide (after < number r) := by
    funext r
    simp only [← decide_not, not_le]
  have hsplit : (upTo number after rows ++ above number after rows).Perm rows := by
    rw [upTo, above, ← hnot]
    exact List.filter_append_perm _ rows
  have hboth := hsplit.symm.filter fun r => decide (number r ≤ next)
  rw [← upTo, ← upTo, upTo_append, hold] at hboth
  exact hboth.trans (hnew.append_left _)

end GoScheduler.Cursor
