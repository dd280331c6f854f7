import Mathlib.Data.List.Sort
import Mathlib.Data.List.Perm.Basic

/-! Reading a table in pages by a key, highest first. A request takes the rows below its cursor
and asks for one more than it returns: if there is one, the key of the last row that is returned
is the next cursor. Keys are distinct; how many rows a page has may change from one request to the
next. -/
namespace GoScheduler.Keyset

variable {α κ : Type*} [LinearOrder κ] (key : α → κ)

def descending (rows : List α) : List α := rows.insertionSort fun a b => key b ≤ key a

def below (cursor : Option κ) (rows : List α) : List α :=
  rows.filter fun r => ∀ c ∈ cursor, key r < c

def page (cursor : Option κ) (limit : ℕ) (rows : List α) : List α :=
  (descending key (below key cursor rows)).take limit

def fetch (cursor : Option κ) (limit : ℕ) (rows : List α) : List α × Bool :=
  let found := page key cursor (limit + 1) rows
  if found.length > limit then (found.take limit, true) else (found, false)

/-- A request returns the first rows that its predecessors have not returned, and where rows are
left, their first one comes right after the last of these. -/
inductive Fetched (rows : List α) (limit : ℕ) : List α → List α × Bool → Prop where
  | last (rest : List α) : Fetched rows limit rest (rest, false)
  | more (front : List α) (last : α) (rest : List α) (h : front.length + 1 = limit) :
      descending key (below key (some (key last)) rows) = rest →
      Fetched rows limit (front ++ last :: rest) (front ++ [last], true)

variable {key} {rows : List α} {cursor : Option κ} {limit : ℕ}

theorem perm_descending (key : α → κ) (rows : List α) : (descending key rows).Perm rows :=
  List.perm_insertionSort _ rows

theorem pairwise_descending (hdistinct : (rows.map key).Nodup) :
    (descending key rows).Pairwise fun a b => key b < key a := by
  have : Std.Total fun a b : α => key b ≤ key a := ⟨fun a b => le_total _ _⟩
  have : IsTrans α fun a b : α => key b ≤ key a := ⟨fun a b c hab hbc => hbc.trans hab⟩
  have hle := List.pairwise_insertionSort (fun a b : α => key b ≤ key a) rows
  have hne : (descending key rows).Pairwise fun a b => key a ≠ key b := by
    rw [← List.pairwise_map]
    exact ((perm_descending key rows).map key).nodup_iff.2 hdistinct
  exact (hle.and hne).imp fun h => lt_of_le_of_ne h.1 (Ne.symm h.2)

theorem nodup_below (cursor : Option κ) (hdistinct : (rows.map key).Nodup) :
    ((below key cursor rows).map key).Nodup :=
  hdistinct.sublist (List.filter_sublist.map key)

theorem eq_of_perm {xs ys : List α} (hxs : xs.Pairwise fun a b => key b < key a)
    (hys : ys.Pairwise fun a b => key b < key a) (hperm : xs.Perm ys) : xs = ys :=
  hperm.eq_of_pairwise (fun _ _ _ _ hab hba => absurd hab hba.asymm) hxs hys

theorem descending_below_of_append (hdistinct : (rows.map key).Nodup) {front rest : List α}
    {last : α} (h : descending key (below key cursor rows) = front ++ last :: rest) :
    descending key (below key (some (key last)) rows) = rest := by
  have hsorted := pairwise_descending (nodup_below cursor hdistinct)
  have hperm := perm_descending key (below key cursor rows)
  rw [h] at hsorted hperm
  obtain ⟨-, hlast, hfront⟩ := List.pairwise_append.1 hsorted
  obtain ⟨hrest, hpairs⟩ := List.pairwise_cons.1 hlast
  refine eq_of_perm (pairwise_descending (nodup_below _ hdistinct)) hpairs ?_
  -- the rows below the last one are among those below the cursor
  have hmem : last ∈ below key cursor rows := hperm.mem_iff.1 (by simp)
  have hcursor : ∀ c ∈ cursor, key last < c := of_decide_eq_true (List.mem_filter.1 hmem).2
  have hnarrow : below key (some (key last)) rows =
      (below key cursor rows).filter fun r => key r < key last := by
    rw [below, below, List.filter_filter]
    refine List.filter_congr fun r _ => ?_
    simp only [Option.mem_some_iff, forall_eq', ← Bool.decide_and, decide_eq_decide]
    exact ⟨fun hr => ⟨hr, fun c hc => hr.trans (hcursor c hc)⟩, fun hr => hr.1⟩
  have hkept : (front ++ last :: rest).filter (fun r => key r < key last) = rest := by
    rw [List.filter_append, List.filter_cons, if_neg (by simp),
      List.filter_eq_nil_iff.2 (fun r hr => by simpa using (hfront r hr last (by simp)).le),
      List.filter_eq_self.2 (fun r hr => decide_eq_true (hrest r hr)), List.nil_append]
  rw [hnarrow]
  exact (perm_descending key _).trans ((hperm.symm.filter _).trans (.of_eq hkept))

theorem fetched (hdistinct : (rows.map key).Nodup) (hlimit : 1 ≤ limit) (cursor : Option κ) :
    Fetched key rows limit (descending key (below key cursor rows))
      (fetch key cursor limit rows) := by
  generalize hrest : descending key (below key cursor rows) = rest
  rw [fetch, page, hrest]
  by_cases hlen : rest.length ≤ limit
  · rw [List.take_of_length_le (by omega), if_neg (by omega)]
    exact .last rest
  · -- the last row that is returned comes before the one that was asked for in addition
    obtain ⟨k, rfl⟩ := Nat.exists_eq_add_of_le' hlimit
    have hk : k < rest.length := by omega
    have hsplit : rest = rest.take k ++ rest[k] :: rest.drop (k + 1) := by
      rw [← List.drop_eq_getElem_cons, List.take_append_drop]
    have htake : (rest.take (k + 1 + 1)).take (k + 1) = rest.take k ++ [rest[k]] := by
      rw [List.take_take, Nat.min_eq_left (by omega), List.take_succ_eq_append_getElem]
    have hmore : Fetched key rows (k + 1) (rest.take k ++ rest[k] :: rest.drop (k + 1))
        (rest.take k ++ [rest[k]], true) :=
      .more _ _ _ (by rw [List.length_take, Nat.min_eq_left hk.le])
        (descending_below_of_append hdistinct (hrest.trans hsplit))
    rw [if_pos (by rw [List.length_take]; omega), htake]
    rwa [← hsplit] at hmore

end GoScheduler.Keyset
