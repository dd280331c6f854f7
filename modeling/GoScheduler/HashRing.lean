import Mathlib.Data.List.Sort

/-! Points on a ring, in the order in which they are met from a given place on. Points with
keys of their own are met in an order that knows nothing of the list they came in, and further
points only come in between. -/
namespace GoScheduler.HashRing

variable {α β : Type} [LinearOrder α] {h a b : α} {v w : α × β} {ring ring' xs ys : List (α × β)}

/-- From `h` upwards and around, `a` is met no later than `b`. -/
def Meets (h a b : α) : Prop := if h ≤ a then h ≤ b → a ≤ b else b < h ∧ a ≤ b

/-- The first point at or above `h`, or the lowest of all. -/
def locate (ring : List (α × β)) (h : α) : Option (α × β) :=
  let sorted := ring.insertionSort fun v w => v.1 ≤ w.1
  (sorted.find? fun v => h ≤ v.1).or sorted.head?

theorem Meets.antisymm (hab : Meets h a b) (hba : Meets h b a) : a = b := by
  unfold Meets at hab hba
  split_ifs at hab hba with ha hb hb
  · exact le_antisymm (hab hb) (hba ha)
  · exact absurd ha (not_le.2 hba.1)
  · exact absurd hb (not_le.2 hab.1)
  · exact le_antisymm hab.2 hba.2

/-- In an ordered list the first point that is high enough is met first of those above `h`. -/
theorem find?_meets (hs : ring.Pairwise fun v w => v.1 ≤ w.1)
    (hv : (ring.find? fun v => h ≤ v.1) = some v) (hw : w ∈ ring) : Meets h v.1 w.1 := by
  have hle : h ≤ v.1 := by simpa using List.find?_some hv
  unfold Meets
  rw [if_pos hle]
  intro hhw
  induction ring with
  | nil => cases hw
  | cons u rest ih =>
    obtain ⟨hu, hrest⟩ := List.pairwise_cons.1 hs
    by_cases hhu : h ≤ u.1
    · rw [List.find?_cons_of_pos (by simpa using hhu), Option.some.injEq] at hv
      subst hv
      rcases List.mem_cons.1 hw with rfl | hw
      · exact le_rfl
      · exact hu w hw
    · rw [List.find?_cons_of_neg (by simpa using hhu)] at hv
      refine ih hrest hv ((List.mem_cons.1 hw).resolve_left ?_)
      rintro rfl
      exact hhu hhw

theorem head?_meets (hs : ring.Pairwise fun v w => v.1 ≤ w.1)
    (hnone : (ring.find? fun v => h ≤ v.1) = none) (hv : ring.head? = some v) (hw : w ∈ ring) :
    Meets h v.1 w.1 := by
  have hlow : ∀ u ∈ ring, u.1 < h := by simpa using hnone
  cases ring with
  | nil => cases hw
  | cons u rest =>
    cases hv
    unfold Meets
    rw [if_neg (not_le.2 (hlow v List.mem_cons_self))]
    refine ⟨hlow w hw, ?_⟩
    rcases List.mem_cons.1 hw with rfl | hw
    · exact le_rfl
    · exact (List.pairwise_cons.1 hs).1 w hw

theorem locate_meets (hv : locate ring h = some v) : v ∈ ring ∧ ∀ w ∈ ring, Meets h v.1 w.1 := by
  unfold locate at hv
  have hs : (ring.insertionSort fun v w => v.1 ≤ w.1).Pairwise fun v w => v.1 ≤ w.1 :=
    haveI : Std.Total fun v w : α × β => v.1 ≤ w.1 := ⟨fun v w => le_total v.1 w.1⟩
    haveI : IsTrans (α × β) fun v w => v.1 ≤ w.1 := ⟨fun _ _ _ => le_trans⟩
    List.pairwise_insertionSort _ ring
  have hmem : ∀ w, w ∈ ring.insertionSort (fun v w => v.1 ≤ w.1) ↔ w ∈ ring := fun w =>
    List.mem_insertionSort _
  generalize (ring.insertionSort fun v w => v.1 ≤ w.1) = sorted at hv hs hmem
  dsimp only at hv
  cases hfind : sorted.find? fun v => h ≤ v.1 with
  | some u =>
    rw [hfind] at hv
    cases hv
    exact ⟨(hmem v).1 (List.mem_of_find?_eq_some hfind), fun w hw =>
      find?_meets hs hfind ((hmem w).2 hw)⟩
  | none =>
    rw [hfind] at hv
    exact ⟨(hmem v).1 (List.mem_of_head? hv), fun w hw => head?_meets hs hfind hv ((hmem w).2 hw)⟩

theorem exists_locate (hne : ring ≠ []) (h : α) : ∃ v, locate ring h = some v := by
  unfold locate
  have hsorted : ring.insertionSort (fun v w => v.1 ≤ w.1) ≠ [] := by
    intro hnil
    have hlen := congrArg List.length hnil
    rw [List.length_insertionSort] at hlen
    exact hne (List.length_eq_zero_iff.1 hlen)
  obtain ⟨u, rest, hu⟩ := List.exists_cons_of_ne_nil hsorted
  rw [hu]
  dsimp only
  cases (u :: rest).find? fun v => h ≤ v.1 with
  | some v => exact ⟨v, rfl⟩
  | none => exact ⟨u, rfl⟩

theorem locate_eq_some_iff (hn : (ring.map Prod.fst).Nodup) :
    locate ring h = some v ↔ v ∈ ring ∧ ∀ w ∈ ring, Meets h v.1 w.1 := by
  refine ⟨locate_meets, fun ⟨hv, hfirst⟩ => ?_⟩
  obtain ⟨u, hu⟩ := exists_locate (List.ne_nil_of_mem hv) h
  obtain ⟨humem, hufirst⟩ := locate_meets hu
  have hkey : u.1 = v.1 := (hufirst v hv).antisymm (hfirst u humem)
  rw [hu, List.inj_on_of_nodup_map hn humem hv hkey]

theorem locate_perm (hn : (ring.map Prod.fst).Nodup) (hp : ring'.Perm ring) (h : α) :
    locate ring' h = locate ring h := by
  have hn' : (ring'.map Prod.fst).Nodup := (hp.map Prod.fst).nodup_iff.2 hn
  refine Option.ext fun v => ?_
  rw [locate_eq_some_iff hn, locate_eq_some_iff hn', hp.mem_iff]
  simp only [hp.mem_iff]

theorem locate_append (hn : ((xs ++ ys).map Prod.fst).Nodup) (hv : locate (xs ++ ys) h = some v) :
    v ∈ xs ∨ locate ys h = some v := by
  obtain ⟨hmem, hfirst⟩ := locate_meets hv
  have hn' : (ys.map Prod.fst).Nodup := by
    rw [List.map_append] at hn
    exact hn.of_append_right
  rcases List.mem_append.1 hmem with hx | hy
  · exact .inl hx
  · exact .inr ((locate_eq_some_iff hn').2 ⟨hy, fun w hw => hfirst w (List.mem_append_right xs hw)⟩)

end GoScheduler.HashRing
