import GoScheduler.Queue.Lease
import GoScheduler.ReadCommitted.Triples

/-! What fencing of a leased queue means, and why it follows from what each transaction does
to one item. A worker claims an item only where no lease is running, and ends it or puts it
back only under its own lease; a transaction that is no worker's may create items and end
pending ones. -/
namespace GoScheduler.Queue
open ReadCommitted

/-- The leased rows of a system: their keys, the caller and the time of a call, the item a
call is to end or put back, the batch it claims, the items an answer hands out, and the error
of a call that ends or puts back nothing. -/
structure LeasedQueue (T K : Type) (V : K → Type) (E R ι : Type) where
  key : ι → K
  key_injective : Function.Injective key
  lease : (i : ι) → V (key i) → Leased
  now : T → Int
  owner : T → Option String
  target : T → Option ι
  batch : T → Option (String × ℕ)
  claims : R → ι → ℕ
  lost : T → E

section Claim

variable {K : Type} {V : K → Type} {E ι σ : Type}

def claimItem (key : ι → K) (set : (i : ι) → V (key i) → V (key i))
    (add : σ → (i : ι) → V (key i) → σ) (acc : σ) (i : ι) : Program K V E σ := do
  match ← .exec (.update (key i) (fun _ => true) (set i)) with
  | none => pure acc
  | some y => pure (add acc i y)

/-- The statement of a claim: the candidates of its snapshot, those it can lock and that can
still be claimed, and the update of each. -/
def claimItems (key : ι → K) (lease : (i : ι) → V (key i) → Leased) (now : Int) (limit : ℕ)
    (candidates : Database K V → List ι) (set : (i : ι) → V (key i) → V (key i))
    (add : Database K V → σ → (i : ι) → V (key i) → σ) (acc : σ) : Program K V E σ := do
  let snapshot ← .exec (.select fun d => d)
  let picked ← .exec (.skipLocked (fun d => ((candidates snapshot).filter fun i =>
    (d.row (key i)).any fun y => (lease i y).claimable now).map fun i => (key i, i)) limit)
  .foldEach picked acc (claimItem key set (add snapshot))

end Claim

/-- What a transaction does to one item, with the number of times it hands it out. -/
inductive Move (owner : Option String) (now : Int) :
    ℕ → Option Leased → Option Leased → Prop where
  | keep (x : Option Leased) : Move owner now 0 x x
  | create {y : Leased} (hattempts : y.attempts = 0) (hlocked : y.lockedBy = none) :
      Move owner now 0 none (some y)
  | claim {a : String} {x : Leased} (ha : owner = some a) (hx : x.claimable now = true) :
      Move owner now 1 (some x) (some (x.claim a now))
  | finish {a : String} {x : Leased} {status : DeliveryStatus} (ha : owner = some a)
      (hx : x.heldBy a now = true) (hstatus : status ≠ .pending) :
      Move owner now 0 (some x) (some (x.finish status))
  | retry {a : String} {x : Leased} {availableAt : Int} (ha : owner = some a)
      (hx : x.heldBy a now = true) : Move owner now 0 (some x) (some (x.retry availableAt))
  | sweep {x : Leased} (ho : owner = none) (hx : x.status = .pending) :
      Move owner now 0 (some x) (some (x.finish .dead))

namespace Leased

variable {x : Leased} {a b : String} {now clock : Int}

theorem heldBy_iff : x.heldBy a now = true ↔
    x.status = .pending ∧ x.lockedBy = some a ∧ ∃ u, x.lockedUntil = some u ∧ now ≤ u := by
  unfold heldBy
  rw [Bool.and_eq_true, Bool.and_eq_true, Option.any_eq_true]
  simp [and_assoc]

theorem heldBy_unique (ha : x.heldBy a now = true) (hb : x.heldBy b now = true) : a = b := by
  have h := (heldBy_iff.1 ha).2.1.symm.trans (heldBy_iff.1 hb).2.1
  exact Option.some.inj h

theorem not_heldBy_of_claimable (h : x.claimable now = true) (hle : now ≤ clock) (a : String) :
    x.heldBy a clock = false := by
  unfold claimable at h
  rw [Bool.and_eq_true, Option.all_eq_true] at h
  by_contra hheld
  rw [Bool.not_eq_false, heldBy_iff] at hheld
  obtain ⟨_, _, u, hu, hclock⟩ := hheld
  have hlt := of_decide_eq_true (h.2 u hu)
  omega

end Leased

def attemptsOf (x : Option Leased) : ℕ := x.elim 0 Leased.attempts

namespace Move

variable {owner : Option String} {now clock : Int} {n : ℕ} {x y : Option Leased} {l : Leased}
  {a : String}

theorem attempts (h : Move owner now n x y) : attemptsOf y = attemptsOf x + n := by
  cases h with
  | create hattempts => exact hattempts
  | _ => rfl

theorem absorbing (h : Move owner now n (some l) y) (hl : l.status ≠ .pending) : y = some l := by
  cases h with
  | keep => rfl
  | claim _ hx => exact absurd (Leased.claimable_pending hx) hl
  | finish _ hx | retry _ hx => exact absurd (Leased.heldBy_pending hx) hl
  | sweep _ hx => exact absurd hx hl

theorem guarded (h : Move owner now n (some l) y) (hle : now ≤ clock)
    (hl : l.heldBy a clock = true) : y = some l ∨
      ∃ l', y = some l' ∧ l'.lockedBy = none ∧ (owner = some a ∨ owner = none) := by
  have howner : ∀ b, owner = some b → l.heldBy b now = true → owner = some a := by
    intro b hb hheld
    have he := (Leased.heldBy_iff.1 hheld).2.1.symm.trans (Leased.heldBy_iff.1 hl).2.1
    rw [hb, Option.some.inj he]
  cases h with
  | keep => exact .inl rfl
  | claim _ hx =>
    rw [Leased.not_heldBy_of_claimable hx hle a] at hl
    cases hl
  | finish hb hx => exact .inr ⟨_, rfl, rfl, .inl (howner _ hb hx)⟩
  | retry hb hx => exact .inr ⟨_, rfl, rfl, .inl (howner _ hb hx)⟩
  | sweep ho => exact .inr ⟨_, rfl, rfl, .inr ho⟩

theorem claimed (h : Move owner now n x y) (hn : n ≠ 0) : ∃ a l, owner = some a ∧ x = some l ∧
    l.claimable now = true ∧ y = some (l.claim a now) := by
  cases h with
  | claim ha hx => exact ⟨_, _, ha, rfl, hx, rfl⟩
  | _ => exact absurd rfl hn

end Move

variable {T K : Type} {V : K → Type} {E R ι : Type}

namespace LeasedQueue

variable (q : LeasedQueue T K V E R ι)

def leaseOf (i : ι) (d : Database K V) : Option Leased := (d.row (q.key i)).map (q.lease i)

def Holds (t : T) (i : ι) (d : Database K V) : Prop :=
  ∃ a x, q.owner t = some a ∧ q.leaseOf i d = some x ∧ x.heldBy a (q.now t) = true

def Moves (t : T) (n : ι → ℕ) (o : Overlay V) : Prop :=
  ∀ i, (o (q.key i) = none ∧ n i = 0) ∨ ∃ h, o (q.key i) = some h ∧
    Move (q.owner t) (q.now t) (n i) (h.base.map (q.lease i)) (h.version.map (q.lease i))

section Writes

variable {q} {t : T} {n n' : ι → ℕ} {o o' : Overlay V} {d : Database K V}

theorem Moves.lease (h : q.Moves t n o)
    (ha : o.Agrees d) (i : ι) :
    Move (q.owner t) (q.now t) (n i) (q.leaseOf i d) (q.leaseOf i (d.overlay o)) := by
  unfold leaseOf
  cases h i with
  | inl hfree =>
    rw [Database.overlay_row_free hfree.1, hfree.2]
    exact .keep _
  | inr hheld =>
    obtain ⟨held, ho, hmove⟩ := hheld
    rw [Database.overlay_row_held ho, ha _ _ ho]
    exact hmove

theorem moves_empty : q.Moves t (fun _ => 0) Overlay.empty := fun _ => .inl ⟨rfl, rfl⟩

theorem Moves.congr (h : q.Moves t n o) (ho : ∀ i, o' (q.key i) = o (q.key i)) :
    q.Moves t n o' := by
  intro i
  rw [ho i]
  exact h i

variable [DecidableEq K]

theorem Moves.write (h : q.Moves t n o) (ha : o.Agrees d) (i : ι) {v : Option (V (q.key i))}
    (hother : ∀ j, j ≠ i → n' j = n j)
    (hmove : Move (q.owner t) (q.now t) (n' i) (q.leaseOf i d) (v.map (q.lease i))) :
    q.Moves t n' (o.write d (q.key i) v) := by
  intro j
  by_cases hj : j = i
  · subst hj
    exact .inr ⟨_, Overlay.write_self_of_agrees ha _ v, hmove⟩
  · rw [Overlay.write_ne fun hk => hj (q.key_injective hk), hother j hj]
    exact h j

theorem Moves.locks (h : q.Moves t n o) (ha : o.Agrees d) (ks : List K) :
    q.Moves t n (o.writeAll d (lockWrites (d.overlay o) ks)) := by
  intro i
  rw [Overlay.writeAll_lockWrites ha]
  split
  · exact .inr ⟨_, rfl, h.lease ha i⟩
  · exact h i

theorem Moves.create (h : q.Moves t n o) (ha : o.Agrees d) {i : ι}
    (hnone : (d.overlay o).row (q.key i) = none) {y : V (q.key i)}
    (hattempts : (q.lease i y).attempts = 0) (hlocked : (q.lease i y).lockedBy = none) :
    q.Moves t n (o.write d (q.key i) (some y)) := by
  have hmove := h.lease ha i
  refine h.write ha i (fun _ _ => rfl) ?_
  rw [show q.leaseOf i (d.overlay o) = none by simp [leaseOf, hnone]] at hmove
  generalize q.leaseOf i d = x at hmove ⊢
  generalize n i = k at hmove ⊢
  cases hmove with
  | keep => exact .create hattempts hlocked

theorem Moves.sweep (h : q.Moves t n o) (ha : o.Agrees d) (howner : q.owner t = none) {i : ι}
    {x y : V (q.key i)} (hrow : (d.overlay o).row (q.key i) = some x)
    (hx : (q.lease i x).status = .pending) (hy : q.lease i y = (q.lease i x).finish .dead) :
    q.Moves t n (o.write d (q.key i) (some y)) := by
  have hmove := h.lease ha i
  refine h.write ha i (fun _ _ => rfl) ?_
  rw [show q.leaseOf i (d.overlay o) = some (q.lease i x) by simp [leaseOf, hrow]] at hmove
  rw [Option.map_some, hy]
  generalize q.leaseOf i d = z at hmove ⊢
  generalize n i = k at hmove ⊢
  generalize q.lease i x = l at hmove hx ⊢
  cases hmove with
  | keep => exact .sweep howner hx
  | create hattempts => exact .create hattempts rfl
  | claim ho => simp [howner] at ho
  | finish ho => simp [howner] at ho
  | retry ho => simp [howner] at ho
  | sweep => cases hx

structure Ended (q : LeasedQueue T K V E R ι) (t : T) (i : ι) (o : Overlay V) : Prop where
  moves : q.Moves t (fun _ => 0) o
  held : ∃ a x v, q.owner t = some a ∧ o (q.key i) = some ⟨some x, v⟩ ∧
    (q.lease i x).heldBy a (q.now t) = true

theorem update_ended {D : Discipline T K V} {i : ι} {a : String} (howner : q.owner t = some a)
    {p : V (q.key i) → Bool} {set : V (q.key i) → V (q.key i)}
    (hp : ∀ x, p x = true → (q.lease i x).heldBy a (q.now t) = true)
    (hset : ∀ x, p x = true →
      Move (q.owner t) (q.now t) 0 (some (q.lease i x)) (some (q.lease i (set x)))) :
    D.Triple t (fun o _ => o = Overlay.empty)
      (.exec (.update (q.key i) p set) : Program K V E (Option (V (q.key i))))
      fun r o _ => r ≠ none → q.Ended t i o := by
  refine .update (.overlay _) (fun _ _ _ _ _ _ h => absurd rfl h) ?_
  rintro o d x _ ha rfl hrow hx _ _
  rw [Database.overlay_empty] at hrow
  refine ⟨moves_empty.write ha i (fun _ _ => rfl) ?_, a, x, some (set x), howner, ?_, hp x hx⟩
  · rw [leaseOf, hrow]
    exact hset x hx
  · rw [Overlay.write_self_of_agrees ha, hrow]

end Writes

section Claim

variable [DecidableEq K] {σ : Type} {D : Discipline T K V} {t : T} {now : Int}

structure Claiming (a : String) (now : Int) (candidates : Database K V → List ι)
    (set : (i : ι) → V (q.key i) → V (q.key i))
    (add : Database K V → σ → (i : ι) → V (q.key i) → σ) (counts : σ → ι → ℕ)
    (good : Database K V → Prop) : Prop where
  nodup : ∀ d, d.keys.Nodup → (candidates d).Nodup
  complete : ∀ d i x, (∀ k, k ∉ d.keys → d.row k = none) → q.leaseOf i d = some x →
    x.claimable now = true → i ∈ candidates d
  set : ∀ i y, q.lease i (set i y) = (q.lease i y).claim a now
  counted : ∀ d acc i y, good d → i ∈ candidates d →
    counts (add d acc i y) i = counts acc i + 1 ∧
      ∀ j, j ≠ i → counts (add d acc i y) j = counts acc j

variable {q} {a : String} {candidates : Database K V → List ι}
  {set : (i : ι) → V (q.key i) → V (q.key i)}
  {add : Database K V → σ → (i : ι) → V (q.key i) → σ} {counts : σ → ι → ℕ}

def Locked (now : Int) (rest : List ι) (counts : ι → ℕ) (o : Overlay V) : Prop :=
  rest.Nodup ∧ ∀ i ∈ rest, counts i = 0 ∧
    ∃ x, o (q.key i) = some ⟨some x, some x⟩ ∧ (q.lease i x).claimable now = true

theorem Claiming.locks (hc : q.Claiming a (q.now t) candidates set add counts D.inv)
    {snapshot d : Database K V} {l : List ι} {n : ι → ℕ} (hn : ∀ i, n i = 0)
    (hnodup : snapshot.keys.Nodup)
    (hl : l.Sublist ((candidates snapshot).filter fun i =>
      (d.row (q.key i)).any fun y => (q.lease i y).claimable (q.now t))) :
    q.Locked (q.now t) l n
      ((Overlay.empty : Overlay V).writeAll d
        (lockWrites (d.overlay Overlay.empty) (l.map q.key))) := by
  refine ⟨(hl.trans List.filter_sublist).nodup (hc.nodup _ hnodup), fun i hi => ⟨hn i, ?_⟩⟩
  have hrow := (List.mem_filter.1 (hl.subset hi)).2
  obtain ⟨x, hx, hclaimable⟩ := (Option.any_eq_true _ _).1 hrow
  refine ⟨x, ?_, hclaimable⟩
  have hagrees : (Overlay.empty : Overlay V).Agrees d := fun _ _ h => by cases h
  rw [Overlay.writeAll_lockWrites hagrees, if_pos (List.mem_map_of_mem hi),
    Database.overlay_empty, hx]

theorem Locked.next {now : Int} {i : ι} {rest : List ι} {n n' : ι → ℕ} {o : Overlay V}
    {d : Database K V} {v : Option (V (q.key i))} (h : q.Locked now (i :: rest) n o)
    (hother : ∀ j, j ≠ i → n' j = n j) : q.Locked now rest n' (o.write d (q.key i) v) := by
  have hnodup := List.nodup_cons.1 h.1
  refine ⟨hnodup.2, fun j hj => ?_⟩
  have hne : j ≠ i := by
    rintro rfl
    exact hnodup.1 hj
  rw [hother j hne, Overlay.write_ne fun hk => hne (q.key_injective hk)]
  exact h.2 j (List.mem_cons_of_mem _ hj)

theorem Claiming.loop (hc : q.Claiming a (q.now t) candidates set add counts D.inv)
    (howner : q.owner t = some a) {snapshot : Database K V} (hinv : D.inv snapshot)
    {picked : List ι} (hpicked : ∀ i ∈ picked, i ∈ candidates snapshot) (acc : σ) :
    D.Triple t (fun o _ => q.Moves t (counts acc) o ∧ q.Locked (q.now t) picked (counts acc) o)
      (Program.foldEach picked acc (claimItem q.key set (add snapshot)) : Program K V E σ)
      fun acc o _ => q.Moves t (counts acc) o := by
  induction picked generalizing acc with
  | nil => exact .pure fun _ _ _ _ h => h.1
  | cons i rest ih =>
    have hi : i ∈ candidates snapshot := hpicked i List.mem_cons_self
    refine .bind (Q := fun acc o _ => q.Moves t (counts acc) o ∧
      q.Locked (q.now t) rest (counts acc) o) ?_ fun acc =>
        ih (fun j hj => hpicked j (List.mem_cons_of_mem _ hj)) acc
    refine .bind (.update (Q := fun r o _ => ∃ y, r = some y ∧
      q.Moves t (counts (add snapshot acc i y)) o ∧
      q.Locked (q.now t) rest (counts (add snapshot acc i y)) o) (.overlay _) ?_ ?_) fun r => ?_
    · intro o d _ _ h hnone
      obtain ⟨_, x, hx, _⟩ := h.2.2 i List.mem_cons_self
      cases hnone x (Database.overlay_row_held hx)
    · intro o d v _ ha h hrow _ _
      obtain ⟨hzero, x, hx, hclaimable⟩ := h.2.2 i List.mem_cons_self
      have hv : some v = some x := hrow.symm.trans (Database.overlay_row_held hx)
      cases hv
      obtain ⟨hself, hother⟩ := hc.counted snapshot acc i (set i v) hinv hi
      refine ⟨_, rfl, h.1.write ha i hother ?_, h.2.next hother⟩
      rw [hself, hzero, leaseOf, ha _ _ hx, Option.map_some, Option.map_some, hc.set]
      exact .claim howner hclaimable
    · cases r with
      | none => exact .pure fun o d _ _ h => by simp at h
      | some y =>
        refine .pure fun o d _ _ h => ?_
        obtain ⟨y', he, hy⟩ := h
        cases he
        exact hy

theorem Claiming.triple (hc : q.Claiming a (q.now t) candidates set add counts D.inv)
    (howner : q.owner t = some a) {acc₀ : σ} (h₀ : ∀ i, counts acc₀ i = 0) (limit : ℕ) :
    D.Triple t (fun o _ => o = Overlay.empty)
      (claimItems q.key q.lease (q.now t) limit candidates set add acc₀ : Program K V E σ)
      fun acc o _ => q.Moves t (counts acc) o := by
  refine .bind (.select (Q := fun snapshot o _ => (D.inv snapshot ∧ snapshot.keys.Nodup) ∧
    o = Overlay.empty) (.overlay _) ?_) fun snapshot => .given fun hsnapshot => ?_
  · rintro o d hinv _ hcov rfl
    exact ⟨⟨hinv, hcov.nodup⟩, rfl⟩
  refine .bind (.skipLocked (Q := fun picked o _ => (∀ i ∈ picked, i ∈ candidates snapshot) ∧
    q.Moves t (counts acc₀) o ∧ q.Locked (q.now t) picked (counts acc₀) o) (.overlay _) ?_)
    fun picked => .given fun hpicked => hc.loop howner hsnapshot.1 hpicked acc₀
  rintro o d rows _ ha _ rfl hsub _
  obtain ⟨l, hl, rfl⟩ := List.sublist_map_iff.1 hsub
  have hfst : (l.map fun i => (q.key i, i)).map Prod.fst = l.map q.key := by simp
  have hsnd : (l.map fun i => (q.key i, i)).map Prod.snd = l := by
    rw [List.map_map]
    exact List.map_id l
  have hmoves : q.Moves t (counts acc₀) Overlay.empty := fun i => .inl ⟨rfl, h₀ i⟩
  rw [hfst, hsnd]
  refine ⟨fun i hi => ?_, hmoves.locks ha _, hc.locks h₀ hsnapshot.2 hl⟩
  exact List.mem_of_mem_filter (hl.subset hi)

theorem Claiming.loop_amid {busy : K → Bool} {good : Database K V → Prop}
    (hc : q.Claiming a now candidates set add counts good) {snapshot : Database K V}
    (hgood : good snapshot) (inp : Input K) (picked : List ι) (acc : σ) (d : Database K V)
    (hpicked : ∀ i ∈ picked, i ∈ candidates snapshot) (hnodup : picked.Nodup)
    (hfree : ∀ i ∈ picked, busy (q.key i) = false)
    (hrows : ∀ i ∈ picked, d.row (q.key i) ≠ none) : ∃ acc' d',
      (Program.foldEach picked acc (claimItem q.key set (add snapshot)) : Program K V E σ).amid
        busy (List.replicate picked.length inp) d = some (.ok acc', d') ∧
      (∀ i ∈ picked, counts acc' i = counts acc i + 1 ∧
        d'.row (q.key i) = (d.row (q.key i)).map (set i)) ∧
      ∀ i, i ∉ picked → counts acc' i = counts acc i ∧ d'.row (q.key i) = d.row (q.key i) := by
  induction picked generalizing acc d with
  | nil => exact ⟨acc, d, rfl, by simp, fun _ _ => ⟨rfl, rfl⟩⟩
  | cons i rest ih =>
    obtain ⟨v, hv⟩ := Option.ne_none_iff_exists'.1 (hrows i List.mem_cons_self)
    obtain ⟨hself, hother⟩ := hc.counted snapshot acc i (set i v) hgood
      (hpicked i List.mem_cons_self)
    have hnodup' := List.nodup_cons.1 hnodup
    have hrow : ∀ j, j ≠ i → (d.write ⟨q.key i, some (set i v)⟩).row (q.key j) = d.row (q.key j) :=
      fun j hj => Function.update_of_ne (fun hk => hj (q.key_injective hk)) _ _
    have hne : ∀ j ∈ rest, j ≠ i := by
      rintro j hj rfl
      exact hnodup'.1 hj
    obtain ⟨acc', d', hamid, hin, hout⟩ := ih (add snapshot acc i (set i v))
      (d.write ⟨q.key i, some (set i v)⟩) (fun j hj => hpicked j (List.mem_cons_of_mem _ hj))
      hnodup'.2 (fun j hj => hfree j (List.mem_cons_of_mem _ hj)) (fun j hj => by
        rw [hrow j (hne j hj)]
        exact hrows j (List.mem_cons_of_mem _ hj))
    have heval : (Stmt.update (q.key i) (fun _ => true) (set i)).eval inp d busy =
        some (some (set i v), [⟨q.key i, some (set i v)⟩]) := by
      simp [Stmt.eval, hv]
    refine ⟨acc', d', ?_, fun j hj => ?_, fun j hj => ?_⟩
    · exact (Program.amid_stmt heval (by simpa using hfree i List.mem_cons_self)).trans hamid
    · by_cases hji : j = i
      · subst hji
        obtain ⟨hcount, hrow'⟩ := hout j hnodup'.1
        rw [hcount, hself, hrow', hv]
        exact ⟨rfl, Function.update_self ..⟩
      · obtain ⟨hcount, hrow'⟩ := hin j ((List.mem_cons.1 hj).resolve_left hji)
        rw [hcount, hother j hji, hrow', hrow j hji]
        exact ⟨rfl, rfl⟩
    · obtain ⟨hji, hrest⟩ := not_or.1 (mt List.mem_cons.2 hj)
      obtain ⟨hcount, hrow'⟩ := hout j hrest
      rw [hcount, hother j hji, hrow', hrow j hji]
      exact ⟨rfl, rfl⟩

/-- A claim with room for all candidates takes every item that can be claimed and is free. -/
theorem Claiming.amid {good : Database K V → Prop}
    (hc : q.Claiming a now candidates set add counts good) {d : Database K V} (hgood : good d)
    (hnodup : d.keys.Nodup) (hcovers : ∀ k, k ∉ d.keys → d.row k = none) (busy : K → Bool)
    {acc : σ} (h₀ : ∀ i, counts acc i = 0) {limit : ℕ} (hlimit : (candidates d).length ≤ limit) :
    ∃ inps acc' d', (claimItems q.key q.lease now limit candidates set add acc :
        Program K V E σ).amid busy inps d = some (.ok acc', d') ∧
      ∀ i x, q.leaseOf i d = some x → x.claimable now = true → busy (q.key i) = false →
        counts acc' i = 1 ∧ q.leaseOf i d' = some (x.claim a now) := by
  let still (i : ι) : Bool := (d.row (q.key i)).any fun y => (q.lease i y).claimable now
  let picked := ((candidates d).filter still).filter fun i => !busy (q.key i)
  have hmem : ∀ i, i ∈ picked → i ∈ candidates d ∧ still i = true ∧ busy (q.key i) = false := by
    intro i hi
    obtain ⟨hi, hfree⟩ := List.mem_filter.1 hi
    obtain ⟨hi, hstill⟩ := List.mem_filter.1 hi
    exact ⟨hi, hstill, by simpa using hfree⟩
  have hrows : (((candidates d).filter still).map fun i => (q.key i, i)).filter
      (fun r => !busy r.1) = picked.map fun i => (q.key i, i) := List.filter_map
  have hskip : (Stmt.skipLocked (fun d' : Database K V => ((candidates d).filter fun i =>
      (d'.row (q.key i)).any fun y => (q.lease i y).claimable now).map fun i => (q.key i, i))
      limit).eval ⟨0, 0, []⟩ d busy = some (picked, lockWrites d (picked.map q.key)) := by
    have hlength := List.length_filter_le still (candidates d)
    rw [Stmt.eval_skipLocked (by rw [List.length_map]; exact hlength.trans hlimit), hrows]
    simp [Function.comp_def]
  have hlocked := Database.writeAll_lockWrites d (picked.map q.key)
  have hpresent : ∀ i ∈ picked,
      (d.writeAll (lockWrites d (picked.map q.key))).row (q.key i) ≠ none := by
    intro i hi
    obtain ⟨x, hx, _⟩ := (Option.any_eq_true _ _).1 (hmem i hi).2.1
    rw [hlocked, hx]
    simp
  obtain ⟨acc', d', hamid, hin, _⟩ := hc.loop_amid hgood ⟨0, 0, []⟩ picked acc _
    (fun i hi => (hmem i hi).1) (((hc.nodup d hnodup).filter _).filter _)
    (fun i hi => (hmem i hi).2.2) hpresent
  refine ⟨⟨0, 0, []⟩ :: ⟨0, 0, []⟩ :: List.replicate picked.length ⟨0, 0, []⟩, acc', d', ?_, ?_⟩
  · have hselect : (Stmt.select fun d : Database K V => d).eval ⟨0, 0, []⟩ d busy =
        some (d, []) := rfl
    refine (Program.amid_stmt hselect (by simp)).trans ((Program.amid_stmt hskip ?_).trans hamid)
    intro w hw
    obtain ⟨k, hk, rfl⟩ := List.mem_map.1 hw
    obtain ⟨i, hi, rfl⟩ := List.mem_map.1 hk
    exact (hmem i hi).2.2
  · intro i x hx hclaimable hfree
    obtain ⟨y, hy, rfl⟩ := Option.map_eq_some_iff.1 hx
    have hi : i ∈ picked := by
      refine List.mem_filter.2 ⟨List.mem_filter.2 ⟨hc.complete d i _ hcovers hx hclaimable, ?_⟩, ?_⟩
      · simpa [still, hy] using hclaimable
      · simp [hfree]
    obtain ⟨hcount, hrow⟩ := hin i hi
    rw [hcount, h₀ i, leaseOf, hrow, hlocked, hy, Option.map_some, Option.map_some, hc.set]
    exact ⟨rfl, rfl⟩

end Claim

end LeasedQueue

variable [DecidableEq T] [DecidableEq K]

structure FreshRun (sys : System T K V E R) (start : Database K V → Prop)
    (m₀ m : Machine T K V E R) : Prop where
  atRest : m₀.AtRest
  start : start m₀.store.committed
  returned : m₀.returned = []
  reach : Machine.ReachableFrom sys (fun _ _ _ => True) m₀ m

namespace LeasedQueue

variable (q : LeasedQueue T K V E R ι)

def handedOut (i : ι) (m : Machine T K V E R) : ℕ :=
  (m.returned.map fun x => match x.2 with
    | .ok r => q.claims r i
    | .error _ => 0).sum

/-- The queue is fenced in every run. -/
structure Fenced (sys : System T K V E R) (start : Database K V → Prop) : Prop where
  -- An item is leased to one owner at a time.
  unique : ∀ {m₀ m : Machine T K V E R}, FreshRun sys start m₀ m → ∀ {i x a b},
    q.leaseOf i m.store.committed = some x → x.heldBy a m.store.clock = true →
      x.heldBy b m.store.clock = true → a = b
  -- While a lease runs, its owner is the only worker that changes the item, and the item goes to no
  -- one.
  guarded : ∀ {m₀ m : Machine T K V E R}, FreshRun sys start m₀ m →
    ∀ {l m' i x a}, m.step sys l = some m' →
    q.leaseOf i m.store.committed = some x → x.heldBy a m.store.clock = true →
    q.leaseOf i m'.store.committed = some x ∨
      ∃ t y, l = .finish t ∧ q.leaseOf i m'.store.committed = some y ∧ y.lockedBy = none ∧
        (q.owner t = some a ∨ q.owner t = none)
  -- An item is handed out only while no lease on it runs, and with a lease to the caller.
  granted : ∀ {m₀ m : Machine T K V E R}, FreshRun sys start m₀ m →
    ∀ {t m' r i}, m.step sys (.finish t) = some m' →
    m'.returned = (t, .ok r) :: m.returned → q.claims r i ≠ 0 →
    ∃ a x, q.owner t = some a ∧ q.leaseOf i m.store.committed = some x ∧
      (∀ b, x.heldBy b m.store.clock = false) ∧
      q.leaseOf i m'.store.committed = some (x.claim a (q.now t))
  -- A call that is to end an item or to put it back succeeds under the lease of its caller only;
  -- otherwise it returns its error and changes nothing.
  lost : ∀ {m₀ m : Machine T K V E R}, FreshRun sys start m₀ m → ∀ {t m' i}, q.target t = some i →
    m.step sys (.finish t) = some m' →
    q.Holds t i m.store.committed ∧ (∃ r, m'.returned = (t, .ok r) :: m.returned) ∨
      m'.returned = (t, .error (q.lost t)) :: m.returned ∧
        m'.store.committed.row = m.store.committed.row
  absorbing : ∀ {m₀ m : Machine T K V E R}, FreshRun sys start m₀ m → ∀ {m' i x},
    Machine.ReachableFrom sys (fun _ _ _ => True) m m' →
    q.leaseOf i m.store.committed = some x → x.status ≠ .pending →
      q.leaseOf i m'.store.committed = some x
  attempts : ∀ {m₀ m : Machine T K V E R}, FreshRun sys start m₀ m →
    ∀ i, attemptsOf (q.leaseOf i m.store.committed) =
    attemptsOf (q.leaseOf i m₀.store.committed) + q.handedOut i m
  -- Whatever open transactions hold, a batch that is large enough has every item that can be
  -- claimed and that none of them holds.
  reclaimable : ∀ {m₀ m : Machine T K V E R}, FreshRun sys start m₀ m →
    ∃ n, ∀ {t a limit}, q.batch t = some (a, limit) →
    n ≤ limit → t ∉ m.begun → sys.admissible m.store.committed t = true →
    ∃ m' r, Machine.ReachableFrom sys (fun _ _ _ => True) m m' ∧
      m'.returned = (t, .ok r) :: m.returned ∧
      ∀ i x, q.leaseOf i m.store.committed = some x → x.claimable (q.now t) = true →
        (∀ t', m.store.own t' (q.key i) = none) →
        q.claims r i = 1 ∧ q.leaseOf i m'.store.committed = some (x.claim a (q.now t))

structure Answered (t : T) (r : R) (o : Overlay V) : Prop where
  moves : q.Moves t (q.claims r) o
  target : ∀ i, q.target t = some i → ∃ a x v, q.owner t = some a ∧
    o (q.key i) = some ⟨some x, v⟩ ∧ (q.lease i x).heldBy a (q.now t) = true

structure Conforms (sys : System T K V E R) (start : Database K V → Prop)
    (D : Discipline T K V) (Q : T → R → Overlay V → Database K V → Prop) : Prop where
  answer : D.Answer Q
  meets : ∀ (m : Machine T K V E R) l m', D.Meets m l m'
  inv : ∀ d, start d → D.inv d
  safe : ∀ t d, D.inv d → sys.admissible d t = true →
    D.Safe t (Q t) (sys.program t) Overlay.empty d
  answered : ∀ t r o d, Q t r o d → q.Answered t r o
  now : ∀ d t, sys.admissible d t = true → q.now t ≤ d.clock
  fails : ∀ t i, q.target t = some i → (sys.program t).Fails (· = q.lost t)
  batch : ∀ d, D.inv d → d.keys.Nodup → (∀ k, k ∉ d.keys → d.row k = none) →
    ∃ n, ∀ busy t a limit,
      q.batch t = some (a, limit) → n ≤ limit → ∃ inps r d',
      (sys.program t).amid busy inps d = some (.ok r, d') ∧
      ∀ i x, q.leaseOf i d = some x → x.claimable (q.now t) = true → busy (q.key i) = false →
        q.claims r i = 1 ∧ q.leaseOf i d' = some (x.claim a (q.now t))

section Runs

variable {q} {sys : System T K V E R} {start : Database K V → Prop} {D : Discipline T K V}
  {Q : T → R → Overlay V → Database K V → Prop} {m₀ m m' : Machine T K V E R} {l : Label T K}

namespace Conforms

variable (hc : q.Conforms sys start D Q)
include hc

theorem sound (h : FreshRun sys start m₀ m) : D.SoundFor Q m :=
  Discipline.SoundFor.run hc.answer hc.safe (fun m l m' _ => hc.meets m l m')
    (.of_atRest h.atRest (hc.inv _ h.start)) h.reach

theorem now_le (h : FreshRun sys start m₀ m) {t : T} (ht : m.running t ≠ none) :
    q.now t ≤ m.store.clock := by
  obtain ⟨p, hp⟩ := Option.ne_none_iff_exists'.1 ht
  refine Machine.ReachableFrom.running (I := fun t _ c => q.now t ≤ c) h.atRest.running hc.now
    (fun _ _ _ _ _ _ h => h) (fun t p c n h => ?_) h.reach t p hp
  omega

theorem fails_lost (h : FreshRun sys start m₀ m) {t : T} {i : ι} (ht : q.target t = some i)
    {p : Program K V E R} (hp : m.running t = some p) : p.Fails (· = q.lost t) :=
  Machine.ReachableFrom.running (I := fun t p _ => q.target t = some i → p.Fails (· = q.lost t))
    h.atRest.running (fun _ t _ ht => hc.fails t i ht) (fun _ _ _ _ _ r h ht => h ht r)
    (fun _ _ _ _ h => h) h.reach t p hp ht

theorem step_cases (h : FreshRun sys start m₀ m) (hs : m.step sys l = some m') :
    (m'.store.committed.row = m.store.committed.row ∧
        ∀ i, q.handedOut i m' = q.handedOut i m) ∨
      ∃ t r, l = .finish t ∧ m'.returned = (t, .ok r) :: m.returned ∧
        q.now t ≤ m.store.clock ∧ ∀ i, Move (q.owner t) (q.now t) (q.claims r i)
          (q.leaseOf i m.store.committed) (q.leaseOf i m'.store.committed) := by
  cases Machine.step_cases hs with
  | begin => exact .inl ⟨rfl, fun _ => rfl⟩
  | tick => exact .inl ⟨rfl, fun _ => rfl⟩
  | exec => exact .inl ⟨by rw [Store.committed_writeAll, Database.addKeys_row], fun _ => rfl⟩
  | rollback => exact .inl ⟨by rw [Store.committed_abort], fun i => by simp [handedOut]⟩
  | crash => exact .inl ⟨by rw [Store.committed_abort], fun _ => rfl⟩
  | @commit t r hrun =>
    refine .inr ⟨t, r, rfl, rfl, hc.now_le h (by simp [hrun]), fun i => ?_⟩
    have hmoves := (hc.answered _ _ _ _ ((hc.sound h).answer hrun)).moves
    rw [Store.committed_commit]
    exact hmoves.lease (m.store.own_agrees t) i

theorem guarded (h : FreshRun sys start m₀ m) {i : ι} {x : Leased} {a : String}
    (hs : m.step sys l = some m') (hx : q.leaseOf i m.store.committed = some x)
    (hheld : x.heldBy a m.store.clock = true) :
    q.leaseOf i m'.store.committed = some x ∨
      ∃ t y, l = .finish t ∧ q.leaseOf i m'.store.committed = some y ∧ y.lockedBy = none ∧
        (q.owner t = some a ∨ q.owner t = none) := by
  cases hc.step_cases h hs with
  | inl hsame =>
    left
    rw [← hx, leaseOf, hsame.1]
    rfl
  | inr hcommit =>
    obtain ⟨t, r, hl, _, hle, hmove⟩ := hcommit
    have hi := hmove i
    rw [hx] at hi
    refine (hi.guarded hle hheld).imp id ?_
    rintro ⟨y, hy, hlocked, howner⟩
    exact ⟨t, y, hl, hy, hlocked, howner⟩

theorem granted (h : FreshRun sys start m₀ m) {t : T} {r : R} {i : ι}
    (hs : m.step sys (.finish t) = some m') (hret : m'.returned = (t, .ok r) :: m.returned)
    (hn : q.claims r i ≠ 0) : ∃ a x, q.owner t = some a ∧
      q.leaseOf i m.store.committed = some x ∧ (∀ b, x.heldBy b m.store.clock = false) ∧
      q.leaseOf i m'.store.committed = some (x.claim a (q.now t)) := by
  cases hc.step_cases h hs with
  | inl hsame =>
    have hcount := hsame.2 i
    simp only [handedOut, hret, List.map_cons, List.sum_cons] at hcount
    omega
  | inr hcommit =>
    obtain ⟨t', r', hl, hret', hle, hmove⟩ := hcommit
    rw [hret] at hret'
    cases hret'
    obtain ⟨a, x, ha, hx, hclaimable, hx'⟩ := (hmove i).claimed hn
    exact ⟨a, x, ha, hx, Leased.not_heldBy_of_claimable hclaimable hle, hx'⟩

theorem lost (h : FreshRun sys start m₀ m) {t : T} {i : ι} (ht : q.target t = some i)
    (hs : m.step sys (.finish t) = some m') :
    q.Holds t i m.store.committed ∧ (∃ r, m'.returned = (t, .ok r) :: m.returned) ∨
      m'.returned = (t, .error (q.lost t)) :: m.returned ∧
        m'.store.committed.row = m.store.committed.row := by
  cases Machine.step_cases hs with
  | @commit _ r hrun =>
    obtain ⟨a, x, v, ha, ho, hheld⟩ :=
      (hc.answered _ _ _ _ ((hc.sound h).answer hrun)).target i ht
    have hrow := m.store.own_agrees t _ _ ho
    exact .inl ⟨⟨a, q.lease i x, ha, by simp [leaseOf, hrow], hheld⟩, r, rfl⟩
  | rollback hrun =>
    have he := hc.fails_lost h ht hrun
    exact .inr ⟨by rw [show _ = q.lost t from he], by rw [Store.committed_abort]⟩

theorem absorbing (h : FreshRun sys start m₀ m) {i : ι} {x : Leased}
    (hreach : Machine.ReachableFrom sys (fun _ _ _ => True) m m')
    (hx : q.leaseOf i m.store.committed = some x) (hstatus : x.status ≠ .pending) :
    q.leaseOf i m'.store.committed = some x := by
  induction hreach with
  | refl => exact hx
  | step hmid hs _ ih =>
    have hrun : FreshRun sys start m₀ _ := { h with reach := h.reach.trans hmid }
    cases hc.step_cases hrun hs with
    | inl hsame =>
      rw [← ih, leaseOf, hsame.1]
      rfl
    | inr hcommit =>
      obtain ⟨t, r, _, _, _, hmove⟩ := hcommit
      have hi := hmove i
      rw [ih] at hi
      exact hi.absorbing hstatus

theorem attempts (h : FreshRun sys start m₀ m) (i : ι) :
    attemptsOf (q.leaseOf i m.store.committed) =
      attemptsOf (q.leaseOf i m₀.store.committed) + q.handedOut i m := by
  obtain ⟨hrest, hstart, hreturned, hreach⟩ := h
  induction hreach with
  | refl => simp [handedOut, hreturned]
  | @step m m' l hmid hs _ ih =>
    cases hc.step_cases ⟨hrest, hstart, hreturned, hmid⟩ hs with
    | inl hsame =>
      rw [hsame.2 i, ← ih, leaseOf, hsame.1]
      rfl
    | inr hcommit =>
      obtain ⟨t, r, _, hret, _, hmove⟩ := hcommit
      have hcount : q.handedOut i m' = q.claims r i + q.handedOut i m := by
        rw [handedOut, hret, List.map_cons, List.sum_cons]
        rfl
      rw [(hmove i).attempts, ih, hcount]
      omega

theorem reclaimable (h : FreshRun sys start m₀ m) : ∃ n, ∀ {t : T} {a : String} {limit : ℕ},
    q.batch t = some (a, limit) → n ≤ limit → t ∉ m.begun →
    sys.admissible m.store.committed t = true →
    ∃ m' r, Machine.ReachableFrom sys (fun _ _ _ => True) m m' ∧
      m'.returned = (t, .ok r) :: m.returned ∧
      ∀ i x, q.leaseOf i m.store.committed = some x → x.claimable (q.now t) = true →
        (∀ t', m.store.own t' (q.key i) = none) →
        q.claims r i = 1 ∧ q.leaseOf i m'.store.committed = some (x.claim a (q.now t)) := by
  have hsound := hc.sound h
  have hcovers : ∀ k, k ∉ m.store.committed.keys → m.store.committed.row k = none := by
    intro k hk
    by_contra hrow
    obtain ⟨v, hv⟩ := Option.ne_none_iff_exists'.1 hrow
    exact hk (Store.mem_keys_of_row hv)
  obtain ⟨n, hn⟩ := hc.batch _ hsound.inv m.store.nodup hcovers
  refine ⟨n, fun {t a limit} hbatch hlimit hfresh hadm => ?_⟩
  obtain ⟨inps, r, d', hamid, hitems⟩ := hn (m.store.busy t) t a limit hbatch hlimit
  have hidle : m.running t = none := by
    by_contra ht
    exact hfresh (hsound.begun t ht)
  obtain ⟨m', hreach, hret, hcommitted⟩ :=
    Machine.exists_answered inps hfresh hadm (hsound.idle t hidle) hamid
  refine ⟨m', r, hreach, hret, ?_⟩
  intro i x hx hclaimable hfree
  rw [hcommitted]
  exact hitems i x hx hclaimable (Store.busy_eq_false hfree t)

theorem fenced : q.Fenced sys start where
  unique := fun _ _ _ _ _ _ ha hb => Leased.heldBy_unique ha hb
  guarded := fun h _ _ _ _ _ => hc.guarded h
  granted := fun h _ _ _ _ => hc.granted h
  lost := fun h _ _ _ => hc.lost h
  absorbing := fun h _ _ _ => hc.absorbing h
  attempts := fun h => hc.attempts h
  reclaimable := fun h => hc.reclaimable h

end Conforms

end Runs

end LeasedQueue

end GoScheduler.Queue
