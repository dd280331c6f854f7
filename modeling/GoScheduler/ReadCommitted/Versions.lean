import Mathlib.Data.List.Nodup

/-! Row versions of a multi-version store, at statement granularity. A cell keeps the
committed row and at most one uncommitted version, whose writer holds the row until it
commits or aborts. A key without a row stands for an advisory lock or a drawn
identifier. Indexes, visibility horizons and vacuuming are outside the model. -/
namespace GoScheduler.ReadCommitted

/-- The rows one statement sees, with every key that was ever written and the time on
the database server. -/
structure Database (K : Type) (V : K → Type) where
  keys : List K
  row : (k : K) → Option (V k)
  clock : Int

/-- A row taken by a transaction: the committed row it was taken from and the version
the transaction has left there. -/
structure Held (α : Type) where
  base : Option α
  version : Option α

def Overlay {K : Type} (V : K → Type) : Type := (k : K) → Option (Held (V k))

variable {T K : Type} {V : K → Type}

@[ext] theorem Overlay.ext {o o' : Overlay V} (h : ∀ k, o k = o' k) : o = o' := funext h

def Overlay.empty : Overlay V := fun _ => none

@[simp] theorem Overlay.empty_apply (k : K) : (Overlay.empty : Overlay V) k = none := rfl

def Overlay.Disjoint (o o' : Overlay V) : Prop := ∀ k, o k = none ∨ o' k = none

def Overlay.Agrees (o : Overlay V) (d : Database K V) : Prop :=
  ∀ k h, o k = some h → d.row k = h.base

structure Overlay.Covered (o : Overlay V) (d : Database K V) : Prop where
  nodup : d.keys.Nodup
  absent : ∀ k, k ∉ d.keys → d.row k = none ∧ o k = none

def Database.overlay (d : Database K V) (o : Overlay V) : Database K V :=
  { d with row := fun k => match o k with
      | some h => h.version
      | none => d.row k }

@[simp] theorem Database.overlay_keys (d : Database K V) (o : Overlay V) :
    (d.overlay o).keys = d.keys := rfl

@[simp] theorem Database.overlay_clock (d : Database K V) (o : Overlay V) :
    (d.overlay o).clock = d.clock := rfl

theorem Database.overlay_row_held {d : Database K V} {o : Overlay V} {k : K} {h : Held (V k)}
    (hk : o k = some h) : (d.overlay o).row k = h.version := by
  simp [Database.overlay, hk]

theorem Database.overlay_row_free {d : Database K V} {o : Overlay V} {k : K}
    (hk : o k = none) : (d.overlay o).row k = d.row k := by
  simp [Database.overlay, hk]

theorem Database.overlay_congr {d d' : Database K V} {o o' : Overlay V} {k : K}
    (hrow : d'.row k = d.row k) (ho : o' k = o k) :
    (d'.overlay o').row k = (d.overlay o).row k := by
  simp only [Database.overlay, hrow, ho]

theorem Overlay.Covered.mem_keys {o : Overlay V} {d : Database K V} (hc : o.Covered d) {k : K}
    {v : V k} (h : (d.overlay o).row k = some v) : k ∈ d.keys := by
  by_contra hk
  obtain ⟨hrow, ho⟩ := hc.absent k hk
  simp [Database.overlay, ho, hrow] at h

@[simp] theorem Database.overlay_empty (d : Database K V) : d.overlay Overlay.empty = d := rfl

def Database.advance (d : Database K V) (n : ℕ) : Database K V := { d with clock := d.clock + n }

@[simp] theorem Database.advance_row (d : Database K V) (n : ℕ) : (d.advance n).row = d.row := rfl

@[simp] theorem Database.advance_keys (d : Database K V) (n : ℕ) :
    (d.advance n).keys = d.keys := rfl

section Write

variable [DecidableEq K]

def Database.addKey (d : Database K V) (k : K) : Database K V :=
  { d with keys := if k ∈ d.keys then d.keys else d.keys ++ [k] }

@[simp] theorem Database.addKey_row (d : Database K V) (k : K) : (d.addKey k).row = d.row := rfl

@[simp] theorem Database.addKey_clock (d : Database K V) (k : K) :
    (d.addKey k).clock = d.clock := rfl

def Overlay.write (o : Overlay V) (d : Database K V) (k : K) (v : Option (V k)) : Overlay V :=
  Function.update o k (some ⟨match o k with | some h => h.base | none => d.row k, v⟩)

@[simp] theorem Overlay.write_ne {o : Overlay V} {d : Database K V} {k k' : K}
    {v : Option (V k)} (h : k' ≠ k) : o.write d k v k' = o k' :=
  Function.update_of_ne h _ _

theorem Overlay.write_self (o : Overlay V) (d : Database K V) (k : K) (v : Option (V k)) :
    o.write d k v k = some ⟨match o k with | some h => h.base | none => d.row k, v⟩ :=
  Function.update_self ..

omit [DecidableEq K] in
theorem Overlay.Agrees.row_cases {o : Overlay V} {d : Database K V} (ha : o.Agrees d) (k : K) :
    o k = none ∧ (d.overlay o).row k = d.row k ∨
      o k = some ⟨d.row k, (d.overlay o).row k⟩ := by
  cases hk : o k with
  | none => exact .inl ⟨rfl, Database.overlay_row_free hk⟩
  | some held => exact .inr (by rw [ha k held hk, Database.overlay_row_held hk])

theorem Overlay.write_self_of_agrees {o : Overlay V} {d : Database K V} (ha : o.Agrees d)
    (k : K) (v : Option (V k)) : o.write d k v k = some ⟨d.row k, v⟩ := by
  rw [Overlay.write_self]
  cases hk : o k with
  | none => rfl
  | some h => simp [ha k h hk]

theorem Overlay.write_ne_none {o : Overlay V} {d : Database K V} {k k' : K} {v : Option (V k)}
    (h : o k' ≠ none) : o.write d k v k' ≠ none := by
  by_cases hk : k' = k
  · subst hk
    simp [Overlay.write_self]
  · rwa [Overlay.write_ne hk]

theorem Overlay.Agrees.write {o : Overlay V} {d : Database K V} (ha : o.Agrees d) (k : K)
    (v : Option (V k)) : (o.write d k v).Agrees d := by
  intro k' h hk'
  by_cases hk : k' = k
  · subst hk
    rw [Overlay.write_self_of_agrees ha] at hk'
    cases hk'
    rfl
  · rw [Overlay.write_ne hk] at hk'
    exact ha k' h hk'

@[simp] theorem Database.overlay_write_self (d d' : Database K V) (o : Overlay V) (k : K)
    (v : Option (V k)) : (d.overlay (o.write d' k v)).row k = v := by
  simp [Database.overlay, Overlay.write_self]

@[simp] theorem Database.overlay_write_ne {d d' : Database K V} {o : Overlay V} {k k' : K}
    {v : Option (V k)} (h : k' ≠ k) :
    (d.overlay (o.write d' k v)).row k' = (d.overlay o).row k' := by
  simp [Database.overlay, Overlay.write_ne h]

end Write

structure Cell (T α : Type) where
  committed : Option α
  held : Option (T × Option α)

def Cell.empty {T α : Type} : Cell T α := ⟨none, none⟩

/-- The versioned store. Keys are listed once, and every key in use is listed. -/
structure Store (T K : Type) (V : K → Type) where
  keys : List K
  cell : (k : K) → Cell T (V k)
  clock : Int
  nodup : keys.Nodup
  covers : ∀ k, cell k ≠ Cell.empty → k ∈ keys

namespace Store

def init (clock : Int) : Store T K V where
  keys := []
  cell := fun _ => Cell.empty
  clock := clock
  nodup := List.nodup_nil
  covers := fun _ h => absurd rfl h

def committed (s : Store T K V) : Database K V :=
  ⟨s.keys, fun k => (s.cell k).committed, s.clock⟩

@[simp] theorem committed_keys (s : Store T K V) : s.committed.keys = s.keys := rfl

theorem mem_keys_of_row {s : Store T K V} {k : K} {v : V k}
    (h : s.committed.row k = some v) : k ∈ s.keys := by
  refine s.covers k fun he => ?_
  simp [committed, he, Cell.empty] at h

def advance (s : Store T K V) (d : ℕ) : Store T K V := { s with clock := s.clock + d }

@[simp] theorem committed_advance (s : Store T K V) (d : ℕ) :
    (s.advance d).committed = s.committed.advance d := rfl

section Write

variable [DecidableEq K]

def write (s : Store T K V) (t : T) (k : K) (v : Option (V k)) : Store T K V where
  keys := if k ∈ s.keys then s.keys else s.keys ++ [k]
  cell := Function.update s.cell k ⟨(s.cell k).committed, some (t, v)⟩
  clock := s.clock
  nodup := by
    split
    · exact s.nodup
    · next h => exact List.nodup_append.2 ⟨s.nodup, List.nodup_singleton k, by
        intro a ha b hb hab
        rw [List.mem_singleton.1 hb] at hab
        exact h (hab ▸ ha)⟩
  covers := by
    intro k' hk'
    by_cases h : k' = k
    · subst h
      split <;> simp_all
    · rw [Function.update_of_ne h] at hk'
      have := s.covers k' hk'
      split <;> simp [this]

@[simp] theorem committed_write (s : Store T K V) (t : T) (k : K) (v : Option (V k)) :
    (s.write t k v).committed = s.committed.addKey k := by
  have hrow : (fun k' => ((s.write t k v).cell k').committed) =
      fun k' => (s.cell k').committed := by
    funext k'
    by_cases h : k' = k
    · subst h
      simp [write]
    · simp [write, Function.update_of_ne h]
  simp only [committed, Database.addKey, hrow]
  rfl

@[simp] theorem clock_write (s : Store T K V) (t : T) (k : K) (v : Option (V k)) :
    (s.write t k v).clock = s.clock := rfl

end Write

variable [DecidableEq T]

def own (s : Store T K V) (t : T) : Overlay V := fun k =>
  match (s.cell k).held with
  | some (t', v) => if t' = t then some ⟨(s.cell k).committed, v⟩ else none
  | none => none

def busy (s : Store T K V) (t : T) (k : K) : Bool :=
  match (s.cell k).held with
  | some (t', _) => decide (t' ≠ t)
  | none => false

/-- What a statement of transaction `t` sees: its own versions over the committed rows. -/
def view (s : Store T K V) (t : T) : Database K V := s.committed.overlay (s.own t)

theorem own_agrees (s : Store T K V) (t : T) : (s.own t).Agrees s.committed := by
  intro k h hk
  unfold own at hk
  split at hk
  · split at hk
    · cases hk
      rfl
    · cases hk
  · cases hk

theorem own_covered (s : Store T K V) (t : T) : (s.own t).Covered s.committed := by
  refine ⟨s.nodup, fun k hk => ?_⟩
  have hcell : s.cell k = Cell.empty := by
    by_contra h
    exact hk (s.covers k h)
  simp [committed, own, hcell, Cell.empty]

theorem held_of_own {s : Store T K V} {t : T} {k : K} {h : Held (V k)} (ho : s.own t k = some h) :
    k ∈ s.keys ∧ (s.cell k).held = some (t, h.version) ∧ (s.cell k).committed = h.base := by
  have hheld : (s.cell k).held = some (t, h.version) := by
    unfold own at ho
    split at ho
    · next owner v hcell =>
        split at ho
        · next he =>
            cases ho
            rw [hcell, he]
        · cases ho
    · cases ho
  refine ⟨s.covers k fun he => ?_, hheld, s.own_agrees t k h ho⟩
  rw [he] at hheld
  cases hheld

theorem own_disjoint (s : Store T K V) {t t' : T} (h : t ≠ t') :
    (s.own t).Disjoint (s.own t') := by
  intro k
  unfold own
  split
  · next owner v hheld =>
      by_cases ho : owner = t
      · right
        simp [ho, h]
      · left
        simp [ho]
  · exact .inl rfl

theorem busy_eq_false {s : Store T K V} {k : K} (h : ∀ t, s.own t k = none) (t : T) :
    s.busy t k = false := by
  unfold busy
  split
  · next owner v hheld =>
      have hnone := h owner
      simp [own, hheld] at hnone
  · rfl

@[simp] theorem own_init (c : Int) (t : T) :
    (Store.init c : Store T K V).own t = Overlay.empty := rfl

section Write

variable [DecidableEq K]

theorem own_write_self {s : Store T K V} {t : T} {k : K} (v : Option (V k)) :
    (s.write t k v).own t = (s.own t).write s.committed k v := by
  ext1 k'
  by_cases h : k' = k
  · subst h
    rw [Overlay.write_self_of_agrees (s.own_agrees t)]
    simp [own, write, committed]
  · rw [Overlay.write_ne h]
    simp [own, write, Function.update_of_ne h]

theorem own_write_other {s : Store T K V} {t t' : T} {k : K} (v : Option (V k))
    (hb : s.busy t k = false) (ht : t' ≠ t) : (s.write t k v).own t' = s.own t' := by
  ext1 k'
  by_cases h : k' = k
  · subst h
    have hnew : (s.write t k' v).own t' k' = none := by
      simp [own, write, ht.symm]
    rw [hnew]
    unfold busy at hb
    unfold own
    split at hb
    · next owner w hheld =>
        have : owner = t := by simpa using hb
        simp [this, ht.symm]
    · rfl
  · simp [own, write, Function.update_of_ne h]

theorem busy_write {s : Store T K V} {t t' : T} {k k' : K} {v : Option (V k)} (h : k' ≠ k) :
    (s.write t k v).busy t' k' = s.busy t' k' := by
  simp [busy, write, Function.update_of_ne h]

theorem busy_write_self (s : Store T K V) (t : T) (k : K) (v : Option (V k)) :
    (s.write t k v).busy t k = false := by
  simp [busy, write]

end Write

def commit (s : Store T K V) (t : T) : Store T K V where
  keys := s.keys
  cell := fun k => match s.own t k with
    | some h => ⟨h.version, none⟩
    | none => s.cell k
  clock := s.clock
  nodup := s.nodup
  covers := by
    intro k hk
    cases ho : s.own t k with
    | none => exact s.covers k (by simpa [ho] using hk)
    | some h =>
      refine s.covers k fun he => ?_
      simp [own, he, Cell.empty] at ho

def abort (s : Store T K V) (t : T) : Store T K V where
  keys := s.keys
  cell := fun k => match s.own t k with
    | some h => ⟨h.base, none⟩
    | none => s.cell k
  clock := s.clock
  nodup := s.nodup
  covers := by
    intro k hk
    cases ho : s.own t k with
    | none => exact s.covers k (by simpa [ho] using hk)
    | some h =>
      refine s.covers k fun he => ?_
      simp [own, he, Cell.empty] at ho

theorem committed_commit (s : Store T K V) (t : T) : (s.commit t).committed = s.view t := by
  simp only [committed, commit, view, Database.overlay, Database.mk.injEq, true_and, and_true]
  funext k
  cases s.own t k <;> rfl

theorem committed_abort (s : Store T K V) (t : T) : (s.abort t).committed = s.committed := by
  simp only [committed, abort, Database.mk.injEq, true_and, and_true]
  funext k
  cases ho : s.own t k with
  | none => rfl
  | some h => exact (s.own_agrees t k h ho).symm

private theorem own_release {s s' : Store T K V} {t : T}
    (hc : ∀ k, s.own t k = none → s'.cell k = s.cell k)
    (hr : ∀ k, s.own t k ≠ none → (s'.cell k).held = none) (t' : T) :
    s'.own t' = if t' = t then Overlay.empty else s.own t' := by
  ext1 k
  by_cases ho : s.own t k = none
  · have hcell := hc k ho
    by_cases ht : t' = t
    · subst ht
      have : s'.own t' k = s.own t' k := by simp [own, hcell]
      simp [this, ho]
    · simp [own, hcell, ht]
  · have hheld := hr k ho
    have hnone : s'.own t' k = none := by simp [own, hheld]
    by_cases ht : t' = t
    · rw [hnone, if_pos ht, Overlay.empty_apply]
    · have := (s.own_disjoint ht k).resolve_right ho
      simp [hnone, ht, this]

theorem own_commit (s : Store T K V) (t t' : T) :
    (s.commit t).own t' = if t' = t then Overlay.empty else s.own t' := by
  refine own_release (fun k hk => by simp [commit, hk]) (fun k hk => ?_) t'
  obtain ⟨h, hh⟩ := Option.ne_none_iff_exists'.1 hk
  simp [commit, hh]

theorem own_abort (s : Store T K V) (t t' : T) :
    (s.abort t).own t' = if t' = t then Overlay.empty else s.own t' := by
  refine own_release (fun k hk => by simp [abort, hk]) (fun k hk => ?_) t'
  obtain ⟨h, hh⟩ := Option.ne_none_iff_exists'.1 hk
  simp [abort, hh]

@[simp] theorem own_advance (s : Store T K V) (d : ℕ) (t : T) :
    (s.advance d).own t = s.own t := rfl

end Store

end GoScheduler.ReadCommitted
