import GoScheduler.ReadCommitted.Versions

/-! Transactions as programs of statements. A statement reads the rows its transaction
sees when it runs and names the rows it leaves behind; a row held by another transaction
makes it wait. A program stops with a result, which commits, or with an error, which
rolls back. Each statement is one step: a statement whose parts see different states in
the database is written as several. -/
namespace GoScheduler.ReadCommitted

/-- What lies outside the database and the program: the reading of the caller's clock,
the next random identifier, and the rows a skipping scan happened to find locked. -/
structure Input (K : Type) where
  reading : Int
  uuid : ℕ
  skip : List K

inductive Stmt (K : Type) (V : K → Type) : Type → Type 1 where
  | select {β : Type} (query : Database K V → β) : Stmt K V β  -- `SELECT` without a locking clause.
  -- A query of which the run keeps a record: keys that no other transaction names.
  | note {β : Type} (query : Database K V → β) (marks : β → List K) : Stmt K V β
  | clock : Stmt K V Int  -- The caller reads its own clock.
  | fresh (key : ℕ → K) : Stmt K V ℕ  -- A random identifier: one that was never drawn before.
  | acquire (k : K) : Stmt K V Unit  -- A transaction-scoped advisory lock.
  -- `SELECT ... WHERE key = k AND p FOR UPDATE`.
  | lock (k : K) (p : V k → Bool) : Stmt K V (Option (V k))
  -- `UPDATE ... SET ... WHERE key = k AND p RETURNING`.
  | update (k : K) (p : V k → Bool) (set : V k → V k) : Stmt K V (Option (V k))
  -- `INSERT ... ON CONFLICT DO NOTHING`, with the number of rows as a flag.
  | insert (k : K) (v : V k) : Stmt K V Bool
  -- `INSERT ... ON CONFLICT DO UPDATE`.
  | upsert (k : K) (v : V k) (set : V k → V k) : Stmt K V Unit
  -- `DELETE ... WHERE key = k AND p`, with the number of rows as a flag.
  | delete (k : K) (p : V k → Bool) : Stmt K V Bool
  -- `SELECT ... FOR UPDATE SKIP LOCKED LIMIT limit`.
  | skipLocked {β : Type} (query : Database K V → List (K × β)) (limit : ℕ) :
      Stmt K V (List β)

abbrev Write {K : Type} (V : K → Type) : Type := (k : K) × Option (V k)

variable {K : Type} {V : K → Type} {E α β γ σ : Type} [DecidableEq K]

/-- Result and row versions of a statement, or `none` where the statement cannot run on
this input. Rows named here that another transaction holds make the statement wait. -/
def Stmt.eval {β : Type} (s : Stmt K V β) (inp : Input K) (d : Database K V)
    (busy : K → Bool) : Option (β × List (Write V)) :=
  match s with
  | .select query => some (query d, [])
  | .note query marks => some (query d, (marks (query d)).map fun k => ⟨k, d.row k⟩)
  | .clock => if 0 ≤ inp.reading then some (inp.reading, []) else none
  | .fresh key =>
      if key inp.uuid ∈ d.keys then none else some (inp.uuid, [⟨key inp.uuid, none⟩])
  | .acquire k => some ((), [⟨k, d.row k⟩])
  | .lock k p => match d.row k with
      | some v => if p v then some (some v, [⟨k, some v⟩]) else some (none, [])
      | none => some (none, [])
  | .update k p set => match d.row k with
      | some v => if p v then some (some (set v), [⟨k, some (set v)⟩]) else some (none, [])
      | none => some (none, [])
  | .insert k v => match d.row k with
      | some _ => some (false, [])
      | none => some (true, [⟨k, some v⟩])
  | .upsert k v set => match d.row k with
      | some w => some ((), [⟨k, some (set w)⟩])
      | none => some ((), [⟨k, some v⟩])
  | .delete k p => match d.row k with
      | some v => if p v then some (true, [⟨k, none⟩]) else some (false, [])
      | none => some (false, [])
  | .skipLocked query limit =>
      let rows := ((query d).filter fun r => !busy r.1 && !inp.skip.contains r.1).take limit
      some (rows.map Prod.snd, rows.map fun r => ⟨r.1, d.row r.1⟩)

inductive Program (K : Type) (V : K → Type) (E α : Type) : Type 1 where
  | done (a : α) : Program K V E α
  | fail (e : E) : Program K V E α
  | stmt {β : Type} (s : Stmt K V β) (next : β → Program K V E α) : Program K V E α

namespace Program

def bind : Program K V E α → (α → Program K V E β) → Program K V E β
  | .done a, f => f a
  | .fail e, _ => .fail e
  | .stmt s next, f => .stmt s fun r => (next r).bind f

instance : Monad (Program K V E) where
  pure := .done
  bind := .bind

omit [DecidableEq K] in
theorem bind_stmt (s : Stmt K V γ) (next : γ → Program K V E α) (f : α → Program K V E β) :
    Program.stmt s next >>= f = .stmt s fun r => next r >>= f := rfl

def exec (s : Stmt K V α) : Program K V E α := .stmt s .done

def when (c : Prop) [Decidable c] (p : Program K V E Unit) : Program K V E Unit :=
  if c then p else .done ()

def foldEach : List γ → σ → (σ → γ → Program K V E σ) → Program K V E σ
  | [], acc, _ => .done acc
  | x :: xs, acc, body => do foldEach xs (← body acc x) body

def forEach (xs : List γ) (body : γ → Program K V E Unit) : Program K V E Unit :=
  foldEach xs () fun _ x => body x

def Fails (P : E → Prop) : Program K V E α → Prop
  | .done _ => True
  | .fail e => P e
  | .stmt _ next => ∀ r, (next r).Fails P

omit [DecidableEq K] in
theorem Fails.bind {P : E → Prop} {p : Program K V E α} {f : α → Program K V E β} (hp : p.Fails P)
    (hf : ∀ a, (f a).Fails P) : (p >>= f).Fails P := by
  induction p with
  | done a => exact hf a
  | fail e => exact hp
  | stmt s next ih => exact fun r => ih r (hp r)

omit [DecidableEq K] in
theorem Fails.exec {P : E → Prop} (s : Stmt K V α) : (exec s : Program K V E α).Fails P :=
  fun _ => trivial

end Program

section WriteAll

def Database.addKeys (d : Database K V) (ws : List (Write V)) : Database K V :=
  ws.foldl (fun d w => d.addKey w.1) d

@[simp] theorem Database.addKeys_row (d : Database K V) (ws : List (Write V)) :
    (d.addKeys ws).row = d.row := by
  induction ws generalizing d with
  | nil => rfl
  | cons w ws ih => simpa [Database.addKeys] using ih (d.addKey w.1)

theorem Database.mem_addKey {d : Database K V} {k k' : K} :
    k ∈ (d.addKey k').keys ↔ k ∈ d.keys ∨ k = k' := by
  unfold Database.addKey
  dsimp only
  split
  · next h =>
      refine ⟨.inl, fun hk => hk.elim id ?_⟩
      rintro rfl
      exact h
  · rw [List.mem_append, List.mem_singleton]

theorem Database.mem_addKeys {d : Database K V} {ws : List (Write V)} {k : K} :
    k ∈ (d.addKeys ws).keys ↔ k ∈ d.keys ∨ ∃ w ∈ ws, k = w.1 := by
  induction ws generalizing d with
  | nil => simp [Database.addKeys]
  | cons w ws ih =>
    have hstep : k ∈ ((d.addKey w.1).addKeys ws).keys ↔
        k ∈ (d.addKey w.1).keys ∨ ∃ w ∈ ws, k = w.1 := ih
    rw [Database.mem_addKey, or_assoc] at hstep
    rw [show d.addKeys (w :: ws) = (d.addKey w.1).addKeys ws from rfl, hstep]
    simp

def Overlay.writeAll (o : Overlay V) (d : Database K V) (ws : List (Write V)) : Overlay V :=
  ws.foldl (fun o w => o.write d w.1 w.2) o

@[simp] theorem Overlay.writeAll_nil (o : Overlay V) (d : Database K V) :
    o.writeAll d [] = o := rfl

@[simp] theorem Overlay.writeAll_cons (o : Overlay V) (d : Database K V) (w : Write V)
    (ws : List (Write V)) : o.writeAll d (w :: ws) = (o.write d w.1 w.2).writeAll d ws := rfl

theorem Overlay.Agrees.writeAll {o : Overlay V} {d : Database K V} (ha : o.Agrees d)
    (ws : List (Write V)) : (o.writeAll d ws).Agrees d := by
  induction ws generalizing o with
  | nil => exact ha
  | cons w ws ih => exact ih (ha.write w.1 w.2)

theorem Overlay.writeAll_congr {o : Overlay V} {d d' : Database K V} (h : d.row = d'.row)
    (ws : List (Write V)) : o.writeAll d ws = o.writeAll d' ws := by
  induction ws generalizing o with
  | nil => rfl
  | cons w ws ih =>
    have hw : o.write d w.1 w.2 = o.write d' w.1 w.2 := by
      unfold Overlay.write
      rw [h]
    rw [Overlay.writeAll_cons, Overlay.writeAll_cons, hw, ih]

theorem Overlay.writeAll_base {o : Overlay V} {d : Database K V} {k : K} {h : Held (V k)}
    (ws : List (Write V)) (hk : o k = some h) :
    ∃ v, o.writeAll d ws k = some ⟨h.base, v⟩ := by
  induction ws generalizing o h with
  | nil => exact ⟨h.version, hk⟩
  | cons w ws ih =>
    rw [Overlay.writeAll_cons]
    by_cases hw : k = w.1
    · subst hw
      have hself : o.write d w.1 w.2 w.1 = some ⟨h.base, w.2⟩ := by
        rw [Overlay.write_self, hk]
      obtain ⟨v, hv⟩ := ih hself
      exact ⟨v, hv⟩
    · exact ih ((Overlay.write_ne hw).trans hk)

theorem Overlay.writeAll_ne_none {o : Overlay V} {d : Database K V} {k : K}
    (ws : List (Write V)) (hk : o k ≠ none) : o.writeAll d ws k ≠ none := by
  obtain ⟨h, hh⟩ := Option.ne_none_iff_exists'.1 hk
  obtain ⟨v, hv⟩ := Overlay.writeAll_base (d := d) ws hh
  simp [hv]

def lockWrites (d : Database K V) (ks : List K) : List (Write V) :=
  ks.map fun k => ⟨k, d.row k⟩

theorem Overlay.writeAll_map {o : Overlay V} {d : Database K V} (ha : o.Agrees d) {k : K}
    (f : (k : K) → Option (V k)) (ks : List K) :
    o.writeAll d (ks.map fun k => ⟨k, f k⟩) k =
      if k ∈ ks then some ⟨d.row k, f k⟩ else o k := by
  induction ks generalizing o with
  | nil => simp
  | cons x ks ih =>
    rw [List.map_cons, Overlay.writeAll_cons, ih (ha.write x (f x))]
    by_cases hk : k ∈ ks
    · simp [hk]
    · by_cases hx : k = x
      · subst hx
        simp [hk, Overlay.write_self_of_agrees ha]
      · simp [hk, hx]

theorem Overlay.writeAll_lockWrites {o : Overlay V} {d : Database K V} (ha : o.Agrees d)
    (ks : List K) (k : K) : o.writeAll d (lockWrites (d.overlay o) ks) k =
      if k ∈ ks then some ⟨d.row k, (d.overlay o).row k⟩ else o k :=
  Overlay.writeAll_map ha _ ks

theorem Overlay.overlay_lockWrites {o : Overlay V} {d d' : Database K V} (ha : o.Agrees d)
    (hrow : d'.row = d.row) (ks : List K) :
    (d'.overlay (o.writeAll d (lockWrites (d.overlay o) ks))).row = (d.overlay o).row := by
  funext k
  have hk := Overlay.writeAll_lockWrites ha ks k
  split at hk
  · exact Database.overlay_row_held hk
  · cases ho : o k with
    | none => rw [Database.overlay_row_free (hk.trans ho), Database.overlay_row_free ho, hrow]
    | some h => rw [Database.overlay_row_held (hk.trans ho), Database.overlay_row_held ho]

variable {T : Type} [DecidableEq T]

def Store.writeAll (s : Store T K V) (t : T) (ws : List (Write V)) : Store T K V :=
  ws.foldl (fun s w => s.write t w.1 w.2) s

omit [DecidableEq T] in
@[simp] theorem Store.committed_writeAll (s : Store T K V) (t : T) (ws : List (Write V)) :
    (s.writeAll t ws).committed = s.committed.addKeys ws := by
  induction ws generalizing s with
  | nil => rfl
  | cons w ws ih =>
    have := ih (s.write t w.1 w.2)
    simpa [Store.writeAll, Database.addKeys] using this

omit [DecidableEq T] in
@[simp] theorem Store.clock_writeAll (s : Store T K V) (t : T) (ws : List (Write V)) :
    (s.writeAll t ws).clock = s.clock := by
  induction ws generalizing s with
  | nil => rfl
  | cons w ws ih => simpa [Store.writeAll] using ih (s.write t w.1 w.2)

theorem Store.own_writeAll_self (s : Store T K V) (t : T) (ws : List (Write V)) :
    (s.writeAll t ws).own t = (s.own t).writeAll s.committed ws := by
  induction ws generalizing s with
  | nil => rfl
  | cons w ws ih =>
    have hstep := ih (s.write t w.1 w.2)
    rw [Store.own_write_self, Store.committed_write] at hstep
    rw [Overlay.writeAll_cons, ← Overlay.writeAll_congr (Database.addKey_row s.committed w.1)]
    exact hstep

private theorem Store.busy_write_false {s : Store T K V} {t : T} {k k' : K} (v : Option (V k))
    (h : s.busy t k' = false) : (s.write t k v).busy t k' = false := by
  by_cases hk : k' = k
  · subst hk
    exact s.busy_write_self t k' v
  · rw [Store.busy_write hk, h]

theorem Store.own_writeAll_other {s : Store T K V} {t t' : T} (ws : List (Write V))
    (hb : ∀ w ∈ ws, s.busy t w.1 = false) (ht : t' ≠ t) :
    (s.writeAll t ws).own t' = s.own t' := by
  induction ws generalizing s with
  | nil => rfl
  | cons w ws ih =>
    have hw := hb w List.mem_cons_self
    have hws : ∀ w' ∈ ws, (s.write t w.1 w.2).busy t w'.1 = false := fun w' hw' =>
      Store.busy_write_false w.2 (hb w' (List.mem_cons_of_mem _ hw'))
    exact (ih hws).trans (Store.own_write_other w.2 hw ht)

end WriteAll

end GoScheduler.ReadCommitted
