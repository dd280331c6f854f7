import GoScheduler.ReadCommitted.Machine

/-! A transaction on a database that no other transaction is using, a transaction that takes
its steps while the others stand still, and what a program can write whatever it reads. -/
namespace GoScheduler.ReadCommitted

variable {K : Type} {V : K → Type} {E α β γ σ : Type} [DecidableEq K]

section Alone

def Database.write (d : Database K V) (w : Write V) : Database K V :=
  { d.addKey w.1 with row := Function.update d.row w.1 w.2 }

def Database.writeAll (d : Database K V) (ws : List (Write V)) : Database K V :=
  ws.foldl Database.write d

@[simp] theorem Database.writeAll_cons (d : Database K V) (w : Write V) (ws : List (Write V)) :
    d.writeAll (w :: ws) = (d.write w).writeAll ws := rfl

theorem Database.writeAll_lockWrites (d : Database K V) (ks : List K) :
    (d.writeAll (lockWrites d ks)).row = d.row := by
  have hall : ∀ d' : Database K V, d'.row = d.row →
      (d'.writeAll (lockWrites d ks)).row = d.row := by
    induction ks with
    | nil => exact fun d' h => h
    | cons k ks ih =>
      intro d' h
      refine ih _ ?_
      simp [Database.write, h]
  exact hall d rfl

def Program.alone : Program K V E α → List (Input K) → Database K V →
    Option (Except E α × List (Input K) × Database K V)
  | .done a, inps, d => some (.ok a, inps, d)
  | .fail e, inps, d => some (.error e, inps, d)
  | .stmt _ _, [], _ => none
  | .stmt s next, inp :: inps, d => match s.eval inp d fun _ => false with
      | some (r, ws) => (next r).alone inps (d.writeAll ws)
      | none => none

def Program.transact (p : Program K V E α) (inps : List (Input K)) (d : Database K V) :
    Option (Except E α × Database K V) :=
  match p.alone inps d with
  | some (.ok a, _, d') => some (.ok a, d')
  | some (.error e, _, d') => some (.error e, { d with keys := d'.keys })
  | none => none

theorem Program.transact_of_fails {p : Program K V E α} {inps : List (Input K)}
    {d d' : Database K V} {res : Except E α}
    (hfail : ∀ a rest d', p.alone inps d ≠ some (.ok a, rest, d'))
    (h : p.transact inps d = some (res, d')) : (∃ e, res = .error e) ∧ d'.row = d.row := by
  unfold Program.transact at h
  split at h
  · next a rest d₁ hp => exact absurd hp (hfail a rest d₁)
  · next e _ _ _ =>
      cases h
      exact ⟨⟨e, rfl⟩, rfl⟩
  · cases h

theorem Program.alone_bind (p : Program K V E α) (f : α → Program K V E β)
    (inps : List (Input K)) (d : Database K V) :
    (p >>= f).alone inps d = match p.alone inps d with
      | some (.ok a, rest, d') => (f a).alone rest d'
      | some (.error e, rest, d') => some (.error e, rest, d')
      | none => none := by
  induction p generalizing inps d with
  | done a => rfl
  | fail e => rfl
  | stmt s next ih =>
    rw [Program.bind_stmt]
    cases inps with
    | nil => rfl
    | cons inp inps =>
      cases heval : s.eval inp d fun _ => false with
      | none => simp only [Program.alone, heval]
      | some out =>
        simp only [Program.alone, heval]
        exact ih out.1 inps (d.writeAll out.2)

theorem Program.alone_bind_ok {p : Program K V E α} {f : α → Program K V E β}
    {inps rest : List (Input K)} {d d' : Database K V} {b : β}
    (h : (p >>= f).alone inps d = some (.ok b, rest, d')) :
    ∃ a mid d₁, p.alone inps d = some (.ok a, mid, d₁) ∧
      (f a).alone mid d₁ = some (.ok b, rest, d') := by
  rw [Program.alone_bind] at h
  split at h
  · next a mid d₁ hp => exact ⟨a, mid, d₁, hp, h⟩
  · cases h
  · cases h

theorem Program.alone_suffix {p : Program K V E α} {inps rest : List (Input K)}
    {d d' : Database K V} {res : Except E α} (h : p.alone inps d = some (res, rest, d')) :
    rest <:+ inps := by
  induction p generalizing inps d with
  | done a => cases h; exact List.suffix_rfl
  | fail e => cases h; exact List.suffix_rfl
  | stmt s next ih =>
    cases inps with
    | nil => cases h
    | cons inp inps =>
      unfold Program.alone at h
      split at h
      · exact (ih _ h).trans (List.suffix_cons inp inps)
      · cases h

theorem Program.alone_select {query : Database K V → β} {inps rest : List (Input K)}
    {d d' : Database K V} {res : Except E β}
    (h : (Program.exec (.select query) : Program K V E β).alone inps d = some (res, rest, d')) :
    res = .ok (query d) ∧ d' = d := by
  cases inps with
  | nil => cases h
  | cons inp inps =>
    cases h
    exact ⟨rfl, rfl⟩

theorem Program.alone_clock {inps rest : List (Input K)} {d d' : Database K V} {c : Int}
    (h : (Program.exec .clock : Program K V E Int).alone inps d = some (.ok c, rest, d')) :
    d' = d ∧ ∃ inp ∈ inps, inp.reading = c := by
  cases inps with
  | nil => cases h
  | cons inp inps =>
    simp only [Program.alone, Program.exec, Stmt.eval] at h
    split at h
    · next hread =>
        split at hread
        · cases hread
          cases h
          exact ⟨rfl, inp, List.mem_cons_self, rfl⟩
        · cases hread
    · cases h

theorem Program.alone_update {k : K} {p : V k → Bool} {set : V k → V k} {inps rest : List (Input K)}
    {d d' : Database K V} {v : V k}
    (h : (Program.exec (.update k p set) : Program K V E (Option (V k))).alone inps d =
      some (.ok (some v), rest, d')) :
    ∃ x, d.row k = some x ∧ p x = true ∧ d'.row k = some (set x) := by
  cases inps with
  | nil => cases h
  | cons inp inps =>
    simp only [Program.alone, Program.exec, Stmt.eval] at h
    split at h
    · next heval =>
        split at heval
        · next x hx =>
            split at heval
            · next hp =>
                cases heval
                cases h
                exact ⟨x, hx, hp, Function.update_self ..⟩
            · cases heval
              cases h
        · cases heval
          cases h
    · cases h

theorem Program.alone_skipLocked {query : Database K V → List (K × β)} {limit : ℕ}
    {inps rest : List (Input K)} {d d' : Database K V} {xs : List β}
    (h : (Program.exec (.skipLocked query limit) : Program K V E (List β)).alone inps d =
      some (.ok xs, rest, d')) :
    ∃ inp ∈ inps, ∃ rows, rows = ((query d).filter fun r => !inp.skip.contains r.1).take limit ∧
      xs = rows.map Prod.snd ∧ d' = d.writeAll (lockWrites d (rows.map Prod.fst)) := by
  cases inps with
  | nil => cases h
  | cons inp inps =>
    cases h
    refine ⟨inp, List.mem_cons_self, _, rfl, ?_, ?_⟩
    · simp
    · simp [lockWrites, Function.comp_def]

end Alone

section Amid

/-- The result of a program that never waits while others hold the rows in `busy`, and the
rows as it sees them at its end. -/
def Program.amid (busy : K → Bool) : Program K V E α → List (Input K) → Database K V →
    Option (Except E α × Database K V)
  | .done a, _, d => some (.ok a, d)
  | .fail e, _, d => some (.error e, d)
  | .stmt _ _, [], _ => none
  | .stmt s next, inp :: inps, d => match s.eval inp d busy with
      | some (r, ws) =>
          if ws.all fun w => !busy w.1 then (next r).amid busy inps (d.writeAll ws) else none
      | none => none

variable {busy : K → Bool}

theorem Program.amid_stmt {s : Stmt K V β} {next : β → Program K V E α} {inp : Input K}
    {inps : List (Input K)} {d : Database K V} {r : β} {ws : List (Write V)}
    (heval : s.eval inp d busy = some (r, ws)) (hfree : ∀ w ∈ ws, busy w.1 = false) :
    (Program.stmt s next).amid busy (inp :: inps) d = (next r).amid busy inps (d.writeAll ws) := by
  simp only [Program.amid, heval]
  exact if_pos (List.all_eq_true.2 fun w hw => by simp [hfree w hw])

theorem Program.amid_map {p : Program K V E α} {f : α → β} {inps : List (Input K)}
    {d d' : Database K V} {a : α} (h : p.amid busy inps d = some (.ok a, d')) :
    (p >>= fun a => pure (f a)).amid busy inps d = some (.ok (f a), d') := by
  induction p generalizing inps d with
  | done b =>
    cases h
    rfl
  | fail e => cases h
  | stmt s next ih =>
    cases inps with
    | nil => cases h
    | cons inp inps =>
      rw [Program.bind_stmt]
      simp only [Program.amid] at h ⊢
      split at h
      · split at h
        · next hall =>
            rw [if_pos hall]
            exact ih _ h
        · cases h
      · cases h

theorem Stmt.eval_skipLocked {query : Database K V → List (K × β)} {limit : ℕ} {d : Database K V}
    (hlimit : (query d).length ≤ limit) :
    (Stmt.skipLocked query limit).eval ⟨0, 0, []⟩ d busy =
      some (((query d).filter fun r => !busy r.1).map Prod.snd,
        lockWrites d (((query d).filter fun r => !busy r.1).map Prod.fst)) := by
  have hfilter : ((query d).filter fun r => !busy r.1 && !([] : List K).contains r.1) =
      (query d).filter fun r => !busy r.1 := List.filter_congr fun r _ => by simp
  have hlength := List.length_filter_le (fun r : K × β => !busy r.1) (query d)
  simp only [Stmt.eval]
  rw [hfilter, List.take_of_length_le (by omega)]
  simp [lockWrites, Function.comp_def]

theorem Program.amid_of_alone {p : Program K V E α} {inps rest : List (Input K)}
    {d d' : Database K V} {res : Except E α} (h : p.alone inps d = some (res, rest, d')) :
    p.amid (fun _ => false) inps d = some (res, d') := by
  induction p generalizing inps d with
  | done a =>
    cases h
    rfl
  | fail e =>
    cases h
    rfl
  | stmt s next ih =>
    cases inps with
    | nil => cases h
    | cons inp inps =>
      unfold Program.alone at h
      split at h
      · next r ws heval => exact (amid_stmt heval fun _ _ => rfl).trans (ih r h)
      · cases h

variable {T R : Type} [DecidableEq T]

theorem Store.view_write (s : Store T K V) (t : T) (k : K) (v : Option (V k)) :
    (s.write t k v).view t = (s.view t).write ⟨k, v⟩ := by
  have hrow : ((s.write t k v).view t).row = ((s.view t).write ⟨k, v⟩).row := by
    funext k'
    simp only [Store.view, Store.own_write_self, Store.committed_write]
    by_cases hk : k' = k
    · subst hk
      simp [Database.write]
    · rw [Database.overlay_write_ne hk]
      simp [Database.write, Function.update_of_ne hk, Database.overlay]
  have hkeys : ((s.write t k v).view t).keys = ((s.view t).write ⟨k, v⟩).keys := rfl
  cases hl : (s.write t k v).view t with
  | mk keys row clock =>
    rw [hl] at hrow hkeys
    have hclock : clock = ((s.view t).write ⟨k, v⟩).clock := (congrArg Database.clock hl).symm
    dsimp only at hrow hkeys
    rw [hrow, hkeys, hclock]

theorem Store.view_writeAll (s : Store T K V) (t : T) (ws : List (Write V)) :
    (s.writeAll t ws).view t = (s.view t).writeAll ws := by
  induction ws generalizing s with
  | nil => rfl
  | cons w ws ih => exact (ih (s.write t w.1 w.2)).trans (by rw [Store.view_write]; rfl)

theorem Store.busy_writeAll {s : Store T K V} {t : T} (ws : List (Write V))
    (hfree : ∀ w ∈ ws, s.busy t w.1 = false) : (s.writeAll t ws).busy t = s.busy t := by
  induction ws generalizing s with
  | nil => rfl
  | cons w ws ih =>
    have hone : (s.write t w.1 w.2).busy t = s.busy t := by
      funext k
      by_cases hk : k = w.1
      · rw [hk, Store.busy_write_self, hfree w List.mem_cons_self]
      · exact Store.busy_write hk
    refine (ih fun w' hw' => ?_).trans hone
    rw [hone]
    exact hfree w' (List.mem_cons_of_mem _ hw')

theorem Machine.exists_committed {sys : System T K V E R} {t : T} {p : Program K V E R} {r : R}
    {d' : Database K V} (inps : List (Input K)) {m : Machine T K V E R}
    (hrun : m.running t = some p)
    (h : p.amid (m.store.busy t) inps (m.store.view t) = some (.ok r, d')) :
    ∃ m', Machine.ReachableFrom sys (fun _ _ _ => True) m m' ∧
      m'.returned = (t, .ok r) :: m.returned ∧ m'.store.committed = d' := by
  induction p generalizing inps m with
  | done a =>
    cases h
    have hstep : m.step sys (.finish t) = some { m with
        store := m.store.commit t
        running := Function.update m.running t none
        returned := (t, .ok r) :: m.returned } := by
      simp only [Machine.step, hrun]
    exact ⟨_, .step .refl hstep trivial, rfl, Store.committed_commit m.store t⟩
  | fail e => cases h
  | stmt s next ih =>
    cases inps with
    | nil => cases h
    | cons inp inps =>
      simp only [Program.amid] at h
      split at h
      · next a ws heval =>
          split at h
          · next hall =>
              have hfree : ∀ w ∈ ws, m.store.busy t w.1 = false := by simpa using hall
              have hstep : m.step sys (.exec t inp) = some { m with
                  store := m.store.writeAll t ws
                  running := Function.update m.running t (some (next a)) } := by
                simp only [Machine.step, hrun, Machine.execStmt, heval]
                exact if_pos hall
              obtain ⟨m', hreach, hret, hcomm⟩ := ih a (m := { m with
                  store := m.store.writeAll t ws
                  running := Function.update m.running t (some (next a)) }) inps
                (Function.update_self ..) (by
                  simpa only [Store.busy_writeAll ws hfree, Store.view_writeAll] using h)
              exact ⟨m', Machine.ReachableFrom.trans (.step .refl hstep trivial) hreach,
                hret, hcomm⟩
          · cases h
      · cases h

theorem Machine.exists_answered {sys : System T K V E R} {t : T} {r : R} {d' : Database K V}
    (inps : List (Input K)) {m : Machine T K V E R} (hfresh : t ∉ m.begun)
    (hadm : sys.admissible m.store.committed t = true) (hown : m.store.own t = Overlay.empty)
    (h : (sys.program t).amid (m.store.busy t) inps m.store.committed = some (.ok r, d')) :
    ∃ m', Machine.ReachableFrom sys (fun _ _ _ => True) m m' ∧
      m'.returned = (t, .ok r) :: m.returned ∧ m'.store.committed = d' := by
  have hbegin : m.step sys (.begin t) = some { m with
      running := Function.update m.running t (some (sys.program t))
      begun := t :: m.begun } := by
    simp [Machine.step, hfresh, hadm]
  have hview : m.store.view t = m.store.committed := by
    rw [Store.view, hown, Database.overlay_empty]
  obtain ⟨m', hreach, hret, hcommitted⟩ : ∃ m', Machine.ReachableFrom sys (fun _ _ _ => True)
      { m with
        running := Function.update m.running t (some (sys.program t))
        begun := t :: m.begun } m' ∧
      m'.returned = (t, .ok r) :: m.returned ∧ m'.store.committed = d' :=
    Machine.exists_committed inps (Function.update_self ..) (by rw [hview]; exact h)
  exact ⟨m', Machine.ReachableFrom.trans (.step .refl hbegin trivial) hreach, hret, hcommitted⟩

end Amid

section Effect

def Program.Effect (P : Database K V → Write V → Prop) (Q : α → Prop) :
    Program K V E α → Prop
  | .done a => Q a
  | .fail _ => True
  | .stmt s next => ∀ inp d busy r ws, s.eval inp d busy = some (r, ws) →
      (∀ w ∈ ws, P d w) ∧ (next r).Effect P Q

variable {P : Database K V → Write V → Prop} {Q : α → Prop}

namespace Program.Effect

theorem weaken {Q' : α → Prop} {p : Program K V E α} (hp : p.Effect P Q)
    (h : ∀ a, Q a → Q' a) : p.Effect P Q' := by
  induction p with
  | done a => exact h a hp
  | fail e => trivial
  | stmt s next ih =>
    intro inp d busy r ws heval
    exact ⟨(hp inp d busy r ws heval).1, ih r (hp inp d busy r ws heval).2⟩

theorem pure {a : α} (h : Q a) : (Pure.pure a : Program K V E α).Effect P Q := h

theorem fail {e : E} : (Program.fail e : Program K V E α).Effect P Q := trivial

theorem bind {Q' : β → Prop} {p : Program K V E α} {f : α → Program K V E β}
    (hp : p.Effect P Q) (hf : ∀ a, Q a → (f a).Effect P Q') : (p >>= f).Effect P Q' := by
  induction p with
  | done a => exact hf a hp
  | fail e => trivial
  | stmt s next ih =>
    intro inp d busy r ws heval
    exact ⟨(hp inp d busy r ws heval).1, ih r (hp inp d busy r ws heval).2⟩

theorem map {p : Program K V E α} {f : α → β} (hp : p.Effect P Q) :
    (f <$> p).Effect P fun _ => True :=
  hp.bind fun _ _ => pure trivial

theorem exec {s : Stmt K V α} (h : ∀ inp d busy r ws, s.eval inp d busy = some (r, ws) →
    (∀ w ∈ ws, P d w) ∧ Q r) : (Program.exec s : Program K V E α).Effect P Q := h

theorem select {query : Database K V → α} :
    (Program.exec (.select query) : Program K V E α).Effect P fun _ => True := by
  refine exec fun inp d busy r ws heval => ⟨?_, trivial⟩
  cases heval
  simp

theorem clock : (Program.exec .clock : Program K V E Int).Effect P fun _ => True := by
  refine exec fun inp d busy r ws heval => ⟨?_, trivial⟩
  simp only [Stmt.eval] at heval
  split at heval <;> cases heval
  simp

theorem fresh {key : ℕ → K} (h : ∀ d n, P d ⟨key n, none⟩) :
    (Program.exec (.fresh key) : Program K V E ℕ).Effect P fun _ => True := by
  refine exec fun inp d busy r ws heval => ⟨?_, trivial⟩
  simp only [Stmt.eval] at heval
  split at heval <;> cases heval
  simpa using h d _

theorem acquire {k : K} (h : ∀ d, P d ⟨k, d.row k⟩) :
    (Program.exec (.acquire k) : Program K V E Unit).Effect P fun _ => True := by
  refine exec fun inp d busy r ws heval => ⟨?_, trivial⟩
  cases heval
  simpa using h d

theorem lock {k : K} {p : V k → Bool} (h : ∀ d, P d ⟨k, d.row k⟩) :
    (Program.exec (.lock k p) : Program K V E (Option (V k))).Effect P fun _ => True := by
  refine exec fun inp d busy r ws heval => ⟨?_, trivial⟩
  have hd := h d
  simp only [Stmt.eval] at heval
  split at heval
  · next v hv =>
      rw [hv] at hd
      split at heval <;> cases heval
      · simpa using hd
      · simp
  · cases heval
    simp

theorem update {k : K} {p : V k → Bool} {set : V k → V k}
    (h : ∀ d v, d.row k = some v → p v = true → P d ⟨k, some (set v)⟩) :
    (Program.exec (.update k p set) : Program K V E (Option (V k))).Effect P fun _ => True := by
  refine exec fun inp d busy r ws heval => ⟨?_, trivial⟩
  simp only [Stmt.eval] at heval
  split at heval
  · next v hv =>
      split at heval
      · next hp =>
          cases heval
          simpa using h d v hv hp
      · cases heval
        simp
  · cases heval
    simp

theorem insert {k : K} {v : V k} (h : ∀ d, d.row k = none → P d ⟨k, some v⟩) :
    (Program.exec (.insert k v) : Program K V E Bool).Effect P fun _ => True := by
  refine exec fun inp d busy r ws heval => ⟨?_, trivial⟩
  simp only [Stmt.eval] at heval
  split at heval
  · cases heval
    simp
  · next hfree =>
      cases heval
      simpa using h d hfree

theorem upsert {k : K} {v : V k} {set : V k → V k} (h : ∀ d w, P d ⟨k, some w⟩) :
    (Program.exec (.upsert k v set) : Program K V E Unit).Effect P fun _ => True := by
  refine exec fun inp d busy r ws heval => ⟨?_, trivial⟩
  simp only [Stmt.eval] at heval
  split at heval <;> cases heval <;> simpa using h d _

theorem delete {k : K} {p : V k → Bool} (h : ∀ d, P d ⟨k, none⟩) :
    (Program.exec (.delete k p) : Program K V E Bool).Effect P fun _ => True := by
  refine exec fun inp d busy r ws heval => ⟨?_, trivial⟩
  simp only [Stmt.eval] at heval
  split at heval
  · split at heval <;> cases heval
    · simpa using h d
    · simp
  · cases heval
    simp

theorem skipLocked {query : Database K V → List (K × β)} {limit : ℕ}
    (h : ∀ d k, P d ⟨k, d.row k⟩) :
    (Program.exec (.skipLocked query limit) : Program K V E (List β)).Effect P fun _ => True := by
  refine exec fun inp d busy r ws heval => ⟨?_, trivial⟩
  cases heval
  intro w hw
  obtain ⟨x, _, rfl⟩ := List.mem_map.1 hw
  exact h d x.1

theorem when {c : Prop} [Decidable c] {p : Program K V E Unit}
    (hp : c → p.Effect P fun _ => True) : (Program.when c p).Effect P fun _ => True := by
  unfold Program.when
  split
  · next h => exact hp h
  · trivial

theorem foldEach {Q : σ → Prop} {body : σ → γ → Program K V E σ} {xs : List γ} {acc : σ}
    (hacc : Q acc) (hbody : ∀ acc, ∀ x ∈ xs, Q acc → (body acc x).Effect P Q) :
    (Program.foldEach xs acc body).Effect P Q := by
  induction xs generalizing acc with
  | nil => exact hacc
  | cons x xs ih =>
    refine bind (hbody acc x List.mem_cons_self hacc) fun acc' h => ih h ?_
    exact fun acc y hy => hbody acc y (List.mem_cons_of_mem _ hy)

theorem forEach {body : γ → Program K V E Unit} {xs : List γ}
    (hbody : ∀ x ∈ xs, (body x).Effect P fun _ => True) :
    (Program.forEach xs body).Effect P fun _ => True :=
  foldEach trivial fun _ x hx _ => hbody x hx

theorem alone {p : Program K V E α} (hp : p.Effect P Q) {I : Database K V → Prop}
    (hI : ∀ d ws, I d → (∀ w ∈ ws, P d w) → I (d.writeAll ws)) {inps rest : List (Input K)}
    {d d' : Database K V} {a : α} (hd : I d) (h : p.alone inps d = some (.ok a, rest, d')) :
    I d' ∧ Q a := by
  induction p generalizing inps d with
  | done b => cases h; exact ⟨hd, hp⟩
  | fail e => cases h
  | stmt s next ih =>
    cases inps with
    | nil => cases h
    | cons inp inps =>
      unfold Program.alone at h
      split at h
      · next r ws heval =>
          obtain ⟨hws, hnext⟩ := hp inp d _ r ws heval
          exact ih r hnext (hI d ws hd hws) h
      · cases h

end Program.Effect

end Effect

end GoScheduler.ReadCommitted
