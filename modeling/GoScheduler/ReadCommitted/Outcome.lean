import GoScheduler.ReadCommitted.Alone
import Mathlib.Data.Set.Finite.Basic

/-! What a transaction that runs alone ends in, as a weakest precondition: a condition on
the rows it starts from under which it can take every step, and ends in a result or an
error that meets a postcondition, whatever it finds outside the database. -/
namespace GoScheduler.ReadCommitted

variable {K : Type} {V : K → Type} {E α β γ σ : Type} [DecidableEq K]

section Rows

variable (d : Database K V) {k k' : K} (v : Option (V k))

@[simp] theorem Database.row_write_self : (d.write ⟨k, v⟩).row k = v := Function.update_self ..

theorem Database.row_write_ne (h : k' ≠ k) : (d.write ⟨k, v⟩).row k' = d.row k' :=
  Function.update_of_ne h ..

theorem Database.write_same {v : Option (V k)} (hk : k ∈ d.keys) (h : d.row k = v) :
    d.write ⟨k, v⟩ = d := by
  have hrow : Function.update d.row k v = d.row := by rw [← h, Function.update_eq_self]
  have hkeys : d.addKey k = d := by simp [Database.addKey, hk]
  unfold Database.write
  simp only [hkeys, hrow]

theorem Database.writeAll_same {ks : List K} (hks : ∀ k ∈ ks, k ∈ d.keys) :
    d.writeAll (lockWrites d ks) = d := by
  induction ks with
  | nil => rfl
  | cons k ks ih =>
    obtain ⟨hk, hks⟩ := List.forall_mem_cons.1 hks
    have hhead : d.write ⟨k, d.row k⟩ = d := d.write_same hk rfl
    have hrest : d.writeAll (lockWrites d (k :: ks)) =
        (d.write ⟨k, d.row k⟩).writeAll (lockWrites d ks) := rfl
    rw [hrest, hhead, ih hks]

theorem Database.mem_keys_write : k' ∈ (d.write ⟨k, v⟩).keys ↔ k' ∈ d.keys ∨ k' = k :=
  Database.mem_addKey

def Database.KeysGrow (d d' : Database K V) : Prop :=
  ∃ new, d'.keys = d.keys ++ new ∧ ∀ k ∈ new, k ∉ d.keys

variable {d} {d' d'' : Database K V}

omit [DecidableEq K] in
theorem Database.KeysGrow.refl : d.KeysGrow d := ⟨[], by simp⟩

omit [DecidableEq K] in
theorem Database.KeysGrow.trans (h : d.KeysGrow d') (h' : d'.KeysGrow d'') : d.KeysGrow d'' := by
  obtain ⟨new, hkeys, hnew⟩ := h
  obtain ⟨new', hkeys', hnew'⟩ := h'
  refine ⟨new ++ new', by rw [hkeys', hkeys, List.append_assoc], fun k hk => ?_⟩
  cases List.mem_append.1 hk with
  | inl hk => exact hnew k hk
  | inr hk => exact fun hold => hnew' k hk (hkeys ▸ List.mem_append_left _ hold)

theorem Database.KeysGrow.write (w : Write V) : d.KeysGrow (d.write w) := by
  by_cases hk : w.1 ∈ d.keys
  · exact ⟨[], by simp [Database.write, Database.addKey, hk]⟩
  · exact ⟨[w.1], by simp [Database.write, Database.addKey, hk]⟩

theorem Database.KeysGrow.writeAll (ws : List (Write V)) : d.KeysGrow (d.writeAll ws) := by
  induction ws generalizing d with
  | nil => exact .refl
  | cons w ws ih => exact (KeysGrow.write w).trans ih

end Rows

section Runs

variable {p : Program K V E α} {inps rest : List (Input K)} {d d' : Database K V}
  {res : Except E α}

theorem Program.alone_keysGrow (h : p.alone inps d = some (res, rest, d')) : d.KeysGrow d' := by
  induction p generalizing inps d with
  | done a =>
    cases h
    exact .refl
  | fail e =>
    cases h
    exact .refl
  | stmt s next ih =>
    cases inps with
    | nil => cases h
    | cons inp inps =>
      unfold Program.alone at h
      split at h
      · exact (Database.KeysGrow.writeAll _).trans (ih _ h)
      · cases h

theorem Program.transact_keysGrow (h : p.transact inps d = some (res, d')) : d.KeysGrow d' := by
  unfold Program.transact at h
  split at h
  · next hrun =>
      cases h
      exact Program.alone_keysGrow hrun
  · next hrun =>
      cases h
      obtain ⟨new, hkeys⟩ := Program.alone_keysGrow hrun
      exact ⟨new, hkeys⟩
  · cases h

structure Database.Tidy (d : Database K V) : Prop where
  nodup : d.keys.Nodup
  absent : ∀ k ∉ d.keys, d.row k = none

theorem Database.Tidy.write (h : d.Tidy) (w : Write V) : (d.write w).Tidy := by
  obtain ⟨k, v⟩ := w
  constructor
  · by_cases hk : k ∈ d.keys
    · simpa [Database.write, Database.addKey, hk] using h.nodup
    · simpa [Database.write, Database.addKey, hk, List.nodup_append] using
        ⟨h.nodup, fun k' hk' he => hk (he ▸ hk')⟩
  · intro k' hk'
    rw [d.mem_keys_write, not_or] at hk'
    rw [d.row_write_ne _ hk'.2, h.absent k' hk'.1]

theorem Database.Tidy.writeAll (h : d.Tidy) (ws : List (Write V)) : (d.writeAll ws).Tidy := by
  induction ws generalizing d with
  | nil => exact h
  | cons w ws ih => exact ih (h.write w)

theorem Program.alone_tidy (hd : d.Tidy) (h : p.alone inps d = some (res, rest, d')) :
    d'.Tidy := by
  induction p generalizing inps d with
  | done a =>
    cases h
    exact hd
  | fail e =>
    cases h
    exact hd
  | stmt s next ih =>
    cases inps with
    | nil => cases h
    | cons inp inps =>
      unfold Program.alone at h
      split at h
      · exact ih _ (hd.writeAll _) h
      · cases h

def Undisturbed (inps : List (Input K)) : Prop := ∀ inp ∈ inps, inp.skip = []

theorem Stmt.eval_undisturbed {s : Stmt K V β} {inp : Input K} {r : β} {ws : List (Write V)}
    (h : s.eval inp d (fun _ => false) = some (r, ws)) :
    ∃ r ws, s.eval { inp with skip := [] } d (fun _ => false) = some (r, ws) := by
  cases s with
  | skipLocked query limit => exact ⟨_, _, rfl⟩
  | _ => exact ⟨r, ws, h⟩

end Runs

def Program.Ends (Q : Except E α → Database K V → Prop) :
    Program K V E α → Database K V → Prop
  | .done a, d => Q (.ok a) d
  | .fail e, d => Q (.error e) d
  | .stmt s next, d => (∃ inp r ws, s.eval inp d (fun _ => false) = some (r, ws)) ∧
      ∀ inp r ws, s.eval inp d (fun _ => false) = some (r, ws) → (next r).Ends Q (d.writeAll ws)

def Outcome (R : α → Database K V → Prop) (F : E → Database K V → Prop) :
    Except E α → Database K V → Prop
  | .ok a, d => R a d
  | .error e, d => F e d

def Returned (R : α → Database K V → Prop) : Except E α → Database K V → Prop :=
  Outcome R fun _ _ => False

namespace Program.Ends

variable {P Q : Except E α → Database K V → Prop} {R : α → Database K V → Prop}
  {p : Program K V E α} {d d' : Database K V}

theorem mono (hp : p.Ends P d) (h : ∀ res d', P res d' → Q res d') : p.Ends Q d := by
  induction p generalizing d with
  | done a => exact h _ _ hp
  | fail e => exact h _ _ hp
  | stmt s next ih => exact ⟨hp.1, fun inp r ws heval => ih r (hp.2 inp r ws heval)⟩

theorem bind {f : α → Program K V E β} {Q : Except E β → Database K V → Prop} (hp : p.Ends P d)
    (hok : ∀ a d', P (.ok a) d' → (f a).Ends Q d')
    (herror : ∀ e d', P (.error e) d' → Q (.error e) d') : (p >>= f).Ends Q d := by
  induction p generalizing d with
  | done a => exact hok a d hp
  | fail e => exact herror e d hp
  | stmt s next ih => exact ⟨hp.1, fun inp r ws heval => ih r (hp.2 inp r ws heval)⟩

theorem andThen {f : α → Program K V E β} {Q : Except E β → Database K V → Prop}
    (hp : p.Ends (Returned R) d) (hf : ∀ a d', R a d' → (f a).Ends Q d') : (p >>= f).Ends Q d :=
  hp.bind hf fun _ _ h => h.elim

theorem strengthen {R' : α → Database K V → Prop} (hp : p.Ends (Returned R) d)
    (h : ∀ a d', R a d' → R' a d') : p.Ends (Returned R') d := by
  refine hp.mono fun res d' hres => ?_
  cases res with
  | ok a => exact h a d' hres
  | error e => exact hres

theorem exec {s : Stmt K V α} (r : α) (ws : List (Write V))
    (heval : ∀ inp, s.eval inp d (fun _ => false) = some (r, ws))
    (h : Q (.ok r) (d.writeAll ws)) : (Program.exec s : Program K V E α).Ends Q d := by
  refine ⟨⟨⟨0, 0, []⟩, r, ws, heval _⟩, fun inp r' ws' heval' => ?_⟩
  rw [heval inp] at heval'
  cases heval'
  exact h

theorem select {query : Database K V → α} (h : Q (.ok (query d)) d) :
    (Program.exec (.select query) : Program K V E α).Ends Q d :=
  exec _ [] (fun _ => rfl) h

theorem readThen {query : Database K V → β} {f : β → Program K V E α}
    (h : (f (query d)).Ends Q d) : (Program.exec (.select query) >>= f).Ends Q d :=
  andThen (R := fun b d' => b = query d ∧ d' = d) (select ⟨rfl, rfl⟩) fun _ _ h' => h'.1 ▸ h'.2 ▸ h

theorem acquire {k : K} {Q : Except E Unit → Database K V → Prop}
    (h : Q (.ok ()) (d.write ⟨k, d.row k⟩)) :
    (Program.exec (.acquire k) : Program K V E Unit).Ends Q d :=
  exec () [⟨k, d.row k⟩] (fun _ => rfl) h

theorem clock {Q : Except E Int → Database K V → Prop} (h : ∀ c, 0 ≤ c → Q (.ok c) d) :
    (Program.exec .clock : Program K V E Int).Ends Q d := by
  refine ⟨⟨⟨0, 0, []⟩, 0, [], rfl⟩, fun inp c ws heval => ?_⟩
  simp only [Stmt.eval] at heval
  split at heval
  · next hpos =>
      cases heval
      exact h _ hpos
  · cases heval

theorem fresh {key : ℕ → K} {Q : Except E ℕ → Database K V → Prop} (hkey : key.Injective)
    (h : ∀ n, key n ∉ d.keys → Q (.ok n) (d.write ⟨key n, none⟩)) :
    (Program.exec (.fresh key) : Program K V E ℕ).Ends Q d := by
  constructor
  · obtain ⟨k, ⟨n, rfl⟩, hn⟩ :=
      (Set.infinite_range_of_injective hkey).exists_notMem_finset d.keys.toFinset
    rw [List.mem_toFinset] at hn
    exact ⟨⟨0, n, []⟩, n, [⟨key n, none⟩], if_neg hn⟩
  · intro inp n ws heval
    simp only [Stmt.eval] at heval
    split at heval
    · cases heval
    · next hn =>
        cases heval
        exact h _ hn

theorem lock {k : K} {p : V k → Bool} {Q : Except E (Option (V k)) → Database K V → Prop}
    (hsome : ∀ v, d.row k = some v → p v = true → Q (.ok (some v)) (d.write ⟨k, some v⟩))
    (hnone : Q (.ok none) d) :
    (Program.exec (.lock k p) : Program K V E (Option (V k))).Ends Q d := by
  cases hrow : d.row k with
  | none => exact exec none [] (fun _ => by simp only [Stmt.eval, hrow]) hnone
  | some v =>
    cases hp : p v with
    | false => exact exec none [] (fun _ => by simp [Stmt.eval, hrow, hp]) hnone
    | true =>
      exact exec (some v) [⟨k, some v⟩] (fun _ => by simp [Stmt.eval, hrow, hp]) (hsome v hrow hp)

theorem update {k : K} {p : V k → Bool} {set : V k → V k}
    {Q : Except E (Option (V k)) → Database K V → Prop}
    (hsome : ∀ v, d.row k = some v → p v = true →
      Q (.ok (some (set v))) (d.write ⟨k, some (set v)⟩))
    (hnone : (∀ v, d.row k = some v → p v = false) → Q (.ok none) d) :
    (Program.exec (.update k p set) : Program K V E (Option (V k))).Ends Q d := by
  cases hrow : d.row k with
  | none => exact exec none [] (fun _ => by simp only [Stmt.eval, hrow]) (hnone (by simp [hrow]))
  | some v =>
    cases hp : p v with
    | false =>
      exact exec none [] (fun _ => by simp [Stmt.eval, hrow, hp]) (hnone (by simp [hrow, hp]))
    | true =>
      exact exec (some (set v)) [⟨k, some (set v)⟩] (fun _ => by simp [Stmt.eval, hrow, hp])
        (hsome v hrow hp)

theorem insert {k : K} {v : V k} {Q : Except E Bool → Database K V → Prop}
    (hnew : d.row k = none → Q (.ok true) (d.write ⟨k, some v⟩))
    (hold : d.row k ≠ none → Q (.ok false) d) :
    (Program.exec (.insert k v) : Program K V E Bool).Ends Q d := by
  cases hrow : d.row k with
  | none =>
    exact exec true [⟨k, some v⟩] (fun _ => by simp only [Stmt.eval, hrow]) (hnew hrow)
  | some w => exact exec false [] (fun _ => by simp only [Stmt.eval, hrow]) (hold (by simp [hrow]))

theorem upsert {k : K} {v : V k} {set : V k → V k} {Q : Except E Unit → Database K V → Prop}
    (h : ∀ v', Q (.ok ()) (d.write ⟨k, some v'⟩)) :
    (Program.exec (.upsert k v set) : Program K V E Unit).Ends Q d := by
  cases hrow : d.row k with
  | none => exact exec () [⟨k, some v⟩] (fun _ => by simp only [Stmt.eval, hrow]) (h v)
  | some w =>
    exact exec () [⟨k, some (set w)⟩] (fun _ => by simp only [Stmt.eval, hrow]) (h (set w))

theorem delete {k : K} {p : V k → Bool} {Q : Except E Bool → Database K V → Prop}
    (hsome : ∀ v, d.row k = some v → p v = true → Q (.ok true) (d.write ⟨k, none⟩))
    (hnone : (∀ v, d.row k = some v → p v = false) → Q (.ok false) d) :
    (Program.exec (.delete k p) : Program K V E Bool).Ends Q d := by
  cases hrow : d.row k with
  | none => exact exec false [] (fun _ => by simp only [Stmt.eval, hrow]) (hnone (by simp [hrow]))
  | some v =>
    cases hp : p v with
    | false =>
      exact exec false [] (fun _ => by simp [Stmt.eval, hrow, hp]) (hnone (by simp [hrow, hp]))
    | true =>
      exact exec true [⟨k, none⟩] (fun _ => by simp [Stmt.eval, hrow, hp]) (hsome v hrow hp)

theorem skipLocked {query : Database K V → List (K × β)} {limit : ℕ}
    {Q : Except E (List β) → Database K V → Prop}
    (h : ∀ rows : List (K × β), rows.Sublist (query d) → rows.length ≤ limit →
      Q (.ok (rows.map Prod.snd)) (d.writeAll (lockWrites d (rows.map Prod.fst)))) :
    (Program.exec (.skipLocked query limit) : Program K V E (List β)).Ends Q d := by
  refine ⟨⟨⟨0, 0, []⟩, _, _, rfl⟩, fun inp r ws heval => ?_⟩
  cases heval
  have hlocks : ∀ rows : List (K × β), (rows.map fun r => ⟨r.1, d.row r.1⟩ : List (Write V)) =
      lockWrites d (rows.map Prod.fst) := fun rows => by simp [lockWrites, Function.comp_def]
  rw [hlocks]
  exact h _ ((List.take_sublist _ _).trans List.filter_sublist) (List.length_take_le _ _)

theorem when {c : Prop} [Decidable c] {p : Program K V E Unit}
    {Q : Except E Unit → Database K V → Prop} (hp : c → p.Ends Q d) (hnot : ¬c → Q (.ok ()) d) :
    (Program.when c p).Ends Q d := by
  unfold Program.when
  split
  · next hc => exact hp hc
  · next hc => exact hnot hc

theorem foldEach (I : List γ → σ → Database K V → Prop) {body : σ → γ → Program K V E σ}
    {Q : Except E σ → Database K V → Prop}
    (hbody : ∀ x rest acc d, I (x :: rest) acc d →
      (body acc x).Ends (Outcome (I rest) fun e => Q (.error e)) d)
    (hend : ∀ acc d, I [] acc d → Q (.ok acc) d) {xs : List γ} {acc : σ} (h : I xs acc d) :
    (Program.foldEach xs acc body).Ends Q d := by
  induction xs generalizing acc d with
  | nil => exact hend acc d h
  | cons x xs ih => exact (hbody x xs acc d h).bind (fun acc' d' h' => ih h') fun e d' h' => h'

theorem forEach (I : List γ → Database K V → Prop) {body : γ → Program K V E Unit}
    {Q : Except E Unit → Database K V → Prop}
    (hbody : ∀ x rest d, I (x :: rest) d →
      (body x).Ends (Outcome (fun _ => I rest) fun e => Q (.error e)) d)
    (hend : ∀ d, I [] d → Q (.ok ()) d) {xs : List γ} (h : I xs d) :
    (Program.forEach xs body).Ends Q d :=
  foldEach (fun rest _ d => I rest d) (fun x rest _ d => hbody x rest d) (fun _ => hend) h

theorem effect {W : Database K V → Write V → Prop} {S : α → Prop} {I : Database K V → Prop}
    (hp : p.Ends Q d) (he : p.Effect W S)
    (hI : ∀ d ws, I d → (∀ w ∈ ws, W d w) → I (d.writeAll ws)) (hd : I d) :
    p.Ends (fun res d' => Q res d' ∧ I d' ∧ ∀ a, res = .ok a → S a) d := by
  induction p generalizing d with
  | done a => exact ⟨hp, hd, fun _ h => by cases h; exact he⟩
  | fail e => exact ⟨hp, hd, fun _ h => by cases h⟩
  | stmt s next ih =>
    refine ⟨hp.1, fun inp r ws heval => ?_⟩
    obtain ⟨hws, hnext⟩ := he inp d _ r ws heval
    exact ih r (hp.2 inp r ws heval) hnext (hI d ws hd hws)

theorem alone (hp : p.Ends Q d) {inps rest : List (Input K)} {res : Except E α}
    (h : p.alone inps d = some (res, rest, d')) : Q res d' := by
  induction p generalizing inps d with
  | done a =>
    cases h
    exact hp
  | fail e =>
    cases h
    exact hp
  | stmt s next ih =>
    cases inps with
    | nil => cases h
    | cons inp inps =>
      unfold Program.alone at h
      split at h
      · next r ws heval => exact ih r (hp.2 inp r ws heval) h
      · cases h

theorem exists_alone (hp : p.Ends Q d) :
    ∃ inps res rest d', p.alone inps d = some (res, rest, d') := by
  induction p generalizing d with
  | done a => exact ⟨[], _, _, _, rfl⟩
  | fail e => exact ⟨[], _, _, _, rfl⟩
  | stmt s next ih =>
    obtain ⟨inp, r, ws, heval⟩ := hp.1
    obtain ⟨inps, res, rest, d', h⟩ := ih r (hp.2 inp r ws heval)
    exact ⟨inp :: inps, res, rest, d', by simpa only [Program.alone, heval] using h⟩

theorem exists_undisturbed (hp : p.Ends Q d) : ∃ inps res rest d', Undisturbed inps ∧
    p.alone inps d = some (res, rest, d') := by
  induction p generalizing d with
  | done a => exact ⟨[], _, _, _, fun _ h => (List.not_mem_nil h).elim, rfl⟩
  | fail e => exact ⟨[], _, _, _, fun _ h => (List.not_mem_nil h).elim, rfl⟩
  | stmt s next ih =>
    obtain ⟨inp, _, _, heval⟩ := hp.1
    obtain ⟨r, ws, heval⟩ := Stmt.eval_undisturbed heval
    obtain ⟨inps, res, rest, d', hinps, h⟩ := ih r (hp.2 _ r ws heval)
    refine ⟨{ inp with skip := [] } :: inps, res, rest, d', ?_, ?_⟩
    · exact List.forall_mem_cons.2 ⟨rfl, hinps⟩
    · simpa only [Program.alone, heval] using h

theorem alone_andThen {f : α → Program K V E β} {inps rest : List (Input K)} {res : Except E β}
    (hp : p.Ends (Returned R) d) (h : (p >>= f).alone inps d = some (res, rest, d')) :
    ∃ a mid d₁, p.alone inps d = some (.ok a, mid, d₁) ∧ R a d₁ ∧
      (f a).alone mid d₁ = some (res, rest, d') := by
  rw [Program.alone_bind] at h
  split at h
  · next a mid d₁ hrun => exact ⟨a, mid, d₁, hrun, hp.alone hrun, h⟩
  · next e mid d₁ hrun => exact (hp.alone hrun).elim
  · cases h

/-- The transaction keeps its rows where it returns, and leaves all rows as they were where
it fails. -/
theorem transact (hp : p.Ends Q d) :
    (∃ inps out, p.transact inps d = some out) ∧
      ∀ inps res d', p.transact inps d = some (res, d') →
        (∃ a, res = .ok a ∧ Q (.ok a) d') ∨
          ∃ e d'', res = .error e ∧ Q (.error e) d'' ∧ d'.row = d.row := by
  constructor
  · obtain ⟨inps, res, rest, d', h⟩ := hp.exists_alone
    refine ⟨inps, ?_⟩
    unfold Program.transact
    cases res with
    | ok a => exact ⟨_, by rw [h]⟩
    | error e => exact ⟨_, by rw [h]⟩
  · intro inps res d' h
    unfold Program.transact at h
    split at h
    · next a rest d₁ hrun =>
        cases h
        exact .inl ⟨a, rfl, hp.alone hrun⟩
    · next e rest d₁ hrun =>
        cases h
        exact .inr ⟨e, d₁, rfl, hp.alone hrun, rfl⟩
    · cases h

end Program.Ends

end GoScheduler.ReadCommitted
