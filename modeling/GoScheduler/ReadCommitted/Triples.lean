import GoScheduler.ReadCommitted.Alone
import GoScheduler.ReadCommitted.Discipline

/-! Rules for programs under a discipline. An assertion is about the rows a transaction
holds and the committed rows; it may stand before a statement when interference keeps
it. There is one rule for each statement, one for sequence and one for loops. -/
namespace GoScheduler.ReadCommitted

def Overlay.Rowwise {K : Type} {V : K → Type} (R : (k : K) → Option (V k) → Option (V k) → Prop)
    (o : Overlay V) : Prop := ∀ k h, o k = some h → R k h.base h.version

theorem Overlay.writeAll_cases {K : Type} {V : K → Type} [DecidableEq K] {o : Overlay V}
    {d : Database K V} (ha : o.Agrees d) (ws : List (Write V)) (k : K) :
    o.writeAll d ws k = o k ∨ ∃ v, ⟨k, v⟩ ∈ ws ∧ o.writeAll d ws k = some ⟨d.row k, v⟩ := by
  induction ws generalizing o with
  | nil => exact .inl rfl
  | cons w ws ih =>
    rcases ih (ha.write w.1 w.2) with h | ⟨v, hv, h⟩
    · by_cases hk : k = w.1
      · subst hk
        refine .inr ⟨w.2, List.mem_cons_self, h.trans ?_⟩
        exact Overlay.write_self_of_agrees ha _ _
      · exact .inl (h.trans (Overlay.write_ne hk))
    · exact .inr ⟨v, List.mem_cons_of_mem _ hv, h⟩

theorem Overlay.held_again {K : Type} {V : K → Type} {o : Overlay V} {d : Database K V}
    (ha : o.Agrees d) {k : K} {h : Held (V k)} (hk : o k = some h) :
    (some ⟨d.row k, (d.overlay o).row k⟩ : Option (Held (V k))) = o k := by
  rw [Database.overlay_row_held hk, ha k h hk, hk]

namespace Discipline

variable {T K : Type} {V : K → Type} {E α β γ σ : Type} [DecidableEq K]
variable (D : Discipline T K V) (t : T)

def Stable (A : Overlay V → Database K V → Prop) : Prop :=
  ∀ o d d', D.Hop t o d d' → A o d → A o d'

def Triple (A : Overlay V → Database K V → Prop) (p : Program K V E α)
    (Q : α → Overlay V → Database K V → Prop) : Prop :=
  ∀ o d, D.inv d → o.Agrees d → A o d → D.Safe t Q p o d

variable {D t} {A B : Overlay V → Database K V → Prop}
  {Q Q' : α → Overlay V → Database K V → Prop}

theorem Stable.overlay (P : Overlay V → Prop) : D.Stable t fun o _ => P o :=
  fun _ _ _ _ h => h

theorem Stable.and (hA : D.Stable t A) (hB : D.Stable t B) :
    D.Stable t fun o d => A o d ∧ B o d :=
  fun o d d' hop h => ⟨hA o d d' hop h.1, hB o d d' hop h.2⟩

theorem Stable.given {P : Prop} (hA : P → D.Stable t A) : D.Stable t fun o d => P → A o d :=
  fun o d d' hop h hp => hA hp o d d' hop (h hp)

theorem Stable.later (hA : D.Stable t A) {o : Overlay V} {d d' : Database K V}
    (hl : D.Later t o d d') (h : A o d) : A o d' := by
  induction hl with
  | refl => exact h
  | tail _ hop ih => exact hA o _ _ hop ih

def Blind (watched : K → Bool) (A : Overlay V → Database K V → Prop) : Prop :=
  ∀ o o' d d', (∀ k, watched k = true → o' k = o k) → d'.row = d.row → A o d → A o' d'

section Blind

variable {watched : K → Bool} {o : Overlay V} {d : Database K V}

omit [DecidableEq K] in
theorem Blind.and (hA : Blind watched A) (hB : Blind watched B) :
    Blind watched fun o d => A o d ∧ B o d :=
  fun o o' d d' hkeys hrow h => ⟨hA o o' d d' hkeys hrow h.1, hB o o' d d' hkeys hrow h.2⟩

theorem Blind.write (hA : Blind watched A) {k : K} (hk : watched k = false) (v : Option (V k))
    (h : A o d) : A (o.write d k v) (d.addKey k) := by
  refine hA o _ d _ (fun k' hk' => Overlay.write_ne ?_) rfl h
  rintro rfl
  rw [hk] at hk'
  cases hk'

theorem Blind.locks (hA : Blind watched A) (ha : o.Agrees d) {ks : List K}
    (hks : ∀ k ∈ ks, watched k = false) (h : A o d) :
    A (o.writeAll d (lockWrites (d.overlay o) ks)) (d.addKeys (lockWrites (d.overlay o) ks)) := by
  refine hA o _ d _ (fun k hk => ?_) (Database.addKeys_row _ _) h
  rw [Overlay.writeAll_lockWrites ha, if_neg fun hmem => ?_]
  rw [hks k hmem] at hk
  cases hk

end Blind

theorem Safe.weaken {p : Program K V E α} {o : Overlay V} {d : Database K V}
    (hinv : D.inv d) (ha : o.Agrees d)
    (hQ : ∀ a o d, D.inv d → o.Agrees d → Q a o d → Q' a o d)
    (h : D.Safe t Q p o d) : D.Safe t Q' p o d := by
  induction p generalizing o d with
  | done a => exact hQ a o d hinv ha h
  | fail e => trivial
  | stmt s next ih =>
    intro d' hl hi hag hc inp busy r ws hrd heval hfree hal
    refine ih r (inv_addKeys ws hi) ?_ (h d' hl hi hag hc inp busy r ws hrd heval hfree hal)
    simpa [Overlay.Agrees] using hag.writeAll ws

theorem Safe.bind {p : Program K V E α} {f : α → Program K V E β}
    {Q₁ : β → Overlay V → Database K V → Prop} {o : Overlay V} {d : Database K V}
    (hinv : D.inv d) (ha : o.Agrees d) (h : D.Safe t Q p o d)
    (hf : ∀ a o d, D.inv d → o.Agrees d → Q a o d → D.Safe t Q₁ (f a) o d) :
    D.Safe t Q₁ (p >>= f) o d := by
  induction p generalizing o d with
  | done a => exact hf a o d hinv ha h
  | fail e => trivial
  | stmt s next ih =>
    intro d' hl hi hag hc inp busy r ws hrd heval hfree hal
    refine ih r (inv_addKeys ws hi) ?_ (h d' hl hi hag hc inp busy r ws hrd heval hfree hal)
    simpa [Overlay.Agrees] using hag.writeAll ws

theorem Safe.and {p : Program K V E α} {o : Overlay V} {d : Database K V}
    (h : D.Safe t Q p o d) (h' : D.Safe t Q' p o d) :
    D.Safe t (fun a o d => Q a o d ∧ Q' a o d) p o d := by
  induction p generalizing o d with
  | done a => exact ⟨h, h'⟩
  | fail e => trivial
  | stmt s next ih =>
    intro d' hl hi hag hc inp busy r ws hrd heval hfree hal
    exact ih r (h d' hl hi hag hc inp busy r ws hrd heval hfree hal)
      (h' d' hl hi hag hc inp busy r ws hrd heval hfree hal)

namespace Triple

theorem pure {a : α} (h : ∀ o d, D.inv d → o.Agrees d → A o d → Q a o d) :
    D.Triple t A (Pure.pure a : Program K V E α) Q := h

theorem done {a : α} : D.Triple t A (Pure.pure a : Program K V E α) fun _ => A :=
  fun _ _ _ _ h => h

theorem fail {e : E} : D.Triple t A (Program.fail e : Program K V E α) Q :=
  fun _ _ _ _ _ => trivial

theorem bind {p : Program K V E α} {f : α → Program K V E β}
    {Q₁ : β → Overlay V → Database K V → Prop} (hp : D.Triple t A p Q)
    (hf : ∀ a, D.Triple t (Q a) (f a) Q₁) : D.Triple t A (p >>= f) Q₁ :=
  fun o d hinv ha h => (hp o d hinv ha h).bind hinv ha fun a o' d' hi hag hq =>
    hf a o' d' hi hag hq

theorem map {p : Program K V E α} {f : α → β} {Q₁ : β → Overlay V → Database K V → Prop}
    (hp : D.Triple t A p fun a => Q₁ (f a)) : D.Triple t A (f <$> p) Q₁ :=
  bind hp fun _ _ _ _ _ h => h

theorem weaken {p : Program K V E α} (hp : D.Triple t A p Q)
    (hQ : ∀ a o d, D.inv d → o.Agrees d → Q a o d → Q' a o d) : D.Triple t A p Q' :=
  fun o d hinv ha h => (hp o d hinv ha h).weaken hinv ha hQ

theorem strengthen {p : Program K V E α} (hp : D.Triple t A p Q)
    (hA : ∀ o d, D.inv d → o.Agrees d → B o d → A o d) : D.Triple t B p Q :=
  fun o d hinv ha h => hp o d hinv ha (hA o d hinv ha h)

theorem found {p : Program K V E (Option α)} {f : Option α → Program K V E β}
    {B : α → Overlay V → Database K V → Prop} {Q₁ : β → Overlay V → Database K V → Prop}
    (hp : D.Triple t A p fun r o d => ∀ x, r = some x → B x o d)
    (hnone : D.Triple t (fun _ _ => True) (f none) Q₁)
    (hsome : ∀ x, D.Triple t (B x) (f (some x)) Q₁) :
    D.Triple t A (p >>= f) Q₁ := by
  refine bind hp fun r => ?_
  cases r with
  | none => exact hnone.strengthen fun _ _ _ _ _ => trivial
  | some x => exact (hsome x).strengthen fun _ _ _ _ h => h x rfl

theorem and {p : Program K V E α} (hp : D.Triple t A p Q) (hp' : D.Triple t A p Q') :
    D.Triple t A p fun a o d => Q a o d ∧ Q' a o d :=
  fun o d hinv ha h => (hp o d hinv ha h).and (hp' o d hinv ha h)

theorem given {P : Prop} {p : Program K V E α} (hp : P → D.Triple t A p Q) :
    D.Triple t (fun o d => P ∧ A o d) p Q :=
  fun o d hinv ha h => hp h.1 o d hinv ha h.2

theorem introduce {ι : Sort*} {A : ι → Overlay V → Database K V → Prop} {p : Program K V E α}
    (hp : ∀ i, D.Triple t (A i) p Q) : D.Triple t (fun o d => ∃ i, A i o d) p Q :=
  fun o d hinv ha h => h.elim fun i hi => hp i o d hinv ha hi

theorem when {c : Prop} [Decidable c] {p : Program K V E Unit}
    (hp : c → D.Triple t A p fun _ => A) : D.Triple t A (Program.when c p) fun _ => A := by
  unfold Program.when
  split
  · next h => exact hp h
  · exact fun _ _ _ _ ha => ha

theorem foldEach {J : List γ → σ → Overlay V → Database K V → Prop}
    {body : σ → γ → Program K V E σ}
    (hbody : ∀ x xs acc, D.Triple t (J (x :: xs) acc) (body acc x) (J xs)) (xs : List γ)
    (acc : σ) : D.Triple t (J xs acc) (Program.foldEach xs acc body) (J []) := by
  induction xs generalizing acc with
  | nil => exact fun _ _ _ _ h => h
  | cons x xs ih => exact bind (hbody x xs acc) ih

theorem forEach_rest {J : List γ → Overlay V → Database K V → Prop}
    {body : γ → Program K V E Unit}
    (hbody : ∀ x xs, D.Triple t (J (x :: xs)) (body x) fun _ => J xs) (xs : List γ) :
    D.Triple t (J xs) (Program.forEach xs body) fun _ => J [] :=
  foldEach (J := fun xs _ => J xs) (fun x xs _ => hbody x xs) xs ()

theorem forEach {body : γ → Program K V E Unit} {xs : List γ}
    (hbody : ∀ x ∈ xs, D.Triple t A (body x) fun _ => A) :
    D.Triple t A (Program.forEach xs body) fun _ => A := by
  unfold Program.forEach
  induction xs with
  | nil => exact fun _ _ _ _ h => h
  | cons x xs ih =>
    exact bind (hbody x List.mem_cons_self) fun _ =>
      ih fun y hy => hbody y (List.mem_cons_of_mem _ hy)

theorem steps {W : Database K V → Write V → Prop} {S : α → Prop} {p : Program K V E α}
    (he : p.Effect W S) (hA : D.Stable t A)
    (hstep : ∀ o d ws, D.inv d → o.Agrees d → A o d → (∀ w ∈ ws, W (d.overlay o) w) →
      A (o.writeAll d ws) (d.addKeys ws)) :
    D.Triple t A p fun a o d => A o d ∧ S a := by
  have hsafe : ∀ o d, A o d → D.Safe t (fun a o d => A o d ∧ S a) p o d := by
    induction p with
    | done a => exact fun _ _ h => ⟨h, he⟩
    | fail e => exact fun _ _ _ => trivial
    | stmt s next ih =>
      intro o d h d' hl hi hag _ inp busy r ws _ heval _ _
      obtain ⟨hws, hnext⟩ := he inp _ busy r ws heval
      exact ih r hnext _ _ (hstep o d' ws hi hag (hA.later hl h) hws)
  exact fun o d _ _ h => hsafe o d h

theorem effect {W : Database K V → Write V → Prop} {S : α → Prop} {I : Overlay V → Prop}
    {p : Program K V E α} (he : p.Effect W S)
    (hI : ∀ o d ws, o.Agrees d → I o → (∀ w ∈ ws, W (d.overlay o) w) → I (o.writeAll d ws)) :
    D.Triple t (fun o _ => I o) p fun a o _ => I o ∧ S a :=
  steps he (.overlay I) fun o d ws _ ha h hws => hI o d ws ha h hws

theorem rowwise {W : Database K V → Write V → Prop} {S : α → Prop}
    {R : (k : K) → Option (V k) → Option (V k) → Prop} {p : Program K V E α} (he : p.Effect W S)
    (hrefl : ∀ k v, R k v v)
    (hR : ∀ (d : Database K V) k v b, W d ⟨k, v⟩ → R k b (d.row k) → R k b v) :
    D.Triple t (fun o _ => o.Rowwise R) p fun a o _ => o.Rowwise R ∧ S a := by
  refine effect he fun o d ws ha hrows hws k h hk => ?_
  rcases Overlay.writeAll_cases ha ws k with hsame | ⟨v, hv, hnew⟩
  · exact hrows k h (hsame.symm.trans hk)
  · rw [hnew] at hk
    cases hk
    refine hR _ k v _ (hws _ hv) ?_
    cases hold : o k with
    | none =>
      rw [Database.overlay_row_free hold]
      exact hrefl k _
    | some h' =>
      rw [Database.overlay_row_held hold, ha k h' hold]
      exact hrows k h' hold

theorem holds {W : Database K V → Write V → Prop} {S : α → Prop} {k : K} {b : Option (V k)}
    {G : Option (V k) → Prop} {p : Program K V E α} (he : p.Effect W S)
    (hG : ∀ (d : Database K V) v, W d ⟨k, v⟩ → G (d.row k) → G v) :
    D.Triple t (fun o _ => ∃ v, o k = some ⟨b, v⟩ ∧ G v) p
      fun _ o _ => ∃ v, o k = some ⟨b, v⟩ ∧ G v := by
  refine (effect he fun o d ws ha hk hws => ?_).weaken fun a o d _ _ h => h.1
  obtain ⟨v₀, hv₀, hG₀⟩ := hk
  rcases Overlay.writeAll_cases ha ws k with hsame | ⟨v, hv, hnew⟩
  · exact ⟨v₀, hsame.trans hv₀, hG₀⟩
  · refine ⟨v, by rw [hnew, ha k _ hv₀], hG _ v (hws _ hv) ?_⟩
    rw [Database.overlay_row_held hv₀]
    exact hG₀

theorem exec {s : Stmt K V α} (hA : D.Stable t A)
    (h : ∀ o d, D.inv d → o.Agrees d → o.Covered d → A o d → ∀ inp busy r ws,
      D.reading t d inp.reading → s.eval inp (d.overlay o) busy = some (r, ws) →
      (∀ w ∈ ws, busy w.1 = false) → D.alone t (d.addKeys ws) (o.writeAll d ws) →
      Q r (o.writeAll d ws) (d.addKeys ws)) :
    D.Triple t A (Program.exec s : Program K V E α) Q :=
  fun _ _ _ _ ha d' hl hi hag hc inp busy r ws hrd heval hfree hal =>
    h _ d' hi hag hc (hA.later hl ha) inp busy r ws hrd heval hfree hal

theorem select {query : Database K V → α} (hA : D.Stable t A)
    (h : ∀ o d, D.inv d → o.Agrees d → o.Covered d → A o d → Q (query (d.overlay o)) o d) :
    D.Triple t A (Program.exec (.select query) : Program K V E α) Q := by
  refine exec hA fun o d hi hag hc ha inp busy r ws _ heval _ _ => ?_
  simp only [Stmt.eval, Option.some.injEq, Prod.mk.injEq] at heval
  obtain ⟨rfl, rfl⟩ := heval
  exact h o d hi hag hc ha

theorem read {query : Database K V → α} (hA : D.Stable t A) :
    D.Triple t A (Program.exec (.select query) : Program K V E α) fun _ => A :=
  select hA fun _ _ _ _ _ h => h

theorem note {query : Database K V → α} {marks : α → List K} (hA : D.Stable t A)
    (h : ∀ o d, D.inv d → o.Agrees d → o.Covered d → A o d →
      D.alone t (d.addKeys (lockWrites (d.overlay o) (marks (query (d.overlay o)))))
        (o.writeAll d (lockWrites (d.overlay o) (marks (query (d.overlay o))))) →
      Q (query (d.overlay o))
        (o.writeAll d (lockWrites (d.overlay o) (marks (query (d.overlay o)))))
        (d.addKeys (lockWrites (d.overlay o) (marks (query (d.overlay o)))))) :
    D.Triple t A (Program.exec (.note query marks) : Program K V E α) Q := by
  refine exec hA fun o d hi hag hc ha inp busy r ws _ heval _ hal => ?_
  simp only [Stmt.eval, Option.some.injEq, Prod.mk.injEq] at heval
  obtain ⟨rfl, rfl⟩ := heval
  exact h o d hi hag hc ha hal

theorem clock {Q : Int → Overlay V → Database K V → Prop} (hA : D.Stable t A)
    (h : ∀ o d c, D.inv d → o.Agrees d → A o d → 0 ≤ c → D.reading t d c → Q c o d) :
    D.Triple t A (Program.exec .clock : Program K V E Int) Q := by
  refine exec hA fun o d hi hag _ ha inp busy r ws hrd heval _ _ => ?_
  simp only [Stmt.eval] at heval
  split at heval
  · next hc =>
      cases heval
      exact h o d _ hi hag ha hc hrd
  · cases heval

theorem fresh {Q : ℕ → Overlay V → Database K V → Prop} {key : ℕ → K} (hA : D.Stable t A)
    (h : ∀ o d u, D.inv d → o.Agrees d → o.Covered d → A o d → key u ∉ d.keys →
      D.alone t (d.addKey (key u)) (o.write d (key u) none) →
      Q u (o.write d (key u) none) (d.addKey (key u))) :
    D.Triple t A (Program.exec (.fresh key) : Program K V E ℕ) Q := by
  refine exec hA fun o d hi hag hc ha inp busy r ws _ heval _ hal => ?_
  simp only [Stmt.eval] at heval
  split at heval
  · cases heval
  · next hk =>
      cases heval
      exact h o d _ hi hag hc ha hk hal

theorem acquire {Q : Unit → Overlay V → Database K V → Prop} {k : K} (hA : D.Stable t A)
    (h : ∀ o d, D.inv d → o.Agrees d → A o d →
      D.alone t (d.addKey k) (o.write d k ((d.overlay o).row k)) →
      Q () (o.write d k ((d.overlay o).row k)) (d.addKey k)) :
    D.Triple t A (Program.exec (.acquire k) : Program K V E Unit) Q := by
  refine exec hA fun o d hi hag _ ha inp busy r ws _ heval _ hal => ?_
  simp only [Stmt.eval, Option.some.injEq, Prod.mk.injEq] at heval
  obtain ⟨_, rfl⟩ := heval
  exact h o d hi hag ha hal

theorem lock {k : K} {p : V k → Bool} {Q : Option (V k) → Overlay V → Database K V → Prop}
    (hA : D.Stable t A)
    (hnone : ∀ o d, D.inv d → o.Agrees d → A o d →
      (∀ v, (d.overlay o).row k = some v → p v = false) → Q none o d)
    (hsome : ∀ o d v, D.inv d → o.Agrees d → A o d → (d.overlay o).row k = some v →
      p v = true → D.alone t (d.addKey k) (o.write d k (some v)) →
        Q (some v) (o.write d k (some v)) (d.addKey k)) :
    D.Triple t A (Program.exec (.lock k p) : Program K V E (Option (V k))) Q := by
  refine exec hA fun o d hi hag _ ha inp busy r ws _ heval _ hal => ?_
  simp only [Stmt.eval] at heval
  split at heval
  · next v hv =>
      split at heval
      · next hp =>
          cases heval
          exact hsome o d v hi hag ha hv hp hal
      · next hp =>
          cases heval
          refine hnone o d hi hag ha fun w hw => ?_
          rw [hv, Option.some.injEq] at hw
          simpa [← hw] using hp
  · next hv =>
      cases heval
      exact hnone o d hi hag ha fun w hw => by simp [hv] at hw

theorem update {k : K} {p : V k → Bool} {set : V k → V k}
    {Q : Option (V k) → Overlay V → Database K V → Prop} (hA : D.Stable t A)
    (hnone : ∀ o d, D.inv d → o.Agrees d → A o d →
      (∀ v, (d.overlay o).row k = some v → p v = false) → Q none o d)
    (hsome : ∀ o d v, D.inv d → o.Agrees d → A o d → (d.overlay o).row k = some v →
      p v = true → D.alone t (d.addKey k) (o.write d k (some (set v))) →
      Q (some (set v)) (o.write d k (some (set v))) (d.addKey k)) :
    D.Triple t A (Program.exec (.update k p set) : Program K V E (Option (V k))) Q := by
  refine exec hA fun o d hi hag _ ha inp busy r ws _ heval _ hal => ?_
  simp only [Stmt.eval] at heval
  split at heval
  · next v hv =>
      split at heval
      · next hp =>
          cases heval
          exact hsome o d v hi hag ha hv hp hal
      · next hp =>
          cases heval
          refine hnone o d hi hag ha fun w hw => ?_
          rw [hv, Option.some.injEq] at hw
          simpa [← hw] using hp
  · next hv =>
      cases heval
      exact hnone o d hi hag ha fun w hw => by simp [hv] at hw

theorem insert {k : K} {v : V k} {Q : Bool → Overlay V → Database K V → Prop}
    (hA : D.Stable t A)
    (hfalse : ∀ o d, D.inv d → o.Agrees d → A o d → (d.overlay o).row k ≠ none → Q false o d)
    (htrue : ∀ o d, D.inv d → o.Agrees d → A o d → (d.overlay o).row k = none →
      D.alone t (d.addKey k) (o.write d k (some v)) → Q true (o.write d k (some v)) (d.addKey k)) :
    D.Triple t A (Program.exec (.insert k v) : Program K V E Bool) Q := by
  refine exec hA fun o d hi hag _ ha inp busy r ws _ heval _ hal => ?_
  simp only [Stmt.eval] at heval
  split at heval
  · next w hw =>
      cases heval
      exact hfalse o d hi hag ha (by simp [hw])
  · next hw =>
      cases heval
      exact htrue o d hi hag ha hw hal

theorem upsert {k : K} {v : V k} {set : V k → V k}
    {Q : Unit → Overlay V → Database K V → Prop} (hA : D.Stable t A)
    (h : ∀ o d w, D.inv d → o.Agrees d → A o d → w = ((d.overlay o).row k).elim v set →
      D.alone t (d.addKey k) (o.write d k (some w)) → Q () (o.write d k (some w)) (d.addKey k)) :
    D.Triple t A (Program.exec (.upsert k v set) : Program K V E Unit) Q := by
  refine exec hA fun o d hi hag _ ha inp busy r ws _ heval _ hal => ?_
  simp only [Stmt.eval] at heval
  split at heval
  · next w hw =>
      cases heval
      exact h o d _ hi hag ha (by simp [hw]) hal
  · next hw =>
      cases heval
      exact h o d _ hi hag ha (by simp [hw]) hal

theorem delete {k : K} {p : V k → Bool} {Q : Bool → Overlay V → Database K V → Prop}
    (hA : D.Stable t A)
    (hfalse : ∀ o d, D.inv d → o.Agrees d → A o d →
      (∀ v, (d.overlay o).row k = some v → p v = false) → Q false o d)
    (htrue : ∀ o d v, D.inv d → o.Agrees d → A o d → (d.overlay o).row k = some v →
      p v = true → D.alone t (d.addKey k) (o.write d k none) →
        Q true (o.write d k none) (d.addKey k)) :
    D.Triple t A (Program.exec (.delete k p) : Program K V E Bool) Q := by
  refine exec hA fun o d hi hag _ ha inp busy r ws _ heval _ hal => ?_
  simp only [Stmt.eval] at heval
  split at heval
  · next v hv =>
      split at heval
      · next hp =>
          cases heval
          exact htrue o d v hi hag ha hv hp hal
      · next hp =>
          cases heval
          refine hfalse o d hi hag ha fun w hw => ?_
          rw [hv, Option.some.injEq] at hw
          simpa [← hw] using hp
  · next hv =>
      cases heval
      exact hfalse o d hi hag ha fun w hw => by simp [hv] at hw

theorem skipLocked {query : Database K V → List (K × β)} {limit : ℕ}
    {Q : List β → Overlay V → Database K V → Prop} (hA : D.Stable t A)
    (h : ∀ o d (rows : List (K × β)), D.inv d → o.Agrees d → o.Covered d → A o d →
      rows.Sublist (query (d.overlay o)) →
      D.alone t (d.addKeys (lockWrites (d.overlay o) (rows.map Prod.fst)))
        (o.writeAll d (lockWrites (d.overlay o) (rows.map Prod.fst))) →
      Q (rows.map Prod.snd) (o.writeAll d (lockWrites (d.overlay o) (rows.map Prod.fst)))
        (d.addKeys (lockWrites (d.overlay o) (rows.map Prod.fst)))) :
    D.Triple t A (Program.exec (.skipLocked query limit) : Program K V E (List β)) Q := by
  refine exec hA fun o d hi hag hc ha inp busy r ws _ heval _ hal => ?_
  simp only [Stmt.eval, Option.some.injEq, Prod.mk.injEq] at heval
  generalize hrows : ((query (d.overlay o)).filter _).take limit = rows at heval
  have hsub : rows.Sublist (query (d.overlay o)) := by
    rw [← hrows]
    exact (List.take_sublist limit _).trans List.filter_sublist
  obtain ⟨rfl, rfl⟩ := heval
  have hws : lockWrites (d.overlay o) (rows.map Prod.fst) =
      rows.map fun r => ⟨r.1, (d.overlay o).row r.1⟩ := by
    simp [lockWrites, List.map_map, Function.comp_def]
  rw [← hws] at hal ⊢
  exact h o d rows hi hag hc ha hsub hal

end Triple

end Discipline

end GoScheduler.ReadCommitted
