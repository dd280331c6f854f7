import GoScheduler.ReadCommitted.Machine
import Mathlib.Logic.Relation

/-! Reasoning about one transaction at a time. A discipline names an invariant of the
committed rows and what every transaction guarantees about the rows it holds when it
commits; other transactions interfere only by such commits. A transaction is safe when
it meets the guarantee at its end under all interference, and if every transaction is
safe then the invariant holds in every reachable machine. -/
namespace GoScheduler.ReadCommitted

/-- `inv` is about the committed rows and `guarantee` about a committing transaction.
The other three fields say which runs are considered: what holds of two open
transactions, of one open transaction, and of a statement with its reading of the caller's clock. -/
structure Discipline (T K : Type) (V : K → Type) [DecidableEq K] where
  inv : Database K V → Prop
  guarantee : T → Database K V → Overlay V → Prop
  pair : T → Overlay V → T → Overlay V → Prop
  alone : T → Database K V → Overlay V → Prop
  reading : T → Database K V → Int → Prop
  inv_addKey : ∀ {d : Database K V} (k : K), inv d → inv (d.addKey k)
  inv_advance : ∀ {d : Database K V} (n : ℕ), inv d → inv (d.advance n)
  inv_commit : ∀ {t : T} {d : Database K V} {o : Overlay V}, inv d → o.Agrees d →
    guarantee t d o → inv (d.overlay o)

variable {T K : Type} {V : K → Type} {E R α β γ σ : Type} [DecidableEq K]

namespace Discipline

def free : Discipline T K V where
  inv := fun _ => True
  guarantee := fun _ _ _ => True
  pair := fun _ _ _ _ => True
  alone := fun _ _ _ => True
  reading := fun _ _ _ => True
  inv_addKey := fun _ _ => trivial
  inv_advance := fun _ _ => trivial
  inv_commit := fun _ _ _ => trivial

variable (D : Discipline T K V) (t : T)

/-- What other transactions can do to the committed rows while `t` holds `o`. -/
inductive Interferes (o : Overlay V) : Database K V → Database K V → Prop where
  | commit {d : Database K V} {t' : T} {o' : Overlay V} (ht : t' ≠ t) (hd : o.Disjoint o')
      (hp : D.pair t o t' o') (ha : o'.Agrees d) (hg : D.guarantee t' d o') :
      Interferes o d (d.overlay o')
  | grow {d : Database K V} (ws : List (Write V)) : Interferes o d (d.addKeys ws)
  | tick {d : Database K V} (n : ℕ) : Interferes o d (d.advance n)

structure Hop (o : Overlay V) (d d' : Database K V) : Prop where
  inv : D.inv d
  agrees : o.Agrees d
  interferes : D.Interferes t o d d'
  alone : D.alone t d' o

def Later (o : Overlay V) : Database K V → Database K V → Prop :=
  Relation.ReflTransGen (D.Hop t o)

/-- The program keeps to the discipline from here on and ends with `Q`. -/
def Safe (Q : α → Overlay V → Database K V → Prop) :
    Program K V E α → Overlay V → Database K V → Prop
  | .done a, o, d => Q a o d
  | .fail _, _, _ => True
  | .stmt s next, o, d => ∀ d', D.Later t o d d' → D.inv d' → o.Agrees d' → o.Covered d' →
      ∀ inp busy r ws, D.reading t d' inp.reading → s.eval inp (d'.overlay o) busy = some (r, ws) →
        (∀ w ∈ ws, busy w.1 = false) → D.alone t (d'.addKeys ws) (o.writeAll d' ws) →
        Safe Q (next r) (o.writeAll d' ws) (d'.addKeys ws)

def Final (o : Overlay V) (d : Database K V) : Prop :=
  ∀ d', D.Later t o d d' → D.inv d' → o.Agrees d' → D.guarantee t d' o

variable {D t}

theorem inv_addKeys {d : Database K V} (ws : List (Write V)) (h : D.inv d) :
    D.inv (d.addKeys ws) := by
  induction ws generalizing d with
  | nil => exact h
  | cons w ws ih => exact ih (D.inv_addKey w.1 h)

theorem Hop.row_eq {o : Overlay V} {d d' : Database K V} (h : D.Hop t o d d') {k : K}
    (hk : o k ≠ none) : d'.row k = d.row k := by
  cases h.interferes with
  | commit _ hd _ _ _ => exact Database.overlay_row_free ((hd k).resolve_left hk)
  | grow ws => rw [Database.addKeys_row]
  | tick n => rfl

theorem Hop.keys_subset {o : Overlay V} {d d' : Database K V} (h : D.Hop t o d d') {k : K}
    (hk : k ∈ d.keys) : k ∈ d'.keys := by
  cases h.interferes with
  | commit => exact hk
  | grow ws => exact Database.mem_addKeys.2 (.inl hk)
  | tick n => exact hk

theorem Safe.later {Q : α → Overlay V → Database K V → Prop} {p : Program K V E α}
    {o : Overlay V} {d d' : Database K V}
    (hQ : ∀ a d d', D.Later t o d d' → Q a o d → Q a o d')
    (hl : D.Later t o d d') (h : D.Safe t Q p o d) : D.Safe t Q p o d' := by
  cases p with
  | done a => exact hQ a d d' hl h
  | fail e => trivial
  | stmt s next => exact fun d'' hl' => h d'' (hl.trans hl')

theorem Final.later {o : Overlay V} {d d' : Database K V} (hl : D.Later t o d d')
    (h : D.Final t o d) : D.Final t o d' :=
  fun d'' hl' => h d'' (hl.trans hl')

end Discipline

section Soundness

variable [DecidableEq T] {sys : System T K V E R} {D : Discipline T K V}

structure Discipline.Meets (D : Discipline T K V) (m : Machine T K V E R) (l : Label T K)
    (m' : Machine T K V E R) : Prop where
  pair : ∀ t t', t ≠ t' → m'.running t ≠ none → m'.running t' ≠ none →
    D.pair t (m'.store.own t) t' (m'.store.own t')
  alone : ∀ t, D.alone t m'.store.committed (m'.store.own t)
  reading : ∀ t inp, l = .exec t inp → D.reading t m.store.committed inp.reading

structure Discipline.Answer (D : Discipline T K V)
    (Q : T → R → Overlay V → Database K V → Prop) : Prop where
  final : ∀ t r o d, Q t r o d → D.Final t o d
  later : ∀ t r o d d', D.Later t o d d' → Q t r o d → Q t r o d'

/-- A fact about the rows that holds once a transaction has committed with its answer, and
that no commit takes away. -/
structure Discipline.Lasting (D : Discipline T K V)
    (Q : T → R → Overlay V → Database K V → Prop) (P : T → R → Database K V → Prop) : Prop where
  made : ∀ t r o d, D.inv d → o.Agrees d → Q t r o d → P t r (d.overlay o)
  kept : ∀ t r t' o d, D.inv d → o.Agrees d → D.guarantee t' d o → P t r d → P t r (d.overlay o)
  rows : ∀ t r (d d' : Database K V), d'.row = d.row → P t r d → P t r d'

structure Discipline.SoundFor (D : Discipline T K V)
    (Q : T → R → Overlay V → Database K V → Prop) (m : Machine T K V E R) : Prop where
  inv : D.inv m.store.committed
  safe : ∀ t p, m.running t = some p →
    D.Safe t (Q t) p (m.store.own t) m.store.committed
  pair : ∀ t t', t ≠ t' → m.running t ≠ none → m.running t' ≠ none →
    D.pair t (m.store.own t) t' (m.store.own t')
  idle : ∀ t, m.running t = none → m.store.own t = Overlay.empty
  begun : ∀ t, m.running t ≠ none → t ∈ m.begun

abbrev Discipline.Sound (D : Discipline T K V) (m : Machine T K V E R) : Prop :=
  D.SoundFor (fun t _ => D.Final t) m

omit [DecidableEq T] in
theorem Discipline.answer_final :
    D.Answer (fun t (_ : R) => D.Final t) :=
  ⟨fun _ _ _ _ h => h, fun _ _ _ _ _ hl h => h.later hl⟩

variable {Q : T → R → Overlay V → Database K V → Prop} {m m' : Machine T K V E R}
  {l : Label T K}

namespace Discipline.SoundFor

theorem of_atRest (hrest : m.AtRest) (hinv : D.inv m.store.committed) : D.SoundFor Q m where
  inv := hinv
  safe := fun t p hp => by simp [hrest.running t] at hp
  pair := fun t _ _ ht => absurd (hrest.running t) ht
  idle := fun t _ => hrest.own t
  begun := fun t ht => absurd (hrest.running t) ht

theorem begin (hm : D.SoundFor Q m) (hmeets : D.Meets m l m')
    (hstart : ∀ t d, D.inv d → sys.admissible d t = true →
      D.Safe t (Q t) (sys.program t) Overlay.empty d)
    {t : T} (hfresh : t ∉ m.begun) (hadm : sys.admissible m.store.committed t = true)
    (hm' : m' = { m with
      running := Function.update m.running t (some (sys.program t))
      begun := t :: m.begun }) : D.SoundFor Q m' := by
  subst hm'
  have hidle : m.running t = none := by
    by_contra h
    exact hfresh (hm.begun t h)
  refine ⟨hm.inv, ?_, hmeets.pair, ?_, ?_⟩
  · intro t' p hp
    by_cases ht : t' = t
    · subst ht
      simp only [Function.update_self, Option.some.injEq] at hp
      subst hp
      simp only [hm.idle t' hidle]
      exact hstart t' _ hm.inv hadm
    · simp only [Function.update_of_ne ht] at hp
      exact hm.safe t' p hp
  · intro t' hp
    by_cases ht : t' = t
    · subst ht
      simp at hp
    · simp only [Function.update_of_ne ht] at hp
      exact hm.idle t' hp
  · intro t' hp
    by_cases ht : t' = t
    · simp [ht]
    · simp only [Function.update_of_ne ht] at hp
      exact List.mem_cons_of_mem _ (hm.begun t' hp)

omit [DecidableEq T] in
theorem hop (hQ : D.Answer Q) {t : T} {p : Program K V E R} {o : Overlay V} {d d' : Database K V}
    (h : D.Safe t (Q t) p o d) (hop : D.Hop t o d d') : D.Safe t (Q t) p o d' :=
  h.later (fun r d d' => hQ.later t r o d d') (.single hop)

theorem exec (hQ : D.Answer Q) (hm : D.SoundFor Q m) {t : T} {inp : Input K}
    (hmeets : D.Meets m (.exec t inp) m') {s : Stmt K V β} {next : β → Program K V E R}
    {r : β} {ws : List (Write V)} (hrun : m.running t = some (.stmt s next))
    (heval : s.eval inp (m.store.view t) (m.store.busy t) = some (r, ws))
    (hfree : ∀ w ∈ ws, m.store.busy t w.1 = false)
    (hm' : m' = { m with
      store := m.store.writeAll t ws
      running := Function.update m.running t (some (next r)) }) : D.SoundFor Q m' := by
  subst hm'
  refine ⟨?_, ?_, hmeets.pair, ?_, ?_⟩
  · rw [Store.committed_writeAll]
    exact inv_addKeys ws hm.inv
  · intro t' p hp
    have halone := hmeets.alone t'
    simp only [Store.committed_writeAll] at halone ⊢
    by_cases ht : t' = t
    · subst ht
      simp only [Function.update_self, Option.some.injEq] at hp
      subst hp
      rw [Store.own_writeAll_self] at halone ⊢
      exact hm.safe t' _ hrun _ .refl hm.inv (m.store.own_agrees t') (m.store.own_covered t')
        inp _ r ws (hmeets.reading t' inp rfl) heval hfree halone
    · simp only [Function.update_of_ne ht] at hp
      rw [Store.own_writeAll_other ws hfree ht] at halone ⊢
      exact hop hQ (hm.safe t' p hp) ⟨hm.inv, m.store.own_agrees t', .grow ws, halone⟩
  · intro t' hp
    by_cases ht : t' = t
    · subst ht
      simp at hp
    · simp only [Function.update_of_ne ht] at hp
      rw [Store.own_writeAll_other ws hfree ht]
      exact hm.idle t' hp
  · intro t' hp
    by_cases ht : t' = t
    · exact hm.begun t' (by simp [ht, hrun])
    · simp only [Function.update_of_ne ht] at hp
      exact hm.begun t' hp

theorem answer (hm : D.SoundFor Q m) {t : T} {r : R} (hrun : m.running t = some (.done r)) :
    Q t r (m.store.own t) m.store.committed :=
  hm.safe t _ hrun

theorem guarantee (hQ : D.Answer Q) (hm : D.SoundFor Q m) {t : T} {r : R}
    (hrun : m.running t = some (.done r)) :
    D.guarantee t m.store.committed (m.store.own t) :=
  hQ.final t r _ _ (hm.answer hrun) _ .refl hm.inv (m.store.own_agrees t)

theorem commit (hQ : D.Answer Q) (hm : D.SoundFor Q m) (hmeets : D.Meets m l m') {t : T} {r : R}
    (hrun : m.running t = some (.done r))
    (hm' : m' = { m with
      store := m.store.commit t
      running := Function.update m.running t none
      returned := (t, .ok r) :: m.returned }) : D.SoundFor Q m' := by
  subst hm'
  have hg := hm.guarantee hQ hrun
  refine ⟨?_, ?_, hmeets.pair, ?_, ?_⟩
  · rw [Store.committed_commit]
    exact D.inv_commit hm.inv (m.store.own_agrees t) hg
  · intro t' p hp
    have halone := hmeets.alone t'
    by_cases ht : t' = t
    · subst ht
      simp at hp
    · simp only [Function.update_of_ne ht] at hp
      simp only [Store.committed_commit, Store.own_commit, if_neg ht, Store.view] at halone ⊢
      have hpair := hm.pair t' t ht (by simp [hp]) (by simp [hrun])
      exact hop hQ (hm.safe t' p hp) ⟨hm.inv, m.store.own_agrees t',
        .commit (Ne.symm ht) (m.store.own_disjoint ht) hpair (m.store.own_agrees t) hg, halone⟩
  · intro t' hp
    by_cases ht : t' = t
    · simp [Store.own_commit, ht]
    · simp only [Function.update_of_ne ht] at hp
      simp only [Store.own_commit, if_neg ht]
      exact hm.idle t' hp
  · intro t' hp
    by_cases ht : t' = t
    · subst ht
      simp at hp
    · simp only [Function.update_of_ne ht] at hp
      exact hm.begun t' hp

theorem abort (hm : D.SoundFor Q m) (hmeets : D.Meets m l m') {t : T}
    {ret : List (T × Except E R)}
    (hm' : m' = { m with
      store := m.store.abort t
      running := Function.update m.running t none
      returned := ret }) : D.SoundFor Q m' := by
  subst hm'
  refine ⟨?_, ?_, hmeets.pair, ?_, ?_⟩
  · rw [Store.committed_abort]
    exact hm.inv
  · intro t' p hp
    by_cases ht : t' = t
    · subst ht
      simp at hp
    · simp only [Function.update_of_ne ht] at hp
      simp only [Store.committed_abort, Store.own_abort, if_neg ht]
      exact hm.safe t' p hp
  · intro t' hp
    by_cases ht : t' = t
    · simp [Store.own_abort, ht]
    · simp only [Function.update_of_ne ht] at hp
      simp only [Store.own_abort, if_neg ht]
      exact hm.idle t' hp
  · intro t' hp
    by_cases ht : t' = t
    · subst ht
      simp at hp
    · simp only [Function.update_of_ne ht] at hp
      exact hm.begun t' hp

theorem tick (hQ : D.Answer Q) (hm : D.SoundFor Q m) (hmeets : D.Meets m l m') {n : ℕ}
    (hm' : m' = { m with store := m.store.advance n }) : D.SoundFor Q m' := by
  subst hm'
  refine ⟨D.inv_advance n hm.inv, ?_, hm.pair, hm.idle, hm.begun⟩
  intro t p hp
  exact hop hQ (hm.safe t p hp) ⟨hm.inv, m.store.own_agrees t, .tick n, hmeets.alone t⟩

theorem step (hQ : D.Answer Q) (hm : D.SoundFor Q m)
    (hstart : ∀ t d, D.inv d → sys.admissible d t = true →
      D.Safe t (Q t) (sys.program t) Overlay.empty d)
    (hs : m.step sys l = some m') (hmeets : D.Meets m l m') : D.SoundFor Q m' := by
  cases Machine.step_cases hs with
  | begin hfresh hadm => exact hm.begin hmeets hstart hfresh hadm rfl
  | exec hrun heval hfree => exact hm.exec hQ hmeets hrun heval hfree rfl
  | commit hrun => exact hm.commit hQ hmeets hrun rfl
  | rollback hrun => exact hm.abort hmeets rfl
  | crash hrun => exact hm.abort hmeets rfl
  | tick n => exact hm.tick hQ hmeets rfl

theorem run (hQ : D.Answer Q)
    {ok : Machine T K V E R → Label T K → Machine T K V E R → Prop}
    (hstart : ∀ t d, D.inv d → sys.admissible d t = true →
      D.Safe t (Q t) (sys.program t) Overlay.empty d)
    (hmeets : ∀ m l m', ok m l m' → D.Meets m l m') {m₀ : Machine T K V E R}
    (hm₀ : D.SoundFor Q m₀) (hreach : Machine.ReachableFrom sys ok m₀ m) : D.SoundFor Q m := by
  induction hreach with
  | refl => exact hm₀
  | step _ hs hok ih => exact ih.step hQ hstart hs (hmeets _ _ _ hok)

theorem lasts_step (hQ : D.Answer Q) {P : Database K V → Prop}
    (hkept : ∀ t o d, D.inv d → o.Agrees d → D.guarantee t d o → P d → P (d.overlay o))
    (hrows : ∀ d d' : Database K V, d'.row = d.row → P d → P d') (hm : D.SoundFor Q m)
    (hs : m.step sys l = some m') (h : P m.store.committed) : P m'.store.committed := by
  cases Machine.step_cases hs with
  | begin => exact h
  | tick n => exact hrows m.store.committed _ rfl h
  | exec => exact hrows m.store.committed _ (by simp) h
  | rollback =>
    rw [Store.committed_abort]
    exact h
  | crash =>
    rw [Store.committed_abort]
    exact h
  | commit hrun =>
    rw [Store.committed_commit]
    exact hkept _ _ _ hm.inv (m.store.own_agrees _) (hm.guarantee hQ hrun) h

theorem lasts (hQ : D.Answer Q) {P : Database K V → Prop}
    (hkept : ∀ t o d, D.inv d → o.Agrees d → D.guarantee t d o → P d → P (d.overlay o))
    (hrows : ∀ d d' : Database K V, d'.row = d.row → P d → P d')
    {ok : Machine T K V E R → Label T K → Machine T K V E R → Prop}
    (hstart : ∀ t d, D.inv d → sys.admissible d t = true →
      D.Safe t (Q t) (sys.program t) Overlay.empty d)
    (hmeets : ∀ m l m', ok m l m' → D.Meets m l m') {m₀ : Machine T K V E R}
    (hm₀ : D.SoundFor Q m₀) (hreach : Machine.ReachableFrom sys ok m₀ m)
    (h : P m₀.store.committed) : P m.store.committed := by
  induction hreach with
  | refl => exact h
  | step hm hs _ ih => exact lasts_step hQ hkept hrows (run hQ hstart hmeets hm₀ hm) hs ih

theorem returned_step (hQ : D.Answer Q) {P : T → R → Database K V → Prop} (hP : D.Lasting Q P)
    (hm : D.SoundFor Q m) (hs : m.step sys l = some m')
    (hret : ∀ t r, (t, .ok r) ∈ m.returned → P t r m.store.committed) (t : T) (r : R)
    (h : (t, .ok r) ∈ m'.returned) : P t r m'.store.committed := by
  cases Machine.step_cases hs with
  | begin => exact hret t r h
  | tick n => exact hP.rows t r m.store.committed _ rfl (hret t r h)
  | exec => exact hP.rows t r m.store.committed _ (by simp) (hret t r h)
  | rollback hrun =>
    have hmem := (List.mem_cons.1 h).resolve_left (by simp)
    rw [Store.committed_abort]
    exact hret t r hmem
  | crash hrun =>
    rw [Store.committed_abort]
    exact hret t r h
  | commit hrun =>
    rw [Store.committed_commit]
    cases List.mem_cons.1 h with
    | inl heq =>
      cases heq
      exact hP.made _ _ _ _ hm.inv (m.store.own_agrees _) (hm.answer hrun)
    | inr hmem =>
      exact hP.kept t r _ _ _ hm.inv (m.store.own_agrees _) (hm.guarantee hQ hrun) (hret t r hmem)

theorem returned (hQ : D.Answer Q) {P : T → R → Database K V → Prop} (hP : D.Lasting Q P)
    {ok : Machine T K V E R → Label T K → Machine T K V E R → Prop}
    (hstart : ∀ t d, D.inv d → sys.admissible d t = true →
      D.Safe t (Q t) (sys.program t) Overlay.empty d)
    (hmeets : ∀ m l m', ok m l m' → D.Meets m l m') {m₀ : Machine T K V E R}
    (hm₀ : D.SoundFor Q m₀) (hreturned : m₀.returned = [])
    (hreach : Machine.ReachableFrom sys ok m₀ m) :
    ∀ t r, (t, .ok r) ∈ m.returned → P t r m.store.committed := by
  induction hreach with
  | refl => simp [hreturned]
  | step hm hs _ ih => exact returned_step hQ hP (run hQ hstart hmeets hm₀ hm) hs ih

end Discipline.SoundFor

theorem Discipline.soundFor (hQ : D.Answer Q)
    {ok : Machine T K V E R → Label T K → Machine T K V E R → Prop}
    (hinit : ∀ c, 0 ≤ c → D.inv ⟨[], fun _ => none, c⟩)
    (hstart : ∀ t d, D.inv d → sys.admissible d t = true →
      D.Safe t (Q t) (sys.program t) Overlay.empty d)
    (hmeets : ∀ m l m', ok m l m' → D.Meets m l m')
    (hreach : Machine.Reachable sys ok m) : D.SoundFor Q m := by
  obtain ⟨clock, hclock, hfrom⟩ := hreach.from_init
  exact SoundFor.run hQ hstart hmeets
    (.of_atRest (Machine.atRest_init clock) (hinit _ hclock)) hfrom

theorem Discipline.sound {ok : Machine T K V E R → Label T K → Machine T K V E R → Prop}
    (hinit : ∀ c, 0 ≤ c → D.inv ⟨[], fun _ => none, c⟩)
    (hstart : ∀ t d, D.inv d → sys.admissible d t = true →
      D.Safe t (fun _ => D.Final t) (sys.program t) Overlay.empty d)
    (hmeets : ∀ m l m', ok m l m' → D.Meets m l m')
    (hreach : Machine.Reachable sys ok m) : D.Sound m :=
  Discipline.soundFor Discipline.answer_final hinit hstart hmeets hreach

end Soundness

end GoScheduler.ReadCommitted
