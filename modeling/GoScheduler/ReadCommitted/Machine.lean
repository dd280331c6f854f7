import GoScheduler.ReadCommitted.Program

/-! Interleavings of transactions. A transaction begins once, runs one statement at a
time, and ends by commit, by rollback on its own error, or by a crash that rolls back.
Nothing is assumed about the schedule. -/
namespace GoScheduler.ReadCommitted

/-- The program of every transaction, and which transactions may begin when the given
rows are committed at the given time. -/
structure System (T K : Type) (V : K → Type) (E R : Type) where
  program : T → Program K V E R
  admissible : Database K V → T → Bool

structure Machine (T K : Type) (V : K → Type) (E R : Type) where
  store : Store T K V
  running : T → Option (Program K V E R)
  begun : List T
  returned : List (T × Except E R)

inductive Label (T K : Type) where
  | begin (t : T)
  | exec (t : T) (inp : Input K)
  | finish (t : T)
  | crash (t : T)
  | tick (d : ℕ)

variable {T K : Type} {V : K → Type} {E R : Type} [DecidableEq T] [DecidableEq K]

namespace Machine

def init (clock : Int) : Machine T K V E R := ⟨Store.init clock, fun _ => none, [], []⟩

/-- One statement of transaction `t`. It waits while a row it needs is held by another. -/
def execStmt (m : Machine T K V E R) (t : T) (inp : Input K) {β : Type} (s : Stmt K V β)
    (next : β → Program K V E R) : Option (Machine T K V E R) :=
  match s.eval inp (m.store.view t) (m.store.busy t) with
  | some (r, ws) =>
      if ws.all fun w => !m.store.busy t w.1 then
        some { m with
          store := m.store.writeAll t ws
          running := Function.update m.running t (some (next r)) }
      else none
  | none => none

def step (sys : System T K V E R) (m : Machine T K V E R) :
    Label T K → Option (Machine T K V E R)
  | .begin t =>
      if t ∈ m.begun ∨ sys.admissible m.store.committed t = false then none
      else some { m with
        running := Function.update m.running t (some (sys.program t))
        begun := t :: m.begun }
  | .exec t inp => match m.running t with
      | some (.stmt s next) => m.execStmt t inp s next
      | _ => none
  | .finish t => match m.running t with
      | some (.done r) => some { m with
          store := m.store.commit t
          running := Function.update m.running t none
          returned := (t, .ok r) :: m.returned }
      | some (.fail e) => some { m with
          store := m.store.abort t
          running := Function.update m.running t none
          returned := (t, .error e) :: m.returned }
      | _ => none
  | .crash t => match m.running t with
      | some _ => some { m with
          store := m.store.abort t
          running := Function.update m.running t none }
      | none => none
  | .tick d => some { m with store := m.store.advance d }

inductive Step (sys : System T K V E R) (m : Machine T K V E R) :
    Label T K → Machine T K V E R → Prop where
  | begin {t : T} (hfresh : t ∉ m.begun) (hadm : sys.admissible m.store.committed t = true) :
      Step sys m (.begin t) { m with
        running := Function.update m.running t (some (sys.program t))
        begun := t :: m.begun }
  | exec {t : T} {inp : Input K} {β : Type} {s : Stmt K V β} {next : β → Program K V E R}
      {r : β} {ws : List (Write V)} (hrun : m.running t = some (.stmt s next))
      (heval : s.eval inp (m.store.view t) (m.store.busy t) = some (r, ws))
      (hfree : ∀ w ∈ ws, m.store.busy t w.1 = false) :
      Step sys m (.exec t inp) { m with
        store := m.store.writeAll t ws
        running := Function.update m.running t (some (next r)) }
  | commit {t : T} {r : R} (hrun : m.running t = some (.done r)) :
      Step sys m (.finish t) { m with
        store := m.store.commit t
        running := Function.update m.running t none
        returned := (t, .ok r) :: m.returned }
  | rollback {t : T} {e : E} (hrun : m.running t = some (.fail e)) :
      Step sys m (.finish t) { m with
        store := m.store.abort t
        running := Function.update m.running t none
        returned := (t, .error e) :: m.returned }
  | crash {t : T} {p : Program K V E R} (hrun : m.running t = some p) :
      Step sys m (.crash t) { m with
        store := m.store.abort t
        running := Function.update m.running t none }
  | tick (d : ℕ) : Step sys m (.tick d) { m with store := m.store.advance d }

theorem step_cases {sys : System T K V E R} {m m' : Machine T K V E R} {l : Label T K}
    (h : m.step sys l = some m') : Step sys m l m' := by
  cases l with
  | begin t =>
    simp only [step] at h
    split at h
    · cases h
    · next hc =>
        rw [not_or, Bool.not_eq_false] at hc
        cases h
        exact .begin hc.1 hc.2
  | exec t inp =>
    simp only [step] at h
    split at h
    · next s next hrun =>
        unfold execStmt at h
        split at h
        · next r ws heval =>
            split at h
            · next hall =>
                cases h
                exact .exec hrun heval (by simpa using hall)
            · cases h
        · cases h
    · cases h
  | finish t =>
    simp only [step] at h
    split at h
    · next hrun => cases h; exact .commit hrun
    · next hrun => cases h; exact .rollback hrun
    · cases h
  | crash t =>
    simp only [step] at h
    split at h
    · next hrun => cases h; exact .crash hrun
    · cases h
  | tick d =>
    cases h
    exact .tick d

theorem committed_cases {sys : System T K V E R} {m m' : Machine T K V E R} {l : Label T K}
    (h : m.step sys l = some m') : m'.store.committed.row = m.store.committed.row ∨
      ∃ t r, l = .finish t ∧ m.running t = some (.done r) ∧
        m'.store.committed = m.store.view t := by
  cases step_cases h with
  | begin => exact .inl rfl
  | exec => exact .inl (by rw [Store.committed_writeAll, Database.addKeys_row])
  | @commit t r hrun => exact .inr ⟨t, r, rfl, hrun, Store.committed_commit _ t⟩
  | rollback | crash => exact .inl (by rw [Store.committed_abort])
  | tick n => exact .inl rfl

def run (sys : System T K V E R) (m : Machine T K V E R) :
    List (Label T K) → Option (Machine T K V E R)
  | [] => some m
  | l :: ls => match m.step sys l with
      | some m' => m'.run sys ls
      | none => none

inductive Reachable (sys : System T K V E R)
    (ok : Machine T K V E R → Label T K → Machine T K V E R → Prop) :
    Machine T K V E R → Prop where
  | init {clock : Int} (hclock : 0 ≤ clock) : Reachable sys ok (Machine.init clock)
  | step {m m' : Machine T K V E R} {l : Label T K} (hm : Reachable sys ok m)
      (hs : m.step sys l = some m') (hok : ok m l m') : Reachable sys ok m'

inductive ReachableFrom (sys : System T K V E R)
    (ok : Machine T K V E R → Label T K → Machine T K V E R → Prop) (m₀ : Machine T K V E R) :
    Machine T K V E R → Prop where
  | refl : ReachableFrom sys ok m₀ m₀
  | step {m m' : Machine T K V E R} {l : Label T K} (hm : ReachableFrom sys ok m₀ m)
      (hs : m.step sys l = some m') (hok : ok m l m') : ReachableFrom sys ok m₀ m'

structure AtRest (m : Machine T K V E R) : Prop where
  running : ∀ t, m.running t = none
  own : ∀ t, m.store.own t = Overlay.empty

omit [DecidableEq K] in
theorem atRest_init (clock : Int) : (init clock : Machine T K V E R).AtRest :=
  ⟨fun _ => rfl, fun _ => rfl⟩

def loaded (clock : Int) (t : T) (ws : List (Write V)) : Machine T K V E R :=
  { init clock with store := ((Store.init clock).writeAll t ws).commit t }

theorem atRest_loaded (clock : Int) (t : T) (ws : List (Write V)) :
    (loaded clock t ws : Machine T K V E R).AtRest := by
  refine ⟨fun _ => rfl, fun t' => ?_⟩
  unfold loaded
  dsimp only
  rw [Store.own_commit]
  split
  · rfl
  · next h =>
      rw [Store.own_writeAll_other ws (fun _ _ => rfl) h, Store.own_init]

theorem Reachable.from_init {sys : System T K V E R}
    {ok : Machine T K V E R → Label T K → Machine T K V E R → Prop} {m : Machine T K V E R}
    (h : Reachable sys ok m) :
    ∃ clock, 0 ≤ clock ∧ ReachableFrom sys ok (Machine.init clock) m := by
  induction h with
  | init hclock => exact ⟨_, hclock, .refl⟩
  | step _ hs hok ih =>
    obtain ⟨clock, hclock, hfrom⟩ := ih
    exact ⟨clock, hclock, .step hfrom hs hok⟩

theorem ReachableFrom.trans {sys : System T K V E R}
    {ok : Machine T K V E R → Label T K → Machine T K V E R → Prop} {m₀ m m' : Machine T K V E R}
    (h : ReachableFrom sys ok m₀ m) (h' : ReachableFrom sys ok m m') :
    ReachableFrom sys ok m₀ m' := by
  induction h' with
  | refl => exact h
  | step _ hs hok ih => exact .step ih hs hok

theorem ReachableFrom.running {sys : System T K V E R}
    {ok : Machine T K V E R → Label T K → Machine T K V E R → Prop} {m₀ m : Machine T K V E R}
    {I : T → Program K V E R → Int → Prop} (h₀ : ∀ t, m₀.running t = none)
    (hbegin : ∀ d t, sys.admissible d t = true → I t (sys.program t) d.clock)
    (hnext : ∀ t {β : Type} (s : Stmt K V β) next c r, I t (.stmt s next) c → I t (next r) c)
    (htick : ∀ t p c (n : ℕ), I t p c → I t p (c + n)) (h : ReachableFrom sys ok m₀ m) (t : T)
    (p : Program K V E R) (hp : m.running t = some p) : I t p m.store.clock := by
  induction h generalizing t p with
  | refl => simp [h₀ t] at hp
  | @step m m' l _ hs _ ih =>
    have hkeep : ∀ t', Function.update m.running t' none t = some p →
        I t p m.store.clock := by
      intro t' hp'
      by_cases ht : t = t'
      · simp [ht] at hp'
      · exact ih t p (by rwa [Function.update_of_ne ht] at hp')
    cases Machine.step_cases hs with
    | @begin t' _ hadm =>
      by_cases ht : t = t'
      · subst ht
        simp only [Function.update_self, Option.some.injEq] at hp
        exact hp ▸ hbegin _ t hadm
      · exact ih t p (by simpa only [Function.update_of_ne ht] using hp)
    | @exec t' inp β s next r ws hrun =>
      rw [Store.clock_writeAll]
      by_cases ht : t = t'
      · subst ht
        simp only [Function.update_self, Option.some.injEq] at hp
        exact hp ▸ hnext t s next _ r (ih t _ hrun)
      · exact ih t p (by simpa only [Function.update_of_ne ht] using hp)
    | commit | rollback | crash => exact hkeep _ hp
    | tick n => exact htick t p _ n (ih t p hp)

section Begun

variable {sys : System T K V E R} {ok : Machine T K V E R → Label T K → Machine T K V E R → Prop}
  {m : Machine T K V E R}

theorem step_begun {m' : Machine T K V E R} {l : Label T K} (hs : m.step sys l = some m')
    (hm : ∀ t, m.running t ≠ none → t ∈ m.begun) (t : T) (ht : m'.running t ≠ none) :
    t ∈ m'.begun := by
  have hkeep : ∀ t' p, Function.update m.running t' p t ≠ none → m.running t' ≠ none →
      t ∈ m.begun := by
    intro t' p hp ht'
    by_cases he : t = t'
    · exact hm t (he ▸ ht')
    · rw [Function.update_of_ne he] at hp
      exact hm t hp
  cases Machine.step_cases hs with
  | @begin t' =>
    by_cases he : t = t'
    · exact he ▸ List.mem_cons_self
    · simp only [Function.update_of_ne he] at ht
      exact List.mem_cons_of_mem _ (hm t ht)
  | exec hrun | commit hrun | rollback hrun | crash hrun =>
    exact hkeep _ _ ht (by simp [hrun])
  | tick n => exact hm t ht

theorem ReachableFrom.begun {m₀ : Machine T K V E R} (h₀ : ∀ t, m₀.running t = none)
    (h : ReachableFrom sys ok m₀ m) {t : T} (ht : m.running t ≠ none) : t ∈ m.begun := by
  induction h generalizing t with
  | refl => exact absurd (h₀ t) ht
  | step _ hs _ ih => exact step_begun hs (fun _ ht => ih ht) t ht

theorem Reachable.begun (h : Reachable sys ok m) {t : T} (ht : m.running t ≠ none) :
    t ∈ m.begun := by
  obtain ⟨clock, _, hfrom⟩ := h.from_init
  exact hfrom.begun (fun _ => rfl) ht

theorem Reachable.returned (h : Reachable sys ok m) {t : T} {res : Except E R}
    (hres : (t, res) ∈ m.returned) : t ∈ m.begun ∧ m.running t = none := by
  induction h with
  | init => cases hres
  | @step m m' l hm hs _ ih =>
    have hend : ∀ t', m.running t' ≠ none → t = t' ∨ (t, res) ∈ m.returned →
        t ∈ m.begun ∧ Function.update m.running t' none t = none := by
      intro t' hrun hcases
      by_cases he : t = t'
      · subst he
        exact ⟨hm.begun hrun, Function.update_self ..⟩
      · rw [Function.update_of_ne he]
        exact ih (hcases.resolve_left he)
    cases Machine.step_cases hs with
    | @begin t' hfresh hadm =>
      have ht : t ≠ t' := by
        rintro rfl
        exact hfresh (ih hres).1
      refine ⟨List.mem_cons_of_mem _ (ih hres).1, ?_⟩
      exact (Function.update_of_ne ht _ _).trans (ih hres).2
    | @exec t' _ _ _ _ _ _ hrun =>
      have ht : t ≠ t' := by
        rintro rfl
        simp [(ih hres).2] at hrun
      exact ⟨(ih hres).1, (Function.update_of_ne ht _ _).trans (ih hres).2⟩
    | commit hrun | rollback hrun =>
      refine hend _ (by simp [hrun]) ((List.mem_cons.1 hres).imp_left ?_)
      exact fun h => (Prod.mk.inj h).1
    | crash hrun => exact hend _ (by simp [hrun]) (.inr hres)
    | tick n => exact ih hres

end Begun

def runWhile (sys : System T K V E R)
    (test : Machine T K V E R → Label T K → Machine T K V E R → Bool)
    (m : Machine T K V E R) : List (Label T K) → Option (Machine T K V E R)
  | [] => some m
  | l :: ls => match m.step sys l with
      | some m' => if test m l m' then m'.runWhile sys test ls else none
      | none => none

theorem ReachableFrom.runWhile {sys : System T K V E R}
    {ok : Machine T K V E R → Label T K → Machine T K V E R → Prop}
    {test : Machine T K V E R → Label T K → Machine T K V E R → Bool} {m₀ m m' : Machine T K V E R}
    (htest : ∀ m l m', ReachableFrom sys ok m₀ m → m.step sys l = some m' →
      test m l m' = true → ok m l m')
    (ls : List (Label T K)) (hm : ReachableFrom sys ok m₀ m)
    (hr : m.runWhile sys test ls = some m') : ReachableFrom sys ok m₀ m' := by
  induction ls generalizing m with
  | nil =>
    cases hr
    exact hm
  | cons l ls ih =>
    simp only [Machine.runWhile] at hr
    split at hr
    · next m₁ hs =>
        split at hr
        · next hok => exact ih (.step hm hs (htest _ _ _ hm hs hok)) hr
        · cases hr
    · cases hr

/-- A schedule of steps that pass the test and that ends in a machine with a decidable
property. -/
theorem exists_reachableFrom_of_step {sys : System T K V E R}
    {ok : Machine T K V E R → Label T K → Machine T K V E R → Prop}
    {test : Machine T K V E R → Label T K → Machine T K V E R → Bool} {m₀ : Machine T K V E R}
    (htest : ∀ m l m', ReachableFrom sys ok m₀ m → m.step sys l = some m' →
      test m l m' = true → ok m l m')
    {ls : List (Label T K)} {p : Machine T K V E R → Bool}
    (h : (m₀.runWhile sys test ls).map p = some true) :
    ∃ m, ReachableFrom sys ok m₀ m ∧ p m = true := by
  cases hr : m₀.runWhile sys test ls with
  | none => simp [hr] at h
  | some m =>
    rw [hr, Option.map_some, Option.some.injEq] at h
    exact ⟨m, ReachableFrom.runWhile htest ls .refl hr, h⟩

theorem exists_reachableFrom {sys : System T K V E R}
    {ok : Machine T K V E R → Label T K → Machine T K V E R → Prop}
    (test : Machine T K V E R → Label T K → Machine T K V E R → Bool)
    (htest : ∀ m l m', test m l m' = true → ok m l m') {m₀ : Machine T K V E R}
    (ls : List (Label T K)) (p : Machine T K V E R → Bool)
    (h : (m₀.runWhile sys test ls).map p = some true) :
    ∃ m, ReachableFrom sys ok m₀ m ∧ p m = true :=
  exists_reachableFrom_of_step (fun m l m' _ _ hok => htest m l m' hok) h

def InTurn (_ : Machine T K V E R) (_ : Label T K) (m' : Machine T K V E R) : Prop :=
  ∀ t t', m'.running t ≠ none → m'.running t' ≠ none → t = t'

def inTurn (_ : Machine T K V E R) (_ : Label T K) (m' : Machine T K V E R) : Bool :=
  m'.begun.all fun t => m'.begun.all fun t' =>
    (m'.running t).isNone || (m'.running t').isNone || decide (t = t')

omit [DecidableEq K] in
theorem inTurn_sound {m m' : Machine T K V E R} {l : Label T K}
    (hbegun : ∀ t, m'.running t ≠ none → t ∈ m'.begun) (h : inTurn m l m' = true) :
    InTurn m l m' := by
  intro t t' ht ht'
  have hall := List.all_eq_true.1 (List.all_eq_true.1 h t (hbegun t ht)) t' (hbegun t' ht')
  simpa [ht, ht'] using hall

theorem exists_reachableFrom_inTurn {sys : System T K V E R} {m₀ : Machine T K V E R}
    (h₀ : ∀ t, m₀.running t = none) (ls : List (Label T K)) (p : Machine T K V E R → Bool)
    (h : (m₀.runWhile sys inTurn ls).map p = some true) :
    ∃ m, ReachableFrom sys InTurn m₀ m ∧ p m = true :=
  exists_reachableFrom_of_step
    (fun _ _ _ hm hs hok => inTurn_sound (step_begun hs fun _ ht => hm.begun h₀ ht) hok) h

/-- Transaction `t` takes its statements in turn and finishes, with nothing in between.
The caller's clock stands at `reading` and identifiers are drawn in order. -/
def finishAlone (sys : System T K V E R) (t : T) (reading : Int) :
    ℕ → Machine T K V E R → Machine T K V E R
  | 0, m => m
  | fuel + 1, m => match m.step sys (.exec t ⟨reading, m.store.keys.length, []⟩) with
      | some m' => m'.finishAlone sys t reading fuel
      | none => (m.step sys (.finish t)).getD m

def perform (sys : System T K V E R) (fuel : ℕ) (m : Machine T K V E R) :
    List (ℕ × T × Int) → Machine T K V E R
  | [] => m
  | (pause, t, reading) :: rest =>
      let m := (m.step sys (.tick pause)).getD m
      let m := (m.step sys (.begin t)).getD m
      (m.finishAlone sys t reading fuel).perform sys fuel rest

section Perform

variable {sys : System T K V E R} {m : Machine T K V E R}

theorem Reachable.getD (h : Reachable sys (fun _ _ _ => True) m) (l : Label T K) :
    Reachable sys (fun _ _ _ => True) ((m.step sys l).getD m) := by
  cases hs : m.step sys l with
  | none => exact h
  | some m' => exact .step h hs trivial

theorem Reachable.finishAlone (h : Reachable sys (fun _ _ _ => True) m) (t : T) (reading : Int)
    (fuel : ℕ) : Reachable sys (fun _ _ _ => True) (m.finishAlone sys t reading fuel) := by
  induction fuel generalizing m with
  | zero => exact h
  | succ fuel ih =>
    unfold Machine.finishAlone
    split
    · next hs => exact ih (.step h hs trivial)
    · exact h.getD _

theorem Reachable.perform (h : Reachable sys (fun _ _ _ => True) m) (fuel : ℕ)
    (script : List (ℕ × T × Int)) :
    Reachable sys (fun _ _ _ => True) (m.perform sys fuel script) := by
  induction script generalizing m with
  | nil => exact h
  | cons item script ih => exact ih (((h.getD _).getD _).finishAlone _ _ _)

end Perform

def Quiescent (m : Machine T K V E R) : Prop := ∀ t, m.running t = none

theorem ReachableFrom.quiescent {sys : System T K V E R}
    {ok : Machine T K V E R → Label T K → Machine T K V E R → Prop} {m₀ m : Machine T K V E R}
    (h₀ : ∀ t, m₀.running t = none) (h : ReachableFrom sys ok m₀ m)
    (hall : (m.begun.all fun t => (m.running t).isNone) = true) : m.Quiescent := by
  intro t
  by_contra ht
  have hnone := List.all_eq_true.1 hall t (h.begun h₀ ht)
  exact ht (Option.isNone_iff_eq_none.1 hnone)

def solo (t : T) (m : Machine T K V E R) : Bool :=
  m.store.keys.all fun k => match (m.store.cell k).held with
    | some (t', _) => decide (t' = t)
    | none => true

omit [DecidableEq K] in
theorem own_of_solo {t : T} {m : Machine T K V E R} (h : m.solo t = true) {t' : T}
    (ht : t' ≠ t) : m.store.own t' = Overlay.empty := by
  ext1 k
  by_contra hk
  obtain ⟨held, hheld⟩ := Option.ne_none_iff_exists'.1 hk
  obtain ⟨hmem, hcell, _⟩ := Store.held_of_own hheld
  have hsolo := List.all_eq_true.1 h k hmem
  rw [hcell] at hsolo
  exact ht (of_decide_eq_true hsolo)

end Machine

end GoScheduler.ReadCommitted
