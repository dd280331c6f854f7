import GoScheduler.ReadCommitted.Discipline

/-! The history of a run: its committed transactions with their answers, in the order of the
commits. What every commit does to the committed rows, whatever was open beside it, holds of
the history as a whole. -/
namespace GoScheduler.ReadCommitted

variable {T K : Type} {V : K → Type} {E R : Type} [DecidableEq T] [DecidableEq K]
  {sys : System T K V E R} {D : Discipline T K V} {Q : T → R → Overlay V → Database K V → Prop}
  {m m' : Machine T K V E R} {l : Label T K}

def Machine.history (m : Machine T K V E R) : List (T × R) :=
  m.returned.filterMap fun answer => answer.2.toOption.map (answer.1, ·)

theorem Machine.history_cases (hs : m.step sys l = some m') :
    (m'.history = m.history ∧ m'.store.committed.row = m.store.committed.row) ∨
      ∃ t r, m.running t = some (.done r) ∧ m'.history = (t, r) :: m.history ∧
        m'.store.committed = m.store.view t := by
  cases Machine.step_cases hs with
  | begin => exact .inl ⟨rfl, rfl⟩
  | exec => exact .inl ⟨rfl, by rw [Store.committed_writeAll, Database.addKeys_row]⟩
  | @commit t r hrun => exact .inr ⟨t, r, hrun, rfl, Store.committed_commit _ t⟩
  | rollback | crash => exact .inl ⟨rfl, by rw [Store.committed_abort]⟩
  | tick n => exact .inl ⟨rfl, rfl⟩

/-- What holds at the start and what every commit with its answer keeps holds of the history
and the committed rows of every reachable machine. -/
theorem Discipline.SoundFor.history (hQ : D.Answer Q) {P : List (T × R) → Database K V → Prop}
    (hcommit : ∀ t r o d h, D.inv d → o.Agrees d → Q t r o d → P h d →
      P ((t, r) :: h) (d.overlay o))
    (hrows : ∀ h (d d' : Database K V), d'.row = d.row → P h d → P h d')
    {ok : Machine T K V E R → Label T K → Machine T K V E R → Prop}
    (hstart : ∀ t d, D.inv d → sys.admissible d t = true →
      D.Safe t (Q t) (sys.program t) Overlay.empty d)
    (hmeets : ∀ m l m', ok m l m' → D.Meets m l m') {m₀ : Machine T K V E R}
    (hm₀ : D.SoundFor Q m₀) (h₀ : P m₀.history m₀.store.committed)
    (hreach : Machine.ReachableFrom sys ok m₀ m) : P m.history m.store.committed := by
  induction hreach with
  | refl => exact h₀
  | @step m m' l hm hs _ ih =>
    have hsound := run hQ hstart hmeets hm₀ hm
    rcases Machine.history_cases hs with ⟨hsame, hrow⟩ | ⟨t, r, hrun, hnew, hcommitted⟩
    · rw [hsame]
      exact hrows _ _ _ hrow ih
    · rw [hnew, hcommitted]
      exact hcommit t r _ _ _ hsound.inv (m.store.own_agrees t) (hsound.answer hrun) ih

end GoScheduler.ReadCommitted
