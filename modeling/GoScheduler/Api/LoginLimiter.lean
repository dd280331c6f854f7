import GoScheduler.FixedWindow
import GoScheduler.Table

/-! The limiter of logins, internal/api/login_limiter.go. Calls follow each other in the order in
which they take the mutex; time is in nanoseconds. `Sub` saturates after 292 years, which makes
no difference to a comparison with a minute. -/
namespace GoScheduler.Api

open FixedWindow

def loginWindow : Int := 60 * 1000000000

def loginAttempts : ℕ := 5

def maxLoginWindows : ℕ := 10000

/-- What `loginLimitKey` computes with: the host of `net.SplitHostPort`, none where that fails,
and the hexadecimal SHA-256 of the trimmed email in lower case. -/
structure KeyEnv where
  splitHostPort : String → Option String
  emailHash : String → String

def loginLimitKey (env : KeyEnv) (remoteAddress email : String) : String :=
  (env.splitHostPort remoteAddress).getD remoteAddress ++ ":" ++ env.emailHash email

abbrev LoginWindowState : Type := Window

abbrev LoginWindows : Type := AList fun _ : String => LoginWindowState

/-- The loop in `allow` that deletes the windows that are over. -/
def sweep (now : Int) (windows : LoginWindows) : LoginWindows where
  entries := windows.entries.filter fun e => now - e.2.started < loginWindow
  nodupKeys := windows.nodupKeys.sublist List.filter_sublist

def allow (now : Int) (key : String) (windows : LoginWindows) : Bool × LoginWindows :=
  match windows.lookup key with
  | some state =>
      if now - state.started < loginWindow then
        if state.attempts ≥ loginAttempts then (false, windows)
        else (true, windows.insert key { state with attempts := state.attempts + 1 })
      else (true, windows.insert key ⟨now, 1⟩)
  | none =>
      if windows.keys.length ≥ maxLoginWindows then
        let windows := sweep now windows
        if windows.keys.length ≥ maxLoginWindows then (false, windows)
        else (true, windows.insert key ⟨now, 1⟩)
      else (true, windows.insert key ⟨now, 1⟩)

def reset (key : String) (windows : LoginWindows) : LoginWindows := windows.erase key

inductive Call where
  | allow (now : Int) (remoteAddress email : String)
  | reset (remoteAddress email : String)
deriving DecidableEq

namespace Call

variable (env : KeyEnv)

def key : Call → String
  | .allow _ remoteAddress email => loginLimitKey env remoteAddress email
  | .reset remoteAddress email => loginLimitKey env remoteAddress email

def time : Call → Option Int
  | .allow now _ _ => some now
  | .reset _ _ => none

def Resets (key : String) : Call → Prop
  | .allow _ _ _ => False
  | .reset remoteAddress email => loginLimitKey env remoteAddress email = key

instance decidableResets (key : String) : (c : Call) → Decidable (c.Resets env key)
  | .allow _ _ _ => .isFalse id
  | .reset remoteAddress email =>
      inferInstanceAs (Decidable (loginLimitKey env remoteAddress email = key))

def run (c : Call) (windows : LoginWindows) : Bool × LoginWindows :=
  match c with
  | .allow now _ _ => Api.allow now (c.key env) windows
  | .reset _ _ => (false, Api.reset (c.key env) windows)

end Call

section Runs

variable (env : KeyEnv)

def runAll (windows : LoginWindows) (calls : List Call) : LoginWindows :=
  calls.foldl (fun windows c => (c.run env windows).2) windows

def allowed (key : String) : LoginWindows → List Call → List Int
  | _, [] => []
  | windows, c :: calls =>
      let rest := allowed key (c.run env windows).2 calls
      if (c.run env windows).1 && c.key env = key then c.time.toList ++ rest else rest

end Runs

variable {env : KeyEnv} {windows : LoginWindows} {key : String} {now : Int} {c : Call}
  {calls : List Call}

section Steps

theorem lookup_sweep (now : Int) (windows : LoginWindows) (key : String) :
    (sweep now windows).lookup key =
      (windows.lookup key).filter fun w => now - w.started < loginWindow := by
  ext w
  rw [Option.filter_eq_some_iff, ← Option.mem_def, ← Option.mem_def, AList.mem_lookup_iff,
    AList.mem_lookup_iff]
  exact List.mem_filter

theorem step_sweep (now : Int) (windows : LoginWindows) (key : String) :
    Step loginWindow loginAttempts now (windows.lookup key) ((sweep now windows).lookup key)
      false := by
  rw [lookup_sweep]
  cases windows.lookup key with
  | none => exact .idle none
  | some w =>
    by_cases hopen : now - w.started < loginWindow
    · rw [Option.filter_some, if_pos (decide_eq_true hopen)]
      exact .idle (some w)
    · rw [Option.filter_some, if_neg (by simpa using hopen)]
      exact .drop w (not_lt.1 hopen)

theorem step_allow_self (now : Int) (key : String) (windows : LoginWindows) :
    Step loginWindow loginAttempts now (windows.lookup key)
      ((allow now key windows).2.lookup key) (allow now key windows).1 := by
  unfold allow
  cases hlookup : windows.lookup key with
  | some state =>
    dsimp only
    split_ifs with hopen hfull
    · rw [hlookup]
      exact .idle _
    · rw [AList.lookup_insert]
      exact .grant state hopen (not_le.1 hfull)
    · rw [AList.lookup_insert]
      refine .start _ ?_
      rintro _ ⟨⟩
      exact not_lt.1 hopen
  | none =>
    have hswept := step_sweep now windows key
    rw [hlookup] at hswept
    dsimp only
    split_ifs
    · exact hswept
    all_goals
      rw [AList.lookup_insert]
      exact .start _ (by simp)

theorem step_allow_other (now : Int) (windows : LoginWindows) {key other : String}
    (hne : other ≠ key) :
    Step loginWindow loginAttempts now (windows.lookup other)
      ((allow now key windows).2.lookup other) false := by
  have hswept := step_sweep now windows other
  unfold allow
  split
  · split_ifs
    · exact .idle _
    all_goals
      rw [AList.lookup_insert_ne hne]
      exact .idle _
  · dsimp only
    split_ifs
    · exact hswept
    · rw [AList.lookup_insert_ne hne]
      exact hswept
    · rw [AList.lookup_insert_ne hne]
      exact .idle _

theorem step_run (windows : LoginWindows) (hkeep : ¬ c.Resets env key) (now : Int) :
    Step loginWindow loginAttempts (c.time.getD now) (windows.lookup key)
      ((c.run env windows).2.lookup key) ((c.run env windows).1 && c.key env = key) := by
  cases c with
  | allow t remoteAddress email =>
    by_cases hkey : (Call.allow t remoteAddress email).key env = key
    · subst hkey
      simpa [Call.run, Call.time] using step_allow_self t _ windows
    · simpa [Call.run, Call.time, hkey] using step_allow_other t windows (Ne.symm hkey)
  | reset remoteAddress email =>
    have hne : key ≠ (Call.reset remoteAddress email).key env := fun h => hkeep h.symm
    simp only [Call.run, reset, Bool.false_and]
    rw [AList.lookup_erase_ne hne]
    exact .idle _

theorem resets_or_over (windows : LoginWindows) {w : Window} (hw : windows.lookup key = some w)
    (hgone : ∀ w' ∈ (c.run env windows).2.lookup key, w'.started ≠ w.started) :
    c.Resets env key ∨ ∃ now ∈ c.time, loginWindow ≤ now - w.started := by
  by_cases hkeep : c.Resets env key
  · exact .inl hkeep
  · have hstep := step_run windows hkeep w.started
    rw [hw] at hstep
    have hover := hstep.ended hgone
    cases htime : c.time with
    | some now =>
      rw [htime] at hover
      exact .inr ⟨now, rfl, hover⟩
    | none =>
      rw [htime, Option.getD_none, Int.sub_self] at hover
      exact absurd hover (by decide)

end Steps

section Size

theorem length_keys_sweep (now : Int) (windows : LoginWindows) :
    (sweep now windows).keys.length ≤ windows.keys.length := by
  simp only [AList.keys, List.keys, List.length_map]
  exact List.length_filter_le _ _

theorem length_keys_allow (now : Int) (key : String)
    (h : windows.keys.length ≤ maxLoginWindows) :
    (allow now key windows).2.keys.length ≤ maxLoginWindows := by
  unfold allow
  split
  · next state hlookup =>
    split_ifs
    · exact h
    all_goals
      rw [Table.length_keys_insert, if_pos (Table.mem_of_lookup hlookup)]
      exact h
  · next hlookup =>
    have hnew : key ∉ windows := AList.lookup_eq_none.1 hlookup
    dsimp only
    split_ifs with hmany hstill
    · exact (length_keys_sweep now windows).trans h
    · rw [Table.length_keys_insert]
      split
      · exact (not_le.1 hstill).le
      · exact not_le.1 hstill
    · rw [Table.length_keys_insert, if_neg hnew]
      exact not_le.1 hmany

theorem length_keys_runAll (env : KeyEnv) (calls : List Call)
    (h : windows.keys.length ≤ maxLoginWindows) :
    (runAll env windows calls).keys.length ≤ maxLoginWindows := by
  induction calls generalizing windows with
  | nil => exact h
  | cons c calls ih =>
    refine ih ?_
    cases c with
    | allow now remoteAddress email => exact length_keys_allow now _ h
    | reset remoteAddress email =>
      simp only [Call.run, reset]
      rw [AList.keys_erase]
      exact List.length_erase_le.trans h

end Size

section Runs

theorem started_run (windows : LoginWindows) {w : Window}
    (hw : (c.run env windows).2.lookup key = some w) :
    w.started ∈ c.time ∨ ∃ x ∈ windows.lookup key, x.started = w.started := by
  by_cases hreset : c.Resets env key
  · cases c with
    | allow now remoteAddress email => cases hreset
    | reset remoteAddress email =>
      cases hreset
      rw [Call.run, reset, Call.key, AList.lookup_erase] at hw
      cases hw
  · have hstep := step_run windows hreset (w.started + 1)
    rw [hw] at hstep
    refine hstep.origin.imp_left fun hstarted => ?_
    cases htime : c.time with
    | none =>
      rw [htime, Option.getD_none] at hstarted
      omega
    | some now =>
      rw [htime] at hstarted
      exact congrArg some hstarted.symm

theorem started_runAll (env : KeyEnv) {w : Window}
    (hw : (runAll env windows calls).lookup key = some w) :
    w.started ∈ calls.filterMap Call.time ∨ ∃ x ∈ windows.lookup key, x.started = w.started := by
  induction calls generalizing windows with
  | nil => exact .inr ⟨w, hw, rfl⟩
  | cons c calls ih =>
    have hlater {t : Int} (ht : t ∈ calls.filterMap Call.time) :
        t ∈ (c :: calls).filterMap Call.time := by
      obtain ⟨c', hc', htime⟩ := List.mem_filterMap.1 ht
      exact List.mem_filterMap.2 ⟨c', List.mem_cons_of_mem c hc', htime⟩
    rcases ih hw with hmem | ⟨x, hx, hstarted⟩
    · exact .inl (hlater hmem)
    · rw [← hstarted]
      refine (started_run windows hx).imp_left fun htime => ?_
      exact List.mem_filterMap.2 ⟨c, List.mem_cons_self, htime⟩

/-- A stretch of calls without a reset of the key keeps the account of its window, and every
window on the way is in it. -/
theorem account_runAll (env : KeyEnv) {starts : List Int} {grants : List Grant}
    (h : Account loginWindow loginAttempts now (windows.lookup key) starts grants)
    (hkeep : ∀ c ∈ calls, ¬ c.Resets env key)
    (htimes : (now :: calls.filterMap Call.time).Pairwise (· ≤ ·)) :
    ∃ now' starts' grants',
      Account loginWindow loginAttempts now' ((runAll env windows calls).lookup key) starts'
        grants' ∧
      (∀ s ∈ starts, s ∈ starts') ∧
      (∀ first rest w, calls = first ++ rest → (runAll env windows first).lookup key = some w →
        w.started ∈ starts') ∧
      (grants'.map Grant.time).Perm (allowed env key windows calls ++ grants.map Grant.time) := by
  have hcurrent {w : Window} (hw : windows.lookup key = some w) : w.started ∈ starts :=
    List.mem_of_mem_head? (h.current w hw).1
  induction calls generalizing windows now starts grants with
  | nil =>
    refine ⟨now, starts, grants, h, fun _ hs => hs, fun first rest w heq hw => ?_, .refl _⟩
    rw [(List.append_eq_nil_iff.1 heq.symm).1] at hw
    exact hcurrent hw
  | cons c calls ih =>
    have hstep := step_run windows (hkeep c List.mem_cons_self) now
    have hnow : now ≤ c.time.getD now ∧
        (c.time.getD now :: calls.filterMap Call.time).Pairwise (· ≤ ·) := by
      cases htime : c.time with
      | none =>
        rw [List.filterMap_cons_none htime] at htimes
        exact ⟨le_rfl, htimes⟩
      | some t =>
        rw [List.filterMap_cons_some htime, List.pairwise_cons] at htimes
        exact ⟨htimes.1 t List.mem_cons_self, htimes.2⟩
    obtain ⟨starts₁, grants₁, haccount, hstarts, htime⟩ :=
      h.step (by decide) (by decide) hnow.1 hstep
    obtain ⟨now', starts', grants', hfinal, hstarts', hwindows, hperm⟩ :=
      ih haccount (fun c' hc' => hkeep c' (List.mem_cons_of_mem c hc')) hnow.2 fun hw =>
        List.mem_of_mem_head? (haccount.current _ hw).1
    refine ⟨now', starts', grants', hfinal, fun s hs => hstarts' s (hstarts s hs), ?_, ?_⟩
    · intro first rest w heq hw
      cases first with
      | nil => exact hstarts' _ (hstarts _ (hcurrent hw))
      | cons c' first =>
        cases heq
        exact hwindows first rest w rfl hw
    · rw [htime] at hperm
      refine hperm.trans ?_
      rw [allowed]
      cases c with
      | reset remoteAddress email => exact .refl _
      | allow t remoteAddress email =>
        split
        · exact List.perm_middle
        · exact .refl _

theorem exists_account (env : KeyEnv) (before calls : List Call) (key : String)
    (htimes : ((before ++ calls).filterMap Call.time).Pairwise (· ≤ ·)) :
    ∃ now starts, Account loginWindow loginAttempts now ((runAll env ∅ before).lookup key) starts
        [] ∧ (now :: calls.filterMap Call.time).Pairwise (· ≤ ·) := by
  rw [List.filterMap_append, List.pairwise_append] at htimes
  cases hlookup : (runAll env ∅ before).lookup key with
  | none =>
    cases hcalls : calls.filterMap Call.time with
    | nil => exact ⟨0, _, .init (by simp), by simp⟩
    | cons t times =>
      rw [hcalls] at htimes
      refine ⟨t, _, .init (by simp), List.pairwise_cons.2 ⟨?_, htimes.2.1⟩⟩
      intro t' ht'
      rcases List.mem_cons.1 ht' with rfl | ht'
      · exact le_rfl
      · exact (List.pairwise_cons.1 htimes.2.1).1 t' ht'
  | some w =>
    have hmem : w.started ∈ before.filterMap Call.time :=
      (started_runAll env hlookup).resolve_right (by simp)
    refine ⟨w.started, _, .init ?_, List.pairwise_cons.2 ⟨htimes.2.2 _ hmem, htimes.2.1⟩⟩
    rintro _ ⟨⟩
    exact le_rfl

theorem runAll_append (env : KeyEnv) (windows : LoginWindows) (first rest : List Call) :
    runAll env windows (first ++ rest) = runAll env (runAll env windows first) rest :=
  List.foldl_append

/-- The limiter tracks at most 10000 windows and drops none that is younger than a minute unless
its key is reset. Between two resets of a key it allows at most five attempts within the minute
of a window and at most ten within any minute, whatever the other keys do. -/
theorem login_limiter_not_bypassed (env : KeyEnv) (before calls : List Call)
    (htimes : ((before ++ calls).filterMap Call.time).Pairwise (· ≤ ·)) :
    (runAll env ∅ before).keys.length ≤ 10000 ∧
      (∀ (c : Call) (key : String) (w : Window), (runAll env ∅ before).lookup key = some w →
        (∀ w' ∈ (runAll env ∅ (before ++ [c])).lookup key, w'.started ≠ w.started) →
          c.Resets env key ∨ ∃ now ∈ c.time, loginWindow ≤ now - w.started) ∧
      ∀ key, (∀ c ∈ calls, ¬ c.Resets env key) →
        (∀ first rest w, calls = first ++ rest →
          (runAll env ∅ (before ++ first)).lookup key = some w →
          (allowed env key (runAll env ∅ before) calls).countP
            (fun t => w.started ≤ t ∧ t < w.started + loginWindow) ≤ 5) ∧
        ∀ a, (allowed env key (runAll env ∅ before) calls).countP
              (fun t => a ≤ t ∧ t < a + loginWindow) ≤ 10 ∧
            (allowed env key (runAll env ∅ before) calls).countP
              (fun t => a < t ∧ t ≤ a + loginWindow) ≤ 10 := by
  refine ⟨length_keys_runAll env before (Nat.zero_le _), fun c key w hw hgone => ?_,
    fun key hkeep => ?_⟩
  · rw [runAll_append] at hgone
    exact resets_or_over _ hw hgone
  obtain ⟨now, starts, haccount, hnow⟩ := exists_account env before calls key htimes
  obtain ⟨now', starts', grants, hfinal, -, hwindows, hperm⟩ :=
    account_runAll env haccount hkeep hnow
  rw [List.map_nil, List.append_nil] at hperm
  constructor
  · intro first rest w heq hw
    rw [runAll_append] at hw
    rw [← hperm.countP_eq]
    exact hfinal.countP_window_le (hwindows first rest w heq hw)
  · intro a
    rw [← hperm.countP_eq, ← hperm.countP_eq]
    constructor
    · refine hfinal.countP_le_two_mul fun t t' ht ht' => ?_
      have ht := of_decide_eq_true ht
      have ht' := of_decide_eq_true ht'
      omega
    · refine hfinal.countP_le_two_mul fun t t' ht ht' => ?_
      have ht := of_decide_eq_true ht
      have ht' := of_decide_eq_true ht'
      omega

def burst : List Call :=
  List.replicate 6 (.allow 0 "10.0.0.1" "a@example.com") ++ [.allow 0 "10.0.0.2" "a@example.com"]

-- The SHA-256 of `a@example.com`, the email of these calls.
def sampleHash : String := "08168cd80dfd534ab0f10af10f1303fe00af2d43ab5c1432360d137f8197e17a"

def plainKeys : KeyEnv := ⟨fun _ => none, fun _ => sampleHash⟩

theorem login_limiter_not_bypassed_burst :
    allowed plainKeys ("10.0.0.1:" ++ sampleHash) ∅ burst = [0, 0, 0, 0, 0] ∧
      (allowed plainKeys ("10.0.0.1:" ++ sampleHash) ∅ burst).countP
        (fun t => 0 ≤ t ∧ t < 0 + loginWindow) ≤ 10 := by
  have hlimits := (login_limiter_not_bypassed plainKeys [] burst (by decide +kernel)).2.2
    ("10.0.0.1:" ++ sampleHash) (by decide +kernel)
  exact ⟨by decide +kernel, (hlimits.2 0).1⟩

end Runs

end GoScheduler.Api
