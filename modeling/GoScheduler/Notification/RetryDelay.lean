import Mathlib.Algebra.Order.Ring.Int

/-! The delay before the next attempt of a notification, internal/notifier/notifier.go. Attempts
and durations are 64-bit integers, durations count nanoseconds. Next to its result the loop says
in which states its body was entered. -/
namespace GoScheduler.Notification.RetryDelay

structure LoopState where
  step : Int64
  delay : Int64
deriving DecidableEq

theorem step_succ {step attempt : Int64} (h : step < attempt) :
    (step + 1).toInt = step.toInt + 1 := by
  have hlt := Int64.lt_iff_toInt_lt.1 h
  have hattempt := attempt.toInt_lt
  have hstep := step.le_toInt
  rw [Int64.toInt_add]
  change (step.toInt + 1).bmod (2 ^ 64) = step.toInt + 1
  exact Int.bmod_eq_of_le (by omega) (by omega)

/-- `for step := 1; step < attempt && delay < maximum; step++`, and what comes after it. -/
def retryLoop (attempt maximum : Int64) (s : LoopState) : List LoopState × Int64 :=
  if _h : s.step < attempt ∧ s.delay < maximum then
    if s.delay > maximum / 2 then ([s], maximum)
    else
      let (states, result) := retryLoop attempt maximum ⟨s.step + 1, s.delay * 2⟩
      (s :: states, result)
  else ([], if s.delay > maximum then maximum else s.delay)
termination_by (attempt.toInt - s.step.toInt).toNat
decreasing_by
  have hlt := Int64.lt_iff_toInt_lt.1 _h.1
  have hsucc := step_succ _h.1
  omega

def loopFrom (attempt initial maximum : Int64) : List LoopState × Int64 :=
  retryLoop (if attempt < 1 then 1 else attempt) maximum ⟨1, initial⟩

def retryDelay (attempt initial maximum : Int64) : Int64 := (loopFrom attempt initial maximum).2

def iterations (attempt initial maximum : Int64) : List LoopState :=
  (loopFrom attempt initial maximum).1

section Loop

variable {attempt maximum : Int64} {s : LoopState}

theorem toInt_half (h : 0 < maximum) : (maximum / 2).toInt = maximum.toInt / 2 := by
  have hpos : (0 : Int) < maximum.toInt := Int64.lt_iff_toInt_lt.1 h
  have hne : maximum ≠ Int64.minValue := by
    rintro rfl
    exact absurd hpos (by decide)
  rw [Int64.toInt_div_of_ne_left _ _ hne]
  exact Int.tdiv_eq_ediv_of_nonneg hpos.le

theorem half_lt_iff (h : 0 < maximum) :
    maximum / 2 < s.delay ↔ maximum.toInt < s.delay.toInt * 2 := by
  rw [Int64.lt_iff_toInt_lt, toInt_half h]
  omega

theorem toInt_double (hdelay : 0 < s.delay) (hmaximum : 0 < maximum)
    (h : ¬ maximum / 2 < s.delay) : (s.delay * 2).toInt = s.delay.toInt * 2 := by
  have hbound := maximum.toInt_lt
  have hpos : (0 : Int) < s.delay.toInt := Int64.lt_iff_toInt_lt.1 hdelay
  rw [half_lt_iff hmaximum] at h
  rw [Int64.toInt_mul]
  change (s.delay.toInt * 2).bmod (2 ^ 64) = s.delay.toInt * 2
  exact Int.bmod_eq_of_le (by omega) (by omega)

structure Sound (attempt maximum : Int64) (s : LoopState) : Prop where
  step : s.step ≤ attempt
  delay : 0 < s.delay
  bounded : s.delay ≤ maximum

theorem Sound.maximum_pos (h : Sound attempt maximum s) : 0 < maximum :=
  Int64.lt_of_lt_of_le h.delay h.bounded

theorem Sound.toInt_pos (h : Sound attempt maximum s) : 0 < s.delay.toInt :=
  Int64.lt_iff_toInt_lt.1 h.delay

theorem Sound.next (h : Sound attempt maximum s) (hstep : s.step < attempt)
    (hhalf : ¬ maximum / 2 < s.delay) : Sound attempt maximum ⟨s.step + 1, s.delay * 2⟩ := by
  have hdouble := toInt_double h.delay h.maximum_pos hhalf
  have hsucc := step_succ hstep
  have hpos := h.toInt_pos
  rw [Int64.lt_iff_toInt_lt] at hstep
  rw [half_lt_iff h.maximum_pos] at hhalf
  refine ⟨Int64.le_iff_toInt_le.2 ?_, Int64.lt_iff_toInt_lt.2 ?_, Int64.le_iff_toInt_le.2 ?_⟩
  · rw [hsucc]
    omega
  · rw [hdouble]
    exact Int.mul_pos hpos (by decide)
  · rw [hdouble]
    omega

theorem toInt_retryLoop (h : Sound attempt maximum s) :
    (retryLoop attempt maximum s).2.toInt =
      min (s.delay.toInt * 2 ^ (attempt.toInt - s.step.toInt).toNat) maximum.toInt := by
  fun_induction retryLoop attempt maximum s with
  | case1 s hrun hhalf =>
    -- at least one doubling is left, and it would exceed the maximum
    have hlt := Int64.lt_iff_toInt_lt.1 hrun.1
    have hover := (half_lt_iff h.maximum_pos).1 hhalf
    have hpow : (2 : Int) ≤ 2 ^ (attempt.toInt - s.step.toInt).toNat :=
      le_self_pow₀ (by decide) (by omega)
    have hle := Int.mul_le_mul_of_nonneg_left hpow h.toInt_pos.le
    rw [min_eq_right (hover.le.trans hle)]
  | case2 s hrun hhalf states result heq ih =>
    have hlt := Int64.lt_iff_toInt_lt.1 hrun.1
    have hsucc := step_succ hrun.1
    have hrest : (attempt.toInt - s.step.toInt).toNat =
        (attempt.toInt - (s.step + 1).toInt).toNat + 1 := by omega
    rw [heq] at ih
    rw [ih (h.next hrun.1 hhalf), toInt_double h.delay h.maximum_pos hhalf, hrest, pow_succ',
      mul_assoc]
  | case3 s hrun =>
    have hstep := Int64.le_iff_toInt_le.1 h.step
    have hbounded := Int64.le_iff_toInt_le.1 h.bounded
    rw [if_neg (Int64.not_lt.2 h.bounded)]
    by_cases hdone : s.step < attempt
    · -- the delay is the maximum
      have hmaximum : s.delay.toInt = maximum.toInt :=
        hbounded.antisymm (Int64.le_iff_toInt_le.1 (Int64.not_lt.1 fun hd => hrun ⟨hdone, hd⟩))
      have hpow : (1 : Int) ≤ 2 ^ (attempt.toInt - s.step.toInt).toNat := one_le_pow₀ (by decide)
      have hle := Int.mul_le_mul_of_nonneg_left hpow h.toInt_pos.le
      rw [min_eq_right (by omega), hmaximum]
    · have hlast : s.step.toInt = attempt.toInt :=
        hstep.antisymm (Int64.le_iff_toInt_le.1 (Int64.not_lt.1 hdone))
      rw [hlast, Int.sub_self, Int.toNat_zero, pow_zero, mul_one, min_eq_left hbounded]

theorem Sound.of_mem (h : Sound attempt maximum s) :
    ∀ s' ∈ (retryLoop attempt maximum s).1, Sound attempt maximum s' ∧ s'.step < attempt := by
  fun_induction retryLoop attempt maximum s with
  | case1 s hrun hhalf =>
    intro s' hs'
    cases List.mem_singleton.1 hs'
    exact ⟨h, hrun.1⟩
  | case2 s hrun hhalf states result heq ih =>
    intro s' hs'
    rw [heq] at ih
    rcases List.mem_cons.1 hs' with rfl | hs'
    · exact ⟨h, hrun.1⟩
    · exact ih (h.next hrun.1 hhalf) s' hs'
  | case3 s hrun => simp

theorem length_retryLoop (h : Sound attempt maximum s) {k : ℕ}
    (hk : maximum.toInt < s.delay.toInt * 2 ^ k) : (retryLoop attempt maximum s).1.length ≤ k := by
  fun_induction retryLoop attempt maximum s generalizing k with
  | case1 s hrun hhalf =>
    have hlt := Int64.lt_iff_toInt_lt.1 hrun.2
    cases k with
    | zero => omega
    | succ k => simp
  | case2 s hrun hhalf states result heq ih =>
    have hlt := Int64.lt_iff_toInt_lt.1 hrun.2
    cases k with
    | zero => omega
    | succ k =>
      rw [heq] at ih
      refine Nat.succ_le_succ (ih (h.next hrun.1 hhalf) ?_)
      rw [toInt_double h.delay h.maximum_pos hhalf, mul_assoc, ← pow_succ']
      exact hk
  | case3 s hrun => simp

end Loop

variable {attempt initial maximum : Int64}

theorem sound_loopFrom (attempt : Int64) (hinitial : 0 < initial) (hle : initial ≤ maximum) :
    Sound (if attempt < 1 then 1 else attempt) maximum ⟨1, initial⟩ where
  step := by
    split
    · exact Int64.le_refl 1
    · next h => exact Int64.not_lt.1 h
  delay := hinitial
  bounded := hle

theorem toInt_retryDelay (hinitial : 0 < initial) (hle : initial ≤ maximum) :
    (retryDelay attempt initial maximum).toInt =
      min (initial.toInt * 2 ^ (max attempt.toInt 1 - 1).toNat) maximum.toInt := by
  have hmax : (if attempt < 1 then 1 else attempt).toInt = max attempt.toInt 1 := by
    split
    · next h => exact (max_eq_right (Int64.lt_iff_toInt_lt.1 h).le).symm
    · next h => exact (max_eq_left (Int64.le_iff_toInt_le.1 (Int64.not_lt.1 h))).symm
  rw [← hmax]
  exact toInt_retryLoop (sound_loopFrom attempt hinitial hle)

/-- The delay doubles with every attempt up to the maximum. No operation on the way leaves the
64-bit integers, and the body of the loop is entered at most 47 times. -/
theorem retryDelay_closed_form (attempt initial maximum : Int64) (hinitial : 0 < initial)
    (hle : initial ≤ maximum) (hday : maximum.toInt ≤ 86400 * 1000000000) :
    (retryDelay attempt initial maximum).toInt =
        min (initial.toInt * 2 ^ (max attempt.toInt 1 - 1).toNat) maximum.toInt ∧
      ((maximum / 2).toInt = maximum.toInt / 2 ∧
        ∀ s ∈ iterations attempt initial maximum, s.delay ≤ maximum / 2 →
          (s.delay * 2).toInt = s.delay.toInt * 2 ∧ (s.step + 1).toInt = s.step.toInt + 1) ∧
      (iterations attempt initial maximum).length ≤ 47 ∧
      ∀ attempt', attempt ≤ attempt' →
        retryDelay attempt initial maximum ≤ retryDelay attempt' initial maximum := by
  have hsound := sound_loopFrom attempt hinitial hle
  have hpos : (0 : Int) < initial.toInt := Int64.lt_iff_toInt_lt.1 hinitial
  refine ⟨toInt_retryDelay hinitial hle, ⟨toInt_half hsound.maximum_pos, ?_⟩, ?_, ?_⟩
  · intro s hs hhalf
    obtain ⟨hs, hstep⟩ := hsound.of_mem s hs
    exact ⟨toInt_double hs.delay hs.maximum_pos (Int64.not_lt.2 hhalf), step_succ hstep⟩
  · refine length_retryLoop hsound (hday.trans_lt ?_)
    have hone : (1 : Int) * 2 ^ 47 ≤ initial.toInt * 2 ^ 47 :=
      Int.mul_le_mul_of_nonneg_right hpos (by decide)
    exact lt_of_lt_of_le (by decide) hone
  · intro attempt' hattempt
    have hattempt := Int64.le_iff_toInt_le.1 hattempt
    have hpow : (2 : Int) ^ (max attempt.toInt 1 - 1).toNat ≤
        2 ^ (max attempt'.toInt 1 - 1).toNat := pow_le_pow_right₀ (by decide) (by omega)
    rw [Int64.le_iff_toInt_le, toInt_retryDelay hinitial hle, toInt_retryDelay hinitial hle]
    exact min_le_min_right _ (Int.mul_le_mul_of_nonneg_left hpow hpos.le)

theorem retryDelay_closed_form_ninth :
    (retryDelay 9 2000000000 300000000000).toInt = 300000000000 ∧
      (iterations 9 2000000000 300000000000).length ≤ 47 := by
  obtain ⟨hresult, -, hlength, -⟩ :=
    retryDelay_closed_form 9 2000000000 300000000000 (by decide) (by decide) (by decide)
  exact ⟨hresult.trans (by decide), hlength⟩

end GoScheduler.Notification.RetryDelay
