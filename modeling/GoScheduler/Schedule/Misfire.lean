import GoScheduler.Schedule
import Mathlib.Data.Set.Card

/-! What `Due` answers for a schedule that advances. The instants of such a schedule form an
orbit that increases until it stops; the search loop finds the first element of the orbit
after `now`, and collects elements of its head. -/
namespace GoScheduler.Schedule

def Advancing (next : Int → Except ScheduleError Int) : Prop :=
  ∀ t, ∃ u, next t = .ok u ∧ (u = zeroTime ∨ t < u)

/-- The instants of a schedule from `firstDue` on; the zero instant stops it. -/
def orbit (next : Int → Except ScheduleError Int) (firstDue : Int) : ℕ → Option Int
  | 0 => some firstDue
  | i + 1 => (orbit next firstDue i).bind fun t =>
      match next t with
      | .ok u => if u = zeroTime then none else some u
      | .error _ => none

def backlog (next : Int → Except ScheduleError Int) (firstDue now : Int) : Set Int :=
  {t | ∃ i, orbit next firstDue i = some t ∧ t ≤ now}

def FirstAfter (next : Int → Except ScheduleError Int) (firstDue now t : Int) : Prop :=
  (∃ i, orbit next firstDue i = some t ∧ now < t ∧
      ∀ j < i, ∀ s, orbit next firstDue j = some s → s ≤ now) ∨
    ((∀ i s, orbit next firstDue i = some s → s ≤ now) ∧ t = zeroTime)

section Orbit

variable {next : Int → Except ScheduleError Int} (hnext : Advancing next) {firstDue : Int}

theorem orbit_none_of_le {i j : ℕ} (hij : i ≤ j) (h : orbit next firstDue i = none) :
    orbit next firstDue j = none := by
  induction hij with
  | refl => exact h
  | step _ ih => simp [orbit, ih]

include hnext

theorem orbit_succ_lt {i : ℕ} {s t : Int} (hs : orbit next firstDue i = some s)
    (ht : orbit next firstDue (i + 1) = some t) : s < t := by
  obtain ⟨u, hu, hlater⟩ := hnext s
  simp only [orbit, hs, Option.bind_some, hu] at ht
  split_ifs at ht with hz
  cases ht
  exact hlater.resolve_left hz

theorem orbit_lt {i j : ℕ} (hij : i < j) {s t : Int} (hs : orbit next firstDue i = some s)
    (ht : orbit next firstDue j = some t) : s < t := by
  induction hij generalizing t with
  | refl => exact orbit_succ_lt hnext hs ht
  | @step j _ ih =>
      cases hj : orbit next firstDue j with
      | none => simp [orbit, hj] at ht
      | some u => exact (ih hj).trans (orbit_succ_lt hnext hj ht)

omit hnext in
theorem advance_stop {now t : Int} (collect : Bool) (limit fuel : ℕ) (due : List Int)
    (h : t = zeroTime ∨ now < t) :
    advance next now collect limit (fuel + 1) due t = .ok (due, t) := by
  rw [advance, if_pos h]

omit hnext in
theorem advance_step {now t u : Int} (collect : Bool) (limit fuel : ℕ) (due : List Int)
    (hz : t ≠ zeroTime) (hle : t ≤ now) (hu : next t = .ok u) :
    advance next now collect limit (fuel + 1) due t =
      advance next now collect limit fuel
        (if collect && u ≠ zeroTime && u ≤ now && due.length < limit then due ++ [u] else due)
        u := by
  rw [advance, if_neg (by simp [hz, hle]), hu]

/-- What the search loop answers from the `i`-th instant on: `k` is the place of the first
instant after `now`, or where the orbit stops before. -/
theorem advance_orbit {now : Int} (collect : Bool) (limit : ℕ) {fuel i : ℕ} {due : List Int}
    {t : Int} (ht : orbit next firstDue i = some t) (hz : t ≠ zeroTime)
    (hfuel : (now - t).toNat + 2 ≤ fuel ∨ (now < t ∧ 1 ≤ fuel)) :
    ∃ k, i ≤ k ∧
      (∀ j, i ≤ j → j < k → ∃ s, orbit next firstDue j = some s ∧ s ≤ now) ∧
      (∀ s, orbit next firstDue k = some s → now < s) ∧
      advance next now collect limit fuel due t =
        .ok (if collect then due ++ (((List.range' (i + 1) (k - (i + 1))).map fun j =>
            (orbit next firstDue j).getD zeroTime).take (limit - due.length)) else due,
          (orbit next firstDue k).getD zeroTime) := by
  induction fuel generalizing i t due with
  | zero => omega
  | succ fuel ih =>
      by_cases hnow : now < t
      · refine ⟨i, le_rfl, fun j h₁ h₂ => by omega, fun s hs => ?_, ?_⟩
        · cases ht.symm.trans hs
          exact hnow
        · simp [advance_stop collect limit fuel due (.inr hnow), ht]
      · obtain ⟨u, hu, hlater⟩ := hnext t
        have hstep : orbit next firstDue (i + 1) = if u = zeroTime then none else some u := by
          simp only [orbit, ht, Option.bind_some, hu]
        have hone : ∀ j, i ≤ j → j < i + 1 → ∃ s, orbit next firstDue j = some s ∧ s ≤ now := by
          intro j h₁ h₂
          rw [show j = i by omega]
          exact ⟨t, ht, not_lt.mp hnow⟩
        rw [advance_step collect limit fuel due hz (not_lt.mp hnow) hu]
        -- The orbit goes on within the backlog, or the next pass of the loop is the last.
        by_cases hon : u ≠ zeroTime ∧ u ≤ now
        · rw [if_neg hon.1] at hstep
          have hlt : t < u := hlater.resolve_left hon.1
          obtain ⟨k, hk, hmid, hend, hadv⟩ :=
            @ih (i + 1) (if collect && u ≠ zeroTime && u ≤ now && due.length < limit
              then due ++ [u] else due) u hstep hon.1 (.inl (by omega))
          have hne : k ≠ i + 1 := by
            rintro rfl
            exact absurd (hend u hstep) (not_lt.mpr hon.2)
          have hrange : k - (i + 1) = k - (i + 1 + 1) + 1 := by omega
          refine ⟨k, by omega, fun j h₁ h₂ => ?_, hend, ?_⟩
          · by_cases hj : j < i + 1
            · exact hone j h₁ hj
            · exact hmid j (by omega) h₂
          · rw [hadv, hrange, List.range'_succ, List.map_cons, hstep]
            by_cases hroom : due.length < limit
            · obtain ⟨room, hroom'⟩ : ∃ r, limit - due.length = r + 1 :=
                ⟨limit - due.length - 1, by omega⟩
              cases collect <;>
                simp [hon, hroom, hroom', show limit - (due.length + 1) = room by omega]
            · cases collect <;> simp [hroom, show limit - due.length = 0 by omega]
        · have hstop : u = zeroTime ∨ now < u := by
            by_contra h
            push Not at h
            exact hon h
          have hskip : (collect && u ≠ zeroTime && u ≤ now && due.length < limit) = false := by
            rcases hstop with h | h <;> simp [h]
          obtain ⟨fuel, rfl⟩ : ∃ m, fuel = m + 1 := ⟨fuel - 1, by omega⟩
          rw [hskip, if_neg Bool.false_ne_true, advance_stop collect limit fuel due hstop]
          refine ⟨i + 1, by omega, hone, fun s hs => ?_, ?_⟩
          · rw [hstep] at hs
            split_ifs at hs with hu0
            cases hs
            exact hstop.resolve_left hu0
          · rw [hstep]
            split_ifs <;> simp_all

variable {now : Int} {k : ℕ}
  (hmid : ∀ j < k, ∃ s, orbit next firstDue j = some s ∧ s ≤ now)
  (hend : ∀ s, orbit next firstDue k = some s → now < s)

include hend in
theorem orbit_after {j : ℕ} (hj : k ≤ j) {s : Int} (hs : orbit next firstDue j = some s) :
    now < s := by
  cases hk : orbit next firstDue k with
  | none => cases (orbit_none_of_le hj hk).symm.trans hs
  | some t =>
      rcases hj.eq_or_lt with rfl | hlt
      · exact hend s hs
      · exact (hend t hk).trans (orbit_lt hnext hlt hk hs)

include hmid hend

theorem mem_backlog_iff (t : Int) :
    t ∈ backlog next firstDue now ↔ ∃ j < k, orbit next firstDue j = some t := by
  constructor
  · rintro ⟨j, hj, hle⟩
    refine ⟨j, ?_, hj⟩
    by_contra hk
    exact absurd (orbit_after hnext hend (not_lt.mp hk) hj) (not_lt.mpr hle)
  · rintro ⟨j, hj, ht⟩
    obtain ⟨s, hs, hle⟩ := hmid j hj
    cases hs.symm.trans ht
    exact ⟨j, ht, hle⟩

theorem backlog_eq_image : backlog next firstDue now =
    (fun j => (orbit next firstDue j).getD zeroTime) '' (Finset.range k : Set ℕ) := by
  ext t
  rw [mem_backlog_iff hnext hmid hend]
  simp only [Set.mem_image, Finset.coe_range, Set.mem_Iio]
  constructor
  · rintro ⟨j, hj, ht⟩
    exact ⟨j, hj, by rw [ht, Option.getD_some]⟩
  · rintro ⟨j, hj, rfl⟩
    obtain ⟨s, hs, _⟩ := hmid j hj
    exact ⟨j, hj, by rw [hs, Option.getD_some]⟩

theorem ncard_backlog : (backlog next firstDue now).ncard = k := by
  have hinj : Set.InjOn (fun j => (orbit next firstDue j).getD zeroTime)
      (Finset.range k : Set ℕ) := by
    intro i hi j hj hij
    obtain ⟨s, hs, _⟩ := hmid i (by simpa using hi)
    obtain ⟨t, ht, _⟩ := hmid j (by simpa using hj)
    simp only [hs, ht, Option.getD_some] at hij
    subst hij
    by_contra hne
    rcases Nat.lt_or_gt_of_ne hne with h | h
    · exact lt_irrefl _ (orbit_lt hnext h hs ht)
    · exact lt_irrefl _ (orbit_lt hnext h ht hs)
  rw [backlog_eq_image hnext hmid hend, hinj.ncard_image, Set.ncard_coe_finset,
    Finset.card_range]

omit hnext in
theorem firstAfter_of : FirstAfter next firstDue now ((orbit next firstDue k).getD zeroTime) := by
  cases hk : orbit next firstDue k with
  | none =>
      refine .inr ⟨fun i s hs => ?_, rfl⟩
      have hi : i < k := by
        by_contra h
        cases (orbit_none_of_le (not_lt.mp h) hk).symm.trans hs
      obtain ⟨s', hs', hle⟩ := hmid i hi
      cases hs'.symm.trans hs
      exact hle
  | some t =>
      refine .inl ⟨k, hk, hend t hk, fun j hj s hs => ?_⟩
      obtain ⟨s', hs', hle⟩ := hmid j hj
      cases hs'.symm.trans hs
      exact hle

omit hnext hend in
theorem collected_eq {limit : ℕ} (hk : 0 < k) (hlimit : 0 < limit) :
    (firstDue :: ((List.range' 1 (k - 1)).map fun j =>
      (orbit next firstDue j).getD zeroTime).take (limit - 1)).map some =
      (List.range (min k limit)).map (orbit next firstDue) := by
  obtain ⟨n, rfl⟩ : ∃ n, k = n + 1 := ⟨k - 1, by omega⟩
  obtain ⟨m, rfl⟩ : ∃ m, limit = m + 1 := ⟨limit - 1, by omega⟩
  have hsome : ∀ j ∈ List.range (min (n + 1) (m + 1)),
      some ((orbit next firstDue j).getD zeroTime) = orbit next firstDue j := by
    intro j hj
    obtain ⟨s, hs, _⟩ := hmid j (by simp at hj; omega)
    rw [hs, Option.getD_some]
  have hhead : (List.range (min (n + 1) (m + 1))).map (fun j =>
      (orbit next firstDue j).getD zeroTime) = firstDue :: ((List.range' 1 n).map fun j =>
        (orbit next firstDue j).getD zeroTime).take m := by
    rw [Nat.min_comm, ← List.take_range, List.range_eq_range', List.range'_succ,
      List.take_succ_cons,
      List.map_cons, ← List.map_take]
    rfl
  rw [Nat.add_sub_cancel, Nat.add_sub_cancel, ← hhead, List.map_map]
  exact List.map_congr_left hsome

end Orbit

section Due

variable {cal : Calendar} {scheduleType : ScheduleType} {expression timezone : String}
  {policy : MisfirePolicy} {firstDue : Int}

/-- Which occurrences a misfired schedule fires and which instant it waits for next, by its
policy: `skip` and `fire_once` are about the first instant only, `catch_up` fires the head of
the backlog, and a fixed delay waits for the run it fires. -/
theorem due_exact (hnext : Advancing (next cal scheduleType expression timezone))
    (hpolicy : policy = .skip ∨ policy = .fireOnce ∨ policy = .catchUp)
    (hfirst : firstDue ≠ zeroTime) (now maxCatchUp : Int) :
    let next := next cal scheduleType expression timezone
    let answer := due cal scheduleType expression timezone policy firstDue now maxCatchUp
    (now < firstDue → answer = .ok ([], firstDue)) ∧
    (firstDue ≤ now → scheduleType ≠ .fixedDelay →
      (backlog next firstDue now).Finite ∧
      ∃ times t, answer = .ok (times, t) ∧ FirstAfter next firstDue now t ∧
        (policy = .catchUp → times.map some =
          (List.range (min (backlog next firstDue now).ncard
            (if maxCatchUp < 1 then 10 else maxCatchUp.toNat))).map (orbit next firstDue)) ∧
        (policy ≠ .catchUp → now - firstDue ≤ 2 * second → times = [firstDue]) ∧
        (policy = .skip → 2 * second < now - firstDue → times = []) ∧
        (policy = .fireOnce → 2 * second < now - firstDue → times = [now])) ∧
    (firstDue ≤ now → scheduleType = .fixedDelay →
      (policy = .skip ∧ 2 * second < now - firstDue →
        ∃ t, next now = .ok t ∧ answer = .ok ([], t)) ∧
      (¬ (policy = .skip ∧ 2 * second < now - firstDue) →
        ∃ times, times.length ≤ 1 ∧ answer = .ok (times, zeroTime))) := by
  intro next answer
  refine ⟨fun hlt => ?_, fun hle htype => ?_, fun hle htype => ?_⟩
  · simp only [answer, due, if_pos hlt]
  · have hloop (collect : Bool) (limit : ℕ) (times : List Int) :
        ∃ k, (∀ j < k, ∃ s, orbit next firstDue j = some s ∧ s ≤ now) ∧
          (∀ s, orbit next firstDue k = some s → now < s) ∧
          advance next now collect limit (fuelFor firstDue now) times firstDue =
            .ok (if collect then times ++ (((List.range' 1 (k - 1)).map fun j =>
              (orbit next firstDue j).getD zeroTime).take (limit - times.length)) else times,
            (orbit next firstDue k).getD zeroTime) := by
      obtain ⟨k, _, hmid, hend, hadv⟩ := @advance_orbit _ hnext firstDue now collect limit
        (fuelFor firstDue now) 0 times firstDue rfl hfirst (.inl le_rfl)
      exact ⟨k, fun j => hmid j (Nat.zero_le j), hend, hadv⟩
    have hfinite {k : ℕ} (hmid : ∀ j < k, ∃ s, orbit next firstDue j = some s ∧ s ≤ now)
        (hend : ∀ s, orbit next firstDue k = some s → now < s) :
        (backlog next firstDue now).Finite := by
      rw [backlog_eq_image hnext hmid hend]
      exact (Finset.finite_toSet _).image _
    simp only [answer, due, if_neg (not_lt.mpr hle), if_neg htype]
    rcases hpolicy with rfl | rfl | rfl
    · obtain ⟨k, hmid, hend, hadv⟩ :=
        hloop false 0 (if 2 * second < now - firstDue then [] else [firstDue])
      refine ⟨hfinite hmid hend, _, _, hadv, firstAfter_of hmid hend, ?_, ?_, ?_, ?_⟩
      · simp
      · intro _ h
        simp [not_lt.mpr h]
      · intro _ h
        simp [h]
      · simp
    · obtain ⟨k, hmid, hend, hadv⟩ :=
        hloop false 0 (if 2 * second < now - firstDue then [now] else [firstDue])
      refine ⟨hfinite hmid hend, _, _, hadv, firstAfter_of hmid hend, ?_, ?_, ?_, ?_⟩
      · simp
      · intro _ h
        simp [not_lt.mpr h]
      · simp
      · intro _ h
        simp [h]
    · obtain ⟨k, hmid, hend, hadv⟩ :=
        hloop true (if maxCatchUp < 1 then 10 else maxCatchUp.toNat) [firstDue]
      have hk : 0 < k := by
        rcases Nat.eq_zero_or_pos k with rfl | hk
        · exact absurd (hend firstDue rfl) (not_lt.mpr hle)
        · exact hk
      refine ⟨hfinite hmid hend, _, _, hadv, firstAfter_of hmid hend, fun _ => ?_, ?_, ?_, ?_⟩
      · rw [ncard_backlog hnext hmid hend]
        exact collected_eq hmid hk (by split_ifs <;> omega)
      · simp
      · simp
      · simp
  · simp only [answer, due, if_neg (not_lt.mpr hle), if_pos htype]
    obtain ⟨t, ht, _⟩ := hnext now
    refine ⟨?_, ?_⟩
    · rintro ⟨rfl, hlate⟩
      exact ⟨t, ht, by rw [if_pos hlate, ht]; rfl⟩
    · intro h
      split_ifs with hlate
      · rcases hpolicy with rfl | rfl | rfl
        · exact absurd ⟨rfl, hlate⟩ h
        · exact ⟨[now], le_rfl, rfl⟩
        · exact ⟨[now], le_rfl, rfl⟩
      · exact ⟨[firstDue], le_rfl, rfl⟩

def everyMinute : Int → Except ScheduleError Int :=
  next ⟨fun _ => true, fun _ _ _ => .ok zeroTime⟩ .fixedRate "60" "UTC"

theorem everyMinute_advancing : Advancing everyMinute := by
  intro t
  have hparse : parseInt "60" = some 60 := by decide +kernel
  have hwrap : wrapDuration (60 * second) = 60 * second := by decide +kernel
  refine ⟨t + 60 * second, ?_, .inr ?_⟩
  · simp [everyMinute, next, hparse, hwrap]
  · have : 0 < 60 * second := by decide
    omega

theorem due_exact_everyMinute :
    due ⟨fun _ => true, fun _ _ _ => .ok zeroTime⟩ .fixedRate "60" "UTC" .catchUp 0
        (150 * second) 2 = .ok ([0, 60 * second], 180 * second) ∧
      FirstAfter everyMinute 0 (150 * second) (180 * second) := by
  have hdue : due ⟨fun _ => true, fun _ _ _ => .ok zeroTime⟩ .fixedRate "60" "UTC" .catchUp 0
      (150 * second) 2 = .ok ([0, 60 * second], 180 * second) := by
    decide +kernel
  obtain ⟨_, times, t, hok, hafter, _⟩ :=
    (due_exact everyMinute_advancing (.inr (.inr rfl)) (show (0 : Int) ≠ zeroTime by decide)
      (150 * second) 2).2.1 (by decide) (by decide)
  cases hdue.symm.trans hok
  exact ⟨hdue, hafter⟩

end Due

end GoScheduler.Schedule
