import GoScheduler.Schedule.DayRules

/-! The search for the next instant of a calendar rule. It goes month by month and leaves the
search within a month to the cron library, with an expression that names the day of that
month. What is assumed of the zone is that its months begin at midnight of their first day,
and of the library that it answers the least later instant that fits its fields. -/
namespace GoScheduler.Schedule
open Gregorian

/-- The instants from local midnight of the first of a month on are those of that month and of
the later ones, and the first of a month has a noon. -/
structure Location.MonthsBegin (loc : Location) : Prop where
  midnight (k t : Int) : k ≤ monthOf (loc.date t) ↔ loc.instant (first k) 0 ≤ t
  noon (k : Int) : monthOf (loc.noonDate (first k)) = k

def ClockFits := (second minute hour month : List Char) → (clock : Int) → (month : Fin 12) → Prop

def FieldsFit (fits : ClockFits) (loc : Location) (fields : List (List Char)) (u : Int) : Prop :=
  fits (fields.getD 0 []) (fields.getD 1 []) (fields.getD 2 []) (fields.getD 4 []) (loc.clock u)
    (month (monthOf (loc.date u)))

/-- With a day of the month and any day of the week, the library answers the least later
instant that fits, or the zero instant where none does within the horizon. -/
def Cron.Exact (cron : Cron) (fits : ClockFits) (loc : Location) (horizon : Int) : Prop :=
  ∀ (fields : List (List Char)) (day t : Int), fields.length = 6 →
    fields[3]? = some (itoa day) → fields[5]? = some ['*'] → cron.accepts fields →
    IsLeast {u | t < u ∧ FieldsFit fits loc fields u ∧ dayOf (loc.date u) = day}
        (cron.next fields loc t) ∨
      (cron.next fields loc t = zeroTime ∧ ∀ u, t < u → u ≤ t + horizon →
        ¬ (FieldsFit fits loc fields u ∧ dayOf (loc.date u) = day))

/-- An instant of the rule: its day is the one designated in its month, and its clock and
month fit the other fields. -/
def QuartzCalendarRule.Occurs (rule : QuartzCalendarRule) (fits : ClockFits) (loc : Location)
    (fields : List (List Char)) (u : Int) : Prop :=
  FieldsFit fits loc fields u ∧
    dayOf (loc.date u) = rule.dayInMonth loc (monthOf (loc.date u))

theorem one_le_dayOf (n : Int) : 1 ≤ dayOf n := by
  have := (monthOf_spec n).1
  unfold dayOf
  omega

section Search

variable {loc : Location} {cron : Cron} {fits : ClockFits} {horizon : Int}
  {rule : QuartzCalendarRule} {fields : List (List Char)}

structure Starts (loc : Location) (after month s : Int) : Prop where
  behind (u : Int) : s < u ↔ after < u ∧ month ≤ monthOf (loc.date u)
  low : loc.instant (first month) 0 - 1 ≤ s
  reached : monthOf (loc.date after) ≤ month

theorem starts_after (hloc : loc.MonthsBegin) (after : Int) :
    Starts loc after (monthOf (loc.date after)) after := by
  have hbegin := (hloc.midnight _ _).mp (le_refl (monthOf (loc.date after)))
  refine ⟨fun u => ⟨fun h => ⟨h, ?_⟩, fun h => h.1⟩, by omega, le_rfl⟩
  exact (hloc.midnight _ _).mpr (by omega)

theorem Starts.next (hloc : loc.MonthsBegin) {after month s : Int}
    (h : Starts loc after month s) :
    Starts loc after (month + 1) (loc.instant (first (month + 1)) 0 - 1) := by
  have hafter : after < loc.instant (first (month + 1)) 0 := by
    rw [← not_le, ← hloc.midnight]
    have := h.reached
    omega
  refine ⟨fun u => ?_, le_rfl, by have := h.reached; omega⟩
  rw [hloc.midnight]
  omega

theorem Starts.skip (hloc : loc.MonthsBegin) {after month s : Int}
    (h : Starts loc after month s)
    (hnone : ∀ u, s < u → monthOf (loc.date u) = month → ¬ rule.Occurs fits loc fields u)
    (u : Int) :
    (s < u ∧ rule.Occurs fits loc fields u) ↔
      (loc.instant (first (month + 1)) 0 - 1 < u ∧ rule.Occurs fits loc fields u) := by
  rw [h.behind, (h.next hloc).behind]
  constructor
  · rintro ⟨⟨hu, hm⟩, hocc⟩
    have hne : monthOf (loc.date u) ≠ month := fun heq =>
      hnone u ((h.behind u).mpr ⟨hu, hm⟩) heq hocc
    exact ⟨⟨hu, by omega⟩, hocc⟩
  · rintro ⟨⟨hu, hm⟩, hocc⟩
    exact ⟨⟨hu, by omega⟩, hocc⟩

theorem fieldsFit_set {day : Int} {u : Int} (hlen : fields.length = 6) :
    FieldsFit fits loc ((fields.set 3 (itoa day)).set 5 ['*']) u ↔
      FieldsFit fits loc fields u := by
  match fields, hlen with
  | [_, _, _, _, _, _], _ => exact Iff.rfl

variable (hloc : loc.MonthsBegin) (hcron : cron.Exact fits loc horizon)
  (hhorizon : ∀ k, loc.instant (first (k + 1)) 0 - loc.instant (first k) 0 ≤ horizon)
  (hlen : fields.length = 6)
include hloc hcron hhorizon hlen

theorem candidate_spec {after month s : Int} (h : Starts loc after month s)
    (haccepts : cron.accepts
      ((fields.set 3 (itoa (rule.dayInMonth loc month))).set 5 ['*'])) :
    let candidate :=
      cron.next ((fields.set 3 (itoa (rule.dayInMonth loc month))).set 5 ['*']) loc s
    if monthOf (loc.date candidate) = month ∧
        dayOf (loc.date candidate) = rule.dayInMonth loc month then
      candidate ≠ zeroTime → IsLeast {u | s < u ∧ rule.Occurs fits loc fields u} candidate
    else ∀ u, s < u → monthOf (loc.date u) = month → ¬ rule.Occurs fits loc fields u := by
  intro candidate
  have hexact := hcron ((fields.set 3 (itoa (rule.dayInMonth loc month))).set 5 ['*'])
    (rule.dayInMonth loc month) s (by simp [hlen]) (by simp [hlen]) (by simp [hlen]) haccepts
  simp only [fieldsFit_set hlen] at hexact
  have hwithin {u : Int} (hu : s < u) (hm : monthOf (loc.date u) = month)
      (hocc : rule.Occurs fits loc fields u) :
      FieldsFit fits loc fields u ∧ dayOf (loc.date u) = rule.dayInMonth loc month :=
    ⟨hocc.1, hm ▸ hocc.2⟩
  split_ifs with hdate
  · intro hz
    obtain ⟨⟨hs, hfits, hday⟩, hleast⟩ := hexact.resolve_right fun hzero => hz hzero.1
    refine ⟨⟨hs, hfits, by rw [hdate.1, hday]⟩, ?_⟩
    rintro u ⟨hu, hocc⟩
    have hge := ((h.behind u).mp hu).2
    by_cases hm : monthOf (loc.date u) = month
    · exact hleast ⟨hu, hwithin hu hm hocc⟩
    · -- Later months begin after this one has ended.
      have hnext := (hloc.midnight (month + 1) u).mp (by omega)
      have hthis : ¬ loc.instant (first (month + 1)) 0 ≤ candidate := by
        rw [← hloc.midnight]
        omega
      omega
  · intro u hu hm hocc
    rcases hexact with ⟨⟨hs, hfits, hday⟩, hleast⟩ | ⟨_, hnone⟩
    · have hle : candidate ≤ u := hleast ⟨hu, hwithin hu hm hocc⟩
      have hge := ((h.behind candidate).mp hs).2
      have hbegin := (hloc.midnight _ _).mp (le_refl (monthOf (loc.date candidate)))
      have hmono : monthOf (loc.date candidate) ≤ monthOf (loc.date u) :=
        (hloc.midnight _ _).mpr (by omega)
      exact hdate ⟨by omega, hday⟩
    · have hend : ¬ loc.instant (first (month + 1)) 0 ≤ u := by
        rw [← hloc.midnight]
        omega
      have := h.low
      have := hhorizon month
      exact hnone u hu (by omega) (hwithin hu hm hocc)

/-- The loop answers the least instant of the rule, and gives up only where the months it has
looked at have none. -/
theorem searchMonths_spec {after : Int} (left : ℕ) {month s : Int}
    (h : Starts loc after month s) :
    (∀ t, searchMonths loc cron rule fields left month s = .ok t → t ≠ zeroTime →
      IsLeast {u | s < u ∧ rule.Occurs fits loc fields u} t) ∧
    (searchMonths loc cron rule fields left month s =
        .error (.cron "cron has no matching calendar date within 100 years") →
      ∀ u, s < u → rule.Occurs fits loc fields u → month + left ≤ monthOf (loc.date u)) := by
  induction left generalizing month s with
  | zero =>
      refine ⟨fun t ht => by simp [searchMonths] at ht, fun _ u hu _ => ?_⟩
      have := ((h.behind u).mp hu).2
      omega
  | succ left ih =>
      obtain ⟨hok, herror⟩ := ih (h.next hloc)
      -- What the remaining months give is what this one gives where it has no instant.
      have hrest (hnone : ∀ u, s < u → monthOf (loc.date u) = month →
          ¬ rule.Occurs fits loc fields u) :
          (∀ t, searchMonths loc cron rule fields left (month + 1)
              (loc.instant (first (month + 1)) 0 - 1) = .ok t → t ≠ zeroTime →
            IsLeast {u | s < u ∧ rule.Occurs fits loc fields u} t) ∧
          (searchMonths loc cron rule fields left (month + 1)
              (loc.instant (first (month + 1)) 0 - 1) =
              .error (.cron "cron has no matching calendar date within 100 years") →
            ∀ u, s < u → rule.Occurs fits loc fields u →
              month + (left + 1 : ℕ) ≤ monthOf (loc.date u)) := by
        simp only [h.skip hloc hnone]
        refine ⟨hok, fun he u hu hocc => ?_⟩
        have := herror he u ((h.skip hloc hnone u).mp ⟨hu, hocc⟩).1 hocc
        omega
      simp only [searchMonths, hloc.noon]
      have hspec (ha : cron.accepts
          ((fields.set 3 (itoa (rule.dayInMonth loc month))).set 5 ['*'])) :=
        candidate_spec hloc hcron hhorizon hlen h ha
      split_ifs with hday haccepts hdate
      · simp
      · have hspec := hspec (by simpa using haccepts)
        rw [if_pos hdate] at hspec
        refine ⟨fun t ht hz => ?_, fun he => by cases he⟩
        cases ht
        exact hspec hz
      · have hspec := hspec (by simpa using haccepts)
        rw [if_neg hdate] at hspec
        exact hrest hspec
      · refine hrest fun u _ hm hocc => ?_
        have := one_le_dayOf (loc.date u)
        have := hocc.2
        rw [hm] at this
        omega

end Search

theorem fields_length_of_rule {toUpper : Char → Char} {expression : List Char}
    {rule : QuartzCalendarRule}
    (h : parseQuartzCalendarRule toUpper expression = .ok (some rule)) :
    (fieldsOf (expression.map toUpper)).length = 6 := by
  unfold parseQuartzCalendarRule at h
  split at h
  · next hfields => rw [hfields]; rfl
  · cases h

/-- The answer for a calendar rule is its least instant after `after`, and the search gives up
only where none of the 1200 months from that of `after` on has one. -/
theorem nextQuartzCalendar_least {toUpper : Char → Char} {expression : List Char}
    {rule : QuartzCalendarRule}
    (hrule : parseQuartzCalendarRule toUpper expression = .ok (some rule))
    {loc : Location} (hloc : loc.MonthsBegin) {cron : Cron} {fits : ClockFits} {horizon : Int}
    (hcron : cron.Exact fits loc horizon)
    (hhorizon : ∀ k, loc.instant (first (k + 1)) 0 - loc.instant (first k) 0 ≤ horizon)
    (after : Int) :
    (∀ t, nextQuartzCalendar loc cron rule toUpper expression after = .ok t → t ≠ zeroTime →
      IsLeast {u | after < u ∧ rule.Occurs fits loc (fieldsOf (expression.map toUpper)) u} t) ∧
    (nextQuartzCalendar loc cron rule toUpper expression after =
        .error (.cron "cron has no matching calendar date within 100 years") →
      ∀ u, after < u → rule.Occurs fits loc (fieldsOf (expression.map toUpper)) u →
        ¬ (monthOf (loc.date after) ≤ monthOf (loc.date u) ∧
          monthOf (loc.date u) < monthOf (loc.date after) + 1200)) := by
  obtain ⟨hok, herror⟩ := searchMonths_spec hloc hcron hhorizon (fields_length_of_rule hrule) 1200
    (starts_after hloc after)
  refine ⟨hok, fun he u hu hocc hmonths => ?_⟩
  have := herror he u hu hocc
  omega

section Library

theorem itoa_injective : Function.Injective itoa := by
  have hdigits {m n : ℕ} (h : Nat.toDigits 10 m = Nat.toDigits 10 n) : m = n := by
    rw [← @Nat.ofDigitChars_ten_toDigits m, h, Nat.ofDigitChars_ten_toDigits]
  have hsign (cs : List Char) (n : ℕ) : '-' :: cs ≠ Nat.toDigits 10 n := by
    intro h
    have hmem : '-' ∈ Nat.toDigits 10 n := h ▸ List.mem_cons_self
    exact absurd (Nat.isDigit_of_mem_toDigits (by decide) (by decide) hmem) (by decide)
  intro a b h
  unfold itoa at h
  split_ifs at h with ha hb hb
  · have := hdigits (List.cons.inj h).2
    omega
  · exact absurd h (hsign _ _)
  · exact absurd h.symm (hsign _ _)
  · have := hdigits h
    omega

open Classical in
noncomputable def exactCron (fits : ClockFits) (loc : Location) : Cron where
  accepts _ := true
  next fields _ t :=
    if h : ∃ n, IsLeast {u | t < u ∧ FieldsFit fits loc fields u ∧
        fields[3]? = some (itoa (dayOf (loc.date u)))} n then h.choose else zeroTime

theorem exactCron_exact (fits : ClockFits) (loc : Location) (horizon : Int) :
    (exactCron fits loc).Exact fits loc horizon := by
  intro fields day t _ hday _ _
  have hset : {u | t < u ∧ FieldsFit fits loc fields u ∧
      fields[3]? = some (itoa (dayOf (loc.date u)))} =
      {u | t < u ∧ FieldsFit fits loc fields u ∧ dayOf (loc.date u) = day} := by
    ext u
    simp [hday, itoa_injective.eq_iff, eq_comm]
  rw [← hset]
  by_cases h : ∃ n, IsLeast {u | t < u ∧ FieldsFit fits loc fields u ∧
      fields[3]? = some (itoa (dayOf (loc.date u)))} n
  · have hnext : (exactCron fits loc).next fields loc t = h.choose := dif_pos h
    exact .inl (hnext ▸ h.choose_spec)
  · refine .inr ⟨dif_neg h, fun u hu _ hfits => h ?_⟩
    -- A set of integers that is bounded below and not empty has a least element.
    rw [hset]
    obtain ⟨n, hn, hleast⟩ := Int.exists_least_of_bdd
      (P := fun v => t < v ∧ FieldsFit fits loc fields v ∧ dayOf (loc.date v) = day)
      ⟨t, fun v hv => hv.1.le⟩ ⟨u, hu, hfits⟩
    exact ⟨n, hn, fun v hv => hleast v hv⟩

theorem exactCron_next_eq {fits : ClockFits} {loc : Location} {fields : List (List Char)}
    {day t n : Int} (hlen : fields.length = 6) (hday : fields[3]? = some (itoa day))
    (hstar : fields[5]? = some ['*'])
    (h : IsLeast {u | t < u ∧ FieldsFit fits loc fields u ∧ dayOf (loc.date u) = day} n) :
    (exactCron fits loc).next fields loc t = n := by
  rcases exactCron_exact fits loc (n - t) fields day t hlen hday hstar rfl with hn | ⟨_, hnone⟩
  · exact hn.unique h
  · exact absurd h.1.2 (hnone n h.1.1 (by omega))

theorem utc_monthsBegin : utc.MonthsBegin where
  midnight k t := by
    rw [le_monthOf_iff]
    simp only [utc, second]
    omega
  noon k := by rw [utc_hasNoons k _ (monthOf_first k), monthOf_first]

theorem utc_month_le (k : Int) :
    utc.instant (first (k + 1)) 0 - utc.instant (first k) 0 ≤ 31 * (86400 * second) := by
  have := first_succ k
  have := length_bounds k
  simp only [utc, second]
  omega

def nineFits : ClockFits := fun _ _ _ _ clock _ => clock = 32400 * second

theorem lastOfJanuary_isLeast (fields : List (List Char)) :
    IsLeast {u | 0 < u ∧ FieldsFit nineFits utc fields u ∧ dayOf (utc.date u) = 31}
      (30 * (86400 * second) + 32400 * second) := by
  refine ⟨⟨by decide, by unfold FieldsFit nineFits; decide, by decide +kernel⟩, ?_⟩
  rintro u ⟨hu, hfits, hd⟩
  unfold FieldsFit nineFits at hfits
  have hfirst : first 23640 = 0 ∧ first (23640 + 1) = 31 := by decide +kernel
  have hrange := monthOf_eq_iff 23640 (utc.date u)
  rw [hfirst.1, hfirst.2] at hrange
  have hjanuary : ¬ monthOf (utc.date u) = 23640 ∨ utc.date u = 30 := by
    by_cases hm : monthOf (utc.date u) = 23640
    · rw [dayOf, hm, hfirst.1] at hd
      exact .inr (by omega)
    · exact .inl hm
  simp only [utc, second] at *
  omega

theorem nextQuartzCalendar_least_lastDay :
    parseQuartzCalendarRule Char.toUpper "0 0 9 L * ?".toList = .ok (some { kind := .lastDay }) ∧
    nextQuartzCalendar utc (exactCron nineFits utc) { kind := .lastDay } Char.toUpper
        "0 0 9 L * ?".toList 0 = .ok (30 * (86400 * second) + 32400 * second) ∧
    IsLeast {u | 0 < u ∧ ({ kind := .lastDay } : QuartzCalendarRule).Occurs nineFits utc
        (fieldsOf ("0 0 9 L * ?".toList.map Char.toUpper)) u}
      (30 * (86400 * second) + 32400 * second) := by
  have hrule : parseQuartzCalendarRule Char.toUpper "0 0 9 L * ?".toList =
      .ok (some { kind := .lastDay }) := by decide +kernel
  have hday : ({ kind := .lastDay } : QuartzCalendarRule).dayInMonth utc 23640 = 31 := by
    decide +kernel
  have hmonth : monthOf (utc.date 0) = 23640 := by decide +kernel
  have hfields : fieldsOf ("0 0 9 L * ?".toList.map Char.toUpper) =
      [['0'], ['0'], ['9'], ['L'], ['*'], ['?']] := by decide +kernel
  have hset : ([['0'], ['0'], ['9'], ['L'], ['*'], ['?']].set 3 (itoa 31)).set 5 ['*'] =
      [['0'], ['0'], ['9'], ['3', '1'], ['*'], ['*']] := by decide +kernel
  have hdate : monthOf (utc.date (30 * (86400 * second) + 32400 * second)) = 23640 ∧
      dayOf (utc.date (30 * (86400 * second) + 32400 * second)) = 31 := by decide +kernel
  have hcandidate : (exactCron nineFits utc).next
      [['0'], ['0'], ['9'], ['3', '1'], ['*'], ['*']] utc 0 =
      30 * (86400 * second) + 32400 * second :=
    exactCron_next_eq rfl (by decide +kernel) rfl (lastOfJanuary_isLeast _)
  have hok : nextQuartzCalendar utc (exactCron nineFits utc) { kind := .lastDay } Char.toUpper
      "0 0 9 L * ?".toList 0 = .ok (30 * (86400 * second) + 32400 * second) := by
    rw [nextQuartzCalendar, hmonth, hfields, searchMonths]
    simp only [hday, hset, hcandidate, hdate]
    rfl
  exact ⟨hrule, hok, (nextQuartzCalendar_least hrule utc_monthsBegin
    (exactCron_exact nineFits utc (31 * (86400 * second))) utc_month_le 0).1 _ hok (by decide)⟩

end Library

end GoScheduler.Schedule
