import GoScheduler.Fallible
import GoScheduler.Schedule.Quartz

/-! What the calendar rules of Quartz designate, said by the days of the month and their
weekdays, and how the day computed for a month compares with it. A rule that designates no
day of a month gives zero, with one exception: `L-n` gives a negative day where the month is
shorter than `n` days. -/
namespace GoScheduler.Schedule
open Gregorian

/-- Every date of the month has a noon in the location. It is not so where a zone has left out a
date, as Apia has the thirtieth of December 2011. -/
def Location.HasNoons (loc : Location) (month : Int) : Prop :=
  ∀ day, monthOf day = month → loc.noonDate day = day

def InMonth (month d : Int) : Prop := 1 ≤ d ∧ d ≤ length month

def weekdayOn (month d : Int) : Int := weekday (first month + d - 1)

def WorkingDay (month d : Int) : Prop := weekdayOn month d ≠ 0 ∧ weekdayOn month d ≠ 6

/-- The working day of the month nearest to a day of it. -/
def Nearest (month n d : Int) : Prop :=
  InMonth month n ∧ InMonth month d ∧ WorkingDay month d ∧
    ∀ e, InMonth month e → WorkingDay month e → (d - n).natAbs ≤ (e - n).natAbs

def QuartzCalendarRule.Designates (rule : QuartzCalendarRule) (month d : Int) : Prop :=
  match rule.kind with
  | .lastDay => InMonth month d ∧ d = length month - rule.offset
  | .nearestWeekday => Nearest month rule.day d
  | .lastWeekdayOfMonth => Nearest month (length month - rule.offset) d
  | .lastDayOfWeek =>
      InMonth month d ∧ weekdayOn month d = rule.day - 1 ∧
        ∀ e, InMonth month e → weekdayOn month e = rule.day - 1 → e ≤ d
  | .nthDayOfWeek =>
      InMonth month d ∧ weekdayOn month d = rule.day - 1 ∧
        ((List.range d.toNat).countP fun i : ℕ => weekdayOn month (i + 1) = rule.day - 1) =
          rule.week

def QuartzCalendarRule.Valid (rule : QuartzCalendarRule) : Prop :=
  match rule.kind with
  | .lastDay | .lastWeekdayOfMonth => 0 ≤ rule.offset ∧ rule.offset ≤ 30
  | .nearestWeekday => 1 ≤ rule.day ∧ rule.day ≤ 31
  | .lastDayOfWeek => 1 ≤ rule.day ∧ rule.day ≤ 7
  | .nthDayOfWeek => (1 ≤ rule.day ∧ rule.day ≤ 7) ∧ 1 ≤ rule.week ∧ rule.week ≤ 5

section Parser

theorem toNat_le_of_isDigit {c : Char} (h : c.isDigit) : c.toNat ≤ 57 := by
  simp only [Char.isDigit, Bool.and_eq_true, decide_eq_true_eq, UInt32.le_iff_toNat_le] at h
  exact h.2

theorem atoi_nonneg {text : List Char} (hlen : text.length ≤ 2) (h : ∀ c ∈ text, c.isDigit) :
    0 ≤ (atoi text).getD 0 := by
  have hsmall : Nat.ofDigitChars 10 text 0 < 2 ^ 63 := by
    match text, hlen with
    | [], _ => decide
    | [a], _ =>
        have := toNat_le_of_isDigit (h a List.mem_cons_self)
        simp only [Nat.ofDigitChars_cons, Nat.ofDigitChars_nil]
        omega
    | [a, b], _ =>
        have := toNat_le_of_isDigit (h a List.mem_cons_self)
        have := toNat_le_of_isDigit (h b (List.mem_cons_of_mem _ List.mem_cons_self))
        simp only [Nat.ofDigitChars_cons, Nat.ofDigitChars_nil]
        omega
  by_cases hne : text = []
  · rw [hne]
    decide
  · rw [atoi, parseInt_digits hne h hsmall]
    exact Int.natCast_nonneg _

theorem lastDayPattern_digits {dom digits : List Char} {weekday : Bool}
    (h : lastDayPattern dom = some (digits, weekday)) :
    digits.length ≤ 2 ∧ ∀ c ∈ digits, c.isDigit := by
  unfold lastDayPattern at h
  split at h
  · cases h
    simp
  · cases h
    simp
  · split_ifs at h with ha
    cases h
    simp [ha]
  · split_ifs at h with hab ha
    · cases h
      simpa using hab
    · cases h
      simp_all
  · split_ifs at h with hab
    cases h
    simpa using hab
  · cases h

theorem quartzDayOfWeek_bounds {value : List Char} {day : Int}
    (h : quartzDayOfWeek value = .ok day) : 1 ≤ day ∧ day ≤ 7 := by
  unfold quartzDayOfWeek at h
  split at h
  · next d hd =>
      cases h
      obtain ⟨l₁, l₂, hnames, _⟩ := List.lookup_eq_some_iff.mp hd
      have hbounds : ∀ p ∈ dayNames, 1 ≤ p.2 ∧ p.2 ≤ 7 := by decide
      exact hbounds (value, day) (hnames ▸ List.mem_append_right _ List.mem_cons_self)
  · split at h
    · split_ifs at h
      cases h
      omega
    · cases h

theorem nthDOWPattern_week {dow token : List Char} {week : Char}
    (h : nthDOWPattern dow = some (token, week)) :
    1 ≤ (atoi [week]).getD 0 ∧ (atoi [week]).getD 0 ≤ 5 := by
  unfold nthDOWPattern at h
  split at h
  · split_ifs at h with hw
    cases h
    simp only [Bool.and_eq_true, decide_eq_true_eq, Char.le_def, UInt32.le_iff_toNat_le] at hw
    have hlow : 49 ≤ week.toNat := hw.1.1
    have hhigh : week.toNat ≤ 53 := hw.1.2
    have hdigit : ∀ c ∈ [week], c.isDigit := by
      intro c hc
      rw [List.mem_singleton.mp hc, Char.isDigit]
      simp only [Bool.and_eq_true, decide_eq_true_eq, UInt32.le_iff_toNat_le]
      exact ⟨le_trans (by decide) hlow, hhigh.trans (by decide)⟩
    have hvalue : Nat.ofDigitChars 10 [week] 0 = week.toNat - 48 := by
      simp [Nat.ofDigitChars_cons]
    rw [atoi, parseInt_digits (List.cons_ne_nil _ _) hdigit (by rw [hvalue]; omega), hvalue]
    simp only [Option.getD_some]
    omega
  · cases h

theorem dayOfMonthRule_valid {dom dow : List Char} {rule : QuartzCalendarRule}
    (h : dayOfMonthRule dom dow = some (.ok rule)) : rule.Valid := by
  unfold dayOfMonthRule at h
  split at h
  · next digits weekday hd =>
      obtain ⟨hlen, hdigits⟩ := lastDayPattern_digits hd
      have hoffset : 0 ≤ if digits = [] then 0 else (atoi digits).getD 0 := by
        split_ifs
        · exact le_rfl
        · exact atoi_nonneg hlen hdigits
      have h := Option.some.inj h
      generalize (if digits = [] then 0 else (atoi digits).getD 0) = offset at h hoffset
      simp only at h
      split_ifs at h with _ hle hw <;> cases h <;> exact ⟨hoffset, not_lt.mp hle⟩
  · obtain ⟨digits, hd, h⟩ := Option.map_eq_some_iff.mp h
    simp only at h
    split_ifs at h
    cases h
    simp only [QuartzCalendarRule.Valid]
    omega

theorem dayOfWeekRule_valid {dom dow : List Char} {rule : QuartzCalendarRule}
    (h : dayOfWeekRule dom dow = some (.ok rule)) : rule.Valid := by
  unfold dayOfWeekRule at h
  split at h
  · have h := Option.some.inj h
    split_ifs at h
    obtain ⟨day, hday, rfl⟩ := Fallible.exists_of_map_ok h
    exact quartzDayOfWeek_bounds hday
  · obtain ⟨⟨token, week⟩, hd, h⟩ := Option.map_eq_some_iff.mp h
    split_ifs at h
    obtain ⟨day, hday, rfl⟩ := Fallible.exists_of_map_ok h
    exact ⟨quartzDayOfWeek_bounds hday, nthDOWPattern_week hd⟩

theorem parseQuartzCalendarRule_valid {toUpper : Char → Char} {expression : List Char}
    {rule : QuartzCalendarRule}
    (h : parseQuartzCalendarRule toUpper expression = .ok (some rule)) : rule.Valid := by
  unfold parseQuartzCalendarRule at h
  split at h
  · split at h
    · next result hd =>
        obtain ⟨r, rfl, hr⟩ := Fallible.exists_of_map_ok h
        cases hr
        exact dayOfMonthRule_valid hd
    · split at h
      · next result hd =>
          obtain ⟨r, rfl, hr⟩ := Fallible.exists_of_map_ok h
          cases hr
          exact dayOfWeekRule_valid hd
      · split_ifs at h
        cases h
  · cases h

end Parser

section Days

variable {loc : Location} {month : Int} (hloc : loc.HasNoons month)
include hloc

theorem noonDate_eq {d : Int} (hd : InMonth month d) :
    loc.noonDate (first month + d - 1) = first month + d - 1 := by
  have := first_succ month
  obtain ⟨hlow, hhigh⟩ := hd
  exact hloc _ ((monthOf_eq_iff _ _).mpr ⟨by omega, by omega⟩)

theorem lastDay_eq : dayOf (loc.noonDate (first (month + 1) - 1)) = length month := by
  have hmonth : monthOf (first (month + 1) - 1) = month := by
    have := first_succ month
    have := length_bounds month
    exact (monthOf_eq_iff _ _).mpr ⟨by omega, by omega⟩
  rw [hloc _ hmonth, dayOf, hmonth, first_succ]
  omega

omit hloc in
theorem weekdayOn_eq (month d : Int) : weekdayOn month d = (first month + d + 3) % 7 := by
  rw [weekdayOn, weekday]
  congr 1
  omega

/-- A weekend moves to the working day beside it, or over the weekend where that day is
outside the month. -/
theorem nearest_iff {n : Int} (hn : InMonth month n) (d : Int) :
    Nearest month n d ↔ d = nearestWeekday loc month n (length month) := by
  have hlen := length_bounds month
  have hmin (c : Int) (hc : InMonth month c) (hw : WorkingDay month c)
      (h : ∀ e, InMonth month e → WorkingDay month e → e ≠ c → (c - n).natAbs < (e - n).natAbs) :
      Nearest month n d ↔ d = c := by
    constructor
    · intro hd
      by_contra hne
      exact absurd (hd.2.2.2 c hc hw) (not_le.mpr (h d hd.2.1 hd.2.2.1 hne))
    · rintro rfl
      refine ⟨hn, hc, hw, fun e he hwe => ?_⟩
      by_cases hed : e = d
      · rw [hed]
      · exact (h e he hwe hed).le
  have hday : weekday (loc.noonDate (first month + n - 1)) = weekdayOn month n := by
    rw [noonDate_eq hloc hn, weekdayOn]
  simp only [nearestWeekday, hday]
  unfold InMonth WorkingDay at *
  simp only [weekdayOn_eq] at *
  split_ifs with hsat hone hsun hlast
  · exact hmin _ (by omega) (by omega) (by omega)
  · exact hmin _ (by omega) (by omega) (by omega)
  · exact hmin _ (by omega) (by omega) (by omega)
  · exact hmin _ (by omega) (by omega) (by omega)
  · exact hmin _ (by omega) (by omega) (by omega)

omit hloc in
/-- Among the first `n` days of a week that starts at `a`, every seventh is the weekday `w`. -/
theorem countP_weekday (a w : Int) (hw : 0 ≤ w ∧ w < 7) (n : ℕ) :
    (((List.range n).countP fun i : ℕ => (a + i) % 7 = w : ℕ) : Int) =
      (n + 6 - (w - a) % 7) / 7 := by
  induction n with
  | zero =>
      simp only [List.range_zero, List.countP_nil]
      omega
  | succ n ih =>
      rw [List.range_succ, List.countP_append, Nat.cast_add, ih, List.countP_singleton]
      by_cases h : (a + n) % 7 = w
      · simp only [h, decide_true, if_true]
        omega
      · simp only [h, decide_false, Bool.false_eq_true, if_false]
        omega

omit hloc in
theorem lastWeekday_iff (month d : Int) {w : Int} (hw : 0 ≤ w ∧ w < 7) :
    (InMonth month d ∧ weekdayOn month d = w ∧
      ∀ e, InMonth month e → weekdayOn month e = w → e ≤ d) ↔
      length month - (weekdayOn month (length month) - w + 7) % 7 = d ∧ InMonth month d := by
  have hlen := length_bounds month
  unfold InMonth
  simp only [weekdayOn_eq]
  constructor
  · rintro ⟨hd, hdw, hmax⟩
    have := hmax (length month - ((first month + length month + 3) % 7 - w + 7) % 7)
      (by omega) (by omega)
    omega
  · rintro ⟨rfl, hd⟩
    exact ⟨hd, by omega, fun e he hew => by omega⟩

omit hloc in
theorem nthWeekday_iff (month d week : Int) {w : Int} (hw : 0 ≤ w ∧ w < 7) :
    (InMonth month d ∧ weekdayOn month d = w ∧
      ((List.range d.toNat).countP fun i : ℕ => weekdayOn month (i + 1) = w) = week) ↔
      1 + (w - weekdayOn month 1 + 7) % 7 + (week - 1) * 7 = d ∧ InMonth month d := by
  have hcount := countP_weekday (first month + 4) w hw d.toNat
  have hshift (i : ℕ) : weekdayOn month (i + 1) = (first month + 4 + i) % 7 := by
    rw [weekdayOn_eq]
    congr 1
    omega
  simp only [hshift, hcount]
  unfold InMonth
  simp only [weekdayOn_eq]
  omega

theorem designates_iff {rule : QuartzCalendarRule} (hv : rule.Valid) (d : Int) :
    rule.Designates month d ↔ rule.dayInMonth loc month = d ∧ InMonth month d := by
  have hlen := length_bounds month
  have hnear (n : Int) (hn : InMonth month n) :
      InMonth month (nearestWeekday loc month n (length month)) :=
    ((nearest_iff hloc hn _).mpr rfl).2.1
  unfold QuartzCalendarRule.Designates QuartzCalendarRule.dayInMonth QuartzCalendarRule.Valid at *
  simp only [lastDay_eq hloc]
  cases hk : rule.kind with
  | lastDay =>
      simp only
      exact ⟨fun h => ⟨h.2.symm, h.1⟩, fun h => ⟨h.2, h.1.symm⟩⟩
  | nearestWeekday =>
      simp only [hk] at hv ⊢
      split_ifs with h
      · constructor
        · intro hd
          exact absurd hd.1.2 (not_le.mpr h)
        · rintro ⟨rfl, hd⟩
          exact absurd hd.1 (by decide)
      · have hn : InMonth month rule.day := ⟨hv.1, not_lt.mp h⟩
        rw [nearest_iff hloc hn]
        exact ⟨fun hd => ⟨hd.symm, hd ▸ hnear _ hn⟩, fun hd => hd.1.symm⟩
  | lastWeekdayOfMonth =>
      simp only [hk] at hv ⊢
      split_ifs with h
      · constructor
        · intro hd
          exact absurd hd.1.1 (not_le.mpr h)
        · rintro ⟨rfl, hd⟩
          exact absurd hd.1 (by decide)
      · have hn : InMonth month (length month - rule.offset) := ⟨not_lt.mp h, by omega⟩
        rw [nearest_iff hloc hn]
        exact ⟨fun hd => ⟨hd.symm, hd ▸ hnear _ hn⟩, fun hd => hd.1.symm⟩
  | lastDayOfWeek =>
      simp only [hk] at hv ⊢
      rw [lastWeekday_iff month d (by omega), noonDate_eq hloc ⟨by omega, le_rfl⟩, ← weekdayOn,
        Int.tmod_eq_emod_of_nonneg]
      rw [weekdayOn_eq]
      omega
  | nthDayOfWeek =>
      simp only [hk] at hv ⊢
      have hfirst : weekday (loc.noonDate (first month)) = weekdayOn month 1 := by
        have hnoon := noonDate_eq hloc (d := 1) ⟨le_rfl, by omega⟩
        rw [Int.add_sub_cancel] at hnoon
        rw [hnoon, weekdayOn, Int.add_sub_cancel]
      rw [nthWeekday_iff month d rule.week (by omega), hfirst,
        Int.tmod_eq_emod_of_nonneg (by rw [weekdayOn_eq]; omega)]
      unfold InMonth
      split_ifs <;> omega

theorem dayInMonth_zero_or_inMonth_iff {rule : QuartzCalendarRule} (hv : rule.Valid) :
    (rule.dayInMonth loc month = 0 ∨ InMonth month (rule.dayInMonth loc month)) ↔
      ¬ (rule.kind = .lastDay ∧ (length month : Int) < rule.offset) := by
  have hlen := length_bounds month
  have hnear (n : Int) (hn : InMonth month n) :
      InMonth month (nearestWeekday loc month n (length month)) :=
    ((nearest_iff hloc hn _).mpr rfl).2.1
  unfold QuartzCalendarRule.dayInMonth QuartzCalendarRule.Valid at *
  simp only [lastDay_eq hloc]
  cases hk : rule.kind with
  | lastDay =>
      simp only [hk] at hv ⊢
      unfold InMonth
      simp only [true_and]
      omega
  | nearestWeekday =>
      simp only [hk] at hv ⊢
      split_ifs with h
      · simp
      · simpa using Or.inr (hnear _ ⟨hv.1, not_lt.mp h⟩)
  | lastWeekdayOfMonth =>
      simp only [hk] at hv ⊢
      split_ifs with h
      · simp
      · simpa using Or.inr (hnear _ ⟨not_lt.mp h, by omega⟩)
  | lastDayOfWeek =>
      simp only [hk] at hv ⊢
      have hw : 0 ≤ weekday (loc.noonDate (first month + length month - 1)) := by
        unfold weekday
        omega
      rw [Int.tmod_eq_emod_of_nonneg (by omega)]
      unfold InMonth
      simp only [reduceCtorEq, false_and, not_false_eq_true, iff_true]
      omega
  | nthDayOfWeek =>
      simp only [hk] at hv ⊢
      have hw : weekday (loc.noonDate (first month)) < 7 := by
        unfold weekday
        omega
      rw [Int.tmod_eq_emod_of_nonneg (by omega)]
      unfold InMonth
      simp only [reduceCtorEq, false_and, not_false_eq_true, iff_true]
      split_ifs <;> omega

end Days

/-- The day computed for a month is zero exactly where the rule designates no day of it, and
otherwise the designated one. -/
def QuartzCalendarRule.Computed (loc : Location) (rule : QuartzCalendarRule) (month : Int) :
    Prop :=
  (rule.dayInMonth loc month = 0 ↔ ∀ d, ¬ rule.Designates month d) ∧
    ∀ d, rule.Designates month d →
      rule.dayInMonth loc month = d ∧ 1 ≤ d ∧ d ≤ length month

theorem dayInMonth_computed_iff {toUpper : Char → Char} {expression : List Char}
    {rule : QuartzCalendarRule}
    (hparse : parseQuartzCalendarRule toUpper expression = .ok (some rule)) {loc : Location}
    {month : Int} (hloc : loc.HasNoons month) :
    rule.Computed loc month ↔
      ¬ (rule.kind = .lastDay ∧ (length month : Int) < rule.offset) := by
  have hv := parseQuartzCalendarRule_valid hparse
  rw [← dayInMonth_zero_or_inMonth_iff hloc hv, QuartzCalendarRule.Computed]
  simp only [designates_iff hloc hv]
  constructor
  · rintro ⟨hzero, -⟩
    by_contra h
    push Not at h
    exact h.1 (hzero.mpr fun d hd => h.2 (hd.1 ▸ hd.2))
  · intro h
    refine ⟨⟨?_, ?_⟩, fun d hd => hd⟩
    · rintro h0 d ⟨rfl, hd⟩
      rw [h0] at hd
      exact absurd hd.1 (by decide)
    · intro hnone
      exact h.resolve_right fun hin => hnone _ ⟨rfl, hin⟩

def utc : Location where
  date t := t / (86400 * second)
  clock t := t % (86400 * second)
  instant day hour := (24 * day + hour) * (3600 * second)

theorem utc_hasNoons (month : Int) : utc.HasNoons month := fun day _ => by
  simp only [Location.noonDate, utc, second]
  omega

/-- February 2027 has 28 days. -/
theorem dayInMonth_short_february :
    ∃ rule, parseQuartzCalendarRule Char.toUpper "0 0 9 L-30 * ?".toList = .ok (some rule) ∧
      rule.dayInMonth utc (12 * 2027 + 1) = -2 ∧ ¬ rule.Computed utc (12 * 2027 + 1) := by
  refine ⟨{ kind := .lastDay, offset := 30 }, by decide +kernel, by decide +kernel, ?_⟩
  rintro ⟨hzero, -⟩
  have hnone : ∀ d, ¬ ({ kind := .lastDay, offset := 30 } : QuartzCalendarRule).Designates
      (12 * 2027 + 1) d := by
    rintro d ⟨hd, rfl⟩
    exact absurd hd.1 (by decide +kernel)
  exact absurd (hzero.mpr hnone) (by decide +kernel)

theorem dayInMonth_computed_iff_lastWeekday :
    ({ kind := .lastDayOfWeek, day := 6 } : QuartzCalendarRule).Computed utc (12 * 2026 + 10) :=
  (dayInMonth_computed_iff
    (show parseQuartzCalendarRule Char.toUpper "0 0 9 ? * 6L".toList =
      .ok (some { kind := .lastDayOfWeek, day := 6 }) by decide +kernel)
    (utc_hasNoons _)).mpr fun h => by cases h.1

end GoScheduler.Schedule
