import GoScheduler.Schedule.DayOfWeek
import GoScheduler.Schedule.Search

/-! Whether a schedule advances. The cron library is known only to answer the zero instant or
one later than it was asked about, so an instant of the schedule is later than `after` for
every such library exactly where the arithmetic of the fixed schedules does not wrap around
and the clock of the zone is not set back over the beginning of a month. Where that holds the
loop of `Due` ends and a preview increases. -/
namespace GoScheduler.Schedule
open Gregorian

def Cron.Forward (cron : Cron) : Prop :=
  ∀ fields loc t, cron.next fields loc t = zeroTime ∨ t < cron.next fields loc t

/-- The clock of a zone passes every date. -/
def Location.GoesOn (loc : Location) : Prop := ∀ t day, ∃ u, t < u ∧ day < loc.date u

def visited (loc : Location) (after : Int) : ℕ → Int
  | 0 => monthOf (loc.date after)
  | i + 1 => monthOf (loc.noonDate (first (visited loc after i + 1)))

def searchStart (loc : Location) (after : Int) : ℕ → Int
  | 0 => after
  | i + 1 => loc.instant (first (visited loc after (i + 1))) 0 - 1

/-- No instant up to `after` lies on the designated day of a later month of the search, behind
the beginning of that month. -/
def QuartzCalendarRule.Steady (rule : QuartzCalendarRule) (loc : Location) (after : Int) : Prop :=
  ∀ i, 1 ≤ i → i < 1200 → ∀ u, loc.instant (first (visited loc after i)) 0 ≤ u → u ≤ after →
    u ≠ zeroTime → monthOf (loc.date u) = visited loc after i →
    dayOf (loc.date u) ≠ rule.dayInMonth loc (visited loc after i)

/-- The seconds of a fixed schedule are a positive duration once they are reduced to 64 bits;
calendar rules are steady. -/
def Steady (toUpper : Char → Char) (loadLocation : String → Option Location)
    (scheduleType : ScheduleType) (expression timezone : String) (after : Int) : Prop :=
  ∀ loc, loadLocation timezone = some loc →
    match scheduleType with
    | .fixedInterval | .fixedRate | .fixedDelay =>
        ∀ seconds, parseInt expression = some seconds → 1 ≤ seconds →
          0 < wrapDuration (seconds * second) ∨
            after + wrapDuration (seconds * second) = zeroTime
    | .cron => ∀ rule, validateCronExpression toUpper expression.toList = .ok () →
        parseQuartzCalendarRule toUpper expression.toList = .ok (some rule) →
        rule.Steady loc after
    | .once | .other _ => True

section Search

variable {loc : Location} {rule : QuartzCalendarRule} {fields : List (List Char)} {after : Int}

theorem searchMonths_later {cron : Cron} (hcron : cron.Forward) (hsteady : rule.Steady loc after)
    {left i : ℕ} (hleft : i + left ≤ 1200) {t : Int}
    (h : searchMonths loc cron rule fields left (visited loc after i) (searchStart loc after i) =
      .ok t) (hz : t ≠ zeroTime) : after < t := by
  induction left generalizing i with
  | zero => cases h
  | succ left ih =>
      have hrest (h : searchMonths loc cron rule fields left (visited loc after (i + 1))
          (searchStart loc after (i + 1)) = .ok t) : after < t := ih (by omega) h
      simp only [searchMonths] at h
      split_ifs at h with hday haccepts hdate
      · cases h
        have hlater := (hcron _ _ _).resolve_left hz
        cases i with
        | zero => exact hlater
        | succ i =>
            by_contra hle
            have hstart : searchStart loc after (i + 1) =
              loc.instant (first (visited loc after (i + 1))) 0 - 1 := rfl
            exact hsteady (i + 1) (by omega) (by omega) _ (by omega) (not_lt.mp hle) hz hdate.1
              hdate.2
      · exact hrest h
      · exact hrest h

theorem exists_visited_bound (loc : Location) (after : Int) (n : ℕ) :
    ∃ day, ∀ i < n, first (visited loc after i + 1) ≤ day := by
  induction n with
  | zero => exact ⟨0, fun i hi => by omega⟩
  | succ n ih =>
      obtain ⟨day, hday⟩ := ih
      refine ⟨max day (first (visited loc after n + 1)), fun i hi => ?_⟩
      rcases Nat.lt_succ_iff_lt_or_eq.mp hi with hi | rfl
      · exact (hday i hi).trans (le_max_left _ _)
      · exact le_max_right _ _

/-- A library that answers `u` to one question, and otherwise an instant behind every month of
the search. -/
theorem exists_cron_answering (hloc : loc.GoesOn) (after : Int) (question : List (List Char))
    {s u : Int} (hu : s < u) :
    ∃ cron : Cron, cron.Forward ∧ (∀ fields, cron.accepts fields) ∧
      cron.next question loc s = u ∧
      ∀ fields t, (fields = question ∧ t = s) ∨
        ∀ i < 1200, monthOf (loc.date (cron.next fields loc t)) ≠ visited loc after i := by
  obtain ⟨day, hday⟩ := exists_visited_bound loc after 1200
  choose v hv hdate using fun t => hloc t day
  refine ⟨⟨fun _ => true, fun fields _ t => if fields = question ∧ t = s then u else v t⟩,
    fun fields _ t => .inr ?_, fun _ => rfl, if_pos ⟨rfl, rfl⟩, fun fields t => ?_⟩
  · dsimp only
    split_ifs with h
    · exact h.2 ▸ hu
    · exact hv t
  · by_cases h : fields = question ∧ t = s
    · exact .inl h
    · refine .inr fun i hi hm => ?_
      simp only [if_neg h] at hm
      have hbefore := (monthOf_lt_iff (visited loc after i + 1) (loc.date (v t))).mp (by omega)
      have := hday i hi
      have := hdate t
      omega

theorem exists_earlier_of_not_steady (hloc : loc.GoesOn) (h : ¬ rule.Steady loc after) :
    ∃ cron : Cron, cron.Forward ∧ ∃ u, u ≤ after ∧ u ≠ zeroTime ∧
      searchMonths loc cron rule fields 1200 (visited loc after 0) (searchStart loc after 0) =
        .ok u := by
  unfold QuartzCalendarRule.Steady at h
  push Not at h
  obtain ⟨i, h1, hi, u, hlow, hle, hz, hmonth, hday⟩ := h
  have hstart : searchStart loc after i < u := by
    obtain ⟨i, rfl⟩ : ∃ m, i = m + 1 := ⟨i - 1, by omega⟩
    rw [searchStart]
    omega
  obtain ⟨cron, hforward, haccepts, hanswer, hother⟩ := exists_cron_answering hloc after
    ((fields.set 3 (itoa (rule.dayInMonth loc (visited loc after i)))).set 5 ['*']) hstart
  refine ⟨cron, hforward, u, hle, hz, ?_⟩
  -- Backwards from the month of `u`: a month before it answers `u` or leaves it to the next.
  have hfrom (n j : ℕ) (hj : j + n = i) :
      searchMonths loc cron rule fields (1200 - j) (visited loc after j)
        (searchStart loc after j) = .ok u := by
    induction n generalizing j with
    | zero =>
        obtain rfl : j = i := by omega
        have hne : rule.dayInMonth loc (visited loc after j) ≠ 0 := by
          have := one_le_dayOf (loc.date u)
          omega
        rw [show 1200 - j = 1199 - j + 1 by omega, searchMonths]
        simp only [hne, ne_eq, not_false_eq_true, if_true, haccepts, Bool.not_true,
          Bool.false_eq_true, if_false, hanswer, hmonth, hday, and_self]
    | succ n ih =>
        have hnext := ih (j + 1) (by omega)
        rw [show 1200 - j = 1200 - (j + 1) + 1 by omega, searchMonths]
        simp only [haccepts, Bool.not_true, Bool.false_eq_true, if_false]
        split_ifs with hd hdate
        · rcases hother ((fields.set 3 (itoa (rule.dayInMonth loc (visited loc after j)))).set 5
            ['*']) (searchStart loc after j) with ⟨hq, hs⟩ | hne
          · rw [hq, hs, hanswer]
          · exact absurd hdate.1 (hne j (by omega))
        · exact hnext
        · exact hnext
  exact hfrom i 0 (by omega)

end Search

theorem cronNext_cases {toUpper : Char → Char} {cron : Cron} {loc : Location}
    {expression : List Char} {after t : Int}
    (h : cronNext toUpper cron loc expression after = .ok t) :
    validateCronExpression toUpper expression = .ok () ∧
      ((∃ rule, parseQuartzCalendarRule toUpper expression = .ok (some rule) ∧
          nextQuartzCalendar loc cron rule toUpper expression after = .ok t) ∨
        ∃ fields, t = cron.next fields loc after) := by
  obtain ⟨_, hvalid, h⟩ := Fallible.exists_of_bind_ok h
  obtain ⟨rule, hrule, h⟩ := Fallible.exists_of_bind_ok h
  refine ⟨hvalid, ?_⟩
  cases rule with
  | some rule => exact .inl ⟨rule, hrule, h⟩
  | none =>
      obtain ⟨dow, _, h⟩ := Fallible.exists_of_bind_ok h
      split_ifs at h
      cases h
      exact .inr ⟨_, rfl⟩

theorem next_fixed_iff {cal : Calendar} {scheduleType : ScheduleType} {expression timezone : String}
    (hfixed : scheduleType = .fixedInterval ∨ scheduleType = .fixedRate ∨
      scheduleType = .fixedDelay) (hknown : cal.knowsLocation timezone) (after t : Int) :
    next cal scheduleType expression timezone after = .ok t ↔
      ∃ seconds, parseInt expression = some seconds ∧ 1 ≤ seconds ∧
        t = after + wrapDuration (seconds * second) := by
  cases hparse : parseInt expression with
  | none => rcases hfixed with rfl | rfl | rfl <;> simp [next, hknown, hparse]
  | some seconds =>
      have hnext : next cal scheduleType expression timezone after =
          if seconds < 1 then .error .notPositiveSeconds
          else .ok (after + wrapDuration (seconds * second)) := by
        rcases hfixed with rfl | rfl | rfl <;> simp only [next, hknown, hparse] <;> rfl
      simp only [hnext, Option.some.injEq]
      split_ifs with h
      · simp only [false_iff, not_exists]
        rintro n ⟨rfl, hn, _⟩
        omega
      · simp only [Except.ok.injEq]
        constructor
        · rintro rfl
          exact ⟨seconds, rfl, by omega, rfl⟩
        · rintro ⟨n, rfl, _, rfl⟩
          rfl

section Calendar

variable {toUpper : Char → Char} {loadLocation : String → Option Location}
  {expression timezone : String} {after : Int}

theorem knowsLocation_calendarOf {loc : Location} (toUpper : Char → Char) (cron : Cron)
    (hzone : loadLocation timezone = some loc) :
    (calendarOf toUpper loadLocation cron).knowsLocation timezone := by
  simp [calendarOf, hzone]

theorem next_cron_eq {loc : Location} (cron : Cron) (hzone : loadLocation timezone = some loc) :
    next (calendarOf toUpper loadLocation cron) .cron expression timezone after =
      cronNext toUpper cron loc expression.toList after := by
  simp [next, calendarOf, hzone]

end Calendar

section Failures

def Bounded {α : Type} (x : Except ScheduleError α) : Prop := x ≠ .error .unbounded

theorem Bounded.bind {α β : Type} {x : Except ScheduleError α}
    {f : α → Except ScheduleError β} (hx : Bounded x) (hf : ∀ a, x = .ok a → Bounded (f a)) :
    Bounded (x.bind f) := by
  cases x with
  | ok a => exact hf a rfl
  | error e => exact fun h => hx (by rw [show e = .unbounded from Except.error.inj h])

theorem Bounded.map {α β : Type} {x : Except ScheduleError α} {f : α → β} (hx : Bounded x) :
    Bounded (x.map f) := by
  cases x with
  | ok a => exact fun h => by cases h
  | error e => exact fun h => hx (by rw [show e = .unbounded from Except.error.inj h])

theorem bounded_ok {α : Type} (a : α) : Bounded (.ok a : Except ScheduleError α) := fun h => by
  cases h

theorem bounded_cron {α : Type} (reason : String) :
    Bounded (.error (.cron reason) : Except ScheduleError α) := fun h => by cases h

theorem quartzDayOfWeek_bounded (text : List Char) : Bounded (quartzDayOfWeek text) := by
  unfold quartzDayOfWeek
  split
  · exact bounded_ok _
  · split
    · split_ifs
      · exact bounded_cron _
      · exact bounded_ok _
    · exact bounded_cron _

theorem itemStep_bounded (rest : Option (List Char)) : Bounded (itemStep rest) := by
  unfold itemStep
  split
  · exact bounded_ok _
  · split
    · split_ifs
      · exact bounded_cron _
      · exact bounded_ok _
    · exact bounded_cron _

theorem itemBounds_bounded (base : List Char) (stepped : Bool) :
    Bounded (itemBounds base stepped) := by
  unfold itemBounds
  split_ifs
  · exact bounded_ok _
  · split
    · exact (quartzDayOfWeek_bounded _).bind fun _ _ =>
        (quartzDayOfWeek_bounded _).bind fun _ _ => bounded_ok _
    · exact bounded_cron _
  · exact (quartzDayOfWeek_bounded _).bind fun _ _ => bounded_ok _
  · exact (quartzDayOfWeek_bounded _).bind fun _ _ => bounded_ok _

theorem itemDays_bounded (item : List Char) : Bounded (itemDays item) := by
  unfold itemDays
  split
  · exact bounded_cron _
  · split_ifs
    · exact bounded_cron _
    · refine (itemStep_bounded _).bind fun step _ => (itemBounds_bounded _ _).bind fun p hp => ?_
      obtain ⟨base, hbase, rfl⟩ := (itemBounds_eq_ok_iff _ _ _).mp hp
      rw [quartzDayRange_eq (hbase.bounds _).1 (hbase.bounds _).2]
      exact bounded_ok _

theorem selectDays_bounded (selected : List Int) (items : List (List Char)) :
    Bounded (selectDays selected items) := by
  induction items generalizing selected with
  | nil => exact bounded_ok _
  | cons item items ih => exact (itemDays_bounded item).bind fun _ _ => ih _

theorem normalizeQuartzDayOfWeek_bounded (toUpper : Char → Char) (field : List Char) :
    Bounded (normalizeQuartzDayOfWeek toUpper field) := by
  unfold normalizeQuartzDayOfWeek
  dsimp only
  split_ifs
  · exact bounded_ok _
  · exact bounded_ok _
  · exact (selectDays_bounded _ _).bind fun _ _ => bounded_ok _

theorem dayOfMonthRule_bounded {dom dow : List Char}
    {result : Except ScheduleError QuartzCalendarRule} (h : dayOfMonthRule dom dow = some result) :
    Bounded result := by
  unfold dayOfMonthRule at h
  split at h
  · rw [← Option.some.inj h]
    dsimp only
    split_ifs
    all_goals first | exact bounded_cron _ | exact bounded_ok _
  · obtain ⟨digits, _, rfl⟩ := Option.map_eq_some_iff.mp h
    dsimp only
    split_ifs
    all_goals first | exact bounded_cron _ | exact bounded_ok _

theorem dayOfWeekRule_bounded {dom dow : List Char}
    {result : Except ScheduleError QuartzCalendarRule} (h : dayOfWeekRule dom dow = some result) :
    Bounded result := by
  unfold dayOfWeekRule at h
  split at h
  · rw [← Option.some.inj h]
    split_ifs
    · exact bounded_cron _
    · exact (quartzDayOfWeek_bounded _).map
  · obtain ⟨token, _, rfl⟩ := Option.map_eq_some_iff.mp h
    dsimp only
    split_ifs
    · exact bounded_cron _
    · exact (quartzDayOfWeek_bounded _).map

theorem parseQuartzCalendarRule_bounded (toUpper : Char → Char) (expression : List Char) :
    Bounded (parseQuartzCalendarRule toUpper expression) := by
  unfold parseQuartzCalendarRule
  split
  · split
    · next hresult => exact (dayOfMonthRule_bounded hresult).map
    · split
      · next hresult => exact (dayOfWeekRule_bounded hresult).map
      · split_ifs
        · exact bounded_cron _
        · exact bounded_ok _
  · exact bounded_ok _

theorem validateCronExpression_bounded (toUpper : Char → Char) (expression : List Char) :
    Bounded (validateCronExpression toUpper expression) := by
  unfold validateCronExpression
  dsimp only
  split_ifs
  · exact bounded_cron _
  · exact bounded_cron _
  · exact bounded_cron _
  · refine (parseQuartzCalendarRule_bounded _ _).bind fun rule _ => ?_
    cases rule with
    | some rule => exact bounded_ok _
    | none => exact (normalizeQuartzDayOfWeek_bounded _ _).bind fun _ _ => bounded_ok _

theorem searchMonths_bounded (loc : Location) (cron : Cron) (rule : QuartzCalendarRule)
    (fields : List (List Char)) (left : ℕ) (month s : Int) :
    Bounded (searchMonths loc cron rule fields left month s) := by
  induction left generalizing month s with
  | zero => exact bounded_cron _
  | succ left ih =>
      simp only [searchMonths]
      split_ifs
      · exact bounded_cron _
      · exact bounded_ok _
      · exact ih _ _
      · exact ih _ _

theorem cronNext_bounded (toUpper : Char → Char) (cron : Cron) (loc : Location)
    (expression : List Char) (after : Int) :
    Bounded (cronNext toUpper cron loc expression after) := by
  refine (validateCronExpression_bounded _ _).bind fun _ _ =>
    (parseQuartzCalendarRule_bounded _ _).bind fun rule _ => ?_
  cases rule with
  | some rule => exact searchMonths_bounded _ _ _ _ _ _ _
  | none =>
      refine (normalizeQuartzDayOfWeek_bounded _ _).bind fun dow _ => ?_
      split_ifs
      · exact bounded_ok _
      · exact bounded_cron _

theorem next_bounded (toUpper : Char → Char) (loadLocation : String → Option Location)
    (cron : Cron) (scheduleType : ScheduleType) (expression timezone : String) (after : Int) :
    Bounded (next (calendarOf toUpper loadLocation cron) scheduleType expression timezone
      after) := by
  have hcron : Bounded ((calendarOf toUpper loadLocation cron).cronNext expression timezone
      after) := by
    simp only [calendarOf]
    split
    · exact fun h => by cases h
    · exact cronNext_bounded _ _ _ _ _
  unfold next
  split_ifs
  · exact fun h => by cases h
  · cases scheduleType with
    | cron => exact hcron
    | other name => exact fun h => by cases h
    | _ =>
        dsimp only
        split
        · exact fun h => by cases h
        · split_ifs <;> exact fun h => by cases h

end Failures

section Loops

variable {next : Int → Except ScheduleError Int}

theorem advance_bounded (hbounded : ∀ t, Bounded (next t))
    (hlater : ∀ t u, next t = .ok u → u ≠ zeroTime → t < u) {now t : Int} (collect : Bool)
    (limit : ℕ) {fuel : ℕ} (due : List Int)
    (hfuel : (now - t).toNat + 2 ≤ fuel ∨ ((t = zeroTime ∨ now < t) ∧ 1 ≤ fuel)) :
    Bounded (advance next now collect limit fuel due t) := by
  induction fuel generalizing t due with
  | zero => omega
  | succ fuel ih =>
      rw [advance]
      split_ifs with hstop
      · exact bounded_ok _
      · cases hu : next t with
        | error e => exact fun h => hbounded t (hu.trans (by rw [Except.error.inj h]))
        | ok u =>
            apply ih
            by_cases hz : u = zeroTime
            · exact .inr ⟨.inl hz, by omega⟩
            · have := hlater t u hu hz
              by_cases hnow : now < u
              · exact .inr ⟨.inr hnow, by omega⟩
              · exact .inl (by omega)

theorem due_bounded {cal : Calendar} {scheduleType : ScheduleType} {expression timezone : String}
    (hbounded : ∀ t, Bounded (Schedule.next cal scheduleType expression timezone t))
    (hlater : ∀ t u, Schedule.next cal scheduleType expression timezone t = .ok u →
      u ≠ zeroTime → t < u) {policy : MisfirePolicy} {firstDue now maxCatchUp : Int} :
    Bounded (due cal scheduleType expression timezone policy firstDue now maxCatchUp) := by
  have hloop (collect : Bool) (limit : ℕ) (times : List Int) :
      Bounded (advance (Schedule.next cal scheduleType expression timezone) now collect limit
        (fuelFor firstDue now) times firstDue) :=
    advance_bounded hbounded hlater collect limit times (.inl le_rfl)
  unfold due
  dsimp only
  by_cases hfuture : now < firstDue
  · rw [if_pos hfuture]
    exact bounded_ok _
  rw [if_neg hfuture]
  by_cases hdelay : scheduleType = .fixedDelay
  · rw [if_pos hdelay]
    split
    · cases policy with
      | skip => exact (hbounded now).map
      | other name => exact fun h => by cases h
      | _ => exact bounded_ok _
    · exact bounded_ok _
  · rw [if_neg hdelay]
    cases policy with
    | other name => exact fun h => by cases h
    | _ => exact hloop _ _ _

theorem previewFrom_increasing (hlater : ∀ t u, next t = .ok u → u ≠ zeroTime → t < u) {count : ℕ}
    {cursor : Int} {times : List Int} (h : previewFrom next count cursor = .ok times) :
    (cursor :: times).IsChain (· < ·) := by
  induction count generalizing cursor times with
  | zero =>
      cases h
      exact List.IsChain.singleton _
  | succ count ih =>
      obtain ⟨t, ht, h⟩ := Fallible.exists_of_bind_ok h
      split_ifs at h with hz
      · cases h
        exact List.IsChain.singleton _
      · obtain ⟨rest, hrest, h⟩ := Fallible.exists_of_bind_ok h
        cases h
        exact List.IsChain.cons_cons (hlater cursor t ht hz) (ih hrest)

theorem preview_increasing {cal : Calendar} {scheduleType : ScheduleType}
    {expression timezone : String} {after count : Int} {times : List Int}
    (hlater : ∀ t u, Schedule.next cal scheduleType expression timezone t = .ok u →
      u ≠ zeroTime → t < u)
    (h : preview cal scheduleType expression timezone after count = .ok times) :
    times.Pairwise (· < ·) := by
  unfold preview at h
  split_ifs at h
  exact (List.isChain_iff_pairwise.mp (previewFrom_increasing hlater h)).of_cons

end Loops

section Schedules

variable {toUpper : Char → Char} {loadLocation : String → Option Location}
  {scheduleType : ScheduleType} {expression timezone : String} {after : Int}

theorem next_later {cron : Cron} (hcron : cron.Forward)
    (hsteady : Steady toUpper loadLocation scheduleType expression timezone after) {t : Int}
    (h : next (calendarOf toUpper loadLocation cron) scheduleType expression timezone after =
      .ok t) (hz : t ≠ zeroTime) : after < t := by
  cases hzone : loadLocation timezone with
  | none => simp [next, calendarOf, hzone] at h
  | some loc =>
      have hknown := knowsLocation_calendarOf toUpper cron hzone
      have hsteady := hsteady loc hzone
      have hfixed (hsteady : ∀ seconds, parseInt expression = some seconds → 1 ≤ seconds →
          0 < wrapDuration (seconds * second) ∨
            after + wrapDuration (seconds * second) = zeroTime)
          (hfixed : scheduleType = .fixedInterval ∨ scheduleType = .fixedRate ∨
            scheduleType = .fixedDelay) : after < t := by
        obtain ⟨seconds, hparse, hpos, rfl⟩ := (next_fixed_iff hfixed hknown after t).mp h
        have := (hsteady seconds hparse hpos).resolve_right hz
        omega
      cases scheduleType with
      | cron =>
          rw [next_cron_eq cron hzone] at h
          obtain ⟨hvalid, ⟨rule, hrule, h⟩ | ⟨fields, rfl⟩⟩ := cronNext_cases h
          · exact searchMonths_later hcron (hsteady rule hvalid hrule) (by omega : 0 + 1200 ≤ 1200)
              h hz
          · exact (hcron _ _ _).resolve_left hz
      | once =>
          simp only [next, hknown, Bool.not_true, Bool.false_eq_true, if_false] at h
          split at h
          · cases h
          · split_ifs at h with hlt
            · cases h
              exact hlt
            · cases h
              exact absurd rfl hz
      | fixedInterval => exact hfixed hsteady (.inl rfl)
      | fixedRate => exact hfixed hsteady (.inr (.inl rfl))
      | fixedDelay => exact hfixed hsteady (.inr (.inr rfl))
      | other name => simp [next, hknown] at h

theorem exists_not_later (hzones : ∀ name loc, loadLocation name = some loc → loc.GoesOn)
    (h : ¬ Steady toUpper loadLocation scheduleType expression timezone after) :
    ∃ cron : Cron, cron.Forward ∧ ∃ t, next (calendarOf toUpper loadLocation cron) scheduleType
      expression timezone after = .ok t ∧ t ≠ zeroTime ∧ t ≤ after := by
  unfold Steady at h
  push Not at h
  obtain ⟨loc, hzone, h⟩ := h
  have hfixed (h : ¬ ∀ seconds, parseInt expression = some seconds → 1 ≤ seconds →
      0 < wrapDuration (seconds * second) ∨ after + wrapDuration (seconds * second) = zeroTime)
      (hfixed : scheduleType = .fixedInterval ∨ scheduleType = .fixedRate ∨
        scheduleType = .fixedDelay) :
      ∃ cron : Cron, cron.Forward ∧ ∃ t, next (calendarOf toUpper loadLocation cron) scheduleType
        expression timezone after = .ok t ∧ t ≠ zeroTime ∧ t ≤ after := by
    push Not at h
    obtain ⟨seconds, hparse, hpos, hwrap, hz⟩ := h
    refine ⟨⟨fun _ => true, fun _ _ t => t + 1⟩, fun _ _ t => .inr (Int.lt_succ t),
      after + wrapDuration (seconds * second), ?_, hz, by omega⟩
    exact (next_fixed_iff hfixed (knowsLocation_calendarOf _ _ hzone) _ _).mpr
      ⟨seconds, hparse, hpos, rfl⟩
  cases scheduleType with
  | cron =>
      simp only at h
      push Not at h
      obtain ⟨rule, hvalid, hrule, h⟩ := h
      obtain ⟨cron, hcron, u, hle, hz, hsearch⟩ := exists_earlier_of_not_steady (hzones _ _ hzone) h
      refine ⟨cron, hcron, u, ?_, hz, hle⟩
      rw [next_cron_eq cron hzone, cronNext, hvalid, hrule]
      exact hsearch
  | once => exact absurd trivial h
  | fixedInterval => exact hfixed h (.inl rfl)
  | fixedRate => exact hfixed h (.inr (.inl rfl))
  | fixedDelay => exact hfixed h (.inr (.inr rfl))
  | other name => exact absurd trivial h

/-- For every library that goes forward, an instant of the schedule is later than `after`
exactly where the schedule is steady there; a schedule that is steady throughout has searches
with an end and increasing previews. -/
theorem next_advances_iff (hzones : ∀ name loc, loadLocation name = some loc → loc.GoesOn)
    (toUpper : Char → Char) (scheduleType : ScheduleType) (expression timezone : String) :
    (∀ after, (∀ cron : Cron, cron.Forward → ∀ t,
        next (calendarOf toUpper loadLocation cron) scheduleType expression timezone after = .ok t →
        t ≠ zeroTime → after < t) ↔
      Steady toUpper loadLocation scheduleType expression timezone after) ∧
    ((∀ after, Steady toUpper loadLocation scheduleType expression timezone after) →
      ∀ cron : Cron, cron.Forward →
        (∀ policy firstDue now maxCatchUp, due (calendarOf toUpper loadLocation cron) scheduleType
          expression timezone policy firstDue now maxCatchUp ≠ .error .unbounded) ∧
        ∀ after count times, preview (calendarOf toUpper loadLocation cron) scheduleType expression
          timezone after count = .ok times → times.Pairwise (· < ·)) := by
  refine ⟨fun after => ⟨fun h => ?_, fun h cron hcron t ht hz => next_later hcron h ht hz⟩,
    fun h cron hcron => ⟨fun policy firstDue now maxCatchUp => ?_, fun after count times ht => ?_⟩⟩
  · by_contra hsteady
    obtain ⟨cron, hcron, t, ht, hz, hle⟩ := exists_not_later hzones hsteady
    exact absurd (h cron hcron t ht hz) (not_lt.mpr hle)
  · exact due_bounded (next_bounded _ _ _ _ _ _) fun t u => next_later hcron (h t)
  · exact preview_increasing (fun t u => next_later hcron (h t)) ht

end Schedules

theorem utc_goesOn : utc.GoesOn := fun t day =>
  ⟨max t ((day + 1) * (86400 * second)) + 1, by omega, by simp only [utc, second]; omega⟩

theorem next_advances_iff_hourly :
    Steady Char.toUpper (fun _ => some utc) .fixedRate "3600" "UTC" 0 ∧
    ∀ cron : Cron, cron.Forward → ∀ t,
      next (calendarOf Char.toUpper (fun _ => some utc) cron) .fixedRate "3600" "UTC" 0 = .ok t →
      t ≠ zeroTime → 0 < t := by
  have hparse : parseInt "3600" = some 3600 := by decide +kernel
  have hwrap : 0 < wrapDuration (3600 * second) := by decide +kernel
  have hsteady : Steady Char.toUpper (fun _ => some utc) .fixedRate "3600" "UTC" 0 := by
    intro loc _ seconds hs _
    rw [← Option.some.inj (hparse.symm.trans hs)]
    exact .inl hwrap
  exact ⟨hsteady, ((next_advances_iff (fun _ _ h => Option.some.inj h ▸ utc_goesOn) Char.toUpper
    .fixedRate "3600" "UTC").1 0).mpr hsteady⟩

def idleCron : Cron := ⟨fun _ => true, fun _ _ _ => zeroTime⟩

/-- As many seconds make a duration of zero: the schedule is accepted, stands still, and the
search past it has no end. -/
theorem next_stands_still :
    idleCron.Forward ∧
    (∀ after, next (calendarOf Char.toUpper (fun _ => some utc) idleCron) .fixedRate
      "36028797018963968" "UTC" after = .ok after) ∧
    (∀ fuel, advance (next (calendarOf Char.toUpper (fun _ => some utc) idleCron) .fixedRate
      "36028797018963968" "UTC") second false 0 fuel [0] 0 = .error .unbounded) ∧
    preview (calendarOf Char.toUpper (fun _ => some utc) idleCron) .fixedRate
      "36028797018963968" "UTC" 0 2 = .ok [0, 0] := by
  have hnext (after : Int) : next (calendarOf Char.toUpper (fun _ => some utc) idleCron) .fixedRate
      "36028797018963968" "UTC" after = .ok after := by
    refine (next_fixed_iff (.inr (.inl rfl)) rfl after after).mpr
      ⟨36028797018963968, by decide +kernel, by decide, ?_⟩
    rw [show wrapDuration (36028797018963968 * second) = 0 by decide +kernel, add_zero]
  refine ⟨fun _ _ _ => .inl rfl, hnext, fun fuel => ?_, ?_⟩
  · induction fuel with
    | zero => rfl
    | succ fuel ih =>
        rw [advance, if_neg (by decide), hnext]
        exact ih
  · simp [preview, previewFrom, hnext]
    rfl

end GoScheduler.Schedule
