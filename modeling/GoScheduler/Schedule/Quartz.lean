import GoScheduler.Gregorian
import GoScheduler.Schedule
import GoScheduler.Text.Space

/-! Cron expressions in the form of Quartz. An expression has six fields; day rules that the
cron library does not know (`L`, `W` and `#`) are searched month by month, for which each
month gets an expression of its own with the day the rule designates there, and the days of
the week are renumbered for the library. The library, the zones and the upper case of a
character are parameters. Texts that an error message quotes are left out of it. -/
namespace GoScheduler.Schedule
open Gregorian

/-- A zone: the date and the time of the day, in nanoseconds, that its clock shows at an
instant, and the instant that `time.Date` makes of a day and an hour. -/
structure Location where
  date : Int → Int
  clock : Int → Int
  instant : (day hour : Int) → Int

/-- The cron library. It gets an expression by its fields; the zero instant is its answer
where it finds none. -/
structure Cron where
  accepts : List (List Char) → Bool
  next : List (List Char) → Location → Int → Int

def fieldsOf (text : List Char) : List (List Char) :=
  (text.splitOnP Text.isSpace).filter (· ≠ [])

def itoa (n : Int) : List Char :=
  if n < 0 then '-' :: Nat.toDigits 10 n.natAbs else Nat.toDigits 10 n.natAbs

def atoi (text : List Char) : Option Int := parseInt (String.ofList text)

inductive QuartzCalendarKind where
  | lastDay | nearestWeekday | lastWeekdayOfMonth | lastDayOfWeek | nthDayOfWeek
deriving DecidableEq, Repr

structure QuartzCalendarRule where
  kind : QuartzCalendarKind
  day : Int := 0
  offset : Int := 0
  week : Int := 0
deriving DecidableEq, Repr

def dayNames : List (List Char × Int) :=
  [("SUN".toList, 1), ("MON".toList, 2), ("TUE".toList, 3), ("WED".toList, 4),
   ("THU".toList, 5), ("FRI".toList, 6), ("SAT".toList, 7)]

section Patterns

/-- `^L(?:-([0-9]{1,2}))?(W)?$`: the digits, and whether the `W` is there. -/
def lastDayPattern : List Char → Option (List Char × Bool)
  | ['L'] => some ([], false)
  | ['L', 'W'] => some ([], true)
  | ['L', '-', a] => if a.isDigit then some ([a], false) else none
  | ['L', '-', a, b] =>
      if a.isDigit && b.isDigit then some ([a, b], false)
      else if a.isDigit && b = 'W' then some ([a], true)
      else none
  | ['L', '-', a, b, 'W'] => if a.isDigit && b.isDigit then some ([a, b], true) else none
  | _ => none

def weekdayPattern : List Char → Option (List Char)
  | [a, 'W'] => if a.isDigit then some [a] else none
  | [a, b, 'W'] => if a.isDigit && b.isDigit then some [a, b] else none
  | _ => none

def isDayToken (text : List Char) : Bool :=
  dayNames.any (·.1 = text) ||
    match text with
    | [c] => '1' ≤ c && c ≤ '7'
    | _ => false

def lastDOWPattern (text : List Char) : Option (List Char) :=
  if text.getLast? = some 'L' && isDayToken text.dropLast then some text.dropLast else none

def nthDOWPattern (text : List Char) : Option (List Char × Char) :=
  match text.reverse with
  | week :: '#' :: rest =>
      if '1' ≤ week && week ≤ '5' && isDayToken rest.reverse then some (rest.reverse, week)
      else none
  | _ => none

end Patterns

def quartzDayOfWeek (value : List Char) : Except ScheduleError Int :=
  match dayNames.lookup value with
  | some day => .ok day
  | none => match atoi value with
      | some day =>
          if day < 1 ∨ 7 < day then
            .error (.cron "quartz day-of-week must be between 1 and 7 or SUN-SAT")
          else .ok day
      | none => .error (.cron "quartz day-of-week must be between 1 and 7 or SUN-SAT")

def dayOfMonthRule (dom dow : List Char) : Option (Except ScheduleError QuartzCalendarRule) :=
  match lastDayPattern dom with
  | some (digits, weekday) => some <|
      if dow ≠ ['?'] then
        .error (.cron "cron calendar day-of-month rules require ? in day-of-week")
      else
        let offset := if digits = [] then 0 else (atoi digits).getD 0
        if 30 < offset then .error (.cron "cron L offset must be between 0 and 30")
        else .ok { kind := if weekday then .lastWeekdayOfMonth else .lastDay, offset := offset }
  | none => (weekdayPattern dom).map fun digits =>
      if dow ≠ ['?'] then .error (.cron "cron W requires ? in day-of-week")
      else
        let day := (atoi digits).getD 0
        if day < 1 ∨ 31 < day then .error (.cron "cron W day must be between 1 and 31")
        else .ok { kind := .nearestWeekday, day := day }

def dayOfWeekRule (dom dow : List Char) : Option (Except ScheduleError QuartzCalendarRule) :=
  match lastDOWPattern dow with
  | some token => some <|
      if dom ≠ ['?'] then
        .error (.cron "cron L day-of-week rules require ? in day-of-month")
      else (quartzDayOfWeek token).map fun day => { kind := .lastDayOfWeek, day := day }
  | none => (nthDOWPattern dow).map fun (token, week) =>
      if dom ≠ ['?'] then .error (.cron "cron # requires ? in day-of-month")
      else (quartzDayOfWeek token).map fun day =>
        { kind := .nthDayOfWeek, day := day, week := (atoi [week]).getD 0 }

section Expressions

variable (toUpper : Char → Char)

def parseQuartzCalendarRule (expression : List Char) :
    Except ScheduleError (Option QuartzCalendarRule) :=
  match fieldsOf (expression.map toUpper) with
  | [_, _, _, dom, _, dow] =>
      match dayOfMonthRule dom dow with
      | some result => result.map some
      | none => match dayOfWeekRule dom dow with
          | some result => result.map some
          | none =>
              if dom.any ("LW#".toList.contains ·) || dow.any ("W#".toList.contains ·) ||
                  (dow.contains 'L' && dow ≠ ['L']) then
                .error (.cron "invalid Quartz calendar day expression")
              else .ok none
  | _ => .ok none

def dayRangeFrom : ℕ → Int → Int → List Int → Option (List Int)
  | 0, _, _, _ => none
  | fuel + 1, current, end_, values =>
      if current = end_ then some values else
      let current := if current + 1 = 8 then 1 else current + 1
      dayRangeFrom fuel current end_ (values ++ [current])

/-- Seven passes through the head of the loop; `none` where they do not do. -/
def quartzDayRange (start end_ : Int) : Option (List Int) := dayRangeFrom 7 start end_ [start]

def everyStep {α : Type*} (step : ℕ) : ℕ → List α → List α
  | _, [] => []
  | 0, x :: xs => x :: everyStep step (step - 1) xs
  | skip + 1, _ :: xs => everyStep step skip xs

def itemBounds (base : List Char) (stepped : Bool) : Except ScheduleError (Int × Int) :=
  if base = ['*'] then .ok (1, 7)
  else if base.contains '-' then
    match base.splitOn '-' with
    | [first, last] => do
        let start ← quartzDayOfWeek first
        let end_ ← quartzDayOfWeek last
        return (start, end_)
    | _ => .error (.cron "invalid Quartz day-of-week range")
  else do
    let start ← quartzDayOfWeek base
    return (start, if stepped then 7 else start)

def itemStep : Option (List Char) → Except ScheduleError Int
  | none => .ok 1
  | some text => match atoi text with
      | some step =>
          if step < 1 ∨ 7 < step then
            .error (.cron "quartz day-of-week step must be between 1 and 7")
          else .ok step
      | none => .error (.cron "quartz day-of-week step must be between 1 and 7")

def partDays (base : List Char) (rest : Option (List Char)) :
    Except ScheduleError (List Int) := do
  let step ← itemStep rest
  let bounds ← itemBounds base rest.isSome
  match quartzDayRange bounds.1 bounds.2 with
  | none => .error .unbounded
  | some values => return everyStep step.toNat 0 values

def itemDays (item : List Char) : Except ScheduleError (List Int) :=
  match item.splitOn '/' with
  | [] => .error (.cron "invalid Quartz day-of-week")
  | base :: rest =>
      if 1 < rest.length ∨ base = [] then .error (.cron "invalid Quartz day-of-week")
      else partDays base rest.head?

def selectDays (selected : List Int) : List (List Char) → Except ScheduleError (List Int)
  | [] => .ok selected
  | item :: items => do
      let days ← itemDays item
      selectDays (days.foldl (fun selected day => selected.insert (day - 1)) selected) items

def normalizeQuartzDayOfWeek (field : List Char) : Except ScheduleError (List Char) :=
  let field := field.map toUpper
  if field = ['?'] ∨ field = ['*'] then .ok ['*']
  else if field = ['L'] then .ok ['6']
  else do
    let selected ← selectDays [] (field.splitOn ',')
    return [','].intercalate ((selected.insertionSort (· ≤ ·)).map itoa)

def validateCronExpression (expression : List Char) : Except ScheduleError Unit :=
  let fields := fieldsOf expression
  if fields.length ≠ 6 then
    .error (.cron "cron expression must contain exactly 6 fields including seconds")
  else if fields.zipIdx.any fun (field, index) =>
      field.contains '?' && ((index ≠ 3 && index ≠ 5) || field ≠ ['?']) then
    .error (.cron
      "cron ? is only supported as the complete day-of-month or day-of-week field")
  else if 1 < fields.countP (·.contains '?') then
    .error (.cron "cron ? may appear in only one day field")
  else do
    match ← parseQuartzCalendarRule toUpper expression with
    | some _ => return
    | none =>
        let _ ← normalizeQuartzDayOfWeek toUpper (fields.getD 5 [])
        return

end Expressions

section Rules

variable (loc : Location)

/-- `time.Date(year, month, day, 12, 0, 0, 0, location)` on the day with the given number, and
the date it then shows. -/
def Location.noonDate (day : Int) : Int := loc.date (loc.instant day 12)

def nearestWeekday (month day last : Int) : Int :=
  let weekday := weekday (loc.noonDate (first month + day - 1))
  if weekday = 6 then if day = 1 then day + 2 else day - 1
  else if weekday = 0 then if day = last then day - 2 else day + 1
  else day

def QuartzCalendarRule.dayInMonth (rule : QuartzCalendarRule) (month : Int) : Int :=
  let last := dayOf (loc.noonDate (first (month + 1) - 1))
  match rule.kind with
  | .lastDay => last - rule.offset
  | .nearestWeekday =>
      if last < rule.day then 0 else nearestWeekday loc month rule.day last
  | .lastWeekdayOfMonth =>
      if last - rule.offset < 1 then 0
      else nearestWeekday loc month (last - rule.offset) last
  | .lastDayOfWeek =>
      let current := weekday (loc.noonDate (first month + last - 1))
      last - (current - (rule.day - 1) + 7).tmod 7
  | .nthDayOfWeek =>
      let firstWeekday := weekday (loc.noonDate (first month))
      let day := 1 + (rule.day - 1 - firstWeekday + 7).tmod 7 + (rule.week - 1) * 7
      if last < day then 0 else day

variable (cron : Cron) (rule : QuartzCalendarRule) (fields : List (List Char))

/-- The loop of `nextQuartzCalendar`: the months still to be looked at, the month and the
instant the search in it starts after. -/
def searchMonths : ℕ → Int → Int → Except ScheduleError Int
  | 0, _, _ => .error (.cron "cron has no matching calendar date within 100 years")
  | left + 1, month, searchAfter =>
      let day := rule.dayInMonth loc month
      let nextMonth := monthOf (loc.noonDate (first (month + 1)))
      let rest := searchMonths left nextMonth (loc.instant (first nextMonth) 0 - 1)
      if day ≠ 0 then
        let candidateFields := (fields.set 3 (itoa day)).set 5 ['*']
        if !cron.accepts candidateFields then .error (.cron "parse cron") else
        let candidate := cron.next candidateFields loc searchAfter
        if monthOf (loc.date candidate) = month ∧ dayOf (loc.date candidate) = day then
          .ok candidate
        else rest
      else rest

def nextQuartzCalendar (toUpper : Char → Char) (expression : List Char) (after : Int) :
    Except ScheduleError Int :=
  searchMonths loc cron rule (fieldsOf (expression.map toUpper)) 1200 (monthOf (loc.date after))
    after

end Rules

def cronNext (toUpper : Char → Char) (cron : Cron) (loc : Location) (expression : List Char)
    (after : Int) : Except ScheduleError Int := do
  validateCronExpression toUpper expression
  match ← parseQuartzCalendarRule toUpper expression with
  | some rule => nextQuartzCalendar loc cron rule toUpper expression after
  | none =>
      let fields := fieldsOf expression
      let dow ← normalizeQuartzDayOfWeek toUpper (fields.getD 5 [])
      if cron.accepts (fields.set 5 dow) then return cron.next (fields.set 5 dow) loc after
      else .error (.cron "parse cron")

def calendarOf (toUpper : Char → Char) (loadLocation : String → Option Location) (cron : Cron) :
    Calendar where
  knowsLocation timezone := (loadLocation timezone).isSome
  cronNext expression timezone after :=
    match loadLocation timezone with
    | none => .error .loadTimezone
    | some loc => cronNext toUpper cron loc expression.toList after

def previewFrom (next : Int → Except ScheduleError Int) :
    ℕ → Int → Except ScheduleError (List Int)
  | 0, _ => .ok []
  | count + 1, cursor => do
      let t ← next cursor
      if t = zeroTime then return [] else
      return t :: (← previewFrom next count t)

def preview (cal : Calendar) (scheduleType : ScheduleType) (expression timezone : String)
    (after count : Int) : Except ScheduleError (List Int) :=
  if count < 1 ∨ 100 < count then .error .previewCount else
  previewFrom (next cal scheduleType expression timezone) count.toNat after

end GoScheduler.Schedule
