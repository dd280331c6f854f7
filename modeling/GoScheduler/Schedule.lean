import Mathlib.Tactic.Ring

/-! Schedules: `Next` and the misfire handling of `Due`. An instant is a number of
nanoseconds since the Unix epoch, and a duration wraps as a 64-bit integer. The search of
a cron expression and the zone database are parameters. The loop of `Due` runs on fuel
that suffices for every schedule that advances; a schedule that does not would never
leave the loop, which is reported as an error of its own. -/
namespace GoScheduler.Schedule

def second : Int := 1000000000

def zeroTime : Int := -62135596800 * second

/-- The instant as a timestamp column keeps it, in whole microseconds. -/
def timestamp (t : Int) : Int := t - t % 1000

def wrapDuration (d : Int) : Int := Int.bmod d (2 ^ 64)

inductive ScheduleType where
  | cron | once | fixedInterval | fixedRate | fixedDelay
  | other (name : String)
deriving DecidableEq, Repr

inductive MisfirePolicy where
  | skip | fireOnce | catchUp
  | other (name : String)
deriving DecidableEq, Repr

inductive ScheduleError where
  | loadTimezone
  | cron (reason : String)
  | parseOnce
  | notPositiveSeconds
  | unsupportedType (name : String)
  | unsupportedPolicy (name : String)
  | previewCount
  | unbounded
deriving DecidableEq, Repr

/-- The zone database and the search for the next instant of a cron expression. -/
structure Calendar where
  knowsLocation : String → Bool
  cronNext : (expression timezone : String) → Int → Except ScheduleError Int

section Parsing

def digit (c : Char) : Option ℕ :=
  if c.isDigit then some (c.toNat - '0'.toNat) else none

def decimal : List Char → Option ℕ
  | [] => none
  | cs => cs.foldl (fun acc c => do return (← acc) * 10 + (← digit c)) (some 0)

def parseInt (s : String) : Option Int := do
  let value ← match s.toList with
    | '-' :: cs => (decimal cs).map fun n => -(n : Int)
    | '+' :: cs => (decimal cs).map fun n => (n : Int)
    | cs => (decimal cs).map fun n => (n : Int)
  if -2 ^ 63 ≤ value ∧ value < 2 ^ 63 then some value else none

theorem foldl_digits (cs : List Char) (acc : ℕ) (h : ∀ c ∈ cs, c.isDigit) :
    cs.foldl (fun acc c => do return (← acc) * 10 + (← digit c)) (some acc) =
      some (Nat.ofDigitChars 10 cs acc) := by
  induction cs generalizing acc with
  | nil => rfl
  | cons c cs ih =>
      have hc : digit c = some (c.toNat - '0'.toNat) := by
        rw [digit, if_pos (h c List.mem_cons_self)]
      rw [Nat.ofDigitChars_cons, ← ih _ fun c hm => h c (List.mem_cons_of_mem _ hm)]
      simp [hc, Nat.mul_comm]

theorem decimal_digits {cs : List Char} (hne : cs ≠ []) (h : ∀ c ∈ cs, c.isDigit) :
    decimal cs = some (Nat.ofDigitChars 10 cs 0) := by
  cases cs with
  | nil => exact absurd rfl hne
  | cons c cs => exact foldl_digits (c :: cs) 0 h

theorem parseInt_digits {cs : List Char} (hne : cs ≠ []) (h : ∀ c ∈ cs, c.isDigit)
    (hlt : Nat.ofDigitChars 10 cs 0 < 2 ^ 63) :
    parseInt (String.ofList cs) = some (Nat.ofDigitChars 10 cs 0 : Int) := by
  have hd := decimal_digits hne h
  unfold parseInt
  rw [String.toList_ofList]
  split
  · exact absurd (h '-' List.mem_cons_self) (by decide)
  · exact absurd (h '+' List.mem_cons_self) (by decide)
  · have hl : (-2 ^ 63 : Int) ≤ Nat.ofDigitChars 10 cs 0 :=
      (by decide : (-2 ^ 63 : Int) ≤ 0).trans (Int.natCast_nonneg _)
    have hu : (Nat.ofDigitChars 10 cs 0 : Int) < 2 ^ 63 := Int.ofNat_lt.mpr hlt
    simp only [hd, pure, bind, Option.bind, Option.map]
    rw [if_pos ⟨hl, hu⟩]

def isLeap (year : ℕ) : Bool := year % 4 == 0 && (year % 100 != 0 || year % 400 == 0)

def daysIn (year month : ℕ) : ℕ :=
  match month with
  | 2 => if isLeap year then 29 else 28
  | 4 | 6 | 9 | 11 => 30
  | _ => 31

def daysFromEpoch (year month day : ℕ) : Int :=
  let before : Int := (year : Int) - 1
  let months := (List.range (month - 1)).foldl (fun acc m => acc + daysIn year (m + 1)) 0
  before * 365 + before / 4 - before / 100 + before / 400 + months + (day - 1) - 719162

def field (n : ℕ) (cs : List Char) : Option (ℕ × List Char) := do
  if cs.length < n then none else
  let value ← decimal (cs.take n)
  return (value, cs.drop n)

/-- `getnum` where one digit will do, as it does for the hour. -/
def getnum (cs : List Char) : Option (ℕ × List Char) :=
  match cs with
  | _ :: second :: _ => field (if second.isDigit then 2 else 1) cs
  | _ => field 1 cs

def literal (c : Char) : List Char → Option (List Char)
  | d :: cs => if c = d then some cs else none
  | [] => none

/-- The optional fraction of a second, in nanoseconds, after a period or a comma; further digits
are dropped. -/
def fraction (cs : List Char) : Option (ℕ × List Char) :=
  match cs with
  | '.' :: rest | ',' :: rest =>
      let digits := rest.takeWhile Char.isDigit
      (decimal ((digits ++ List.replicate 9 '0').take 9)).bind fun n =>
        if digits.isEmpty then none else some (n, rest.dropWhile Char.isDigit)
  | _ => some (0, cs)

def zoneOffset : List Char → Option Int
  | ['Z'] => some 0
  | sign :: cs => do
      let (hours, cs) ← field 2 cs
      let cs ← literal ':' cs
      let (minutes, cs) ← field 2 cs
      if !cs.isEmpty || 24 < hours || 60 < minutes then none else
      let offset : Int := hours * 3600 + minutes * 60
      match sign with
      | '+' => some offset
      | '-' => some (-offset)
      | _ => none
  | [] => none

/-- `time.ParseInLocation(time.RFC3339, s, location)`, without the reason of a failure. -/
def parseRFC3339 (s : String) : Option Int := do
  let (year, cs) ← field 4 s.toList
  let (month, cs) ← field 2 (← literal '-' cs)
  let (day, cs) ← field 2 (← literal '-' cs)
  let (hour, cs) ← getnum (← literal 'T' cs)
  let (minute, cs) ← field 2 (← literal ':' cs)
  let (sec, cs) ← field 2 (← literal ':' cs)
  let (nanos, cs) ← fraction cs
  let offset ← zoneOffset cs
  if month < 1 || 12 < month || day < 1 || daysIn year month < day || 23 < hour
      || 59 < minute || 59 < sec then none else
  let clock : Int := hour * 3600 + minute * 60 + sec
  return (daysFromEpoch year month day * 86400 + clock - offset) * second + nanos

example : parseRFC3339 "2026-08-12T12:00:10.0000005Z" = some 1786536010000000500 ∧
    parseRFC3339 "2026-08-12T2:00:10,5Z" = some 1786500010500000000 ∧
    parseRFC3339 "2026-08-12T12:0:10Z" = none := by
  decide +kernel

end Parsing

def next (cal : Calendar) (scheduleType : ScheduleType) (expression timezone : String)
    (after : Int) : Except ScheduleError Int :=
  if !cal.knowsLocation timezone then .error .loadTimezone else
  match scheduleType with
  | .cron => cal.cronNext expression timezone after
  | .once => match parseRFC3339 expression with
      | none => .error .parseOnce
      | some t => if after < t then .ok t else .ok zeroTime
  | .fixedInterval | .fixedRate | .fixedDelay => match parseInt expression with
      | none => .error .notPositiveSeconds
      | some seconds =>
          if seconds < 1 then .error .notPositiveSeconds
          else .ok (after + wrapDuration (seconds * second))
  | .other name => .error (.unsupportedType name)

/-- The search loop of `Due`: advance past `now`, collecting at most `limit` instants. -/
def advance (next : Int → Except ScheduleError Int) (now : Int) (collect : Bool)
    (limit : ℕ) : ℕ → List Int → Int → Except ScheduleError (List Int × Int)
  | 0, _, _ => .error .unbounded
  | fuel + 1, due, at_ =>
      if at_ = zeroTime ∨ now < at_ then .ok (due, at_) else
      match next at_ with
      | .error e => .error e
      | .ok candidate =>
          let due := if collect && candidate ≠ zeroTime && candidate ≤ now && due.length < limit
            then due ++ [candidate] else due
          advance next now collect limit fuel due candidate

def fuelFor (first now : Int) : ℕ := (now - first).toNat + 2

def due (cal : Calendar) (scheduleType : ScheduleType) (expression timezone : String)
    (policy : MisfirePolicy) (firstDue now maxCatchUp : Int) :
    Except ScheduleError (List Int × Int) :=
  let next := next cal scheduleType expression timezone
  let misfired := 2 * second < now - firstDue
  if now < firstDue then .ok ([], firstDue) else
  if scheduleType = .fixedDelay then
    if misfired then
      match policy with
      | .skip => (next now).map fun t => ([], t)
      | .fireOnce | .catchUp => .ok ([now], zeroTime)
      | .other name => .error (.unsupportedPolicy name)
    else .ok ([firstDue], zeroTime)
  else
    match policy with
    | .skip => advance next now false 0 (fuelFor firstDue now)
        (if misfired then [] else [firstDue]) firstDue
    | .fireOnce => advance next now false 0 (fuelFor firstDue now)
        (if misfired then [now] else [firstDue]) firstDue
    | .catchUp => advance next now true (if maxCatchUp < 1 then 10 else maxCatchUp.toNat)
        (fuelFor firstDue now) [firstDue] firstDue
    | .other name => .error (.unsupportedPolicy name)

end GoScheduler.Schedule
