import GoScheduler.Text.Utf8
import Mathlib.Tactic.Ring

/-! Points in time with the calendar and clock of their zone, and their form in RFC 3339
with a fraction of a second, as Go's `time.Time` writes it in JSON. The form has room for the
hours and minutes of the zone offset and not for its seconds. -/
namespace GoScheduler.Text

def isLeap (year : Int) : Bool := year % 4 = 0 && (year % 100 ≠ 0 || year % 400 = 0)

def daysIn (year : Int) (month : Fin 12) : ℕ :=
  if month = 1 then if isLeap year then 29 else 28
  else if month = 3 ∨ month = 5 ∨ month = 8 ∨ month = 10 then 30
  else 31

/-- Calendar and clock in a zone that is `offset` seconds ahead of UTC. Months and days are
counted from zero. -/
structure Time where
  year : Int
  month : Fin 12
  day : ℕ
  hour : Fin 24
  minute : Fin 60
  second : Fin 60
  nanosecond : Fin 1000000000
  offset : Int
  day_lt : day < daysIn year month
  deriving DecidableEq

namespace Time

def newYear (year : Int) : Time where
  year := year
  month := 0
  day := 0
  hour := 0
  minute := 0
  second := 0
  nanosecond := 0
  offset := 0
  day_lt := by simp [daysIn]

def daysBefore (year : Int) (month : Fin 12) : ℕ :=
  [0, 31, 59, 90, 120, 151, 181, 212, 243, 273, 304, 334].getD month 0 +
    if isLeap year ∧ 2 ≤ month then 1 else 0

def seconds (t : Time) : Int :=
  let years := t.year - 1
  let days := 365 * years + years / 4 - years / 100 + years / 400 +
    daysBefore t.year t.month + t.day
  86400 * days + 3600 * t.hour + 60 * t.minute + t.second - t.offset

def isZero (t : Time) : Bool := t.seconds = 0 && t.nanosecond = 0

def instant (t : Time) : Int := 1000000000 * t.seconds + t.nanosecond

def wholeMinutes (t : Time) : Time := { t with offset := 60 * t.offset.tdiv 60 }

theorem wholeMinutes_of_dvd {t : Time} (h : 60 ∣ t.offset) : t.wholeMinutes = t := by
  have ho : 60 * t.offset.tdiv 60 = t.offset := Int.mul_tdiv_cancel_of_dvd h
  rw [wholeMinutes, ho]

end Time

def digits : ℕ → ℕ → Bytes
  | 0, _ => []
  | k + 1, n => UInt8.ofNat (48 + n / 10 ^ k % 10) :: digits k n

def digitValue (b : UInt8) : Option ℕ := if 48 ≤ b ∧ b ≤ 57 then some (b.toNat - 48) else none

def readDigits : ℕ → ℕ → Bytes → Option (ℕ × Bytes)
  | 0, acc, s => some (acc, s)
  | _ + 1, _, [] => none
  | k + 1, acc, b :: rest => match digitValue b with
      | some d => readDigits k (10 * acc + d) rest
      | none => none

theorem digitValue_ofNat : ∀ d < 10, digitValue (UInt8.ofNat (48 + d)) = some d := by decide

theorem mod_pow_succ (n k : ℕ) : n % 10 ^ (k + 1) = 10 ^ k * (n / 10 ^ k % 10) + n % 10 ^ k := by
  rw [pow_succ, Nat.mod_mul, Nat.add_comm]

theorem readDigits_digits (k acc n : ℕ) (rest : Bytes) :
    readDigits k acc (digits k n ++ rest) = some (acc * 10 ^ k + n % 10 ^ k, rest) := by
  induction k generalizing acc with
  | zero => simp [readDigits, digits, Nat.mod_one]
  | succ k ih =>
    have hd := digitValue_ofNat (n / 10 ^ k % 10) (Nat.mod_lt _ (by omega))
    rw [digits, List.cons_append, readDigits, hd]
    simp only [ih, mod_pow_succ n k]
    congr 2
    ring

theorem readDigits_digits_of_lt {k n : ℕ} (h : n < 10 ^ k) (rest : Bytes) :
    readDigits k 0 (digits k n ++ rest) = some (n, rest) := by
  rw [readDigits_digits, Nat.zero_mul, Nat.zero_add, Nat.mod_eq_of_lt h]

def trimZeros : Bytes → Bytes
  | [] => []
  | b :: rest => if trimZeros rest = [] ∧ b = 48 then [] else b :: trimZeros rest

def readFraction : ℕ → ℕ → Bytes → ℕ × Bytes
  | 0, acc, s => (acc, s)
  | k + 1, acc, [] => (acc * 10 ^ (k + 1), [])
  | k + 1, acc, b :: rest => match digitValue b with
      | some d => readFraction k (10 * acc + d) rest
      | none => (acc * 10 ^ (k + 1), b :: rest)

def EndsNumber (s : Bytes) : Prop := ∀ b rest, s = b :: rest → digitValue b = none

theorem readFraction_of_endsNumber {s : Bytes} (h : EndsNumber s) (k acc : ℕ) :
    readFraction k acc s = (acc * 10 ^ k, s) := by
  cases k with
  | zero => simp [readFraction]
  | succ k =>
    cases s with
    | nil => rfl
    | cons b rest => rw [readFraction, h b rest rfl]

theorem mod_eq_zero_of_trimZeros {k n : ℕ} (h : trimZeros (digits k n) = []) : n % 10 ^ k = 0 := by
  induction k with
  | zero => rw [pow_zero, Nat.mod_one]
  | succ k ih =>
    rw [digits, trimZeros] at h
    split at h
    · next hc =>
      have hd := digitValue_ofNat (n / 10 ^ k % 10) (Nat.mod_lt _ (by omega))
      rw [hc.2] at hd
      have hzero : n / 10 ^ k % 10 = 0 := (Option.some.inj hd).symm
      rw [mod_pow_succ, hzero, ih hc.1, Nat.mul_zero]
    · cases h

theorem readFraction_trimZeros (k acc n : ℕ) {rest : Bytes} (h : EndsNumber rest) :
    readFraction k acc (trimZeros (digits k n) ++ rest) = (acc * 10 ^ k + n % 10 ^ k, rest) := by
  induction k generalizing acc with
  | zero => simp [readFraction, digits, trimZeros, Nat.mod_one]
  | succ k ih =>
    have hd := digitValue_ofNat (n / 10 ^ k % 10) (Nat.mod_lt _ (by omega))
    by_cases hnil : trimZeros (digits (k + 1) n) = []
    · rw [hnil, List.nil_append, readFraction_of_endsNumber h, mod_eq_zero_of_trimZeros hnil]
      rfl
    · have hcons : trimZeros (digits (k + 1) n) =
          UInt8.ofNat (48 + n / 10 ^ k % 10) :: trimZeros (digits k n) := by
        rw [digits, trimZeros] at hnil ⊢
        split at hnil
        · exact (hnil rfl).elim
        · next hc => rw [if_neg hc]
      rw [hcons, List.cons_append, readFraction, hd]
      simp only [ih, mod_pow_succ n k]
      congr 1
      ring

def fraction (n : ℕ) : Bytes := if n = 0 then [] else 46 :: trimZeros (digits 9 n)

def readNanoseconds (s : Bytes) : ℕ × Bytes :=
  match s with
  | 46 :: rest => readFraction 9 0 rest
  | _ => (0, s)

theorem readNanoseconds_fraction {n : ℕ} (hn : n < 10 ^ 9) {rest : Bytes} (h : EndsNumber rest)
    (hdot : ∀ s, rest ≠ 46 :: s) : readNanoseconds (fraction n ++ rest) = (n, rest) := by
  unfold fraction
  split
  · next hzero =>
    unfold readNanoseconds
    split
    · next s hs => exact (hdot s hs).elim
    · rw [hzero]
      rfl
  · change readFraction 9 0 (trimZeros (digits 9 n) ++ rest) = _
    rw [readFraction_trimZeros 9 0 n h, Nat.zero_mul, Nat.zero_add, Nat.mod_eq_of_lt hn]

def zone (offset : Int) : Bytes :=
  let minutes := (offset.tdiv 60).natAbs
  if offset = 0 then [90]
  else (if offset.tdiv 60 < 0 then 45 else 43) ::
    (digits 2 (minutes / 60) ++ 58 :: digits 2 (minutes % 60))

def expect (text s : Bytes) : Option Bytes :=
  if text.isPrefixOf s then some (s.drop text.length) else none

@[simp] theorem expect_append (text rest : Bytes) : expect text (text ++ rest) = some rest := by
  simp [expect]

@[simp] theorem expect_cons (b : UInt8) (rest : Bytes) : expect [b] (b :: rest) = some rest :=
  expect_append [b] rest

def readZone : Bytes → Option Int
  | [] => none
  | b :: rest =>
      if b = 90 then if rest = [] then some 0 else none
      else do
        let (hours, rest) ← readDigits 2 0 rest
        let rest ← expect [58] rest
        let (minutes, rest) ← readDigits 2 0 rest
        let offset := 60 * (60 * hours + minutes : Int)
        if rest ≠ [] then none
        else if b = 43 then some offset
        else if b = 45 then some (-offset)
        else none

theorem readZone_zone {offset : Int} (h : (offset.tdiv 60).natAbs / 60 < 24) :
    readZone (zone offset) = some (60 * offset.tdiv 60) := by
  unfold zone
  split
  · next hzero =>
    subst hzero
    rfl
  · generalize offset.tdiv 60 = m at h ⊢
    generalize hn : m.natAbs = n at h ⊢
    have hhours := readDigits_digits_of_lt (k := 2) (n := n / 60) (by omega)
    have hminutes := readDigits_digits_of_lt (k := 2) (n := n % 60) (by omega) []
    rw [List.append_nil] at hminutes
    split
    · simp [readZone, hhours, hminutes]
      omega
    · simp [readZone, hhours, hminutes]
      omega

theorem endsNumber_zone (offset : Int) : EndsNumber (zone offset) := by
  intro b rest h
  unfold zone at h
  split_ifs at h <;> cases h <;> rfl

theorem zone_ne_dot (offset : Int) (s : Bytes) : zone offset ≠ 46 :: s := by
  unfold zone
  split_ifs <;> simp

namespace Time

/-- The form of a time, where it has one: four digits for the year, two for the hours of the
zone offset. -/
def format (t : Time) : Option Bytes :=
  if 0 ≤ t.year ∧ t.year ≤ 9999 ∧ (t.offset.tdiv 60).natAbs / 60 < 24 then
    some (digits 4 t.year.toNat ++ 45 :: (digits 2 (t.month + 1) ++ 45 :: (digits 2 (t.day + 1) ++
      84 :: (digits 2 t.hour ++ 58 :: (digits 2 t.minute ++ 58 :: (digits 2 t.second ++
      (fraction t.nanosecond ++ zone t.offset)))))))
  else none

def ofNumbers (year month day hour minute second nanosecond : ℕ) (offset : Int) : Option Time :=
  if h : (1 ≤ month ∧ month - 1 < 12) ∧ hour < 24 ∧ minute < 60 ∧ second < 60 ∧
      nanosecond < 1000000000 then
    if hday : 1 ≤ day ∧ day - 1 < daysIn year ⟨month - 1, h.1.2⟩ then
      some ⟨year, ⟨month - 1, h.1.2⟩, day - 1, ⟨hour, h.2.1⟩, ⟨minute, h.2.2.1⟩,
        ⟨second, h.2.2.2.1⟩, ⟨nanosecond, h.2.2.2.2⟩, offset, hday.2⟩
    else none
  else none

def parse (s : Bytes) : Option Time := do
  let (year, s) ← readDigits 4 0 s
  let s ← expect [45] s
  let (month, s) ← readDigits 2 0 s
  let s ← expect [45] s
  let (day, s) ← readDigits 2 0 s
  let s ← expect [84] s
  let (hour, s) ← readDigits 2 0 s
  let s ← expect [58] s
  let (minute, s) ← readDigits 2 0 s
  let s ← expect [58] s
  let (second, s) ← readDigits 2 0 s
  let (nanosecond, s) := readNanoseconds s
  let offset ← readZone s
  ofNumbers year month day hour minute second nanosecond offset

theorem ofNumbers_eq (t : Time) (hyear : 0 ≤ t.year) :
    ofNumbers t.year.toNat (t.month + 1) (t.day + 1) t.hour t.minute t.second t.nanosecond
      (60 * t.offset.tdiv 60) = some t.wholeMinutes := by
  have hy : (t.year.toNat : Int) = t.year := Int.toNat_of_nonneg hyear
  have hclock : (1 ≤ t.month.val + 1 ∧ t.month.val + 1 - 1 < 12) ∧ t.hour.val < 24 ∧
      t.minute.val < 60 ∧ t.second.val < 60 ∧ t.nanosecond.val < 1000000000 := by omega
  have hday :
      1 ≤ t.day + 1 ∧ t.day + 1 - 1 < daysIn t.year.toNat ⟨t.month.val + 1 - 1, hclock.1.2⟩ := by
    rw [hy]
    exact ⟨by omega, t.day_lt⟩
  rw [ofNumbers, dif_pos hclock, dif_pos hday]
  simp [wholeMinutes, hy]

theorem daysIn_le (year : Int) (month : Fin 12) : daysIn year month ≤ 31 := by
  unfold daysIn
  split_ifs <;> omega

/-- What is read back of a time is its calendar and clock, with the seconds of its zone offset
cut off. -/
theorem parse_format {t : Time} {s : Bytes} (h : t.format = some s) :
    parse s = some t.wholeMinutes := by
  unfold format at h
  split at h
  · next hc =>
    obtain ⟨hmin, hmax, hzone⟩ := hc
    cases h
    have hday : t.day < 31 := t.day_lt.trans_le (daysIn_le t.year t.month)
    have hyear := readDigits_digits_of_lt (k := 4) (n := t.year.toNat) (by omega)
    have hmonth := readDigits_digits_of_lt (k := 2) (n := t.month + 1) (by omega)
    have hday := readDigits_digits_of_lt (k := 2) (n := t.day + 1) (by omega)
    have hhour := readDigits_digits_of_lt (k := 2) (n := t.hour) (by omega)
    have hminute := readDigits_digits_of_lt (k := 2) (n := t.minute) (by omega)
    have hsecond := readDigits_digits_of_lt (k := 2) (n := t.second) (by omega)
    have hnano := readNanoseconds_fraction (n := t.nanosecond) (by omega) (endsNumber_zone t.offset)
      (zone_ne_dot t.offset)
    simp only [parse, hyear, hmonth, hday, hhour, hminute, hsecond, hnano, expect_cons,
      readZone_zone hzone, bind, Option.bind]
    exact ofNumbers_eq t hmin
  · cases h

def yearDigits (year : Int) : Bytes :=
  let n := year.natAbs
  (if year < 0 then [45] else []) ++ if n < 10000 then digits 4 n else bytes (toString n)

/-- `Format` with the layout `RFC3339Nano`, which also writes years that the form has no room
for. -/
def formatNano (t : Time) : Bytes :=
  yearDigits t.year ++ 45 :: (digits 2 (t.month + 1) ++ 45 :: (digits 2 (t.day + 1) ++
    84 :: (digits 2 t.hour ++ 58 :: (digits 2 t.minute ++ 58 :: (digits 2 t.second ++
    (fraction t.nanosecond ++ zone t.offset))))))

theorem yearDigits_of_le {year : Int} (hmin : 0 ≤ year) (hmax : year ≤ 9999) :
    yearDigits year = digits 4 year.toNat := by
  have habs : year.natAbs = year.toNat := by omega
  rw [yearDigits, if_neg (by omega), if_pos (by omega), List.nil_append, habs]

theorem parse_formatNano {t : Time} (hmin : 0 ≤ t.year) (hmax : t.year ≤ 9999)
    (hutc : t.offset = 0) : parse t.formatNano = some t := by
  have hformat : t.format = some t.formatNano := by
    rw [format, if_pos ⟨hmin, hmax, by simp [hutc]⟩, formatNano, yearDigits_of_le hmin hmax]
  rw [parse_format hformat, wholeMinutes_of_dvd (by simp [hutc])]

end Time

end GoScheduler.Text
