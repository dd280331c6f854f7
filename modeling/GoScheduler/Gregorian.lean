import GoScheduler.Text.Rfc3339
import Mathlib

/-! The proleptic Gregorian calendar. Days are numbered from the first of January 1970, months
from January of the year 0, both without end in either direction; `first` is the day a month
begins with and `monthOf` the month a day lies in, and the two form a Galois connection. -/
namespace GoScheduler.Gregorian
open Text

def year (k : Int) : Int := k / 12

def month (k : Int) : Fin 12 := ⟨(k % 12).toNat, by omega⟩

def firstOfYear (y : Int) : Int :=
  365 * (y - 1) + (y - 1) / 4 - (y - 1) / 100 + (y - 1) / 400 - 719162

def first (k : Int) : Int := firstOfYear (year k) + Time.daysBefore (year k) (month k)

def length (k : Int) : ℕ := daysIn (year k) (month k)

theorem firstOfYear_succ (y : Int) :
    firstOfYear (y + 1) = firstOfYear y + if isLeap y then 366 else 365 := by
  unfold firstOfYear
  split_ifs with h <;> simp [isLeap] at h <;> omega

theorem length_bounds (k : Int) : 28 ≤ length k ∧ length k ≤ 31 := by
  unfold length daysIn
  split_ifs <;> omega

theorem daysBefore_succ (y : Int) {m m' : Fin 12} (h : m'.val = m.val + 1) :
    Time.daysBefore y m' = Time.daysBefore y m + daysIn y m := by
  unfold Time.daysBefore daysIn
  cases isLeap y <;> revert m m' <;> decide

theorem daysBefore_december (y : Int) :
    Time.daysBefore y 11 + daysIn y 11 = if isLeap y then 366 else 365 := by
  unfold Time.daysBefore daysIn
  cases isLeap y <;> rfl

theorem first_succ (k : Int) : first (k + 1) = first k + length k := by
  unfold first length
  by_cases h : k % 12 = 11
  · have hy : year (k + 1) = year k + 1 := by unfold year; omega
    have hm : month (k + 1) = 0 := Fin.ext (by simp [month]; omega)
    have hm' : month k = 11 := Fin.ext (by simp [month, h])
    have hl := daysBefore_december (year k)
    rw [hy, hm, hm', firstOfYear_succ]
    have h0 : Time.daysBefore (year k + 1) 0 = 0 := by simp [Time.daysBefore]
    split_ifs at * <;> omega
  · have hy : year (k + 1) = year k := by unfold year; omega
    have hm : (month (k + 1)).val = (month k).val + 1 := by simp only [month]; omega
    rw [hy, daysBefore_succ _ hm]
    omega

theorem first_strictMono : StrictMono first :=
  strictMono_int_of_lt_succ fun k => by
    have := first_succ k
    have := length_bounds k
    omega

/-- Days run 365.2425 to the year: the estimate is the year itself or the year before. -/
def yearOf (n : Int) : Int :=
  let y := (n + 719162) * 400 / 146097 + 1
  if firstOfYear (y + 1) ≤ n then y + 1 else y

theorem yearOf_spec (n : Int) : firstOfYear (yearOf n) ≤ n ∧ n < firstOfYear (yearOf n + 1) := by
  have hl : firstOfYear ((n + 719162) * 400 / 146097 + 1) ≤ n := by
    unfold firstOfYear
    omega
  have hu : n < firstOfYear ((n + 719162) * 400 / 146097 + 1 + 1 + 1) := by
    unfold firstOfYear
    omega
  simp only [yearOf]
  split_ifs with h
  · exact ⟨h, hu⟩
  · exact ⟨hl, by omega⟩

/-- The month a day lies in. No month is longer than 31 days, so the estimate is never too
late, and it is early by one month at most. -/
def monthOf (n : Int) : Int :=
  let k := 12 * yearOf n + (n - firstOfYear (yearOf n)) / 31
  if first (k + 1) ≤ n then k + 1 else k

theorem daysBefore_le (y : Int) (m : Fin 12) : Time.daysBefore y m ≤ 31 * m.val := by
  unfold Time.daysBefore
  cases isLeap y <;> revert m <;> decide

theorem le_daysBefore (y : Int) (m : Fin 12) :
    31 * m.val + 3 ≤ Time.daysBefore y m + daysIn y m := by
  unfold Time.daysBefore daysIn
  cases isLeap y <;> revert m <;> decide

theorem monthOf_spec (n : Int) : first (monthOf n) ≤ n ∧ n < first (monthOf n + 1) := by
  obtain ⟨hl, hu⟩ := yearOf_spec n
  rw [firstOfYear_succ] at hu
  set d := (n - firstOfYear (yearOf n)) / 31 with hd
  have hd12 : 0 ≤ d ∧ d < 12 := by split_ifs at hu <;> omega
  have hy : year (12 * yearOf n + d) = yearOf n := by
    unfold year
    omega
  have hm : ((month (12 * yearOf n + d)).val : Int) = d := by
    simp only [month]
    omega
  have hfirst : first (12 * yearOf n + d) ≤ n := by
    have := daysBefore_le (yearOf n) (month (12 * yearOf n + d))
    rw [first, hy]
    omega
  have hnext : n < first (12 * yearOf n + d + 1 + 1) := by
    have := le_daysBefore (yearOf n) (month (12 * yearOf n + d))
    have := length_bounds (12 * yearOf n + d + 1)
    rw [first_succ, first_succ, first, length, hy]
    omega
  simp only [monthOf, ← hd]
  split_ifs with h
  · exact ⟨h, hnext⟩
  · exact ⟨hfirst, by omega⟩

theorem le_monthOf_iff (k n : Int) : k ≤ monthOf n ↔ first k ≤ n := by
  obtain ⟨hl, hu⟩ := monthOf_spec n
  constructor
  · intro h
    exact (first_strictMono.monotone h).trans hl
  · intro h
    have := first_strictMono.lt_iff_lt.mp (h.trans_lt hu)
    omega

theorem monthOf_lt_iff (k n : Int) : monthOf n < k ↔ n < first k := by
  rw [← not_le, le_monthOf_iff, not_le]

theorem monthOf_eq_iff (k n : Int) : monthOf n = k ↔ first k ≤ n ∧ n < first (k + 1) := by
  rw [← le_monthOf_iff, ← monthOf_lt_iff]
  omega

@[simp] theorem monthOf_first (k : Int) : monthOf (first k) = k :=
  (monthOf_eq_iff _ _).mpr ⟨le_rfl, first_strictMono (Int.lt_succ k)⟩

def dayOf (n : Int) : Int := n - first (monthOf n) + 1

def weekday (n : Int) : Int := (n + 4) % 7

end GoScheduler.Gregorian
