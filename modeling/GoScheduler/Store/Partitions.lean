import GoScheduler.Fallible
import GoScheduler.Gregorian
import GoScheduler.Store.Schema

/-! The monthly partitions of `job_runs` where the application keeps them: which months a
maintenance pass asks for, how a partition is named after its month and the end of the month
read back from the name, and the pass itself over the partitions of the table. A pass runs in
one transaction under an advisory lock, so a failed pass leaves the partitions as they were.
Delegation to pg_partman is left out. -/
namespace GoScheduler.Store.Partitions
open Schedule Gregorian

def day : Int := 86400 * second

def monthAt (t : Int) : Int := monthOf (t / day)

def startOf (k : Int) : Int := first k * day

def addMonths (t n : Int) : Int :=
  (first (monthAt t + n) + (dayOf (t / day) - 1)) * day + t % day

theorem le_monthAt_iff (k t : Int) : k ≤ monthAt t ↔ startOf k ≤ t := by
  rw [monthAt, le_monthOf_iff, startOf, Int.le_ediv_iff_mul_le (by decide)]

theorem monthAt_lt_iff (k t : Int) : monthAt t < k ↔ t < startOf k := by
  rw [← not_le, le_monthAt_iff, not_le]

theorem startOf_strictMono : StrictMono startOf := fun _ _ h =>
  Int.mul_lt_mul_of_pos_right (first_strictMono h) (by decide)

@[simp] theorem monthAt_startOf (k : Int) : monthAt (startOf k) = k := by
  rw [monthAt, startOf, Int.mul_ediv_cancel _ (by decide), monthOf_first]

@[simp] theorem addMonths_startOf (k n : Int) : addMonths (startOf k) n = startOf (k + n) := by
  rw [addMonths, monthAt_startOf, startOf, Int.mul_ediv_cancel _ (by decide), dayOf,
    monthOf_first, Int.mul_emod_left, startOf]
  ring

theorem lt_addMonths_one (t : Int) : t < addMonths t 1 := by
  have hf : first (monthAt t) < first (monthAt t + 1) := first_strictMono (Int.lt_succ _)
  rw [monthAt] at hf
  simp only [addMonths, dayOf, monthAt, day, second] at hf ⊢
  omega

def padded (width : ℕ) (n : Int) : List Char :=
  let ds := Nat.toDigits 10 n.natAbs
  if n < 0 then '-' :: (List.replicate (width - 1 - ds.length) '0' ++ ds)
  else List.replicate (width - ds.length) '0' ++ ds

structure MonthPartition where
  name : String
  start : Int
  end_ : Int
deriving DecidableEq, Repr

def runPartitionName (start : Int) : String :=
  String.ofList ("job_runs_y".toList ++ padded 4 (year (monthAt start)) ++
    'm' :: padded 2 ((month (monthAt start)).val + 1))

def monthPartition (start : Int) : MonthPartition :=
  ⟨runPartitionName start, start, addMonths start 1⟩

def monthPartitions (start last : Int) : List MonthPartition :=
  if last < start then []
  else monthPartition start :: monthPartitions (addMonths start 1) last
termination_by (last + 1 - start).toNat
decreasing_by
  have := lt_addMonths_one start
  omega

/-- Allocating a slice of negative capacity panics, which is `none`. -/
def requiredRunPartitions (now retention premake : Int) : Option (List MonthPartition) :=
  let first := startOf (monthAt (now - retention))
  let last := startOf (monthAt now + premake)
  if (last - first).tdiv (28 * day) + 1 < 0 then none else some (monthPartitions first last)

/-- Only characters of one byte are accepted, so that counting characters is counting bytes. -/
def parseRunPartitionEnd (name : String) : Option Int :=
  let cs := name.toList
  if cs.length ≠ 17 ∨ cs.take 10 ≠ "job_runs_y".toList ∨ cs[14]? ≠ some 'm' then none else
  match parseInt (String.ofList ((cs.take 14).drop 10)), parseInt (String.ofList (cs.drop 15)) with
  | some year, some month =>
      if month < 1 ∨ 12 < month then none else some (startOf (12 * year + month))
  | _, _ => none

section Names

theorem padded_eq {width : ℕ} {n : ℕ} (hw : 0 < width) (h : n < 10 ^ width) :
    (padded width n).length = width ∧ (∀ c ∈ padded width n, c.isDigit) ∧
      Nat.ofDigitChars 10 (padded width n) 0 = n := by
  have hlen := (Nat.length_toDigits_le_iff (b := 10) (by decide) hw).mpr h
  have hp : padded width n =
      List.replicate (width - (Nat.toDigits 10 n).length) '0' ++ Nat.toDigits 10 n := by
    simp only [padded, Int.natAbs_natCast]
    rw [if_neg (by omega)]
  rw [hp]
  refine ⟨by simp; omega, ?_, ?_⟩
  · intro c hc
    rcases List.mem_append.mp hc with hc | hc
    · rw [List.eq_of_mem_replicate hc]
      rfl
    · exact Nat.isDigit_of_mem_toDigits (by decide) (by decide) hc
  · rw [Nat.ofDigitChars_append, Nat.ofDigitChars_replicate_zero, Nat.mul_zero,
      Nat.ofDigitChars_ten_toDigits]

theorem parseInt_padded {width n : ℕ} (hw : 0 < width) (h : n < 10 ^ width)
    (hn : n < 2 ^ 63) : parseInt (String.ofList (padded width n)) = some (n : Int) := by
  obtain ⟨hlen, hdigits, hvalue⟩ := padded_eq hw h
  have hne : padded width n ≠ [] := by
    rw [ne_eq, ← List.length_eq_zero_iff]
    omega
  rw [parseInt_digits hne hdigits (by rw [hvalue]; exact hn), hvalue]

theorem parseRunPartitionEnd_fields {ys ms : List Char} {y m : Int} (hys : ys.length = 4)
    (hms : ms.length = 2) (hy : parseInt (String.ofList ys) = some y)
    (hm : parseInt (String.ofList ms) = some m) (h1 : 1 ≤ m) (h12 : m ≤ 12) :
    parseRunPartitionEnd (String.ofList ("job_runs_y".toList ++ ys ++ 'm' :: ms)) =
      some (startOf (12 * y + m)) := by
  have hhead : ("job_runs_y".toList ++ ys).length = 14 := by simp [hys]
  have hlen : ("job_runs_y".toList ++ ys ++ 'm' :: ms).length = 17 := by
    rw [List.length_append, hhead, List.length_cons, hms]
  have hten : ("job_runs_y".toList ++ ys ++ 'm' :: ms).take 10 = "job_runs_y".toList := by
    rw [List.append_assoc]
    exact List.take_left' (by decide)
  have hmark : ("job_runs_y".toList ++ ys ++ 'm' :: ms)[14]? = some 'm' := by
    rw [List.getElem?_append_right hhead.le, hhead]
    rfl
  have hyear : (("job_runs_y".toList ++ ys ++ 'm' :: ms).take 14).drop 10 = ys := by
    rw [List.take_left' hhead]
    exact List.drop_left' (by decide)
  have hmonth : ("job_runs_y".toList ++ ys ++ 'm' :: ms).drop 15 = ms := by
    rw [List.append_cons]
    exact List.drop_left' (by rw [List.length_append, hhead]; rfl)
  simp only [parseRunPartitionEnd, String.toList_ofList]
  rw [if_neg (by simp only [hlen, hten, hmark, ne_eq, not_true_eq_false, or_self,
    not_false_eq_true]), hyear, hmonth, hy, hm]
  exact if_neg (by omega)

theorem parseRunPartitionEnd_name {k : Int} (h0 : 0 ≤ year k) (h9 : year k ≤ 9999) :
    parseRunPartitionEnd (runPartitionName (startOf k)) = some (startOf (k + 1)) := by
  obtain ⟨y, hy⟩ := Int.eq_ofNat_of_zero_le h0
  have hym : y < 10 ^ 4 := by omega
  have hmm : (month k).val + 1 < 10 ^ 2 := by omega
  have hk : 12 * (y : Int) + ((month k).val + 1 : ℕ) = k + 1 := by
    rw [← hy]
    simp only [year, month]
    omega
  have hname : runPartitionName (startOf k) = String.ofList
      ("job_runs_y".toList ++ padded 4 y ++ 'm' :: padded 2 ((month k).val + 1 : ℕ)) := by
    unfold runPartitionName
    simp only [monthAt_startOf, hy, Nat.cast_add, Nat.cast_one]
  have hend := parseRunPartitionEnd_fields (padded_eq (by decide) hym).1
    (padded_eq (by decide) hmm).1 (parseInt_padded (by decide) hym (hym.trans (by decide)))
    (parseInt_padded (by decide) hmm (hmm.trans (by decide))) (by omega) (by omega)
  rwa [hk, ← hname] at hend

example : runPartitionName (startOf (12 * 2026 + 4)) = "job_runs_y2026m05" ∧
    parseRunPartitionEnd "job_runs_y2026m12" = some (1798761600 * second) := by decide +kernel

end Names

theorem monthPartition_startOf (k : Int) :
    monthPartition (startOf k) = ⟨runPartitionName (startOf k), startOf k, startOf (k + 1)⟩ := by
  simp only [monthPartition, addMonths_startOf]

theorem monthPartitions_startOf (k : Int) (n : ℕ) :
    monthPartitions (startOf k) (startOf (k + n - 1)) =
      (List.range n).map fun i : ℕ => monthPartition (startOf (k + i)) := by
  induction n generalizing k with
  | zero =>
      rw [monthPartitions, if_pos (startOf_strictMono (by omega))]
      rfl
  | succ n ih =>
      have hle : startOf k ≤ startOf (k + (n + 1 : ℕ) - 1) :=
        startOf_strictMono.monotone (by omega)
      have hlast : k + (n + 1 : ℕ) - 1 = k + 1 + n - 1 := by omega
      rw [monthPartitions, if_neg (not_lt.mpr hle), addMonths_startOf, hlast, ih (k + 1),
        List.range_succ_eq_map, List.map_cons, List.map_map]
      have hshift (i : ℕ) : k + 1 + (i : Int) = k + (i + 1 : ℕ) := by omega
      simp [Function.comp_def, hshift]

def requiredMonths (now retention : Int) : List Int :=
  (List.range (monthAt now + 4 - monthAt (now - retention)).toNat).map fun i : ℕ =>
    monthAt (now - retention) + i

theorem monthAt_mono : Monotone monthAt := fun _ _ h =>
  (le_monthAt_iff _ _).mpr (((le_monthAt_iff _ _).mp le_rfl).trans h)

theorem mem_requiredMonths {now retention k : Int} :
    k ∈ requiredMonths now retention ↔ monthAt (now - retention) ≤ k ∧ k ≤ monthAt now + 3 := by
  simp only [requiredMonths, List.mem_map, List.mem_range]
  constructor
  · rintro ⟨i, hi, rfl⟩
    omega
  · intro h
    exact ⟨(k - monthAt (now - retention)).toNat, by omega, by omega⟩

theorem requiredRunPartitions_eq {now retention : Int} (hr : 0 ≤ retention) :
    requiredRunPartitions now retention 3 =
      some ((requiredMonths now retention).map fun k => monthPartition (startOf k)) := by
  have hm : monthAt (now - retention) ≤ monthAt now := monthAt_mono (by omega)
  have hle : startOf (monthAt (now - retention)) ≤ startOf (monthAt now + 3) :=
    startOf_strictMono.monotone (by omega)
  have hcap : 0 ≤ (startOf (monthAt now + 3) - startOf (monthAt (now - retention))).tdiv
      (28 * day) := Int.tdiv_nonneg (by omega) (by decide)
  have hlast : monthAt now + 3 = monthAt (now - retention) +
      (monthAt now + 4 - monthAt (now - retention)).toNat - 1 := by omega
  simp only [requiredRunPartitions]
  rw [if_neg (by omega), hlast, monthPartitions_startOf, requiredMonths, List.map_map]
  rfl

/-- A partition of `job_runs` and the runs it holds; the default partition has no range. -/
structure Partition where
  name : String
  range : Option (Int × Int)
  runs : List Run := []
deriving DecidableEq, Repr

inductive MaintenanceError where
  | negativeCapacity
  | create (name : String)
deriving DecidableEq, Repr

/-- A new partition may not overlap another one, and the default partition may not hold a run
that belongs into it. -/
def conflicts (p : MonthPartition) (q : Partition) : Bool :=
  match q.range with
  | some (lo, hi) => lo < p.end_ && p.start < hi
  | none => q.runs.any fun r => p.start ≤ r.scheduledAt && r.scheduledAt < p.end_

def createRunPartition (c : List Partition) (p : MonthPartition) :
    Except MaintenanceError (List Partition) :=
  if c.any fun q => q.name = p.name then .ok c
  else if c.any (conflicts p) then .error (.create p.name)
  else .ok (c ++ [{ name := p.name, range := some (p.start, p.end_) }])

def createRunPartitions (c : List Partition) :
    List MonthPartition → Except MaintenanceError (List Partition)
  | [] => .ok c
  | p :: ps => do
      let c ← createRunPartition c p
      createRunPartitions c ps

def expired (cutoff : Int) (q : Partition) : Bool :=
  match parseRunPartitionEnd q.name with
  | none => false
  | some end_ => end_ ≤ cutoff && !q.runs.any fun r => r.status.active

def maintainRunPartitions (locked : Bool) (now retention : Int) (c : List Partition) :
    Except MaintenanceError (ℕ × List Partition) :=
  if !locked then .ok (0, c) else
  match requiredRunPartitions now retention 3 with
  | none => .error .negativeCapacity
  | some required => do
      let c ← createRunPartitions c required
      return (c.countP (expired (now - retention)), c.filter fun q => !expired (now - retention) q)

/-- A partition whose name is that of a month ends with that month, in UTC. -/
def Named (c : List Partition) : Prop :=
  ∀ q ∈ c, ∀ end_, parseRunPartitionEnd q.name = some end_ → ∃ lo, q.range = some (lo, end_)

def InRange (now retention : Int) : Prop :=
  0 ≤ year (monthAt (now - retention)) ∧ year (monthAt now + 3) ≤ 9999

/-- The partitions that the migration makes, for seven months of the time zone of its session. The
months of the zone begin at the instants `localStart`. -/
def migrated (localStart : Int → Int) (month : Int) : List Partition :=
  ((List.range 7).map fun i : ℕ =>
    { name := runPartitionName (startOf (month - 3 + i))
      range := some (localStart (month - 3 + i), localStart (month - 3 + i + 1)) }) ++
  [{ name := "job_runs_default", range := none }]

/-- Runs come, change and go, and maintenance passes are made. -/
inductive Step : List Partition → List Partition → Prop
  | traffic {c c' : List Partition}
      (h : c'.map (fun q => (q.name, q.range)) = c.map fun q => (q.name, q.range)) : Step c c'
  | pass {c c' : List Partition} {locked : Bool} {now retention : Int} {dropped : ℕ}
      (hr : 0 ≤ retention) (hy : InRange now retention)
      (h : maintainRunPartitions locked now retention c = .ok (dropped, c')) : Step c c'

theorem InRange.year {now retention k : Int} (hy : InRange now retention)
    (hk : k ∈ requiredMonths now retention) : 0 ≤ year k ∧ year k ≤ 9999 := by
  obtain ⟨h0, h9⟩ := hy
  obtain ⟨hl, hu⟩ := mem_requiredMonths.mp hk
  unfold Gregorian.year at *
  omega

theorem named_migrated {month : Int} (h0 : 0 ≤ year (month - 3)) (h9 : year (month + 3) ≤ 9999) :
    Named (migrated startOf month) := by
  intro q hq end_ hend
  rcases List.mem_append.mp hq with hq | hq
  · obtain ⟨i, hi, rfl⟩ := List.mem_map.mp hq
    have hi : i < 7 := List.mem_range.mp hi
    have hyear : 0 ≤ year (month - 3 + i) ∧ year (month - 3 + i) ≤ 9999 := by
      unfold year at *
      omega
    have hparse := parseRunPartitionEnd_name hyear.1 hyear.2
    exact ⟨_, by rw [Option.some.inj (hparse.symm.trans hend)]⟩
  · have hnone : parseRunPartitionEnd "job_runs_default" = none := by decide +kernel
    rw [List.mem_singleton.mp hq] at hend
    cases hnone.symm.trans hend

theorem createRunPartition_cases {c c' : List Partition} {p : MonthPartition}
    (h : createRunPartition c p = .ok c') :
    (c' = c ∧ ∃ q ∈ c, q.name = p.name) ∨
      c' = c ++ [{ name := p.name, range := some (p.start, p.end_) }] := by
  unfold createRunPartition at h
  split_ifs at h with hn hc
  · simp only [List.any_eq_true, decide_eq_true_eq] at hn
    exact .inl ⟨(Except.ok.inj h).symm, hn⟩
  · exact .inr (Except.ok.inj h).symm

theorem createRunPartitions_spec {ps : List MonthPartition} {c c' : List Partition}
    (h : createRunPartitions c ps = .ok c') :
    (∀ q ∈ c, q ∈ c') ∧ (∀ p ∈ ps, ∃ q ∈ c', q.name = p.name) ∧
      ∀ q ∈ c', q ∈ c ∨ ∃ p ∈ ps, q = { name := p.name, range := some (p.start, p.end_) } := by
  induction ps generalizing c with
  | nil =>
      cases h
      simp
  | cons p ps ih =>
      obtain ⟨c₁, h₁, hrest⟩ := Fallible.exists_of_bind_ok h
      obtain ⟨hkeep, hpresent, honly⟩ := ih hrest
      have hsub : ∀ q ∈ c, q ∈ c₁ := by
        intro q hq
        rcases createRunPartition_cases h₁ with ⟨rfl, _⟩ | rfl
        · exact hq
        · exact List.mem_append_left _ hq
      have hnamed : ∃ q ∈ c₁, q.name = p.name := by
        rcases createRunPartition_cases h₁ with ⟨rfl, hq⟩ | rfl
        · exact hq
        · exact ⟨_, List.mem_append_right _ (List.mem_singleton_self _), rfl⟩
      refine ⟨fun q hq => hkeep q (hsub q hq), ?_, ?_⟩
      · rw [List.forall_mem_cons]
        obtain ⟨q, hq, hname⟩ := hnamed
        exact ⟨⟨q, hkeep q hq, hname⟩, hpresent⟩
      · intro q hq
        rcases honly q hq with hq | ⟨p', hp', rfl⟩
        · rcases createRunPartition_cases h₁ with ⟨rfl, _⟩ | rfl
          · exact .inl hq
          · rcases List.mem_append.mp hq with hq | hq
            · exact .inl hq
            · exact .inr ⟨p, List.mem_cons_self, List.mem_singleton.mp hq⟩
        · exact .inr ⟨p', List.mem_cons_of_mem _ hp', rfl⟩

theorem maintainRunPartitions_cases {locked : Bool} {now retention : Int} {dropped : ℕ}
    {c c' : List Partition} (hr : 0 ≤ retention)
    (h : maintainRunPartitions locked now retention c = .ok (dropped, c')) :
    (locked = false ∧ c' = c) ∨
      ∃ c₁, createRunPartitions c
          ((requiredMonths now retention).map fun k => monthPartition (startOf k)) = .ok c₁ ∧
        c' = c₁.filter fun q => !expired (now - retention) q := by
  unfold maintainRunPartitions at h
  rw [requiredRunPartitions_eq hr] at h
  cases locked with
  | false => exact .inl ⟨rfl, (Prod.ext_iff.mp (Except.ok.inj h)).2.symm⟩
  | true =>
      obtain ⟨c₁, hcreate, hdrop⟩ := Fallible.exists_of_bind_ok h
      exact .inr ⟨c₁, hcreate, (Prod.ext_iff.mp (Except.ok.inj hdrop)).2.symm⟩

theorem Named.create {now retention : Int} {c c₁ : List Partition} (hn : Named c)
    (hy : InRange now retention)
    (h : createRunPartitions c
      ((requiredMonths now retention).map fun k => monthPartition (startOf k)) = .ok c₁) :
    Named c₁ := by
  intro q hq end_ hend
  rcases (createRunPartitions_spec h).2.2 q hq with hq | ⟨p, hp, rfl⟩
  · exact hn q hq end_ hend
  · obtain ⟨k, hk, rfl⟩ := List.mem_map.mp hp
    rw [monthPartition_startOf] at hend ⊢
    have hparse := parseRunPartitionEnd_name (hy.year hk).1 (hy.year hk).2
    exact ⟨startOf k, by rw [Option.some.inj (hparse.symm.trans hend)]⟩

theorem Named.step {c c' : List Partition} (hn : Named c) (hs : Step c c') : Named c' := by
  cases hs with
  | traffic h =>
      intro q hq end_ hend
      have hmem : (q.name, q.range) ∈ c.map fun q => (q.name, q.range) :=
        h ▸ List.mem_map_of_mem hq
      obtain ⟨p, hp, hpq⟩ := List.mem_map.mp hmem
      obtain ⟨hname, hrange⟩ := Prod.ext_iff.mp hpq
      rw [← (show p.range = q.range from hrange)]
      exact hn p hp end_ ((show p.name = q.name from hname) ▸ hend)
  | pass hr hy h =>
      rcases maintainRunPartitions_cases hr h with ⟨_, rfl⟩ | ⟨c₁, hcreate, rfl⟩
      · exact hn
      · exact fun q hq => hn.create hy hcreate q (List.mem_of_mem_filter hq)

theorem Named.reaches {c₀ c : List Partition} (hn : Named c₀)
    (h : Relation.ReflTransGen Step c₀ c) : Named c := by
  induction h with
  | refl => exact hn
  | tail _ hs ih => exact ih.step hs

theorem Named.end_le {c : List Partition} (hn : Named c) {q : Partition} (hq : q ∈ c)
    {cutoff : Int} (he : expired cutoff q) : ∃ lo hi, q.range = some (lo, hi) ∧ hi ≤ cutoff := by
  unfold expired at he
  split at he
  · cases he
  · next end_ hend =>
      obtain ⟨lo, hlo⟩ := hn q hq end_ hend
      exact ⟨lo, end_, hlo, by simp_all⟩

theorem Named.stays {c : List Partition} (hn : Named c) {q : Partition} (hq : q ∈ c)
    {cutoff : Int} (h : ∀ lo hi, q.range = some (lo, hi) → cutoff < hi) :
    q ∈ c.filter fun q => !expired cutoff q := by
  rw [List.mem_filter]
  refine ⟨hq, ?_⟩
  by_contra he
  obtain ⟨lo, hi, hrange, hle⟩ := hn.end_le hq (by simpa using he)
  exact absurd (h lo hi hrange) (not_lt.mpr hle)

theorem InRange.parse {now retention k : Int} (hy : InRange now retention)
    (hk : k ∈ requiredMonths now retention) :
    parseRunPartitionEnd (monthPartition (startOf k)).name = some (startOf (k + 1)) :=
  parseRunPartitionEnd_name (hy.year hk).1 (hy.year hk).2

theorem cutoff_lt_of_mem_requiredMonths {now retention k : Int}
    (hk : k ∈ requiredMonths now retention) : now - retention < startOf (k + 1) := by
  have := mem_requiredMonths.mp hk
  exact (monthAt_lt_iff _ _).mp (by omega)

theorem Named.pass {locked : Bool} {now retention : Int} {dropped : ℕ} {c c' : List Partition}
    (hn : Named c) (hr : 0 ≤ retention) (hy : InRange now retention)
    (h : maintainRunPartitions locked now retention c = .ok (dropped, c')) :
    (∀ q ∈ c, (∀ lo hi, q.range = some (lo, hi) →
      ∃ t, now - retention ≤ t ∧ lo ≤ t ∧ t < hi) → q ∈ c') ∧
    (locked → ∀ k ∈ requiredMonths now retention,
      ∃ q ∈ c', q.name = (monthPartition (startOf k)).name ∧
        ∃ lo, q.range = some (lo, startOf (k + 1))) := by
  rcases maintainRunPartitions_cases hr h with ⟨rfl, rfl⟩ | ⟨c₁, hcreate, rfl⟩
  · exact ⟨fun q hq _ => hq, fun hl => by cases hl⟩
  have hn₁ : Named c₁ := hn.create hy hcreate
  obtain ⟨hkeep, hpresent, -⟩ := createRunPartitions_spec hcreate
  refine ⟨fun q hq hin => hn₁.stays (hkeep q hq) fun lo hi hrange => ?_, fun _ k hk => ?_⟩
  · obtain ⟨t, ht, _, hlt⟩ := hin lo hi hrange
    omega
  · obtain ⟨q, hq, hname⟩ := hpresent _ (List.mem_map_of_mem hk)
    obtain ⟨lo, hlo⟩ := hn₁ q hq _ (hname ▸ hy.parse hk)
    refine ⟨q, hn₁.stays hq fun lo' hi hrange => ?_, hname, lo, hlo⟩
    cases hrange.symm.trans hlo
    exact cutoff_lt_of_mem_requiredMonths hk

/-- The months that a pass requires reach from the retention window to the third month ahead
without a gap, and their ends are read back from their names. In every run that begins with
partitions that end as their names say, a pass keeps each partition with an instant in the
retention window, and every required month has one that ends with it. -/
theorem requiredRunPartitions_covers {now retention : Int} (hr : 0 ≤ retention)
    (hy : InRange now retention) :
    ∃ ps, requiredRunPartitions now retention 3 = some ps ∧ ps ≠ [] ∧
      (∀ p ∈ ps, ∃ k, p.start = startOf k ∧ p.end_ = startOf (k + 1)) ∧
      ps.IsChain (fun p q => p.end_ = q.start) ∧
      (∀ t, now - retention ≤ t → t < startOf (monthAt now + 4) →
        ∃ p ∈ ps, p.start ≤ t ∧ t < p.end_) ∧
      (ps.map MonthPartition.name).Nodup ∧
      (∀ p ∈ ps, parseRunPartitionEnd p.name = some p.end_) ∧
      (∀ p ∈ ps, ¬ p.end_ ≤ now - retention) ∧
      ∀ c₀ c c' locked dropped, Named c₀ → Relation.ReflTransGen Step c₀ c →
        maintainRunPartitions locked now retention c = .ok (dropped, c') →
        (∀ q ∈ c, (∀ lo hi, q.range = some (lo, hi) →
          ∃ t, now - retention ≤ t ∧ lo ≤ t ∧ t < hi) → q ∈ c') ∧
        (locked → ∀ p ∈ ps, ∃ q ∈ c', q.name = p.name ∧ ∃ lo, q.range = some (lo, p.end_)) := by
  have hm : monthAt (now - retention) ≤ monthAt now := monthAt_mono (by omega)
  refine ⟨_, requiredRunPartitions_eq hr, ?_, ?_, ?_, ?_, ?_, ?_, ?_, ?_⟩
  · have hmem : monthAt now ∈ requiredMonths now retention :=
      mem_requiredMonths.mpr ⟨hm, by omega⟩
    exact List.ne_nil_of_mem (List.mem_map_of_mem hmem)
  · intro p hp
    obtain ⟨k, hk, rfl⟩ := List.mem_map.mp hp
    exact ⟨k, by simp [monthPartition_startOf]⟩
  · simp only [requiredMonths, List.map_map, List.isChain_map, List.isChain_range,
      Function.comp_apply, monthPartition_startOf]
    intro i _
    rw [Nat.cast_succ, add_assoc]
  · intro t hl hu
    refine ⟨monthPartition (startOf (monthAt t)), List.mem_map_of_mem ?_, ?_⟩
    · have h₁ : monthAt (now - retention) ≤ monthAt t := monthAt_mono hl
      have h₂ := (monthAt_lt_iff _ _).mpr hu
      exact mem_requiredMonths.mpr ⟨h₁, by omega⟩
    · rw [monthPartition_startOf]
      exact ⟨(le_monthAt_iff _ _).mp le_rfl, (monthAt_lt_iff _ _).mp (by omega)⟩
  · have hnodup : (requiredMonths now retention).Nodup :=
      List.nodup_range.map fun _ _ h => by simpa using h
    rw [List.map_map, List.nodup_map_iff_inj_on hnodup]
    intro j hj k hk hname
    have hends :=
      (hy.parse hj).symm.trans ((congrArg parseRunPartitionEnd hname).trans (hy.parse hk))
    have := startOf_strictMono.injective (Option.some.inj hends)
    omega
  · intro p hp
    obtain ⟨k, hk, rfl⟩ := List.mem_map.mp hp
    rw [hy.parse hk, monthPartition_startOf]
  · intro p hp
    obtain ⟨k, hk, rfl⟩ := List.mem_map.mp hp
    rw [monthPartition_startOf]
    exact not_le.mpr (cutoff_lt_of_mem_requiredMonths hk)
  · intro c₀ c c' locked dropped hn hreach hpass
    obtain ⟨hkept, hpresent⟩ := (hn.reaches hreach).pass hr hy hpass
    refine ⟨hkept, fun hl p hp => ?_⟩
    obtain ⟨k, hk, rfl⟩ := List.mem_map.mp hp
    obtain ⟨q, hq, hname, lo, hlo⟩ := hpresent hl k hk
    exact ⟨q, hq, hname, lo, by rw [hlo, monthPartition_startOf]⟩

section Sample

def marchPass : List Partition :=
  (([1, 2, 3].map fun i : Int => 12 * 1970 + i).map fun k =>
    { name := runPartitionName (startOf k), range := some (startOf k, startOf (k + 1)) }) ++
  { name := "job_runs_default", range := none } ::
  ([4, 5].map fun i : Int => 12 * 1970 + i).map fun k =>
    { name := runPartitionName (startOf k), range := some (startOf k, startOf (k + 1)) }

/-- The migration is made in January in a session in UTC. A pass in March, with a retention of
thirty days, creates the partitions of May and June and drops the four up to January. -/
theorem requiredRunPartitions_covers_migrated :
    maintainRunPartitions true (startOf (12 * 1970 + 2) + 9 * day) (30 * day)
        (migrated startOf (12 * 1970)) = .ok (4, marchPass) ∧
      ∃ ps, requiredRunPartitions (startOf (12 * 1970 + 2) + 9 * day) (30 * day) 3 = some ps ∧
        ∀ p ∈ ps, ∃ q ∈ marchPass, q.name = p.name ∧ ∃ lo, q.range = some (lo, p.end_) := by
  have hpass : maintainRunPartitions true (startOf (12 * 1970 + 2) + 9 * day) (30 * day)
      (migrated startOf (12 * 1970)) = .ok (4, marchPass) := by
    rw [maintainRunPartitions, requiredRunPartitions_eq (by decide)]
    decide +kernel
  obtain ⟨ps, hps, _, _, _, _, _, _, _, hrun⟩ :=
    @requiredRunPartitions_covers (startOf (12 * 1970 + 2) + 9 * day) (30 * day) (by decide)
      ⟨by decide +kernel, by decide +kernel⟩
  have hn : Named (migrated startOf (12 * 1970)) :=
    named_migrated (by decide +kernel) (by decide +kernel)
  exact ⟨hpass, ps, hps, (hrun _ _ _ _ _ hn .refl hpass).2 rfl⟩

-- Midnight in New York on the first of a month is four or five hours after midnight in UTC.
def newYorkStart (k : Int) : Int :=
  startOf k + (if 3 ≤ k % 12 ∧ k % 12 ≤ 10 then 4 else 5) * 3600 * second

/-- The migration is made in August 2026 in a session in New York, so that the partition of May
ends four hours after May does in UTC. The pass one hour into the thirtieth of August, with a
retention of ninety days, drops it: its name says that it ended an hour before the window. -/
theorem maintainRunPartitions_drops_window :
    ∃ c' q lo hi t, maintainRunPartitions true (startOf (12 * 2026 + 7) + 29 * day + 3600 * second)
        (90 * day) (migrated newYorkStart (12 * 2026 + 7)) = .ok (1, c') ∧
      0 ≤ 90 * day ∧ InRange (startOf (12 * 2026 + 7) + 29 * day + 3600 * second) (90 * day) ∧
      q ∈ migrated newYorkStart (12 * 2026 + 7) ∧ q ∉ c' ∧ q.name = "job_runs_y2026m05" ∧
      q.range = some (lo, hi) ∧
      startOf (12 * 2026 + 7) + 29 * day + 3600 * second - 90 * day ≤ t ∧ lo ≤ t ∧ t < hi := by
  have hpass : maintainRunPartitions true (startOf (12 * 2026 + 7) + 29 * day + 3600 * second)
      (90 * day) (migrated newYorkStart (12 * 2026 + 7)) =
        .ok (1, (migrated newYorkStart (12 * 2026 + 7)).tail) := by
    rw [maintainRunPartitions, requiredRunPartitions_eq (by decide)]
    decide +kernel
  exact ⟨_, _, newYorkStart (12 * 2026 + 4), newYorkStart (12 * 2026 + 5),
    startOf (12 * 2026 + 5) + 3600 * second, hpass, by decide,
    ⟨by decide +kernel, by decide +kernel⟩, List.mem_cons_self, by decide +kernel,
    by decide +kernel, by decide +kernel, by decide +kernel, by decide +kernel, by decide +kernel⟩

end Sample

end GoScheduler.Store.Partitions
