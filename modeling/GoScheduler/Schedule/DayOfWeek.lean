import GoScheduler.Schedule.DayRules

/-! The day-of-week field: what its items denote, and that the field handed to the cron
library lists exactly the days denoted. Quartz counts the days of the week from one, the
library from zero; a range may run over the end of the week. -/
namespace GoScheduler.Schedule

def DayText (text : List Char) (d : Int) : Prop :=
  (text, d) ∈ dayNames ∨ (atoi text = some d ∧ 1 ≤ d ∧ d ≤ 7)

inductive ItemBase where
  | all
  | day (d : Int)
  | range (a b : Int)
deriving DecidableEq, Repr

inductive BaseText : List Char → ItemBase → Prop
  | all : BaseText ['*'] .all
  | day {text : List Char} {d : Int} (h : DayText text d) : BaseText text (.day d)
  | range {x y : List Char} {a b : Int} (ha : DayText x a) (hb : DayText y b) :
      BaseText (x ++ '-' :: y) (.range a b)

/-- An item of the field: `*`, a day or a range, and its step where it has one. -/
inductive ItemText : List Char → ItemBase → Option Int → Prop
  | plain {text : List Char} {base : ItemBase} (h : BaseText text base) : ItemText text base none
  | stepped {text digits : List Char} {base : ItemBase} {s : Int} (h : BaseText text base)
      (hs : atoi digits = some s) (h1 : 1 ≤ s) (h7 : s ≤ 7) :
      ItemText (text ++ '/' :: digits) base (some s)

def cyclic (a b : Int) : List Int :=
  (List.range (((b - a) % 7).toNat + 1)).map fun i : ℕ => (a - 1 + i) % 7 + 1

/-- The days of an item before its step is applied; a single day with a step runs on to the
end of the week. -/
def ItemBase.sequence (step : Option Int) : ItemBase → List Int
  | .all => cyclic 1 7
  | .day d => if step.isSome then cyclic d 7 else [d]
  | .range a b => cyclic a b

def Denotes (base : ItemBase) (step : Option Int) (d : Int) : Prop :=
  ∃ i : ℕ, (base.sequence step)[i * (step.getD 1).toNat]? = some d

section Texts

theorem isDigit_of_foldl {cs : List Char} {acc : Option ℕ} {n : ℕ}
    (h : cs.foldl (fun acc c => do return (← acc) * 10 + (← digit c)) acc = some n) :
    acc.isSome ∧ ∀ c ∈ cs, c.isDigit := by
  induction cs generalizing acc with
  | nil => exact ⟨by simp_all, by simp⟩
  | cons c cs ih =>
      obtain ⟨hacc, hcs⟩ := ih h
      cases acc with
      | none => simp at hacc
      | some a =>
          refine ⟨rfl, ?_⟩
          rw [List.forall_mem_cons]
          refine ⟨?_, hcs⟩
          by_contra hc
          simp [digit, hc] at hacc

theorem isDigit_of_decimal {cs : List Char} {n : ℕ} (h : decimal cs = some n) :
    ∀ c ∈ cs, c.isDigit := by
  cases cs with
  | nil => simp
  | cons c cs => exact (isDigit_of_foldl h).2

theorem mem_of_atoi_pos {text : List Char} {d : Int} (h : atoi text = some d) (hd : 1 ≤ d) :
    ∀ c ∈ text, c.isDigit ∨ c = '+' := by
  unfold atoi parseInt at h
  rw [String.toList_ofList] at h
  split at h
  · next cs =>
      cases hn : decimal cs with
      | none => simp [hn] at h
      | some n =>
          simp only [hn, pure, bind, Option.bind, Option.map] at h
          split at h
          · have hneg : -(n : Int) = d := Option.some.inj h
            exact absurd hd (by omega)
          · cases h
  · next cs =>
      cases hn : decimal cs with
      | none => simp [hn] at h
      | some n =>
          rw [List.forall_mem_cons]
          exact ⟨.inr rfl, fun c hc => .inl (isDigit_of_decimal hn c hc)⟩
  · cases hn : decimal text with
    | none => simp [hn] at h
    | some n => exact fun c hc => .inl (isDigit_of_decimal hn c hc)

theorem DayText.notMem {text : List Char} {d : Int} (h : DayText text d) {c : Char}
    (hc : c = '-' ∨ c = '/') : c ∉ text := by
  intro hmem
  rcases h with h | ⟨h, h1, _⟩
  · have hnames : ∀ p ∈ dayNames, '-' ∉ p.1 ∧ '/' ∉ p.1 := by decide
    rcases hc with rfl | rfl
    · exact (hnames _ h).1 hmem
    · exact (hnames _ h).2 hmem
  · have hchars : ¬ ('-'.isDigit ∨ '-' = '+') ∧ ¬ ('/'.isDigit ∨ '/' = '+') := by decide
    rcases hc with rfl | rfl
    · exact hchars.1 (mem_of_atoi_pos h h1 _ hmem)
    · exact hchars.2 (mem_of_atoi_pos h h1 _ hmem)

theorem DayText.bounds {text : List Char} {d : Int} (h : DayText text d) : 1 ≤ d ∧ d ≤ 7 := by
  rcases h with h | ⟨_, h⟩
  · have hnames : ∀ p ∈ dayNames, 1 ≤ p.2 ∧ p.2 ≤ 7 := by decide
    exact hnames _ h
  · exact h

theorem DayText.ne_star {text : List Char} {d : Int} (h : DayText text d) : text ≠ ['*'] := by
  rintro rfl
  rcases h with h | ⟨h, h1, _⟩
  · have hnames : ∀ p ∈ dayNames, p.1 ≠ ['*'] := by decide
    exact hnames _ h rfl
  · have hchars : ¬ ('*'.isDigit ∨ '*' = '+') := by decide
    exact hchars (mem_of_atoi_pos h h1 _ List.mem_cons_self)

theorem DayText.ne_nil {text : List Char} {d : Int} (h : DayText text d) : text ≠ [] := by
  rintro rfl
  rcases h with h | ⟨h, _⟩
  · have hnames : ∀ p ∈ dayNames, p.1 ≠ [] := by decide
    exact hnames _ h rfl
  · exact absurd h (by simp [atoi, parseInt, decimal])

theorem quartzDayOfWeek_eq_ok_iff (text : List Char) (d : Int) :
    quartzDayOfWeek text = .ok d ↔ DayText text d := by
  have hnames : ∀ p ∈ dayNames, dayNames.lookup p.1 = some p.2 ∧ atoi p.1 = none := by
    decide +kernel
  have hmem {e : Int} (h : dayNames.lookup text = some e) : (text, e) ∈ dayNames := by
    obtain ⟨l₁, l₂, hl, _⟩ := List.lookup_eq_some_iff.mp h
    exact hl ▸ List.mem_append_right _ List.mem_cons_self
  unfold quartzDayOfWeek
  split
  · next e he =>
      have hnum := (hnames _ (hmem he)).2
      constructor
      · rintro ⟨rfl⟩
        exact .inl (hmem he)
      · rintro (h | ⟨h, _⟩)
        · exact congrArg _ (Option.some.inj (he.symm.trans (hnames _ h).1))
        · cases hnum.symm.trans h
  · next hn =>
      have hname : (text, d) ∉ dayNames := fun h => by cases hn.symm.trans (hnames _ h).1
      unfold DayText
      split
      · next e he =>
          simp only [hname, he, Option.some.injEq, false_or]
          split_ifs with hb
          · simp only [false_iff]
            rintro ⟨rfl, _⟩
            omega
          · simp only [Except.ok.injEq]
            constructor
            · rintro rfl
              omega
            · exact fun h => h.1
      · next he => simp [hname, he]

end Texts

section Items

theorem quartzDayRange_eq {a b : Int} (ha : 1 ≤ a ∧ a ≤ 7) (hb : 1 ≤ b ∧ b ≤ 7) :
    quartzDayRange a b = some (cyclic a b) := by
  have hall : ∀ i j : Fin 7, quartzDayRange (i.val + 1) (j.val + 1) =
      some (cyclic (i.val + 1) (j.val + 1)) := by decide
  have hi : ((a - 1).toNat : Int) + 1 = a := by omega
  have hj : ((b - 1).toNat : Int) + 1 = b := by omega
  have h := hall ⟨(a - 1).toNat, by omega⟩ ⟨(b - 1).toNat, by omega⟩
  simpa only [hi, hj] using h

theorem mem_everyStep {α : Type*} {step : ℕ} (hstep : 0 < step) (skip : ℕ) (xs : List α) (x : α) :
    x ∈ everyStep step skip xs ↔ ∃ i, xs[skip + i * step]? = some x := by
  induction xs generalizing skip with
  | nil => simp [everyStep]
  | cons y xs ih =>
      cases skip with
      | zero =>
          have hshift (i : ℕ) : 0 + (i + 1) * step = step - 1 + i * step + 1 := by
            rw [Nat.add_mul]
            omega
          rw [everyStep, List.mem_cons, ih]
          constructor
          · rintro (rfl | ⟨i, hi⟩)
            · exact ⟨0, by simp⟩
            · exact ⟨i + 1, by rw [hshift, List.getElem?_cons_succ, hi]⟩
          · rintro ⟨_ | i, hi⟩
            · exact .inl (by simpa using hi.symm)
            · rw [hshift, List.getElem?_cons_succ] at hi
              exact .inr ⟨i, hi⟩
      | succ skip =>
          have hshift (i : ℕ) : skip + 1 + i * step = skip + i * step + 1 := by omega
          simp only [everyStep, ih, hshift, List.getElem?_cons_succ]

def ItemBase.bounds (stepped : Bool) : ItemBase → Int × Int
  | .all => (1, 7)
  | .day d => (d, if stepped then 7 else d)
  | .range a b => (a, b)

theorem BaseText.notMem_slash {text : List Char} {base : ItemBase} (h : BaseText text base) :
    '/' ∉ text := by
  cases h with
  | all => decide
  | day h => exact h.notMem (.inr rfl)
  | range ha hb =>
      intro hmem
      rcases List.mem_append.mp hmem with hx | hy
      · exact ha.notMem (.inr rfl) hx
      · exact hb.notMem (.inr rfl) (List.mem_of_ne_of_mem (by decide) hy)

theorem BaseText.ne_nil {text : List Char} {base : ItemBase} (h : BaseText text base) :
    text ≠ [] := by
  cases h with
  | all => simp
  | day h => exact h.ne_nil
  | range ha hb => simp

theorem BaseText.bounds {text : List Char} {base : ItemBase} (h : BaseText text base)
    (stepped : Bool) : (1 ≤ (base.bounds stepped).1 ∧ (base.bounds stepped).1 ≤ 7) ∧
      1 ≤ (base.bounds stepped).2 ∧ (base.bounds stepped).2 ≤ 7 := by
  cases h with
  | all => simp [ItemBase.bounds]
  | day h =>
      have := h.bounds
      cases stepped <;> simp [ItemBase.bounds, this]
  | range ha hb => exact ⟨ha.bounds, hb.bounds⟩

theorem BaseText.sequence_eq {text : List Char} {base : ItemBase} (h : BaseText text base)
    (step : Option Int) :
    base.sequence step = cyclic (base.bounds step.isSome).1 (base.bounds step.isSome).2 := by
  cases h with
  | all => rfl
  | @day _ d h =>
      have hd := h.bounds
      simp only [ItemBase.sequence, ItemBase.bounds]
      split_ifs
      · rfl
      · have hself : (d - 1) % 7 + 1 = d := by omega
        simp [cyclic, hself]
  | range => rfl

theorem itemBounds_eq_ok_iff (text : List Char) (stepped : Bool) (p : Int × Int) :
    itemBounds text stepped = .ok p ↔ ∃ base, BaseText text base ∧ p = base.bounds stepped := by
  constructor
  · intro h
    unfold itemBounds at h
    by_cases hstar : text = ['*']
    · rw [if_pos hstar] at h
      cases h
      exact ⟨.all, hstar ▸ .all, rfl⟩
    rw [if_neg hstar] at h
    by_cases hdash : text.contains '-'
    · rw [if_pos hdash] at h
      split at h
      · next x y hxy =>
          obtain ⟨a, ha, h⟩ := Fallible.exists_of_bind_ok h
          obtain ⟨b, hb, h⟩ := Fallible.exists_of_bind_ok h
          cases h
          have htext : ['-'].intercalate (text.splitOn '-') = text := List.intercalate_splitOn '-'
          have htext : x ++ '-' :: y = text := by simpa [hxy, List.intercalate] using htext
          exact ⟨.range a b, htext ▸ .range ((quartzDayOfWeek_eq_ok_iff _ _).mp ha)
            ((quartzDayOfWeek_eq_ok_iff _ _).mp hb), rfl⟩
      · cases h
    · rw [if_neg hdash] at h
      obtain ⟨a, ha, h⟩ := Fallible.exists_of_bind_ok h
      cases h
      exact ⟨.day a, .day ((quartzDayOfWeek_eq_ok_iff _ _).mp ha), rfl⟩
  · rintro ⟨base, hbase, rfl⟩
    unfold itemBounds
    cases hbase with
    | all => rfl
    | day h =>
        have hdash : ¬ text.contains '-' := by simpa using h.notMem (.inl rfl)
        rw [if_neg h.ne_star, if_neg hdash, (quartzDayOfWeek_eq_ok_iff _ _).mpr h]
        rfl
    | @range x y a b ha hb =>
        have hsplit : (x ++ '-' :: y).splitOn '-' = [x, y] := by
          rw [List.splitOn_append_cons_self_of_not_mem (ha.notMem (.inl rfl)),
            List.splitOn_eq_singleton (hb.notMem (.inl rfl))]
        have hstar : x ++ '-' :: y ≠ ['*'] := by
          intro h
          have hmem : '-' ∈ ['*'] := h ▸ by simp
          exact absurd hmem (by decide)
        rw [if_neg hstar, if_pos (by simp), hsplit]
        simp only [(quartzDayOfWeek_eq_ok_iff _ _).mpr ha, (quartzDayOfWeek_eq_ok_iff _ _).mpr hb]
        rfl

theorem itemStep_some_eq_ok_iff (digits : List Char) (s : Int) :
    itemStep (some digits) = .ok s ↔ atoi digits = some s ∧ 1 ≤ s ∧ s ≤ 7 := by
  unfold itemStep
  cases hd : atoi digits with
  | none => simp [hd]
  | some t =>
      simp only [hd, Option.some.injEq]
      split_ifs with h
      · simp only [false_iff]
        rintro ⟨rfl, _⟩
        omega
      · simp only [Except.ok.injEq]
        constructor
        · rintro rfl
          omega
        · exact fun h => h.1

def StepText : Option (List Char) → Option Int → Prop
  | none, step => step = none
  | some digits, step => ∃ s, step = some s ∧ atoi digits = some s ∧ 1 ≤ s ∧ s ≤ 7

theorem partDays_eq_ok_iff (text : List Char) (rest : Option (List Char)) (days : List Int) :
    partDays text rest = .ok days ↔ ∃ base step, BaseText text base ∧ StepText rest step ∧
      days = everyStep (step.getD 1).toNat 0 (base.sequence step) := by
  have hstep (n : Int) : itemStep rest = .ok n ↔ ∃ step, StepText rest step ∧ n = step.getD 1 := by
    cases rest with
    | none => simp [itemStep, StepText, eq_comm]
    | some digits =>
        rw [itemStep_some_eq_ok_iff]
        constructor
        · intro h
          exact ⟨some n, ⟨n, rfl, h⟩, rfl⟩
        · rintro ⟨step, ⟨s, rfl, h⟩, rfl⟩
          exact h
  have hsome {step : Option Int} (h : StepText rest step) : rest.isSome = step.isSome := by
    cases rest with
    | none => simp_all [StepText]
    | some digits =>
        obtain ⟨s, rfl, _⟩ := h
        rfl
  have hrange {base : ItemBase} {step : Option Int} (hbase : BaseText text base)
      (h : StepText rest step) :
      quartzDayRange (base.bounds rest.isSome).1 (base.bounds rest.isSome).2 =
        some (base.sequence step) := by
    rw [hbase.sequence_eq, ← hsome h]
    exact quartzDayRange_eq (hbase.bounds _).1 (hbase.bounds _).2
  constructor
  · intro h
    obtain ⟨n, hn, h⟩ := Fallible.exists_of_bind_ok h
    obtain ⟨p, hp, h⟩ := Fallible.exists_of_bind_ok h
    obtain ⟨step, hst, rfl⟩ := (hstep n).mp hn
    obtain ⟨base, hbase, rfl⟩ := (itemBounds_eq_ok_iff _ _ _).mp hp
    rw [hrange hbase hst] at h
    exact ⟨base, step, hbase, hst, (Except.ok.inj h).symm⟩
  · rintro ⟨base, step, hbase, hst, rfl⟩
    unfold partDays
    rw [(hstep _).mpr ⟨step, hst, rfl⟩, (itemBounds_eq_ok_iff _ _ _).mpr ⟨base, hbase, rfl⟩]
    simp only [bind, Except.bind, hrange hbase hst]
    rfl

theorem itemDays_eq_ok_iff (item : List Char) (days : List Int) :
    itemDays item = .ok days ↔ ∃ base step, ItemText item base step ∧
      days = everyStep (step.getD 1).toNat 0 (base.sequence step) := by
  unfold itemDays
  constructor
  · intro h
    have hitem : ['/'].intercalate (item.splitOn '/') = item := List.intercalate_splitOn '/'
    split at h
    · cases h
    · next text rest hparts =>
        rw [hparts] at hitem
        split_ifs at h with hshort
        obtain ⟨base, step, hbase, hst, rfl⟩ := (partDays_eq_ok_iff _ _ _).mp h
        refine ⟨base, step, ?_, rfl⟩
        match rest, hst with
        | [], hst =>
            cases hst
            rw [← hitem]
            simpa [List.intercalate] using ItemText.plain hbase
        | digits :: rest, hst =>
            obtain ⟨s, rfl, hs, h1, h7⟩ := hst
            have hnil : rest = [] := by simp at hshort; simp_all
            rw [← hitem, hnil]
            simpa [List.intercalate] using ItemText.stepped hbase hs h1 h7
  · rintro ⟨base, step, hitem, rfl⟩
    cases hitem with
    | plain hbase =>
        rw [List.splitOn_eq_singleton hbase.notMem_slash]
        simp only [List.length_nil, hbase.ne_nil, or_false]
        exact (partDays_eq_ok_iff _ _ _).mpr ⟨base, none, hbase, rfl, rfl⟩
    | @stepped text digits _ s hbase hs h1 h7 =>
        have hslash : '/' ∉ digits := fun hmem =>
          absurd (mem_of_atoi_pos hs h1 _ hmem) (by decide)
        rw [List.splitOn_append_cons_self_of_not_mem hbase.notMem_slash,
          List.splitOn_eq_singleton hslash]
        simp only [List.length_singleton, hbase.ne_nil, or_false]
        exact (partDays_eq_ok_iff _ _ _).mpr ⟨base, some s, hbase, ⟨s, rfl, hs, h1, h7⟩, rfl⟩

theorem ItemText.step_pos {item : List Char} {base : ItemBase} {step : Option Int}
    (h : ItemText item base step) : 0 < (step.getD 1).toNat := by
  cases h with
  | plain => decide
  | stepped _ _ h1 _ =>
      simp only [Option.getD_some]
      omega

theorem ItemText.denotes_iff {item : List Char} {base : ItemBase} {step : Option Int}
    (h : ItemText item base step) (d : Int) :
    d ∈ everyStep (step.getD 1).toNat 0 (base.sequence step) ↔ Denotes base step d := by
  rw [mem_everyStep h.step_pos, Denotes]
  simp only [Nat.zero_add]

theorem ItemText.denotes_bounds {item : List Char} {base : ItemBase} {step : Option Int}
    (h : ItemText item base step) {d : Int} (hd : Denotes base step d) : 1 ≤ d ∧ d ≤ 7 := by
  have hseq : base.sequence step =
      cyclic (base.bounds step.isSome).1 (base.bounds step.isSome).2 := by
    cases h with
    | plain hbase => exact hbase.sequence_eq _
    | stepped hbase => exact hbase.sequence_eq _
  obtain ⟨i, hi⟩ := hd
  have hmem := List.mem_of_getElem? hi
  rw [hseq, cyclic] at hmem
  obtain ⟨j, _, rfl⟩ := List.mem_map.mp hmem
  omega

end Items

section Field

theorem mem_foldl_insert (days selected : List Int) (v : Int) :
    v ∈ days.foldl (fun selected day => selected.insert (day - 1)) selected ↔
      v ∈ selected ∨ v + 1 ∈ days := by
  induction days generalizing selected with
  | nil => simp
  | cons d days ih =>
      have hd : v = d - 1 ↔ v + 1 = d := by omega
      rw [List.foldl_cons, ih, List.mem_insert_iff, List.mem_cons, hd]
      tauto

theorem nodup_foldl_insert (days : List Int) {selected : List Int} (h : selected.Nodup) :
    (days.foldl (fun selected day => selected.insert (day - 1)) selected).Nodup := by
  induction days generalizing selected with
  | nil => exact h
  | cons d days ih => exact ih h.insert

theorem selectDays_spec {items : List (List Char)} {selected out : List Int}
    (h : selectDays selected items = .ok out) :
    (∀ item ∈ items, ∃ base step, ItemText item base step) ∧
      (selected.Nodup → out.Nodup) ∧
      ∀ v, v ∈ out ↔ v ∈ selected ∨ ∃ item ∈ items, ∃ base step, ItemText item base step ∧
        Denotes base step (v + 1) := by
  induction items generalizing selected with
  | nil =>
      cases h
      simp
  | cons item items ih =>
      obtain ⟨days, hdays, hrest⟩ := Fallible.exists_of_bind_ok h
      obtain ⟨hread, hnodup, hmem⟩ := ih hrest
      obtain ⟨base, step, hitem, rfl⟩ := (itemDays_eq_ok_iff _ _).mp hdays
      refine ⟨?_, fun hs => hnodup (nodup_foldl_insert _ hs), fun v => ?_⟩
      · rw [List.forall_mem_cons]
        exact ⟨⟨base, step, hitem⟩, hread⟩
      · have hhead : v + 1 ∈ everyStep (step.getD 1).toNat 0 (base.sequence step) ↔
            ∃ base step, ItemText item base step ∧ Denotes base step (v + 1) := by
          constructor
          · intro hv
            exact ⟨base, step, hitem, (hitem.denotes_iff _).mp hv⟩
          · rintro ⟨base', step', hitem', hv⟩
            have hsame := hdays.symm.trans
              ((itemDays_eq_ok_iff _ _).mpr ⟨base', step', hitem', rfl⟩)
            rw [Except.ok.inj hsame]
            exact (hitem'.denotes_iff _).mpr hv
        rw [hmem, mem_foldl_insert, hhead]
        simp only [List.mem_cons, exists_eq_or_imp, or_assoc]

/-- Every item of an accepted field is `*`, a day or a range, with or without a step; the
field handed on lists the days that the items denote, counted from zero, each once and in
order; and the range loop ends for every pair of days. -/
theorem normalizeQuartzDayOfWeek_exact {toUpper : Char → Char} {field out : List Char}
    (h : normalizeQuartzDayOfWeek toUpper field = .ok out)
    (hfield : field.map toUpper ∉ [['?'], ['*'], ['L']]) :
    (∀ item ∈ (field.map toUpper).splitOn ',', ∃ base step, ItemText item base step) ∧
    (∃ values : List Int, out = [','].intercalate (values.map itoa) ∧
      values.Pairwise (· < ·) ∧ (∀ v ∈ values, 0 ≤ v ∧ v ≤ 6) ∧
      ∀ v, v ∈ values ↔ ∃ item ∈ (field.map toUpper).splitOn ',', ∃ base step,
        ItemText item base step ∧ Denotes base step (v + 1)) ∧
    ∀ a b : Int, 1 ≤ a ∧ a ≤ 7 → 1 ≤ b ∧ b ≤ 7 → quartzDayRange a b = some (cyclic a b) := by
  simp only [List.mem_cons, List.not_mem_nil, or_false, not_or] at hfield
  obtain ⟨hany, hstar, hlast⟩ := hfield
  simp only [normalizeQuartzDayOfWeek, hany, hstar, hlast, or_self, if_false] at h
  obtain ⟨selected, hselect, h⟩ := Fallible.exists_of_bind_ok h
  obtain ⟨hread, hnodup, hmem⟩ := selectDays_spec hselect
  have hvalues (v : Int) : v ∈ selected.insertionSort (· ≤ ·) ↔
      ∃ item ∈ (field.map toUpper).splitOn ',', ∃ base step,
        ItemText item base step ∧ Denotes base step (v + 1) := by
    rw [List.mem_insertionSort, hmem]
    simp
  refine ⟨hread, ⟨_, (Except.ok.inj h).symm, ?_, ?_, hvalues⟩, fun a b => quartzDayRange_eq⟩
  · have hsorted := List.pairwise_insertionSort (· ≤ ·) selected
    have hdistinct : (selected.insertionSort (· ≤ ·)).Nodup :=
      (List.perm_insertionSort _ selected).nodup_iff.mpr (hnodup List.nodup_nil)
    exact (hsorted.and hdistinct).imp fun h => lt_of_le_of_ne h.1 h.2
  · intro v hv
    obtain ⟨item, _, base, step, hitem, hd⟩ := (hvalues v).mp hv
    have := hitem.denotes_bounds hd
    omega

theorem normalizeQuartzDayOfWeek_exact_weekend :
    normalizeQuartzDayOfWeek Char.toUpper "fri-mon/2,1,3/2".toList = .ok "0,2,4,5,6".toList ∧
      ∃ values : List Int, "0,2,4,5,6".toList = [','].intercalate (values.map itoa) ∧
        values.Pairwise (· < ·) := by
  have hok : normalizeQuartzDayOfWeek Char.toUpper "fri-mon/2,1,3/2".toList =
      .ok "0,2,4,5,6".toList := by decide +kernel
  obtain ⟨_, ⟨values, hout, hsorted, _⟩, _⟩ :=
    normalizeQuartzDayOfWeek_exact hok (by decide +kernel)
  exact ⟨hok, values, hout, hsorted⟩

end Field

end GoScheduler.Schedule
