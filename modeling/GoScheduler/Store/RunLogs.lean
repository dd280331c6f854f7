import GoScheduler.Cursor
import GoScheduler.Store.Schema

/-! The log of a run: executors append entries and a reader follows them page by page.
An append is one statement. It draws an identifier from the table's sequence for each
entry before it inserts the row, sees conflicts with the rows of other statements, and
its rows become visible when it commits. A conflicting entry is rewritten to itself, so
that only its waiting could be observed, and is left as it is here. -/
namespace GoScheduler.Store

structure RunLogInput where
  entryID : String
  stream : String
  content : String
deriving DecidableEq, Repr

structure RunLogEntry where
  cursor : ℕ
  entryID : String
  stream : String
  content : String
  createdAt : Int
deriving DecidableEq, Repr

structure RunLog extends RunLogEntry where
  tenantID : ℕ
  runID : ℕ
deriving DecidableEq, Repr

inductive RunLogError where
  | notFound
  | check  -- A column check of the table.
  | affectedTwice  -- `ON CONFLICT DO UPDATE command cannot affect row a second time`.
  -- A lost connection or a deadlock.
  | aborted
deriving DecidableEq, Repr

def RunLogInput.check (e : RunLogInput) : Bool :=
  1 ≤ e.entryID.length && e.entryID.length ≤ 128 &&
  (e.stream == "stdout" || e.stream == "stderr") && e.content.utf8ByteSize ≤ 65536

structure AppendRunLogs where
  tenantID : ℕ
  runID : ℕ
  createdAt : Int
  entries : List RunLogInput  -- The entries it still has to insert.
  drawn : Option ℕ := none  -- The identifier drawn for the next of them.
  inserted : List RunLog := []
  -- The identifiers it returns.
  returned : List ℕ := []
deriving DecidableEq, Repr

def AppendRunLogs.answer (a : AppendRunLogs) : Except RunLogError ℕ :=
  if a.returned = [] then .error .notFound else .ok (a.returned.foldl max 0)

structure LogReader where
  cursor : ℕ := 0
  -- The limit of a call that has found the run and not yet read its page.
  pending : Option ℕ := none
  received : List RunLogEntry := []
  lastPage : Option (List RunLogEntry) := none
deriving DecidableEq, Repr

structure LogState where
  runs : ℕ → Option Run
  rows : List RunLog
  sequence : ℕ
  appends : List AppendRunLogs
  answers : List (Except RunLogError ℕ)
  reader : LogReader

def LogState.initial : LogState :=
  { runs := fun _ => none, rows := [], sequence := 0, appends := [], answers := [], reader := {} }

def Run.acceptsLogs (r : Run) (tokenHash : ℕ) (now : Int) : Bool :=
  (r.status == .running || r.status == .waitingCallback) &&
  r.callback.any fun c => now < c.deadline && c.tokenHash == tokenHash

/-- A statement on a run that accepts no logs selects no row to insert. -/
def beginAppend (runs : ℕ → Option Run) (runID tokenHash : ℕ) (entries : List RunLogInput)
    (now : Int) : AppendRunLogs :=
  match (runs runID).filter fun r => r.acceptsLogs tokenHash now with
  | some r => ⟨r.tenantID, runID, now, entries, none, [], []⟩
  | none => ⟨0, runID, now, [], none, [], []⟩

def RunLog.conflicts (runID : ℕ) (entryID : String) (row : RunLog) : Bool :=
  row.runID == runID && row.entryID == entryID

inductive InsertOutcome where
  | failed (e : RunLogError)
  | waits
  | continues (a : AppendRunLogs)
deriving DecidableEq, Repr

def AppendRunLogs.insert (a : AppendRunLogs) (id : ℕ) (e : RunLogInput)
    (rest : List RunLogInput) (committed others : List RunLog) : InsertOutcome :=
  if !e.check then .failed .check
  else if a.inserted.any (RunLog.conflicts a.runID e.entryID) then .failed .affectedTwice
  else match committed.find? (RunLog.conflicts a.runID e.entryID) with
    | some row =>
        if a.returned.contains row.cursor then .failed .affectedTwice
        else .continues { a with
          entries := rest, drawn := none, returned := a.returned ++ [row.cursor] }
    | none =>
        if others.any (RunLog.conflicts a.runID e.entryID) then .waits
        else .continues { a with
          entries := rest, drawn := none, returned := a.returned ++ [id]
          inserted := a.inserted ++
            [⟨⟨id, e.entryID, e.stream, e.content, a.createdAt⟩, a.tenantID, a.runID⟩] }

def runLogLimit (limit : Int) : ℕ := if limit < 1 ∨ limit > 500 then 100 else limit.toNat

def logEntries (tenantID runID : ℕ) (rows : List RunLog) : List RunLogEntry :=
  (rows.filter fun row => row.tenantID == tenantID && row.runID == runID).map
    RunLog.toRunLogEntry

inductive LogLabel where
  | writeRun (r : Run)  -- Another operation writes a row of `job_runs`.
  | begin (runID tokenHash : ℕ) (entries : List RunLogInput) (now : Int)
  | draw (i : ℕ)  -- The `i`-th statement in progress draws an identifier for its next entry.
  | insert (i : ℕ)
  | commit (i : ℕ)
  | abort (i : ℕ)
  | list (limit : Int)  -- The reader calls `ListRunLogs`, which looks the run up.
  -- The call reads its page and returns.
  | fetch
deriving DecidableEq, Repr

def LogState.finish (s : LogState) (i : ℕ) (answer : Except RunLogError ℕ) : LogState :=
  { s with appends := s.appends.eraseIdx i, answers := s.answers ++ [answer] }

def LogReader.fetch (reader : LogReader) (limit : ℕ) (entries : List RunLogEntry) : LogReader :=
  let page := Cursor.page RunLogEntry.cursor reader.cursor limit entries
  { cursor := Cursor.advance RunLogEntry.cursor reader.cursor page
    pending := none
    received := reader.received ++ page
    lastPage := some page }

def LogState.step (tenantID runID : ℕ) (s : LogState) : LogLabel → Option LogState
  | .writeRun r =>
      if (s.runs r.id).all fun old => old.tenantID == r.tenantID then
        some { s with runs := Function.update s.runs r.id (some r) }
      else none
  | .begin target tokenHash entries now =>
      some { s with appends := s.appends ++ [beginAppend s.runs target tokenHash entries now] }
  | .draw i =>
      match s.appends[i]? with
      | some a =>
          if a.drawn = none ∧ a.entries ≠ [] then
            some { s with
              sequence := s.sequence + 1
              appends := s.appends.set i { a with drawn := some (s.sequence + 1) } }
          else none
      | none => none
  | .insert i =>
      match s.appends[i]? with
      | some a =>
          match a.drawn, a.entries with
          | some id, e :: rest =>
              match a.insert id e rest s.rows ((s.appends.eraseIdx i).flatMap (·.inserted)) with
              | .failed error => some (s.finish i (.error error))
              | .waits => none
              | .continues a' => some { s with appends := s.appends.set i a' }
          | _, _ => none
      | none => none
  | .commit i =>
      match s.appends[i]? with
      | some a =>
          if a.entries = [] then some { s.finish i a.answer with rows := s.rows ++ a.inserted }
          else none
      | none => none
  | .abort i => if i < s.appends.length then some (s.finish i (.error .aborted)) else none
  | .list limit =>
      if (s.runs runID).any fun r => r.tenantID == tenantID then
        some { s with reader := { s.reader with pending := some (runLogLimit limit) } }
      else some s
  | .fetch =>
      match s.reader.pending with
      | some limit => some { s with
          reader := s.reader.fetch limit (logEntries tenantID runID s.rows) }
      | none => none

def LogState.run (tenantID runID : ℕ) : LogState → List LogLabel → Option LogState
  | s, [] => some s
  | s, l :: ls => (s.step tenantID runID l).bind fun s' => s'.run tenantID runID ls

/-- The rows a step makes visible. -/
def LogState.published (s : LogState) : LogLabel → List RunLog
  | .commit i => (s.appends[i]?).elim [] (·.inserted)
  | _ => []

/-- Whatever becomes visible in the log of `runID` lies above the reader's cursor. -/
def LogState.Timely (runID : ℕ) (s : LogState) (l : LogLabel) : Prop :=
  ∀ row ∈ s.published l, row.runID = runID → s.reader.cursor < row.cursor

instance (runID : ℕ) (s : LogState) (l : LogLabel) : Decidable (s.Timely runID l) :=
  inferInstanceAs (Decidable (∀ row ∈ _, _ → _))

def LogState.TimelyRun (tenantID runID : ℕ) : LogState → List LogLabel → Prop
  | _, [] => True
  | s, l :: ls => s.Timely runID l ∧ ∀ s' ∈ s.step tenantID runID l, s'.TimelyRun tenantID runID ls

instance decidableTimelyRun (tenantID runID : ℕ) : (s : LogState) → (ls : List LogLabel) →
    Decidable (s.TimelyRun tenantID runID ls)
  | _, [] => .isTrue trivial
  | s, l :: ls =>
      have : DecidablePred fun s' : LogState => s'.TimelyRun tenantID runID ls :=
        fun s' => decidableTimelyRun tenantID runID s' ls
      inferInstanceAs (Decidable (s.Timely runID l ∧ ∀ s' ∈ s.step tenantID runID l, _))

def committedEntries (runID : ℕ) (rows : List RunLog) : List RunLogEntry :=
  (rows.filter fun row => row.runID == runID).map RunLog.toRunLogEntry

inductive LogState.Changes (tenantID runID : ℕ) (s : LogState) : LogLabel → LogState → Prop
  | writeRun {r : Run} (h : ∀ old ∈ s.runs r.id, old.tenantID = r.tenantID) :
      Changes tenantID runID s (.writeRun r)
        { s with runs := Function.update s.runs r.id (some r) }
  | begin (target tokenHash : ℕ) (entries : List RunLogInput) (now : Int) :
      Changes tenantID runID s (.begin target tokenHash entries now)
        { s with appends := s.appends ++ [beginAppend s.runs target tokenHash entries now] }
  | draw {i : ℕ} {a : AppendRunLogs} (ha : s.appends[i]? = some a) (hnone : a.drawn = none) :
      Changes tenantID runID s (.draw i)
        { s with
          sequence := s.sequence + 1
          appends := s.appends.set i { a with drawn := some (s.sequence + 1) } }
  | fail {i : ℕ} {a : AppendRunLogs} {l : LogLabel} (ha : s.appends[i]? = some a)
      (hl : s.published l = []) (e : RunLogError) :
      Changes tenantID runID s l (s.finish i (.error e))
  | insert {i id : ℕ} {a a' : AppendRunLogs} {e : RunLogInput} {rest : List RunLogInput}
      (ha : s.appends[i]? = some a) (hdrawn : a.drawn = some id) (hentries : a.entries = e :: rest)
      (h : a.insert id e rest s.rows ((s.appends.eraseIdx i).flatMap (·.inserted)) =
        .continues a') :
      Changes tenantID runID s (.insert i) { s with appends := s.appends.set i a' }
  | commit {i : ℕ} {a : AppendRunLogs} (ha : s.appends[i]? = some a) :
      Changes tenantID runID s (.commit i)
        { s.finish i a.answer with rows := s.rows ++ a.inserted }
  | list {r : Run} (limit : Int) (h : s.runs runID = some r) (htenant : r.tenantID = tenantID) :
      Changes tenantID runID s (.list limit)
        { s with reader := { s.reader with pending := some (runLogLimit limit) } }
  | missing (limit : Int) : Changes tenantID runID s (.list limit) s
  | fetch {limit : ℕ} (h : s.reader.pending = some limit) :
      Changes tenantID runID s .fetch
        { s with reader := s.reader.fetch limit (logEntries tenantID runID s.rows) }

variable {tenantID runID : ℕ} {s s' : LogState} {l : LogLabel}

theorem changes_of_step (h : s.step tenantID runID l = some s') :
    s.Changes tenantID runID l s' := by
  cases l with
  | writeRun r =>
    simp only [LogState.step, Option.ite_none_right_eq_some, Option.some.injEq] at h
    obtain ⟨hall, rfl⟩ := h
    apply LogState.Changes.writeRun
    intro old hold
    simpa [Option.mem_def.mp hold] using hall
  | begin target tokenHash entries now =>
    injection h with h
    subst h
    exact .begin target tokenHash entries now
  | draw i =>
    simp only [LogState.step] at h
    split at h
    · rename_i a ha
      simp only [Option.ite_none_right_eq_some, Option.some.injEq] at h
      obtain ⟨⟨hnone, -⟩, rfl⟩ := h
      exact .draw ha hnone
    · exact absurd h (by simp)
  | insert i =>
    simp only [LogState.step] at h
    split at h
    · rename_i a ha
      split at h
      · rename_i id e rest hdrawn hentries
        split at h
        · injection h with h
          subst h
          exact .fail ha rfl _
        · exact absurd h (by simp)
        · injection h with h
          subst h
          exact .insert ha hdrawn hentries ‹_›
      · exact absurd h (by simp)
    · exact absurd h (by simp)
  | commit i =>
    simp only [LogState.step] at h
    split at h
    · rename_i a ha
      simp only [Option.ite_none_right_eq_some, Option.some.injEq] at h
      obtain ⟨-, rfl⟩ := h
      exact .commit ha
    · exact absurd h (by simp)
  | abort i =>
    simp only [LogState.step, Option.ite_none_right_eq_some, Option.some.injEq] at h
    obtain ⟨hi, rfl⟩ := h
    exact .fail (List.getElem?_eq_getElem hi) rfl _
  | list limit =>
    simp only [LogState.step] at h
    split at h
    · rename_i hany
      injection h with h
      subst h
      simp only [Option.any_eq_true_iff_get, beq_iff_eq] at hany
      obtain ⟨hsome, htenant⟩ := hany
      exact .list limit (Option.some_get hsome).symm htenant
    · injection h with h
      subst h
      exact .missing limit
  | fetch =>
    simp only [LogState.step] at h
    split at h
    · rename_i limit hpending
      injection h with h
      subst h
      exact .fetch hpending
    · exact absurd h (by simp)

/-! The identifiers of the table and of the statements in progress stay distinct. -/

def AppendRunLogs.numbers (a : AppendRunLogs) : List ℕ :=
  a.drawn.toList ++ a.inserted.map (·.cursor)

def LogState.numbers (s : LogState) : List ℕ :=
  s.rows.map (·.cursor) ++ s.appends.flatMap AppendRunLogs.numbers

def LogState.tenantOf (s : LogState) (runID : ℕ) : Option ℕ := (s.runs runID).map Run.tenantID

theorem flatMap_perm_of_getElem? {α β : Type*} (f : α → List β) {xs : List α} {i : ℕ} {x : α}
    (h : xs[i]? = some x) : (xs.flatMap f).Perm (f x ++ (xs.eraseIdx i).flatMap f) := by
  obtain ⟨hi, rfl⟩ := List.getElem?_eq_some_iff.mp h
  have := (List.getElem_cons_eraseIdx_perm hi).symm.flatMap_right f
  rwa [List.flatMap_cons] at this

theorem flatMap_set_perm {α β : Type*} (f : α → List β) {xs : List α} {i : ℕ} {x : α} (y : α)
    (h : xs[i]? = some x) :
    ((xs.set i y).flatMap f).Perm (f y ++ (xs.eraseIdx i).flatMap f) := by
  obtain ⟨hi, rfl⟩ := List.getElem?_eq_some_iff.mp h
  have := (List.set_perm_cons_eraseIdx hi y).flatMap_right f
  rwa [List.flatMap_cons] at this

theorem beginAppend_numbers (runs : ℕ → Option Run) (target tokenHash : ℕ)
    (entries : List RunLogInput) (now : Int) :
    (beginAppend runs target tokenHash entries now).numbers = [] := by
  unfold beginAppend
  split <;> rfl

theorem insert_continues {a a' : AppendRunLogs} {id : ℕ} {e : RunLogInput}
    {rest : List RunLogInput} {committed others : List RunLog}
    (h : a.insert id e rest committed others = .continues a') :
    a'.tenantID = a.tenantID ∧ a'.runID = a.runID ∧ a'.drawn = none ∧
    (a'.inserted = a.inserted ∨ ∃ row, a'.inserted = a.inserted ++ [row] ∧
      row.cursor = id ∧ row.tenantID = a.tenantID ∧ row.runID = a.runID) := by
  unfold AppendRunLogs.insert at h
  split at h
  · exact absurd h (by simp)
  split at h
  · exact absurd h (by simp)
  split at h
  all_goals
    split at h
    · exact absurd h (by simp)
    injection h with h
    subst h
  · exact ⟨rfl, rfl, rfl, .inl rfl⟩
  · exact ⟨rfl, rfl, rfl, .inr ⟨_, rfl, rfl, rfl, rfl⟩⟩

theorem insert_numbers {a a' : AppendRunLogs} {id : ℕ} {e : RunLogInput}
    {rest : List RunLogInput} {committed others : List RunLog} (hdrawn : a.drawn = some id)
    (h : a.insert id e rest committed others = .continues a') :
    a'.numbers.Subperm a.numbers := by
  obtain ⟨-, -, hnone, hsame | ⟨row, hrow, hid, -⟩⟩ := insert_continues h
  · simp only [AppendRunLogs.numbers, hnone, hsame, Option.toList_none, List.nil_append]
    exact (List.sublist_append_right ..).subperm
  · simp only [AppendRunLogs.numbers, hnone, hdrawn, hrow, hid, Option.toList_none,
      Option.toList_some, List.nil_append, List.map_append, List.map_cons, List.map_nil]
    exact List.perm_append_comm.subperm

theorem numbers_set {i : ℕ} {a a' : AppendRunLogs} (ha : s.appends[i]? = some a)
    (h : a'.numbers.Subperm a.numbers) :
    ({ s with appends := s.appends.set i a' } : LogState).numbers.Subperm s.numbers := by
  apply (List.subperm_append_left _).mpr
  apply (flatMap_set_perm AppendRunLogs.numbers a' ha).subperm.trans
  apply List.Subperm.trans _ (flatMap_perm_of_getElem? AppendRunLogs.numbers ha).symm.subperm
  exact (List.subperm_append_right _).mpr h

theorem numbers_finish {i : ℕ} {a : AppendRunLogs} (ha : s.appends[i]? = some a)
    (answer : Except RunLogError ℕ) : (s.finish i answer).numbers.Subperm s.numbers := by
  apply (List.subperm_append_left _).mpr
  apply List.Subperm.trans _ (flatMap_perm_of_getElem? AppendRunLogs.numbers ha).symm.subperm
  exact (List.sublist_append_right ..).subperm

theorem numbers_commit {i : ℕ} {a : AppendRunLogs} (ha : s.appends[i]? = some a)
    (answer : Except RunLogError ℕ) :
    ({ s.finish i answer with rows := s.rows ++ a.inserted } : LogState).numbers.Subperm
      s.numbers := by
  simp only [LogState.numbers, LogState.finish, List.map_append, List.append_assoc]
  apply (List.subperm_append_left _).mpr
  apply List.Subperm.trans _ (flatMap_perm_of_getElem? AppendRunLogs.numbers ha).symm.subperm
  rw [AppendRunLogs.numbers, List.append_assoc]
  exact (List.sublist_append_right ..).subperm

theorem numbers_draw {i : ℕ} {a : AppendRunLogs} (ha : s.appends[i]? = some a)
    (hnone : a.drawn = none) (n : ℕ) :
    (s.rows.map (·.cursor) ++
      (s.appends.set i { a with drawn := some n }).flatMap AppendRunLogs.numbers).Perm
      (n :: s.numbers) := by
  have hset := flatMap_set_perm AppendRunLogs.numbers { a with drawn := some n } ha
  have hold := flatMap_perm_of_getElem? AppendRunLogs.numbers ha
  have hnew : AppendRunLogs.numbers { a with drawn := some n } = n :: a.numbers := by
    simp [AppendRunLogs.numbers, hnone]
  rw [hnew, List.cons_append] at hset
  exact ((hset.trans (hold.symm.cons n)).append_left _).trans List.perm_middle

theorem step_numbers (h : s.step tenantID runID l = some s') :
    (s'.numbers.Subperm s.numbers ∧ s'.sequence = s.sequence) ∨
    (s'.numbers.Perm ((s.sequence + 1) :: s.numbers) ∧ s'.sequence = s.sequence + 1) := by
  cases changes_of_step h with
  | begin target tokenHash entries now =>
    left
    simp [LogState.numbers, beginAppend_numbers, List.Subperm.refl]
  | draw ha hnone => exact .inr ⟨numbers_draw ha hnone _, rfl⟩
  | fail ha => exact .inl ⟨numbers_finish ha _, rfl⟩
  | insert ha hdrawn _ hinsert =>
    exact .inl ⟨numbers_set ha (insert_numbers hdrawn hinsert), rfl⟩
  | commit ha => exact .inl ⟨numbers_commit ha _, rfl⟩
  | writeRun | list | missing | fetch => exact .inl ⟨List.Subperm.refl _, rfl⟩

theorem step_rows (h : s.step tenantID runID l = some s') :
    s'.rows = s.rows ++ s.published l := by
  cases changes_of_step h with
  | commit ha => simp [LogState.published, ha]
  | fail ha hl => simp [hl, LogState.finish]
  | _ => simp [LogState.published]

theorem step_reader (h : s.step tenantID runID l = some s') :
    (s'.reader.cursor = s.reader.cursor ∧ s'.reader.received = s.reader.received) ∨
    ∃ limit, s.reader.pending = some limit ∧ s'.rows = s.rows ∧
      s'.reader = s.reader.fetch limit (logEntries tenantID runID s.rows) := by
  cases changes_of_step h with
  | fetch hpending => exact .inr ⟨_, hpending, rfl, rfl⟩
  | _ => exact .inl ⟨rfl, rfl⟩

theorem step_tenantOf (h : s.step tenantID runID l = some s') {id tenant : ℕ}
    (ht : s.tenantOf id = some tenant) : s'.tenantOf id = some tenant := by
  cases changes_of_step h with
  | @writeRun r hsame =>
    unfold LogState.tenantOf at ht ⊢
    by_cases hid : id = r.id
    · subst hid
      obtain ⟨old, hold, rfl⟩ := Option.map_eq_some_iff.mp ht
      simp [hsame old hold]
    · simpa [hid] using ht
  | _ => exact ht

structure AppendRunLogs.Owned (s : LogState) (a : AppendRunLogs) : Prop where
  entries : a.entries ≠ [] → s.tenantOf a.runID = some a.tenantID
  inserted : ∀ row ∈ a.inserted, s.tenantOf row.runID = some row.tenantID

theorem beginAppend_owned (s : LogState) (target tokenHash : ℕ) (entries : List RunLogInput)
    (now : Int) : (beginAppend s.runs target tokenHash entries now).Owned s := by
  unfold beginAppend
  split
  · rename_i r hr
    have hrun : s.runs target = some r := (Option.filter_eq_some_iff.mp hr).1
    exact ⟨fun _ => by simp [LogState.tenantOf, hrun], by simp⟩
  · exact ⟨by simp, by simp⟩

theorem insert_owned {a a' : AppendRunLogs} {id : ℕ} {e : RunLogInput}
    {rest : List RunLogInput} {committed others : List RunLog} (howned : a.Owned s)
    (hentries : a.entries = e :: rest)
    (h : a.insert id e rest committed others = .continues a') : a'.Owned s := by
  have hrun : s.tenantOf a.runID = some a.tenantID := howned.entries (by simp [hentries])
  obtain ⟨htenant, hrunID, -, hinserted⟩ := insert_continues h
  constructor
  · intro _
    rw [htenant, hrunID]
    exact hrun
  · rcases hinserted with hsame | ⟨row, hrow, -, hrowTenant, hrowRun⟩
    · rw [hsame]
      exact howned.inserted
    · intro r hr
      rw [hrow] at hr
      rcases List.mem_append.mp hr with hr | hr
      · exact howned.inserted r hr
      · rw [List.mem_singleton.mp hr, hrowRun, hrowTenant]
        exact hrun

theorem step_owned (howned : ∀ a ∈ s.appends, a.Owned s)
    (h : s.step tenantID runID l = some s') : ∀ a ∈ s'.appends, a.Owned s := by
  intro b hb
  cases changes_of_step h with
  | begin target tokenHash entries now =>
    rcases List.mem_append.mp hb with hb | hb
    · exact howned b hb
    · rw [List.mem_singleton.mp hb]
      exact beginAppend_owned ..
  | draw ha hnone =>
    have hold := howned _ (List.mem_of_getElem? ha)
    rcases List.mem_or_eq_of_mem_set hb with hb | rfl
    · exact howned b hb
    · exact ⟨hold.entries, hold.inserted⟩
  | insert ha hdrawn hentries hinsert =>
    rcases List.mem_or_eq_of_mem_set hb with hb | rfl
    · exact howned b hb
    · exact insert_owned (howned _ (List.mem_of_getElem? ha)) hentries hinsert
  | fail | commit => exact howned b (List.mem_of_mem_eraseIdx hb)
  | writeRun | list | missing | fetch => exact howned b hb

theorem runLogLimit_pos (limit : Int) : 0 < runLogLimit limit := by
  unfold runLogLimit
  split <;> omega

theorem step_pending (h : s.step tenantID runID l = some s') {limit : ℕ}
    (hpending : s'.reader.pending = some limit) :
    s.reader.pending = some limit ∨ (0 < limit ∧ s.tenantOf runID = some tenantID) := by
  cases changes_of_step h with
  | list requested hrun htenant =>
    right
    rw [← Option.some.inj hpending]
    exact ⟨runLogLimit_pos requested, by simp [LogState.tenantOf, hrun, htenant]⟩
  | fetch => exact absurd hpending (by simp [LogReader.fetch])
  | _ => exact .inl hpending

structure LogState.Sound (tenantID runID : ℕ) (s : LogState) : Prop where
  distinct : s.numbers.Nodup
  bounded : ∀ n ∈ s.numbers, n ≤ s.sequence
  appends : ∀ a ∈ s.appends, a.Owned s
  rows : ∀ row ∈ s.rows, s.tenantOf row.runID = some row.tenantID
  pending : ∀ limit ∈ s.reader.pending, 0 < limit ∧ s.tenantOf runID = some tenantID
  received : ∀ e ∈ s.reader.received, e ∈ committedEntries runID s.rows

theorem initial_sound : LogState.initial.Sound tenantID runID := by
  constructor <;> simp [LogState.initial, LogState.numbers]

theorem mem_committedEntries {rows : List RunLog} {e : RunLogEntry} :
    e ∈ committedEntries runID rows ↔
      ∃ row ∈ rows, row.runID = runID ∧ row.toRunLogEntry = e := by
  simp [committedEntries, and_assoc]

theorem committedEntries_append (rows added : List RunLog) :
    committedEntries runID (rows ++ added) =
      committedEntries runID rows ++ committedEntries runID added := by
  simp [committedEntries]

theorem LogState.Sound.logEntries_eq (hs : s.Sound tenantID runID)
    (htenant : s.tenantOf runID = some tenantID) :
    logEntries tenantID runID s.rows = committedEntries runID s.rows := by
  unfold logEntries committedEntries
  congr 1
  apply List.filter_congr
  intro row hrow
  by_cases hrun : row.runID = runID
  · have := hs.rows row hrow
    rw [hrun, htenant] at this
    simp [hrun, Option.some.inj this]
  · simp [hrun]

theorem published_mem (h : s.step tenantID runID l = some s') {row : RunLog}
    (hrow : row ∈ s.published l) : ∃ a ∈ s.appends, row ∈ a.inserted := by
  cases changes_of_step h with
  | commit ha =>
    simp only [LogState.published, ha, Option.elim_some] at hrow
    exact ⟨_, List.mem_of_getElem? ha, hrow⟩
  | fail ha hl => simp [hl] at hrow
  | _ => simp [LogState.published] at hrow

theorem LogState.Sound.step (hs : s.Sound tenantID runID)
    (h : s.step tenantID runID l = some s') : s'.Sound tenantID runID where
  distinct := by
    rcases step_numbers h with ⟨hsub, -⟩ | ⟨hperm, -⟩
    · obtain ⟨kept, hperm, hsub⟩ := hsub
      exact hperm.nodup_iff.mp (hs.distinct.sublist hsub)
    · rw [hperm.nodup_iff, List.nodup_cons]
      refine ⟨fun hmem => ?_, hs.distinct⟩
      have := hs.bounded _ hmem
      omega
  bounded n hn := by
    rcases step_numbers h with ⟨hsub, hseq⟩ | ⟨hperm, hseq⟩
    · rw [hseq]
      exact hs.bounded n (hsub.subset hn)
    · rw [hseq]
      rcases List.mem_cons.mp (hperm.subset hn) with rfl | hn
      · exact le_refl _
      · have := hs.bounded n hn
        omega
  appends a ha := by
    have howned := step_owned hs.appends h a ha
    exact ⟨fun he => step_tenantOf h (howned.entries he),
      fun row hrow => step_tenantOf h (howned.inserted row hrow)⟩
  rows row hrow := by
    rw [step_rows h] at hrow
    apply step_tenantOf h
    rcases List.mem_append.mp hrow with hrow | hrow
    · exact hs.rows row hrow
    · obtain ⟨a, ha, hrow⟩ := published_mem h hrow
      exact (hs.appends a ha).inserted row hrow
  pending limit hlimit := by
    rcases step_pending h hlimit with hp | ⟨hpos, ht⟩
    · exact ⟨(hs.pending limit hp).1, step_tenantOf h (hs.pending limit hp).2⟩
    · exact ⟨hpos, step_tenantOf h ht⟩
  received e he := by
    rw [step_rows h, committedEntries_append]
    apply List.mem_append_left
    rcases step_reader h with ⟨-, hsame⟩ | ⟨limit, hpending, -, hreader⟩
    · exact hs.received e (hsame ▸ he)
    · rw [hreader, LogReader.fetch] at he
      rcases List.mem_append.mp he with he | he
      · exact hs.received e he
      · rw [← hs.logEntries_eq (hs.pending limit hpending).2]
        exact (Cursor.mem_of_mem_page he).1

theorem LogState.Sound.cursors_nodup (hs : s.Sound tenantID runID) :
    ((committedEntries runID s.rows).map RunLogEntry.cursor).Nodup := by
  have hrows : (s.rows.map (·.cursor)).Nodup := (List.nodup_append.mp hs.distinct).1
  rw [committedEntries, List.map_map]
  exact hrows.sublist (List.filter_sublist.map _)

theorem LogState.Sound.published_new (hs : s.Sound tenantID runID)
    (h : s.step tenantID runID l = some s') {row : RunLog} (hrow : row ∈ s.published l) :
    ∀ old ∈ s.rows, old.cursor ≠ row.cursor := by
  obtain ⟨a, ha, hrow⟩ := published_mem h hrow
  intro old hold heq
  have hcross := (List.nodup_append.mp hs.distinct).2.2 old.cursor
    (List.mem_map_of_mem hold) row.cursor
    (List.mem_flatMap.mpr ⟨a, ha, List.mem_append_right _ (List.mem_map_of_mem hrow)⟩)
  exact hcross heq

def LogState.CaughtUp (runID : ℕ) (s : LogState) : Prop :=
  s.reader.received.Perm
    (Cursor.upTo RunLogEntry.cursor s.reader.cursor (committedEntries runID s.rows))

def LogState.Missed (runID : ℕ) (s : LogState) : Prop :=
  ∃ e ∈ committedEntries runID s.rows, e.cursor ≤ s.reader.cursor ∧ e ∉ s.reader.received

theorem LogState.CaughtUp.step (hs : s.Sound tenantID runID) (hc : s.CaughtUp runID)
    (ht : s.Timely runID l) (h : s.step tenantID runID l = some s') : s'.CaughtUp runID := by
  unfold LogState.CaughtUp
  rcases step_reader h with ⟨hcursor, hreceived⟩ | ⟨limit, hpending, hrows, hreader⟩
  · have hnone : Cursor.upTo RunLogEntry.cursor s.reader.cursor
        (committedEntries runID (s.published l)) = [] := by
      apply Cursor.upTo_eq_nil
      intro e he
      obtain ⟨row, hrow, hrun, rfl⟩ := mem_committedEntries.mp he
      exact ht row hrow hrun
    rw [step_rows h, committedEntries_append, Cursor.upTo_append, hcursor, hreceived, hnone,
      List.append_nil]
    exact hc
  · rw [hrows, hreader, LogReader.fetch, hs.logEntries_eq (hs.pending limit hpending).2]
    exact (hc.append_right _).trans (Cursor.upTo_advance hs.cursors_nodup).symm

theorem LogState.Missed.step (hm : s.Missed runID)
    (h : s.step tenantID runID l = some s') : s'.Missed runID := by
  obtain ⟨e, he, hle, hnot⟩ := hm
  have hmem : e ∈ committedEntries runID s'.rows := by
    rw [step_rows h, committedEntries_append]
    exact List.mem_append_left _ he
  rcases step_reader h with ⟨hcursor, hreceived⟩ | ⟨limit, hpending, hrows, hreader⟩
  · exact ⟨e, hmem, hcursor ▸ hle, hreceived ▸ hnot⟩
  · refine ⟨e, hmem, ?_, ?_⟩
    · rw [hreader]
      exact hle.trans Cursor.le_advance
    · -- A page holds entries above the cursor only.
      rw [hreader, LogReader.fetch, List.mem_append]
      rintro (hreceived | hpage)
      · exact hnot hreceived
      · have := (Cursor.mem_of_mem_page hpage).2
        omega

theorem missed_of_not_timely (hs : s.Sound tenantID runID) (ht : ¬ s.Timely runID l)
    (h : s.step tenantID runID l = some s') : s'.Missed runID := by
  unfold LogState.Timely at ht
  push Not at ht
  obtain ⟨row, hrow, hrun, hle⟩ := ht
  have hcommit : s'.reader = s.reader := by
    cases changes_of_step h with
    | commit => rfl
    | fail ha hl => rfl
    | _ => simp [LogState.published] at hrow
  refine ⟨row.toRunLogEntry, ?_, hcommit ▸ hle, ?_⟩
  · rw [step_rows h]
    exact mem_committedEntries.mpr ⟨row, List.mem_append_right _ hrow, hrun, rfl⟩
  · rw [hcommit]
    intro hreceived
    obtain ⟨old, hold, -, heq⟩ := mem_committedEntries.mp (hs.received _ hreceived)
    exact hs.published_new h hrow old hold (congrArg RunLogEntry.cursor heq)

theorem LogState.Missed.run {ls : List LogLabel} (hm : s.Missed runID)
    (h : s.run tenantID runID ls = some s') : s'.Missed runID := by
  induction ls generalizing s with
  | nil => exact Option.some.inj h ▸ hm
  | cons l ls ih =>
    obtain ⟨t, hstep, hrest⟩ := Option.bind_eq_some_iff.mp h
    exact ih (hm.step hstep) hrest

theorem LogState.Sound.run {ls : List LogLabel} (hs : s.Sound tenantID runID)
    (h : s.run tenantID runID ls = some s') : s'.Sound tenantID runID := by
  induction ls generalizing s with
  | nil => exact Option.some.inj h ▸ hs
  | cons l ls ih =>
    obtain ⟨t, hstep, hrest⟩ := Option.bind_eq_some_iff.mp h
    exact ih (hs.step hstep) hrest

theorem caughtUp_or_missed {ls : List LogLabel} (hs : s.Sound tenantID runID)
    (hc : s.CaughtUp runID) (h : s.run tenantID runID ls = some s') :
    (s.TimelyRun tenantID runID ls ∧ s'.CaughtUp runID) ∨
    (¬ s.TimelyRun tenantID runID ls ∧ s'.Missed runID) := by
  induction ls generalizing s with
  | nil => exact .inl ⟨trivial, Option.some.inj h ▸ hc⟩
  | cons l ls ih =>
    obtain ⟨t, hstep, hrest⟩ := Option.bind_eq_some_iff.mp h
    by_cases ht : s.Timely runID l
    · have hiff : s.TimelyRun tenantID runID (l :: ls) ↔ t.TimelyRun tenantID runID ls := by
        simp [LogState.TimelyRun, ht, hstep]
      rw [hiff]
      exact ih (hs.step hstep) (hc.step hs ht hstep) hrest
    · exact .inr ⟨fun hall => ht hall.1, (missed_of_not_timely hs ht hstep).run hrest⟩

theorem initial_caughtUp : LogState.initial.CaughtUp runID := by
  simp [LogState.CaughtUp, LogState.initial, committedEntries, Cursor.upTo]

/-- A reader that finds no further entry, after every append has ended or before, has
received each committed entry exactly once, unless an append committed below its cursor. -/
theorem follow_exactly_once_iff (tenantID runID : ℕ) (ls : List LogLabel) (s s' : LogState)
    (hrun : LogState.initial.run tenantID runID ls = some s)
    (hfetch : s.step tenantID runID .fetch = some s') (hempty : s'.reader.lastPage = some []) :
    s'.reader.received.Perm (committedEntries runID s'.rows) ↔
      LogState.initial.TimelyRun tenantID runID ls := by
  have hs : s.Sound tenantID runID := initial_sound.run hrun
  cases hpending : s.reader.pending with
  | none => simp [LogState.step, hpending] at hfetch
  | some limit =>
    simp only [LogState.step, hpending, Option.some.injEq] at hfetch
    subst hfetch
    have hpage : Cursor.page RunLogEntry.cursor s.reader.cursor limit
        (committedEntries runID s.rows) = [] := by
      rw [← hs.logEntries_eq (hs.pending limit hpending).2]
      exact Option.some.inj hempty
    have hread : ∀ e ∈ committedEntries runID s.rows, e.cursor ≤ s.reader.cursor :=
      Cursor.forall_le_of_page_nil (hs.pending limit hpending).1 hpage
    have hreceived : (s.reader.fetch limit (logEntries tenantID runID s.rows)).received =
        s.reader.received := by
      rw [LogReader.fetch, hs.logEntries_eq (hs.pending limit hpending).2, hpage, List.append_nil]
    rw [hreceived]
    rcases caughtUp_or_missed initial_sound initial_caughtUp hrun with
      ⟨htimely, hcaught⟩ | ⟨hnot, e, he, -, hmissing⟩
    · rw [LogState.CaughtUp, Cursor.upTo_eq_self hread] at hcaught
      exact iff_of_true hcaught htimely
    · exact iff_of_false (fun hperm => hmissing (hperm.mem_iff.mpr he)) hnot

/-- The appends of one run overlap: the second draws a higher identifier and commits
first, the reader takes its entry, and the entry of the first is never read. -/
def overlappingAppends : List LogLabel :=
  [.writeRun { id := 1, tenantID := 7, jobID := 1, triggerType := .manual, status := .running
               scheduledAt := 0, availableAt := 0, externalExecutionID := 1
               callback := some ⟨5, 100⟩, history := [.running] },
   .begin 1 5 [⟨"a", "stdout", "first"⟩] 10, .draw 0, .insert 0,
   .begin 1 5 [⟨"b", "stdout", "second"⟩] 11, .draw 1, .insert 1, .commit 1,
   .list 100, .fetch, .commit 0, .list 100]

/-- Every append has committed and the reader's page is empty, but it lacks an entry. -/
theorem overlapping_appends_missed :
    ∃ s s', LogState.initial.run 7 1 overlappingAppends = some s ∧ s.appends = [] ∧
      s.step 7 1 .fetch = some s' ∧ s'.reader.lastPage = some [] ∧
      ¬ s'.reader.received.Perm (committedEntries 1 s'.rows) := by
  refine ⟨_, _, rfl, rfl, rfl, rfl, ?_⟩
  decide

def appendsInTurn : List LogLabel :=
  [.writeRun { id := 1, tenantID := 7, jobID := 1, triggerType := .manual, status := .running
               scheduledAt := 0, availableAt := 0, externalExecutionID := 1
               callback := some ⟨5, 100⟩, history := [.running] },
   .begin 1 5 [⟨"a", "stdout", "first"⟩] 10, .draw 0, .insert 0, .commit 0, .list 100, .fetch,
   .begin 1 5 [⟨"a", "stdout", "first"⟩, ⟨"b", "stdout", "second"⟩] 11, .draw 0, .insert 0,
   .draw 0, .insert 0, .commit 0, .list 1, .fetch, .list 1]

theorem appends_in_turn_received :
    ∃ s s', LogState.initial.run 7 1 appendsInTurn = some s ∧
      s.step 7 1 .fetch = some s' ∧ s'.reader.lastPage = some [] ∧
      s'.reader.received.Perm (committedEntries 1 s'.rows) ∧ s'.reader.received.length = 2 := by
  refine ⟨_, _, rfl, rfl, rfl, ?_, rfl⟩
  exact (follow_exactly_once_iff 7 1 appendsInTurn _ _ rfl rfl rfl).mpr (by decide)

end GoScheduler.Store
