import GoScheduler.Store.RunLogs
import GoScheduler.Text.Space
import Mathlib.Data.String.Basic

/-! Calls of `AppendRunLogs` one after the other: what a list of entries leaves in the log when it
is appended at once and when it is appended entry by entry. Texts are valid UTF-8, as a protobuf
message carries them. -/
namespace GoScheduler.Store

def maxRunLogEntryBytes : ℕ := 65536

def validateRunLogInputs (entries : List RunLogInput) : Except String Unit :=
  if entries.length = 0 ∨ 100 < entries.length then
    .error "entries must contain between 1 and 100 items"
  else entries.forM fun entry =>
    if Text.trimSpace entry.entryID = "" ∨ 128 < entry.entryID.utf8ByteSize then
      .error "entry_id must contain between 1 and 128 characters"
    else if entry.stream ≠ "stdout" ∧ entry.stream ≠ "stderr" then
      .error "stream must be stdout or stderr"
    else if maxRunLogEntryBytes < entry.content.utf8ByteSize then
      .error "content must not exceed 65536 bytes"
    else .ok ()

/-- A text that PostgreSQL stores: it refuses the character U+0000. -/
def storable (text : String) : Bool := !text.toList.contains '\x00'

def RunLogInput.storable (e : RunLogInput) : Bool :=
  Store.storable e.entryID && Store.storable e.stream && Store.storable e.content

inductive AppendError where
  | encoding  -- `invalid byte sequence for encoding "UTF8": 0x00`.
  | statement (e : RunLogError)
deriving DecidableEq, Repr

/-- The insertions of a statement beside which no other is in progress, so that it never waits,
with the value of the sequence after it. -/
def AppendRunLogs.insertAll (committed : List RunLog) :
    AppendRunLogs → ℕ → List RunLogInput → Except RunLogError AppendRunLogs × ℕ
  | a, sequence, [] => (.ok a, sequence)
  | a, sequence, e :: rest =>
      match a.insert (sequence + 1) e rest committed [] with
      | .failed error => (.error error, sequence + 1)
      | .waits => (.error .aborted, sequence + 1)
      | .continues a' => a'.insertAll committed (sequence + 1) rest

/-- A call of `AppendRunLogs`. A call that fails leaves the rows as they are; identifiers it has
drawn are not given back. -/
def appendRunLogs (s : LogState) (runID tokenHash : ℕ) (now : Int) (entries : List RunLogInput) :
    LogState × Except AppendError ℕ :=
  if entries.all RunLogInput.storable then
    let a := beginAppend s.runs runID tokenHash entries now
    match a.insertAll s.rows s.sequence a.entries with
    | (.ok a', sequence) =>
        ({ s with rows := s.rows ++ a'.inserted, sequence := sequence },
          a'.answer.mapError .statement)
    | (.error e, sequence) => ({ s with sequence := sequence }, .error (.statement e))
  else (s, .error .encoding)

def appendEach (runID tokenHash : ℕ) :
    LogState → List (Int × RunLogInput) → LogState × List (Except AppendError ℕ)
  | s, [] => (s, [])
  | s, (now, e) :: rest =>
      let (s', answer) := appendRunLogs s runID tokenHash now [e]
      let (s'', answers) := appendEach runID tokenHash s' rest
      (s'', answer :: answers)

def storedEntries (runID : ℕ) (rows : List RunLog) : List RunLogInput :=
  (rows.filter fun row => row.runID == runID).map fun row => ⟨row.entryID, row.stream, row.content⟩

def keepFirst (stored : List RunLogInput) : List RunLogInput → List RunLogInput
  | [] => stored
  | e :: rest =>
      if stored.any (fun f => f.entryID == e.entryID) then keepFirst stored rest
      else keepFirst (stored ++ [e]) rest

/-- Appended at once or one by one, the entries of the calls are stored in the same way, every call
succeeds, and entries that are stored already change nothing. -/
structure BatchIndependent (s : LogState) (runID tokenHash : ℕ) (now : Int)
    (calls : List (Int × RunLogInput)) : Prop where
  whole : ∃ cursor, (appendRunLogs s runID tokenHash now (calls.map Prod.snd)).2 = .ok cursor
  each : ∀ answer ∈ (appendEach runID tokenHash s calls).2, ∃ cursor, answer = .ok cursor
  stored : storedEntries runID (appendRunLogs s runID tokenHash now (calls.map Prod.snd)).1.rows =
    keepFirst (storedEntries runID s.rows) (calls.map Prod.snd)
  same : storedEntries runID (appendEach runID tokenHash s calls).1.rows =
    storedEntries runID (appendRunLogs s runID tokenHash now (calls.map Prod.snd)).1.rows
  again : (∀ call ∈ calls, ∃ f ∈ storedEntries runID s.rows, f.entryID = call.2.entryID) →
    (appendRunLogs s runID tokenHash now (calls.map Prod.snd)).1.rows = s.rows

/-! Entries that are valid pass the checks of the table. -/

theorem length_le_utf8ByteSize (text : String) : text.length ≤ text.utf8ByteSize := by
  have hlist : ∀ cs : List Char, cs.length ≤ String.utf8Len cs := by
    intro cs
    induction cs with
    | nil => exact Nat.zero_le _
    | cons c cs ih =>
      have hpos := c.utf8Size_pos
      rw [String.utf8Len_cons, List.length_cons]
      omega
  rw [← String.ofList_toList (s := text), String.utf8ByteSize_ofList, String.length_ofList]
  exact hlist text.toList

theorem forM_eq_ok {ε α : Type} {f : α → Except ε Unit} {xs : List α} :
    xs.forM f = .ok () ↔ ∀ x ∈ xs, f x = .ok () := by
  induction xs with
  | nil => simp [List.forM, pure, Except.pure]
  | cons x xs ih =>
    rw [List.forall_mem_cons, ← ih]
    show (f x >>= fun _ => xs.forM f) = _ ↔ _
    cases f x with
    | error e => simp [bind, Except.bind]
    | ok u => simp [bind, Except.bind]

theorem check_of_valid {entries : List RunLogInput} (h : validateRunLogInputs entries = .ok ()) :
    entries ≠ [] ∧ ∀ e ∈ entries, e.check = true := by
  unfold validateRunLogInputs at h
  split at h
  · cases h
  next hlen =>
  refine ⟨fun hnil => hlen (.inl (by rw [hnil]; rfl)), fun e he => ?_⟩
  have hentry := forM_eq_ok.1 h e he
  split at hentry
  · cases hentry
  next hid =>
  split at hentry
  · cases hentry
  next hstream =>
  split at hentry
  · cases hentry
  next hcontent =>
  have hne : e.entryID.length ≠ 0 := by
    intro hzero
    rw [String.length_eq_zero_iff] at hzero
    refine hid (.inl ?_)
    rw [hzero]
    decide
  have hlong := length_le_utf8ByteSize e.entryID
  unfold maxRunLogEntryBytes at hcontent
  simp only [RunLogInput.check, Bool.and_eq_true, Bool.or_eq_true, decide_eq_true_eq, beq_iff_eq]
  refine ⟨⟨⟨by omega, by omega⟩, ?_⟩, by omega⟩
  by_contra hneither
  exact hstream (not_or.1 hneither)

/-! One insertion. -/

variable {s : LogState} {a a' : AppendRunLogs} {e : RunLogInput} {committed : List RunLog}
  {entries rest : List RunLogInput} {id runID tokenHash sequence : ℕ}

def AppendRunLogs.Clash (a : AppendRunLogs) (committed : List RunLog) (e : RunLogInput) : Prop :=
  (∃ row ∈ a.inserted, row.runID = a.runID ∧ row.entryID = e.entryID) ∨
    ∃ row, committed.find? (RunLog.conflicts a.runID e.entryID) = some row ∧ row.cursor ∈ a.returned

def AppendRunLogs.taken (a : AppendRunLogs) (committed : List RunLog) (id : ℕ) (e : RunLogInput)
    (rest : List RunLogInput) : AppendRunLogs :=
  match committed.find? (RunLog.conflicts a.runID e.entryID) with
  | some row => { a with entries := rest, drawn := none, returned := a.returned ++ [row.cursor] }
  | none => { a with
      entries := rest, drawn := none, returned := a.returned ++ [id]
      inserted := a.inserted ++
        [⟨⟨id, e.entryID, e.stream, e.content, a.createdAt⟩, a.tenantID, a.runID⟩] }

theorem any_conflicts {rows : List RunLog} {entryID : String} :
    rows.any (RunLog.conflicts runID entryID) = true ↔
      ∃ row ∈ rows, row.runID = runID ∧ row.entryID = entryID := by
  simp [RunLog.conflicts]

theorem insert_of_clash (hcheck : e.check = true) (h : a.Clash committed e) :
    a.insert id e rest committed [] = .failed .affectedTwice := by
  unfold AppendRunLogs.insert
  rw [if_neg (by simp [hcheck])]
  split
  · rfl
  next hfree =>
  rcases h with hinserted | ⟨row, hrow, hreturned⟩
  · exact absurd (any_conflicts.2 hinserted) hfree
  · rw [hrow]
    dsimp only
    rw [if_pos (List.contains_iff_mem.2 hreturned)]

theorem insert_of_not_clash (hcheck : e.check = true) (h : ¬ a.Clash committed e) :
    a.insert id e rest committed [] = .continues (a.taken committed id e rest) := by
  unfold AppendRunLogs.Clash at h
  push Not at h
  unfold AppendRunLogs.insert AppendRunLogs.taken
  rw [if_neg (by simp [hcheck]), if_neg fun hany => ?_]
  · cases hfind : committed.find? (RunLog.conflicts a.runID e.entryID) with
    | some row =>
      dsimp only
      rw [if_neg fun hin => h.2 row hfind (List.contains_iff_mem.1 hin)]
    | none => rfl
  · obtain ⟨row, hrow, hrun, hid⟩ := any_conflicts.1 hany
    exact h.1 row hrow hrun hid

@[simp] theorem taken_runID : (a.taken committed id e rest).runID = a.runID := by
  unfold AppendRunLogs.taken
  split <;> rfl

theorem taken_returned_ne_nil : (a.taken committed id e rest).returned ≠ [] := by
  unfold AppendRunLogs.taken
  split <;> simp

theorem stored_any {rows : List RunLog} {entryID : String} :
    (storedEntries runID rows).any (fun f => f.entryID == entryID) = true ↔
      ∃ row ∈ rows, row.runID = runID ∧ row.entryID = entryID := by
  simp [storedEntries]

theorem find_conflict {row : RunLog}
    (h : committed.find? (RunLog.conflicts runID e.entryID) = some row) :
    row ∈ committed ∧ row.runID = runID ∧ row.entryID = e.entryID := by
  have hsome := List.find?_some h
  simp only [RunLog.conflicts, Bool.and_eq_true, beq_iff_eq] at hsome
  exact ⟨List.mem_of_find?_eq_some h, hsome⟩

theorem stored_taken (id : ℕ) (rest : List RunLogInput) (h : ¬ a.Clash committed e) :
    keepFirst (storedEntries a.runID (committed ++ (a.taken committed id e rest).inserted))
      entries =
      keepFirst (storedEntries a.runID (committed ++ a.inserted)) (e :: entries) := by
  rw [keepFirst]
  unfold AppendRunLogs.taken
  split
  · next row hrow =>
    obtain ⟨hmem, hkey⟩ := find_conflict hrow
    rw [if_pos (stored_any.2 ⟨row, List.mem_append_left _ hmem, hkey⟩)]
  · next hnone =>
    rw [if_neg]
    · simp [storedEntries]
    · intro hany
      obtain ⟨row, hrow, hrun, hid⟩ := stored_any.1 hany
      rcases List.mem_append.1 hrow with hold | hnew
      · have hmiss := List.find?_eq_none.1 hnone row hold
        simp [RunLog.conflicts, hrun, hid] at hmiss
      · exact h (.inl ⟨row, hnew, hrun, hid⟩)

theorem taken_inserted (h : ∃ row ∈ committed, row.runID = a.runID ∧ row.entryID = e.entryID) :
    (a.taken committed id e rest).inserted = a.inserted := by
  unfold AppendRunLogs.taken
  split
  · rfl
  · next hnone =>
    obtain ⟨row, hrow, hrun, hid⟩ := h
    have hmiss := List.find?_eq_none.1 hnone row hrow
    simp [RunLog.conflicts, hrun, hid] at hmiss

/-! All insertions of a statement. -/

structure Numbered (committed : List RunLog) (sequence : ℕ) : Prop where
  distinct : (committed.map (·.cursor)).Nodup
  bounded : ∀ row ∈ committed, row.cursor ≤ sequence

/-- An entry clashes with the statement after another exactly where it did before or the two have
the same id. -/
theorem clash_taken_iff (hn : Numbered committed sequence) {f : RunLogInput} :
    (a.taken committed (sequence + 1) e rest).Clash committed f ↔
      a.Clash committed f ∨ f.entryID = e.entryID := by
  unfold AppendRunLogs.taken
  split
  · next row hrow =>
    obtain ⟨hmem, hrun, hid⟩ := find_conflict hrow
    unfold AppendRunLogs.Clash
    simp only [List.mem_append, List.mem_singleton]
    constructor
    · rintro (hin | ⟨row', hrow', hret | hret⟩)
      · exact .inl (.inl hin)
      · exact .inl (.inr ⟨row', hrow', hret⟩)
      · obtain ⟨hmem', -, hid'⟩ := find_conflict hrow'
        have hsame : row' = row := List.inj_on_of_nodup_map hn.distinct hmem' hmem hret
        exact .inr (by rw [← hid', hsame, hid])
    · rintro ((hin | ⟨row', hrow', hret⟩) | hsame)
      · exact .inl hin
      · exact .inr ⟨row', hrow', .inl hret⟩
      · exact .inr ⟨row, by rw [hsame]; exact hrow, .inr rfl⟩
  · next hnone =>
    unfold AppendRunLogs.Clash
    simp only [List.mem_append, List.mem_singleton]
    constructor
    · rintro (⟨row', hin | rfl, hrun, hid⟩ | ⟨row', hrow', hret | hret⟩)
      · exact .inl (.inl ⟨row', hin, hrun, hid⟩)
      · exact .inr hid.symm
      · exact .inl (.inr ⟨row', hrow', hret⟩)
      · have hle := hn.bounded row' (find_conflict hrow').1
        omega
    · rintro ((⟨row', hin, hkey⟩ | ⟨row', hrow', hret⟩) | hsame)
      · exact .inl ⟨row', .inl hin, hkey⟩
      · exact .inr ⟨row', hrow', .inl hret⟩
      · exact .inl ⟨_, .inr rfl, rfl, hsame.symm⟩

theorem Numbered.of_append {added : List RunLog} (hn : Numbered (committed ++ added) sequence) :
    Numbered committed sequence where
  distinct := by
    have hd := hn.distinct
    rw [List.map_append] at hd
    exact hd.of_append_left
  bounded row hrow := hn.bounded row (List.mem_append_left _ hrow)

theorem Numbered.taken (hn : Numbered (committed ++ a.inserted) sequence) :
    Numbered (committed ++ (a.taken committed (sequence + 1) e rest).inserted) (sequence + 1) := by
  have hbound : ∀ row ∈ committed ++ a.inserted, row.cursor < sequence + 1 := fun row hrow =>
    Nat.lt_succ_of_le (hn.bounded row hrow)
  unfold AppendRunLogs.taken
  split
  · exact ⟨hn.distinct, fun row hrow => (hbound row hrow).le⟩
  · dsimp only
    rw [← List.append_assoc]
    refine ⟨?_, ?_⟩
    · rw [List.map_append, List.nodup_append]
      refine ⟨hn.distinct, List.nodup_singleton _, ?_⟩
      intro x hx y hy hxy
      obtain ⟨row, hrow, rfl⟩ := List.mem_map.1 hx
      have hlt := hbound row hrow
      simp only [List.map_cons, List.map_nil, List.mem_singleton] at hy
      omega
    · intro row hrow
      rcases List.mem_append.1 hrow with hold | hnew
      · exact (hbound row hold).le
      · rw [List.mem_singleton.1 hnew]

def AppendRunLogs.Free (a : AppendRunLogs) (committed : List RunLog) (entries : List RunLogInput) :
    Prop :=
  (entries.map RunLogInput.entryID).Nodup ∧ ∀ e ∈ entries, ¬ a.Clash committed e

theorem free_cons (hn : Numbered committed sequence) : a.Free committed (e :: rest) ↔
    ¬ a.Clash committed e ∧ (a.taken committed (sequence + 1) e rest).Free committed rest := by
  unfold AppendRunLogs.Free
  simp only [clash_taken_iff hn, List.map_cons, List.nodup_cons, List.forall_mem_cons, not_or,
    List.mem_map, not_exists, not_and, forall_and]
  constructor
  · rintro ⟨⟨hother, hnodup⟩, hclash, hrest⟩
    exact ⟨hclash, hnodup, hrest, hother⟩
  · rintro ⟨hclash, hnodup, hrest, hother⟩
    exact ⟨⟨hother, hnodup⟩, hclash, hrest⟩

structure Completed (committed : List RunLog) (a a' : AppendRunLogs) (entries : List RunLogInput)
    (next : ℕ) : Prop where
  numbered : Numbered (committed ++ a'.inserted) next
  stored : storedEntries a.runID (committed ++ a'.inserted) =
    keepFirst (storedEntries a.runID (committed ++ a.inserted)) entries
  returned : a.returned ≠ [] ∨ entries ≠ [] → a'.returned ≠ []
  unchanged : (∀ e ∈ entries, ∃ row ∈ committed, row.runID = a.runID ∧ row.entryID = e.entryID) →
    a'.inserted = a.inserted

theorem insertAll_cases (hn : Numbered (committed ++ a.inserted) sequence)
    (hcheck : ∀ e ∈ entries, e.check = true) :
    (a.Free committed entries ∧ ∃ a' next, a.insertAll committed sequence entries = (.ok a', next) ∧
      Completed committed a a' entries next) ∨
    (¬ a.Free committed entries ∧
      ∃ next, a.insertAll committed sequence entries = (.error .affectedTwice, next)) := by
  induction entries generalizing a sequence with
  | nil =>
    refine .inl ⟨⟨List.nodup_nil, fun e he => (nomatch he)⟩, a, sequence, rfl, hn, rfl, ?_,
      fun _ => rfl⟩
    exact fun h => h.resolve_right (· rfl)
  | cons e rest ih =>
    have hfirst := hcheck e List.mem_cons_self
    rw [free_cons hn.of_append]
    unfold AppendRunLogs.insertAll
    by_cases hclash : a.Clash committed e
    · rw [insert_of_clash hfirst hclash]
      exact .inr ⟨fun h => h.1 hclash, _, rfl⟩
    · rw [insert_of_not_clash hfirst hclash]
      have hrest := fun f hf => hcheck f (List.mem_cons_of_mem _ hf)
      rcases ih (a := a.taken committed (sequence + 1) e rest) hn.taken hrest with
        ⟨hfree, a', next, hall, hdone⟩ | ⟨hfree, hfail⟩
      · refine .inl ⟨⟨hclash, hfree⟩, a', next, hall, hdone.numbered, ?_, ?_, fun hstored => ?_⟩
        · rw [← stored_taken (sequence + 1) rest hclash]
          simpa only [taken_runID] using hdone.stored
        · exact fun _ => hdone.returned (.inl taken_returned_ne_nil)
        · rw [hdone.unchanged fun f hf => ?_, taken_inserted (hstored e List.mem_cons_self)]
          rw [taken_runID]
          exact hstored f (List.mem_cons_of_mem _ hf)
      · exact .inr ⟨fun h => hfree h.2, hfail⟩

/-! Calls on a run that accepts the token. -/

structure Appended (s : LogState) (runID : ℕ) (entries : List RunLogInput)
    (result : LogState × Except AppendError ℕ) : Prop where
  answer : ∃ cursor, result.2 = .ok cursor
  runs : result.1.runs = s.runs
  numbered : Numbered result.1.rows result.1.sequence
  stored : storedEntries runID result.1.rows = keepFirst (storedEntries runID s.rows) entries
  unchanged : (∀ e ∈ entries, ∃ f ∈ storedEntries runID s.rows, f.entryID = e.entryID) →
    result.1.rows = s.rows

variable {r : Run} {now : Int}

theorem beginAppend_accepted (hr : s.runs runID = some r) (haccepts : r.acceptsLogs tokenHash now) :
    beginAppend s.runs runID tokenHash entries now =
      ⟨r.tenantID, runID, now, entries, none, [], []⟩ := by
  unfold beginAppend
  rw [hr, Option.filter_some, if_pos haccepts]

theorem free_begin {tenantID : ℕ} {drawn : Option ℕ} {todo : List RunLogInput} :
    AppendRunLogs.Free ⟨tenantID, runID, now, todo, drawn, [], []⟩ committed entries ↔
      (entries.map RunLogInput.entryID).Nodup := by
  unfold AppendRunLogs.Free AppendRunLogs.Clash
  simp

theorem appendRunLogs_cases (hn : Numbered s.rows s.sequence) (hr : s.runs runID = some r)
    (haccepts : r.acceptsLogs tokenHash now) (hne : entries ≠ [])
    (hcheck : ∀ e ∈ entries, e.check = true) :
    (((entries.map RunLogInput.entryID).Nodup ∧ ∀ e ∈ entries, e.storable = true) ∧
      Appended s runID entries (appendRunLogs s runID tokenHash now entries)) ∨
    (¬ ((entries.map RunLogInput.entryID).Nodup ∧ ∀ e ∈ entries, e.storable = true) ∧
      ∃ error, (appendRunLogs s runID tokenHash now entries).2 = .error error) := by
  unfold appendRunLogs
  by_cases htexts : ∀ e ∈ entries, e.storable = true
  · rw [if_pos (List.all_eq_true.2 htexts), beginAppend_accepted hr haccepts]
    dsimp only
    have hstart : Numbered (s.rows ++ []) s.sequence := by rwa [List.append_nil]
    have hcases :=
      insertAll_cases (a := ⟨r.tenantID, runID, now, entries, none, [], []⟩) hstart hcheck
    rw [free_begin] at hcases
    rcases hcases with ⟨hnodup, a', next, hall, hdone⟩ | ⟨hnodup, next, hall⟩
    · rw [hall]
      refine .inl ⟨⟨hnodup, htexts⟩, ?_, rfl, hdone.numbered, ?_, fun hstored => ?_⟩
      · refine ⟨a'.returned.foldl max 0, ?_⟩
        dsimp only
        rw [AppendRunLogs.answer, if_neg (hdone.returned (.inr hne))]
        rfl
      · simpa only [List.append_nil] using hdone.stored
      · dsimp only
        rw [hdone.unchanged fun e he => ?_, List.append_nil]
        obtain ⟨f, hf, hid⟩ := hstored e he
        exact stored_any.1 (List.any_eq_true.2 ⟨f, hf, beq_iff_eq.2 hid⟩)
    · rw [hall]
      exact .inr ⟨fun h => hnodup h.1, _, rfl⟩
  · rw [if_neg fun hall => htexts (List.all_eq_true.1 hall)]
    exact .inr ⟨fun h => htexts h.2, _, rfl⟩

theorem keepFirst_cons (stored : List RunLogInput) (e : RunLogInput) (rest : List RunLogInput) :
    keepFirst stored (e :: rest) = keepFirst (keepFirst stored [e]) rest := by
  simp only [keepFirst]
  split <;> rfl

theorem appendEach_appended {calls : List (Int × RunLogInput)} (hn : Numbered s.rows s.sequence)
    (hr : s.runs runID = some r) (htimes : ∀ call ∈ calls, r.acceptsLogs tokenHash call.1)
    (hcheck : ∀ call ∈ calls, call.2.check = true)
    (htexts : ∀ call ∈ calls, call.2.storable = true) :
    (∀ answer ∈ (appendEach runID tokenHash s calls).2, ∃ cursor, answer = .ok cursor) ∧
      storedEntries runID (appendEach runID tokenHash s calls).1.rows =
        keepFirst (storedEntries runID s.rows) (calls.map Prod.snd) := by
  induction calls generalizing s with
  | nil => exact ⟨fun _ h => (nomatch h), rfl⟩
  | cons call rest ih =>
    obtain ⟨now, e⟩ := call
    have hsingle : ∀ f ∈ [e], f.check = true := fun f hf => by
      rw [List.mem_singleton.1 hf]
      exact hcheck (now, e) List.mem_cons_self
    have htext : ∀ f ∈ [e], f.storable = true := fun f hf => by
      rw [List.mem_singleton.1 hf]
      exact htexts (now, e) List.mem_cons_self
    have hone : Appended s runID [e] (appendRunLogs s runID tokenHash now [e]) := by
      rcases appendRunLogs_cases hn hr (htimes (now, e) List.mem_cons_self) (List.cons_ne_nil e [])
        hsingle with ⟨-, h⟩ | ⟨hno, -⟩
      · exact h
      · exact absurd ⟨List.nodup_singleton _, htext⟩ hno
    obtain ⟨hanswers, hstored⟩ := ih hone.numbered (by rw [hone.runs, hr])
      (fun c hc => htimes c (List.mem_cons_of_mem _ hc))
      (fun c hc => hcheck c (List.mem_cons_of_mem _ hc))
      (fun c hc => htexts c (List.mem_cons_of_mem _ hc))
    constructor
    · rintro answer (_ | ⟨_, hanswer⟩)
      · exact hone.answer
      · exact hanswers answer hanswer
    · rw [List.map_cons, keepFirst_cons, ← hone.stored]
      exact hstored

/-- For entries that validation accepts, on a run with a valid token, the calls are independent of
the batches exactly where no id is repeated in a batch and no text holds U+0000. -/
theorem batchIndependent_iff (s : LogState) (runID tokenHash : ℕ) (r : Run) (now : Int)
    (calls : List (Int × RunLogInput)) (hn : Numbered s.rows s.sequence)
    (hr : s.runs runID = some r) (haccepts : r.acceptsLogs tokenHash now = true)
    (htimes : ∀ call ∈ calls, r.acceptsLogs tokenHash call.1 = true)
    (hvalid : validateRunLogInputs (calls.map Prod.snd) = .ok ()) :
    BatchIndependent s runID tokenHash now calls ↔
      (calls.map fun call => call.2.entryID).Nodup ∧ ∀ call ∈ calls, call.2.storable = true := by
  obtain ⟨hne, hcheck⟩ := check_of_valid hvalid
  have hids : (calls.map Prod.snd).map RunLogInput.entryID =
      calls.map fun call => call.2.entryID := by
    rw [List.map_map]
    rfl
  have hcases := appendRunLogs_cases hn hr haccepts hne hcheck
  simp only [hids, List.forall_mem_map] at hcases hcheck
  rcases hcases with ⟨hcond, hwhole⟩ | ⟨hcond, error, herror⟩
  · refine ⟨fun _ => hcond, fun _ => ?_⟩
    obtain ⟨heach, hstored⟩ := appendEach_appended hn hr htimes hcheck hcond.2
    refine ⟨hwhole.answer, heach, hwhole.stored, hstored.trans hwhole.stored.symm, fun hall => ?_⟩
    refine hwhole.unchanged fun e he => ?_
    obtain ⟨call, hcall, rfl⟩ := List.mem_map.1 he
    exact hall call hcall
  · refine ⟨fun h => ?_, fun h => absurd h hcond⟩
    obtain ⟨cursor, hok⟩ := h.whole
    rw [herror] at hok
    cases hok

/-! A call is a run of its statement in the log while no other statement is in progress. -/

theorem insert_ne_waits : a.insert id e rest committed [] ≠ .waits := by
  unfold AppendRunLogs.insert
  split
  · exact InsertOutcome.noConfusion
  split
  · exact InsertOutcome.noConfusion
  split
  · split <;> exact InsertOutcome.noConfusion
  · simp

def LogState.inserted (s : LogState) : Except RunLogError AppendRunLogs × ℕ → LogState
  | (.ok a, next) => { s with sequence := next, appends := [a] }
  | (.error e, next) =>
      { s with sequence := next, appends := [], answers := s.answers ++ [.error e] }

theorem insert_entries (h : a.insert id e rest committed [] = .continues a') :
    a'.entries = rest ∧ a'.drawn = none := by
  unfold AppendRunLogs.insert at h
  split at h
  · cases h
  split at h
  · cases h
  split at h
  all_goals
    split at h
    · cases h
    injection h with h
    subst h
    exact ⟨rfl, rfl⟩

theorem inserted_inserted (next : ℕ) (result : Except RunLogError AppendRunLogs × ℕ) :
    (s.inserted (.ok a, next)).inserted result = s.inserted result := by
  obtain ⟨_ | _, _⟩ := result <;> rfl

theorem LogState.run_append (tenantID reader : ℕ) (ls ls' : List LogLabel) :
    s.run tenantID reader (ls ++ ls') =
      (s.run tenantID reader ls).bind (·.run tenantID reader ls') := by
  induction ls generalizing s with
  | nil => rfl
  | cons l ls ih =>
    rw [List.cons_append, LogState.run, LogState.run]
    cases s.step tenantID reader l with
    | none => rfl
    | some s' => exact ih

/-- The only statement in progress draws an identifier and inserts its next entry under it. -/
theorem run_draw_insert (tenantID reader : ℕ) (hs : s.appends = [a]) (hdrawn : a.drawn = none)
    (hentries : a.entries = e :: rest) (ls : List LogLabel) :
    s.run tenantID reader (.draw 0 :: .insert 0 :: ls) =
      (match a.insert (s.sequence + 1) e rest s.rows [] with
        | .failed error => some (s.inserted (.error error, s.sequence + 1))
        | .waits => none
        | .continues a' => some (s.inserted (.ok a', s.sequence + 1))).bind
          (·.run tenantID reader ls) := by
  have hdraw : s.step tenantID reader (.draw 0) = some { s with
      sequence := s.sequence + 1
      appends := [{ a with drawn := some (s.sequence + 1) }] } := by
    simp only [LogState.step, hs]
    simp [hdrawn, hentries]
  have hsame : AppendRunLogs.insert { a with entries := e :: rest, drawn := some (s.sequence + 1) }
      (s.sequence + 1) e rest s.rows [] = a.insert (s.sequence + 1) e rest s.rows [] := rfl
  rw [LogState.run, hdraw, Option.bind_some, LogState.run]
  simp only [LogState.step, List.getElem?_cons_zero, hentries, hsame, List.eraseIdx_cons_zero,
    List.flatMap_nil, List.set_cons_zero]
  rfl

theorem insertAll_run (tenantID reader : ℕ) (hs : s.appends = [a]) (hdrawn : a.drawn = none)
    (hentries : a.entries = entries) : ∃ ls, s.run tenantID reader ls =
      some (s.inserted (a.insertAll s.rows s.sequence entries)) := by
  induction entries generalizing s a with
  | nil =>
    refine ⟨[], ?_⟩
    rw [AppendRunLogs.insertAll, LogState.inserted, ← hs]
    rfl
  | cons e rest ih =>
    rw [AppendRunLogs.insertAll]
    cases hinsert : a.insert (s.sequence + 1) e rest s.rows [] with
    | waits => exact absurd hinsert insert_ne_waits
    | failed error =>
      refine ⟨[.draw 0, .insert 0], ?_⟩
      rw [run_draw_insert tenantID reader hs hdrawn hentries, hinsert]
      rfl
    | continues a' =>
      obtain ⟨hrest, hnone⟩ := insert_entries hinsert
      obtain ⟨ls, hls⟩ := ih (s := s.inserted (.ok a', s.sequence + 1)) rfl hnone hrest
      refine ⟨.draw 0 :: .insert 0 :: ls, ?_⟩
      rw [run_draw_insert tenantID reader hs hdrawn hentries, hinsert]
      rw [Option.bind_some, hls, inserted_inserted]
      rfl

theorem insertAll_entries {next : ℕ} (hentries : a.entries = entries)
    (h : a.insertAll committed sequence entries = (.ok a', next)) : a'.entries = [] := by
  induction entries generalizing a sequence with
  | nil =>
    cases h
    exact hentries
  | cons e rest ih =>
    rw [AppendRunLogs.insertAll] at h
    split at h
    · cases h
    · cases h
    · next a₁ hinsert => exact ih (insert_entries hinsert).1 h

/-- What a call does, the log can do. -/
theorem appendRunLogs_run (tenantID reader : ℕ) (hs : s.appends = [])
    (htexts : ∀ e ∈ entries, e.storable = true) : ∃ ls answer,
      (appendRunLogs s runID tokenHash now entries).2 = answer.mapError .statement ∧
      s.run tenantID reader (.begin runID tokenHash entries now :: ls) =
        some { (appendRunLogs s runID tokenHash now entries).1 with
          answers := s.answers ++ [answer] } := by
  have hbegin : s.step tenantID reader (.begin runID tokenHash entries now) =
      some { s with appends := [beginAppend s.runs runID tokenHash entries now] } := by
    rw [LogState.step, hs]
    rfl
  have hdrawn : (beginAppend s.runs runID tokenHash entries now).drawn = none := by
    unfold beginAppend
    split <;> rfl
  unfold appendRunLogs
  rw [if_pos (List.all_eq_true.2 htexts)]
  generalize beginAppend s.runs runID tokenHash entries now = a at hbegin hdrawn
  obtain ⟨ls, hls⟩ := insertAll_run (s := { s with appends := [a] }) tenantID reader rfl hdrawn rfl
  dsimp only at hls ⊢
  cases hall : a.insertAll s.rows s.sequence a.entries with
  | mk result next =>
    rw [hall] at hls
    cases result with
    | error e =>
      refine ⟨ls, .error e, rfl, ?_⟩
      rw [LogState.run, hbegin, Option.bind_some, hls, LogState.inserted, hs]
    | ok a' =>
      refine ⟨ls ++ [.commit 0], a'.answer, rfl, ?_⟩
      rw [LogState.run, hbegin, Option.bind_some, LogState.run_append, hls, Option.bind_some]
      simp [LogState.run, LogState.step, LogState.inserted, LogState.finish,
        insertAll_entries rfl hall, hs]

def openLog : LogState :=
  { LogState.initial with
    runs := fun id => if id = 1 then
      some { id := 1, tenantID := 7, jobID := 1, triggerType := .manual, status := .running
             scheduledAt := 0, availableAt := 0, externalExecutionID := 1
             callback := some ⟨5, 100⟩, history := [.running] }
      else none }

-- One entry was stored before.
def startedLog : LogState := (appendRunLogs openLog 1 5 10 [⟨"a", "stdout", "x"⟩]).1

def nextEntries : List RunLogInput :=
  [⟨"b", "stdout", "y"⟩, ⟨"a", "stdout", "x"⟩, ⟨"c", "stderr", "z"⟩]

/-- Of three entries the one that is stored already is left out. -/
theorem startedLog_run : ∃ ls answer,
    (appendRunLogs startedLog 1 5 11 nextEntries).2 = answer.mapError .statement ∧
    startedLog.run 7 0 (.begin 1 5 nextEntries 11 :: ls) =
      some { (appendRunLogs startedLog 1 5 11 nextEntries).1 with answers := [answer] } ∧
    ((appendRunLogs startedLog 1 5 11 nextEntries).1.rows.map (·.entryID)) =
      ["a", "b", "c"] := by
  have hidle : startedLog.appends = [] := by decide +kernel
  have htexts : ∀ e ∈ nextEntries, e.storable = true := by decide
  obtain ⟨ls, answer, hanswer, hrun⟩ := @appendRunLogs_run _ _ 1 5 11 7 0 hidle htexts
  exact ⟨ls, answer, hanswer, hrun, by decide +kernel⟩

theorem batchIndependent_iff_started :
    BatchIndependent startedLog 1 5 11
      [(11, ⟨"a", "stdout", "x"⟩), (12, ⟨"b", "stdout", "y"⟩), (13, ⟨"c", "stderr", "z"⟩)] :=
  (batchIndependent_iff startedLog 1 5 _ 11 _ ⟨by decide +kernel, by decide +kernel⟩ rfl
    (by decide) (by decide) (by decide +kernel)).2 ⟨by decide, by decide⟩

/-- A retried entry beside its first copy makes the whole call fail. -/
theorem batch_with_repeated_entry :
    validateRunLogInputs [⟨"a", "stdout", "x"⟩, ⟨"a", "stdout", "x"⟩] = .ok () ∧
    ¬ BatchIndependent openLog 1 5 10 [(11, ⟨"a", "stdout", "x"⟩), (12, ⟨"a", "stdout", "x"⟩)] := by
  refine ⟨by decide +kernel, fun h => ?_⟩
  obtain ⟨cursor, hok⟩ := h.whole
  have hfail : (appendRunLogs openLog 1 5 10 [⟨"a", "stdout", "x"⟩, ⟨"a", "stdout", "x"⟩]).2 =
      .error (.statement .affectedTwice) := by decide +kernel
  cases hfail.symm.trans hok

end GoScheduler.Store
