import GoScheduler.Executor.State
import GoScheduler.Fallible

/-! The records of `FileCompletionStore` as files of one directory, and what its operations
leave behind. A file operation may report an error; the ones before it have then been made
and those after it not. Temporary files are left out: a record is there from the moment its
file has been renamed. -/
namespace GoScheduler.Executor

open Process

def maxCompletionRecordBytes : ℕ := 16 * 1024

def maxExecutionRecordBytes : ℕ := 4 * 1024 * 1024

/-- What is left of a record once it was written as JSON and read back. -/
def CompletionRecord.stored (record : CompletionRecord) : CompletionRecord where
  runID := Text.sanitize record.runID
  token := Text.sanitize record.token
  succeeded := record.succeeded
  message := Text.sanitize record.message
  createdAt := record.createdAt.wholeMinutes

/-- `json.Marshal` and `json.Unmarshal` on completion records, `proto.Marshal` and
`proto.Unmarshal` on dispatch requests. Nothing is said of bytes they did not write. -/
structure Codec where
  marshal : CompletionRecord → Option Bytes
  unmarshal : Bytes → Option CompletionRecord
  unmarshal_marshal : ∀ record raw, marshal record = some raw → unmarshal raw = some record.stored
  marshalRequest : DispatchRequest → Option Bytes
  unmarshalRequest : Bytes → Option DispatchRequest
  unmarshalRequest_marshalRequest : ∀ request raw, marshalRequest request = some raw →
    unmarshalRequest raw = some request

def completionFileName (runID : Bytes) : Name := runID ++ text ".json"

def executionFileName (runID : Bytes) : Name := runID ++ text ".execution.pb"

def isCompletion (entry : Name) : Bool := (text ".json").isSuffixOf entry

def isExecution (entry : Name) : Bool := (text ".execution.pb").isSuffixOf entry

def isInterrupted (entry : Name) : Bool :=
  (text ".completion-").isPrefixOf entry || (text ".execution-").isPrefixOf entry

def isRunIDByte (b : UInt8) : Bool :=
  97 ≤ b && b ≤ 122 || 65 ≤ b && b ≤ 90 || 48 ≤ b && b ≤ 57 || b = 46 || b = 95 || b = 45

def validateCompletionRunID (runID : Bytes) : Except Error Unit :=
  if runID = [] ∨ 128 < runID.length ∨ runID.all isRunIDByte = false then .error .runID else .ok ()

def validateCompletionRecord (record : CompletionRecord) : Except Error Unit := do
  validateCompletionRunID record.runID
  if record.token = [] ∨ 4096 < record.token.length then .error .token
  else if 4096 < record.message.length then .error .message
  else if record.createdAt.isZero then .error .createdAt
  else .ok ()

def CompletionRecord.before (a b : CompletionRecord) : Prop :=
  if a.createdAt.instant = b.createdAt.instant then a.runID ≤ b.runID
  else a.createdAt.instant < b.createdAt.instant

instance (a b : CompletionRecord) : Decidable (a.before b) := by
  unfold CompletionRecord.before
  infer_instance

section FileNames

variable {r r' : Bytes}

theorem isCompletion_completionFileName (r : Bytes) : isCompletion (completionFileName r) = true :=
  List.isSuffixOf_iff_suffix.2 (List.suffix_append _ _)

theorem completionFileName_last (r : Bytes) : (completionFileName r).getLast? = some 110 := by
  rw [completionFileName, List.getLast?_append]
  rfl

theorem executionFileName_last (r : Bytes) : (executionFileName r).getLast? = some 98 := by
  rw [executionFileName, List.getLast?_append]
  rfl

theorem completionFileName_ne_executionFileName (r r' : Bytes) :
    completionFileName r ≠ executionFileName r' := by
  intro h
  have hlast := congrArg List.getLast? h
  rw [completionFileName_last, executionFileName_last] at hlast
  exact absurd hlast (by decide)

theorem completionFileName_injective : Function.Injective completionFileName :=
  List.append_left_injective _

theorem executionFileName_injective : Function.Injective executionFileName :=
  List.append_left_injective _

theorem isPrefixOf_append {p ending : Bytes} {b : UInt8} (ending' : Bytes)
    (hlast : p.getLast? = some b) (hb : b ∉ ending) (h : p.isPrefixOf (r ++ ending) = true) :
    p.isPrefixOf (r ++ ending') = true := by
  rw [List.isPrefixOf_iff_prefix] at h ⊢
  rcases le_or_gt p.length r.length with hle | hgt
  · exact (List.prefix_of_prefix_length_le h (List.prefix_append r ending) hle).trans
      (List.prefix_append r ending')
  · obtain ⟨rest, rfl⟩ :=
      List.prefix_of_prefix_length_le (List.prefix_append r ending) h hgt.le
    have hrest : rest <+: ending := (List.prefix_append_right_inj r).1 h
    have hne : rest ≠ [] := fun hnil => by simp [hnil] at hgt
    rw [List.getLast?_append_of_ne_nil r hne] at hlast
    exact absurd (hrest.subset (List.mem_of_getLast? hlast)) hb

/-- Where the completion record of a run looks like an interrupted write, its execution record
does too. -/
theorem isInterrupted_executionFileName (h : isInterrupted (completionFileName r) = true) :
    isInterrupted (executionFileName r) = true := by
  unfold isInterrupted at h ⊢
  rw [Bool.or_eq_true] at h ⊢
  exact h.imp (isPrefixOf_append (b := 45) _ (by decide) (by decide))
    (isPrefixOf_append (b := 45) _ (by decide) (by decide))

end FileNames

namespace FileCompletionStore

section Decoding

variable (codec : Codec)

def decodeCompletion (entry : Name) (raw : Bytes) : Except Error CompletionRecord :=
  if maxCompletionRecordBytes < raw.length then .error (.entrySize entry)
  else match codec.unmarshal raw with
    | none => .error (.decode entry)
    | some record => match validateCompletionRecord record with
        | .error e => .error (.validate entry e)
        | .ok _ =>
            if entry ≠ completionFileName record.runID then .error (.mismatched entry)
            else .ok record

/-- Whether a record without a deadline is the same request in its old form. -/
def isLegacyOf (existing : Bytes) (request : DispatchRequest) : Bool :=
  match codec.unmarshalRequest existing with
  | some legacy => legacy.executionDeadlineUnixMilli = 0 &&
      legacy = { request with executionDeadlineUnixMilli := 0 }
  | none => false

def decodeExecution (entry : Name) (raw : Bytes) : Except Error DispatchRequest :=
  if maxExecutionRecordBytes < raw.length then .error (.entrySize entry)
  else match codec.unmarshalRequest raw with
    | none => .error (.decode entry)
    | some request => match validateCompletionRunID request.runId with
        | .error _ => .error (.mismatched entry)
        | .ok _ =>
            if entry ≠ executionFileName request.runId then .error (.mismatched entry)
            else .ok request

end Decoding

def executionRemoved (s : FileCompletionStore) : FileCompletionStore :=
  if 0 < s.executions then { s with executions := s.executions - 1 } else s

def completionRemoved (s : FileCompletionStore) : FileCompletionStore :=
  if 0 < s.pending then { s with pending := s.pending - 1 } else s

/-- `FileCompletionStoreOptions`; zero leaves the default. -/
structure Options where
  maxRecords : Int
  maxExecutions : Int

def configuration : List Options → Except Error Options
  | [] => .ok ⟨10000, 1024⟩
  | [o] => .ok ⟨if o.maxRecords ≠ 0 then o.maxRecords else 10000,
      if o.maxExecutions ≠ 0 then o.maxExecutions else 1024⟩
  | _ => .error .tooManyOptions

end FileCompletionStore

structure Shelf where
  store : FileCompletionStore
  disk : Disk

namespace Shelf

section Operations

/-- File operations one after the other. An error after `n` of them leaves the others undone. -/
def attempt (fault : Option ℕ) (steps : List (Shelf → Shelf)) (s : Shelf) :
    Except Error Unit × Shelf :=
  match fault with
  | none => (.ok (), steps.foldl (fun s f => f s) s)
  | some n => (.error .io, (steps.dropLast.take n).foldl (fun s f => f s) s)

/-- `Rename` of a temporary file that was written and synced. -/
def publish (target : Name) (raw : Bytes) (s : Shelf) : Shelf :=
  { s with disk := s.disk.change [(target, some ⟨raw, true⟩)] }

def syncDirectory (s : Shelf) : Shelf := { s with disk := s.disk.sync }

def removeExecution (runID : Bytes) (s : Shelf) : Shelf :=
  if executionFileName runID ∈ s.disk.visible then
    ⟨s.store.executionRemoved, s.disk.change [(executionFileName runID, none)]⟩
  else s

def removeCompletion (runID : Bytes) (s : Shelf) : Shelf :=
  if completionFileName runID ∈ s.disk.visible then
    ⟨s.store.completionRemoved, s.disk.change [(completionFileName runID, none)]⟩
  else s

variable (codec : Codec) (fault : Option ℕ)

def savable (record : CompletionRecord) (s : Shelf) : Except Error Bytes := do
  validateCompletionRecord record
  match codec.marshal record with
  | none => .error .encode
  | some raw =>
      if maxCompletionRecordBytes < raw.length then .error .size
      else if s.store.max ≤ s.store.pending then .error (.capacity s.store.pending s.store.max)
      else if completionFileName record.runID ∈ s.disk.visible then
        .error (.alreadyExists record.runID)
      else .ok raw

def countCompletion (s : Shelf) : Shelf :=
  { s with store := { s.store with pending := s.store.pending + 1 } }

def save (record : CompletionRecord) (s : Shelf) : Except Error Unit × Shelf :=
  match savable codec record s with
  | .error e => (.error e, s)
  | .ok raw => attempt fault
      [fun s => (s.publish (completionFileName record.runID) raw).countCompletion, syncDirectory] s

def delete (runID : Bytes) (s : Shelf) : Except Error Unit × Shelf :=
  match validateCompletionRunID runID with
  | .error e => (.error e, s)
  | .ok _ => attempt fault [removeExecution runID, removeCompletion runID, syncDirectory] s

def deleteExecution (runID : Bytes) (s : Shelf) : Except Error Unit × Shelf :=
  match validateCompletionRunID runID with
  | .error e => (.error e, s)
  | .ok _ => attempt fault [removeExecution runID, syncDirectory] s

def countExecution (s : Shelf) : Shelf :=
  { s with store := { s.store with executions := s.store.executions + 1 } }

/-- The steps with which `SaveExecution` writes a request, none where it is there already. -/
def executionSteps (request : DispatchRequest) (s : Shelf) :
    Except Error (List (Shelf → Shelf)) := do
  validateCompletionRunID request.runId
  if request.jobId = [] ∨ request.handler = [] ∨ request.callbackToken = [] ∨
      request.timeoutSeconds < 1 then .error .requestIncomplete
  else match codec.marshalRequest request with
    | none => .error .encode
    | some raw =>
        if maxExecutionRecordBytes < raw.length then .error .size
        else match s.disk.visible.lookup (executionFileName request.runId) with
          | some existing =>
              if existing.bytes = raw then .ok []
              else if FileCompletionStore.isLegacyOf codec existing.bytes request then
                .ok [publish (executionFileName request.runId) raw, syncDirectory]
              else .error (.differentContent request.runId)
          | none =>
              if s.store.maxExecutions ≤ s.store.executions then
                .error (.capacity s.store.executions s.store.maxExecutions)
              else .ok [publish (executionFileName request.runId) raw,
                fun s => s.syncDirectory.countExecution]

def saveExecution (request : DispatchRequest) (s : Shelf) : Except Error Unit × Shelf :=
  match executionSteps codec request s with
  | .error e => (.error e, s)
  | .ok steps => attempt fault steps s

def decodeAll {α : Type} (decode : Name → Bytes → Except Error α) (d : Directory) :
    List Name → Except Error (List α)
  | [] => .ok []
  | entry :: rest => do
      match d.lookup entry with
      | none => .error (.read entry)
      | some f => return (← decode entry f.bytes) :: (← decodeAll decode d rest)

def completions (d : Directory) : Except Error (List CompletionRecord) := do
  let records ← decodeAll (FileCompletionStore.decodeCompletion codec) d
    (d.listing.filter isCompletion)
  return records.insertionSort CompletionRecord.before

def executions (d : Directory) : Except Error (List DispatchRequest) := do
  let requests ← decodeAll (FileCompletionStore.decodeExecution codec) d
    (d.listing.filter isExecution)
  return requests.insertionSort fun a b => a.runId ≤ b.runId

def list (s : Shelf) : Except Error (List CompletionRecord) :=
  match fault with
  | some _ => .error .io
  | none => completions codec s.disk.visible

def listExecutions (s : Shelf) : Except Error (List DispatchRequest) :=
  match fault with
  | some _ => .error .io
  | none => executions codec s.disk.visible

def removeEntries (entries : List Name) (d : Disk) : Disk :=
  entries.foldl (fun d entry => d.change [(entry, none)]) d

def inspect (options : FileCompletionStore.Options) (d : Directory) :
    Except Error FileCompletionStore := do
  let pending : Int := d.keys.countP isCompletion
  let found : Int := d.keys.countP isExecution
  if options.maxRecords < pending ∨ options.maxExecutions < found then
    .error (.exceedsCapacity pending options.maxRecords found options.maxExecutions)
  else do
    let _ ← completions codec d
    let _ ← executions codec d
    return ⟨pending, options.maxRecords, found, options.maxExecutions⟩

def newFileCompletionStore (options : List FileCompletionStore.Options) (d : Disk) :
    Except Error FileCompletionStore × Disk :=
  match FileCompletionStore.configuration options with
  | .error e => (.error e, d)
  | .ok limits =>
      if limits.maxRecords < 1 ∨ limits.maxExecutions < 1 then (.error .maximumNotPositive, d)
      else
        let interrupted := d.visible.listing.filter isInterrupted
        match fault with
        | some n => (.error .io, removeEntries (interrupted.take n) d)
        | none => (inspect codec limits (removeEntries interrupted d).visible,
            removeEntries interrupted d)

end Operations

section Entries

variable {s : Shelf} {n : Name} {runID : Bytes} {codec : Codec} {fault : Option ℕ}

theorem mem_change_some {d : Disk} {target : Name} {f : File} :
    n ∈ (d.change [(target, some f)]).visible ↔ n = target ∨ n ∈ d.visible := by
  rw [Disk.visible_change]
  exact AList.mem_insert _

theorem mem_change_none {d : Disk} {target : Name} :
    n ∈ (d.change [(target, none)]).visible ↔ n ≠ target ∧ n ∈ d.visible := by
  rw [Disk.visible_change]
  exact AList.mem_erase

theorem mem_removeExecution :
    n ∈ (s.removeExecution runID).disk.visible ↔ n ≠ executionFileName runID ∧
      n ∈ s.disk.visible := by
  unfold removeExecution
  split
  · exact mem_change_none
  · next habsent =>
    refine ⟨fun h => ⟨fun heq => habsent (heq ▸ h), h⟩, And.right⟩

theorem mem_removeCompletion :
    n ∈ (s.removeCompletion runID).disk.visible ↔
      n ≠ completionFileName runID ∧ n ∈ s.disk.visible := by
  unfold removeCompletion
  split
  · exact mem_change_none
  · next habsent =>
    refine ⟨fun h => ⟨fun heq => habsent (heq ▸ h), h⟩, And.right⟩

theorem attempt_prefix (fault : Option ℕ) (steps : List (Shelf → Shelf)) (s : Shelf) :
    ∃ k, (attempt fault steps s).2 = (steps.take k).foldl (fun s f => f s) s := by
  cases fault with
  | none => exact ⟨steps.length, by simp [attempt]⟩
  | some n =>
    exact ⟨min n (steps.length - 1), by simp [attempt, List.dropLast_eq_take, List.take_take]⟩

theorem attempt_keeps {P : Shelf → Prop} {steps : List (Shelf → Shelf)}
    (hsteps : ∀ f ∈ steps, ∀ s, P s → P (f s)) (h : P s) : P (attempt fault steps s).2 := by
  obtain ⟨k, hk⟩ := attempt_prefix fault steps s
  rw [hk]
  exact List.foldlRecOn _ _ h fun s hs f hf => hsteps f (List.mem_of_mem_take hf) s hs

variable {P : Disk → Prop}

theorem save_keeps (record : CompletionRecord)
    (hpublish : ∀ d raw, P d → P (d.change [(completionFileName record.runID, some ⟨raw, true⟩)]))
    (hsync : ∀ d, P d → P d.sync) (h : P s.disk) : P (save codec fault record s).2.disk := by
  unfold save
  split
  · exact h
  · refine attempt_keeps (P := fun s => P s.disk) (fun f hf s hs => ?_) h
    simp only [List.mem_cons, List.not_mem_nil, or_false] at hf
    rcases hf with rfl | rfl
    · exact hpublish s.disk _ hs
    · exact hsync s.disk hs

theorem removeExecution_keeps (hremove : ∀ d, P d → P (d.change [(executionFileName runID, none)]))
    (h : P s.disk) : P (s.removeExecution runID).disk := by
  unfold removeExecution
  split
  · exact hremove _ h
  · exact h

theorem removeCompletion_keeps
    (hremove : ∀ d, P d → P (d.change [(completionFileName runID, none)]))
    (h : P s.disk) : P (s.removeCompletion runID).disk := by
  unfold removeCompletion
  split
  · exact hremove _ h
  · exact h

theorem deleteExecution_keeps (hremove : ∀ d, P d → P (d.change [(executionFileName runID, none)]))
    (hsync : ∀ d, P d → P d.sync) (h : P s.disk) : P (deleteExecution fault runID s).2.disk := by
  unfold deleteExecution
  split
  · exact h
  · refine attempt_keeps (P := fun s => P s.disk) (fun f hf s hs => ?_) h
    simp only [List.mem_cons, List.not_mem_nil, or_false] at hf
    rcases hf with rfl | rfl
    · exact removeExecution_keeps hremove hs
    · exact hsync s.disk hs

theorem delete_keeps (hexecution : ∀ d, P d → P (d.change [(executionFileName runID, none)]))
    (hcompletion : ∀ d, P d → P (d.change [(completionFileName runID, none)]))
    (hsync : ∀ d, P d → P d.sync) (h : P s.disk) : P (delete fault runID s).2.disk := by
  unfold delete
  split
  · exact h
  · refine attempt_keeps (P := fun s => P s.disk) (fun f hf s hs => ?_) h
    simp only [List.mem_cons, List.not_mem_nil, or_false] at hf
    rcases hf with rfl | rfl | rfl
    · exact removeExecution_keeps hexecution hs
    · exact removeCompletion_keeps hcompletion hs
    · exact hsync s.disk hs

/-- `SaveExecution` has nothing to write, or writes one file, from which the request is read back,
and syncs the directory. -/
theorem executionSteps_cases {request : DispatchRequest} {steps : List (Shelf → Shelf)}
    (hsteps : executionSteps codec request s = .ok steps) :
    steps = [] ∨ ∃ raw last,
      FileCompletionStore.decodeExecution codec (executionFileName request.runId) raw =
        .ok request ∧
      steps = [publish (executionFileName request.runId) raw, last] ∧
      ∀ s, (last s).disk = s.disk.sync := by
  unfold executionSteps at hsteps
  obtain ⟨⟨⟩, hid, hsteps⟩ := Fallible.exists_of_bind_ok hsteps
  split at hsteps
  · cases hsteps
  split at hsteps
  · cases hsteps
  next raw hmarshal =>
  split at hsteps
  · cases hsteps
  next hsize =>
  have hdecode : FileCompletionStore.decodeExecution codec (executionFileName request.runId) raw =
      .ok request := by
    rw [FileCompletionStore.decodeExecution, if_neg hsize,
      codec.unmarshalRequest_marshalRequest request raw hmarshal]
    simp [hid]
  split at hsteps
  · split_ifs at hsteps
    · cases hsteps
      exact .inl rfl
    · cases hsteps
      exact .inr ⟨raw, _, hdecode, rfl, fun _ => rfl⟩
  · split_ifs at hsteps
    cases hsteps
    exact .inr ⟨raw, _, hdecode, rfl, fun _ => rfl⟩

theorem saveExecution_keeps (request : DispatchRequest)
    (hpublish : ∀ d raw, P d → P (d.change [(executionFileName request.runId, some ⟨raw, true⟩)]))
    (hsync : ∀ d, P d → P d.sync) (h : P s.disk) :
    P (saveExecution codec fault request s).2.disk := by
  unfold saveExecution
  split
  · exact h
  · next steps hsteps =>
    refine attempt_keeps (P := fun s => P s.disk) (fun f hf s hs => ?_) h
    rcases executionSteps_cases hsteps with rfl | ⟨raw, last, -, rfl, hlast⟩
    · cases hf
    · simp only [List.mem_cons, List.not_mem_nil, or_false] at hf
      rcases hf with rfl | rfl
      · exact hpublish s.disk raw hs
      · rw [hlast]
        exact hsync s.disk hs

theorem delete_order (h : completionFileName runID ∈ s.disk.visible)
    (hgone : completionFileName runID ∉ (delete fault runID s).2.disk.visible) :
    executionFileName runID ∉ (delete fault runID s).2.disk.visible := by
  unfold delete at hgone ⊢
  split at hgone
  · exact absurd h hgone
  · next hvalid =>
    obtain ⟨k, hk⟩ :=
      attempt_prefix fault [removeExecution runID, removeCompletion runID, syncDirectory] s
    rw [hk] at hgone ⊢
    cases k with
    | zero => exact absurd h hgone
    | succ k =>
      -- The execution record is gone before the completion record is touched.
      rw [List.take_succ_cons, List.foldl_cons]
      refine List.foldlRecOn
        (motive := fun s : Shelf => executionFileName runID ∉ s.disk.visible) _ _
        (fun hm => (mem_removeExecution.1 hm).1 rfl) fun s hs f hf => ?_
      have hf' := List.mem_of_mem_take hf
      simp only [List.mem_cons, List.not_mem_nil, or_false] at hf'
      rcases hf' with rfl | rfl
      · exact fun hm => hs (mem_removeCompletion.1 hm).2
      · exact hs

theorem decodeAll_ok {α : Type} {decode : Name → Bytes → Except Error α} {d : Directory}
    {entries : List Name} {values : List α} (h : decodeAll decode d entries = .ok values) :
    List.Forall₂
      (fun entry value => ∃ f, d.lookup entry = some f ∧ decode entry f.bytes = .ok value)
      entries values := by
  induction entries generalizing values with
  | nil =>
    cases h
    exact .nil
  | cons entry entries ih =>
    unfold decodeAll at h
    split at h
    · cases h
    · next f hf =>
      obtain ⟨value, hvalue, h⟩ := Fallible.exists_of_bind_ok h
      obtain ⟨rest, hrest, h⟩ := Fallible.exists_of_bind_ok h
      cases h
      exact .cons ⟨f, hf, hvalue⟩ (ih hrest)

theorem decodeCompletion_ok {raw : Bytes} {record : CompletionRecord}
    (h : FileCompletionStore.decodeCompletion codec n raw = .ok record) :
    n = completionFileName record.runID := by
  unfold FileCompletionStore.decodeCompletion at h
  repeat' split at h
  all_goals cases h
  next hname => exact not_not.1 hname

theorem decodeExecution_ok {raw : Bytes} {request : DispatchRequest}
    (h : FileCompletionStore.decodeExecution codec n raw = .ok request) :
    n = executionFileName request.runId := by
  unfold FileCompletionStore.decodeExecution at h
  repeat' split at h
  all_goals cases h
  next hname => exact not_not.1 hname

theorem decodeAll_names {α : Type} {decode : Name → Bytes → Except Error α} {name : α → Name}
    (hname : ∀ entry raw value, decode entry raw = .ok value → entry = name value) {d : Directory}
    {entries : List Name} {values : List α} (h : decodeAll decode d entries = .ok values) :
    values.map name = entries := by
  have hnames := (decodeAll_ok h).imp fun entry value ⟨f, _, hf⟩ => hname entry f.bytes value hf
  have heq := List.forall₂_map_right_iff.2 hnames
  rw [List.forall₂_eq_eq_eq] at heq
  exact heq.symm

theorem completions_ok {d : Directory} {records : List CompletionRecord}
    (h : completions codec d = .ok records) :
    (records.map fun record => completionFileName record.runID).Perm
      (d.listing.filter isCompletion) := by
  obtain ⟨decoded, hdecoded, h⟩ := Fallible.exists_of_bind_ok h
  cases h
  rw [← decodeAll_names (fun _ _ _ => decodeCompletion_ok) hdecoded]
  exact (List.perm_insertionSort _ decoded).map _

theorem executions_ok {d : Directory} {requests : List DispatchRequest}
    (h : executions codec d = .ok requests) :
    (requests.map fun request => executionFileName request.runId).Perm
      (d.listing.filter isExecution) := by
  obtain ⟨decoded, hdecoded, h⟩ := Fallible.exists_of_bind_ok h
  cases h
  rw [← decodeAll_names (fun _ _ _ => decodeExecution_ok) hdecoded]
  exact (List.perm_insertionSort _ decoded).map _

theorem list_none {records : List CompletionRecord} (h : list codec fault s = .ok records) :
    completions codec s.disk.visible = .ok records := by
  cases fault with
  | none => exact h
  | some n => cases h

theorem nodup_listing (d : Directory) : d.listing.Nodup :=
  (List.perm_insertionSort _ d.keys).nodup_iff.2 d.keys_nodup

theorem list_nodup {records : List CompletionRecord} (h : list codec fault s = .ok records) :
    (records.map CompletionRecord.runID).Nodup := by
  have hnames := (completions_ok (list_none h)).nodup_iff.2 ((nodup_listing _).filter _)
  exact .of_map completionFileName (by rwa [List.map_map])

theorem mem_list {records : List CompletionRecord} (h : list codec fault s = .ok records) :
    runID ∈ records.map CompletionRecord.runID ↔ completionFileName runID ∈ s.disk.visible := by
  have hnames := (completions_ok (list_none h)).mem_iff (a := completionFileName runID)
  rw [List.mem_filter, Directory.mem_listing] at hnames
  simp only [isCompletion_completionFileName, and_true] at hnames
  rw [← hnames, List.mem_map, List.mem_map]
  simp only [completionFileName_injective.eq_iff]

theorem mem_listExecutions {requests : List DispatchRequest}
    (h : listExecutions codec fault s = .ok requests) {request : DispatchRequest}
    (hrequest : request ∈ requests) : executionFileName request.runId ∈ s.disk.visible := by
  have hnone : executions codec s.disk.visible = .ok requests := by
    cases fault with
    | none => exact h
    | some n => cases h
  have hnames := (executions_ok hnone).mem_iff (a := executionFileName request.runId)
  rw [List.mem_filter, Directory.mem_listing] at hnames
  exact (hnames.1 (List.mem_map_of_mem hrequest)).1

theorem mem_removeEntries {entries : List Name} {d : Disk} :
    n ∈ (removeEntries entries d).visible ↔ n ∉ entries ∧ n ∈ d.visible := by
  induction entries generalizing d with
  | nil => simp [removeEntries]
  | cons entry entries ih =>
    have hstep :
        removeEntries (entry :: entries) d = removeEntries entries (d.change [(entry, none)]) :=
      rfl
    rw [hstep, ih, mem_change_none, List.mem_cons, not_or]
    tauto

theorem newFileCompletionStore_keeps (options : List FileCompletionStore.Options) {d : Disk}
    (hremove : ∀ d n, isInterrupted n = true → P d → P (d.change [(n, none)])) (h : P d) :
    P (newFileCompletionStore codec fault options d).2 := by
  have hentries (entries : List Name) (hsub : entries ⊆ d.visible.listing.filter isInterrupted) :
      P (removeEntries entries d) :=
    List.foldlRecOn _ _ h fun d' hd' n hn => hremove d' n (List.mem_filter.1 (hsub hn)).2 hd'
  unfold newFileCompletionStore
  split
  · exact h
  split
  · exact h
  dsimp only
  split
  · exact hentries _ (List.take_subset _ _)
  · exact hentries _ (List.Subset.refl _)

theorem mem_newFileCompletionStore {options : List FileCompletionStore.Options} {d : Disk}
    {store : FileCompletionStore}
    (h : (newFileCompletionStore codec fault options d).1 = .ok store) :
    n ∈ (newFileCompletionStore codec fault options d).2.visible ↔
      isInterrupted n = false ∧ n ∈ d.visible := by
  unfold newFileCompletionStore at h ⊢
  split at h
  · cases h
  split at h
  · cases h
  next hlimits =>
  rw [if_neg hlimits]
  dsimp only at h ⊢
  split at h
  · cases h
  · rw [mem_removeEntries, List.mem_filter, Directory.mem_listing]
    cases isInterrupted n <;> simp

end Entries

end Shelf

end GoScheduler.Executor
