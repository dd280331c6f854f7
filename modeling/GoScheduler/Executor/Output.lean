import GoScheduler.Text.Utf8

/-! What a script process or a pod writes, on its way into the log of the run: the buffer that
limits it, the chunks in which it is sent, the size check of the logger and the transport, which
carries valid UTF-8 only. -/
namespace GoScheduler.Executor
open Text

inductive Stream where
  | stdout | stderr
deriving DecidableEq, Repr

inductive OutputError where
  | process  -- The process did not exit with code 0, or the context ended.
  | exceeded  -- `script output exceeded 1 MiB`.
  | contentSize  -- `log content exceeds 65536 bytes`.
  | report  -- The answer to `AppendLog`.
  | pods  -- The list of the pods.
  | openLogs  -- `open kubernetes pod logs`.
  | readLogs
deriving DecidableEq, Repr

/-- Where logs are reported: chunks that are valid UTF-8 of at most 65536 bytes are accepted, and
what is not valid UTF-8 cannot be sent. -/
structure Reporter where
  appendLog : Stream → Bytes → Except OutputError Unit
  accepts : ∀ stream content, valid content = true → content.length ≤ 65536 →
    appendLog stream content = .ok ()
  rejects : ∀ stream content, valid content = false →
    ∃ e, appendLog stream content = .error e

def maxScriptOutputBytes : ℕ := 1048576

structure LimitedBuffer where
  buffer : Bytes := []
  limit : ℕ := maxScriptOutputBytes
  exceeded : Bool := false
deriving DecidableEq

def LimitedBuffer.write (w : LimitedBuffer) (p : Bytes) : LimitedBuffer :=
  if w.limit ≤ w.buffer.length then { w with exceeded := true }
  else if w.limit - w.buffer.length < p.length then
    { w with buffer := w.buffer ++ p.take (w.limit - w.buffer.length), exceeded := true }
  else { w with buffer := w.buffer ++ p }

abbrev Sent : Type := List (Stream × Bytes) × Except OutputError Unit

def loggerWrite (r : Reporter) (sent : List (Stream × Bytes)) (stream : Stream) (content : Bytes) :
    Sent :=
  if 65536 < content.length then (sent, .error .contentSize)
  else (sent ++ [(stream, content)], r.appendLog stream content)

def writeStream (r : Reporter) (sent : List (Stream × Bytes)) (stream : Stream) (value : Bytes) :
    Sent :=
  if value.length = 0 then (sent, .ok ())
  else
    match loggerWrite r sent stream (value.take (min value.length 65536)) with
    | (sent, .error e) => (sent, .error e)
    | (sent, .ok ()) => writeStream r sent stream (value.drop (min value.length 65536))
termination_by value.length
decreasing_by
  simp only [List.length_drop]
  omega

def writeScriptOutput (logger : Option Reporter) (stdout stderr : Bytes) : Sent :=
  match logger with
  | none => ([], .ok ())
  | some r =>
      match writeStream r [] .stdout stdout with
      | (sent, .error e) => (sent, .error e)
      | (sent, .ok ()) => writeStream r sent .stderr stderr

/-- The end of `ScriptHandler`, once the process has ended and its output was copied to the buffers
in the given writes. -/
def finishScript (logger : Option Reporter) (exit : Except OutputError Unit)
    (stdout stderr : List Bytes) : Sent :=
  let out := stdout.foldl LimitedBuffer.write {}
  let err := stderr.foldl LimitedBuffer.write {}
  let (sent, logged) := writeScriptOutput logger out.buffer err.buffer
  let result := match exit with
    | .ok () => logged
    | .error e => .error e
  (sent, if out.exceeded || err.exceeded then .error .exceeded else result)

inductive PodLogs where
  | listFailed
  | noPods
  | openFailed
  | readFailed
  | log (raw : Bytes)

/-- `writeKubernetesPodLogs`, which ends `KubernetesHandler` once the job is complete. -/
def writeKubernetesPodLogs (logger : Option Reporter) (pods : PodLogs) : Sent :=
  match logger with
  | none => ([], .ok ())
  | some r =>
      match pods with
      | .listFailed => ([], .error .pods)
      | .noPods => ([], .ok ())
      | .openFailed => ([], .error .openLogs)
      | .readFailed => ([], .error .readLogs)
      | .log log =>
          let raw := log.take 1048576
          if 0 < raw.length then loggerWrite r [] .stdout raw else ([], .ok ())

def chunksOf (stream : Stream) (sent : List (Stream × Bytes)) : List Bytes :=
  (sent.filter fun c => c.1 = stream).map Prod.snd

/-- The output has arrived: in chunks that the transport carries, and complete. -/
def Arrived (stream : Stream) (output : Bytes) (sent : List (Stream × Bytes)) : Prop :=
  (∀ chunk ∈ chunksOf stream sent, valid chunk = true ∧ chunk.length ≤ 65536) ∧
    (chunksOf stream sent).flatten = output

/-- No character lies across a multiple of 65536 bytes. -/
def Aligned (output : Bytes) : Prop := ∀ k, valid (output.take (65536 * k)) = true

variable {r : Reporter} {sent : List (Stream × Bytes)} {stream : Stream} {value : Bytes}

/-! The buffers. -/

theorem write_fits {w : LimitedBuffer} {p : Bytes} (hp : p ≠ [])
    (hfits : w.buffer.length + p.length ≤ w.limit) :
    w.write p = { w with buffer := w.buffer ++ p } := by
  have hpos : 0 < p.length := List.length_pos_of_ne_nil hp
  unfold LimitedBuffer.write
  rw [if_neg (by omega), if_neg (by omega)]

theorem writes_fit {writes : List Bytes} {w : LimitedBuffer} (hne : ∀ p ∈ writes, p ≠ [])
    (hfits : w.buffer.length + writes.flatten.length ≤ w.limit) :
    writes.foldl LimitedBuffer.write w = { w with buffer := w.buffer ++ writes.flatten } := by
  induction writes generalizing w with
  | nil => simp
  | cons p writes ih =>
    rw [List.flatten_cons, List.length_append] at hfits
    have hstep := write_fits (hne p List.mem_cons_self) (w := w) (by omega)
    rw [List.foldl_cons, hstep, ih fun q hq => hne q (List.mem_cons_of_mem _ hq)]
    · rw [List.flatten_cons, List.append_assoc]
    · dsimp only
      rw [List.length_append]
      omega

/-! The chunks of a stream. -/

theorem aligned_iff_drop (h : valid (value.take 65536) = true) :
    Aligned value ↔ Aligned (value.drop 65536) := by
  have hnext :
      ∀ k, valid (value.take (65536 * (k + 1))) = valid ((value.drop 65536).take (65536 * k)) := by
    intro k
    rw [Nat.mul_succ, Nat.add_comm, List.take_add, valid_append h]
  constructor
  · intro haligned k
    rw [← hnext]
    exact haligned (k + 1)
  · intro haligned k
    cases k with
    | zero => rfl
    | succ k =>
      rw [hnext]
      exact haligned k

theorem writeStream_nil : writeStream r sent stream [] = (sent, .ok ()) := by
  rw [writeStream]
  rfl

theorem writeStream_step (hne : value ≠ []) : writeStream r sent stream value =
    match r.appendLog stream (value.take 65536) with
    | .error e => (sent ++ [(stream, value.take 65536)], .error e)
    | .ok () => writeStream r (sent ++ [(stream, value.take 65536)]) stream (value.drop 65536) := by
  have hpos : value.length ≠ 0 := fun h => hne (List.length_eq_zero_iff.1 h)
  have htake : value.take (min value.length 65536) = value.take 65536 := by
    rw [List.take_eq_take_iff]
    omega
  have hdrop : value.drop (min value.length 65536) = value.drop 65536 := by
    rcases Nat.le_total value.length 65536 with h | h
    · rw [Nat.min_eq_left h, List.drop_length, List.drop_eq_nil_of_le h]
    · rw [Nat.min_eq_right h]
  have hsize : ¬ 65536 < (value.take 65536).length := by
    rw [List.length_take]
    omega
  rw [writeStream, if_neg hpos, htake, hdrop, loggerWrite, if_neg hsize]
  cases r.appendLog stream (value.take 65536) <;> rfl

theorem writeStream_aligned (r : Reporter) (sent : List (Stream × Bytes)) (stream : Stream)
    (h : Aligned value) : ∃ chunks : List Bytes,
    writeStream r sent stream value = (sent ++ chunks.map fun c => (stream, c), .ok ()) ∧
    (∀ c ∈ chunks, valid c = true ∧ c.length ≤ 65536) ∧ chunks.flatten = value := by
  induction hlen : value.length using Nat.strongRecOn generalizing value sent with
  | _ n ih =>
    by_cases hne : value = []
    · subst hne
      exact ⟨[], by rw [writeStream_nil, List.map_nil, List.append_nil],
        fun c hc => (nomatch hc), rfl⟩
    have hpos : 0 < value.length := List.length_pos_of_ne_nil hne
    have hfirst : valid (value.take 65536) = true := h 1
    have hsize : (value.take 65536).length ≤ 65536 := List.length_take_le _ _
    have hshort : (value.drop 65536).length < n := by
      rw [List.length_drop]
      omega
    have hrest : ∃ chunks : List Bytes,
        writeStream r (sent ++ [(stream, value.take 65536)]) stream (value.drop 65536) =
          (sent ++ [(stream, value.take 65536)] ++ chunks.map fun c => (stream, c), .ok ()) ∧
        (∀ c ∈ chunks, valid c = true ∧ c.length ≤ 65536) ∧ chunks.flatten = value.drop 65536 :=
      ih _ hshort _ ((aligned_iff_drop hfirst).1 h) rfl
    obtain ⟨chunks, hwrite, hchunks, hflat⟩ := hrest
    refine ⟨value.take 65536 :: chunks, ?_, ?_, ?_⟩
    · rw [writeStream_step hne, r.accepts stream _ hfirst hsize]
      dsimp only
      rw [hwrite, List.append_assoc]
      rfl
    · rintro c (_ | ⟨_, hc⟩)
      · exact ⟨hfirst, hsize⟩
      · exact hchunks c hc
    · rw [List.flatten_cons, hflat, List.take_append_drop]

theorem writeStream_not_aligned (r : Reporter) (sent : List (Stream × Bytes)) (stream : Stream)
    (h : ¬ Aligned value) :
    ∃ sent' e, writeStream r sent stream value = (sent', .error e) := by
  induction hlen : value.length using Nat.strongRecOn generalizing value sent with
  | _ n ih =>
    have hne : value ≠ [] := by
      rintro rfl
      exact h fun k => by rw [List.take_nil]; rfl
    have hpos : 0 < value.length := List.length_pos_of_ne_nil hne
    rw [writeStream_step hne]
    cases hfirst : valid (value.take 65536) with
    | false =>
      obtain ⟨e, he⟩ := r.rejects stream _ hfirst
      rw [he]
      exact ⟨_, _, rfl⟩
    | true =>
      rw [r.accepts stream _ hfirst (List.length_take_le _ _)]
      refine ih _ ?_ _ (fun hrest => h ((aligned_iff_drop hfirst).2 hrest)) rfl
      rw [List.length_drop]
      omega

/-! Both streams of a script, and the log of a pod. -/

theorem chunksOf_map (stream : Stream) (sent : List (Stream × Bytes)) (chunks : List Bytes) :
    chunksOf stream (sent ++ chunks.map fun c => (stream, c)) = chunksOf stream sent ++ chunks := by
  simp [chunksOf, List.filter_map, Function.comp_def]

theorem chunksOf_other {other : Stream} (hne : other ≠ stream) (sent : List (Stream × Bytes))
    (chunks : List Bytes) :
    chunksOf stream (sent ++ chunks.map fun c => (other, c)) = chunksOf stream sent := by
  simp [chunksOf, List.filter_map, Function.comp_def, hne]

def ScriptCaptured (r : Reporter) (stdout stderr : List Bytes) : Prop :=
  (finishScript (some r) (.ok ()) stdout stderr).2 = .ok () ∧
    Arrived .stdout stdout.flatten (finishScript (some r) (.ok ()) stdout stderr).1 ∧
    Arrived .stderr stderr.flatten (finishScript (some r) (.ok ()) stdout stderr).1

def PodLogCaptured (r : Reporter) (log : Bytes) : Prop :=
  (writeKubernetesPodLogs (some r) (.log log)).2 = .ok () ∧
    Arrived .stdout log (writeKubernetesPodLogs (some r) (.log log)).1

theorem finishScript_fits {stdout stderr : List Bytes} (hout : ∀ p ∈ stdout, p ≠ [])
    (herr : ∀ p ∈ stderr, p ≠ []) (houtFits : stdout.flatten.length ≤ 1048576)
    (herrFits : stderr.flatten.length ≤ 1048576) :
    finishScript (some r) (.ok ()) stdout stderr =
      writeScriptOutput (some r) stdout.flatten stderr.flatten := by
  have hzero : (({} : LimitedBuffer).buffer).length = 0 := rfl
  have hlimit : ({} : LimitedBuffer).limit = 1048576 := rfl
  unfold finishScript
  rw [writes_fit hout (by rw [hzero, hlimit]; omega),
    writes_fit herr (by rw [hzero, hlimit]; omega)]
  rfl

theorem scriptCaptured_iff {stdout stderr : List Bytes} (hout : ∀ p ∈ stdout, p ≠ [])
    (herr : ∀ p ∈ stderr, p ≠ []) (houtFits : stdout.flatten.length ≤ 1048576)
    (herrFits : stderr.flatten.length ≤ 1048576) :
    ScriptCaptured r stdout stderr ↔ Aligned stdout.flatten ∧ Aligned stderr.flatten := by
  unfold ScriptCaptured
  rw [finishScript_fits hout herr houtFits herrFits]
  unfold writeScriptOutput
  dsimp only
  by_cases hfirst : Aligned stdout.flatten
  · obtain ⟨chunks, hwrite, hchunks, hflat⟩ := writeStream_aligned r [] .stdout hfirst
    rw [hwrite, List.nil_append]
    dsimp only
    by_cases hsecond : Aligned stderr.flatten
    · obtain ⟨chunks', hwrite', hchunks', hflat'⟩ :=
        writeStream_aligned r (chunks.map fun c => (Stream.stdout, c)) .stderr hsecond
      rw [hwrite']
      have hstdout : chunksOf .stdout (chunks.map (fun c => (Stream.stdout, c)) ++
          chunks'.map fun c => (Stream.stderr, c)) = chunks := by
        rw [chunksOf_other (by decide)]
        exact chunksOf_map .stdout [] chunks
      have hstderr : chunksOf .stderr (chunks.map (fun c => (Stream.stdout, c)) ++
          chunks'.map fun c => (Stream.stderr, c)) = chunks' := by
        rw [chunksOf_map]
        exact congrArg (· ++ chunks') (chunksOf_other (by decide) [] chunks)
      refine iff_of_true ⟨rfl, ?_, ?_⟩ ⟨hfirst, hsecond⟩
      · rw [Arrived, hstdout]
        exact ⟨hchunks, hflat⟩
      · rw [Arrived, hstderr]
        exact ⟨hchunks', hflat'⟩
    · obtain ⟨sent', e, hfail⟩ :=
        writeStream_not_aligned r (chunks.map fun c => (Stream.stdout, c)) .stderr hsecond
      rw [hfail]
      exact iff_of_false (fun h => nomatch h.1) fun h => hsecond h.2
  · obtain ⟨sent', e, hfail⟩ := writeStream_not_aligned r [] .stdout hfirst
    rw [hfail]
    exact iff_of_false (fun h => nomatch h.1) fun h => hfirst h.1

theorem podLogCaptured_iff {log : Bytes} (hvalid : valid log = true)
    (hfits : log.length ≤ 1048576) :
    PodLogCaptured r log ↔ log.length ≤ 65536 := by
  unfold PodLogCaptured writeKubernetesPodLogs
  dsimp only
  rw [List.take_of_length_le hfits]
  by_cases hne : 0 < log.length
  · rw [if_pos hne, loggerWrite]
    by_cases hsize : 65536 < log.length
    · rw [if_pos hsize]
      exact iff_of_false (fun h => nomatch h.1) (by omega)
    · rw [if_neg hsize]
      have hle : log.length ≤ 65536 := by omega
      refine iff_of_true ⟨r.accepts .stdout log hvalid hle, ?_, ?_⟩ hle
      · intro chunk hchunk
        obtain rfl : chunk = log := by simpa [chunksOf] using hchunk
        exact ⟨hvalid, hle⟩
      · simp [chunksOf]
  · rw [if_neg hne]
    have hnil : log = [] := List.length_eq_zero_iff.1 (by omega)
    subst hnil
    refine iff_of_true ⟨rfl, fun chunk hchunk => ?_, rfl⟩ (Nat.zero_le _)
    simp [chunksOf] at hchunk

/-- For output that is valid UTF-8 of at most 1 MiB a stream: a script that exits with code 0
succeeds, with its output in chunks that the transport carries, exactly where no character lies
across a multiple of 65536 bytes; a Kubernetes job that completes exactly where the log of its pod
has at most 65536 bytes. A process writes to the buffers in writes that are not empty. -/
theorem output_captured_iff (r : Reporter) :
    (∀ stdout stderr : List Bytes, (∀ p ∈ stdout, p ≠ []) → (∀ p ∈ stderr, p ≠ []) →
      valid stdout.flatten = true → valid stderr.flatten = true →
      stdout.flatten.length ≤ 1048576 → stderr.flatten.length ≤ 1048576 →
      (ScriptCaptured r stdout stderr ↔ Aligned stdout.flatten ∧ Aligned stderr.flatten)) ∧
    ∀ log : Bytes, valid log = true → log.length ≤ 1048576 →
      (PodLogCaptured r log ↔ log.length ≤ 65536) :=
  ⟨fun _ _ hout herr _ _ houtFits herrFits => scriptCaptured_iff hout herr houtFits herrFits,
    fun _ hvalid hfits => podLogCaptured_iff hvalid hfits⟩

def plainReporter : Reporter where
  appendLog _ content := if valid content then .ok () else .error .report
  accepts _ _ hvalid _ := by rw [if_pos hvalid]
  rejects _ _ hinvalid := ⟨.report, by rw [if_neg (by rw [hinvalid]; decide)]⟩

theorem aligned_of_length_le {output : Bytes} (hvalid : valid output = true)
    (hlen : output.length ≤ 65536) : Aligned output := by
  intro k
  cases k with
  | zero => rfl
  | succ k => rwa [List.take_of_length_le (by omega)]

theorem output_captured_plain :
    ScriptCaptured plainReporter [[0x6F, 0x6B]] [] ∧ PodLogCaptured plainReporter [0x6F, 0x6B] :=
  ⟨((output_captured_iff plainReporter).1 [[0x6F, 0x6B]] [] (by decide) (by decide) (by decide)
      (by decide) (by decide) (by decide)).2
      ⟨aligned_of_length_le (by decide) (by decide), aligned_of_length_le (by decide) (by decide)⟩,
    ((output_captured_iff plainReporter).2 [0x6F, 0x6B] (by decide) (by decide)).2 (by decide)⟩

def splitText : Bytes := List.replicate 65535 0x61 ++ [0xC3, 0xA9]

theorem splitText_head_valid : valid (List.replicate 65535 (0x61 : UInt8)) = true :=
  valid_of_ascii fun b hb => by
    rw [List.eq_of_mem_replicate hb]
    decide

/-- The script fails because of a character on the boundary, the job because of the size of its
log. -/
theorem output_not_captured :
    valid splitText = true ∧ splitText.length ≤ 1048576 ∧
    ¬ ScriptCaptured plainReporter [splitText] [] ∧
    valid (List.replicate 65537 (0x61 : UInt8)) = true ∧
    ¬ PodLogCaptured plainReporter (List.replicate 65537 0x61) := by
  have hlen : splitText.length = 65537 := by
    rw [splitText, List.length_append, List.length_replicate]
    rfl
  have hvalid : valid (List.replicate 65537 (0x61 : UInt8)) = true :=
    valid_of_ascii fun b hb => by
      rw [List.eq_of_mem_replicate hb]
      decide
  refine ⟨?_, by omega, ?_, hvalid, ?_⟩
  · rw [splitText, valid_append splitText_head_valid]
    decide
  · have hflat : [splitText].flatten = splitText := List.append_nil _
    rw [scriptCaptured_iff (fun p hp => ?_) (by simp) (by rw [hflat]; omega) (by simp), hflat]
    · rintro ⟨haligned, -⟩
      have hcut : splitText.take (65536 * 1) = List.replicate 65535 0x61 ++ [0xC3] := by
        rw [splitText, List.take_append, List.length_replicate,
          List.take_of_length_le (by rw [List.length_replicate]; omega)]
        rfl
      have hfirst := haligned 1
      rw [hcut, valid_append splitText_head_valid] at hfirst
      revert hfirst
      decide
    · rw [List.mem_singleton.1 hp]
      intro hnil
      rw [hnil] at hlen
      cases hlen
  · rw [podLogCaptured_iff hvalid (by rw [List.length_replicate]; omega), List.length_replicate]
    omega

end GoScheduler.Executor
