import GoScheduler.Keyset
import GoScheduler.Text.Base64
import GoScheduler.Text.Rfc3339
import GoScheduler.Text.Uuid
import Mathlib.Data.Prod.Lex

/-! The history of deliveries page by page: `ListHistory` of internal/core/notification_service.go,
its cursor in internal/core/notifications.go and the query `NotificationHistory` of
internal/store/outbox.go, over tables that stay as they are. The text of an identifier is cast to
`uuid` by the database. -/
namespace GoScheduler.Notification.History
open Text

abbrev UUID : Type := Fin (2 ^ 128)

structure Timestamp where
  time : Time
  utc : time.offset = 0
  micro : time.nanosecond.val % 1000 = 0
deriving DecidableEq

section Cursor

structure Payload where
  version : Int
  createdAt : Bytes
  id : Bytes
deriving DecidableEq

/-- What `json.Unmarshal` and `time.Parse` make of a text that `json.Marshal` or `Format` has not
written. -/
structure Lib where
  unmarshal : Bytes → Option Payload
  parseTime : Bytes → Option Time

/-- A reader that inverts `write` through `read` and takes any other text as `other` does. -/
def readBack {α : Type} (write : α → Bytes) (read other : Bytes → Option α) (s : Bytes) :
    Option α :=
  match read s with
  | some a => if write a = s then some a else other s
  | none => other s

theorem readBack_write {α : Type} {write : α → Bytes} {read : Bytes → Option α} {a : α}
    (h : read (write a) = some a) (other : Bytes → Option α) :
    readBack write read other (write a) = some a := by
  simp [readBack, h]

def marshal (p : Payload) : Bytes :=
  bytes "\x7b\"v\":" ++ (bytes (toString p.version) ++ (bytes ",\"created_at\":\"" ++
    (quote p.createdAt ++
      (0x22 :: (bytes ",\"id\":\"" ++ (quote p.id ++ (0x22 :: bytes "\x7d")))))))

def readPayload (s : Bytes) : Option Payload := do
  let s ← expect (bytes "\x7b\"v\":") s
  let s ← expect (bytes "1") s
  let s ← expect (bytes ",\"created_at\":\"") s
  let (createdAt, s) ← unquote s
  let s ← expect (bytes ",\"id\":\"") s
  let (id, s) ← unquote s
  if s = bytes "\x7d" then some ⟨1, createdAt, id⟩ else none

variable (lib : Lib)

def unmarshal : Bytes → Option Payload := readBack marshal readPayload lib.unmarshal

def parseTime : Bytes → Option Time := readBack Time.formatNano Time.parse lib.parseTime

def encodeNotificationHistoryCursor (createdAt : Time) (id : Bytes) : Bytes :=
  Base64.encode (marshal ⟨1, createdAt.formatNano, id⟩)

def decodeNotificationHistoryCursor (raw : Bytes) : Except String (Option (Time × Bytes)) :=
  if raw = [] then .ok none
  else if raw.length > 512 then .error "cursor is too long"
  else
    match Base64.decode raw with
    | none => .error "decode cursor"
    | some payloadBytes =>
        match unmarshal lib payloadBytes with
        | none => .error "decode cursor payload"
        | some payload =>
            if payload.version ≠ 1 ∨ Uuid.validate payload.id = false then
              .error "decode cursor payload"
            else
              match parseTime lib payload.createdAt with
              | none => .error "decode cursor timestamp"
              | some createdAt =>
                  if createdAt.isZero then .error "decode cursor timestamp"
                  else .ok (some (createdAt, payload.id))

end Cursor

structure Delivery where
  id : UUID
  eventID : UUID
  channelID : UUID
  status : Bytes
  attempts : ℕ
  lastError : Option Bytes
  createdAt : Timestamp
  deliveredAt : Option Timestamp
  deadAt : Option Timestamp

structure Event where
  tenantID : UUID
  topic : Bytes
  jobID : Option Bytes
  runID : Option Bytes

structure Channel where
  name : Bytes
  kind : Bytes

structure Tables where
  deliveries : List Delivery
  event : UUID → Option Event
  channel : UUID → Option Channel
  distinct : (deliveries.map Delivery.id).Nodup

structure Row where
  delivery : Delivery
  event : Event
  channel : Channel

/-- `(d.created_at, d.id)`: microseconds and the number of the UUID, compared in this order. -/
abbrev Key : Type := ℤ ×ₗ ℕ

def micros (t : Time) : ℤ := t.instant / 1000

def Row.key (r : Row) : Key := toLex (micros r.delivery.createdAt.time, r.delivery.id.val)

def Tables.rows (t : Tables) : List Row := t.deliveries.filterMap fun d =>
  (t.event d.eventID).bind fun e => (t.channel d.channelID).map fun n => ⟨d, e, n⟩

structure Filter where
  tenantID : ℕ
  channelID : Option ℕ
  jobID : Bytes
  status : Bytes
deriving DecidableEq

def Filter.Matches (f : Filter) (r : Row) : Prop :=
  r.event.tenantID.val = f.tenantID ∧ (∀ c ∈ f.channelID, r.delivery.channelID.val = c) ∧
    (f.jobID = [] ∨ r.event.jobID = some f.jobID) ∧
    (f.status = [] ∨ r.delivery.status = f.status)

instance (f : Filter) (r : Row) : Decidable (f.Matches r) :=
  inferInstanceAs (Decidable (_ ∧ _))

def Tables.matching (t : Tables) (f : Filter) : List Row := t.rows.filter fun r => f.Matches r

structure NotificationHistoryEntry where
  deliveryID : Bytes
  eventID : Bytes
  channelID : Bytes
  channelName : Bytes
  channelKind : Bytes
  topic : Bytes
  jobID : Bytes
  runID : Bytes
  status : Bytes
  attempts : ℕ
  lastError : Bytes
  createdAt : Time
  deliveredAt : Option Time
  deadAt : Option Time
deriving DecidableEq

def Row.scan (r : Row) : NotificationHistoryEntry where
  deliveryID := Uuid.text r.delivery.id
  eventID := Uuid.text r.delivery.eventID
  channelID := Uuid.text r.delivery.channelID
  channelName := r.channel.name
  channelKind := r.channel.kind
  topic := r.event.topic
  jobID := r.event.jobID.getD []
  runID := r.event.runID.getD []
  status := r.delivery.status
  attempts := r.delivery.attempts
  lastError := r.delivery.lastError.getD []
  createdAt := r.delivery.createdAt.time
  deliveredAt := r.delivery.deliveredAt.map Timestamp.time
  deadAt := r.delivery.deadAt.map Timestamp.time

def castFilter (tenantID channelID jobID status : Bytes) : Option Filter :=
  (Uuid.read tenantID).bind fun tenant =>
    if channelID = [] then some ⟨tenant, none, jobID, status⟩
    else (Uuid.read channelID).map fun channel => ⟨tenant, some channel, jobID, status⟩

def castCursor : Option (Time × Bytes) → Option (Option Key)
  | none => some none
  | some (createdAt, id) => (Uuid.read id).map fun id => some (toLex (micros createdAt, id))

/-- `NotificationHistory`; none where a cast fails. -/
def notificationHistory (t : Tables) (tenantID channelID jobID status : Bytes)
    (before : Option (Time × Bytes)) (limit : ℕ) : Option (List NotificationHistoryEntry) :=
  (castFilter tenantID channelID jobID status).bind fun f =>
    (castCursor before).map fun cursor =>
      (Keyset.page Row.key cursor limit (t.matching f)).map Row.scan

structure NotificationHistoryInput where
  tenantID : Bytes
  channelID : Bytes
  jobID : Bytes
  status : Bytes
  cursor : Bytes
  limit : Int

structure NotificationHistoryResult where
  entries : List NotificationHistoryEntry
  nextCursor : Bytes
deriving DecidableEq

inductive HistoryError where
  | validation (message : String)
  | query
deriving DecidableEq

def nextCursor (entries : List NotificationHistoryEntry) : Bytes :=
  match entries.getLast? with
  | none => []
  | some last => encodeNotificationHistoryCursor last.createdAt last.deliveryID

def listHistory (lib : Lib) (t : Tables) (input : NotificationHistoryInput) :
    Except HistoryError NotificationHistoryResult :=
  if input.tenantID = [] then .error (.validation "tenant_id is required")
  else if input.channelID ≠ [] ∧ Uuid.validate input.channelID = false then
    .error (.validation "channel_id must be a UUID")
  else if input.jobID ≠ [] ∧ Uuid.validate input.jobID = false then
    .error (.validation "job_id must be a UUID")
  else if input.status ≠ [] ∧ input.status ≠ bytes "pending" ∧ input.status ≠ bytes "delivered" ∧
      input.status ≠ bytes "dead" then
    .error (.validation "status must be pending, delivered, or dead")
  else
    let limit := if input.limit = 0 then 100 else input.limit
    if limit < 1 ∨ limit > 500 then .error (.validation "limit must be between 1 and 500")
    else
      match decodeNotificationHistoryCursor lib input.cursor with
      | .error _ => .error (.validation "invalid notification history cursor")
      | .ok cursor =>
          match notificationHistory t input.tenantID input.channelID input.jobID input.status cursor
              (limit.toNat + 1) with
          | none => .error .query
          | some entries =>
              if entries.length > limit.toNat then
                .ok ⟨entries.take limit.toNat, nextCursor (entries.take limit.toNat)⟩
              else .ok ⟨entries, []⟩

/-- A client that asks for the next page until the cursor is empty; none where a request fails or
`n` requests do not suffice. -/
def follow (list : Bytes → ℕ → Except HistoryError NotificationHistoryResult) :
    ℕ → (ℕ → ℕ) → Bytes → Option (List NotificationHistoryEntry)
  | 0, _, _ => none
  | n + 1, sizes, cursor =>
      match list cursor (sizes 0) with
      | .error _ => none
      | .ok result =>
          if result.nextCursor = [] then some result.entries
          else (follow list n (fun i => sizes (i + 1)) result.nextCursor).map (result.entries ++ ·)

section Codec

theorem isPlain_digits (k n : ℕ) : (digits k n).all isPlain = true := by
  have hdigit : ∀ d < 10, isPlain (UInt8.ofNat (48 + d)) = true := by decide
  induction k with
  | zero => rfl
  | succ k ih => rw [digits, List.all_cons, hdigit _ (Nat.mod_lt _ (by omega)), ih, Bool.and_self]

theorem trimZeros_sublist (s : Bytes) : (trimZeros s).Sublist s := by
  induction s with
  | nil => exact .slnil
  | cons b s ih =>
    rw [trimZeros]
    split
    · exact List.nil_sublist _
    · exact ih.cons_cons b

theorem isPlain_fraction (n : ℕ) : (fraction n).all isPlain = true := by
  rw [fraction]
  split
  · rfl
  · rw [List.all_cons, List.all_eq_true.2 fun b hb =>
      List.all_eq_true.1 (isPlain_digits 9 n) b ((trimZeros_sublist _).subset hb)]
    rfl

theorem isPlain_text (id : UUID) : (Uuid.text id).all isPlain = true := by
  have hfrom : ∀ k n, (Uuid.textFrom k n).all isPlain = true := by
    intro k n
    induction k with
    | zero => rfl
    | succ k ih =>
      rw [Uuid.textFrom, List.all_cons, List.all_cons, List.all_append,
        isPlain_hexDigit _ (Nat.mod_lt _ (by omega)), isPlain_hexDigit _ (Nat.mod_lt _ (by omega)),
        ih]
      split <;> rfl
  exact hfrom 16 id

@[simp] theorem length_digits (k n : ℕ) : (digits k n).length = k := by
  induction k with
  | zero => rfl
  | succ k ih => rw [digits, List.length_cons, ih]

theorem length_fraction_le (n : ℕ) : (fraction n).length ≤ 10 := by
  rw [fraction]
  split
  · exact Nat.zero_le _
  · have hle := (trimZeros_sublist (digits 9 n)).length_le
    rw [length_digits] at hle
    rw [List.length_cons]
    omega

variable {createdAt : Time}

theorem isPlain_formatNano (hmin : 0 ≤ createdAt.year) (hmax : createdAt.year ≤ 9999)
    (hutc : createdAt.offset = 0) : createdAt.formatNano.all isPlain = true := by
  have hzone : (zone 0).all isPlain = true := by decide
  have hpunct : isPlain 45 = true ∧ isPlain 84 = true ∧ isPlain 58 = true := by decide
  simp only [Time.formatNano, Time.yearDigits_of_le hmin hmax, hutc, List.all_append,
    List.all_cons, isPlain_digits, isPlain_fraction, hzone, hpunct, Bool.and_self]

theorem length_formatNano_le (hmin : 0 ≤ createdAt.year) (hmax : createdAt.year ≤ 9999)
    (hutc : createdAt.offset = 0) : createdAt.formatNano.length ≤ 30 := by
  have hfraction := length_fraction_le createdAt.nanosecond
  have hzone : (zone 0).length = 1 := rfl
  simp only [Time.formatNano, Time.yearDigits_of_le hmin hmax, hutc, List.length_append,
    List.length_cons, length_digits, hzone]
  omega

theorem readPayload_marshal {text id : Bytes} (htext : text.all isPlain = true)
    (hid : id.all isPlain = true) :
    readPayload (marshal ⟨1, text, id⟩) = some ⟨1, text, id⟩ := by
  have hversion : bytes (toString (1 : Int)) = bytes "1" := rfl
  simp only [readPayload, marshal, hversion, expect_append, quote_of_isPlain htext,
    quote_of_isPlain hid, unquote_of_isPlain htext, unquote_of_isPlain hid, bind, Option.bind,
    if_true]

theorem encode_ne_nil (createdAt : Time) (id : Bytes) :
    encodeNotificationHistoryCursor createdAt id ≠ [] := by
  intro h
  have hdecode := Base64.decode_encode (marshal ⟨1, createdAt.formatNano, id⟩)
  rw [← encodeNotificationHistoryCursor, h] at hdecode
  cases hdecode

theorem decode_encode (lib : Lib) (hmin : 0 ≤ createdAt.year) (hmax : createdAt.year ≤ 9999)
    (hutc : createdAt.offset = 0) (id : UUID) :
    decodeNotificationHistoryCursor lib
        (encodeNotificationHistoryCursor createdAt (Uuid.text id)) =
      if createdAt.isZero then .error "decode cursor timestamp"
      else .ok (some (createdAt, Uuid.text id)) := by
  have htext := isPlain_formatNano hmin hmax hutc
  have hplain := isPlain_text id
  have hlength : (marshal ⟨1, createdAt.formatNano, Uuid.text id⟩).length ≤ 120 := by
    have hformat := length_formatNano_le hmin hmax hutc
    have hid := Uuid.length_text id
    have hparts : (bytes "\x7b\"v\":").length = 5 ∧ (bytes (toString (1 : Int))).length = 1 ∧
        (bytes ",\"created_at\":\"").length = 15 ∧ (bytes ",\"id\":\"").length = 7 ∧
        (bytes "\x7d").length = 1 := by decide
    simp only [marshal, quote_of_isPlain htext, quote_of_isPlain hplain, List.length_append,
      List.length_cons, hparts, hid]
    omega
  have hraw := Base64.length_encode_le (marshal ⟨1, createdAt.formatNano, Uuid.text id⟩)
  have hpayload : unmarshal lib (marshal ⟨1, createdAt.formatNano, Uuid.text id⟩) =
      some ⟨1, createdAt.formatNano, Uuid.text id⟩ :=
    readBack_write (readPayload_marshal htext hplain) _
  have htime : parseTime lib createdAt.formatNano = some createdAt :=
    readBack_write (Time.parse_formatNano hmin hmax hutc) _
  rw [decodeNotificationHistoryCursor, if_neg (encode_ne_nil _ _),
    encodeNotificationHistoryCursor, if_neg (by omega), Base64.decode_encode]
  simp [hpayload, htime, Uuid.validate_text]

end Codec

section Paging

/-- The creation times that a cursor can hold: years of four digits, without the zero time. -/
def Representable (t : Timestamp) : Prop :=
  0 ≤ t.time.year ∧ t.time.year ≤ 9999 ∧ t.time.isZero = false

instance (t : Timestamp) : Decidable (Representable t) := inferInstanceAs (Decidable (_ ∧ _))

/-- Filters that `ListHistory` lets through and whose casts succeed, with what they are cast to. -/
structure Accepts (input : NotificationHistoryInput) (f : Filter) : Prop where
  channel : input.channelID = [] ∨ Uuid.validate input.channelID = true
  job : input.jobID = [] ∨ Uuid.validate input.jobID = true
  status : input.status ∈ [[], bytes "pending", bytes "delivered", bytes "dead"]
  cast : castFilter input.tenantID input.channelID input.jobID input.status = some f

variable {lib : Lib} {t : Tables} {input : NotificationHistoryInput} {f : Filter}
  {cursor : Option Key} {raw : Bytes} {limit : ℕ}

def Denotes (lib : Lib) (raw : Bytes) (cursor : Option Key) : Prop :=
  ∃ decoded, decodeNotificationHistoryCursor lib raw = .ok decoded ∧
    castCursor decoded = some cursor

theorem denotes_nil (lib : Lib) : Denotes lib [] none := ⟨none, rfl, rfl⟩

theorem denotes_encode (lib : Lib) {r : Row} (h : Representable r.delivery.createdAt) :
    Denotes lib (encodeNotificationHistoryCursor r.scan.createdAt r.scan.deliveryID)
      (some r.key) := by
  obtain ⟨hmin, hmax, hzero⟩ := h
  refine ⟨some (r.delivery.createdAt.time, Uuid.text r.delivery.id), ?_, ?_⟩
  · exact (decode_encode lib hmin hmax r.delivery.createdAt.utc r.delivery.id).trans
      (if_neg (by simp [hzero]))
  · rw [castCursor, Uuid.read_text]
    rfl

theorem Tables.nodup_matching (t : Tables) (f : Filter) : ((t.matching f).map Row.key).Nodup := by
  have hjoin : ∀ ds : List Delivery, ((ds.filterMap fun d => (t.event d.eventID).bind fun e =>
      (t.channel d.channelID).map fun n => (⟨d, e, n⟩ : Row)).map fun r => r.delivery.id).Sublist
        (ds.map Delivery.id) := by
    intro ds
    induction ds with
    | nil => exact .slnil
    | cons d ds ih =>
      rw [List.filterMap_cons]
      cases t.event d.eventID with
      | none => exact ih.cons _
      | some e =>
        cases t.channel d.channelID with
        | none => exact ih.cons _
        | some n => exact ih.cons_cons _
  have hids : ((t.matching f).map fun r => r.delivery.id).Nodup :=
    t.distinct.sublist ((List.filter_sublist.map _).trans (hjoin t.deliveries))
  refine List.Nodup.of_map (fun k : Key => (ofLex k).2) ?_
  rw [List.map_map]
  have hval := hids.map Fin.val_injective
  rwa [List.map_map] at hval

/-- What an accepted request returns: a page of the matching rows, and the cursor after it where
there are more. -/
theorem listHistory_eq (haccepts : Accepts input f) (hraw : Denotes lib raw cursor)
    (hmin : 1 ≤ limit) (hmax : limit ≤ 500) :
    listHistory lib t { input with cursor := raw, limit := limit } =
      let found := Keyset.fetch Row.key cursor limit (t.matching f)
      .ok ⟨found.1.map Row.scan, if found.2 then nextCursor (found.1.map Row.scan) else []⟩ := by
  obtain ⟨decoded, hdecode, hcursor⟩ := hraw
  have htenant : input.tenantID ≠ [] := by
    intro h
    have hcast := haccepts.cast
    rw [h] at hcast
    cases hcast
  have hquery : notificationHistory t input.tenantID input.channelID input.jobID input.status
      decoded (limit + 1) =
        some ((Keyset.page Row.key cursor (limit + 1) (t.matching f)).map Row.scan) := by
    rw [notificationHistory, haccepts.cast, hcursor]
    rfl
  have hchannel : ¬ (input.channelID ≠ [] ∧ Uuid.validate input.channelID = false) := by
    rintro ⟨hne, hfalse⟩
    rcases haccepts.channel with h | h
    · exact hne h
    · simp [hfalse] at h
  have hjob : ¬ (input.jobID ≠ [] ∧ Uuid.validate input.jobID = false) := by
    rintro ⟨hne, hfalse⟩
    rcases haccepts.job with h | h
    · exact hne h
    · simp [hfalse] at h
  have hstatus : ¬ (input.status ≠ [] ∧ input.status ≠ bytes "pending" ∧
      input.status ≠ bytes "delivered" ∧ input.status ≠ bytes "dead") := by
    rintro ⟨h₁, h₂, h₃, h₄⟩
    simpa [h₁, h₂, h₃, h₄] using haccepts.status
  have hlimit : (limit : Int) ≠ 0 := by omega
  have hrange : ¬ ((limit : Int) < 1 ∨ (limit : Int) > 500) := by omega
  simp only [listHistory, if_neg htenant, if_neg hchannel, if_neg hjob, if_neg hstatus,
    if_neg hlimit, if_neg hrange, hdecode, Int.toNat_natCast, hquery, List.length_map,
    Keyset.fetch]
  split
  · simp only [List.map_take, if_true]
  · simp only [Bool.false_eq_true, if_false]

theorem follow_eq (haccepts : Accepts input f)
    (htimes : ∀ r ∈ t.matching f, Representable r.delivery.createdAt) (n : ℕ) (sizes : ℕ → ℕ)
    (hsizes : ∀ i, 1 ≤ sizes i ∧ sizes i ≤ 500) (hraw : Denotes lib raw cursor)
    (hn : (Keyset.descending Row.key (Keyset.below Row.key cursor (t.matching f))).length < n) :
    follow (fun raw limit => listHistory lib t { input with cursor := raw, limit := limit }) n
        sizes raw =
      some ((Keyset.descending Row.key (Keyset.below Row.key cursor (t.matching f))).map
        Row.scan) := by
  induction n generalizing sizes raw cursor with
  | zero => exact absurd hn (Nat.not_lt_zero _)
  | succ n ih =>
    have hmem : ∀ r ∈ Keyset.descending Row.key (Keyset.below Row.key cursor (t.matching f)),
        r ∈ t.matching f := fun r hr =>
      List.mem_of_mem_filter ((Keyset.perm_descending Row.key _).mem_iff.1 hr)
    have hfetched := Keyset.fetched (t.nodup_matching f) (hsizes 0).1 cursor
    rw [follow, listHistory_eq haccepts hraw (hsizes 0).1 (hsizes 0).2]
    generalize Keyset.fetch Row.key cursor (sizes 0) (t.matching f) = found at hfetched ⊢
    generalize Keyset.descending Row.key (Keyset.below Row.key cursor (t.matching f)) = rest
      at hfetched hn hmem ⊢
    cases hfetched with
    | last => rfl
    | more front last rest _ hrest =>
      have hcursor : nextCursor ((front ++ [last]).map Row.scan) =
          encodeNotificationHistoryCursor last.scan.createdAt last.scan.deliveryID := by
        simp [nextCursor]
      have hnext := denotes_encode lib (htimes last (hmem last (by simp)))
      have hstep := ih (fun i => sizes (i + 1)) (fun i => hsizes (i + 1)) hnext (by
        rw [hrest]
        rw [List.length_append, List.length_cons] at hn
        omega)
      rw [hrest] at hstep
      simp only [if_true, hcursor, if_neg (encode_ne_nil _ _), hstep, Option.map_some]
      simp

end Paging

/-- Following the cursors from the empty one yields the deliveries that match, each of them once
and the newest first, whatever the sizes of the pages, as long as their creation times fit into a
cursor; and such a cursor is read back. -/
theorem history_paging_complete (lib : Lib) (t : Tables) (input : NotificationHistoryInput)
    (f : Filter) (sizes : ℕ → ℕ) (haccepts : Accepts input f)
    (htimes : ∀ r ∈ t.matching f, Representable r.delivery.createdAt)
    (hsizes : ∀ i, 1 ≤ sizes i ∧ sizes i ≤ 500) :
    (∃ (n : ℕ) (rows : List Row), rows.Perm (t.matching f) ∧
      rows.Pairwise (fun a b => b.key < a.key) ∧
      follow (fun raw limit => listHistory lib t { input with cursor := raw, limit := limit }) n
        sizes [] = some (rows.map Row.scan)) ∧
    ∀ (createdAt : Timestamp) (id : UUID), Representable createdAt →
      decodeNotificationHistoryCursor lib
          (encodeNotificationHistoryCursor createdAt.time (Uuid.text id)) =
        .ok (some (createdAt.time, Uuid.text id)) := by
  constructor
  · have hall : Keyset.below Row.key none (t.matching f) = t.matching f := by
      simp [Keyset.below]
    have hfollow := follow_eq haccepts htimes _ sizes hsizes (denotes_nil lib)
      (Nat.lt_succ_self _)
    rw [hall] at hfollow
    exact ⟨_, _, Keyset.perm_descending Row.key _,
      Keyset.pairwise_descending (t.nodup_matching f), hfollow⟩
  · intro createdAt id h
    exact (decode_encode lib h.1 h.2.1 createdAt.utc id).trans (if_neg (by simp [h.2.2]))

section Samples

def twins (createdAt : Timestamp) : Tables where
  deliveries := [⟨⟨1, by decide⟩, ⟨0, by decide⟩, ⟨0, by decide⟩, bytes "pending", 0, none,
      createdAt, none, none⟩,
    ⟨⟨2, by decide⟩, ⟨0, by decide⟩, ⟨0, by decide⟩, bytes "dead", 8, some (bytes "timeout"),
      createdAt, none, some createdAt⟩]
  event _ := some ⟨⟨0, by decide⟩, bytes "run.failed", none, none⟩
  channel _ := some ⟨bytes "operations", bytes "webhook"⟩
  distinct := by simp

def allOfTenant : NotificationHistoryInput :=
  ⟨Uuid.text ⟨0, by decide⟩, [], [], [], [], 0⟩

theorem accepts_allOfTenant : Accepts allOfTenant ⟨0, none, [], []⟩ where
  channel := .inl rfl
  job := .inl rfl
  status := by simp [allOfTenant]
  cast := by
    rw [castFilter, allOfTenant, Uuid.read_text]
    rfl

theorem follow_of_decode_error {lib : Lib} {t : Tables} {input : NotificationHistoryInput}
    {raw : Bytes} {e : String} (h : decodeNotificationHistoryCursor lib raw = .error e) (n : ℕ)
    (sizes : ℕ → ℕ) :
    follow (fun raw limit => listHistory lib t { input with cursor := raw, limit := limit }) n
      sizes raw = none := by
  cases n with
  | zero => rfl
  | succ n =>
    have hfails : ∃ e', listHistory lib t { input with cursor := raw, limit := sizes 0 } =
        .error e' := by
      simp only [listHistory, h]
      split_ifs <;> exact ⟨_, rfl⟩
    obtain ⟨e', hfails⟩ := hfails
    rw [follow, hfails]

end Samples

theorem history_paging_complete_twins :
    ∃ (n : ℕ) (rows : List Row),
      rows.Perm ((twins ⟨Time.newYear 2026, rfl, rfl⟩).matching ⟨0, none, [], []⟩) ∧
      rows.Pairwise (fun a b => b.key < a.key) ∧
      follow (fun raw limit => listHistory ⟨fun _ => none, fun _ => none⟩
        (twins ⟨Time.newYear 2026, rfl, rfl⟩) { allOfTenant with cursor := raw, limit := limit }) n
        (fun _ => 1) [] = some (rows.map Row.scan) :=
  (history_paging_complete _ _ allOfTenant _ (fun _ => 1) accepts_allOfTenant (by decide)
    (by simp)).1

/-- Between two deliveries of the first instant of the year 1 the cursor is refused. A channel in
the form `urn:uuid:` passes the check of the service and not the cast. -/
theorem history_paging_stops :
    (¬ ∃ (n : ℕ) (entries : List NotificationHistoryEntry),
      follow (fun raw limit => listHistory ⟨fun _ => none, fun _ => none⟩
        (twins ⟨Time.newYear 1, rfl, rfl⟩) { allOfTenant with cursor := raw, limit := limit }) n
        (fun _ => 1) [] = some entries) ∧
    listHistory ⟨fun _ => none, fun _ => none⟩ (twins ⟨Time.newYear 2026, rfl, rfl⟩)
      { allOfTenant with channelID := bytes "urn:uuid:" ++ Uuid.text ⟨0, by decide⟩ } =
        .error .query := by
  constructor
  · rintro ⟨n, entries, h⟩
    cases n with
    | zero => cases h
    | succ n =>
      have hfound : (Keyset.fetch Row.key none 1
          ((twins ⟨Time.newYear 1, rfl, rfl⟩).matching ⟨0, none, [], []⟩)).2 = true := by
        decide +kernel
      have hcursor : nextCursor ((Keyset.fetch Row.key none 1
          ((twins ⟨Time.newYear 1, rfl, rfl⟩).matching ⟨0, none, [], []⟩)).1.map Row.scan) =
            encodeNotificationHistoryCursor (Time.newYear 1) (Uuid.text ⟨2, by decide⟩) := by
        decide +kernel
      have hrefused := (decode_encode ⟨fun _ => none, fun _ => none⟩ (by decide) (by decide) rfl
        ⟨2, by decide⟩).trans (if_pos (by decide : (Time.newYear 1).isZero = true))
      rw [follow, listHistory_eq accepts_allOfTenant (denotes_nil _) le_rfl (by decide)] at h
      simp only [hfound, if_true, hcursor, if_neg (encode_ne_nil _ _),
        follow_of_decode_error hrefused] at h
      cases h
  · decide +kernel

end GoScheduler.Notification.History
