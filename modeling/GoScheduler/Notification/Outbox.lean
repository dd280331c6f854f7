import GoScheduler.Queue.Lease
import GoScheduler.ReadCommitted.Triples
import GoScheduler.Text.Utf8
import Mathlib.Data.List.Sort

/-! The outbox and its deliveries: the channel operations, `PrepareNotificationDeliveries`
and the leased queue of internal/store/outbox.go, statement by statement. A statement that
takes its snapshot and then visits rows is written as a query followed by the rows, each
with the condition that is checked again after waiting. A delivery is known by its event
and its channel, which are unique together. What a channel sends to (kind, name,
configuration and its encryption) and the payload of an event apart from its job are not
modelled. The key `sweep` records which events a sweep of a channel has found; no
statement reads it. -/
namespace GoScheduler.Notification
open ReadCommitted Schedule Queue
open Text (Bytes toValidUTF8)

structure NotificationChannel where
  tenantID : ℕ
  events : List String
  allJobs : Bool
  maxAttempts : ℕ
  backoffInitialSeconds : ℕ
  backoffMaxSeconds : ℕ
  enabled : Bool := true
  version : ℕ := 1
  deletedAt : Option Int := none
deriving DecidableEq, Repr

/-- The job is `none` where the payload has no `job_id` that is a UUID. -/
structure OutboxEvent where
  tenantID : ℕ
  topic : String
  jobID : Option ℕ
  availableAt : Int
  publishedAt : Option Int := none
  lockedBy : Option String := none
  lockedUntil : Option Int := none
  lastError : Option String := none
deriving DecidableEq, Repr

structure NotificationDelivery where
  lease : Leased
  lastError : Option Bytes := none
  deliveredAt : Option Int := none
  deadAt : Option Int := none
deriving DecidableEq, Repr

inductive Key where
  | job (id : ℕ)
  | channel (id : ℕ)
  | channelJob (channelID jobID : ℕ)
  | event (id : ℕ)
  | delivery (eventID channelID : ℕ)
  | sweep (eventID serial : ℕ)
deriving DecidableEq, Repr

abbrev Row : Key → Type
  | .job _ => ℕ
  | .channel _ => NotificationChannel
  | .channelJob _ _ => Unit
  | .event _ => OutboxEvent
  | .delivery _ _ => NotificationDelivery
  | .sweep _ _ => Unit

inductive NotificationError where
  | notFound
  | conflict
  | invalidNotificationScope
  | notificationLeaseLost
  | duplicateKey
deriving DecidableEq, Repr

abbrev Db : Type := Database Key Row
abbrev Tx (α : Type) : Type 1 := Program Key Row NotificationError α

section Tables

def channels (d : Db) : List (ℕ × NotificationChannel) := d.keys.filterMap fun
  | .channel id => (d.row (.channel id)).map (id, ·)
  | _ => none

def events (d : Db) : List (ℕ × OutboxEvent) := d.keys.filterMap fun
  | .event id => (d.row (.event id)).map (id, ·)
  | _ => none

def deliveries (d : Db) : List (ℕ × ℕ × NotificationDelivery) := d.keys.filterMap fun
  | .delivery e c => (d.row (.delivery e c)).map (e, c, ·)
  | _ => none

def channelJobs (channelID : ℕ) (d : Db) : List ℕ := d.keys.filterMap fun
  | .channelJob c j => if c = channelID then (d.row (.channelJob c j)).map fun _ => j else none
  | _ => none

variable {d : Db} {e c : ℕ}

theorem mem_deliveries {x : NotificationDelivery} : (e, c, x) ∈ deliveries d ↔
    Key.delivery e c ∈ d.keys ∧ d.row (.delivery e c) = some x := by
  unfold deliveries
  rw [List.mem_filterMap]
  constructor
  · rintro ⟨k, hk, hn⟩
    cases k with
    | delivery e' c' =>
      obtain ⟨n', hn', he⟩ := Option.map_eq_some_iff.1 hn
      cases he
      exact ⟨hk, hn'⟩
    | _ => cases hn
  · rintro ⟨hk, hn⟩
    exact ⟨_, hk, by simp [hn]⟩

end Tables

section Rows

def OutboxEvent.publish (now : Int) (e : OutboxEvent) : OutboxEvent :=
  { e with publishedAt := some now, lockedBy := none, lockedUntil := none, lastError := none }

def OutboxEvent.unpublished (now : Int) (e : OutboxEvent) : Bool :=
  e.publishedAt.isNone && decide (e.availableAt ≤ now)

/-- The condition of `matchingNotificationChannelIDs` on a channel; `bound` says that the
job of the event is bound to the channel. -/
def NotificationChannel.matches (e : OutboxEvent) (bound : Bool) (n : NotificationChannel) :
    Bool :=
  n.tenantID == e.tenantID && n.enabled && n.deletedAt.isNone && n.events.contains e.topic &&
    (n.allJobs || bound)

def maxNotificationErrorBytes : ℕ := 4096

def cutBack (message : Bytes) : ℕ → ℕ
  | 0 => 0
  | limit + 1 =>
      if message.getD (limit + 1) 0 &&& 0xC0 = 0x80 then cutBack message limit else limit + 1

def boundedNotificationError (message : Bytes) : Bytes :=
  let message := toValidUTF8 message
  if message.length ≤ maxNotificationErrorBytes then message
  else message.take (cutBack message maxNotificationErrorBytes)

def NotificationDelivery.finish (now : Int) (status : DeliveryStatus) (message : Bytes)
    (x : NotificationDelivery) : NotificationDelivery where
  lease := x.lease.finish status
  lastError := if message = [] then none else some message
  deliveredAt := if status = .delivered then some now else none
  deadAt := if status = .dead then some now else none

def NotificationDelivery.terminalize (now : Int) (message : Bytes) (x : NotificationDelivery) :
    NotificationDelivery :=
  { x with lease := x.lease.finish .dead, deadAt := some now, lastError := some message }

def NotificationDelivery.claim (owner : String) (now : Int) (x : NotificationDelivery) :
    NotificationDelivery := { x with lease := x.lease.claim owner now }

def NotificationDelivery.retry (availableAt : Int) (message : Bytes)
    (x : NotificationDelivery) : NotificationDelivery :=
  { x with lease := x.lease.retry availableAt, lastError := some message }

end Rows

section Channels

def insertRow (k : Key) (v : Row k) : Tx Unit := do
  if ← .exec (.insert k v) then pure () else .fail .duplicateKey

def publishEvent (now : Int) (eventID : ℕ) : Tx Unit := do
  let _ ← .exec (.update (V := Row) (.event eventID) (fun _ => true) (OutboxEvent.publish now))
  pure ()

def validateNotificationChannelJobs (channel : NotificationChannel) (jobIDs : List ℕ) :
    Tx Unit := do
  if channel.allJobs then pure ()
  else
    let count ← .exec (.select fun d : Db => (d.keys.filter fun
      | .job id => jobIDs.contains id && d.row (.job id) == some channel.tenantID
      | _ => false).length)
    if count = jobIDs.length then pure () else .fail .notFound

def invalidScope (channel : NotificationChannel) (jobIDs : List ℕ) : Bool :=
  channel.allJobs == decide (0 < jobIDs.length)

def createNotificationChannel (id : ℕ) (channel : NotificationChannel) (jobIDs : List ℕ) :
    Tx Unit := do
  if invalidScope channel jobIDs then .fail .invalidNotificationScope
  else
    validateNotificationChannelJobs channel jobIDs
    insertRow (.channel id)
      { channel with enabled := true, version := 1, deletedAt := none }
    .forEach jobIDs fun jobID => insertRow (.channelJob id jobID) ()

def NotificationChannel.current (tenantID version : ℕ) (n : NotificationChannel) : Bool :=
  n.tenantID == tenantID && n.version == version && n.deletedAt.isNone

def NotificationChannel.edit (channel n : NotificationChannel) : NotificationChannel :=
  { n with
    events := channel.events
    allJobs := channel.allJobs
    maxAttempts := channel.maxAttempts
    backoffInitialSeconds := channel.backoffInitialSeconds
    backoffMaxSeconds := channel.backoffMaxSeconds
    version := n.version + 1 }

def updateNotificationChannel (id : ℕ) (channel : NotificationChannel) (jobIDs : List ℕ) :
    Tx Unit := do
  if invalidScope channel jobIDs then .fail .invalidNotificationScope
  else
    validateNotificationChannelJobs channel jobIDs
    match ← .exec (.update (V := Row) (.channel id)
        (NotificationChannel.current channel.tenantID channel.version) channel.edit) with
    | none => .fail .conflict
    | some _ => do
        let bound ← .exec (.select (channelJobs id))
        .forEach bound fun jobID => do
          let _ ← .exec (.delete (V := Row) (.channelJob id jobID) fun _ => true)
          pure ()
        .forEach jobIDs fun jobID => insertRow (.channelJob id jobID) ()

def pendingElsewhere (channelID eventID : ℕ) (d : Db) : Bool :=
  (deliveries d).any fun x =>
    x.1 == eventID && x.2.1 != channelID && x.2.2.lease.status == .pending

def pendingOfChannel (channelID : ℕ) (d : Db) : List (ℕ × Bool) :=
  ((deliveries d).filter fun x => x.2.1 == channelID && x.2.2.lease.status == .pending).map
    fun x => (x.1, pendingElsewhere channelID x.1 d)

/-- One statement: its snapshot, the deliveries it ends, the events it publishes. -/
def terminalizePendingNotificationDeliveries (serial : ℕ) (now : Int) (channelID : ℕ)
    (message : Bytes) : Tx Unit := do
  let found ← .exec (.note (pendingOfChannel channelID) fun found =>
    found.map fun x => .sweep x.1 serial)
  let affected ← Program.foldEach found [] fun (acc : List (ℕ × Bool)) x => do
    match ← .exec (.update (V := Row) (.delivery x.1 channelID)
        (fun y => y.lease.status == .pending)
        (NotificationDelivery.terminalize now (boundedNotificationError message))) with
    | some _ => pure (acc ++ [x])
    | none => pure acc
  .forEach affected fun x => if x.2 then pure () else publishEvent now x.1

def setNotificationChannelEnabled (serial : ℕ) (now : Int) (tenantID id : ℕ) (enabled : Bool)
    (version : ℕ) : Tx (NotificationChannel × List ℕ) := do
  match ← .exec (.update (V := Row) (.channel id) (NotificationChannel.current tenantID version)
      fun n => { n with enabled := enabled, version := n.version + 1 }) with
  | none => .fail .conflict
  | some _ => do
      .when (enabled = false)
        (terminalizePendingNotificationDeliveries serial now id
          (Text.bytes "notification channel disabled"))
      match ← .exec (.select fun d : Db => (d.row (.channel id), channelJobs id d)) with
      | (some n, jobIDs) => if n.deletedAt.isNone then pure (n, jobIDs) else .fail .notFound
      | (none, _) => .fail .notFound

def deleteNotificationChannel (serial : ℕ) (now : Int) (tenantID id version : ℕ) : Tx Unit := do
  match ← .exec (.update (V := Row) (.channel id) (NotificationChannel.current tenantID version)
      fun n => { n with enabled := false, deletedAt := some now, version := n.version + 1 }) with
  | none => .fail .conflict
  | some _ =>
      terminalizePendingNotificationDeliveries serial now id
        (Text.bytes "notification channel deleted")

end Channels

section Prepare

def undelivered (now : Int) (d : Db) : List ℕ :=
  (((events d).filter fun x => x.2.unpublished now &&
      !(deliveries d).any fun y => y.1 == x.1).insertionSort fun a b =>
    a.2.availableAt < b.2.availableAt ∨ (a.2.availableAt = b.2.availableAt ∧ a.1 ≤ b.1)).map
      Prod.fst

/-- `FOR UPDATE OF e SKIP LOCKED LIMIT $1`: the conditions on the event itself are checked
again on the row that is locked, the absence of deliveries is not. -/
def lockEvents (now : Int) (limit : ℕ) (found : List ℕ) : Tx (List (ℕ × OutboxEvent)) :=
  .foldEach found [] fun acc id =>
    if acc.length < limit then do
      let locked ← .exec (.skipLocked (fun d : Db => match d.row (.event id) with
        | some e => if e.unpublished now then [(Key.event id, (id, e))] else []
        | none => []) 1)
      pure (acc ++ locked)
    else pure acc

def matchingNotificationChannelIDs (e : OutboxEvent) : Tx (List ℕ) := do
  let found ← .exec (.select fun d : Db =>
    let bound (id : ℕ) : Bool := e.jobID.any fun j => (d.row (.channelJob id j)).isSome
    (((channels d).filter fun x => x.2.matches e (bound x.1)).insertionSort fun a b =>
      a.1 ≤ b.1).map fun x => (x.1, bound x.1))
  .foldEach found [] fun acc x => do
    match ← .exec (.lock (V := Row) (.channel x.1) (NotificationChannel.matches e x.2)) with
    | some _ => pure (acc ++ [x.1])
    | none => pure acc

def prepareEvent (now : Int) (eventID : ℕ) (e : OutboxEvent) : Tx Unit := do
  let channelIDs ← matchingNotificationChannelIDs e
  if channelIDs = [] then publishEvent now eventID
  else
    .forEach channelIDs fun channelID => do
      let _ ← .exec (.insert (V := Row) (.delivery eventID channelID)
        { lease := { availableAt := now } })
      pure ()

def prepareNotificationDeliveries (now : Int) (limit : ℕ) : Tx Unit := do
  let found ← .exec (.select (undelivered now))
  let locked ← lockEvents now limit found
  .forEach locked fun x => prepareEvent now x.1 x.2

end Prepare

section Queue

structure ClaimedDelivery where
  eventID : ℕ
  channelID : ℕ
  attempts : ℕ
  event : OutboxEvent
  channel : NotificationChannel
deriving DecidableEq, Repr

def claimableDeliveries (now : Int) (d : Db) : List (ℕ × ℕ) :=
  (((deliveries d).filter fun x => x.2.2.lease.claimable now).insertionSort fun a b =>
    a.2.2.lease.availableAt ≤ b.2.2.lease.availableAt).map fun x => (x.1, x.2.1)

def claimNotificationDeliveries (now : Int) (owner : String) (limit : ℕ) :
    Tx (List ClaimedDelivery) := do
  let snapshot ← .exec (.select fun d : Db => d)
  let picked ← .exec (.skipLocked (fun d : Db =>
    ((claimableDeliveries now snapshot).filter fun x =>
      (d.row (.delivery x.1 x.2)).any fun y => y.lease.claimable now).map fun x =>
        (Key.delivery x.1 x.2, x)) limit)
  .foldEach picked [] fun acc x => do
    match ← .exec (.update (V := Row) (.delivery x.1 x.2) (fun _ => true)
        (NotificationDelivery.claim owner now)) with
    | none => pure acc
    | some y => match snapshot.row (.event x.1), snapshot.row (.channel x.2) with
        | some e, some n => pure (acc ++ [⟨x.1, x.2, y.lease.attempts, e, n⟩])
        | _, _ => pure acc

def finishNotificationDelivery (now : Int) (owner : String) (delivery : ℕ × ℕ) (eventID : ℕ)
    (deliveryStatus : DeliveryStatus) (message : Bytes) : Tx Unit := do
  match ← .exec (.update (V := Row) (.delivery delivery.1 delivery.2)
      (fun x => delivery.1 == eventID && x.lease.heldBy owner now)
      (NotificationDelivery.finish now deliveryStatus message)) with
  | none => .fail .notificationLeaseLost
  | some _ => do
      let pending ← .exec (.select fun d : Db =>
        (deliveries d).any fun x => x.1 == eventID && x.2.2.lease.status == .pending)
      if pending then pure () else publishEvent now eventID

def completeNotificationDelivery (now : Int) (owner : String) (delivery : ℕ × ℕ)
    (eventID : ℕ) : Tx Unit :=
  finishNotificationDelivery now owner delivery eventID .delivered []

def deadLetterNotificationDelivery (now : Int) (owner : String) (delivery : ℕ × ℕ)
    (eventID : ℕ) (message : Bytes) : Tx Unit :=
  finishNotificationDelivery now owner delivery eventID .dead (boundedNotificationError message)

def retryNotificationDelivery (now : Int) (owner : String) (delivery : ℕ × ℕ)
    (message : Bytes) (delay : Int) : Tx Unit := do
  match ← .exec (.update (V := Row) (.delivery delivery.1 delivery.2)
      (fun x => x.lease.heldBy owner now)
      (NotificationDelivery.retry (now + delay) (boundedNotificationError message))) with
  | none => .fail .notificationLeaseLost
  | some _ => pure ()

end Queue

/-- The calls of any number of API servers and notification workers. Events come from the
transactions of the scheduler, of which only the inserted row is modelled. -/
inductive Operation where
  | emitEvent (id tenantID : ℕ) (topic : String) (jobID : Option ℕ)
  | createNotificationChannel (id : ℕ) (channel : NotificationChannel) (jobIDs : List ℕ)
  | updateNotificationChannel (id : ℕ) (channel : NotificationChannel) (jobIDs : List ℕ)
  | setNotificationChannelEnabled (tenantID id : ℕ) (enabled : Bool) (version : ℕ)
  | deleteNotificationChannel (tenantID id version : ℕ)
  | prepareNotificationDeliveries (limit : ℕ)
  | claimNotificationDeliveries (owner : String) (limit : ℕ)
  | completeNotificationDelivery (owner : String) (delivery : ℕ × ℕ) (eventID : ℕ)
  | deadLetterNotificationDelivery (owner : String) (delivery : ℕ × ℕ) (eventID : ℕ)
      (message : Bytes)
  | retryNotificationDelivery (owner : String) (delivery : ℕ × ℕ) (message : Bytes) (delay : Int)
deriving DecidableEq

structure Call where
  serial : ℕ
  now : Int
  operation : Operation
deriving DecidableEq

inductive Result where
  | done
  | channel (n : NotificationChannel) (jobIDs : List ℕ)
  | claimed (deliveries : List ClaimedDelivery)
deriving DecidableEq

def Call.program (c : Call) : Tx Result :=
  match c.operation with
  | .emitEvent id tenantID topic jobID => do
      insertRow (.event id)
        { tenantID := tenantID, topic := topic, jobID := jobID, availableAt := c.now }
      pure .done
  | .createNotificationChannel id channel jobIDs => do
      Notification.createNotificationChannel id channel jobIDs; pure .done
  | .updateNotificationChannel id channel jobIDs => do
      Notification.updateNotificationChannel id channel jobIDs; pure .done
  | .setNotificationChannelEnabled tenantID id enabled version => do
      let x ← Notification.setNotificationChannelEnabled c.serial c.now tenantID id enabled version
      pure (.channel x.1 x.2)
  | .deleteNotificationChannel tenantID id version => do
      Notification.deleteNotificationChannel c.serial c.now tenantID id version; pure .done
  | .prepareNotificationDeliveries limit => do
      Notification.prepareNotificationDeliveries c.now limit; pure .done
  | .claimNotificationDeliveries owner limit => do
      return .claimed (← Notification.claimNotificationDeliveries c.now owner limit)
  | .completeNotificationDelivery owner delivery eventID => do
      Notification.completeNotificationDelivery c.now owner delivery eventID; pure .done
  | .deadLetterNotificationDelivery owner delivery eventID message => do
      Notification.deadLetterNotificationDelivery c.now owner delivery eventID message; pure .done
  | .retryNotificationDelivery owner delivery message delay => do
      Notification.retryNotificationDelivery c.now owner delivery message delay; pure .done

def notificationSystem : System Call Key Row NotificationError Result where
  program := Call.program
  admissible := fun d c => c.now == d.clock

abbrev NotificationMachine : Type 1 := Machine Call Key Row NotificationError Result

section Blind

variable {D : Discipline Call Key Row} {t : Call} {watched : Key → Bool}
  {A : Overlay Row → Db → Prop}

theorem publishEvent_blind (hs : D.Stable t A) (hA : Discipline.Blind watched A) (now : Int)
    (eventID : ℕ) (hk : watched (.event eventID) = false) :
    D.Triple t A (publishEvent now eventID) fun _ => A :=
  .bind (.update (Q := fun _ => A) hs (fun _ _ _ _ h _ => h)
    fun _ _ _ _ _ h _ _ _ => hA.write hk _ h) fun _ => .done

theorem insertRow_blind (hs : D.Stable t A) (hA : Discipline.Blind watched A) {k : Key}
    (hk : watched k = false) (v : Row k) : D.Triple t A (insertRow k v) fun _ => A := by
  refine .bind (.insert (Q := fun _ => A) hs (fun _ _ _ _ h _ => h)
    fun _ _ _ _ h _ _ => hA.write hk _ h) fun r => ?_
  cases r with
  | true => exact .done
  | false => exact .fail

theorem validateNotificationChannelJobs_keeps (hs : D.Stable t A) (channel : NotificationChannel)
    (jobIDs : List ℕ) : D.Triple t A (validateNotificationChannelJobs channel jobIDs)
      fun _ => A := by
  unfold validateNotificationChannelJobs
  split
  · exact .done
  · refine .bind (.read hs) fun count => ?_
    split
    · exact .done
    · exact .fail

theorem rebind_blind (hs : D.Stable t A) (hA : Discipline.Blind watched A) (id : ℕ)
    (hk : ∀ j, watched (.channelJob id j) = false) (jobIDs : List ℕ) : D.Triple t A
      (do
        let bound ← .exec (.select (channelJobs id))
        .forEach bound fun jobID => do
          let _ ← .exec (.delete (V := Row) (.channelJob id jobID) fun _ => true)
          pure ()
        .forEach jobIDs fun jobID => insertRow (.channelJob id jobID) () : Tx Unit) fun _ => A := by
  refine .bind (.read hs) fun bound => ?_
  refine .bind (.forEach (A := A) fun jobID _ => ?_) fun _ => ?_
  · exact .bind (.delete (Q := fun _ => A) hs (fun _ _ _ _ h _ => h)
      fun _ _ _ _ _ h _ _ _ => hA.write (hk jobID) _ h) fun _ => .done
  · exact .forEach fun jobID _ => insertRow_blind (k := .channelJob id jobID) hs hA (hk jobID) ()

end Blind

end GoScheduler.Notification
