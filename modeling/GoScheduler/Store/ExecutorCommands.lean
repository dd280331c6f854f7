import GoScheduler.Notification.Fencing
import GoScheduler.Store.Schema

/-! The queue of commands to executors, internal/store/executor_commands.go. A command is
known by its tenant and its run, which are unique together as there is one type of command.
Commands come from the transactions that cancel runs, of which only the statement on this
table is modelled. -/
namespace GoScheduler.ExecutorCommands
open ReadCommitted Schedule Queue

structure QueuedCommand where
  command : Store.ExecutorCommand
  lease : Leased
  lastError : Option Text.Bytes := none
  deliveredAt : Option Int := none
deriving DecidableEq

structure Key where
  tenantID : ℕ
  runID : ℕ
deriving DecidableEq, Repr

abbrev Row : Key → Type := fun _ => QueuedCommand

inductive CommandError where
  | encoding  -- `invalid byte sequence for encoding "UTF8"`.
  | conflict
deriving DecidableEq, Repr

abbrev Db : Type := Database Key Row
abbrev Tx (α : Type) : Type 1 := Program Key Row CommandError α

def maxExecutorCommandErrorBytes : ℕ := 4096

structure ClaimedCommand where
  id : Key
  command : Store.ExecutorCommand
  attempts : ℕ
deriving DecidableEq

/-- `ON CONFLICT DO UPDATE SET payload=payload||(EXCLUDED.payload-'reason')`. -/
def QueuedCommand.merge (command : Store.ExecutorCommand) (x : QueuedCommand) : QueuedCommand :=
  { x with command := { command with
      executorAddress := x.command.executorAddress, reason := x.command.reason } }

def QueuedCommand.claim (owner : String) (now : Int) (x : QueuedCommand) : QueuedCommand :=
  { x with lease := x.lease.claim owner now }

def QueuedCommand.complete (now : Int) (x : QueuedCommand) : QueuedCommand :=
  { x with lease := x.lease.finish .delivered, deliveredAt := some now, lastError := none }

def QueuedCommand.retry (availableAt : Int) (message : Text.Bytes) (x : QueuedCommand) :
    QueuedCommand :=
  { x with lease := x.lease.retry availableAt, lastError := some message }

def enqueueExecutorCancellation (now : Int) (id : Key) (command : Store.ExecutorCommand) :
    Tx Unit :=
  .exec (.upsert (V := Row) id { command := command, lease := { availableAt := now } }
    (QueuedCommand.merge command))

def commands (d : Db) : List (Key × QueuedCommand) :=
  d.keys.filterMap fun k => (d.row k).map (k, ·)

def claimableCommands (now : Int) (d : Db) : List Key :=
  (((commands d).filter fun x => x.2.lease.claimable now).insertionSort fun a b =>
    a.2.lease.availableAt ≤ b.2.lease.availableAt).map Prod.fst

def claimExecutorCommands (now : Int) (owner : String) (limit : Int) :
    Tx (List ClaimedCommand) :=
  if limit < 1 then pure []
  else claimItems id (fun _ => QueuedCommand.lease) now limit.toNat (claimableCommands now)
    (fun _ => QueuedCommand.claim owner now)
    (fun _ acc k x => acc ++ [⟨k, x.command, x.lease.attempts⟩]) []

/-- `UPDATE ... WHERE id=$1 AND status='pending' AND locked_by=$2 AND locked_until>=now()`,
which has to affect one row. -/
def updateLeased (now : Int) (owner : String) (id : Key) (set : QueuedCommand → QueuedCommand) :
    Tx Unit := do
  match ← .exec (.update (V := Row) id (fun x => x.lease.heldBy owner now) set) with
  | none => .fail .conflict
  | some _ => pure ()

def completeExecutorCommand (now : Int) (owner : String) (id : Key) : Tx Unit :=
  updateLeased now owner id (QueuedCommand.complete now)

/-- The text that `RetryExecutorCommand` passes for `last_error`. -/
def commandErrorText (message : Text.Bytes) : Text.Bytes :=
  message.take maxExecutorCommandErrorBytes

/-- A text that PostgreSQL stores. -/
def storable (text : Text.Bytes) : Bool := Text.valid text && !text.contains 0

-- A text that cannot be stored is refused before a row is looked at.
def retryExecutorCommand (now : Int) (owner : String) (id : Key) (message : Text.Bytes)
    (delay : Int) : Tx Unit :=
  if storable (commandErrorText message) then
    updateLeased now owner id (QueuedCommand.retry (now + delay) (commandErrorText message))
  else .fail .encoding

inductive Operation where
  | enqueueExecutorCancellation (id : Key) (command : Store.ExecutorCommand)
  | claimExecutorCommands (owner : String) (limit : Int)
  | completeExecutorCommand (owner : String) (id : Key)
  | retryExecutorCommand (owner : String) (id : Key) (message : Text.Bytes) (delay : Int)
deriving DecidableEq

structure Call where
  serial : ℕ
  now : Int
  operation : Operation
deriving DecidableEq

inductive Result where
  | done
  | claimed (commands : List ClaimedCommand)
deriving DecidableEq

def Call.program (c : Call) : Tx Result :=
  match c.operation with
  | .enqueueExecutorCancellation id command => do
      ExecutorCommands.enqueueExecutorCancellation c.now id command; pure .done
  | .claimExecutorCommands owner limit => do
      return .claimed (← ExecutorCommands.claimExecutorCommands c.now owner limit)
  | .completeExecutorCommand owner id => do
      ExecutorCommands.completeExecutorCommand c.now owner id; pure .done
  | .retryExecutorCommand owner id message delay => do
      ExecutorCommands.retryExecutorCommand c.now owner id message delay; pure .done

def commandSystem : System Call Key Row CommandError Result where
  program := Call.program
  admissible := fun d c => c.now == d.clock

def commandQueue : LeasedQueue Call Key Row CommandError Result Key where
  key := id
  key_injective := Function.injective_id
  lease := fun _ => QueuedCommand.lease
  now := Call.now
  owner := fun c => match c.operation with
    | .enqueueExecutorCancellation _ _ => none
    | .claimExecutorCommands owner _ => some owner
    | .completeExecutorCommand owner _ => some owner
    | .retryExecutorCommand owner _ _ _ => some owner
  target := fun c => match c.operation with
    | .completeExecutorCommand _ id => some id
    | .retryExecutorCommand _ id _ _ => some id
    | _ => none
  batch := fun c => match c.operation with
    | .claimExecutorCommands owner limit => some (owner, limit.toNat)
    | _ => none
  claims := fun r k => match r with
    | .claimed xs => (xs.map ClaimedCommand.id).count k
    | .done => 0
  lost := fun c => match c.operation with
    | .retryExecutorCommand _ _ message _ =>
        if storable (commandErrorText message) then .conflict else .encoding
    | _ => .conflict

section Claim

variable {now : Int} {d : Db}

theorem claimableCommands_nodup (h : d.keys.Nodup) : (claimableCommands now d).Nodup := by
  have hcommands : ((commands d).map Prod.fst).Nodup := by
    unfold commands
    rw [List.map_filterMap]
    refine h.filterMap fun k k' id hk hk' => ?_
    obtain ⟨_, hx, rfl⟩ := Option.map_eq_some_iff.1 hk
    obtain ⟨_, hx', he⟩ := Option.map_eq_some_iff.1 hk'
    obtain ⟨_, _, rfl⟩ := Option.map_eq_some_iff.1 hx
    obtain ⟨_, _, rfl⟩ := Option.map_eq_some_iff.1 hx'
    exact he.symm
  unfold claimableCommands
  refine ((List.perm_insertionSort _ _).map Prod.fst).nodup_iff.2 ?_
  exact hcommands.sublist (List.filter_sublist.map Prod.fst)

theorem length_claimableCommands (now : Int) (d : Db) :
    (claimableCommands now d).length ≤ d.keys.length := by
  unfold claimableCommands commands
  rw [List.length_map, List.length_insertionSort]
  exact (List.length_filter_le _ _).trans (List.length_filterMap_le _ _)

theorem mem_claimableCommands (hcovers : ∀ k, k ∉ d.keys → d.row k = none) {k : Key}
    {x : QueuedCommand} (hx : d.row k = some x) (hclaimable : x.lease.claimable now = true) :
    k ∈ claimableCommands now d := by
  have hk : k ∈ d.keys := by
    by_contra hk
    rw [hcovers k hk] at hx
    cases hx
  have hmem : (k, x) ∈ commands d := List.mem_filterMap.2 ⟨k, hk, by simp [hx]⟩
  refine List.mem_map.2 ⟨(k, x), (List.mem_insertionSort _).2 ?_, rfl⟩
  exact List.mem_filter.2 ⟨hmem, hclaimable⟩

def claimedCount (xs : List ClaimedCommand) (k : Key) : ℕ := (xs.map ClaimedCommand.id).count k

theorem claiming (owner : String) (now : Int) :
    commandQueue.Claiming owner now (claimableCommands now)
      (fun _ => QueuedCommand.claim owner now)
      (fun _ acc k x => acc ++ [⟨k, x.command, x.lease.attempts⟩]) claimedCount
      fun _ => True where
  nodup := fun _ h => claimableCommands_nodup h
  complete := fun d k x hcovers hx hclaimable => by
    obtain ⟨y, hy, rfl⟩ := Option.map_eq_some_iff.1 hx
    exact mem_claimableCommands hcovers hy hclaimable
  set := fun _ _ => rfl
  counted := fun _ acc k y _ _ => by
    constructor
    · simp [claimedCount]
    · intro j hj
      simp [claimedCount, Ne.symm hj]

end Claim

section Calls

variable {t : Call} {D : Discipline Call Key Row}

theorem answered_done {o : Overlay Row} {id : Key} (ht : commandQueue.target t = some id)
    (h : commandQueue.Ended t id o) : commandQueue.Answered t .done o := by
  refine ⟨h.moves, fun i hi => ?_⟩
  rw [ht] at hi
  cases hi
  exact h.held

theorem updateLeased_answered {id : Key} {owner : String}
    (howner : commandQueue.owner t = some owner) (ht : commandQueue.target t = some id)
    (set : QueuedCommand → QueuedCommand)
    (hset : ∀ x, x.lease.heldBy owner t.now = true →
      Move (some owner) t.now 0 (some x.lease) (some (set x).lease)) :
    D.Triple t (fun o _ => o = Overlay.empty)
      (do updateLeased t.now owner id set; pure Result.done : Tx Result)
      fun r o _ => commandQueue.Answered t r o := by
  refine .bind (Q := fun _ o _ => commandQueue.Ended t id o) ?_
    fun _ => .pure fun o d _ _ h => answered_done ht h
  refine .bind (commandQueue.update_ended howner (fun x h => h) fun x h => ?_) fun r => ?_
  · rw [howner]
    exact hset x h
  · cases r with
    | none => exact .fail
    | some x => exact .pure fun o d _ _ h => h (by simp)

theorem enqueue_answered {id : Key} {command : Store.ExecutorCommand}
    (ht : commandQueue.target t = none) : D.Triple t (fun o _ => o = Overlay.empty)
      (do enqueueExecutorCancellation t.now id command; pure Result.done : Tx Result)
      fun r o _ => commandQueue.Answered t r o := by
  refine .bind (.upsert (Q := fun _ o _ => commandQueue.Moves t (fun _ => 0) o) (.overlay _) ?_)
    fun _ => .pure fun o d _ _ h => ⟨h, fun i hi => by simp [ht] at hi⟩
  rintro o d w _ ha rfl hw _
  rw [Database.overlay_empty] at hw
  refine LeasedQueue.Moves.write (q := commandQueue) LeasedQueue.moves_empty ha id
    (fun _ _ => rfl) ?_
  rw [LeasedQueue.leaseOf, hw, show commandQueue.key id = id from rfl]
  cases d.row id with
  | none => exact .create rfl rfl
  | some x => exact .keep _

theorem claim_answered {owner : String} {limit : Int} (howner : commandQueue.owner t = some owner)
    (ht : commandQueue.target t = none) :
    Discipline.free.Triple t (fun o _ => o = Overlay.empty)
      (do return .claimed (← claimExecutorCommands t.now owner limit) : Tx Result)
      fun r o _ => commandQueue.Answered t r o := by
  refine .bind (Q := fun xs o _ => commandQueue.Moves t (claimedCount xs) o) ?_
    fun xs => .pure fun o d _ _ h => ⟨h, fun i hi => by simp [ht] at hi⟩
  unfold claimExecutorCommands
  split
  · refine .pure fun o d _ _ h => ?_
    rw [h]
    exact LeasedQueue.moves_empty
  · exact (claiming owner t.now).triple howner (fun _ => rfl) _

theorem command_answered (t : Call) : Discipline.free.Triple t (fun o _ => o = Overlay.empty)
    t.program fun r o _ => commandQueue.Answered t r o := by
  obtain ⟨serial, now, operation⟩ := t
  cases operation with
  | enqueueExecutorCancellation id command => exact enqueue_answered rfl
  | claimExecutorCommands owner limit => exact claim_answered rfl rfl
  | completeExecutorCommand owner id =>
    exact updateLeased_answered rfl rfl (.complete now) fun x h => .finish rfl h (by simp)
  | retryExecutorCommand owner id message delay =>
    simp only [Call.program, retryExecutorCommand]
    split
    · exact updateLeased_answered rfl rfl (.retry (now + delay) _) fun x h => .retry rfl h
    · exact Discipline.Triple.fail

theorem updateLeased_fails (now : Int) (owner : String) (id : Key)
    (set : QueuedCommand → QueuedCommand) :
    (updateLeased now owner id set).Fails (· = .conflict) := by
  refine .bind (.exec _) fun r => ?_
  cases r with
  | none => rfl
  | some x => trivial

theorem command_fails (t : Call) (i : Key) (ht : commandQueue.target t = some i) :
    t.program.Fails (· = commandQueue.lost t) := by
  obtain ⟨serial, now, operation⟩ := t
  cases operation with
  | enqueueExecutorCancellation | claimExecutorCommands => cases ht
  | completeExecutorCommand => exact .bind (updateLeased_fails _ _ _ _) fun _ => trivial
  | retryExecutorCommand owner id message delay =>
    simp only [Call.program, retryExecutorCommand, commandQueue]
    split
    · exact .bind (updateLeased_fails _ _ _ _) fun _ => trivial
    · exact .bind rfl fun _ => trivial

theorem command_batch (d : Db) (hnodup : d.keys.Nodup) (hcovers : ∀ k, k ∉ d.keys → d.row k = none)
    (busy : Key → Bool) (t : Call) (a : String) (limit : ℕ)
    (ht : commandQueue.batch t = some (a, limit))
    (hlimit : d.keys.length ≤ limit) : ∃ inps r d',
      t.program.amid busy inps d = some (.ok r, d') ∧
      ∀ i x, commandQueue.leaseOf i d = some x → x.claimable t.now = true →
        busy (commandQueue.key i) = false →
        commandQueue.claims r i = 1 ∧ commandQueue.leaseOf i d' = some (x.claim a t.now) := by
  obtain ⟨serial, now, operation⟩ := t
  cases operation with
  | claimExecutorCommands owner n =>
    cases ht
    have hroom := (length_claimableCommands now d).trans hlimit
    by_cases hn : n < 1
    · have hempty : claimableCommands now d = [] := List.eq_nil_of_length_eq_zero (by omega)
      refine ⟨[], .claimed [], d, ?_, fun i x hx hclaimable _ => ?_⟩
      · simp only [Call.program, claimExecutorCommands, if_pos hn]
        rfl
      · have hmem := (claiming a now).complete d i x hcovers hx hclaimable
        rw [hempty] at hmem
        cases hmem
    · have hnone : ∀ k, claimedCount [] k = 0 := fun _ => rfl
      obtain ⟨inps, xs, d', hamid, hitems⟩ :=
        (claiming a now).amid trivial hnodup hcovers busy hnone hroom
      refine ⟨inps, .claimed xs, d', ?_, hitems⟩
      simp only [Call.program, claimExecutorCommands, if_neg hn]
      exact Program.amid_map hamid
  | _ => cases ht

theorem command_conforms : commandQueue.Conforms commandSystem (fun _ => True) Discipline.free
    fun t r o _ => commandQueue.Answered t r o where
  answer := ⟨fun _ _ _ _ _ _ _ _ _ => trivial, fun _ _ _ _ _ _ h => h⟩
  meets := fun _ _ _ => ⟨fun _ _ _ _ _ => trivial, fun _ => trivial, fun _ _ _ => trivial⟩
  inv := fun _ _ => trivial
  safe := fun t d hinv _ => command_answered t _ d hinv (fun _ _ h => by cases h) rfl
  answered := fun _ _ _ _ h => h
  now := fun d t h => le_of_eq (beq_iff_eq.1 h)
  fails := command_fails
  batch := fun d _ hnodup hcovers =>
    ⟨d.keys.length, fun busy t a limit => command_batch d hnodup hcovers busy t a limit⟩

end Calls

/-- Both queues are fenced in every run of their operations. -/
theorem leased_queues_fenced :
    Notification.deliveryQueue.Fenced Notification.notificationSystem
        Notification.ReferencesHold ∧
      commandQueue.Fenced commandSystem fun _ => True :=
  ⟨Notification.delivery_conforms.fenced, command_conforms.fenced⟩

def Call.statements (t : Call) (n : ℕ) : List (Label Call Key) :=
  .begin t :: List.replicate n (.exec t ⟨t.now, 0, []⟩)

def cancelSeven : Call :=
  ⟨0, 0, .enqueueExecutorCancellation ⟨1, 7⟩ ⟨"node", "cancelled", 7, 1, "shell", none⟩⟩

def claimAt (serial : ℕ) (now : Int) (owner : String) : Call :=
  ⟨serial, now, .claimExecutorCommands owner 10⟩

def lateCompletion : Call := ⟨3, 31 * second, .completeExecutorCommand "core-a" ⟨1, 7⟩⟩

def claimedSeven (attempts : ℕ) : Result :=
  .claimed [⟨⟨1, 7⟩, ⟨"node", "cancelled", 7, 1, "shell", none⟩, attempts⟩]

/-- The lease of a first owner ends, a second one claims the command, and then the first says
that it is delivered. -/
def lateSchedule : List (Label Call Key) :=
  cancelSeven.statements 1 ++ .finish cancelSeven ::
    (claimAt 1 0 "core-a").statements 3 ++ .finish (claimAt 1 0 "core-a") ::
    .tick (31 * second).toNat ::
    (claimAt 2 (31 * second) "core-b").statements 3 ++
      .finish (claimAt 2 (31 * second) "core-b") :: lateCompletion.statements 1

theorem lateSchedule_run : ∃ m : Machine Call Key Row CommandError Result,
    FreshRun commandSystem (fun _ => True) (.init 0) m ∧
      m.returned = [(claimAt 2 (31 * second) "core-b", .ok (claimedSeven 2)),
        (claimAt 1 0 "core-a", .ok (claimedSeven 1)), (cancelSeven, .ok .done)] ∧
      m.store.clock = 31 * second ∧
      (commandQueue.leaseOf ⟨1, 7⟩ m.store.committed).any (Leased.heldBy "core-b" (31 * second)) ∧
      ∃ m', m.step commandSystem (.finish lateCompletion) = some m' := by
  have hrun : ((Machine.init 0 : Machine Call Key Row CommandError Result).runWhile commandSystem
      (fun _ _ _ => true) lateSchedule).map (fun m => (m.returned, m.store.clock,
        (commandQueue.leaseOf ⟨1, 7⟩ m.store.committed).any (Leased.heldBy "core-b" (31 * second)),
        (m.step commandSystem (.finish lateCompletion)).isSome)) =
      some ([(claimAt 2 (31 * second) "core-b", .ok (claimedSeven 2)),
        (claimAt 1 0 "core-a", .ok (claimedSeven 1)), (cancelSeven, .ok .done)],
        31 * second, true, true) := by
    decide +kernel
  obtain ⟨m, hm, hfacts⟩ := Option.map_eq_some_iff.1 hrun
  simp only [Prod.mk.injEq] at hfacts
  obtain ⟨hreturned, hclock, hheld, hstep⟩ := hfacts
  refine ⟨m, ⟨Machine.atRest_init 0, trivial, rfl, ?_⟩, hreturned, hclock, hheld,
    Option.isSome_iff_exists.1 hstep⟩
  exact Machine.ReachableFrom.runWhile (fun _ _ _ _ _ _ => trivial) _ .refl hm

theorem late_completion_fenced :
    ∃ m m' : Machine Call Key Row CommandError Result,
      FreshRun commandSystem (fun _ => True) (.init 0) m ∧
      m.returned = [(claimAt 2 (31 * second) "core-b", .ok (claimedSeven 2)),
        (claimAt 1 0 "core-a", .ok (claimedSeven 1)), (cancelSeven, .ok .done)] ∧
      m.step commandSystem (.finish lateCompletion) = some m' ∧
      m'.returned = (lateCompletion, .error .conflict) :: m.returned ∧
      m'.store.committed.row = m.store.committed.row ∧
      attemptsOf (commandQueue.leaseOf ⟨1, 7⟩ m.store.committed) = 2 := by
  obtain ⟨m, hfresh, hreturned, hclock, hheld, m', hs⟩ := lateSchedule_run
  have hfenced := leased_queues_fenced.2
  have hattempts := hfenced.attempts hfresh ⟨1, 7⟩
  rw [LeasedQueue.handedOut, hreturned] at hattempts
  refine ⟨m, m', hfresh, hreturned, hs, ?_⟩
  rcases hfenced.lost hfresh rfl hs with ⟨⟨a, x, ha, hx, hlate⟩, -⟩ | hlost
  · -- The lease is the second owner's.
    cases ha
    rw [hx, Option.any_some, ← hclock] at hheld
    have hlate' : x.heldBy "core-a" m.store.clock = true := hclock ▸ hlate
    exact absurd (hfenced.unique hfresh hx hlate' hheld) (by decide)
  · exact ⟨hlost.1, hlost.2, hattempts⟩

end GoScheduler.ExecutorCommands
