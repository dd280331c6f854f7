import GoScheduler.Schedule

/-! The columns that the queues `notification_deliveries` and `executor_commands` have in
common, and what the statements on them do to one row. A lease is a pair of columns: the
owner and the time until which the row is his. -/
namespace GoScheduler.Queue
open Schedule

inductive DeliveryStatus where
  | pending
  | delivered
  | dead
deriving DecidableEq, Repr

structure Leased where
  status : DeliveryStatus := .pending
  attempts : ℕ := 0
  availableAt : Int
  lockedBy : Option String := none
  lockedUntil : Option Int := none
deriving DecidableEq, Repr

namespace Leased

def leaseTime : Int := 30 * second

/-- `status='pending' AND available_at<=now() AND (locked_until IS NULL OR locked_until<now())`. -/
def claimable (now : Int) (l : Leased) : Bool :=
  l.status == .pending && decide (l.availableAt ≤ now) &&
    l.lockedUntil.all fun until_ => decide (until_ < now)

/-- `status='pending' AND locked_by=$2 AND locked_until>=now()`. -/
def heldBy (owner : String) (now : Int) (l : Leased) : Bool :=
  l.status == .pending && l.lockedBy == some owner &&
    l.lockedUntil.any fun until_ => decide (now ≤ until_)

def claim (owner : String) (now : Int) (l : Leased) : Leased :=
  { l with lockedBy := some owner, lockedUntil := some (now + leaseTime)
           attempts := l.attempts + 1 }

def finish (status : DeliveryStatus) (l : Leased) : Leased :=
  { l with status := status, lockedBy := none, lockedUntil := none }

def retry (availableAt : Int) (l : Leased) : Leased :=
  { l with availableAt := availableAt, lockedBy := none, lockedUntil := none }

variable {l : Leased} {owner : String} {now : Int}

theorem claimable_pending (h : l.claimable now = true) : l.status = .pending := by
  unfold claimable at h
  rw [Bool.and_eq_true, Bool.and_eq_true] at h
  simpa using h.1.1

theorem heldBy_pending (h : l.heldBy owner now = true) : l.status = .pending := by
  unfold heldBy at h
  rw [Bool.and_eq_true, Bool.and_eq_true] at h
  simpa using h.1.1

end Leased

end GoScheduler.Queue
