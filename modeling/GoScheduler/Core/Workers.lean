import Mathlib.Tactic.Common

/-! The loop of the engine and its workers. They share `sem`, which holds a token for each worker,
and `dispatchWake`, a channel with one place. -/
namespace GoScheduler.Core.Workers

def shouldWakeDispatcher (active capacity : ℕ) : Bool :=
  active = 0 || max (capacity / 4) 1 ≤ capacity - active

inductive Loop where
  | waiting  -- In its `select`.
  | ticking  -- In `tick`, before `availableWorkerSlots`.
  | dispatching  -- In `dispatch`, before `availableWorkerSlots`.
  | claiming (available : ℕ)  -- In `ClaimRuns`.
  | starting (runs : ℕ)  -- In the loop of `dispatch`, with so many runs ahead.
  | stopped

/-- `active` is `len(sem)`. Of the workers that gave their token back, `released` have not looked at
it since and `sending` are about to wake the loop. -/
structure Engine where
  loop : Loop := .ticking
  active : ℕ := 0
  released : ℕ := 0
  sending : ℕ := 0
  dispatchWake : Bool := false
  freed : Bool := false  -- A token came back since `dispatch` counted them.

inductive Event where
  | tick
  | wake
  | prepared (ok : Bool)  -- `EnqueueDue` and `ExpireCallbacks` are done, with or without an error.
  | count
  | claimed (runs : Option ℕ)  -- `ClaimRuns` returned so many runs, or an error.
  | start
  | release
  | look
  | send
  | wakeDispatch
  | cancel

def Engine.step (workers : ℕ) (e : Engine) : Event → Option Engine
  | .tick => match e.loop with
      | .waiting => some { e with loop := .ticking }
      | _ => none
  | .wake => match e.loop, e.dispatchWake with
      | .waiting, true => some { e with loop := .dispatching, dispatchWake := false }
      | _, _ => none
  | .prepared ok => match e.loop with
      | .ticking =>
          some { e with loop := if ok ∧ workers - e.active ≠ 0 then .dispatching else .waiting }
      | _ => none
  | .count => match e.loop with
      | .dispatching => some { e with
          loop := if workers - e.active = 0 then .waiting else .claiming (workers - e.active)
          freed := false }
      | _ => none
  | .claimed runs => match e.loop, runs with
      | .claiming _, none => some { e with loop := .waiting }
      | .claiming available, some runs =>
          if runs ≤ available then some { e with loop := .starting runs } else none
      | _, _ => none
  | .start => match e.loop with
      | .starting 0 => some { e with loop := .waiting }
      | .starting (runs + 1) =>
          if e.active < workers then some { e with loop := .starting runs, active := e.active + 1 }
          else none
      | _ => none
  | .release =>
      if e.active = 0 then none
      else some { e with active := e.active - 1, released := e.released + 1, freed := true }
  | .look =>
      if e.released = 0 then none
      else some { e with
        released := e.released - 1
        sending := if shouldWakeDispatcher e.active workers then e.sending + 1 else e.sending }
  | .send =>
      if e.sending = 0 then none
      else some { e with sending := e.sending - 1, dispatchWake := true }
  | .wakeDispatch => some { e with dispatchWake := true }
  | .cancel => match e.loop with
      | .waiting => some { e with loop := .stopped }
      | .starting _ => some { e with loop := .waiting }
      | _ => none

def Loop.claims : Loop → ℕ
  | .claiming available => available
  | .starting runs => runs
  | _ => 0

/-- The loop will come to count the tokens. -/
def Engine.Woken (e : Engine) : Prop :=
  e.dispatchWake = true ∨ 0 < e.released ∨ 0 < e.sending ∨ e.loop = .dispatching

structure Engine.Sound (workers : ℕ) (e : Engine) : Prop where
  room : e.active + e.loop.claims ≤ workers
  woken : e.freed = true → shouldWakeDispatcher e.active workers = true → e.Woken

variable {workers : ℕ} {e e' : Engine} {event : Event}

theorem shouldWakeDispatcher_of_succ {active : ℕ}
    (h : shouldWakeDispatcher (active + 1) workers = true) :
    shouldWakeDispatcher active workers = true := by
  simp only [shouldWakeDispatcher, Bool.or_eq_true, decide_eq_true_eq] at h ⊢
  omega

theorem Engine.Sound.of_loop (h : e.Sound workers) (hloop : e.loop ≠ .dispatching) (loop : Loop)
    (hclaims : loop.claims ≤ e.loop.claims) : Engine.Sound workers { e with loop } where
  room := Nat.le_trans (Nat.add_le_add_left hclaims _) h.room
  woken hfreed hdue := (h.woken hfreed hdue).imp_right
    (Or.imp_right (Or.imp_right fun hdispatching => absurd hdispatching hloop))

theorem Engine.Sound.step (h : e.Sound workers) (hs : e.step workers event = some e') :
    e'.Sound workers := by
  have hroom := h.room
  unfold Engine.step at hs
  repeat' split at hs
  all_goals cases hs
  all_goals try first
    | exact h.of_loop (by simp [*]) _ (by simp [Loop.claims, *])
    | exact ⟨hroom, fun _ _ => .inl rfl⟩
  · -- `wake`
    exact ⟨Nat.le_of_add_right_le hroom, fun _ _ => .inr (.inr (.inr rfl))⟩
  · exact ⟨Nat.le_of_add_right_le hroom, fun hfreed => by cases hfreed⟩
  · refine ⟨?_, fun hfreed => by cases hfreed⟩
    simp only [Loop.claims]
    omega
  · -- `start`
    next runs hloop _ =>
    have hmoved := h.of_loop (by simp [hloop]) (.starting runs) (by simp [hloop, Loop.claims])
    rw [hloop] at hroom
    refine ⟨by simp only [Loop.claims] at hroom ⊢; omega, fun hfreed hdue => ?_⟩
    exact hmoved.woken hfreed (shouldWakeDispatcher_of_succ hdue)
  · exact ⟨by dsimp only; omega, fun _ _ => .inr (.inl (Nat.succ_pos _))⟩
  · exact ⟨hroom, fun _ _ => .inr (.inr (.inl (Nat.succ_pos _)))⟩
  · next hnot => exact ⟨hroom, fun _ hdue => absurd hdue hnot⟩

theorem Engine.Sound.run {events : List Event} (h : e.Sound workers)
    (he : events.foldlM (Engine.step workers) e = some e') : e'.Sound workers := by
  induction events generalizing e with
  | nil =>
    cases he
    exact h
  | cons event events ih =>
    obtain ⟨e₁, hs, he⟩ := Option.bind_eq_some_iff.1 he
    exact ih (h.step hs) he

/-- In every run of the engine its tokens suffice for the runs it claims, and once a token came back
and enough are free, the loop will come to count them. -/
theorem free_slots_noticed (workers : ℕ) (events : List Event) (e : Engine)
    (he : events.foldlM (Engine.step workers) {} = some e) :
    e.active ≤ workers ∧ (∀ runs, e.loop = .starting (runs + 1) → e.active < workers) ∧
      (e.freed = true → shouldWakeDispatcher e.active workers = true → e.Woken) := by
  have h := Engine.Sound.run ⟨Nat.zero_le _, fun hfreed => by cases hfreed⟩ he
  have hroom := h.room
  refine ⟨Nat.le_of_add_right_le hroom, fun runs hloop => ?_, h.woken⟩
  rw [hloop] at hroom
  exact Nat.lt_of_lt_of_le (Nat.lt_add_of_pos_right (Nat.succ_pos runs)) hroom

def oneEnds : List Event :=
  [.prepared true, .count, .claimed (some 2), .start, .start, .start, .release, .look]

theorem free_slot_noticed : ∃ e : Engine, oneEnds.foldlM (Engine.step 2) {} = some e ∧
    e.freed = true ∧ e.Woken :=
  ⟨_, rfl, rfl, (free_slots_noticed 2 oneEnds _ rfl).2.2 rfl (by decide)⟩

end GoScheduler.Core.Workers
