import GoScheduler.Core.Execute
import GoScheduler.Executor.Server
import GoScheduler.Store.ExecutorCommands

/-! The texts of errors on their way into a column or a message. PostgreSQL stores only valid
UTF-8 and protobuf sends nothing else, and each of them takes 4096 bytes at most. The errors of
notifications are cut between two characters; the other three places cut after so many bytes. -/
namespace GoScheduler.ErrorTexts

open Text

section Notifications

open Notification

variable {message : Bytes}

theorem cutBack_le (message : Bytes) (limit : ℕ) : cutBack message limit ≤ limit := by
  induction limit with
  | zero => exact Nat.le_refl 0
  | succ limit ih =>
    rw [cutBack]
    split
    · exact Nat.le_succ_of_le ih
    · exact Nat.le_refl _

theorem le_cutBack {m limit : ℕ} {b : UInt8} (hm : m ≤ limit) (hb : message[m]? = some b)
    (hlead : isTail b = false) : m ≤ cutBack message limit := by
  induction limit with
  | zero => exact hm
  | succ limit ih =>
    rw [cutBack]
    split
    · next htail =>
      rcases Nat.lt_or_eq_of_le hm with hlt | rfl
      · exact ih (Nat.le_of_lt_succ hlt)
      · rw [List.getD_eq_getElem?_getD, hb, Option.getD_some, ← isTail_iff, hlead] at htail
        cases htail
    · exact hm

theorem lead_cutBack (h : valid message = true) (limit : ℕ) :
    ∀ b ∈ message[cutBack message limit]?, isTail b = false := by
  induction limit with
  | zero => exact (valid_take_iff h 0).1 rfl
  | succ limit ih =>
    rw [cutBack]
    split
    · exact ih
    · next hlead =>
      intro b hb
      rw [List.getD_eq_getElem?_getD, hb, Option.getD_some, ← isTail_iff] at hlead
      exact Bool.eq_false_of_not_eq_true hlead

theorem valid_boundedNotificationError (message : Bytes) :
    valid (boundedNotificationError message) = true := by
  have hvalid := valid_toValidUTF8 message
  unfold boundedNotificationError
  dsimp only
  split
  · exact hvalid
  · exact (valid_take_iff hvalid _).2 (lead_cutBack hvalid _)

theorem length_boundedNotificationError (message : Bytes) :
    (boundedNotificationError message).length ≤ 4096 := by
  unfold boundedNotificationError
  dsimp only
  split
  · next h => exact h
  · exact (List.length_take_le _ _).trans (cutBack_le _ _)

theorem boundedNotificationError_of_short (h : (toValidUTF8 message).length ≤ 4096) :
    boundedNotificationError message = toValidUTF8 message :=
  if_pos h

/-- The error of a notification is valid UTF-8 of at most 4096 bytes and the beginning of the
repaired message: all of it where that fits, and otherwise all but at most three of the bytes
that would fit. -/
theorem boundedNotificationError_exact (message : Bytes) :
    valid (boundedNotificationError message) = true ∧
      (boundedNotificationError message).length ≤ 4096 ∧
      boundedNotificationError message <+: toValidUTF8 message ∧
      ((toValidUTF8 message).length ≤ 4096 →
        boundedNotificationError message = toValidUTF8 message) ∧
      (4096 < (toValidUTF8 message).length →
        4093 ≤ (boundedNotificationError message).length) ∧
      boundedNotificationError (boundedNotificationError message) =
        boundedNotificationError message := by
  have hvalid := valid_boundedNotificationError message
  have hlength := length_boundedNotificationError message
  refine ⟨hvalid, hlength, ?_, boundedNotificationError_of_short, fun hlong => ?_, ?_⟩
  · unfold boundedNotificationError
    dsimp only
    split
    · exact List.prefix_rfl
    · exact List.take_prefix _ _
  · obtain ⟨m, hm, hnear, b, hb, hlead⟩ := exists_lead (valid_toValidUTF8 message) hlong
    have hcut := le_cutBack hm hb hlead
    have hle := cutBack_le (toValidUTF8 message) 4096
    have htake : boundedNotificationError message =
        (toValidUTF8 message).take (cutBack (toValidUTF8 message) 4096) :=
      if_neg (Nat.not_le_of_lt hlong)
    rw [htake, List.length_take]
    omega
  · have hsame := toValidUTF8_of_valid hvalid
    rw [boundedNotificationError_of_short (by rwa [hsame]), hsame]

theorem boundedNotificationError_exact_repaired :
    boundedNotificationError [0xFF, 0xFE, 0x61] = [0xEF, 0xBF, 0xBD, 0x61] ∧
      valid (boundedNotificationError [0xFF, 0xFE, 0x61]) = true :=
  have hexact := boundedNotificationError_exact [0xFF, 0xFE, 0x61]
  ⟨hexact.2.2.2.1 (by decide +kernel), hexact.1⟩

end Notifications

section Truncations

open ReadCommitted

variable {message text : Bytes}

structure Storable (message text : Bytes) : Prop where
  valid : valid text = true
  cut : text <+: message
  length : text.length ≤ 4096

theorem storable_take_iff (h : valid message = true) :
    Storable message (message.take 4096) ↔ ∀ b ∈ message[4096]?, isTail b = false := by
  rw [← valid_take_iff h]
  exact ⟨Storable.valid, fun hvalid => ⟨hvalid, List.take_prefix _ _, List.length_take_le _ _⟩⟩

theorem lastError_of_retryExecutorCommand {now delay : Int} {owner : String}
    {id : ExecutorCommands.Key} {inps : List (Input ExecutorCommands.Key)}
    {d d' : ExecutorCommands.Db} {x : ExecutorCommands.QueuedCommand}
    (hretry : (ExecutorCommands.retryExecutorCommand now owner id message delay).transact inps d =
      some (.ok (), d')) (hx : d'.row id = some x) :
    x.lastError = some (ExecutorCommands.commandErrorText message) := by
  unfold ExecutorCommands.retryExecutorCommand at hretry
  split at hretry
  · unfold Program.transact at hretry
    split at hretry
    · next halone =>
      cases hretry
      obtain ⟨result, mid, d₁, hupdate, hnext⟩ := Program.alone_bind_ok halone
      cases result with
      | none => cases hnext
      | some y =>
        cases hnext
        obtain ⟨z, -, -, hz⟩ := Program.alone_update hupdate
        cases hz.symm.trans hx
        rfl
    · cases hretry
    · cases hretry
  · cases hretry

/-- Each of the three texts made of an error text can be stored and sent: what `execute` passes
to `CompleteCallback` after a failed dispatch, what `RetryExecutorCommand` passes and stores as
last_error, and what `finish` puts into the completion record. -/
structure ErrorTextsStorable (message : Bytes) : Prop where
  callback : ∀ text ∈ (Core.Phase.reporting message).callbackMessage, Storable message text
  passed : Storable message (ExecutorCommands.commandErrorText message)
  command : ∀ (now delay : Int) (owner : String) (id : ExecutorCommands.Key)
    (inps : List (Input ExecutorCommands.Key)) (d d' : ExecutorCommands.Db)
    (x : ExecutorCommands.QueuedCommand),
    (ExecutorCommands.retryExecutorCommand now owner id message delay).transact inps d =
      some (.ok (), d') → d'.row id = some x → ∃ text ∈ x.lastError, Storable message text
  record : ∀ (inp : Executor.Input) (request : Executor.DispatchRequest),
    Storable message (Executor.completionRecord inp request (.failed message)).message

/-- The texts made of a valid error text can be stored and sent exactly where the cut after 4096
bytes does not split a character. -/
theorem errorTextsStorable_iff (message : Bytes) (hvalid : valid message = true) :
    ErrorTextsStorable message ↔ ∀ b ∈ message[4096]?, isTail b = false := by
  constructor
  · intro h
    exact (storable_take_iff hvalid).1 (h.callback _ rfl)
  · intro huncut
    have htake := (storable_take_iff hvalid).2 huncut
    constructor
    · rintro text ⟨⟩
      exact htake
    · exact htake
    · intro now delay owner id inps d d' x hretry hx
      exact ⟨_, lastError_of_retryExecutorCommand hretry hx, htake⟩
    · exact fun inp request => htake

theorem errorTextsStorable_short : ErrorTextsStorable (bytes "connection refused") :=
  (errorTextsStorable_iff (bytes "connection refused") (by decide +kernel)).2 (by decide +kernel)

def splitText : Bytes := List.replicate 4095 0x61 ++ [0xC3, 0xA9]

theorem valid_splitText : valid splitText = true := by
  have hascii : valid (List.replicate 4095 0x61) = true := by
    refine valid_of_ascii fun b hb => ?_
    rw [List.eq_of_mem_replicate hb]
    decide
  rw [splitText, valid_append hascii]
  decide

theorem valid_take_splitText : valid (splitText.take 4096) = false := by
  have hlast : splitText[4096]? = some 0xA9 := by
    rw [splitText, List.getElem?_append_right (by rw [List.length_replicate]; decide),
      List.length_replicate]
    rfl
  refine Bool.eq_false_iff.2 fun h => ?_
  exact absurd ((valid_take_iff valid_splitText 4096).1 h 0xA9 hlast) (by decide)

def heldCommands : ExecutorCommands.Db where
  keys := [⟨1, 7⟩]
  row := fun _ => some
    { command := ⟨"node", "cancelled", 7, 1, "shell", none⟩
      lease := { availableAt := 0, lockedBy := some "core", lockedUntil := some 10 } }
  clock := 0

/-- The character at the end is cut in two at each of the three places, and the command is not
put back. -/
theorem splitText_not_storable : valid splitText = true ∧
    (∃ text, (Core.Phase.reporting splitText).callbackMessage = some text ∧ valid text = false) ∧
    valid (ExecutorCommands.commandErrorText splitText) = false ∧
    (ExecutorCommands.retryExecutorCommand 0 "core" ⟨1, 7⟩ splitText 5).transact
      [⟨0, 0, []⟩] heldCommands = some (.error .encoding, heldCommands) ∧
    ∀ inp request,
      valid (Executor.completionRecord inp request (.failed splitText)).message = false := by
  have hinvalid : valid (ExecutorCommands.commandErrorText splitText) = false :=
    valid_take_splitText
  refine ⟨valid_splitText, ⟨_, rfl, valid_take_splitText⟩, hinvalid, ?_, ?_⟩
  · have hrefused : ¬ ExecutorCommands.storable (ExecutorCommands.commandErrorText splitText) := by
      simp [ExecutorCommands.storable, hinvalid]
    rw [ExecutorCommands.retryExecutorCommand, if_neg hrefused]
    rfl
  · exact fun inp request => valid_take_splitText

end Truncations

end GoScheduler.ErrorTexts
