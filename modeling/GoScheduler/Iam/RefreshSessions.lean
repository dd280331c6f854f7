import GoScheduler.ReadCommitted.Triples
import GoScheduler.Schedule

/-! Refresh sessions: `RotateRefreshSession` and `RevokeRefreshSession` of internal/store,
statement by statement. A token is known by its hash. The family-wide UPDATE takes its
snapshot once and then visits the rows it found, waiting where a row is held; that it is
under way is recorded under a key of its own, which no statement reads. -/
namespace GoScheduler.Iam
open ReadCommitted Schedule

structure RefreshSession where
  familyID : ℕ
  userID : ℕ
  tokenHash : ℕ
  expiresAt : Int
  consumedAt : Option Int := none
  revokedAt : Option Int := none
  replacedBy : Option ℕ := none
deriving DecidableEq, Repr

def RefreshSession.Usable (s : RefreshSession) (now : Int) : Prop :=
  s.consumedAt = none ∧ s.revokedAt = none ∧ now ≤ s.expiresAt

inductive SessionKey where
  | session (id : ℕ)
  | uuid (id : ℕ)
  | token (hash : ℕ)
  | sweep (familyID serial : ℕ)
deriving DecidableEq, Repr

def SessionRow : SessionKey → Type
  | .session _ => RefreshSession
  | _ => Unit

inductive SessionError where
  | notFound
  | duplicateKey
deriving DecidableEq, Repr

abbrev SessionDb : Type := Database SessionKey SessionRow
abbrev SessionTx (α : Type) : Type 1 := Program SessionKey SessionRow SessionError α

def sessionRow (d : SessionDb) (id : ℕ) : Option RefreshSession := d.row (.session id)

def sessionsWhere (p : RefreshSession → Bool) (d : SessionDb) : List (ℕ × RefreshSession) :=
  d.keys.filterMap fun k => match k with
    | .session id => match sessionRow d id with
        | some s => if p s then some (id, s) else none
        | none => none
    | _ => none

def sessionByToken (hash : ℕ) (d : SessionDb) : Option (ℕ × RefreshSession) :=
  (sessionsWhere (fun s => s.tokenHash == hash) d).head?

def RefreshSession.revoke (now : Int) (s : RefreshSession) : RefreshSession :=
  { s with revokedAt := some (s.revokedAt.getD now) }

def RefreshSession.consume (now : Int) (nextID : ℕ) (s : RefreshSession) : RefreshSession :=
  { s with consumedAt := some now, replacedBy := some nextID }

/-- `UPDATE refresh_sessions SET revoked_at=COALESCE(revoked_at,now()) WHERE family_id=...`,
with the family as the snapshot of the statement has it. -/
def revokeFamily (serial : ℕ) (now : Int) (family : SessionDb → Option ℕ) :
    SessionTx (Option ℕ) := do
  let found ← .exec (.note (fun d : SessionDb => (family d).map fun f =>
      (f, (sessionsWhere (fun s => s.familyID == f) d).map Prod.fst))
    fun found => found.toList.map fun x => .sweep x.1 serial)
  match found with
  | none => pure none
  | some (f, ids) => do
      .forEach ids fun id => do
        let _ ← .exec (.update (V := SessionRow) (.session id)
          (fun s : RefreshSession => s.familyID == f) (RefreshSession.revoke now))
        pure ()
      pure (some f)

/-- What a call that commits answers. `conflict` is the error of a rotation that has
revoked the family; a revocation names the family it found. -/
inductive SessionAnswer where
  | rotated (id : ℕ) (next : RefreshSession)
  | conflict (familyID : ℕ)
  | revoked (familyID : Option ℕ)
deriving DecidableEq, Repr

def SessionAnswer.revokes : SessionAnswer → Option ℕ
  | .rotated _ _ => none
  | .conflict f => some f
  | .revoked f => f

def refused (old : RefreshSession) : SessionTx Bool :=
  if old.consumedAt.isSome || old.revokedAt.isSome then pure true
  else do
    let now ← .exec .clock
    pure (decide (old.expiresAt < now))

def rotateRefreshSession (serial : ℕ) (now : Int) (hash : ℕ) (ttl : Int) :
    SessionTx SessionAnswer := do
  match ← .exec (.select (sessionByToken hash)) with
  | none => .fail .notFound
  | some (id, _) =>
      match ← .exec (.lock (V := SessionRow) (.session id)
          fun s : RefreshSession => s.tokenHash == hash) with
      | none => .fail .notFound
      | some (old : RefreshSession) =>
          if ← refused old then do
            let _ ← revokeFamily serial now fun _ => some old.familyID
            pure (.conflict old.familyID)
          else do
            let newHash ← .exec (.fresh SessionKey.token)
            let nextID ← .exec (.fresh SessionKey.uuid)
            let goNow ← .exec .clock
            let next : RefreshSession :=
              { familyID := old.familyID, userID := old.userID, tokenHash := newHash,
                expiresAt := timestamp (goNow + ttl) }
            if ← .exec (.insert (V := SessionRow) (.session nextID) next) then do
              let _ ← .exec (.update (V := SessionRow) (.session id) (fun _ => true)
                (RefreshSession.consume now nextID))
              pure (.rotated nextID next)
            else .fail .duplicateKey

def revokeRefreshSession (serial : ℕ) (now : Int) (hash : ℕ) : SessionTx SessionAnswer := do
  let family ← revokeFamily serial now fun d =>
    (sessionByToken hash d).map fun x => x.2.familyID
  pure (.revoked family)

inductive SessionOperation where
  | rotateRefreshSession (hash : ℕ) (ttl : Int)
  | revokeRefreshSession (hash : ℕ)
deriving DecidableEq

structure SessionCall where
  serial : ℕ
  now : Int
  operation : SessionOperation
deriving DecidableEq

def SessionCall.program (c : SessionCall) : SessionTx SessionAnswer :=
  match c.operation with
  | .rotateRefreshSession hash ttl => Iam.rotateRefreshSession c.serial c.now hash ttl
  | .revokeRefreshSession hash => Iam.revokeRefreshSession c.serial c.now hash

def sessionSystem : System SessionCall SessionKey SessionRow SessionError SessionAnswer where
  program := SessionCall.program
  admissible := fun d c => c.now == d.clock

abbrev SessionMachine : Type 1 :=
  Machine SessionCall SessionKey SessionRow SessionError SessionAnswer

theorem mem_sessionsWhere {p : RefreshSession → Bool} {d : SessionDb} {id : ℕ}
    {s : RefreshSession} : (id, s) ∈ sessionsWhere p d ↔
      SessionKey.session id ∈ d.keys ∧ sessionRow d id = some s ∧ p s = true := by
  unfold sessionsWhere
  rw [List.mem_filterMap]
  constructor
  · rintro ⟨k, hk, hs⟩
    cases k with
    | uuid | token | sweep => cases hs
    | session id' =>
      dsimp only at hs
      split at hs
      · next s' hrow =>
          split at hs
          · next hp =>
              cases hs
              exact ⟨hk, hrow, hp⟩
          · cases hs
      · cases hs
  · rintro ⟨hk, hrow, hp⟩
    exact ⟨_, hk, by simp [hrow, hp]⟩

/-! What a transaction may do to the sessions. -/

structure Continues (s s' : RefreshSession) : Prop where
  family : s'.familyID = s.familyID
  revoked : s.revokedAt.isSome = true → s'.revokedAt.isSome = true

theorem Continues.refl (s : RefreshSession) : Continues s s := ⟨rfl, id⟩

theorem Continues.trans {s s' s'' : RefreshSession} (h : Continues s s') (h' : Continues s' s'') :
    Continues s s'' := ⟨h'.family.trans h.family, fun hr => h'.revoked (h.revoked hr)⟩

theorem Continues.revoke (now : Int) (s : RefreshSession) : Continues s (s.revoke now) :=
  ⟨rfl, fun _ => rfl⟩

theorem Continues.consume (now : Int) (nextID : ℕ) (s : RefreshSession) :
    Continues s (s.consume now nextID) := ⟨rfl, id⟩

def HoldsLive (f : ℕ) (o : Overlay SessionRow) : Prop :=
  ∃ id s v, o (.session id) = some ⟨some s, v⟩ ∧ s.familyID = f ∧ s.revokedAt = none

/-- Sessions are updated as `Continues` says, and inserted only into a family of which a
session that is not revoked is held. -/
structure SessionWrites (o : Overlay SessionRow) : Prop where
  updates : ∀ id s v, o (.session id) = some ⟨some s, v⟩ → ∃ s', v = some s' ∧ Continues s s'
  inserts : ∀ id s', o (.session id) = some ⟨none, some s'⟩ → HoldsLive s'.familyID o

def Closed (f : ℕ) (d : SessionDb) : Prop :=
  ∀ id s, sessionRow d id = some s → s.familyID = f → s.revokedAt.isSome = true

variable {f id : ℕ} {o : Overlay SessionRow} {d : SessionDb} {c : SessionCall}

theorem Closed.commit (h : Closed f d) (ha : o.Agrees d) (hw : SessionWrites o) :
    Closed f (d.overlay o) := by
  intro id s hrow hf
  cases ho : o (.session id) with
  | none =>
    have hd : sessionRow d id = some s := (Database.overlay_row_free ho).symm.trans hrow
    exact h id s hd hf
  | some held =>
    obtain ⟨base, version⟩ := held
    have hv : version = some s := (Database.overlay_row_held ho).symm.trans hrow
    subst hv
    cases base with
    | some s₀ =>
      obtain ⟨s', hs', hc⟩ := hw.updates id s₀ _ ho
      cases hs'
      exact hc.revoked (h id s₀ (ha _ _ ho) (hc.family.symm.trans hf))
    | none =>
      obtain ⟨id', s', v, hheld, hf', hlive⟩ := hw.inserts id s ho
      have hclosed := h id' s' (ha _ _ hheld) (hf'.trans hf)
      simp [hlive] at hclosed

theorem HoldsLive.not_closed (h : HoldsLive f o) (ha : o.Agrees d) : ¬ Closed f d := by
  obtain ⟨id, s, v, hheld, hf, hlive⟩ := h
  intro hclosed
  have hrevoked := hclosed id s (ha _ _ hheld) hf
  simp [hlive] at hrevoked

/-- While `c` revokes a family the other transaction inserts no session into it. -/
def Apart (c : SessionCall) (o : Overlay SessionRow) (_ : SessionCall)
    (o' : Overlay SessionRow) : Prop :=
  ∀ f, o (.sweep f c.serial) ≠ none → ∀ id s, o' (.session id) = some ⟨none, some s⟩ →
    s.familyID ≠ f

def sessionDiscipline : Discipline SessionCall SessionKey SessionRow where
  inv := fun _ => True
  guarantee := fun _ _ => SessionWrites
  pair := Apart
  alone := fun _ _ _ => True
  reading := fun _ _ _ => True
  inv_addKey := fun _ h => h
  inv_advance := fun _ h => h
  inv_commit := fun _ _ _ => trivial

def UpdatesOnly (o : Overlay SessionRow) : Prop :=
  ∀ id h, o (.session id) = some h → ∃ s s', h = ⟨some s, some s'⟩ ∧ Continues s s'

theorem UpdatesOnly.sessionWrites (h : UpdatesOnly o) : SessionWrites o := by
  constructor
  · intro id s v ho
    obtain ⟨s₀, s', he, hc⟩ := h id _ ho
    cases he
    exact ⟨s', rfl, hc⟩
  · intro id s' ho
    obtain ⟨s₀, s'', he, _⟩ := h id _ ho
    cases he

/-- What a session looks like to a transaction that only updates comes from a committed row. -/
theorem UpdatesOnly.base (h : UpdatesOnly o) (ha : o.Agrees d) {s : RefreshSession}
    (hrow : sessionRow (d.overlay o) id = some s) :
    ∃ s₀, d.row (.session id) = some s₀ ∧ Continues s₀ s := by
  cases ho : o (.session id) with
  | none => exact ⟨s, (Database.overlay_row_free ho).symm.trans hrow, .refl s⟩
  | some held =>
    obtain ⟨s₀, s', he, hc⟩ := h id held ho
    subst he
    have hs : some s' = some s := (Database.overlay_row_held ho).symm.trans hrow
    cases hs
    exact ⟨s₀, ha _ _ ho, hc⟩

theorem UpdatesOnly.write (h : UpdatesOnly o) (ha : o.Agrees d) {s s' : RefreshSession}
    (hrow : sessionRow (d.overlay o) id = some s) (hc : Continues s s') :
    UpdatesOnly (o.write d (.session id) (some s')) := by
  intro id' held hk
  by_cases hid : SessionKey.session id' = .session id
  · cases hid
    obtain ⟨s₀, hbase, hc₀⟩ := h.base ha hrow
    rw [Overlay.write_self_of_agrees ha, hbase] at hk
    cases hk
    exact ⟨s₀, s', rfl, hc₀.trans hc⟩
  · rw [Overlay.write_ne hid] at hk
    exact h id' held hk

structure Sweeping (c : SessionCall) (f : ℕ) (rest : List ℕ) (o : Overlay SessionRow)
    (d : SessionDb) : Prop where
  mark : o (.sweep f c.serial) ≠ none
  updates : UpdatesOnly o
  swept : ∀ id s, sessionRow (d.overlay o) id = some s → s.familyID = f →
    s.revokedAt.isSome = true ∨ id ∈ rest

theorem Sweeping.stable (f : ℕ) (rest : List ℕ) :
    sessionDiscipline.Stable c (Sweeping c f rest) := by
  intro o d d' hop h
  refine ⟨h.mark, h.updates, fun id s hrow hf => ?_⟩
  -- only a commit of another transaction changes a row that is not held here
  cases hop.interferes with
  | grow ws => exact h.swept id s (by simpa [sessionRow, Database.overlay] using hrow) hf
  | tick n => exact h.swept id s hrow hf
  | @commit t' o' _ _ hp ha hg =>
    cases ho : o (.session id) with
    | some held =>
      refine h.swept id s ?_ hf
      exact (Database.overlay_row_held ho).trans ((Database.overlay_row_held ho).symm.trans hrow)
    | none =>
      have hrow' : (d.overlay o').row (.session id) = some s :=
        (Database.overlay_row_free ho).symm.trans hrow
      have hview : ∀ s₀, d.row (.session id) = some s₀ → sessionRow (d.overlay o) id = some s₀ :=
        fun s₀ h₀ => (Database.overlay_row_free ho).trans h₀
      cases ho' : o' (.session id) with
      | none => exact h.swept id s (hview s ((Database.overlay_row_free ho').symm.trans hrow')) hf
      | some held =>
        obtain ⟨base, version⟩ := held
        have hv : version = some s := (Database.overlay_row_held ho').symm.trans hrow'
        subst hv
        cases base with
        | none => exact absurd hf (hp f h.mark id s ho')
        | some s₀ =>
          obtain ⟨s', hs', hc⟩ := hg.updates id s₀ _ ho'
          cases hs'
          have hold := h.swept id s₀ (hview s₀ (ha _ _ ho')) (hc.family.symm.trans hf)
          exact hold.imp_left hc.revoked

theorem Sweeping.closed (h : Sweeping c f [] o d) : Closed f (d.overlay o) :=
  fun id s hrow hf => (h.swept id s hrow hf).resolve_right (by simp)

theorem sweeping_note (ha : o.Agrees d) (hc : o.Covered d) (h : UpdatesOnly o) (f : ℕ) :
    Sweeping c f ((sessionsWhere (fun s => s.familyID == f) (d.overlay o)).map Prod.fst)
      (o.writeAll d (lockWrites (d.overlay o) [.sweep f c.serial]))
      (d.addKeys (lockWrites (d.overlay o) [.sweep f c.serial])) := by
  have hkeys := Overlay.writeAll_lockWrites ha [SessionKey.sweep f c.serial]
  refine ⟨by simp [hkeys], fun id held hk => ?_, fun id s hrow hf => .inr ?_⟩
  · rw [hkeys, if_neg (by simp)] at hk
    exact h id held hk
  · unfold sessionRow at hrow
    rw [Overlay.overlay_lockWrites ha (Database.addKeys_row _ _)] at hrow
    have hmem : (id, s) ∈ sessionsWhere (fun s => s.familyID == f) (d.overlay o) :=
      mem_sessionsWhere.2 ⟨hc.mem_keys hrow, hrow, by simp [hf]⟩
    exact List.mem_map_of_mem hmem

theorem sweeping_update (now : Int) (id : ℕ) (rest : List ℕ) :
    sessionDiscipline.Triple c (Sweeping c f (id :: rest))
      (do
        let _ ← .exec (.update (V := SessionRow) (.session id)
          (fun s : RefreshSession => s.familyID == f) (RefreshSession.revoke now))
        pure () : SessionTx Unit) fun _ => Sweeping c f rest := by
  refine .bind (.update (Q := fun _ => Sweeping c f rest) (Sweeping.stable f _) ?_ ?_)
    fun _ _ _ _ _ h => h
  · intro o d _ _ h hnone
    refine ⟨h.mark, h.updates, fun id' s hrow hf => ?_⟩
    refine (h.swept id' s hrow hf).imp_right fun hmem => ?_
    refine (List.mem_cons.1 hmem).resolve_left fun hid => ?_
    subst hid
    have hother := hnone s hrow
    simp [hf] at hother
  · intro o d v _ ha h hrow _ _
    refine ⟨?_, h.updates.write ha hrow (.revoke now v), fun id' s hrow' hf => ?_⟩
    · rw [Overlay.write_ne (by simp)]
      exact h.mark
    · by_cases hid : SessionKey.session id' = .session id
      · cases hid
        have hs : some (RefreshSession.revoke now v) = some s :=
          (Database.overlay_write_self ..).symm.trans hrow'
        cases hs
        exact .inl rfl
      · have hrow'' : sessionRow (d.overlay o) id' = some s :=
          (Database.overlay_write_ne hid).symm.trans hrow'
        refine (h.swept id' s hrow'' hf).imp_right fun hmem => ?_
        exact (List.mem_cons.1 hmem).resolve_left fun he => hid (by rw [he])

theorem revokeFamily_closes (now : Int) (family : SessionDb → Option ℕ) :
    sessionDiscipline.Triple c (fun o _ => UpdatesOnly o) (revokeFamily c.serial now family)
      fun r o d => (SessionWrites o ∧ ∃ d', r = family d') ∧
        ∀ f, r = some f → Sweeping c f [] o d := by
  refine .bind (.note (Q := fun found o d => (∃ d', found.map Prod.fst = family d') ∧
    UpdatesOnly o ∧ ∀ f ids, found = some (f, ids) → Sweeping c f ids o d) (.overlay _) ?_)
    fun found => ?_
  · intro o d _ ha hc h _
    cases hf : family (d.overlay o) with
    | none => exact ⟨⟨_, hf.symm⟩, h, fun _ _ he => by cases he⟩
    | some f =>
      have hsweep := sweeping_note (c := c) ha hc h f
      refine ⟨⟨_, hf.symm⟩, hsweep.updates, fun f' ids he => ?_⟩
      cases he
      exact hsweep
  refine .given fun hfamily => ?_
  cases found with
  | none => exact .pure fun _ _ _ _ h => ⟨⟨h.1.sessionWrites, hfamily⟩, fun _ he => by cases he⟩
  | some x =>
    obtain ⟨f, ids⟩ := x
    refine .bind ((Discipline.Triple.forEach_rest (J := Sweeping c f)
      (fun id rest => sweeping_update now id rest) ids).strengthen
        fun _ _ _ _ h => h.2 f ids rfl) fun _ => .pure fun o d _ _ h => ?_
    refine ⟨⟨h.updates.sessionWrites, hfamily⟩, fun f' he => ?_⟩
    cases he
    exact h

structure Answered (c : SessionCall) (r : SessionAnswer) (o : Overlay SessionRow)
    (d : SessionDb) : Prop where
  writes : SessionWrites o
  closes : ∀ f, r.revokes = some f → Sweeping c f [] o d
  rotates : ∀ id next, r = .rotated id next → HoldsLive next.familyID o

structure Locked (id : ℕ) (old : RefreshSession) (o : Overlay SessionRow) : Prop where
  held : o (.session id) = some ⟨some old, some old⟩
  others : ∀ id', id' ≠ id → o (.session id') = none

structure Inserted (id : ℕ) (old : RefreshSession) (o : Overlay SessionRow) : Prop where
  held : ∃ v, o (.session id) = some ⟨some old, some v⟩ ∧ Continues old v
  others : ∀ id', id' ≠ id → ∀ h, o (.session id') = some h →
    ∃ s, h = ⟨none, some s⟩ ∧ s.familyID = old.familyID

variable {old : RefreshSession}

theorem Locked.updatesOnly (h : Locked id old o) : UpdatesOnly o := by
  intro id' held hk
  by_cases hid : id' = id
  · subst hid
    rw [h.held] at hk
    cases hk
    exact ⟨old, old, rfl, .refl old⟩
  · rw [h.others id' hid] at hk
    cases hk

theorem Inserted.holdsLive (h : Inserted id old o) (hlive : old.revokedAt = none) :
    HoldsLive old.familyID o := by
  obtain ⟨v, hheld, _⟩ := h.held
  exact ⟨id, old, _, hheld, rfl, hlive⟩

theorem Inserted.sessionWrites (h : Inserted id old o) (hlive : old.revokedAt = none) :
    SessionWrites o := by
  constructor
  · intro id' s v ho
    by_cases hid : id' = id
    · subst hid
      obtain ⟨v', hheld, hc⟩ := h.held
      rw [hheld] at ho
      cases ho
      exact ⟨v', rfl, hc⟩
    · obtain ⟨_, he, _⟩ := h.others id' hid _ ho
      cases he
  · intro id' s' ho
    by_cases hid : id' = id
    · subst hid
      obtain ⟨v', hheld, _⟩ := h.held
      rw [hheld] at ho
      cases ho
    · obtain ⟨s, he, hf⟩ := h.others id' hid _ ho
      cases he
      exact hf ▸ h.holdsLive hlive

theorem lock_locks (id : ℕ) (p : RefreshSession → Bool) :
    sessionDiscipline.Triple c (fun o _ => o = Overlay.empty)
      (.exec (.lock (V := SessionRow) (.session id) p) : SessionTx (Option RefreshSession))
      fun r o _ => ∀ old, r = some old → Locked id old o := by
  refine .lock (.overlay _) (fun _ _ _ _ _ _ _ h => by cases h) ?_
  rintro o d v _ ha rfl hrow _ _ old he
  cases he
  constructor
  · rw [Overlay.write_self_of_agrees ha]
    exact congrArg some (congrArg (Held.mk · _) hrow)
  · intro id' hid
    rw [Overlay.write_ne (by simpa using hid)]
    rfl

theorem fresh_locked (key : ℕ → SessionKey) (hkey : ∀ n i, SessionKey.session i ≠ key n) :
    sessionDiscipline.Triple c (fun o _ => Locked id old o)
      (.exec (.fresh key) : SessionTx ℕ) fun _ o _ => Locked id old o := by
  refine .fresh (.overlay _) fun o d u _ _ _ h _ _ => ?_
  exact ⟨by rw [Overlay.write_ne (hkey u id), h.held],
    fun id' hid => by rw [Overlay.write_ne (hkey u id'), h.others id' hid]⟩

theorem insert_inserted {next : RefreshSession} {nextID : ℕ}
    (hnext : next.familyID = old.familyID) :
    sessionDiscipline.Triple c (fun o _ => Locked id old o)
      (.exec (.insert (V := SessionRow) (.session nextID) next) : SessionTx Bool)
      fun r o _ => r = true → Inserted id old o := by
  refine .insert (.overlay _) (fun _ _ _ _ _ _ h => by cases h) ?_
  intro o d _ ha h hnone _ _
  have hne : id ≠ nextID := by
    rintro rfl
    have hsome : (d.overlay o).row (.session id) = some old := Database.overlay_row_held h.held
    rw [hsome] at hnone
    cases hnone
  refine ⟨⟨old, ?_, .refl old⟩, fun id' hid held hk => ?_⟩
  · rw [Overlay.write_ne (by simpa using hne), h.held]
  · by_cases hid' : SessionKey.session id' = .session nextID
    · cases hid'
      have hbase : d.row (.session nextID) = none :=
        (Database.overlay_row_free (h.others nextID hid)).symm.trans hnone
      rw [Overlay.write_self_of_agrees ha, hbase] at hk
      cases hk
      exact ⟨next, rfl, hnext⟩
    · rw [Overlay.write_ne hid', h.others id' hid] at hk
      cases hk

theorem update_inserted (set : RefreshSession → RefreshSession)
    (hset : ∀ s, Continues s (set s)) :
    sessionDiscipline.Triple c (fun o _ => Inserted id old o)
      (.exec (.update (V := SessionRow) (.session id) (fun _ => true) set) :
        SessionTx (Option RefreshSession)) fun _ o _ => Inserted id old o := by
  refine .update (.overlay _) (fun _ _ _ _ h _ => h) fun o d v _ ha h hrow _ _ => ?_
  obtain ⟨v', hheld, hc⟩ := h.held
  have hv : some v' = some v := (Database.overlay_row_held hheld).symm.trans hrow
  cases hv
  refine ⟨⟨set v, ?_, hc.trans (hset v)⟩, fun id' hid held hk => ?_⟩
  · rw [Overlay.write_self_of_agrees ha, ha _ _ hheld]
  · rw [Overlay.write_ne (by simpa using hid)] at hk
    exact h.others id' hid held hk

theorem refused_live : sessionDiscipline.Triple c (fun o _ => Locked id old o) (refused old)
    fun r o _ => Locked id old o ∧ (r = false → old.revokedAt = none) := by
  unfold refused
  split
  · exact .pure fun _ _ _ _ h => ⟨h, fun he => by cases he⟩
  · next hno =>
      have hlive : old.revokedAt = none := by
        cases hr : old.revokedAt with
        | none => rfl
        | some t => simp [hr] at hno
      refine .bind (.clock (Q := fun _ o _ => Locked id old o) (.overlay _)
        fun _ _ _ _ _ h _ _ => h) fun n => .pure fun _ _ _ _ h => ⟨h, fun _ => hlive⟩

theorem rotateRefreshSession_answers (now : Int) (hash : ℕ) (ttl : Int) :
    sessionDiscipline.Triple c (fun o _ => o = Overlay.empty)
      (rotateRefreshSession c.serial now hash ttl) (Answered c) := by
  refine .bind (.read (.overlay _)) fun found => ?_
  cases found with
  | none => exact .fail
  | some x =>
    refine .bind (lock_locks x.1 _) fun r => ?_
    cases r with
    | none => exact .fail
    | some old =>
      refine .bind (refused_live.strengthen fun _ _ _ _ h => h old rfl) fun r => ?_
      cases r with
      | true =>
        refine .bind ((revokeFamily_closes now _).strengthen
          fun _ _ _ _ h => h.1.updatesOnly) fun r => .pure fun o d _ _ h => ?_
        obtain ⟨⟨hwrites, _, hr⟩, hsweep⟩ := h
        refine ⟨hwrites, fun f he => ?_, fun _ _ he => by cases he⟩
        exact hsweep f (hr.trans he)
      | false =>
        refine Discipline.Triple.strengthen (A := fun o _ => old.revokedAt = none ∧
          Locked x.1 old o) (.given fun hlive => ?_) fun _ _ _ _ h => ⟨h.2 rfl, h.1⟩
        refine .bind (fresh_locked .token (by simp)) fun newHash => ?_
        refine .bind (fresh_locked .uuid (by simp)) fun nextID => ?_
        refine .bind (.clock (Q := fun _ o _ => Locked x.1 old o) (.overlay _)
          fun _ _ _ _ _ h _ _ => h) fun goNow => ?_
        refine .bind (insert_inserted rfl) fun r => ?_
        cases r with
        | false => exact .fail
        | true =>
          refine .bind ((update_inserted _ (.consume now nextID)).strengthen
            fun _ _ _ _ h => h rfl) fun _ => .pure fun o d _ _ h => ?_
          refine ⟨h.sessionWrites hlive, fun f he => (by cases he), fun _ next he => ?_⟩
          cases he
          exact h.holdsLive hlive

theorem revokeRefreshSession_answers (now : Int) (hash : ℕ) :
    sessionDiscipline.Triple c (fun o _ => o = Overlay.empty)
      (revokeRefreshSession c.serial now hash) (Answered c) := by
  refine .bind ((revokeFamily_closes now _).strengthen ?_) fun r => .pure fun o d _ _ h => ?_
  · rintro o d _ _ rfl id held hk
    cases hk
  · exact ⟨h.1.1, fun f he => h.2 f he, fun _ _ he => by cases he⟩

theorem answered (c : SessionCall) (d : SessionDb) :
    sessionDiscipline.Safe c (Answered c) (sessionSystem.program c) Overlay.empty d := by
  unfold sessionSystem SessionCall.program
  dsimp only
  split
  · exact rotateRefreshSession_answers _ _ _ _ d trivial (fun _ _ h => by cases h) rfl
  · exact revokeRefreshSession_answers _ _ _ d trivial (fun _ _ h => by cases h) rfl

theorem answer_answered : sessionDiscipline.Answer Answered where
  final := fun _ _ _ _ h _ _ _ _ => h.writes
  later := fun _ _ _ _ _ hl h =>
    ⟨h.writes, fun f hf => (Sweeping.stable f []).later hl (h.closes f hf), h.rotates⟩

theorem closed_lasting :
    sessionDiscipline.Lasting Answered fun _ r d => ∀ f, r.revokes = some f → Closed f d where
  made := fun _ _ _ _ _ _ h f hf => (h.closes f hf).closed
  kept := fun _ _ _ _ _ _ ha hw h f hf => (h f hf).commit ha hw
  rows := fun _ _ d d' hrow h f hf id s hs => h f hf id s (by rwa [sessionRow, ← hrow])

/-- No transaction inserts a session into a family that another is revoking. -/
def StepApart (_ : SessionMachine) (_ : Label SessionCall SessionKey) (m : SessionMachine) : Prop :=
  ∀ c c', c ≠ c' → Apart c (m.store.own c) c' (m.store.own c')

/-- In a run in which no session is inserted into a family that another transaction is
revoking: once a rotation that was refused or a revocation has committed, no session of
its family is usable at any time and no rotation in the family is about to commit. -/
theorem revoked_family_unusable {m₀ m : SessionMachine} (hrest : m₀.AtRest)
    (hreturned : m₀.returned = [])
    (hrun : Machine.ReachableFrom sessionSystem StepApart m₀ m) {c : SessionCall}
    {r : SessionAnswer} {f : ℕ} (hr : (c, .ok r) ∈ m.returned) (hf : r.revokes = some f) :
    (∀ id s, sessionRow m.store.committed id = some s → s.familyID = f →
      ∀ now, ¬ s.Usable now) ∧
    ∀ c' id next, m.running c' = some (.done (.rotated id next)) → next.familyID ≠ f := by
  have hstart : ∀ c d, sessionDiscipline.inv d → sessionSystem.admissible d c = true →
      sessionDiscipline.Safe c (Answered c) (sessionSystem.program c) Overlay.empty d :=
    fun c d _ _ => answered c d
  have hmeets : ∀ m l m', StepApart m l m' → sessionDiscipline.Meets m l m' :=
    fun m l m' h => ⟨fun c c' hc _ _ => h c c' hc, fun _ => trivial, fun _ _ _ => trivial⟩
  have hm₀ : sessionDiscipline.SoundFor Answered m₀ := .of_atRest hrest trivial
  have hsound := Discipline.SoundFor.run answer_answered hstart hmeets hm₀ hrun
  have hclosed : Closed f m.store.committed := Discipline.SoundFor.returned answer_answered
    closed_lasting hstart hmeets hm₀ hreturned hrun c r hr f hf
  refine ⟨fun id s hrow hfam now husable => ?_, fun c' id next hdone hfam => ?_⟩
  · have hrevoked := hclosed id s hrow hfam
    simp [husable.2.1] at hrevoked
  · have hlive := (hsound.answer hdone).rotates id next rfl
    exact (hfam ▸ hlive).not_closed (m.store.own_agrees c') hclosed

def oneSession : SessionMachine := .loaded 0 ⟨0, 0, .revokeRefreshSession 0⟩
  [⟨.session 1, some { familyID := 1, userID := 1, tokenHash := 100, expiresAt := 5000 }⟩]

/-- The steps of two calls on the token 100: the revocation takes its snapshot while the
rotation has inserted the next session and not yet committed. -/
def overlappingSteps (rotate revoke : SessionCall) : List (Label SessionCall SessionKey) :=
  let statement (c : SessionCall) : Label SessionCall SessionKey := .exec c ⟨0, 2, []⟩
  [.begin rotate, .begin revoke] ++ List.replicate 7 (statement rotate) ++ [statement revoke] ++
    [statement rotate, .finish rotate, statement revoke, .finish revoke]

def hasReturned (c : SessionCall) (r : SessionAnswer) (m : SessionMachine) : Bool :=
  m.returned.any fun x => x.1 = c && match x.2 with
    | .ok r' => r' = r
    | .error _ => false

theorem mem_returned {m : SessionMachine} {c : SessionCall} {r : SessionAnswer}
    (h : hasReturned c r m = true) : (c, .ok r) ∈ m.returned := by
  obtain ⟨x, hx, hx'⟩ := List.any_eq_true.1 h
  rw [Bool.and_eq_true] at hx'
  obtain ⟨c', res⟩ := x
  have hc : c' = c := of_decide_eq_true hx'.1
  cases res with
  | error e => cases hx'.2
  | ok r' =>
    have hr : r' = r := of_decide_eq_true hx'.2
    subst hc hr
    exact hx

def usableIn (f id : ℕ) (m : SessionMachine) : Bool :=
  (sessionRow m.store.committed id).any fun s => s.familyID == f && s.consumedAt.isNone &&
    s.revokedAt.isNone && 0 ≤ s.expiresAt

theorem usable_of_usableIn {m : SessionMachine} {f id : ℕ} (h : usableIn f id m = true) :
    ∃ s, sessionRow m.store.committed id = some s ∧ s.familyID = f ∧ s.Usable 0 := by
  obtain ⟨s, hs, husable⟩ := (Option.any_eq_true _ _).1 h
  exact ⟨s, hs, by simpa [RefreshSession.Usable, and_assoc] using husable⟩

/-- A revocation misses the session of a rotation that has not committed. -/
theorem revoked_family_usable : ¬ ∀ (m₀ m : SessionMachine), m₀.AtRest → m₀.returned = [] →
    Machine.ReachableFrom sessionSystem (fun _ _ _ => True) m₀ m →
    ∀ (c : SessionCall) (r : SessionAnswer) (f : ℕ), (c, .ok r) ∈ m.returned →
      r.revokes = some f → ∀ id s, sessionRow m.store.committed id = some s → s.familyID = f →
        ∀ now, ¬ s.Usable now := by
  intro hclaim
  let rotate : SessionCall := ⟨1, 0, .rotateRefreshSession 100 9000⟩
  let revoke : SessionCall := ⟨2, 0, .revokeRefreshSession 100⟩
  obtain ⟨m, hreach, hm⟩ : ∃ m, Machine.ReachableFrom sessionSystem (fun _ _ _ => True)
      oneSession m ∧ (hasReturned revoke (.revoked (some 1)) m && usableIn 1 2 m) = true :=
    Machine.exists_reachableFrom (fun _ _ _ => true) (fun _ _ _ _ => trivial)
      (overlappingSteps rotate revoke) _ (by decide +kernel)
  rw [Bool.and_eq_true] at hm
  obtain ⟨s, hrow, hf, husable⟩ := usable_of_usableIn hm.2
  exact hclaim _ m (Machine.atRest_loaded _ _ _) rfl hreach revoke _ 1 (mem_returned hm.1) rfl
    2 s hrow hf 0 husable

def stepApart (_ : SessionMachine) (_ : Label SessionCall SessionKey) (m : SessionMachine) : Bool :=
  (m.store.keys.all fun k => match k with
    | .sweep f n => (m.store.cell (.sweep f n)).held.isNone
    | _ => true) ||
  m.store.keys.all fun k => match k with
    | .session id => (m.store.cell (.session id)).committed.isSome ||
        (m.store.cell (.session id)).held.isNone
    | _ => true

theorem stepApart_sound {m m' : SessionMachine} {l : Label SessionCall SessionKey}
    (h : stepApart m l m' = true) : StepApart m l m' := by
  intro c c' _ f hsweep id s hinsert
  obtain ⟨mark, hmark⟩ := Option.ne_none_iff_exists'.1 hsweep
  have hs := Store.held_of_own hmark
  have hi := Store.held_of_own hinsert
  unfold stepApart at h
  rw [Bool.or_eq_true] at h
  cases h with
  | inl h =>
    have hfree := List.all_eq_true.1 h _ hs.1
    simp [hs.2.1] at hfree
  | inr h =>
    have hfree := List.all_eq_true.1 h _ hi.1
    simp [hi.2.1, hi.2.2] at hfree

theorem revoked_family_unusable_replayed : ∃ m : SessionMachine,
    (∃ s, sessionRow m.store.committed 2 = some s ∧ s.familyID = 1) ∧
    (∀ id s, sessionRow m.store.committed id = some s → s.familyID = 1 →
      ∀ now, ¬ s.Usable now) ∧
    ∀ c' id next, m.running c' = some (.done (.rotated id next)) → next.familyID ≠ 1 := by
  let rotate : SessionCall := ⟨1, 0, .rotateRefreshSession 100 9000⟩
  let replay : SessionCall := ⟨2, 0, .rotateRefreshSession 100 9000⟩
  let steps (c : SessionCall) (n : ℕ) : List (Label SessionCall SessionKey) :=
    .begin c :: List.replicate n (.exec c ⟨0, 2, []⟩) ++ [.finish c]
  obtain ⟨m, hreach, hm⟩ : ∃ m, Machine.ReachableFrom sessionSystem StepApart oneSession m ∧
      (hasReturned replay (.conflict 1) m &&
        (sessionRow m.store.committed 2).any fun s => s.familyID == 1) = true :=
    Machine.exists_reachableFrom stepApart (fun _ _ _ => stepApart_sound)
      (steps rotate 8 ++ steps replay 5) _ (by decide +kernel)
  rw [Bool.and_eq_true] at hm
  obtain ⟨s, hs, hf⟩ := (Option.any_eq_true _ _).1 hm.2
  exact ⟨m, ⟨s, hs, by simpa using hf⟩, revoked_family_unusable (Machine.atRest_loaded _ _ _) rfl
    hreach (mem_returned hm.1) rfl⟩

end GoScheduler.Iam
