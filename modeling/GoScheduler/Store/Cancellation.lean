import GoScheduler.Store.Effects

/-! Work that an executor may still do when its run is ended for it. A transaction that
cancels a run writes the command to the run's executor as well; between the two it owes
the command. Expired callbacks end runs too, and no command is written for them. -/
namespace GoScheduler.Store
open ReadCommitted Schedule

section Rows

def neverCancels (op : Operation) : Bool := assigns op || decide (op = .expireCallbacks)

structure RunKept (op : Operation) (r r' : Run) : Prop where
  id : r'.id = r.id
  tenantID : r'.tenantID = r.tenantID
  address : assigns op = false → r'.executorAddress = r.executorAddress
  ended : r.status.active = false → r' = r

theorem RunKept.refl (op : Operation) (r : Run) : RunKept op r r :=
  ⟨rfl, rfl, fun _ => rfl, fun _ => rfl⟩

theorem RunKept.trans {op : Operation} {r r' r'' : Run} (h : RunKept op r r')
    (h' : RunKept op r' r'') : RunKept op r r'' := by
  refine ⟨h'.id.trans h.id, h'.tenantID.trans h.tenantID,
    fun hop => (h'.address hop).trans (h.address hop), fun hr => ?_⟩
  have hsame := h.ended hr
  subst hsame
  exact h'.ended hr

theorem RunKept.of_active {op : Operation} {r r' : Run} (hr : r.status.active = true)
    (hsame : r'.Same r) (haddress : assigns op = false → r'.executorAddress = r.executorAddress) :
    RunKept op r r' :=
  ⟨hsame.id, hsame.tenantID, haddress, fun hended => by simp [hr] at hended⟩

structure Sent (tenantID : ℕ) (r : Run) (c : ExecutorCommand) : Prop where
  tenantID : r.tenantID = tenantID
  status : r.status = .cancelled
  address : c.executorAddress = r.executorAddress

structure Ended (base : Option Run) (r : Run) : Prop where
  status : r.status = .cancelled
  base : ∀ r₀, base = some r₀ → r₀.status.active = true

theorem not_active_of_cancelled {r : Run} (h : r.status = .cancelled) :
    r.status.active = false := by
  simp [h, RunStatus.active]

structure CommandsFollow (d : Db) : Prop where
  keyed : ∀ id r, d.row (.run id) = some r → r.id = id
  sent : ∀ tenantID id c, d.row (.command tenantID id) = some c →
    ∃ r, d.row (.run id) = some r ∧ Sent tenantID r c

end Rows

section Owing

/-- The rows a transaction holds when the commands for the runs in `owed` are still missing. -/
structure Owing (op : Operation) (owed : List Run) (o : Overlay Row) : Prop where
  kept : ∀ id r v, o (.run id) = some ⟨some r, v⟩ → ∃ r', v = some r' ∧ RunKept op r r'
  born : ∀ id r, o (.run id) = some ⟨none, some r⟩ → r.id = id
  sent : ∀ tenantID id b c, o (.command tenantID id) = some ⟨b, some c⟩ →
    b = some c ∨ ∃ b' r, o (.run id) = some ⟨b', some r⟩ ∧ Sent tenantID r c
  held : ∀ r ∈ owed, ∃ b, o (.run r.id) = some ⟨b, some r⟩ ∧ Ended b r
  settled : ∀ id b r, o (.run id) = some ⟨b, some r⟩ → Ended b r → r.executorAddress ≠ "" →
    r ∈ owed ∨ ∃ b' c, o (.command r.tenantID id) = some ⟨b', some c⟩ ∧ Sent r.tenantID r c

variable {op : Operation} {owed : List Run} {o o' : Overlay Row} {d : Db}

theorem Owing.empty (op : Operation) : Owing op [] Overlay.empty where
  kept := fun _ _ _ h => by cases h
  born := fun _ _ h => by cases h
  sent := fun _ _ _ _ h => by cases h
  held := fun _ h => by cases h
  settled := fun _ _ _ h => by cases h

theorem Owing.view (h : Owing op owed o) (ha : o.Agrees d) {id : ℕ} {r₀ : Run}
    (hr₀ : d.row (.run id) = some r₀) :
    ∃ r, (d.overlay o).row (.run id) = some r ∧ RunKept op r₀ r := by
  rcases ha.row_cases (.run id) with ⟨_, hsame⟩ | hk
  · exact ⟨r₀, hsame.trans hr₀, .refl op r₀⟩
  · rw [hr₀] at hk
    exact h.kept id r₀ _ hk

theorem Owing.view_keyed (h : Owing op owed o) (hd : CommandsFollow d) (ha : o.Agrees d) {id : ℕ}
    {r : Run} (hr : (d.overlay o).row (.run id) = some r) : r.id = id := by
  cases hrow : d.row (.run id) with
  | some r₀ =>
    obtain ⟨r', hr', hkept⟩ := h.view ha hrow
    cases hr.symm.trans hr'
    exact hkept.id.trans (hd.keyed id r₀ hrow)
  | none =>
    rcases ha.row_cases (.run id) with ⟨_, hsame⟩ | hk
    · cases (hsame.symm.trans hr).symm.trans hrow
    · rw [hrow, hr] at hk
      exact h.born id r hk

theorem Owing.base_active (h : Owing op owed o) (ha : o.Agrees d) {id : ℕ} {r : Run}
    (hr : (d.overlay o).row (.run id) = some r) (hactive : r.status.active = true) (r₀ : Run)
    (hr₀ : d.row (.run id) = some r₀) : r₀.status.active = true := by
  obtain ⟨r', hr', hkept⟩ := h.view ha hr₀
  cases hr.symm.trans hr'
  by_contra hended
  have hsame := hkept.ended (by simpa using hended)
  subst hsame
  exact hended hactive

theorem Owing.cancel (h : Owing op owed o) (hd : CommandsFollow d) (ha : o.Agrees d) {id : ℕ}
    {r r' : Run} (hr : (d.overlay o).row (.run id) = some r) (hactive : r.status.active = true)
    (hkept : RunKept op r r') (hstatus : r'.status = .cancelled) :
    Owing op (owed ++ [r']) (o.write d (.run id) (some r')) := by
  have hself : o.write d (.run id) (some r') (.run id) = some ⟨d.row (.run id), some r'⟩ :=
    Overlay.write_self_of_agrees ha _ _
  have hruns : ∀ id' ≠ id, o.write d (.run id) (some r') (.run id') = o (.run id') :=
    fun id' hne => Overlay.write_ne (by simpa using hne)
  have hcommands : ∀ tenantID id', o.write d (.run id) (some r') (.command tenantID id') =
      o (.command tenantID id') := fun _ _ => Overlay.write_ne nofun
  have hid : r'.id = id := hkept.id.trans (h.view_keyed hd ha hr)
  have hended : Ended (d.row (.run id)) r' := ⟨hstatus, h.base_active ha hr hactive⟩
  -- a run that the transaction has cancelled before is another one
  have hne : ∀ {id' b q}, o (.run id') = some ⟨b, some q⟩ → q.status = .cancelled → id' ≠ id := by
    rintro id' b q hq hcancelled rfl
    cases (Database.overlay_row_held hq).symm.trans hr
    simp [not_active_of_cancelled hcancelled] at hactive
  refine ⟨fun id' q v hq => ?_, fun id' q hq => ?_, fun tenantID id' b c hc => ?_, fun q hq => ?_,
    fun id' b q hq hend haddress => ?_⟩
  · by_cases hi : id' = id
    · subst hi
      rw [hself, Option.some.injEq, Held.mk.injEq] at hq
      obtain ⟨hbase, rfl⟩ := hq
      obtain ⟨r₁, hr₁, hkept₁⟩ := h.view ha hbase
      cases hr.symm.trans hr₁
      exact ⟨r', rfl, hkept₁.trans hkept⟩
    · rw [hruns id' hi] at hq
      exact h.kept id' q v hq
  · by_cases hi : id' = id
    · subst hi
      rw [hself, Option.some.injEq, Held.mk.injEq, Option.some.injEq] at hq
      exact hq.2 ▸ hid
    · rw [hruns id' hi] at hq
      exact h.born id' q hq
  · rw [hcommands] at hc
    refine (h.sent tenantID id' b c hc).imp_right ?_
    rintro ⟨b', q, hq, hsent⟩
    exact ⟨b', q, by rwa [hruns id' (hne hq hsent.status)], hsent⟩
  · rcases List.mem_append.1 hq with hq | hq
    · obtain ⟨b, hb, hend⟩ := h.held q hq
      exact ⟨b, by rwa [hruns q.id (hne hb hend.status)], hend⟩
    · obtain rfl := List.mem_singleton.1 hq
      exact ⟨_, by rw [hid]; exact hself, hended⟩
  · by_cases hi : id' = id
    · subst hi
      rw [hself, Option.some.injEq, Held.mk.injEq, Option.some.injEq] at hq
      exact .inl (List.mem_append.2 (.inr (by simp [hq.2])))
    · rw [hruns id' hi] at hq
      rw [hcommands]
      exact (h.settled id' b q hq hend haddress).imp_left (List.mem_append_left _)

theorem Owing.forgive {x : Run} (h : Owing op (x :: owed) o) (hx : x.executorAddress = "") :
    Owing op owed o where
  kept := h.kept
  born := h.born
  sent := h.sent
  held := fun r hr => h.held r (List.mem_cons_of_mem _ hr)
  settled := fun id b r hr hend haddress => by
    refine (h.settled id b r hr hend haddress).imp_left fun hmem => ?_
    refine (List.mem_cons.1 hmem).resolve_left ?_
    rintro rfl
    exact haddress hx

theorem Owing.command {x : Run} {command c : ExecutorCommand}
    {set : ExecutorCommand → ExecutorCommand}
    (h : Owing op (x :: owed) o) (hd : CommandsFollow d) (ha : o.Agrees d)
    (hcommand : command.executorAddress = x.executorAddress)
    (hset : ∀ old, (set old).executorAddress = old.executorAddress)
    (hc : c = ((d.overlay o).row (.command x.tenantID x.id)).elim command set) :
    Owing op owed (o.write d (.command x.tenantID x.id) (some c)) := by
  obtain ⟨b, hx, hend⟩ := h.held x List.mem_cons_self
  have hfree : d.row (.command x.tenantID x.id) = none := by
    by_contra hrow
    obtain ⟨c₀, hc₀⟩ := Option.ne_none_iff_exists'.1 hrow
    obtain ⟨r, hr, hsent⟩ := hd.sent _ _ _ hc₀
    have hactive := hend.base r ((ha _ _ hx).symm.trans hr)
    simp [not_active_of_cancelled hsent.status] at hactive
  have haddress : c.executorAddress = x.executorAddress := by
    cases hk : o (.command x.tenantID x.id) with
    | none =>
      rw [Database.overlay_row_free hk, hfree] at hc
      exact hc ▸ hcommand
    | some held =>
      obtain ⟨b', v⟩ := held
      rw [Database.overlay_row_held hk] at hc
      cases v with
      | none => exact hc ▸ hcommand
      | some c₀ =>
        rcases h.sent _ _ _ _ hk with hb | ⟨b'', r, hr, hsent⟩
        · cases (ha _ _ hk).symm.trans hfree |>.symm.trans hb
        · cases hx.symm.trans hr
          rw [hc]
          exact (hset c₀).trans hsent.address
  have hsent : Sent x.tenantID x c := ⟨rfl, hend.status, haddress⟩
  have hself : o.write d (.command x.tenantID x.id) (some c) (.command x.tenantID x.id) =
      some ⟨d.row (.command x.tenantID x.id), some c⟩ := Overlay.write_self_of_agrees ha _ _
  have hruns : ∀ id, o.write d (.command x.tenantID x.id) (some c) (.run id) = o (.run id) :=
    fun _ => Overlay.write_ne nofun
  have hcommands : ∀ tenantID id, Key.command tenantID id ≠ .command x.tenantID x.id →
      o.write d (.command x.tenantID x.id) (some c) (.command tenantID id) =
        o (.command tenantID id) := fun _ _ hk => Overlay.write_ne hk
  refine ⟨fun id r v hr => ?_, fun id r hr => ?_, fun tenantID id b' c' hc' => ?_, fun r hr => ?_,
    fun id b' r hr hend' hne => ?_⟩
  · rw [hruns] at hr
    exact h.kept id r v hr
  · rw [hruns] at hr
    exact h.born id r hr
  · rw [hruns]
    by_cases hk : Key.command tenantID id = .command x.tenantID x.id
    · cases hk
      rw [hself, Option.some.injEq, Held.mk.injEq, Option.some.injEq] at hc'
      exact .inr ⟨b, x, hx, hc'.2 ▸ hsent⟩
    · rw [hcommands _ _ hk] at hc'
      exact h.sent tenantID id b' c' hc'
  · rw [hruns]
    exact h.held r (List.mem_cons_of_mem _ hr)
  · rw [hruns] at hr
    have hid : r.id = id := h.view_keyed hd ha (Database.overlay_row_held hr)
    by_cases hk : Key.command r.tenantID id = .command x.tenantID x.id
    · cases (Key.command.inj hk).2
      cases hx.symm.trans hr
      exact .inr ⟨_, c, hself, hsent⟩
    · rw [hcommands _ _ hk]
      refine (h.settled id b' r hr hend' hne).imp_left fun hmem => ?_
      refine (List.mem_cons.1 hmem).resolve_left ?_
      rintro rfl
      exact hk (by rw [hid])

end Owing

section Quiet

variable {op : Operation} {owed : List Run} {o o' : Overlay Row} {d : Db}

def Quiet (op : Operation) (d : Db) : Write Row → Prop
  | ⟨.run id, v⟩ => v = d.row (.run id) ∨ ∃ r', v = some r' ∧ r'.status ≠ .cancelled ∧
      (∀ r, d.row (.run id) = some r → r.status.active = true ∧ RunKept op r r') ∧
      (d.row (.run id) = none → r'.id = id)
  | ⟨.command tenantID id, v⟩ => v = d.row (.command tenantID id)
  | _ => True

theorem Quiet.move {id : ℕ} {r r' : Run} (hr : d.row (.run id) = some r)
    (hactive : r.status.active = true) (hsame : r'.Same r)
    (haddress : assigns op = false → r'.executorAddress = r.executorAddress)
    (hstatus : r'.status ≠ .cancelled) : Quiet op d ⟨.run id, some r'⟩ := by
  refine .inr ⟨r', rfl, hstatus, fun q hq => ?_, fun hnone => ?_⟩
  · cases hr.symm.trans hq
    exact ⟨hactive, .of_active hactive hsame haddress⟩
  · cases hr.symm.trans hnone

structure Continues (op : Operation) (r r' : Run) : Prop where
  active : r.status.active = true
  same : r'.Same r
  address : assigns op = false → r'.executorAddress = r.executorAddress
  status : r'.status ≠ .cancelled

theorem quiet_allowsRuns (op : Operation) :
    AllowsRuns (fun _ => Continues op) (fun r => r.status ≠ .cancelled) (Quiet op) where
  same := fun d k => by cases k <;> first | trivial | exact .inl rfl
  aside := fun d k v hk hcommand => by
    cases k <;> first | trivial | exact absurd rfl (hcommand _ _)
  move := fun d id r r' hr h => .move hr h.active h.same h.address h.status
  create := fun d r hfree hstatus => by
    refine .inr ⟨r, rfl, hstatus, fun q hq => ?_, fun _ => rfl⟩
    cases hfree.symm.trans hq
  rearm := fun _ _ _ _ _ _ _ => trivial

def QuietStep (op : Operation) (d : Db) (o o' : Overlay Row) : Prop :=
  ∀ k, o' k = o k ∨ ∃ v, Quiet op (d.overlay o) ⟨k, v⟩ ∧ o' k = some ⟨d.row k, v⟩

theorem quietStep_writeAll (ha : o.Agrees d) {ws : List (Write Row)}
    (hws : ∀ w ∈ ws, Quiet op (d.overlay o) w) : QuietStep op d o (o.writeAll d ws) := by
  intro k
  rcases Overlay.writeAll_cases ha ws k with hsame | ⟨v, hv, hnew⟩
  · exact .inl hsame
  · exact .inr ⟨v, hws _ hv, hnew⟩

namespace QuietStep

variable (h : QuietStep op d o o') (ha : o.Agrees d)
include h ha

theorem command_held {tenantID id : ℕ} {c : Held ExecutorCommand}
    (hc : o (.command tenantID id) = some c) : o' (.command tenantID id) = some c := by
  rcases h (.command tenantID id) with hsame | ⟨v, hv, hnew⟩
  · exact hsame.trans hc
  · cases hv
    exact hnew.trans ((Overlay.held_again ha hc).trans hc)

theorem cancelled_held {id : ℕ} {b : Option Run} {r : Run} (hr : o (.run id) = some ⟨b, some r⟩)
    (hstatus : r.status = .cancelled) : o' (.run id) = some ⟨b, some r⟩ := by
  rcases h (.run id) with hsame | ⟨v, hv, hnew⟩
  · exact hsame.trans hr
  · rcases hv with rfl | ⟨r', rfl, _, hold, _⟩
    · exact hnew.trans ((Overlay.held_again ha hr).trans hr)
    · have hactive := (hold r (Database.overlay_row_held hr)).1
      simp [not_active_of_cancelled hstatus] at hactive

theorem cancelled_back {id : ℕ} {b : Option Run} {r : Run} (hr : o' (.run id) = some ⟨b, some r⟩)
    (hstatus : r.status = .cancelled) : o (.run id) = some ⟨b, some r⟩ ∨ b = some r := by
  rcases h (.run id) with hsame | ⟨v, hv, hnew⟩
  · exact .inl (hsame.symm.trans hr)
  · rcases hv with rfl | ⟨r', rfl, hne, _, _⟩
    · cases hk : o (.run id) with
      | some held =>
        rw [Overlay.held_again ha hk, hk, hr] at hnew
        exact .inl hnew.symm
      | none =>
        rw [Database.overlay_row_free hk] at hnew
        rw [hnew, Option.some.injEq, Held.mk.injEq] at hr
        exact .inr (hr.1.symm.trans hr.2)
    · rw [hnew] at hr
      cases hr
      exact absurd hstatus hne

end QuietStep

theorem Owing.quiet (h : Owing op owed o) (ha : o.Agrees d) (hq : QuietStep op d o o') :
    Owing op owed o' := by
  refine ⟨fun id r v hr => ?_, fun id r hr => ?_, fun tenantID id b c hc => ?_, fun r hr => ?_,
    fun id b r hr hend haddress => ?_⟩
  · rcases hq (.run id) with hsame | ⟨w, hw, hnew⟩
    · exact h.kept id r v (hsame.symm.trans hr)
    · rw [hnew, Option.some.injEq, Held.mk.injEq] at hr
      obtain ⟨hbase, rfl⟩ := hr
      obtain ⟨r₁, hr₁, hkept⟩ := h.view ha hbase
      rcases hw with rfl | ⟨r', rfl, _, hold, _⟩
      · exact ⟨r₁, hr₁, hkept⟩
      · exact ⟨r', rfl, hkept.trans (hold r₁ hr₁).2⟩
  · rcases hq (.run id) with hsame | ⟨w, hw, hnew⟩
    · exact h.born id r (hsame.symm.trans hr)
    · rw [hnew, Option.some.injEq, Held.mk.injEq] at hr
      obtain ⟨hbase, rfl⟩ := hr
      have hseen : ∀ r₁, (d.overlay o).row (.run id) = some r₁ → r₁.id = id := by
        intro r₁ hr₁
        rcases ha.row_cases (.run id) with ⟨_, hsame⟩ | hk
        · cases (hsame.symm.trans hr₁).symm.trans hbase
        · rw [hbase, hr₁] at hk
          exact h.born id r₁ hk
      rcases hw with hw | ⟨r', hr', _, hold, hnone⟩
      · exact hseen r hw.symm
      · cases hr'
        cases hrow : (d.overlay o).row (.run id) with
        | none => exact hnone hrow
        | some r₁ => exact (hold r₁ hrow).2.id.trans (hseen r₁ hrow)
  · have hback : o (.command tenantID id) = some ⟨b, some c⟩ ∨ b = some c := by
      rcases hq (.command tenantID id) with hsame | ⟨v, hv, hnew⟩
      · exact .inl (hsame.symm.trans hc)
      · cases hv
        cases hk : o (.command tenantID id) with
        | some held =>
          rw [Overlay.held_again ha hk, hk, hc] at hnew
          exact .inl hnew.symm
        | none =>
          rw [Database.overlay_row_free hk, hc, Option.some.injEq, Held.mk.injEq] at hnew
          exact .inr (hnew.1.trans hnew.2.symm)
    rcases hback with hold | hlocked
    · refine (h.sent tenantID id b c hold).imp_right ?_
      rintro ⟨b', r, hr, hsent⟩
      exact ⟨b', r, hq.cancelled_held ha hr hsent.status, hsent⟩
    · exact .inl hlocked
  · obtain ⟨b, hb, hend⟩ := h.held r hr
    exact ⟨b, hq.cancelled_held ha hb hend.status, hend⟩
  · rcases hq.cancelled_back ha hr hend.status with hold | rfl
    · refine (h.settled id b r hold hend haddress).imp_right ?_
      rintro ⟨b', c, hc, hsent⟩
      exact ⟨b', c, hq.command_held ha hc, hsent⟩
    · have hactive := hend.base r rfl
      simp [not_active_of_cancelled hend.status] at hactive

end Quiet

section Discipline

structure Commanded (t : Transaction) (d : Db) (o : Overlay Row) : Prop where
  kept : ∀ id r v, o (.run id) = some ⟨some r, v⟩ → ∃ r', v = some r' ∧ RunKept t.operation r r'
  born : ∀ id r, o (.run id) = some ⟨none, some r⟩ → r.id = id
  sent : ∀ tenantID id b c, o (.command tenantID id) = some ⟨b, some c⟩ →
    b = some c ∨ ∃ r, (d.overlay o).row (.run id) = some r ∧ Sent tenantID r c
  settled : ∀ id b r, o (.run id) = some ⟨b, some r⟩ → Ended b r → r.executorAddress ≠ "" →
    ∃ b' c, o (.command r.tenantID id) = some ⟨b', some c⟩ ∧ Sent r.tenantID r c
  never : neverCancels t.operation = true → ∀ id b r, o (.run id) = some ⟨b, some r⟩ → ¬Ended b r

variable {t : Transaction} {o : Overlay Row} {d : Db}

theorem Owing.commanded (h : Owing t.operation [] o)
    (hnever : neverCancels t.operation = true → ∀ id b r, o (.run id) = some ⟨b, some r⟩ →
      ¬Ended b r) : Commanded t d o where
  kept := h.kept
  born := h.born
  sent := fun tenantID id b c hc => (h.sent tenantID id b c hc).imp_right fun ⟨_, r, hr, hsent⟩ =>
    ⟨r, Database.overlay_row_held hr, hsent⟩
  settled := fun id b r hr hend haddress =>
    (h.settled id b r hr hend haddress).resolve_left List.not_mem_nil
  never := hnever

theorem Commanded.ended (h : Commanded t d o) (ha : o.Agrees d) {id : ℕ} {r : Run}
    (hr : d.row (.run id) = some r) (hended : r.status.active = false) :
    (d.overlay o).row (.run id) = some r := by
  rcases ha.row_cases (.run id) with ⟨_, hsame⟩ | hk
  · exact hsame.trans hr
  · rw [hr] at hk
    obtain ⟨r', hr', hkept⟩ := h.kept id r _ hk
    rw [hr', hkept.ended hended]

theorem CommandsFollow.commit (hd : CommandsFollow d) (ha : o.Agrees d) (h : Commanded t d o) :
    CommandsFollow (d.overlay o) := by
  have hstill : ∀ tenantID id c, d.row (.command tenantID id) = some c →
      ∃ r, (d.overlay o).row (.run id) = some r ∧ Sent tenantID r c := by
    intro tenantID id c hc
    obtain ⟨r, hr, hsent⟩ := hd.sent tenantID id c hc
    exact ⟨r, h.ended ha hr (not_active_of_cancelled hsent.status), hsent⟩
  refine ⟨fun id r hr => ?_, fun tenantID id c hc => ?_⟩
  · cases hk : o (.run id) with
    | none => exact hd.keyed id r ((Database.overlay_row_free hk).symm.trans hr)
    | some held =>
      obtain ⟨b, v⟩ := held
      have hv : v = some r := (Database.overlay_row_held hk).symm.trans hr
      subst hv
      cases b with
      | none => exact h.born id r hk
      | some r₀ =>
        obtain ⟨r', hr', hkept⟩ := h.kept id r₀ _ hk
        cases hr'
        exact hkept.id.trans (hd.keyed id r₀ (ha _ _ hk))
  · cases hk : o (.command tenantID id) with
    | none => exact hstill tenantID id c ((Database.overlay_row_free hk).symm.trans hc)
    | some held =>
      obtain ⟨b, v⟩ := held
      have hv : v = some c := (Database.overlay_row_held hk).symm.trans hc
      subst hv
      rcases h.sent tenantID id b c hk with hb | hsent
      · exact hstill tenantID id c ((ha _ _ hk).trans hb)
      · exact hsent

def commandDiscipline : Discipline Transaction Key Row where
  inv := CommandsFollow
  guarantee := Commanded
  pair := fun _ _ _ _ => True
  alone := fun _ _ _ => True
  reading := fun _ _ _ => True
  inv_addKey := fun _ h => ⟨h.keyed, h.sent⟩
  inv_advance := fun _ h => ⟨h.keyed, h.sent⟩
  inv_commit := CommandsFollow.commit

theorem ended_stable (t : Transaction) {id : ℕ} {r : Run} (hended : r.status.active = false) :
    commandDiscipline.Stable t fun _ d => d.row (.run id) = some r := by
  intro o d d' hop hr
  cases hop.interferes with
  | commit _ _ _ ha hg => exact hg.ended ha hr hended
  | grow ws => rw [Database.addKeys_row]; exact hr
  | tick n => exact hr

end Discipline

section Programs

variable {t : Transaction} {env : Env} {now : Int} {owed : List Run} {α β : Type}

theorem quiet_triple {p : Tx α} {S : α → Prop} (he : p.Effect (Quiet t.operation) S) :
    commandDiscipline.Triple t (fun o _ => Owing t.operation owed o) p
      fun _ o _ => Owing t.operation owed o :=
  (Discipline.Triple.effect he fun _ _ _ ha h hws => h.quiet ha (quietStep_writeAll ha hws)).weaken
    fun _ _ _ _ _ h => h.1

theorem coverActiveRuns_owes (jobID : ℕ) :
    commandDiscipline.Triple t (fun o _ => Owing t.operation [] o) (coverActiveRuns now jobID)
      fun covered o _ => Owing t.operation covered o := by
  refine .bind (quiet_triple (select_effect _)) fun ids => ?_
  refine Discipline.Triple.foldEach (J := fun _ covered o _ => Owing t.operation covered o)
    (fun id ids covered => ?_) ids []
  refine .bind (Q := fun r o _ => Owing t.operation (covered ++ r.toList) o)
    (.update (V := Row) (k := Key.run id) (.overlay _) (fun o d _ _ h _ => by simpa using h)
      fun o d r hd ha h hr hactive _ => ?_) fun r => ?_
  · simp only [activeOfJob, Bool.and_eq_true] at hactive
    exact h.cancel hd ha hr hactive.2
      (.of_active hactive.2 (by constructor <;> rfl) fun _ => rfl) rfl
  · cases r with
    | none => exact .pure fun _ _ _ _ h => by simpa using h
    | some r => exact .pure fun _ _ _ _ h => h

theorem enqueueExecutorCancellation_pays (x : Run) (reason : String) :
    commandDiscipline.Triple t (fun o _ => Owing t.operation (x :: owed) o)
      (.when (x.executorAddress ≠ "") (enqueueExecutorCancellation x reason))
      fun _ o _ => Owing t.operation owed o := by
  unfold Program.when
  split
  · refine .bind (quiet_triple (select_effect _)) fun job => ?_
    cases job with
    | none => exact .fail
    | some j =>
      refine .upsert (.overlay _) fun o d c hd ha h hc _ => h.command hd ha ?_ (fun old => ?_) hc
      · rfl
      · rfl
  · next haddress => exact .pure fun _ _ _ _ h => h.forgive (by simpa using haddress)

theorem settleCoveredRun_pays (r : Run) :
    commandDiscipline.Triple t (fun o _ => Owing t.operation (r :: owed) o)
      (settleCoveredRun env now r) fun _ o _ => Owing t.operation owed o := by
  refine .bind (quiet_triple (emitRunEvent_effect (quiet_allowsRuns _) _ _ _)) fun _ => ?_
  refine .bind (enqueueExecutorCancellation_pays r _) fun _ => ?_
  exact quiet_triple (rearmFixedDelay_effect (quiet_allowsRuns _) _ _)

end Programs

section Keeps

variable {t : Transaction} {env : Env} {now : Int}

def keepsCommands (t : Transaction) : Judgement Key Row StoreError :=
  .keeps commandDiscipline t fun o _ => Owing t.operation [] o

theorem keepsCommands_covers :
    Covers env now (keepsCommands t) (fun _ => True) (Quiet t.operation) where
  effect := fun he => .effect he fun _ _ _ ha h hws => h.quiet ha (quietStep_writeAll ha hws)
  cover := fun jobID _ => by
    refine .weaken (.bind (coverActiveRuns_owes jobID) fun covered => ?_)
      fun _ _ _ _ _ h => ⟨h, trivial⟩
    exact Discipline.Triple.forEach_rest (J := fun owed o _ => Owing t.operation owed o)
      (fun r _ => settleCoveredRun_pays r) covered

end Keeps

section Operations

variable {t : Transaction} {env : Env} {o : Overlay Row} {d : Db} {run : Run}

theorem Owing.final (h : Owing t.operation [] o) (hop : neverCancels t.operation = false) :
    commandDiscipline.Final t o d :=
  fun _ _ _ _ => h.commanded fun hnever => by simp [hop] at hnever

structure Resent (run : Run) (o : Overlay Row) (d : Db) : Prop where
  status : run.status = .cancelled
  row : d.row (.run run.id) = some run
  runs : ∀ id, o (.run id) = none
  sent : ∀ tenantID id b c, o (.command tenantID id) = some ⟨b, some c⟩ →
    id = run.id ∧ Sent tenantID run c

theorem Resent.stable (t : Transaction) (run : Run) : commandDiscipline.Stable t (Resent run) := by
  intro o d d' hop h
  have hrow := ended_stable t (not_active_of_cancelled h.status) o d d' hop h.row
  exact ⟨h.status, hrow, h.runs, h.sent⟩

theorem Resent.final (h : Resent run o d) : commandDiscipline.Final t o d := by
  intro d' hl _ _
  have hrow := ((Resent.stable t run).later hl h).row
  have hnone : ∀ {id : ℕ} {held : Held Run}, o (.run id) ≠ some held := fun {id} _ hk => by
    rw [h.runs id] at hk
    cases hk
  refine ⟨fun _ _ _ hk => absurd hk hnone, fun _ _ hk => absurd hk hnone,
    fun tenantID id b c hc => .inr ⟨run, ?_, (h.sent tenantID id b c hc).2⟩,
    fun _ _ _ hk => absurd hk hnone, fun _ _ _ _ hk => absurd hk hnone⟩
  rw [(h.sent tenantID id b c hc).1]
  exact (Database.overlay_row_free (h.runs _)).trans hrow

/-- The command of a run that was cancelled earlier is written again, to the same executor. -/
theorem Resent.command {command c : ExecutorCommand} {set : ExecutorCommand → ExecutorCommand}
    (h : Resent run o d) (hd : CommandsFollow d) (ha : o.Agrees d)
    (hcommand : command.executorAddress = run.executorAddress)
    (hset : ∀ old, (set old).executorAddress = old.executorAddress)
    (hc : c = ((d.overlay o).row (.command run.tenantID run.id)).elim command set) :
    Resent run (o.write d (.command run.tenantID run.id) (some c))
      (d.addKey (.command run.tenantID run.id)) := by
  have hold : ∀ c₀, (d.overlay o).row (.command run.tenantID run.id) = some c₀ →
      c₀.executorAddress = run.executorAddress := by
    intro c₀ hc₀
    cases hk : o (.command run.tenantID run.id) with
    | none =>
      obtain ⟨r, hr, hsent⟩ := hd.sent _ _ _ ((Database.overlay_row_free hk).symm.trans hc₀)
      cases hr.symm.trans h.row
      exact hsent.address
    | some held =>
      obtain ⟨b, v⟩ := held
      have hv : v = some c₀ := (Database.overlay_row_held hk).symm.trans hc₀
      subst hv
      exact (h.sent _ _ _ _ hk).2.address
  have haddress : c.executorAddress = run.executorAddress := by
    cases hrow : (d.overlay o).row (.command run.tenantID run.id) with
    | none =>
      rw [hrow] at hc
      exact hc ▸ hcommand
    | some c₀ =>
      rw [hrow] at hc
      rw [hc]
      exact (hset c₀).trans (hold c₀ hrow)
  refine ⟨h.status, h.row, fun id => ?_, fun tenantID id b c' hc' => ?_⟩
  · have hne : Key.run id ≠ .command run.tenantID run.id := nofun
    exact (Overlay.write_ne hne).trans (h.runs id)
  · by_cases hk : Key.command tenantID id = .command run.tenantID run.id
    · cases hk
      rw [Overlay.write_self_of_agrees ha, Option.some.injEq, Held.mk.injEq,
        Option.some.injEq] at hc'
      exact ⟨rfl, rfl, h.status, hc'.2 ▸ haddress⟩
    · rw [Overlay.write_ne hk] at hc'
      exact h.sent tenantID id b c' hc'

theorem enqueueExecutorCancellation_resent (reason : String) :
    commandDiscipline.Triple t (Resent run) (enqueueExecutorCancellation run reason)
      fun _ => Resent run := by
  refine .bind (.read (Resent.stable t run)) fun job => ?_
  cases job with
  | none => exact .fail
  | some j =>
    refine .upsert (Resent.stable t run) fun o d c hd ha h hc _ => ?_
    refine h.command hd ha ?_ (fun old => ?_) hc
    · rfl
    · rfl

theorem cancelRun_final (hop : neverCancels t.operation = false) (tenantID runID : ℕ)
    (reason : String) :
    commandDiscipline.Triple t (fun o _ => o = Overlay.empty)
      (cancelRun env t.now tenantID runID reason) fun _ o d => commandDiscipline.Final t o d := by
  have hW := quiet_allowsRuns t.operation
  refine .bind (Q := fun r o _ => r.elim (o = Overlay.empty) fun run => Owing t.operation [run] o)
    (.update (V := Row) (k := Key.run runID) (.overlay _) (fun o d _ _ h _ => h)
      fun o d r hd ha h hr hcancel _ => ?_) fun r => ?_
  · simp only [cancellable, Bool.and_eq_true] at hcancel
    have hempty : Owing t.operation [] o := h ▸ Owing.empty t.operation
    exact hempty.cancel hd ha hr hcancel.2
      (.of_active hcancel.2 (by constructor <;> rfl) fun _ => rfl) rfl
  cases r with
  | some run =>
    refine .bind (quiet_triple (emitRunEvent_effect hW _ _ _)) fun _ => ?_
    refine .bind (enqueueExecutorCancellation_pays run _) fun _ => ?_
    refine .bind (quiet_triple (rearmFixedDelay_effect hW _ _)) fun _ => ?_
    exact .pure fun _ _ _ _ h => h.final hop
  | none =>
    refine .bind (Q := fun r o d => o = Overlay.empty ∧ ∀ run, r = some run →
      d.row (.run run.id) = some run) (.select (.overlay _) fun o d hd _ _ h => ⟨h, ?_⟩) fun r => ?_
    · rintro run hrun
      have hrow : d.row (.run runID) = some run := by
        have hseen := Option.filter_eq_some_iff.1 hrun |>.1
        cases h
        exact hseen
      rw [hd.keyed runID run hrow]
      exact hrow
    cases r with
    | none => exact .fail
    | some run =>
      dsimp only
      split
      · next hstatus =>
        have hresent : ∀ o d, o = Overlay.empty ∧ (∀ q, some run = some q →
            d.row (.run q.id) = some q) → Resent run o d := by
          rintro o d ⟨rfl, hrow⟩
          exact ⟨hstatus, hrow run rfl, fun _ => rfl, fun _ _ _ _ hc => by cases hc⟩
        refine Discipline.Triple.strengthen (A := Resent run) ?_ fun o d _ _ h => hresent o d h
        refine .bind (.when fun _ => enqueueExecutorCancellation_resent _) fun _ => ?_
        exact .pure fun _ _ _ _ h => h.final
      · exact .fail

def NoneEnded (o : Overlay Row) : Prop :=
  ∀ id b r, o (.run id) = some ⟨b, some r⟩ → ¬Ended b r

theorem NoneEnded.quiet {op : Operation} {o' : Overlay Row} (h : NoneEnded o) (ha : o.Agrees d)
    (hq : QuietStep op d o o') : NoneEnded o' := by
  intro id b r hr hend
  rcases hq.cancelled_back ha hr hend.status with hold | rfl
  · exact h id b r hold hend
  · have hactive := hend.base r rfl
    simp [not_active_of_cancelled hend.status] at hactive

def keepsRuns (t : Transaction) : Judgement Key Row StoreError :=
  .keeps commandDiscipline t fun o _ => Owing t.operation [] o ∧ NoneEnded o

theorem keepsRuns_covers :
    Covers env t.now (keepsRuns t) (fun _ => False) (Quiet t.operation) where
  effect := fun he => .effect he fun _ _ _ ha h hws =>
    ⟨h.1.quiet ha (quietStep_writeAll ha hws), h.2.quiet ha (quietStep_writeAll ha hws)⟩
  cover := fun _ h => h.elim

theorem operation_quiet {J : Judgement Key Row StoreError} {jobs : ℕ → Prop}
    (hJ : Covers env t.now J jobs (Quiet t.operation))
    (hjobs : coversRuns t.operation = true → ∀ jobID, jobs jobID)
    (hcancel : ∀ tenantID runID reason, t.operation ≠ .cancelRun tenantID runID reason) :
    J.holds (operationProgram env t.now t.operation) fun _ => True := by
  have hW := quiet_allowsRuns t.operation
  have hedit : ∀ d (k : Key) v, k.registered = true → Quiet t.operation d ⟨k, v⟩ :=
    fun d k v hk => by
    cases k <;> trivial
  refine operationProgram_holds hW hJ hjobs
    (fun id r r' h hstatus => ⟨h.active, h.same, h.address, hstatus⟩)
    (fun r h => h.not_cancelled) (fun d k v hk _ _ => hedit d k v hk)
    (fun _ _ => .inr fun _ _ => trivial)
    (fun _ limit _ _ => hJ.effect (claimRuns_effect hW (fun token j id r h => ?_) limit))
    (fun _ _ _ hop => absurd hop (hcancel _ _ _)) fun h => hJ.effect (edit_effect hW hedit h)
  exact ⟨claimable_active h, (claim_same ..).symm, fun _ => rfl, nofun⟩

theorem operation_final (env : Env) (t : Transaction) :
    commandDiscipline.Triple t (fun o _ => o = Overlay.empty)
      (operationProgram env t.now t.operation) fun _ o d => commandDiscipline.Final t o d := by
  by_cases hcancel : ∃ tenantID runID reason, t.operation = .cancelRun tenantID runID reason
  · obtain ⟨tenantID, runID, reason, hop⟩ := hcancel
    rw [hop]
    exact .map (cancelRun_final (by rw [hop]; rfl) tenantID runID reason)
  have hquiet : ∀ tenantID runID reason, t.operation ≠ .cancelRun tenantID runID reason :=
    fun tenantID runID reason hop => hcancel ⟨tenantID, runID, reason, hop⟩
  cases hnever : neverCancels t.operation with
  | false =>
    have hkeeps : (keepsCommands t).holds (operationProgram env t.now t.operation) fun _ => True :=
      operation_quiet keepsCommands_covers (fun _ _ => trivial) hquiet
    refine (Discipline.Triple.strengthen hkeeps ?_).weaken fun _ _ _ _ _ h => h.1.final hnever
    rintro o d _ _ rfl
    exact Owing.empty _
  | true =>
    have hcovers : coversRuns t.operation = false := by
      cases hop : t.operation <;> simp [hop, neverCancels, assigns, coversRuns] at hnever ⊢
    have hkeeps : (keepsRuns t).holds (operationProgram env t.now t.operation) fun _ => True :=
      operation_quiet keepsRuns_covers (fun h => by simp [hcovers] at h) hquiet
    refine (Discipline.Triple.strengthen hkeeps ?_).weaken
      fun _ _ _ _ _ h _ _ _ _ => h.1.1.commanded fun _ => h.1.2
    rintro o d _ _ rfl
    exact ⟨Owing.empty _, fun _ _ _ hk => by cases hk⟩

theorem commands_sound {m : SchedulerMachine}
    (hm : Machine.Reachable (anyCaller env) (fun _ _ _ => True) m) : commandDiscipline.Sound m :=
  Discipline.sound (fun _ _ => ⟨fun _ _ h => (by cases h), fun _ _ _ h => by cases h⟩)
    (fun t d hd _ => operation_final env t _ d hd (fun _ _ h => by cases h) rfl)
    (fun _ _ _ _ => ⟨fun _ _ _ _ _ => trivial, fun _ => trivial, fun _ _ _ => trivial⟩) hm

end Operations

section Abandoned

/-- The commit of `t` takes an assigned run from its executor: the run was unfinished and is
cancelled, by `CancelRun` or a covering trigger, or its callback has expired. -/
structure Abandons (env : Env) (t : Transaction) (m m' : SchedulerMachine) (id : ℕ) (r r' : Run) :
    Prop where
  commit : m.step (anyCaller env) (.finish t) = some m'
  before : m.store.committed.row (.run id) = some r
  after : m'.store.committed.row (.run id) = some r'
  active : r.status.active = true
  assigned : r.executorAddress ≠ ""
  moved : r'.status = .cancelled ∨ t.operation = .expireCallbacks ∧ r'.status = .timedOut

def CancelCommanded (m : SchedulerMachine) (id : ℕ) (r : Run) : Prop :=
  ∃ c, m.store.committed.row (.command r.tenantID id) = some c ∧
    c.executorAddress = r.executorAddress

variable {env : Env} {t : Transaction} {m m' : SchedulerMachine} {id : ℕ} {r r' : Run}

theorem Abandons.held (h : Abandons env t m m' id r r') :
    (∃ res, m.running t = some (.done res)) ∧ m'.store.committed = m.store.view t ∧
      m.store.own t (.run id) = some ⟨some r, some r'⟩ := by
  have hchanged : r ≠ r' := by
    rintro rfl
    have hactive := h.active
    rcases h.moved with hstatus | ⟨_, hstatus⟩ <;> simp [hstatus, RunStatus.active] at hactive
  rcases Machine.committed_cases h.commit with hsame | ⟨t', res, hlabel, hrun, hview⟩
  · have hrow := h.after
    rw [hsame, h.before] at hrow
    exact absurd (Option.some.inj hrow) hchanged
  · cases hlabel
    refine ⟨⟨res, hrun⟩, hview, ?_⟩
    have hseen : (m.store.committed.overlay (m.store.own t)).row (.run id) = some r' :=
      (congrArg (fun d : Db => d.row (.run id)) hview).symm.trans h.after
    rcases (m.store.own_agrees t).row_cases (.run id) with ⟨_, hsame⟩ | hk
    · rw [hsame, h.before] at hseen
      exact absurd (Option.some.inj hseen) hchanged
    · rw [hk, h.before, hseen]

/-- Whoever is taken a run from is told so exactly when the run was cancelled: the
transaction that expires callbacks writes no command. -/
theorem abandoned_run_commanded_iff
    (hm : Machine.Reachable (anyCaller env) (fun _ _ _ => True) m)
    (h : Abandons env t m m' id r r') :
    CancelCommanded m' id r ↔ t.operation ≠ .expireCallbacks := by
  obtain ⟨⟨res, hrun⟩, hview, hheld⟩ := h.held
  have hsound := commands_sound hm
  have hg : Commanded t m.store.committed (m.store.own t) :=
    hsound.guarantee Discipline.answer_final hrun
  obtain ⟨r₁, hr₁, hkept⟩ := hg.kept id r _ hheld
  cases hr₁
  have hended : r'.status = .cancelled → Ended (some r) r' := fun hstatus =>
    ⟨hstatus, fun r₀ hr₀ => Option.some.inj hr₀ ▸ h.active⟩
  constructor
  · rintro ⟨c, hc, _⟩ hop
    have hinv : CommandsFollow m'.store.committed := by
      rw [hview]
      exact hsound.inv.commit (m.store.own_agrees t) hg
    obtain ⟨q, hq, hsent⟩ := hinv.sent _ _ _ hc
    cases hq.symm.trans h.after
    exact hg.never (by simp [hop, neverCancels]) id _ _ hheld (hended hsent.status)
  · intro hop
    have hstatus : r'.status = .cancelled := h.moved.resolve_right fun hmoved => hop hmoved.1
    have haddress : r'.executorAddress = r.executorAddress := by
      refine hkept.address ?_
      by_contra hassigns
      exact hg.never (by simp [neverCancels, hassigns]) id _ _ hheld (hended hstatus)
    obtain ⟨b, c, hc, hsent⟩ := hg.settled id _ _ hheld (hended hstatus) (haddress ▸ h.assigned)
    refine ⟨c, ?_, hsent.address.trans haddress⟩
    rw [hview, ← hkept.tenantID]
    exact Database.overlay_row_held hc

section Sample

def leasedRun : Run where
  id := 3
  tenantID := 1
  jobID := 1
  triggerType := .manual
  status := .running
  scheduledAt := 0
  availableAt := 5
  externalExecutionID := 3
  lease := some ⟨"core", 8, 60000000005⟩
  history := [.running, .pending]

def dispatchedOnce (t : Transaction) (n : ℕ) : SchedulerMachine :=
  ((Machine.init 5).perform (anyCaller plainEnv) 40
    [(0, ⟨0, 5, .createTenant 1 ⟨10⟩⟩, 5), (0, ⟨1, 5, .createJob plainJob {}⟩, 5),
      (0, ⟨2, 5, .triggerJob ⟨1, 1, "", "", []⟩⟩, 5), (0, ⟨3, 5, .claimRuns "core" 10 0⟩, 5),
      (0, ⟨4, 5, .prepareClaimedExecutorDispatch leasedRun "node" "executor:9000" 77 1000⟩,
        5)]).perform (anyCaller plainEnv) n [(4995, t, 5000)]

theorem dispatchedOnce_reachable (t : Transaction) (n : ℕ) :
    Machine.Reachable (anyCaller plainEnv) (fun _ _ _ => True) (dispatchedOnce t n) :=
  ((Machine.Reachable.init (by decide)).perform _ _).perform _ _

def abandonment (env : Env) (t : Transaction) (id : ℕ) (m : SchedulerMachine) :
    Option (SchedulerMachine × Run × Run) :=
  (m.step (anyCaller env) (.finish t)).bind fun m' =>
    (m.store.committed.row (.run id)).bind fun r =>
    (m'.store.committed.row (.run id)).bind fun r' =>
      if r.status.active = true ∧ r.executorAddress ≠ "" ∧
          (r'.status = .cancelled ∨ t.operation = .expireCallbacks ∧ r'.status = .timedOut) then
        some (m', r, r') else none

theorem abandons_of_abandonment (h : abandonment env t id m = some (m', r, r')) :
    Abandons env t m m' id r r' := by
  simp only [abandonment, Option.bind_eq_some_iff, Option.ite_none_right_eq_some,
    Option.some.injEq, Prod.mk.injEq] at h
  obtain ⟨m₁, hstep, r₁, hr, r₂, hr', ⟨hactive, hassigned, hmoved⟩, rfl, rfl, rfl⟩ := h
  exact ⟨hstep, hr, hr', hactive, hassigned, hmoved⟩

/-- A callback expires while the executor may still be at work, and no command is written. -/
theorem expired_run_not_commanded : ∃ t m m' id r r',
    Machine.Reachable (anyCaller plainEnv) (fun _ _ _ => True) m ∧
      Abandons plainEnv t m m' id r r' ∧ ¬CancelCommanded m' id r := by
  have hrun : ((abandonment plainEnv ⟨5, 5000, .expireCallbacks⟩ 3
      (dispatchedOnce ⟨5, 5000, .expireCallbacks⟩ 8)).map fun x =>
        (x.1.store.committed.row (.command x.2.1.tenantID 3)).isNone) = some true := by
    decide +kernel
  obtain ⟨⟨m', r, r'⟩, hx, hnone⟩ := Option.map_eq_some_iff.1 hrun
  refine ⟨_, _, m', 3, r, r', dispatchedOnce_reachable _ _, abandons_of_abandonment hx, ?_⟩
  rintro ⟨c, hc, _⟩
  simp [hc] at hnone

theorem cancelled_run_commanded : ∃ t m m' id r r',
    Machine.Reachable (anyCaller plainEnv) (fun _ _ _ => True) m ∧
      Abandons plainEnv t m m' id r r' ∧ CancelCommanded m' id r := by
  have hrun : (abandonment plainEnv ⟨5, 5000, .cancelRun 1 3 "stop"⟩ 3
      (dispatchedOnce ⟨5, 5000, .cancelRun 1 3 "stop"⟩ 6)).isSome = true := by
    decide +kernel
  obtain ⟨⟨m', r, r'⟩, hx⟩ := Option.isSome_iff_exists.1 hrun
  have hreach := dispatchedOnce_reachable ⟨5, 5000, .cancelRun 1 3 "stop"⟩ 6
  have habandons := abandons_of_abandonment hx
  exact ⟨_, _, m', 3, r, r', hreach, habandons,
    (abandoned_run_commanded_iff hreach habandons).2 nofun⟩

end Sample

end Abandoned

end GoScheduler.Store
