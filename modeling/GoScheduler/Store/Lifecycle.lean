import GoScheduler.Store.Effects

/-! The life of a run under every interleaving: which status follows which, that an ended
run stays as it ended, that a worker moves a run only with the token of its latest claim,
and that a callback ends a run only with its own token and in time. -/
namespace GoScheduler.Store
open ReadCommitted Schedule

def RunStatus.next : RunStatus → List RunStatus
  | .pending => [.running, .cancelled]
  | .running => [.waitingCallback, .succeeded, .failed, .timedOut, .cancelled]
  | .waitingCallback => [.succeeded, .failed, .timedOut, .cancelled]
  | _ => []

def Run.Outdated (r : Run) (token : ℕ) : Prop := token ∈ r.claims ∧ r.claims.head? ≠ some token

section Changes

variable (t : Transaction) (id : ℕ) (b : Run)

inductive Change : Run → Prop where
  | same : Change b
  | work {w r : Run} (hw : Leased t id w b) (hstatus : r.status ∈
        [RunStatus.running, .waitingCallback, .succeeded, .failed, .timedOut])
      (hclaims : r.claims = b.claims) (hlease : r.status = .running → r.lease = b.lease) : Change r
  | claim {owner : String} {token limit : ℕ} {lease : Int} {j : Job}
      (hop : t.operation = .claimRuns owner limit lease) (hb : claimable t.now b = true)
      (hfresh : token ∉ b.claims) : Change (claim t.now owner token lease j b)
  | callback {tokenHash : ℕ} {succeeded : Bool} {message : String} {r : Run}
      (hop : t.operation = .completeCallback id tokenHash succeeded message)
      (hb : awaitsCallback tokenHash t.now b = true)
      (hstatus : r.status = if succeeded then .succeeded else .failed)
      (hclaims : r.claims = b.claims) : Change r
  | expire {r : Run} (hop : t.operation = .expireCallbacks) (hb : b.status = .waitingCallback)
      (hstatus : r.status = .timedOut) (hclaims : r.claims = b.claims) : Change r
  | cancel {r : Run} (hb : b.status.active = true) (hstatus : r.status = .cancelled)
      (hclaims : ∀ token, b.Outdated token → r.Outdated token) : Change r

variable {t id b} {r r' : Run}

theorem outdated_claim {now lease : Int} {owner : String} {token old : ℕ} {j : Job}
    (hfresh : token ∉ b.claims) (h : b.Outdated old) :
    (claim now owner token lease j b).Outdated old := by
  refine ⟨List.mem_cons_of_mem _ h.1, ?_⟩
  rintro ⟨rfl⟩
  exact hfresh h.1

theorem Change.outdated (h : Change t id b r) {token : ℕ} (hold : b.Outdated token) :
    r.Outdated token := by
  cases h with
  | same => exact hold
  | work _ _ hclaims | callback _ _ _ hclaims | expire _ _ _ hclaims =>
    rwa [Run.Outdated, hclaims]
  | claim _ _ hfresh => exact outdated_claim hfresh hold
  | cancel _ _ hclaims => exact hclaims token hold

theorem Change.cancelled (h : Change t id b r) (hr : r.status.active = true)
    (hstatus : r'.status = .cancelled) (hclaims : r'.claims = r.claims) : Change t id b r' := by
  have hold : ∀ token, b.Outdated token → r'.Outdated token := fun token hb => by
    rw [Run.Outdated, hclaims]
    exact h.outdated hb
  refine .cancel ?_ hstatus hold
  cases h with
  | same => exact hr
  | work hw => simp [hw.running, RunStatus.active]
  | claim _ hb => exact claimable_active hb
  | callback _ hb => simp [awaitsCallback_waiting hb, RunStatus.active]
  | expire _ hb => simp [hb, RunStatus.active]
  | cancel hb => exact hb

theorem Change.leased (h : Change t id b r) {w : Run} (hw : Leased t id w r) :
    (∃ w, Leased t id w b) ∧ r.claims = b.claims ∧ r.lease = b.lease := by
  cases h with
  | same => exact ⟨⟨w, hw⟩, rfl, rfl⟩
  | work hw' _ hclaims hlease => exact ⟨⟨_, hw'⟩, hclaims, hlease hw.running⟩
  | claim hop => exact absurd hw.operation (by simp [hop, claimedRunOf])
  | callback _ _ hstatus =>
    rw [hw.running] at hstatus
    split at hstatus <;> cases hstatus
  | expire _ _ hstatus | cancel _ hstatus => simp [hw.running] at hstatus

theorem Change.move (h : Change t id b r) (hm : Move t id r r') : Change t id b r' := by
  have hactive := hm.active
  cases hm with
  | assign hw =>
    obtain ⟨⟨w, hw'⟩, hclaims, hlease⟩ := h.leased hw
    exact .work hw' (by simp [hw.running]) hclaims fun _ => hlease
  | wait hw =>
    obtain ⟨⟨w, hw'⟩, hclaims, _⟩ := h.leased hw
    exact .work hw' (by simp [waitForCallback, Run.enter]) hclaims
      (by simp [waitForCallback, Run.enter])
  | report hw hstate =>
    obtain ⟨⟨w, hw'⟩, hclaims, _⟩ := h.leased hw
    rcases hstate with rfl | rfl | rfl <;>
      exact .work hw' (by simp [Run.finish, Run.enter]) hclaims (by simp [Run.finish, Run.enter])
  | callback hop hr =>
    cases h with
    | same => exact .callback hop hr rfl rfl
    | work hw => exact absurd hw.operation (by simp [hop, claimedRunOf])
    | claim hop' | expire hop' => simp [hop] at hop'
    | callback _ _ hstatus =>
      rw [hstatus] at hactive
      split at hactive <;> cases hactive
    | cancel _ hstatus => simp [hstatus, RunStatus.active] at hactive
  | expire hop hr =>
    cases h with
    | same => exact .expire hop hr rfl rfl
    | work hw => exact absurd hw.operation (by simp [hop, claimedRunOf])
    | claim hop' | callback hop' => simp [hop] at hop'
    | expire _ _ hstatus | cancel _ hstatus => simp [hr] at hstatus
  | cancel hr => exact h.cancelled hr rfl rfl
  | cover hr => exact h.cancelled hr rfl rfl

theorem Change.claimed (h : Change t id b r) {owner : String} {token limit : ℕ} {lease : Int}
    {j : Job} (hop : t.operation = .claimRuns owner limit lease)
    (hclaim : claimable t.now r = true) (hfresh : token ∉ r.claims) :
    Change t id b (Store.claim t.now owner token lease j r) := by
  cases h with
  | same => exact .claim hop hclaim hfresh
  | work hw => exact absurd hw.operation (by simp [hop, claimedRunOf])
  | claim => simp [claimable_claim] at hclaim
  | callback hop' | expire hop' => simp [hop] at hop'
  | cancel _ hstatus => simp [claimable, hstatus] at hclaim

end Changes

def Run.Current (r : Run) : Prop :=
  r.status = .running → ∃ l, r.lease = some l ∧ r.claims.head? = some l.token

section Rows

variable {t : Transaction} {id : ℕ} {o : Overlay Row} {d : Db}

/-- What a transaction has made of a run: a change, or a new run. An identifier it has drawn
itself may be among the tokens of its claims. -/
structure Changed (t : Transaction) (o : Overlay Row) (d : Db) (id : ℕ)
    (base version : Option Run) :
    Prop where
  change : ∀ b, base = some b → ∃ r, version = some r ∧ Change t id b r
  current : ∀ r, version = some r → r.Current
  drawn : ∀ r, version = some r → ∀ u ∈ r.claims, .uuid u ∈ d.keys ∧
    ((∃ b, base = some b ∧ u ∈ b.claims) ∨ o (.uuid u) ≠ none)

def ChangesRuns (t : Transaction) (o : Overlay Row) (d : Db) : Prop :=
  ∀ id h, o (.run id) = some h → Changed t o d id h.base h.version

def RunsCurrent (d : Db) : Prop :=
  ∀ id r, d.row (.run id) = some r → r.Current ∧ ∀ u ∈ r.claims, .uuid u ∈ d.keys

theorem RunsCurrent.changed (hd : RunsCurrent d) (id : ℕ) :
    Changed t o d id (d.row (.run id)) (d.row (.run id)) where
  change := fun b hb => ⟨b, hb, .same⟩
  current := fun r hr => (hd id r hr).1
  drawn := fun r hr u hu => ⟨(hd id r hr).2 u hu, .inl ⟨r, hr, hu⟩⟩

theorem Changed.mono {d' : Db} {o' : Overlay Row} {b v : Option Run}
    (h : Changed t o d id b v) (hkeys : ∀ k ∈ d.keys, k ∈ d'.keys)
    (hheld : ∀ u, o (.uuid u) ≠ none → o' (.uuid u) ≠ none) : Changed t o' d' id b v where
  change := h.change
  current := h.current
  drawn := fun r hr u hu =>
    ⟨hkeys _ (h.drawn r hr u hu).1, (h.drawn r hr u hu).2.imp_right (hheld u)⟩

theorem ChangesRuns.seen (h : ChangesRuns t o d) (hd : RunsCurrent d) (ha : o.Agrees d) (id : ℕ) :
    Changed t o d id (d.row (.run id)) ((d.overlay o).row (.run id)) := by
  cases hk : o (.run id) with
  | none =>
    rw [Database.overlay_row_free hk]
    exact hd.changed id
  | some held =>
    rw [Database.overlay_row_held hk, ha _ _ hk]
    exact h id held hk

theorem ChangesRuns.commit (hd : RunsCurrent d) (ha : o.Agrees d) (h : ChangesRuns t o d) :
    RunsCurrent (d.overlay o) := fun id r hr =>
  ⟨(h.seen hd ha id).current r hr, fun u hu => ((h.seen hd ha id).drawn r hr u hu).1⟩

def lifecycleDiscipline : Discipline Transaction Key Row where
  inv := RunsCurrent
  guarantee := fun t d o => ChangesRuns t o d
  pair := fun _ _ _ _ => True
  alone := fun _ _ _ => True
  reading := fun _ _ _ => True
  inv_addKey := fun _ h id r hr =>
    ⟨(h id r hr).1, fun u hu => Database.mem_addKey.2 (.inl ((h id r hr).2 u hu))⟩
  inv_advance := fun _ h => h
  inv_commit := ChangesRuns.commit

theorem ChangesRuns.stable (t : Transaction) : lifecycleDiscipline.Stable t (ChangesRuns t) :=
  fun _ _ _ hop h id held hk => (h id held hk).mono (fun _ => hop.keys_subset) fun _ hheld => hheld

def RunWrite (t : Transaction) (d : Db) : Write Row → Prop
  | ⟨.run id, v⟩ => v = d.row (.run id) ∨
      (∃ r r', d.row (.run id) = some r ∧ v = some r' ∧ Move t id r r') ∨
      d.row (.run id) = none ∧ ∃ r, v = some r ∧ NewRun r
  | _ => True

theorem runWrite_allows (t : Transaction) : AllowsCancels (Move t) NewRun (RunWrite t) where
  same := fun d k => by cases k <;> first | trivial | exact .inl rfl
  aside := fun d k v hk _ => by cases k <;> trivial
  move := fun d id r r' hr h => .inr (.inl ⟨r, r', hr, rfl, h⟩)
  create := fun d r hr h => .inr (.inr ⟨hr, r, rfl, h⟩)
  rearm := fun _ _ _ _ _ _ _ => trivial
  command := fun _ _ _ _ => trivial

theorem Move.current {r r' : Run} (h : Move t id r r') (hr : r.Current) : r'.Current := by
  cases h with
  | assign => exact hr
  | report _ hstate =>
    intro hrunning
    rcases hstate with rfl | rfl | rfl <;> cases hrunning
  | @callback _ succeeded =>
    intro hrunning
    cases succeeded <;> cases hrunning
  | _ => exact fun hrunning => by cases hrunning

theorem Move.claims {r r' : Run} (h : Move t id r r') : r'.claims = r.claims := by
  cases h <;> rfl

theorem Changed.write {b v v' : Option Run} (h : Changed t o d id b v)
    (hw : v' = v ∨ (∃ r r', v = some r ∧ v' = some r' ∧ Move t id r r') ∨
      v = none ∧ ∃ r, v' = some r ∧ NewRun r) : Changed t o d id b v' := by
  rcases hw with rfl | ⟨r, r', rfl, rfl, hm⟩ | ⟨rfl, r, rfl, hr⟩
  · exact h
  · refine ⟨fun x hx => ?_, ?_, ?_⟩
    · obtain ⟨_, hr, hc⟩ := h.change x hx
      cases hr
      exact ⟨r', rfl, hc.move hm⟩
    · rintro _ ⟨⟩
      exact hm.current (h.current r rfl)
    · rintro _ ⟨⟩
      rw [hm.claims]
      exact h.drawn r rfl
  · refine ⟨fun x hx => ?_, ?_, ?_⟩
    · obtain ⟨_, hr, _⟩ := h.change x hx
      cases hr
    · rintro _ ⟨⟩ hrunning
      rcases hr.status with hstatus | hstatus <;> simp [hrunning] at hstatus
    · rintro _ ⟨⟩
      simp [hr.claims]

theorem ChangesRuns.writeAll (h : ChangesRuns t o d) (hd : RunsCurrent d) (ha : o.Agrees d)
    {ws : List (Write Row)} (hws : ∀ w ∈ ws, RunWrite t (d.overlay o) w) :
    ChangesRuns t (o.writeAll d ws) (d.addKeys ws) := by
  have hmono : ∀ {id : ℕ} {b v : Option Run}, Changed t o d id b v →
      Changed t (o.writeAll d ws) (d.addKeys ws) id b v := fun hc =>
    hc.mono (fun _ hk => Database.mem_addKeys.2 (.inl hk)) fun _ => Overlay.writeAll_ne_none ws
  intro id held hk
  rcases Overlay.writeAll_cases ha ws (.run id) with hsame | ⟨v, hv, hnew⟩
  · exact hmono (h id held (hsame.symm.trans hk))
  · cases hnew.symm.trans hk
    exact hmono ((h.seen hd ha id).write (hws _ hv))

end Rows

section Claims

variable {t : Transaction} {o : Overlay Row} {d : Db} {u : ℕ}

structure Unclaimed (u : ℕ) (o : Overlay Row) (d : Db) : Prop where
  drawn : .uuid u ∈ d.keys
  held : o (.uuid u) ≠ none
  unclaimed : ∀ id r, (d.overlay o).row (.run id) = some r → u ∉ r.claims

theorem Unclaimed.stable (t : Transaction) (u : ℕ) :
    lifecycleDiscipline.Stable t (Unclaimed u) := by
  intro o d d' hop h
  refine ⟨hop.keys_subset h.drawn, h.held, fun id r hr hu => ?_⟩
  cases hk : o (.run id) with
  | some held =>
    refine h.unclaimed id r ?_ hu
    rwa [Database.overlay_row_held hk] at hr ⊢
  | none =>
    have hold : ∀ b, d.row (.run id) = some b → u ∉ b.claims := fun b hb =>
      h.unclaimed id b ((Database.overlay_row_free hk).trans hb)
    rw [Database.overlay_row_free hk] at hr
    cases hop.interferes with
    | grow ws => exact hold r (by rwa [Database.addKeys_row] at hr) hu
    | tick n => exact hold r hr hu
    | commit _ hdisjoint _ ha hg =>
      rcases (((show ChangesRuns _ _ _ from hg).seen hop.inv ha id).drawn r hr u hu).2 with
        ⟨b, hb, hmem⟩ | hheld
      · exact hold b hb hmem
      · exact hheld ((hdisjoint (.uuid u)).resolve_left h.held)

theorem ChangesRuns.unclaimed (h : ChangesRuns t o d) (hd : RunsCurrent d) (ha : o.Agrees d)
    (hfresh : .uuid u ∉ d.keys) : Unclaimed u (o.write d (.uuid u) none) (d.addKey (.uuid u)) where
  drawn := Database.mem_addKey.2 (.inr rfl)
  held := by simp [Overlay.write_self_of_agrees ha]
  unclaimed := fun id r hr hu => by
    have hrow : (d.overlay o).row (.run id) = some r :=
      (Database.overlay_write_ne (d := d) (k := .uuid u) (by simp)).symm.trans hr
    exact hfresh ((h.seen hd ha id).drawn r hrow u hu).1

theorem ChangesRuns.claim {owner : String} {lease : Int} {limit id : ℕ} {j : Job} {r : Run}
    (h : ChangesRuns t o d) (hop : t.operation = .claimRuns owner limit lease)
    (hu : Unclaimed u o d) (hd : RunsCurrent d) (ha : o.Agrees d)
    (hr : (d.overlay o).row (.run id) = some r) (hclaim : claimable t.now r = true) :
    ChangesRuns t (o.write d (.run id) (some (Store.claim t.now owner u lease j r)))
      (d.addKey (.run id)) := by
  have hmono : ∀ {id' : ℕ} {b v : Option Run}, Changed t o d id' b v →
      Changed t (o.write d (.run id) (some (Store.claim t.now owner u lease j r)))
        (d.addKey (.run id)) id' b v := fun hc =>
    hc.mono (fun _ hk => Database.mem_addKey.2 (.inl hk)) fun _ => Overlay.write_ne_none
  intro id' held hk
  by_cases hid : Key.run id' = .run id
  · cases hid
    rw [Overlay.write_self_of_agrees ha, Option.some.injEq] at hk
    subst hk
    have hseen := h.seen hd ha id
    rw [hr] at hseen
    refine hmono ⟨fun b hb => ?_, ?_, ?_⟩
    · obtain ⟨_, hsome, hc⟩ := hseen.change b hb
      cases hsome
      exact ⟨_, rfl, hc.claimed hop hclaim (hu.unclaimed id r hr)⟩
    · rintro _ ⟨⟩ _
      exact ⟨_, rfl, rfl⟩
    · rintro _ ⟨⟩ v hv
      rcases List.mem_cons.1 hv with rfl | hv
      · exact ⟨hu.drawn, .inr hu.held⟩
      · exact hseen.drawn r rfl v hv
  · rw [Overlay.write_ne hid] at hk
    exact hmono (h id' held hk)

end Claims

section Programs

variable {t : Transaction} {env : Env}

def changesRuns (t : Transaction) : Judgement Key Row StoreError :=
  .keeps lifecycleDiscipline t (ChangesRuns t)

theorem changesRuns_effect {α : Type} {p : Tx α} {S : α → Prop} (he : p.Effect (RunWrite t) S) :
    (changesRuns t).holds p S :=
  Discipline.Triple.steps he (ChangesRuns.stable t) fun _ _ _ hd ha h hws => h.writeAll hd ha hws

theorem claimOne_changes {owner : String} {limit : ℕ} {lease : Int}
    (hop : t.operation = .claimRuns owner limit lease) (claimed : List ClaimedRun)
    (item : Run × Job) :
    (changesRuns t).holds (claimOne t.now owner lease claimed item) fun _ => True := by
  have hW := (runWrite_allows t).toAllowsRuns
  refine .bind (Q := fun token o d => ChangesRuns t o d ∧ Unclaimed token o d)
    (.fresh (ChangesRuns.stable t) fun o d u hd ha _ h hfresh _ => ?_) fun token => ?_
  · have hkept : ChangesRuns t (o.writeAll d [⟨.uuid u, none⟩]) (d.addKeys [⟨.uuid u, none⟩]) := by
      refine h.writeAll hd ha fun w hw => ?_
      cases List.mem_singleton.1 hw
      trivial
    exact ⟨hkept, h.unclaimed hd ha hfresh⟩
  refine .bind (Q := fun _ o d => ChangesRuns t o d) (.update (V := Row) (k := Key.run item.1.id)
    ((ChangesRuns.stable t).and (Unclaimed.stable t token)) (fun _ _ _ _ h _ => h.1)
    fun o d r hd ha h hr hclaim _ => h.1.claim hop h.2 hd ha hr hclaim) fun r => ?_
  cases r with
  | none => exact (changesRuns t).pure trivial
  | some r =>
    refine changesRuns_effect ((newUUID_effect hW).bind fun eventID _ => ?_)
    refine Program.Effect.bind (.when fun _ => ?_) fun _ _ => ?_
    · exact insertRow_effect fun d _ => hW.aside d _ _ rfl nofun
    · exact (insertRow_effect fun d _ => hW.aside d (.claim token) _ rfl nofun).bind
        fun _ _ => .pure trivial

theorem claimRuns_changes {owner : String} {limit : ℕ} {lease : Int}
    (hop : t.operation = .claimRuns owner limit lease) :
    (changesRuns t).holds (claimRuns env t.now owner limit lease) fun _ => True := by
  have hW := (runWrite_allows t).toAllowsRuns
  let J := changesRuns t
  refine J.bind (changesRuns_effect (select_effect _)) fun clusters _ => J.bind
    (changesRuns_effect (.forEach fun id _ => ?_)) fun _ _ =>
      J.bind (changesRuns_effect (select_effect _)) fun cs _ => ?_
  · exact Program.Effect.bind (.lock fun d => hW.same d _) fun _ _ => .pure trivial
  · refine J.bind (changesRuns_effect (.skipLocked hW.same)) fun rows _ => ?_
    refine J.bind (J.foldEach (S := fun _ => True) trivial fun claimed item _ _ =>
      claimOne_changes hop claimed item) fun claimed _ => ?_
    exact changesRuns_effect ((liftExcept_effect _).bind fun _ _ => .pure trivial)

theorem operation_changes (env : Env) (t : Transaction) :
    (changesRuns t).holds (operationProgram env t.now t.operation) fun _ => True := by
  have hW := runWrite_allows t
  have hedit : ∀ d (k : Key) v, k.registered = true → RunWrite t d ⟨k, v⟩ :=
    fun d k v hk => by cases k <;> trivial
  have hJ : Covers env t.now (changesRuns t) (fun _ => True) (RunWrite t) := by
    refine ⟨changesRuns_effect,
      fun jobID _ => changesRuns_effect (coverEarly_effect hW fun id r h => ?_)⟩
    simp only [activeOfJob, Bool.and_eq_true] at h
    exact .cover h.2
  refine operationProgram_holds hW.toAllowsRuns hJ (fun _ _ => trivial) (fun _ _ _ h _ => h)
    (fun _ h => h) (fun d k v hk _ _ => hedit d k v hk) (fun _ _ => .inr fun _ _ => trivial)
    (fun _ _ _ hop => claimRuns_changes hop) (fun _ _ _ _ => ?_)
    fun h => changesRuns_effect (edit_effect hW.toAllowsRuns hedit h)
  exact changesRuns_effect
    (cancelRun_effect hW (fun _ _ at_ reason h => .cancel h at_ reason) _ _ _)

end Programs

section Changes

variable {env : Env} {m m' : SchedulerMachine}

theorem lifecycle_sound (hm : Machine.Reachable (anyCaller env) (fun _ _ _ => True) m) :
    lifecycleDiscipline.Sound m := by
  refine Discipline.sound (fun _ _ _ _ hr => ?_) (fun t d hd _ => ?_) (fun _ _ _ _ => ?_) hm
  · cases hr
  · refine (Discipline.Triple.weaken (operation_changes env t)
      fun _ o d _ _ h d' hl _ _ => ?_) _ d hd
      (fun _ _ h => by cases h) fun _ _ h => by cases h
    exact (ChangesRuns.stable t).later hl h.1
  · exact ⟨fun _ _ _ _ _ => trivial, fun _ => trivial, fun _ _ _ => trivial⟩

theorem lifecycle_step (hm : Machine.Reachable (anyCaller env) (fun _ _ _ => True) m)
    {l : Label Transaction Key} (hs : m.step (anyCaller env) l = some m') {id : ℕ} {r : Run}
    (hr : m.store.committed.row (.run id) = some r) :
    ∃ r', m'.store.committed.row (.run id) = some r' ∧
      (r' = r ∨ ∃ t, l = .finish t ∧ Change t id r r') := by
  rcases Machine.committed_cases hs with hrow | ⟨t, _, rfl, hrun, hview⟩
  · exact ⟨r, by rw [hrow, hr], .inl rfl⟩
  · have hsound := lifecycle_sound hm
    have hchanges : ChangesRuns _ _ _ := hsound.guarantee Discipline.answer_final hrun
    obtain ⟨r', hr', hc⟩ := (hchanges.seen hsound.inv (m.store.own_agrees _) id).change r hr
    rw [hview]
    exact ⟨r', hr', .inr ⟨t, rfl, hc⟩⟩

theorem lifecycle_current (hm : Machine.Reachable (anyCaller env) (fun _ _ _ => True) m)
    {id : ℕ} {r : Run} (hr : m.store.committed.row (.run id) = some r) : r.Current :=
  ((lifecycle_sound hm).inv id r hr).1

theorem Change.final {t : Transaction} {id : ℕ} {b r : Run} (h : Change t id b r)
    (hb : b.status.active = false) : r.status = b.status := by
  cases h with
  | same => rfl
  | work hw => simp [hw.running, RunStatus.active] at hb
  | claim _ hclaim => simp [claimable_active hclaim] at hb
  | callback _ hawait =>
    simp only [awaitsCallback, Bool.and_eq_true, beq_iff_eq] at hawait
    simp [hawait.1, RunStatus.active] at hb
  | expire _ hwait => simp [hwait, RunStatus.active] at hb
  | cancel hactive => simp [hactive] at hb

theorem Change.legal {t : Transaction} {id : ℕ} {b r : Run} (h : Change t id b r) :
    r.status = b.status ∨ r.status ∈ b.status.next := by
  cases h with
  | same => exact .inl rfl
  | work hw hstatus =>
    rw [hw.running]
    simp only [List.mem_cons, RunStatus.next] at hstatus ⊢
    tauto
  | claim _ hclaim =>
    simp only [claimable, Bool.or_eq_true, Bool.and_eq_true, beq_iff_eq] at hclaim
    rcases hclaim with h | h
    · exact .inr (by simp [h.1, Store.claim, Run.enter, RunStatus.next])
    · exact .inl (by simp [h.1, Store.claim, Run.enter])
  | @callback _ succeeded _ _ _ hawait hstatus =>
    simp only [awaitsCallback, Bool.and_eq_true, beq_iff_eq] at hawait
    refine .inr ?_
    rw [hstatus, hawait.1]
    cases succeeded <;> decide
  | expire _ hwait hstatus =>
    refine .inr ?_
    rw [hstatus, hwait]
    decide
  | cancel hactive hstatus =>
    refine .inr ?_
    rw [hstatus]
    cases hb : b.status <;> simp [hb, RunStatus.active, RunStatus.next] at hactive ⊢

end Changes

section Rejection

/-- What a worker is told whose lease is gone. A failure state that is none is refused
before the lease is looked at. -/
def rejection : Operation → StoreError
  | .failRun _ state _ _ _ =>
      if state ≠ .failed ∧ state ≠ .timedOut then .invalidFailureState state else .conflict
  | _ => .conflict

/-- A program that is refused, or whose next statement is the update a token guards. -/
inductive Guarded (e : StoreError) (w : Run) (token : ℕ) : Tx Result → Prop where
  | refused : Guarded e w token (.fail e)
  | update (set : Run → Run) {next : Option Run → Tx Result} (hnone : next none = .fail e) :
      Guarded e w token (.stmt (.update (V := Row) (Key.run w.id) (leasedBy token) set) next)

theorem worker_guarded {env : Env} {now : Int} {op : Operation} {w : Run} {lease : Lease}
    (hop : claimedRunOf op = some w) (hlease : w.lease = some lease) :
    Guarded (rejection op) w lease.token (operationProgram env now op) := by
  cases op with
  | failRun run state status message delay =>
    cases hop
    by_cases h : state ≠ .failed ∧ state ≠ .timedOut
    · simp only [operationProgram, failRun, rejection, if_pos h]
      exact .refused
    · simp only [operationProgram, failRun, rejection, if_neg h, updateLeasedRun, requireRunLease,
        hlease]
      exact .update _ rfl
  | assignClaimedRunExecutor =>
    cases hop
    simp only [operationProgram, assignClaimedRunExecutor, updateLeasedRun, requireRunLease, hlease]
    exact .update _ rfl
  | prepareClaimedExecutorDispatch =>
    cases hop
    simp only [operationProgram, prepareClaimedExecutorDispatch, updateLeasedRun, requireRunLease,
      hlease]
    exact .update _ rfl
  | markClaimedWaitingCallback =>
    cases hop
    simp only [operationProgram, markClaimedWaitingCallback, updateLeasedRun, requireRunLease,
      hlease]
    exact .update _ rfl
  | completeRun =>
    cases hop
    simp only [operationProgram, completeRun, updateLeasedRun, requireRunLease, hlease]
    exact .update _ rfl
  | _ => cases hop

theorem Run.Outdated.leasedBy {r : Run} {token : ℕ} (h : r.Outdated token) (hr : r.Current) :
    leasedBy token r = false := by
  by_contra hc
  simp only [Store.leasedBy, Bool.not_eq_false, Bool.and_eq_true, beq_iff_eq] at hc
  obtain ⟨l, hl, hhead⟩ := hr hc.1
  rw [hl, Option.map_some, Option.some.injEq] at hc
  exact h.2 (hc.2 ▸ hhead)

structure Rejected (m : SchedulerMachine) (t : Transaction) (w : Run) (token : ℕ) :
    Prop where
  outdated : ∃ r, m.store.committed.row (.run w.id) = some r ∧ r.Outdated token
  own : m.store.own t = Overlay.empty
  waiting : ∀ p, m.running t = some p → Guarded (rejection t.operation) w token p
  returned : ∀ res, (t, res) ∈ m.returned → res = .error (rejection t.operation)

variable {env : Env} {m m' : SchedulerMachine} {t : Transaction} {w : Run} {lease : Lease}

theorem Rejected.statement (h : Rejected m t w lease.token)
    (hm : Machine.Reachable (anyCaller env) (fun _ _ _ => True) m) {β : Type}
    {s : Stmt Key Row β} {next : β → Tx Result} (hrun : m.running t = some (.stmt s next))
    {inp : Input Key} {a : β} {ws : List (Write Row)}
    (heval : s.eval inp (m.store.view t) (m.store.busy t) = some (a, ws)) :
    ws = [] ∧ next a = .fail (rejection t.operation) := by
  obtain ⟨r, hr, hold⟩ := h.outdated
  have hview : (m.store.view t).row (.run w.id) = some r := by
    rw [Store.view, h.own]
    exact hr
  cases h.waiting _ hrun with
  | update set hnone =>
    simp only [Stmt.eval, hview, hold.leasedBy (lifecycle_current hm hr), Bool.false_eq_true,
      if_false, Option.some.injEq, Prod.mk.injEq] at heval
    obtain ⟨rfl, rfl⟩ := heval
    exact ⟨rfl, hnone⟩

theorem Rejected.step (h : Rejected m t w lease.token)
    (hm : Machine.Reachable (anyCaller env) (fun _ _ _ => True) m)
    (hop : claimedRunOf t.operation = some w) (hlease : w.lease = some lease)
    {l : Label Transaction Key} (hs : m.step (anyCaller env) l = some m') :
    Rejected m' t w lease.token := by
  obtain ⟨r, hr, hold⟩ := h.outdated
  have houtdated : ∃ r, m'.store.committed.row (.run w.id) = some r ∧ r.Outdated lease.token := by
    obtain ⟨r', hr', hcases⟩ := lifecycle_step hm hs hr
    refine ⟨r', hr', ?_⟩
    rcases hcases with rfl | ⟨_, _, hc⟩
    · exact hold
    · exact hc.outdated hold
  cases Machine.step_cases hs with
  | @begin t' hfresh hadm =>
    refine ⟨houtdated, h.own, fun p hp => ?_, h.returned⟩
    by_cases ht : t = t'
    · subst ht
      simp only [Function.update_self, Option.some.injEq] at hp
      subst hp
      exact worker_guarded hop hlease
    · simp only [Function.update_of_ne ht] at hp
      exact h.waiting p hp
  | @exec t' inp β s next a ws hrun heval hfree =>
    by_cases ht : t = t'
    · subst ht
      obtain ⟨rfl, hnext⟩ := h.statement hm hrun heval
      refine ⟨houtdated, ?_, fun p hp => ?_, h.returned⟩
      · rw [Store.own_writeAll_self, h.own]
        rfl
      · simp only [Function.update_self, Option.some.injEq] at hp
        rw [← hp, hnext]
        exact .refused
    · refine ⟨houtdated, ?_, fun p hp => ?_, h.returned⟩
      · rw [Store.own_writeAll_other ws hfree ht]
        exact h.own
      · simp only [Function.update_of_ne ht] at hp
        exact h.waiting p hp
  | @commit t' a hrun =>
    have ht : t ≠ t' := by
      rintro rfl
      cases h.waiting _ hrun
    refine ⟨houtdated, ?_, fun p hp => ?_, fun res hres => ?_⟩
    · rw [Store.own_commit, if_neg ht]
      exact h.own
    · simp only [Function.update_of_ne ht] at hp
      exact h.waiting p hp
    · refine h.returned res ((List.mem_cons.1 hres).resolve_left fun he => ?_)
      exact ht (Prod.mk.inj he).1
  | @rollback t' e hrun =>
    refine ⟨houtdated, ?_, fun p hp => ?_, fun res hres => ?_⟩
    · rw [Store.own_abort, h.own]
      split <;> rfl
    · by_cases ht : t = t'
      · subst ht
        simp at hp
      · simp only [Function.update_of_ne ht] at hp
        exact h.waiting p hp
    · rcases List.mem_cons.1 hres with he | hres
      · cases he
        cases h.waiting _ hrun
        rfl
      · exact h.returned res hres
  | @crash t' _ hrun =>
    refine ⟨houtdated, ?_, fun p hp => ?_, h.returned⟩
    · rw [Store.own_abort, h.own]
      split <;> rfl
    · by_cases ht : t = t'
      · subst ht
        simp at hp
      · simp only [Function.update_of_ne ht] at hp
        exact h.waiting p hp
  | tick n => exact ⟨houtdated, h.own, h.waiting, h.returned⟩

theorem Rejected.run (h : Rejected m t w lease.token)
    (hm : Machine.Reachable (anyCaller env) (fun _ _ _ => True) m)
    (hop : claimedRunOf t.operation = some w) (hlease : w.lease = some lease)
    (ls : List (Label Transaction Key)) (hr : m.run (anyCaller env) ls = some m') :
    Rejected m' t w lease.token := by
  induction ls generalizing m with
  | nil =>
    cases hr
    exact h
  | cons l ls ih =>
    simp only [Machine.run] at hr
    split at hr
    · next m₁ hs => exact ih (h.step hm hop hlease hs) (.step hm hs trivial) hr
    · cases hr

end Rejection

structure Lifecycle (env : Env) (m : SchedulerMachine) : Prop where
  -- A run that has ended keeps its status in every later state.
  final : ∀ ls m', m.run (anyCaller env) ls = some m' → ∀ id r,
    m.store.committed.row (.run id) = some r → r.status.active = false →
      ∃ r', m'.store.committed.row (.run id) = some r' ∧ r'.status = r.status
  -- A step takes a run to a status that may follow.
  legal : ∀ l m', m.step (anyCaller env) l = some m' → ∀ id r,
    m.store.committed.row (.run id) = some r → ∃ r', m'.store.committed.row (.run id) = some r' ∧
      (r'.status = r.status ∨ r'.status ∈ r.status.next)
  -- A running run that is changed, and neither cancelled nor claimed anew, was changed by a worker
  -- with the token of its latest claim.
  leased : ∀ l m', m.step (anyCaller env) l = some m' → ∀ id r r',
    m.store.committed.row (.run id) = some r → m'.store.committed.row (.run id) = some r' →
    r.status = .running → r' ≠ r → r'.status ≠ .cancelled → r'.claims = r.claims →
      ∃ t w lease, l = .finish t ∧ claimedRunOf t.operation = some w ∧ w.id = id ∧
        w.lease = some lease ∧ r.claims.head? = some lease.token
  -- A worker that has run no statement when its token is outdated never holds a row, and is
  -- refused.
  refused : ∀ t w lease r, claimedRunOf t.operation = some w → w.lease = some lease →
    m.store.committed.row (.run w.id) = some r → r.Outdated lease.token →
    (t ∉ m.begun ∨ m.running t = some (operationProgram env t.now t.operation) ∧
      m.store.own t = Overlay.empty) →
    ∀ ls m', m.run (anyCaller env) ls = some m' → m'.store.own t = Overlay.empty ∧
      ∀ res, (t, res) ∈ m'.returned → res = .error (rejection t.operation)
  -- A run that awaits its callback succeeds or fails only by a callback with its token, issued
  -- before its deadline.
  callback : ∀ l m', m.step (anyCaller env) l = some m' → ∀ id r r',
    m.store.committed.row (.run id) = some r → m'.store.committed.row (.run id) = some r' →
    r.status = .waitingCallback → r'.status = .succeeded ∨ r'.status = .failed →
      ∃ t tokenHash succeeded message c, l = .finish t ∧
        t.operation = .completeCallback id tokenHash succeeded message ∧
        r.callback = some c ∧ c.tokenHash = tokenHash ∧ t.now < c.deadline

section Lifecycle

variable {env : Env} {m m' : SchedulerMachine}

theorem lifecycle_final (hm : Machine.Reachable (anyCaller env) (fun _ _ _ => True) m)
    (ls : List (Label Transaction Key)) (hr : m.run (anyCaller env) ls = some m') {id : ℕ} {r : Run}
    (hrow : m.store.committed.row (.run id) = some r) (hend : r.status.active = false) :
    ∃ r', m'.store.committed.row (.run id) = some r' ∧ r'.status = r.status := by
  induction ls generalizing m r with
  | nil =>
    cases hr
    exact ⟨r, hrow, rfl⟩
  | cons l ls ih =>
    simp only [Machine.run] at hr
    split at hr
    · next m₁ hs =>
        obtain ⟨r₁, hr₁, hcases⟩ := lifecycle_step hm hs hrow
        have hstatus : r₁.status = r.status := by
          rcases hcases with rfl | ⟨_, _, hc⟩
          · rfl
          · exact hc.final hend
        obtain ⟨r', hr', hsame⟩ := ih (.step hm hs trivial) hr hr₁ (by rw [hstatus, hend])
        exact ⟨r', hr', hsame.trans hstatus⟩
    · cases hr

theorem lifecycle_leased (hm : Machine.Reachable (anyCaller env) (fun _ _ _ => True) m)
    {l : Label Transaction Key} (hs : m.step (anyCaller env) l = some m') {id : ℕ} {r r' : Run}
    (hr : m.store.committed.row (.run id) = some r)
    (hr' : m'.store.committed.row (.run id) = some r') (hrunning : r.status = .running)
    (hne : r' ≠ r) (hcancel : r'.status ≠ .cancelled) (hclaims : r'.claims = r.claims) :
    ∃ t w lease, l = .finish t ∧ claimedRunOf t.operation = some w ∧ w.id = id ∧
      w.lease = some lease ∧ r.claims.head? = some lease.token := by
  obtain ⟨r₁, hr₁, hcases⟩ := lifecycle_step hm hs hr
  obtain rfl : r₁ = r' := Option.some.inj (hr₁.symm.trans hr')
  rcases hcases with rfl | ⟨t, rfl, hc⟩
  · exact absurd rfl hne
  cases hc with
  | same => exact absurd rfl hne
  | work hw =>
    obtain ⟨lease, hlease, htoken⟩ := hw.token
    obtain ⟨l, hl, hhead⟩ := lifecycle_current hm hr hrunning
    rw [hl, Option.map_some, Option.some.injEq] at htoken
    exact ⟨t, _, lease, rfl, hw.operation, hw.id, hlease, htoken ▸ hhead⟩
  | claim => exact absurd hclaims (List.cons_ne_self _ _)
  | callback _ hawait => simp [awaitsCallback, hrunning] at hawait
  | expire _ hwait => simp [hrunning] at hwait
  | cancel _ hstatus => exact absurd hstatus hcancel

theorem lifecycle_callback (hm : Machine.Reachable (anyCaller env) (fun _ _ _ => True) m)
    {l : Label Transaction Key} (hs : m.step (anyCaller env) l = some m') {id : ℕ} {r r' : Run}
    (hr : m.store.committed.row (.run id) = some r)
    (hr' : m'.store.committed.row (.run id) = some r') (hwaiting : r.status = .waitingCallback)
    (hend : r'.status = .succeeded ∨ r'.status = .failed) :
    ∃ t tokenHash succeeded message c, l = .finish t ∧
      t.operation = .completeCallback id tokenHash succeeded message ∧
      r.callback = some c ∧ c.tokenHash = tokenHash ∧ t.now < c.deadline := by
  obtain ⟨r₁, hr₁, hcases⟩ := lifecycle_step hm hs hr
  obtain rfl : r₁ = r' := Option.some.inj (hr₁.symm.trans hr')
  rcases hcases with rfl | ⟨t, rfl, hc⟩
  · simp [hwaiting] at hend
  cases hc with
  | same => simp [hwaiting] at hend
  | work hw => simp [hw.running] at hwaiting
  | claim _ hclaim => simp [claimable, hwaiting] at hclaim
  | callback hop hawait =>
    simp only [awaitsCallback, Bool.and_eq_true, Option.any_eq_true, beq_iff_eq,
      decide_eq_true_eq] at hawait
    obtain ⟨_, c, hcallback, hhash, hdeadline⟩ := hawait
    exact ⟨t, _, _, _, c, rfl, hop, hcallback, hhash, hdeadline⟩
  | expire _ _ hstatus | cancel _ hstatus => simp [hstatus] at hend

/-- Every reachable state keeps the rules of the lifecycle. -/
theorem run_lifecycle (env : Env) (m : SchedulerMachine)
    (hm : Machine.Reachable (anyCaller env) (fun _ _ _ => True) m) : Lifecycle env m where
  final := fun ls m' hr id r => lifecycle_final hm ls hr
  legal := by
    intro l m' hs id r hr
    obtain ⟨r', hr', hcases⟩ := lifecycle_step hm hs hr
    refine ⟨r', hr', ?_⟩
    rcases hcases with rfl | ⟨_, _, hc⟩
    · exact .inl rfl
    · exact hc.legal
  leased := fun l m' hs id r r' => lifecycle_leased hm hs
  refused := by
    intro t w lease r hop hlease hr hold hstart ls m' hrun
    have hreject : Rejected m t w lease.token := by
      rcases hstart with hbegun | ⟨hfirst, hown⟩
      · have hnone : m.running t = none := by
          by_contra h
          exact hbegun (hm.begun h)
        refine ⟨⟨r, hr, hold⟩, (lifecycle_sound hm).idle t hnone, by simp [hnone], fun res h => ?_⟩
        exact absurd (hm.returned h).1 hbegun
      · refine ⟨⟨r, hr, hold⟩, hown, fun p hp => ?_, fun res h => ?_⟩
        · rw [hfirst, Option.some.injEq] at hp
          subst hp
          exact worker_guarded hop hlease
        · simp [(hm.returned h).2] at hfirst
    obtain ⟨_, hown, _, hreturned⟩ := hreject.run hm hop hlease ls hrun
    exact ⟨hown, hreturned⟩
  callback := fun l m' hs id r r' => lifecycle_callback hm hs

def claimedOnce : SchedulerMachine :=
  (Machine.init 5).perform (anyCaller plainEnv) 40
    [(0, ⟨0, 5, .createTenant 1 ⟨10⟩⟩, 5), (0, ⟨1, 5, .createJob plainJob {}⟩, 5),
      (0, ⟨2, 5, .triggerJob ⟨1, 1, "", "", []⟩⟩, 5), (0, ⟨3, 5, .claimRuns "core" 10 0⟩, 5)]

theorem run_lifecycle_claimed :
    (claimedOnce.store.committed.row (.run 3)).map Run.status = some .running ∧
      Lifecycle plainEnv claimedOnce := by
  refine ⟨by decide +kernel, run_lifecycle plainEnv claimedOnce ?_⟩
  exact (Machine.Reachable.init (by decide)).perform _ _

end Lifecycle

end GoScheduler.Store
