import GoScheduler.Store.Completion

/-! Manual triggers with an idempotency key, among all other transactions of the store. The
row of a key is inserted once, together with the run it names, and never changes; whoever
finds the row returns that run. -/
namespace GoScheduler.Store
open ReadCommitted Schedule

section Births

/-- How a transaction may leave the rows it holds: runs keep their fixed columns, runs it
created have `P`, and rows of idempotency keys outside `mine` are as they were. -/
def Births (mine : Key → Prop) (P : Run → Prop) :
    (k : Key) → Option (Row k) → Option (Row k) → Prop
  | .run id, b, v => (∀ r, b = some r → ∃ r', v = some r' ∧ r'.Same r) ∧
      (b = none → ∀ r, v = some r → r.id = id ∧ P r)
  | .idempotency tenantID jobID key, b, v => mine (.idempotency tenantID jobID key) ∨ v = b
  | _, _, _ => True

def BirthWrite (P : Run → Prop) (d : Db) (w : Write Row) : Prop :=
  Births (fun _ => False) P w.1 (d.row w.1) w.2

def FixedCondition (P : Run → Prop) : Prop := ∀ r r' : Run, r'.Same r → P r → P r'

variable {mine : Key → Prop} {P P' : Run → Prop}

theorem Births.refl (k : Key) (v : Option (Row k)) : Births mine P k v v := by
  cases k with
  | run id => exact ⟨fun r hr => ⟨r, hr, .refl r⟩, fun hnone r hr => by simp [hnone] at hr⟩
  | idempotency => exact .inr rfl
  | _ => trivial

theorem Births.mono {k : Key} {b v : Option (Row k)} (hP : ∀ r, P r → P' r)
    (h : Births mine P k b v) : Births mine P' k b v := by
  cases k with
  | run id => exact ⟨h.1, fun hb r hr => ⟨(h.2 hb r hr).1, hP r (h.2 hb r hr).2⟩⟩
  | idempotency => exact h
  | _ => trivial

theorem BirthWrite.after (hP : FixedCondition P) (d : Db) (k : Key) (v b : Option (Row k))
    (hw : BirthWrite P d ⟨k, v⟩) (h : Births mine P k b (d.row k)) : Births mine P k b v := by
  cases k with
  | run id =>
    obtain ⟨hkept, hborn⟩ := hw
    refine ⟨fun r hr => ?_, fun hb r' hr' => ?_⟩
    · obtain ⟨r₁, hr₁, hsame₁⟩ := h.1 r hr
      obtain ⟨r₂, hr₂, hsame₂⟩ := hkept r₁ hr₁
      exact ⟨r₂, hr₂, hsame₂.trans hsame₁⟩
    · cases hrow : d.row (.run id) with
      | none => exact hborn hrow r' hr'
      | some r =>
        obtain ⟨hid, hr⟩ := h.2 hb r hrow
        obtain ⟨r₂, hr₂, hsame⟩ := hkept r hrow
        cases hr'.symm.trans hr₂
        exact ⟨hsame.id.trans hid, hP r _ hsame hr⟩
  | idempotency =>
    rcases h with h | h
    · exact .inl h
    · rcases hw with hw | hw
      · exact hw.elim
      · exact .inr (hw.trans h)
  | _ => trivial

theorem birthWrite_allows (P : Run → Prop) :
    AllowsCancels (fun _ r r' => r'.Same r) P (BirthWrite P) where
  same := fun d k => Births.refl k (d.row k)
  aside := fun d k v hk _ => by cases k <;> trivial
  move := fun d id r r' hrow hsame => by
    refine ⟨fun q hq => ⟨r', rfl, ?_⟩, fun hnone => ?_⟩
    · cases hrow.symm.trans hq
      exact hsame
    · cases hrow.symm.trans hnone
  create := fun d r hrow hr => by
    refine ⟨fun q hq => ?_, fun _ r' hr' => ?_⟩
    · cases hrow.symm.trans hq
    · cases hr'
      exact ⟨rfl, hr⟩
  rearm := fun _ _ _ _ _ _ _ => trivial
  command := fun _ _ _ _ => trivial

theorem birthWrite_covers {env : Env} {now : Int} (P : Run → Prop) :
    Covers env now (.effect (BirthWrite P)) (fun _ => True) (BirthWrite P) :=
  (birthWrite_allows P).covers fun _ _ _ _ => by constructor <;> rfl

theorem operation_effect (env : Env) (now : Int) (op : Operation)
    (htrigger : ∀ req, op ≠ .triggerJob req) :
    (operationProgram env now op).Effect (BirthWrite fun _ => True) fun _ => True := by
  have hW := birthWrite_allows fun _ => True
  have hedit : ∀ d (k : Key) v, k.registered = true → BirthWrite (fun _ => True) d ⟨k, v⟩ :=
    fun d k v hk => by cases k <;> trivial
  exact operationProgram_effect (t := ⟨0, now, op⟩) hW (fun _ _ _ h => h.same) (fun _ _ => trivial)
    (fun d k v hk _ _ => hedit d k v hk) (fun req hop => absurd hop (htrigger req))
    (fun _ _ _ _ _ _ _ _ _ => (claim_same ..).symm) (edit_effect hW.toAllowsRuns hedit)

end Births

section Protocol

structure KeysRefer (d : Db) : Prop where
  keyed : ∀ id r, d.row (.run id) = some r → r.id = id
  refer : ∀ tenantID jobID key e, d.row (.idempotency tenantID jobID key) = some e →
    ∃ r, d.row (.run e.runID) = some r ∧ r.scheduledAt = e.scheduledAt

def Born (r : Run) (o : Overlay Row) : Prop :=
  ∃ v, o (.run r.id) = some ⟨none, v⟩ ∧ ∃ q, v = some q ∧ q.Same r

structure KeysKept (o : Overlay Row) : Prop where
  runs : o.Rowwise (Births (fun _ => True) fun _ => True)
  keys : ∀ tenantID jobID key h, o (.idempotency tenantID jobID key) = some h →
    h.version = h.base ∨ h.base = none ∧ ∃ e r, h.version = some e ∧ r.id = e.runID ∧
      r.scheduledAt = e.scheduledAt ∧ Born r o

variable {d d' : Db} {o : Overlay Row}

theorem KeysKept.of_rows {P : Run → Prop} (h : o.Rowwise (Births (fun _ => False) P)) :
    KeysKept o where
  runs := fun k held hk => by
    have hrow := h k held hk
    cases k with
    | run id => exact ⟨hrow.1, fun hb r hr => ⟨(hrow.2 hb r hr).1, trivial⟩⟩
    | idempotency => exact .inl trivial
    | _ => trivial
  keys := fun tenantID jobID key held hk => by
    rcases h _ held hk with hmine | hsame
    · exact hmine.elim
    · exact .inl hsame

theorem KeysKept.run (h : KeysKept o) (ha : o.Agrees d) {id : ℕ} {r : Run}
    (hr : d.row (.run id) = some r) : ∃ r', (d.overlay o).row (.run id) = some r' ∧ r'.Same r := by
  cases hk : o (.run id) with
  | none => exact ⟨r, (Database.overlay_row_free hk).trans hr, .refl r⟩
  | some held =>
    rw [Database.overlay_row_held hk]
    exact (h.runs _ held hk).1 r ((ha _ held hk).symm.trans hr)

theorem KeysKept.key (h : KeysKept o) (ha : o.Agrees d) {tenantID jobID : ℕ} {key : String}
    {e : IdempotencyRecord} (he : d.row (.idempotency tenantID jobID key) = some e) :
    (d.overlay o).row (.idempotency tenantID jobID key) = some e := by
  cases hk : o (.idempotency tenantID jobID key) with
  | none => exact (Database.overlay_row_free hk).trans he
  | some held =>
    have hbase := (ha _ held hk).symm.trans he
    rw [Database.overlay_row_held hk]
    rcases h.keys _ _ _ held hk with hsame | ⟨hnone, _⟩
    · exact hsame.trans hbase
    · cases hnone.symm.trans hbase

theorem KeysRefer.commit (hd : KeysRefer d) (ha : o.Agrees d) (h : KeysKept o) :
    KeysRefer (d.overlay o) where
  keyed := fun id r hr => by
    cases hk : o (.run id) with
    | none => exact hd.keyed id r ((Database.overlay_row_free hk).symm.trans hr)
    | some held =>
      rw [Database.overlay_row_held hk] at hr
      obtain ⟨hkept, hborn⟩ := h.runs _ held hk
      cases hbase : held.base with
      | none => exact (hborn hbase r hr).1
      | some r₀ =>
        obtain ⟨r', hr', hsame⟩ := hkept r₀ hbase
        cases hr.symm.trans hr'
        exact hsame.id.trans (hd.keyed id r₀ ((ha _ held hk).trans hbase))
  refer := fun tenantID jobID key e he => by
    have hold : d.row (.idempotency tenantID jobID key) = some e →
        ∃ r, (d.overlay o).row (.run e.runID) = some r ∧ r.scheduledAt = e.scheduledAt := by
      intro hrow
      obtain ⟨r, hr, hat⟩ := hd.refer _ _ _ e hrow
      obtain ⟨r', hr', hsame⟩ := h.run ha hr
      exact ⟨r', hr', hsame.scheduledAt.trans hat⟩
    cases hk : o (.idempotency tenantID jobID key) with
    | none => exact hold ((Database.overlay_row_free hk).symm.trans he)
    | some held =>
      rw [Database.overlay_row_held hk] at he
      rcases h.keys _ _ _ held hk with hsame | ⟨_, e', r, he', hid, hat, v, hv, q, hq, hsame⟩
      · exact hold (((ha _ held hk).trans hsame.symm).trans he)
      · cases he.symm.trans he'
        refine ⟨q, ?_, hsame.scheduledAt.trans hat⟩
        rw [← hid, Database.overlay_row_held hv]
        exact hq

def idempotencyDiscipline : Discipline Transaction Key Row where
  inv := KeysRefer
  guarantee := fun _ _ o => KeysKept o
  pair := fun _ _ _ _ => True
  alone := fun _ _ _ => True
  reading := fun _ _ _ => True
  inv_addKey := fun _ h => ⟨h.keyed, h.refer⟩
  inv_advance := fun _ h => ⟨h.keyed, h.refer⟩
  inv_commit := fun hd ha hg => hd.commit ha hg

def TriggerRequest.row (req : TriggerRequest) : Key :=
  .idempotency req.tenantID req.jobID req.key

/-- The key was there: nothing is created, and the run it names is returned. -/
structure Repeated (req : TriggerRequest) (r : Run) (o : Overlay Row) (d : Db) : Prop where
  rows : o.Rowwise (Births (fun _ => False) fun _ => False)
  key : ∃ e, d.row (.idempotency req.tenantID req.jobID req.key) = some e ∧ e.runID = r.id
  run : ∃ q, d.row (.run r.id) = some q ∧ q.Same r

def OneTrigger (runID : ℕ) (P : Run → Prop) : Prop :=
  (∀ q, P q → q.broadcast = none ∧ q.id = runID) ∨
    ∃ groupID, ∀ q, P q → q.broadcast.map Broadcast.groupID = some groupID

/-- The key was free: it is reserved for the run that is created and returned. -/
structure Reserved (req : TriggerRequest) (r : Run) (o : Overlay Row) : Prop where
  key : o (.idempotency req.tenantID req.jobID req.key) = some ⟨none, some ⟨r.id, r.scheduledAt⟩⟩
  born : Born r o
  input : r.runtimeInput = req.input
  addresses : r.overrideAddresses = req.overrideAddresses
  rows : ∃ P, o.Rowwise (Births (· = req.row) P) ∧ OneTrigger r.id P

def triggerAnswer (t : Transaction) (res : Result) (o : Overlay Row) (d : Db) : Prop :=
  KeysKept o ∧ ∀ req, t.operation = .triggerJob req → req.key ≠ "" →
    ∃ r, res = .run r ∧ (Repeated req r o d ∨ Reserved req r o)

theorem Reserved.kept {req : TriggerRequest} {r : Run} (h : Reserved req r o) : KeysKept o where
  runs := fun k held hk => by
    obtain ⟨P, hrows, _⟩ := h.rows
    have hrow := hrows k held hk
    cases k with
    | run id => exact ⟨hrow.1, fun hb q hq => ⟨(hrow.2 hb q hq).1, trivial⟩⟩
    | idempotency => exact .inl trivial
    | _ => trivial
  keys := fun tenantID jobID key held hk => by
    obtain ⟨P, hrows, _⟩ := h.rows
    rcases hrows _ held hk with hmine | hsame
    · have hkey := h.key
      cases hmine
      cases hk.symm.trans hkey
      exact .inr ⟨rfl, _, r, rfl, rfl, rfl, h.born⟩
    · exact .inl hsame

variable {t : Transaction}

theorem repeated_stable (req : TriggerRequest) (r : Run) :
    idempotencyDiscipline.Stable t (Repeated req r) := by
  intro o d d' hop h
  obtain ⟨e, he, hid⟩ := h.key
  obtain ⟨q, hq, hsame⟩ := h.run
  cases hop.interferes with
  | @commit t' o' _ _ _ ha hg =>
    obtain ⟨q', hq', hsame'⟩ := KeysKept.run hg ha hq
    exact ⟨h.rows, ⟨e, KeysKept.key hg ha he, hid⟩, q', hq', hsame'.trans hsame⟩
  | grow ws => exact ⟨h.rows, ⟨e, by simpa using he, hid⟩, q, by simpa using hq, hsame⟩
  | tick n => exact ⟨h.rows, ⟨e, he, hid⟩, q, hq, hsame⟩

theorem triggerAnswer_answer : idempotencyDiscipline.Answer triggerAnswer where
  final := fun t r o d h d' _ _ _ => h.1
  later := fun t res o d d' hl h => by
    refine ⟨h.1, fun req hop hkey => ?_⟩
    obtain ⟨r, hres, hrep | hnew⟩ := h.2 req hop hkey
    · exact ⟨r, hres, .inl ((repeated_stable req r).later hl hrep)⟩
    · exact ⟨r, hres, .inr hnew⟩

end Protocol

section Triggering

variable {t : Transaction} {req : TriggerRequest} {env : Env} {now : Int} {P : Run → Prop}
  {mine : Key → Prop} {runID : ℕ} {scheduledAt : Int}

theorem rows_triple {α : Type} {p : Tx α} (hP : FixedCondition P)
    (he : p.Effect (BirthWrite P) fun _ => True) :
    idempotencyDiscipline.Triple t (fun o _ => o.Rowwise (Births mine P)) p
      fun _ o _ => o.Rowwise (Births mine P) :=
  (Discipline.Triple.rowwise he Births.refl (BirthWrite.after hP)).weaken fun _ _ _ _ _ h => h.1

def KeyHeld (req : TriggerRequest) (runID : ℕ) (scheduledAt : Int) (o : Overlay Row) : Prop :=
  o (.idempotency req.tenantID req.jobID req.key) =
    some ⟨none, some ⟨runID, timestamp scheduledAt⟩⟩

theorem keyHeld_triple {α : Type} {p : Tx α} (he : p.Effect (BirthWrite P) fun _ => True) :
    idempotencyDiscipline.Triple t (fun o _ => KeyHeld req runID scheduledAt o) p
      fun _ o _ => KeyHeld req runID scheduledAt o := by
  refine ((Discipline.Triple.holds (k := Key.idempotency req.tenantID req.jobID req.key) (b := none)
    (G := fun v => v = some ⟨runID, timestamp scheduledAt⟩) he fun d v hw hv => ?_).strengthen
    fun o d _ _ h => ⟨_, h, rfl⟩).weaken fun _ o d _ _ h => ?_
  · rcases hw with hw | hw
    · exact hw.elim
    · exact hw.trans hv
  · obtain ⟨v, hv, rfl⟩ := h
    exact hv

theorem born_triple {α : Type} {p : Tx α} (r : Run) (he : p.Effect (BirthWrite P) fun _ => True) :
    idempotencyDiscipline.Triple t (fun o _ => Born r o) p fun _ o _ => Born r o := by
  refine Discipline.Triple.holds (k := Key.run r.id) (b := none)
    (G := fun v => ∃ q, v = some q ∧ q.Same r) he fun d v hw hv => ?_
  obtain ⟨q, hq, hsame⟩ := hv
  obtain ⟨q', hq', hsame'⟩ := hw.1 q hq
  exact ⟨q', hq', hsame'.trans hsame⟩

theorem insertRun_born (r : Run) :
    idempotencyDiscipline.Triple t (fun o _ => o.Rowwise (Births mine P)) (insertRun now r)
      fun _ o _ => Born r o := by
  refine .bind (Q := fun _ o _ => Born r o) (.bind (.insert (Q := fun b o _ => b = true → Born r o)
    (.overlay _) (fun o d _ _ _ _ hb => by cases hb) fun o d _ ha hrows hnone _ _ => ?_)
    fun b => ?_) fun _ => ?_
  · refine ⟨some r, ?_, r, rfl, .refl r⟩
    rw [Overlay.write_self_of_agrees ha]
    congr 2
    cases hk : o (.run r.id) with
    | none => exact (Database.overlay_row_free hk).symm.trans hnone
    | some held =>
      rw [Database.overlay_row_held hk] at hnone
      cases hbase : held.base with
      | none => exact (ha _ held hk).trans hbase
      | some r₀ =>
        obtain ⟨r', hr', _⟩ := (hrows _ held hk).1 r₀ hbase
        cases hnone.symm.trans hr'
  · cases b with
    | false => exact .fail
    | true => exact .pure fun o d _ _ h => h rfl
  · exact born_triple r (emitRunEvent_effect (birthWrite_allows fun _ => True).toAllowsRuns _ _ _)

def Reserving (req : TriggerRequest) (runID : ℕ) (scheduledAt : Int) (P : Run → Prop)
    (o : Overlay Row) : Prop :=
  o.Rowwise (Births (· = req.row) P) ∧ KeyHeld req runID scheduledAt o

theorem reserving_triple {α : Type} {p : Tx α} (hP : FixedCondition P)
    (he : p.Effect (BirthWrite P) fun _ => True) :
    idempotencyDiscipline.Triple t (fun o _ => Reserving req runID scheduledAt P o) p
      fun _ o _ => Reserving req runID scheduledAt P o :=
  ((rows_triple hP he).strengthen fun _ _ _ _ h => h.1).and
    ((keyHeld_triple he).strengthen fun _ _ _ _ h => h.2)

theorem Reserving.mono {P P' : Run → Prop} {o : Overlay Row} (hP : ∀ r, P r → P' r)
    (h : Reserving req runID scheduledAt P o) : Reserving req runID scheduledAt P' o :=
  ⟨fun k held hk => (h.1 k held hk).mono hP, h.2⟩

theorem fixed_false : FixedCondition fun _ => False := fun _ _ _ h => h

theorem fixed_same (r : Run) : FixedCondition (·.Same r) := fun _ _ hsame h => hsame.trans h

theorem fixed_group (groupID : ℕ) :
    FixedCondition fun q => q.broadcast.map Broadcast.groupID = some groupID := by
  intro r r' hsame h
  rw [hsame.broadcast]
  exact h

theorem insertRun_reserved (status : RunStatus) :
    idempotencyDiscipline.Triple t (fun o _ => Reserving req runID scheduledAt (fun _ => False) o)
      (insertRun now (manualRun now req runID scheduledAt status))
      fun _ o _ => Reserved req (manualRun now req runID scheduledAt status) o := by
  set r := manualRun now req runID scheduledAt status with hr
  have he : (insertRun now r).Effect (BirthWrite (·.Same r)) fun _ => True :=
    insertRun_effect (birthWrite_allows _).toAllowsRuns (.refl r)
  refine (((reserving_triple (fixed_same r) he).and ((insertRun_born r).strengthen
    fun _ _ _ _ h => h.1)).strengthen fun o d _ _ h => h.mono fun _ hf => hf.elim).weaken
    fun _ o d _ _ h => ?_
  obtain ⟨⟨hrows, hkey⟩, hborn⟩ := h
  refine ⟨hkey, hborn, rfl, rfl, _, hrows, .inl fun q hq => ⟨?_, ?_⟩⟩
  · rw [hq.broadcast]
    rfl
  · exact hq.id

theorem insertManualShards_reserved {first : BroadcastShard} {others : List BroadcastShard}
    (hfirst : first.index = 0) :
    idempotencyDiscipline.Triple t (fun o _ => Reserving req runID scheduledAt (fun _ => False) o)
      (insertManualShards now req runID scheduledAt (first :: others))
      fun r o _ => Reserved req r o := by
  refine .bind (reserving_triple fixed_false (newUUID_effect (birthWrite_allows _).toAllowsRuns))
    fun groupID => ?_
  set P : Run → Prop := fun q => q.broadcast.map Broadcast.groupID = some groupID with hP
  have hfixed : FixedCondition P := fixed_group groupID
  have hW := (birthWrite_allows P).toAllowsRuns
  set r := (manualRun now req runID scheduledAt .pending).onShard groupID first with hr
  refine .bind (Q := fun _ o _ => Reserving req runID scheduledAt P o ∧ Born r o)
    (.bind (Q := fun _ o _ => Reserving req runID scheduledAt P o ∧ Born r o) ?_ fun _ => ?_)
    fun _ => .pure fun o d _ _ h => ?_
  · refine .bind ((reserving_triple hfixed (newUUID_effect hW)).strengthen
      fun o d _ _ h => h.mono fun _ hf => hf.elim) fun fresh => ?_
    rw [if_pos hfirst]
    exact (reserving_triple hfixed (insertRun_effect (r := r) hW rfl)).and
      ((insertRun_born r).strengthen fun _ _ _ _ h => h.1)
  · have he : (Program.forEach others fun shard => do
        let fresh ← newUUID
        insertRun now ((manualRun now req (if shard.index = 0 then runID else fresh) scheduledAt
          .pending).onShard groupID shard) : Tx Unit).Effect (BirthWrite P) fun _ => True :=
      .forEach fun shard _ => (newUUID_effect hW).bind fun fresh _ => insertRun_effect hW rfl
    exact ((reserving_triple hfixed he).strengthen fun _ _ _ _ h => h.1).and
      ((born_triple r he).strengthen fun _ _ _ _ h => h.2)
  · obtain ⟨⟨hrows, hkey⟩, hborn⟩ := h
    exact ⟨hkey, hborn, rfl, rfl, _, hrows, .inr ⟨groupID, fun q hq => hq⟩⟩

theorem planBroadcastShards_first {nodes : List ExecutorNode} {first : BroadcastShard}
    {others : List BroadcastShard} (h : planBroadcastShards nodes = first :: others) :
    first.index = 0 := by
  unfold planBroadcastShards at h
  generalize nodes.insertionSort (fun a b => a.nodeID ≤ b.nodeID) = sorted at h
  cases sorted with
  | nil => cases h
  | cons n sorted =>
    simp only [List.mapIdx_cons, List.cons.injEq] at h
    rw [← h.1]

theorem triggerReserved_reserved (state : TriggerState) :
    idempotencyDiscipline.Triple t (fun o _ => Reserving req runID scheduledAt (fun _ => False) o)
      (triggerReserved env now req runID scheduledAt state) fun r o _ => Reserved req r o := by
  refine .bind (reserving_triple fixed_false ?_) fun missing => ?_
  · split
    · exact .pure trivial
    · exact (select_effect _).bind fun _ _ => .pure trivial
  split
  · exact .fail
  refine .bind
    (reserving_triple fixed_false (applyBlockPolicy_holds (birthWrite_covers _) trivial _))
    fun action => ?_
  split
  · exact .fail
  split
  · exact .bind (insertRun_reserved _) fun _ => .pure fun _ _ _ _ h => h
  split
  · refine .bind (Q := fun shards o _ => (∃ nodes, shards = planBroadcastShards nodes) ∧
      Reserving req runID scheduledAt (fun _ => False) o) ?_ fun shards => .given ?_
    · split
      · refine .bind (reserving_triple fixed_false (select_effect _)) fun nodes => ?_
        refine .bind (reserving_triple fixed_false (select_effect _)) fun labels => ?_
        exact .pure fun o d _ _ h => ⟨⟨_, rfl⟩, h⟩
      · exact .pure fun o d _ _ h => ⟨⟨_, rfl⟩, h⟩
    · rintro ⟨nodes, hnodes⟩
      split
      · exact .fail
      split
      · exact .fail
      cases shards with
      | nil => exact absurd rfl ‹_›
      | cons first others =>
        exact insertManualShards_reserved (planBroadcastShards_first hnodes.symm)
  · exact .bind (insertRun_reserved _) fun _ => .pure fun _ _ _ _ h => h

structure Untouched (o : Overlay Row) : Prop where
  runs : ∀ id, o (.run id) = none
  keys : ∀ tenantID jobID key, o (.idempotency tenantID jobID key) = none

theorem Untouched.rows {o : Overlay Row} (h : Untouched o) :
    o.Rowwise (Births mine P) := by
  intro k held hk
  cases k with
  | run id => simp [h.runs id] at hk
  | idempotency a b c => simp [h.keys a b c] at hk
  | _ => trivial

theorem Untouched.write {o : Overlay Row} (h : Untouched o) (d : Db) {k : Key} (v : Option (Row k))
    (hk : k.aside = true) : Untouched (o.write d k v) := by
  constructor
  · intro id
    rw [Overlay.write_ne, h.runs]
    rintro rfl
    cases hk
  · intro tenantID jobID key
    rw [Overlay.write_ne, h.keys]
    rintro rfl
    cases hk

theorem found_stable : idempotencyDiscipline.Stable t fun o d => Untouched o ∧
    ∃ e, d.row (.idempotency req.tenantID req.jobID req.key) = some e := by
  rintro o d d' hop ⟨hclean, e, he⟩
  cases hop.interferes with
  | @commit t' o' _ _ _ ha hg => exact ⟨hclean, e, KeysKept.key hg ha he⟩
  | grow ws => exact ⟨hclean, e, by simpa using he⟩
  | tick n => exact ⟨hclean, e, he⟩

theorem idempotentRun_repeated :
    idempotencyDiscipline.Triple t (fun o d => Untouched o ∧
        ∃ e, d.row (.idempotency req.tenantID req.jobID req.key) = some e)
      (select (idempotentRun req)) fun r o d => ∀ q, r = some q → Repeated req q o d := by
  refine .select found_stable fun o d hinv _ _ h r hr => ?_
  obtain ⟨hclean, e, he⟩ := h
  have hkey := (Database.overlay_row_free (hclean.keys req.tenantID req.jobID req.key)).trans he
  simp only [idempotentRun, hkey, Option.bind_some, Option.filter_eq_some_iff] at hr
  have hrow := (Database.overlay_row_free (hclean.runs e.runID)).symm.trans hr.1
  have hid : e.runID = r.id := (hinv.keyed _ r hrow).symm
  exact ⟨hclean.rows, ⟨e, he, hid⟩, r, hid ▸ hrow, .refl r⟩

theorem triggerJobWithOptions_keyed (hkey : req.key ≠ "") :
    idempotencyDiscipline.Triple t (fun o _ => Untouched o) (triggerJobWithOptions env now req)
      fun r o d => Repeated req r o d ∨ Reserved req r o := by
  refine .bind (.fresh (Q := fun _ o _ => Untouched o) (.overlay _)
    fun o d u _ _ _ h _ _ => h.write d _ rfl) fun runID => ?_
  refine .bind (.clock (Q := fun _ o _ => Untouched o) (.overlay _) fun o d c _ _ h _ _ => h)
    fun scheduledAt => ?_
  refine .bind (.acquire (Q := fun _ o _ => Untouched o) (.overlay _)
    fun o d _ _ h _ => h.write d _ rfl) fun _ => ?_
  refine .bind (.select (Q := fun _ o _ => Untouched o) (.overlay _) fun o d _ _ _ h => h)
    fun state => ?_
  cases state with
  | none => exact .fail
  | some state =>
    dsimp only
    split
    · exact .fail
    refine .bind (.insert (Q := fun b o d => if b = true then
        Reserving req runID scheduledAt (fun _ => False) o
      else Untouched o ∧ ∃ e, d.row (.idempotency req.tenantID req.jobID req.key) = some e)
      (.overlay _) (fun o d _ _ h hne => ?_) fun o d _ ha h hnone _ => ?_) fun reserved => ?_
    · rw [Database.overlay_row_free (h.keys req.tenantID req.jobID req.key)] at hne
      exact ⟨h, Option.ne_none_iff_exists'.1 hne⟩
    · rw [Database.overlay_row_free (h.keys req.tenantID req.jobID req.key)] at hnone
      refine ⟨fun k held hk => ?_, ?_⟩
      · by_cases hown : k = .idempotency req.tenantID req.jobID req.key
        · subst hown
          exact .inl rfl
        · rw [Overlay.write_ne hown] at hk
          exact h.rows k held hk
      · rw [KeyHeld, Overlay.write_self_of_agrees ha, hnone]
    · cases reserved with
      | true => exact (triggerReserved_reserved state).weaken fun _ _ _ _ _ h => .inr h
      | false =>
        refine .bind idempotentRun_repeated fun r => ?_
        cases r with
        | none => exact .fail
        | some r => exact .pure fun o d _ _ h => .inl (h r rfl)

theorem operation_answers (env : Env) (t : Transaction) (d : Db) (hd : KeysRefer d) :
    idempotencyDiscipline.Safe t (triggerAnswer t) (operationProgram env t.now t.operation)
      Overlay.empty d := by
  have hempty : Untouched Overlay.empty := ⟨fun _ => rfl, fun _ _ _ => rfl⟩
  have hagrees : (Overlay.empty : Overlay Row).Agrees d := fun k h hk => by cases hk
  have hquiet : (operationProgram env t.now t.operation).Effect (BirthWrite fun _ => True)
      (fun _ => True) → (∀ req, t.operation = .triggerJob req → req.key = "") →
        idempotencyDiscipline.Safe t (triggerAnswer t) (operationProgram env t.now t.operation)
          Overlay.empty d := by
    intro he hkeys
    have hrows : (Overlay.empty : Overlay Row).Rowwise (Births (fun _ => False) fun _ => True) :=
      hempty.rows
    refine ((rows_triple (fun _ _ _ _ => trivial) he).weaken fun r o d _ _ h => ?_) _ d hd hagrees
      hrows
    exact ⟨.of_rows h, fun req hop hkey => absurd (hkeys req hop) hkey⟩
  by_cases htrigger : ∃ req, t.operation = .triggerJob req
  · obtain ⟨req, hop⟩ := htrigger
    by_cases hkey : req.key = ""
    · refine hquiet ?_ fun req' hop' => ?_
      · rw [hop]
        exact .map
          (triggerJobWithOptions_holds (birthWrite_allows _).toAllowsRuns (birthWrite_covers _)
          (.inl hkey) trivial fun _ _ _ => trivial)
      · cases hop.symm.trans hop'
        exact hkey
    · rw [hop]
      refine (Discipline.Triple.map ((triggerJobWithOptions_keyed hkey).weaken
        fun r o d _ _ h => ?_)) _ d hd hagrees hempty
      refine ⟨h.elim (fun hrep => .of_rows hrep.rows) Reserved.kept, fun req' hop' _ => ?_⟩
      cases hop.symm.trans hop'
      exact ⟨r, rfl, h⟩
  · exact hquiet (operation_effect env t.now t.operation fun req hop => htrigger ⟨req, hop⟩)
      fun req hop => absurd ⟨req, hop⟩ htrigger

end Triggering

section Refusal

/-- Why a trigger is refused whatever its key: there is no such job, an override address is
not usable, the queue is full, or a broadcast has no node. -/
def Refused (env : Env) (now : Int) (req : TriggerRequest) (d : Db) : Prop :=
  match triggerState req.tenantID req.jobID d with
  | none => True
  | some state =>
      let action := decideBlockAction state.policy (hasActiveRun req.jobID d)
      let shards := if req.overrideAddresses = [] then
          plannedShards now req.jobID state.executorGroupID d
        else planBroadcastShards (overrideExecutorNodes env req.overrideAddresses)
      (req.overrideAddresses ≠ [] ∧ (state.executorGroupID = none ∨
          unregisteredOverrideAddresses (liveExecutorNodes now state.executorGroupID d)
            req.overrideAddresses ≠ [])) ∨
        (action = .enqueue ∧ state.maxQueue ≤ state.pending) ∨
          action ≠ .skip ∧ state.routeStrategy = some .shardingBroadcast ∧
            (shards = [] ∨ action = .enqueue ∧ state.maxQueue < state.pending + shards.length)

variable {env : Env} {free : Key → Prop} {d₀ d : Db} {now : Int} {req : TriggerRequest}
  {runID : ℕ} {scheduledAt : Int}

structure Unread (env : Env) (d₀ d : Db) : Prop where
  good : Good env (fun _ => False) d₀ d
  frame : Frame (fun _ => true) d₀ d

theorem Unread.write {w : Write Row} (h : Unread env d₀ d) (htame : Tame (fun _ => False) d w)
    (hapart : Apart (fun _ => true) d w) : Unread env d₀ (d.write w) :=
  ⟨h.good.write htame, h.frame.write h.frame hapart⟩

section Reads

variable (hcover : ∀ k ∉ d₀.keys, d₀.row k = none)
include hcover

theorem Unread.queueState (h : Unread env d₀ d) (jobID : ℕ) :
    pendingCount jobID d = pendingCount jobID d₀ ∧
      hasActiveRun jobID d = hasActiveRun jobID d₀ := by
  have hframe : Frame (ofJob jobID) d₀ d := h.frame.mono fun _ _ => rfl
  have hstate := hframe.jobRunQueueState_eq hcover
  exact ⟨congrArg Prod.fst hstate, congrArg Prod.snd hstate⟩

theorem Unread.triggerState (h : Unread env d₀ d) (tenantID jobID : ℕ) :
    triggerState tenantID jobID d = Store.triggerState tenantID jobID d₀ := by
  have hroute : routeStrategy d = routeStrategy d₀ := by
    funext groupID
    simp only [routeStrategy, h.good.kept.groups]
  have hread : ∀ (f : Option ℕ → Option RouteStrategy) (n : ℕ) (e : Db),
      ((e.row (.job jobID)).filter fun j => j.tenantID == tenantID).map (fun j =>
        (⟨j.maxQueueSize, j.overlapPolicy, f j.executorGroupID, j.executorGroupID, n⟩ :
          TriggerState)) =
        (((e.row (.job jobID)).map Job.settings).filter fun s => s.1 == tenantID).map fun s =>
          ⟨s.2.2.1, s.2.1, f s.2.2.2, s.2.2.2, n⟩ := by
    intro f n e
    cases e.row (.job jobID) with
    | none => rfl
    | some j => cases ht : j.tenantID == tenantID <;> simp [Option.filter, Job.settings, ht]
  unfold Store.triggerState
  rw [hread, hread, hroute, h.good.kept.settings, (h.queueState hcover jobID).1]

end Reads

theorem refused_iff {state : TriggerState}
    (hstate : triggerState req.tenantID req.jobID d = some state) :
    Refused env now req d ↔
      (req.overrideAddresses ≠ [] ∧ (state.executorGroupID = none ∨
          unregisteredOverrideAddresses (liveExecutorNodes now state.executorGroupID d)
            req.overrideAddresses ≠ [])) ∨
        (decideBlockAction state.policy (hasActiveRun req.jobID d) = .enqueue ∧
          state.maxQueue ≤ state.pending) ∨
        decideBlockAction state.policy (hasActiveRun req.jobID d) ≠ .skip ∧
          state.routeStrategy = some .shardingBroadcast ∧
            ((if req.overrideAddresses = [] then
                plannedShards now req.jobID state.executorGroupID d
              else planBroadcastShards (overrideExecutorNodes env req.overrideAddresses)) = [] ∨
              decideBlockAction state.policy (hasActiveRun req.jobID d) = .enqueue ∧
                state.maxQueue < state.pending + (if req.overrideAddresses = [] then
                    plannedShards now req.jobID state.executorGroupID d
                  else planBroadcastShards
                    (overrideExecutorNodes env req.overrideAddresses)).length) := by
  unfold Refused
  rw [hstate]

theorem missing_ends (hcover : ∀ k ∉ d₀.keys, d₀.row k = none) (h : Unread env d₀ d)
    (groupID : Option ℕ) :
    (if req.overrideAddresses = [] then pure [] else do
      let nodes ← select (liveExecutorNodes now groupID)
      pure (unregisteredOverrideAddresses nodes req.overrideAddresses) : Tx (List String)).Ends
      (Returned fun missing d' => d' = d ∧ (missing = [] ↔ req.overrideAddresses = [] ∨
        unregisteredOverrideAddresses (liveExecutorNodes now groupID d₀)
          req.overrideAddresses = [])) d := by
  split
  · next hempty => exact ⟨rfl, by simp [hempty]⟩
  · next hsome =>
      refine Program.Ends.andThen (R := fun nodes d' => nodes = liveExecutorNodes now groupID d₀ ∧
        d' = d) (.select ⟨?_, rfl⟩) fun nodes d' h' => ?_
      · unfold liveExecutorNodes
        rw [h.frame.executorNodes_eq hcover]
      · obtain ⟨rfl, rfl⟩ := h'
        exact ⟨rfl, by simp [hsome]⟩

theorem chosenShards_ends {keep : Run → Bool} (hcover : ∀ k ∉ d₀.keys, d₀.row k = none)
    (h : Frame keep d₀ d) (groupID : Option ℕ) :
    (if req.overrideAddresses = [] then planShards now req.jobID groupID
      else pure (planBroadcastShards (overrideExecutorNodes env req.overrideAddresses)) :
      Tx (List BroadcastShard)).Ends (Returned fun shards d' => shards =
        (if req.overrideAddresses = [] then plannedShards now req.jobID groupID d₀
          else planBroadcastShards (overrideExecutorNodes env req.overrideAddresses)) ∧
        (shards.map BroadcastShard.index).Nodup ∧ d' = d) d := by
  split
  · refine planShards_ends ⟨?_, planBroadcastShards_nodup _, rfl⟩
    exact h.plannedShards_eq hcover now _ _
  · exact ⟨rfl, planBroadcastShards_nodup _, rfl⟩

theorem insertManualShards_ends {shards : List BroadcastShard} (hne : shards ≠ [])
    (h : Good env (fun _ => True) d₀ d) (hdrawn : .uuid runID ∈ d.keys)
    (hnone : d.row (.run runID) = none) (hjob : Employed d₀ req.tenantID req.jobID)
    (hnodup : (shards.map BroadcastShard.index).Nodup) :
    (insertManualShards now req runID scheduledAt shards).Ends
      (Returned fun r _ => r.id = runID) d := by
  refine (newUUID_ends h).andThen fun groupID d₁ h₁ => ?_
  obtain ⟨hgood, _, hkept, _⟩ := h₁
  refine (insertShards_ends (fun id s => (manualRun now req id scheduledAt .pending).onShard
    groupID s) (fun _ _ => rfl) (fun _ _ => ⟨rfl, rfl⟩) hgood (fun _ => trivial)
    (hkept.keys hdrawn) (hkept.unborn _ hdrawn id hnone) hjob hnodup).andThen fun _ d₂ _ => ?_
  cases shards with
  | nil => exact absurd rfl hne
  | cons shard shards => exact rfl

theorem triggerReserved_ends (hcover : ∀ k ∉ d₀.keys, d₀.row k = none) (h : Unread env d₀ d)
    {state : TriggerState} (hstate : triggerState req.tenantID req.jobID d₀ = some state)
    (hgroup : ¬(req.overrideAddresses ≠ [] ∧ state.executorGroupID = none))
    (hdrawn : .uuid runID ∈ d.keys) (hnone : d.row (.run runID) = none) :
    (triggerReserved env now req runID scheduledAt state).Ends (Outcome
      (fun r _ => r.id = runID ∧ ¬Refused env now req d₀) fun _ _ => Refused env now req d₀) d := by
  have hjob : Employed d₀ req.tenantID req.jobID := by
    obtain ⟨j, hj, _⟩ := Option.map_eq_some_iff.1 hstate
    obtain ⟨hrow, htenant⟩ := Option.filter_eq_some_iff.1 hj
    exact ⟨j, hrow, by simpa using htenant⟩
  have hrefused : Refused env now req d₀ ↔ _ := refused_iff hstate
  rw [hrefused]
  set action := decideBlockAction state.policy (hasActiveRun req.jobID d₀) with haction
  set shards := (if req.overrideAddresses = [] then
      plannedShards now req.jobID state.executorGroupID d₀
    else planBroadcastShards (overrideExecutorNodes env req.overrideAddresses)) with hshards
  -- the override addresses are registered
  refine (missing_ends hcover h state.executorGroupID).andThen fun missing d' h' => ?_
  obtain ⟨rfl, hmissing⟩ := h'
  split
  · next hne =>
      rw [ne_eq, hmissing, not_or] at hne
      exact .inl ⟨hne.1, .inr hne.2⟩
  next hregistered =>
  rw [not_not, hmissing] at hregistered
  have hoverride : ¬(req.overrideAddresses ≠ [] ∧ (state.executorGroupID = none ∨
      unregisteredOverrideAddresses (liveExecutorNodes now state.executorGroupID d₀)
        req.overrideAddresses ≠ [])) := by
    rintro ⟨hsome, hnogroup | hunregistered⟩
    · exact hgroup ⟨hsome, hnogroup⟩
    · exact hregistered.elim hsome hunregistered
  -- the overlap policy is applied
  refine (framed (applyBlockPolicy_ends (h.good.sound.good fun _ => False) req.jobID state.policy)
    (applyBlockPolicy_holds (apart_covers fun _ _ => rfl) rfl _) h.frame.forget).andThen
    fun action' d₁ h₁ => ?_
  obtain ⟨⟨haction', hgood₁⟩, hframe₁⟩ := h₁
  rw [(h.queueState hcover req.jobID).2, ← haction] at haction'
  subst haction'
  have hgood : Good env (fun _ => True) d₀ d₁ :=
    ⟨hgood₁.sound, (h.good.kept.trans hgood₁.kept).mono fun _ hk => hk.elim⟩
  have hdrawn₁ := hgood₁.kept.keys hdrawn
  have hnone₁ := hgood₁.kept.unborn runID hdrawn id hnone
  have hinsert : ∀ status (C : Prop), ¬C → (do
      insertRun now (manualRun now req runID scheduledAt status)
      pure (manualRun now req runID scheduledAt status) : Tx Run).Ends
        (Outcome (fun r _ => r.id = runID ∧ ¬C) fun _ _ => C) d₁ := by
    intro status C hC
    exact (insertRun_ends hgood hdrawn₁ hnone₁ trivial (hgood.kept.employed.2 hjob)).andThen
      fun _ _ _ => ⟨rfl, hC⟩
  split
  · next hfull => exact .inr (.inl hfull)
  next hroom =>
  split
  · next hskip =>
      refine hinsert _ _ ?_
      rintro (hc | hc | hc)
      · exact hoverride hc
      · exact hroom hc
      · exact hc.1 hskip
  next hnoskip =>
  split
  · next hroute =>
      refine (chosenShards_ends hcover hframe₁ state.executorGroupID).andThen
        fun shards' d' h' => ?_
      obtain ⟨hplan, hnodup, rfl⟩ := h'
      obtain rfl : shards' = shards := hplan
      split
      · next hnil => exact .inr (.inr ⟨hnoskip, hroute, .inl hnil⟩)
      next hnonempty =>
      split
      · next hfull => exact .inr (.inr ⟨hnoskip, hroute, .inr hfull⟩)
      next hfits =>
      refine (insertManualShards_ends hnonempty hgood hdrawn₁ hnone₁ hjob hnodup).mono
        fun res d₂ h₂ => ?_
      cases res with
      | error e => exact h₂.elim
      | ok r =>
        refine ⟨h₂, ?_⟩
        rintro (hc | hc | ⟨_, _, hc | hc⟩)
        · exact hoverride hc
        · exact hroom hc
        · exact hnonempty hc
        · exact hfits hc
  · next hroute =>
      refine hinsert _ _ ?_
      rintro (hc | hc | hc)
      · exact hoverride hc
      · exact hroom hc
      · exact hroute hc.2.1

/-- With a free key a trigger is refused for the reasons of any trigger, and returns a new
run otherwise. -/
theorem trigger_ends (hcover : ∀ k ∉ d.keys, d.row k = none) (h : Sound env d)
    (hfree : d.row (.idempotency req.tenantID req.jobID req.key) = none) :
    (triggerJobWithOptions env now req).Ends (Outcome
      (fun r _ => d.row (.run r.id) = none ∧ ¬Refused env now req d)
      fun _ _ => Refused env now req d) d := by
  refine Program.Ends.andThen (R := fun n d' => (Unread env d d' ∧ .uuid n ∈ d'.keys ∧
    d'.row (.run n) = none ∧ d'.row (.idempotency req.tenantID req.jobID req.key) = none) ∧
      d.row (.run n) = none) (.fresh (fun _ _ hn => by cases hn; rfl)
        fun n hn => ⟨⟨?_, ?_, ?_, ?_⟩, (h.drawn n hn).1⟩) fun runID d₁ h₁ => ?_
  · exact Unread.write ⟨h.good _, .refl _ d⟩ trivial trivial
  · exact (d.mem_keys_write _).2 (.inr rfl)
  · rw [d.row_write_ne _ (by simp), (h.drawn n hn).1]
  · rw [d.row_write_ne _ (by simp), hfree]
  obtain ⟨h₁, hnew⟩ := h₁
  have hreturned : ∀ (res : Except StoreError Run) (d' : Db),
      Outcome (fun r _ => r.id = runID ∧ ¬Refused env now req d)
        (fun _ _ => Refused env now req d) res d' →
      Outcome (fun r _ => d.row (.run r.id) = none ∧ ¬Refused env now req d)
        (fun _ _ => Refused env now req d) res d' := by
    intro res d' hres
    cases res with
    | error e => exact hres
    | ok r => exact ⟨hres.1 ▸ hnew, hres.2⟩
  refine Program.Ends.andThen (R := fun _ d' => d' = d₁) (.clock fun _ _ => rfl)
    fun scheduledAt d' hd' => ?_
  subst hd'
  refine Program.Ends.andThen (R := fun _ d₂ => Unread env d d₂ ∧ .uuid runID ∈ d₂.keys ∧
    d₂.row (.run runID) = none ∧ d₂.row (.idempotency req.tenantID req.jobID req.key) = none)
    (.acquire ⟨h₁.1.write trivial trivial, ?_, ?_, ?_⟩) fun _ d₂ h₂ => ?_
  · exact (d'.mem_keys_write _).2 (.inl h₁.2.1)
  · rw [d'.row_write_ne _ (by simp), h₁.2.2.1]
  · rw [d'.row_write_ne _ (by simp), h₁.2.2.2]
  obtain ⟨hunread, hdrawn, hnone, hkey⟩ := h₂
  refine Program.Ends.andThen (R := fun state d' => state = triggerState req.tenantID req.jobID d ∧
    d' = d₂) (.select ⟨hunread.triggerState hcover _ _, rfl⟩) fun state d₃ h₃ => ?_
  obtain ⟨hstate, rfl⟩ := h₃
  cases state with
  | none =>
    show Refused env now req d
    unfold Refused
    rw [← hstate]
    trivial
  | some state =>
    dsimp only
    split
    · next hgroup => exact (refused_iff hstate.symm).2 (.inl ⟨hgroup.1, .inl hgroup.2⟩)
    next hgroup =>
    split
    · exact (triggerReserved_ends hcover hunread hstate.symm hgroup hdrawn hnone).mono hreturned
    · refine Program.Ends.andThen (R := fun reserved d' => reserved = true ∧ Unread env d d' ∧
        .uuid runID ∈ d'.keys ∧ d'.row (.run runID) = none)
        (.insert (fun _ => ⟨rfl, hunread.write trivial trivial, ?_, ?_⟩) fun hne => absurd hkey hne)
        fun reserved d₄ h₄ => ?_
      · exact (d₃.mem_keys_write _).2 (.inl hdrawn)
      · rw [d₃.row_write_ne _ (by simp), hnone]
      · obtain ⟨rfl, hunread₄, hdrawn₄, hnone₄⟩ := h₄
        exact (triggerReserved_ends hcover hunread₄ hstate.symm hgroup hdrawn₄ hnone₄).mono
          hreturned

end Refusal

section Machines

structure Calls (tenantID jobID : ℕ) (key : String) (t : Transaction) (req : TriggerRequest) :
    Prop where
  operation : t.operation = .triggerJob req
  tenant : req.tenantID = tenantID
  job : req.jobID = jobID
  key : req.key = key

structure Adds (m m' : SchedulerMachine) (r : Run) : Prop where
  before : m.store.committed.row (.run r.id) = none
  after : m'.store.committed.row (.run r.id) = some r

variable {env : Env} {m₀ m m' : SchedulerMachine} {t : Transaction} {req : TriggerRequest}
  {tenantID jobID : ℕ} {key : String}

abbrev AnyRun (env : Env) : SchedulerMachine → SchedulerMachine → Prop :=
  Machine.ReachableFrom (anyCaller env) fun _ _ _ => True

theorem idempotency_sound (hrest : m₀.AtRest) (hkeys : KeysRefer m₀.store.committed)
    (hrun : AnyRun env m₀ m) : idempotencyDiscipline.SoundFor triggerAnswer m :=
  Discipline.SoundFor.run triggerAnswer_answer (fun t d hd _ => operation_answers env t d hd)
    (fun _ _ _ _ => ⟨fun _ _ _ _ _ => trivial, fun _ => trivial, fun _ _ _ => trivial⟩)
    (.of_atRest hrest hkeys) hrun

def Named (tenantID jobID : ℕ) (key : String) (r : Run) (d : Db) : Prop :=
  (∃ e, d.row (.idempotency tenantID jobID key) = some e ∧ e.runID = r.id) ∧
    ∃ q, d.row (.run r.id) = some q ∧ q.Same r

theorem Named.commit {d : Db} {o : Overlay Row} {r : Run} (h : Named tenantID jobID key r d)
    (ha : o.Agrees d) (hg : KeysKept o) : Named tenantID jobID key r (d.overlay o) := by
  obtain ⟨⟨e, he, hid⟩, q, hq, hsame⟩ := h
  obtain ⟨q', hq', hsame'⟩ := hg.run ha hq
  exact ⟨⟨e, hg.key ha he, hid⟩, q', hq', hsame'.trans hsame⟩

theorem Named.unique {d : Db} {r r' : Run} (h : Named tenantID jobID key r d)
    (h' : Named tenantID jobID key r' d) : r.Same r' := by
  obtain ⟨⟨e, he, hid⟩, q, hq, hsame⟩ := h
  obtain ⟨⟨e', he', hid'⟩, q', hq', hsame'⟩ := h'
  cases he.symm.trans he'
  rw [← hid] at hq
  rw [← hid'] at hq'
  cases hq.symm.trans hq'
  exact hsame.symm.trans hsame'

theorem triggerAnswer_named {d : Db} {o : Overlay Row} {r : Run} (ha : o.Agrees d)
    (h : Repeated req r o d ∨ Reserved req r o) :
    Named req.tenantID req.jobID req.key r (d.overlay o) := by
  rcases h with h | h
  · exact Named.commit ⟨h.key, h.run⟩ ha (.of_rows h.rows)
  · obtain ⟨v, hv, q, rfl, hsame⟩ := h.born
    exact ⟨⟨_, Database.overlay_row_held h.key, rfl⟩, q, Database.overlay_row_held hv, hsame⟩

theorem triggerAnswer_lasting : idempotencyDiscipline.Lasting triggerAnswer fun t res d =>
    ∀ req, t.operation = .triggerJob req → req.key ≠ "" →
      ∃ r, res = .run r ∧ Named req.tenantID req.jobID req.key r d where
  made := fun t res o d _ ha h req hop hkey => by
    obtain ⟨r, hres, hanswer⟩ := h.2 req hop hkey
    exact ⟨r, hres, triggerAnswer_named ha hanswer⟩
  kept := fun t res t' o d _ ha hg h req hop hkey => by
    obtain ⟨r, hres, hnamed⟩ := h req hop hkey
    exact ⟨r, hres, hnamed.commit ha hg⟩
  rows := fun t res d d' hrow h req hop hkey => by
    obtain ⟨r, hres, hnamed⟩ := h req hop hkey
    exact ⟨r, hres, by rwa [Named, hrow]⟩

theorem named_lasts (hrest : m₀.AtRest) (hkeys : KeysRefer m₀.store.committed)
    (hm : AnyRun env m₀ m) (hrun : AnyRun env m m') {r : Run}
    (h : Named tenantID jobID key r m.store.committed) :
    Named tenantID jobID key r m'.store.committed := by
  refine Discipline.SoundFor.lasts triggerAnswer_answer (P := Named tenantID jobID key r)
    (fun t o d _ ha hg h => h.commit ha hg) (fun d d' hrow h => by rwa [Named, hrow])
    (fun t d hd _ => operation_answers env t d hd)
    (fun _ _ _ _ => ⟨fun _ _ _ _ _ => trivial, fun _ => trivial, fun _ _ _ => trivial⟩)
    (idempotency_sound hrest hkeys hm) hrun h

theorem finish_cases (hm : idempotencyDiscipline.SoundFor triggerAnswer m)
    (hs : m.step (anyCaller env) (.finish t) = some m') (hop : t.operation = .triggerJob req)
    (hkey : req.key ≠ "") :
    (m'.store.committed = m.store.committed ∧ ∃ e, m'.returned = (t, .error e) :: m.returned) ∨
      ∃ r, m'.returned = (t, .ok (.run r)) :: m.returned ∧
        m'.store.committed = m.store.committed.overlay (m.store.own t) ∧
          (Repeated req r (m.store.own t) m.store.committed ∨ Reserved req r (m.store.own t)) := by
  cases Machine.step_cases hs with
  | rollback hrun => exact .inl ⟨Store.committed_abort m.store t, _, rfl⟩
  | commit hrun =>
    obtain ⟨r, rfl, hanswer⟩ := (hm.answer hrun).2 req hop hkey
    exact .inr ⟨r, rfl, Store.committed_commit m.store t, hanswer⟩

theorem Adds.born {mine : Key → Prop} {P : Run → Prop} {r : Run} (h : Adds m m' r)
    (hm' : m'.store.committed = m.store.committed.overlay (m.store.own t))
    (hrows : (m.store.own t).Rowwise (Births mine P)) : P r := by
  have hafter := h.after
  rw [hm'] at hafter
  cases hk : m.store.own t (.run r.id) with
  | none =>
    rw [Database.overlay_row_free hk, h.before] at hafter
    cases hafter
  | some held =>
    rw [Database.overlay_row_held hk] at hafter
    have hbase := (m.store.own_agrees t _ held hk).symm.trans h.before
    exact ((hrows _ held hk).2 hbase r hafter).2

theorem Reserved.adds {r : Run} (h : Reserved req r (m.store.own t))
    (hm' : m'.store.committed = m.store.committed.overlay (m.store.own t)) :
    ∃ q, Adds m m' q ∧ q.Same r := by
  obtain ⟨v, hv, q, rfl, hsame⟩ := h.born
  refine ⟨q, ⟨?_, ?_⟩, hsame⟩
  · rw [hsame.id]
    exact m.store.own_agrees t _ _ hv
  · rw [hsame.id, hm']
    exact Database.overlay_row_held hv

theorem reserved_of_adds (hm : idempotencyDiscipline.SoundFor triggerAnswer m)
    (hs : m.step (anyCaller env) (.finish t) = some m') (hop : t.operation = .triggerJob req)
    (hkey : req.key ≠ "") {r : Run} (hadds : Adds m m' r) :
    ∃ r₁, m'.store.committed = m.store.committed.overlay (m.store.own t) ∧
      Reserved req r₁ (m.store.own t) := by
  rcases finish_cases hm hs hop hkey with ⟨hsame, _⟩ | ⟨r₁, _, hm', hrep | hres⟩
  · have hafter := hadds.after
    rw [hsame, hadds.before] at hafter
    cases hafter
  · exact (hadds.born hm' hrep.rows).elim
  · exact ⟨r₁, hm', hres⟩

theorem returned_named (hrest : m₀.AtRest) (hkeys : KeysRefer m₀.store.committed)
    (hreturned : m₀.returned = []) (hrun : AnyRun env m₀ m) {res : Result}
    (hres : (t, .ok res) ∈ m.returned) (hop : t.operation = .triggerJob req) (hkey : req.key ≠ "") :
    ∃ r, res = .run r ∧ Named req.tenantID req.jobID req.key r m.store.committed :=
  Discipline.SoundFor.returned triggerAnswer_answer triggerAnswer_lasting
    (fun t d hd _ => operation_answers env t d hd)
    (fun _ _ _ _ => ⟨fun _ _ _ _ _ => trivial, fun _ => trivial, fun _ _ _ => trivial⟩)
    (.of_atRest hrest hkeys) hreturned hrun t res hres req hop hkey

theorem exists_triggered (hm : idempotencyDiscipline.SoundFor triggerAnswer m)
    (hquiet : m.Quiescent) (hsound : Sound env m.store.committed)
    (hop : t.operation = .triggerJob req) (hbegun : t ∉ m.begun) (hnow : t.now = m.store.clock)
    (hfree : m.store.committed.row (.idempotency req.tenantID req.jobID req.key) = none)
    (hadmitted : ¬Refused env t.now req m.store.committed) :
    ∃ m' r, AnyRun env m m' ∧ m'.returned = (t, .ok (.run r)) :: m.returned ∧
      m.store.committed.row (.run r.id) = none := by
  have hown : ∀ t', m.store.own t' = Overlay.empty := fun t' => hm.idle t' (hquiet t')
  have hcover : ∀ k ∉ m.store.committed.keys, m.store.committed.row k = none := fun k hk =>
    ((m.store.own_covered t).absent k hk).1
  have hends : (triggerJobWithOptions env t.now req).Ends _ m.store.committed :=
    trigger_ends hcover hsound hfree
  obtain ⟨inps, res, rest, d', halone⟩ := hends.exists_alone
  have hres := hends.alone halone
  cases res with
  | error e => exact absurd hres hadmitted
  | ok r =>
    have hadmissible : (anyCaller env).admissible m.store.committed t = true := beq_iff_eq.2 hnow
    have hbusy : m.store.busy t = fun _ => false := by
      funext k
      exact Store.busy_eq_false (fun t' => by rw [hown t']; rfl) t
    have hrun : (operationProgram env t.now t.operation).alone inps m.store.committed =
        some (.ok (.run r), rest, d') := by
      rw [hop]
      exact (Program.alone_bind _ _ _ _).trans (by rw [halone]; rfl)
    have hamid : (operationProgram env t.now t.operation).amid (m.store.busy t) inps
        m.store.committed = some (.ok (.run r), d') := by
      rw [hbusy]
      exact Program.amid_of_alone hrun
    obtain ⟨m', hreach, hreturned, _⟩ : ∃ m', AnyRun env m m' ∧ _ ∧ _ :=
      Machine.exists_answered inps hbegun hadmissible (hown t) hamid
    exact ⟨m', r, hreach, hreturned, hres.1⟩

structure Idempotent (env : Env) (tenantID jobID : ℕ) (key : String) (m₀ : SchedulerMachine) :
    Prop where
  -- A call creates nothing, one run outside any broadcast, or the shards of one.
  unit : ∀ m m' t req, AnyRun env m₀ m → m.step (anyCaller env) (.finish t) = some m' →
    Calls tenantID jobID key t req → (∀ r, ¬Adds m m' r) ∨
      (∃ r, r.broadcast = none ∧ ∀ r', Adds m m' r' ↔ r' = r) ∨
        ∃ groupID, (∃ r, Adds m m' r) ∧
          ∀ r, Adds m m' r → r.broadcast.map Broadcast.groupID = some groupID
  -- After a call that created runs no call creates any.
  once : ∀ m m' t req r m₂ m₂' t₂ req₂ r₂, AnyRun env m₀ m →
    m.step (anyCaller env) (.finish t) = some m' → Calls tenantID jobID key t req → Adds m m' r →
      AnyRun env m' m₂ → m₂.step (anyCaller env) (.finish t₂) = some m₂' →
        Calls tenantID jobID key t₂ req₂ → ¬Adds m₂ m₂' r₂
  -- All calls that succeed return the same run.
  same : ∀ m t req res t' req' res', AnyRun env m₀ m → (t, .ok res) ∈ m.returned →
    Calls tenantID jobID key t req → (t', .ok res') ∈ m.returned →
      Calls tenantID jobID key t' req' → ∃ r r', res = .run r ∧ res' = .run r' ∧ r.id = r'.id
  -- It is one that a call created, with the input and the addresses of that call.
  creator : ∀ m m' t req r m₂ t₂ req₂ res, AnyRun env m₀ m →
    m.step (anyCaller env) (.finish t) = some m' → Calls tenantID jobID key t req → Adds m m' r →
      AnyRun env m' m₂ → (t₂, .ok res) ∈ m₂.returned → Calls tenantID jobID key t₂ req₂ →
        ∃ r₂ q, res = .run r₂ ∧ (∃ r₁, Adds m m' r₁ ∧ r₁.id = r₂.id) ∧
          r₂.runtimeInput = req.input ∧ r₂.overrideAddresses = req.overrideAddresses ∧
            m₂.store.committed.row (.run r₂.id) = some q ∧ q.runtimeInput = req.input ∧
              q.overrideAddresses = req.overrideAddresses
  -- A call that fails leaves every row as it was, its key included.
  failed : ∀ m m' t req, AnyRun env m₀ m → m.step (anyCaller env) (.finish t) = some m' →
    Calls tenantID jobID key t req → (∀ res, (t, .ok res) ∉ m'.returned) →
      m'.store.committed = m.store.committed
  -- While the key has no row, a call that is not refused for a reason of its own can create its
  -- run.
  again : ∀ m t req, AnyRun env m₀ m → m.Quiescent → Sound env m.store.committed →
    Calls tenantID jobID key t req → t ∉ m.begun → t.now = m.store.clock →
      m.store.committed.row (.idempotency tenantID jobID key) = none →
        ¬Refused env t.now req m.store.committed →
          ∃ m' r q, AnyRun env m m' ∧ m'.returned = (t, .ok (.run r)) :: m.returned ∧
            m.store.committed.row (.run r.id) = none ∧ m'.store.committed.row (.run r.id) = some q

/-- Among any transactions of the store the calls with one key create one run, return it,
and can be repeated until one has succeeded. -/
theorem trigger_idempotent (env : Env) (tenantID jobID : ℕ) (key : String) (m₀ : SchedulerMachine)
    (hkey : key ≠ "") (hrest : m₀.AtRest) (hkeys : KeysRefer m₀.store.committed)
    (hreturned : m₀.returned = []) : Idempotent env tenantID jobID key m₀ where
  unit := by
    rintro m m' t req hm hs ⟨hop, rfl, rfl, rfl⟩
    have hsound := idempotency_sound hrest hkeys hm
    by_cases hnone : ∃ r, Adds m m' r
    · obtain ⟨r, hadds⟩ := hnone
      obtain ⟨r₁, hm', hres⟩ := reserved_of_adds hsound hs hop hkey hadds
      obtain ⟨P, hrows, hone | ⟨groupID, hgroup⟩⟩ := hres.rows
      · refine .inr (.inl ⟨r, (hone r (hadds.born hm' hrows)).1, fun r' => ⟨fun h => ?_, ?_⟩⟩)
        · have hid : r'.id = r.id := (hone r' (h.born hm' hrows)).2.trans
            (hone r (hadds.born hm' hrows)).2.symm
          have hafter := h.after
          rw [hid, hadds.after] at hafter
          exact (Option.some.inj hafter).symm
        · rintro rfl
          exact hadds
      · exact .inr (.inr ⟨groupID, ⟨r, hadds⟩, fun r' h => hgroup r' (h.born hm' hrows)⟩)
    · exact .inl fun r hadds => hnone ⟨r, hadds⟩
  once := by
    rintro m m' t req r m₂ m₂' t₂ req₂ r₂ hm hs ⟨hop, rfl, rfl, rfl⟩ hadds hm₂ hs₂
      ⟨hop₂, htenant, hjob, hkey₂⟩ hadds₂
    obtain ⟨r₁, hm', hres⟩ := reserved_of_adds (idempotency_sound hrest hkeys hm) hs hop hkey hadds
    have hnamed : Named req.tenantID req.jobID req.key r₁ m'.store.committed := by
      rw [hm']
      exact triggerAnswer_named (m.store.own_agrees t) (.inr hres)
    have hreach : AnyRun env m₀ m' := .step hm hs trivial
    obtain ⟨⟨e, he, _⟩, _⟩ := named_lasts hrest hkeys hreach hm₂ hnamed
    obtain ⟨r₃, _, hres₂⟩ := reserved_of_adds (idempotency_sound hrest hkeys (hreach.trans hm₂)) hs₂
      hop₂ (hkey₂ ▸ hkey) hadds₂
    have hfree := m₂.store.own_agrees t₂ _ _ hres₂.key
    rw [htenant, hjob, hkey₂, he] at hfree
    cases hfree
  same := by
    rintro m t req res t' req' res' hm hres ⟨hop, rfl, rfl, rfl⟩ hres' ⟨hop', htenant, hjob, hkey'⟩
    obtain ⟨r, rfl, hnamed⟩ := returned_named hrest hkeys hreturned hm hres hop hkey
    obtain ⟨r', rfl, hnamed'⟩ := returned_named hrest hkeys hreturned hm hres' hop' (hkey' ▸ hkey)
    rw [htenant, hjob, hkey'] at hnamed'
    exact ⟨r, r', rfl, rfl, (hnamed.unique hnamed').id⟩
  creator := by
    rintro m m' t req r m₂ t₂ req₂ res hm hs ⟨hop, rfl, rfl, rfl⟩ hadds hm₂ hres
      ⟨hop₂, htenant, hjob, hkey₂⟩
    obtain ⟨r₁, hm', hreserved⟩ := reserved_of_adds (idempotency_sound hrest hkeys hm) hs hop hkey
      hadds
    have hnamed : Named req.tenantID req.jobID req.key r₁ m'.store.committed := by
      rw [hm']
      exact triggerAnswer_named (m.store.own_agrees t) (.inr hreserved)
    have hreach : AnyRun env m₀ m' := .step hm hs trivial
    have hnamed₁ := named_lasts hrest hkeys hreach hm₂ hnamed
    obtain ⟨r₂, rfl, hnamed₂⟩ := returned_named hrest hkeys hreturned (hreach.trans hm₂) hres hop₂
      (hkey₂ ▸ hkey)
    rw [htenant, hjob, hkey₂] at hnamed₂
    have hsame := hnamed₂.unique hnamed₁
    obtain ⟨_, q, hq, hsameq⟩ := hnamed₂
    obtain ⟨r₃, hadds₃, hsame₃⟩ := hreserved.adds hm'
    refine ⟨r₂, q, rfl, ⟨r₃, hadds₃, hsame₃.id.trans hsame.id.symm⟩, ?_, ?_, hq, ?_, ?_⟩
    · exact hsame.runtimeInput.trans hreserved.input
    · exact hsame.overrideAddresses.trans hreserved.addresses
    · exact (hsameq.trans hsame).runtimeInput.trans hreserved.input
    · exact (hsameq.trans hsame).overrideAddresses.trans hreserved.addresses
  failed := by
    rintro m m' t req hm hs ⟨hop, rfl, rfl, rfl⟩ hfail
    rcases finish_cases (idempotency_sound hrest hkeys hm) hs hop hkey with h | ⟨r, hret, _⟩
    · exact h.1
    · exact absurd (hret ▸ List.mem_cons_self) (hfail (.run r))
  again := by
    rintro m t req hm hquiet hsound ⟨hop, rfl, rfl, rfl⟩ hbegun hnow hfree hadmitted
    obtain ⟨m', r, hreach, hret, hnone⟩ :=
      exists_triggered (idempotency_sound hrest hkeys hm) hquiet
      hsound hop hbegun hnow hfree hadmitted
    obtain ⟨r', heq, _, q, hq, _⟩ := returned_named hrest hkeys hreturned (hm.trans hreach)
      (hret ▸ List.mem_cons_self) hop hkey
    cases heq
    exact ⟨m', r, q, hreach, hret, hnone, hq⟩

def oneJob : SchedulerMachine :=
  Machine.loaded 0 ⟨0, 0, .expireCallbacks⟩ [⟨.job 1, some { plainJob with id := 1 }⟩]

theorem oneJob_keysRefer : KeysRefer oneJob.store.committed := by
  have hkeys : oneJob.store.keys = [.job 1] := by decide +kernel
  constructor
  · intro id r hr
    have hmem := Store.mem_keys_of_row hr
    simp [hkeys] at hmem
  · intro tenantID jobID key e he
    have hmem := Store.mem_keys_of_row he
    simp [hkeys] at hmem

def keyedCall (serial : ℕ) (input : String) : Transaction :=
  ⟨serial, 0, .triggerJob ⟨1, 1, "k", input, []⟩⟩

def returnedRun : Transaction × Except StoreError Result → Option (ℕ × String)
  | (_, .ok (.run r)) => some (r.id, r.runtimeInput)
  | _ => none

theorem eq_of_returnedRun {x : Transaction × Except StoreError Result} {id : ℕ} {input : String}
    (h : returnedRun x = some (id, input)) :
    ∃ r, x = (x.1, .ok (.run r)) ∧ r.runtimeInput = input := by
  obtain ⟨t, res⟩ := x
  cases res with
  | error e => cases h
  | ok res =>
    cases res with
    | run r =>
      cases h
      exact ⟨r, rfl, rfl⟩
    | _ => cases h

theorem trigger_idempotent_overlapping : ∃ (m : SchedulerMachine) (r r' : Run),
    AnyRun plainEnv oneJob m ∧
      m.returned = [(keyedCall 2 "b", .ok (.run r')), (keyedCall 1 "a", .ok (.run r))] ∧
        r.runtimeInput = "a" ∧ r.id = r'.id := by
  obtain ⟨m, hreach, hm⟩ : ∃ m, AnyRun plainEnv oneJob m ∧
      (m.returned.map Prod.fst == [keyedCall 2 "b", keyedCall 1 "a"] &&
        m.returned.map returnedRun == [some (10, "a"), some (10, "a")]) = true :=
    Machine.exists_reachableFrom (fun _ _ _ => true) (fun _ _ _ _ => trivial)
      ([.begin (keyedCall 1 "a"), .begin (keyedCall 2 "b")] ++
        (List.range 10).map (fun i => .exec (keyedCall 1 "a") ⟨0, 10 + i, []⟩) ++
        (List.range 2).map (fun i => .exec (keyedCall 2 "b") ⟨0, 30 + i, []⟩) ++
        [.finish (keyedCall 1 "a")] ++
        (List.range 4).map (fun i => .exec (keyedCall 2 "b") ⟨0, 40 + i, []⟩) ++
        [.finish (keyedCall 2 "b")]) _ (by decide +kernel)
  rw [Bool.and_eq_true, beq_iff_eq, beq_iff_eq] at hm
  obtain ⟨hcalls, hruns⟩ := hm
  obtain ⟨x, y, hreturned⟩ : ∃ x y, m.returned = [x, y] :=
    List.length_eq_two.1 (by simpa using congrArg List.length hcalls)
  rw [hreturned] at hcalls hruns
  simp only [List.map_cons, List.map_nil, List.cons.injEq, and_true] at hcalls hruns
  obtain ⟨r', hx, _⟩ := eq_of_returnedRun hruns.1
  obtain ⟨r, hy, hinput⟩ := eq_of_returnedRun hruns.2
  rw [hcalls.1] at hx
  rw [hcalls.2] at hy
  rw [hx, hy] at hreturned
  have hsame :=
    (trigger_idempotent plainEnv 1 1 "k" oneJob (by decide) (Machine.atRest_loaded _ _ _)
    oneJob_keysRefer rfl).same m (keyedCall 1 "a") ⟨1, 1, "k", "a", []⟩ (.run r) (keyedCall 2 "b")
    ⟨1, 1, "k", "b", []⟩ (.run r') hreach (by simp [hreturned]) ⟨rfl, rfl, rfl, rfl⟩
    (by simp [hreturned]) ⟨rfl, rfl, rfl, rfl⟩
  obtain ⟨_, _, heq, heq', hid⟩ := hsame
  cases heq
  cases heq'
  exact ⟨m, r, r', hreach, hreturned, hinput, hid⟩

end Machines

end GoScheduler.Store
