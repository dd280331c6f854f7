import GoScheduler.Fallible
import GoScheduler.Numbering
import GoScheduler.Store.Effects

/-! Versions of jobs and revisions of their scripts. An edit of a job names the version it
was made for and holds the row of the job from its check to its commit; the revisions of
the script are only written under that row. Jobs may be deleted, with the rows that refer
to them, and created again under the same identifier. -/
namespace GoScheduler.Store.JobVersions
open ReadCommitted Schedule GoScheduler.Numbering Fallible

section System

inductive Call where
  | operation (op : Operation)
  | createNamedJob (id : ℕ) (job : Job) (secrets : Secrets)
  | rollbackJobScriptVersion (tenantID jobID versionID jobVersion : ℕ) (remark : String)
  | deleteJob (tenantID id version : ℕ)
deriving DecidableEq

structure Request where
  serial : ℕ
  now : Int
  call : Call
deriving DecidableEq

def Call.program (env : Env) (now : Int) : Call → Tx Result
  | .operation op => operationProgram env now op
  | .createNamedJob id job secrets => .job <$> Store.createNamedJob env id job secrets
  | .rollbackJobScriptVersion tenantID jobID versionID jobVersion remark =>
      .job <$> Store.rollbackJobScriptVersion env tenantID jobID versionID jobVersion remark
  | .deleteJob tenantID id version => do Store.deleteJob tenantID id version; pure .done

def anyEditor (env : Env) : ReadCommitted.System Request Key Row StoreError Result where
  program := fun t => t.call.program env t.now
  admissible := fun d t => t.now == d.clock

abbrev EditorMachine := Machine Request Key Row StoreError Result

/-- The job that an edit is for, and the version that it was made for. -/
def Call.presented : Call → Option (ℕ × ℕ)
  | .operation (.updateJob job _) => some (job.id, job.version)
  | .operation (.setJobEnabled _ id _ version) => some (id, version)
  | .rollbackJobScriptVersion _ jobID _ jobVersion _ => some (jobID, jobVersion)
  | .deleteJob _ id version => some (id, version)
  | _ => none

end System

section Histories

variable {rows rows' : ℕ → Option JobScriptVersion} {id n : ℕ} {job job' : Option Job}

def versionRows (d : Db) (versionID : ℕ) : Option JobScriptVersion :=
  d.row (.jobScriptVersion versionID)

abbrev Revisions (rows : ℕ → Option JobScriptVersion) (id n : ℕ) : Prop :=
  Numbering.Numbered JobScriptVersion.jobID JobScriptVersion.revision rows id n

abbrev SameRevisions (id : ℕ) (rows rows' : ℕ → Option JobScriptVersion) : Prop :=
  SameEntries JobScriptVersion.jobID id rows rows'

def Current (rows : ℕ → Option JobScriptVersion) (id n : ℕ) (j : Job) : Prop :=
  ∃ versionID v, rows versionID = some v ∧ v.jobID = id ∧ v.revision = n ∧
    v.scriptLanguage = j.scriptLanguage ∧ v.scriptSource = j.scriptSource

theorem Current.congr {j : Job} (h : Current rows id n j) (hs : SameRevisions id rows rows') :
    Current rows' id n j := by
  obtain ⟨versionID, v, hv, hid, hrest⟩ := h
  exact ⟨versionID, v, (hs versionID v hid).2 hv, hid, hrest⟩

def core (j : Job) : ℕ × ℕ × String × String := (j.id, j.version, j.scriptLanguage, j.scriptSource)

structure JobSound (job : Option Job) (rows : ℕ → Option JobScriptVersion) (id : ℕ) : Prop where
  keyed : ∀ j, job = some j → j.id = id
  revisions : ∃ n, Revisions rows id n ∧ (job = none → n = 0) ∧
    ∀ j, job = some j → j.scriptLanguage ≠ "" → Current rows id n j

theorem JobSound.congr (h : JobSound job rows id) (hjob : job'.map core = job.map core)
    (hs : SameRevisions id rows rows') : JobSound job' rows' id := by
  have hback : ∀ j', job' = some j' → ∃ j, job = some j ∧ core j = core j' := by
    rintro j' rfl
    obtain ⟨j, hj, hcore⟩ := Option.map_eq_some_iff.1 hjob.symm
    exact ⟨j, hj, hcore⟩
  obtain ⟨n, hn, hnone, hcurrent⟩ := h.revisions
  refine ⟨fun j' hj' => ?_, n, hn.congr hs, fun hj' => hnone ?_, fun j' hj' hlanguage => ?_⟩
  · obtain ⟨j, hj, hcore⟩ := hback j' hj'
    exact (congrArg Prod.fst hcore).symm.trans (h.keyed j hj)
  · rw [hj'] at hjob
    exact Option.map_eq_none_iff.1 hjob.symm
  · obtain ⟨j, hj, hcore⟩ := hback j' hj'
    simp only [core, Prod.mk.injEq] at hcore
    obtain ⟨versionID, v, hv, hid, hnumber, hl, hsrc⟩ :=
      (hcurrent j hj (by rw [hcore.2.2.1]; exact hlanguage)).congr hs
    exact ⟨versionID, v, hv, hid, hnumber, hl.trans hcore.2.2.1, hsrc.trans hcore.2.2.2⟩

def JobsSound (d : Db) : Prop := ∀ id, JobSound (d.row (.job id)) (versionRows d) id

end Histories

section Guarantee

/-- What a request can do to the row of a job. -/
inductive JobStep (call : Call) (id : ℕ) : Option Job → Option Job → Prop where
  | same (b : Option Job) : JobStep call id b b
  | rearm {b v : Option Job} (hcall : call.presented = none) (h : v.map core = b.map core) :
      JobStep call id b v
  | change {j j' : Job} (hcall : call.presented = some (id, j.version))
      (h : j'.version = j.version + 1) : JobStep call id (some j) (some j')
  | delete {j : Job} (hcall : call.presented = some (id, j.version)) : JobStep call id (some j) none
  | create {j' : Job} (hcall : call.presented = none) (h : j'.version = 1) :
      JobStep call id none (some j')

inductive RevisionStep (o : Overlay Row) :
    Option JobScriptVersion → Option JobScriptVersion → Prop where
  | same (b : Option JobScriptVersion) : RevisionStep o b b
  | insert {v : JobScriptVersion} {b j : Option Job} (hjob : o (.job v.jobID) = some ⟨b, j⟩)
      (h : j.map Job.version ≠ b.map Job.version) : RevisionStep o none (some v)
  | delete {v : JobScriptVersion} {j : Job} (hjob : o (.job v.jobID) = some ⟨some j, none⟩) :
      RevisionStep o (some v) none

structure Versioned (t : Request) (d : Db) (o : Overlay Row) : Prop where
  sound : JobsSound (d.overlay o)
  jobs : ∀ id b v, o (.job id) = some ⟨b, v⟩ → JobStep t.call id b v
  revisions : ∀ versionID b v, o (.jobScriptVersion versionID) = some ⟨b, v⟩ → RevisionStep o b v
  -- An edit that commits holds its job in the version that it was made for.
  checked : ∀ id n, t.call.presented = some (id, n) → ∃ j v, o (.job id) = some ⟨some j, v⟩ ∧
    j.version = n

theorem RevisionStep.held {o : Overlay Row} {b v : Option JobScriptVersion}
    (h : RevisionStep o b v) {x : JobScriptVersion} (hfree : o (.job x.jobID) = none) :
    v = some x ↔ b = some x := by
  cases h with
  | same => exact Iff.rfl
  | insert hjob =>
    refine ⟨fun hx => ?_, fun hx => by cases hx⟩
    cases hx
    rw [hfree] at hjob
    cases hjob
  | delete hjob =>
    refine ⟨fun hx => (by cases hx), fun hx => ?_⟩
    cases hx
    rw [hfree] at hjob
    cases hjob

def jobDiscipline : Discipline Request Key Row where
  inv := JobsSound
  guarantee := Versioned
  pair := fun _ _ _ _ => True
  alone := fun _ _ _ => True
  reading := fun _ _ _ => True
  inv_addKey := fun _ h => h
  inv_advance := fun _ h => h
  inv_commit := fun _ _ h => h.sound

theorem revisions_stable {t : Request} {o : Overlay Row} {d d' : Db} {id : ℕ}
    (hop : jobDiscipline.Hop t o d d') (hheld : o (.job id) ≠ none) :
    SameRevisions id (versionRows (d.overlay o)) (versionRows (d'.overlay o)) := by
  intro versionID x hx
  cases hk : o (.jobScriptVersion versionID) with
  | some held =>
    have hsame : (d'.overlay o).row (.jobScriptVersion versionID) =
        (d.overlay o).row (.jobScriptVersion versionID) := by
      rw [Database.overlay_row_held hk, Database.overlay_row_held hk]
    exact Iff.of_eq (congrArg (· = some x) hsame)
  | none =>
    simp only [versionRows, Database.overlay_row_free hk]
    cases hop.interferes with
    | grow ws => rw [Database.addKeys_row]
    | tick n => exact Iff.rfl
    | @commit t' o' _ hd _ ha hg =>
      cases hk' : o' (.jobScriptVersion versionID) with
      | none => rw [Database.overlay_row_free hk']
      | some held =>
        obtain ⟨b, v⟩ := held
        have hstep := hg.revisions versionID b v hk'
        have hfree : o' (.job x.jobID) = none := by
          rw [hx]
          exact (hd (.job id)).resolve_left hheld
        rw [Database.overlay_row_held hk', ha _ _ hk']
        exact hstep.held hfree

end Guarantee

section Assertions

variable {t : Request} {o : Overlay Row} {d : Db} {id : ℕ} {b v : Option Job}

/-- What happens to a row that the transaction does not edit; schedules may move, if `loose`. -/
def Unchanged (loose : Prop) : (k : Key) → Option (Row k) → Option (Row k) → Prop
  | .job _, b, v => v = b ∨ loose ∧ v.map core = b.map core
  | .jobScriptVersion _, b, v => v = b
  | _, _, _ => True

theorem Unchanged.refl (loose : Prop) (k : Key) (v : Option (Row k)) : Unchanged loose k v v := by
  cases k <;> first | trivial | exact .inl rfl

theorem Unchanged.mono {loose loose' : Prop} {k : Key} {b v : Option (Row k)}
    (h : Unchanged loose k b v) (hl : loose → loose') : Unchanged loose' k b v := by
  cases k with
  | job id => exact h.imp_right fun hcore => ⟨hl hcore.1, hcore.2⟩
  | jobScriptVersion versionID => exact h
  | _ => trivial

theorem Unchanged.trans {loose : Prop} {k : Key} {b v v' : Option (Row k)}
    (h : Unchanged loose k b v) (h' : Unchanged loose k v v') : Unchanged loose k b v' := by
  cases k with
  | job id =>
    rcases h with rfl | ⟨hloose, h⟩
    · exact h'
    · rcases h' with rfl | ⟨_, h'⟩
      · exact .inr ⟨hloose, h⟩
      · exact .inr ⟨hloose, h'.trans h⟩
  | jobScriptVersion versionID => exact Eq.trans h' h
  | _ => trivial

def Unedits (loose : Prop) (d : Db) (w : Write Row) : Prop := Unchanged loose w.1 (d.row w.1) w.2

abbrev Unedited (loose : Prop) (o : Overlay Row) : Prop := o.Rowwise (Unchanged loose)

theorem unedited_result {loose : Prop} {α : Type} {p : Tx α} {S : α → Prop}
    (he : p.Effect (Unedits loose) S) :
    jobDiscipline.Triple t (fun o _ => Unedited loose o) p fun a o _ => S a ∧ Unedited loose o :=
  (Discipline.Triple.rowwise he (Unchanged.refl loose) fun _ _ _ _ hw h => h.trans hw).weaken
    fun _ _ _ _ _ h => h.symm

theorem unedited_triple {loose : Prop} {α : Type} {p : Tx α} {S : α → Prop}
    (he : p.Effect (Unedits loose) S) :
    jobDiscipline.Triple t (fun o _ => Unedited loose o) p fun _ o _ => Unedited loose o :=
  (unedited_result he).weaken fun _ _ _ _ _ h => h.2

theorem Unedited.empty (loose : Prop) : Unedited loose Overlay.empty := fun _ _ h => by cases h

theorem Unedited.view {loose : Prop} (h : Unedited loose o) (ha : o.Agrees d) (k : Key) :
    Unchanged loose k (d.row k) ((d.overlay o).row k) := by
  cases hk : o k with
  | none =>
    rw [Database.overlay_row_free hk]
    exact Unchanged.refl loose k _
  | some held =>
    rw [Database.overlay_row_held hk, ha k held hk]
    exact h k held hk

theorem Unedited.rows_eq {loose : Prop} (h : Unedited loose o) (ha : o.Agrees d) :
    versionRows (d.overlay o) = versionRows d :=
  funext fun versionID => h.view ha (.jobScriptVersion versionID)

theorem Unedited.sound {loose : Prop} (h : Unedited loose o) (hd : JobsSound d) (ha : o.Agrees d) :
    JobsSound (d.overlay o) := by
  intro id
  rw [h.rows_eq ha]
  refine (hd id).congr ?_ (.refl _ _ _)
  rcases h.view ha (.job id) with hsame | ⟨_, hcore⟩
  · rw [hsame]
  · exact hcore

theorem Unedited.final (h : Unedited (t.call.presented = none) o)
    (hchecked : ∀ id n, t.call.presented = some (id, n) → ∃ j v, o (.job id) = some ⟨some j, v⟩ ∧
      j.version = n) : jobDiscipline.Final t o d := by
  intro d' _ hd ha
  refine ⟨h.sound hd ha, fun id b v hk => ?_, fun versionID b v hk => ?_, hchecked⟩
  · rcases h _ _ hk with hsame | ⟨hcall, hcore⟩
    · cases show v = b from hsame
      exact .same b
    · exact .rearm hcall hcore
  · cases show v = b from h _ _ hk
    exact .same b

structure Focus (id : ℕ) (b v : Option Job) (o : Overlay Row) : Prop where
  held : o (.job id) = some ⟨b, v⟩
  jobs : ∀ id' ≠ id, ∀ b v, o (.job id') = some ⟨b, v⟩ → v = b
  revisions : ∀ versionID b' v', o (.jobScriptVersion versionID) = some ⟨b', v'⟩ → v' = b' ∨
    (∃ x, b' = none ∧ v' = some x ∧ x.jobID = id) ∨
      v = none ∧ ∃ x, b' = some x ∧ v' = none ∧ x.jobID = id

def Holding (id : ℕ) (b v : Option Job) (P : (ℕ → Option JobScriptVersion) → Prop) (o : Overlay Row)
    (d : Db) : Prop :=
  Focus id b v o ∧ P (versionRows (d.overlay o))

def About (id : ℕ) (P : (ℕ → Option JobScriptVersion) → Prop) : Prop :=
  ∀ rows rows', SameRevisions id rows rows' → P rows → P rows'

variable {P : (ℕ → Option JobScriptVersion) → Prop}

theorem holding_stable (t : Request) (hP : About id P) :
    jobDiscipline.Stable t (Holding id b v P) := by
  intro o d d' hop h
  exact ⟨h.1, hP _ _ (revisions_stable hop (by simp [h.1.held])) h.2⟩

theorem unedits_cases (ha : o.Agrees d) {ws : List (Write Row)}
    (hws : ∀ w ∈ ws, Unedits False (d.overlay o) w) {k : Key}
    (hk : ∀ b v, Unchanged False k b v → v = b) :
    o.writeAll d ws k = o k ∨ o k = none ∧ o.writeAll d ws k = some ⟨d.row k, d.row k⟩ := by
  rcases Overlay.writeAll_cases ha ws k with hsame | ⟨v, hv, hnew⟩
  · exact .inl hsame
  · have hseen : v = (d.overlay o).row k := hk _ _ (hws _ hv)
    subst hseen
    cases hheld : o k with
    | none =>
      rw [Database.overlay_row_free hheld] at hnew
      exact .inr ⟨rfl, hnew⟩
    | some held => exact .inl (hnew.trans ((Overlay.held_again ha hheld).trans hheld))

theorem unchanged_job {id : ℕ} {b v : Option Job} (h : Unchanged False (.job id) b v) : v = b :=
  h.resolve_right fun hloose => hloose.1

theorem holding_triple (hP : About id P) {α : Type} {p : Tx α} {S : α → Prop}
    (he : p.Effect (Unedits False) S) :
    jobDiscipline.Triple t (Holding id b v P) p fun _ => Holding id b v P := by
  refine (Discipline.Triple.steps he (holding_stable t hP) fun o d ws _ ha h hws => ?_).weaken
    fun _ _ _ _ _ h => h.1
  have hjob : ∀ id', _ := fun id' => unedits_cases ha hws (k := .job id') fun _ _ => unchanged_job
  have hrevision : ∀ versionID, _ := fun versionID =>
    unedits_cases ha hws (k := .jobScriptVersion versionID) fun _ _ h => h
  refine ⟨⟨?_, fun id' hne b v hk => ?_, fun versionID b v hk => ?_⟩, ?_⟩
  · rcases hjob id with hsame | ⟨hfree, _⟩
    · exact hsame.trans h.1.held
    · rw [h.1.held] at hfree
      cases hfree
  · rcases hjob id' with hsame | ⟨_, hlocked⟩
    · exact h.1.jobs id' hne b v (hsame.symm.trans hk)
    · rw [hlocked] at hk
      cases hk
      rfl
  · rcases hrevision versionID with hsame | ⟨_, hlocked⟩
    · exact h.1.revisions versionID b v (hsame.symm.trans hk)
    · rw [hlocked] at hk
      cases hk
      exact .inl rfl
  · have hrows : versionRows ((d.addKeys ws).overlay (o.writeAll d ws)) =
        versionRows (d.overlay o) := by
      funext versionID
      rcases hrevision versionID with hsame | ⟨hfree, hlocked⟩
      · exact Database.overlay_congr (by rw [Database.addKeys_row]) hsame
      · exact (Database.overlay_row_held hlocked).trans (Database.overlay_row_free hfree).symm
    rw [hrows]
    exact h.2

theorem Holding.final (h : Holding id b v (fun rows => JobSound v rows id) o d)
    (hstep : JobStep t.call id b v) (hversion : v.map Job.version ≠ b.map Job.version) :
    jobDiscipline.Final t o d := by
  intro d' hl hd ha
  have hP : About id fun rows => JobSound v rows id := fun _ _ hs hsound => hsound.congr rfl hs
  obtain ⟨hfocus, hsound⟩ := (holding_stable t hP).later hl h
  refine ⟨fun id' => ?_, fun id' b' v' hk => ?_, fun versionID b' v' hk => ?_,
    fun id' n hcall => ?_⟩
  · by_cases hid : id' = id
    · subst hid
      rw [Database.overlay_row_held hfocus.held]
      exact hsound
    · have hjob : (d'.overlay o).row (.job id') = d'.row (.job id') := by
        cases hk : o (.job id') with
        | none => exact Database.overlay_row_free hk
        | some held =>
          obtain ⟨b', v'⟩ := held
          rw [Database.overlay_row_held hk, ha _ _ hk]
          exact hfocus.jobs id' hid b' v' hk
      refine (hd id').congr (by rw [hjob]) fun versionID x hx => ?_
      unfold versionRows
      cases hk : o (.jobScriptVersion versionID) with
      | none => rw [Database.overlay_row_free hk]
      | some held =>
        obtain ⟨b', v'⟩ := held
        rw [Database.overlay_row_held hk, ha _ _ hk]
        rcases hfocus.revisions versionID b' v' hk with hsame | ⟨y, hb, hv, hy⟩ | ⟨_, y, hb, hv, hy⟩
        · rw [hsame]
        · have hne : y ≠ x := fun hyx => hid (by rw [← hx, ← hyx, hy])
          simp [hb, hv, hne]
        · have hne : y ≠ x := fun hyx => hid (by rw [← hx, ← hyx, hy])
          simp [hb, hv, hne]
  · by_cases hid : id' = id
    · subst hid
      rw [hfocus.held] at hk
      cases hk
      exact hstep
    · cases hfocus.jobs id' hid b' v' hk
      exact .same b'
  · rcases hfocus.revisions versionID b' v' hk with hsame | ⟨x, hb, hv, hx⟩ | ⟨hgone, x, hb, hv, hx⟩
    · cases hsame
      exact .same b'
    · subst hb hv hx
      exact .insert hfocus.held hversion
    · subst hb hv hx hgone
      cases b with
      | none => exact absurd rfl hversion
      | some j => exact .delete hfocus.held
  · cases hstep with
    | same => exact absurd rfl hversion
    | rearm hnone => cases hnone.symm.trans hcall
    | create hnone => cases hnone.symm.trans hcall
    | change hsome =>
      cases hsome.symm.trans hcall
      exact ⟨_, _, hfocus.held, rfl⟩
    | delete hsome =>
      cases hsome.symm.trans hcall
      exact ⟨_, _, hfocus.held, rfl⟩

end Assertions

section Edits

variable {t : Request} {env : Env} {o : Overlay Row} {d : Db} {id n : ℕ} {b : Option Job}

/-- The revisions of a job, the last of which has the script that the job had. -/
def Noted (id n : ℕ) (b : Option Job) (rows : ℕ → Option JobScriptVersion) : Prop :=
  Revisions rows id n ∧ ∀ j, b = some j → j.scriptLanguage ≠ "" → Current rows id n j

theorem noted_about (id n : ℕ) (b : Option Job) : About id (Noted id n b) :=
  fun _ _ hs h => ⟨h.1.congr hs, fun j hj hlanguage => (h.2 j hj hlanguage).congr hs⟩

theorem Unedited.edit (h : Unedited False o) (ha : o.Agrees d) (id : ℕ) (v : Option Job)
    {P : (ℕ → Option JobScriptVersion) → Prop} (hP : P (versionRows d)) :
    Holding id (d.row (.job id)) v P (o.write d (.job id) v) (d.addKey (.job id)) := by
  have hjobs : ∀ id' ≠ id, o.write d (.job id) v (.job id') = o (.job id') :=
    fun id' hne => Overlay.write_ne (by simpa using hne)
  have hrevisions : ∀ versionID, o.write d (.job id) v (.jobScriptVersion versionID) =
      o (.jobScriptVersion versionID) := fun _ => Overlay.write_ne nofun
  refine ⟨⟨Overlay.write_self_of_agrees ha _ _, fun id' hne b v hk => ?_,
    fun versionID b v hk => ?_⟩,
    ?_⟩
  · rw [hjobs id' hne] at hk
    exact unchanged_job (h _ _ hk)
  · rw [hrevisions] at hk
    exact .inl (h _ _ hk)
  · have hrows :
        versionRows ((d.addKey (.job id)).overlay (o.write d (.job id) v)) = versionRows d := by
      rw [← h.rows_eq ha]
      exact funext fun versionID => Database.overlay_congr rfl (hrevisions versionID)
    rw [hrows]
    exact hP

theorem mem_jobScriptVersions {o : Overlay Row} {d : Db} (hc : o.Covered d) (x : JobScriptVersion) :
    x ∈ jobScriptVersions (d.overlay o) ↔
      ∃ versionID, versionRows (d.overlay o) versionID = some x := by
  constructor
  · intro hx
    obtain ⟨k, _, hk⟩ := List.mem_filterMap.1 hx
    split at hk
    · exact ⟨_, hk⟩
    · cases hk
  · rintro ⟨versionID, hx⟩
    exact List.mem_filterMap.2 ⟨.jobScriptVersion versionID, hc.mem_keys hx, hx⟩

theorem Holding.insert {j : Job} {versionID : ℕ} {x : JobScriptVersion}
    (h : Holding id b (some j) (Noted id n b) o d) (ha : o.Agrees d) (hid : j.id = id)
    (hfree : (d.overlay o).row (.jobScriptVersion versionID) = none) (hjob : x.jobID = id)
    (hrevision : x.revision = n + 1) (hlanguage : x.scriptLanguage = j.scriptLanguage)
    (hsource : x.scriptSource = j.scriptSource) :
    Holding id b (some j) (fun rows => JobSound (some j) rows id)
      (o.write d (.jobScriptVersion versionID) (some x))
      (d.addKey (.jobScriptVersion versionID)) := by
  have hbase : d.row (.jobScriptVersion versionID) = none := by
    cases hk : o (.jobScriptVersion versionID) with
    | none => exact (Database.overlay_row_free hk).symm.trans hfree
    | some held =>
      obtain ⟨b', v'⟩ := held
      have hv' : v' = none := (Database.overlay_row_held hk).symm.trans hfree
      subst hv'
      rcases h.1.revisions versionID b' none hk with hsame | ⟨y, _, hy, _⟩ | ⟨hgone, _⟩
      · exact (ha _ _ hk).trans hsame.symm
      · cases hy
      · cases hgone
  have hjobs : ∀ id', o.write d (.jobScriptVersion versionID) (some x) (.job id') = o (.job id') :=
    fun _ => Overlay.write_ne nofun
  have hself : o.write d (.jobScriptVersion versionID) (some x) (.jobScriptVersion versionID) =
      some ⟨none, some x⟩ := by
    rw [Overlay.write_self_of_agrees ha, hbase]
  have hothers : ∀ i ≠ versionID, o.write d (.jobScriptVersion versionID) (some x)
      (.jobScriptVersion i) = o (.jobScriptVersion i) :=
    fun i hne => Overlay.write_ne (by simpa using hne)
  refine ⟨⟨(hjobs id).trans h.1.held, fun id' hne b v hk => ?_, fun i b' v' hk => ?_⟩, ?_⟩
  · rw [hjobs] at hk
    exact h.1.jobs id' hne b v hk
  · by_cases hi : i = versionID
    · subst hi
      rw [hself] at hk
      cases hk
      exact .inr (.inl ⟨x, rfl, rfl, hjob⟩)
    · rw [hothers i hi] at hk
      exact h.1.revisions i b' v' hk
  · have hx : versionRows ((d.addKey (.jobScriptVersion versionID)).overlay
        (o.write d (.jobScriptVersion versionID) (some x))) versionID = some x :=
      Database.overlay_row_held hself
    have hnumbered := h.2.1.insert hfree hx
      (fun i hi => Database.overlay_congr rfl (hothers i hi)) hjob hrevision
    refine ⟨fun j' hj' => ?_, n + 1, hnumbered, fun hj' => (by cases hj'), fun j' hj' _ => ?_⟩
    · cases hj'
      exact hid
    · cases hj'
      exact ⟨versionID, x, hx, hjob, hrevision, hlanguage, hsource⟩

theorem newUUID_unedits {loose : Prop} : newUUID.Effect (Unedits loose) fun _ => True :=
  .fresh fun _ _ => trivial

theorem insertJobScriptVersion_sound {j : Job} (hid : j.id = id) (remark : String) :
    jobDiscipline.Triple t (Holding id b (some j) (Noted id n b)) (insertJobScriptVersion j remark)
      fun _ => Holding id b (some j) fun rows => JobSound (some j) rows id := by
  have hstable := holding_stable t (noted_about id n b) (b := b) (v := some j)
  refine .bind (holding_triple (noted_about id n b) newUUID_unedits) fun versionID => ?_
  refine .bind (Q := fun latest o d => latest = n ∧ Holding id b (some j) (Noted id n b) o d)
    (.select hstable fun o d _ _ hc h => ⟨?_, h⟩) fun latest => .given fun hlatest => ?_
  · rw [hid]
    exact h.2.1.latest (mem_jobScriptVersions hc)
  · refine .bind (Q := fun inserted o d => inserted = true →
      Holding id b (some j) (fun rows => JobSound (some j) rows id) o d)
      (.insert hstable (fun _ _ _ _ _ _ h => by cases h) fun o d _ ha h hfree _ _ => ?_)
      fun inserted => ?_
    · exact h.insert ha hid hfree hid (by rw [hlatest]) rfl rfl
    · cases inserted with
      | false => exact .fail
      | true => exact .pure fun _ _ _ _ h => h rfl

structure Locked (id : ℕ) (j : Job) (o : Overlay Row) : Prop where
  unedited : Unedited False o
  held : o (.job id) = some ⟨some j, some j⟩

theorem lockJob_locked (id : ℕ) (p : Job → Bool) :
    jobDiscipline.Triple t (fun o _ => Unedited False o) (lockJob id p)
      fun r o _ => ∀ j, r = some j → Locked id j o := by
  refine .lock (V := Row) (k := Key.job id) (.overlay _) (fun _ _ _ _ _ _ _ h => by cases h)
    fun o d j _ ha h hrow _ _ j' hj' => ?_
  cases hj'
  have hbase : d.row (.job id) = some j := (unchanged_job (h.view ha (.job id))).symm.trans hrow
  have hself : o.write d (.job id) (some j) (.job id) = some ⟨some j, some j⟩ := by
    rw [Overlay.write_self_of_agrees ha, hbase]
  refine ⟨fun k held hk => ?_, hself⟩
  by_cases hjob : k = .job id
  · subst hjob
    rw [hself] at hk
    cases hk
    exact .inl rfl
  · rw [Overlay.write_ne hjob] at hk
    exact h k held hk

theorem locked_triple {j : Job} {α : Type} {p : Tx α} {S : α → Prop}
    (he : p.Effect (Unedits False) S) :
    jobDiscipline.Triple t (fun o _ => Locked id j o) p fun _ o _ => Locked id j o := by
  have hheld :
      jobDiscipline.Triple t (fun o _ => ∃ v, o (.job id) = some ⟨some j, v⟩ ∧ v = some j) p
      fun _ o _ => ∃ v, o (.job id) = some ⟨some j, v⟩ ∧ v = some j :=
    Discipline.Triple.holds (k := Key.job id) he fun d v hw hrow => (unchanged_job hw).trans hrow
  refine (((unedited_triple he).strengthen fun _ _ _ _ h => h.unedited).and
    (hheld.strengthen fun _ _ _ _ h => ⟨some j, h.held, rfl⟩)).weaken fun _ _ _ _ _ h => ?_
  obtain ⟨hunedited, v, hv, rfl⟩ := h
  exact ⟨hunedited, hv⟩

theorem updateJobRow_holding {j : Job} (p : Job → Bool) (set : Job → Job) :
    jobDiscipline.Triple t (fun o _ => Locked id j o) (updateJobRow id p set)
      fun r o d => ∀ j', r = some j' → j.id = id ∧ j' = set j ∧
        ∃ n, Holding id (some j) (some j') (Noted id n (some j)) o d := by
  refine .update (V := Row) (k := Key.job id) (.overlay _) (fun _ _ _ _ _ _ _ h => by cases h)
    fun o d j₀ hd ha h hrow _ _ j' hj' => ?_
  cases hj'
  have hj₀ : j₀ = j := Option.some.inj ((Database.overlay_row_held h.held).symm.trans hrow).symm
  subst hj₀
  have hbase : d.row (.job id) = some j₀ := ha _ _ h.held
  obtain ⟨n, hn, _, hcurrent⟩ := (hd id).revisions
  refine ⟨(hd id).keyed j₀ hbase, rfl, n, ?_⟩
  rw [← hbase]
  exact h.unedited.edit ha id (some (set j₀)) ⟨hn, hcurrent⟩

theorem Noted.sound {j j' : Job} {rows : ℕ → Option JobScriptVersion}
    (h : Noted id n (some j) rows) (hid : j'.id = id) (hsame : j'.scriptLanguage ≠ "" →
      j'.scriptLanguage = j.scriptLanguage ∧ j'.scriptSource = j.scriptSource) :
    JobSound (some j') rows id := by
  refine ⟨fun q hq => ?_, n, h.1, fun hq => (by cases hq), fun q hq hlanguage => ?_⟩
  · cases hq
    exact hid
  · cases hq
    obtain ⟨hl, hs⟩ := hsame hlanguage
    obtain ⟨versionID, v, hv, hv', hnumber, hvl, hvs⟩ := h.2 j rfl (hl ▸ hlanguage)
    exact ⟨versionID, v, hv, hv', hnumber, hvl.trans hl.symm, hvs.trans hs.symm⟩

theorem changed_final {j j' : Job} (hcall : t.call.presented = some (id, j.version))
    (hversion : j'.version = j.version + 1)
    (h : Holding id (some j) (some j') (fun rows => JobSound (some j') rows id) o d) :
    jobDiscipline.Final t o d := by
  refine h.final (.change hcall hversion) ?_
  simp only [Option.map_some, ne_eq, Option.some.injEq]
  omega

theorem sealSecrets_script {secrets : Secrets} {j stored : Job}
    (h : sealSecrets env secrets j = .ok stored) :
    stored.scriptLanguage = j.scriptLanguage ∧ stored.scriptSource = j.scriptSource := by
  obtain ⟨auth, _, h⟩ := exists_of_bind_ok h
  cases hcipher : env.cipher with
  | none =>
    rw [hcipher] at h
    cases h
    exact ⟨rfl, rfl⟩
  | some cipher =>
    rw [hcipher] at h
    obtain ⟨encrypted, _, h⟩ := exists_of_bind_ok h
    cases h
    exact ⟨rfl, rfl⟩

theorem updateJob_final (request : Job) (secrets : Secrets)
    (hcall : t.call.presented = some (request.id, request.version)) :
    jobDiscipline.Triple t (fun o _ => Unedited False o) (updateJob env request secrets)
      fun _ o d => jobDiscipline.Final t o d := by
  refine .bind (unedited_triple timeNow_effect) fun goNow =>
    .bind (unedited_triple (scheduleNext_effect _ _)) fun next =>
      .bind (unedited_result (liftExcept_ok_effect _)) fun stored => .given fun hstored =>
        .found (lockJob_locked _ _) .fail fun current =>
          .bind (locked_triple (liftExcept_effect _)) fun _ => ?_
  obtain ⟨hlanguage, hsource⟩ := sealSecrets_script hstored
  split
  · exact .fail
  next hversion =>
  have hversion' : current.version = request.version := by simpa using hversion
  refine .found (updateJobRow_holding _ _) .fail fun row => .given fun hid => .given fun hrow =>
    .introduce fun n => ?_
  have hid' : row.id = request.id := by rw [hrow]; exact hid
  have hbumped : row.version = current.version + 1 := by rw [hrow]
  refine .bind (Q := fun _ => Holding request.id (some current) (some row) fun rows =>
    JobSound (some row) rows request.id) ?_ fun _ => .pure fun _ _ _ _ h =>
      changed_final (hversion' ▸ hcall) hbumped h
  unfold Program.when
  split
  · exact insertJobScriptVersion_sound hid' _
  · next hscript =>
    refine .pure fun o d _ _ h => ⟨h.1, h.2.sound hid' fun hne => ?_⟩
    have hl : row.scriptLanguage = request.scriptLanguage := by rw [hrow]; exact hlanguage
    have hs : row.scriptSource = request.scriptSource := by rw [hrow]; exact hsource
    rw [hl] at hne
    have hsame : ¬(current.scriptLanguage ≠ request.scriptLanguage ∨
        current.scriptSource ≠ request.scriptSource) := fun hchanged => hscript ⟨hchanged, hne⟩
    rw [not_or, not_not, not_not] at hsame
    exact ⟨hl.trans hsame.1.symm, hs.trans hsame.2.symm⟩

theorem setJobEnabled_final (tenantID id : ℕ) (enabled : Bool) (version : ℕ)
    (hcall : t.call.presented = some (id, version)) :
    jobDiscipline.Triple t (fun o _ => Unedited False o)
      (setJobEnabled env tenantID id enabled version)
      fun _ o d => jobDiscipline.Final t o d := by
  refine .found (lockJob_locked _ _) .fail fun job =>
    .bind (locked_triple (liftExcept_effect _)) fun _ => ?_
  split
  · exact .fail
  next hversion =>
  have hversion' : job.version = version := by simpa using hversion
  split
  · refine .pure fun o d _ _ h => Unedited.final (fun k held hk => ?_) fun id' n hcall' => ?_
    · exact (h.unedited k held hk).mono fun hf => hf.elim
    · cases hcall.symm.trans hcall'
      exact ⟨job, _, h.held, hversion'⟩
  · refine .bind (locked_triple timeNow_effect) fun goNow =>
      .bind (locked_triple (nextRunForEnabledState_effect _ _ _)) fun nextRunAt =>
        .found (updateJobRow_holding _ _) .fail fun row => .given fun hid => .given fun hrow =>
          .introduce fun n => ?_
    refine (holding_triple (noted_about id n (some job)) (liftExcept_effect _)).weaken
      fun _ o d _ _ h => ?_
    have hbumped : row.version = job.version + 1 := by rw [hrow]
    refine changed_final (hversion' ▸ hcall) hbumped ⟨h.1, ?_⟩
    exact h.2.sound (by rw [hrow]; exact hid) fun _ => by rw [hrow]; exact ⟨rfl, rfl⟩

theorem rollbackJobScriptVersion_final (tenantID jobID versionID jobVersion : ℕ) (remark : String)
    (hcall : t.call.presented = some (jobID, jobVersion)) :
    jobDiscipline.Triple t (fun o _ => Unedited False o)
      (rollbackJobScriptVersion env tenantID jobID versionID jobVersion remark)
      fun _ o d => jobDiscipline.Final t o d := by
  unfold rollbackJobScriptVersion
  dsimp only
  split
  · exact .fail
  refine .found (lockJob_locked _ _) .fail fun job =>
    .bind (locked_triple (liftExcept_effect _)) fun _ => ?_
  split
  · exact .fail
  next hversion =>
  have hversion' : job.version = jobVersion := by simpa using hversion
  refine .bind (locked_triple (select_effect _)) fun target => ?_
  cases target with
  | none => exact .fail
  | some target =>
    refine .found (updateJobRow_holding _ _) .fail fun row => .given fun hid => .given fun hrow =>
      .introduce fun n => ?_
    have hid' : row.id = jobID := by rw [hrow]; exact hid
    refine .bind (holding_triple (noted_about jobID n (some job)) (liftExcept_effect _))
      fun _ => .bind (insertJobScriptVersion_sound hid' _) fun _ => .pure fun _ _ _ _ h => ?_
    exact changed_final (hversion' ▸ hcall) (by rw [hrow]) h

theorem insertNewJob_final {row : Job} (hid : row.id = id) (hversion : row.version = 1)
    (hcall : t.call.presented = none) :
    jobDiscipline.Triple t (fun o _ => Unedited False o) (do
      insertRow (.job id) row
      .when (row.scriptLanguage ≠ "") (insertJobScriptVersion row "initial version")
      pure row : Tx Job) fun _ o d => jobDiscipline.Final t o d := by
  refine .bind (Q := fun _ => Holding id none (some row) (Noted id 0 none)) (.bind
    (Q := fun inserted o d => inserted = true → Holding id none (some row) (Noted id 0 none) o d)
    (.insert (.overlay _) (fun _ _ _ _ _ _ h => by cases h) fun o d hd ha h hfree _ _ => ?_)
    fun inserted => ?_) fun _ => ?_
  · have hbase : d.row (.job id) = none := (unchanged_job (h.view ha (.job id))).symm.trans hfree
    obtain ⟨n, hn, hnone, _⟩ := (hd id).revisions
    cases hnone hbase
    have hedit := h.edit ha id (some row) (P := Noted id 0 none) ⟨hn, fun _ hj => by cases hj⟩
    rwa [hbase] at hedit
  · cases inserted with
    | false => exact .fail
    | true => exact .pure fun _ _ _ _ h => h rfl
  refine .bind (Q := fun _ => Holding id none (some row) fun rows => JobSound (some row) rows id) ?_
    fun _ => .pure fun _ _ _ _ h => h.final (.create hcall hversion) (by simp)
  unfold Program.when
  split
  · exact insertJobScriptVersion_sound hid _
  · next hlanguage =>
    refine .pure fun o d _ _ h => ⟨h.1, fun q hq => ?_, 0, h.2.1, fun hq => (by cases hq),
      fun q hq hne => ?_⟩
    · cases hq
      exact hid
    · cases hq
      exact absurd hne hlanguage

theorem storeNewJob_final (j : Job) (next : Int) (secrets : Secrets) (id : ℕ)
    (hcall : t.call.presented = none) :
    jobDiscipline.Triple t (fun o _ => Unedited False o) (storeNewJob env j next secrets id)
      fun _ o d => jobDiscipline.Final t o d :=
  .bind (unedited_triple (liftExcept_effect _)) fun _ => insertNewJob_final rfl rfl hcall

theorem createJob_final (request : Job) (secrets : Secrets) (hcall : t.call.presented = none) :
    jobDiscipline.Triple t (fun o _ => Unedited False o) (createJob env request secrets)
      fun _ o d => jobDiscipline.Final t o d :=
  .bind (unedited_triple timeNow_effect) fun _ =>
    .bind (unedited_triple (scheduleNext_effect _ _)) fun _ =>
      .bind (unedited_triple newUUID_unedits) fun id => storeNewJob_final _ _ _ id hcall

theorem createNamedJob_final (id : ℕ) (request : Job) (secrets : Secrets)
    (hcall : t.call.presented = none) :
    jobDiscipline.Triple t (fun o _ => Unedited False o) (createNamedJob env id request secrets)
      fun _ o d => jobDiscipline.Final t o d :=
  .bind (unedited_triple timeNow_effect) fun _ =>
    .bind (unedited_triple (scheduleNext_effect _ _)) fun _ => storeNewJob_final _ _ _ id hcall

end Edits

section Deletion

variable {t : Request} {o : Overlay Row} {d : Db} {id : ℕ} {j : Job} {keys : List Key}

structure Remaining (id : ℕ) (keys : List Key) (rows : ℕ → Option JobScriptVersion) : Prop where
  listed : ∀ versionID x, rows versionID = some x → x.jobID = id →
    .jobScriptVersion versionID ∈ keys
  present : ∀ versionID, .jobScriptVersion versionID ∈ keys →
    ∃ x, rows versionID = some x ∧ x.jobID = id

theorem remaining_about (id : ℕ) (keys : List Key) : About id (Remaining id keys) := by
  refine fun rows rows' hs h =>
    ⟨fun versionID x hx hid => h.listed versionID x ((hs versionID x hid).1 hx)
    hid, fun versionID hk => ?_⟩
  obtain ⟨x, hx, hid⟩ := h.present versionID hk
  exact ⟨x, (hs versionID x hid).2 hx, hid⟩

theorem remaining_referringToJob (hc : o.Covered d) :
    Remaining id (referringToJob id (d.overlay o)) (versionRows (d.overlay o)) := by
  refine ⟨fun versionID x hx hid => ?_, fun versionID hk => ?_⟩
  · refine List.mem_filter.2 ⟨hc.mem_keys hx, ?_⟩
    have hrow : (d.overlay o).row (.jobScriptVersion versionID) = some x := hx
    simp [hrow, hid]
  · have hany := (List.mem_filter.1 hk).2
    obtain ⟨x, hx, hid⟩ := (Option.any_eq_true _ _).1 hany
    exact ⟨x, hx, by simpa using hid⟩

theorem not_job_of_referringToJob {id' : ℕ} : .job id' ∉ referringToJob id d := by
  intro h
  have hfalse := (List.mem_filter.1 h).2
  simp at hfalse

theorem Remaining.skip {k : Key} {rows : ℕ → Option JobScriptVersion}
    (h : Remaining id (k :: keys) rows) (hk : ∀ versionID, k ≠ .jobScriptVersion versionID) :
    Remaining id keys rows :=
  ⟨fun versionID x hx hid => (List.mem_cons.1 (h.listed versionID x hx hid)).resolve_left
    fun heq => hk versionID heq.symm,
    fun versionID hin => h.present versionID (List.mem_cons_of_mem _ hin)⟩

theorem Holding.erase {versionID : ℕ} {x : JobScriptVersion}
    (h : Holding id (some j) none (Remaining id (.jobScriptVersion versionID :: keys)) o d)
    (ha : o.Agrees d) (hx : (d.overlay o).row (.jobScriptVersion versionID) = some x)
    (hnodup : .jobScriptVersion versionID ∉ keys) :
    Holding id (some j) none (Remaining id keys) (o.write d (.jobScriptVersion versionID) none)
      (d.addKey (.jobScriptVersion versionID)) := by
  have hid : x.jobID = id := by
    obtain ⟨y, hy, hid⟩ := h.2.present versionID List.mem_cons_self
    cases hx.symm.trans hy
    exact hid
  have hself : o.write d (.jobScriptVersion versionID) none (.jobScriptVersion versionID) =
      some ⟨d.row (.jobScriptVersion versionID), none⟩ := Overlay.write_self_of_agrees ha _ _
  have hjobs : ∀ id', o.write d (.jobScriptVersion versionID) none (.job id') = o (.job id') :=
    fun _ => Overlay.write_ne nofun
  have hothers : ∀ i ≠ versionID, o.write d (.jobScriptVersion versionID) none
      (.jobScriptVersion i) = o (.jobScriptVersion i) :=
    fun i hne => Overlay.write_ne (by simpa using hne)
  have hrows : ∀ i ≠ versionID, versionRows ((d.addKey (.jobScriptVersion versionID)).overlay
      (o.write d (.jobScriptVersion versionID) none)) i = versionRows (d.overlay o) i :=
    fun i hi => Database.overlay_congr rfl (hothers i hi)
  have hgone : versionRows ((d.addKey (.jobScriptVersion versionID)).overlay
      (o.write d (.jobScriptVersion versionID) none)) versionID = none :=
    Database.overlay_row_held hself
  refine ⟨⟨(hjobs id).trans h.1.held, fun id' hne b v hk => ?_, fun i b' v' hk => ?_⟩,
    fun i y hy hyid => ?_, fun i hi => ?_⟩
  · rw [hjobs] at hk
    exact h.1.jobs id' hne b v hk
  · by_cases hi : i = versionID
    · subst hi
      rw [hself] at hk
      cases hk
      cases hrow : d.row (.jobScriptVersion i) with
      | none => exact .inl rfl
      | some y =>
        -- the committed revision is the one that was seen
        have hy : y = x := by
          rcases ha.row_cases (.jobScriptVersion i) with ⟨_, hseen⟩ | hheld
          · exact Option.some.inj (hrow.symm.trans (hseen.symm.trans hx))
          · rw [hrow, show (d.overlay o).row (.jobScriptVersion i) = some x from hx] at hheld
            rcases h.1.revisions i _ _ hheld with hsame | ⟨_, hnone, _⟩ | ⟨_, _, _, hnone, _⟩
            · exact (Option.some.inj hsame).symm
            · cases hnone
            · cases hnone
        exact .inr (.inr ⟨rfl, y, rfl, rfl, hy ▸ hid⟩)
    · rw [hothers i hi] at hk
      exact h.1.revisions i b' v' hk
  · have hi : i ≠ versionID := by
      rintro rfl
      rw [hgone] at hy
      cases hy
    rw [hrows i hi] at hy
    exact (List.mem_cons.1 (h.2.listed i y hy hyid)).resolve_left (by simpa using hi)
  · have hne : i ≠ versionID := by
      rintro rfl
      exact hnodup hi
    rw [hrows i hne]
    exact h.2.present i (List.mem_cons_of_mem _ hi)

theorem deleteReferring_triple (k : Key) (hjob : ∀ id', k ≠ .job id') (hnodup : k ∉ keys) :
    jobDiscipline.Triple t (Holding id (some j) none (Remaining id (k :: keys)))
      (do let _ ← .exec (.delete (V := Row) k fun _ => true); pure () : Tx Unit)
      fun _ => Holding id (some j) none (Remaining id keys) := by
  have hstable := holding_stable t (remaining_about id (k :: keys)) (b := some j) (v := none)
  by_cases hk : ∃ versionID, k = .jobScriptVersion versionID
  · obtain ⟨versionID, rfl⟩ := hk
    refine .bind (Q := fun _ => Holding id (some j) none (Remaining id keys))
      (.delete hstable (fun o d _ _ h hnone => ?_) fun o d x _ ha h hx _ _ => h.erase ha hx hnodup)
      fun _ => .done
    obtain ⟨x, hx, _⟩ := h.2.present versionID List.mem_cons_self
    cases hnone x hx
  · have hother : ∀ versionID, k ≠ .jobScriptVersion versionID := fun versionID heq =>
      hk ⟨versionID, heq⟩
    have he : (Program.exec (.delete (V := Row) k fun _ => true) : Tx Bool).Effect (Unedits False)
        fun _ => True := by
      refine .delete fun d => ?_
      cases k with
      | job id' => exact absurd rfl (hjob id')
      | jobScriptVersion versionID => exact absurd rfl (hother versionID)
      | _ => trivial
    refine .bind (holding_triple (remaining_about id (k :: keys)) he) fun _ =>
      .pure fun o d _ _ h => ?_
    exact ⟨h.1, h.2.skip hother⟩

theorem deleteJob_final (tenantID id version : ℕ) (hcall : t.call.presented = some (id, version)) :
    jobDiscipline.Triple t (fun o _ => Unedited False o) (deleteJob tenantID id version)
      fun _ o d => jobDiscipline.Final t o d := by
  have habout : About id fun _ => True := fun _ _ _ _ => trivial
  refine .bind (Q := fun deleted o d => deleted = true → ∃ j, j.version = version ∧
      Holding id (some j) none (fun _ => True) o d)
    (.delete (V := Row) (k := Key.job id) (.overlay _) (fun _ _ _ _ _ _ h => by cases h)
      fun o d j _ ha h hrow hp _ _ => ⟨j, ?_, ?_⟩) fun deleted => ?_
  · simp only [Bool.and_eq_true, beq_iff_eq] at hp
    exact hp.2
  · have hbase : d.row (.job id) = some j := (unchanged_job (h.view ha (.job id))).symm.trans hrow
    have hedit := h.edit ha id none (P := fun _ => True) trivial
    rwa [hbase] at hedit
  cases deleted with
  | false => exact .fail
  | true =>
    refine Discipline.Triple.strengthen (A := fun o d => ∃ j, j.version = version ∧
      Holding id (some j) none (fun _ => True) o d) ?_ fun _ _ _ _ h => h rfl
    refine .introduce fun j => .given fun hversion => ?_
    refine .bind (Q := fun keys o d => (keys.Nodup ∧ ∀ id', .job id' ∉ keys) ∧
        Holding id (some j) none (Remaining id keys) o d)
      (.select (holding_stable t habout) fun o d _ _ hc h => ⟨⟨hc.nodup.filter _,
        fun _ => not_job_of_referringToJob⟩, h.1, remaining_referringToJob hc⟩) fun keys => ?_
    refine (Discipline.Triple.forEach_rest
      (J := fun keys o d => (keys.Nodup ∧ ∀ id', .job id' ∉ keys) ∧
      Holding id (some j) none (Remaining id keys) o d) (fun k keys => .given fun hkeys => ?_)
      keys).weaken fun _ o d _ _ h => ?_
    · refine (deleteReferring_triple k (fun id' heq => hkeys.2 id' (heq ▸ List.mem_cons_self))
        (List.nodup_cons.1 hkeys.1).1).weaken fun _ _ _ _ _ h => ⟨⟨(List.nodup_cons.1 hkeys.1).2,
          fun id' hin => hkeys.2 id' (List.mem_cons_of_mem _ hin)⟩, h⟩
    · obtain ⟨_, hfocus, hnone⟩ := h
      refine Holding.final (v := none) ⟨hfocus, fun _ hq => (by cases hq), 0, numbered_zero
        fun versionID x hx hid => ?_, fun _ => rfl, fun _ hq => by cases hq⟩
        (.delete (hversion ▸ hcall)) (by simp)
      cases hnone.listed versionID x hx hid

end Deletion

section Requests

variable {t : Request} {env : Env}

-- whether a remark is too long is not to be evaluated where a program is only looked up
attribute [local irreducible] Text.trimSpace

theorem unedits_allows {loose : Prop} (hl : loose) :
    AllowsCancels (fun _ _ _ => True) (fun _ => True) (Unedits loose) where
  same := fun d k => Unchanged.refl loose k (d.row k)
  aside := fun d k v hk _ => by cases k <;> trivial
  move := fun _ _ _ _ _ _ => trivial
  create := fun _ _ _ _ => trivial
  rearm := fun d id j next last enabled hj => by
    refine .inr ⟨hl, ?_⟩
    rw [hj]
    rfl
  command := fun _ _ _ _ => trivial

theorem operation_final (op : Operation) (hcall : t.call.presented = none)
    (hedit : editsJob op = false) :
    jobDiscipline.Triple t (fun o _ => Unedited False o) (operationProgram env t.now op)
      fun _ o d => jobDiscipline.Final t o d := by
  have he : (operationProgram env t.now op).Effect (Unedits (t.call.presented = none))
      fun _ => True := by
    refine operationProgram_effect (t := ⟨0, t.now, op⟩) (unedits_allows hcall)
      (fun _ _ _ _ => trivial)
      (fun _ _ => trivial) (fun d k v hk hjob hversion => ?_) (fun _ _ => .inr fun _ _ => trivial)
      (fun _ _ _ _ _ _ _ _ _ => trivial) fun h => ?_
    · cases k with
      | job id => exact absurd rfl (hjob id)
      | jobScriptVersion id => exact absurd rfl (hversion id)
      | _ => trivial
    · exact absurd h (by simp [hedit])
  refine ((unedited_triple he).strengthen fun o d _ _ h k held hk => ?_).weaken
    fun _ _ _ _ _ h => h.final fun _ _ hsome => by cases hcall.symm.trans hsome
  exact (h k held hk).mono fun hf => hf.elim

theorem request_final (env : Env) (t : Request) :
    jobDiscipline.Triple t (fun o _ => Unedited False o) (t.call.program env t.now)
      fun _ o d => jobDiscipline.Final t o d := by
  cases hcall : t.call with
  | createNamedJob id job secrets =>
    exact .map (createNamedJob_final id job secrets (by rw [hcall]; rfl))
  | rollbackJobScriptVersion tenantID jobID versionID jobVersion remark =>
    exact .map (rollbackJobScriptVersion_final tenantID jobID versionID jobVersion remark
      (by rw [hcall]; rfl))
  | deleteJob tenantID id version =>
    exact .bind (deleteJob_final tenantID id version (by rw [hcall]; rfl))
      fun _ => .done
  | operation op =>
    by_cases hedit : editsJob op = true
    · cases op with
      | createJob job secrets => exact .map (createJob_final job secrets (by rw [hcall]; rfl))
      | updateJob job secrets => exact .map (updateJob_final job secrets (by rw [hcall]; rfl))
      | setJobEnabled tenantID id enabled version =>
        exact .map (setJobEnabled_final tenantID id enabled version (by rw [hcall]; rfl))
      | _ => cases hedit
    · refine operation_final op ?_ (by simpa using hedit)
      rw [hcall]
      cases op <;> first | rfl | exact absurd rfl hedit

theorem jobs_sound {m : EditorMachine}
    (hm : Machine.Reachable (anyEditor env) (fun _ _ _ => True) m) : jobDiscipline.Sound m := by
  refine Discipline.sound (fun _ _ id => ?_)
    (fun t d hd _ => request_final env t _ d hd (fun _ _ h => by cases h) (Unedited.empty False))
    (fun _ _ _ _ => ⟨fun _ _ _ _ _ => trivial, fun _ => trivial, fun _ _ _ => trivial⟩) hm
  exact ⟨fun _ h => (by cases h), 0, numbered_zero fun _ _ h => (by cases h), fun _ => rfl,
    fun _ h => by cases h⟩

end Requests

section Runs

variable {env : Env} {m m' : EditorMachine} {t : Request} {l : Label Request Key} {id v : ℕ}

def SameJob (id : ℕ) (m m' : EditorMachine) : Prop :=
  m'.store.committed.row (.job id) = m.store.committed.row (.job id) ∧
    SameRevisions id (versionRows m.store.committed) (versionRows m'.store.committed)

def NotCreated (id : ℕ) (m : EditorMachine) (_ : Label Request Key) (m' : EditorMachine) : Prop :=
  m.store.committed.row (.job id) = none → m'.store.committed.row (.job id) = none

/-- What holds of the jobs and their revisions in a machine, and of its next steps. -/
structure JobHistory (env : Env) (m : EditorMachine) : Prop where
  -- An edit changes rows only if it was made for the version its job has.
  edit : ∀ t m' id v, m.step (anyEditor env) (.finish t) = some m' →
    t.call.presented = some (id, v) → m'.store.committed.row = m.store.committed.row ∨
      ∃ j, m.store.committed.row (.job id) = some j ∧ j.version = v ∧ (SameJob id m m' ∨
        (∃ j', m'.store.committed.row (.job id) = some j' ∧ j'.version = v + 1) ∨
          m'.store.committed.row (.job id) = none)
  -- Once an edit for a version was made, no edit for that version changes anything.
  once : ∀ t m₁ id v, m.step (anyEditor env) (.finish t) = some m₁ →
    t.call.presented = some (id, v) → ¬SameJob id m m₁ →
      ∀ m₂, Machine.ReachableFrom (anyEditor env) (NotCreated id) m₁ m₂ →
        ∀ t' m₃, m₂.step (anyEditor env) (.finish t') = some m₃ →
          t'.call.presented = some (id, v) → m₃.store.committed.row = m₂.store.committed.row
  -- No other step changes the version or the script of a job, or its revisions.
  others : ∀ l m' id j, m.step (anyEditor env) l = some m' →
    m.store.committed.row (.job id) = some j →
    (∀ t v, l = .finish t → t.call.presented ≠ some (id, v)) →
      ∃ j', m'.store.committed.row (.job id) = some j' ∧ core j' = core j ∧
        SameRevisions id (versionRows m.store.committed) (versionRows m'.store.committed)
  -- The revisions are numbered from one on, and the last has the script of the job.
  revisions : ∀ id, ∃ n, Revisions (versionRows m.store.committed) id n ∧
    ∀ j, m.store.committed.row (.job id) = some j → j.scriptLanguage ≠ "" →
      Current (versionRows m.store.committed) id n j
  -- A revision is never modified; it is deleted with its job.
  fixed : ∀ l m' versionID x, m.step (anyEditor env) l = some m' →
    versionRows m.store.committed versionID = some x →
      versionRows m'.store.committed versionID = some x ∨
        versionRows m'.store.committed versionID = none ∧
          m'.store.committed.row (.job x.jobID) = none

theorem step_cases (hm : Machine.Reachable (anyEditor env) (fun _ _ _ => True) m)
    (hs : m.step (anyEditor env) l = some m') : m'.store.committed.row = m.store.committed.row ∨
      ∃ t o, l = .finish t ∧ o.Agrees m.store.committed ∧ Versioned t m.store.committed o ∧
        m'.store.committed = m.store.committed.overlay o := by
  rcases Machine.committed_cases hs with hsame | ⟨t, r, hl, hrun, hview⟩
  · exact .inl hsame
  · exact .inr ⟨t, m.store.own t, hl, m.store.own_agrees t,
      (jobs_sound hm).guarantee Discipline.answer_final hrun, hview⟩

theorem Versioned.sameRevisions {o : Overlay Row} {d : Db} (h : Versioned t d o) (ha : o.Agrees d)
    (hjob : ∀ b v, o (.job id) = some ⟨b, v⟩ → v.map Job.version = b.map Job.version) :
    SameRevisions id (versionRows d) (versionRows (d.overlay o)) := by
  intro versionID x hx
  unfold versionRows
  cases hk : o (.jobScriptVersion versionID) with
  | none => rw [Database.overlay_row_free hk]
  | some held =>
    obtain ⟨b, v⟩ := held
    rw [Database.overlay_row_held hk, ha _ _ hk]
    cases h.revisions versionID b v hk with
    | same => exact Iff.rfl
    | insert hheld hne =>
      refine ⟨fun heq => ?_, fun heq => by cases heq⟩
      cases heq
      exact absurd (hjob _ _ (hx ▸ hheld)) hne
    | delete hheld =>
      refine ⟨fun heq => (by cases heq), fun heq => ?_⟩
      cases heq
      cases hjob _ _ (hx ▸ hheld)

theorem SameJob.of_rows (h : m'.store.committed.row = m.store.committed.row) : SameJob id m m' := by
  refine ⟨congrFun h _, fun versionID x _ => ?_⟩
  unfold versionRows
  rw [h]

theorem edit_cases (hm : Machine.Reachable (anyEditor env) (fun _ _ _ => True) m)
    (hs : m.step (anyEditor env) (.finish t) = some m') (hcall : t.call.presented = some (id, v)) :
    m'.store.committed.row = m.store.committed.row ∨
      ∃ j, m.store.committed.row (.job id) = some j ∧ j.version = v ∧ (SameJob id m m' ∨
        (∃ j', m'.store.committed.row (.job id) = some j' ∧ j'.version = v + 1) ∨
          m'.store.committed.row (.job id) = none) := by
  rcases step_cases hm hs with hsame | ⟨t', o, hl, ha, hg, hview⟩
  · exact .inl hsame
  cases hl
  obtain ⟨j, w, hk, hversion⟩ := hg.checked id v hcall
  refine .inr ⟨j, ha _ _ hk, hversion, ?_⟩
  unfold SameJob
  rw [hview, Database.overlay_row_held hk, ha _ _ hk]
  cases hg.jobs id _ w hk with
  | same =>
    refine .inl ⟨rfl, hg.sameRevisions ha fun b' w' hbw => ?_⟩
    rw [hk] at hbw
    cases hbw
    rfl
  | rearm hnone => cases hnone.symm.trans hcall
  | @change _ j' _ hbumped => exact .inr (.inl ⟨j', rfl, by omega⟩)
  | delete => exact .inr (.inr rfl)

def Past (id v : ℕ) (m : EditorMachine) : Prop :=
  ∀ j, m.store.committed.row (.job id) = some j → v < j.version

theorem Past.step (h : Past id v m) (hm : Machine.Reachable (anyEditor env) (fun _ _ _ => True) m)
    (hs : m.step (anyEditor env) l = some m') (hnew : NotCreated id m l m') : Past id v m' := by
  intro j' hj'
  rcases step_cases hm hs with hsame | ⟨t', o, hl, ha, hg, hview⟩
  · rw [hsame] at hj'
    exact h j' hj'
  cases hrow : m.store.committed.row (.job id) with
  | none =>
    rw [hnew hrow] at hj'
    cases hj'
  | some j =>
    have hpast := h j hrow
    rw [hview] at hj'
    rcases ha.row_cases (.job id) with ⟨_, hsame⟩ | hk
    · rw [hsame, hrow] at hj'
      cases hj'
      exact hpast
    · rw [hrow, hj'] at hk
      cases hg.jobs id _ _ hk with
      | same => exact hpast
      | rearm _ hcore =>
        have hversion : j'.version = j.version := congrArg (fun c => c.2.1) (Option.some.inj hcore)
        omega
      | change _ hversion => omega

theorem Past.run (h : Past id v m) (hm : Machine.Reachable (anyEditor env) (fun _ _ _ => True) m)
    (hr : Machine.ReachableFrom (anyEditor env) (NotCreated id) m m') :
    Past id v m' ∧ Machine.Reachable (anyEditor env) (fun _ _ _ => True) m' := by
  induction hr with
  | refl => exact ⟨h, hm⟩
  | step _ hs hnew ih => exact ⟨ih.1.step ih.2 hs hnew, .step ih.2 hs trivial⟩

theorem others_keep (hm : Machine.Reachable (anyEditor env) (fun _ _ _ => True) m)
    (hs : m.step (anyEditor env) l = some m') {j : Job}
    (hj : m.store.committed.row (.job id) = some j)
    (hother : ∀ t v, l = .finish t → t.call.presented ≠ some (id, v)) :
    ∃ j', m'.store.committed.row (.job id) = some j' ∧ core j' = core j ∧
      SameRevisions id (versionRows m.store.committed) (versionRows m'.store.committed) := by
  rcases step_cases hm hs with hsame | ⟨t', o, hl, ha, hg, hview⟩
  · exact ⟨j, by rw [hsame]; exact hj, rfl, (SameJob.of_rows hsame).2⟩
  have hkept : ∀ b w, o (.job id) = some ⟨b, w⟩ → w.map core = b.map core := by
    intro b w hk
    have hb : b = some j := (ha _ _ hk).symm.trans hj
    subst hb
    cases hg.jobs id _ w hk with
    | same => rfl
    | rearm _ hcore => exact hcore
    | change hv => exact absurd hv (hother t' _ hl)
    | delete hv => exact absurd hv (hother t' _ hl)
  have hversions : SameRevisions id (versionRows m.store.committed)
      (versionRows (m.store.committed.overlay o)) := by
    refine hg.sameRevisions ha fun b w hk => ?_
    have hcore := congrArg (Option.map fun c : ℕ × ℕ × String × String => c.2.1) (hkept b w hk)
    simpa [core, Function.comp_def] using hcore
  rw [hview]
  rcases ha.row_cases (.job id) with ⟨_, hsame⟩ | hk
  · exact ⟨j, hsame.trans hj, rfl, hversions⟩
  · have hcore := hkept _ _ hk
    rw [hj] at hcore
    obtain ⟨j', hj', hcore'⟩ := Option.map_eq_some_iff.1 hcore
    exact ⟨j', hj', hcore', hversions⟩

theorem revision_fixed (hm : Machine.Reachable (anyEditor env) (fun _ _ _ => True) m)
    (hs : m.step (anyEditor env) l = some m') {versionID : ℕ} {x : JobScriptVersion}
    (hx : versionRows m.store.committed versionID = some x) :
    versionRows m'.store.committed versionID = some x ∨
      versionRows m'.store.committed versionID = none ∧
        m'.store.committed.row (.job x.jobID) = none := by
  rcases step_cases hm hs with hsame | ⟨t', o, hl, ha, hg, hview⟩
  · refine .inl ?_
    unfold versionRows at hx ⊢
    rw [hsame]
    exact hx
  rw [hview]
  unfold versionRows at hx ⊢
  rcases ha.row_cases (.jobScriptVersion versionID) with ⟨_, hsame⟩ | hk
  · exact .inl (hsame.trans hx)
  · rw [hx] at hk
    generalize (m.store.committed.overlay o).row (.jobScriptVersion versionID) = w at hk ⊢
    cases hg.revisions versionID _ w hk with
    | same => exact .inl rfl
    | delete hjob => exact .inr ⟨rfl, Database.overlay_row_held hjob⟩

/-- Under every interleaving an edit of a job takes effect for one version only, and the
revisions of its script are the numbers from one on, fixed, with the script of the job last. -/
theorem job_history (env : Env) (m : EditorMachine)
    (hm : Machine.Reachable (anyEditor env) (fun _ _ _ => True) m) : JobHistory env m where
  edit := fun _ _ _ _ hs hcall => edit_cases hm hs hcall
  once := by
    intro t m₁ id v hs hcall hchanged m₂ hr t' m₃ hs' hcall'
    have hpast : Past id v m₁ := by
      rcases edit_cases hm hs hcall with hsame | ⟨_, _, _, hsame | ⟨j', hj', hversion⟩ | hgone⟩
      · exact absurd (.of_rows hsame) hchanged
      · exact absurd hsame hchanged
      · intro q hq
        cases hj'.symm.trans hq
        omega
      · intro q hq
        rw [hgone] at hq
        cases hq
    obtain ⟨hpast₂, hm₂⟩ := hpast.run (.step hm hs trivial) hr
    rcases edit_cases hm₂ hs' hcall' with hsame | ⟨j, hj, rfl, _⟩
    · exact hsame
    · exact absurd (hpast₂ j hj) (lt_irrefl _)
  others := fun _ _ _ _ hs hj hother => others_keep hm hs hj hother
  revisions := fun id => by
    obtain ⟨n, hn, _, hcurrent⟩ := ((jobs_sound hm).inv id).revisions
    exact ⟨n, hn, hcurrent⟩
  fixed := fun _ _ _ _ hs hx => revision_fixed hm hs hx

def scriptJob (version : ℕ) (source : String) : Job :=
  { plainJob with id := 7, version, scriptLanguage := "bash", scriptSource := source }

def rolledBack : EditorMachine :=
  (Machine.init 5).perform (anyEditor plainEnv) 40
    [(0, ⟨0, 5, .operation (.createTenant 1 ⟨10⟩)⟩, 5),
      (0, ⟨1, 5, .createNamedJob 7 (scriptJob 0 "old") {}⟩, 5),
      (0, ⟨2, 5, .operation (.updateJob (scriptJob 1 "new") {})⟩, 5),
      (0, ⟨3, 5, .operation (.updateJob (scriptJob 1 "late") {})⟩, 5),
      (0, ⟨4, 5, .rollbackJobScriptVersion 1 7 2 2 ""⟩, 5)]

theorem rolledBack_history :
    (rolledBack.store.committed.row (.job 7)).map (fun j => (j.version, j.scriptSource)) =
        some (3, "old") ∧ JobHistory plainEnv rolledBack := by
  refine ⟨by decide +kernel, job_history plainEnv rolledBack ?_⟩
  exact (Machine.Reachable.init (by decide)).perform _ _

end Runs

end GoScheduler.Store.JobVersions
