import GoScheduler.ReadCommitted.Triples

/-! Memberships of users in tenants: `AddMembership` and `DeleteMembership` of
internal/store, statement by statement. Creation times are not modelled, and neither are
the creation and the removal of tenants and users. The key share lock that a foreign key
check takes is left out, so the model has more interleavings than the database. -/
namespace GoScheduler.Iam
open ReadCommitted

inductive Role where
  | owner
  | admin
  | developer
  | viewer
deriving DecidableEq, Repr

inductive MemberKey where
  | tenant (id : ℕ)
  | user (id : ℕ)
  | membership (tenantID userID : ℕ)
deriving DecidableEq, Repr

def MemberRow : MemberKey → Type
  | .tenant _ => Unit
  | .user _ => Unit
  | .membership _ _ => Role

inductive MemberError where
  | notFound
  | conflict
  | foreignKey
deriving DecidableEq, Repr

abbrev MemberDb : Type := Database MemberKey MemberRow
abbrev MemberTx (α : Type) : Type 1 := Program MemberKey MemberRow MemberError α

def memberRole (d : MemberDb) (tenantID userID : ℕ) : Option Role :=
  d.row (.membership tenantID userID)

def owners (tenantID : ℕ) (d : MemberDb) : List ℕ :=
  d.keys.filterMap fun k => match k with
    | .membership t u =>
        if t = tenantID ∧ memberRole d t u = some .owner then some u else none
    | _ => none

def Owned (tenantID : ℕ) (d : MemberDb) : Prop := ∃ u, memberRole d tenantID u = some .owner

def addMembership (tenantID userID : ℕ) (role : Role) : MemberTx Unit := do
  .exec (.upsert (V := MemberRow) (.membership tenantID userID) role fun _ => role)
  let present ← .exec (.select fun d : MemberDb =>
    (d.row (.tenant tenantID)).isSome && (d.row (.user userID)).isSome)
  if present then pure () else .fail .foreignKey

def deleteMembership (tenantID userID : ℕ) : MemberTx Unit := do
  match ← .exec (.lock (V := MemberRow) (.tenant tenantID) fun _ => true) with
  | none => .fail .notFound
  | some _ =>
      let count ← .exec (.select fun d : MemberDb => (owners tenantID d).length)
      match ← .exec (.select fun d : MemberDb => memberRole d tenantID userID) with
      | none => .fail .notFound
      | some role =>
          if role = .owner ∧ count ≤ 1 then .fail .conflict
          else do
            let _ ← .exec (.delete (V := MemberRow) (.membership tenantID userID) fun _ => true)
            pure ()

inductive MemberOperation where
  | addMembership (tenantID userID : ℕ) (role : Role)
  | deleteMembership (tenantID userID : ℕ)
deriving DecidableEq

/-- Calls are numbered, so the same operation can be issued any number of times. -/
structure MemberCall where
  serial : ℕ
  operation : MemberOperation
deriving DecidableEq

def MemberOperation.program : MemberOperation → MemberTx Unit
  | .addMembership tenantID userID role => Iam.addMembership tenantID userID role
  | .deleteMembership tenantID userID => Iam.deleteMembership tenantID userID

def memberSystem : System MemberCall MemberKey MemberRow MemberError Unit where
  program := fun c => c.operation.program
  admissible := fun _ _ => true

abbrev MemberMachine : Type 1 := Machine MemberCall MemberKey MemberRow MemberError Unit

section Owners

variable {a u : ℕ} {d : MemberDb}

theorem mem_owners : u ∈ owners a d ↔
    MemberKey.membership a u ∈ d.keys ∧ memberRole d a u = some .owner := by
  unfold owners
  rw [List.mem_filterMap]
  constructor
  · rintro ⟨k, hk, hu⟩
    cases k with
    | tenant | user => cases hu
    | membership t v =>
      dsimp only at hu
      split at hu
      · next h =>
          cases hu
          obtain ⟨rfl, hrow⟩ := h
          exact ⟨hk, hrow⟩
      · cases hu
  · rintro ⟨hk, hrow⟩
    exact ⟨_, hk, by simp [hrow]⟩

theorem owners_nodup (h : d.keys.Nodup) : (owners a d).Nodup := by
  unfold owners
  refine h.filterMap fun k k' u hu hu' => ?_
  cases k with
  | tenant | user => cases hu
  | membership t v =>
    cases k' with
    | tenant | user => cases hu'
    | membership t' v' =>
      dsimp only at hu hu'
      split at hu <;> split at hu' <;> simp_all

theorem exists_other_owner (hnodup : d.keys.Nodup) (h : 1 < (owners a d).length) (u : ℕ) :
    ∃ v, v ≠ u ∧ memberRole d a v = some .owner := by
  have hall : ¬ ∀ v ∈ owners a d, v = u := by
    intro hall
    have hrep := List.eq_replicate_of_mem hall
    have hlen := (owners_nodup (a := a) hnodup)
    rw [hrep, List.nodup_replicate] at hlen
    omega
  push Not at hall
  obtain ⟨v, hv, hne⟩ := hall
  exact ⟨v, hne, (mem_owners.1 hv).2⟩

end Owners

/-! The discipline of one tenant. While no owner is given another role, only the holder
of the tenant row takes owners away. -/

section LastOwner

variable (a : ℕ)

/-- No owner of the tenant is being given another role. -/
def KeepsRole (d : MemberDb) : MemberOperation → Prop
  | .addMembership tenantID userID role => tenantID = a → role ≠ Role.owner →
      memberRole d a userID ≠ some .owner
  | .deleteMembership _ _ => True

instance (d : MemberDb) (op : MemberOperation) : Decidable (KeepsRole a d op) := by
  unfold KeepsRole
  split <;> infer_instance

def StepKeepsRole (m : MemberMachine) (l : Label MemberCall MemberKey)
    (_ : MemberMachine) : Prop :=
  ∀ c inp, l = .exec c inp → KeepsRole a m.store.committed c.operation

def stepKeepsRole (m : MemberMachine) (l : Label MemberCall MemberKey)
    (_ : MemberMachine) : Bool :=
  match l with
  | .exec c _ => decide (KeepsRole a m.store.committed c.operation)
  | _ => true

theorem stepKeepsRole_sound {m m' : MemberMachine} {l : Label MemberCall MemberKey}
    (h : stepKeepsRole a m l m' = true) : StepKeepsRole a m l m' := by
  rintro c inp rfl
  exact of_decide_eq_true h

structure OwnersKept (d : MemberDb) (o : Overlay MemberRow) : Prop where
  owned : Owned a (d.overlay o)
  kept : o (.tenant a) = none → ∀ u, memberRole d a u = some .owner →
    memberRole (d.overlay o) a u = some .owner

def ownerDiscipline : Discipline MemberCall MemberKey MemberRow where
  inv := Owned a
  guarantee := fun _ => OwnersKept a
  pair := fun _ _ _ _ => True
  alone := fun _ _ _ => True
  reading := fun c d _ => KeepsRole a d c.operation
  inv_addKey := fun _ h => h
  inv_advance := fun _ h => h
  inv_commit := fun _ _ h => h.owned

def Harmless (o : Overlay MemberRow) : Prop :=
  ∀ u h, o (.membership a u) = some h → h.base = some Role.owner → h.version = some Role.owner

structure OtherOwner (u : ℕ) (o : Overlay MemberRow) (d : MemberDb) : Prop where
  held : o (.tenant a) ≠ none
  other : ∃ v, v ≠ u ∧ o (.membership a v) = none ∧ memberRole d a v = some .owner

variable {a} {c : MemberCall} {o : Overlay MemberRow} {d : MemberDb}

theorem Harmless.final (h : Harmless a o) : (ownerDiscipline a).Final c o d := by
  intro d' _ hinv hag
  have hkeep : ∀ u, memberRole d' a u = some .owner →
      memberRole (d'.overlay o) a u = some .owner := by
    intro u hu
    cases ho : o (.membership a u) with
    | none => exact (Database.overlay_row_free ho).trans hu
    | some held =>
      have hversion := h u held ho ((hag _ held ho).symm.trans hu)
      exact (Database.overlay_row_held ho).trans hversion
  obtain ⟨u, hu⟩ := hinv
  exact ⟨⟨u, hkeep u hu⟩, fun _ => hkeep⟩

theorem OtherOwner.stable (u : ℕ) : (ownerDiscipline a).Stable c (OtherOwner a u) := by
  intro o d d' hop h
  obtain ⟨v, hv, hfree, hrow⟩ := h.other
  refine ⟨h.held, v, hv, hfree, ?_⟩
  cases hop.interferes with
  | commit _ hd _ _ hg => exact hg.kept ((hd _).resolve_left h.held) v hrow
  | grow ws =>
    unfold memberRole
    rw [Database.addKeys_row]
    exact hrow
  | tick n => exact hrow

theorem OtherOwner.final {u : ℕ} (h : OtherOwner a u o d) :
    (ownerDiscipline a).Final c o d := by
  intro d' hl _ _
  obtain ⟨hheld, v, _, hfree, hrow⟩ := (OtherOwner.stable u).later hl h
  exact ⟨⟨v, (Database.overlay_row_free hfree).trans hrow⟩, fun hnone => absurd hnone hheld⟩

theorem addMembership_keeps (tenantID userID : ℕ) (role : Role)
    (hc : c.operation = .addMembership tenantID userID role) :
    (ownerDiscipline a).Triple c (fun o _ => o = Overlay.empty)
      (addMembership tenantID userID role) fun _ o _ => Harmless a o := by
  refine .bind (Q := fun _ o _ => Harmless a o) ?_ fun _ => .bind
    (.read (.overlay _)) fun present => ?_
  · refine .exec (.overlay _) fun o d _ hag _ ho inp busy r ws hrd heval _ _ => ?_
    have hkeeps : KeepsRole a d (.addMembership tenantID userID role) := hc ▸ hrd
    subst ho
    have hws : ws = [⟨.membership tenantID userID, some role⟩] := by
      simp only [Stmt.eval] at heval
      split at heval <;> cases heval <;> rfl
    subst hws
    intro u h hk hbase
    by_cases hu : MemberKey.membership a u = .membership tenantID userID
    · obtain ⟨rfl, rfl⟩ : a = tenantID ∧ u = userID := by simpa using hu
      have hself := Overlay.write_self_of_agrees hag (.membership a u) (some role)
      rw [Overlay.writeAll_cons, Overlay.writeAll_nil, hself] at hk
      cases hk
      by_contra hne
      exact hkeeps rfl (fun he => hne (congrArg some he)) hbase
    · rw [Overlay.writeAll_cons, Overlay.writeAll_nil, Overlay.write_ne hu] at hk
      cases hk
  · cases present with
    | true => exact fun _ _ _ _ h => h
    | false => exact .fail

def LockedTenant (tenantID : ℕ) (o : Overlay MemberRow) : Prop :=
  o (.tenant tenantID) ≠ none ∧ ∀ t u, o (.membership t u) = none

theorem LockedTenant.harmless {tenantID : ℕ} (h : LockedTenant tenantID o) : Harmless a o := by
  intro u held hk
  rw [h.2] at hk
  cases hk

theorem harmless_delete {tenantID u : ℕ} (h : LockedTenant tenantID o) (hne : a ≠ tenantID) :
    Harmless a (o.write d (.membership tenantID u) none) := by
  intro v held hk
  rw [Overlay.write_ne (by simp [hne]), h.2] at hk
  cases hk

theorem otherOwner_delete {u : ℕ} (h : OtherOwner a u o d) :
    OtherOwner a u (o.write d (.membership a u) none) (d.addKey (.membership a u)) := by
  obtain ⟨hheld, v, hv, hfree, hrow⟩ := h
  refine ⟨?_, v, hv, ?_, hrow⟩
  · rwa [Overlay.write_ne (by simp)]
  · rwa [Overlay.write_ne (by simp [hv])]

def MayDelete (a tenantID userID : ℕ) (allowed : Prop) (o : Overlay MemberRow)
    (d : MemberDb) : Prop :=
  LockedTenant tenantID o ∧ (a = tenantID → allowed → OtherOwner a userID o d)

theorem MayDelete.stable (tenantID userID : ℕ) (allowed : Prop) :
    (ownerDiscipline a).Stable c (MayDelete a tenantID userID allowed) :=
  .and (.overlay _) (.given fun _ => .given fun _ => OtherOwner.stable userID)

theorem mayDelete_count {tenantID userID : ℕ} (hnodup : d.keys.Nodup)
    (hl : LockedTenant tenantID o) :
    MayDelete a tenantID userID (1 < (owners tenantID (d.overlay o)).length) o d := by
  refine ⟨hl, ?_⟩
  rintro rfl hn
  obtain ⟨v, hv, hrow⟩ := exists_other_owner (d := d.overlay o) hnodup hn userID
  exact ⟨hl.1, v, hv, hl.2 a v, (Database.overlay_row_free (hl.2 a v)).symm.trans hrow⟩

theorem mayDelete_role {tenantID userID n : ℕ} (hinv : Owned a d)
    (h : MayDelete a tenantID userID (1 < n) o d) :
    MayDelete a tenantID userID
      (¬ (memberRole (d.overlay o) tenantID userID = some .owner ∧ n ≤ 1)) o d := by
  refine ⟨h.1, ?_⟩
  rintro rfl hallowed
  by_cases hn : 1 < n
  · exact h.2 rfl hn
  · obtain ⟨v, hv⟩ := hinv
    refine ⟨h.1.1, v, ?_, h.1.2 a v, hv⟩
    rintro rfl
    exact hallowed ⟨(Database.overlay_row_free (h.1.2 a v)).trans hv, by omega⟩

theorem deleteMembership_keeps (tenantID userID : ℕ) :
    (ownerDiscipline a).Triple c (fun o _ => o = Overlay.empty)
      (deleteMembership tenantID userID) fun _ => (ownerDiscipline a).Final c := by
  refine .bind (Q := fun r o _ => r ≠ none → LockedTenant tenantID o) ?_ fun r => ?_
  · refine .lock (.overlay _) (fun _ _ _ _ _ _ h => absurd rfl h) ?_
    rintro o d v _ hag rfl _ _ _ _
    refine ⟨by simp [Overlay.write_self], fun t u => ?_⟩
    rw [Overlay.write_ne (by simp)]
    rfl
  cases r with
  | none => exact .fail
  | some v =>
    refine .bind (.select (Q := fun n => MayDelete a tenantID userID (1 < n)) (.overlay _)
      fun o d _ _ hc hl => mayDelete_count hc.nodup (hl (by simp))) fun n => ?_
    refine .bind (.select (Q := fun role => MayDelete a tenantID userID
      (¬ (role = some .owner ∧ n ≤ 1))) (MayDelete.stable _ _ _)
      fun o d hinv _ _ h => mayDelete_role hinv h) fun role => ?_
    cases role with
    | none => exact .fail
    | some role =>
      dsimp only
      split
      · exact .fail
      · next hallowed =>
          refine .bind (.delete (MayDelete.stable _ _ _)
            (Q := fun _ => (ownerDiscipline a).Final c) ?_ ?_) fun _ _ _ _ _ h => h
          · exact fun o d _ _ h _ => h.1.harmless.final
          · intro o d v _ _ h _ _ _
            by_cases ha : a = tenantID
            · subst ha
              exact (otherOwner_delete (h.2 rfl (by simpa using hallowed))).final
            · exact (harmless_delete h.1 ha).final

theorem operation_keeps (c : MemberCall) : (ownerDiscipline a).Triple c
    (fun o _ => o = Overlay.empty) c.operation.program
      fun _ => (ownerDiscipline a).Final c := by
  cases hc : c.operation with
  | addMembership tenantID userID role =>
    exact (addMembership_keeps tenantID userID role hc).weaken fun _ _ _ _ _ h => h.final
  | deleteMembership tenantID userID => exact deleteMembership_keeps tenantID userID

/-- In a run in which no owner of the tenant is given another role, the tenant keeps an
owner from any state in which it has one. -/
theorem tenant_keeps_owner (a : ℕ) {m₀ m : MemberMachine} (hrest : m₀.AtRest)
    (howned : Owned a m₀.store.committed)
    (hrun : Machine.ReachableFrom memberSystem (StepKeepsRole a) m₀ m) :
    Owned a m.store.committed := by
  refine (Discipline.SoundFor.run (D := ownerDiscipline a) Discipline.answer_final ?_ ?_
    (.of_atRest hrest howned) hrun).inv
  · exact fun c d hinv _ => operation_keeps c _ d hinv (fun _ _ h => by cases h) rfl
  · exact fun m l m' hok => ⟨fun _ _ _ _ _ => trivial, fun _ => trivial, hok⟩

def soleOwner : MemberMachine := .loaded 0 ⟨0, .deleteMembership 0 0⟩
  [⟨.tenant 1, some ()⟩, ⟨.user 7, some ()⟩, ⟨.user 8, some ()⟩, ⟨.membership 1 7, some Role.owner⟩]

theorem soleOwner_owned : Owned 1 soleOwner.store.committed := ⟨7, by decide +kernel⟩

def MemberCall.steps (c : MemberCall) (statements : ℕ) : List (Label MemberCall MemberKey) :=
  .begin c :: List.replicate statements (.exec c ⟨0, 0, []⟩) ++ [.finish c]

theorem not_owned_of_owners {m : MemberMachine} (h : (owners a m.store.committed).isEmpty = true) :
    ¬ Owned a m.store.committed := by
  rintro ⟨u, hu⟩
  have hmem : u ∈ owners a m.store.committed := mem_owners.2 ⟨Store.mem_keys_of_row hu, hu⟩
  rw [List.isEmpty_iff.1 h] at hmem
  cases hmem

/-- Giving the only owner another role leaves the tenant without an owner. -/
theorem last_owner_demoted : ¬ ∀ (a : ℕ) (m₀ m : MemberMachine), m₀.AtRest →
    Owned a m₀.store.committed →
    Machine.ReachableFrom memberSystem (fun _ _ _ => True) m₀ m → Owned a m.store.committed := by
  intro hclaim
  obtain ⟨m, hreach, hnone⟩ : ∃ m, Machine.ReachableFrom memberSystem (fun _ _ _ => True)
      soleOwner m ∧ (owners 1 m.store.committed).isEmpty = true :=
    Machine.exists_reachableFrom (fun _ _ _ => true) (fun _ _ _ _ => trivial)
      (MemberCall.steps ⟨1, .addMembership 1 7 .viewer⟩ 2)
      (fun m => (owners 1 m.store.committed).isEmpty) (by decide +kernel)
  exact not_owned_of_owners hnone
    (hclaim 1 _ m (Machine.atRest_loaded _ _ _) soleOwner_owned hreach)

theorem tenant_keeps_owner_succession : ∃ m : MemberMachine,
    memberRole m.store.committed 1 7 = none ∧ Owned 1 m.store.committed := by
  obtain ⟨m, hreach, hnone⟩ : ∃ m, Machine.ReachableFrom memberSystem (StepKeepsRole 1)
      soleOwner m ∧ (memberRole m.store.committed 1 7).isNone = true :=
    Machine.exists_reachableFrom (stepKeepsRole 1) (fun _ _ _ => stepKeepsRole_sound 1)
      (MemberCall.steps ⟨1, .addMembership 1 8 .owner⟩ 2 ++
        MemberCall.steps ⟨2, .deleteMembership 1 7⟩ 4)
      (fun m => (memberRole m.store.committed 1 7).isNone) (by decide +kernel)
  exact ⟨m, Option.isNone_iff_eq_none.1 hnone, tenant_keeps_owner 1
    (Machine.atRest_loaded _ _ _) soleOwner_owned hreach⟩

end LastOwner

end GoScheduler.Iam
