import GoScheduler.Notification.Channels

/-! An event is published when the last of its deliveries has ended. Who ends a delivery
decides from his own snapshot whether it was the last one, so the property needs two
conditions on the run: deliveries of one event are not ended by two open transactions, and
a fan-out does not take up an event that has got deliveries since its snapshot. -/
namespace GoScheduler.Notification
open ReadCommitted Queue

def statusOf (d : Db) (e c : ℕ) : Option DeliveryStatus :=
  (d.row (.delivery e c)).map fun x => x.lease.status

def publication (d : Db) (e : ℕ) : Option (Option Int) :=
  (d.row (.event e)).map OutboxEvent.publishedAt

/-- An event with deliveries is published exactly when none of them is pending. -/
def PublishedExactly (e : ℕ) (d : Db) : Prop :=
  (∃ c, statusOf d e c ≠ none) →
    ((∃ p, publication d e = some (some p)) ↔ ∀ c, statusOf d e c ≠ some .pending)

structure Consistent (e : ℕ) (d : Db) : Prop where
  exact : PublishedExactly e d
  event : (∃ c, statusOf d e c ≠ none) → publication d e ≠ none

structure SameEvent (e : ℕ) (d d' : Db) : Prop where
  status : ∀ c, statusOf d' e c = statusOf d e c
  publication : publication d' e = publication d e

structure Untouched (e : ℕ) (o : Overlay Row) : Prop where
  delivery : ∀ c h, o (.delivery e c) = some h →
    h.version.map (fun x => x.lease.status) = h.base.map fun x => x.lease.status
  event : ∀ h, o (.event e) = some h →
    h.version.map OutboxEvent.publishedAt = h.base.map OutboxEvent.publishedAt

/-- A transaction ends deliveries of the event: it holds one that it has ended, or a sweep
has found one. -/
def Ends (e : ℕ) (t : Call) (o : Overlay Row) : Prop :=
  o (.sweep e t.serial) ≠ none ∨
    ∃ c x y, o (.delivery e c) = some ⟨some x, some y⟩ ∧ x.pending = true ∧ y.pending = false

def NoDelivery (e : ℕ) (d : Db) : Prop := ∀ c, statusOf d e c = none

variable {e c : ℕ} {o o' : Overlay Row} {d d' : Db} {t : Call}

section Frame

theorem Consistent.same (h : Consistent e d) (hs : SameEvent e d d') : Consistent e d' := by
  have hany : (∃ c, statusOf d' e c ≠ none) → ∃ c, statusOf d e c ≠ none := by
    rintro ⟨c, hc⟩
    exact ⟨c, by rwa [← hs.status c]⟩
  constructor
  · intro hc
    rw [hs.publication, h.exact (hany hc)]
    simp only [hs.status]
  · intro hc
    rw [hs.publication]
    exact h.event (hany hc)

theorem Untouched.same (h : Untouched e o) (ha : o.Agrees d) : SameEvent e d (d.overlay o) := by
  constructor
  · intro c
    unfold statusOf
    cases ho : o (.delivery e c) with
    | none => rw [Database.overlay_row_free ho]
    | some held => rw [Database.overlay_row_held ho, h.delivery c held ho, ha _ _ ho]
  · unfold publication
    cases ho : o (.event e) with
    | none => rw [Database.overlay_row_free ho]
    | some held => rw [Database.overlay_row_held ho, h.event held ho, ha _ _ ho]

/-- What is the same for the committed rows is the same for a transaction that holds some. -/
theorem SameEvent.overlay (h : SameEvent e d d') (o : Overlay Row) :
    SameEvent e (d.overlay o) (d'.overlay o) := by
  constructor
  · intro c
    unfold statusOf
    cases ho : o (.delivery e c) with
    | none =>
      rw [Database.overlay_row_free ho, Database.overlay_row_free ho]
      exact h.status c
    | some held => rw [Database.overlay_row_held ho, Database.overlay_row_held ho]
  · unfold Notification.publication
    cases ho : o (.event e) with
    | none =>
      rw [Database.overlay_row_free ho, Database.overlay_row_free ho]
      exact h.publication
    | some held => rw [Database.overlay_row_held ho, Database.overlay_row_held ho]

theorem SameEvent.of_rows (h : d'.row = d.row) : SameEvent e d d' :=
  ⟨fun c => by rw [statusOf, statusOf, h],
    by rw [Notification.publication, Notification.publication, h]⟩

end Frame

def EventKept (t : Call) (d : Db) (o : Overlay Row) (e : ℕ) : Prop :=
  Untouched e o ∨ ((Ends e t o ∨ NoDelivery e d) ∧ Consistent e (d.overlay o))

def FreshFanOut (t : Call) (d : Db) (o : Overlay Row) : Prop :=
  ∀ limit, t.operation = .prepareNotificationDeliveries limit →
    ∀ e, o (.event e) ≠ none → NoDelivery e d

def publicationDiscipline : Discipline Call Key Row where
  inv := fun d => ∀ e, Consistent e d
  guarantee := fun t d o => ∀ e, EventKept t d o e
  pair := fun t o t' o' => ∀ e, Ends e t o → ¬ Ends e t' o'
  alone := FreshFanOut
  reading := fun _ _ _ => True
  inv_addKey := fun _ h e => (h e).same (.of_rows rfl)
  inv_advance := fun _ h e => (h e).same (.of_rows rfl)
  inv_commit := fun h ha hg e => (hg e).elim (fun hu => (h e).same (hu.same ha)) And.right

section Stability

structure Ending (e : ℕ) (t : Call) (o : Overlay Row) (d : Db) : Prop where
  ends : Ends e t o
  present : ∃ c, statusOf d e c ≠ none

theorem Ending.hop (h : Ending e t o d) (hop : publicationDiscipline.Hop t o d d') :
    SameEvent e d d' := by
  cases hop.interferes with
  | grow ws => exact .of_rows (Database.addKeys_row _ _)
  | tick n => exact .of_rows rfl
  | @commit t' o' _ _ hp ha hg =>
    cases hg e with
    | inl hu => exact hu.same ha
    | inr hother =>
      cases hother.1 with
      | inl hends => exact absurd hends (hp e h.ends)
      | inr hno =>
        obtain ⟨c, hc⟩ := h.present
        exact absurd (hno c) hc

theorem Ending.same (h : Ending e t o d) (hs : SameEvent e d d') : Ending e t o d' :=
  ⟨h.ends, h.present.imp fun c hc => by rwa [hs.status c]⟩

/-- An assertion about the event, as committed and as the transaction sees it, that holds
while the transaction ends deliveries of the event. -/
theorem Ending.stable {A : Db → Db → Prop}
    (hA : ∀ d₁ d₂ v₁ v₂, SameEvent e d₁ d₂ → SameEvent e v₁ v₂ → A d₁ v₁ → A d₂ v₂) :
    publicationDiscipline.Stable t fun o d => Ending e t o d ∧ A d (d.overlay o) :=
  fun o _ _ hop h => ⟨h.1.same (h.1.hop hop),
    hA _ _ _ _ (h.1.hop hop) ((h.1.hop hop).overlay o) h.2⟩

structure Settled (es : List ℕ) (t : Call) (o : Overlay Row) (d : Db) : Prop where
  ended : ∀ e ∈ es, Ending e t o d ∧ Consistent e (d.overlay o)
  others : ∀ e, e ∉ es → Untouched e o

theorem Settled.stable (es : List ℕ) : publicationDiscipline.Stable t (Settled es t) :=
  fun o d d' hop h => ⟨fun e he => Ending.stable (A := fun _ v => Consistent e v)
    (fun _ _ _ _ _ hv hc => hc.same hv) o d d' hop (h.ended e he), h.others⟩

theorem Settled.final {es : List ℕ} (h : Settled es t o d) :
    publicationDiscipline.Final t o d := by
  intro d' hl _ _ e
  have h' := (Settled.stable es).later hl h
  by_cases he : e ∈ es
  · exact .inr ⟨.inl (h'.ended e he).1.ends, (h'.ended e he).2⟩
  · exact .inl (h'.others e he)

def Calm (o : Overlay Row) : Prop := ∀ e, Untouched e o

theorem Calm.final (h : Calm o) : publicationDiscipline.Final t o d := by
  have hsettled : Settled [] t o d := ⟨fun _ he => (by cases he), fun e _ => h e⟩
  exact hsettled.final

end Stability

section Calm

def Key.eventWork : Key → Bool
  | .delivery _ _ | .event _ | .sweep _ _ => true
  | _ => false

theorem Calm.blind : Discipline.Blind Key.eventWork fun o (_ : Db) => Calm o := by
  intro o o' d d' hkeys _ h e
  refine ⟨fun c held hk => (h e).delivery c held ?_, fun held hk => (h e).event held ?_⟩
  · rw [← hkeys _ rfl, hk]
  · rw [← hkeys _ rfl, hk]

theorem calm_empty : Calm Overlay.empty :=
  fun _ => ⟨fun _ _ h => (by cases h), fun _ h => (by cases h)⟩

theorem Calm.delivery (h : Calm o) (ha : o.Agrees d) {x x' : NotificationDelivery}
    (hrow : (d.overlay o).row (.delivery e c) = some x)
    (hstatus : x'.lease.status = x.lease.status) :
    Calm (o.write d (.delivery e c) (some x')) := by
  intro e'
  refine ⟨fun c' held hk => ?_, fun held hk => ?_⟩
  · by_cases hkey : Key.delivery e' c' = .delivery e c
    · cases hkey
      rw [Overlay.write_self_of_agrees ha] at hk
      cases hk
      have hsame := ((h e).same ha).status c
      rw [statusOf, hrow] at hsame
      exact (congrArg some hstatus).trans hsame
    · rw [Overlay.write_ne hkey] at hk
      exact (h e').delivery c' held hk
  · rw [Overlay.write_ne (by simp)] at hk
    exact (h e').event held hk

theorem Calm.locks (h : Calm o) (ha : o.Agrees d) (ks : List Key) :
    Calm (o.writeAll d (lockWrites (d.overlay o) ks)) := by
  have hkeys := Overlay.writeAll_lockWrites ha ks
  intro e
  refine ⟨fun c held hk => ?_, fun held hk => ?_⟩
  · rw [hkeys] at hk
    split at hk
    · cases hk
      exact ((h e).same ha).status c
    · exact (h e).delivery c held hk
  · rw [hkeys] at hk
    split at hk
    · cases hk
      exact ((h e).same ha).publication
    · exact (h e).event held hk

theorem retryNotificationDelivery_calm (now : Int) (owner : String) (delivery : ℕ × ℕ)
    (message : Text.Bytes) (delay : Int) :
    publicationDiscipline.Triple t (fun o _ => Calm o)
      (retryNotificationDelivery now owner delivery message delay) fun _ o _ => Calm o := by
  refine .bind (.update (Q := fun _ o _ => Calm o) (.overlay _) (fun _ _ _ _ h _ => h)
    fun _ _ _ _ ha h hrow _ _ => h.delivery ha hrow rfl) fun r => ?_
  cases r with
  | none => exact .fail
  | some x => exact .done

theorem claimNotificationDeliveries_calm (now : Int) (owner : String) (limit : ℕ) :
    publicationDiscipline.Triple t (fun o _ => Calm o)
      (claimNotificationDeliveries now owner limit) fun _ o _ => Calm o := by
  refine .bind (.read (.overlay _))
    fun snapshot => ?_
  refine .bind (.skipLocked (Q := fun _ o _ => Calm o) (.overlay _)
    fun _ _ _ _ ha _ h _ _ => h.locks ha _) fun picked => ?_
  refine Discipline.Triple.foldEach (J := fun _ _ o _ => Calm o) (fun x xs acc => ?_) picked []
  refine .bind (.update (Q := fun _ o _ => Calm o) (.overlay _) (fun _ _ _ _ h _ => h)
    fun _ _ _ _ ha h hrow _ _ => h.delivery ha hrow rfl) fun r => ?_
  cases r with
  | none => exact .done
  | some y =>
    dsimp only
    split
    · exact .done
    · exact .done

theorem createNotificationChannel_calm (id : ℕ) (channel : NotificationChannel)
    (jobIDs : List ℕ) : publicationDiscipline.Triple t (fun o _ => Calm o)
      (createNotificationChannel id channel jobIDs) fun _ o _ => Calm o := by
  unfold createNotificationChannel
  split
  · exact .fail
  refine .bind (validateNotificationChannelJobs_keeps (.overlay _) channel jobIDs) fun _ => ?_
  refine .bind (insertRow_blind (k := .channel id) (.overlay _) Calm.blind rfl _) fun _ => ?_
  exact .forEach fun jobID _ => insertRow_blind (k := .channelJob id jobID) (.overlay _)
    Calm.blind rfl ()

theorem updateNotificationChannel_calm (id : ℕ) (channel : NotificationChannel)
    (jobIDs : List ℕ) : publicationDiscipline.Triple t (fun o _ => Calm o)
      (updateNotificationChannel id channel jobIDs) fun _ o _ => Calm o := by
  unfold updateNotificationChannel
  split
  · exact .fail
  refine .bind (validateNotificationChannelJobs_keeps (.overlay _) channel jobIDs) fun _ => ?_
  refine .bind (.update (Q := fun _ o _ => Calm o) (.overlay _) (fun _ _ _ _ h _ => h)
    fun _ _ _ _ _ h _ _ _ => Calm.blind.write rfl _ h) fun r => ?_
  cases r with
  | none => exact .fail
  | some n => exact rebind_blind (.overlay _) Calm.blind id (fun _ => rfl) jobIDs

end Calm

section Finish

structure Finished (e : ℕ) (t : Call) (o : Overlay Row) (d : Db) : Prop where
  ending : Ending e t o d
  unpublished : publication d e = some none
  free : ∀ e', o (.event e') = none
  others : ∀ e', e' ≠ e → Untouched e' o

theorem unpublished_of_pending (hinv : Consistent e d) (h : statusOf d e c = some .pending) :
    publication d e = some none := by
  have hc : ∃ c, statusOf d e c ≠ none := ⟨c, by simp [h]⟩
  cases hp : publication d e with
  | none => exact absurd hp (hinv.event hc)
  | some p =>
    cases p with
    | none => rfl
    | some p => exact absurd h ((hinv.exact hc).1 ⟨p, hp⟩ c)

theorem Finished.stable {A : Db → Prop} (hA : ∀ v₁ v₂, SameEvent e v₁ v₂ → A v₁ → A v₂) :
    publicationDiscipline.Stable t fun o d => Finished e t o d ∧ A (d.overlay o) := by
  intro o d d' hop h
  have hs := h.1.ending.hop hop
  exact ⟨⟨h.1.ending.same hs, hs.publication.trans h.1.unpublished, h.1.free, h.1.others⟩,
    hA _ _ (hs.overlay o) h.2⟩

theorem Finished.settled_pending (h : Finished e t o d)
    (hp : ∃ c, statusOf (d.overlay o) e c = some .pending) : Settled [e] t o d := by
  have hpub : publication (d.overlay o) e = some none := by
    rw [publication, Database.overlay_row_free (h.free e)]
    exact h.unpublished
  refine ⟨fun e' he => ?_, fun e' he => h.others e' (by simpa using he)⟩
  rw [List.mem_singleton.1 he]
  refine ⟨h.ending, fun _ => ⟨?_, fun hall => ?_⟩, fun _ => by simp [hpub]⟩
  · rintro ⟨p, hp'⟩
    rw [hpub] at hp'
    cases hp'
  · obtain ⟨c, hc⟩ := hp
    exact absurd hc (hall c)

theorem publication_write (now : Int) (x : OutboxEvent) :
    publication ((d.addKey (.event e)).overlay (o.write d (.event e) (some (x.publish now)))) e =
      some (some now) := by
  rw [publication, Database.overlay_write_self]
  rfl

theorem statusOf_write_event (e' : ℕ) (v : Option OutboxEvent) (c : ℕ) :
    statusOf ((d.addKey (.event e)).overlay (o.write d (.event e) v)) e' c =
      statusOf (d.overlay o) e' c := by
  rw [statusOf, Database.overlay_write_ne (by simp)]
  rfl

theorem Finished.settled_published (h : Finished e t o d) (now : Int) (x : OutboxEvent)
    (hp : ∀ c, statusOf (d.overlay o) e c ≠ some .pending) :
    Settled [e] t (o.write d (.event e) (some (x.publish now))) (d.addKey (.event e)) := by
  have hends : Ends e t (o.write d (.event e) (some (x.publish now))) := by
    unfold Ends
    rw [Overlay.write_ne (by simp)]
    refine h.ending.ends.imp_right ?_
    rintro ⟨c, x', y, hx, hrest⟩
    exact ⟨c, x', y, by rw [Overlay.write_ne (by simp), hx], hrest⟩
  refine ⟨fun e' he => ?_, fun e' he => ?_⟩
  · rw [List.mem_singleton.1 he]
    have hpub := publication_write (d := d) (o := o) (e := e) now x
    refine ⟨⟨hends, h.ending.present⟩, fun _ => ⟨fun _ c => ?_, fun _ => ⟨now, hpub⟩⟩,
      fun _ => by simp [hpub]⟩
    rw [statusOf_write_event]
    exact hp c
  · have hne : e' ≠ e := by simpa using he
    refine ⟨fun c held hk => ?_, fun held hk => ?_⟩
    · rw [Overlay.write_ne (by simp)] at hk
      exact (h.others e' hne).delivery c held hk
    · rw [Overlay.write_ne (by simpa using hne)] at hk
      exact (h.others e' hne).event held hk

theorem finished_write (hinv : ∀ e, Consistent e d)
    {x : NotificationDelivery} (hrow : d.row (.delivery e c) = some x) (hx : x.pending = true)
    {y : NotificationDelivery} (hy : y.pending = false) :
    Finished e t ((Overlay.empty : Overlay Row).write d (.delivery e c) (some y))
      (d.addKey (.delivery e c)) := by
  have hpending : statusOf d e c = some .pending := by
    rw [statusOf, hrow]
    simpa [NotificationDelivery.pending] using hx
  refine ⟨⟨.inr ⟨c, x, y, ?_, hx, hy⟩, c, ?_⟩, ?_, ?_, ?_⟩
  · rw [Overlay.write_self]
    exact congrArg some (congrArg (Held.mk · _) hrow)
  · change statusOf d e c ≠ none
    simp [hpending]
  · change publication d e = some none
    exact unpublished_of_pending (hinv e) hpending
  · intro e'
    rw [Overlay.write_ne (by simp)]
    rfl
  · intro e' he'
    refine ⟨fun c' held hk => ?_, fun held hk => ?_⟩
    · rw [Overlay.write_ne (by simp [he'])] at hk
      cases hk
    · rw [Overlay.write_ne (by simp)] at hk
      cases hk

theorem any_pending (hc : o.Covered d) :
    ((deliveries (d.overlay o)).any fun x => x.1 == e && x.2.2.lease.status == .pending) = true ↔
      ∃ c, statusOf (d.overlay o) e c = some .pending := by
  rw [List.any_eq_true]
  constructor
  · rintro ⟨⟨e', c, x⟩, hx, hp⟩
    rw [Bool.and_eq_true] at hp
    have he : e' = e := by simpa using hp.1
    subst he
    refine ⟨c, ?_⟩
    rw [statusOf, (mem_deliveries.1 hx).2]
    simpa using hp.2
  · rintro ⟨c, hcs⟩
    rw [statusOf, Option.map_eq_some_iff] at hcs
    obtain ⟨x, hx, hs⟩ := hcs
    exact ⟨(e, c, x), mem_deliveries.2 ⟨hc.mem_keys hx, hx⟩, by simp [hs]⟩

theorem finishNotificationDelivery_settles (now : Int) (owner : String) (delivery : ℕ × ℕ)
    (eventID : ℕ) (status : DeliveryStatus) (hstatus : status ≠ .pending) (message : Text.Bytes) :
    publicationDiscipline.Triple t (fun o _ => o = Overlay.empty)
      (finishNotificationDelivery now owner delivery eventID status message)
      fun _ => publicationDiscipline.Final t := by
  have hplain : publicationDiscipline.Stable t fun o d => Finished eventID t o d ∧ True :=
    Finished.stable (A := fun _ => True) fun _ _ _ h => h
  refine .bind (.update (Q := fun r o d => r ≠ none → Finished eventID t o d ∧ True) (.overlay _)
    (fun _ _ _ _ _ _ h => absurd rfl h) ?_) fun r => ?_
  · rintro o d x hinv _ rfl hrow hp _ _
    rw [Bool.and_eq_true] at hp
    have he : delivery.1 = eventID := by simpa using hp.1
    have hx : x.pending = true := by
      simpa [NotificationDelivery.pending] using Leased.heldBy_pending hp.2
    refine ⟨he ▸ finished_write hinv hrow hx ?_, trivial⟩
    simpa [NotificationDelivery.pending, NotificationDelivery.finish, Leased.finish] using hstatus
  cases r with
  | none => exact .fail
  | some x =>
    refine .bind ((Discipline.Triple.select (A := fun o d => Finished eventID t o d ∧ True)
      (Q := fun pending o d => Finished eventID t o d ∧
        (pending = true ↔ ∃ c, statusOf (d.overlay o) eventID c = some .pending)) hplain
      fun _ _ _ _ hc h => ⟨h.1, any_pending hc⟩).strengthen fun _ _ _ _ h => h (by simp))
      fun pending => ?_
    cases pending with
    | true => exact .pure fun o d _ _ h => (h.1.settled_pending (h.2.1 rfl)).final
    | false =>
      refine .bind (.update (Q := fun _ => publicationDiscipline.Final t)
        (Finished.stable (A := fun v => (false = true ↔
          ∃ c, statusOf v eventID c = some .pending)) fun _ _ hs h => ?_) ?_ ?_)
        fun _ => .done
      · simpa only [hs.status] using h
      · intro o d _ _ h hnone
        have hrow := h.1.unpublished
        rw [publication, ← Database.overlay_row_free (h.1.free eventID),
          Option.map_eq_some_iff] at hrow
        obtain ⟨x, hx, _⟩ := hrow
        cases hnone x hx
      · intro o d x _ _ h _ _ _
        refine (h.1.settled_published now x fun c hc => ?_).final
        cases h.2.2 ⟨c, hc⟩

end Finish

section Sweep

theorem statusOf_write_self {y : NotificationDelivery} :
    statusOf ((d.addKey (.delivery e c)).overlay (o.write d (.delivery e c) (some y))) e c =
      some y.lease.status := by
  rw [statusOf, Database.overlay_write_self]
  rfl

theorem statusOf_write_ne {v : Option NotificationDelivery} {e' c' : ℕ}
    (h : e' ≠ e ∨ c' ≠ c) :
    statusOf ((d.addKey (.delivery e c)).overlay (o.write d (.delivery e c) v)) e' c' =
      statusOf (d.overlay o) e' c' := by
  have hkey : Key.delivery e' c' ≠ .delivery e c := by
    intro hk
    cases hk
    simp at h
  rw [statusOf, Database.overlay_write_ne hkey]
  rfl

theorem publication_write_delivery {v : Option NotificationDelivery} (e' : ℕ) :
    publication ((d.addKey (.delivery e c)).overlay (o.write d (.delivery e c) v)) e' =
      publication (d.overlay o) e' := by
  rw [publication, Database.overlay_write_ne (by simp)]
  rfl

theorem publication_write_ne {v : Option OutboxEvent} {e' : ℕ} (h : e' ≠ e) :
    publication ((d.addKey (.event e)).overlay (o.write d (.event e) v)) e' =
      publication (d.overlay o) e' := by
  rw [publication, Database.overlay_write_ne (by simpa using h)]
  rfl

theorem Untouched.write_delivery {e' : ℕ} (h : Untouched e' o) (hne : e' ≠ e)
    (v : Option NotificationDelivery) : Untouched e' (o.write d (.delivery e c) v) := by
  refine ⟨fun c' held hk => ?_, fun held hk => ?_⟩
  · rw [Overlay.write_ne (by simp [hne])] at hk
    exact h.delivery c' held hk
  · rw [Overlay.write_ne (by simp)] at hk
    exact h.event held hk

theorem Untouched.write_event {e' : ℕ} (h : Untouched e' o) (hne : e' ≠ e)
    (v : Option OutboxEvent) : Untouched e' (o.write d (.event e) v) := by
  refine ⟨fun c' held hk => ?_, fun held hk => ?_⟩
  · rw [Overlay.write_ne (by simp)] at hk
    exact h.delivery c' held hk
  · rw [Overlay.write_ne (by simpa using hne)] at hk
    exact h.event held hk

structure SweptEvent (c : ℕ) (x : ℕ × Bool) (t : Call) (o : Overlay Row) (d : Db) : Prop where
  mark : o (.sweep x.1 t.serial) ≠ none
  present : ∃ c, statusOf d x.1 c ≠ none
  elsewhere : x.2 = true ↔ ∃ c', c' ≠ c ∧ statusOf (d.overlay o) x.1 c' = some .pending

/-- The sweep: `state` says of each event it has found how far it is, from the status of
the delivery to the channel and the publication of the event. -/
structure Sweep (c : ℕ) (found : List (ℕ × Bool))
    (state : ℕ × Bool → Option DeliveryStatus → Option (Option Int) → Prop) (t : Call)
    (o : Overlay Row) (d : Db) : Prop where
  swept : ∀ x ∈ found, SweptEvent c x t o d
  state : ∀ x ∈ found, state x (statusOf (d.overlay o) x.1 c) (publication (d.overlay o) x.1)
  others : ∀ e, e ∉ found.map Prod.fst → Untouched e o

variable {found : List (ℕ × Bool)}
  {state state' : ℕ × Bool → Option DeliveryStatus → Option (Option Int) → Prop}

theorem SweptEvent.ending {x : ℕ × Bool} (h : SweptEvent c x t o d) : Ending x.1 t o d :=
  ⟨.inl h.mark, h.present⟩

theorem Sweep.stable (c : ℕ) (found : List (ℕ × Bool))
    (state : ℕ × Bool → Option DeliveryStatus → Option (Option Int) → Prop) :
    publicationDiscipline.Stable t (Sweep c found state t) := by
  intro o d d' hop h
  refine ⟨fun x hx => ?_, fun x hx => ?_, h.others⟩
  · have hs := (h.swept x hx).ending.hop hop
    refine ⟨(h.swept x hx).mark, ((h.swept x hx).ending.same hs).present, ?_⟩
    simp only [(hs.overlay o).status]
    exact (h.swept x hx).elsewhere
  · have hs := ((h.swept x hx).ending.hop hop).overlay o
    rw [hs.status, hs.publication]
    exact h.state x hx

theorem Sweep.weaken (h : Sweep c found state t o d)
    (himp : ∀ x ∈ found, ∀ s p, state x s p → state' x s p) : Sweep c found state' t o d :=
  ⟨h.swept, fun x hx => himp x hx _ _ (h.state x hx), h.others⟩

theorem Sweep.flag_eq (h : Sweep c found state t o d) {x y : ℕ × Bool} (hx : x ∈ found)
    (hy : y ∈ found) (he : y.1 = x.1) : y.2 = x.2 := by
  have hiff : y.2 = true ↔ x.2 = true := by
    rw [(h.swept x hx).elsewhere, (h.swept y hy).elsewhere, he]
  exact Bool.eq_iff_iff.2 hiff

theorem Sweep.write_delivery (h : Sweep c found state t o d) {x : ℕ × Bool} (hx : x ∈ found)
    {y : NotificationDelivery}
    (hself : ∀ z ∈ found, z.1 = x.1 → ∀ s p, state z s p → state' z (some y.lease.status) p)
    (hother : ∀ z ∈ found, z.1 ≠ x.1 → ∀ s p, state z s p → state' z s p) :
    Sweep c found state' t (o.write d (.delivery x.1 c) (some y)) (d.addKey (.delivery x.1 c)) := by
  refine ⟨fun z hz => ⟨?_, (h.swept z hz).present, ?_⟩, fun z hz => ?_, fun e he => ?_⟩
  · rw [Overlay.write_ne (by simp)]
    exact (h.swept z hz).mark
  · rw [(h.swept z hz).elsewhere]
    refine exists_congr fun c' => and_congr_right fun hc => ?_
    rw [statusOf_write_ne (.inr hc)]
  · rw [publication_write_delivery]
    by_cases hzx : z.1 = x.1
    · rw [hzx, statusOf_write_self]
      exact hself z hz hzx _ _ (hzx ▸ h.state z hz)
    · rw [statusOf_write_ne (.inl hzx)]
      exact hother z hz hzx _ _ (h.state z hz)
  · refine (h.others e he).write_delivery ?_ _
    rintro rfl
    exact he (List.mem_map_of_mem hx)

theorem Sweep.write_event (h : Sweep c found state t o d) {x : ℕ × Bool} (hx : x ∈ found)
    (now : Int) (v : OutboxEvent)
    (hself : ∀ z ∈ found, z.1 = x.1 → ∀ s p, state z s p → state' z s (some (some now)))
    (hother : ∀ z ∈ found, z.1 ≠ x.1 → ∀ s p, state z s p → state' z s p) :
    Sweep c found state' t (o.write d (.event x.1) (some (v.publish now)))
      (d.addKey (.event x.1)) := by
  refine ⟨fun z hz => ⟨?_, (h.swept z hz).present, ?_⟩, fun z hz => ?_, fun e he => ?_⟩
  · rw [Overlay.write_ne (by simp)]
    exact (h.swept z hz).mark
  · rw [(h.swept z hz).elsewhere]
    simp only [statusOf_write_event]
  · rw [statusOf_write_event]
    by_cases hzx : z.1 = x.1
    · rw [hzx, publication_write]
      exact hself z hz hzx _ _ (hzx ▸ h.state z hz)
    · rw [publication_write_ne hzx]
      exact hother z hz hzx _ _ (h.state z hz)
  · refine (h.others e he).write_event ?_ _
    rintro rfl
    exact he (List.mem_map_of_mem hx)

def VisitState (rest affected : List (ℕ × Bool)) (x : ℕ × Bool) (status : Option DeliveryStatus)
    (published : Option (Option Int)) : Prop :=
  published = some none ∧ ((status = some .pending ∧ x.1 ∈ rest.map Prod.fst) ∨
    (status = some .dead ∧ x.1 ∈ affected.map Prod.fst))

def PublishState (rest : List (ℕ × Bool)) (x : ℕ × Bool) (status : Option DeliveryStatus)
    (published : Option (Option Int)) : Prop :=
  status = some .dead ∧ ((published = some none ∧ (x.2 = true ∨ x.1 ∈ rest.map Prod.fst)) ∨
    (x.2 = false ∧ ∃ p, published = some (some p)))

def Bare (o : Overlay Row) : Prop := ∀ e, o (.event e) = none ∧ ∀ c, o (.delivery e c) = none

theorem Bare.untouched (h : Bare o) (e : ℕ) : Untouched e o := by
  refine ⟨fun c held hk => ?_, fun held hk => ?_⟩
  · rw [(h e).2 c] at hk
    cases hk
  · rw [(h e).1] at hk
    cases hk

theorem Bare.status (h : Bare o) (e c : ℕ) : statusOf (d.overlay o) e c = statusOf d e c := by
  rw [statusOf, Database.overlay_row_free ((h e).2 c)]
  rfl

theorem Bare.publication (h : Bare o) (e : ℕ) :
    Notification.publication (d.overlay o) e = Notification.publication d e := by
  rw [Notification.publication, Database.overlay_row_free (h e).1]
  rfl

theorem mem_pendingOfChannel (hc : o.Covered d) {x : ℕ × Bool}
    (hx : x ∈ pendingOfChannel c (d.overlay o)) :
    statusOf (d.overlay o) x.1 c = some .pending ∧
      (x.2 = true ↔ ∃ c', c' ≠ c ∧ statusOf (d.overlay o) x.1 c' = some .pending) := by
  obtain ⟨⟨e, c', y⟩, hy, rfl⟩ := List.mem_map.1 hx
  obtain ⟨hmem, hp⟩ := List.mem_filter.1 hy
  rw [Bool.and_eq_true] at hp
  have hc' : c' = c := by simpa using hp.1
  subst hc'
  refine ⟨?_, ?_⟩
  · rw [statusOf, (mem_deliveries.1 hmem).2]
    simpa using hp.2
  · unfold pendingElsewhere
    rw [List.any_eq_true]
    constructor
    · rintro ⟨⟨e₁, c₁, z⟩, hz, hzp⟩
      simp only [Bool.and_eq_true, beq_iff_eq, bne_iff_ne, ne_eq] at hzp
      obtain ⟨⟨rfl, hne⟩, hs⟩ := hzp
      refine ⟨c₁, hne, ?_⟩
      rw [statusOf, (mem_deliveries.1 hz).2, Option.map_some, hs]
    · rintro ⟨c₁, hne, hs⟩
      rw [statusOf, Option.map_eq_some_iff] at hs
      obtain ⟨z, hz, hs⟩ := hs
      exact ⟨(e, c₁, z), mem_deliveries.2 ⟨hc.mem_keys hz, hz⟩, by simp [hne, hs]⟩

theorem sweep_note (hinv : ∀ e, Consistent e d) (ha : o.Agrees d) (hc : o.Covered d)
    (h : Bare o) (c : ℕ) :
    let found := pendingOfChannel c (d.overlay o)
    let marks := lockWrites (d.overlay o) (found.map fun x => Key.sweep x.1 t.serial)
    Sweep c found (VisitState found []) t (o.writeAll d marks) (d.addKeys marks) := by
  intro found marks
  have hkeys := Overlay.writeAll_lockWrites ha (found.map fun x => Key.sweep x.1 t.serial)
  have hbare : Bare (o.writeAll d marks) := by
    intro e
    refine ⟨?_, fun c' => ?_⟩
    · rw [hkeys, if_neg (by simp)]
      exact (h e).1
    · rw [hkeys, if_neg (by simp)]
      exact (h e).2 c'
  have hsame : ∀ e, SameEvent e (d.overlay o)
      ((d.addKeys marks).overlay (o.writeAll d marks)) := fun e =>
    .of_rows (Overlay.overlay_lockWrites ha (Database.addKeys_row _ _) _)
  have hrows : ∀ e, SameEvent e d (d.addKeys marks) := fun e => .of_rows (Database.addKeys_row _ _)
  refine ⟨fun x hx => ⟨?_, ⟨c, ?_⟩, ?_⟩, fun x hx => ⟨?_, .inl ⟨?_, ?_⟩⟩,
    fun e _ => hbare.untouched e⟩
  · rw [hkeys, if_pos (List.mem_map_of_mem hx)]
    simp
  · rw [(hrows x.1).status, ← h.status x.1 c, (mem_pendingOfChannel hc hx).1]
    simp
  · simp only [(hsame x.1).status]
    exact (mem_pendingOfChannel hc hx).2
  · rw [(hsame x.1).publication, h.publication]
    refine unpublished_of_pending (c := c) (hinv x.1) ?_
    rw [← h.status x.1 c]
    exact (mem_pendingOfChannel hc hx).1
  · rw [(hsame x.1).status]
    exact (mem_pendingOfChannel hc hx).1
  · exact List.mem_map_of_mem hx

theorem Sweep.settled (h : Sweep c found (PublishState []) t o d) :
    Settled (found.map Prod.fst) t o d := by
  refine ⟨fun e he => ?_, h.others⟩
  obtain ⟨x, hx, rfl⟩ := List.mem_map.1 he
  obtain ⟨hdead, hcases⟩ := h.state x hx
  have helse := (h.swept x hx).elsewhere
  refine ⟨(h.swept x hx).ending, fun _ => ?_, fun _ hnone => ?_⟩
  · cases hcases with
    | inl hwait =>
      have hflag : x.2 = true := hwait.2.resolve_right (by simp)
      obtain ⟨c', _, hc'⟩ := helse.1 hflag
      refine ⟨?_, fun hall => absurd hc' (hall c')⟩
      rintro ⟨p, hp⟩
      rw [hwait.1] at hp
      cases hp
    | inr hdone =>
      refine ⟨fun _ c' hc' => ?_, fun _ => hdone.2⟩
      by_cases hcc : c' = c
      · rw [hcc, hdead] at hc'
        cases hc'
      · have htrue := helse.2 ⟨c', hcc, hc'⟩
        rw [hdone.1] at htrue
        cases htrue
  · cases hcases with
    | inl hwait => simp [hwait.1] at hnone
    | inr hdone =>
      obtain ⟨_, p, hp⟩ := hdone
      simp [hp] at hnone

theorem visit_delivery {x : ℕ × Bool} (hx : x ∈ found) (rest affected : List (ℕ × Bool))
    (now : Int) (message : Text.Bytes) :
    publicationDiscipline.Triple t (Sweep c found (VisitState (x :: rest) affected) t)
      (.exec (.update (V := Row) (.delivery x.1 c) (fun y => y.lease.status == .pending)
        (NotificationDelivery.terminalize now message)) : Tx (Option NotificationDelivery))
      fun r => Sweep c found
        (VisitState rest (if r.isSome then affected ++ [x] else affected)) t := by
  refine .update (Sweep.stable _ _ _) ?_ ?_
  · intro o d _ _ h hnone
    refine ⟨h.swept, fun z hz => ?_, h.others⟩
    obtain ⟨hpub, hcases⟩ := h.state z hz
    refine ⟨hpub, hcases.imp_left fun hrest => ⟨hrest.1, ?_⟩⟩
    refine (List.mem_cons.1 hrest.2).resolve_left fun hzx => ?_
    have hpending := hrest.1
    rw [hzx, statusOf, Option.map_eq_some_iff] at hpending
    obtain ⟨v, hv, hs⟩ := hpending
    have hfalse := hnone v hv
    simp [hs] at hfalse
  · intro o d v _ _ h hrow hp _
    refine h.write_delivery hx (fun z hz hzx s p hs => ?_) fun z hz hzx s p hs => ?_
    · exact ⟨hs.1, .inr ⟨rfl, by simp [hzx]⟩⟩
    · refine ⟨hs.1, hs.2.imp (fun hrest => ⟨hrest.1, ?_⟩) fun hdone => ⟨hdone.1, ?_⟩⟩
      · exact (List.mem_cons.1 hrest.2).resolve_left hzx
      · simp only [Option.isSome_some, if_true, List.map_append, List.mem_append]
        exact .inl hdone.2

theorem visit_deliveries (found : List (ℕ × Bool)) (now : Int) (c : ℕ) (message : Text.Bytes) :
    publicationDiscipline.Triple t (Sweep c found (VisitState found []) t)
      (Program.foldEach found [] fun (acc : List (ℕ × Bool)) x => do
        match ← .exec (.update (V := Row) (.delivery x.1 c) (fun y => y.lease.status == .pending)
            (NotificationDelivery.terminalize now message)) with
        | some _ => pure (acc ++ [x])
        | none => pure acc : Tx (List (ℕ × Bool)))
      fun affected o d => (∀ x ∈ affected, x ∈ found) ∧
        Sweep c found (VisitState [] affected) t o d := by
  refine (Discipline.Triple.foldEach (J := fun rest affected o d =>
    ((∀ x ∈ rest, x ∈ found) ∧ ∀ x ∈ affected, x ∈ found) ∧
      Sweep c found (VisitState rest affected) t o d)
    (fun x rest affected => .given fun hmem => ?_) found []).strengthen ?_ |>.weaken ?_
  · refine .bind (visit_delivery (hmem.1 x List.mem_cons_self) rest affected now _) fun r => ?_
    have hrest : ∀ y ∈ rest, y ∈ found := fun y hy => hmem.1 y (List.mem_cons_of_mem _ hy)
    cases r with
    | none => exact .pure fun _ _ _ _ h => ⟨⟨hrest, hmem.2⟩, h⟩
    | some y =>
      refine .pure fun _ _ _ _ h => ⟨⟨hrest, fun z hz => ?_⟩, h⟩
      cases List.mem_append.1 hz with
      | inl hacc => exact hmem.2 z hacc
      | inr hlast =>
        rw [List.mem_singleton.1 hlast]
        exact hmem.1 x List.mem_cons_self
  · exact fun o d _ _ h => ⟨⟨fun _ hx => hx, fun _ hx => (by cases hx)⟩, h⟩
  · exact fun _ o d _ _ h => ⟨h.1.2, h.2⟩

theorem publish_event {x : ℕ × Bool} (hx : x ∈ found) (hflag : x.2 = false)
    (rest : List (ℕ × Bool)) (now : Int) :
    publicationDiscipline.Triple t (Sweep c found (PublishState (x :: rest)) t)
      (publishEvent now x.1) fun _ => Sweep c found (PublishState rest) t := by
  refine .bind (.update (Q := fun _ => Sweep c found (PublishState rest) t)
    (Sweep.stable _ _ _) ?_ ?_) fun _ => .done
  · intro o d _ _ h hnone
    have hrow : publication (d.overlay o) x.1 ≠ none := by
      obtain ⟨_, hcases⟩ := h.state x hx
      cases hcases with
      | inl hwait => simp [hwait.1]
      | inr hdone =>
        obtain ⟨_, p, hp⟩ := hdone
        simp [hp]
    cases hv : (d.overlay o).row (.event x.1) with
    | none => simp [publication, hv] at hrow
    | some v => cases hnone v hv
  · intro o d v _ _ h _ _ _
    refine h.write_event hx now v (fun z hz hzx s p hs => ?_) fun z hz hzx s p hs => ?_
    · exact ⟨hs.1, .inr ⟨(h.flag_eq hx hz hzx).trans hflag, now, rfl⟩⟩
    · refine ⟨hs.1, hs.2.imp_left fun hwait => ⟨hwait.1, ?_⟩⟩
      exact hwait.2.imp_right fun hin => (List.mem_cons.1 hin).resolve_left hzx

theorem publish_events (found affected : List (ℕ × Bool)) (haffected : ∀ x ∈ affected, x ∈ found)
    (now : Int) :
    publicationDiscipline.Triple t (Sweep c found (PublishState affected) t)
      (.forEach affected fun x => if x.2 then pure () else publishEvent now x.1 : Tx Unit)
      fun _ => Sweep c found (PublishState []) t := by
  refine (Discipline.Triple.forEach_rest (J := fun rest o d => (∀ x ∈ rest, x ∈ found) ∧
    Sweep c found (PublishState rest) t o d) (fun x rest => .given fun hmem => ?_)
    affected).strengthen (fun o d _ _ h => ⟨haffected, h⟩) |>.weaken fun _ o d _ _ h => h.2
  have hrest : ∀ y ∈ rest, y ∈ found := fun y hy => hmem y (List.mem_cons_of_mem _ hy)
  have hx := hmem x List.mem_cons_self
  split
  · next hflag =>
      refine .pure fun o d _ _ h => ⟨hrest, h.weaken fun z hz s p hs => ?_⟩
      refine ⟨hs.1, hs.2.imp_left fun hwait => ⟨hwait.1, ?_⟩⟩
      by_cases hzx : z.1 = x.1
      · exact .inl ((h.flag_eq hx hz hzx).trans hflag)
      · exact hwait.2.imp_right fun hin => (List.mem_cons.1 hin).resolve_left hzx
  · next hflag =>
      exact (publish_event hx (by simpa using hflag) rest now).weaken fun _ _ _ _ _ h => ⟨hrest, h⟩

theorem terminalize_settles (now : Int) (channelID : ℕ) (message : Text.Bytes) :
    publicationDiscipline.Triple t (fun o _ => Bare o)
      (terminalizePendingNotificationDeliveries t.serial now channelID message)
      fun _ o d => ∃ es, Settled es t o d := by
  refine .bind (.note (Q := fun found => Sweep channelID found (VisitState found []) t)
    (.overlay _) fun o d hinv ha hc h _ => sweep_note hinv ha hc h channelID) fun found => ?_
  refine .bind (visit_deliveries found now channelID _) fun affected =>
    .given fun haffected => ?_
  refine (publish_events (c := channelID) found affected haffected now).strengthen ?_ |>.weaken ?_
  · intro o d _ _ h
    refine h.weaken fun x _ s p hs => ?_
    have hdone := hs.2.resolve_left (by simp)
    exact ⟨hdone.1, .inl ⟨hs.1, .inr hdone.2⟩⟩
  · exact fun _ o d _ _ h => ⟨_, h.settled⟩

theorem bare_channel (id : ℕ) (v : Option NotificationChannel) :
    Bare ((Overlay.empty : Overlay Row).write d (.channel id) v) := by
  intro e
  refine ⟨?_, fun c => ?_⟩
  · rw [Overlay.write_ne (by simp)]
    rfl
  · rw [Overlay.write_ne (by simp)]
    rfl

theorem update_channel_bare (id : ℕ) (p : NotificationChannel → Bool)
    (set : NotificationChannel → NotificationChannel) :
    publicationDiscipline.Triple t (fun o _ => o = Overlay.empty)
      (.exec (.update (V := Row) (.channel id) p set) : Tx (Option NotificationChannel))
      fun r o _ => r ≠ none → Bare o := by
  refine .update (.overlay _) (fun _ _ _ _ _ _ h => absurd rfl h) ?_
  rintro o d n _ _ rfl _ _ _ _
  exact bare_channel id _

theorem deleteNotificationChannel_settles (now : Int) (tenantID id version : ℕ) :
    publicationDiscipline.Triple t (fun o _ => o = Overlay.empty)
      (deleteNotificationChannel t.serial now tenantID id version)
      fun _ => publicationDiscipline.Final t := by
  refine .bind (update_channel_bare id _ _) fun r => ?_
  cases r with
  | none => exact .fail
  | some n =>
    refine ((terminalize_settles now id _).strengthen fun _ _ _ _ h => h (by simp)).weaken ?_
    rintro _ o d _ _ ⟨es, h⟩
    exact h.final

theorem setNotificationChannelEnabled_settles (now : Int) (tenantID id : ℕ) (enabled : Bool)
    (version : ℕ) : publicationDiscipline.Triple t (fun o _ => o = Overlay.empty)
      (setNotificationChannelEnabled t.serial now tenantID id enabled version)
      fun _ => publicationDiscipline.Final t := by
  refine .bind (update_channel_bare id _ _) fun r => ?_
  cases r with
  | none => exact .fail
  | some n =>
    refine .bind (Q := fun _ o d => ∃ es, Settled es t o d) ?_ fun _ => ?_
    · cases enabled with
      | true =>
        refine .pure fun o d _ _ h => ⟨[], fun _ he => (by cases he), fun e _ => ?_⟩
        exact (h (by simp)).untouched e
      | false => exact (terminalize_settles now id _).strengthen fun _ _ _ _ h => h (by simp)
    · refine .introduce fun es => ?_
      refine .bind (.read (Settled.stable es)) fun x => ?_
      obtain ⟨n, jobIDs⟩ := x
      cases n with
      | none => exact .fail
      | some n =>
        dsimp only
        split
        · exact .pure fun _ _ _ _ h => h.final
        · exact .fail

end Sweep

section Prepare

/-- What a fan-out has done: it holds every event to which it has added deliveries, and has
published none of those. -/
structure Prepared (o : Overlay Row) (d : Db) : Prop where
  fresh : ∀ e, o (.event e) ≠ none → NoDelivery e d
  created : ∀ e c h, o (.delivery e c) = some h →
    ∃ x, h = ⟨none, some x⟩ ∧ x.pending = true ∧ o (.event e) ≠ none
  event : ∀ e h, o (.event e) = some h → ∃ v, h.version = some v ∧
    (v.publishedAt = none ∨ ∀ c, o (.delivery e c) = none)

structure Ready (e : ℕ) (o : Overlay Row) : Prop where
  held : ∃ b v, o (.event e) = some ⟨b, some v⟩ ∧ v.publishedAt = none
  none : ∀ c, o (.delivery e c) = none

variable {limit : ℕ}

theorem Prepared.stable (ht : t.operation = .prepareNotificationDeliveries limit) :
    publicationDiscipline.Stable t Prepared :=
  fun _ _ _ hop h => ⟨hop.alone limit ht, h.created, h.event⟩

theorem Prepared.blind : Discipline.Blind Key.eventWork Prepared := by
  intro o o' d d' hkeys hrow h
  have hevent : ∀ e, o' (.event e) = o (.event e) := fun e => hkeys _ rfl
  have hdelivery : ∀ e c, o' (.delivery e c) = o (.delivery e c) := fun e c => hkeys _ rfl
  refine ⟨fun e he c => ?_, fun e c held hk => ?_, fun e held hk => ?_⟩
  · rw [statusOf, hrow]
    exact h.fresh e (by rwa [← hevent]) c
  · rw [hevent]
    exact h.created e c held (by rw [← hdelivery, hk])
  · simp only [hdelivery]
    exact h.event e held (by rw [← hevent, hk])

theorem Ready.blind (e : ℕ) : Discipline.Blind Key.eventWork fun o (_ : Db) => Ready e o := by
  intro o o' d d' hkeys _ h
  refine ⟨?_, fun c => ?_⟩
  · rw [hkeys _ rfl]
    exact h.held
  · rw [hkeys _ rfl]
    exact h.none c

theorem Prepared.consistent (h : Prepared o d) (he : o (.event e) ≠ none) :
    Consistent e (d.overlay o) := by
  obtain ⟨held, hheld⟩ := Option.ne_none_iff_exists'.1 he
  obtain ⟨v, hv, hcases⟩ := h.event e held hheld
  have hpub : publication (d.overlay o) e = some v.publishedAt := by
    rw [publication, Database.overlay_row_held hheld, hv]
    rfl
  have hown : ∀ c, statusOf (d.overlay o) e c ≠ none →
      o (.delivery e c) ≠ none ∧ statusOf (d.overlay o) e c = some .pending := by
    intro c hc
    cases ho : o (.delivery e c) with
    | none =>
      rw [statusOf, Database.overlay_row_free ho] at hc
      exact absurd (h.fresh e he c) hc
    | some held =>
      obtain ⟨x, rfl, hx, _⟩ := h.created e c held ho
      refine ⟨by simp, ?_⟩
      rw [statusOf, Database.overlay_row_held ho]
      simpa [NotificationDelivery.pending] using hx
  refine ⟨?_, fun _ => by simp [hpub]⟩
  rintro ⟨c, hc⟩
  obtain ⟨hheldc, hpending⟩ := hown c hc
  have hnone : v.publishedAt = none := hcases.resolve_right fun hall => hheldc (hall c)
  refine ⟨?_, fun hall => absurd hpending (hall c)⟩
  rintro ⟨p, hp⟩
  rw [hpub, hnone] at hp
  cases hp

theorem Prepared.final (ht : t.operation = .prepareNotificationDeliveries limit)
    (h : Prepared o d) : publicationDiscipline.Final t o d := by
  intro d' hl _ _ e
  have h' := (Prepared.stable ht).later hl h
  cases ho : o (.event e) with
  | some held =>
    have he : o (.event e) ≠ none := by simp [ho]
    exact .inr ⟨.inr (h'.fresh e he), h'.consistent he⟩
  | none =>
    refine .inl ⟨fun c held hk => ?_, fun held hk => ?_⟩
    · obtain ⟨_, _, _, hheld⟩ := h'.created e c held hk
      exact absurd ho hheld
    · rw [ho] at hk
      cases hk

theorem matchingNotificationChannelIDs_keeps {D : Discipline Call Key Row}
    {A : Overlay Row → Db → Prop} (hs : D.Stable t A) (hA : Discipline.Blind Key.eventWork A)
    (x : OutboxEvent) : D.Triple t A (matchingNotificationChannelIDs x) fun _ => A := by
  refine .bind (.read hs) fun found => ?_
  refine Discipline.Triple.foldEach (J := fun _ _ => A) (fun y ys acc => ?_) found []
  refine .bind (.lock (Q := fun _ => A) hs (fun _ _ _ _ h _ => h)
    fun _ _ _ _ _ h _ _ _ => hA.write rfl _ h) fun r => ?_
  cases r with
  | none => exact .done
  | some n => exact .done

structure Preparing (rest : List ℕ) (o : Overlay Row) (d : Db) : Prop where
  prepared : Prepared o d
  nodup : rest.Nodup
  ready : ∀ e ∈ rest, Ready e o

theorem Preparing.stable (ht : t.operation = .prepareNotificationDeliveries limit)
    (rest : List ℕ) : publicationDiscipline.Stable t (Preparing rest) :=
  fun o d d' hop h => ⟨Prepared.stable ht o d d' hop h.prepared, h.nodup, h.ready⟩

theorem Preparing.blind (rest : List ℕ) : Discipline.Blind Key.eventWork (Preparing rest) :=
  fun o o' d d' hkeys hrow h => ⟨Prepared.blind o o' d d' hkeys hrow h.prepared, h.nodup,
    fun e he => Ready.blind e o o' d d' hkeys hrow (h.ready e he)⟩

theorem Ready.write_event {e' : ℕ} (h : Ready e' o) (hne : e' ≠ e) (v : Option OutboxEvent) :
    Ready e' (o.write d (.event e) v) := by
  refine ⟨?_, fun c => ?_⟩
  · rw [Overlay.write_ne (by simpa using hne)]
    exact h.held
  · rw [Overlay.write_ne (by simp)]
    exact h.none c

theorem Ready.write_delivery {e' : ℕ} (h : Ready e' o) (hne : e' ≠ e)
    (v : Option NotificationDelivery) : Ready e' (o.write d (.delivery e c) v) := by
  refine ⟨?_, fun c' => ?_⟩
  · rw [Overlay.write_ne (by simp)]
    exact h.held
  · rw [Overlay.write_ne (by simp [hne])]
    exact h.none c'

theorem Prepared.write_event (h : Prepared o d) {v : OutboxEvent}
    (hfresh : ∀ e', o.write d (.event e) (some v) (.event e') ≠ none → NoDelivery e' d)
    (hv : v.publishedAt = none ∨ ∀ c, o (.delivery e c) = none) :
    Prepared (o.write d (.event e) (some v)) (d.addKey (.event e)) := by
  have hdelivery : ∀ e' c, o.write d (.event e) (some v) (.delivery e' c) = o (.delivery e' c) :=
    fun e' c => Overlay.write_ne (by simp)
  refine ⟨hfresh, fun e' c held hk => ?_, fun e' held hk => ?_⟩
  · rw [hdelivery] at hk
    obtain ⟨x, hx, hp, hh⟩ := h.created e' c held hk
    exact ⟨x, hx, hp, Overlay.write_ne_none hh⟩
  · simp only [hdelivery]
    by_cases hee : e' = e
    · subst hee
      rw [Overlay.write_self] at hk
      cases hk
      exact ⟨v, rfl, hv⟩
    · rw [Overlay.write_ne (by simpa using hee)] at hk
      exact h.event e' held hk

theorem Preparing.publish {rest : List ℕ} (h : Preparing (e :: rest) o d) (v : OutboxEvent) :
    Preparing rest (o.write d (.event e) (some v)) (d.addKey (.event e)) := by
  have hready := h.ready e List.mem_cons_self
  obtain ⟨hnot, hnodup⟩ := List.nodup_cons.1 h.nodup
  have hheld : o (.event e) ≠ none := by
    obtain ⟨b, w, hw, _⟩ := hready.held
    simp [hw]
  have hevent : ∀ e', o.write d (.event e) (some v) (.event e') ≠ none → o (.event e') ≠ none := by
    intro e' he'
    by_cases hee : e' = e
    · exact hee ▸ hheld
    · rwa [Overlay.write_ne (by simpa using hee)] at he'
  refine ⟨h.prepared.write_event (fun e' he' => h.prepared.fresh e' (hevent e' he'))
    (.inr hready.none), hnodup, fun e' he' => ?_⟩
  refine (h.ready e' (List.mem_cons_of_mem _ he')).write_event ?_ _
  rintro rfl
  exact hnot he'

structure Adding (e : ℕ) (rest : List ℕ) (o : Overlay Row) (d : Db) : Prop where
  preparing : Preparing rest o d
  notMem : e ∉ rest
  held : ∃ b v, o (.event e) = some ⟨b, some v⟩ ∧ v.publishedAt = none

theorem Adding.stable (ht : t.operation = .prepareNotificationDeliveries limit)
    (e : ℕ) (rest : List ℕ) : publicationDiscipline.Stable t (Adding e rest) :=
  fun o d d' hop h => ⟨Preparing.stable ht rest o d d' hop h.preparing, h.notMem, h.held⟩

theorem Adding.insert {rest : List ℕ} (h : Adding e rest o d) (ha : o.Agrees d)
    (hnone : (d.overlay o).row (.delivery e c) = none) {x : NotificationDelivery}
    (hx : x.pending = true) :
    Adding e rest (o.write d (.delivery e c) (some x)) (d.addKey (.delivery e c)) := by
  have hevent : ∀ e', o.write d (.delivery e c) (some x) (.event e') = o (.event e') :=
    fun e' => Overlay.write_ne (by simp)
  have hprepared := h.preparing.prepared
  obtain ⟨b, v, hv, hunpublished⟩ := h.held
  refine ⟨⟨⟨fun e' he' => hprepared.fresh e' (by rwa [hevent] at he'), fun e' c' held hk => ?_,
    fun e' held hk => ?_⟩, h.preparing.nodup, fun e' he' => ?_⟩, h.notMem, ?_⟩
  · rw [hevent]
    by_cases hkey : Key.delivery e' c' = .delivery e c
    · cases hkey
      have hbase : d.row (.delivery e c) = none := by
        have hfresh := hprepared.fresh e (by simp [hv]) c
        rwa [statusOf, Option.map_eq_none_iff] at hfresh
      rw [Overlay.write_self_of_agrees ha, hbase] at hk
      cases hk
      exact ⟨x, rfl, hx, by simp [hv]⟩
    · rw [Overlay.write_ne hkey] at hk
      exact hprepared.created e' c' held hk
  · rw [hevent] at hk
    by_cases hee : e' = e
    · subst hee
      rw [hv] at hk
      cases hk
      exact ⟨v, rfl, .inl hunpublished⟩
    · obtain ⟨v', hv', hcases⟩ := hprepared.event e' held hk
      refine ⟨v', hv', hcases.imp_right fun hall c' => ?_⟩
      rw [Overlay.write_ne (by simp [hee])]
      exact hall c'
  · refine (h.preparing.ready e' he').write_delivery ?_ _
    rintro rfl
    exact h.notMem he'
  · rw [hevent]
    exact h.held

theorem prepareEvent_prepares (ht : t.operation = .prepareNotificationDeliveries limit)
    (now : Int) (e : ℕ) (x : OutboxEvent) (rest : List ℕ) :
    publicationDiscipline.Triple t (Preparing (e :: rest)) (prepareEvent now e x)
      fun _ => Preparing rest := by
  refine .bind (matchingNotificationChannelIDs_keeps (Preparing.stable ht _)
    (Preparing.blind _) x) fun channelIDs => ?_
  split
  · refine .bind (.update (Q := fun _ => Preparing rest) (Preparing.stable ht _) ?_
      fun _ _ v _ _ h _ _ _ => h.publish _) fun _ => .done
    intro o d _ _ h hnone
    obtain ⟨b, v, hv, _⟩ := (h.ready e List.mem_cons_self).held
    cases hnone v (Database.overlay_row_held hv)
  · refine (Discipline.Triple.forEach (A := Adding e rest) fun c _ => ?_).strengthen ?_ |>.weaken
      fun _ _ _ _ _ h => h.preparing
    · exact .bind (.insert (Q := fun _ => Adding e rest) (Adding.stable ht _ _)
        (fun _ _ _ _ h _ => h) fun _ _ _ ha h hnone _ => h.insert ha hnone rfl)
        fun _ => .done
    · intro o d _ _ h
      obtain ⟨hnot, hnodup⟩ := List.nodup_cons.1 h.nodup
      exact ⟨⟨h.prepared, hnodup, fun e' he' => h.ready e' (List.mem_cons_of_mem _ he')⟩, hnot,
        (h.ready e List.mem_cons_self).held⟩

theorem undelivered_nodup (now : Int) (h : d.keys.Nodup) : (undelivered now d).Nodup := by
  have hevents : ((events d).map Prod.fst).Nodup := by
    unfold events
    rw [List.map_filterMap]
    refine h.filterMap fun k k' e hk hk' => ?_
    cases k with
    | event id =>
      cases k' with
      | event id' =>
        obtain ⟨x, hx, he⟩ := Option.map_eq_some_iff.1 hk
        obtain ⟨x', hx', he'⟩ := Option.map_eq_some_iff.1 hk'
        obtain ⟨_, _, rfl⟩ := Option.map_eq_some_iff.1 hx
        obtain ⟨_, _, rfl⟩ := Option.map_eq_some_iff.1 hx'
        exact congrArg Key.event (he.trans he'.symm)
      | _ => cases hk'
    | _ => cases hk
  unfold undelivered
  refine ((List.perm_insertionSort _ _).map Prod.fst).nodup_iff.2 ?_
  exact hevents.sublist (List.filter_sublist.map Prod.fst)

structure Locking (rest : List ℕ) (acc : List (ℕ × OutboxEvent)) (o : Overlay Row) (d : Db) :
    Prop where
  prepared : Prepared o d
  nodup : (acc.map Prod.fst ++ rest).Nodup
  ready : ∀ x ∈ acc, Ready x.1 o
  only : ∀ e, o (.event e) ≠ none → e ∈ acc.map Prod.fst

theorem Locking.stable (ht : t.operation = .prepareNotificationDeliveries limit)
    (rest : List ℕ) (acc : List (ℕ × OutboxEvent)) :
    publicationDiscipline.Stable t (Locking rest acc) :=
  fun o d d' hop h => ⟨Prepared.stable ht o d d' hop h.prepared, h.nodup, h.ready, h.only⟩

theorem Locking.skip {rest : List ℕ} {acc : List (ℕ × OutboxEvent)}
    (h : Locking (e :: rest) acc o d) : Locking rest acc o d :=
  ⟨h.prepared, h.nodup.sublist ((List.sublist_cons_self e rest).append_left _), h.ready, h.only⟩

theorem Locking.lock {rest : List ℕ} {acc : List (ℕ × OutboxEvent)}
    (h : Locking (e :: rest) acc o d) {v : OutboxEvent} (hv : v.publishedAt = none)
    (hfresh : ∀ e', o.write d (.event e) (some v) (.event e') ≠ none → NoDelivery e' d) :
    Locking rest (acc ++ [(e, v)]) (o.write d (.event e) (some v)) (d.addKey (.event e)) := by
  have hnotMem : e ∉ acc.map Prod.fst := fun hmem =>
    (List.nodup_append.1 h.nodup).2.2 e hmem e List.mem_cons_self rfl
  have hfree : o (.event e) = none := by
    by_contra hheld
    exact hnotMem (h.only e hheld)
  have hnone : ∀ c, o (.delivery e c) = none := by
    intro c
    by_contra hheld
    obtain ⟨held, hk⟩ := Option.ne_none_iff_exists'.1 hheld
    obtain ⟨_, _, _, hev⟩ := h.prepared.created e c held hk
    exact hev hfree
  refine ⟨h.prepared.write_event hfresh (.inl hv), ?_, fun x hx => ?_, fun e' he' => ?_⟩
  · simpa using h.nodup
  · cases List.mem_append.1 hx with
    | inl hacc =>
      refine (h.ready x hacc).write_event ?_ _
      rintro rfl
      exact hnotMem (List.mem_map_of_mem hacc)
    | inr hlast =>
      rw [List.mem_singleton.1 hlast]
      refine ⟨⟨_, v, Overlay.write_self _ _ _ _, hv⟩, fun c => ?_⟩
      rw [Overlay.write_ne (by simp)]
      exact hnone c
  · rw [List.map_append, List.mem_append]
    by_cases hee : e' = e
    · simp [hee]
    · rw [Overlay.write_ne (by simpa using hee)] at he'
      exact .inl (h.only e' he')

theorem lockEvents_locks (ht : t.operation = .prepareNotificationDeliveries limit) (now : Int)
    (n : ℕ) (found : List ℕ) :
    publicationDiscipline.Triple t (Locking found []) (lockEvents now n found)
      (Locking []) := by
  refine Discipline.Triple.foldEach (J := Locking) (fun e rest acc => ?_) found []
  split
  · refine .bind (.skipLocked (Q := fun locked => Locking rest (acc ++ locked))
      (Locking.stable ht _ _) ?_) fun locked => .pure fun _ _ _ _ h => h
    intro o d rows _ ha _ h hsub halone
    cases rows with
    | nil =>
      rw [List.map_nil, List.append_nil]
      exact h.skip
    | cons r rows =>
      split at hsub
      · next v hrow =>
          split at hsub
          · next hopen =>
              obtain ⟨rfl, rfl⟩ : r = (Key.event e, (e, v)) ∧ rows = [] := by
                simpa using hsub.eq_of_length_le (by simp)
              have hunpublished : v.publishedAt = none := by
                rw [OutboxEvent.unpublished, Bool.and_eq_true] at hopen
                simpa using hopen.1
              have hws : lockWrites (d.overlay o) [Key.event e] = [⟨.event e, some v⟩] := by
                simp [lockWrites, hrow]
              simp only [List.map_cons, List.map_nil, hws] at halone ⊢
              exact h.lock hunpublished (halone limit ht)
          · cases hsub
      · cases hsub
  · exact .pure fun _ _ _ _ h => h.skip

theorem prepareNotificationDeliveries_prepares
    (ht : t.operation = .prepareNotificationDeliveries limit) (now : Int) (n : ℕ) :
    publicationDiscipline.Triple t (fun o _ => o = Overlay.empty)
      (prepareNotificationDeliveries now n) fun _ => publicationDiscipline.Final t := by
  refine .bind (.select (Q := fun found o _ => o = Overlay.empty ∧ found.Nodup) (.overlay _)
    fun o d _ _ hc h => ⟨h, undelivered_nodup (d := d.overlay o) now hc.nodup⟩) fun found => ?_
  refine .bind ((lockEvents_locks ht now n found).strengthen ?_) fun locked => ?_
  · rintro o d _ _ ⟨rfl, hnodup⟩
    refine ⟨⟨fun e he => absurd rfl he, fun e c held hk => ?_, fun e held hk => ?_⟩,
      by simpa using hnodup, fun x hx => ?_, fun e he => absurd rfl he⟩
    all_goals contradiction
  · refine (Discipline.Triple.forEach_rest (J := fun (rest : List (ℕ × OutboxEvent)) =>
      Preparing (rest.map Prod.fst)) (fun x rest =>
        prepareEvent_prepares ht now x.1 x.2 (rest.map Prod.fst)) locked).strengthen ?_ |>.weaken ?_
    · intro o d _ _ h
      refine ⟨h.prepared, by simpa using h.nodup, fun e he => ?_⟩
      obtain ⟨x, hx, rfl⟩ := List.mem_map.1 he
      exact h.ready x hx
    · exact fun _ _ _ _ _ h => h.prepared.final ht

end Prepare

theorem emitEvent_keeps (id : ℕ) (x : OutboxEvent) :
    publicationDiscipline.Triple t (fun o _ => o = Overlay.empty) (insertRow (.event id) x)
      fun _ => publicationDiscipline.Final t := by
  refine .bind (.insert (Q := fun r o _ => r = true → o (.event id) = some ⟨none, some x⟩ ∧
    (∀ e c, o (.delivery e c) = none) ∧ ∀ e, e ≠ id → o (.event e) = none) (.overlay _)
    (fun _ _ _ _ _ _ h => by cases h) ?_) fun r => ?_
  · rintro o d _ ha rfl hnone _ _
    refine ⟨?_, fun e c => ?_, fun e he => ?_⟩
    · rw [Overlay.write_self_of_agrees ha]
      exact congrArg some (congrArg (Held.mk · _) hnone)
    · rw [Overlay.write_ne (by simp)]
      rfl
    · rw [Overlay.write_ne (by simpa using he)]
      rfl
  cases r with
  | false => exact .fail
  | true =>
    refine .pure fun o d _ _ h d' _ hinv ha e => ?_
    obtain ⟨hevent, hdelivery, hothers⟩ := h rfl
    by_cases he : e = id
    · subst he
      -- no committed delivery refers to an event that is not there
      have hno : NoDelivery e d' := by
        intro c
        by_contra hc
        have hrow : publication d' e = none := by rw [publication, ha _ _ hevent]; rfl
        exact (hinv e).event ⟨c, hc⟩ hrow
      have hno' : ∀ c, statusOf (d'.overlay o) e c = none := by
        intro c
        rw [statusOf, Database.overlay_row_free (hdelivery e c)]
        exact hno c
      refine .inr ⟨.inr hno, ?_, ?_⟩
      · rintro ⟨c, hc⟩
        exact absurd (hno' c) hc
      · rintro ⟨c, hc⟩
        exact absurd (hno' c) hc
    · refine .inl ⟨fun c held hk => ?_, fun held hk => ?_⟩
      · rw [hdelivery] at hk
        cases hk
      · rw [hothers e he] at hk
        cases hk

theorem publication_safe (t : Call) (hinv : ∀ e, Consistent e d) :
    publicationDiscipline.Safe t (fun _ => publicationDiscipline.Final t)
      (notificationSystem.program t) Overlay.empty d := by
  have hcalm : ∀ {α : Type} {p : Tx α} {r : α → Result}, publicationDiscipline.Triple t
      (fun o _ => Calm o) p (fun _ o _ => Calm o) →
      publicationDiscipline.Triple t (fun o _ => o = Overlay.empty)
        (p >>= fun a => pure (r a)) fun _ => publicationDiscipline.Final t := by
    intro α p r hp
    refine .bind (hp.strengthen ?_) fun _ => .pure fun _ _ _ _ h => h.final
    rintro o d _ _ rfl
    exact calm_empty
  suffices h : publicationDiscipline.Triple t (fun o _ => o = Overlay.empty) t.program
      fun _ => publicationDiscipline.Final t from
    h _ d hinv (fun _ _ h => by cases h) rfl
  unfold Call.program
  split
  · exact .bind (emitEvent_keeps _ _) fun _ => .done
  · exact hcalm (createNotificationChannel_calm _ _ _)
  · exact hcalm (updateNotificationChannel_calm _ _ _)
  · exact .bind (setNotificationChannelEnabled_settles _ _ _ _ _) fun _ => .done
  · exact .bind (deleteNotificationChannel_settles _ _ _ _) fun _ => .done
  · next hop => exact .bind (prepareNotificationDeliveries_prepares hop _ _) fun _ => .done
  · exact hcalm (claimNotificationDeliveries_calm _ _ _)
  · exact .bind (finishNotificationDelivery_settles _ _ _ _ _ (by simp) _) fun _ => .done
  · exact .bind (finishNotificationDelivery_settles _ _ _ _ _ (by simp) _) fun _ => .done
  · exact hcalm (retryNotificationDelivery_calm _ _ _ _ _)

/-- No two transactions end deliveries of one event at the same time, and no fan-out holds
an event that has deliveries. -/
def StepExclusive (_ : NotificationMachine) (_ : Label Call Key) (m : NotificationMachine) :
    Prop :=
  (∀ t t', t ≠ t' → ∀ e, Ends e t (m.store.own t) → ¬ Ends e t' (m.store.own t')) ∧
    ∀ t, FreshFanOut t m.store.committed (m.store.own t)

/-- In a run with these conditions every event with deliveries is published exactly when
none of its deliveries is pending, in every committed state. -/
theorem published_exactly {m₀ m : NotificationMachine} (hrest : m₀.AtRest)
    (hm₀ : ∀ e, Consistent e m₀.store.committed)
    (hrun : Machine.ReachableFrom notificationSystem StepExclusive m₀ m) (e : ℕ) :
    PublishedExactly e m.store.committed := by
  have hsound := Discipline.SoundFor.run (D := publicationDiscipline) Discipline.answer_final
    (fun t d hinv _ => publication_safe t hinv)
    (fun m l m' h => ⟨fun t t' ht _ _ => h.1 t t' ht, h.2, fun _ _ _ => trivial⟩)
    (.of_atRest hrest hm₀) hrun
  exact (hsound.inv e).exact

theorem twoChannels_consistent (e : ℕ) : Consistent e twoChannels.store.committed := by
  have hkeys : twoChannels.store.keys = [.channel 1, .channel 2, .event 1] := by decide +kernel
  have hno : ∀ c, statusOf twoChannels.store.committed e c = none := by
    intro c
    by_contra hc
    obtain ⟨s, hs⟩ := Option.ne_none_iff_exists'.1 hc
    obtain ⟨x, hx, _⟩ := Option.map_eq_some_iff.1 hs
    have hmem := Store.mem_keys_of_row hx
    simp [hkeys] at hmem
  refine ⟨?_, ?_⟩
  · rintro ⟨c, hc⟩
    exact absurd (hno c) hc
  · rintro ⟨c, hc⟩
    exact absurd (hno c) hc

def completeOne : Call := ⟨3, 0, .completeNotificationDelivery "worker" (1, 1) 1⟩

def completeTwo : Call := ⟨4, 0, .completeNotificationDelivery "worker" (1, 2) 1⟩

def stuck (m : NotificationMachine) : Bool :=
  (m.begun.all fun t => (m.running t).isNone) &&
    (statusOf m.store.committed 1 1 == some .delivered) &&
    (m.store.keys.all fun k => match k with
      | .delivery e c => decide (statusOf m.store.committed e c = some .delivered)
      | _ => true) &&
    (publication m.store.committed 1 == some none)

theorem not_exact_of_stuck {m : NotificationMachine} (h : stuck m = true) :
    ¬ PublishedExactly 1 m.store.committed := by
  simp only [stuck, Bool.and_eq_true] at h
  obtain ⟨⟨⟨_, hone⟩, hall⟩, hpub⟩ := h
  intro hexact
  have hpublished := (hexact ⟨1, by simp [eq_of_beq hone]⟩).2 fun c hc => ?_
  · obtain ⟨p, hp⟩ := hpublished
    rw [eq_of_beq hpub] at hp
    cases hp
  · have hrow := hc
    rw [statusOf, Option.map_eq_some_iff] at hrow
    obtain ⟨x, hx, _⟩ := hrow
    have hdelivered := of_decide_eq_true (List.all_eq_true.1 hall _ (Store.mem_keys_of_row hx))
    rw [hc] at hdelivered
    cases hdelivered

/-- Two workers finish the two deliveries of an event at the same time: each sees the
other's delivery pending, and nobody publishes the event. -/
theorem published_exactly_false : ¬ ∀ (m₀ m : NotificationMachine), m₀.AtRest →
    (∀ e, Consistent e m₀.store.committed) →
    Machine.ReachableFrom notificationSystem (fun _ _ _ => True) m₀ m → m.Quiescent →
    ∀ e, PublishedExactly e m.store.committed := by
  intro hclaim
  let statement (t : Call) : Label Call Key := .exec t ⟨0, 0, []⟩
  obtain ⟨m, hreach, hm⟩ : ∃ m, Machine.ReachableFrom notificationSystem (fun _ _ _ => True)
      twoChannels m ∧ stuck m = true :=
    Machine.exists_reachableFrom (fun _ _ _ => true) (fun _ _ _ _ => trivial)
      (claimedSteps ++ [.begin completeOne, .begin completeTwo, statement completeOne,
        statement completeTwo, statement completeOne, statement completeTwo,
        .finish completeOne, .finish completeTwo]) stuck (by decide +kernel)
  have hquiet : m.Quiescent := by
    refine hreach.quiescent (fun _ => rfl) ?_
    simp only [stuck, Bool.and_eq_true] at hm
    exact hm.1.1.1
  exact not_exact_of_stuck hm
    (hclaim _ m (Machine.atRest_loaded _ _ _) twoChannels_consistent hreach hquiet 1)

def stepExclusive (_ : NotificationMachine) (_ : Label Call Key) (m : NotificationMachine) :
    Bool :=
  (completeOne :: m.begun).any fun t => m.solo t && match t.operation with
    | .prepareNotificationDeliveries _ => (deliveries m.store.committed).isEmpty
    | _ => true

theorem stepExclusive_sound {m m' : NotificationMachine} {l : Label Call Key}
    (h : stepExclusive m l m' = true) : StepExclusive m l m' := by
  obtain ⟨t₀, _, ht₀⟩ := List.any_eq_true.1 h
  rw [Bool.and_eq_true] at ht₀
  have hempty : ∀ t, t ≠ t₀ → m'.store.own t = Overlay.empty := fun t => Machine.own_of_solo ht₀.1
  have hnot : ∀ e t, ¬ Ends e t Overlay.empty := by
    rintro e t (hmark | ⟨c, x, y, hx, _⟩)
    · exact hmark rfl
    · cases hx
  refine ⟨fun t t' htt e he he' => ?_, fun t limit hop e hheld c => ?_⟩
  · by_cases ht : t = t₀
    · rw [hempty t' fun ht' => htt (ht.trans ht'.symm)] at he'
      exact hnot e t' he'
    · rw [hempty t ht] at he
      exact hnot e t he
  · by_cases ht : t = t₀
    · subst ht
      have hnone := ht₀.2
      rw [hop] at hnone
      by_contra hc
      obtain ⟨s, hs⟩ := Option.ne_none_iff_exists'.1 hc
      obtain ⟨x, hx, _⟩ := Option.map_eq_some_iff.1 hs
      have hmem := mem_deliveries.2 ⟨Store.mem_keys_of_row hx, hx⟩
      rw [List.isEmpty_iff.1 hnone] at hmem
      cases hmem
    · rw [hempty t ht] at hheld
      exact absurd rfl hheld

theorem published_exactly_in_turn : ∃ m : NotificationMachine,
    publication m.store.committed 1 = some (some 0) ∧ PublishedExactly 1 m.store.committed := by
  obtain ⟨m, hreach, hm⟩ : ∃ m, Machine.ReachableFrom notificationSystem StepExclusive
      twoChannels m ∧ decide (publication m.store.committed 1 = some (some 0)) = true :=
    Machine.exists_reachableFrom stepExclusive (fun _ _ _ => stepExclusive_sound)
      (claimedSteps ++ completeOne.steps 2 ++ completeTwo.steps 3) _ (by decide +kernel)
  exact ⟨m, of_decide_eq_true hm, published_exactly (Machine.atRest_loaded _ _ _)
    twoChannels_consistent hreach 1⟩

end GoScheduler.Notification
