import GoScheduler.Notification.Outbox
import GoScheduler.Queue.Fencing

/-! The deliveries are a fenced queue. A claim answers with the event and the channel of each
delivery it takes, so the number of claims it answers is right only while both are there: the
foreign keys of the deliveries are the invariant of this discipline. -/
namespace GoScheduler.Notification
open ReadCommitted Queue

/-- `event_id REFERENCES outbox_events(id)`, `channel_id REFERENCES notification_channels(id)`. -/
def ReferencesHold (d : Db) : Prop :=
  ∀ e c, d.row (.delivery e c) ≠ none → d.row (.event e) ≠ none ∧ d.row (.channel c) ≠ none

def Key.referenced : Key → Bool
  | .event _ | .channel _ => true
  | _ => false

def Present (k : Key) (o : Overlay Row) : Prop := ∃ b v, o k = some ⟨b, some v⟩

/-- What a transaction has done to the references so far: a new delivery comes with its event
and its channel, and no event or channel is removed. -/
structure References (o : Overlay Row) : Prop where
  created : ∀ e c x, o (.delivery e c) = some ⟨none, some x⟩ →
    Present (.event e) o ∧ Present (.channel c) o
  kept : ∀ k h, k.referenced = true → o k = some h → h.version ≠ none

variable {o : Overlay Row} {d : Db} {t : Call} {k : Key}

theorem ReferencesHold.commit (h : ReferencesHold d) (ha : o.Agrees d) (hr : References o) :
    ReferencesHold (d.overlay o) := by
  have hkept : ∀ k, k.referenced = true → d.row k ≠ none → (d.overlay o).row k ≠ none := by
    intro k hk hrow
    cases ho : o k with
    | none => rwa [Database.overlay_row_free ho]
    | some held =>
      rw [Database.overlay_row_held ho]
      exact hr.kept k held hk ho
  have hpresent : ∀ k, Present k o → (d.overlay o).row k ≠ none := by
    rintro k ⟨b, v, ho⟩
    rw [Database.overlay_row_held ho]
    simp
  intro e c hrow
  by_cases hbefore : d.row (.delivery e c) = none
  · rcases ha.row_cases (.delivery e c) with ⟨_, hsame⟩ | ho
    · exact absurd (hsame.trans hbefore) hrow
    · obtain ⟨x, hx⟩ := Option.ne_none_iff_exists'.1 hrow
      rw [hbefore, hx] at ho
      obtain ⟨he, hc⟩ := hr.created e c x ho
      exact ⟨hpresent _ he, hpresent _ hc⟩
  · obtain ⟨he, hc⟩ := h e c hbefore
    exact ⟨hkept _ rfl he, hkept _ rfl hc⟩

def fencingDiscipline : Discipline Call Key Row where
  inv := ReferencesHold
  guarantee := fun _ _ o => References o
  pair := fun _ _ _ _ => True
  alone := fun _ _ _ => True
  reading := fun _ _ _ => True
  inv_addKey := fun _ h => h
  inv_advance := fun _ h => h
  inv_commit := fun h ha hg => h.commit ha hg

def deliveryQueue : LeasedQueue Call Key Row NotificationError Result (ℕ × ℕ) where
  key := fun i => .delivery i.1 i.2
  key_injective := fun i j h => by
    cases i
    cases j
    cases h
    rfl
  lease := fun _ => NotificationDelivery.lease
  now := Call.now
  owner := fun t => match t.operation with
    | .claimNotificationDeliveries owner _ => some owner
    | .completeNotificationDelivery owner _ _ => some owner
    | .deadLetterNotificationDelivery owner _ _ _ => some owner
    | .retryNotificationDelivery owner _ _ _ => some owner
    | _ => none
  target := fun t => match t.operation with
    | .completeNotificationDelivery _ delivery _ => some delivery
    | .deadLetterNotificationDelivery _ delivery _ _ => some delivery
    | .retryNotificationDelivery _ delivery _ _ => some delivery
    | _ => none
  batch := fun t => match t.operation with
    | .claimNotificationDeliveries owner limit => some (owner, limit)
    | _ => none
  claims := fun r i => match r with
    | .claimed xs => (xs.map fun x => (x.eventID, x.channelID)).count i
    | _ => 0
  lost := fun _ => .notificationLeaseLost

section References

theorem references_empty : References (Overlay.empty : Overlay Row) := by
  constructor
  all_goals intros; contradiction

theorem Present.write {k' : Key} {v : Row k'} (h : Present k o) :
    Present k (o.write d k' (some v)) := by
  by_cases hk : k = k'
  · subst hk
    exact ⟨_, v, Overlay.write_self _ _ _ _⟩
  · unfold Present
    rw [Overlay.write_ne hk]
    exact h

theorem References.write (h : References o) (hk : ∀ e c, k ≠ .delivery e c) (v : Row k) :
    References (o.write d k (some v)) := by
  constructor
  · intro e c x hx
    rw [Overlay.write_ne (Ne.symm (hk e c))] at hx
    obtain ⟨he, hc⟩ := h.created e c x hx
    exact ⟨he.write, hc.write⟩
  · intro k' held hk' ho
    by_cases he : k' = k
    · subst he
      rw [Overlay.write_self] at ho
      cases ho
      simp
    · rw [Overlay.write_ne he] at ho
      exact h.kept k' held hk' ho

theorem References.update (h : References o) (ha : o.Agrees d) {e c : ℕ}
    {x y : NotificationDelivery} (hrow : (d.overlay o).row (.delivery e c) = some x) :
    References (o.write d (.delivery e c) (some y)) := by
  constructor
  · intro e' c' z hz
    by_cases hk : Key.delivery e' c' = .delivery e c
    · cases hk
      rw [Overlay.write_self_of_agrees ha, Option.some.injEq, Held.mk.injEq] at hz
      rcases ha.row_cases (.delivery e c) with ⟨_, hsame⟩ | ho
      · cases (hsame.symm.trans hrow).symm.trans hz.1
      · rw [hz.1, hrow] at ho
        obtain ⟨he, hc⟩ := h.created e c x ho
        exact ⟨he.write, hc.write⟩
    · rw [Overlay.write_ne hk] at hz
      obtain ⟨he, hc⟩ := h.created e' c' z hz
      exact ⟨he.write, hc.write⟩
  · intro k held hk ho
    rw [Overlay.write_ne (by rintro rfl; cases hk)] at ho
    exact h.kept k held hk ho

theorem References.insert (h : References o) {e c : ℕ} {y : NotificationDelivery}
    (he : Present (.event e) o) (hc : Present (.channel c) o) :
    References (o.write d (.delivery e c) (some y)) := by
  constructor
  · intro e' c' z hz
    by_cases hk : Key.delivery e' c' = .delivery e c
    · cases hk
      exact ⟨he.write, hc.write⟩
    · rw [Overlay.write_ne hk] at hz
      obtain ⟨he', hc'⟩ := h.created e' c' z hz
      exact ⟨he'.write, hc'.write⟩
  · intro k held hk ho
    rw [Overlay.write_ne (by rintro rfl; cases hk)] at ho
    exact h.kept k held hk ho

theorem References.locks (h : References o) (ha : o.Agrees d) {ks : List Key}
    (hks : ∀ k ∈ ks, (d.overlay o).row k ≠ none) :
    References (o.writeAll d (lockWrites (d.overlay o) ks)) := by
  have hkeys := Overlay.writeAll_lockWrites ha ks
  have hpresent : ∀ k, Present k o → Present k (o.writeAll d (lockWrites (d.overlay o) ks)) := by
    rintro k ⟨b, v, ho⟩
    unfold Present
    rw [hkeys]
    split
    · exact ⟨_, v, by rw [Database.overlay_row_held ho]⟩
    · exact ⟨b, v, ho⟩
  constructor
  · intro e c x hx
    rw [hkeys] at hx
    have hbefore : o (.delivery e c) = some ⟨none, some x⟩ := by
      split at hx
      · rw [Option.some.injEq, Held.mk.injEq] at hx
        rcases ha.row_cases (.delivery e c) with ⟨_, hsame⟩ | ho
        · cases (hsame.symm.trans hx.2).symm.trans hx.1
        · rw [ho, hx.1, hx.2]
      · exact hx
    obtain ⟨he, hc⟩ := h.created e c x hbefore
    exact ⟨hpresent _ he, hpresent _ hc⟩
  · intro k held hk ho
    rw [hkeys] at ho
    split at ho
    · next hmem =>
        cases ho
        exact hks k hmem
    · exact h.kept k held hk ho

end References

def Fences (t : Call) (o : Overlay Row) : Prop :=
  deliveryQueue.Moves t (fun _ => 0) o ∧ References o

section Fences

theorem fences_empty : Fences t Overlay.empty := ⟨LeasedQueue.moves_empty, references_empty⟩

theorem Fences.write (h : Fences t o) (hk : ∀ e c, k ≠ .delivery e c) (v : Row k) :
    Fences t (o.write d k (some v)) :=
  ⟨h.1.congr fun i => Overlay.write_ne (Ne.symm (hk i.1 i.2)), h.2.write hk v⟩

def Key.fencing : Key → Bool
  | .delivery _ _ | .event _ | .channel _ => true
  | _ => false

theorem Fences.blind (t : Call) : Discipline.Blind Key.fencing fun o _ => Fences t o := by
  intro o o' d d' hkeys _ h
  have hpresent : ∀ k, k.fencing = true → Present k o → Present k o' := by
    rintro k hk ⟨b, v, ho⟩
    exact ⟨b, v, (hkeys k hk).trans ho⟩
  refine ⟨h.1.congr fun i => hkeys _ rfl, fun e c x hx => ?_, fun k held hk ho => ?_⟩
  · obtain ⟨he, hc⟩ := h.2.created e c x ((hkeys _ rfl).symm.trans hx)
    exact ⟨hpresent _ rfl he, hpresent _ rfl hc⟩
  · have hf : k.fencing = true := by
      cases k with
      | event | channel => rfl
      | _ => cases hk
    exact h.2.kept k held hk ((hkeys k hf).symm.trans ho)

end Fences

section Channels

variable {D : Discipline Call Key Row}

theorem insertRow_fences (hk : ∀ e c, k ≠ .delivery e c) (v : Row k) :
    D.Triple t (fun o _ => Fences t o) (insertRow k v) fun _ o _ => Fences t o := by
  refine .bind (.insert (Q := fun _ o _ => Fences t o) (.overlay _) (fun _ _ _ _ h _ => h)
    fun _ _ _ _ h _ _ => h.write hk v) fun r => ?_
  cases r with
  | true => exact .done
  | false => exact .fail

theorem update_fences (hk : ∀ e c, k ≠ .delivery e c) (p : Row k → Bool) (set : Row k → Row k) :
    D.Triple t (fun o _ => Fences t o) (.exec (.update k p set) : Tx (Option (Row k)))
      fun _ o _ => Fences t o :=
  .update (.overlay _) (fun _ _ _ _ h _ => h) fun _ _ _ _ _ h _ _ _ => h.write hk _

theorem publishEvent_fences (now : Int) (eventID : ℕ) :
    D.Triple t (fun o _ => Fences t o) (publishEvent now eventID) fun _ o _ => Fences t o :=
  .bind (update_fences (by simp) _ _) fun _ => .done

theorem createNotificationChannel_fences (id : ℕ) (channel : NotificationChannel)
    (jobIDs : List ℕ) : D.Triple t (fun o _ => Fences t o)
      (createNotificationChannel id channel jobIDs) fun _ o _ => Fences t o := by
  unfold createNotificationChannel
  split
  · exact .fail
  refine .bind (validateNotificationChannelJobs_keeps (.overlay _) channel jobIDs) fun _ => ?_
  refine .bind (insertRow_fences (by simp) _) fun _ => ?_
  exact .forEach fun jobID _ => insertRow_fences (k := .channelJob id jobID) (by simp) ()

theorem updateNotificationChannel_fences (id : ℕ) (channel : NotificationChannel)
    (jobIDs : List ℕ) : D.Triple t (fun o _ => Fences t o)
      (updateNotificationChannel id channel jobIDs) fun _ o _ => Fences t o := by
  unfold updateNotificationChannel
  split
  · exact .fail
  refine .bind (validateNotificationChannelJobs_keeps (.overlay _) channel jobIDs) fun _ => ?_
  refine .bind (update_fences (by simp) _ _) fun r => ?_
  cases r with
  | none => exact .fail
  | some n => exact rebind_blind (.overlay _) (Fences.blind t) id (fun _ => rfl) jobIDs

theorem terminalize_fences (howner : deliveryQueue.owner t = none) (serial : ℕ) (now : Int)
    (channelID : ℕ) (message : Text.Bytes) : D.Triple t (fun o _ => Fences t o)
      (terminalizePendingNotificationDeliveries serial now channelID message)
      fun _ o _ => Fences t o := by
  refine .bind (.note (Q := fun _ o _ => Fences t o) (.overlay _) ?_) fun found => ?_
  · intro o d _ ha _ h _
    refine (Fences.blind t).locks (d := d) ha (fun k hk => ?_) h
    obtain ⟨x, _, rfl⟩ := List.mem_map.1 hk
    rfl
  refine .bind (Discipline.Triple.foldEach (J := fun _ _ o _ => Fences t o)
    (fun x xs acc => ?_) found []) fun affected => ?_
  · refine .bind (.update (Q := fun _ o _ => Fences t o) (.overlay _)
      (fun _ _ _ _ h _ => h) ?_) fun r => ?_
    · intro o d y _ ha h hrow hp _
      refine ⟨LeasedQueue.Moves.sweep (q := deliveryQueue) (i := (x.1, channelID)) h.1 ha howner
        hrow (beq_iff_eq.1 hp) rfl, h.2.update ha hrow⟩
    · cases r with
      | none => exact .done
      | some y => exact .done
  · refine .forEach fun x _ => ?_
    split
    · exact .done
    · exact publishEvent_fences _ _

theorem setNotificationChannelEnabled_fences (howner : deliveryQueue.owner t = none) (serial : ℕ)
    (now : Int) (tenantID id : ℕ) (enabled : Bool) (version : ℕ) :
    D.Triple t (fun o _ => Fences t o)
      (setNotificationChannelEnabled serial now tenantID id enabled version)
      fun _ o _ => Fences t o := by
  refine .bind (update_fences (by simp) _ _) fun r => ?_
  cases r with
  | none => exact .fail
  | some n =>
    refine .bind (.when fun _ => terminalize_fences howner _ _ _ _) fun _ => ?_
    refine .bind (.read (.overlay _)) fun x => ?_
    obtain ⟨n, jobIDs⟩ := x
    cases n with
    | none => exact .fail
    | some n =>
      dsimp only
      split
      · exact .done
      · exact .fail

theorem deleteNotificationChannel_fences (howner : deliveryQueue.owner t = none) (serial : ℕ)
    (now : Int) (tenantID id version : ℕ) : D.Triple t (fun o _ => Fences t o)
      (deleteNotificationChannel serial now tenantID id version) fun _ o _ => Fences t o := by
  refine .bind (update_fences (by simp) _ _) fun r => ?_
  cases r with
  | none => exact .fail
  | some n => exact terminalize_fences howner _ _ _ _

end Channels

section Prepare

variable {D : Discipline Call Key Row}

def Locks (t : Call) (ks : List Key) (o : Overlay Row) : Prop :=
  Fences t o ∧ ∀ k ∈ ks, Present k o

theorem Locks.write {ks : List Key} (h : Locks t ks o) (hk : ∀ e c, k ≠ .delivery e c)
    (v : Row k) : Locks t ks (o.write d k (some v)) :=
  ⟨h.1.write hk v, fun k' hk' => (h.2 k' hk').write⟩

theorem Fences.lock_events (h : Fences t o) (ha : o.Agrees d) {ks ids : List Key}
    (hks : ∀ k ∈ ks, Present k o) (hids : ∀ k ∈ ids, (d.overlay o).row k ≠ none) :
    Locks t (ks ++ ids) (o.writeAll d (lockWrites (d.overlay o) ids)) := by
  refine ⟨⟨h.1.locks ha ids, h.2.locks ha hids⟩, fun k hk => ?_⟩
  have hkey := Overlay.writeAll_lockWrites ha ids k
  by_cases hmem : k ∈ ids
  · rw [if_pos hmem] at hkey
    obtain ⟨v, hv⟩ := Option.ne_none_iff_exists'.1 (hids k hmem)
    exact ⟨_, v, by rw [hkey, hv]⟩
  · obtain ⟨b, v, ho⟩ := hks k ((List.mem_append.1 hk).resolve_right hmem)
    rw [if_neg hmem] at hkey
    exact ⟨b, v, hkey.trans ho⟩

theorem lockEvents_fences (now : Int) (limit : ℕ) (found : List ℕ) :
    D.Triple t (fun o _ => Fences t o) (lockEvents now limit found)
      fun locked o _ => Locks t (locked.map fun x => .event x.1) o := by
  refine (Discipline.Triple.foldEach
    (J := fun _ (acc : List (ℕ × OutboxEvent)) o _ => Locks t (acc.map fun x => .event x.1) o)
    (fun id ids acc => ?_) found []).strengthen fun _ _ _ _ h => ⟨h, by simp⟩
  split
  · refine .bind (.skipLocked (Q := fun (locked : List (ℕ × OutboxEvent)) o _ =>
      Locks t ((acc ++ locked).map fun x => .event x.1) o) (.overlay _) ?_)
      fun locked => .pure fun _ _ _ _ h => h
    intro o d rows _ ha _ h hsub _
    have hrows : ∀ r ∈ rows, r.1 = .event r.2.1 ∧ (d.overlay o).row r.1 ≠ none := by
      intro r hr
      have hmem := hsub.subset hr
      split at hmem
      · next e he =>
          split at hmem
          · rw [List.mem_singleton.1 hmem]
            exact ⟨rfl, by simp [he]⟩
          · cases hmem
      · cases hmem
    have hkeys : rows.map Prod.fst = (rows.map Prod.snd).map fun x => Key.event x.1 := by
      rw [List.map_map]
      exact List.map_congr_left fun r hr => (hrows r hr).1
    rw [List.map_append, ← hkeys]
    refine h.1.lock_events ha h.2 fun k hk => ?_
    obtain ⟨r, hr, rfl⟩ := List.mem_map.1 hk
    exact (hrows r hr).2
  · exact .pure fun _ _ _ _ h => h

theorem matchingNotificationChannelIDs_fences (ks : List Key) (e : OutboxEvent) :
    D.Triple t (fun o _ => Locks t ks o) (matchingNotificationChannelIDs e)
      fun channelIDs o _ => Locks t (ks ++ channelIDs.map .channel) o := by
  refine .bind (.read (.overlay _)) fun found => ?_
  refine (Discipline.Triple.foldEach
    (J := fun _ acc o _ => Locks t (ks ++ acc.map .channel) o)
    (fun x xs acc => ?_) found []).strengthen fun _ _ _ _ h => by simpa using h
  refine .bind (.lock (Q := fun r o _ =>
    Locks t (ks ++ (if r.isSome then acc ++ [x.1] else acc).map .channel) o) (.overlay _)
    (fun _ _ _ _ h _ => h) ?_) fun r => ?_
  · intro o d n _ _ h _ _ _
    refine ⟨h.1.write (by simp) n, fun k hk => ?_⟩
    by_cases hx : k = .channel x.1
    · subst hx
      exact ⟨_, n, Overlay.write_self _ _ _ _⟩
    · refine (h.2 k ?_).write
      simpa [hx] using hk
  · cases r with
    | none => exact .pure fun _ _ _ _ h => h
    | some n => exact .pure fun _ _ _ _ h => h

theorem prepareEvent_fences (ks : List Key) (now : Int) (eventID : ℕ) (e : OutboxEvent)
    (hevent : .event eventID ∈ ks) : D.Triple t (fun o _ => Locks t ks o)
      (prepareEvent now eventID e) fun _ o _ => Locks t ks o := by
  refine .bind (matchingNotificationChannelIDs_fences ks e) fun channelIDs => ?_
  have hweaken : ∀ {o}, Locks t (ks ++ channelIDs.map .channel) o → Locks t ks o :=
    fun h => ⟨h.1, fun k hk => h.2 k (List.mem_append_left _ hk)⟩
  split
  · refine .bind (.update (Q := fun _ o _ => Locks t ks o) (.overlay _)
      (fun _ _ _ _ h _ => hweaken h) ?_) fun _ => .done
    exact fun _ _ _ _ _ h _ _ _ => (hweaken h).write (by simp) _
  · refine (Discipline.Triple.forEach (A := fun o _ => Locks t (ks ++ channelIDs.map .channel) o)
      fun c hc => ?_).weaken fun _ _ _ _ _ h => hweaken h
    refine .bind (.insert (Q := fun _ o _ => Locks t (ks ++ channelIDs.map .channel) o)
      (.overlay _) (fun _ _ _ _ h _ => h) ?_) fun _ => .done
    intro o d _ ha h hnone _
    have he := h.2 _ (List.mem_append_left _ hevent)
    have hc := h.2 (.channel c) (List.mem_append_right _ (List.mem_map_of_mem hc))
    refine ⟨⟨LeasedQueue.Moves.create (q := deliveryQueue) (i := (eventID, c)) h.1.1 ha hnone
      rfl rfl,
      h.1.2.insert he hc⟩, fun k hk => (h.2 k hk).write⟩

theorem prepareNotificationDeliveries_fences (now : Int) (limit : ℕ) :
    D.Triple t (fun o _ => Fences t o) (prepareNotificationDeliveries now limit)
      fun _ o _ => Fences t o := by
  refine .bind (.read (.overlay _)) fun found => ?_
  refine .bind (lockEvents_fences now limit found) fun locked => ?_
  refine (Discipline.Triple.forEach fun x hx => ?_).weaken fun _ _ _ _ _ h => h.1
  exact prepareEvent_fences _ now x.1 x.2 (List.mem_map.2 ⟨x, hx, rfl⟩)

end Prepare

section Claim

def ClaimedDelivery.item (x : ClaimedDelivery) : ℕ × ℕ := (x.eventID, x.channelID)

def claimedCount (xs : List ClaimedDelivery) (i : ℕ × ℕ) : ℕ :=
  (xs.map ClaimedDelivery.item).count i

def addClaimed (snapshot : Db) (acc : List ClaimedDelivery) (i : ℕ × ℕ)
    (y : NotificationDelivery) : List ClaimedDelivery :=
  match snapshot.row (.event i.1), snapshot.row (.channel i.2) with
  | some e, some n => acc ++ [⟨i.1, i.2, y.lease.attempts, e, n⟩]
  | _, _ => acc

theorem claimNotificationDeliveries_eq (now : Int) (owner : String) (limit : ℕ) :
    claimNotificationDeliveries now owner limit =
      claimItems deliveryQueue.key deliveryQueue.lease now limit (claimableDeliveries now)
        (fun _ => NotificationDelivery.claim owner now) addClaimed [] := by
  unfold claimNotificationDeliveries claimItems
  congr 1
  funext snapshot
  congr 1
  funext picked
  congr 1
  funext acc i
  unfold claimItem
  congr 1
  funext r
  cases r with
  | none => rfl
  | some y =>
    simp only [addClaimed]
    cases snapshot.row (.event i.1) with
    | none => rfl
    | some e =>
      cases snapshot.row (.channel i.2) with
      | none => rfl
      | some n => rfl

theorem claimableDeliveries_nodup {now : Int} (h : d.keys.Nodup) :
    (claimableDeliveries now d).Nodup := by
  have hitems : ((deliveries d).map fun x => (x.1, x.2.1)).Nodup := by
    unfold deliveries
    rw [List.map_filterMap]
    refine h.filterMap fun k k' i hk hk' => ?_
    cases k with
    | delivery e c =>
      cases k' with
      | delivery e' c' =>
        obtain ⟨x, hx, he⟩ := Option.map_eq_some_iff.1 hk
        obtain ⟨x', hx', he'⟩ := Option.map_eq_some_iff.1 hk'
        obtain ⟨_, _, rfl⟩ := Option.map_eq_some_iff.1 hx
        obtain ⟨_, _, rfl⟩ := Option.map_eq_some_iff.1 hx'
        have hi : (e, c) = (e', c') := he.trans he'.symm
        cases hi
        rfl
      | _ => cases hk'
    | _ => cases hk
  unfold claimableDeliveries
  refine ((List.perm_insertionSort _ _).map _).nodup_iff.2 ?_
  exact hitems.sublist (List.filter_sublist.map _)

theorem length_claimableDeliveries (now : Int) (d : Db) :
    (claimableDeliveries now d).length ≤ d.keys.length := by
  unfold claimableDeliveries deliveries
  rw [List.length_map, List.length_insertionSort]
  exact (List.length_filter_le _ _).trans (List.length_filterMap_le _ _)

theorem mem_claimableDeliveries {now : Int} {e c : ℕ} : (e, c) ∈ claimableDeliveries now d ↔
    Key.delivery e c ∈ d.keys ∧ ∃ x, d.row (.delivery e c) = some x ∧
      x.lease.claimable now = true := by
  unfold claimableDeliveries
  rw [List.mem_map]
  constructor
  · rintro ⟨⟨e', c', x⟩, hx, he⟩
    cases he
    obtain ⟨hx, hclaimable⟩ := List.mem_filter.1 ((List.mem_insertionSort _).1 hx)
    obtain ⟨hk, hrow⟩ := mem_deliveries.1 hx
    exact ⟨hk, x, hrow, hclaimable⟩
  · rintro ⟨hk, x, hrow, hclaimable⟩
    refine ⟨(e, c, x), (List.mem_insertionSort _).2 ?_, rfl⟩
    exact List.mem_filter.2 ⟨mem_deliveries.2 ⟨hk, hrow⟩, hclaimable⟩

/-- Each delivery that is claimed is in the answer, as its event and its channel are there. -/
theorem claiming (owner : String) (now : Int) :
    deliveryQueue.Claiming owner now (claimableDeliveries now)
      (fun _ => NotificationDelivery.claim owner now) addClaimed claimedCount ReferencesHold where
  nodup := fun _ h => claimableDeliveries_nodup h
  complete := fun d i x hcovers hx hclaimable => by
    obtain ⟨y, hy, rfl⟩ := Option.map_eq_some_iff.1 hx
    refine mem_claimableDeliveries.2 ⟨?_, y, hy, hclaimable⟩
    by_contra hk
    rw [show d.row (deliveryQueue.key i) = none from hcovers _ hk] at hy
    cases hy
  set := fun _ _ => rfl
  counted := fun d acc i y hd hi => by
    obtain ⟨_, x, hx, _⟩ := mem_claimableDeliveries.1 hi
    obtain ⟨he, hc⟩ := hd i.1 i.2 (by simp [hx])
    obtain ⟨e, he⟩ := Option.ne_none_iff_exists'.1 he
    obtain ⟨n, hn⟩ := Option.ne_none_iff_exists'.1 hc
    constructor
    · simp [addClaimed, he, hn, claimedCount, ClaimedDelivery.item]
    · intro j hj
      simp [addClaimed, he, hn, claimedCount, ClaimedDelivery.item, Ne.symm hj]

theorem claimNotificationDeliveries_moves {owner : String}
    (howner : deliveryQueue.owner t = some owner) (limit : ℕ) :
    fencingDiscipline.Triple t (fun o _ => o = Overlay.empty)
      (claimNotificationDeliveries t.now owner limit)
      fun xs o _ => deliveryQueue.Moves t (claimedCount xs) o := by
  have hnone : ∀ i, claimedCount [] i = 0 := fun _ => rfl
  rw [claimNotificationDeliveries_eq]
  exact (claiming owner t.now).triple howner hnone limit

variable {D : Discipline Call Key Row}

theorem claimNotificationDeliveries_references (now : Int) (owner : String) (limit : ℕ) :
    D.Triple t (fun o _ => o = Overlay.empty) (claimNotificationDeliveries now owner limit)
      fun _ o _ => References o := by
  rw [claimNotificationDeliveries_eq]
  refine .bind (.select (Q := fun _ o _ => References o) (.overlay _) ?_) fun snapshot => ?_
  · rintro o d _ _ _ rfl
    exact references_empty
  refine .bind (.skipLocked (Q := fun _ o _ => References o) (.overlay _) ?_) fun picked => ?_
  · intro o d rows _ ha _ h hsub _
    refine h.locks ha fun k hk => ?_
    obtain ⟨r, hr, rfl⟩ := List.mem_map.1 hk
    obtain ⟨i, hi, rfl⟩ := List.mem_map.1 (hsub.subset hr)
    obtain ⟨x, hx, _⟩ := (Option.any_eq_true _ _).1 (List.mem_filter.1 hi).2
    simp [hx]
  · refine Discipline.Triple.foldEach (J := fun _ _ o _ => References o)
      (fun i is acc => ?_) picked []
    refine .bind (.update (Q := fun _ o _ => References o) (.overlay _) (fun _ _ _ _ h _ => h)
      fun o d v _ ha h hrow _ _ => h.update ha hrow) fun r => ?_
    cases r with
    | none => exact .done
    | some y => exact .done

end Claim

section Ends

variable {D : Discipline Call Key Row} {delivery : ℕ × ℕ} {owner : String}

theorem update_delivery_ended (howner : deliveryQueue.owner t = some owner)
    {p : NotificationDelivery → Bool} (set : NotificationDelivery → NotificationDelivery)
    (hp : ∀ x, p x = true → x.lease.heldBy owner t.now = true)
    (hset : ∀ x, x.lease.heldBy owner t.now = true →
      Move (some owner) t.now 0 (some x.lease) (some (set x).lease)) :
    D.Triple t (fun o _ => o = Overlay.empty)
      (.exec (.update (V := Row) (.delivery delivery.1 delivery.2) p set) :
        Tx (Option NotificationDelivery))
      fun r o _ => r ≠ none → deliveryQueue.Ended t delivery o ∧ References o := by
  have hended := deliveryQueue.update_ended (D := D) (i := delivery) howner hp fun x hx => by
    rw [howner]
    exact hset x (hp x hx)
  have hreferences : D.Triple t (fun o _ => o = Overlay.empty)
      (.exec (.update (V := Row) (.delivery delivery.1 delivery.2) p set) :
        Tx (Option NotificationDelivery)) fun _ o _ => References o := by
    refine .update (.overlay _) ?_ ?_
    · rintro o d _ _ rfl _
      exact references_empty
    · rintro o d x _ ha rfl hrow _ _
      exact references_empty.update ha hrow
  exact (hended.and hreferences).weaken fun _ _ _ _ _ h hr => ⟨h.1 hr, h.2⟩

theorem finishNotificationDelivery_ended (howner : deliveryQueue.owner t = some owner)
    (eventID : ℕ) (status : DeliveryStatus) (hstatus : status ≠ .pending) (message : Text.Bytes) :
    D.Triple t (fun o _ => o = Overlay.empty)
      (finishNotificationDelivery t.now owner delivery eventID status message)
      fun _ o _ => deliveryQueue.Ended t delivery o ∧ References o := by
  refine .bind (update_delivery_ended howner (.finish t.now status message) (fun x h => ?_)
    fun x h => .finish rfl h hstatus) fun r => ?_
  · exact (Bool.and_eq_true _ _ ▸ h).2
  cases r with
  | none => exact .fail
  | some x =>
    refine .bind (.select (Q := fun _ o _ => deliveryQueue.Ended t delivery o ∧ References o)
      (.overlay _) fun _ _ _ _ _ h => h (by simp)) fun pending => ?_
    cases pending with
    | true => exact .done
    | false =>
      refine .bind (.update (Q := fun _ o _ => deliveryQueue.Ended t delivery o ∧ References o)
        (.overlay _) (fun _ _ _ _ h _ => h) ?_) fun _ => .done
      intro o d e _ _ h _ _ _
      refine ⟨⟨h.1.moves.congr fun i => Overlay.write_ne (by simp [deliveryQueue]), ?_⟩,
        h.2.write (by simp) _⟩
      rw [Overlay.write_ne (by simp [deliveryQueue])]
      exact h.1.held

theorem retryNotificationDelivery_ended (howner : deliveryQueue.owner t = some owner)
    (message : Text.Bytes) (delay : Int) : D.Triple t (fun o _ => o = Overlay.empty)
      (retryNotificationDelivery t.now owner delivery message delay)
      fun _ o _ => deliveryQueue.Ended t delivery o ∧ References o := by
  refine .bind (update_delivery_ended howner (.retry _ _) (fun x h => h)
    fun x h => .retry rfl h) fun r => ?_
  cases r with
  | none => exact .fail
  | some x => exact .pure fun _ _ _ _ h => h (by simp)

end Ends

def DeliveryAnswer (t : Call) (r : Result) (o : Overlay Row) (_ : Db) : Prop :=
  deliveryQueue.Answered t r o ∧ References o

theorem Fences.answer (h : Fences t o) (ht : deliveryQueue.target t = none) {r : Result}
    (hr : ∀ i, deliveryQueue.claims r i = 0) : DeliveryAnswer t r o d := by
  refine ⟨⟨?_, fun i hi => by simp [ht] at hi⟩, h.2⟩
  rw [show deliveryQueue.claims r = fun _ => 0 from funext hr]
  exact h.1

theorem claimNotificationDeliveries_answered {owner : String}
    (howner : deliveryQueue.owner t = some owner) (ht : deliveryQueue.target t = none) (limit : ℕ) :
    fencingDiscipline.Triple t (fun o _ => o = Overlay.empty)
      (do return .claimed (← claimNotificationDeliveries t.now owner limit) : Tx Result)
      (DeliveryAnswer t) := by
  have hclaim := (claimNotificationDeliveries_moves howner limit).and
    (claimNotificationDeliveries_references t.now owner limit)
  exact .bind hclaim fun xs => .pure fun _ _ _ _ h => ⟨⟨h.1, fun i hi => by simp [ht] at hi⟩, h.2⟩

theorem delivery_answered (t : Call) : fencingDiscipline.Triple t (fun o _ => o = Overlay.empty)
    t.program (DeliveryAnswer t) := by
  have hother : ∀ {α : Type} {p : Tx α} {r : α → Result},
      (∀ a i, deliveryQueue.claims (r a) i = 0) → deliveryQueue.target t = none →
      fencingDiscipline.Triple t (fun o _ => Fences t o) p (fun _ o _ => Fences t o) →
      fencingDiscipline.Triple t (fun o _ => o = Overlay.empty) (p >>= fun a => pure (r a))
        (DeliveryAnswer t) := by
    intro α p r hr ht hp
    refine .bind (hp.strengthen ?_) fun a => .pure fun _ _ _ _ h => h.answer ht (hr a)
    rintro o d _ _ rfl
    exact fences_empty
  have hends : ∀ {p : Tx Unit} {delivery : ℕ × ℕ}, deliveryQueue.target t = some delivery →
      fencingDiscipline.Triple t (fun o _ => o = Overlay.empty) p
        (fun _ o _ => deliveryQueue.Ended t delivery o ∧ References o) →
      fencingDiscipline.Triple t (fun o _ => o = Overlay.empty) (p >>= fun _ => pure .done)
        (DeliveryAnswer t) := by
    intro p delivery ht hp
    refine .bind hp fun _ => .pure fun _ _ _ _ h => ⟨⟨h.1.moves, fun i hi => ?_⟩, h.2⟩
    rw [ht] at hi
    cases hi
    exact h.1.held
  obtain ⟨serial, now, operation⟩ := t
  cases operation with
  | emitEvent => exact hother (fun _ _ => rfl) rfl (insertRow_fences (by simp) _)
  | createNotificationChannel =>
    exact hother (fun _ _ => rfl) rfl (createNotificationChannel_fences _ _ _)
  | updateNotificationChannel =>
    exact hother (fun _ _ => rfl) rfl (updateNotificationChannel_fences _ _ _)
  | setNotificationChannelEnabled =>
    exact hother (fun _ _ => rfl) rfl (setNotificationChannelEnabled_fences rfl _ _ _ _ _ _)
  | deleteNotificationChannel =>
    exact hother (fun _ _ => rfl) rfl (deleteNotificationChannel_fences rfl _ _ _ _ _)
  | prepareNotificationDeliveries =>
    exact hother (fun _ _ => rfl) rfl (prepareNotificationDeliveries_fences _ _)
  | claimNotificationDeliveries owner limit =>
    exact claimNotificationDeliveries_answered rfl rfl limit
  | completeNotificationDelivery =>
    exact hends rfl (finishNotificationDelivery_ended rfl _ _ (by simp) _)
  | deadLetterNotificationDelivery =>
    exact hends rfl (finishNotificationDelivery_ended rfl _ _ (by simp) _)
  | retryNotificationDelivery => exact hends rfl (retryNotificationDelivery_ended rfl _ _)

theorem finishNotificationDelivery_fails (now : Int) (owner : String) (delivery : ℕ × ℕ)
    (eventID : ℕ) (status : DeliveryStatus) (message : Text.Bytes) :
    (finishNotificationDelivery now owner delivery eventID status message).Fails
      (· = .notificationLeaseLost) := by
  refine .bind (.exec _) fun r => ?_
  cases r with
  | none => rfl
  | some x =>
    refine .bind (.exec _) fun pending => ?_
    cases pending with
    | true => trivial
    | false => exact .bind (.exec _) fun _ => trivial

theorem retryNotificationDelivery_fails (now : Int) (owner : String) (delivery : ℕ × ℕ)
    (message : Text.Bytes) (delay : Int) :
    (retryNotificationDelivery now owner delivery message delay).Fails
      (· = .notificationLeaseLost) := by
  refine .bind (.exec _) fun r => ?_
  cases r with
  | none => rfl
  | some x => trivial

theorem delivery_fails (t : Call) (i : ℕ × ℕ) (ht : deliveryQueue.target t = some i) :
    t.program.Fails (· = .notificationLeaseLost) := by
  obtain ⟨serial, now, operation⟩ := t
  cases operation with
  | completeNotificationDelivery | deadLetterNotificationDelivery =>
    exact .bind (finishNotificationDelivery_fails _ _ _ _ _ _) fun _ => trivial
  | retryNotificationDelivery =>
    exact .bind (retryNotificationDelivery_fails _ _ _ _ _) fun _ => trivial
  | _ => cases ht

theorem delivery_batch (hd : ReferencesHold d) (hnodup : d.keys.Nodup)
    (hcovers : ∀ k, k ∉ d.keys → d.row k = none) (busy : Key → Bool) (t : Call) (a : String)
    (limit : ℕ) (ht : deliveryQueue.batch t = some (a, limit)) (hlimit : d.keys.length ≤ limit) :
    ∃ inps r d', t.program.amid busy inps d = some (.ok r, d') ∧
      ∀ i x, deliveryQueue.leaseOf i d = some x → x.claimable t.now = true →
        busy (deliveryQueue.key i) = false →
        deliveryQueue.claims r i = 1 ∧ deliveryQueue.leaseOf i d' = some (x.claim a t.now) := by
  obtain ⟨serial, now, operation⟩ := t
  cases operation with
  | claimNotificationDeliveries owner n =>
    cases ht
    have hnone : ∀ i, claimedCount [] i = 0 := fun _ => rfl
    obtain ⟨inps, xs, d', hamid, hitems⟩ := (claiming a now).amid hd hnodup hcovers busy hnone
      ((length_claimableDeliveries now d).trans hlimit)
    refine ⟨inps, .claimed xs, d', ?_, hitems⟩
    rw [← claimNotificationDeliveries_eq] at hamid
    exact Program.amid_map hamid
  | _ => cases ht

theorem delivery_conforms :
    deliveryQueue.Conforms notificationSystem ReferencesHold fencingDiscipline DeliveryAnswer where
  answer := ⟨fun _ _ _ _ h _ _ _ _ => h.2, fun _ _ _ _ _ _ h => h⟩
  meets := fun _ _ _ => ⟨fun _ _ _ _ _ => trivial, fun _ => trivial, fun _ _ _ => trivial⟩
  inv := fun _ h => h
  safe := fun t d hinv _ => delivery_answered t _ d hinv (fun _ _ h => by cases h) rfl
  answered := fun _ _ _ _ h => h.1
  now := fun d t h => le_of_eq (beq_iff_eq.1 h)
  fails := delivery_fails
  batch := fun d hd hnodup hcovers =>
    ⟨d.keys.length, fun busy t a limit => delivery_batch hd hnodup hcovers busy t a limit⟩

end GoScheduler.Notification
