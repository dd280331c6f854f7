import GoScheduler.Notification.Outbox

/-! Disabling or deleting a channel ends its pending deliveries. A fan-out inserts a delivery
only while it holds the row of the channel, which it found enabled; a transaction that
leaves a channel disabled holds the same row, so no delivery can be added to the channel
between its sweep and its commit. -/
namespace GoScheduler.Notification
open ReadCommitted Queue

def NotificationChannel.active (n : NotificationChannel) : Bool := n.enabled && n.deletedAt.isNone

def NotificationDelivery.pending (x : NotificationDelivery) : Bool := x.lease.status == .pending

def PendingActive (d : Db) : Prop :=
  ∀ e c x, d.row (.delivery e c) = some x → x.pending = true →
    ∃ n, d.row (.channel c) = some n ∧ n.active = true

def HoldsActive (c : ℕ) (o : Overlay Row) : Prop :=
  ∃ b n, o (.channel c) = some ⟨b, some n⟩ ∧ n.active = true

/-- What a transaction has done to deliveries and channels so far. The channels in
`closing` are those it leaves disabled or deleted. -/
structure ChannelWrites (closing : ℕ → Prop) (o : Overlay Row) : Prop where
  created : ∀ e c x, o (.delivery e c) = some ⟨none, some x⟩ → HoldsActive c o
  kept : ∀ e c x v, o (.delivery e c) = some ⟨some x, v⟩ →
    ∃ x', v = some x' ∧ (x'.pending = true → x.pending = true)
  channel : ∀ c h, o (.channel c) = some h →
    ∃ n, h.version = some n ∧ (n.active = true ∨ closing c)

structure Swept (c : ℕ) (rest : List ℕ) (o : Overlay Row) (d : Db) : Prop where
  held : o (.channel c) ≠ none
  pending : ∀ e x, (d.overlay o).row (.delivery e c) = some x → x.pending = true → e ∈ rest

/-- Every channel that is left inactive has no pending delivery. -/
def Closing (closing : ℕ → Prop) (o : Overlay Row) (d : Db) : Prop :=
  ChannelWrites closing o ∧ ∀ c, closing c → Swept c [] o d

variable {o o' : Overlay Row} {d d' : Db} {e c : ℕ} {P : ℕ → Prop} {t : Call}

theorem PendingActive.commit (h : PendingActive d) (ha : o.Agrees d) (hw : Closing P o d) :
    PendingActive (d.overlay o) := by
  intro e c x hrow hp
  -- a delivery that was pending before has an active channel, which is kept or swept
  have hbefore : ∀ x₀, d.row (.delivery e c) = some x₀ → x₀.pending = true →
      ∃ n, (d.overlay o).row (.channel c) = some n ∧ n.active = true := by
    intro x₀ hx₀ hp₀
    obtain ⟨n, hn, hactive⟩ := h e c x₀ hx₀ hp₀
    cases ho : o (.channel c) with
    | none => exact ⟨n, (Database.overlay_row_free ho).trans hn, hactive⟩
    | some held =>
      obtain ⟨n', hn', hcases⟩ := hw.1.channel c held ho
      refine ⟨n', (Database.overlay_row_held ho).trans hn', hcases.resolve_right fun hc => ?_⟩
      cases (hw.2 c hc).pending e x hrow hp
  cases ho : o (.delivery e c) with
  | none => exact hbefore x ((Database.overlay_row_free ho).symm.trans hrow) hp
  | some held =>
    obtain ⟨base, version⟩ := held
    have hv : version = some x := (Database.overlay_row_held ho).symm.trans hrow
    subst hv
    cases base with
    | none =>
      obtain ⟨b, n, hn, hactive⟩ := hw.1.created e c x ho
      exact ⟨n, Database.overlay_row_held hn, hactive⟩
    | some x₀ =>
      obtain ⟨x', he, hpend⟩ := hw.1.kept e c x₀ _ ho
      cases he
      exact hbefore x₀ (ha _ _ ho) (hpend hp)

def channelDiscipline : Discipline Call Key Row where
  inv := PendingActive
  guarantee := fun _ d o => ∃ closing, Closing closing o d
  pair := fun _ _ _ _ => True
  alone := fun _ _ _ => True
  reading := fun _ _ _ => True
  inv_addKey := fun _ h => h
  inv_advance := fun _ h => h
  inv_commit := fun h ha hg => h.commit ha hg.choose_spec

section Stability

theorem Swept.stable (c : ℕ) (rest : List ℕ) : channelDiscipline.Stable t (Swept c rest) := by
  intro o d d' hop h
  refine ⟨h.held, fun e x hrow hp => ?_⟩
  cases hop.interferes with
  | grow ws => exact h.pending e x (by simpa [Database.overlay] using hrow) hp
  | tick n => exact h.pending e x hrow hp
  | @commit t' o' _ hd _ ha hg =>
    obtain ⟨closing, hw, _⟩ := hg
    have hchannel : o' (.channel c) = none := (hd _).resolve_left h.held
    cases ho : o (.delivery e c) with
    | some held =>
      refine h.pending e x ?_ hp
      exact (Database.overlay_row_held ho).trans ((Database.overlay_row_held ho).symm.trans hrow)
    | none =>
      have hview : ∀ x₀, d.row (.delivery e c) = some x₀ →
          (d.overlay o).row (.delivery e c) = some x₀ :=
        fun x₀ h₀ => (Database.overlay_row_free ho).trans h₀
      have hrow' := (Database.overlay_row_free ho).symm.trans hrow
      cases ho' : o' (.delivery e c) with
      | none => exact h.pending e x (hview x ((Database.overlay_row_free ho').symm.trans hrow')) hp
      | some held =>
        obtain ⟨base, version⟩ := held
        have hv : version = some x := (Database.overlay_row_held ho').symm.trans hrow'
        subst hv
        cases base with
        | none =>
          -- the other transaction would hold the channel
          obtain ⟨b, n, hn, _⟩ := hw.created e c x ho'
          rw [hchannel] at hn
          cases hn
        | some x₀ =>
          obtain ⟨x', he, hpend⟩ := hw.kept e c x₀ _ ho'
          cases he
          exact h.pending e x₀ (hview x₀ (ha _ _ ho')) (hpend hp)

theorem Closing.stable (P : ℕ → Prop) : channelDiscipline.Stable t (Closing P) :=
  fun o d d' hop h => ⟨h.1, fun c hc => Swept.stable c [] o d d' hop (h.2 c hc)⟩

theorem Closing.final (h : Closing P o d) : channelDiscipline.Final t o d :=
  fun _ hl _ _ => ⟨P, (Closing.stable P).later hl h⟩

theorem ChannelWrites.final (h : ChannelWrites (fun _ => False) o) :
    channelDiscipline.Final t o d :=
  Closing.final (P := fun _ => False) ⟨h, fun _ hc => hc.elim⟩

end Stability

section Blind

def Key.channelWork : Key → Bool
  | .delivery _ _ | .channel _ => true
  | _ => false

theorem ChannelWrites.blind (P : ℕ → Prop) :
    Discipline.Blind Key.channelWork fun o _ => ChannelWrites P o := by
  intro o o' d d' hkeys _ h
  have hdelivery : ∀ e c, o' (.delivery e c) = o (.delivery e c) := fun e c => hkeys _ rfl
  have hchannel : ∀ c, o' (.channel c) = o (.channel c) := fun c => hkeys _ rfl
  constructor
  · intro e c x hx
    unfold HoldsActive
    rw [hchannel]
    exact h.created e c x (by rw [← hdelivery, hx])
  · intro e c x v hx
    exact h.kept e c x v (by rw [← hdelivery, hx])
  · intro c held hk
    exact h.channel c held (by rw [← hchannel, hk])

theorem Swept.blind (c : ℕ) (rest : List ℕ) :
    Discipline.Blind Key.channelWork (Swept c rest) := by
  intro o o' d d' hkeys hrow h
  refine ⟨by rw [hkeys _ rfl]; exact h.held, fun e x hx hp => h.pending e x ?_ hp⟩
  rw [← hx]
  exact (Database.overlay_congr (by rw [hrow]) (hkeys (.delivery e c) rfl)).symm

theorem Closing.blind (P : ℕ → Prop) : Discipline.Blind Key.channelWork (Closing P) :=
  fun o o' d d' hkeys hrow h => ⟨ChannelWrites.blind P o o' d d' hkeys hrow h.1,
    fun c hc => Swept.blind c [] o o' d d' hkeys hrow (h.2 c hc)⟩

end Blind

section Rows

theorem channelWrites_empty : ChannelWrites P (Overlay.empty : Overlay Row) := by
  constructor
  all_goals intros; contradiction

/-- A delivery is written: a new one for a channel that is held, or one that is not made pending. -/
theorem ChannelWrites.write_delivery (h : ChannelWrites P o) (ha : o.Agrees d)
    {x' : NotificationDelivery} (hnew : d.row (.delivery e c) = none → HoldsActive c o)
    (hold : ∀ y, d.row (.delivery e c) = some y → x'.pending = true → y.pending = true) :
    ChannelWrites P (o.write d (.delivery e c) (some x')) := by
  have hself := Overlay.write_self_of_agrees ha (.delivery e c) (some x')
  have hchannel : ∀ c', o.write d (.delivery e c) (some x') (.channel c') = o (.channel c') :=
    fun c' => Overlay.write_ne (by simp)
  constructor
  · intro e' c' y hy
    unfold HoldsActive
    rw [hchannel]
    by_cases hk : Key.delivery e' c' = .delivery e c
    · cases hk
      rw [hself, Option.some.injEq, Held.mk.injEq] at hy
      exact hnew hy.1
    · rw [Overlay.write_ne hk] at hy
      exact h.created e' c' y hy
  · intro e' c' y v hy
    by_cases hk : Key.delivery e' c' = .delivery e c
    · cases hk
      rw [hself, Option.some.injEq, Held.mk.injEq] at hy
      exact ⟨x', hy.2.symm, hold y hy.1⟩
    · rw [Overlay.write_ne hk] at hy
      exact h.kept e' c' y v hy
  · intro c' held hk
    rw [hchannel] at hk
    exact h.channel c' held hk

theorem ChannelWrites.delivery (h : ChannelWrites P o) (ha : o.Agrees d)
    {x x' : NotificationDelivery} (hrow : (d.overlay o).row (.delivery e c) = some x)
    (hp : x'.pending = true → x.pending = true) :
    ChannelWrites P (o.write d (.delivery e c) (some x')) := by
  cases ho : o (.delivery e c) with
  | none =>
    rw [Database.overlay_row_free ho] at hrow
    refine h.write_delivery ha (fun hnone => ?_) fun y hy => ?_
    · cases hrow.symm.trans hnone
    · cases hrow.symm.trans hy
      exact hp
  | some held =>
    obtain ⟨base, version⟩ := held
    obtain rfl : version = some x := (Database.overlay_row_held ho).symm.trans hrow
    have hbase := ha _ _ ho
    refine h.write_delivery ha (fun hnone => ?_) fun y hy hx' => ?_
    · cases hbase.symm.trans hnone
      exact h.created e c x ho
    · cases hbase.symm.trans hy
      obtain ⟨_, heq, hpend⟩ := h.kept e c y _ ho
      cases heq
      exact hpend (hp hx')

theorem ChannelWrites.insert (h : ChannelWrites P o) (ha : o.Agrees d)
    {x : NotificationDelivery} (hnone : (d.overlay o).row (.delivery e c) = none)
    (hc : HoldsActive c o) : ChannelWrites P (o.write d (.delivery e c) (some x)) := by
  refine h.write_delivery ha (fun _ => hc) fun y hy => ?_
  -- a row that was there has not been removed by the transaction
  cases ho : o (.delivery e c) with
  | none => cases ((Database.overlay_row_free ho).symm.trans hnone).symm.trans hy
  | some held =>
    obtain ⟨base, version⟩ := held
    obtain rfl : version = none := (Database.overlay_row_held ho).symm.trans hnone
    cases (ha _ _ ho).symm.trans hy
    obtain ⟨_, heq, _⟩ := h.kept e c y _ ho
    cases heq

theorem ChannelWrites.write_channel (h : ChannelWrites P o) {n : NotificationChannel}
    (hn : n.active = true ∨ (P c ∧ ∀ e x, o (.delivery e c) ≠ some ⟨none, some x⟩)) :
    ChannelWrites P (o.write d (.channel c) (some n)) := by
  have hdelivery : ∀ e' c', o.write d (.channel c) (some n) (.delivery e' c') =
      o (.delivery e' c') := fun e' c' => Overlay.write_ne (by simp)
  constructor
  · intro e' c' y hy
    rw [hdelivery] at hy
    by_cases hc : c' = c
    · subst hc
      cases hn with
      | inl hactive => exact ⟨_, n, Overlay.write_self _ _ _ _, hactive⟩
      | inr hclosing => exact absurd hy (hclosing.2 e' y)
    · unfold HoldsActive
      rw [Overlay.write_ne (by simpa using hc)]
      exact h.created e' c' y hy
  · intro e' c' y v hy
    rw [hdelivery] at hy
    exact h.kept e' c' y v hy
  · intro c' held hk
    by_cases hc : c' = c
    · subst hc
      rw [Overlay.write_self] at hk
      cases hk
      exact ⟨n, rfl, hn.imp_right And.left⟩
    · rw [Overlay.write_ne (by simpa using hc)] at hk
      exact h.channel c' held hk

theorem ChannelWrites.locks (h : ChannelWrites P o) (ha : o.Agrees d) {ks : List Key}
    (hks : ∀ c, Key.channel c ∉ ks) :
    ChannelWrites P (o.writeAll d (lockWrites (d.overlay o) ks)) := by
  have hkeys := Overlay.writeAll_lockWrites ha ks
  have hchannel : ∀ c', o.writeAll d (lockWrites (d.overlay o) ks) (.channel c') =
      o (.channel c') := fun c' => by rw [hkeys, if_neg (hks c')]
  have hold : ∀ e' c' held, o.writeAll d (lockWrites (d.overlay o) ks) (.delivery e' c') =
      some held →
      o (.delivery e' c') = some held ∨ held.version = held.base := by
    intro e' c' held hk
    rw [hkeys] at hk
    split at hk
    · cases hk
      cases ho : o (.delivery e' c') with
      | none => exact .inr (Database.overlay_row_free ho)
      | some held =>
        left
        rw [ha _ _ ho, Database.overlay_row_held ho]
    · exact .inl hk
  constructor
  · intro e' c' y hy
    unfold HoldsActive
    rw [hchannel]
    cases hold e' c' _ hy with
    | inl ho => exact h.created e' c' y ho
    | inr heq => cases heq
  · intro e' c' y v hy
    cases hold e' c' _ hy with
    | inl ho => exact h.kept e' c' y v ho
    | inr heq => exact ⟨y, heq, id⟩
  · intro c' held hk
    rw [hchannel] at hk
    exact h.channel c' held hk

end Rows

section Queue

/-- A delivery of which the update makes nothing pending, in a transaction that leaves no
channel inactive. -/
theorem update_delivery (p : NotificationDelivery → Bool)
    (set : NotificationDelivery → NotificationDelivery)
    (hset : ∀ x, p x = true → (set x).pending = true → x.pending = true) (e c : ℕ) :
    channelDiscipline.Triple t (fun o _ => ChannelWrites P o)
      (.exec (.update (V := Row) (.delivery e c) p set) : Tx (Option NotificationDelivery))
      fun _ o _ => ChannelWrites P o :=
  .update (.overlay _) (fun _ _ _ _ h _ => h)
    fun _ _ v _ ha h hrow hp _ => h.delivery ha hrow (hset v hp)

theorem finishNotificationDelivery_writes (now : Int) (owner : String) (delivery : ℕ × ℕ)
    (eventID : ℕ) (status : DeliveryStatus) (hstatus : status ≠ .pending) (message : Text.Bytes) :
    channelDiscipline.Triple t (fun o _ => ChannelWrites P o)
      (finishNotificationDelivery now owner delivery eventID status message)
      fun _ o _ => ChannelWrites P o := by
  refine .bind (update_delivery _ _ (fun x _ hp => ?_) _ _) fun r => ?_
  · simp [NotificationDelivery.pending, NotificationDelivery.finish, Leased.finish, hstatus] at hp
  cases r with
  | none => exact .fail
  | some x =>
    refine .bind (.read (.overlay _)) fun pending => ?_
    cases pending with
    | true => exact .done
    | false => exact publishEvent_blind (.overlay _) (ChannelWrites.blind P) _ _ rfl

theorem retryNotificationDelivery_writes (now : Int) (owner : String) (delivery : ℕ × ℕ)
    (message : Text.Bytes) (delay : Int) :
    channelDiscipline.Triple t (fun o _ => ChannelWrites P o)
      (retryNotificationDelivery now owner delivery message delay)
      fun _ o _ => ChannelWrites P o := by
  refine .bind (update_delivery _ (.retry _ _) (fun x _ hp => hp) _ _) fun r => ?_
  cases r with
  | none => exact .fail
  | some x => exact .done

theorem claimNotificationDeliveries_writes (now : Int) (owner : String) (limit : ℕ) :
    channelDiscipline.Triple t (fun o _ => ChannelWrites P o)
      (claimNotificationDeliveries now owner limit) fun _ o _ => ChannelWrites P o := by
  refine .bind (.read (.overlay _)) fun snapshot => ?_
  refine .bind (.skipLocked (Q := fun _ o _ => ChannelWrites P o) (.overlay _) ?_) fun picked => ?_
  · intro o d rows _ ha _ h hsub _
    refine h.locks ha fun c hmem => ?_
    obtain ⟨r, hr, hk⟩ := List.mem_map.1 hmem
    obtain ⟨x, _, rfl⟩ := List.mem_map.1 (hsub.subset hr)
    cases hk
  · refine Discipline.Triple.foldEach (J := fun _ _ o _ => ChannelWrites P o)
      (fun x xs acc => ?_) picked []
    refine .bind (update_delivery _ (.claim owner now) (fun x _ hp => hp) _ _) fun r => ?_
    cases r with
    | none => exact .done
    | some y =>
      dsimp only
      split
      · exact .done
      · exact .done

end Queue

section Prepare

theorem lockEvents_writes (now : Int) (limit : ℕ) (found : List ℕ) :
    channelDiscipline.Triple t (fun o _ => ChannelWrites P o) (lockEvents now limit found)
      fun _ o _ => ChannelWrites P o := by
  refine Discipline.Triple.foldEach (J := fun _ _ o _ => ChannelWrites P o)
    (fun id ids acc => ?_) found []
  split
  · refine .bind (.skipLocked (Q := fun _ o _ => ChannelWrites P o) (.overlay _) ?_)
      fun locked => .done
    intro o d rows _ ha _ h hsub _
    refine (ChannelWrites.blind P).locks (d := d) ha (fun k hk => ?_) h
    obtain ⟨r, hr, rfl⟩ := List.mem_map.1 hk
    have hmem := hsub.subset hr
    split at hmem
    · split at hmem
      · rw [List.mem_singleton.1 hmem]
        rfl
      · cases hmem
    · cases hmem
  · exact .done

def HoldsChannels (channelIDs : List ℕ) (o : Overlay Row) : Prop :=
  ∀ c ∈ channelIDs, HoldsActive c o

theorem active_of_matches {e : OutboxEvent} {bound : Bool} {n : NotificationChannel}
    (h : n.matches e bound = true) : n.active = true := by
  simp only [NotificationChannel.matches, NotificationChannel.active, Bool.and_eq_true] at h ⊢
  exact ⟨h.1.1.1.2, h.1.1.2⟩

theorem HoldsActive.write_channel {n : NotificationChannel} {c' : ℕ} (h : HoldsActive c o)
    (hn : n.active = true) : HoldsActive c (o.write d (.channel c') (some n)) := by
  by_cases hc : c = c'
  · subst hc
    exact ⟨_, n, Overlay.write_self _ _ _ _, hn⟩
  · unfold HoldsActive
    rw [Overlay.write_ne (by simpa using hc)]
    exact h

theorem matchingNotificationChannelIDs_writes (e : OutboxEvent) :
    channelDiscipline.Triple t (fun o _ => ChannelWrites P o) (matchingNotificationChannelIDs e)
      fun channelIDs o _ => ChannelWrites P o ∧ HoldsChannels channelIDs o := by
  refine .bind (.read (.overlay _)) fun found => ?_
  refine (Discipline.Triple.foldEach
    (J := fun _ acc o _ => ChannelWrites P o ∧ HoldsChannels acc o)
    (fun x xs acc => ?_) found []).strengthen fun _ _ _ _ h => ⟨h, by simp [HoldsChannels]⟩
  refine .bind (.lock (Q := fun r o _ => ChannelWrites P o ∧
    HoldsChannels (if r.isSome then acc ++ [x.1] else acc) o) (.overlay _)
    (fun _ _ _ _ h _ => h) ?_) fun r => ?_
  · intro o d n _ _ h _ hmatch _
    have hactive := active_of_matches hmatch
    refine ⟨h.1.write_channel (.inl hactive), fun c hc => ?_⟩
    have hc' : c ∈ acc ++ [x.1] := hc
    cases List.mem_append.1 hc' with
    | inl hacc => exact (h.2 c hacc).write_channel hactive
    | inr hlast =>
      rw [List.mem_singleton.1 hlast]
      exact ⟨_, n, Overlay.write_self _ _ _ _, hactive⟩
  · cases r with
    | none => exact .pure fun _ _ _ _ h => h
    | some n => exact .pure fun _ _ _ _ h => h

theorem prepareEvent_writes (now : Int) (eventID : ℕ) (e : OutboxEvent) :
    channelDiscipline.Triple t (fun o _ => ChannelWrites P o) (prepareEvent now eventID e)
      fun _ o _ => ChannelWrites P o := by
  refine .bind (matchingNotificationChannelIDs_writes e) fun channelIDs => ?_
  split
  · exact (publishEvent_blind (.overlay _) (ChannelWrites.blind P) _ _ rfl).strengthen
      fun _ _ _ _ h => h.1
  · refine (Discipline.Triple.forEach (A := fun o _ => ChannelWrites P o ∧
      HoldsChannels channelIDs o) fun c hc => ?_).weaken fun _ _ _ _ _ h => h.1
    refine .bind (.insert (Q := fun _ o _ => ChannelWrites P o ∧ HoldsChannels channelIDs o)
      (.overlay _) (fun _ _ _ _ h _ => h) ?_) fun _ => .done
    intro o d _ ha h hnone _
    refine ⟨h.1.insert ha hnone (h.2 c hc), fun c' hc' => ?_⟩
    unfold HoldsActive
    rw [Overlay.write_ne (by simp)]
    exact h.2 c' hc'

theorem prepareNotificationDeliveries_writes (now : Int) (limit : ℕ) :
    channelDiscipline.Triple t (fun o _ => ChannelWrites P o)
      (prepareNotificationDeliveries now limit) fun _ o _ => ChannelWrites P o := by
  refine .bind (.read (.overlay _)) fun found => ?_
  refine .bind (lockEvents_writes now limit found) fun locked => ?_
  exact .forEach fun x _ => prepareEvent_writes now x.1 x.2

end Prepare

section Edits

def Closes (c : ℕ) (o : Overlay Row) : Prop :=
  ChannelWrites (fun c' => c' = c) o ∧ o (.channel c) ≠ none

theorem swept_pendingOfChannel (hc : o.Covered d) (hheld : o (.channel c) ≠ none) :
    Swept c ((pendingOfChannel c (d.overlay o)).map Prod.fst) o d := by
  refine ⟨hheld, fun e x hrow hp => ?_⟩
  unfold pendingOfChannel
  rw [List.map_map, List.mem_map]
  refine ⟨(e, c, x), List.mem_filter.2 ⟨mem_deliveries.2 ⟨hc.mem_keys hrow, hrow⟩, ?_⟩, rfl⟩
  simpa [NotificationDelivery.pending] using hp

theorem Swept.terminalize {rest : List ℕ} {x : NotificationDelivery}
    (h : Swept c (e :: rest) o d) (hx : x.pending = false) :
    Swept c rest (o.write d (.delivery e c) (some x)) (d.addKey (.delivery e c)) := by
  refine ⟨by rw [Overlay.write_ne (by simp)]; exact h.held, fun e' y hrow hp => ?_⟩
  by_cases hk : Key.delivery e' c = .delivery e c
  · cases hk
    have hy : some x = some y := (Database.overlay_write_self ..).symm.trans hrow
    cases hy
    rw [hx] at hp
    cases hp
  · have hrow' := (Database.overlay_write_ne hk).symm.trans hrow
    refine (List.mem_cons.1 (h.pending e' y hrow' hp)).resolve_left fun he => hk (by rw [he])

theorem Swept.skip {rest : List ℕ} (h : Swept c (e :: rest) o d)
    (hnone : ∀ x, (d.overlay o).row (.delivery e c) = some x → x.pending = false) :
    Swept c rest o d := by
  refine ⟨h.held, fun e' y hrow hp => ?_⟩
  refine (List.mem_cons.1 (h.pending e' y hrow hp)).resolve_left fun he => ?_
  subst he
  rw [hnone y hrow] at hp
  cases hp

theorem terminalize_sweeps (serial : ℕ) (now : Int) (channelID : ℕ) (message : Text.Bytes) :
    channelDiscipline.Triple t (fun o _ => Closes channelID o)
      (terminalizePendingNotificationDeliveries serial now channelID message)
      fun _ => Closing fun c => c = channelID := by
  let P : ℕ → Prop := fun c => c = channelID
  have hsettled : channelDiscipline.Stable t fun o d => ChannelWrites P o ∧
      Swept channelID [] o d := .and (.overlay _) (Swept.stable _ _)
  refine .bind (.note (Q := fun found o d => ChannelWrites P o ∧
    Swept channelID (found.map Prod.fst) o d) (.overlay _) ?_) fun found => ?_
  · intro o d _ ha hc h _
    have hforeign : ∀ k ∈ (pendingOfChannel channelID (d.overlay o)).map
        (fun x => Key.sweep x.1 serial), k.channelWork = false := by
      intro k hk
      obtain ⟨x, _, rfl⟩ := List.mem_map.1 hk
      rfl
    exact ((ChannelWrites.blind P).and (Swept.blind channelID _)).locks ha hforeign
      ⟨h.1, swept_pendingOfChannel hc h.2⟩
  refine .bind (Q := fun _ o d => ChannelWrites P o ∧ Swept channelID [] o d)
    (Discipline.Triple.foldEach (J := fun (rest : List (ℕ × Bool)) (_ : List (ℕ × Bool)) o d =>
      ChannelWrites P o ∧ Swept channelID (rest.map Prod.fst) o d) (fun x xs acc => ?_) found [])
    fun affected => ?_
  · refine .bind (.update (Q := fun _ o d => ChannelWrites P o ∧
      Swept channelID (xs.map Prod.fst) o d) (.and (.overlay _) (Swept.stable _ _)) ?_ ?_)
      fun r => ?_
    · exact fun o d _ _ h hnone => ⟨h.1, h.2.skip hnone⟩
    · exact fun o d y _ ha h hrow hp _ =>
        ⟨h.1.delivery ha hrow fun _ => hp, h.2.terminalize rfl⟩
    · cases r with
      | none => exact .done
      | some y => exact .done
  · refine (Discipline.Triple.forEach fun x _ => ?_).weaken fun _ o d _ _ h => ⟨h.1, ?_⟩
    · split
      · exact .done
      · exact publishEvent_blind hsettled ((ChannelWrites.blind P).and (Swept.blind _ _)) _ _ rfl
    · rintro c rfl
      exact h.2

/-- The first statement of an edit: the channel is written by a transaction that holds
nothing else. -/
theorem update_channel (id : ℕ) (p : NotificationChannel → Bool)
    (set : NotificationChannel → NotificationChannel)
    {Q : Option NotificationChannel → Overlay Row → Db → Prop} (hnone : ∀ o d, Q none o d)
    (hsome : ∀ d n, PendingActive d → d.row (.channel id) = some n → p n = true →
      Q (some (set n)) ((Overlay.empty : Overlay Row).write d (.channel id) (some (set n)))
        (d.addKey (.channel id))) :
    channelDiscipline.Triple t (fun o _ => o = Overlay.empty)
      (.exec (.update (V := Row) (.channel id) p set) : Tx (Option NotificationChannel)) Q := by
  refine .update (.overlay _) (fun _ _ _ _ _ _ => hnone _ _) ?_
  rintro o d n hinv _ rfl hrow hp _
  exact hsome d n hinv hrow hp

theorem write_closes {n : NotificationChannel} (id : ℕ) :
    Closes id ((Overlay.empty : Overlay Row).write d (.channel id) (some n)) := by
  refine ⟨channelWrites_empty.write_channel (.inr ⟨rfl, ?_⟩), by simp [Overlay.write_self]⟩
  simp

theorem setNotificationChannelEnabled_closes (serial : ℕ) (now : Int) (tenantID id : ℕ)
    (enabled : Bool) (version : ℕ) :
    channelDiscipline.Triple t (fun o _ => o = Overlay.empty)
      (setNotificationChannelEnabled serial now tenantID id enabled version)
      fun _ => channelDiscipline.Final t := by
  refine .bind (update_channel id _ _ (Q := fun r o _ => r ≠ none →
    if enabled then ChannelWrites (fun _ => False) o else Closes id o) ?_ ?_) fun r => ?_
  · exact fun _ _ h => absurd rfl h
  · intro d n _ _ hp _
    cases enabled with
    | false => exact write_closes id
    | true =>
      refine channelWrites_empty.write_channel (.inl ?_)
      simp only [NotificationChannel.current, Bool.and_eq_true] at hp
      simpa [NotificationChannel.active] using hp.2
  cases r with
  | none => exact .fail
  | some n =>
    refine .bind (Q := fun _ o d => ∃ P, Closing P o d) ?_ fun _ => ?_
    · cases enabled with
      | true =>
        exact .pure fun o d _ _ h => ⟨fun _ => False, h (by simp), fun _ hc => hc.elim⟩
      | false =>
        exact ((terminalize_sweeps serial now id _).strengthen fun _ _ _ _ h => h (by simp)).weaken
          fun _ _ _ _ _ h => ⟨_, h⟩
    · refine .introduce fun P => ?_
      refine .bind (.read (Closing.stable P)) fun x => ?_
      obtain ⟨n, jobIDs⟩ := x
      cases n with
      | none => exact .fail
      | some n =>
        dsimp only
        split
        · exact .pure fun _ _ _ _ h => h.final
        · exact .fail

theorem deleteNotificationChannel_closes (serial : ℕ) (now : Int) (tenantID id version : ℕ) :
    channelDiscipline.Triple t (fun o _ => o = Overlay.empty)
      (deleteNotificationChannel serial now tenantID id version)
      fun _ => channelDiscipline.Final t := by
  refine .bind (update_channel id _ _ (Q := fun r o _ => r ≠ none → Closes id o) ?_ ?_) fun r => ?_
  · exact fun _ _ h => absurd rfl h
  · exact fun d n _ _ _ _ => write_closes id
  cases r with
  | none => exact .fail
  | some n =>
    exact ((terminalize_sweeps serial now id _).strengthen fun _ _ _ _ h => h (by simp)).weaken
      fun _ _ _ _ _ h => h.final

theorem createNotificationChannel_writes (id : ℕ) (channel : NotificationChannel)
    (jobIDs : List ℕ) : channelDiscipline.Triple t (fun o _ => o = Overlay.empty)
      (createNotificationChannel id channel jobIDs)
      fun _ o _ => ChannelWrites (fun _ => False) o := by
  unfold createNotificationChannel
  split
  · exact .fail
  refine .bind (validateNotificationChannelJobs_keeps (.overlay _) channel jobIDs) fun _ => ?_
  refine .bind (Q := fun _ o _ => ChannelWrites (fun _ => False) o) ?_ fun _ => ?_
  · refine .bind (.insert (Q := fun r o _ => r = true → ChannelWrites (fun _ => False) o)
      (.overlay _) (fun _ _ _ _ _ _ h => by cases h) ?_) fun r => ?_
    · rintro o d _ _ rfl _ _ _
      exact channelWrites_empty.write_channel (.inl rfl)
    · cases r with
      | true => exact .pure fun _ _ _ _ h => h rfl
      | false => exact .fail
  · exact .forEach fun jobID _ => insertRow_blind (k := .channelJob id jobID) (.overlay _)
      (ChannelWrites.blind _) rfl ()

theorem closing_edit {n n' : NotificationChannel} (hinv : PendingActive d) {id : ℕ}
    (hrow : d.row (.channel id) = some n) (hactive : n'.active = n.active) :
    ∃ P, Closing P ((Overlay.empty : Overlay Row).write d (.channel id) (some n'))
      (d.addKey (.channel id)) := by
  cases hn : n.active with
  | true =>
    refine ⟨fun _ => False, channelWrites_empty.write_channel (.inl (hactive.trans hn)), ?_⟩
    exact fun _ hc => hc.elim
  | false =>
    refine ⟨fun c => c = id, (write_closes id).1, ?_⟩
    rintro c rfl
    refine ⟨(write_closes c).2, fun e x hx hp => ?_⟩
    rw [Database.overlay_write_ne (by simp)] at hx
    obtain ⟨n₀, hn₀, hactive₀⟩ := hinv e c x hx hp
    have he : some n = some n₀ := hrow.symm.trans hn₀
    cases he
    rw [hn] at hactive₀
    cases hactive₀

theorem updateNotificationChannel_closes (id : ℕ) (channel : NotificationChannel)
    (jobIDs : List ℕ) : channelDiscipline.Triple t (fun o _ => o = Overlay.empty)
      (updateNotificationChannel id channel jobIDs) fun _ => channelDiscipline.Final t := by
  unfold updateNotificationChannel
  split
  · exact .fail
  refine .bind (validateNotificationChannelJobs_keeps (.overlay _) channel jobIDs) fun _ => ?_
  refine .bind (update_channel id _ _ (Q := fun r o d => r ≠ none → ∃ P, Closing P o d) ?_ ?_)
    fun r => ?_
  · exact fun _ _ h => absurd rfl h
  · exact fun d n hinv hrow _ _ => closing_edit hinv hrow rfl
  cases r with
  | none => exact .fail
  | some n =>
    refine Discipline.Triple.strengthen (A := fun o d => ∃ P, Closing P o d)
      (.introduce fun P => ?_)
      fun _ _ _ _ h => h (by simp)
    exact (rebind_blind (Closing.stable P) (Closing.blind P) id (fun _ => rfl) jobIDs).weaken
      fun _ _ _ _ _ h => h.final

end Edits

theorem channel_safe (t : Call) (hinv : PendingActive d) :
    channelDiscipline.Safe t (fun _ => channelDiscipline.Final t) (notificationSystem.program t)
      Overlay.empty d := by
  have hstart : ∀ {α : Type} {p : Tx α} {r : α → Result}, channelDiscipline.Triple t
      (fun o _ => ChannelWrites (fun _ => False) o) p
        (fun _ o _ => ChannelWrites (fun _ => False) o) →
      channelDiscipline.Triple t (fun o _ => o = Overlay.empty)
        (p >>= fun a => pure (r a)) fun _ => channelDiscipline.Final t := by
    intro α p r hp
    refine .bind (hp.strengthen ?_) fun _ => .pure fun _ _ _ _ h => h.final
    rintro o d _ _ rfl
    exact channelWrites_empty
  suffices h : channelDiscipline.Triple t (fun o _ => o = Overlay.empty) t.program
      fun _ => channelDiscipline.Final t from
    h _ d hinv (fun _ _ h => by cases h) rfl
  unfold Call.program
  split
  · exact hstart (insertRow_blind (.overlay _) (ChannelWrites.blind _) rfl _)
  · exact .bind (createNotificationChannel_writes _ _ _) fun _ => .pure fun _ _ _ _ h => h.final
  · exact .bind (updateNotificationChannel_closes _ _ _) fun _ => .done
  · exact .bind (setNotificationChannelEnabled_closes _ _ _ _ _ _) fun _ => .done
  · exact .bind (deleteNotificationChannel_closes _ _ _ _ _) fun _ => .done
  · exact hstart (prepareNotificationDeliveries_writes _ _)
  · exact hstart (claimNotificationDeliveries_writes _ _ _)
  · exact hstart (finishNotificationDelivery_writes _ _ _ _ _ (by simp) _)
  · exact hstart (finishNotificationDelivery_writes _ _ _ _ _ (by simp) _)
  · exact hstart (retryNotificationDelivery_writes _ _ _ _ _)

/-- In every run no committed pending delivery is for a channel that is disabled or deleted. -/
theorem no_pending_for_inactive_channel {m₀ m : NotificationMachine} (hrest : m₀.AtRest)
    (hm₀ : PendingActive m₀.store.committed)
    (hrun : Machine.ReachableFrom notificationSystem (fun _ _ _ => True) m₀ m) {e c : ℕ}
    {x : NotificationDelivery} (hx : m.store.committed.row (.delivery e c) = some x)
    (hp : x.lease.status = .pending) :
    ∃ n, m.store.committed.row (.channel c) = some n ∧ n.enabled = true ∧ n.deletedAt = none := by
  have hsound := Discipline.SoundFor.run (D := channelDiscipline) Discipline.answer_final
    (fun t d hinv _ => channel_safe t hinv)
    (fun m l m' _ => ⟨fun _ _ _ _ _ => trivial, fun _ => trivial, fun _ _ _ => trivial⟩)
    (.of_atRest hrest hm₀) hrun
  obtain ⟨n, hn, hactive⟩ := hsound.inv e c x hx (by simp [NotificationDelivery.pending, hp])
  rw [NotificationChannel.active, Bool.and_eq_true] at hactive
  exact ⟨n, hn, hactive.1, by simpa using hactive.2⟩

def twoChannels : NotificationMachine :=
  let channel : NotificationChannel := ⟨1, ["job.run.failed"], true, 8, 2, 300, true, 1, none⟩
  .loaded 0 ⟨0, 0, .prepareNotificationDeliveries 0⟩ [⟨.channel 1, some channel⟩,
    ⟨.channel 2, some channel⟩,
    ⟨.event 1, some ⟨1, "job.run.failed", none, 0, none, none, none, none⟩⟩]

theorem twoChannels_pendingActive : PendingActive twoChannels.store.committed := by
  intro e c x hx
  have hkeys : twoChannels.store.keys = [.channel 1, .channel 2, .event 1] := by decide +kernel
  have hmem := Store.mem_keys_of_row hx
  simp [hkeys] at hmem

def Call.steps (t : Call) (statements : ℕ) : List (Label Call Key) :=
  .begin t :: List.replicate statements (.exec t ⟨0, 0, []⟩) ++ [.finish t]

def claimedSteps : List (Label Call Key) :=
  Call.steps ⟨1, 0, .prepareNotificationDeliveries 10⟩ 7 ++
    Call.steps ⟨2, 0, .claimNotificationDeliveries "worker" 10⟩ 4

/-- Of two channels with a claimed delivery each the second is disabled. -/
theorem no_pending_for_inactive_channel_disabled : ∃ m : NotificationMachine,
    (∃ n, m.store.committed.row (.channel 2) = some n ∧ n.enabled = false) ∧
    (∃ x, m.store.committed.row (.delivery 1 2) = some x ∧ x.lease.attempts = 1 ∧
      x.lease.status ≠ .pending) ∧
    (∃ x, m.store.committed.row (.delivery 1 1) = some x ∧ x.lease.attempts = 1 ∧
      x.lease.status = .pending) ∧
    ∃ n, m.store.committed.row (.channel 1) = some n ∧ n.enabled = true ∧ n.deletedAt = none := by
  obtain ⟨m, hreach, hm⟩ : ∃ m, Machine.ReachableFrom notificationSystem (fun _ _ _ => True)
      twoChannels m ∧
        ((m.store.committed.row (.channel 2)).any (fun n => n.enabled == false) &&
          (m.store.committed.row (.delivery 1 2)).any (fun x => x.lease.attempts == 1) &&
          (m.store.committed.row (.delivery 1 1)).any fun x =>
            x.lease.attempts == 1 && x.lease.status == .pending) = true :=
    Machine.exists_reachableFrom (fun _ _ _ => true) (fun _ _ _ _ => trivial)
      (claimedSteps ++ Call.steps ⟨3, 0, .setNotificationChannelEnabled 1 2 false 1⟩ 4) _
      (by decide +kernel)
  simp only [Bool.and_eq_true, Option.any_eq_true, beq_iff_eq] at hm
  obtain ⟨⟨⟨n, hn, hdisabled⟩, y, hy, hclaimed⟩, x, hx, hattempts, hpending⟩ := hm
  have hactive : ∀ {c : ℕ} {z : NotificationDelivery},
      m.store.committed.row (.delivery 1 c) = some z → z.lease.status = .pending →
      ∃ n, m.store.committed.row (.channel c) = some n ∧ n.enabled = true ∧ n.deletedAt = none :=
    fun hz hp => no_pending_for_inactive_channel (Machine.atRest_loaded _ _ _)
      twoChannels_pendingActive hreach hz hp
  refine ⟨m, ⟨n, hn, hdisabled⟩, ⟨y, hy, hclaimed, fun hp => ?_⟩, ⟨x, hx, hattempts, hpending⟩,
    hactive hx hpending⟩
  obtain ⟨n', hn', henabled, -⟩ := hactive hy hp
  cases hn.symm.trans hn'
  simp [hdisabled] at henabled

end GoScheduler.Notification
