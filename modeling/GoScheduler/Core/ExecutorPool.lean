import GoScheduler.Table
import GoScheduler.Text.Space
import Mathlib.Algebra.Order.Group.Int

/-! The connections of the scheduler to the executors, internal/core/executor_grpc.go, as long as
the pool is not closed. `acquireConn` and the functions it returns follow each other in the order
in which they take the mutex. A connection stands for itself by a number that no later one gets:
that is what `entry != expected` compares. -/
namespace GoScheduler.Core.ExecutorPool

structure ParsedURL where
  host : String
  path : String
deriving DecidableEq

inductive AcquireError where
  | empty  -- `executor address is empty`
  | invalid (address : String)  -- `invalid executor gRPC address %q`
  | full  -- `executor gRPC connection pool is full`
  -- `connect executor %q: %w`
  | connect (target : String)
deriving DecidableEq

def contains (s substr : String) : Bool :=
  s.toList.tails.any fun rest => substr.toList.isPrefixOf rest

def executorGRPCTarget (parse : String → Option ParsedURL) (address : String) :
    Except AcquireError String :=
  let address := Text.trimSpace address
  if address = "" then .error .empty
  else if ¬ contains address "://" then .ok address
  else
    match parse address with
    | none => .error (.invalid address)
    | some parsed =>
        if parsed.host = "" ∨ parsed.path ≠ "" ∧ parsed.path ≠ "/" then .error (.invalid address)
        else .ok parsed.host

structure Connection where
  connection : ℕ
  lastUsed : Int
  inUse : ℕ
deriving DecidableEq

def maxExecutorGRPCConnections : ℕ := 256

abbrev Connections : Type := AList fun _ : String => Connection

abbrev Entry : Type := Sigma fun _ : String => Connection

/-- The pool, the number of the next connection and the connections that were closed. -/
structure Pool where
  conns : Connections
  next : ℕ
  closed : List ℕ
deriving DecidableEq

/-- What a function of `releaseFunc` is bound to. -/
structure Holder where
  target : String
  expected : ℕ
deriving DecidableEq

/-- The loop of `evictIdleLocked`, over the entries in the order in which the map yields them. -/
def oldestIdle : List Entry → Option Entry → Option Entry
  | [], oldest => oldest
  | entry :: rest, oldest =>
      if entry.2.inUse ≠ 0 ∨ ∃ o ∈ oldest, ¬ entry.2.lastUsed < o.2.lastUsed then
        oldestIdle rest oldest
      else oldestIdle rest (some entry)

def evictIdleLocked (order : List Entry) (p : Pool) : Option Pool :=
  match oldestIdle order none with
  | none => none
  | some oldest => some {
      p with
      conns := p.conns.erase oldest.1
      closed := oldest.2.connection :: p.closed }

/-- The part of `acquireConn` after there is room; `dials` says whether `grpc.NewClient` returns a
connection. -/
def connect (now : Int) (dials : Bool) (target : String) (p : Pool) :
    Except AcquireError Holder × Pool :=
  if dials then
    (.ok ⟨target, p.next⟩,
      { p with conns := p.conns.insert target ⟨p.next, now, 1⟩, next := p.next + 1 })
  else (.error (.connect target), p)

def acquireTarget (now : Int) (order : List Entry) (dials : Bool) (target : String) (p : Pool) :
    Except AcquireError Holder × Pool :=
  match p.conns.lookup target with
  | some entry =>
      (.ok ⟨target, entry.connection⟩,
        { p with conns := p.conns.insert target
                  { entry with inUse := entry.inUse + 1, lastUsed := now } })
  | none =>
      if p.conns.keys.length ≥ maxExecutorGRPCConnections then
        match evictIdleLocked order p with
        | none => (.error .full, p)
        | some p => connect now dials target p
      else connect now dials target p

def acquireConn (parse : String → Option ParsedURL) (now : Int) (order : List Entry)
    (dials : Bool) (address : String) (p : Pool) : Except AcquireError Holder × Pool :=
  match executorGRPCTarget parse address with
  | .error e => (.error e, p)
  | .ok target => acquireTarget now order dials target p

def release (now : Int) (h : Holder) (p : Pool) : Pool :=
  match p.conns.lookup h.target with
  | none => p
  | some entry =>
      if entry.connection ≠ h.expected ∨ entry.inUse = 0 then p
      else { p with conns := p.conns.insert h.target
                      { entry with inUse := entry.inUse - 1, lastUsed := now } }

inductive Call where
  | acquireConn (address : String) (now : Int) (order : List Entry) (dials : Bool)
  | release (h : Holder) (now : Int)

structure PoolState where
  pool : Pool
  holders : List Holder
deriving DecidableEq

def newExecutorGRPCPool : PoolState := ⟨⟨∅, 0, []⟩, []⟩

def addHolder (result : Except AcquireError Holder × Pool) (holders : List Holder) : PoolState :=
  match result.1 with
  | .ok h => ⟨result.2, h :: holders⟩
  | .error _ => ⟨result.2, holders⟩

def step (parse : String → Option ParsedURL) (s : PoolState) : Call → Option PoolState
  | .acquireConn address now order dials =>
      if order.Perm s.pool.conns.entries then
        some (addHolder (acquireConn parse now order dials address s.pool) s.holders)
      else none
  | .release h now =>
      if h ∈ s.holders then some ⟨release now h s.pool, s.holders.erase h⟩ else none

def run (parse : String → Option ParsedURL) (s : PoolState) (calls : List Call) :
    Option PoolState :=
  calls.foldlM (step parse) s

section Loop

variable {order : List Entry} {oldest : Option Entry} {p p' : Pool}

theorem oldestIdle_spec (order : List Entry) (oldest : Option Entry)
    (hidle : ∀ o ∈ oldest, o.2.inUse = 0) :
    (∀ o ∈ oldestIdle order oldest, o.2.inUse = 0 ∧ (o ∈ order ∨ o ∈ oldest) ∧
      ∀ e, (e ∈ order ∨ e ∈ oldest) → e.2.inUse = 0 → o.2.lastUsed ≤ e.2.lastUsed) ∧
    (oldestIdle order oldest = none → oldest = none ∧ ∀ e ∈ order, e.2.inUse ≠ 0) := by
  induction order generalizing oldest with
  | nil =>
    refine ⟨fun o ho => ⟨hidle o ho, .inr ho, fun e he _ => ?_⟩, fun h => ⟨h, by simp⟩⟩
    obtain he | he := he
    · exact absurd he (by simp)
    · rw [Option.mem_unique ho he]
  | cons entry rest ih =>
    rw [oldestIdle]
    split_ifs with hskip
    · -- the entry is in use or not older than the oldest one so far
      obtain ⟨hsome, hnone⟩ := ih oldest hidle
      constructor
      · intro o ho
        obtain ⟨hzero, hmem, hmin⟩ := hsome o ho
        refine ⟨hzero, hmem.imp_left (List.mem_cons_of_mem _), fun e he hfree => ?_⟩
        rw [List.mem_cons, or_assoc] at he
        obtain rfl | he := he
        · obtain hused | ⟨o', ho', hle⟩ := hskip
          · exact absurd hfree hused
          · exact (hmin o' (.inr ho') (hidle o' ho')).trans (not_lt.1 hle)
        · exact hmin e he hfree
      · intro h
        obtain ⟨rfl, hrest⟩ := hnone h
        refine ⟨rfl, fun e he => ?_⟩
        obtain rfl | he := List.mem_cons.1 he
        · exact hskip.resolve_right (by simp)
        · exact hrest e he
    · push Not at hskip
      obtain ⟨hsome, hnone⟩ := ih (some entry) (by simpa using hskip.1)
      constructor
      · intro o ho
        obtain ⟨hzero, hmem, hmin⟩ := hsome o ho
        have hself : o.2.lastUsed ≤ entry.2.lastUsed := hmin entry (.inr rfl) hskip.1
        refine ⟨hzero, .inl ?_, fun e he hfree => ?_⟩
        · exact List.mem_cons.2 (hmem.symm.imp_left fun h => (Option.mem_some_iff.1 h).symm)
        · rw [List.mem_cons, or_assoc] at he
          obtain rfl | he | he := he
          · exact hself
          · exact hmin e (.inl he) hfree
          · exact hself.trans (hskip.2 e he).le
      · intro h
        exact absurd (hnone h).1 (by simp)

/-- What an eviction does: it removes and closes an idle connection that was not used longest. -/
theorem evictIdleLocked_eq_some (hperm : order.Perm p.conns.entries)
    (h : evictIdleLocked order p = some p') :
    ∃ target entry, p.conns.lookup target = some entry ∧ entry.inUse = 0 ∧
      (∀ t e, p.conns.lookup t = some e → e.inUse = 0 → entry.lastUsed ≤ e.lastUsed) ∧
      p' = { p with conns := p.conns.erase target, closed := entry.connection :: p.closed } := by
  rw [evictIdleLocked] at h
  cases hloop : oldestIdle order none with
  | none => simp [hloop] at h
  | some oldest =>
    rw [hloop] at h
    obtain ⟨hzero, hmem, hmin⟩ := (oldestIdle_spec order none (by simp)).1 oldest hloop
    have hmem : oldest ∈ order := hmem.resolve_right (by simp)
    refine ⟨oldest.1, oldest.2, AList.mem_lookup_iff.2 (hperm.mem_iff.1 hmem), hzero, ?_,
      (Option.some.inj h).symm⟩
    intro t e hlookup hfree
    exact hmin ⟨t, e⟩ (.inl (hperm.mem_iff.2 (AList.mem_lookup_iff.1 hlookup))) hfree

theorem evictIdleLocked_eq_none (hperm : order.Perm p.conns.entries)
    (h : evictIdleLocked order p = none) (t : String) (e : Connection)
    (hlookup : p.conns.lookup t = some e) : e.inUse ≠ 0 := by
  rw [evictIdleLocked] at h
  cases hloop : oldestIdle order none with
  | some oldest => simp [hloop] at h
  | none =>
    exact ((oldestIdle_spec order none (by simp)).2 hloop).2 ⟨t, e⟩
      (hperm.mem_iff.2 (AList.mem_lookup_iff.1 hlookup))

end Loop

structure Sound (s : PoolState) : Prop where
  bounded : s.pool.conns.keys.length ≤ maxExecutorGRPCConnections
  counted : ∀ t e, s.pool.conns.lookup t = some e →
    e.inUse = s.holders.countP (·.expected = e.connection)
  held : ∀ h ∈ s.holders, ∃ e, s.pool.conns.lookup h.target = some e ∧ e.connection = h.expected
  known : ∀ t e, s.pool.conns.lookup t = some e → e.connection < s.pool.next
  distinct : ∀ t t' e e', s.pool.conns.lookup t = some e → s.pool.conns.lookup t' = some e' →
    e.connection = e'.connection → t = t'
  closed_known : ∀ c ∈ s.pool.closed, c < s.pool.next
  live : ∀ t e, s.pool.conns.lookup t = some e → e.connection ∉ s.pool.closed

namespace Sound

variable {p : Pool} {holders : List Holder} {target : String} {entry : Connection} {now : Int}

theorem new : Sound newExecutorGRPCPool where
  bounded := by simp [newExecutorGRPCPool]
  counted := by simp [newExecutorGRPCPool]
  held := by simp [newExecutorGRPCPool]
  known := by simp [newExecutorGRPCPool]
  distinct := by simp [newExecutorGRPCPool]
  closed_known := by simp [newExecutorGRPCPool]
  live := by simp [newExecutorGRPCPool]

theorem not_held (hs : Sound ⟨p, holders⟩) (hlookup : p.conns.lookup target = some entry)
    (hidle : entry.inUse = 0) (h : Holder) (hh : h ∈ holders) :
    h.expected ≠ entry.connection := by
  have hcount := (hs.counted target entry hlookup).symm.trans hidle
  simpa using List.countP_eq_zero.1 hcount h hh

theorem evict (hs : Sound ⟨p, holders⟩) (hlookup : p.conns.lookup target = some entry)
    (hidle : entry.inUse = 0) :
    Sound ⟨{ p with conns := p.conns.erase target, closed := entry.connection :: p.closed },
      holders⟩ := by
  have hsub {t : String} {e : Connection} (h : (p.conns.erase target).lookup t = some e) :
      t ≠ target ∧ p.conns.lookup t = some e := Table.lookup_erase_eq_some_iff.1 h
  constructor
  · rw [AList.keys_erase]
    exact (List.length_erase_le).trans hs.bounded
  · exact fun t e h => hs.counted t e (hsub h).2
  · intro h hh
    obtain ⟨e, he, hid⟩ := hs.held h hh
    have hne : h.target ≠ target := by
      intro heq
      rw [heq, hlookup] at he
      cases he
      exact hs.not_held hlookup hidle h hh hid.symm
    exact ⟨e, (AList.lookup_erase_ne hne).trans he, hid⟩
  · exact fun t e h => hs.known t e (hsub h).2
  · exact fun t t' e e' h h' => hs.distinct t t' e e' (hsub h).2 (hsub h').2
  · intro c hc
    obtain rfl | hc := List.mem_cons.1 hc
    · exact hs.known target entry hlookup
    · exact hs.closed_known c hc
  · intro t e h hmem
    obtain ⟨hne, h⟩ := hsub h
    obtain heq | hmem := List.mem_cons.1 hmem
    · exact hne (hs.distinct t target e entry h hlookup heq)
    · exact hs.live t e h hmem

/-- The entry of a target is written, for the connection that it had or for a new one, and the
holders of other connections stay the same. -/
theorem insert {holders' : List Holder} {c inUse next : ℕ} (hs : Sound ⟨p, holders⟩)
    (hbounded : (p.conns.insert target ⟨c, now, inUse⟩).keys.length ≤ maxExecutorGRPCConnections)
    (hsame : ∀ e, p.conns.lookup target = some e → e.connection = c)
    (hfresh : ∀ t e, t ≠ target → p.conns.lookup t = some e → e.connection ≠ c)
    (hlive : c ∉ p.closed) (hc : c < next) (hnext : p.next ≤ next)
    (hcount : inUse = holders'.countP (·.expected = c))
    (hother : ∀ c', c' ≠ c →
      holders'.countP (·.expected = c') = holders.countP (·.expected = c'))
    (hheld : ∀ h ∈ holders', h ∈ holders ∨ h = ⟨target, c⟩) :
    Sound ⟨{ p with conns := p.conns.insert target ⟨c, now, inUse⟩, next := next }, holders'⟩ := by
  have hcases {t : String} {e : Connection}
      (h : (p.conns.insert target ⟨c, now, inUse⟩).lookup t = some e) :
      (t = target ∧ e = ⟨c, now, inUse⟩) ∨ (t ≠ target ∧ p.conns.lookup t = some e) :=
    Table.lookup_insert_eq_some_iff.1 h
  constructor
  · exact hbounded
  · intro t e h
    obtain ⟨rfl, rfl⟩ | ⟨ht, h⟩ := hcases h
    · exact hcount
    · exact (hs.counted t e h).trans (hother _ (hfresh t e ht h)).symm
  · intro h hh
    obtain hh | rfl := hheld h hh
    · obtain ⟨e, he, hid⟩ := hs.held h hh
      by_cases ht : h.target = target
      · rw [ht] at he ⊢
        exact ⟨_, AList.lookup_insert _, (hsame e he).symm.trans hid⟩
      · exact ⟨e, (AList.lookup_insert_ne ht).trans he, hid⟩
    · exact ⟨_, AList.lookup_insert _, rfl⟩
  · intro t e h
    obtain ⟨rfl, rfl⟩ | ⟨-, h⟩ := hcases h
    · exact hc
    · exact (hs.known t e h).trans_le hnext
  · intro t t' e e' h h' heq
    obtain ⟨ht, rfl⟩ | ⟨ht, hin⟩ := hcases h <;>
      obtain ⟨ht', rfl⟩ | ⟨ht', hin'⟩ := hcases h'
    · exact ht.trans ht'.symm
    · exact absurd heq.symm (hfresh t' e' ht' hin')
    · exact absurd heq (hfresh t e ht hin)
    · exact hs.distinct t t' e e' hin hin' heq
  · exact fun c' hc' => (hs.closed_known c' hc').trans_le hnext
  · intro t e h
    obtain ⟨rfl, rfl⟩ | ⟨-, h⟩ := hcases h
    · exact hlive
    · exact hs.live t e h

theorem replace {holders' : List Holder} {inUse : ℕ} (hs : Sound ⟨p, holders⟩)
    (hlookup : p.conns.lookup target = some entry)
    (hcount : inUse = holders'.countP (·.expected = entry.connection))
    (hother : ∀ c, c ≠ entry.connection →
      holders'.countP (·.expected = c) = holders.countP (·.expected = c))
    (hheld : ∀ h ∈ holders', h ∈ holders ∨ h = ⟨target, entry.connection⟩) :
    Sound ⟨{ p with conns := p.conns.insert target ⟨entry.connection, now, inUse⟩ },
      holders'⟩ := by
  refine hs.insert ?_ (fun e h => ?_) (fun t e ht h heq => ?_) (hs.live target entry hlookup)
    (hs.known target entry hlookup) le_rfl hcount hother hheld
  · rw [Table.length_keys_insert, if_pos (Table.mem_of_lookup hlookup)]
    exact hs.bounded
  · cases hlookup.symm.trans h
    rfl
  · exact ht (hs.distinct t target e entry h hlookup heq)

theorem reuse (hs : Sound ⟨p, holders⟩) (hlookup : p.conns.lookup target = some entry) :
    Sound ⟨{ p with conns := p.conns.insert target
                      { entry with inUse := entry.inUse + 1, lastUsed := now } },
      ⟨target, entry.connection⟩ :: holders⟩ := by
  refine hs.replace hlookup ?_ ?_ ?_
  · simp [hs.counted target entry hlookup]
  · intro c hc
    simp [hc.symm]
  · intro h hh
    exact (List.mem_cons.1 hh).symm

theorem create (hs : Sound ⟨p, holders⟩) (hroom : p.conns.keys.length < maxExecutorGRPCConnections)
    (hnew : p.conns.lookup target = none) :
    Sound ⟨{ p with conns := p.conns.insert target ⟨p.next, now, 1⟩, next := p.next + 1 },
      ⟨target, p.next⟩ :: holders⟩ := by
  -- no holder has the number of the new connection
  have hunheld : holders.countP (·.expected = p.next) = 0 := by
    refine List.countP_eq_zero.2 fun h hh => ?_
    obtain ⟨e, he, hid⟩ := hs.held h hh
    simpa [← hid] using (hs.known _ e he).ne
  refine hs.insert ?_ (fun e h => ?_) (fun t e _ h => (hs.known t e h).ne)
    (fun hmem => lt_irrefl _ (hs.closed_known _ hmem)) (Nat.lt_succ_self _) (Nat.le_succ _) ?_
    (fun c hc => ?_) fun h hh => (List.mem_cons.1 hh).symm
  · rw [Table.length_keys_insert, if_neg (AList.lookup_eq_none.1 hnew)]
    exact hroom
  · cases hnew.symm.trans h
  · simp [hunheld]
  · simp [hc.symm]

/-- A function of `releaseFunc` that was not called before finds its connection in the pool. -/
theorem release_eq (hs : Sound ⟨p, holders⟩) {h : Holder} (hh : h ∈ holders) (now : Int) :
    ∃ entry, p.conns.lookup h.target = some entry ∧ entry.connection = h.expected ∧
      release now h p = { p with conns := p.conns.insert h.target
                                  { entry with inUse := entry.inUse - 1, lastUsed := now } } := by
  obtain ⟨entry, hlookup, hid⟩ := hs.held h hh
  have hused : entry.inUse ≠ 0 := by
    intro hidle
    exact hs.not_held hlookup hidle h hh hid.symm
  refine ⟨entry, hlookup, hid, ?_⟩
  simp [release, hlookup, hid, hused]

theorem released (hs : Sound ⟨p, holders⟩) {h : Holder} (hh : h ∈ holders) (now : Int) :
    Sound ⟨release now h p, holders.erase h⟩ := by
  obtain ⟨entry, hlookup, hid, heq⟩ := hs.release_eq hh now
  rw [heq]
  have herase := (List.perm_cons_erase hh).countP_eq
  refine hs.replace hlookup ?_ ?_ ?_
  · have hcount := hs.counted _ entry hlookup
    have hone := herase (·.expected = entry.connection)
    simp only [List.countP_cons, hid, decide_true, if_true] at hone hcount ⊢
    omega
  · intro c hc
    rw [herase, List.countP_cons_of_neg]
    simpa [← hid] using hc.symm
  · exact fun h' hh' => .inl (List.mem_of_mem_erase hh')

theorem connect (hs : Sound ⟨p, holders⟩)
    (hroom : p.conns.keys.length < maxExecutorGRPCConnections)
    (hnew : p.conns.lookup target = none) (dials : Bool) :
    Sound (addHolder (connect now dials target p) holders) := by
  cases dials with
  | false => exact hs
  | true => exact hs.create hroom hnew

end Sound

def Stays (p p' : Pool) (t : String) : Prop :=
  ∀ e, p.conns.lookup t = some e → ∃ e', p'.conns.lookup t = some e' ∧ e'.connection = e.connection

/-- An idle connection that none of the idle ones is older than was removed and closed, and no
other one was. -/
def Evicts (p p' : Pool) : Prop :=
  ∃ target entry, p.conns.lookup target = some entry ∧ entry.inUse = 0 ∧
    (∀ t e, p.conns.lookup t = some e → e.inUse = 0 → entry.lastUsed ≤ e.lastUsed) ∧
    p'.conns.lookup target = none ∧ p'.closed = entry.connection :: p.closed ∧
    ∀ t, t ≠ target → Stays p p' t

def Effect (p p' : Pool) : Prop :=
  (p'.closed = p.closed ∧ ∀ t, Stays p p' t) ∨ Evicts p p'

section Steps

variable {parse : String → Option ParsedURL} {s s' : PoolState} {p p' : Pool}
  {holders : List Holder} {target : String} {entry : Connection} {now : Int}
  {order : List Entry} {dials : Bool} {call : Call}

theorem Stays.refl (p : Pool) (t : String) : Stays p p t := fun e h => ⟨e, h, rfl⟩

theorem Effect.refl (p : Pool) : Effect p p := .inl ⟨rfl, Stays.refl p⟩

theorem Effect.replace {inUse : ℕ} (hlookup : p.conns.lookup target = some entry) :
    Effect p { p with conns := p.conns.insert target ⟨entry.connection, now, inUse⟩ } := by
  refine .inl ⟨rfl, fun t e h => ?_⟩
  by_cases ht : t = target
  · subst ht
    rw [hlookup] at h
    cases h
    exact ⟨⟨entry.connection, now, inUse⟩, AList.lookup_insert _, rfl⟩
  · exact ⟨e, (AList.lookup_insert_ne ht).trans h, rfl⟩

theorem lookup_connect {t : String} (ht : t ≠ target) :
    (connect now dials target p).2.conns.lookup t = p.conns.lookup t := by
  cases dials with
  | false => rfl
  | true => exact AList.lookup_insert_ne ht

theorem closed_connect : (connect now dials target p).2.closed = p.closed := by
  cases dials <;> rfl

theorem Effect.connect (hnew : p.conns.lookup target = none) :
    Effect p (connect now dials target p).2 := by
  refine .inl ⟨closed_connect, fun t e h => ?_⟩
  exact ⟨e, (lookup_connect (Table.ne_of_lookup hnew h)).trans h, rfl⟩

theorem length_erase_lt (hlookup : p.conns.lookup target = some entry)
    (hbound : p.conns.keys.length ≤ maxExecutorGRPCConnections) :
    (p.conns.erase target).keys.length < maxExecutorGRPCConnections := by
  have hlen := List.length_erase_add_one (AList.mem_keys.1 (Table.mem_of_lookup hlookup))
  rw [AList.keys_erase]
  omega

theorem acquireTarget_spec (hs : Sound ⟨p, holders⟩) (hperm : order.Perm p.conns.entries)
    (now : Int) (dials : Bool) (target : String) :
    Sound (addHolder (acquireTarget now order dials target p) holders) ∧
      Effect p (acquireTarget now order dials target p).2 := by
  rw [acquireTarget]
  cases hlookup : p.conns.lookup target with
  | some entry => exact ⟨hs.reuse hlookup, Effect.replace hlookup⟩
  | none =>
    dsimp only
    split_ifs with hfull
    · cases hevict : evictIdleLocked order p with
      | none => exact ⟨hs, Effect.refl p⟩
      | some p' =>
        obtain ⟨victim, entry, hvictim, hidle, hmin, rfl⟩ :=
          evictIdleLocked_eq_some hperm hevict
        have hne : target ≠ victim := (Table.ne_of_lookup hlookup hvictim).symm
        have hnew : (p.conns.erase victim).lookup target = none :=
          (AList.lookup_erase_ne hne).trans hlookup
        refine ⟨(hs.evict hvictim hidle).connect (length_erase_lt hvictim hs.bounded) hnew dials,
          .inr ⟨victim, entry, hvictim, hidle, hmin, ?_, closed_connect, ?_⟩⟩
        · exact (lookup_connect hne.symm).trans (AList.lookup_erase _ _)
        · intro t ht e h
          have htarget : t ≠ target := Table.ne_of_lookup hlookup h
          exact ⟨e, (lookup_connect htarget).trans ((AList.lookup_erase_ne ht).trans h), rfl⟩
    · exact ⟨hs.connect (not_le.1 hfull) hlookup dials, Effect.connect hlookup⟩

theorem full_of_acquireTarget (hperm : order.Perm p.conns.entries)
    (hnew : p.conns.lookup target = none)
    (h : (acquireTarget now order dials target p).1 = .error .full) :
    maxExecutorGRPCConnections ≤ p.conns.keys.length ∧
      ∀ t e, p.conns.lookup t = some e → e.inUse ≠ 0 := by
  have hconnect : ∀ q : Pool, (connect now dials target q).1 ≠ .error .full := by
    intro q
    cases dials <;> simp [connect]
  simp only [acquireTarget, hnew] at h
  split_ifs at h with hfull
  · cases hevict : evictIdleLocked order p with
    | none => exact ⟨hfull, evictIdleLocked_eq_none hperm hevict⟩
    | some q =>
      rw [hevict] at h
      exact absurd h (hconnect q)
  · exact absurd h (hconnect p)

theorem step_spec (hs : Sound s) (hstep : step parse s call = some s') :
    Sound s' ∧ Effect s.pool s'.pool := by
  obtain ⟨p, holders⟩ := s
  cases call with
  | acquireConn address now order dials =>
    obtain ⟨hperm, hs'⟩ := Option.ite_none_right_eq_some.1 hstep
    cases hs'
    rw [acquireConn]
    cases executorGRPCTarget parse address with
    | error e => exact ⟨hs, Effect.refl p⟩
    | ok target =>
      obtain ⟨hsound, heffect⟩ := acquireTarget_spec hs hperm now dials target
      refine ⟨hsound, ?_⟩
      have hpool : ∀ result : Except AcquireError Holder × Pool,
          (addHolder result holders).pool = result.2 := by
        intro result
        rw [addHolder]
        cases result.1 <;> rfl
      exact (hpool _).symm ▸ heffect
  | release h now =>
    obtain ⟨hh, hs'⟩ := Option.ite_none_right_eq_some.1 hstep
    cases hs'
    obtain ⟨entry, hlookup, -, heq⟩ := hs.release_eq hh now
    exact ⟨hs.released hh now, heq ▸ Effect.replace hlookup⟩

theorem sound_run {calls : List Call} (hs : Sound s) (hrun : run parse s calls = some s') :
    Sound s' := by
  induction calls generalizing s with
  | nil =>
    cases hrun
    exact hs
  | cons call calls ih =>
    obtain ⟨mid, hstep, hrest⟩ := Option.bind_eq_some_iff.1 hrun
    exact ih (step_spec hs hstep).1 hrest

end Steps

/-- After any calls of `acquireConn` and of the functions it returned, whatever the clock showed:
the pool is within its bound, counts the holders of each connection and has every connection that
is held; a call fails for a full pool only if all connections are held, and no call removes or
closes a connection but the idle one that was used longest ago. -/
theorem executor_pool_safe (parse : String → Option ParsedURL) (calls : List Call) (s : PoolState)
    (hrun : run parse newExecutorGRPCPool calls = some s) :
    s.pool.conns.keys.length ≤ 256 ∧
    (∀ target entry, s.pool.conns.lookup target = some entry →
      entry.inUse = s.holders.countP (·.expected = entry.connection)) ∧
    (∀ h ∈ s.holders, h.expected ∉ s.pool.closed ∧
      ∃ entry, s.pool.conns.lookup h.target = some entry ∧ entry.connection = h.expected) ∧
    (∀ address now order dials target, order.Perm s.pool.conns.entries →
      executorGRPCTarget parse address = .ok target → s.pool.conns.lookup target = none →
      (acquireConn parse now order dials address s.pool).1 = .error .full →
      s.pool.conns.keys.length = 256 ∧
        ∀ t e, s.pool.conns.lookup t = some e → e.inUse ≠ 0) ∧
    (∀ call s', step parse s call = some s' →
      (s'.pool.closed = s.pool.closed ∧ ∀ t, Stays s.pool s'.pool t) ∨
        Evicts s.pool s'.pool) := by
  have hs : Sound s := sound_run Sound.new hrun
  refine ⟨hs.bounded, hs.counted, ?_, ?_, fun call s' hstep => (step_spec hs hstep).2⟩
  · intro h hh
    obtain ⟨entry, hlookup, hid⟩ := hs.held h hh
    exact ⟨hid ▸ hs.live _ entry hlookup, entry, hlookup, hid⟩
  · intro address now order dials target hperm htarget hnew hfull
    rw [acquireConn, htarget] at hfull
    obtain ⟨hlen, hused⟩ := full_of_acquireTarget hperm hnew hfull
    exact ⟨le_antisymm hs.bounded hlen, hused⟩

theorem executor_pool_safe_shared :
    let calls : List Call :=
      [.acquireConn "executor:9090" 1 [] true,
        .acquireConn " executor:9090" 2 [⟨"executor:9090", ⟨0, 1, 1⟩⟩] true,
        .release ⟨"executor:9090", 0⟩ 3]
    ∃ s, run (fun _ => none) newExecutorGRPCPool calls = some s ∧
      s.pool.conns.lookup "executor:9090" = some ⟨0, 3, 1⟩ ∧
      1 = s.holders.countP (·.expected = 0) := by
  intro calls
  let s : PoolState :=
    ⟨⟨AList.insert "executor:9090" ⟨0, 3, 1⟩ ∅, 1, []⟩, [⟨"executor:9090", 0⟩]⟩
  have hrun : run (fun _ => none) newExecutorGRPCPool calls = some s := by rfl
  have hlookup : s.pool.conns.lookup "executor:9090" = some ⟨0, 3, 1⟩ := by rfl
  exact ⟨s, hrun, hlookup, (executor_pool_safe _ calls s hrun).2.1 _ _ hlookup⟩

end GoScheduler.Core.ExecutorPool
