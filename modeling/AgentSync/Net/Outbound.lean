import AgentSync.Machine
import Mathlib.Data.List.GetD

/-! The outbound connection of a Rust vault.

`connect`, `connect_with_reconnect` and `disconnect` borrow the vault mutably, so one of them
runs at a time; beside it runs every reconnect supervisor that has been spawned. The
supervisor looks at its shutdown signal in two places only, and `disconnect` waits two
seconds for it.

The law is that a vault stays disconnected until it is told to connect. `Owned` carries it:
a registered connection is in the client slot or in the hands of a task that will close or
store it. Two steps break it (`Settled`): the wait for the supervisor that times out, and a
connection stored over one that is still registered, whose `Drop` does not unregister it. -/
namespace AgentSync.Net

/-- A `ClientConn`; its index is its `peer_id`. -/
structure OutboundConn where
  /-- In the `peers` map. -/
  registered : Bool
  /-- The reader task runs. -/
  reading : Bool
  /-- `is_closed`: the reader has ended by itself. -/
  closed : Bool
  deriving DecidableEq, Repr

/-- Where a supervisor task is. -/
inductive SupervisorPhase where
  /-- In `ClientConn::connect`, before `register_peer`. -/
  | connecting (attempt : Nat)
  /-- In `ClientConn::connect`, after it. -/
  | registered (conn : Nat)
  /-- About to store the connection in the client slot. -/
  | connected (conn : Nat)
  /-- In the select on `closed.wait()` and the signal. -/
  | waiting (conn : Nat)
  /-- In the select on the backoff and the signal. -/
  | sleeping (attempt : Nat)
  /-- Closing what it has taken from the client slot. -/
  | closing (conn : Option Nat)
  | finished
  deriving DecidableEq, Repr

structure ReconnectSupervisor where
  maxAttempts : Nat
  phase : SupervisorPhase
  /-- The shutdown signal has been sent. -/
  signalled : Bool
  deriving DecidableEq, Repr

/-- Where the vault's caller is. `again` holds `max_attempts` when `disconnect` runs at the
head of `connect_with_reconnect`. -/
inductive VaultCall where
  | idle
  | connecting
  | registered (conn : Nat)
  | connected (conn : Nat)
  /-- In `ReconnectSupervisor::shutdown`. -/
  | shuttingDown (supervisor : Nat) (again : Option Nat)
  /-- About to take the client slot. -/
  | taking (again : Option Nat)
  | closing (conn : Nat) (again : Option Nat)
  deriving DecidableEq, Repr

/-- The connection a supervisor is to store or to close. -/
def SupervisorPhase.holds : SupervisorPhase → Option Nat
  | .registered conn | .connected conn => some conn
  | .closing conn => conn
  | _ => none

/-- The connection the caller is to store or to close. -/
def VaultCall.holds : VaultCall → Option Nat
  | .registered conn | .connected conn | .closing conn _ => some conn
  | _ => none

/-- In `disconnect`, after it has taken the supervisor. -/
def VaultCall.disconnecting : VaultCall → Bool
  | .shuttingDown _ _ | .taking _ | .closing _ _ => true
  | _ => false

structure Outbound where
  /-- A `rendezvous_url` is configured. -/
  url : Bool
  client : Option Nat
  supervisor : Option Nat
  conns : List OutboundConn
  supervisors : List ReconnectSupervisor
  call : VaultCall
  /-- Changes that frames have brought in. -/
  changes : Nat
  /-- `disconnect` has returned and neither connecting call has been made since. -/
  disconnected : Bool
  deriving DecidableEq, Repr

namespace Outbound

def start (url : Bool) : Outbound := ⟨url, none, none, [], [], .idle, 0, false⟩

variable (s : Outbound)

/-! ### Connections and supervisors -/

def registerPeer : Outbound := {s with conns := s.conns ++ [⟨true, false, false⟩]}

def unregisterPeer (conn : Nat) : Outbound :=
  {s with conns := s.conns.modify conn fun c => {c with registered := false}}

/-- The tasks of a connection start. -/
def spawnTasks (conn : Nat) : Outbound :=
  {s with conns := s.conns.modify conn fun c => {c with reading := true}}

/-- The reader is aborted, by `close` or by `Drop`. -/
def abortReader (conn : Nat) : Outbound :=
  {s with conns := s.conns.modify conn fun c => {c with reading := false}}

/-- `*slot = Some(conn)`: what was in the slot is dropped. -/
def store (conn : Nat) : Outbound :=
  {s.client.elim s s.abortReader with client := some conn}

/-- The reader's loop ends: it unregisters and raises the closed signal. -/
def readerEnds (conn : Nat) : Outbound :=
  {s with conns := s.conns.modify conn fun _ => ⟨false, false, true⟩}

def setPhase (i : Nat) (phase : SupervisorPhase) : Outbound :=
  {s with supervisors := s.supervisors.modify i fun x => {x with phase}}

def signal (i : Nat) : Outbound :=
  {s with supervisors := s.supervisors.modify i fun x => {x with signalled := true}}

/-- The last lines of `disconnect`; `connect_with_reconnect` goes on to spawn a supervisor. -/
def disconnects : Option Nat → Outbound
  | none => {s with call := .idle, disconnected := true}
  | some maxAttempts =>
    if s.url then {s with
      call := .idle
      supervisors := s.supervisors ++ [⟨maxAttempts, .connecting 1, false⟩]
      supervisor := some s.supervisors.length}
    else {s with call := .idle}

/-- `disconnect`, up to its first wait. -/
def disconnect (again : Option Nat) : Outbound :=
  match s.supervisor with
  | some i => {s.signal i with supervisor := none, call := .shuttingDown i again}
  | none => {s with call := .taking again}

def isFinished (i : Nat) : Bool := (s.supervisors[i]?).any fun x => x.phase = .finished

/-! ### Steps -/

inductive Act where
  | connect
  | connectWithReconnect (maxAttempts : Nat)
  | disconnect
  /-- What the caller awaits completes; `ok` is how a handshake ends. -/
  | proceed (ok : Bool)
  /-- Two seconds have passed in `shutdown`. -/
  | timeout
  /-- What supervisor `i` awaits completes. -/
  | supervise (i : Nat) (ok : Bool)
  /-- Supervisor `i` sees its signal. -/
  | observe (i : Nat)
  /-- The peer closes the connection or the network does. -/
  | hangup (conn : Nat)
  /-- The reader handles a sync frame that brings a change. -/
  | frame (conn : Nat)
  deriving DecidableEq, Repr

/-- The caller goes on. -/
def proceed (ok : Bool) : Option Outbound :=
  match s.call with
  | .idle => none
  | .connecting =>
    if ok then some {s.registerPeer with call := .registered s.conns.length}
    else some {s with call := .idle}
  | .registered conn => some {s.spawnTasks conn with call := .connected conn}
  | .connected conn => some {s.store conn with call := .idle}
  | .shuttingDown i again => if s.isFinished i then some {s with call := .taking again} else none
  | .taking again =>
    match s.client with
    | some conn => some {s.abortReader conn with client := none, call := .closing conn again}
    | none => some (s.disconnects again)
  | .closing conn again => some ((s.unregisterPeer conn).disconnects again)

/-- Supervisor `i` goes on. -/
def supervise (i : Nat) (x : ReconnectSupervisor) (ok : Bool) : Option Outbound :=
  match x.phase with
  | .connecting attempt =>
    if ok then some (s.registerPeer.setPhase i (.registered s.conns.length))
    else if x.maxAttempts ≤ attempt then some (s.setPhase i .finished)
    else some (s.setPhase i (.sleeping attempt))
  | .registered conn => some ((s.spawnTasks conn).setPhase i (.connected conn))
  | .connected conn => some ((s.store conn).setPhase i (.waiting conn))
  | .waiting conn =>
    if (s.conns[conn]?).any OutboundConn.closed then
      match s.client with
      | some dead =>
        some {(s.abortReader dead).setPhase i (.closing (some dead)) with client := none}
      | none => some (s.setPhase i (.closing none))
    else none
  | .sleeping attempt => some (s.setPhase i (.connecting (attempt + 1)))
  | .closing (some conn) => some ((s.unregisterPeer conn).setPhase i (.connecting 1))
  | .closing none => some (s.setPhase i (.connecting 1))
  | .finished => none

def step (s : Outbound) : Act → Option Outbound
  | .connect =>
    if s.call = .idle then
      some {s with disconnected := false, call := if s.url then .connecting else .idle}
    else none
  | .connectWithReconnect maxAttempts =>
    if s.call = .idle then some ({s with disconnected := false}.disconnect (some maxAttempts))
    else none
  | .disconnect => if s.call = .idle then some (s.disconnect none) else none
  | .proceed ok => s.proceed ok
  | .timeout =>
    match s.call with
    | .shuttingDown _ again => some {s with call := .taking again}
    | _ => none
  | .supervise i ok => (s.supervisors[i]?).bind fun x => s.supervise i x ok
  | .observe i => (s.supervisors[i]?).bind fun x =>
    match x.phase with
    | .waiting _ | .sleeping _ => if x.signalled then some (s.setPhase i .finished) else none
    | _ => none
  | .hangup conn =>
    if (s.conns[conn]?).any OutboundConn.reading then some (s.readerEnds conn) else none
  | .frame conn =>
    if (s.conns[conn]?).any OutboundConn.reading then
      some {s with changes := if (s.conns[conn]?).any OutboundConn.registered then s.changes + 1
        else s.changes}
    else none

/-! ### The law and its condition -/

def Registered (conn : Nat) : Prop := (s.conns[conn]?).any OutboundConn.registered = true

/-- A vault that has been disconnected has no connection, and no frame changes its document. -/
def Final : Prop := s.disconnected = true → s.client = none ∧ (∀ conn, ¬ s.Registered conn) ∧
  ∀ conn s', step s (.frame conn) = some s' → s'.changes = s.changes

/-- The client slot holds no connection that is still registered. -/
def SlotFree : Prop := ∀ conn, s.client = some conn → ¬ s.Registered conn

/-- The wait of `disconnect` for the supervisor runs out only when the supervisor has ended,
and a connection is stored only when the slot holds none that is still registered. -/
def Settled : Act → Prop
  | .timeout => ∀ i again, s.call = .shuttingDown i again → s.isFinished i = true
  | .proceed _ => ∀ conn, s.call = .connected conn → s.SlotFree
  | .supervise i _ => ∀ x, s.supervisors[i]? = some x → ∀ conn, x.phase = .connected conn →
      s.SlotFree
  | _ => True

/-! ### Who holds a connection -/

variable {s} {s' : Outbound} {conn i : Nat} {x : ReconnectSupervisor}

theorem registered_registerPeer (c : Nat) :
    s.registerPeer.Registered c ↔ c = s.conns.length ∨ s.Registered c := by
  unfold Registered registerPeer
  rcases Nat.lt_trichotomy c s.conns.length with hc | rfl | hc
  · rw [List.getElem?_append_left hc]
    constructor
    · exact .inr
    · exact fun h => h.resolve_left (by omega)
  · simp
  · rw [List.getElem?_eq_none (by simp; omega), List.getElem?_eq_none (by omega)]
    simp
    omega

theorem registered_modify {f : OutboundConn → OutboundConn}
    (hf : ∀ c, (f c).registered = c.registered) (c : Nat) :
    Registered {s with conns := s.conns.modify conn f} c ↔ s.Registered c := by
  unfold Registered
  rw [List.getElem?_modify]
  by_cases hc : conn = c
  · subst hc
    cases s.conns[conn]? <;> simp [hf]
  · simp [hc]

theorem registered_spawnTasks (c : Nat) : (s.spawnTasks conn).Registered c ↔ s.Registered c :=
  registered_modify (s := s) (f := fun c => {c with reading := true}) (fun _ => rfl) c

theorem registered_abortReader (c : Nat) :
    (s.abortReader conn).Registered c ↔ s.Registered c :=
  registered_modify (s := s) (f := fun c => {c with reading := false}) (fun _ => rfl) c

theorem registered_drop {f : OutboundConn → OutboundConn} (hf : ∀ c, (f c).registered = false)
    {c : Nat} (h : Registered {s with conns := s.conns.modify conn f} c) :
    c ≠ conn ∧ s.Registered c := by
  unfold Registered at h ⊢
  rw [List.getElem?_modify] at h
  by_cases hc : conn = c
  · subst hc
    cases hget : s.conns[conn]? <;> simp [hget, hf] at h
  · exact ⟨fun h => hc h.symm, by simpa [hc] using h⟩

theorem store_eq (s : Outbound) (conn : Nat) :
    ∃ conns, s.store conn = {s with client := some conn, conns} ∧
      ∀ c, Registered {s with conns} c ↔ s.Registered c := by
  unfold store
  cases s.client with
  | none => exact ⟨s.conns, rfl, fun _ => Iff.rfl⟩
  | some d => exact ⟨(s.abortReader d).conns, rfl, registered_abortReader⟩

/-- Some task or the slot answers for the connection. -/
def Owner (s : Outbound) (c : Nat) : Prop :=
  s.client = some c ∨ s.call.holds = some c ∨
    ∃ (j : Nat) (y : ReconnectSupervisor), s.supervisors[j]? = some y ∧ y.phase.holds = some c

/-- Every registered connection is answered for, and so is every running supervisor. -/
structure Owned (s : Outbound) : Prop where
  owner : ∀ c, s.Registered c → s.Owner c
  running : ∀ (j : Nat) (y : ReconnectSupervisor), s.supervisors[j]? = some y →
    y.phase ≠ .finished →
    s.supervisor = some j ∨ ∃ again, s.call = .shuttingDown j again
  stopped : s.call.disconnecting = true → s.supervisor = none
  taken : ∀ c again, s.call = .closing c again → s.client = none
  empty : s.disconnected = true → s.client = none ∧ s.supervisor = none ∧
    (s.call = .idle ∨ s.call = .taking none)

theorem Owned.final (h : s.Owned) : s.Final := by
  intro hdisc
  obtain ⟨hclient, hsup, hcall⟩ := h.empty hdisc
  have hno : ∀ c, ¬ s.Registered c := by
    intro c hc
    rcases h.owner c hc with howner | howner | ⟨j, y, hy, hholds⟩
    · cases hclient.symm.trans howner
    · rcases hcall with hcall | hcall <;> simp [hcall, VaultCall.holds] at howner
    · by_cases hfin : y.phase = .finished
      · simp [hfin, SupervisorPhase.holds] at hholds
      · rcases h.running j y hy hfin with hj | ⟨again, hj⟩
        · cases hsup.symm.trans hj
        · rcases hcall with hcall | hcall <;> cases hcall.symm.trans hj
  refine ⟨hclient, hno, fun c s' hs => ?_⟩
  obtain ⟨-, hs⟩ := Option.ite_none_right_eq_some.mp hs
  obtain rfl := Option.some.inj hs
  exact if_neg (hno c)

theorem setPhase_self {phase : SupervisorPhase} (hi : s.supervisors[i]? = some x) :
    (s.setPhase i phase).supervisors[i]? = some {x with phase} := by
  unfold setPhase
  rw [List.getElem?_modify, hi]
  simp

theorem setPhase_of_ne {phase : SupervisorPhase} {j : Nat} (hj : i ≠ j) :
    (s.setPhase i phase).supervisors[j]? = s.supervisors[j]? := by
  unfold setPhase
  rw [List.getElem?_modify]
  simp [hj]

/-- A supervisor moves; nothing but the connections and the client slot changes beside it.
What the slot and the supervisor held is still answered for, or is no longer registered. -/
theorem Owned.supervised (h : s.Owned) (hi : s.supervisors[i]? = some x)
    (hx : x.phase ≠ .finished) {phase : SupervisorPhase} (hcall : s'.call = s.call)
    (hsup : s'.supervisor = s.supervisor)
    (hsups : s'.supervisors = (s.setPhase i phase).supervisors)
    (hdisc : s'.disconnected = s.disconnected)
    (hreg : ∀ c, s'.Registered c → s.Registered c ∨ phase.holds = some c)
    (hkept : ∀ c, s.client = some c ∨ x.phase.holds = some c →
      s'.Registered c → s'.client = some c ∨ phase.holds = some c) : s'.Owned := by
  have hself : ∀ c, phase.holds = some c → s'.Owner c := fun c hc =>
    .inr (.inr ⟨i, {x with phase}, by rw [hsups, setPhase_self hi], hc⟩)
  have hkept' : ∀ c, s.client = some c ∨ x.phase.holds = some c → s'.Registered c →
      s'.Owner c := by
    intro c hc hr
    rcases hkept c hc hr with hc | hc
    · exact .inl hc
    · exact hself c hc
  have hrun := h.running i x hi hx
  refine ⟨fun c hc => ?_, fun j y hy hfin => ?_, fun hd => ?_, fun c again hc => ?_,
    fun hd => ?_⟩
  · rcases hreg c hc with hr | hr
    · rcases h.owner c hr with hown | hown | ⟨j, y, hy, hholds⟩
      · exact hkept' c (.inl hown) hc
      · exact .inr (.inl (hcall ▸ hown))
      · by_cases hj : i = j
        · subst hj
          obtain rfl := Option.some.inj (hi.symm.trans hy)
          exact hkept' c (.inr hholds) hc
        · exact .inr (.inr ⟨j, y, by rw [hsups, setPhase_of_ne hj, hy], hholds⟩)
    · exact hself c hr
  · rw [hcall, hsup]
    by_cases hj : i = j
    · exact hj ▸ hrun
    · exact h.running j y (by rw [← hy, hsups, setPhase_of_ne hj]) hfin
  · rw [hsup]
    exact h.stopped (hcall ▸ hd)
  · rw [hcall] at hc
    rcases hrun with hrun | ⟨again', hrun⟩
    · cases (h.stopped (by rw [hc]; rfl)).symm.trans hrun
    · cases hc.symm.trans hrun
  · obtain ⟨-, hnone, hc⟩ := h.empty (hdisc ▸ hd)
    rcases hrun with hrun | ⟨again, hrun⟩
    · cases hnone.symm.trans hrun
    · rcases hc with hc | hc <;> cases hc.symm.trans hrun

theorem Owned.supervise (h : s.Owned) (hi : s.supervisors[i]? = some x) {ok : Bool}
    (hfree : ∀ conn, x.phase = .connected conn → s.SlotFree)
    (hs : s.supervise i x ok = some s') : s'.Owned := by
  obtain ⟨maxAttempts, phase, signalled⟩ := x
  unfold Outbound.supervise at hs
  cases phase with
  | connecting attempt =>
    simp only at hs
    split at hs
    · obtain rfl := Option.some.inj hs
      refine h.supervised hi SupervisorPhase.noConfusion rfl rfl rfl rfl (fun c hc => ?_)
        fun c hc _ => .inl (hc.resolve_right (Option.some_ne_none c).symm)
      rcases (registered_registerPeer c).mp hc with rfl | hc
      · exact .inr rfl
      · exact .inl hc
    · split at hs
      all_goals
        obtain rfl := Option.some.inj hs
        exact h.supervised hi SupervisorPhase.noConfusion rfl rfl rfl rfl (fun c hc => .inl hc)
          fun c hc _ => .inl (hc.resolve_right (Option.some_ne_none c).symm)
  | registered conn =>
    obtain rfl := Option.some.inj hs
    exact h.supervised hi SupervisorPhase.noConfusion rfl rfl rfl rfl
      (fun c hc => .inl ((registered_spawnTasks c).mp hc)) fun c hc _ => hc
  | connected conn =>
    obtain ⟨conns, hstore, hr⟩ := s.store_eq conn
    simp only [hstore] at hs
    obtain rfl := Option.some.inj hs
    refine h.supervised hi SupervisorPhase.noConfusion rfl rfl rfl rfl
      (fun c hc => .inl ((hr c).mp hc)) fun c hc hreg => ?_
    rcases hc with hc | hc
    · exact absurd ((hr c).mp hreg) (hfree conn rfl c hc)
    · exact .inl hc
  | waiting conn =>
    obtain ⟨-, hs⟩ := Option.ite_none_right_eq_some.mp hs
    cases hclient : s.client with
    | none =>
      rw [hclient] at hs
      obtain rfl := Option.some.inj hs
      exact h.supervised hi SupervisorPhase.noConfusion rfl rfl rfl rfl (fun c hc => .inl hc)
        fun c hc _ => .inl (hc.resolve_right (Option.some_ne_none c).symm)
    | some dead =>
      rw [hclient] at hs
      obtain rfl := Option.some.inj hs
      exact h.supervised hi SupervisorPhase.noConfusion rfl rfl rfl rfl
        (fun c hc => .inl ((registered_abortReader c).mp hc))
        fun c hc _ => .inr (hclient ▸ hc.resolve_right (Option.some_ne_none c).symm)
  | sleeping attempt =>
    obtain rfl := Option.some.inj hs
    exact h.supervised hi SupervisorPhase.noConfusion rfl rfl rfl rfl (fun c hc => .inl hc)
      fun c hc _ => .inl (hc.resolve_right (Option.some_ne_none c).symm)
  | closing conn =>
    cases conn with
    | none =>
      obtain rfl := Option.some.inj hs
      exact h.supervised hi SupervisorPhase.noConfusion rfl rfl rfl rfl (fun c hc => .inl hc)
        fun c hc _ => .inl (hc.resolve_right (Option.some_ne_none c).symm)
    | some conn =>
      obtain rfl := Option.some.inj hs
      refine h.supervised hi SupervisorPhase.noConfusion rfl rfl rfl rfl
        (fun c hc => .inl (registered_drop (fun _ => rfl) hc).2) fun c hc hr => ?_
      rcases hc with hc | hc
      · exact .inl hc
      · exact absurd (Option.some.inj hc).symm (registered_drop (fun _ => rfl) hr).1
  | finished => cases hs

/-- The caller moves; no supervisor does. -/
theorem Owned.called (h : s.Owned)
    (hsups : ∀ j : Nat, (s'.supervisors[j]?).map ReconnectSupervisor.phase =
      (s.supervisors[j]?).map ReconnectSupervisor.phase)
    (hreg : ∀ c, s'.Registered c → s.Registered c ∨ s'.call.holds = some c)
    (hkept : ∀ c, s.client = some c ∨ s.call.holds = some c →
      s'.Registered c → s'.client = some c ∨ s'.call.holds = some c)
    (hrunning : ∀ j, (s.supervisor = some j ∨ ∃ again, s.call = .shuttingDown j again) →
      s.isFinished j = false →
      s'.supervisor = some j ∨ ∃ again, s'.call = .shuttingDown j again)
    (hstopped : s'.call.disconnecting = true → s'.supervisor = none)
    (htaken : ∀ c again, s'.call = .closing c again → s'.client = none)
    (hempty : s'.disconnected = true → s'.client = none ∧ s'.supervisor = none ∧
      (s'.call = .idle ∨ s'.call = .taking none)) : s'.Owned := by
  have hkept' : ∀ c, s.client = some c ∨ s.call.holds = some c → s'.Registered c →
      s'.Owner c := by
    intro c hc hr
    rcases hkept c hc hr with hc | hc
    · exact .inl hc
    · exact .inr (.inl hc)
  refine ⟨fun c hc => ?_, fun j y hy hfin => ?_, hstopped, htaken, hempty⟩
  · rcases hreg c hc with hr | hr
    · rcases h.owner c hr with hown | hown | ⟨j, y, hy, hholds⟩
      · exact hkept' c (.inl hown) hc
      · exact hkept' c (.inr hown) hc
      · have hj := hsups j
        rw [hy] at hj
        obtain ⟨y', hy', hphase⟩ := Option.map_eq_some_iff.mp hj
        exact .inr (.inr ⟨j, y', hy', hphase ▸ hholds⟩)
    · exact .inr (.inl hr)
  · have hj := (hsups j).symm
    rw [hy] at hj
    obtain ⟨y', hy', hphase⟩ := Option.map_eq_some_iff.mp hj
    have hfin' : y'.phase ≠ .finished := hphase ▸ hfin
    refine hrunning j (h.running j y' hy' hfin') ?_
    unfold isFinished
    rw [hy']
    exact decide_eq_false hfin'

theorem signal_phase (j : Nat) : ((s.signal i).supervisors[j]?).map ReconnectSupervisor.phase =
    (s.supervisors[j]?).map ReconnectSupervisor.phase := by
  unfold signal
  rw [List.getElem?_modify]
  by_cases hj : i = j
  · cases s.supervisors[j]? <;> simp [hj]
  · simp [hj]

theorem Owned.connected_of (h : s.Owned) (hidle : s.call ≠ .idle)
    (htaking : s.call ≠ .taking none) : s.disconnected = false := by
  cases hd : s.disconnected with
  | false => rfl
  | true => rcases (h.empty hd).2.2 with hc | hc <;> contradiction

/-- The caller moves inside a connecting call. -/
theorem Owned.connects (h : s.Owned) (hidle : s.call ≠ .idle)
    (htaking : s.call ≠ .taking none) (hends : s.call.disconnecting = false)
    (hends' : s'.call.disconnecting = false) (hsups : s'.supervisors = s.supervisors)
    (hsup : s'.supervisor = s.supervisor) (hdisc : s'.disconnected = s.disconnected)
    (hreg : ∀ c, s'.Registered c → s.Registered c ∨ s'.call.holds = some c)
    (hkept : ∀ c, s.client = some c ∨ s.call.holds = some c →
      s'.Registered c → s'.client = some c ∨ s'.call.holds = some c) : s'.Owned := by
  refine h.called (fun _ => by rw [hsups]) hreg hkept (fun j hj _ => ?_) (fun hd => ?_)
    (fun c again hc => ?_) fun hd => ?_
  · rcases hj with hj | ⟨again, hj⟩
    · exact .inl (hsup ▸ hj)
    · rw [hj] at hends
      cases hends
  · cases hends'.symm.trans hd
  · rw [hc] at hends'
    cases hends'
  · cases (hdisc.trans (h.connected_of hidle htaking)).symm.trans hd

/-- `disconnect` ends: the slot is empty and no supervisor runs. -/
theorem Owned.disconnects (h : s.Owned) {again : Option Nat}
    (hcall : s.call = .taking again ∨ ∃ c, s.call = .closing c again)
    (hclient : s.client = none) (hclosed : ∀ c, s.call.holds = some c → ¬ s.Registered c) :
    (s.disconnects again).Owned := by
  have hsup : s.supervisor = none := by
    refine h.stopped ?_
    rcases hcall with hcall | ⟨c, hcall⟩ <;> rw [hcall] <;> rfl
  have hfinished : ∀ (j : Nat) (y : ReconnectSupervisor), s.supervisors[j]? = some y →
      y.phase = .finished := by
    intro j y hy
    by_contra hfin
    rcases h.running j y hy hfin with hj | ⟨again', hj⟩
    · cases hsup.symm.trans hj
    · rcases hcall with hcall | ⟨c, hcall⟩ <;> cases hcall.symm.trans hj
  have hnone : ∀ c, ¬ s.Registered c := by
    intro c hc
    rcases h.owner c hc with hown | hown | ⟨j, y, hy, hholds⟩
    · cases hclient.symm.trans hown
    · exact hclosed c hown hc
    · rw [hfinished j y hy] at hholds
      cases hholds
  have hidle : s.call ≠ .idle := by
    rcases hcall with hcall | ⟨c, hcall⟩ <;> rw [hcall] <;> exact VaultCall.noConfusion
  cases again with
  | none =>
    exact ⟨fun c hc => absurd hc (hnone c), fun j y hy hfin => absurd (hfinished j y hy) hfin,
      fun _ => hsup, fun _ _ _ => hclient, fun _ => ⟨hclient, hsup, .inl rfl⟩⟩
  | some maxAttempts =>
    have htaking : s.call ≠ .taking none := by
      rcases hcall with hcall | ⟨c, hcall⟩ <;> rw [hcall]
      · intro h
        cases h
      · exact VaultCall.noConfusion
    have hdisc := h.connected_of hidle htaking
    simp only [Outbound.disconnects]
    split
    · refine ⟨fun c hc => absurd hc (hnone c), fun j y hy hfin => ?_, Bool.noConfusion,
        fun _ _ _ => hclient, fun hd => ?_⟩
      · rcases Nat.lt_or_ge j s.supervisors.length with hj | hj
        · exact absurd (hfinished j y (by rw [← hy, List.getElem?_append_left hj])) hfin
        · have hlt := (List.getElem?_eq_some_iff.mp hy).1
          simp only [List.length_append, List.length_singleton] at hlt
          exact .inl (congrArg some (by omega))
      · cases hdisc.symm.trans hd
    · exact ⟨fun c hc => absurd hc (hnone c), fun j y hy hfin => absurd (hfinished j y hy) hfin,
        fun _ => hsup, fun _ _ _ => hclient, fun hd => by cases hdisc.symm.trans hd⟩

theorem Owned.proceed (h : s.Owned) {ok : Bool}
    (hfree : ∀ conn, s.call = .connected conn → s.SlotFree)
    (hs : s.proceed ok = some s') : s'.Owned := by
  obtain ⟨url, client, supervisor, conns, supervisors, call, changes, disconnected⟩ := s
  unfold Outbound.proceed at hs
  cases call with
  | idle => cases hs
  | connecting =>
    simp only at hs
    split at hs
    all_goals obtain rfl := Option.some.inj hs
    · refine h.connects VaultCall.noConfusion VaultCall.noConfusion rfl rfl rfl rfl rfl
        (fun c hc => ?_) fun c hc _ => .inl (hc.resolve_right (Option.some_ne_none c).symm)
      rcases (registered_registerPeer c).mp hc with rfl | hc
      · exact .inr rfl
      · exact .inl hc
    · exact h.called (fun _ => rfl) (fun c hc => .inl hc) (fun c hc _ => hc) (fun j hj _ => by
        rcases hj with hj | ⟨again, hj⟩
        · exact .inl hj
        · cases hj) Bool.noConfusion (fun c again hc => by cases hc) fun hd =>
          by cases (h.connected_of VaultCall.noConfusion VaultCall.noConfusion).symm.trans hd
  | registered conn =>
    obtain rfl := Option.some.inj hs
    exact h.connects VaultCall.noConfusion VaultCall.noConfusion rfl rfl rfl rfl rfl
      (fun c hc => .inl ((registered_spawnTasks c).mp hc)) fun c hc _ => hc
  | connected conn =>
    simp only at hs
    obtain ⟨conns', hstore, hr⟩ := store_eq
      ⟨url, client, supervisor, conns, supervisors, .connected conn, changes, disconnected⟩ conn
    rw [hstore] at hs
    obtain rfl := Option.some.inj hs
    refine h.connects VaultCall.noConfusion VaultCall.noConfusion rfl rfl rfl rfl rfl
      (fun c hc => .inl ((hr c).mp hc)) fun c hc hreg => ?_
    rcases hc with hc | hc
    · exact absurd ((hr c).mp hreg) (hfree conn rfl c hc)
    · exact .inl hc
  | shuttingDown i again =>
    obtain ⟨hfin, hs⟩ := Option.ite_none_right_eq_some.mp hs
    obtain rfl := Option.some.inj hs
    refine h.called (fun _ => rfl) (fun c hc => .inl hc)
      (fun c hc _ => .inl (hc.resolve_right (Option.some_ne_none c).symm)) (fun j hj hrun => ?_)
      (fun _ => h.stopped rfl) (fun c again hc => by cases hc) fun hd => ?_
    · rcases hj with hj | ⟨again', hj⟩
      · exact .inl hj
      · cases hj
        cases hfin.symm.trans hrun
    · cases (h.connected_of VaultCall.noConfusion VaultCall.noConfusion).symm.trans hd
  | taking again =>
    cases client with
    | none =>
      obtain rfl := Option.some.inj hs
      exact h.disconnects (.inl rfl) rfl fun c hc => by cases hc
    | some conn =>
      obtain rfl := Option.some.inj hs
      refine h.called (fun _ => rfl) (fun c hc => .inl ((registered_abortReader c).mp hc))
        (fun c hc _ => .inr (hc.resolve_right (Option.some_ne_none c).symm)) (fun j hj _ => ?_)
        (fun _ => h.stopped rfl) (fun _ _ _ => rfl) fun hd => ?_
      · rcases hj with hj | ⟨again', hj⟩
        · exact .inl hj
        · cases hj
      · cases (h.empty hd).1
  | closing conn again =>
    obtain rfl := Option.some.inj hs
    have h' : (unregisterPeer ⟨url, client, supervisor, conns, supervisors, .closing conn again,
        changes, disconnected⟩ conn).Owned :=
      h.called (fun _ => rfl) (fun c hc => .inl (registered_drop (fun _ => rfl) hc).2)
        (fun c hc _ => hc) (fun j hj _ => hj) h.stopped h.taken h.empty
    exact h'.disconnects (.inr ⟨conn, rfl⟩) (h.taken conn again rfl) fun c hc hr =>
      (registered_drop (fun _ => rfl) hr).1 (Option.some.inj hc).symm

theorem Owned.disconnect (h : s.Owned) {again : Option Nat} (hcall : s.call = .idle)
    (hagain : again ≠ none → s.disconnected = false) : (s.disconnect again).Owned := by
  have hkept : ∀ c, s.client = some c ∨ s.call.holds = some c → s.client = some c ∨
      none = some c := fun c hc => .inl (hc.resolve_right (by rw [hcall]; exact
        (Option.some_ne_none c).symm))
  unfold Outbound.disconnect
  cases hsup : s.supervisor with
  | none =>
    refine h.called (fun _ => rfl) (fun c hc => .inl hc) (fun c hc _ => hkept c hc)
      (fun j hj _ => ?_) (fun _ => rfl) (fun c again hc => by cases hc) fun hd => ?_
    · rcases hj with hj | ⟨again', hj⟩
      · cases hsup.symm.trans hj
      · cases hcall.symm.trans hj
    · cases again with
      | none => exact ⟨(h.empty hd).1, rfl, .inr rfl⟩
      | some _ => cases (hagain (Option.some_ne_none _)).symm.trans hd
  | some i =>
    refine h.called signal_phase (fun c hc => .inl hc) (fun c hc _ => hkept c hc)
      (fun j hj _ => ?_) (fun _ => rfl) (fun c again hc => by cases hc) fun hd => ?_
    · rcases hj with hj | ⟨again', hj⟩
      · obtain rfl := Option.some.inj (hsup.symm.trans hj)
        exact .inr ⟨again, rfl⟩
      · cases hcall.symm.trans hj
    · cases hsup.symm.trans (h.empty hd).2.1

theorem Owned.step (h : s.Owned) {a : Act} (hg : s.Settled a)
    (hs : Outbound.step s a = some s') : s'.Owned := by
  cases a with
  | connect =>
    obtain ⟨hcall, hs⟩ := Option.ite_none_right_eq_some.mp hs
    obtain rfl := Option.some.inj hs
    refine h.called (fun _ => rfl) (fun c hc => .inl hc) (fun c hc _ => ?_) (fun j hj _ => ?_)
      (fun hd => ?_) (fun c again hc => ?_) Bool.noConfusion
    · rw [hcall] at hc
      exact .inl (hc.resolve_right (Option.some_ne_none c).symm)
    · rw [hcall] at hj
      rcases hj with hj | ⟨again, hj⟩
      · exact .inl hj
      · cases hj
    · simp only at hd
      split at hd <;> cases hd
    · simp only at hc
      split at hc <;> cases hc
  | connectWithReconnect maxAttempts =>
    obtain ⟨hcall, hs⟩ := Option.ite_none_right_eq_some.mp hs
    obtain rfl := Option.some.inj hs
    have h' : Owned {s with disconnected := false} :=
      h.called (fun _ => rfl) (fun c hc => .inl hc) (fun c hc _ => hc) (fun j hj _ => hj)
        h.stopped h.taken Bool.noConfusion
    exact h'.disconnect hcall fun _ => rfl
  | disconnect =>
    obtain ⟨hcall, hs⟩ := Option.ite_none_right_eq_some.mp hs
    obtain rfl := Option.some.inj hs
    exact h.disconnect hcall fun hagain => absurd rfl hagain
  | proceed ok => exact h.proceed hg hs
  | timeout =>
    cases hcall : s.call with
    | shuttingDown i again =>
      have hproceed : s.proceed true = some s' := by
        simp only [Outbound.step, hcall] at hs
        simp only [Outbound.proceed, hcall, hg i again hcall, if_true, hs]
      exact h.proceed (fun conn hc => by cases hcall.symm.trans hc) hproceed
    | idle | connecting | registered | connected | taking | closing =>
      simp [Outbound.step, hcall] at hs
  | supervise i ok =>
    obtain ⟨x, hi, hs⟩ := Option.bind_eq_some_iff.mp hs
    exact h.supervise hi (hg x hi) hs
  | observe i =>
    obtain ⟨⟨maxAttempts, phase, signalled⟩, hi, hs⟩ := Option.bind_eq_some_iff.mp hs
    have hnone : phase.holds = none ∧ phase ≠ .finished ∧ s' = s.setPhase i .finished := by
      cases phase with
      | waiting conn =>
        obtain ⟨-, hs⟩ := Option.ite_none_right_eq_some.mp hs
        exact ⟨rfl, SupervisorPhase.noConfusion, (Option.some.inj hs).symm⟩
      | sleeping attempt =>
        obtain ⟨-, hs⟩ := Option.ite_none_right_eq_some.mp hs
        exact ⟨rfl, SupervisorPhase.noConfusion, (Option.some.inj hs).symm⟩
      | connecting | registered | connected | closing | finished => cases hs
    obtain ⟨hholds, hfin, rfl⟩ := hnone
    exact h.supervised hi hfin rfl rfl rfl rfl (fun c hc => .inl hc) fun c hc _ =>
      .inl (hc.resolve_right (by rw [hholds]; exact (Option.some_ne_none c).symm))
  | hangup conn =>
    obtain ⟨-, hs⟩ := Option.ite_none_right_eq_some.mp hs
    obtain rfl := Option.some.inj hs
    exact h.called (fun _ => rfl) (fun c hc => .inl (registered_drop (fun _ => rfl) hc).2)
      (fun c hc _ => hc) (fun j hj _ => hj) h.stopped h.taken h.empty
  | frame conn =>
    obtain ⟨-, hs⟩ := Option.ite_none_right_eq_some.mp hs
    obtain rfl := Option.some.inj hs
    exact h.called (fun _ => rfl) (fun c hc => .inl hc) (fun c hc _ => hc) (fun j hj _ => hj)
      h.stopped h.taken h.empty

theorem Owned.start (url : Bool) : (start url).Owned :=
  ⟨fun c hc => by simp [Registered, Outbound.start] at hc,
    fun j y hy => by simp [Outbound.start] at hy, fun _ => rfl, fun _ _ _ => rfl,
    Bool.noConfusion⟩

/-- In every run whose supervisors end in time and whose connections are stored over none that
is still registered, a disconnected vault stays disconnected. -/
theorem final_of_settled (url : Bool) (h : Machine.Reach step Settled (start url) s) : s.Final :=
  Owned.final (h.invariant (Owned.start url) fun _ _ _ howned hg hs => howned.step hg hs)

/-- `disconnect` gives up waiting for a supervisor that is inside `ClientConn::connect`. -/
private def lateSupervisor : List Act :=
  [.connectWithReconnect 10, .proceed true, .disconnect, .timeout, .proceed true,
    .supervise 0 true, .supervise 0 true, .supervise 0 true]

theorem final_of_settled_timeout : ∃ s, Machine.Reach step (fun _ _ => True) (start true) s ∧
    s.disconnected = true ∧ s.client = some 0 ∧ s.Registered 0 ∧
      ∃ s', step s (.frame 0) = some s' ∧ s'.changes ≠ s.changes := by
  have hrun : (Machine.run step (start true) lateSupervisor).map
      (fun s => (s.disconnected, s.client, s.conns, s.changes)) =
      some (true, some 0, [⟨true, true, false⟩], 0) := by decide +kernel
  obtain ⟨s, hs, hread⟩ := Option.map_eq_some_iff.mp hrun
  simp only [Prod.mk.injEq] at hread
  obtain ⟨hdisc, hclient, hconns, hchanges⟩ := hread
  refine ⟨s, .of_run (.of_forall (fun _ _ => trivial) _) hs, hdisc, hclient, ?_, ?_⟩
  · show (s.conns[0]?).any OutboundConn.registered = true
    rw [hconns]
    rfl
  · refine ⟨{s with changes := s.changes + 1}, ?_, Nat.succ_ne_self _⟩
    simp [step, hconns]

/-- A supervised connection that `disconnect` takes down in time. -/
theorem final_of_settled_shutdown : ∃ s : Outbound, s.disconnected = true ∧
    s.conns.length = 1 ∧ s.Final := by
  have hreach : ∃ s, Machine.Reach step Settled (start true) s ∧ s.disconnected = true ∧
      s.conns.length = 1 := by
    have hspawned : Machine.Reach step Settled (start true)
        ⟨true, none, some 0, [], [⟨10, .connecting 1, false⟩], .idle, 0, false⟩ :=
      .step (.proceed true) (.step (.connectWithReconnect 10) .start trivial rfl)
        (fun _ h => by cases h) rfl
    have hregistered := hspawned.step (Act.supervise 0 true)
      (fun _ hx _ h => by cases hx; cases h) rfl
    have hconnected := hregistered.step (Act.supervise 0 true)
      (fun _ hx _ h => by cases hx; cases h) rfl
    have hstored := hconnected.step (Act.supervise 0 true) (fun _ _ _ _ _ h => by cases h) rfl
    have hsignalled := hstored.step Act.disconnect trivial rfl
    have hobserved := hsignalled.step (Act.observe 0) trivial rfl
    have hended := hobserved.step (Act.proceed true) (fun _ h => by cases h) rfl
    have htaken := hended.step (Act.proceed true) (fun _ h => by cases h) rfl
    exact ⟨_, htaken.step (Act.proceed true) (fun _ h => by cases h) rfl, rfl, rfl⟩
  obtain ⟨s, hs, hdisc, hlength⟩ := hreach
  exact ⟨s, hdisc, hlength, final_of_settled true hs⟩

end Outbound

end AgentSync.Net
