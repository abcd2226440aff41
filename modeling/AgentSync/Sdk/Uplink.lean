import AgentSync.Machine
import Mathlib.Data.List.GetD

/-! The hub connection of a TypeScript vault.

`connect`, `connectWithReconnect`, `disconnect` and `close` run side by side and interleave at
every await; `this.connection` is set only when the handshake is over, and the abort signal is
read only between attempts.

The law (`Final`) is that a disconnected vault hears nothing more and a closed one leaves its
freed document alone. `advance_moves` says once what an attempt can do at an await; `Inv` is
read off it. What breaks the law is a teardown that finds an attempt before it has stored its
connection, calls that overlap, and a transport that still has something to say when its close
is over (`orderly`). -/
namespace AgentSync.Sdk

/-- The awaits of `runHandshake`. -/
inductive HandshakeAwait where
  | helloHub | sendHelloPeer | proofHub | sign | sendProofPeer | loadSyncState
  deriving DecidableEq, Repr

/-- Where a `connect()` is, or the supervisor loop around it. -/
inductive AttemptPhase where
  /-- In `transport.connect`. -/
  | transport
  | handshake (conn : Nat) (await : HandshakeAwait)
  /-- `runHandshake` has returned. -/
  | handshaken (conn : Nat)
  /-- In a send of `pumpOutbound`, before the loop or, when `handling`, for a frame. -/
  | pumping (conn : Nat) (handling : Bool)
  /-- In `for await`. -/
  | receiving (conn : Nat)
  | ponging (conn : Nat)
  /-- In `saveDoc` and in `saveSyncState`, of `flush`. -/
  | savingDoc (conn : Nat)
  | savingState (conn : Nat)
  /-- `flush` has returned. -/
  | flushed (conn : Nat)
  /-- In the handler's own `persistSyncState`. -/
  | persisting (conn : Nat)
  /-- In the `conn.close()` of `finally`. -/
  | finishing (conn : Nat) (failed : Bool)
  /-- Back in the supervisor loop. -/
  | attempted (failed : Bool)
  | sleeping
  | done
  deriving DecidableEq, Repr

/-- A call of `connect` (`signal = none`) or of `connectWithReconnect`. -/
structure Attempt where
  phase : AttemptPhase
  signal : Option Nat
  attempt : Nat
  /-- `none` is no bound. -/
  maxAttempts : Option Nat
  deriving DecidableEq, Repr

/-- What a transport connection has received, and whether it has seen its close. -/
structure SdkConn where
  incoming : Nat
  closed : Bool
  deriving DecidableEq, Repr

/-- Where a `disconnect()` or a `close()` is. -/
inductive TeardownPhase where
  /-- In the `conn.close()` of `disconnect`. -/
  | awaiting (conn : Nat)
  /-- In the `flush()` of `close`, which does nothing by then. -/
  | flushing
  /-- In `storage.close()`. -/
  | storing
  | resolved
  deriving DecidableEq, Repr

structure Teardown where
  closing : Bool
  phase : TeardownPhase
  deriving DecidableEq, Repr

inductive SdkFrame where
  /-- `moved`: the document has changed. -/
  | sync (moved : Bool)
  | ping
  | error
  | undecodable
  | other
  deriving DecidableEq, Repr

/-- How an await ends: whether it resolves, the frame it brings, and whether
`generateSyncMessage` then has a message. -/
structure Resolution where
  ok : Bool
  frame : SdkFrame
  more : Bool
  deriving DecidableEq, Repr

structure Uplink where
  /-- A `rendezvousUrl` is configured. -/
  url : Bool
  connection : Option Nat
  reconnectAbort : Option Nat
  /-- The abort signals; `true` is aborted. -/
  signals : List Bool
  conns : List SdkConn
  attempts : List Attempt
  teardowns : List Teardown
  closed : Bool
  freed : Bool
  /-- `disconnect()` has resolved and no connecting call has been made since. -/
  disconnected : Bool
  /-- Connections that have become ready, frames processed, methods called on the document. -/
  ready : Nat
  frames : Nat
  docCalls : Nat
  deriving DecidableEq, Repr

/-- The connection is not stored yet. -/
def AttemptPhase.storesLater : AttemptPhase → Bool
  | .transport | .handshake _ _ | .handshaken _ => true
  | _ => false

/-- The connection of the sync loop. -/
def AttemptPhase.loop : AttemptPhase → Option Nat
  | .pumping conn _ | .receiving conn | .ponging conn | .savingDoc conn | .savingState conn
  | .flushed conn | .persisting conn => some conn
  | _ => none

/-- The document is called before the next frame. -/
def AttemptPhase.callsDoc : AttemptPhase → Bool
  | .pumping _ _ | .savingDoc _ | .savingState _ | .flushed _ => true
  | _ => false

namespace Uplink

def start (url : Bool) : Uplink :=
  ⟨url, none, none, [], [], [], [], false, false, false, 0, 0, 0⟩

variable (s : Uplink) (i : Nat) (x : Attempt)

def put (x : Attempt) : Uplink := {s with attempts := s.attempts.set i x}

def move (phase : AttemptPhase) : Uplink := s.put i {x with phase}

def callDoc : Uplink := {s with docCalls := s.docCalls + 1}

/-- The next frame is taken from the transport and decoded. -/
def takeFrame (conn : Nat) : Uplink :=
  {s with
    conns := s.conns.modify conn fun c => {c with incoming := c.incoming - 1}
    frames := s.frames + 1}

def incoming (conn : Nat) : Nat := (s.conns[conn]?).elim 0 SdkConn.incoming

def aborted (signal : Nat) : Bool := s.signals[signal]? = some true

/-! ### Attempts -/

/-- The head of the supervisor loop. -/
def retry (signal : Nat) (attempt : Nat) : Uplink :=
  if !s.aborted signal && x.maxAttempts.all (attempt < ·) then
    s.put i {x with
      phase := if s.url then .transport else .attempted true
      attempt := attempt + 1}
  else s.move i x .done

/-- `connect()` is over. -/
def ends (failed : Bool) : Uplink :=
  s.move i x (if x.signal.isSome then .attempted failed else .done)

/-- `pumpOutbound`, from its call of `generateSyncMessage`. -/
def pump (conn : Nat) (handling more : Bool) : Uplink :=
  if s.freed then s.callDoc.move i x (.finishing conn true)
  else s.callDoc.move i x
    (if more then .pumping conn handling else if handling then .persisting conn
      else .receiving conn)

/-- `flush`, up to its first wait. -/
def flush (conn : Nat) : Uplink :=
  if s.closed then s.move i x (.flushed conn) else s.callDoc.move i x (.savingDoc conn)

def HandshakeAwait.next (conn : Nat) : HandshakeAwait → AttemptPhase
  | .helloHub => .handshake conn .sendHelloPeer
  | .sendHelloPeer => .handshake conn .proofHub
  | .proofHub => .handshake conn .sign
  | .sign => .handshake conn .sendProofPeer
  | .sendProofPeer => .handshake conn .loadSyncState
  | .loadSyncState => .handshaken conn

/-- A frame of the sync loop. -/
def handle (conn : Nat) (r : Resolution) : Uplink :=
  match r.frame with
  | .sync moved =>
    if s.freed || !r.ok then s.callDoc.move i x (.finishing conn true)
    else if moved then s.callDoc.flush i x conn
    else s.callDoc.pump i x conn true r.more
  | .ping => s.move i x (.ponging conn)
  | .error => s.move i x (.finishing conn false)
  | .undecodable => s.move i x (.finishing conn true)
  | .other => s.move i x (.receiving conn)

/-- What attempt `i` awaits completes. -/
def advance (r : Resolution) : Option Uplink :=
  match x.phase with
  | .transport =>
    if r.ok then
      let opened : Uplink := {s with conns := s.conns ++ [⟨0, false⟩]}
      some (opened.move i x (.handshake s.conns.length .helloHub))
    else some (s.ends i x true)
  | .handshake conn await =>
    let next := if r.ok then HandshakeAwait.next conn await else .finishing conn true
    if await = .helloHub ∨ await = .proofHub then
      if 0 < s.incoming conn then some ((s.takeFrame conn).move i x next)
      else if r.ok then none else some (s.move i x next)
    else some (s.move i x next)
  | .handshaken conn =>
    let stored : Uplink := {s with connection := some conn, ready := s.ready + 1}
    some (stored.pump i x conn false r.more)
  | .pumping conn handling =>
    if r.ok then some (s.pump i x conn handling r.more)
    else some (s.move i x (.finishing conn true))
  | .receiving conn =>
    if 0 < s.incoming conn then some ((s.takeFrame conn).handle i x conn r)
    else if (s.conns[conn]?).any SdkConn.closed then some (s.move i x (.finishing conn false))
    else none
  | .savingDoc conn =>
    if r.ok then
      some (s.move i x (if s.connection.isSome then .savingState conn else .flushed conn))
    else some (s.move i x (.finishing conn true))
  | .savingState conn => some (s.move i x (if r.ok then .flushed conn else .finishing conn true))
  | .flushed conn =>
    if s.freed then some (s.callDoc.move i x (.finishing conn true))
    else some (s.callDoc.pump i x conn true r.more)
  | .ponging conn | .persisting conn =>
    some (s.move i x (if r.ok then .receiving conn else .finishing conn true))
  | .finishing _ failed => some ({s with connection := none}.ends i x failed)
  | .attempted failed => x.signal.map fun signal =>
    if !failed then s.retry i x signal 0
    else if s.aborted signal then s.move i x .done else s.move i x .sleeping
  | .sleeping => x.signal.map fun signal => s.retry i x signal x.attempt
  | .done => none

/-! ### Calls -/

def connect : Uplink :=
  {s with
    disconnected := false
    attempts := s.attempts ++ [⟨if s.url then .transport else .done, none, 0, none⟩]}

def connectWithReconnect (maxAttempts : Option Nat) : Uplink :=
  let called : Uplink := {s with
    disconnected := false
    signals := s.signals ++ [false]
    reconnectAbort := some s.signals.length
    attempts := s.attempts ++ [⟨.sleeping, some s.signals.length, 0, maxAttempts⟩]}
  called.retry s.attempts.length ⟨.sleeping, some s.signals.length, 0, maxAttempts⟩
    s.signals.length 0

/-- `disconnect`, up to its first wait; `close` starts with it. -/
def disconnect (closing : Bool) : Uplink :=
  match s.connection with
  | some conn => {s with
    signals := s.reconnectAbort.elim s.signals fun g => s.signals.set g true
    reconnectAbort := none
    teardowns := s.teardowns ++ [⟨closing, .awaiting conn⟩]}
  | none => {s with
    signals := s.reconnectAbort.elim s.signals fun g => s.signals.set g true
    reconnectAbort := none
    disconnected := true
    teardowns := s.teardowns ++ [⟨closing, if closing then .flushing else .resolved⟩]}

/-- What teardown `k` awaits completes. -/
def resume (k : Nat) (d : Teardown) : Option Uplink :=
  match d.phase with
  | .awaiting _ => some {s with
    connection := none
    disconnected := true
    teardowns := s.teardowns.set k ⟨d.closing, if d.closing then .flushing else .resolved⟩}
  | .flushing => some {s with
    freed := true
    teardowns := s.teardowns.set k ⟨d.closing, .storing⟩}
  | .storing => some {s with teardowns := s.teardowns.set k ⟨d.closing, .resolved⟩}
  | .resolved => none

inductive Act where
  | connect
  | connectWithReconnect (maxAttempts : Option Nat)
  | disconnect
  | close
  /-- What attempt `i` awaits completes. -/
  | advance (i : Nat) (r : Resolution)
  /-- What teardown `k` awaits completes. -/
  | resume (k : Nat)
  /-- The transport delivers a frame, or its close. -/
  | arrive (conn : Nat)
  | hangup (conn : Nat)
  deriving DecidableEq, Repr

def step (s : Uplink) : Act → Option Uplink
  | .connect => some s.connect
  | .connectWithReconnect maxAttempts => some (s.connectWithReconnect maxAttempts)
  | .disconnect => some (s.disconnect false)
  | .close =>
    some (if s.closed then {s with teardowns := s.teardowns ++ [⟨true, .resolved⟩]}
      else {s with closed := true}.disconnect true)
  | .advance i r => (s.attempts[i]?).bind fun x => s.advance i x r
  | .resume k => (s.teardowns[k]?).bind fun d => s.resume k d
  | .arrive conn =>
    if (s.conns[conn]?).any fun c => !c.closed then
      some {s with conns := s.conns.modify conn fun c => {c with incoming := c.incoming + 1}}
    else none
  | .hangup conn => some {s with conns := s.conns.modify conn fun c => {c with closed := true}}

/-! ### The law and its condition -/

/-- A disconnected vault readies no connection and processes no frame, and a freed document is
not called. -/
structure Final : Prop where
  quiet : s.disconnected = true → ∀ a s', step s a = some s' →
    s'.ready = s.ready ∧ s'.frames = s.frames
  freed : s.freed = true → ∀ a s', step s a = some s' → s'.docCalls = s.docCalls

/-- The transport has seen its close and nothing it received is left. -/
def Spent (conn : Nat) : Prop := s.conns[conn]? = some ⟨0, true⟩

instance (conn : Nat) : Decidable (s.Spent conn) := inferInstanceAs (Decidable (_ = _))

/-- Calls do not overlap; a teardown finds no attempt that is yet to store its connection; its
`conn.close()` resolves on a spent transport, and the document is freed when no frame is being
handled. -/
def orderly : Act → Bool
  | .connect | .connectWithReconnect _ =>
    !s.closed && s.attempts.all (·.phase = .done) && s.teardowns.all (·.phase = .resolved)
  | .disconnect | .close => s.attempts.all fun x => !x.phase.storesLater
  | .resume k => (s.teardowns[k]?).all fun d =>
    match d.phase with
    | .awaiting conn => s.Spent conn
    | .flushing => s.attempts.all fun x => !x.phase.callsDoc
    | _ => true
  | _ => true

/-! ### What an attempt does at an await -/

variable {s i x} {t t' s' : Uplink} {x' : Attempt} {conn : Nat}

/-- Nothing that calls and teardowns decide on has changed. -/
structure Keeps (s t : Uplink) : Prop where
  attempts : t.attempts = s.attempts
  signals : t.signals = s.signals
  reconnectAbort : t.reconnectAbort = s.reconnectAbort
  teardowns : t.teardowns = s.teardowns
  closed : t.closed = s.closed
  freed : t.freed = s.freed
  disconnected : t.disconnected = s.disconnected
  spent : ∀ c, s.Spent c → t.Spent c

theorem Keeps.of_conns (hattempts : t.attempts = s.attempts) (hsignals : t.signals = s.signals)
    (habort : t.reconnectAbort = s.reconnectAbort) (hteardowns : t.teardowns = s.teardowns)
    (hclosed : t.closed = s.closed) (hfreed : t.freed = s.freed)
    (hdisc : t.disconnected = s.disconnected) (hconns : t.conns = s.conns) : Keeps s t :=
  ⟨hattempts, hsignals, habort, hteardowns, hclosed, hfreed, hdisc, fun c hc => by
    unfold Spent
    rw [hconns]
    exact hc⟩

theorem Keeps.refl (s : Uplink) : Keeps s s := .of_conns rfl rfl rfl rfl rfl rfl rfl rfl

theorem Keeps.trans (h : Keeps s t) (h' : Keeps t t') : Keeps s t' :=
  ⟨h'.attempts.trans h.attempts, h'.signals.trans h.signals,
    h'.reconnectAbort.trans h.reconnectAbort, h'.teardowns.trans h.teardowns,
    h'.closed.trans h.closed, h'.freed.trans h.freed, h'.disconnected.trans h.disconnected,
    fun c hc => h'.spent c (h.spent c hc)⟩

theorem keeps_callDoc (s : Uplink) : Keeps s s.callDoc :=
  .of_conns rfl rfl rfl rfl rfl rfl rfl rfl

theorem keeps_connection (s : Uplink) (connection : Option Nat) (ready : Nat) :
    Keeps s {s with connection, ready} :=
  .of_conns rfl rfl rfl rfl rfl rfl rfl rfl

theorem incoming_of_spent (h : s.Spent conn) : s.incoming conn = 0 := by
  unfold incoming
  rw [h]
  rfl

theorem keeps_takeFrame (h : 0 < s.incoming conn) : Keeps s (s.takeFrame conn) := by
  refine ⟨rfl, rfl, rfl, rfl, rfl, rfl, rfl, fun c hc => ?_⟩
  have hne : conn ≠ c := by
    rintro rfl
    rw [incoming_of_spent hc] at h
    omega
  unfold Spent takeFrame
  rw [List.getElem?_modify, hc]
  simp [hne]

theorem keeps_open (s : Uplink) (c : SdkConn) : Keeps s {s with conns := s.conns ++ [c]} := by
  refine ⟨rfl, rfl, rfl, rfl, rfl, rfl, rfl, fun conn hc => ?_⟩
  unfold Spent
  rw [List.getElem?_append_left (List.getElem?_eq_some_iff.mp hc).1]
  exact hc

/-- The attempt is at an await of the sync loop of `conn` and stays there or leaves the loop. -/
structure Stays (t : Uplink) (x : Attempt) (conn : Nat) (t' : Uplink) (x' : Attempt) : Prop where
  keeps : Keeps t t'
  connection : t'.connection = t.connection
  ready : t'.ready = t.ready
  frames : t'.frames = t.frames
  signal : x'.signal = x.signal
  stores : x'.phase.storesLater = false
  loop : ∀ c, x'.phase.loop = some c → c = conn

theorem stays_move (hkeeps : Keeps t t') (hconn : t'.connection = t.connection)
    (hready : t'.ready = t.ready) (hframes : t'.frames = t.frames) {phase : AttemptPhase}
    (hstores : phase.storesLater = false)
    (hloop : phase.loop = none ∨ phase.loop = some conn) :
    ∃ u x', t'.move i x phase = u.put i x' ∧ Stays t x conn u x' := by
  refine ⟨t', {x with phase}, rfl, hkeeps, hconn, hready, hframes, rfl, hstores,
    fun c hc => ?_⟩
  rcases hloop with hloop | hloop
  · cases hloop.symm.trans hc
  · exact Option.some.inj (hc.symm.trans hloop)

theorem pump_stays {handling more : Bool} :
    ∃ t' x', t.pump i x conn handling more = t'.put i x' ∧ Stays t x conn t' x' := by
  unfold pump
  cases t.freed with
  | true => exact stays_move (keeps_callDoc t) rfl rfl rfl rfl (.inl rfl)
  | false =>
    cases more with
    | true => exact stays_move (keeps_callDoc t) rfl rfl rfl rfl (.inr rfl)
    | false =>
      cases handling
      all_goals exact stays_move (keeps_callDoc t) rfl rfl rfl rfl (.inr rfl)

theorem Stays.after_callDoc (h : Stays s.callDoc x conn t' x') : Stays s x conn t' x' :=
  ⟨(keeps_callDoc s).trans h.keeps, h.connection, h.ready, h.frames, h.signal, h.stores, h.loop⟩

theorem handle_stays {r : Resolution} :
    ∃ t' x', t.handle i x conn r = t'.put i x' ∧ Stays t x conn t' x' := by
  unfold handle
  cases r.frame with
  | sync moved =>
    simp only
    split
    · exact stays_move (keeps_callDoc t) rfl rfl rfl rfl (.inl rfl)
    · split
      · unfold flush
        split
        · exact stays_move (keeps_callDoc t) rfl rfl rfl rfl (.inr rfl)
        · exact stays_move ((keeps_callDoc t).trans (keeps_callDoc _)) rfl rfl rfl rfl (.inr rfl)
      · obtain ⟨t', x', hput, hstays⟩ := pump_stays (t := t.callDoc) (i := i) (x := x)
        exact ⟨t', x', hput, hstays.after_callDoc⟩
  | ping => exact stays_move (.refl t) rfl rfl rfl rfl (.inr rfl)
  | error => exact stays_move (.refl t) rfl rfl rfl rfl (.inl rfl)
  | undecodable => exact stays_move (.refl t) rfl rfl rfl rfl (.inl rfl)
  | other => exact stays_move (.refl t) rfl rfl rfl rfl (.inr rfl)

/-- The attempt can still become ready or be given a frame. -/
def Hears (s : Uplink) (x : Attempt) : Prop :=
  x.phase.storesLater = true ∨ ∃ c, x.phase.loop = some c ∧ ¬ s.Spent c

/-- One step of an attempt, from `s` and `x` to `t` and `x'`. -/
structure Moved (s : Uplink) (x : Attempt) (t : Uplink) (x' : Attempt) : Prop where
  keeps : Keeps s t
  signal : x'.signal = x.signal
  loop : ∀ c, x'.phase.loop = some c →
    x.phase.loop = some c ∧ t.connection = s.connection ∨
      x.phase.storesLater = true ∧ t.connection = some c
  stores : x'.phase.storesLater = true →
    x.phase.storesLater = true ∨ ∃ g, x.signal = some g ∧ s.aborted g = false
  ready : t.ready = s.ready ∨ x.phase.storesLater = true
  frames : t.frames = s.frames ∨ s.Hears x
  docCalls : t.docCalls = s.docCalls ∨ s.Hears x ∨ x.phase.callsDoc = true
  calls : x'.phase.callsDoc = true → s.Hears x ∨ x.phase.callsDoc = true

/-- The attempt moves on without touching the document. -/
theorem moved_move (hkeeps : Keeps s t) (hready : t.ready = s.ready) (hframes : t.frames = s.frames)
    (hdocs : t.docCalls = s.docCalls) {phase : AttemptPhase}
    (hloop : phase.loop = none ∨ phase.loop = x.phase.loop ∧ t.connection = s.connection)
    (hstores : phase.storesLater = true → x.phase.storesLater = true)
    (hcalls : phase.callsDoc = true → x.phase.callsDoc = true) :
    ∃ u x', t.move i x phase = u.put i x' ∧ Moved s x u x' := by
  refine ⟨t, {x with phase}, rfl, hkeeps, rfl, fun c hc => ?_, fun h => .inl (hstores h),
    .inl hready, .inl hframes, .inl hdocs, fun h => .inr (hcalls h)⟩
  rcases hloop with hloop | ⟨hloop, hconn⟩
  · cases hloop.symm.trans hc
  · exact .inl ⟨hloop.symm.trans hc, hconn⟩

theorem moved_retry {signal attempt : Nat} (hsignal : x.signal = some signal) :
    ∃ t x', s.retry i x signal attempt = t.put i x' ∧ Moved s x t x' := by
  unfold retry
  split
  next hgo =>
    obtain ⟨habort, -⟩ := Bool.and_eq_true_iff.mp hgo
    have habort' : s.aborted signal = false := by simpa using habort
    refine ⟨s, _, rfl, .refl s, rfl, fun c hc => ?_, fun _ => .inr ⟨signal, hsignal, habort'⟩,
      .inl rfl, .inl rfl, .inl rfl, fun h => ?_⟩
    · simp only at hc
      split at hc <;> cases hc
    · simp only at h
      split at h <;> cases h
  next =>
    exact moved_move (.refl s) rfl rfl rfl (.inl rfl) Bool.noConfusion Bool.noConfusion

theorem moved_ends (hkeeps : Keeps s t) (hready : t.ready = s.ready) (hframes : t.frames = s.frames)
    (hdocs : t.docCalls = s.docCalls) {failed : Bool} :
    ∃ u x', t.ends i x failed = u.put i x' ∧ Moved s x u x' := by
  unfold ends
  split
  · exact moved_move hkeeps hready hframes hdocs (.inl rfl) Bool.noConfusion Bool.noConfusion
  · exact moved_move hkeeps hready hframes hdocs (.inl rfl) Bool.noConfusion Bool.noConfusion

/-- A step inside the sync loop by an attempt that was to be heard of again. -/
theorem moved_stays (hkeeps : Keeps s t) (hconn : t.connection = s.connection)
    (hready : t.ready = s.ready) (h : Stays t x conn t' x') (hloop : x.phase.loop = some conn)
    (hframes : t.frames = s.frames ∨ s.Hears x)
    (hcalls : s.Hears x ∨ x.phase.callsDoc = true) : Moved s x t' x' :=
  ⟨hkeeps.trans h.keeps, h.signal, fun c hc => .inl ⟨h.loop c hc ▸ hloop, h.connection.trans hconn⟩,
    fun hs => absurd (h.stores.symm.trans hs) Bool.false_ne_true, .inl (h.ready.trans hready),
    hframes.imp_left h.frames.trans, .inr hcalls, fun _ => hcalls⟩

theorem moved_fail (hkeeps : Keeps s t) (hready : t.ready = s.ready) (hframes : t.frames = s.frames)
    (hdocs : t.docCalls = s.docCalls) {failed : Bool} :
    ∃ u x', t.move i x (.finishing conn failed) = u.put i x' ∧ Moved s x u x' :=
  moved_move hkeeps hready hframes hdocs (.inl rfl) Bool.noConfusion Bool.noConfusion

/-- A step of the handshake. -/
theorem moved_handshake {await : HandshakeAwait} {ok : Bool} (hx : x.phase = .handshake conn await)
    (hkeeps : Keeps s t) (hready : t.ready = s.ready) (hdocs : t.docCalls = s.docCalls) :
    ∃ u x', t.move i x (if ok then HandshakeAwait.next conn await else .finishing conn true) =
      u.put i x' ∧ Moved s x u x' := by
  have hhears : s.Hears x := .inl (by rw [hx]; rfl)
  cases ok with
  | false =>
    exact ⟨t, {x with phase := .finishing conn true}, rfl, hkeeps, rfl,
      fun c hc => absurd hc (Option.some_ne_none c).symm, Bool.noConfusion, .inl hready,
      .inr hhears, .inl hdocs, Bool.noConfusion⟩
  | true =>
    refine ⟨t, {x with phase := HandshakeAwait.next conn await}, rfl, hkeeps, rfl, fun c hc => ?_,
      fun _ => .inl (by rw [hx]; rfl), .inl hready, .inr hhears, .inl hdocs, fun _ => .inl hhears⟩
    cases await <;> cases hc

theorem handshake_moves {r : Resolution} {await : HandshakeAwait}
    (hx : x.phase = .handshake conn await) (hs : s.advance i x r = some s') :
    ∃ t x', s' = t.put i x' ∧ Moved s x t x' := by
  simp only [advance, hx] at hs
  split at hs
  · split at hs
    next hin =>
      obtain rfl := Option.some.inj hs
      exact moved_handshake hx (keeps_takeFrame hin) rfl rfl
    next =>
      split at hs
      · cases hs
      · obtain rfl := Option.some.inj hs
        exact moved_fail (.refl s) rfl rfl rfl
  · obtain rfl := Option.some.inj hs
    exact moved_handshake hx (.refl s) rfl rfl

/-- The connection is stored, and the first pump begins. -/
theorem handshaken_moves {r : Resolution} (hx : x.phase = .handshaken conn)
    (hs : s.advance i x r = some s') : ∃ t x', s' = t.put i x' ∧ Moved s x t x' := by
  simp only [advance, hx] at hs
  obtain rfl := Option.some.inj hs
  obtain ⟨t, x', hput, hstays⟩ := @pump_stays i x
    {s with connection := some conn, ready := s.ready + 1} conn false r.more
  have hstores : x.phase.storesLater = true := by rw [hx]; rfl
  refine ⟨t, x', hput, (keeps_connection s _ _).trans hstays.keeps,
    hstays.signal, fun c hc => .inr ⟨hstores, ?_⟩, fun _ => .inl hstores, .inr hstores,
    .inr (.inl hstores), .inr (.inl (.inl hstores)), fun _ => .inl (.inl hstores)⟩
  rw [hstays.connection, hstays.loop c hc]

theorem pumping_moves {r : Resolution} {handling : Bool} (hx : x.phase = .pumping conn handling)
    (hs : s.advance i x r = some s') : ∃ t x', s' = t.put i x' ∧ Moved s x t x' := by
  simp only [advance, hx] at hs
  split at hs
  · obtain rfl := Option.some.inj hs
    obtain ⟨t, x', hput, hstays⟩ := @pump_stays i x s conn handling r.more
    exact ⟨t, x', hput, moved_stays (.refl s) rfl rfl hstays (by rw [hx]; rfl) (.inl rfl)
      (.inr (by rw [hx]; rfl))⟩
  · obtain rfl := Option.some.inj hs
    exact moved_fail (.refl s) rfl rfl rfl

/-- A frame is taken only by an attempt whose connection has one left. -/
theorem receiving_moves {r : Resolution} (hx : x.phase = .receiving conn)
    (hs : s.advance i x r = some s') : ∃ t x', s' = t.put i x' ∧ Moved s x t x' := by
  simp only [advance, hx] at hs
  split at hs
  next hin =>
    obtain rfl := Option.some.inj hs
    obtain ⟨t, x', hput, hstays⟩ := @handle_stays i x (s.takeFrame conn) conn r
    have hhears : s.Hears x := .inr ⟨conn, by rw [hx]; rfl, fun hspent => by
      rw [incoming_of_spent hspent] at hin
      omega⟩
    exact ⟨t, x', hput, moved_stays (keeps_takeFrame hin) rfl rfl hstays (by rw [hx]; rfl)
      (.inr hhears) (.inl hhears)⟩
  next =>
    obtain ⟨-, hs⟩ := Option.ite_none_right_eq_some.mp hs
    obtain rfl := Option.some.inj hs
    exact moved_fail (.refl s) rfl rfl rfl

theorem flushed_moves {r : Resolution} (hx : x.phase = .flushed conn)
    (hs : s.advance i x r = some s') : ∃ t x', s' = t.put i x' ∧ Moved s x t x' := by
  simp only [advance, hx] at hs
  split at hs
  · obtain rfl := Option.some.inj hs
    obtain ⟨t, x', hput, hstays⟩ := @stays_move i x s s.callDoc conn (keeps_callDoc s) rfl rfl rfl
      (.finishing conn true) rfl (.inl rfl)
    exact ⟨t, x', hput, moved_stays (.refl s) rfl rfl hstays (by rw [hx]; rfl) (.inl rfl)
      (.inr (by rw [hx]; rfl))⟩
  · obtain rfl := Option.some.inj hs
    obtain ⟨t, x', hput, hstays⟩ := @pump_stays i x s.callDoc conn true r.more
    exact ⟨t, x', hput, moved_stays (keeps_callDoc s) rfl rfl hstays (by rw [hx]; rfl) (.inl rfl)
      (.inr (by rw [hx]; rfl))⟩

/-- Everything one await of an attempt can lead to. -/
theorem advance_moves {r : Resolution} (hs : s.advance i x r = some s') :
    ∃ t x', s' = t.put i x' ∧ Moved s x t x' := by
  cases hx : x.phase with
  | transport =>
    simp only [advance, hx] at hs
    split at hs
    · obtain rfl := Option.some.inj hs
      exact moved_move (keeps_open s _) rfl rfl rfl (.inl rfl) (fun _ => by rw [hx]; rfl)
        Bool.noConfusion
    · obtain rfl := Option.some.inj hs
      exact moved_ends (.refl s) rfl rfl rfl
  | handshake conn await => exact handshake_moves hx hs
  | handshaken conn => exact handshaken_moves hx hs
  | pumping conn handling => exact pumping_moves hx hs
  | receiving conn => exact receiving_moves hx hs
  | savingDoc conn =>
    simp only [advance, hx] at hs
    split at hs
    · obtain rfl := Option.some.inj hs
      split
      all_goals
        exact moved_move (.refl s) rfl rfl rfl (.inr ⟨by rw [hx]; rfl, rfl⟩) Bool.noConfusion
          fun _ => by rw [hx]; rfl
    · obtain rfl := Option.some.inj hs
      exact moved_fail (.refl s) rfl rfl rfl
  | savingState conn =>
    simp only [advance, hx] at hs
    obtain rfl := Option.some.inj hs
    split
    · exact moved_move (.refl s) rfl rfl rfl (.inr ⟨by rw [hx]; rfl, rfl⟩) Bool.noConfusion
        fun _ => by rw [hx]; rfl
    · exact moved_fail (.refl s) rfl rfl rfl
  | flushed conn => exact flushed_moves hx hs
  | ponging conn | persisting conn =>
    simp only [advance, hx] at hs
    obtain rfl := Option.some.inj hs
    split
    · exact moved_move (.refl s) rfl rfl rfl (.inr ⟨by rw [hx]; rfl, rfl⟩) Bool.noConfusion
        Bool.noConfusion
    · exact moved_fail (.refl s) rfl rfl rfl
  | finishing conn failed =>
    simp only [advance, hx] at hs
    obtain rfl := Option.some.inj hs
    exact moved_ends (keeps_connection s none s.ready) rfl rfl rfl
  | attempted failed =>
    simp only [advance, hx] at hs
    obtain ⟨signal, hsignal, hs⟩ := Option.map_eq_some_iff.mp hs
    split at hs
    · exact hs ▸ moved_retry hsignal
    · split at hs
      all_goals
        exact hs ▸ moved_move (.refl s) rfl rfl rfl (.inl rfl) Bool.noConfusion Bool.noConfusion
  | sleeping =>
    simp only [advance, hx] at hs
    obtain ⟨signal, hsignal, hs⟩ := Option.map_eq_some_iff.mp hs
    exact hs ▸ moved_retry hsignal
  | done =>
    simp only [advance, hx] at hs
    cases hs

/-! ### What a run keeps -/

/-- An attempt of a vault that is being torn down: it stores no connection any more. -/
def Stopping (s : Uplink) (x : Attempt) : Prop :=
  x.phase.storesLater = false ∧
    (x.phase ≠ .done → ∀ g, x.signal = some g → s.aborted g = true)

structure Inv (s : Uplink) : Prop where
  /-- One attempt at most is not done. -/
  single : ∀ (i j : Nat) (x y : Attempt), s.attempts[i]? = some x → s.attempts[j]? = some y →
    x.phase ≠ .done → y.phase ≠ .done → i = j
  /-- A sync loop runs on the stored connection or on one that has nothing more to say. -/
  stored : ∀ x ∈ s.attempts, ∀ c, x.phase.loop = some c → s.connection = some c ∨ s.Spent c
  signalled : ∀ x ∈ s.attempts, x.phase ≠ .done → ∀ g, x.signal = some g →
    s.aborted g = true ∨ s.reconnectAbort = some g ∧ g < s.signals.length
  stopping : (s.disconnected = true ∨ ∃ d ∈ s.teardowns, d.phase ≠ .resolved) →
    ∀ x ∈ s.attempts, s.Stopping x
  quiet : s.disconnected = true → ∀ x ∈ s.attempts, ∀ c, x.phase.loop = some c → s.Spent c
  awaiting : ∀ d ∈ s.teardowns, ∀ c, d.phase = .awaiting c → ∀ x ∈ s.attempts, ∀ c',
    x.phase.loop = some c' → c' = c ∨ s.Spent c'
  closing : ∀ d ∈ s.teardowns, d.closing = true → s.closed = true
  flushing : ∀ d ∈ s.teardowns, d.phase = .flushing → s.disconnected = true ∧ d.closing = true
  freed : s.freed = true → s.closed = true ∧ s.disconnected = true ∧
    ∀ x ∈ s.attempts, x.phase.callsDoc = false

theorem Inv.not_hears (h : s.Inv) (hdisc : s.disconnected = true) (hx : x ∈ s.attempts) :
    ¬ s.Hears x := by
  intro hhears
  rcases hhears with hstores | ⟨c, hloop, hspent⟩
  · exact absurd ((h.stopping (.inl hdisc) x hx).1.symm.trans hstores) Bool.false_ne_true
  · exact hspent (h.quiet hdisc x hx c hloop)

theorem Keeps.aborted (h : Keeps s t) (g : Nat) : t.aborted g = s.aborted g := by
  unfold Uplink.aborted
  rw [h.signals]

theorem advance_live {r : Resolution} (hs : s.advance i x r = some s') : x.phase ≠ .done := by
  intro hx
  simp only [advance, hx] at hs
  cases hs

/-- While one attempt is under way the others are done. -/
theorem Inv.mem_set (h : s.Inv) (hi : s.attempts[i]? = some x) (hx : x.phase ≠ .done)
    {y : Attempt} (hy : y ∈ s.attempts.set i x') : y = x' ∨ y.phase = .done := by
  obtain ⟨j, hj⟩ := List.getElem?_of_mem hy
  by_cases hij : i = j
  · subst hij
    rw [List.getElem?_set_self (List.getElem?_eq_some_iff.mp hi).1] at hj
    exact .inl (Option.some.inj hj).symm
  · rw [List.getElem?_set_ne hij] at hj
    refine .inr ?_
    by_contra hlive
    exact hij (h.single i j x y hi hj hx hlive)

theorem Inv.moved (h : s.Inv) (hi : s.attempts[i]? = some x) (hx : x.phase ≠ .done)
    (hm : Moved s x t x') : (t.put i x').Inv := by
  have hmem : x ∈ s.attempts := List.mem_of_getElem? hi
  have hcases : ∀ y ∈ (t.put i x').attempts, y = x' ∨ y.phase = .done := by
    intro y hy
    refine h.mem_set hi hx ?_
    rw [← hm.keeps.attempts]
    exact hy
  have hstops : (t.disconnected = true ∨ ∃ d ∈ t.teardowns, d.phase ≠ .resolved) →
      s.Stopping x := by
    rw [hm.keeps.disconnected, hm.keeps.teardowns]
    exact fun hstop => h.stopping hstop x hmem
  have hstays : s.Stopping x → x'.phase.storesLater = false := by
    intro hstop
    by_contra hstores
    rcases hm.stores (by simpa using hstores) with hs | ⟨g, hg, habort⟩
    · exact absurd (hstop.1.symm.trans hs) Bool.false_ne_true
    · exact absurd (habort.symm.trans (hstop.2 hx g hg)) Bool.false_ne_true
  refine ⟨fun j k y z hj hk hy hz => ?_, fun y hy c hc => ?_, fun y hy hlive g hg => ?_,
    fun hstop y hy => ?_, fun hdisc y hy c hc => ?_, fun d hd c hdc y hy c' hc' => ?_,
    ?_, ?_, fun hfreed => ?_⟩
  · have honly : ∀ (j : Nat) (y : Attempt), (t.put i x').attempts[j]? = some y →
        y.phase ≠ .done → i = j := by
      intro j y hj hy
      by_contra hij
      have hj' : s.attempts[j]? = some y := by
        rw [← hm.keeps.attempts, ← List.getElem?_set_ne hij]
        exact hj
      exact hij (h.single i j x y hi hj' hx hy)
    exact (honly j y hj hy).symm.trans (honly k z hk hz)
  · rcases hcases y hy with rfl | hdone
    · rcases hm.loop c hc with ⟨hloop, hconn⟩ | ⟨-, hconn⟩
      · exact (h.stored x hmem c hloop).imp hconn.trans (hm.keeps.spent c)
      · exact .inl hconn
    · rw [hdone] at hc
      cases hc
  · rcases hcases y hy with rfl | hdone
    · show t.aborted g = true ∨ t.reconnectAbort = some g ∧ g < t.signals.length
      rw [hm.keeps.aborted, hm.keeps.reconnectAbort, hm.keeps.signals]
      exact h.signalled x hmem hx g (hm.signal ▸ hg)
    · exact absurd hdone hlive
  · rcases hcases y hy with rfl | hdone
    · have hx' := hstops hstop
      refine ⟨hstays hx', fun _ g hg => ?_⟩
      show t.aborted g = true
      rw [hm.keeps.aborted]
      exact hx'.2 hx g (hm.signal ▸ hg)
    · exact ⟨by rw [hdone]; rfl, fun hlive => absurd hdone hlive⟩
  · rcases hcases y hy with rfl | hdone
    · rcases hm.loop c hc with ⟨hloop, -⟩ | ⟨hstores, -⟩
      · exact hm.keeps.spent c (h.quiet (hm.keeps.disconnected ▸ hdisc) x hmem c hloop)
      · exact absurd ((hstops (.inl hdisc)).1.symm.trans hstores) Bool.false_ne_true
    · rw [hdone] at hc
      cases hc
  · have hd' : d ∈ s.teardowns := hm.keeps.teardowns ▸ hd
    rcases hcases y hy with rfl | hdone
    · rcases hm.loop c' hc' with ⟨hloop, -⟩ | ⟨hstores, -⟩
      · exact (h.awaiting d hd' c hdc x hmem c' hloop).imp_right (hm.keeps.spent c')
      · have hstop := (h.stopping (.inr ⟨d, hd', by rw [hdc]; exact TeardownPhase.noConfusion⟩)
          x hmem).1
        exact absurd (hstop.symm.trans hstores) Bool.false_ne_true
    · rw [hdone] at hc'
      cases hc'
  · show ∀ d ∈ t.teardowns, d.closing = true → t.closed = true
    rw [hm.keeps.teardowns, hm.keeps.closed]
    exact h.closing
  · show ∀ d ∈ t.teardowns, d.phase = .flushing → t.disconnected = true ∧ d.closing = true
    rw [hm.keeps.teardowns, hm.keeps.disconnected]
    exact h.flushing
  · obtain ⟨hclosed, hdisc, hcalls⟩ := h.freed (hm.keeps.freed ▸ hfreed)
    refine ⟨hm.keeps.closed.trans hclosed, hm.keeps.disconnected.trans hdisc, fun y hy => ?_⟩
    rcases hcases y hy with rfl | hdone
    · by_contra hcall
      rcases hm.calls (by simpa using hcall) with hhears | hcall
      · exact h.not_hears hdisc hmem hhears
      · exact absurd ((hcalls x hmem).symm.trans hcall) Bool.false_ne_true
    · rw [hdone]
      rfl

/-- The transport moves. -/
theorem Inv.kept (h : s.Inv) (hk : Keeps s t) (hconn : t.connection = s.connection) : t.Inv := by
  have hstopping : ∀ x, s.Stopping x → t.Stopping x := fun x hx =>
    ⟨hx.1, fun hlive g hg => (hk.aborted g).trans (hx.2 hlive g hg)⟩
  refine ⟨?_, ?_, ?_, ?_, ?_, ?_, ?_, ?_, ?_⟩
  · rw [hk.attempts]
    exact h.single
  · rw [hk.attempts, hconn]
    exact fun x hx c hc => (h.stored x hx c hc).imp_right (hk.spent c)
  · rw [hk.attempts, hk.reconnectAbort, hk.signals]
    intro x hx hlive g hg
    rw [hk.aborted]
    exact h.signalled x hx hlive g hg
  · rw [hk.attempts, hk.disconnected, hk.teardowns]
    exact fun hstop x hx => hstopping x (h.stopping hstop x hx)
  · rw [hk.attempts, hk.disconnected]
    exact fun hdisc x hx c hc => hk.spent c (h.quiet hdisc x hx c hc)
  · rw [hk.attempts, hk.teardowns]
    exact fun d hd c hdc x hx c' hc' => (h.awaiting d hd c hdc x hx c' hc').imp_right (hk.spent c')
  · rw [hk.teardowns, hk.closed]
    exact h.closing
  · rw [hk.teardowns, hk.disconnected]
    exact h.flushing
  · rw [hk.freed, hk.closed, hk.disconnected, hk.attempts]
    exact h.freed

/-- A connecting call on a vault with nothing under way. -/
theorem Inv.called (h : s.Inv) (hclosed : s.closed = false)
    (hdone : ∀ x ∈ s.attempts, x.phase = .done) (hresolved : ∀ d ∈ s.teardowns, d.phase = .resolved)
    (hattempts : t.attempts = s.attempts ++ [x']) (hteardowns : t.teardowns = s.teardowns)
    (hclosed' : t.closed = s.closed) (hfreed : t.freed = s.freed)
    (hdisc : t.disconnected = false) (hloop : x'.phase.loop = none)
    (hsignal : ∀ g, x'.signal = some g → t.reconnectAbort = some g ∧ g < t.signals.length) :
    t.Inv := by
  have hcases : ∀ y ∈ t.attempts, y.phase = .done ∨ y = x' := by
    intro y hy
    rw [hattempts, List.mem_append, List.mem_singleton] at hy
    exact hy.imp_left (hdone y)
  have hnone : ∀ y ∈ t.attempts, y.phase.loop = none := by
    intro y hy
    rcases hcases y hy with hy | rfl
    · rw [hy]
      rfl
    · exact hloop
  have hlast : ∀ (j : Nat) (y : Attempt), t.attempts[j]? = some y → y.phase ≠ .done →
      j = s.attempts.length := by
    intro j y hj hlive
    rw [hattempts] at hj
    have hlt := (List.getElem?_eq_some_iff.mp hj).1
    simp only [List.length_append, List.length_singleton] at hlt
    by_contra hne
    rw [List.getElem?_append_left (by omega)] at hj
    exact hlive (hdone y (List.mem_of_getElem? hj))
  have hstill : ∀ d ∈ t.teardowns, d.phase = .resolved := hteardowns ▸ hresolved
  refine ⟨fun j k y z hj hk hy hz => (hlast j y hj hy).trans (hlast k z hk hz).symm,
    fun y hy c hc => ?_, fun y hy hlive g hg => ?_, fun hstop => ?_, fun hd => ?_,
    fun d hd c hdc => ?_, ?_, fun d hd hdc => ?_, fun hf => ?_⟩
  · cases (hnone y hy).symm.trans hc
  · rcases hcases y hy with hy | rfl
    · exact absurd hy hlive
    · exact .inr (hsignal g hg)
  · rcases hstop with hd | ⟨d, hd, hne⟩
    · cases hdisc.symm.trans hd
    · exact absurd (hstill d hd) hne
  · cases hdisc.symm.trans hd
  · cases (hstill d hd).symm.trans hdc
  · rw [hteardowns, hclosed']
    exact h.closing
  · cases (hstill d hd).symm.trans hdc
  · cases hclosed.symm.trans (h.freed (hfreed ▸ hf)).1

theorem retry_attempts {y : Attempt} {signal attempt : Nat} (h : s.attempts = t.attempts ++ [y]) :
    ∃ x', s.retry t.attempts.length x signal attempt = s.put t.attempts.length x' ∧
      (s.put t.attempts.length x').attempts = t.attempts ++ [x'] ∧ x'.signal = x.signal ∧
      x'.phase.loop = none := by
  have hset : ∀ x' : Attempt, (s.put t.attempts.length x').attempts = t.attempts ++ [x'] := by
    intro x'
    show s.attempts.set t.attempts.length x' = _
    rw [h]
    simp
  unfold retry
  split
  · refine ⟨_, rfl, hset _, rfl, ?_⟩
    cases s.url <;> rfl
  · exact ⟨_, rfl, hset _, rfl, rfl⟩

/-- The abort signal of `disconnect`. -/
theorem Inv.aborts (h : s.Inv) {signals : List Bool}
    (hsignals : signals = s.reconnectAbort.elim s.signals fun g => s.signals.set g true)
    (hx : x ∈ s.attempts) (hlive : x.phase ≠ .done) {g : Nat} (hg : x.signal = some g) :
    signals[g]? = some true := by
  rcases h.signalled x hx hlive g hg with habort | ⟨habort, hlt⟩
  · have hget : s.signals[g]? = some true := by simpa [Uplink.aborted] using habort
    rw [hsignals]
    cases s.reconnectAbort with
    | none => exact hget
    | some g' =>
      show (s.signals.set g' true)[g]? = some true
      rw [List.getElem?_set]
      have hlt := (List.getElem?_eq_some_iff.mp hget).1
      split
      next heq => simp [heq, hlt]
      next => exact hget
  · rw [hsignals, habort]
    exact List.getElem?_set_self hlt

theorem Inv.disconnect (h : s.Inv) {closing : Bool}
    (hstores : ∀ x ∈ s.attempts, x.phase.storesLater = false)
    (hclosed : closing = true → s.closed = true) : (s.disconnect closing).Inv := by
  unfold Uplink.disconnect
  have hstop : ∀ x ∈ s.attempts, ∀ t : Uplink,
      t.signals = (s.reconnectAbort.elim s.signals fun g => s.signals.set g true) →
      t.Stopping x := fun x hx t ht =>
    ⟨hstores x hx, fun hlive g hg => decide_eq_true (h.aborts ht hx hlive hg)⟩
  cases hconn : s.connection with
  | some conn =>
    refine ⟨h.single, fun x hx c hc => ?_,
      fun x hx hlive g hg => .inl ((hstop x hx _ rfl).2 hlive g hg), fun _ x hx => hstop x hx _ rfl,
      h.quiet, fun d hd c hdc x hx c' hc' => ?_, fun d hd hdc => ?_, fun d hd hdc => ?_, h.freed⟩
    · rcases h.stored x hx c hc with hsome | hspent
      · exact .inl (hconn.symm.trans hsome)
      · exact .inr hspent
    · rcases List.mem_append.mp hd with hd | hd
      · exact h.awaiting d hd c hdc x hx c' hc'
      · obtain rfl := List.mem_singleton.mp hd
        obtain rfl := TeardownPhase.awaiting.inj hdc
        refine (h.stored x hx c' hc').imp_left fun hsome => ?_
        exact (Option.some.inj (hconn.symm.trans hsome)).symm
    · rcases List.mem_append.mp hd with hd | hd
      · exact h.closing d hd hdc
      · obtain rfl := List.mem_singleton.mp hd
        exact hclosed hdc
    · rcases List.mem_append.mp hd with hd | hd
      · exact h.flushing d hd hdc
      · obtain rfl := List.mem_singleton.mp hd
        cases hdc
  | none =>
    have hspent : ∀ x ∈ s.attempts, ∀ c, x.phase.loop = some c → s.Spent c := by
      intro x hx c hc
      exact (h.stored x hx c hc).resolve_left (by rw [hconn]; exact (Option.some_ne_none c).symm)
    refine ⟨h.single, fun x hx c hc => .inr (hspent x hx c hc),
      fun x hx hlive g hg => .inl ((hstop x hx _ rfl).2 hlive g hg), fun _ x hx => hstop x hx _ rfl,
      fun _ => hspent, fun d hd c hdc x hx c' hc' => .inr (hspent x hx c' hc'),
      fun d hd hdc => ?_, fun d hd hdc => ⟨rfl, ?_⟩,
      fun hf => ⟨(h.freed hf).1, rfl, (h.freed hf).2.2⟩⟩
    · rcases List.mem_append.mp hd with hd | hd
      · exact h.closing d hd hdc
      · obtain rfl := List.mem_singleton.mp hd
        exact hclosed hdc
    · rcases List.mem_append.mp hd with hd | hd
      · exact (h.flushing d hd hdc).2
      · obtain rfl := List.mem_singleton.mp hd
        cases closing with
        | true => rfl
        | false => cases hdc

theorem Inv.resume (h : s.Inv) {k : Nat} {d : Teardown} (hk : s.teardowns[k]? = some d)
    (hawaiting : ∀ c, d.phase = .awaiting c → s.Spent c)
    (hflushing : d.phase = .flushing → ∀ x ∈ s.attempts, x.phase.callsDoc = false)
    (hs : s.resume k d = some s') : s'.Inv := by
  obtain ⟨closing, phase⟩ := d
  have hmem := List.mem_of_getElem? hk
  have hset : ∀ {d' e : Teardown}, e ∈ s.teardowns.set k d' → e ∈ s.teardowns ∨ e = d' :=
    fun he => List.mem_or_eq_of_mem_set he
  have hstopping : phase ≠ .resolved → ∀ x ∈ s.attempts, s.Stopping x := fun hne =>
    h.stopping (.inr ⟨_, hmem, hne⟩)
  unfold Uplink.resume at hs
  cases phase with
  | awaiting c =>
    obtain rfl := Option.some.inj hs
    have hspent : ∀ x ∈ s.attempts, ∀ c', x.phase.loop = some c' → s.Spent c' := by
      intro x hx c' hc'
      rcases h.awaiting _ hmem c rfl x hx c' hc' with rfl | hspent
      · exact hawaiting _ rfl
      · exact hspent
    refine ⟨h.single, fun x hx c' hc' => .inr (hspent x hx c' hc'), h.signalled,
      fun _ => hstopping TeardownPhase.noConfusion, fun _ => hspent,
      fun e he c' hec x hx c'' hc'' => .inr (hspent x hx c'' hc''), fun e he hec => ?_,
      fun e he hec => ⟨rfl, ?_⟩, fun hf => ⟨(h.freed hf).1, rfl, (h.freed hf).2.2⟩⟩
    · rcases hset he with he | rfl
      · exact h.closing e he hec
      · exact h.closing _ hmem hec
    · rcases hset he with he | rfl
      · exact (h.flushing e he hec).2
      · cases closing with
        | true => rfl
        | false => cases hec
  | flushing =>
    obtain rfl := Option.some.inj hs
    obtain ⟨hdisc, hclosing⟩ := h.flushing _ hmem rfl
    refine ⟨h.single, h.stored, h.signalled, fun _ => hstopping TeardownPhase.noConfusion, h.quiet,
      fun e he c hec => ?_, fun e he hec => ?_, fun e he hec => ?_,
      fun _ => ⟨h.closing _ hmem hclosing, hdisc, hflushing rfl⟩⟩
    · rcases hset he with he | rfl
      · exact h.awaiting e he c hec
      · cases hec
    · rcases hset he with he | rfl
      · exact h.closing e he hec
      · exact h.closing _ hmem hec
    · rcases hset he with he | rfl
      · exact h.flushing e he hec
      · cases hec
  | storing =>
    obtain rfl := Option.some.inj hs
    refine ⟨h.single, h.stored, h.signalled, fun _ => hstopping TeardownPhase.noConfusion, h.quiet,
      fun e he c hec => ?_, fun e he hec => ?_, fun e he hec => ?_, h.freed⟩
    · rcases hset he with he | rfl
      · exact h.awaiting e he c hec
      · cases hec
    · rcases hset he with he | rfl
      · exact h.closing e he hec
      · exact h.closing _ hmem hec
    · rcases hset he with he | rfl
      · exact h.flushing e he hec
      · cases hec
  | resolved => cases hs

theorem orderly_call (hg : (!s.closed && s.attempts.all (·.phase = .done) &&
    s.teardowns.all (·.phase = .resolved)) = true) : s.closed = false ∧
      (∀ x ∈ s.attempts, x.phase = .done) ∧ ∀ d ∈ s.teardowns, d.phase = .resolved := by
  simpa [and_assoc] using hg

theorem Inv.step (h : s.Inv) {a : Act} (hg : s.orderly a = true)
    (hs : Uplink.step s a = some s') : s'.Inv := by
  cases a with
  | connect =>
    obtain ⟨hclosed, hdone, hresolved⟩ := orderly_call hg
    obtain rfl := Option.some.inj hs
    refine h.called hclosed hdone hresolved rfl rfl rfl rfl rfl ?_ fun g hg => by cases hg
    cases s.url <;> rfl
  | connectWithReconnect maxAttempts =>
    obtain ⟨hclosed, hdone, hresolved⟩ := orderly_call hg
    obtain rfl := Option.some.inj hs
    unfold connectWithReconnect
    obtain ⟨x', hput, hattempts, hsignal, hloop⟩ := retry_attempts (t := s)
      (s := {s with
        disconnected := false
        signals := s.signals ++ [false]
        reconnectAbort := some s.signals.length
        attempts := s.attempts ++ [⟨.sleeping, some s.signals.length, 0, maxAttempts⟩]}) rfl
    rw [hput]
    refine h.called hclosed hdone hresolved hattempts rfl rfl rfl rfl hloop fun g hg => ?_
    obtain rfl := Option.some.inj (hsignal.symm.trans hg)
    exact ⟨rfl, by show _ < (s.signals ++ [false]).length; simp⟩
  | disconnect =>
    obtain rfl := Option.some.inj hs
    exact h.disconnect (by simpa [orderly] using hg) Bool.noConfusion
  | close =>
    obtain rfl := Option.some.inj hs
    have hstores : ∀ x ∈ s.attempts, x.phase.storesLater = false := by simpa [orderly] using hg
    split
    next hclosed =>
      refine ⟨h.single, h.stored, h.signalled, fun hstop => h.stopping (hstop.imp_right ?_),
        h.quiet, fun d hd c hdc => ?_, fun _ _ _ => hclosed, fun d hd hdc => ?_, h.freed⟩
      · intro ⟨d, hd, hne⟩
        rcases List.mem_append.mp hd with hd | hd
        · exact ⟨d, hd, hne⟩
        · obtain rfl := List.mem_singleton.mp hd
          exact absurd rfl hne
      · rcases List.mem_append.mp hd with hd | hd
        · exact h.awaiting d hd c hdc
        · obtain rfl := List.mem_singleton.mp hd
          cases hdc
      · rcases List.mem_append.mp hd with hd | hd
        · exact h.flushing d hd hdc
        · obtain rfl := List.mem_singleton.mp hd
          cases hdc
    next =>
      have hclosing : Inv {s with closed := true} :=
        ⟨h.single, h.stored, h.signalled, h.stopping, h.quiet, h.awaiting, fun _ _ _ => rfl,
          h.flushing, fun hf => ⟨rfl, (h.freed hf).2⟩⟩
      exact hclosing.disconnect hstores fun _ => rfl
  | advance i r =>
    obtain ⟨x, hi, hs⟩ := Option.bind_eq_some_iff.mp hs
    obtain ⟨t, x', rfl, hmoved⟩ := advance_moves hs
    exact h.moved hi (advance_live hs) hmoved
  | resume k =>
    obtain ⟨d, hk, hs⟩ := Option.bind_eq_some_iff.mp hs
    refine h.resume hk (fun c hc => ?_) (fun hd => ?_) hs
    · simpa [orderly, hk, hc] using hg
    · simpa [orderly, hk, hd] using hg
  | arrive conn =>
    obtain ⟨hopen, hs⟩ := Option.ite_none_right_eq_some.mp hs
    obtain rfl := Option.some.inj hs
    refine h.kept ⟨rfl, rfl, rfl, rfl, rfl, rfl, rfl, fun c hc => ?_⟩ rfl
    have hne : conn ≠ c := by
      rintro rfl
      rw [hc] at hopen
      cases hopen
    unfold Spent
    rw [List.getElem?_modify, hc]
    simp [hne]
  | hangup conn =>
    obtain rfl := Option.some.inj hs
    refine h.kept ⟨rfl, rfl, rfl, rfl, rfl, rfl, rfl, fun c hc => ?_⟩ rfl
    unfold Spent
    rw [List.getElem?_modify, hc]
    by_cases hne : conn = c <;> simp [hne]

/-- Calls and the transport make nothing happen by themselves. -/
theorem step_observed {a : Act} (ha : ∀ i r, a ≠ .advance i r) (hs : step s a = some s') :
    s'.ready = s.ready ∧ s'.frames = s.frames ∧ s'.docCalls = s.docCalls := by
  have hdisconnect : ∀ (t : Uplink) (closing : Bool), (t.disconnect closing).ready = t.ready ∧
      (t.disconnect closing).frames = t.frames ∧
        (t.disconnect closing).docCalls = t.docCalls := by
    intro t closing
    unfold Uplink.disconnect
    split <;> exact ⟨rfl, rfl, rfl⟩
  cases a with
  | connect =>
    obtain rfl := Option.some.inj hs
    exact ⟨rfl, rfl, rfl⟩
  | connectWithReconnect maxAttempts =>
    obtain rfl := Option.some.inj hs
    unfold connectWithReconnect retry
    simp only
    split <;> exact ⟨rfl, rfl, rfl⟩
  | disconnect =>
    obtain rfl := Option.some.inj hs
    exact hdisconnect s false
  | close =>
    obtain rfl := Option.some.inj hs
    split
    · exact ⟨rfl, rfl, rfl⟩
    · exact hdisconnect _ true
  | advance i r => exact absurd rfl (ha i r)
  | resume k =>
    obtain ⟨d, -, hs⟩ := Option.bind_eq_some_iff.mp hs
    unfold Uplink.resume at hs
    split at hs
    · obtain rfl := Option.some.inj hs
      exact ⟨rfl, rfl, rfl⟩
    · obtain rfl := Option.some.inj hs
      exact ⟨rfl, rfl, rfl⟩
    · obtain rfl := Option.some.inj hs
      exact ⟨rfl, rfl, rfl⟩
    · cases hs
  | arrive conn =>
    obtain ⟨-, hs⟩ := Option.ite_none_right_eq_some.mp hs
    obtain rfl := Option.some.inj hs
    exact ⟨rfl, rfl, rfl⟩
  | hangup conn =>
    obtain rfl := Option.some.inj hs
    exact ⟨rfl, rfl, rfl⟩

theorem Inv.final (h : s.Inv) : s.Final := by
  refine ⟨fun hdisc a s' hs => ?_, fun hfreed a s' hs => ?_⟩
  · by_cases ha : ∃ i r, a = .advance i r
    · obtain ⟨i, r, rfl⟩ := ha
      obtain ⟨x, hi, hs⟩ := Option.bind_eq_some_iff.mp hs
      obtain ⟨t, x', rfl, hmoved⟩ := advance_moves hs
      have hdeaf := h.not_hears hdisc (List.mem_of_getElem? hi)
      exact ⟨hmoved.ready.resolve_right fun hstores => hdeaf (.inl hstores),
        hmoved.frames.resolve_right hdeaf⟩
    · have hobs := step_observed (fun i r heq => ha ⟨i, r, heq⟩) hs
      exact ⟨hobs.1, hobs.2.1⟩
  · by_cases ha : ∃ i r, a = .advance i r
    · obtain ⟨i, r, rfl⟩ := ha
      obtain ⟨x, hi, hs⟩ := Option.bind_eq_some_iff.mp hs
      obtain ⟨t, x', rfl, hmoved⟩ := advance_moves hs
      obtain ⟨-, hdisc, hcalls⟩ := h.freed hfreed
      have hx := List.mem_of_getElem? hi
      refine hmoved.docCalls.resolve_right fun hcall => ?_
      rcases hcall with hhears | hcall
      · exact h.not_hears hdisc hx hhears
      · exact absurd ((hcalls x hx).symm.trans hcall) Bool.false_ne_true
    · exact (step_observed (fun i r heq => ha ⟨i, r, heq⟩) hs).2.2

theorem Inv.start (url : Bool) : (start url).Inv := by
  refine ⟨fun i j x y hi => ?_, fun x hx => ?_, fun x hx => ?_, fun _ x hx => ?_, Bool.noConfusion,
    fun d hd => ?_, fun d hd => ?_, fun d hd => ?_, Bool.noConfusion⟩
  · cases hi
  all_goals contradiction

/-- In every orderly run, a disconnected vault hears nothing more and a closed one leaves its
document alone. -/
theorem final_of_orderly (url : Bool)
    (h : Machine.Reach step (fun s a => s.orderly a = true) (Uplink.start url) s) : s.Final :=
  Inv.final (h.invariant (Inv.start url) fun _ _ _ hinv hg hs => hinv.step hg hs)

private def resolves : Act := .advance 0 ⟨true, .other, false⟩

/-- `connect`, up to the end of `transport.connect`. -/
private def opened : List Act := [.connect, resolves]

/-- The handshake, up to the return of `runHandshake`. -/
private def shaken : List Act :=
  [.arrive 0, resolves, resolves, .arrive 0, resolves, resolves, resolves, resolves]

/-- `disconnect` during the handshake; `close` while the document is being saved for a frame. -/
theorem final_of_orderly_midway :
    (∃ s a s', Machine.Reach step (fun _ _ => True) (Uplink.start true) s ∧
      s.disconnected = true ∧ step s a = some s' ∧ s'.ready ≠ s.ready) ∧
    ∃ s a s', Machine.Reach step (fun _ _ => True) (Uplink.start true) s ∧ s.freed = true ∧
      (∀ d ∈ s.teardowns, d.phase = .resolved) ∧ step s a = some s' ∧
        s'.docCalls ≠ s.docCalls := by
  have hready : ((Machine.run step (Uplink.start true) (opened ++ .disconnect :: shaken)).bind
      fun s => (step s resolves).map fun s' => (s, s')).map
      (fun p => (p.1.disconnected, p.1.ready, p.2.ready)) = some (true, 0, 1) := by
    decide +kernel
  have hfreed : ((Machine.run step (Uplink.start true) (opened ++ shaken ++
      [resolves, .arrive 0, .advance 0 ⟨true, .sync true, false⟩, .close, .resume 0, .resume 0,
        .resume 0, resolves])).bind fun s => (step s resolves).map fun s' => (s, s')).map
      (fun p => (p.1.freed, p.1.teardowns, p.1.docCalls, p.2.docCalls)) =
      some (true, [⟨true, .resolved⟩], 3, 4) := by
    decide +kernel
  obtain ⟨⟨s, s'⟩, hs, hread⟩ := Option.map_eq_some_iff.mp hready
  obtain ⟨u, hrun, hu⟩ := Option.bind_eq_some_iff.mp hs
  obtain ⟨u', hstep, hpair⟩ := Option.map_eq_some_iff.mp hu
  obtain ⟨rfl, rfl⟩ := Prod.mk.inj hpair
  obtain ⟨⟨t, t'⟩, ht, hread'⟩ := Option.map_eq_some_iff.mp hfreed
  obtain ⟨v, hrun', hv⟩ := Option.bind_eq_some_iff.mp ht
  obtain ⟨v', hstep', hpair'⟩ := Option.map_eq_some_iff.mp hv
  obtain ⟨rfl, rfl⟩ := Prod.mk.inj hpair'
  simp only [Prod.mk.injEq] at hread hread'
  refine ⟨⟨u, _, u', .of_run (.of_forall (fun _ _ => trivial) _) hrun, hread.1, hstep, by omega⟩,
    v, _, v', .of_run (.of_forall (fun _ _ => trivial) _) hrun', hread'.1, ?_, hstep', by omega⟩
  rw [hread'.2.1]
  decide

/-- A vault that connects, hears a frame and is closed. -/
theorem final_of_orderly_closed : ∃ s : Uplink, s.freed = true ∧ s.frames = 3 ∧ s.Final := by
  let closed : List Act := opened ++ shaken ++ [resolves, .arrive 0, resolves, .close, .hangup 0,
    .resume 0, .resume 0]
  have hrun : (Machine.run step (Uplink.start true) closed).map
      (fun s => (s.freed, s.frames)) = some (true, 3) := by decide +kernel
  have horderly : Machine.allowed step orderly (Uplink.start true) closed = true := by
    decide +kernel
  obtain ⟨s, hs, hread⟩ := Option.map_eq_some_iff.mp hrun
  simp only [Prod.mk.injEq] at hread
  exact ⟨s, hread.1, hread.2,
    final_of_orderly true (.of_run (.of_allowed (fun _ _ => id) horderly) hs)⟩

end Uplink

end AgentSync.Sdk
