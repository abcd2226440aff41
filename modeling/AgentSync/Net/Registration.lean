import AgentSync.Machine
import AgentSync.Net.Peers

/-! The connections of a Rust vault and the map they are registered in.

`ClientConn::connect` and `handle_peer` register a connection once its handshake is done.
The slot is taken out by the reader when its loop ends, by `close`, by the end of
`handle_peer` and by the enforcer; `Drop` aborts the reader and takes nothing out.

The law is that a slot belongs to a connection that is alive or being torn down
(`Balanced`). A connection goes out of use in two ways: its slot is taken out in the same
step, or it is dropped. The second breaks the law exactly when the slot is still in the map
(`kept`), and a connection stored over another one drops that one. -/
namespace AgentSync.Net

/-- The reader task of a connection. -/
inductive ReaderTask where
  | unspawned
  | reading
  /-- Its loop has ended and it is about to unregister the connection. -/
  | leaving
  | ended
  | aborted
  deriving DecidableEq, Repr

/-- `JoinHandle::abort`. -/
def ReaderTask.abort : ReaderTask → ReaderTask
  | .reading | .leaving => .aborted
  | reader => reader

/-- Where the code that opened a connection is with it. -/
inductive ConnectionStage where
  /-- In `ClientConn::connect`, after `register_peer`. -/
  | connecting
  /-- There is a `ClientConn`. -/
  | connected
  /-- In `ClientConn::close`, after the aborts. -/
  | closing
  /-- `close` has returned, or the connection was dropped. -/
  | gone
  /-- In `handle_peer`, after `register_peer`. -/
  | accepting
  /-- In `handle_peer`, awaiting the writer. -/
  | serving
  /-- In `handle_peer`, past the writer: awaiting the reader for half a second, or about to
  unregister the connection. -/
  | finishing
  /-- `handle_peer` has returned. -/
  | returned
  deriving DecidableEq, Repr

structure Connection where
  /-- `peer_id`. -/
  id : Nat
  stage : ConnectionStage
  reader : ReaderTask
  deriving DecidableEq, Repr

namespace Connection

/-- The connection is being set up, or carries frames. -/
def Alive (c : Connection) : Prop :=
  c.stage = .connecting ∨ c.stage = .accepting ∨
    (c.stage = .connected ∨ c.stage = .serving) ∧ c.reader = .reading

/-- A task is on its way to unregister the connection. -/
def TornDown (c : Connection) : Prop :=
  c.stage = .closing ∨ c.stage = .finishing ∨ c.reader = .leaving

def InUse (c : Connection) : Prop := c.Alive ∨ c.TornDown

instance : DecidablePred Alive := fun c =>
  inferInstanceAs (Decidable (c.stage = .connecting ∨ c.stage = .accepting ∨
    (c.stage = .connected ∨ c.stage = .serving) ∧ c.reader = .reading))

instance : DecidablePred TornDown := fun c =>
  inferInstanceAs (Decidable (c.stage = .closing ∨ c.stage = .finishing ∨ c.reader = .leaving))

instance : DecidablePred InUse := fun c => inferInstanceAs (Decidable (c.Alive ∨ c.TornDown))

/-- `ClientConn::drop`, or the end of a call that is dropped. -/
def drop (c : Connection) : Connection := {c with stage := .gone, reader := c.reader.abort}

theorem not_inUse_drop (c : Connection) : ¬ c.drop.InUse := by
  obtain ⟨id, stage, reader⟩ := c
  cases reader <;> simp [drop, InUse, Alive, TornDown, ReaderTask.abort]

end Connection

/-- A vault, by its connections. A `ClientConn` that is not in the client slot is in the hands
of a call that is about to store it. -/
structure Connections (σ : Type*) where
  registry : Registry σ
  /-- The connection in the client slot, by its place in `conns`. -/
  client : Option Nat
  conns : List Connection

namespace Connections

variable {σ : Type*}

def start : Connections σ := ⟨.empty, none, []⟩

variable (s : Connections σ)

/-- `Vault::peer_count`. -/
def peerCount : Nat := s.registry.peers.keys.length

def registerPeer (new : σ) (pubkey : Pubkey) (stage : ConnectionStage) : Connections σ :=
  {s with
    registry := s.registry.registerPeer new (some pubkey)
    conns := s.conns ++ [⟨s.registry.nextPeerId, stage, .unspawned⟩]}

/-- Connection `i` moves on, if it is where `p` says. -/
def move (i : Nat) (p : Connection → Bool) (f : Connection → Connection) :
    Option (Connections σ) :=
  if (s.conns[i]?).any p then some {s with conns := s.conns.modify i f} else none

/-- Connection `i` moves on, and `unregister_peer` is called for it. -/
def leave (i : Nat) (p : Connection → Bool) (f : Connection → Connection) :
    Option (Connections σ) :=
  (s.conns[i]?).bind fun c =>
    if p c then
      some {s with
        registry := s.registry.unregisterPeer c.id
        conns := s.conns.modify i f}
    else none

def drop (i : Nat) : Connections σ := {s with conns := s.conns.modify i Connection.drop}

/-! ### Steps

`generate_sync_message` of a vault never fails, so a connecting call that ends between
`register_peer` and the spawning of its tasks is one that its caller drops. Connecting calls
that fail before leave no trace. An abort that finds the reader past its last wait comes after
`readerEnds`. -/

inductive Act (σ : Type*) where
  /-- `ClientConn::connect` calls `register_peer`. -/
  | connect (hub : Pubkey)
  /-- `ClientConn::connect` spawns the tasks and returns. -/
  | spawn (i : Nat)
  /-- `*client = Some(conn)`: what was in the slot is dropped. -/
  | store (i : Nat)
  /-- The client slot is taken and `close` called on what was in it. -/
  | close
  /-- `close` is past its writer and unregisters the connection. -/
  | closed (i : Nat)
  /-- A `ClientConn` outside the slot is dropped, or a call of `connect` or `close` is. -/
  | drop (i : Nat)
  /-- `handle_peer` calls `register_peer`. -/
  | accept (peer : Pubkey)
  /-- `handle_peer` spawns the tasks. -/
  | serve (i : Nat)
  /-- The writer of an inbound connection has ended. -/
  | written (i : Nat)
  /-- The reader has ended too or half a second has passed: `handle_peer` unregisters the
  connection and returns. -/
  | exit (i : Nat)
  /-- The loop of a reader ends. -/
  | hangup (i : Nat)
  /-- A reader unregisters its connection and ends. -/
  | readerEnds (i : Nat)
  /-- The enforcer calls `disconnect_unauthorized_peers`. -/
  | enforce (authorized : List Pubkey)
  /-- A sync message is generated or received. -/
  | sync (id : Nat) (state : σ)

def step (new : σ) (s : Connections σ) : Act σ → Option (Connections σ)
  | .connect hub => some (s.registerPeer new hub .connecting)
  | .spawn i => s.move i (fun c => c.stage = .connecting) fun c =>
      {c with stage := .connected, reader := .reading}
  | .store i =>
    if s.client ≠ some i ∧ (s.conns[i]?).any (fun c => c.stage = .connected) then
      some {s.client.elim s s.drop with client := some i}
    else none
  | .close => s.client.bind fun i => {s with client := none}.move i (fun _ => true) fun c =>
      {c with stage := .closing, reader := c.reader.abort}
  | .closed i => s.leave i (fun c => c.stage = .closing) fun c => {c with stage := .gone}
  | .drop i =>
    if s.client = some i then none
    else s.move i (fun c => c.stage = .connecting ∨ c.stage = .connected ∨ c.stage = .closing)
      Connection.drop
  | .accept peer => some (s.registerPeer new peer .accepting)
  | .serve i => s.move i (fun c => c.stage = .accepting) fun c =>
      {c with stage := .serving, reader := .reading}
  | .written i => s.move i (fun c => c.stage = .serving) fun c => {c with stage := .finishing}
  | .exit i => s.leave i (fun c => c.stage = .finishing) fun c => {c with stage := .returned}
  | .hangup i => s.move i (fun c => c.reader = .reading) fun c => {c with reader := .leaving}
  | .readerEnds i => s.leave i (fun c => c.reader = .leaving) fun c => {c with reader := .ended}
  | .enforce authorized =>
    some {s with registry := s.registry.disconnectUnauthorizedPeers authorized}
  | .sync id state => some {s with registry := s.registry.setState id state}

/-! ### The law and its condition -/

/-- Every slot belongs to a connection that is alive or being torn down, and where there is
none the map is empty. -/
structure Balanced (s : Connections σ) : Prop where
  owned : ∀ id slot, s.registry.lookup id = some slot → ∃ c ∈ s.conns, c.id = id ∧ c.InUse
  empty : (∀ c ∈ s.conns, ¬ c.InUse) → s.peerCount = 0

/-- The slot of connection `i` is in the map. -/
def registered (i : Nat) : Bool :=
  (s.conns[i]?).any fun c => (s.registry.lookup c.id).isSome

/-- No connection is dropped while its slot is in the map, the one in the client slot by a
`store` included. -/
def kept : Act σ → Bool
  | .drop i => !s.registered i
  | .store _ => s.client.all fun i => !s.registered i
  | _ => true

/-! ### What a step does to the law -/

variable {s} {s' : Connections σ} {i : Nat} {p : Connection → Bool}
  {f : Connection → Connection}

/-- The ids of the connections were handed out one by one. -/
structure Numbered (s : Connections σ) : Prop where
  nodup : (s.conns.map Connection.id).Nodup
  lt : ∀ id ∈ s.conns.map Connection.id, id < s.registry.nextPeerId

/-- The second half of the law follows from the first. -/
theorem Balanced.of_owned (h : ∀ id, (s.registry.lookup id).isSome →
    ∃ c ∈ s.conns, c.id = id ∧ c.InUse) : s.Balanced := by
  refine ⟨fun id slot hslot => h id (Option.isSome_of_mem hslot), fun hnone => ?_⟩
  refine List.length_eq_zero_iff.mpr (List.eq_nil_iff_forall_not_mem.mpr fun id hid => ?_)
  obtain ⟨c, hc, -, huse⟩ := h id (AList.lookup_isSome.mpr hid)
  exact hnone c hc huse

theorem Balanced.exists_inUse (h : s.Balanced) {id : Nat} (hid : (s.registry.lookup id).isSome) :
    ∃ c ∈ s.conns, c.id = id ∧ c.InUse := by
  obtain ⟨slot, hslot⟩ := Option.isSome_iff_exists.mp hid
  exact h.owned id slot hslot

theorem map_id_modify (hid : ∀ c, (f c).id = c.id) (conns : List Connection) :
    (conns.modify i f).map Connection.id = conns.map Connection.id := by
  refine List.ext_getElem? fun j => ?_
  rw [List.getElem?_map, List.getElem?_map, List.getElem?_modify]
  cases conns[j]? with
  | none => rfl
  | some c => by_cases hij : i = j <;> simp [hij, hid]

theorem mem_modify_of_mem {conns : List Connection} {c : Connection} (hc : c ∈ conns) :
    c ∈ conns.modify i f ∨ conns[i]? = some c ∧ f c ∈ conns.modify i f := by
  obtain ⟨j, hj⟩ := List.mem_iff_getElem?.mp hc
  by_cases hij : i = j
  · subst hij
    exact .inr ⟨hj, List.mem_iff_getElem?.mpr ⟨i, by rw [List.getElem?_modify, hj]; simp⟩⟩
  · exact .inl (List.mem_iff_getElem?.mpr ⟨j, by rw [List.getElem?_modify, hj]; simp [hij]⟩)

theorem Numbered.modify (h : s.Numbered) {registry : Registry σ} {client : Option Nat}
    (hnext : registry.nextPeerId = s.registry.nextPeerId) (hid : ∀ c, (f c).id = c.id) :
    Numbered ⟨registry, client, s.conns.modify i f⟩ := by
  refine ⟨?_, ?_⟩
  · rw [map_id_modify hid]
    exact h.nodup
  · rw [map_id_modify hid, hnext]
    exact h.lt

/-- A connection moves on, and slots may go. A slot it still has is one it is in use for. -/
theorem Balanced.modify (h : s.Balanced) {registry : Registry σ} {client : Option Nat}
    (hkeys : ∀ id, (registry.lookup id).isSome → (s.registry.lookup id).isSome)
    (hid : ∀ c, (f c).id = c.id)
    (huse : ∀ c, s.conns[i]? = some c → (registry.lookup c.id).isSome → (f c).InUse) :
    Balanced ⟨registry, client, s.conns.modify i f⟩ := by
  refine .of_owned fun id hreg => ?_
  obtain ⟨c, hc, rfl, hin⟩ := h.exists_inUse (hkeys id hreg)
  rcases mem_modify_of_mem hc with hmem | ⟨hi, hmem⟩
  · exact ⟨c, hmem, rfl, hin⟩
  · exact ⟨f c, hmem, hid c, huse c hi hreg⟩

theorem registerPeer_balanced (hn : s.Numbered) (hb : s.Balanced) (new : σ) (pubkey : Pubkey)
    {stage : ConnectionStage} (hstage : stage = .connecting ∨ stage = .accepting) :
    (s.registerPeer new pubkey stage).Numbered ∧ (s.registerPeer new pubkey stage).Balanced := by
  refine ⟨⟨?_, fun id hid => ?_⟩, .of_owned fun id hreg => ?_⟩
  · simp only [registerPeer, List.map_append, List.map_cons, List.map_nil]
    refine List.nodup_append.mpr ⟨hn.nodup, List.nodup_singleton _, fun id hid id' hid' => ?_⟩
    rw [List.mem_singleton.mp hid']
    exact Nat.ne_of_lt (hn.lt id hid)
  · simp only [registerPeer, List.map_append, List.map_cons, List.map_nil, List.mem_append,
      List.mem_singleton] at hid
    rcases hid with hid | rfl
    · exact Nat.lt_succ_of_lt (hn.lt id hid)
    · exact Nat.lt_succ_self _
  · simp only [registerPeer, Registry.lookup_registerPeer] at hreg
    split at hreg
    next hnew =>
      refine ⟨_, List.mem_append_right _ (List.mem_singleton_self _), hnew.symm, .inl ?_⟩
      rcases hstage with rfl | rfl
      · exact .inl rfl
      · exact .inr (.inl rfl)
    next =>
      obtain ⟨c, hc, hid, hin⟩ := hb.exists_inUse hreg
      exact ⟨c, List.mem_append_left _ hc, hid, hin⟩

theorem move_eq_some (hs : s.move i p f = some s') :
    s' = {s with conns := s.conns.modify i f} :=
  (Option.some.inj (Option.ite_none_right_eq_some.mp hs).2).symm

/-- A move that leaves the connection in use. -/
theorem move_balanced (hn : s.Numbered) (hb : s.Balanced) (hs : s.move i p f = some s')
    (hid : ∀ c, (f c).id = c.id) (huse : ∀ c, (f c).InUse) : s'.Numbered ∧ s'.Balanced := by
  obtain rfl := move_eq_some hs
  exact ⟨hn.modify rfl hid, hb.modify (fun _ h => h) hid fun c _ _ => huse c⟩

/-- A connection that goes out of use and takes its slot with it. -/
theorem leave_balanced (hn : s.Numbered) (hb : s.Balanced) (hs : s.leave i p f = some s')
    (hid : ∀ c, (f c).id = c.id) : s'.Numbered ∧ s'.Balanced := by
  obtain ⟨c, hi, hs⟩ := Option.bind_eq_some_iff.mp hs
  obtain ⟨-, hs⟩ := Option.ite_none_right_eq_some.mp hs
  obtain rfl := Option.some.inj hs
  refine ⟨hn.modify rfl hid, hb.modify (fun id hreg => ?_) hid fun c' hi' hreg => ?_⟩
  · rw [Registry.lookup_unregisterPeer] at hreg
    split at hreg
    · cases hreg
    · exact hreg
  · obtain rfl := Option.some.inj (hi.symm.trans hi')
    rw [Registry.lookup_unregisterPeer, if_pos rfl] at hreg
    cases hreg

theorem registry_balanced (hn : s.Numbered) (hb : s.Balanced) {registry : Registry σ}
    (hnext : registry.nextPeerId = s.registry.nextPeerId)
    (hkeys : ∀ id, (registry.lookup id).isSome → (s.registry.lookup id).isSome) :
    Numbered {s with registry} ∧ Balanced {s with registry} :=
  ⟨⟨hn.nodup, fun id hid => hnext ▸ hn.lt id hid⟩,
    .of_owned fun id hreg => hb.exists_inUse (hkeys id hreg)⟩

/-- Ids are distinct, so no other connection answers for the slot of the one that is dropped. -/
theorem drop_balanced_iff (hn : s.Numbered) (hb : s.Balanced) (i : Nat) :
    (s.drop i).Balanced ↔ s.registered i = false := by
  constructor
  · intro h
    refine Bool.eq_false_iff.mpr fun hreg => ?_
    obtain ⟨c, hi, hslot⟩ := (Option.any_eq_true ..).mp hreg
    obtain ⟨c', hc', hid, hin⟩ := h.exists_inUse hslot
    obtain ⟨j, hj⟩ := List.mem_iff_getElem?.mp hc'
    have hidj : (s.conns.map Connection.id)[j]? = some c.id := by
      rw [← map_id_modify (i := i) (f := Connection.drop) (fun _ => rfl), List.getElem?_map]
      exact (congrArg _ hj).trans (congrArg some hid)
    have hidi : (s.conns.map Connection.id)[i]? = some c.id := by rw [List.getElem?_map, hi]; rfl
    obtain rfl : i = j :=
      (List.getElem?_inj (List.getElem?_eq_some_iff.mp hidi).1 hn.nodup).mp
        (hidi.trans hidj.symm)
    have hdrop : (s.drop i).conns[i]? = some c.drop := by
      unfold drop
      rw [List.getElem?_modify, hi]
      simp
    obtain rfl := Option.some.inj (hdrop.symm.trans hj)
    exact c.not_inUse_drop hin
  · intro hreg
    refine hb.modify (fun _ h => h) (fun _ => rfl) fun c hi hslot => ?_
    cases hreg.symm.trans ((Option.any_eq_true ..).mpr ⟨c, hi, hslot⟩)

theorem step_balanced (new : σ) (hn : s.Numbered) (hb : s.Balanced) {a : Act σ}
    (hs : step new s a = some s') : s'.Numbered ∧ (s'.Balanced ↔ s.kept a = true) := by
  have hall : s'.Numbered ∧ s'.Balanced → s.kept a = true →
      s'.Numbered ∧ (s'.Balanced ↔ s.kept a = true) :=
    fun h hk => ⟨h.1, iff_of_true h.2 hk⟩
  cases a with
  | connect hub =>
    cases hs
    exact hall (registerPeer_balanced hn hb new hub (.inl rfl)) rfl
  | accept peer =>
    cases hs
    exact hall (registerPeer_balanced hn hb new peer (.inr rfl)) rfl
  | spawn i =>
    exact hall (move_balanced hn hb hs (fun _ => rfl)
      fun _ => .inl (.inr (.inr ⟨.inl rfl, rfl⟩))) rfl
  | serve i =>
    exact hall (move_balanced hn hb hs (fun _ => rfl)
      fun _ => .inl (.inr (.inr ⟨.inr rfl, rfl⟩))) rfl
  | written i =>
    exact hall (move_balanced hn hb hs (fun _ => rfl) fun _ => .inr (.inr (.inl rfl))) rfl
  | hangup i =>
    exact hall (move_balanced hn hb hs (fun _ => rfl) fun _ => .inr (.inr (.inr rfl))) rfl
  | close =>
    obtain ⟨i, -, hs⟩ := Option.bind_eq_some_iff.mp hs
    exact hall (move_balanced (s := {s with client := none}) ⟨hn.nodup, hn.lt⟩
      ⟨hb.owned, hb.empty⟩ hs (fun _ => rfl) fun _ => .inr (.inl rfl)) rfl
  | closed i => exact hall (leave_balanced hn hb hs fun _ => rfl) rfl
  | exit i => exact hall (leave_balanced hn hb hs fun _ => rfl) rfl
  | readerEnds i => exact hall (leave_balanced hn hb hs fun _ => rfl) rfl
  | enforce authorized =>
    cases hs
    refine hall (registry_balanced hn hb (by simp) fun id hid => ?_) rfl
    rw [Registry.lookup_disconnectUnauthorizedPeers] at hid
    exact Option.isSome_of_isSome_filter _ _ hid
  | sync id state =>
    cases hs
    refine hall (registry_balanced hn hb (by simp) fun id' hid => ?_) rfl
    rw [Registry.lookup_setState] at hid
    split at hid
    next heq => simpa [heq] using hid
    next => exact hid
  | drop i =>
    obtain ⟨-, hs⟩ := Option.ite_none_left_eq_some.mp hs
    obtain rfl := move_eq_some hs
    refine ⟨hn.modify rfl fun _ => rfl, ?_⟩
    rw [kept, Bool.not_eq_true']
    exact drop_balanced_iff hn hb i
  | store i =>
    obtain ⟨-, hs⟩ := Option.ite_none_right_eq_some.mp hs
    cases hs
    cases hclient : s.client with
    | none =>
      refine ⟨⟨hn.nodup, hn.lt⟩, iff_of_true ⟨hb.owned, hb.empty⟩ ?_⟩
      rw [kept, hclient]
      rfl
    | some j =>
      have hdrop := drop_balanced_iff hn hb j
      have hmod : (s.drop j).Numbered := hn.modify rfl fun _ => rfl
      refine ⟨⟨hmod.nodup, hmod.lt⟩, ?_⟩
      simp only [kept, hclient, Option.all_some, Bool.not_eq_true', ← hdrop]
      exact ⟨fun h => ⟨h.owned, h.empty⟩, fun h => ⟨h.owned, h.empty⟩⟩

theorem start_numbered : (start : Connections σ).Numbered :=
  ⟨List.nodup_nil, fun _ hid => absurd hid List.not_mem_nil⟩

theorem start_balanced : (start : Connections σ).Balanced :=
  .of_owned fun id hid => by
    rw [show (start : Connections σ).registry.lookup id = none from AList.lookup_empty id] at hid
    cases hid

/-- **Registration is balanced, all along a run, exactly when no connection is dropped while its
slot is in the map**: what is closed, hung up on, deauthorized or ended by `handle_peer` takes
its slot with it, whatever else runs beside it. -/
theorem balanced_iff_kept (new : σ) {acts : List (Act σ)} {s : Connections σ}
    (h : Machine.run (step new) start acts = some s) :
    (∀ pre t, pre <+: acts → Machine.run (step new) start pre = some t → t.Balanced) ↔
      Machine.Guarded (step new) (fun s a => s.kept a = true) start acts :=
  Machine.always_iff_guarded start_numbered start_balanced
    (fun _ _ _ hn hb hs => step_balanced new hn hb hs) h

/-- An outbound and an inbound connection, beside each other: the inbound peer hangs up, the
vault disconnects. -/
theorem balanced_disconnect :
    let hub := Array32.fill 1
    let peer := Array32.fill 2
    let acts : List (Act Unit) := [.connect hub, .accept peer, .spawn 0, .store 0, .serve 1,
      .sync 2 (), .hangup 1, .readerEnds 1, .written 1, .close, .exit 1, .closed 0]
    ∀ pre t, pre <+: acts → Machine.run (step ()) start pre = some t → t.Balanced :=
  (balanced_iff_kept () rfl).mpr (Machine.Guarded.of_allowed (fun _ _ h => h) (by decide))

/-- `Vault::connect` is called twice and then `disconnect`: the first connection was dropped
when the second one was stored, and the map still counts it. -/
theorem connect_twice_leaks :
    ¬ ∀ (acts : List (Act Unit)) (s : Connections Unit),
      Machine.run (step ()) start acts = some s → s.Balanced := by
  intro h
  let hub := Array32.fill 1
  let acts : List (Act Unit) := [.connect hub, .spawn 0, .store 0, .connect hub, .spawn 1,
    .store 1, .close, .closed 1]
  have hbal := h acts _ rfl
  exact absurd (hbal.empty (by decide)) (by decide)

end Connections

end AgentSync.Net
