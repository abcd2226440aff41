import AgentSync.Machine
import AgentSync.Net.Handshake
import AgentSync.Net.Peers
import AgentSync.Store.Blobs

/-! Frames on a registered connection.

`handle_inbound` works on the vault through the connection's id and answers into the
connection's own channel, which its reader and notifier hold however the registry
changes. Taking the slot out of `peers` is the only revocation there is, so what a
removed connection can still do is whatever does not go through its slot. -/
namespace AgentSync.Net

/-- Automerge's sync protocol: its messages, the state kept per peer and the document. -/
structure SyncProtocol (D σ M : Type*) where
  /-- `State::new`. -/
  new : σ
  /-- `Message::decode`. -/
  decode : Bytes → Except Str M
  /-- `generate_sync_message`, with the message encoded. -/
  generate : D → σ → σ × Option Bytes
  /-- `receive_sync_message`, which may fail halfway. -/
  receive : D → σ → M → (D × σ) × Except Str Unit

/-- A vault and its connections; `queued` is every frame that has been sent into a
connection's channel. -/
structure Node (store : BlobStore) (D σ : Type*) where
  doc : D
  disk : Disk
  ready : disk.IsDir store.root
  registry : Registry σ
  queued : Nat → List Frame
  /-- The readers that have handed a sync message on and are about to answer it. -/
  replying : List Nat

namespace Node

variable {store : BlobStore} {D σ M : Type*} (P : SyncProtocol D σ M) (H : ContentHash)

/-- `out_tx.send`. -/
def send (s : Node store D σ) (id : Nat) (f : Frame) : Node store D σ :=
  {s with queued := Function.update s.queued id (s.queued id ++ [f])}

/-- `receive_sync_message`. -/
def receiveSyncMessage (s : Node store D σ) (id : Nat) (bytes : Bytes) :
    Node store D σ × Except Error Unit :=
  match P.decode bytes with
  | .error e => (s, .error (.protocol (txt "sync decode: " ++ e)))
  | .ok msg =>
    match s.registry.lookup id with
    | none => (s, .ok ())
    | some slot =>
      let ((doc, state), res) := P.receive s.doc slot.state msg
      ({s with doc, registry := s.registry.setState id state},
        res.mapError fun e => .other (txt "receive sync: " ++ e))

/-- `generate_sync_message`. -/
def generateSyncMessage (s : Node store D σ) (id : Nat) : Node store D σ × Option Bytes :=
  match s.registry.lookup id with
  | none => (s, none)
  | some slot =>
    let (state, bytes) := P.generate s.doc slot.state
    ({s with registry := s.registry.setState id state}, bytes)

/-- Sending what `generate_sync_message` has to say, as the notifier task and the reader do. -/
def sendSyncMessage (s : Node store D σ) (id : Nat) : Node store D σ :=
  match generateSyncMessage P s id with
  | (s, some bytes) => s.send id (.sync bytes)
  | (s, none) => s

/-- What a fetch is answered with. -/
def blobAnswer (hash : Str) : Except Error Bytes → Frame
  | .ok bytes => .blobPush hash bytes
  | .error e => .error (txt "blob fetch " ++ hash ++ txt ": " ++ e.text)

/-- `handle_inbound`, up to the answer to a sync message. The calls of a push or a fetch are taken
together; what other tasks do between them is in `BlobStore.Puts` and `Serving`. -/
def handleInbound (s : Node store D σ) (id : Nat) : Frame → Node store D σ
  | .sync bytes =>
    match receiveSyncMessage P s id bytes with
    | (s, .ok _) => {s with replying := id :: s.replying}
    | (s, .error _) => s
  | .blobFetch hash => s.send id (blobAnswer hash (store.get s.disk hash))
  | .blobPush hash bytes =>
    {s with
      disk := (store.putWithHash H s.disk hash bytes).1
      ready := BlobStore.isDir_putWithHash s.ready hash bytes}
  | .ping ts => s.send id (.pong ts)
  | .pong _ | .error _ => s
  | .helloHub .. | .helloPeer .. | .proofHub _ | .proofPeer _ => s

inductive Act (store : BlobStore) (D : Type*) where
  /-- The document changes for another reason: an edit, an ingest. -/
  | change (doc : D)
  /-- One call of anything else that works on the disk, such as another connection's push on its
  way, leaves the disk like this. -/
  | call (disk : Disk) (ready : disk.IsDir store.root)
  | register (pubkey : Option Pubkey)
  | unregister (id : Nat)
  | disconnect (authorized : List Pubkey)
  /-- The reader of the connection has decoded a frame. -/
  | frame (id : Nat) (f : Frame)
  /-- The reader answers the sync message it has handed on. -/
  | reply (id : Nat)
  /-- The notifier of the connection wakes up. -/
  | notif (id : Nat)

def step (s : Node store D σ) : Act store D → Option (Node store D σ)
  | .change doc => some {s with doc}
  | .call disk ready => some {s with disk, ready}
  | .register pubkey => some {s with registry := s.registry.registerPeer P.new pubkey}
  | .unregister id => some {s with registry := s.registry.unregisterPeer id}
  | .disconnect authorized =>
    some {s with registry := s.registry.disconnectUnauthorizedPeers authorized}
  | .frame id f => if id ∈ s.replying then none else some (handleInbound P H s id f)
  | .reply id =>
    if id ∈ s.replying then
      some (sendSyncMessage P {s with replying := s.replying.erase id} id)
    else none
  | .notif id => some (sendSyncMessage P s id)

/-! ### The law and its condition -/

/-- The document, the blobs and the connection's channel are as they were. -/
def Unchanged (id : Nat) (s s' : Node store D σ) : Prop :=
  s'.doc = s.doc ∧ s'.disk = s.disk ∧ s'.queued id = s.queued id

/-- The frames that go through the slot or do nothing, and the pushes that store nothing. -/
def Inert (s : Node store D σ) : Frame → Prop
  | .blobFetch _ | .ping _ => False
  | .blobPush hash bytes => H.hash bytes ≠ hash ∨ store.has s.disk hash = true ∨
      (s.disk.write (store.tmpPath hash) bytes).isOk = false
  | _ => True

variable {P H} {s s' : Node store D σ} {id : Nat}

theorem sendSyncMessage_removed (h : s.registry.Removed id) : sendSyncMessage P s id = s := by
  simp [sendSyncMessage, generateSyncMessage, h.2]

theorem receiveSyncMessage_removed (h : s.registry.Removed id) (bytes : Bytes) :
    (receiveSyncMessage P s id bytes).1 = s := by
  simp only [receiveSyncMessage, h.2]
  split <;> rfl

theorem queued_send_ne_self (f : Frame) : (s.send id f).queued id ≠ s.queued id := by
  simp [send]

/-- What a frame does once the slot is gone. -/
theorem unchanged_handleInbound_iff (h : s.registry.Removed id) (f : Frame) :
    Unchanged id s (handleInbound P H s id f) ↔ Inert H s f := by
  cases f with
  | sync bytes =>
    simp only [Inert, iff_true]
    have hs := receiveSyncMessage_removed (P := P) h bytes
    generalize hres : receiveSyncMessage P s id bytes = res at hs
    obtain ⟨s₁, res⟩ := res
    obtain rfl : s₁ = s := hs
    cases res with
    | ok _ => simp [handleInbound, hres, Unchanged]
    | error _ => simp [handleInbound, hres, Unchanged]
  | blobFetch hash =>
    simp only [Inert, iff_false, handleInbound]
    rintro ⟨-, -, hqueued⟩
    exact queued_send_ne_self _ hqueued
  | blobPush hash bytes =>
    rw [Inert, ← BlobStore.putWithHash_eq_self_iff s.ready]
    exact ⟨fun hun => hun.2.1, fun heq => ⟨rfl, heq, rfl⟩⟩
  | ping ts =>
    simp only [Inert, iff_false, handleInbound]
    rintro ⟨-, -, hqueued⟩
    exact queued_send_ne_self _ hqueued
  | _ => simp [Inert, handleInbound, Unchanged]

/-! ### Whole runs -/

/-- What the work on one connection may do to the registry and the channels: its own slot's
sync state, its own channel. -/
structure Within (i : Nat) (s s' : Node store D σ) : Prop where
  registry : s'.registry = s.registry ∨ ∃ state, s'.registry = s.registry.setState i state
  queued : ∀ id, id ≠ i → s'.queued id = s.queued id

theorem Within.refl (i : Nat) (s : Node store D σ) : Within i s s := ⟨.inl rfl, fun _ _ => rfl⟩

theorem Within.removed {i : Nat} (hw : Within i s s') (h : s.registry.Removed id) :
    s'.registry.Removed id := by
  obtain heq | ⟨state, heq⟩ := hw.registry
  · exact heq ▸ h
  · exact heq ▸ h.setState i state

theorem Within.send {i : Nat} (hw : Within i s s') (f : Frame) : Within i s (s'.send i f) :=
  ⟨hw.registry, fun id hid => (Function.update_of_ne hid _ _).trans (hw.queued id hid)⟩

theorem within_receiveSyncMessage (i : Nat) (s : Node store D σ) (bytes : Bytes) :
    Within i s (receiveSyncMessage P s i bytes).1 := by
  unfold receiveSyncMessage
  split
  next => exact .refl i s
  next msg =>
    split
    next => exact .refl i s
    next slot => exact ⟨.inr ⟨_, rfl⟩, fun _ _ => rfl⟩

theorem within_generateSyncMessage (i : Nat) (s : Node store D σ) :
    Within i s (generateSyncMessage P s i).1 := by
  unfold generateSyncMessage
  split
  next => exact .refl i s
  next slot => exact ⟨.inr ⟨_, rfl⟩, fun _ _ => rfl⟩

theorem within_sendSyncMessage (i : Nat) (s : Node store D σ) :
    Within i s (sendSyncMessage P s i) := by
  have hw := within_generateSyncMessage (P := P) i s
  unfold sendSyncMessage
  split
  next s₁ bytes heq =>
    rw [heq] at hw
    exact hw.send _
  next s₁ heq =>
    rw [heq] at hw
    exact hw

theorem within_handleInbound (i : Nat) (s : Node store D σ) (f : Frame) :
    Within i s (handleInbound P H s i f) := by
  cases f with
  | sync bytes =>
    have hw := within_receiveSyncMessage (P := P) i s bytes
    simp only [handleInbound]
    split
    next s₁ _ heq =>
      rw [heq] at hw
      exact ⟨hw.registry, hw.queued⟩
    next s₁ _ heq =>
      rw [heq] at hw
      exact hw
  | blobFetch hash => exact (Within.refl i s).send _
  | ping ts => exact (Within.refl i s).send _
  | _ => exact ⟨.inl rfl, fun _ _ => rfl⟩

/-- A connection whose slot is gone never gets it back. -/
theorem removed_step (h : s.registry.Removed id) {a : Act store D} (hs : step P H s a = some s') :
    s'.registry.Removed id := by
  cases a with
  | change doc =>
    obtain rfl := Option.some.inj hs
    exact h
  | call disk ready =>
    obtain rfl := Option.some.inj hs
    exact h
  | register pubkey =>
    obtain rfl := Option.some.inj hs
    exact h.registerPeer P.new pubkey
  | unregister i =>
    obtain rfl := Option.some.inj hs
    exact h.unregisterPeer i
  | disconnect authorized =>
    obtain rfl := Option.some.inj hs
    exact h.disconnectUnauthorizedPeers authorized
  | frame i f =>
    obtain ⟨-, hs⟩ := Option.ite_none_left_eq_some.mp hs
    obtain rfl := Option.some.inj hs
    exact (within_handleInbound i s f).removed h
  | reply i =>
    obtain ⟨-, hs⟩ := Option.ite_none_right_eq_some.mp hs
    obtain rfl := Option.some.inj hs
    exact (within_sendSyncMessage i {s with replying := s.replying.erase i}).removed h
  | notif i =>
    obtain rfl := Option.some.inj hs
    exact (within_sendSyncMessage i s).removed h

/-- Nothing reaches the channel of a removed connection but the answers to its own frames. -/
theorem queued_step (h : s.registry.Removed id) {a : Act store D} (hs : step P H s a = some s')
    (ha : ∀ f, a = .frame id f → Inert H s f) : s'.queued id = s.queued id := by
  cases a with
  | frame i f =>
    obtain ⟨-, hs⟩ := Option.ite_none_left_eq_some.mp hs
    obtain rfl := Option.some.inj hs
    by_cases hi : i = id
    · subst hi
      exact ((unchanged_handleInbound_iff h f).mpr (ha f rfl)).2.2
    · exact (within_handleInbound i s f).queued id (Ne.symm hi)
  | reply i =>
    obtain ⟨-, hs⟩ := Option.ite_none_right_eq_some.mp hs
    obtain rfl := Option.some.inj hs
    by_cases hi : i = id
    · subst hi
      rw [sendSyncMessage_removed (s := {s with replying := s.replying.erase i}) h]
    · exact (within_sendSyncMessage i {s with replying := s.replying.erase i}).queued id (Ne.symm hi)
  | notif i =>
    obtain rfl := Option.some.inj hs
    by_cases hi : i = id
    · subst hi
      rw [sendSyncMessage_removed h]
    · exact (within_sendSyncMessage i s).queued id (Ne.symm hi)
  | _ =>
    obtain rfl := Option.some.inj hs
    rfl

/-- **A deauthorized connection.** From the moment `disconnect_unauthorized_peers` drops a
slot, whatever else runs: the connection stays out of the registry; a frame received on it
leaves the document, the blobs and its channel alone exactly when the frame is inert, and
so does the answer to it; and in a run in which all its frames are inert nothing is ever
queued to it again. -/
theorem deauthorized_connection {slot : PeerSlot σ} {key : Pubkey} {authorized : List Pubkey}
    (hslot : s.registry.lookup id = some slot) (hkey : slot.pubkey = some key) (hun : key ∉ authorized)
    (hs : step P H s (.disconnect authorized) = some s') :
    (∀ x, Machine.Reach (step P H) (fun _ _ => True) s' x →
      x.registry.Removed id ∧
      (∀ f y, step P H x (.frame id f) = some y → (Unchanged id x y ↔ Inert H x f)) ∧
      ∀ y, step P H x (.reply id) = some y → Unchanged id x y) ∧
    ∀ x, Machine.Reach (step P H) (fun y a => ∀ f, a = .frame id f → Inert H y f) s' x →
      x.queued id = s'.queued id := by
  have hrem : s'.registry.Removed id := by
    obtain rfl := Option.some.inj hs
    refine ⟨by simpa using Registry.lt_of_lookup hslot, ?_⟩
    show (s.registry.disconnectUnauthorizedPeers authorized).lookup id = none
    rw [Registry.lookup_disconnectUnauthorizedPeers, hslot]
    simp [Option.filter, Registry.unauthorized, hkey, hun]
  constructor
  · intro x hx
    have hremx : x.registry.Removed id :=
      hx.invariant (I := fun y => y.registry.Removed id) hrem fun _ _ _ h _ hs => removed_step h hs
    refine ⟨hremx, fun f y hy => ?_, fun y hy => ?_⟩
    · obtain ⟨-, hy⟩ := Option.ite_none_left_eq_some.mp hy
      obtain rfl := Option.some.inj hy
      exact unchanged_handleInbound_iff hremx f
    · obtain ⟨-, hy⟩ := Option.ite_none_right_eq_some.mp hy
      obtain rfl := Option.some.inj hy
      rw [sendSyncMessage_removed (s := {x with replying := x.replying.erase id}) hremx]
      exact ⟨rfl, rfl, rfl⟩
  · intro x hx
    have hinv := hx.invariant (I := fun y => y.registry.Removed id ∧ y.queued id = s'.queued id)
      ⟨hrem, rfl⟩ fun y a z ⟨hremy, hq⟩ ha hz =>
        ⟨removed_step hremy hz, (queued_step hremy hz ha).trans hq⟩
    exact hinv.2

/-! ### A removed connection that is still answered -/

/-- A protocol with nothing to say. -/
abbrev soloProtocol : SyncProtocol Unit Unit Unit where
  new := ()
  decode := fun _ => .error []
  generate := fun _ state => (state, none)
  receive := fun doc state _ => ((doc, state), .ok ())

/-- A vault whose one connection is registered under a key that is about to be struck. -/
abbrev soloNode : Node ⟨[txt "blobs"]⟩ Unit Unit where
  doc := ()
  disk := ⟨AList.singleton [txt "blobs"] .dir⟩
  ready := rfl
  registry := Registry.empty.registerPeer () (some (Array32.fill 6))
  queued := fun _ => []
  replying := []

/-- A ping on the removed connection is answered. -/
theorem deauthorized_connection_answers :
    ∃ s' y, step soloProtocol emptyDigest soloNode (.disconnect []) = some s' ∧
      s'.registry.lookup 1 = none ∧
      step soloProtocol emptyDigest s' (.frame 1 (.ping 7)) = some y ∧ ¬ Unchanged 1 s' y :=
  ⟨_, _, rfl, by rfl, rfl, fun h => absurd h.2.2 (by decide)⟩

/-- And a sync message on it is not. -/
theorem deauthorized_connection_solo :
    ∃ s', step soloProtocol emptyDigest soloNode (.disconnect []) = some s' ∧
      ∀ bytes y, step soloProtocol emptyDigest s' (.frame 1 (.sync bytes)) = some y →
        Unchanged 1 s' y := by
  refine ⟨_, rfl, fun bytes y hy => ?_⟩
  have hslot : soloNode.registry.lookup 1 = some ⟨(), some (Array32.fill 6)⟩ := rfl
  have hlaw := deauthorized_connection (P := soloProtocol) (H := emptyDigest) hslot rfl
    List.not_mem_nil rfl
  exact ((hlaw.1 _ .start).2.1 _ y hy).mpr trivial

/-- A vault whose blob directory is still empty, next to its document. -/
abbrev freshNode : Node ⟨[txt "vault", txt "blobs"]⟩ Unit Unit where
  doc := ()
  disk := ((⟨AList.singleton [txt "vault"] .dir⟩ : Disk).put [txt "vault", txt "blobs"] .dir).put
    [txt "vault", txt "doc.bin"] (.file [1, 2, 3])
  ready := rfl
  registry := Registry.empty
  queued := fun _ => []
  replying := []

end Node

end AgentSync.Net
