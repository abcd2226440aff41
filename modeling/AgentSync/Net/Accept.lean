import AgentSync.Net.Inbound
import AgentSync.Net.Ssh

/-! A connection a hub has accepted, message by message.

`handle_peer` writes `HelloHub`, reads a frame, writes at most one, reads another and then
registers; `read_one_frame` passes over every message that is not binary. What the other side
sends decides how far that goes, and nothing else does: the two frames that are read are in
the history of every connection that is registered, and no step before that touches the vault. -/
namespace AgentSync.Net

/-- What the reading half of a WebSocket hands over. -/
inductive Message where
  | binary (bytes : Bytes)
  | close
  /-- Text, a ping, a pong or a raw frame. -/
  | other
  | failed (e : Str)
  | ended
  deriving DecidableEq, Repr

/-- How far the connection has come. -/
inductive Stage where
  | handshake
  | registered (peerId : Nat)
  | exited
  deriving DecidableEq, Repr

/-- A connection and the vault it reaches; `outbox` is what `handle_peer` is about to write. -/
structure Conn (store : BlobStore) (D σ : Type*) where
  node : Node store D σ
  session : HubSession
  outbox : List Frame
  stage : Stage

/-- What has passed on a connection; `authorized` is what `authorized_pubkeys` gave last. -/
structure Wire where
  read : List Message
  sent : List Frame
  authorized : List Pubkey

namespace Conn

variable {store : BlobStore} {D σ M : Type*}

inductive Act (store : BlobStore) (D σ : Type*) where
  /-- The next frame is encoded and written, or one of the two fails. -/
  | write (result : Except Error Unit)
  /-- The reader hands a message over; `sign` is what `identity.sign` does with a transcript. -/
  | read (m : Message) (sign : Bytes → Except Error Bytes)
  | register
  /-- The tasks of the registered connection answer and notify. -/
  | reply
  | notify
  /-- Whatever the other tasks of the vault do. -/
  | others (node : Node store D σ)

/-- A step of the connection itself. -/
def Act.own : Act store D σ → Bool
  | .others _ => false
  | _ => true

/-- `read_one_frame`, for one message; none where it reads on. -/
def readOneFrame (decode : Bytes → Except Error Frame) : Message → Option (Except Error Frame)
  | .binary b => some (decode b)
  | .close => some (.error (.network (txt "connection closed mid-handshake")))
  | .other => none
  | .failed e => some (.error (.other (txt "websocket: " ++ e)))
  | .ended => some (.error (.network (txt "stream ended mid-handshake")))

/-- `handle_peer` after `accept_async`, with the vault, key, certificate and nonce of `s`. -/
def accept (node : Node store D σ) (s : HubSession) : Conn store D σ :=
  ⟨node, {s with phase := .awaitHello, proof := none}, [s.helloHub], .handshake⟩

variable (C : Crypto) (P : SyncProtocol D σ M) (H : ContentHash) (keys : D → List Pubkey)
  (decode : Bytes → Except Error Frame)

/-- What a message is to the handshake. -/
def shake (c : Conn store D σ) (m : Message) (sign : Bytes → Except Error Bytes) :
    Conn store D σ :=
  match readOneFrame decode m with
  | none => c
  | some (.error e) => {c with session := c.session.fail e}
  | some (.ok f) =>
    let (session, frames) := handlePeer C (keys c.node.doc) sign c.session f
    {c with session, outbox := frames}

/-- What a message is to the reader task. -/
def receive (c : Conn store D σ) (peerId : Nat) : Message → Option (Conn store D σ)
  | .binary b =>
    match decode b with
    | .error _ => some c
    | .ok f => (c.node.step P H (.frame peerId f)).map fun node => {c with node}
  | .other => some c
  | .close | .failed _ | .ended =>
    (c.node.step P H (.unregister peerId)).map fun node => {c with node, stage := .exited}

def step (c : Conn store D σ) : Act store D σ → Option (Conn store D σ)
  | .write result =>
    match c.outbox, result with
    | [], _ => none
    | _ :: rest, .ok _ => some {c with outbox := rest}
    | _ :: _, .error e =>
      -- The outcome of writing an `Error` is dropped: the session has ended.
      match c.session.phase with
      | .ended _ => some {c with outbox := []}
      | _ => some {c with outbox := [], session := c.session.fail e}
  | .read m sign =>
    match c.outbox, c.stage, c.session.phase with
    | [], .handshake, .awaitHello => some (c.shake C keys decode m sign)
    | [], .handshake, .awaitProof => some (c.shake C keys decode m sign)
    | [], .registered peerId, _ => c.receive P H decode peerId m
    | _, _, _ => none
  | .register =>
    match c.stage, c.session.phase, c.session.proof with
    | .handshake, .registered, some (peer, _) =>
      (c.node.step P H (.register (some peer))).map fun node =>
        {c with node, stage := .registered c.node.registry.nextPeerId}
    | _, _, _ => none
  | .reply =>
    match c.stage with
    | .registered peerId => (c.node.step P H (.reply peerId)).map fun node => {c with node}
    | _ => none
  | .notify =>
    match c.stage with
    | .registered peerId => (c.node.step P H (.notif peerId)).map fun node => {c with node}
    | _ => none
  | .others node => some {c with node}

/-- What a step adds to what has passed. -/
def pass (c : Conn store D σ) (a : Act store D σ) (_ : Conn store D σ) (w : Wire) : Wire :=
  match a with
  | .write (.ok _) => {w with sent := w.sent ++ c.outbox.take 1}
  | .read m _ =>
    {w with
      read := w.read ++ [m]
      authorized := if c.session.phase = .awaitHello then keys c.node.doc else w.authorized}
  | _ => w

/-- A connection with what has passed on it. -/
abbrev Traced (store : BlobStore) (D σ : Type*) := Conn store D σ × Wire

/-- The step, with what passes. -/
abbrev move : Traced store D σ → Act store D σ → Option (Traced store D σ) :=
  Machine.traced (step C P H keys decode) (pass keys)

end Conn

/-- The frames among what was read. -/
def Wire.frames (decode : Bytes → Except Error Frame) (w : Wire) : List (Except Error Frame) :=
  w.read.filterMap fun
    | .binary b => some (decode b)
    | _ => none

/-! ### The law and its condition -/

/-- The first frame that was read says hello for an authorized key. -/
structure Wire.Claims (decode : Bytes → Except Error Frame) (w : Wire) (key : Pubkey)
    (nonce : Array32) (op : HelloOp) (rest : List (Except Error Frame)) : Prop where
  frames : w.frames decode = .ok (.helloPeer key.val nonce.val op) :: rest
  authorized : key ∈ w.authorized

/-- `HelloHub`, then at most one `ProofHub`, to an authorized key, then at most one `Error`. -/
def Wire.Sends (decode : Bytes → Except Error Frame) (s : HubSession) (w : Wire)
    (frames : List Frame) : Prop :=
  ∃ (proof : Option Bytes) (refusal : Option Str),
    frames <+: s.helloHub :: (proof.toList.map Frame.proofHub ++ refusal.toList.map Frame.error) ∧
    (proof ≠ none → ∃ key nonce op rest, w.Claims decode key nonce op rest)

namespace Conn

variable {store : BlobStore} {D σ M : Type*} (C : Crypto) (P : SyncProtocol D σ M)
  (H : ContentHash) (keys : D → List Pubkey) (decode : Bytes → Except Error Frame)
  (s : HubSession)

/-- The first two frames were what the session asks for: a hello that is to join, for an
authorized key, and the proof of that key. -/
def Admitted (w : Wire) : Prop :=
  ∃ key nonce sig rest, w.Claims decode key nonce .join (.ok (.proofPeer sig) :: rest) ∧
    key.verify C (s.transcript key nonce) sig = true

/-- What holds of a connection begun with `s`. -/
structure Lawful (x : Traced store D σ) : Prop where
  registers : x.1.session.phase = .registered ∨ x.1.stage ≠ .handshake → Admitted C decode s x.2
  sends : x.2.Sends decode s x.2.sent
  refuses : (∃ m, .error m ∈ x.2.sent) →
    ∀ a y, move C P H keys decode x a = some y → y.2.sent = x.2.sent
  changes : ∀ a y, move C P H keys decode x a = some y → a.own → y.1.node ≠ x.1.node →
    Admitted C decode s x.2

/-- The message does not prove a key whose hello was not to join. -/
def Joins (x : Traced store D σ) : Act store D σ → Prop
  | .read m _ => x.1.outbox = [] → x.1.session.phase = .awaitProof →
    ∀ (key : Pubkey) (nonce : Array32) (op : HelloOp) (sig : Bytes),
      x.2.frames decode = [.ok (.helloPeer key.val nonce.val op)] →
      readOneFrame decode m = some (.ok (.proofPeer sig)) →
      key.verify C (s.transcript key nonce) sig = true → op = .join
  | _ => True

/-! ### Where a connection is, and what has passed by then -/

/-- What has passed by the time the session is in its phase. -/
inductive Follows : Traced store D σ → Prop
  | hello {node : Node store D σ} {outbox : List Frame} {w : Wire}
      (hread : w.frames decode = []) (hsent : w.sent ++ outbox = [s.helloHub]) :
      Follows (⟨node, {s with phase := .awaitHello, proof := none}, outbox, .handshake⟩, w)
  | proof {node : Node store D σ} {outbox : List Frame} {w : Wire} {key : Pubkey}
      {nonce : Array32} {op : HelloOp} {sig : Bytes} (hread : w.Claims decode key nonce op [])
      (hsent : w.sent ++ outbox = [s.helloHub, .proofHub sig]) :
      Follows (⟨node, {s with phase := .awaitProof, proof := some (key, nonce)}, outbox,
        .handshake⟩, w)
  | registered {node : Node store D σ} {stage : Stage} {w : Wire} {key : Pubkey}
      {nonce : Array32} {sig hubSig : Bytes} {rest : List (Except Error Frame)}
      (hread : w.Claims decode key nonce .join (.ok (.proofPeer sig) :: rest))
      (hverify : key.verify C (s.transcript key nonce) sig = true)
      (hsent : w.sent = [s.helloHub, .proofHub hubSig]) :
      Follows (⟨node, {s with phase := .registered, proof := some (key, nonce)}, [], stage⟩, w)
  | ended {node : Node store D σ} {session : HubSession} {outbox : List Frame} {w : Wire}
      {e : Error} (hphase : session.phase = .ended e)
      (hsent : w.Sends decode s (w.sent ++ outbox))
      (hlast : outbox = [] ∨ ∃ m, outbox = [.error m]) :
      Follows (⟨node, session, outbox, .handshake⟩, w)

variable {C P H keys decode s} {x y : Traced store D σ}

/-- What `handle_peer` does with the frame that answers `HelloHub`. -/
theorem handleHelloPeer_cases (authorized : List Pubkey) (sign : Bytes → Except Error Bytes)
    (h : HubSession) (f : Frame) :
    (∃ e frames, handleHelloPeer C authorized sign h f = (h.fail e, frames) ∧
      (frames = [] ∨ ∃ m, frames = [.error m])) ∨
    ∃ (key : Pubkey) (nonce : Array32) (op : HelloOp) (sig : Bytes),
      f = .helloPeer key.val nonce.val op ∧ key ∈ authorized ∧
      handleHelloPeer C authorized sign h f =
        ({h with phase := .awaitProof, proof := some (key, nonce)}, [.proofHub sig]) := by
  cases f with
  | helloPeer keyBytes nonceBytes op =>
    simp only [handleHelloPeer, Pubkey.fromBytes]
    cases hkey : Array32.ofBytes? keyBytes with
    | none => exact .inl ⟨_, _, rfl, .inl rfl⟩
    | some key =>
      cases hnonce : Array32.ofBytes? nonceBytes with
      | none => exact .inl ⟨_, _, rfl, .inl rfl⟩
      | some nonce =>
        rw [Array32.ofBytes?_eq_some.mp hkey, Array32.ofBytes?_eq_some.mp hnonce]
        by_cases hauth : authorized.contains key = true
        · simp only [hauth, if_true]
          cases sign (h.transcript key nonce) with
          | error e => exact .inl ⟨_, _, rfl, .inl rfl⟩
          | ok sig => exact .inr ⟨key, nonce, op, sig, rfl, List.contains_iff_mem.mp hauth, rfl⟩
        · simp only [hauth]
          exact .inl ⟨_, _, rfl, .inr ⟨_, rfl⟩⟩
  | _ => exact .inl ⟨_, _, rfl, .inl rfl⟩

/-- What it does with the frame that answers `ProofHub`. -/
theorem handleProofPeer_cases (h : HubSession) (key : Pubkey) (nonce : Array32) (f : Frame) :
    (∃ e frames, handleProofPeer C h key nonce f = (h.fail e, frames) ∧
      (frames = [] ∨ ∃ m, frames = [.error m])) ∨
    ∃ sig, f = .proofPeer sig ∧ key.verify C (h.transcript key nonce) sig = true ∧
      handleProofPeer C h key nonce f = ({h with phase := .registered}, []) := by
  cases f with
  | proofPeer sig =>
    simp only [handleProofPeer]
    split
    next hverify => exact .inr ⟨sig, rfl, hverify, rfl⟩
    next => exact .inl ⟨_, _, rfl, .inr ⟨_, rfl⟩⟩
  | _ => exact .inl ⟨_, _, rfl, .inl rfl⟩

end Conn

namespace Wire

variable {decode : Bytes → Except Error Frame} {s : HubSession} {w : Wire}

/-- A message that is passed over adds no frame. -/
theorem frames_skip {m : Message} (h : Conn.readOneFrame decode m = none) (keys : List Pubkey) :
    Wire.frames decode ⟨w.read ++ [m], w.sent, keys⟩ = w.frames decode := by
  cases m <;> simp [Conn.readOneFrame] at h
  simp [frames]

/-- The frame of a message is the last that was read. -/
theorem frames_read {m : Message} {f : Frame} (h : Conn.readOneFrame decode m = some (.ok f))
    (keys : List Pubkey) :
    Wire.frames decode ⟨w.read ++ [m], w.sent, keys⟩ = w.frames decode ++ [.ok f] := by
  cases m <;> simp [Conn.readOneFrame] at h
  simp [frames, h]

/-- Once a first frame is there, no message changes it. -/
theorem Claims.read {key : Pubkey} {nonce : Array32} {op : HelloOp}
    {rest : List (Except Error Frame)} (h : w.Claims decode key nonce op rest) (m : Message) :
    ∃ more, Wire.Claims decode ⟨w.read ++ [m], w.sent, w.authorized⟩ key nonce op
      (rest ++ more) := by
  refine ⟨Wire.frames decode ⟨[m], [], []⟩, ?_, h.authorized⟩
  rw [← List.cons_append, ← h.frames]
  exact List.filterMap_append

theorem hello_inj {key key' : Pubkey} {nonce nonce' : Array32} {op op' : HelloOp}
    {rest rest' : List (Except Error Frame)}
    (h : (.ok (.helloPeer key.val nonce.val op) :: rest : List (Except Error Frame)) =
      .ok (.helloPeer key'.val nonce'.val op') :: rest') :
    key = key' ∧ nonce = nonce' ∧ op = op' ∧ rest = rest' := by
  simp only [List.cons.injEq, Except.ok.injEq, Frame.helloPeer.injEq] at h
  exact ⟨Subtype.ext h.1.1, Subtype.ext h.1.2.1, h.1.2.2, h.2⟩

namespace Sends

theorem hello {fs tail : List Frame} (h : fs = s.helloHub :: tail)
    (htail : tail = [] ∨ ∃ m, tail = [.error m]) : w.Sends decode s fs := by
  obtain rfl | ⟨m, rfl⟩ := htail
  · exact ⟨none, none, h ▸ List.prefix_rfl, fun hno => absurd rfl hno⟩
  · exact ⟨none, some m, h ▸ List.prefix_rfl, fun hno => absurd rfl hno⟩

theorem proof {key : Pubkey} {nonce : Array32} {op : HelloOp} {rest : List (Except Error Frame)}
    {sig : Bytes} {fs tail : List Frame} (hclaims : w.Claims decode key nonce op rest)
    (h : fs = s.helloHub :: .proofHub sig :: tail)
    (htail : tail = [] ∨ ∃ m, tail = [.error m]) : w.Sends decode s fs := by
  obtain rfl | ⟨m, rfl⟩ := htail
  · exact ⟨some sig, none, h ▸ List.prefix_rfl, fun _ => ⟨key, nonce, op, rest, hclaims⟩⟩
  · exact ⟨some sig, some m, h ▸ List.prefix_rfl, fun _ => ⟨key, nonce, op, rest, hclaims⟩⟩

/-- What was sent first is as it has to be, too. -/
theorem prefix_of {fs rest : List Frame} (h : w.Sends decode s (fs ++ rest)) :
    w.Sends decode s fs := by
  obtain ⟨proof, refusal, hfs, hclaims⟩ := h
  exact ⟨proof, refusal, (List.prefix_append fs rest).trans hfs, hclaims⟩

/-- Only what was read counts. -/
theorem of_sent {fs : List Frame} (h : w.Sends decode s fs) (sent : List Frame) :
    Wire.Sends decode s {w with sent} fs := by
  obtain ⟨proof, refusal, hfs, hclaims⟩ := h
  refine ⟨proof, refusal, hfs, fun hne => ?_⟩
  obtain ⟨key, nonce, op, rest, hread⟩ := hclaims hne
  exact ⟨key, nonce, op, rest, hread.frames, hread.authorized⟩

/-- Nothing comes after an `Error`. -/
theorem nil_of_error {fs rest : List Frame} {m : Str} (h : w.Sends decode s (fs ++ rest))
    (hm : .error m ∈ fs) : rest = [] := by
  obtain ⟨proof, refusal, ⟨tail, hfs⟩, -⟩ := h
  obtain ⟨before, after, rfl⟩ := List.append_of_mem hm
  rcases before with _ | ⟨b₁, _ | ⟨b₂, _ | ⟨b₃, before⟩⟩⟩ <;> cases proof <;> cases refusal <;>
    simp_all [HubSession.helloHub]

end Sends

end Wire

namespace Conn

variable {store : BlobStore} {D σ M : Type*} {C : Crypto} {P : SyncProtocol D σ M}
  {H : ContentHash} {keys : D → List Pubkey} {decode : Bytes → Except Error Frame}
  {s : HubSession} {x y : Traced store D σ}

theorem receive_eq {c c' : Conn store D σ} {peerId : Nat} {m : Message}
    (h : c.receive P H decode peerId m = some c') :
    ∃ node stage, c' = ⟨node, c.session, c.outbox, stage⟩ := by
  cases m with
  | binary b =>
    simp only [receive] at h
    split at h
    next => exact ⟨_, _, (Option.some.inj h).symm⟩
    next =>
      obtain ⟨node, -, rfl⟩ := Option.map_eq_some_iff.mp h
      exact ⟨_, _, rfl⟩
  | other => exact ⟨_, _, (Option.some.inj h).symm⟩
  | _ =>
    simp only [receive] at h
    obtain ⟨node, -, rfl⟩ := Option.map_eq_some_iff.mp h
    exact ⟨_, _, rfl⟩

namespace Follows

/-- The answer to `HelloHub`. -/
theorem read_hello {node : Node store D σ} {w : Wire} {m : Message}
    (sign : Bytes → Except Error Bytes) (hread : w.frames decode = [])
    (hsent : w.sent = [s.helloHub]) :
    Follows C decode s
      (shake C keys decode ⟨node, {s with phase := .awaitHello, proof := none}, [], .handshake⟩ m
        sign, ⟨w.read ++ [m], w.sent, keys node.doc⟩) := by
  unfold shake
  cases hframe : readOneFrame decode m with
  | none => exact .hello ((Wire.frames_skip hframe _).trans hread) (by simp [hsent])
  | some r =>
    cases r with
    | error e =>
      exact .ended rfl (.hello ((List.append_nil _).trans hsent) (.inl rfl)) (.inl rfl)
    | ok f =>
      have hframes := Wire.frames_read (w := w) hframe (keys node.doc)
      rw [hread, List.nil_append] at hframes
      obtain ⟨e, frames, heq, hfs⟩ | ⟨key, nonce, op, sig, rfl, hkey, heq⟩ :=
        handleHelloPeer_cases (C := C) (keys node.doc) sign
          {s with phase := .awaitHello, proof := none} f
      · simp only [handlePeer, heq]
        exact .ended rfl (.hello (congrArg (· ++ frames) hsent) hfs) hfs
      · simp only [handlePeer, heq]
        exact .proof ⟨hframes, hkey⟩ (congrArg (· ++ [Frame.proofHub sig]) hsent)

/-- The answer to `ProofHub`. -/
theorem read_proof {node : Node store D σ} {w : Wire} {m : Message} {key : Pubkey}
    {nonce : Array32} {op : HelloOp} {sig : Bytes} (sign : Bytes → Except Error Bytes)
    (hread : w.Claims decode key nonce op []) (hsent : w.sent = [s.helloHub, .proofHub sig])
    (hjoins : ∀ sig, readOneFrame decode m = some (.ok (.proofPeer sig)) →
      key.verify C (s.transcript key nonce) sig = true → op = .join) :
    Follows C decode s
      (shake C keys decode ⟨node, {s with phase := .awaitProof, proof := some (key, nonce)}, [],
        .handshake⟩ m sign, ⟨w.read ++ [m], w.sent, w.authorized⟩) := by
  unfold shake
  cases hframe : readOneFrame decode m with
  | none =>
    exact .proof ⟨(Wire.frames_skip hframe _).trans hread.frames, hread.authorized⟩
      ((List.append_nil _).trans hsent)
  | some r =>
    cases r with
    | error e =>
      obtain ⟨more, hmore⟩ := hread.read m
      exact .ended rfl (.proof hmore ((List.append_nil _).trans hsent) (.inl rfl)) (.inl rfl)
    | ok f =>
      have hframes := Wire.frames_read (w := w) hframe w.authorized
      rw [hread.frames, List.singleton_append] at hframes
      have hclaims : Wire.Claims decode _ key nonce op [.ok f] := ⟨hframes, hread.authorized⟩
      obtain ⟨e, frames, heq, hfs⟩ | ⟨sig', rfl, hverify, heq⟩ :=
        handleProofPeer_cases (C := C) {s with phase := .awaitProof, proof := some (key, nonce)} key
          nonce f
      · simp only [handlePeer, heq]
        exact .ended rfl (.proof hclaims (congrArg (· ++ frames) hsent) hfs) hfs
      · simp only [handlePeer, heq]
        obtain rfl := hjoins sig' hframe hverify
        exact .registered hclaims hverify hsent

theorem others {c : Conn store D σ} {w : Wire} (h : Follows C decode s (c, w))
    (node : Node store D σ) : Follows C decode s ({c with node}, w) := by
  cases h with
  | hello hread hsent => exact .hello hread hsent
  | proof hread hsent => exact .proof hread hsent
  | registered hread hverify hsent => exact .registered hread hverify hsent
  | ended hphase hsent hlast => exact .ended hphase hsent hlast

theorem write {c c' : Conn store D σ} {w : Wire} (h : Follows C decode s (c, w))
    (result : Except Error Unit) (hs : Conn.step C P H keys decode c (.write result) = some c') :
    Follows C decode s (c', pass keys c (.write result) c' w) := by
  cases result with
  | ok u =>
    cases h with
    | @hello node outbox _ hread hsent =>
      cases outbox with
      | nil => cases hs
      | cons f rest =>
        obtain rfl := Option.some.inj hs
        exact .hello hread ((List.append_assoc ..).trans hsent)
    | @proof node outbox _ key nonce op sig hread hsent =>
      cases outbox with
      | nil => cases hs
      | cons f rest =>
        obtain rfl := Option.some.inj hs
        exact .proof ⟨hread.frames, hread.authorized⟩ ((List.append_assoc ..).trans hsent)
    | registered => cases hs
    | @ended node session outbox _ e hphase hsent hlast =>
      obtain rfl | ⟨m, rfl⟩ := hlast
      · cases hs
      · obtain rfl := Option.some.inj hs
        exact .ended hphase (by simpa [pass] using hsent.of_sent _) (.inl rfl)
  | error e =>
    cases h with
    | @hello node outbox _ hread hsent =>
      cases outbox with
      | nil => cases hs
      | cons f rest =>
        obtain rfl := Option.some.inj hs
        have hall : w.Sends decode s (w.sent ++ f :: rest) := .hello hsent (.inl rfl)
        exact .ended rfl (by simpa [pass] using hall.prefix_of) (.inl rfl)
    | @proof node outbox _ key nonce op sig hread hsent =>
      cases outbox with
      | nil => cases hs
      | cons f rest =>
        obtain rfl := Option.some.inj hs
        have hall : w.Sends decode s (w.sent ++ f :: rest) := .proof hread hsent (.inl rfl)
        exact .ended rfl (by simpa [pass] using hall.prefix_of) (.inl rfl)
    | registered => cases hs
    | @ended node session outbox _ e' hphase hsent hlast =>
      obtain rfl | ⟨m, rfl⟩ := hlast
      · cases hs
      · simp only [Conn.step, hphase] at hs
        obtain rfl := Option.some.inj hs
        exact .ended hphase (by simpa [pass] using hsent.prefix_of) (.inl rfl)

/-- **One step**, of a message that meets the condition. -/
theorem step {c c' : Conn store D σ} {w : Wire} {a : Act store D σ}
    (h : Follows C decode s (c, w)) (hg : Joins C decode s (c, w) a)
    (hs : Conn.step C P H keys decode c a = some c') :
    Follows C decode s (c', pass keys c a c' w) := by
  cases a with
  | write result => exact h.write result hs
  | others node =>
    obtain rfl := Option.some.inj hs
    exact h.others node
  | reply =>
    simp only [Conn.step] at hs
    split at hs
    next =>
      obtain ⟨node, -, rfl⟩ := Option.map_eq_some_iff.mp hs
      exact h.others node
    next => cases hs
  | notify =>
    simp only [Conn.step] at hs
    split at hs
    next =>
      obtain ⟨node, -, rfl⟩ := Option.map_eq_some_iff.mp hs
      exact h.others node
    next => cases hs
  | register =>
    simp only [Conn.step] at hs
    split at hs
    next hstage hphase _ =>
      obtain ⟨node, -, rfl⟩ := Option.map_eq_some_iff.mp hs
      cases h with
      | registered hread hverify hsent => exact .registered hread hverify hsent
      | ended hend => cases hend.symm.trans hphase
      | _ => cases hphase
    next => cases hs
  | read m sign =>
    cases h with
    | @hello node outbox _ hread hsent =>
      cases outbox with
      | nil =>
        obtain rfl := Option.some.inj hs
        exact read_hello sign hread ((List.append_nil _).symm.trans hsent)
      | cons f rest => cases hs
    | @proof node outbox _ key nonce op sig hread hsent =>
      cases outbox with
      | nil =>
        obtain rfl := Option.some.inj hs
        exact read_proof sign hread ((List.append_nil _).symm.trans hsent) fun sig' hframe =>
          hg rfl rfl key nonce op sig' hread.frames hframe
      | cons f rest => cases hs
    | @registered node stage _ key nonce sig hubSig rest hread hverify hsent =>
      obtain ⟨more, hmore⟩ := hread.read m
      cases stage with
      | registered peerId =>
        obtain ⟨node', stage', rfl⟩ : ∃ node' stage', c' = ⟨node', _, [], stage'⟩ := receive_eq hs
        exact .registered hmore hverify hsent
      | _ => cases hs
    | @ended node session outbox _ e hphase hsent hlast =>
      obtain rfl | ⟨m, rfl⟩ := hlast
      · simp [Conn.step, hphase] at hs
      · cases hs

theorem move {a : Act store D σ} (h : Follows C decode s x) (hg : Joins C decode s x a)
    (hs : Conn.move C P H keys decode x a = some y) : Follows C decode s y := by
  obtain ⟨c, w⟩ := x
  obtain ⟨c', w'⟩ := y
  obtain ⟨hs, hw⟩ := Machine.traced_eq_some.mp hs
  dsimp only at hw
  subst hw
  exact h.step hg hs

theorem admitted (h : Follows C decode s x)
    (hx : x.1.session.phase = .registered ∨ x.1.stage ≠ .handshake) : Admitted C decode s x.2 := by
  cases h with
  | registered hread hverify => exact ⟨_, _, _, _, hread, hverify⟩
  | ended hphase => simp [hphase] at hx
  | _ => simp at hx

/-- What was written and what is about to be. -/
theorem sending (h : Follows C decode s x) : x.2.Sends decode s (x.2.sent ++ x.1.outbox) := by
  cases h with
  | hello _ hsent => exact .hello hsent (.inl rfl)
  | proof hread hsent => exact .proof hread hsent (.inl rfl)
  | registered hread _ hsent => exact .proof hread ((List.append_nil _).trans hsent) (.inl rfl)
  | ended _ hsent => exact hsent

end Follows

/-- Until the connection is registered, nothing it does reaches the vault. -/
theorem node_of_step {c c' : Conn store D σ} {a : Act store D σ}
    (hs : step C P H keys decode c a = some c') (hown : a.own)
    (hphase : c.session.phase ≠ .registered) (hstage : c.stage = .handshake) :
    c'.node = c.node := by
  cases a with
  | write result =>
    simp only [step] at hs
    split at hs
    · cases hs
    · obtain rfl := Option.some.inj hs
      rfl
    · split at hs <;> obtain rfl := Option.some.inj hs <;> rfl
  | read m sign =>
    have hshake : (c.shake C keys decode m sign).node = c.node := by
      unfold shake
      split <;> rfl
    simp only [step, hstage] at hs
    split at hs
    next => exact Option.some.inj hs ▸ hshake
    next => exact Option.some.inj hs ▸ hshake
    next heq => cases heq
    next => cases hs
  | register =>
    simp only [step] at hs
    split at hs
    next heq _ => exact absurd heq hphase
    next => cases hs
  | reply => simp [step, hstage] at hs
  | notify => simp [step, hstage] at hs
  | others => cases hown

theorem Follows.lawful (h : Follows C decode s x) : Lawful C P H keys decode s x where
  registers := h.admitted
  sends := h.sending.prefix_of
  refuses := by
    rintro ⟨m, hm⟩ a y hs
    have hout := h.sending.nil_of_error hm
    obtain ⟨hs, hw⟩ := Machine.traced_eq_some.mp hs
    rw [hw]
    cases a with
    | write result =>
      simp only [Conn.step, hout] at hs
      cases hs
    | _ => rfl
  changes := by
    intro a y hs hown hnode
    obtain ⟨hs, -⟩ := Machine.traced_eq_some.mp hs
    refine h.admitted (or_iff_not_imp_left.mpr fun hphase hstage => hnode ?_)
    exact node_of_step hs hown hphase hstage

/-- Reading the proof of a key admits it, whatever its hello was for. -/
theorem Follows.phase_of_proof {m : Message} {sign : Bytes → Except Error Bytes} {key : Pubkey}
    {nonce : Array32} {op : HelloOp} {sig : Bytes} (h : Follows C decode s x)
    (hphase : x.1.session.phase = .awaitProof)
    (hs : Conn.move C P H keys decode x (.read m sign) = some y)
    (hread : x.2.frames decode = [.ok (.helloPeer key.val nonce.val op)])
    (hframe : readOneFrame decode m = some (.ok (.proofPeer sig)))
    (hverify : key.verify C (s.transcript key nonce) sig = true) :
    y.1.session.phase = .registered ∧ ∃ rest,
      y.2.frames decode = .ok (.helloPeer key.val nonce.val op) :: rest := by
  obtain ⟨hs, hw⟩ := Machine.traced_eq_some.mp hs
  cases h with
  | @proof node outbox w key' nonce' op' sig' hclaims hsent =>
    obtain ⟨rfl, rfl, rfl, -⟩ := Wire.hello_inj (hclaims.frames.symm.trans hread)
    cases outbox with
    | cons f rest => cases hs
    | nil =>
      have hy : y.1 = _ := (Option.some.inj hs).symm
      have hpeer : handlePeer C (keys node.doc) sign
          {s with phase := .awaitProof, proof := some (key', nonce')} (.proofPeer sig) = _ :=
        handlePeer_proofPeer C _ _ rfl rfl hverify
      simp only [shake, hframe, hpeer] at hy
      rw [hy, hw]
      exact ⟨rfl, _, (Wire.frames_read hframe _).trans (by rw [hread]; rfl)⟩
  | ended hend => cases hend.symm.trans hphase
  | _ => cases hphase

/-- **Who is registered.** From any vault on, whatever is read and whatever else happens to the
vault: no connection comes to `register_peer` but with a hello to join for an authorized key and
its proof, none sends anything else before, or anything after an `Error`, and none touches the
vault, as long as no key is proved whose hello was not to join. Where one is, it is admitted. -/
theorem handshake_admits (node : Node store D σ)
    (h : Machine.Reach (move C P H keys decode) (Joins C decode s)
      (accept node s, ⟨[], [], []⟩) x) :
    Lawful C P H keys decode s x ∧ ∀ a y, move C P H keys decode x a = some y →
      (Lawful C P H keys decode s y ↔ Joins C decode s x a) := by
  have hfollows : Follows C decode s x :=
    h.invariant (.hello rfl rfl) fun _ _ _ hx hg hs => hx.move hg hs
  refine ⟨hfollows.lawful, fun a y hs => ⟨fun hlaw => ?_, fun hg => (hfollows.move hg hs).lawful⟩⟩
  cases a with
  | read m sign =>
    intro _ hphase key nonce op sig hread hframe hverify
    obtain ⟨hreg, rest, hframes⟩ := hfollows.phase_of_proof hphase hs hread hframe hverify
    obtain ⟨key', nonce', sig', rest', hclaims, -⟩ := hlaw.registers (.inl hreg)
    exact (Wire.hello_inj (hframes.symm.trans hclaims.frames)).2.2.1
  | _ => trivial

/-! ### Two handshakes -/

/-- MessagePack of a short string and of short binary data. -/
private def packedStr (s : Str) : Bytes := (0xa0 + UInt8.ofNat s.length) :: asciiBytes s

private def packedBin (b : Bytes) : Bytes := 0xc4 :: UInt8.ofNat b.length :: b

private abbrev knocker : Pubkey := .fill 6

private def packedHello (op : Str) : Bytes :=
  0x84 :: (packedStr (txt "t") ++ packedStr (txt "hello_peer") ++
    packedStr (txt "peer_identity" ++ txt "_pubkey") ++ packedBin knocker.val ++
    packedStr (txt "peer_nonce") ++ packedBin (Array32.fill 3).val ++
    packedStr (txt "op") ++ packedStr op)

private def packedProof : Bytes :=
  0x82 :: (packedStr (txt "t") ++ packedStr (txt "proof_peer") ++ packedStr (txt "sig") ++
    packedBin (List.replicate 64 7))

/-- `Frame::decode`, on these. -/
private def unpack (b : Bytes) : Except Error Frame :=
  if b = packedHello (txt "join") then .ok (.helloPeer knocker.val (Array32.fill 3).val .join)
  else if b = packedHello (txt "create") then
    .ok (.helloPeer knocker.val (Array32.fill 3).val .create)
  else if b = packedProof then .ok (.proofPeer (List.replicate 64 7))
  else .error (.protocol (txt "decode: " ++ txt "unknown frame"))

private abbrev knocked : HubSession := ⟨[], none, .fill 1, .fill 4, .fill 2, .awaitHello, none⟩

/-- The knocker's signature is on the transcript of the session, and nothing else is signed. -/
private abbrev signedOnce : Crypto :=
  tableCrypto [(knocker, knocked.transcript knocker (.fill 3), List.replicate 64 7)]

private abbrev Door := Traced ⟨[txt "vault", txt "blobs"]⟩ Unit Unit

private abbrev Knock := Act ⟨[txt "vault", txt "blobs"]⟩ Unit Unit

private abbrev knock : Door → Knock → Option Door :=
  move signedOnce Node.soloProtocol emptyDigest (fun _ => [knocker]) unpack

/-- A text message, then the two frames. -/
private def knocks (op : Str) : List Knock :=
  [.write (.ok ()), .read .other fun _ => .ok [], .read (.binary (packedHello op)) fun _ =>
    .ok (List.replicate 64 5), .write (.ok ()), .read (.binary packedProof) fun _ => .ok [],
    .register]

/-- A hello to create a vault is let in like one to join. -/
theorem handshake_admits_create :
    ∃ x, Machine.Reach knock (fun _ _ => True) (accept Node.freshNode knocked, ⟨[], [], []⟩) x ∧
      x.1.stage = .registered 1 ∧
      ¬ Lawful signedOnce Node.soloProtocol emptyDigest (fun _ => [knocker]) unpack knocked x := by
  have hrun : ((Machine.run knock (accept Node.freshNode knocked, ⟨[], [], []⟩)
      (knocks (txt "create"))).any fun x => x.1.stage = .registered 1 ∧
        x.2.frames unpack = [.ok (.helloPeer knocker.val (Array32.fill 3).val .create),
          .ok (.proofPeer (List.replicate 64 7))]) = true := by
    decide +kernel
  obtain ⟨x, hs, hread⟩ := (Option.any_eq_true _ _).mp hrun
  obtain ⟨hstage, hframes⟩ := of_decide_eq_true hread
  refine ⟨x, .of_run (.of_forall (fun _ _ => trivial) _) hs, hstage, fun h => ?_⟩
  obtain ⟨key, nonce, sig, rest, hclaims, -⟩ := h.registers (.inr (by simp [hstage]))
  have hop := (Wire.hello_inj (hframes.symm.trans hclaims.frames)).2.2.1
  cases hop

/-- The condition, for messages of this kind. -/
private def joining (x : Door) : Knock → Bool
  | .read _ _ => match x.2.frames unpack with
    | [.ok (.helloPeer _ _ .create)] => false
    | _ => true
  | _ => true

theorem handshake_admits_join :
    ∃ x : Door, x.1.stage = .registered 1 ∧
      Lawful signedOnce Node.soloProtocol emptyDigest (fun _ => [knocker]) unpack knocked x := by
  have hrun : ((Machine.run knock (accept Node.freshNode knocked, ⟨[], [], []⟩)
      (knocks (txt "join"))).any fun x => x.1.stage = .registered 1) = true := by
    decide +kernel
  have hguard : Machine.allowed knock joining (accept Node.freshNode knocked, ⟨[], [], []⟩)
      (knocks (txt "join")) = true := by
    decide +kernel
  obtain ⟨x, hs, hread⟩ := (Option.any_eq_true _ _).mp hrun
  refine ⟨x, of_decide_eq_true hread, (handshake_admits Node.freshNode
    (.of_run (.of_allowed (fun y a ha => ?_) hguard) hs)).1⟩
  cases a with
  | read m sign =>
    intro _ _ key nonce op sig hread
    simp only [joining, hread] at ha
    cases op with
    | join => intros; rfl
    | create => cases ha
  | _ => trivial

end Conn

end AgentSync.Net
