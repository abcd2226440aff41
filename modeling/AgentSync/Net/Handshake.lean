import AgentSync.Net.Auth

/-! The four-message handshake, one frame at a time.

`handlePeer` is the hub's side up to `register_peer` and `runHandshake` the peer's
side: what each does with the next decoded frame, given the phase it is in. A
session keeps what its local variables hold; `proof` and `signed` say which
transcript it has put its signature under, which is all that a forger can use. -/
namespace AgentSync.Net

/-! ### Frames -/

inductive HelloOp where
  | join
  | create
  deriving DecidableEq, Repr

inductive Frame where
  | helloHub (vaultId : Str) (hubIdentityPubkey hubNonce tlsCertFingerprint : Bytes)
      (vaultName : Option Str)
  | helloPeer (peerIdentityPubkey peerNonce : Bytes) (op : HelloOp)
  | proofHub (sig : Bytes)
  | proofPeer (sig : Bytes)
  | sync (bytes : Bytes)
  | blobFetch (hash : Str)
  | blobPush (hash : Str) (bytes : Bytes)
  | ping (ts : Int)
  | pong (ts : Int)
  | error (message : Str)
  deriving DecidableEq, Repr

/-! ### The hub's side -/

inductive HubPhase where
  /-- `HelloHub` is sent; the next frame must be `HelloPeer`. -/
  | awaitHello
  /-- The claimed key is authorized and `ProofHub` is sent. -/
  | awaitProof
  /-- `register_peer` has been called. -/
  | registered
  | ended (e : Error)
  deriving DecidableEq, Repr

/-- One run of `handle_peer`. -/
structure HubSession where
  vaultId : Str
  vaultName : Option Str
  identity : Pubkey
  certFp : Array32
  hubNonce : Array32
  phase : HubPhase
  /-- The claimed key and the peer's nonce, once `ProofHub` has been signed for them. -/
  proof : Option (Pubkey × Array32)
  deriving DecidableEq, Repr

namespace HubSession

/-- The first frame of the session, sent on accepting the connection. -/
def helloHub (s : HubSession) : Frame :=
  .helloHub s.vaultId s.identity.val s.hubNonce.val s.certFp.val s.vaultName

def transcript (s : HubSession) (peer : Pubkey) (peerNonce : Array32) : Bytes :=
  buildTranscript s.hubNonce peerNonce s.certFp.val s.identity peer

/-- The transcript the session has signed as the hub. -/
def signedTranscript (s : HubSession) : Option Bytes :=
  s.proof.map fun (peer, peerNonce) => s.transcript peer peerNonce

def fail (s : HubSession) (e : Error) : HubSession := {s with phase := .ended e}

end HubSession

variable (C : Crypto)

/-- `handle_peer` on the frame that answers `HelloHub`. `authorized` is what
`authorized_pubkeys` returns and `sign` what `identity.sign` does on the transcript. -/
def handleHelloPeer (authorized : List Pubkey) (sign : Bytes → Except Error Bytes)
    (s : HubSession) : Frame → HubSession × List Frame
  | .helloPeer peerPubkeyBytes peerNonceBytes _ =>
    match Pubkey.fromBytes peerPubkeyBytes with
    | .error e => (s.fail e, [])
    | .ok peer =>
      match Array32.ofBytes? peerNonceBytes with
      | none => (s.fail (.protocol (txt "peer nonce wrong length")), [])
      | some peerNonce =>
        if authorized.contains peer then
          match sign (s.transcript peer peerNonce) with
          | .error e => (s.fail e, [])
          | .ok sig =>
            ({s with phase := .awaitProof, proof := some (peer, peerNonce)}, [.proofHub sig])
        else
          (s.fail (.auth (txt "peer not in authorized_keys: " ++ C.fingerprint peer)),
            [.error (txt "peer pubkey " ++ C.fingerprint peer ++ txt " not authorized")])
  | .error message => (s.fail (.protocol (txt "peer reported error: " ++ message)), [])
  | _ => (s.fail (.protocol (txt "expected HelloPeer")), [])

/-- `handle_peer` on the frame that answers `ProofHub`. -/
def handleProofPeer (s : HubSession) (peer : Pubkey) (peerNonce : Array32) :
    Frame → HubSession × List Frame
  | .proofPeer sig =>
    if peer.verify C (s.transcript peer peerNonce) sig then
      ({s with phase := .registered}, [])
    else
      (s.fail (.auth (txt "peer signature failed verification")),
        [.error (txt "peer signature failed verification")])
  | .error message => (s.fail (.protocol (txt "peer reported error: " ++ message)), [])
  | _ => (s.fail (.protocol (txt "expected ProofPeer")), [])

/-- `handle_peer` up to `register_peer`: the session after the next frame and the
frames it sends. -/
def handlePeer (authorized : List Pubkey) (sign : Bytes → Except Error Bytes) (s : HubSession)
    (frame : Frame) : HubSession × List Frame :=
  match s.phase, s.proof with
  | .awaitHello, _ => handleHelloPeer C authorized sign s frame
  | .awaitProof, some (peer, peerNonce) => handleProofPeer C s peer peerNonce frame
  | _, _ => (s, [])

/-! ### The peer's side -/

inductive PeerPhase where
  /-- Connected; the next frame must be `HelloHub`. -/
  | awaitHello
  /-- `HelloPeer` is sent; the next frame must be `ProofHub`. -/
  | awaitProof
  /-- `ProofPeer` is sent and `run_handshake` has returned. -/
  | done
  | ended (e : Error)
  deriving DecidableEq, Repr

/-- What `run_handshake` has taken from `HelloHub`, and the nonce it answered with. -/
structure HubHello where
  vaultId : Str
  hubPubkey : Pubkey
  hubNonce : Array32
  advertisedFp : Bytes
  vaultName : Option Str
  peerNonce : Array32
  deriving DecidableEq, Repr

/-- One run of `run_handshake`; `expectedCertFp` is the fingerprint observed on this
connection, zero on plain `ws://`. -/
structure PeerSession where
  identity : Pubkey
  expectedCertFp : Array32
  phase : PeerPhase
  hello : Option HubHello
  deriving DecidableEq, Repr

namespace PeerSession

def transcript (s : PeerSession) (h : HubHello) : Bytes :=
  buildTranscript h.hubNonce h.peerNonce h.advertisedFp h.hubPubkey s.identity

/-- The transcript the session has signed as the peer. -/
def signedTranscript (s : PeerSession) : Option Bytes :=
  if s.phase = .done then s.hello.map s.transcript else none

def fail (s : PeerSession) (e : Error) : PeerSession := {s with phase := .ended e}

end PeerSession

/-- The hub has opted out of channel binding: it advertises 32 zero bytes. -/
def hubDisabledBinding (advertisedFp : Bytes) : Bool :=
  advertisedFp.length == 32 && advertisedFp.all (· == 0)

/-- `run_handshake` on the first frame. -/
def runHandshakeHello (peerNonce : Array32) (s : PeerSession) : Frame → PeerSession × List Frame
  | .helloHub vaultId hubPubkeyBytes hubNonceBytes advertisedFp vaultName =>
    match Pubkey.fromBytes hubPubkeyBytes with
    | .error e => (s.fail e, [])
    | .ok hubPubkey =>
      match Array32.ofBytes? hubNonceBytes with
      | none => (s.fail (.protocol (txt "hub nonce wrong length")), [])
      | some hubNonce =>
        if !hubDisabledBinding advertisedFp && advertisedFp != s.expectedCertFp.val then
          (s.fail (.auth (txt "tls cert fingerprint mismatch: advertised " ++
            (toString advertisedFp.length).toList ++ txt " bytes, observed " ++
            (toString s.expectedCertFp.val.length).toList)), [])
        else
          ({s with
              phase := .awaitProof
              hello := some ⟨vaultId, hubPubkey, hubNonce, advertisedFp, vaultName, peerNonce⟩},
            [.helloPeer s.identity.val peerNonce.val .join])
  | .error message => (s.fail (.auth message), [])
  | _ => (s.fail (.protocol (txt "expected HelloHub")), [])

/-- `run_handshake` on the frame that answers `HelloPeer`. -/
def runHandshakeProof (sign : Bytes → Except Error Bytes) (s : PeerSession) (h : HubHello) :
    Frame → PeerSession × List Frame
  | .proofHub sig =>
    if h.hubPubkey.verify C (s.transcript h) sig then
      match sign (s.transcript h) with
      | .error e => (s.fail e, [])
      | .ok peerSig => ({s with phase := .done}, [.proofPeer peerSig])
    else
      (s.fail (.auth (txt "hub signature failed verification")), [])
  | .error message => (s.fail (.auth message), [])
  | _ => (s.fail (.protocol (txt "expected ProofHub")), [])

/-- `run_handshake`: the session after the next frame and the frames it sends. -/
def runHandshake (peerNonce : Array32) (sign : Bytes → Except Error Bytes) (s : PeerSession)
    (frame : Frame) : PeerSession × List Frame :=
  match s.phase, s.hello with
  | .awaitHello, _ => runHandshakeHello peerNonce s frame
  | .awaitProof, some h => runHandshakeProof C sign s h frame
  | _, _ => (s, [])

/-- `ClientConn::connect` up to `register_peer`: the transcript it has signed, if it goes
through. The stream ends after `frames`, `certFp` is what `open_websocket` has returned and
`sshString` is `Pubkey::to_ssh_string`. -/
def connect (sshString : Pubkey → Str) (expectedVaultId : Option Str)
    (expectedHubPubkey : Option Pubkey) (identity : Pubkey) (certFp peerNonce : Array32)
    (sign : Bytes → Except Error Bytes) (frames : List Frame) : Except Error Bytes :=
  let s := frames.foldl (fun s f => (runHandshake C peerNonce sign s f).1)
    ⟨identity, certFp, .awaitHello, none⟩
  match s.phase, s.hello with
  | .ended e, _ => .error e
  | .done, some h =>
    if expectedVaultId.any (· != h.vaultId) then
      .error (.auth (txt "vault_id mismatch: server reported " ++ h.vaultId ++
        txt " but local config has " ++ expectedVaultId.getD []))
    else if expectedHubPubkey.any (· != h.hubPubkey) then
      .error (.auth (txt "hub identity mismatch: pinned " ++
        (expectedHubPubkey.map C.fingerprint).getD [] ++ txt " but hub presented " ++
        C.fingerprint h.hubPubkey ++
        txt ".\nEither the hub's identity key was rotated, or someone is impersonating it. Run " ++
        txt "\x60agentsync hub trust " ++ sshString h.hubPubkey ++
        txt "\x60 to accept the new key, or \x60agentsync hub forget\x60 to clear the pin."))
    else .ok (s.transcript h)
  | _, _ => .error (.network (txt "stream ended mid-handshake"))

/-! ### What one frame can do to a session -/

/-- Every way a frame moves a hub session. -/
inductive HubMove (authorized : List Pubkey) (sign : Bytes → Except Error Bytes)
    (s : HubSession) : Frame → HubSession → Prop where
  | stay (f : Frame) : HubMove authorized sign s f s
  | fail (f : Frame) (e : Error) : s.phase = .awaitHello ∨ s.phase = .awaitProof →
      HubMove authorized sign s f (s.fail e)
  | prove {peer : Pubkey} {peerNonce : Array32} {sig : Bytes} (op : HelloOp) :
      s.phase = .awaitHello → peer ∈ authorized →
      sign (s.transcript peer peerNonce) = .ok sig →
      HubMove authorized sign s (.helloPeer peer.val peerNonce.val op)
        {s with phase := .awaitProof, proof := some (peer, peerNonce)}
  | register {peer : Pubkey} {peerNonce : Array32} {sig : Bytes} :
      s.phase = .awaitProof → s.proof = some (peer, peerNonce) →
      peer.verify C (s.transcript peer peerNonce) sig = true →
      HubMove authorized sign s (.proofPeer sig) {s with phase := .registered}

theorem handlePeer_move (authorized : List Pubkey) (sign : Bytes → Except Error Bytes)
    (s : HubSession) (f : Frame) :
    HubMove C authorized sign s f (handlePeer C authorized sign s f).1 := by
  unfold handlePeer
  split
  next hphase =>
    cases f with
    | helloPeer keyBytes nonceBytes op =>
      simp only [handleHelloPeer, Pubkey.fromBytes]
      cases hkey : Array32.ofBytes? keyBytes with
      | none => exact .fail _ _ (.inl hphase)
      | some peer =>
        cases hnonce : Array32.ofBytes? nonceBytes with
        | none => exact .fail _ _ (.inl hphase)
        | some peerNonce =>
          rw [Array32.ofBytes?_eq_some.mp hkey, Array32.ofBytes?_eq_some.mp hnonce]
          by_cases hauth : authorized.contains peer = true
          · simp only [hauth, if_true]
            cases hsig : sign (s.transcript peer peerNonce) with
            | error e => exact .fail _ _ (.inl hphase)
            | ok sig => exact .prove op hphase (List.contains_iff_mem.mp hauth) hsig
          · simp only [hauth]
            exact .fail _ _ (.inl hphase)
    | _ => exact .fail _ _ (.inl hphase)
  next peer peerNonce hphase hproof =>
    cases f with
    | proofPeer sig =>
      simp only [handleProofPeer]
      split
      next hverify => exact .register hphase hproof hverify
      next => exact .fail _ _ (.inr hphase)
    | _ => exact .fail _ _ (.inr hphase)
  next => exact .stay _

variable {C} in
/-- No frame changes whose session it is, its nonce or its certificate. -/
theorem HubMove.frame {authorized : List Pubkey} {sign : Bytes → Except Error Bytes}
    {s s' : HubSession} {f : Frame} (h : HubMove C authorized sign s f s') :
    s'.identity = s.identity ∧ s'.certFp = s.certFp ∧ s'.hubNonce = s.hubNonce := by
  cases h <;> exact ⟨rfl, rfl, rfl⟩

variable {C} in
/-- What a session has signed stays signed. -/
theorem HubMove.signed {authorized : List Pubkey} {sign : Bytes → Except Error Bytes}
    {h h' : HubSession} {f : Frame} (hmove : HubMove C authorized sign h f h')
    (hfresh : h.phase = .awaitHello → h.proof = none) {t : Bytes}
    (ht : h.signedTranscript = some t) : h'.signedTranscript = some t := by
  cases hmove with
  | stay => exact ht
  | fail => exact ht
  | prove op hphase => simp [HubSession.signedTranscript, hfresh hphase] at ht
  | register => exact ht

/-- Every way a frame moves a peer session. -/
inductive PeerMove (peerNonce : Array32) (sign : Bytes → Except Error Bytes)
    (s : PeerSession) : Frame → PeerSession → Prop where
  | stay (f : Frame) : PeerMove peerNonce sign s f s
  | fail (f : Frame) (e : Error) : s.phase = .awaitHello ∨ s.phase = .awaitProof →
      PeerMove peerNonce sign s f (s.fail e)
  | hello {hubPubkey : Pubkey} {hubNonce : Array32} {advertisedFp : Bytes}
      (vaultId : Str) (vaultName : Option Str) : s.phase = .awaitHello →
      (hubDisabledBinding advertisedFp = true ∨ advertisedFp = s.expectedCertFp.val) →
      PeerMove peerNonce sign s
        (.helloHub vaultId hubPubkey.val hubNonce.val advertisedFp vaultName)
        {s with
          phase := .awaitProof
          hello := some ⟨vaultId, hubPubkey, hubNonce, advertisedFp, vaultName, peerNonce⟩}
  | prove {h : HubHello} {hubSig sig : Bytes} : s.phase = .awaitProof → s.hello = some h →
      h.hubPubkey.verify C (s.transcript h) hubSig = true →
      sign (s.transcript h) = .ok sig →
      PeerMove peerNonce sign s (.proofHub hubSig) {s with phase := .done}

variable {C} in
theorem PeerMove.signed {peerNonce : Array32} {sign : Bytes → Except Error Bytes}
    {p p' : PeerSession} {f : Frame} (hmove : PeerMove C peerNonce sign p f p') {t : Bytes}
    (ht : p.signedTranscript = some t) :
    p'.identity = p.identity ∧ p'.signedTranscript = some t := by
  have hdone : p.phase = .done := by
    by_contra hne
    simp [PeerSession.signedTranscript, hne] at ht
  cases hmove with
  | stay => exact ⟨rfl, ht⟩
  | fail e hrun hphase => obtain hphase | hphase := hphase <;> simp [hphase] at hdone
  | hello _ _ hphase => simp [hphase] at hdone
  | prove hphase => simp [hphase] at hdone

theorem runHandshake_move (peerNonce : Array32) (sign : Bytes → Except Error Bytes)
    (s : PeerSession) (f : Frame) :
    PeerMove C peerNonce sign s f (runHandshake C peerNonce sign s f).1 := by
  unfold runHandshake
  split
  next hphase =>
    cases f with
    | helloHub vaultId keyBytes nonceBytes fp vaultName =>
      simp only [runHandshakeHello, Pubkey.fromBytes]
      cases hkey : Array32.ofBytes? keyBytes with
      | none => exact .fail _ _ (.inl hphase)
      | some hubPubkey =>
        cases hnonce : Array32.ofBytes? nonceBytes with
        | none => exact .fail _ _ (.inl hphase)
        | some hubNonce =>
          rw [Array32.ofBytes?_eq_some.mp hkey, Array32.ofBytes?_eq_some.mp hnonce]
          dsimp only
          split
          next => exact .fail _ _ (.inl hphase)
          next hfp =>
            refine .hello vaultId vaultName hphase ?_
            by_cases hzero : hubDisabledBinding fp = true
            · exact .inl hzero
            · exact .inr (by simpa [hzero] using hfp)
    | _ => exact .fail _ _ (.inl hphase)
  next h hphase hhello =>
    cases f with
    | proofHub sig =>
      simp only [runHandshakeProof]
      split
      next hverify =>
        cases hsig : sign (s.transcript h) with
        | error e => exact .fail _ _ (.inr hphase)
        | ok peerSig => exact .prove hphase hhello hverify hsig
      next => exact .fail _ _ (.inr hphase)
    | _ => exact .fail _ _ (.inr hphase)
  next => exact .stay _

/-! ### The handshake of two honest ends, frame by frame -/

theorem runHandshake_helloHub (peerNonce : Array32) (sign : Bytes → Except Error Bytes)
    {p : PeerSession} (h : HubSession) (hphase : p.phase = .awaitHello)
    (hfp : h.certFp = Array32.fill 0 ∨ h.certFp = p.expectedCertFp) :
    runHandshake C peerNonce sign p h.helloHub =
      ({p with
          phase := .awaitProof
          hello := some ⟨h.vaultId, h.identity, h.hubNonce, h.certFp.val, h.vaultName, peerNonce⟩},
        [.helloPeer p.identity.val peerNonce.val .join]) := by
  have hpass : (!hubDisabledBinding h.certFp.val && h.certFp.val != p.expectedCertFp.val) =
      false := by
    obtain hzero | hobs := hfp
    · rw [hzero]
      rfl
    · simp [hobs]
  simp [runHandshake, hphase, HubSession.helloHub, runHandshakeHello, Pubkey.fromBytes_val,
    Array32.ofBytes?_val, hpass]

theorem handlePeer_helloPeer {authorized : List Pubkey} {sign : Bytes → Except Error Bytes}
    {h : HubSession} {peer : Pubkey} {peerNonce : Array32} {sig : Bytes} (op : HelloOp)
    (hphase : h.phase = .awaitHello) (hauth : peer ∈ authorized)
    (hsign : sign (h.transcript peer peerNonce) = .ok sig) :
    handlePeer C authorized sign h (.helloPeer peer.val peerNonce.val op) =
      ({h with phase := .awaitProof, proof := some (peer, peerNonce)}, [.proofHub sig]) := by
  simp [handlePeer, hphase, handleHelloPeer, Pubkey.fromBytes_val, Array32.ofBytes?_val, hauth,
    hsign]

theorem runHandshake_proofHub (peerNonce : Array32) {sign : Bytes → Except Error Bytes}
    {p : PeerSession} {hello : HubHello} {hubSig sig : Bytes} (hphase : p.phase = .awaitProof)
    (hhello : p.hello = some hello)
    (hverify : hello.hubPubkey.verify C (p.transcript hello) hubSig = true)
    (hsign : sign (p.transcript hello) = .ok sig) :
    runHandshake C peerNonce sign p (.proofHub hubSig) =
      ({p with phase := .done}, [.proofPeer sig]) := by
  simp [runHandshake, hphase, hhello, runHandshakeProof, hverify, hsign]

theorem handlePeer_proofPeer (authorized : List Pubkey) (sign : Bytes → Except Error Bytes)
    {h : HubSession} {peer : Pubkey} {peerNonce : Array32} {sig : Bytes}
    (hphase : h.phase = .awaitProof) (hproof : h.proof = some (peer, peerNonce))
    (hverify : peer.verify C (h.transcript peer peerNonce) sig = true) :
    handlePeer C authorized sign h (.proofPeer sig) = ({h with phase := .registered}, []) := by
  simp [handlePeer, hphase, hproof, handleProofPeer, hverify]

end AgentSync.Net
