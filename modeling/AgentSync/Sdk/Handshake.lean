import AgentSync.Net.Handshake

/-! The handshake of a TypeScript vault, beside the Rust peer's.

`runHandshake` checks the vault id and the pinned key before anything else and leaves the
lengths to the crate it calls; `connect` checks lengths first and the pin last. The two still
refuse the same frames, but for the certificate fingerprint: the SDK skips its check when either
side of it is empty, and `run_handshake` when the hub advertises zeros. -/
namespace AgentSync.Sdk

open Net

/-- The tag `t` of a decoded frame. -/
def frameTag : Frame → Str
  | .helloHub .. => txt "hello_hub"
  | .helloPeer .. => txt "hello_peer"
  | .proofHub _ => txt "proof_hub"
  | .proofPeer _ => txt "proof_peer"
  | .sync _ => txt "sync"
  | .blobFetch _ => txt "blob_fetch"
  | .blobPush .. => txt "blob_push"
  | .ping _ => txt "ping"
  | .pong _ => txt "pong"
  | .error _ => txt "error"

/-- `buildTranscript` of the wasm crate. -/
def buildTranscript (hubNonce peerNonce tlsCertFingerprint hubPubkey peerPubkey : Bytes) :
    Except Str Bytes :=
  match Array32.ofBytes? hubNonce with
  | none => .error (txt "hub_nonce must be 32 bytes")
  | some hubN =>
    match Array32.ofBytes? peerNonce with
    | none => .error (txt "peer_nonce must be 32 bytes")
    | some peerN =>
      match Array32.ofBytes? hubPubkey with
      | none => .error (txt "hub_pubkey must be 32 bytes")
      | some hubPk =>
        match Array32.ofBytes? peerPubkey with
        | none => .error (txt "peer_pubkey must be 32 bytes")
        | some peerPk => .ok (Net.buildTranscript hubN peerN tlsCertFingerprint hubPk peerPk)

/-- What `runHandshake` reads of its vault. -/
structure HandshakeOptions where
  vaultId : Str
  hubPubkey : Option Bytes
  identity : Pubkey
  deriving DecidableEq, Repr

/-- The checks of `runHandshake` on `HelloHub`. `channelBinding` is the transport's. -/
def checkHelloHub (opts : HandshakeOptions) (channelBinding : Option Bytes) (vaultId : Str)
    (hubIdentityPubkey tlsCertFingerprint : Bytes) : Except Str Unit :=
  if vaultId != opts.vaultId then
    .error (txt "vault_id mismatch: hub=" ++ vaultId ++ txt " local=" ++ opts.vaultId)
  else if opts.hubPubkey.any (· != hubIdentityPubkey) then
    .error (txt "hub pubkey does not match pinned value")
  else if tlsCertFingerprint.length > 0 && (channelBinding.getD []).length > 0 &&
      tlsCertFingerprint != channelBinding.getD [] then
    .error (txt "tls cert fingerprint mismatch (channel binding)")
  else .ok ()

/-- `runHandshake` on the frame that answers `HelloPeer`: the transcript it signs. -/
def answerProofHub (C : Crypto) (opts : HandshakeOptions) (peerNonce : Array32)
    (sign : Bytes → Except Error Bytes) (hubIdentityPubkey hubNonce tlsCertFingerprint : Bytes) :
    Frame → Except Str Bytes
  | .error message => .error (txt "hub rejected handshake: " ++ message)
  | .proofHub sig =>
    match buildTranscript hubNonce peerNonce.val tlsCertFingerprint hubIdentityPubkey
        opts.identity.val with
    | .error e => .error e
    | .ok transcript =>
      match Pubkey.fromBytes hubIdentityPubkey with
      | .error e => .error e.text
      | .ok hubPk =>
        if hubPk.verify C transcript sig then
          match sign transcript with
          | .error e => .error e.text
          | .ok _ => .ok transcript
        else .error (txt "hub signature verification failed")
  | frame => .error (txt "expected proof_hub, got " ++ frameTag frame)

/-- `runHandshake` up to `loadSyncState`: the transcript it has signed, if it goes through. The
connection closes after `frames`. -/
def runHandshake (C : Crypto) (opts : HandshakeOptions) (channelBinding : Option Bytes)
    (peerNonce : Array32) (sign : Bytes → Except Error Bytes) : List Frame → Except Str Bytes
  | [] => .error (txt "connection closed during handshake")
  | .helloHub vaultId hubIdentityPubkey hubNonce tlsCertFingerprint _ :: rest =>
    match checkHelloHub opts channelBinding vaultId hubIdentityPubkey tlsCertFingerprint with
    | .error e => .error e
    | .ok () =>
      match rest with
      | [] => .error (txt "connection closed during handshake")
      | proofHub :: _ =>
        answerProofHub C opts peerNonce sign hubIdentityPubkey hubNonce tlsCertFingerprint proofHub
  | frame :: _ => .error (txt "expected hello_hub, got " ++ frameTag frame)

/-! ### The two handshakes side by side -/

variable (C : Crypto) (vaultId : Str) (pinned : Option Pubkey) (identity : Pubkey)
  (peerNonce : Array32) (sign : Bytes → Except Error Bytes)

/-- Every check on the two frames but that of the fingerprint. -/
def valid (id : Str) (hubPk : Pubkey) (transcript sig : Bytes) : Bool :=
  id == vaultId && pinned.all (· == hubPk) && hubPk.verify C transcript sig &&
    (sign transcript).isOk

/-- The fingerprint that is advertised and the transcript to sign, when the frames are valid. -/
def accepted : List Frame → Option (Bytes × Bytes)
  | .helloHub id key nonce fp _ :: .proofHub sig :: _ =>
    (Array32.ofBytes? key).bind fun hubPk => (Array32.ofBytes? nonce).bind fun hubN =>
      if valid C vaultId pinned sign id hubPk (Net.buildTranscript hubN peerNonce fp hubPk identity)
          sig then
        some (fp, Net.buildTranscript hubN peerNonce fp hubPk identity)
      else none
  | _ => none

theorem accepted_eq_some {id : Str} {key nonce fp : Bytes} {name : Option Str} {rest : List Frame}
    {x : Bytes × Bytes} (h : accepted C vaultId pinned identity peerNonce sign
      (.helloHub id key nonce fp name :: rest) = some x) :
    x.1 = fp ∧ (Array32.ofBytes? key).isSome ∧ (Array32.ofBytes? nonce).isSome := by
  cases rest with
  | nil => cases h
  | cons proof rest =>
    cases proof with
    | proofHub sig =>
      simp only [accepted, Option.bind_eq_some_iff, Option.ite_none_right_eq_some,
        Option.some.injEq] at h
      obtain ⟨hubPk, hkey, hubN, hnonce, -, rfl⟩ := h
      exact ⟨rfl, by simp [hkey], by simp [hnonce]⟩
    | _ => cases h

/-- The advertised fingerprints that both ends judge alike. -/
def BoundAlike (fp : Bytes) : Option Array32 → Prop
  | none => fp = (Array32.fill 0).val
  | some observed => fp = observed.val ∨ fp ≠ [] ∧ fp ≠ (Array32.fill 0).val

theorem any_ne {α : Type} [BEq α] (o : Option α) (a : α) :
    o.any (· != a) = !o.all (· == a) := by
  cases o <;> simp [bne]

theorem ne_nil (a : Array32) : a.val ≠ [] := List.ne_nil_of_length_pos (by simp [a.property])

theorem hubDisabledBinding_iff {fp : Bytes} :
    hubDisabledBinding fp = true ↔ fp = (Array32.fill 0).val := by
  unfold Array32.fill
  rw [List.eq_replicate_iff]
  simp [hubDisabledBinding]

/-- A session that has returned reads no more frames. -/
theorem foldl_returned {s : PeerSession} (hs : s.phase = .done ∨ ∃ e, s.phase = .ended e)
    (frames : List Frame) :
    frames.foldl (fun s f => (Net.runHandshake C peerNonce sign s f).1) s = s := by
  induction frames with
  | nil => rfl
  | cons f rest ih =>
    have hstay : (Net.runHandshake C peerNonce sign s f).1 = s := by
      rcases hs with hs | ⟨e, hs⟩ <;> simp [Net.runHandshake, hs]
    rw [List.foldl_cons, hstay]
    exact ih

theorem answerProofHub_toOption (opts : HandshakeOptions) (key nonce fp sig : Bytes) :
    (answerProofHub C opts peerNonce sign key nonce fp (.proofHub sig)).toOption =
      (Array32.ofBytes? key).bind fun hubPk => (Array32.ofBytes? nonce).bind fun hubN =>
        if Pubkey.verify C hubPk (Net.buildTranscript hubN peerNonce fp hubPk opts.identity) sig ∧
            (sign (Net.buildTranscript hubN peerNonce fp hubPk opts.identity)).isOk then
          some (Net.buildTranscript hubN peerNonce fp hubPk opts.identity)
        else none := by
  simp only [answerProofHub, buildTranscript, Pubkey.fromBytes, Array32.ofBytes?_val]
  cases hkey : Array32.ofBytes? key with
  | none => cases Array32.ofBytes? nonce <;> rfl
  | some hubPk =>
    cases hnonce : Array32.ofBytes? nonce with
    | none => rfl
    | some hubN =>
      simp only [Option.bind_some]
      cases Pubkey.verify C hubPk _ sig with
      | false => rfl
      | true => cases hsign : sign _ <;> simp [Except.toOption, Except.isOk, Except.toBool]

/-- The SDK looks at a fingerprint only beside one that it has observed. -/
def Mismatched (channelBinding fp : Bytes) : Prop :=
  fp ≠ [] ∧ channelBinding ≠ [] ∧ fp ≠ channelBinding

instance (channelBinding fp : Bytes) : Decidable (Mismatched channelBinding fp) :=
  inferInstanceAs (Decidable (_ ∧ _ ∧ _))

theorem checkHelloHub_toOption {opts : HandshakeOptions} {channelBinding : Option Bytes} {id : Str}
    {key fp : Bytes} : (checkHelloHub opts channelBinding id key fp).toOption =
      if id = opts.vaultId ∧ opts.hubPubkey.all (· == key) = true ∧
          ¬ Mismatched (channelBinding.getD []) fp then some () else none := by
  have hmismatched : (decide (fp.length > 0) && decide ((channelBinding.getD []).length > 0) &&
      fp != channelBinding.getD []) = decide (Mismatched (channelBinding.getD []) fp) := by
    rw [Bool.eq_iff_iff, decide_eq_true_iff, Mismatched]
    simp [List.length_pos_iff, and_assoc]
  simp only [checkHelloHub, any_ne, hmismatched]
  by_cases hid : id = opts.vaultId
  · cases opts.hubPubkey.all (· == key) with
    | false => simp [hid, Except.toOption]
    | true => by_cases hfp : Mismatched (channelBinding.getD []) fp <;> simp [hid, hfp, Except.toOption]
  · simp [hid, Except.toOption]

theorem runHandshake_helloHub (opts : HandshakeOptions) (channelBinding : Option Bytes) (id : Str)
    (key nonce fp : Bytes) (name : Option Str) (proof : Frame) (rest : List Frame) :
    (runHandshake C opts channelBinding peerNonce sign
      (.helloHub id key nonce fp name :: proof :: rest)).toOption =
    (checkHelloHub opts channelBinding id key fp).toOption.bind fun _ =>
      (answerProofHub C opts peerNonce sign key nonce fp proof).toOption := by
  simp only [runHandshake]
  cases checkHelloHub opts channelBinding id key fp <;> rfl

theorem runHandshake_toOption (channelBinding : Option Bytes) (frames : List Frame) :
    (runHandshake C ⟨vaultId, pinned.map (·.val), identity⟩ channelBinding peerNonce sign
      frames).toOption =
    (accepted C vaultId pinned identity peerNonce sign frames).bind fun x =>
      if Mismatched (channelBinding.getD []) x.1 then none else some x.2 := by
  cases frames with
  | nil => rfl
  | cons hello rest =>
    cases hello with
    | helloHub id key nonce fp name =>
      cases rest with
      | nil =>
        simp only [runHandshake]
        cases checkHelloHub ⟨vaultId, pinned.map (·.val), identity⟩ channelBinding id key fp <;> rfl
      | cons proof rest =>
        rw [runHandshake_helloHub, checkHelloHub_toOption]
        cases proof with
        | proofHub sig =>
          rw [answerProofHub_toOption, accepted]
          cases hkey : Array32.ofBytes? key with
          | none => simp
          | some hubPk =>
            have hpin : (pinned.map (·.val)).all (· == key) = pinned.all (· == hubPk) := by
              rw [Array32.ofBytes?_eq_some.mp hkey]
              cases pinned <;> simp
            cases hnonce : Array32.ofBytes? nonce with
            | none => simp
            | some hubN =>
              simp only [hpin, Option.bind_some, valid]
              ext t
              simp [Option.bind_eq_some_iff, and_assoc]
              grind
        | _ => simp [answerProofHub, accepted, Except.toOption]
    | _ => rfl

theorem connect_ended {sshString : Pubkey → Str} {certFp : Array32} {hello : Frame}
    (h : ∃ e, (Net.runHandshake C peerNonce sign ⟨identity, certFp, .awaitHello, none⟩
      hello).1.phase = .ended e) (rest : List Frame) :
    (connect C sshString (some vaultId) pinned identity certFp peerNonce sign
      (hello :: rest)).toOption = none := by
  obtain ⟨e, he⟩ := h
  simp [connect, foldl_returned C peerNonce sign (.inr ⟨e, he⟩), he, Except.toOption]

/-- A well-formed `HelloHub` whose fingerprint is accepted leads on to `ProofHub`. -/
theorem runHandshake_awaits {certFp : Array32} {key nonce fp : Bytes} {hubPk hubN : Array32}
    (hkey : Array32.ofBytes? key = some hubPk) (hnonce : Array32.ofBytes? nonce = some hubN)
    (hfp : fp = (Array32.fill 0).val ∨ fp = certFp.val) (id : Str) (name : Option Str) :
    (Net.runHandshake C peerNonce sign ⟨identity, certFp, .awaitHello, none⟩
      (.helloHub id key nonce fp name)).1 =
    ⟨identity, certFp, .awaitProof, some ⟨id, hubPk, hubN, fp, name, peerNonce⟩⟩ := by
  have hpass : (!hubDisabledBinding fp && fp != certFp.val) = false := by
    rcases hfp with hfp | hfp
    · simp [hubDisabledBinding_iff.mpr hfp]
    · simp [hfp]
  simp [Net.runHandshake, runHandshakeHello, Pubkey.fromBytes, hkey, hnonce, hpass]

/-- What `run_handshake` leaves after the frame that answers `HelloPeer`. -/
theorem runHandshake_answered (certFp : Array32) (h : HubHello) (f : Frame) {t : Bytes}
    (ht : Net.buildTranscript h.hubNonce h.peerNonce h.advertisedFp h.hubPubkey identity = t) :
    ∃ phase, (Net.runHandshake C h.peerNonce sign ⟨identity, certFp, .awaitProof, some h⟩ f).1 =
        ⟨identity, certFp, phase, some h⟩ ∧
      (phase = .done ∧ (∃ sig, f = .proofHub sig ∧ Pubkey.verify C h.hubPubkey t sig = true ∧
          (sign t).isOk = true) ∨
        (∃ e, phase = .ended e) ∧ ∀ sig, f = .proofHub sig →
          ¬ (Pubkey.verify C h.hubPubkey t sig = true ∧ (sign t).isOk = true)) := by
  cases f with
  | proofHub sig =>
    simp only [Net.runHandshake, runHandshakeProof, PeerSession.transcript, ht]
    cases hverify : Pubkey.verify C h.hubPubkey t sig with
    | false => exact ⟨_, rfl, .inr ⟨⟨_, rfl⟩, fun sig' hsig => by cases hsig; simp [hverify]⟩⟩
    | true =>
      cases hsign : sign t with
      | error e => exact ⟨_, rfl, .inr ⟨⟨_, rfl⟩, fun _ _ h => by cases h.2⟩⟩
      | ok peerSig => exact ⟨_, rfl, .inl ⟨rfl, sig, rfl, hverify, rfl⟩⟩
  | _ => exact ⟨_, rfl, .inr ⟨⟨_, rfl⟩, fun _ h => by cases h⟩⟩

/-- What follows an accepted `HelloHub`. -/
theorem connect_awaiting {sshString : Pubkey → Str} {certFp : Array32} {key nonce fp : Bytes}
    {hubPk hubN : Array32} (hkey : Array32.ofBytes? key = some hubPk)
    (hnonce : Array32.ofBytes? nonce = some hubN)
    (hfp : fp = (Array32.fill 0).val ∨ fp = certFp.val) (id : Str) (name : Option Str)
    (rest : List Frame) :
    (connect C sshString (some vaultId) pinned identity certFp peerNonce sign
        (.helloHub id key nonce fp name :: rest)).toOption =
      (accepted C vaultId pinned identity peerNonce sign
        (.helloHub id key nonce fp name :: rest)).map Prod.snd := by
  have hstep := runHandshake_awaits C identity peerNonce sign hkey hnonce hfp id name
  cases rest with
  | nil => simp [connect, hstep, accepted, Except.toOption]
  | cons proof rest =>
    obtain ⟨phase, hrun, hphase⟩ := runHandshake_answered C identity sign certFp
      ⟨id, hubPk, hubN, fp, name, peerNonce⟩ proof rfl
    simp only [connect, List.foldl_cons, hstep, hrun]
    rcases hphase with ⟨rfl, sig, rfl, hverify, hsign⟩ | ⟨⟨e, rfl⟩, hbad⟩
    · rw [foldl_returned C _ _ (.inl rfl)]
      simp only [accepted, hkey, hnonce, Option.bind_some, valid, hverify, hsign,
        PeerSession.transcript, Option.any_some, bne_iff_ne, ne_eq,
        Bool.and_eq_true, beq_iff_eq, any_ne]
      by_cases hid : vaultId = id
      · cases pinned.all (· == hubPk) <;> simp [hid, Except.toOption]
      · simp [hid, Ne.symm hid, Except.toOption]
    · rw [foldl_returned C _ _ (.inr ⟨e, rfl⟩)]
      cases proof with
      | proofHub sig =>
        have hinvalid : valid C vaultId pinned sign id hubPk
            (Net.buildTranscript hubN peerNonce fp hubPk identity) sig = false := by
          have := hbad sig rfl
          simp only [valid, Bool.eq_false_iff, ne_eq, Bool.and_eq_true]
          grind
        simp [accepted, hkey, hnonce, hinvalid, Except.toOption]
      | _ => rfl

theorem connect_toOption (sshString : Pubkey → Str) (certFp : Array32) (frames : List Frame) :
    (connect C sshString (some vaultId) pinned identity certFp peerNonce sign frames).toOption =
    (accepted C vaultId pinned identity peerNonce sign frames).bind fun x =>
      if x.1 = (Array32.fill 0).val ∨ x.1 = certFp.val then some x.2 else none := by
  cases frames with
  | nil => rfl
  | cons hello rest =>
    cases hello with
    | helloHub id key nonce fp name =>
      have hbind : (accepted C vaultId pinned identity peerNonce sign
            (.helloHub id key nonce fp name :: rest)).bind (fun x =>
              if x.1 = (Array32.fill 0).val ∨ x.1 = certFp.val then some x.2 else none) =
          if fp = (Array32.fill 0).val ∨ fp = certFp.val then
            (accepted C vaultId pinned identity peerNonce sign
              (.helloHub id key nonce fp name :: rest)).map Prod.snd
          else none := by
        cases h : accepted C vaultId pinned identity peerNonce sign
          (.helloHub id key nonce fp name :: rest) with
        | none => simp
        | some x => simp [(accepted_eq_some _ _ _ _ _ _ h).1]
      rw [hbind]
      cases hkey : Array32.ofBytes? key with
      | none =>
        have hrefused : accepted C vaultId pinned identity peerNonce sign
            (.helloHub id key nonce fp name :: rest) = none :=
          Option.eq_none_iff_forall_ne_some.mpr fun x hx => by
            simpa [hkey] using (accepted_eq_some _ _ _ _ _ _ hx).2.1
        rw [hrefused, Option.map_none, ite_self]
        refine connect_ended _ _ _ _ _ _ ?_ rest
        simp only [Net.runHandshake, runHandshakeHello, Pubkey.fromBytes, hkey]
        exact ⟨_, rfl⟩
      | some hubPk =>
        cases hnonce : Array32.ofBytes? nonce with
        | none =>
          have hrefused : accepted C vaultId pinned identity peerNonce sign
              (.helloHub id key nonce fp name :: rest) = none :=
            Option.eq_none_iff_forall_ne_some.mpr fun x hx => by
              simpa [hnonce] using (accepted_eq_some _ _ _ _ _ _ hx).2.2
          rw [hrefused, Option.map_none, ite_self]
          refine connect_ended _ _ _ _ _ _ ?_ rest
          simp only [Net.runHandshake, runHandshakeHello, Pubkey.fromBytes, hkey, hnonce]
          exact ⟨_, rfl⟩
        | some hubN =>
          by_cases hfp : fp = (Array32.fill 0).val ∨ fp = certFp.val
          · rw [if_pos hfp]
            exact connect_awaiting C vaultId pinned identity peerNonce sign hkey hnonce hfp id name
              rest
          · rw [if_neg hfp]
            have hfail : (!hubDisabledBinding fp && fp != certFp.val) = true := by
              rw [not_or, ← hubDisabledBinding_iff] at hfp
              simpa using hfp
            refine connect_ended _ _ _ _ _ _ ?_ rest
            simp only [Net.runHandshake, runHandshakeHello, Pubkey.fromBytes, hkey, hnonce, hfail]
            exact ⟨_, rfl⟩
    | _ => exact connect_ended _ _ _ _ _ _ ⟨_, rfl⟩ rest

/-- **The Rust and the TypeScript peer both refuse, or both accept and sign the same transcript,
exactly when the advertised fingerprint is one that both judge alike, or something else is wrong
with the frames.** -/
theorem agree_iff_bound (sshString : Pubkey → Str) (observed : Option Array32)
    (frames : List Frame) :
    (connect C sshString (some vaultId) pinned identity (observed.getD (.fill 0)) peerNonce sign
        frames).toOption =
      (runHandshake C ⟨vaultId, pinned.map (·.val), identity⟩ (observed.map (·.val)) peerNonce
        sign frames).toOption ↔
    ∀ x ∈ accepted C vaultId pinned identity peerNonce sign frames, BoundAlike x.1 observed := by
  rw [connect_toOption, runHandshake_toOption]
  cases accepted C vaultId pinned identity peerNonce sign frames with
  | none => simp
  | some x =>
    obtain ⟨fp, t⟩ := x
    cases observed with
    | none => simp [BoundAlike, Mismatched]
    | some o =>
      simp only [Option.bind_some, Option.map_some, Option.getD_some, Option.mem_some_iff,
        forall_eq', BoundAlike, Mismatched, ne_nil o, ne_eq, not_false_eq_true, true_and]
      by_cases hsame : fp = o.val
      · simp [hsame]
      · by_cases hempty : fp = []
        · simp [hempty, (ne_nil _).symm]
        · by_cases hzero : fp = (Array32.fill 0).val <;> simp_all

/-- The signature of a hub that advertises no fingerprint. -/
private abbrev unbound : Crypto :=
  tableCrypto [(.fill 1, Net.buildTranscript (.fill 2) (.fill 3) [] (.fill 1) (.fill 4),
    List.replicate 64 0)]

/-- A hub reached over TLS that leaves its fingerprint out: the SDK accepts what the Rust peer
refuses. -/
theorem agree_iff_bound_empty :
    ¬ ∀ (C : Crypto) (vaultId : Str) (pinned : Option Pubkey) (identity : Pubkey)
      (peerNonce : Array32) (sign : Bytes → Except Error Bytes) (sshString : Pubkey → Str)
      (observed : Option Array32) (frames : List Frame),
      (connect C sshString (some vaultId) pinned identity (observed.getD (.fill 0)) peerNonce sign
          frames).toOption =
        (runHandshake C ⟨vaultId, pinned.map (·.val), identity⟩ (observed.map (·.val)) peerNonce
          sign frames).toOption := by
  intro hagree
  have h := hagree unbound (txt "vault") (some (.fill 1)) (.fill 4) (.fill 3)
    (fun _ => .ok (List.replicate 64 0)) (fun _ => []) (some (.fill 7))
    [.helloHub (txt "vault") (List.replicate 32 1) (List.replicate 32 2) [] none,
      .proofHub (List.replicate 64 0)]
  revert h
  decide +kernel

end AgentSync.Sdk
