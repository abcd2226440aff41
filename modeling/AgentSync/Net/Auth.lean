import AgentSync.Basic

/-! Keys, signatures and the handshake transcript.

Both ends of a handshake sign the same bytes: a domain tag, the two nonces, the
TLS certificate fingerprint and the two identity keys. Every field but the
fingerprint has a fixed width, so two transcripts with fingerprints of one length
agree only field by field (`buildTranscript_injective`). -/
namespace AgentSync.Net

/-! ### Keys and signatures -/

/-- An ed25519 public key. -/
abbrev Pubkey := Array32

def pubkeyLen : Nat := 32
def signatureLen : Nat := 64

/-- `Pubkey::from_bytes`. -/
def Pubkey.fromBytes (bytes : Bytes) : Except Error Pubkey :=
  match Array32.ofBytes? bytes with
  | some key => .ok key
  | none => .error (.auth (txt "pubkey wrong length: got " ++ (toString bytes.length).toList ++
      txt " bytes, want " ++ (toString pubkeyLen).toList))

theorem Pubkey.fromBytes_val (key : Pubkey) : Pubkey.fromBytes key.val = .ok key := by
  simp [Pubkey.fromBytes, Array32.ofBytes?_val]

/-- The ed25519 verifier and the SHA-256 fingerprint of a key's SSH encoding, which
come from other crates. -/
structure Crypto where
  /-- `VerifyingKey::from_bytes` accepts the key. -/
  verifyingKey : Pubkey → Bool
  /-- `VerifyingKey::verify` accepts the 64-byte signature on the message. -/
  verify : Pubkey → Bytes → Bytes → Bool
  /-- `Pubkey::fingerprint_sha256`. -/
  fingerprint : Pubkey → Str

/-- `Pubkey::verify`. -/
def Pubkey.verify (C : Crypto) (key : Pubkey) (message signature : Bytes) : Bool :=
  if signature.length != signatureLen then false
  else if !C.verifyingKey key then false
  else C.verify key message signature

/-- The signatures there are, as a signature scheme. -/
def tableCrypto (signed : List (Pubkey × Bytes × Bytes)) : Crypto where
  verifyingKey := fun _ => true
  verify := fun k t sig => signed.contains (k, t, sig)
  fingerprint := fun _ => []

theorem tableCrypto_verify {signed : List (Pubkey × Bytes × Bytes)} {k : Pubkey}
    {t sig : Bytes} : Pubkey.verify (tableCrypto signed) k t sig = true ↔
      sig.length = signatureLen ∧ (k, t, sig) ∈ signed := by
  simp [Pubkey.verify, tableCrypto]

/-! ### The transcript -/

def handshakeDomain : Bytes := (txt "agentsync-auth-v1").map fun c => UInt8.ofNat c.toNat

/-- `build_transcript`: the bytes both sides sign. -/
def buildTranscript (hubNonce peerNonce : Array32) (tlsCertFingerprint : Bytes)
    (hubPubkey peerPubkey : Pubkey) : Bytes :=
  handshakeDomain ++ hubNonce.val ++ peerNonce.val ++ tlsCertFingerprint ++ hubPubkey.val ++
    peerPubkey.val

private theorem array32_append_inj {a b : Array32} {s t : Bytes} (h : a.val ++ s = b.val ++ t) :
    a = b ∧ s = t := by
  obtain ⟨hab, hst⟩ := List.append_inj h (a.property.trans b.property.symm)
  exact ⟨Subtype.ext hab, hst⟩

/-- Transcripts over fingerprints of one length are equal only when every field is. -/
theorem buildTranscript_injective {hn hn' pn pn' : Array32} {fp fp' : Bytes}
    {hk hk' pk pk' : Pubkey} (hlen : fp.length = fp'.length)
    (h : buildTranscript hn pn fp hk pk = buildTranscript hn' pn' fp' hk' pk') :
    hn = hn' ∧ pn = pn' ∧ fp = fp' ∧ hk = hk' ∧ pk = pk' := by
  simp only [buildTranscript, List.append_assoc] at h
  obtain ⟨hhn, h⟩ := array32_append_inj (List.append_cancel_left h)
  obtain ⟨hpn, h⟩ := array32_append_inj h
  obtain ⟨hfp, h⟩ := List.append_inj h hlen
  obtain ⟨hhk, h⟩ := array32_append_inj h
  exact ⟨hhn, hpn, hfp, hhk, Subtype.ext h⟩

end AgentSync.Net
