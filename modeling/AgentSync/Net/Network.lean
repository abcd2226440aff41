import Mathlib.Data.List.Nodup
import AgentSync.Machine
import AgentSync.Net.Handshake

/-! Handshakes on a hostile network.

Any number of hub and peer sessions run at once and the adversary delivers every
frame: it may drop, reorder, alter and mix the frames of different sessions, open
connections of its own and terminate the TLS of honest ones. It does not forge: a
signature it delivers verifies only for a key it holds or for a transcript the
key's owner has signed (`Derivable`). What a session has signed is read off the
session itself (`Network.Signed`), so there is no separate log to keep in step.

`Evidence` is the invariant: whatever a session has accepted as proof is either
the adversary's own key or a transcript some honest session signed. Transcripts
are injective, so the evidence names the honest session, and the two laws about
the handshake are read off it. -/
namespace AgentSync.Net

/-- Every session there has been, and the `authorized_keys` of each vault that listens,
by the vault's identity key. -/
structure Network where
  authorized : Pubkey → List Pubkey
  hubs : List HubSession
  peers : List PeerSession

namespace Network

/-- A vault fresh from `Vault::create`: its own key is seeded into `authorized_keys`. -/
def created (vault : Pubkey) : Network where
  authorized := fun v => if v = vault then [vault] else []
  hubs := []
  peers := []

inductive Act where
  /-- The vault's `authorized_keys` file is edited. -/
  | edit (vault : Pubkey) (keys : List Pubkey)
  /-- A hub accepts a connection and sends `HelloHub`. -/
  | accept (vaultId : Str) (vaultName : Option Str) (hub : Pubkey) (certFp hubNonce : Array32)
  /-- A peer connects and sees the certificate with this fingerprint. -/
  | dial (peer : Pubkey) (observedFp : Array32)
  /-- A frame reaches the hub session. -/
  | toHub (i : Nat) (f : Frame) (sign : Bytes → Except Error Bytes)
  /-- A frame reaches the peer session; the nonce is the one it draws on `HelloHub`. -/
  | toPeer (i : Nat) (f : Frame) (peerNonce : Array32) (sign : Bytes → Except Error Bytes)

section
variable (C : Crypto) (adv : Pubkey → Prop)

def step (s : Network) : Act → Option Network
  | .edit vault keys => some {s with authorized := Function.update s.authorized vault keys}
  | .accept vaultId vaultName hub certFp hubNonce =>
    some {s with
      hubs := s.hubs ++ [⟨vaultId, vaultName, hub, certFp, hubNonce, .awaitHello, none⟩]}
  | .dial peer observedFp =>
    some {s with peers := s.peers ++ [⟨peer, observedFp, .awaitHello, none⟩]}
  | .toHub i f sign => (s.hubs[i]?).map fun h =>
    {s with hubs := s.hubs.set i (handlePeer C (s.authorized h.identity) sign h f).1}
  | .toPeer i f peerNonce sign => (s.peers[i]?).map fun p =>
    {s with peers := s.peers.set i (runHandshake C peerNonce sign p f).1}

/-! ### What the adversary can do -/

/-- Some session of the key's owner has signed the transcript, in either role. -/
def Signed (s : Network) (k : Pubkey) (t : Bytes) : Prop :=
  (∃ h ∈ s.hubs, h.identity = k ∧ h.signedTranscript = some t) ∨
    ∃ p ∈ s.peers, p.identity = k ∧ p.signedTranscript = some t

/-- The transcript is under the key's signature, or the adversary could put it there. -/
def Attested (s : Network) (k : Pubkey) (t : Bytes) : Prop := adv k ∨ s.Signed k t

/-- Unforgeability: what the signature verifies, the owner has signed. -/
def Derivable (s : Network) (sig : Bytes) : Prop :=
  ∀ k t, Pubkey.verify C k t sig = true → s.Attested adv k t

/-- What the adversary may deliver, and the freshness of the hub's nonces. -/
def Unforged (s : Network) : Act → Prop
  | .accept _ _ _ _ hubNonce => ∀ h ∈ s.hubs, h.hubNonce ≠ hubNonce
  | .toHub _ (.proofPeer sig) _ => Derivable C adv s sig
  | .toPeer _ (.proofHub sig) _ _ => Derivable C adv s sig
  | _ => True

/-- A peer draws a nonce that no other has drawn. -/
def FreshPeer (s : Network) : Act → Prop
  | .toPeer _ (.helloHub _ _ _ _ _) peerNonce _ =>
    ∀ p ∈ s.peers, ∀ hello, p.hello = some hello → hello.peerNonce ≠ peerNonce
  | _ => True

/-! ### The evidence behind every accepted proof -/

/-- The advertised fingerprint a peer has let through. -/
def Bound (p : PeerSession) (hello : HubHello) : Prop :=
  hubDisabledBinding hello.advertisedFp = true ∨ hello.advertisedFp = p.expectedCertFp.val

theorem Bound.length {p : PeerSession} {hello : HubHello} (h : Bound p hello) :
    hello.advertisedFp.length = 32 := by
  obtain h | h := h
  · simp only [hubDisabledBinding, Bool.and_eq_true, beq_iff_eq] at h
    exact h.1
  · rw [h]
    exact p.expectedCertFp.property

theorem eq_zero_of_disabled {fp : Array32} (h : hubDisabledBinding fp.val = true) :
    fp = Array32.fill 0 := by
  simp only [hubDisabledBinding, Bool.and_eq_true, List.all_eq_true, beq_iff_eq] at h
  exact Subtype.ext (List.eq_replicate_iff.mpr h)

structure Evidence (s : Network) : Prop where
  fresh : ∀ h ∈ s.hubs, h.phase = .awaitHello → h.proof = none
  claimed : ∀ h ∈ s.hubs, h.phase = .registered →
    ∃ peer peerNonce, h.proof = some (peer, peerNonce) ∧
      s.Attested adv peer (h.transcript peer peerNonce)
  bound : ∀ p ∈ s.peers, ∀ hello, p.hello = some hello → Bound p hello
  proved : ∀ p ∈ s.peers, p.phase = .done →
    ∃ hello, p.hello = some hello ∧ s.Attested adv hello.hubPubkey (p.transcript hello)
  nonces : (s.hubs.map (·.hubNonce)).Nodup

variable {C adv} {s s' : Network}

theorem Evidence.of_empty (hh : s.hubs = []) (hp : s.peers = []) : Evidence adv s := by
  constructor <;> simp [hh, hp]

/-- A signed transcript stays signed when every session that signed one keeps it. -/
theorem Attested.mono {k : Pubkey} {t : Bytes}
    (hh : ∀ h ∈ s.hubs, ∀ t, h.signedTranscript = some t →
      ∃ h' ∈ s'.hubs, h'.identity = h.identity ∧ h'.signedTranscript = some t)
    (hp : ∀ p ∈ s.peers, ∀ t, p.signedTranscript = some t →
      ∃ p' ∈ s'.peers, p'.identity = p.identity ∧ p'.signedTranscript = some t)
    (h : s.Attested adv k t) : s'.Attested adv k t := by
  obtain h | ⟨h, hmem, rfl, ht⟩ | ⟨p, hmem, rfl, ht⟩ := h
  · exact .inl h
  · obtain ⟨h', hmem', hid, ht'⟩ := hh h hmem t ht
    exact .inr (.inl ⟨h', hmem', hid, ht'⟩)
  · obtain ⟨p', hmem', hid, ht'⟩ := hp p hmem t ht
    exact .inr (.inr ⟨p', hmem', hid, ht'⟩)

/-- Replacing one element keeps what a member has, if the replacement does. -/
private theorem exists_mem_set {α : Type*} {l : List α} {i : Nat} {a b : α} {P : α → Prop}
    (ha : l[i]? = some a) (hab : P a → P b) {x : α} (hx : x ∈ l) (hPx : P x) :
    ∃ y ∈ l.set i b, P y := by
  obtain ⟨j, hj⟩ := List.mem_iff_getElem?.mp hx
  by_cases hij : i = j
  · subst hij
    obtain rfl : a = x := by simpa [ha] using hj
    exact ⟨b, List.mem_set (List.getElem?_eq_some_iff.mp ha).1 b, hab hPx⟩
  · exact ⟨x, List.mem_iff_getElem?.mpr ⟨j, by rwa [List.getElem?_set_ne hij]⟩, hPx⟩

/-- Replacing one element leaves a projection alone, if the replacement has the same one. -/
private theorem map_set_of_eq {α β : Type*} {l : List α} {i : Nat} {a b : α} {f : α → β}
    (ha : l[i]? = some a) (hab : f b = f a) : (l.set i b).map f = l.map f := by
  obtain ⟨hlt, rfl⟩ := List.getElem?_eq_some_iff.mp ha
  refine List.ext_getElem (by simp) fun j h₁ h₂ => ?_
  by_cases hij : i = j
  · subst hij
    simpa using hab
  · simp [List.getElem_set_ne hij]

/-! ### One step keeps the evidence -/

theorem Evidence.toHub (he : Evidence adv s) {i : Nat} {h h' : HubSession} {f : Frame}
    {authorized : List Pubkey} {sign : Bytes → Except Error Bytes} (hi : s.hubs[i]? = some h)
    (hmove : HubMove C authorized sign h f h')
    (hf : ∀ sig, f = .proofPeer sig → Derivable C adv s sig) :
    Evidence adv {s with hubs := s.hubs.set i h'} := by
  have hmem := List.mem_of_getElem? hi
  obtain ⟨hid, hfp, hnonce⟩ := hmove.frame
  have hmono : ∀ {k t}, s.Attested adv k t →
      Attested adv {s with hubs := s.hubs.set i h'} k t := by
    intro k t
    refine Attested.mono (fun x hx t ht => ?_) (fun p hp t ht => ⟨p, hp, rfl, ht⟩)
    exact exists_mem_set (P := fun y => y.identity = x.identity ∧ y.signedTranscript = some t) hi
      (fun hP => ⟨hid.trans hP.1, hmove.signed (he.fresh h hmem) hP.2⟩) hx ⟨rfl, ht⟩
  refine ⟨?_, ?_, he.bound, ?_, ?_⟩
  · intro x hx
    obtain hx | rfl := List.mem_or_eq_of_mem_set hx
    · exact he.fresh x hx
    · cases hmove with
      | stay => exact he.fresh h hmem
      | fail => simp [HubSession.fail]
      | prove => simp
      | register => simp
  · intro x hx hreg
    obtain hx | rfl := List.mem_or_eq_of_mem_set hx
    · obtain ⟨peer, peerNonce, hproof, hatt⟩ := he.claimed x hx hreg
      exact ⟨peer, peerNonce, hproof, hmono hatt⟩
    · cases hmove with
      | stay =>
        obtain ⟨peer, peerNonce, hproof, hatt⟩ := he.claimed h hmem hreg
        exact ⟨peer, peerNonce, hproof, hmono hatt⟩
      | fail => simp [HubSession.fail] at hreg
      | prove => simp at hreg
      | register hphase hproof hverify =>
        exact ⟨_, _, hproof, hmono (hf _ rfl _ _ hverify)⟩
  · intro p hp hdone
    obtain ⟨hello, hhello, hatt⟩ := he.proved p hp hdone
    exact ⟨hello, hhello, hmono hatt⟩
  · show ((s.hubs.set i h').map (·.hubNonce)).Nodup
    rw [map_set_of_eq hi hnonce]
    exact he.nonces

theorem Evidence.toPeer (he : Evidence adv s) {i : Nat} {p p' : PeerSession} {f : Frame}
    {peerNonce : Array32} {sign : Bytes → Except Error Bytes} (hi : s.peers[i]? = some p)
    (hmove : PeerMove C peerNonce sign p f p')
    (hf : ∀ sig, f = .proofHub sig → Derivable C adv s sig) :
    Evidence adv {s with peers := s.peers.set i p'} := by
  have hmem := List.mem_of_getElem? hi
  have hmono : ∀ {k t}, s.Attested adv k t →
      Attested adv {s with peers := s.peers.set i p'} k t := by
    intro k t
    refine Attested.mono (fun h hh t ht => ⟨h, hh, rfl, ht⟩) (fun x hx t ht => ?_)
    refine exists_mem_set (P := fun y => y.identity = x.identity ∧ y.signedTranscript = some t) hi
      (fun hP => ?_) hx ⟨rfl, ht⟩
    obtain ⟨hid, ht'⟩ := hmove.signed hP.2
    exact ⟨hid.trans hP.1, ht'⟩
  refine ⟨he.fresh, ?_, ?_, ?_, he.nonces⟩
  · intro h hh hreg
    obtain ⟨peer, nonce, hproof, hatt⟩ := he.claimed h hh hreg
    exact ⟨peer, nonce, hproof, hmono hatt⟩
  · intro x hx hello hhello
    obtain hx | rfl := List.mem_or_eq_of_mem_set hx
    · exact he.bound x hx hello hhello
    · cases hmove with
      | stay => exact he.bound p hmem hello hhello
      | fail => exact he.bound p hmem hello hhello
      | hello _ _ _ hfp =>
        obtain rfl := Option.some.inj hhello
        exact hfp
      | prove => exact he.bound p hmem hello hhello
  · intro x hx hdone
    obtain hx | rfl := List.mem_or_eq_of_mem_set hx
    · obtain ⟨hello, hhello, hatt⟩ := he.proved x hx hdone
      exact ⟨hello, hhello, hmono hatt⟩
    · cases hmove with
      | stay =>
        obtain ⟨hello, hhello, hatt⟩ := he.proved p hmem hdone
        exact ⟨hello, hhello, hmono hatt⟩
      | fail => simp [PeerSession.fail] at hdone
      | hello => simp at hdone
      | prove _ hhello hverify => exact ⟨_, hhello, hmono (hf _ rfl _ _ hverify)⟩

theorem Evidence.accept (he : Evidence adv s) {h : HubSession} (hphase : h.phase = .awaitHello)
    (hproof : h.proof = none) (hnonce : ∀ x ∈ s.hubs, x.hubNonce ≠ h.hubNonce) :
    Evidence adv {s with hubs := s.hubs ++ [h]} := by
  have hmono : ∀ {k t}, s.Attested adv k t → Attested adv {s with hubs := s.hubs ++ [h]} k t :=
    Attested.mono (fun x hx t ht => ⟨x, List.mem_append_left _ hx, rfl, ht⟩)
      (fun p hp t ht => ⟨p, hp, rfl, ht⟩)
  refine ⟨?_, ?_, he.bound, ?_, ?_⟩
  · intro x hx
    obtain hx | hx := List.mem_append.mp hx
    · exact he.fresh x hx
    · obtain rfl := List.mem_singleton.mp hx
      exact fun _ => hproof
  · intro x hx hreg
    obtain hx | hx := List.mem_append.mp hx
    · obtain ⟨peer, nonce, hproof, hatt⟩ := he.claimed x hx hreg
      exact ⟨peer, nonce, hproof, hmono hatt⟩
    · obtain rfl := List.mem_singleton.mp hx
      simp [hphase] at hreg
  · intro p hp hdone
    obtain ⟨hello, hhello, hatt⟩ := he.proved p hp hdone
    exact ⟨hello, hhello, hmono hatt⟩
  · show ((s.hubs ++ [h]).map (·.hubNonce)).Nodup
    rw [List.map_append]
    refine List.Nodup.append he.nonces (List.nodup_singleton _) ?_
    simpa [List.Disjoint] using hnonce

theorem Evidence.dial (he : Evidence adv s) {p : PeerSession} (hphase : p.phase = .awaitHello)
    (hhello : p.hello = none) : Evidence adv {s with peers := s.peers ++ [p]} := by
  have hmono : ∀ {k t}, s.Attested adv k t → Attested adv {s with peers := s.peers ++ [p]} k t :=
    Attested.mono (fun x hx t ht => ⟨x, hx, rfl, ht⟩)
      (fun p hp t ht => ⟨p, List.mem_append_left _ hp, rfl, ht⟩)
  refine ⟨he.fresh, ?_, ?_, ?_, he.nonces⟩
  · intro h hh hreg
    obtain ⟨peer, nonce, hproof, hatt⟩ := he.claimed h hh hreg
    exact ⟨peer, nonce, hproof, hmono hatt⟩
  · intro x hx hello hx'
    obtain hx | hx := List.mem_append.mp hx
    · exact he.bound x hx hello hx'
    · obtain rfl := List.mem_singleton.mp hx
      simp [hhello] at hx'
  · intro x hx hdone
    obtain hx | hx := List.mem_append.mp hx
    · obtain ⟨hello, hhello, hatt⟩ := he.proved x hx hdone
      exact ⟨hello, hhello, hmono hatt⟩
    · obtain rfl := List.mem_singleton.mp hx
      simp [hphase] at hdone

/-- One step of the network keeps the evidence, if the adversary forges nothing in it. -/
theorem Evidence.step (he : Evidence adv s) {a : Act} (ha : Unforged C adv s a)
    (hs : step C s a = some s') : Evidence adv s' := by
  cases a with
  | edit vault keys =>
    obtain rfl := Option.some.inj hs
    exact ⟨he.fresh, he.claimed, he.bound, he.proved, he.nonces⟩
  | accept vaultId vaultName hub certFp hubNonce =>
    obtain rfl := Option.some.inj hs
    exact he.accept rfl rfl ha
  | dial peer observedFp =>
    obtain rfl := Option.some.inj hs
    exact he.dial rfl rfl
  | toHub i f sign =>
    obtain ⟨h, hi, rfl⟩ := Option.map_eq_some_iff.mp hs
    refine he.toHub hi (handlePeer_move C _ sign h f) ?_
    rintro sig rfl
    exact ha
  | toPeer i f peerNonce sign =>
    obtain ⟨p, hi, rfl⟩ := Option.map_eq_some_iff.mp hs
    refine he.toPeer hi (runHandshake_move C peerNonce sign p f) ?_
    rintro sig rfl
    exact ha

/-! ### The nonces of the peers -/

/-- No two peer sessions have drawn one nonce. -/
def PeerNonces (s : Network) : Prop :=
  ∀ (i j : Nat) (p q : PeerSession) (hello hello' : HubHello),
    s.peers[i]? = some p → s.peers[j]? = some q → p.hello = some hello →
    q.hello = some hello' → hello.peerNonce = hello'.peerNonce → i = j

theorem PeerNonces.toPeer (h : PeerNonces s) {i : Nat} {p p' : PeerSession} {f : Frame}
    {peerNonce : Array32} {sign : Bytes → Except Error Bytes} (hi : s.peers[i]? = some p)
    (hmove : PeerMove C peerNonce sign p f p')
    (hn : ∀ id key nonce fp name, f = .helloHub id key nonce fp name →
      ∀ p ∈ s.peers, ∀ hello, p.hello = some hello → hello.peerNonce ≠ peerNonce) :
    PeerNonces {s with peers := s.peers.set i p'} := by
  -- Only a drawn nonce is new, and it is drawn fresh.
  have hold : ∀ (j : Nat) (x : PeerSession) (hello : HubHello),
      (s.peers.set i p')[j]? = some x → x.hello = some hello →
      (∃ y, s.peers[j]? = some y ∧ y.hello = some hello) ∨
        j = i ∧ ∀ y ∈ s.peers, ∀ hello', y.hello = some hello' →
          hello'.peerNonce ≠ hello.peerNonce := by
    intro j x hello hj hhello
    obtain rfl | hij := eq_or_ne i j
    · obtain rfl : p' = x := by simpa [(List.getElem?_eq_some_iff.mp hi).1] using hj
      cases hmove with
      | stay => exact .inl ⟨p, hi, hhello⟩
      | fail => exact .inl ⟨p, hi, hhello⟩
      | hello =>
        obtain rfl := Option.some.inj hhello
        exact .inr ⟨rfl, hn _ _ _ _ _ rfl⟩
      | prove => exact .inl ⟨p, hi, hhello⟩
    · rw [List.getElem?_set_ne hij] at hj
      exact .inl ⟨x, hj, hhello⟩
  intro a b x y hello hello' ha hb hx hy heq
  obtain ⟨x', ha', hx'⟩ | ⟨rfl, hnew⟩ := hold a x hello ha hx
  · obtain ⟨y', hb', hy'⟩ | ⟨rfl, hnew⟩ := hold b y hello' hb hy
    · exact h a b x' y' hello hello' ha' hb' hx' hy' heq
    · exact absurd heq (hnew x' (List.mem_of_getElem? ha') hello hx')
  · obtain ⟨y', hb', hy'⟩ | ⟨rfl, -⟩ := hold b y hello' hb hy
    · exact absurd heq.symm (hnew y' (List.mem_of_getElem? hb') hello' hy')
    · rfl

theorem PeerNonces.dial (h : PeerNonces s) {p : PeerSession} (hhello : p.hello = none) :
    PeerNonces {s with peers := s.peers ++ [p]} := by
  have hold : ∀ (j : Nat) (x : PeerSession) (hello : HubHello),
      (s.peers ++ [p])[j]? = some x → x.hello = some hello → s.peers[j]? = some x := by
    intro j x hello hj hx
    obtain hlt | hge := Nat.lt_or_ge j s.peers.length
    · rwa [List.getElem?_append_left hlt] at hj
    · rw [List.getElem?_append_right hge] at hj
      obtain rfl := List.mem_singleton.mp (List.mem_of_getElem? hj)
      simp [hhello] at hx
  intro a b x y hello hello' ha hb hx hy heq
  exact h a b x y hello hello' (hold a x hello ha hx) (hold b y hello' hb hy) hx hy heq

theorem PeerNonces.step (h : PeerNonces s) {a : Act} (ha : FreshPeer s a)
    (hs : step C s a = some s') : PeerNonces s' := by
  cases a with
  | dial peer observedFp =>
    obtain rfl := Option.some.inj hs
    exact h.dial rfl
  | toPeer i f peerNonce sign =>
    obtain ⟨p, hi, rfl⟩ := Option.map_eq_some_iff.mp hs
    refine h.toPeer hi (runHandshake_move C peerNonce sign p f) ?_
    rintro id key nonce fp name rfl
    exact ha
  | toHub i f sign =>
    obtain ⟨hub, hi, rfl⟩ := Option.map_eq_some_iff.mp hs
    exact h
  | edit vault keys =>
    obtain rfl := Option.some.inj hs
    exact h
  | accept vaultId vaultName hub certFp hubNonce =>
    obtain rfl := Option.some.inj hs
    exact h

/-! ### What the evidence says about two ends -/

/-- The peer session ran the handshake the hub session did: same keys, same nonces,
same fingerprint. -/
def Matches (h : HubSession) (p : PeerSession) : Prop :=
  p.phase = .done ∧ ∃ hello, p.hello = some hello ∧
    h.proof = some (p.identity, hello.peerNonce) ∧ hello.hubNonce = h.hubNonce ∧
    hello.hubPubkey = h.identity ∧ hello.advertisedFp = h.certFp.val

theorem Matches.hubNonce {h h' : HubSession} {p : PeerSession} (hm : Matches h p)
    (hm' : Matches h' p) : h.hubNonce = h'.hubNonce := by
  obtain ⟨-, hello, hhello, -, hnonce, -⟩ := hm
  obtain ⟨-, hello', hhello', -, hnonce', -⟩ := hm'
  obtain rfl : hello = hello' := Option.some.inj (hhello.symm.trans hhello')
  exact hnonce.symm.trans hnonce'

/-- Two hub sessions with one nonce are one session. -/
theorem Evidence.index_eq (he : Evidence adv s) {i j : Nat} {h h' : HubSession}
    (hi : s.hubs[i]? = some h) (hj : s.hubs[j]? = some h') (hn : h.hubNonce = h'.hubNonce) :
    i = j := by
  obtain ⟨hilt, rfl⟩ := List.getElem?_eq_some_iff.mp hi
  obtain ⟨hjlt, rfl⟩ := List.getElem?_eq_some_iff.mp hj
  have hilt' : i < (s.hubs.map (·.hubNonce)).length := by rwa [List.length_map]
  have hjlt' : j < (s.hubs.map (·.hubNonce)).length := by rwa [List.length_map]
  have heq : (s.hubs.map (·.hubNonce))[i] = (s.hubs.map (·.hubNonce))[j] := by
    rw [List.getElem_map, List.getElem_map, hn]
  exact (List.Nodup.getElem_inj_iff he.nonces).mp heq

/-- An honest signature on a hub session's transcript is the claimed peer's own, unless the
claimed peer is the hub itself. -/
theorem Evidence.matches_of_signed (he : Evidence adv s) {h : HubSession} {peer : Pubkey}
    {peerNonce : Array32} (hproof : h.proof = some (peer, peerNonce)) (hne : peer ≠ h.identity)
    (hsig : s.Signed peer (h.transcript peer peerNonce)) :
    ∃ p ∈ s.peers, p.identity = peer ∧ Matches h p := by
  obtain ⟨h', -, hid, ht⟩ | ⟨p, hp, hid, ht⟩ := hsig
  · obtain ⟨⟨key, nonce⟩, -, ht⟩ := Option.map_eq_some_iff.mp ht
    obtain ⟨-, -, -, hhub, -⟩ := buildTranscript_injective
      (h'.certFp.property.trans h.certFp.property.symm) ht
    exact absurd (hid.symm.trans hhub) hne
  · have hdone : p.phase = .done := by
      by_contra hphase
      simp [PeerSession.signedTranscript, hphase] at ht
    rw [PeerSession.signedTranscript, if_pos hdone] at ht
    obtain ⟨hello, hhello, ht⟩ := Option.map_eq_some_iff.mp ht
    obtain ⟨hn, hpn, hfp, hhub, -⟩ := buildTranscript_injective
      ((he.bound p hp hello hhello).length.trans h.certFp.property.symm) ht
    refine ⟨p, hp, hid, hdone, hello, hhello, ?_, hn, hhub, hfp⟩
    rw [hproof, hid, hpn]

/-- The hub's signature on a peer session's transcript is a hub session's own, unless the
two keys are one. -/
theorem Evidence.hub_of_signed (he : Evidence adv s) {p : PeerSession} (hp : p ∈ s.peers)
    {hello : HubHello} (hhello : p.hello = some hello) (hne : hello.hubPubkey ≠ p.identity)
    (hsig : s.Signed hello.hubPubkey (p.transcript hello)) :
    ∃ h ∈ s.hubs, h.identity = hello.hubPubkey ∧ h.hubNonce = hello.hubNonce ∧
      h.proof = some (p.identity, hello.peerNonce) ∧ h.certFp.val = hello.advertisedFp := by
  have hlen := (he.bound p hp hello hhello).length
  obtain ⟨h, hh, hid, ht⟩ | ⟨p', hp', hid, ht⟩ := hsig
  · obtain ⟨⟨key, nonce⟩, hproof, ht⟩ := Option.map_eq_some_iff.mp ht
    obtain ⟨hn, hpn, hfp, -, hkey⟩ := buildTranscript_injective
      (h.certFp.property.trans hlen.symm) ht
    refine ⟨h, hh, hid, hn, ?_, hfp⟩
    rw [hproof, hkey, hpn]
  · have hdone : p'.phase = .done := by
      by_contra hphase
      simp [PeerSession.signedTranscript, hphase] at ht
    rw [PeerSession.signedTranscript, if_pos hdone] at ht
    obtain ⟨hello', hhello', ht⟩ := Option.map_eq_some_iff.mp ht
    obtain ⟨-, -, -, -, hpeer⟩ := buildTranscript_injective
      ((he.bound p' hp' hello' hhello').length.trans hlen.symm) ht
    exact absurd (hid.symm.trans hpeer) hne

/-- A matching peer has seen the hub's certificate, unless the hub has none. -/
theorem Evidence.observed_eq (he : Evidence adv s) {h : HubSession} {p : PeerSession}
    (hp : p ∈ s.peers) (hmatch : Matches h p) (hfp : h.certFp ≠ Array32.fill 0) :
    p.expectedCertFp = h.certFp := by
  obtain ⟨-, hello, hhello, -, -, -, hadvertised⟩ := hmatch
  obtain hzero | hobserved := he.bound p hp hello hhello
  · exact absurd (eq_zero_of_disabled (hadvertised ▸ hzero)) hfp
  · exact Subtype.ext (hobserved.symm.trans hadvertised)

/-! ### Hub authentication -/

variable (adv) in
/-- The session is an honest peer's: one that ran the same handshake, and ran it with no
other hub session. -/
def HonestlyDriven (s : Network) (i : Nat) : Prop :=
  ∃ h, s.hubs[i]? = some h ∧ ∃ p ∈ s.peers, ¬ adv p.identity ∧ Matches h p ∧
    ∀ j h', s.hubs[j]? = some h' → Matches h' p → j = i

variable (adv) in
/-- The adversary holds no key that a hub lists. -/
def Unlisted (s : Network) : Prop :=
  ∀ h ∈ s.hubs, ∀ k ∈ s.authorized h.identity, ¬ adv k

/-- No session is offered its own hub's key while the hub lists that key. -/
def NoReflection (s : Network) : Act → Prop
  | .toHub i (.helloPeer key _ _) _ =>
    ∀ h, s.hubs[i]? = some h → key = h.identity.val → h.identity ∉ s.authorized h.identity
  | _ => True

variable (adv) in
/-- Every session past the check claims an honest key that is not the hub's own. -/
def ClaimsHonest (s : Network) : Prop :=
  ∀ h ∈ s.hubs, ∀ peer peerNonce, h.proof = some (peer, peerNonce) →
    ¬ adv peer ∧ peer ≠ h.identity

theorem ClaimsHonest.step (hc : ClaimsHonest adv s) {a : Act} (hu : Unlisted adv s)
    (hr : NoReflection s a) (hs : step C s a = some s') : ClaimsHonest adv s' := by
  cases a with
  | edit vault keys =>
    obtain rfl := Option.some.inj hs
    exact hc
  | accept vaultId vaultName hub certFp hubNonce =>
    obtain rfl := Option.some.inj hs
    intro h hh peer peerNonce hproof
    obtain hh | hh := List.mem_append.mp hh
    · exact hc h hh peer peerNonce hproof
    · obtain rfl := List.mem_singleton.mp hh
      cases hproof
  | dial peer observedFp =>
    obtain rfl := Option.some.inj hs
    exact hc
  | toPeer i f peerNonce sign =>
    obtain ⟨p, hi, rfl⟩ := Option.map_eq_some_iff.mp hs
    exact hc
  | toHub i f sign =>
    obtain ⟨h, hi, rfl⟩ := Option.map_eq_some_iff.mp hs
    have hmem := List.mem_of_getElem? hi
    intro x hx peer peerNonce hproof
    obtain hx | rfl := List.mem_or_eq_of_mem_set hx
    · exact hc x hx peer peerNonce hproof
    · obtain ⟨hid, -, -⟩ := (handlePeer_move C (s.authorized h.identity) sign h f).frame
      have hmove := handlePeer_move C (s.authorized h.identity) sign h f
      generalize (handlePeer C (s.authorized h.identity) sign h f).1 = h' at hid hmove hproof
      cases hmove with
      | stay => exact hc h hmem peer peerNonce hproof
      | fail => exact hc h hmem peer peerNonce hproof
      | prove op hphase hauth hsig =>
        obtain ⟨rfl, rfl⟩ := Prod.mk.inj (Option.some.inj hproof)
        refine ⟨hu h hmem _ hauth, fun heq => ?_⟩
        exact hr h hi (congrArg Subtype.val heq) (heq ▸ hauth)
      | register => exact hc h hmem peer peerNonce hproof

/-- What the adversary is held to, and the condition under which the hub is safe from it. -/
def AuthGuard (C : Crypto) (adv : Pubkey → Prop) (s : Network) (a : Act) : Prop :=
  Unforged C adv s a ∧ Unlisted adv s ∧ NoReflection s a

/-- **Hub authentication.** While no session is offered its own hub's listed key, every
session that reaches `register_peer` is an honest peer's, whatever else the adversary
does in any number of sessions. -/
theorem hub_authentication (hh : s.hubs = []) (hp : s.peers = [])
    (hr : Machine.Reach (step C) (AuthGuard C adv) s s') {i : Nat} {h : HubSession}
    (hi : s'.hubs[i]? = some h) (hreg : h.phase = .registered) : HonestlyDriven adv s' i := by
  have hinv : Evidence adv s' ∧ ClaimsHonest adv s' := by
    refine hr.invariant (I := fun x => Evidence adv x ∧ ClaimsHonest adv x)
      ⟨.of_empty hh hp, by simp [ClaimsHonest, hh]⟩ ?_
    rintro x a x' ⟨he, hc⟩ ⟨hun, hul, hnr⟩ hs
    exact ⟨he.step hun hs, hc.step hul hnr hs⟩
  obtain ⟨he, hc⟩ := hinv
  have hmem := List.mem_of_getElem? hi
  obtain ⟨peer, peerNonce, hproof, hatt⟩ := he.claimed h hmem hreg
  obtain ⟨hhonest, hne⟩ := hc h hmem peer peerNonce hproof
  obtain hadv | hsig := hatt
  · exact absurd hadv hhonest
  · obtain ⟨p, hpmem, rfl, hmatch⟩ := he.matches_of_signed hproof hne hsig
    refine ⟨h, hi, p, hpmem, hhonest, hmatch, fun j h' hj hm' => ?_⟩
    exact he.index_eq hj hi (hm'.hubNonce hmatch)

/-- A frame for the session that was opened last. -/
private theorem step_toHub_last {h h' : HubSession} {f : Frame} {out : List Frame}
    {sign : Bytes → Except Error Bytes} {hubs : List HubSession}
    (hmove : handlePeer C (s.authorized h.identity) sign h f = (h', out)) :
    step C {s with hubs := hubs ++ [h]} (.toHub hubs.length f sign) =
      some {s with hubs := hubs ++ [h']} := by
  simp [step, hmove]

private theorem step_toPeer_last {p p' : PeerSession} {f : Frame} {out : List Frame}
    {peerNonce : Array32} {sign : Bytes → Except Error Bytes} {peers : List PeerSession}
    (hmove : runHandshake C peerNonce sign p f = (p', out)) :
    step C {s with peers := peers ++ [p]} (.toPeer peers.length f peerNonce sign) =
      some {s with peers := peers ++ [p']} := by
  simp [step, hmove]

/-- The condition is needed: from any network in which a vault lists its own key, an
adversary with no key at all has a new session registered by sending back the signature
the session made. -/
theorem reflection_registers {H : Pubkey} (hlisted : H ∈ s.authorized H) (vaultId : Str)
    (vaultName : Option Str) (certFp hubNonce peerNonce : Array32)
    (hfresh : ∀ h ∈ s.hubs, h.hubNonce ≠ hubNonce) (sign : Bytes → Except Error Bytes)
    {sig : Bytes}
    (hsign : sign (buildTranscript hubNonce peerNonce certFp.val H H) = .ok sig)
    (hverify : ∀ k t, Pubkey.verify C k t sig = true ↔
      k = H ∧ t = buildTranscript hubNonce peerNonce certFp.val H H) :
    Machine.Reach (step C) (Unforged C adv) s
      {s with hubs := s.hubs ++ [⟨vaultId, vaultName, H, certFp, hubNonce, .registered,
        some (H, peerNonce)⟩]} := by
  let h₀ : HubSession := ⟨vaultId, vaultName, H, certFp, hubNonce, .awaitHello, none⟩
  let h₁ : HubSession := {h₀ with phase := .awaitProof, proof := some (H, peerNonce)}
  have haccept : Machine.Reach (step C) (Unforged C adv) s {s with hubs := s.hubs ++ [h₀]} :=
    .step (.accept vaultId vaultName H certFp hubNonce) .start hfresh rfl
  have hclaim : Machine.Reach (step C) (Unforged C adv) s {s with hubs := s.hubs ++ [h₁]} :=
    .step (.toHub s.hubs.length (.helloPeer H.val peerNonce.val .join) sign) haccept trivial
      (step_toHub_last (handlePeer_helloPeer C .join rfl hlisted hsign))
  refine .step (.toHub s.hubs.length (.proofPeer sig) sign) hclaim ?_
    (step_toHub_last (handlePeer_proofPeer C _ sign rfl rfl ((hverify _ _).mpr ⟨rfl, rfl⟩)))
  -- The signature sent back is the one the session put on its own transcript.
  intro k t hkt
  obtain ⟨rfl, rfl⟩ := (hverify k t).mp hkt
  exact .inr (.inl ⟨h₁, List.mem_append_right _ (List.mem_singleton_self _), rfl, rfl⟩)

/-- A vault as `Vault::create` leaves it is open to an adversary that holds no key: the
session it starts is registered and no honest peer exists. -/
theorem hub_authentication_reflected :
    let H : Pubkey := Array32.fill 1
    let t := buildTranscript (Array32.fill 2) (Array32.fill 3) (Array32.fill 4).val H H
    let C := tableCrypto [(H, t, List.replicate 64 5)]
    let adv : Pubkey → Prop := fun _ => False
    ∃ s', Machine.Reach (step C) (fun s a => Unforged C adv s a ∧ Unlisted adv s) (created H) s' ∧
      ∃ h, s'.hubs[0]? = some h ∧ h.phase = .registered ∧ ¬ HonestlyDriven adv s' 0 := by
  intro H t C adv
  have hverify : ∀ k t', Pubkey.verify C k t' (List.replicate 64 5) = true ↔ k = H ∧ t' = t := by
    intro k t'
    simp [C, tableCrypto_verify, signatureLen]
  have hrun : Machine.Reach (step C) (Unforged C adv) (created H) _ :=
    reflection_registers (by simp [created]) [] none (Array32.fill 4) (Array32.fill 2)
      (Array32.fill 3) (by simp [created]) (fun _ => .ok (List.replicate 64 5)) rfl hverify
  refine ⟨_, hrun.mono fun s a ha => ⟨ha, fun _ _ _ _ => id⟩, _, rfl, rfl, ?_⟩
  rintro ⟨-, -, p, hp, -⟩
  simp [created] at hp

/-- An honest peer that a vault lists is registered, whatever ran before. -/
theorem honest_handshake {H P : Pubkey} (hne : P ≠ H) (hlisted : P ∈ s.authorized H)
    (vaultId : Str) (vaultName : Option Str) (certFp hubNonce peerNonce : Array32)
    (hfresh : ∀ h ∈ s.hubs, h.hubNonce ≠ hubNonce)
    (hfresh' : ∀ p ∈ s.peers, ∀ hello, p.hello = some hello → hello.peerNonce ≠ peerNonce)
    (signHub signPeer : Bytes → Except Error Bytes) {hubSig peerSig : Bytes}
    (hhub : signHub (buildTranscript hubNonce peerNonce certFp.val H P) = .ok hubSig)
    (hpeer : signPeer (buildTranscript hubNonce peerNonce certFp.val H P) = .ok peerSig)
    (hverify : ∀ k t, Pubkey.verify C k t hubSig = true ↔
      k = H ∧ t = buildTranscript hubNonce peerNonce certFp.val H P)
    (hverify' : ∀ k t, Pubkey.verify C k t peerSig = true ↔
      k = P ∧ t = buildTranscript hubNonce peerNonce certFp.val H P) :
    Machine.Reach (step C) (fun s a => (Unforged C adv s a ∧ FreshPeer s a) ∧ NoReflection s a) s
      {s with
        hubs := s.hubs ++ [⟨vaultId, vaultName, H, certFp, hubNonce, .registered,
          some (P, peerNonce)⟩]
        peers := s.peers ++ [⟨P, certFp, .done,
          some ⟨vaultId, H, hubNonce, certFp.val, vaultName, peerNonce⟩⟩]} := by
  let h₀ : HubSession := ⟨vaultId, vaultName, H, certFp, hubNonce, .awaitHello, none⟩
  let h₁ : HubSession := {h₀ with phase := .awaitProof, proof := some (P, peerNonce)}
  let p₀ : PeerSession := ⟨P, certFp, .awaitHello, none⟩
  let p₁ : PeerSession := {p₀ with
    phase := .awaitProof
    hello := some ⟨vaultId, H, hubNonce, certFp.val, vaultName, peerNonce⟩}
  let p₂ : PeerSession := {p₁ with phase := .done}
  let net (h : HubSession) (p : PeerSession) : Network :=
    {s with hubs := s.hubs ++ [h], peers := s.peers ++ [p]}
  have hconnect : Machine.Reach (step C)
      (fun s a => (Unforged C adv s a ∧ FreshPeer s a) ∧ NoReflection s a) s (net h₀ p₀) :=
    .step (.dial P certFp)
      (.step (.accept vaultId vaultName H certFp hubNonce) .start ⟨⟨hfresh, trivial⟩, trivial⟩ rfl)
      ⟨⟨trivial, trivial⟩, trivial⟩ rfl
  have hhello : step C (net h₀ p₀)
      (.toPeer s.peers.length h₀.helloHub peerNonce signPeer) = some (net h₀ p₁) :=
    step_toPeer_last (s := {s with hubs := s.hubs ++ [h₀]})
      (runHandshake_helloHub C peerNonce signPeer h₀ rfl (.inr rfl))
  have hclaim : step C (net h₀ p₁)
      (.toHub s.hubs.length (.helloPeer P.val peerNonce.val .join) signHub) = some (net h₁ p₁) :=
    step_toHub_last (s := {s with peers := s.peers ++ [p₁]})
      (handlePeer_helloPeer C .join rfl hlisted hhub)
  have hprove : step C (net h₁ p₁)
      (.toPeer s.peers.length (.proofHub hubSig) peerNonce signPeer) = some (net h₁ p₂) :=
    step_toPeer_last (s := {s with hubs := s.hubs ++ [h₁]})
      (runHandshake_proofHub C peerNonce rfl rfl ((hverify _ _).mpr ⟨rfl, rfl⟩) hpeer)
  have hregister : step C (net h₁ p₂)
      (.toHub s.hubs.length (.proofPeer peerSig) signHub) =
        some (net {h₁ with phase := .registered} p₂) :=
    step_toHub_last (s := {s with peers := s.peers ++ [p₂]})
      (handlePeer_proofPeer C _ signHub rfl rfl ((hverify' _ _).mpr ⟨rfl, rfl⟩))
  refine .step _ (.step _ (.step _ (.step _ hconnect ?_ hhello) ?_ hclaim) ?_ hprove) ?_ hregister
  · refine ⟨⟨trivial, fun p hp hello hsome => ?_⟩, trivial⟩
    obtain hp | hp := List.mem_append.mp hp
    · exact hfresh' p hp hello hsome
    · obtain rfl := List.mem_singleton.mp hp
      cases hsome
  · refine ⟨⟨trivial, trivial⟩, fun h hi heq => ?_⟩
    obtain rfl : h₀ = h := by simpa [net] using hi
    exact absurd (Subtype.ext heq) hne
  · refine ⟨⟨fun k t hkt => ?_, trivial⟩, trivial⟩
    obtain ⟨rfl, rfl⟩ := (hverify k t).mp hkt
    exact .inr (.inl ⟨h₁, List.mem_append_right _ (List.mem_singleton_self _), rfl, rfl⟩)
  · refine ⟨⟨fun k t hkt => ?_, trivial⟩, trivial⟩
    obtain ⟨rfl, rfl⟩ := (hverify' k t).mp hkt
    exact .inr (.inr ⟨p₂, List.mem_append_right _ (List.mem_singleton_self _), rfl, rfl⟩)

/-- The one honest handshake of a small network: hub key, peer key, certificate. -/
abbrev soloHub : Pubkey := Array32.fill 1
abbrev soloPeer : Pubkey := Array32.fill 6
abbrev soloFp : Array32 := Array32.fill 4

abbrev soloCrypto : Crypto :=
  let t := buildTranscript (Array32.fill 2) (Array32.fill 3) soloFp.val soloHub soloPeer
  tableCrypto [(soloHub, t, List.replicate 64 5), (soloPeer, t, List.replicate 64 7)]

abbrev soloStart : Network := ⟨fun _ => [soloPeer], [], []⟩

abbrev soloEnd : Network :=
  {soloStart with
    hubs := [⟨[], none, soloHub, soloFp, Array32.fill 2, .registered,
      some (soloPeer, Array32.fill 3)⟩]
    peers := [⟨soloPeer, soloFp, .done,
      some ⟨[], soloHub, Array32.fill 2, soloFp.val, none, Array32.fill 3⟩⟩]}

private theorem solo_run : Machine.Reach (step soloCrypto)
    (fun s a => (Unforged soloCrypto (fun _ => False) s a ∧ FreshPeer s a) ∧ NoReflection s a)
    soloStart soloEnd := by
  refine honest_handshake (by decide) (by simp) [] none soloFp (Array32.fill 2) (Array32.fill 3)
    (by simp) (by simp) (fun _ => .ok (List.replicate 64 5)) (fun _ => .ok (List.replicate 64 7))
    rfl rfl ?_ ?_
  · intro k t
    simp [tableCrypto_verify, signatureLen, List.replicate_succ]
  · intro k t
    simp [tableCrypto_verify, signatureLen, List.replicate_succ]

/-- A network in which the law says something: the one registered session is honest. -/
theorem hub_authentication_solo : HonestlyDriven (fun _ => False) soloEnd 0 :=
  hub_authentication rfl rfl (solo_run.mono fun _ _ ha => ⟨ha.1.1, fun _ _ _ _ => id, ha.2⟩) rfl
    rfl

/-! ### Channel binding -/

/-- **Channel binding.** An honest hub with key `H` registers an honest peer with key
`P ≠ H` only when `P`'s own handshake, the one session with those nonces, observed the
hub's certificate; a peer that completes a handshake with `H` has the signature of a hub
session of `H` whose certificate is zero or the one observed; so no session is registered
for a peer that has only seen other certificates. -/
theorem channel_binding {H P : Pubkey} (hH : ¬ adv H) (hP : ¬ adv P) (hne : H ≠ P)
    (hh : s.hubs = []) (hp : s.peers = [])
    (hr : Machine.Reach (step C) (fun s a => Unforged C adv s a ∧ FreshPeer s a) s s') :
    (∀ h ∈ s'.hubs, h.identity = H → h.certFp ≠ Array32.fill 0 → h.phase = .registered →
      ∀ peerNonce, h.proof = some (P, peerNonce) →
      ∃ i p, s'.peers[i]? = some p ∧ p.identity = P ∧ Matches h p ∧
        p.expectedCertFp = h.certFp ∧
        ∀ (j : Nat) (q : PeerSession) (hello : HubHello), s'.peers[j]? = some q → q.hello = some hello →
          hello.peerNonce = peerNonce → j = i) ∧
    (∀ p ∈ s'.peers, p.identity = P → p.phase = .done → ∀ hello, p.hello = some hello →
      hello.hubPubkey = H →
      ∃ h ∈ s'.hubs, h.identity = H ∧ h.hubNonce = hello.hubNonce ∧
        h.proof = some (P, hello.peerNonce) ∧
        (h.certFp = Array32.fill 0 ∨ h.certFp = p.expectedCertFp)) ∧
    (∀ F, F ≠ Array32.fill 0 → (∀ p ∈ s'.peers, p.identity = P → p.expectedCertFp ≠ F) →
      ∀ h ∈ s'.hubs, h.identity = H → h.certFp = F → h.phase = .registered →
      ∀ peerNonce, h.proof ≠ some (P, peerNonce)) := by
  have he : Evidence adv s' :=
    hr.invariant (.of_empty hh hp) fun x a x' he hguard hs => he.step hguard.1 hs
  have hnonces : PeerNonces s' :=
    hr.invariant (by simp [PeerNonces, hp]) fun x a x' hn hguard hs => hn.step hguard.2 hs
  have hmatched : ∀ h ∈ s'.hubs, h.identity = H → h.certFp ≠ Array32.fill 0 →
      h.phase = .registered → ∀ peerNonce, h.proof = some (P, peerNonce) →
      ∃ p ∈ s'.peers, p.identity = P ∧ Matches h p ∧ p.expectedCertFp = h.certFp := by
    intro h hmem hid hfp hreg peerNonce hproof
    obtain ⟨peer, nonce, hproof', hatt⟩ := he.claimed h hmem hreg
    obtain ⟨rfl, rfl⟩ := Prod.mk.inj (Option.some.inj (hproof.symm.trans hproof'))
    obtain hadv | hsig := hatt
    · exact absurd hadv hP
    · obtain ⟨p, hpmem, hpid, hmatch⟩ := he.matches_of_signed hproof (hid ▸ hne.symm) hsig
      exact ⟨p, hpmem, hpid, hmatch, he.observed_eq hpmem hmatch hfp⟩
  refine ⟨?_, ?_, ?_⟩
  · intro h hmem hid hfp hreg peerNonce hproof
    obtain ⟨p, hpmem, hpid, hmatch, hobs⟩ := hmatched h hmem hid hfp hreg peerNonce hproof
    obtain ⟨i, hi⟩ := List.mem_iff_getElem?.mp hpmem
    refine ⟨i, p, hi, hpid, hmatch, hobs, fun j q hello hj hhello hnonce => ?_⟩
    obtain ⟨-, hello', hhello', hproof', -⟩ := hmatch
    obtain ⟨-, rfl⟩ := Prod.mk.inj (Option.some.inj (hproof.symm.trans hproof'))
    exact hnonces j i q p hello hello' hj hi hhello hhello' hnonce
  · intro p hpmem hpid hdone hello hhello hkey
    obtain ⟨hello', hhello', hatt⟩ := he.proved p hpmem hdone
    obtain rfl : hello = hello' := Option.some.inj (hhello.symm.trans hhello')
    obtain hadv | hsig := hatt
    · exact absurd (hkey ▸ hadv) hH
    · obtain ⟨h, hh, hid, hn, hproof, hfp⟩ :=
        he.hub_of_signed hpmem hhello (hkey ▸ hpid ▸ hne) hsig
      refine ⟨h, hh, hid.trans hkey, hn, hpid ▸ hproof, ?_⟩
      obtain hzero | hobserved := he.bound p hpmem hello hhello
      · exact .inl (eq_zero_of_disabled (hfp ▸ hzero))
      · exact .inr (Subtype.ext (hfp.trans hobserved))
  · intro F hF hother h hmem hid hfp hreg peerNonce hproof
    obtain ⟨p, hpmem, hpid, -, hobs⟩ :=
      hmatched h hmem hid (hfp ▸ hF) hreg peerNonce hproof
    exact hother p hpmem hpid (hobs.trans hfp)

theorem channel_binding_solo : ∃ (i : Nat) (p : PeerSession), soloEnd.peers[i]? = some p ∧ p.identity = soloPeer ∧
    p.expectedCertFp = soloFp := by
  have hrun : Machine.Reach (step soloCrypto)
      (fun s a => Unforged soloCrypto (fun _ => False) s a ∧ FreshPeer s a) soloStart soloEnd :=
    solo_run.mono fun _ _ ha => ha.1
  obtain ⟨hbound, -, -⟩ := channel_binding (H := soloHub) (P := soloPeer) id id (by decide) rfl rfl
    hrun
  obtain ⟨i, p, hi, hid, -, hobs, -⟩ :=
    hbound _ (List.mem_singleton_self _) rfl (by decide) rfl _ rfl
  exact ⟨i, p, hi, hid, hobs⟩

end

end Network

end AgentSync.Net
