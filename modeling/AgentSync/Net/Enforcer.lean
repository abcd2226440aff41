import AgentSync.Machine
import AgentSync.Net.Handshake
import AgentSync.Net.Peers

/-! The authorization enforcer.

A session checks its key against `authorized_keys` when it answers `HelloPeer` and
registers it much later; the enforcer drops registered keys that are no longer
listed, each time it is woken by a document change. `notify_waiters` wakes a task
that is waiting and leaves nothing behind for one that is not.

The law is that an idle enforcer leaves only listed keys registered. What carries it
is `Enforced`: every slot the enforcer would leave in place without being woken again
(`Keeps`) holds a listed key. Two steps can break it, and `Timely` is exactly what
they must respect: a registration of a key that has been unlisted since its check, and
a notification that finds the enforcer past its read and not yet waiting. -/
namespace AgentSync.Net

/-- Where the enforcer task is. -/
inductive EnforcerPhase where
  /-- Starting up, or at the top of the loop: no `notified` future exists. -/
  | outside
  /-- In `wait_doc_changed`. -/
  | waiting
  /-- Woken, with `authorized_peers` still to be read. -/
  | woken
  /-- About to call `disconnect_unauthorized_peers` with the keys it has read. -/
  | read (current : List Pubkey)

/-- A listening vault. `authorized` is what `authorized_pubkeys` parses out of the
document, `pending` counts the changes whose `notify_waiters` has not been called yet. -/
structure Server (σ : Type*) where
  authorized : List Pubkey
  sessions : List HubSession
  registry : Registry σ
  enforcer : EnforcerPhase
  pending : Nat

namespace Server

variable {σ : Type*}

def start (authorized : List Pubkey) : Server σ := ⟨authorized, [], .empty, .outside, 0⟩

inductive Act where
  /-- The document's `authorized_keys` changes, by an edit or a sync message. -/
  | edit (authorized : List Pubkey)
  /-- The `notify_waiters` of a change. -/
  | notify
  | accept (vaultId : Str) (vaultName : Option Str) (hub : Pubkey) (certFp hubNonce : Array32)
  /-- A handshake frame reaches the session. -/
  | deliver (i : Nat) (f : Frame) (sign : Bytes → Except Error Bytes)
  /-- The session calls `register_peer`. -/
  | register (i : Nat)
  /-- An outbound connection registers the hub it has reached. -/
  | registerHub (hub : Pubkey)
  | unregister (id : Nat)
  /-- The enforcer goes to sleep, reads the list, drops what is not on it. -/
  | wait
  | read
  | disconnect

variable (C : Crypto) (init : σ)

def step (s : Server σ) : Act → Option (Server σ)
  | .edit authorized => some {s with authorized, pending := s.pending + 1}
  | .notify =>
    if s.pending = 0 then none
    else some {s with
      pending := s.pending - 1
      enforcer := match s.enforcer with
        | .waiting => .woken
        | phase => phase}
  | .accept vaultId vaultName hub certFp hubNonce =>
    some {s with
      sessions := s.sessions ++ [⟨vaultId, vaultName, hub, certFp, hubNonce, .awaitHello, none⟩]}
  | .deliver i f sign => (s.sessions[i]?).map fun h =>
    {s with sessions := s.sessions.set i (handlePeer C s.authorized sign h f).1}
  | .register i => (s.sessions[i]?).bind fun h =>
    match h.phase, h.proof with
    | .registered, some (peer, _) => some {s with
        sessions := s.sessions.eraseIdx i
        registry := s.registry.registerPeer init (some peer)}
    | _, _ => none
  | .registerHub hub => some {s with registry := s.registry.registerPeer init (some hub)}
  | .unregister id => some {s with registry := s.registry.unregisterPeer id}
  | .wait =>
    match s.enforcer with
    | .outside => some {s with enforcer := .waiting}
    | _ => none
  | .read =>
    match s.enforcer with
    | .woken => some {s with enforcer := .read s.authorized}
    | _ => none
  | .disconnect =>
    match s.enforcer with
    | .read current => some {s with
        registry := s.registry.disconnectUnauthorizedPeers current
        enforcer := .outside}
    | _ => none

/-! ### The law and its condition -/

/-- The enforcer has handled every notification and waits for the next. -/
def Idle (s : Server σ) : Prop := s.enforcer = .waiting ∧ s.pending = 0

/-- A connection is registered under the key. -/
def Registered (s : Server σ) (key : Pubkey) : Prop :=
  ∃ id slot, s.registry.lookup id = some slot ∧ slot.pubkey = some key

/-- A slot with this key stays unless the enforcer is woken again. -/
def Keeps (s : Server σ) (key : Pubkey) : Prop :=
  match s.enforcer with
  | .woken => False
  | .read current => key ∈ current
  | _ => True

/-- Every slot the enforcer is going to leave in place holds a listed key, once every
change has been notified. -/
def Enforced (s : Server σ) : Prop :=
  s.pending = 0 → ∀ key, s.Registered key → s.Keeps key → key ∈ s.authorized

/-- A registration that the enforcer will not see comes while its key is listed, and the
last outstanding notification finds the enforcer waiting unless all it keeps is listed. -/
def Timely (s : Server σ) : Act → Prop
  | .register i => s.pending = 0 → ∀ h peer peerNonce, s.sessions[i]? = some h →
      h.proof = some (peer, peerNonce) → s.Keeps peer → peer ∈ s.authorized
  | .registerHub hub => s.pending = 0 → s.Keeps hub → hub ∈ s.authorized
  | .notify => s.pending = 1 → s.enforcer ≠ .waiting →
      ∀ key, s.Registered key → s.Keeps key → key ∈ s.authorized
  | _ => True

/-! ### One step -/

variable {C init} {s s' : Server σ}

theorem registered_registerPeer {key peer : Pubkey}
    (h : Registered {s with registry := s.registry.registerPeer init (some peer)} key) :
    key = peer ∨ s.Registered key := by
  obtain ⟨id, slot, hslot, hkey⟩ := h
  rw [Registry.lookup_registerPeer] at hslot
  split at hslot
  next =>
    obtain rfl := Option.some.inj hslot
    exact .inl (Option.some.inj hkey).symm
  next => exact .inr ⟨id, slot, hslot, hkey⟩

theorem registered_unregisterPeer {id : Nat} {key : Pubkey}
    (h : Registered {s with registry := s.registry.unregisterPeer id} key) : s.Registered key := by
  obtain ⟨i, slot, hslot, hkey⟩ := h
  rw [Registry.lookup_unregisterPeer] at hslot
  split at hslot
  next => cases hslot
  next => exact ⟨i, slot, hslot, hkey⟩

/-- What is registered after the enforcer has dropped is listed among what it read. -/
theorem registered_disconnect {current : List Pubkey} {key : Pubkey}
    (h : Registered {s with registry := s.registry.disconnectUnauthorizedPeers current} key) :
    s.Registered key ∧ key ∈ current := by
  obtain ⟨id, slot, hslot, hkey⟩ := h
  rw [Registry.lookup_disconnectUnauthorizedPeers] at hslot
  obtain ⟨hslot, hauth⟩ := Option.filter_eq_some_iff.mp hslot
  refine ⟨⟨id, slot, hslot, hkey⟩, ?_⟩
  simpa [Registry.unauthorized, hkey] using hauth

theorem Enforced.step (he : s.Enforced) {a : Act} (ht : s.Timely a)
    (hs : step C init s a = some s') : s'.Enforced := by
  cases a with
  | edit authorized =>
    obtain rfl := Option.some.inj hs
    intro hpending
    cases hpending
  | notify =>
    simp only [Server.step, Option.ite_none_left_eq_some] at hs
    obtain ⟨hpos, hs⟩ := hs
    obtain rfl := Option.some.inj hs
    intro hpending key hreg hkeeps
    have hone : s.pending = 1 := by
      have : s.pending - 1 = 0 := hpending
      omega
    cases hphase : s.enforcer with
    | waiting => simp [Keeps, hphase] at hkeeps
    | outside => exact ht hone (by simp [hphase]) key hreg (by simp [Keeps, hphase])
    | woken => simp [Keeps, hphase] at hkeeps
    | read current =>
      exact ht hone (by simp [hphase]) key hreg (by simpa [Keeps, hphase] using hkeeps)
  | accept vaultId vaultName hub certFp hubNonce =>
    obtain rfl := Option.some.inj hs
    exact he
  | deliver i f sign =>
    obtain ⟨h, -, rfl⟩ := Option.map_eq_some_iff.mp hs
    exact he
  | register i =>
    obtain ⟨h, hi, hs⟩ := Option.bind_eq_some_iff.mp hs
    split at hs
    next peer peerNonce hphase hproof =>
      obtain rfl := Option.some.inj hs
      intro hpending key hreg hkeeps
      obtain rfl | hreg := registered_registerPeer hreg
      · exact ht hpending h key peerNonce hi hproof hkeeps
      · exact he hpending key hreg hkeeps
    next => cases hs
  | registerHub hub =>
    obtain rfl := Option.some.inj hs
    intro hpending key hreg hkeeps
    obtain rfl | hreg := registered_registerPeer hreg
    · exact ht hpending hkeeps
    · exact he hpending key hreg hkeeps
  | unregister id =>
    obtain rfl := Option.some.inj hs
    intro hpending key hreg hkeeps
    exact he hpending key (registered_unregisterPeer hreg) hkeeps
  | wait =>
    simp only [Server.step] at hs
    split at hs
    next hphase =>
      obtain rfl := Option.some.inj hs
      intro hpending key hreg _
      exact he hpending key hreg (by simp [Keeps, hphase])
    next => cases hs
  | read =>
    simp only [Server.step] at hs
    split at hs
    next hphase =>
      obtain rfl := Option.some.inj hs
      exact fun _ _ _ hkeeps => hkeeps
    next => cases hs
  | disconnect =>
    simp only [Server.step] at hs
    split at hs
    next current hphase =>
      obtain rfl := Option.some.inj hs
      intro hpending key hreg _
      obtain ⟨hreg, hcurrent⟩ := registered_disconnect hreg
      exact he hpending key hreg (by simpa [Keeps, hphase] using hcurrent)
    next => cases hs

/-! ### Whole runs -/

/-- The condition is needed: once the enforcer is set to leave an unlisted key in place, its
own steps lead it to idle with that key registered. -/
theorem unlisted_settles (C : Crypto) (init : σ) (hpending : s.pending = 0) {key : Pubkey}
    (hreg : s.Registered key) (hkeeps : s.Keeps key) (hun : key ∉ s.authorized) :
    ∃ s', Machine.Reach (step C init) (fun _ a => a = .wait ∨ a = .disconnect) s s' ∧
      s'.Idle ∧ s'.Registered key ∧ key ∉ s'.authorized := by
  cases hphase : s.enforcer with
  | outside =>
    refine ⟨{s with enforcer := .waiting}, ?_, ⟨rfl, hpending⟩, hreg, hun⟩
    exact .step .wait .start (.inl rfl) (by simp [step, hphase])
  | waiting => exact ⟨s, .start, ⟨hphase, hpending⟩, hreg, hun⟩
  | woken => simp [Keeps, hphase] at hkeeps
  | read current =>
    have hcurrent : key ∈ current := by simpa [Keeps, hphase] using hkeeps
    have hdrop : step C init s .disconnect = some {s with
        registry := s.registry.disconnectUnauthorizedPeers current
        enforcer := .outside} := by
      simp only [step, hphase]
    refine ⟨{s with
      registry := s.registry.disconnectUnauthorizedPeers current
      enforcer := .waiting}, ?_, ⟨rfl, hpending⟩, ?_, hun⟩
    · exact .step .wait (.step .disconnect .start (.inr rfl) hdrop) (.inl rfl) rfl
    · obtain ⟨id, slot, hslot, hkey⟩ := hreg
      refine ⟨id, slot, ?_, hkey⟩
      show (s.registry.disconnectUnauthorizedPeers current).lookup id = some slot
      rw [Registry.lookup_disconnectUnauthorizedPeers, hslot]
      simp [Option.filter, Registry.unauthorized, hkey, hcurrent]

/-- A session past its check registers a key that the enforcer has dealt with in between. -/
theorem run_late_registration (C : Crypto) (init : σ) (hidle : s.Idle) (after : List Pubkey)
    {i : Nat} {h : HubSession} {peer : Pubkey} {peerNonce : Array32} (hi : s.sessions[i]? = some h)
    (hphase : h.phase = .registered) (hproof : h.proof = some (peer, peerNonce)) :
    Machine.run (step C init) s
      [.edit after, .notify, .read, .disconnect, .wait, .register i] =
      some {s with
        authorized := after
        sessions := s.sessions.eraseIdx i
        registry := (s.registry.disconnectUnauthorizedPeers after).registerPeer init (some peer)
        enforcer := .waiting} := by
  obtain ⟨hwaiting, hpending⟩ := hidle
  simp [Machine.run, step, hwaiting, hpending, hi, hphase, hproof]

end Server

end AgentSync.Net
