import Mathlib.Data.List.AList
import AgentSync.Net.Auth

/-! The registered peers of a vault.

`peers` maps an id to the slot of a connection and `next_peer_id` hands ids out in
order, so an id that is gone never comes back: a slot that was removed stays removed
(`Registry.Removed`). -/
namespace AgentSync.Net

/-- What the vault keeps for a registered connection, less its outbound channel. -/
structure PeerSlot (σ : Type*) where
  state : σ
  pubkey : Option Pubkey

/-- `peers` and `next_peer_id`. -/
structure Registry (σ : Type*) where
  peers : AList fun _ : Nat => PeerSlot σ
  nextPeerId : Nat
  fresh : ∀ id ∈ peers, id < nextPeerId

namespace Registry

variable {σ : Type*}

def empty : Registry σ where
  peers := ∅
  nextPeerId := 1
  fresh := fun _ h => absurd h (AList.notMem_empty _)

/-- `register_peer`, with the initial sync state. -/
def registerPeer (r : Registry σ) (state : σ) (pubkey : Option Pubkey) : Registry σ where
  peers := r.peers.insert r.nextPeerId ⟨state, pubkey⟩
  nextPeerId := r.nextPeerId + 1
  fresh := by
    intro id hid
    obtain rfl | hid := (AList.mem_insert _).mp hid
    · exact Nat.lt_succ_self _
    · exact Nat.lt_succ_of_lt (r.fresh id hid)

/-- `unregister_peer`. -/
def unregisterPeer (r : Registry σ) (id : Nat) : Registry σ where
  peers := r.peers.erase id
  nextPeerId := r.nextPeerId
  fresh := fun i hi => r.fresh i ((AList.mem_erase.mp hi).2)

/-- The slot's key is one that `authorized` does not list. -/
def unauthorized (authorized : List Pubkey) (slot : PeerSlot σ) : Bool :=
  match slot.pubkey with
  | some key => !authorized.contains key
  | none => false

/-- `disconnect_unauthorized_peers`. -/
def disconnectUnauthorizedPeers (r : Registry σ) (authorized : List Pubkey) : Registry σ :=
  let toDrop := (r.peers.entries.filter fun e => unauthorized authorized e.2).map Sigma.fst
  toDrop.foldl unregisterPeer r

/-- `slot.state` is replaced, if the slot is there. -/
def setState (r : Registry σ) (id : Nat) (state : σ) : Registry σ :=
  match h : r.peers.lookup id with
  | none => r
  | some slot =>
    { peers := r.peers.insert id {slot with state}
      nextPeerId := r.nextPeerId
      fresh := by
        intro i hi
        obtain rfl | hi := (AList.mem_insert _).mp hi
        · exact r.fresh i (AList.mem_keys.mpr (AList.lookup_isSome.mp (by simp [h])))
        · exact r.fresh i hi }

def lookup (r : Registry σ) (id : Nat) : Option (PeerSlot σ) := r.peers.lookup id

theorem lt_of_lookup {r : Registry σ} {id : Nat} {slot : PeerSlot σ}
    (h : r.lookup id = some slot) : id < r.nextPeerId :=
  r.fresh id (AList.lookup_isSome.mp (Option.isSome_of_mem h))

/-! ### What each operation does to a slot -/

@[simp] theorem lookup_registerPeer (r : Registry σ) (state : σ) (pubkey : Option Pubkey)
    (id : Nat) : (r.registerPeer state pubkey).lookup id =
      if id = r.nextPeerId then some ⟨state, pubkey⟩ else r.lookup id := by
  unfold lookup registerPeer
  split
  next h => rw [h, AList.lookup_insert]
  next h => rw [AList.lookup_insert_ne h]

@[simp] theorem lookup_unregisterPeer (r : Registry σ) (i id : Nat) :
    (r.unregisterPeer i).lookup id = if id = i then none else r.lookup id := by
  unfold lookup unregisterPeer
  split
  next h => rw [h, AList.lookup_erase]
  next h => rw [AList.lookup_erase_ne h]

@[simp] theorem lookup_setState (r : Registry σ) (i id : Nat) (state : σ) :
    (r.setState i state).lookup id =
      if id = i then (r.lookup i).map fun slot => {slot with state} else r.lookup id := by
  unfold setState
  split
  next h =>
    split
    next hid =>
      subst hid
      simp [lookup, h]
    next => rfl
  next slot h =>
    split
    next hid =>
      subst hid
      simp [lookup, h]
    next hid => exact AList.lookup_insert_ne hid

private theorem lookup_foldl_unregisterPeer (r : Registry σ) (ids : List Nat) (id : Nat) :
    (ids.foldl unregisterPeer r).lookup id = if id ∈ ids then none else r.lookup id := by
  induction ids generalizing r with
  | nil => simp
  | cons i rest ih =>
    rw [List.foldl_cons, ih, lookup_unregisterPeer]
    by_cases hrest : id ∈ rest
    · simp [hrest]
    · by_cases hid : id = i <;> simp [hid, hrest]

/-- A slot survives exactly when its key is listed, or it has none. -/
theorem lookup_disconnectUnauthorizedPeers (r : Registry σ) (authorized : List Pubkey)
    (id : Nat) : (r.disconnectUnauthorizedPeers authorized).lookup id =
      (r.lookup id).filter fun slot => !unauthorized authorized slot := by
  have hmem : id ∈ (r.peers.entries.filter fun e => unauthorized authorized e.2).map Sigma.fst ↔
      ∃ slot, r.lookup id = some slot ∧ unauthorized authorized slot = true := by
    simp only [List.mem_map, List.mem_filter, lookup]
    constructor
    · rintro ⟨⟨i, slot⟩, ⟨hentry, hun⟩, rfl⟩
      exact ⟨slot, AList.mem_lookup_iff.mpr hentry, hun⟩
    · rintro ⟨slot, hslot, hun⟩
      exact ⟨⟨id, slot⟩, ⟨AList.mem_lookup_iff.mp hslot, hun⟩, rfl⟩
  unfold disconnectUnauthorizedPeers
  rw [lookup_foldl_unregisterPeer, if_congr hmem rfl rfl]
  cases hslot : r.lookup id with
  | none => simp
  | some slot => by_cases hun : unauthorized authorized slot = true <;> simp [hun, Option.filter]

@[simp] theorem nextPeerId_setState (r : Registry σ) (id : Nat) (state : σ) :
    (r.setState id state).nextPeerId = r.nextPeerId := by
  unfold setState
  split <;> rfl

@[simp] theorem nextPeerId_disconnectUnauthorizedPeers (r : Registry σ)
    (authorized : List Pubkey) :
    (r.disconnectUnauthorizedPeers authorized).nextPeerId = r.nextPeerId := by
  unfold disconnectUnauthorizedPeers
  induction (r.peers.entries.filter fun e => unauthorized authorized e.2).map Sigma.fst
    generalizing r with
  | nil => rfl
  | cons i rest ih => exact ih (r.unregisterPeer i)

/-! ### Removal is final -/

/-- The id was handed out and its slot is gone. -/
def Removed (r : Registry σ) (id : Nat) : Prop := id < r.nextPeerId ∧ r.lookup id = none

namespace Removed

variable {r : Registry σ} {id : Nat}

theorem registerPeer (h : r.Removed id) (state : σ) (pubkey : Option Pubkey) :
    (r.registerPeer state pubkey).Removed id := by
  refine ⟨Nat.lt_succ_of_lt h.1, ?_⟩
  rw [lookup_registerPeer, if_neg (Nat.ne_of_lt h.1), h.2]

theorem unregisterPeer (h : r.Removed id) (i : Nat) : (r.unregisterPeer i).Removed id := by
  refine ⟨h.1, ?_⟩
  rw [lookup_unregisterPeer, h.2, ite_self]

theorem disconnectUnauthorizedPeers (h : r.Removed id) (authorized : List Pubkey) :
    (r.disconnectUnauthorizedPeers authorized).Removed id := by
  refine ⟨by simpa using h.1, ?_⟩
  rw [lookup_disconnectUnauthorizedPeers, h.2]
  rfl

theorem setState (h : r.Removed id) (i : Nat) (state : σ) : (r.setState i state).Removed id := by
  refine ⟨by simpa using h.1, ?_⟩
  rw [lookup_setState]
  split
  next hid => rw [← hid, h.2]; rfl
  next => exact h.2

end Removed

end Registry

end AgentSync.Net
