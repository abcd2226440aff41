import AgentSync.Machine
import Mathlib.Data.List.GetD

/-! The saved sync states of a TypeScript vault.

A document stands for the hashes of its changes, a sync state for its shared heads. `saveDoc`
and `saveSyncState` are atomic writes that land in any order and resolve later; a crash drops
what has not landed. `flush` takes the document's bytes before its first wait and encodes the
sync state after it; nothing that discards a document touches the sync states. Nothing keeps two
vaults from being open on one storage either, and a controller that is started twice has two.

The law (`Trusted`) is that a sync state never names a change the open document lacks when the
handshake loads it. `Inv` carries it: what is saved or being saved as a sync state is named by
the saved document, by every document being saved and by every open one. Two steps break it
(`Backed`): encoding a sync state ahead of a document that is being saved or that another vault
has open, and a fresh document beside sync states that are left from another. -/
namespace AgentSync.Sdk

/-- A `ConnectionState`: the hub's key and the shared heads of its sync state. -/
structure SyncSession (H : Type) where
  key : Nat
  shared : List H
  deriving DecidableEq, Repr

structure OpenVault (H : Type) where
  doc : List H
  closed : Bool
  connection : Option Nat
  sessions : List (SyncSession H)
  /-- Frame handlers in `pumpOutbound`, by session. -/
  pumping : List Nat
  deriving DecidableEq, Repr

/-- One of the vaults that there have been on the storage. -/
inductive VaultSlot (H : Type) where
  | gone
  /-- In the `saveDoc` of `Vault.create`. -/
  | creating (doc : List H)
  | opened (v : OpenVault H)
  deriving DecidableEq, Repr

/-- The document that is open or about to be. -/
def VaultSlot.doc {H : Type} : VaultSlot H → Option (List H)
  | .gone => none
  | .creating doc => some doc
  | .opened v => some v.doc

inductive StorageWrite (H : Type) where
  /-- `none` is the zero-length document. -/
  | doc (content : Option (List H))
  | state (key : Nat) (shared : List H)
  deriving DecidableEq, Repr

/-- What goes on when a save resolves; `handler` is the session of the frame handler that
called `flush`. -/
inductive SaveCaller where
  | create
  | flushDoc (handler : Option Nat)
  | flushState (handler : Option Nat)
  | persist
  | discard
  deriving DecidableEq, Repr

structure StorageSave (H : Type) where
  write : StorageWrite H
  caller : SaveCaller
  /-- The vault that has made it. -/
  owner : Nat
  landed : Bool
  deriving DecidableEq, Repr

structure Device (H : Type) where
  doc : Option (List H)
  states : Nat → Option (List H)
  saves : List (StorageSave H)
  /-- The vaults that there have been since the last crash. -/
  vaults : List (VaultSlot H)

namespace Device

variable {H : Type}

def empty : Device H := ⟨none, fun _ => none, [], []⟩

variable (genesis : Nat → List H) (s : Device H) (v : OpenVault H) (i : Nat)

/-- The vault, if it is open. -/
def open? : Option (OpenVault H) :=
  match s.vaults[i]? with
  | some (.opened v) => some v
  | _ => none

def put (slot : VaultSlot H) : Device H := {s with vaults := s.vaults.set i slot}

def save (write : StorageWrite H) (caller : SaveCaller) : Device H :=
  {s with saves := s.saves ++ [⟨write, caller, i, false⟩]}

/-- A frame handler goes on to `pumpOutbound`; a mutating method is over. -/
def afterFlush (handler : Option Nat) : Device H :=
  s.put i (.opened {v with pumping := v.pumping ++ handler.toList})

/-- `flush`, up to its first wait. -/
def flush (handler : Option Nat) : Device H :=
  if v.closed then s.afterFlush v i handler
  else (s.put i (.opened v)).save i (.doc (some v.doc)) (.flushDoc handler)

/-- `persistSyncState`, up to its wait. -/
def persistSyncState (conn : Nat) (caller : SaveCaller) : Option (Device H) :=
  (v.sessions[conn]?).map fun c =>
    (s.put i (.opened v)).save i (.state c.key c.shared) caller

/-- A save resolves into the open vault that has made it. -/
def resume : SaveCaller → Option (Device H)
  | .flushDoc handler =>
    match v.connection with
    | some conn => s.persistSyncState v i conn (.flushState handler)
    | none => some (s.afterFlush v i handler)
  | .flushState handler => some (s.afterFlush v i handler)
  | .create | .persist | .discard => some s

/-- Save `k` has resolved. -/
def resolve (k : Nat) (w : StorageSave H) : Option (Device H) :=
  let s : Device H := {s with saves := s.saves.eraseIdx k}
  match s.vaults[w.owner]? with
  | some (.creating doc) =>
    if w.caller = .create then some (s.put w.owner (.opened ⟨doc, false, none, [], []⟩))
    else some s
  | some (.opened v) => s.resume v w.owner w.caller
  | _ => some s

/-- What happens next; `i` is the vault that it happens to. -/
inductive Act (H : Type) where
  | create (vaultId : Nat)
  | openVault
  /-- A mutating method. -/
  | mutate (i : Nat) (added : List H)
  /-- `runHandshake` loads the sync state of `key` and the connection is stored. -/
  | handshake (i : Nat) (key : Nat)
  /-- A sync frame: the changes it brings and the shared heads it leaves. -/
  | receive (i : Nat) (conn : Nat) (added shared : List H)
  /-- The `pumpOutbound` of the `k`-th handler is over. -/
  | pumped (i : Nat) (k : Nat)
  | land (k : Nat)
  | resolve (k : Nat)
  | disconnect (i : Nat)
  /-- `close` sets its flag; later it frees the document. -/
  | close (i : Nat)
  | free (i : Nat)
  /-- `saveDoc` of no bytes, by `resetLocalState` or by a rebuild for another vault id. -/
  | discard
  | crash
  deriving DecidableEq, Repr

def step [DecidableEq H] (s : Device H) : Act H → Option (Device H)
  | .create vaultId =>
    let added : Device H := {s with vaults := s.vaults ++ [.creating (genesis vaultId)]}
    some (added.save s.vaults.length (.doc (some (genesis vaultId))) .create)
  | .openVault => s.doc.map fun doc =>
    {s with vaults := s.vaults ++ [.opened ⟨doc, false, none, [], []⟩]}
  | .mutate i added => (s.open? i).map fun v => s.flush {v with doc := v.doc ++ added} i none
  | .handshake i key => (s.open? i).map fun v => s.put i (.opened {v with
      connection := some v.sessions.length
      sessions := v.sessions ++ [⟨key, (s.states key).getD []⟩]})
  | .receive i conn added shared =>
    (s.open? i).bind fun v => (v.sessions[conn]?).bind fun c =>
      -- A sync state comes to name only what the document has.
      if shared ⊆ c.shared ++ v.doc ++ added then
        let received : OpenVault H := {v with
          doc := v.doc ++ added
          sessions := v.sessions.set conn {c with shared}}
        some (if added = [] then s.afterFlush received i (some conn)
          else s.flush received i (some conn))
      else none
  | .pumped i k => (s.open? i).bind fun v => (v.pumping[k]?).bind fun conn =>
    s.persistSyncState {v with pumping := v.pumping.eraseIdx k} i conn .persist
  | .land k => (s.saves[k]?).bind fun w =>
    if w.landed then none
    else
      let landed : Device H := {s with saves := s.saves.set k {w with landed := true}}
      match w.write with
      | .doc content => some {landed with doc := content}
      | .state key shared => some {landed with states := Function.update s.states key (some shared)}
  | .resolve k => (s.saves[k]?).bind fun w => if w.landed then s.resolve k w else none
  | .disconnect i => (s.open? i).map fun v => s.put i (.opened {v with connection := none})
  | .close i => (s.open? i).map fun v => s.put i (.opened {v with closed := true})
  | .free i => (s.open? i).bind fun v => if v.closed then some (s.put i .gone) else none
  | .discard => some (s.save s.vaults.length (.doc none) .discard)
  | .crash => some {s with saves := [], vaults := []}

/-! ### The law and its condition -/

/-- Whenever a handshake loads a sync state, the document of its vault has what it names. -/
def Trusted [DecidableEq H] : Prop := ∀ i v, s.open? i = some v → ∀ key s',
  step genesis s (.handshake i key) = some s' → ∀ shared, s.states key = some shared →
    shared ⊆ v.doc

/-- A document that may be the next one opened. -/
def Document (content : List H) : Prop := s.doc = some content ∨
  ∃ w ∈ s.saves, w.landed = false ∧ w.write = .doc (some content)

/-- A sync state that may be the next one loaded. -/
def State (shared : List H) : Prop := (∃ key, s.states key = some shared) ∨
  ∃ w ∈ s.saves, w.landed = false ∧ ∃ key, w.write = .state key shared

/-- The vault has the document, open or about to be. -/
def Has (content : List H) : Prop :=
  ∃ slot, s.vaults[i]? = some slot ∧ slot.doc = some content

/-- The shared heads that the step encodes, and the vault that does. -/
def encoded : Act H → Option (Nat × List H)
  | .pumped i k => (s.open? i).bind fun v => (v.pumping[k]?).bind fun conn =>
    (v.sessions[conn]?).map fun c => (i, c.shared)
  | .resolve k => (s.saves[k]?).bind fun w =>
    match w.caller with
    | .flushDoc _ => (s.open? w.owner).bind fun v => v.connection.bind fun conn =>
      (v.sessions[conn]?).map fun c => (w.owner, c.shared)
    | _ => none
  | _ => none

/-- A sync state is encoded only when the saved document, every document being saved and the
document of every other vault have what it names, and a fresh document is created only when it has
what every saved sync state names. -/
structure Backed (a : Act H) : Prop where
  saved : ∀ i shared, s.encoded a = some (i, shared) → ∀ content, s.Document content →
    shared ⊆ content
  others : ∀ i shared, s.encoded a = some (i, shared) → ∀ j content, j ≠ i → s.Has j content →
    shared ⊆ content
  fresh : ∀ vaultId, a = .create vaultId → ∀ shared, s.State shared → shared ⊆ genesis vaultId

/-! ### What is saved and being saved -/

variable {genesis s v i} {s' : Device H} {content shared : List H} {key : Nat} {slot : VaultSlot H}
  {write : StorageWrite H} {caller : SaveCaller} {w : StorageSave H}

theorem open?_eq_some : s.open? i = some v ↔ s.vaults[i]? = some (.opened v) := by
  unfold open?
  split
  next u hu => simp [hu]
  next hno =>
    refine iff_of_false nofun fun h => ?_
    exact hno v h

theorem document_save (h : (s.save i write caller).Document content) :
    s.Document content ∨ write = .doc (some content) := by
  rcases h with h | ⟨w, hw, hlanded, hwrite⟩
  · exact .inl (.inl h)
  · rcases List.mem_append.mp hw with hw | hw
    · exact .inl (.inr ⟨w, hw, hlanded, hwrite⟩)
    · obtain rfl := List.mem_singleton.mp hw
      exact .inr hwrite

theorem state_save (h : (s.save i write caller).State shared) :
    s.State shared ∨ ∃ key, write = .state key shared := by
  rcases h with h | ⟨w, hw, hlanded, key, hwrite⟩
  · exact .inl (.inl h)
  · rcases List.mem_append.mp hw with hw | hw
    · exact .inl (.inr ⟨w, hw, hlanded, key, hwrite⟩)
    · obtain rfl := List.mem_singleton.mp hw
      exact .inr ⟨key, hwrite⟩

theorem has_put {j : Nat} (h : (s.put i slot).Has j content) :
    j = i ∧ slot.doc = some content ∨ j ≠ i ∧ s.Has j content := by
  obtain ⟨slot', hslot, hdoc⟩ := h
  by_cases hj : j = i
  · subst hj
    rw [put, List.getElem?_set] at hslot
    split at hslot
    next =>
      split at hslot
      next => exact .inl ⟨rfl, Option.some.inj hslot ▸ hdoc⟩
      next => cases hslot
    next hne => exact absurd rfl hne
  · rw [put, List.getElem?_set_ne (Ne.symm hj)] at hslot
    exact .inr ⟨hj, slot', hslot, hdoc⟩

/-- The document of a vault has what the sync states name, those that are saved and its own. -/
structure Knows (s : Device H) (v : OpenVault H) : Prop where
  states : ∀ shared, s.State shared → shared ⊆ v.doc
  sessions : ∀ c ∈ v.sessions, c.shared ⊆ v.doc

structure Inv (s : Device H) : Prop where
  held : ∀ shared, s.State shared → ∀ content, s.Document content → shared ⊆ content
  current : ∀ i content, s.Has i content → ∀ shared, s.State shared → shared ⊆ content
  sessions : ∀ i v, s.open? i = some v → ∀ c ∈ v.sessions, c.shared ⊆ v.doc

theorem has_of_open (hv : s.open? i = some v) : s.Has i v.doc :=
  ⟨.opened v, open?_eq_some.mp hv, rfl⟩

theorem Inv.knows (h : s.Inv) (hv : s.open? i = some v) : s.Knows v :=
  ⟨h.current i v.doc (has_of_open hv), h.sessions i v hv⟩

theorem Inv.trusted [DecidableEq H] (h : s.Inv) : s.Trusted genesis :=
  fun _ _ hv key _ _ shared hshared => (h.knows hv).states shared (.inl ⟨key, hshared⟩)

/-- A vault comes to have a document with all that is named. -/
theorem Inv.put (h : s.Inv)
    (hdoc : ∀ content, slot.doc = some content → ∀ shared, s.State shared → shared ⊆ content)
    (hsessions : ∀ v, slot = .opened v → ∀ c ∈ v.sessions, c.shared ⊆ v.doc) : (s.put i slot).Inv where
  held := h.held
  current := by
    intro j content hhas shared hs
    obtain ⟨-, hslot⟩ | ⟨-, hhas⟩ := has_put hhas
    · exact hdoc content hslot shared hs
    · exact h.current j content hhas shared hs
  sessions := by
    intro j u hu
    rw [open?_eq_some, Device.put, List.getElem?_set] at hu
    split at hu
    next =>
      split at hu
      next => exact hsessions u (Option.some.inj hu)
      next => cases hu
    next => exact h.sessions j u (open?_eq_some.mpr hu)

theorem Inv.opens (h : s.Inv) (hv : s.Knows v) : (s.put i (.opened v)).Inv := by
  refine h.put (fun content hc => ?_) fun u hu => ?_
  · obtain rfl := Option.some.inj hc
    exact hv.states
  · obtain rfl := VaultSlot.opened.inj hu
    exact hv.sessions

theorem Inv.saveDoc {doc : Option (List H)} (h : s.Inv)
    (hdoc : ∀ content, doc = some content → ∀ shared, s.State shared → shared ⊆ content) :
    (s.save i (.doc doc) caller).Inv := by
  have hstate : ∀ shared, (s.save i (.doc doc) caller).State shared → s.State shared := by
    intro shared hs
    rcases state_save hs with hs | ⟨key, hs⟩
    · exact hs
    · cases hs
  refine ⟨fun shared hs content hc => ?_,
    fun j content hhas shared hs => h.current j content hhas shared (hstate _ hs), h.sessions⟩
  rcases document_save hc with hc | hc
  · exact h.held shared (hstate _ hs) content hc
  · exact hdoc content (StorageWrite.doc.inj hc) shared (hstate _ hs)

theorem Inv.saveState (h : s.Inv) (hheld : ∀ content, s.Document content → shared ⊆ content)
    (hcurrent : ∀ j content, s.Has j content → shared ⊆ content) :
    (s.save i (.state key shared) caller).Inv := by
  have hstate : ∀ t, (s.save i (.state key shared) caller).State t → s.State t ∨ t = shared := by
    intro t ht
    rcases state_save ht with ht | ⟨key', ht⟩
    · exact .inl ht
    · exact .inr (StorageWrite.state.inj ht).2.symm
  refine ⟨fun t ht content hc => ?_, fun j content hhas t ht => ?_, h.sessions⟩
  · have hc' : s.Document content := by
      rcases document_save hc with hc | hc
      · exact hc
      · cases hc
    rcases hstate t ht with ht | rfl
    · exact h.held t ht content hc'
    · exact hheld content hc'
  · rcases hstate t ht with ht | rfl
    · exact h.current j content hhas t ht
    · exact hcurrent j content hhas

/-- Saves are forgotten: they have resolved or a crash has dropped them. -/
theorem Inv.forgets (h : s.Inv) {saves : List (StorageSave H)} (hsub : saves ⊆ s.saves) :
    Inv {s with saves} := by
  have hstate : ∀ shared, State {s with saves} shared → s.State shared := fun shared hs =>
    hs.imp_right fun ⟨w, hw, hrest⟩ => ⟨w, hsub hw, hrest⟩
  exact ⟨fun shared hs content hc => h.held shared (hstate shared hs) content
      (hc.imp_right fun ⟨w, hw, hrest⟩ => ⟨w, hsub hw, hrest⟩),
    fun j content hhas shared hs => h.current j content hhas shared (hstate shared hs), h.sessions⟩

theorem Inv.afterFlush (h : s.Inv) (hv : s.Knows v) {handler : Option Nat} :
    (s.afterFlush v i handler).Inv :=
  h.opens (v := {v with pumping := v.pumping ++ handler.toList}) ⟨hv.states, hv.sessions⟩

theorem Inv.flush (h : s.Inv) (hv : s.Knows v) {handler : Option Nat} :
    (s.flush v i handler).Inv := by
  unfold Device.flush
  split
  · exact h.afterFlush hv
  · refine (h.opens hv).saveDoc fun content hc => ?_
    obtain rfl := Option.some.inj hc
    exact hv.states

theorem Inv.persistSyncState (h : s.Inv) (hv : s.Knows v) {conn : Nat}
    (hsaved : ∀ shared, (v.sessions[conn]?).map SyncSession.shared = some shared →
      ∀ content, s.Document content → shared ⊆ content)
    (hothers : ∀ shared, (v.sessions[conn]?).map SyncSession.shared = some shared →
      ∀ j content, j ≠ i → s.Has j content → shared ⊆ content)
    (hs : s.persistSyncState v i conn caller = some s') : s'.Inv := by
  obtain ⟨c, hc, rfl⟩ := Option.map_eq_some_iff.mp hs
  have hshared : (v.sessions[conn]?).map SyncSession.shared = some c.shared := by
    rw [hc]
    rfl
  refine (h.opens hv).saveState (hsaved c.shared hshared) fun j content hhas => ?_
  obtain ⟨-, hdoc⟩ | ⟨hj, hhas⟩ := has_put hhas
  · obtain rfl := Option.some.inj hdoc
    exact hv.sessions c (List.mem_of_getElem? hc)
  · exact hothers c.shared hshared j content hj hhas

theorem Inv.resolve (h : s.Inv) {k : Nat} (hk : s.saves[k]? = some w)
    (hbacked : s.Backed genesis (.resolve k)) (hs : s.resolve k w = some s') : s'.Inv := by
  have hleft : Inv {s with saves := s.saves.eraseIdx k} := h.forgets (List.eraseIdx_subset ..)
  unfold Device.resolve at hs
  simp only at hs
  split at hs
  next doc hslot =>
    split at hs
    · obtain rfl := Option.some.inj hs
      refine hleft.opens ⟨hleft.current w.owner doc ⟨_, hslot, rfl⟩, fun c hc => ?_⟩
      cases hc
    · obtain rfl := Option.some.inj hs
      exact hleft
  next v hslot =>
    have hopen : s.open? w.owner = some v := open?_eq_some.mpr hslot
    have hv := hleft.knows (v := v) (i := w.owner) hopen
    unfold Device.resume at hs
    cases hcaller : w.caller with
    | flushDoc handler =>
      simp only [hcaller] at hs
      cases hconn : v.connection with
      | none =>
        simp only [hconn] at hs
        obtain rfl := Option.some.inj hs
        exact hleft.afterFlush hv
      | some conn =>
        simp only [hconn] at hs
        have hencoded (shared : List H)
            (hshared : (v.sessions[conn]?).map SyncSession.shared = some shared) :
            s.encoded (.resolve k) = some (w.owner, shared) := by
          obtain ⟨c, hc, rfl⟩ := Option.map_eq_some_iff.mp hshared
          simp [encoded, hk, hcaller, hopen, hconn, hc]
        refine hleft.persistSyncState hv (fun shared hshared content hc => ?_)
          (fun shared hshared => hbacked.others _ _ (hencoded shared hshared)) hs
        exact hbacked.saved _ _ (hencoded shared hshared) content
          (hc.imp_right fun ⟨u, hu, hrest⟩ => ⟨u, List.eraseIdx_subset hu, hrest⟩)
    | flushState handler =>
      simp only [hcaller] at hs
      obtain rfl := Option.some.inj hs
      exact hleft.afterFlush hv
    | create | persist | discard =>
      simp only [hcaller] at hs
      obtain rfl := Option.some.inj hs
      exact hleft
  next =>
    obtain rfl := Option.some.inj hs
    exact hleft

theorem state_land {k : Nat} {doc : Option (List H)}
    {states : Nat → Option (List H)}
    (hstates : ∀ key shared, states key = some shared → s.State shared)
    (h : State {s with doc, states, saves := s.saves.set k {w with landed := true}} shared) :
    s.State shared := by
  rcases h with ⟨key, h⟩ | ⟨u, hu, hlanded, hwrite⟩
  · exact hstates key shared h
  · rcases List.mem_or_eq_of_mem_set hu with hu | rfl
    · exact .inr ⟨u, hu, hlanded, hwrite⟩
    · cases hlanded

theorem document_land {k : Nat} {doc : Option (List H)} {states : Nat → Option (List H)}
    (hdoc : ∀ content, doc = some content → s.Document content)
    (h : Document {s with doc, states, saves := s.saves.set k {w with landed := true}} content) :
    s.Document content := by
  rcases h with h | ⟨u, hu, hlanded, hwrite⟩
  · exact hdoc content h
  · rcases List.mem_or_eq_of_mem_set hu with hu | rfl
    · exact .inr ⟨u, hu, hlanded, hwrite⟩
    · cases hlanded

/-- What lands was being saved. -/
theorem Inv.lands (h : s.Inv) {k : Nat} {doc : Option (List H)} {states : Nat → Option (List H)}
    (hdoc : ∀ content, doc = some content → s.Document content)
    (hstates : ∀ key shared, states key = some shared → s.State shared) :
    Inv {s with doc, states, saves := s.saves.set k {w with landed := true}} :=
  ⟨fun shared hs content hc => h.held shared (state_land hstates hs) content
      (document_land hdoc hc),
    fun j content hhas shared hs => h.current j content hhas shared (state_land hstates hs),
    h.sessions⟩

/-- Another vault comes to be on the storage. -/
theorem Inv.added (h : s.Inv)
    (hdoc : ∀ content, slot.doc = some content → ∀ shared, s.State shared → shared ⊆ content)
    (hsessions : ∀ v, slot = .opened v → ∀ c ∈ v.sessions, c.shared ⊆ v.doc) :
    Inv {s with vaults := s.vaults ++ [slot]} where
  held := h.held
  current := by
    rintro j content ⟨slot', hslot, hcontent⟩ shared hs
    rw [List.getElem?_append] at hslot
    split at hslot
    · exact h.current j content ⟨slot', hslot, hcontent⟩ shared hs
    · obtain rfl := List.mem_singleton.mp (List.mem_of_getElem? hslot)
      exact hdoc content hcontent shared hs
  sessions := by
    intro j u hu
    rw [open?_eq_some, List.getElem?_append] at hu
    split at hu
    · exact h.sessions j u (open?_eq_some.mpr hu)
    · exact hsessions u (List.mem_singleton.mp (List.mem_of_getElem? hu)).symm

theorem Inv.create [DecidableEq H] (h : s.Inv) {vaultId : Nat}
    (hfresh : ∀ shared, s.State shared → shared ⊆ genesis vaultId)
    (hs : Device.step genesis s (.create vaultId) = some s') : s'.Inv := by
  obtain rfl := Option.some.inj hs
  have hall : ∀ content, some (genesis vaultId) = some content →
      ∀ shared, s.State shared → shared ⊆ content := by
    intro content hc
    obtain rfl := Option.some.inj hc
    exact hfresh
  have hadded : Inv {s with vaults := s.vaults ++ [.creating (genesis vaultId)]} :=
    h.added hall nofun
  exact hadded.saveDoc hall

/-- The document that is opened is the one that is saved. -/
theorem Inv.openVault [DecidableEq H] (h : s.Inv)
    (hs : Device.step genesis s .openVault = some s') : s'.Inv := by
  obtain ⟨doc, hdoc, rfl⟩ := Option.map_eq_some_iff.mp hs
  refine h.added (fun content hc shared hs => ?_) fun v hv c hc => ?_
  · obtain rfl := Option.some.inj hc
    exact h.held shared hs doc (.inl hdoc)
  · obtain rfl := VaultSlot.opened.inj hv
    cases hc

theorem Inv.mutate [DecidableEq H] (h : s.Inv) {added : List H}
    (hs : Device.step genesis s (.mutate i added) = some s') : s'.Inv := by
  obtain ⟨v, hv, rfl⟩ := Option.map_eq_some_iff.mp hs
  have hknows := h.knows hv
  exact h.flush (v := {v with doc := v.doc ++ added})
    ⟨fun shared hshared => List.subset_append_of_subset_left _ (hknows.states shared hshared),
      fun c hc => List.subset_append_of_subset_left _ (hknows.sessions c hc)⟩

/-- The vault has what the sync state names that is loaded for its connection. -/
theorem Inv.handshake [DecidableEq H] (h : s.Inv)
    (hs : Device.step genesis s (.handshake i key) = some s') : s'.Inv := by
  obtain ⟨v, hv, rfl⟩ := Option.map_eq_some_iff.mp hs
  have hknows := h.knows hv
  refine h.opens ⟨hknows.states, fun c hc => ?_⟩
  rcases List.mem_append.mp hc with hc | hc
  · exact hknows.sessions c hc
  · obtain rfl := List.mem_singleton.mp hc
    show (s.states key).getD [] ⊆ v.doc
    cases hstate : s.states key with
    | none => exact List.nil_subset _
    | some shared => exact hknows.states shared (.inl ⟨key, hstate⟩)

/-- A frame leaves a sync state that names only what the document has by then. -/
theorem Inv.receive [DecidableEq H] (h : s.Inv) {conn : Nat} {added shared : List H}
    (hs : Device.step genesis s (.receive i conn added shared) = some s') : s'.Inv := by
  obtain ⟨v, hv, hs⟩ := Option.bind_eq_some_iff.mp hs
  obtain ⟨c, hc, hs⟩ := Option.bind_eq_some_iff.mp hs
  obtain ⟨hshared, hs⟩ := Option.ite_none_right_eq_some.mp hs
  obtain rfl := Option.some.inj hs
  have hknows := h.knows hv
  have hreceived : s.Knows {v with
      doc := v.doc ++ added
      sessions := v.sessions.set conn {c with shared}} := by
    refine ⟨fun t ht => List.subset_append_of_subset_left _ (hknows.states t ht), fun d hd => ?_⟩
    rcases List.mem_or_eq_of_mem_set hd with hd | rfl
    · exact List.subset_append_of_subset_left _ (hknows.sessions d hd)
    · intro x hx
      have hknown := hshared hx
      rw [List.append_assoc, List.mem_append] at hknown
      rcases hknown with hx | hx
      · exact List.mem_append_left _ (hknows.sessions c (List.mem_of_getElem? hc) hx)
      · exact hx
  split
  · exact h.afterFlush hreceived
  · exact h.flush hreceived

theorem Inv.pumped [DecidableEq H] (h : s.Inv) {k : Nat} (hbacked : s.Backed genesis (.pumped i k))
    (hs : Device.step genesis s (.pumped i k) = some s') : s'.Inv := by
  obtain ⟨v, hv, hs⟩ := Option.bind_eq_some_iff.mp hs
  obtain ⟨conn, hconn, hs⟩ := Option.bind_eq_some_iff.mp hs
  have hknows := h.knows hv
  have hencoded (shared : List H)
      (hshared : (v.sessions[conn]?).map SyncSession.shared = some shared) :
      s.encoded (.pumped i k) = some (i, shared) := by
    obtain ⟨c, hc, rfl⟩ := Option.map_eq_some_iff.mp hshared
    simp [encoded, hv, hconn, hc]
  exact h.persistSyncState (v := {v with pumping := v.pumping.eraseIdx k})
    ⟨hknows.states, hknows.sessions⟩
    (fun shared hshared => hbacked.saved _ _ (hencoded shared hshared))
    (fun shared hshared => hbacked.others _ _ (hencoded shared hshared)) hs

theorem Inv.land [DecidableEq H] (h : s.Inv) {k : Nat}
    (hs : Device.step genesis s (.land k) = some s') : s'.Inv := by
  obtain ⟨⟨write, caller, owner, landed⟩, hk, hs⟩ := Option.bind_eq_some_iff.mp hs
  have hmem := List.mem_of_getElem? hk
  cases landed with
  | true => cases hs
  | false =>
    cases write with
    | doc content =>
      obtain rfl := Option.some.inj hs
      refine h.lands (fun c hc => .inr ⟨_, hmem, rfl, congrArg _ hc⟩) fun key shared hshared => ?_
      exact .inl ⟨key, hshared⟩
    | state key shared =>
      obtain rfl := Option.some.inj hs
      refine h.lands (fun c hc => .inl hc) fun key' shared' hshared => ?_
      by_cases hkey : key' = key
      · subst hkey
        rw [Function.update_self] at hshared
        obtain rfl := Option.some.inj hshared
        exact .inr ⟨_, hmem, rfl, key', rfl⟩
      · rw [Function.update_of_ne hkey] at hshared
        exact .inl ⟨key', hshared⟩

/-- **One step.** -/
theorem Inv.step [DecidableEq H] (h : s.Inv) {a : Act H} (hg : s.Backed genesis a)
    (hs : Device.step genesis s a = some s') : s'.Inv := by
  cases a with
  | create vaultId => exact h.create (hg.fresh vaultId rfl) hs
  | openVault => exact h.openVault hs
  | mutate i added => exact h.mutate hs
  | handshake i key => exact h.handshake hs
  | receive i conn added shared => exact h.receive hs
  | pumped i k => exact h.pumped hg hs
  | land k => exact h.land hs
  | resolve k =>
    obtain ⟨w, hk, hs⟩ := Option.bind_eq_some_iff.mp hs
    obtain ⟨-, hs⟩ := Option.ite_none_right_eq_some.mp hs
    exact h.resolve hk hg hs
  | disconnect i =>
    obtain ⟨v, hv, rfl⟩ := Option.map_eq_some_iff.mp hs
    exact h.opens (v := {v with connection := none}) ⟨(h.knows hv).states, (h.knows hv).sessions⟩
  | close i =>
    obtain ⟨v, hv, rfl⟩ := Option.map_eq_some_iff.mp hs
    exact h.opens (v := {v with closed := true}) ⟨(h.knows hv).states, (h.knows hv).sessions⟩
  | free i =>
    obtain ⟨v, hv, hs⟩ := Option.bind_eq_some_iff.mp hs
    obtain ⟨-, hs⟩ := Option.ite_none_right_eq_some.mp hs
    obtain rfl := Option.some.inj hs
    exact h.put nofun nofun
  | discard =>
    obtain rfl := Option.some.inj hs
    exact h.saveDoc nofun
  | crash =>
    obtain rfl := Option.some.inj hs
    have hforgot := h.forgets (List.nil_subset _)
    refine ⟨hforgot.held, fun j content hhas => ?_, fun j u hu => ?_⟩
    · obtain ⟨slot, hslot, -⟩ := hhas
      cases hslot
    · cases hu

theorem not_state_empty (shared : List H) : ¬ (empty : Device H).State shared := by
  intro hs
  rcases hs with ⟨key, hs⟩ | ⟨w, hw, -⟩
  · cases hs
  · cases hw

theorem Inv.empty : (empty : Device H).Inv := by
  refine ⟨fun shared hs => absurd hs (not_state_empty shared), fun j content hhas => ?_,
    fun j v hv => ?_⟩
  · obtain ⟨slot, hslot, -⟩ := hhas
    cases hslot
  · cases hv

/-- In every run that encodes no sync state ahead of a document and creates no document beside
foreign sync states, a loaded sync state names only changes of the document it is loaded for. -/
theorem trusted_of_backed [DecidableEq H] (genesis : Nat → List H)
    (h : Machine.Reach (step genesis) (Backed genesis) (empty : Device H) s) :
    s.Trusted genesis :=
  Inv.trusted (h.invariant Inv.empty fun _ _ _ hinv hg hs => hinv.step hg hs)

private def created : List (Act Nat) := [.create 7, .land 0, .resolve 0, .handshake 0 1]

/-- A frame that brings change 20 is handled to its end. -/
private def synced (i : Nat) : List (Act Nat) :=
  [.receive i 0 [20] [20], .land 0, .resolve 0, .land 0, .resolve 0, .pumped i 0, .land 0,
    .resolve 0]

/-- The hub acknowledges a change while its document save is still under way, and the vault
crashes. -/
private def acknowledged : List (Act Nat) :=
  created ++ [.mutate 0 [20], .receive 0 0 [] [20], .pumped 0 0, .land 1, .crash, .openVault]

/-- `resetLocalState`, and `Vault.create` over the emptied document. -/
private def reset : List (Act Nat) :=
  created ++ synced 0 ++ [.disconnect 0, .close 0, .free 0, .discard, .land 0, .resolve 0,
    .create 7, .land 0, .resolve 0]

/-- A frame that comes while `close` waits for its connection: `flush` does nothing any more. -/
private def closing : List (Act Nat) :=
  created ++ [.close 0, .receive 0 0 [20] [20], .pumped 0 0, .land 0, .free 0, .openVault]

/-- A controller is started again while its first vault waits to connect: the second one
synchronizes, and then the first connects. -/
private def startedTwice : List (Act Nat) :=
  [.create 7, .land 0, .resolve 0, .openVault, .handshake 1 1] ++ synced 1

/-- A run at whose end change 20 is saved for hub 1 and a vault has a document without it. -/
theorem not_trusted_of_run {run : List (Act Nat)} (i : Nat)
    (hrun : (Machine.run (step fun vaultId => [vaultId]) empty run).map
      (fun s => (s.open? i, s.states 1)) =
      some (some ⟨[7], false, none, [], []⟩, some [20])) :
    ∃ s, Machine.run (step fun vaultId => [vaultId]) empty run = some s ∧
      ¬ s.Trusted fun vaultId => [vaultId] := by
  obtain ⟨s, hs, hend⟩ := Option.map_eq_some_iff.mp hrun
  obtain ⟨hopen, hstate⟩ := Prod.mk.inj hend
  refine ⟨s, hs, fun htrusted => ?_⟩
  have hsub := htrusted i _ hopen 1 _ (by simp only [step, hopen]; rfl) [20] hstate
  exact absurd hsub (by decide)

theorem trusted_of_backed_outrun :
    (∃ s, Machine.run (step fun vaultId => [vaultId]) empty acknowledged = some s ∧
      ¬ s.Trusted fun vaultId => [vaultId]) ∧
    (∃ s, Machine.run (step fun vaultId => [vaultId]) empty reset = some s ∧
      ¬ s.Trusted fun vaultId => [vaultId]) ∧
    (∃ s, Machine.run (step fun vaultId => [vaultId]) empty closing = some s ∧
      ¬ s.Trusted fun vaultId => [vaultId]) ∧
    ∃ s, Machine.run (step fun vaultId => [vaultId]) empty startedTwice = some s ∧
      ¬ s.Trusted fun vaultId => [vaultId] :=
  ⟨not_trusted_of_run 0 (by decide +kernel), not_trusted_of_run 1 (by decide +kernel),
    not_trusted_of_run 1 (by decide +kernel), not_trusted_of_run 0 (by decide +kernel)⟩

theorem backed_of_silent {a : Act H} (hencoded : s.encoded a = none)
    (hcreate : ∀ vaultId, a ≠ .create vaultId) : s.Backed genesis a where
  saved := fun _ _ hs => absurd (hencoded.symm.trans hs) nofun
  others := fun _ _ hs => absurd (hencoded.symm.trans hs) nofun
  fresh := fun vaultId ha => absurd ha (hcreate vaultId)

/-- A vault that is created, takes a change in, crashes and is opened again. -/
theorem trusted_of_backed_reopened : ∃ s : Device Nat, s.states 1 = some [20] ∧
    s.doc = some [7, 20] ∧ s.Trusted fun vaultId => [vaultId] := by
  have hreach : ∃ s, Machine.Reach (step fun vaultId => [vaultId])
      (Backed fun vaultId => [vaultId]) (empty : Device Nat) s ∧ s.states 1 = some [20] ∧
        s.doc = some [7, 20] := by
    have hcreate : Machine.Reach (step fun vaultId => [vaultId]) (Backed fun vaultId => [vaultId])
        (empty : Device Nat) ⟨none, fun _ => none, [⟨.doc (some [7]), .create, 0, false⟩],
          [.creating [7]]⟩ :=
      .step (.create 7) .start ⟨fun _ _ hs => absurd hs nofun, fun _ _ hs => absurd hs nofun,
        fun _ _ shared hs => absurd hs (not_state_empty shared)⟩ rfl
    have hland := hcreate.step (Act.land 0) (backed_of_silent rfl fun _ h => by cases h) rfl
    have hopen := hland.step (Act.resolve 0) (backed_of_silent rfl fun _ h => by cases h) rfl
    have hload := hopen.step (Act.handshake 0 1) (backed_of_silent rfl fun _ h => by cases h) rfl
    have hreceive := hload.step (Act.receive 0 0 [20] [20])
      (backed_of_silent rfl fun _ h => by cases h) rfl
    have hsaved := hreceive.step (Act.land 0) (backed_of_silent rfl fun _ h => by cases h) rfl
    have hencoded := hsaved.step (Act.resolve 0) (by
      refine ⟨fun i shared hs content hc => ?_, fun i shared hs j content hj hhas => ?_,
        fun _ h => by cases h⟩
      · obtain ⟨rfl, rfl⟩ := Prod.mk.inj (Option.some.inj hs)
        rcases hc with hc | ⟨w, hw, hlanded, -⟩
        · obtain rfl := Option.some.inj hc
          decide
        · obtain rfl := List.mem_singleton.mp hw
          cases hlanded
      · obtain ⟨rfl, -⟩ := Prod.mk.inj (Option.some.inj hs)
        obtain ⟨slot, hslot, -⟩ := hhas
        cases j with
        | zero => exact absurd rfl hj
        | succ j => cases hslot) rfl
    have hstored := hencoded.step (Act.land 0) (backed_of_silent rfl fun _ h => by cases h) rfl
    have hcrash := hstored.step Act.crash (backed_of_silent rfl fun _ h => by cases h) rfl
    exact ⟨_, hcrash.step Act.openVault (backed_of_silent rfl fun _ h => by cases h) rfl, rfl,
      rfl⟩
  obtain ⟨s, hs, hstate, hdoc⟩ := hreach
  exact ⟨s, hstate, hdoc, trusted_of_backed _ hs⟩

end Device

end AgentSync.Sdk
