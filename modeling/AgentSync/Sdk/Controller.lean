import AgentSync.Machine
import AgentSync.Async
import AgentSync.Basic

/-! The Obsidian plugin's `SyncController`.

`start`, `prepare`, `stop` and `resetLocalState` await in the middle, so calls overlap, and the
SDK's events move `state` between any two steps. A call in flight is a task: where it awaits,
and what it has read before. What the outside answers, the hub's vault id or the id of the
document in storage, comes with the step.

The law is that at most one vault and one supervisor are alive. `start` relies on `state` for
it, which says neither: it is `idle` after `prepare`, and `error` as soon as the running
supervisor reports an attempt that failed. -/
namespace AgentSync.Sdk
open Async

inductive ControllerState where
  | idle
  | connecting
  | connected
  | reconnecting
  | error
  deriving DecidableEq, Repr

/-- What the controller reads of the settings. -/
structure Settings where
  /-- Empty when no vault is pinned. -/
  vaultId : Str
  /-- `rendezvousUrl` is not empty. -/
  rendezvousUrl : Bool
  /-- `hubPubkey` is empty or decodes. -/
  hubPubkeyReads : Bool
  deriving DecidableEq, Repr

/-- An SDK `Vault` the controller has opened. -/
structure SdkVault where
  vaultId : Str
  /-- `close()` has resolved. -/
  closed : Bool
  deriving DecidableEq, Repr

/-- A `connectWithReconnect` that has not returned. -/
structure Supervisor where
  vault : Nat
  aborted : Bool
  deriving DecidableEq, Repr

/-- What `openOrCreateVault` has read: the settings at its start and the hub's announcement,
empty without one. -/
structure Opening where
  rendezvousUrl : Bool
  pinned : Str
  hubVaultId : Str
  deriving DecidableEq, Repr

/-- `hubVaultId || pinned || null`. -/
def Opening.target (o : Opening) : Str := if o.hubVaultId ≠ [] then o.hubVaultId else o.pinned

/-- Where a call awaits. -/
inductive Phase where
  | initAgentsync
  | probeHub (o : Opening)
  | saveHubId (o : Opening)
  | loadDoc (o : Opening)
  /-- In `Vault.open`. -/
  | opening (o : Opening)
  | opened (o : Opening) (vault : Nat)
  /-- Closing a document of another vault. -/
  | closingStale (o : Opening) (vault : Nat)
  | clearDoc (o : Opening)
  | clearSnapshots (o : Opening)
  /-- In `Vault.create`. -/
  | creating (o : Opening)
  /-- `openOrCreateVault` returns. -/
  | obtained (vault : Nat)
  | saveSettings (vault : Nat)
  | reconcile (vault : Nat)
  /-- In `stop`: `sdk.disconnect()`, then `sdk.close()`. -/
  | disconnecting (vault : Nat)
  | closing (vault : Nat)
  /-- In `resetLocalState`, after its `stop`. -/
  | wipeDoc
  | wipeSnapshots
  deriving DecidableEq, Repr

/-- A call in flight. -/
structure Task where
  /-- The call is `resetLocalState`. -/
  reset : Bool
  /-- `wantConnect`. -/
  connect : Bool
  phase : Phase
  deriving DecidableEq, Repr

/-- How an awaited promise settles. -/
inductive Answer where
  | ok
  /-- With a vault id: the hub's, that of the document found, or the one generated. -/
  | found (vaultId : Str)
  | fails
  deriving DecidableEq, Repr

/-- The events that move `state`. -/
inductive VaultEvent where
  | connecting
  | connected
  | disconnected
  | error
  deriving DecidableEq, Repr

structure Controller where
  state : ControllerState
  settings : Settings
  sdk : Option Nat
  unsubscribeSdk : Option Nat
  /-- The vaults whose events reach `onVaultEvent`. -/
  subscriptions : List Nat
  /-- Every vault opened so far. -/
  vaults : List SdkVault
  supervisors : List Supervisor
  tasks : List Task
  /-- A `stop` has resolved and no call has opened the controller since. -/
  stopped : Bool
  deriving DecidableEq, Repr

/-- The call goes on to await in another place. -/
def Task.to (t : Task) (phase : Phase) : Task := {t with phase}

/-- The last await of `stop`. -/
def Phase.closes : Phase → Bool
  | .closing _ => true
  | _ => false

/-- What is left of the call is to reconcile, without a connection. -/
def Task.inert (t : Task) : Bool :=
  match t.phase with
  | .saveSettings _ | .reconcile _ => !t.connect
  | _ => false

namespace Controller

def fresh (settings : Settings) : Controller :=
  ⟨.idle, settings, none, none, [], [], [], [], false⟩

variable (wasmBytes : Bool) (s : Controller) (t : Task)

/-! ### The calls -/

/-- The end of `start` with an error. -/
def fail : Controller × List Task := ({s with state := .error}, [])

/-- `openOrCreateVault`, once the hub has been asked. -/
def adopt (o : Opening) : Controller × List Task :=
  if o.pinned ≠ [] ∧ o.hubVaultId ≠ [] ∧ o.pinned ≠ o.hubVaultId then s.fail
  else if o.hubVaultId ≠ [] ∧ s.settings.vaultId ≠ o.hubVaultId then
    ({s with settings := {s.settings with vaultId := o.hubVaultId}}, [t.to (.saveHubId o)])
  else (s, [t.to (.loadDoc o)])

def openOrCreateVault : Controller × List Task :=
  let o : Opening := ⟨s.settings.rendezvousUrl, s.settings.vaultId, []⟩
  if !s.settings.hubPubkeyReads then s.fail
  else if o.rendezvousUrl then (s, [t.to (.probeHub o)])
  else adopt s t o

/-- `start`, once the wasm module is there. -/
def begin : Controller × List Task :=
  openOrCreateVault (if t.connect then {s with state := .connecting} else s) t

/-- The check at the head of `start` lets the call through. -/
def Passes : Prop := s.state = .idle ∨ s.state = .error

instance : Decidable s.Passes := inferInstanceAs (Decidable (_ ∨ _))

def start : Controller × List Task :=
  if s.Passes then
    if wasmBytes then ({s with stopped := false}, [t.to .initAgentsync])
    else begin {s with stopped := false} t
  else (s, [])

/-- `disconnect` of a vault: its supervisor is told to stop. -/
def abort (vault : Nat) : Controller :=
  {s with supervisors := s.supervisors.map fun r =>
    if r.vault = vault then {r with aborted := true} else r}

def close (vault : Nat) : Controller :=
  {s with vaults := s.vaults.modify vault fun w => {w with closed := true}}

def openVault (vaultId : Str) : Controller := {s with vaults := s.vaults ++ [⟨vaultId, false⟩]}

/-- The last lines of `stop`; `resetLocalState` goes on from here. -/
def finishStop : Controller × List Task :=
  ({s with state := .idle, stopped := true}, if t.reset then [t.to .wipeDoc] else [])

def stop : Controller × List Task :=
  let s' : Controller := {s with
    unsubscribeSdk := none
    subscriptions := s.unsubscribeSdk.elim s.subscriptions s.subscriptions.erase
    sdk := none
    stopped := false}
  match s.sdk with
  | some vault => (s'.abort vault, [t.to (.disconnecting vault)])
  | none => finishStop s' t

/-- A call whose promise settles. -/
def advance (a : Answer) : Controller × List Task :=
  match t.phase, a with
  | .initAgentsync, .fails => (s, [])
  | .initAgentsync, _ => begin s t
  | .probeHub o, .found hubVaultId => adopt s t {o with hubVaultId}
  | .probeHub o, _ => adopt s t o
  | .saveHubId _, .fails => s.fail
  | .saveHubId o, _ => (s, [t.to (.loadDoc o)])
  | .loadDoc _, .fails => s.fail
  | .loadDoc o, .found _ => (s, [t.to (.opening o)])
  | .loadDoc o, .ok =>
    if o.target = [] ∧ o.rendezvousUrl then s.fail else (s, [t.to (.creating o)])
  | .opening o, .found vaultId => (s.openVault vaultId, [t.to (.opened o s.vaults.length)])
  | .opening _, _ => s.fail
  | .opened o vault, _ =>
    if o.target = [] ∨ (s.vaults[vault]?).any fun w => w.vaultId = o.target then
      (s, [t.to (.obtained vault)])
    else (s, [t.to (.closingStale o vault)])
  | .closingStale o vault, a =>
    if a = .fails ∨ o.hubVaultId = [] then (s.close vault).fail
    else (s.close vault, [t.to (.clearDoc o)])
  | .clearDoc _, .fails => s.fail
  | .clearDoc o, _ => (s, [t.to (.clearSnapshots o)])
  | .clearSnapshots _, .fails => s.fail
  | .clearSnapshots o, _ => (s, [t.to (.creating o)])
  | .creating o, .found vaultId =>
    (s.openVault (if o.target = [] then vaultId else o.target), [t.to (.obtained s.vaults.length)])
  | .creating _, _ => s.fail
  | .obtained vault, _ =>
    let s' : Controller := {s with sdk := some vault}
    if s.settings.vaultId = [] then
      ({s' with settings := {s.settings with
        vaultId := (s.vaults[vault]?).elim [] SdkVault.vaultId}}, [t.to (.saveSettings vault)])
    else (s', [t.to (.reconcile vault)])
  | .saveSettings _, .fails => s.fail
  | .saveSettings vault, _ => (s, [t.to (.reconcile vault)])
  | .reconcile _, .fails => s.fail
  | .reconcile vault, _ =>
    let s' : Controller := {s with
      unsubscribeSdk := some vault
      subscriptions := vault :: s.subscriptions}
    if t.connect then ({s' with supervisors := s.supervisors ++ [⟨vault, false⟩]}, [])
    else ({s' with state := .idle}, [])
  | .disconnecting vault, _ => (s.abort vault, [t.to (.closing vault)])
  | .closing vault, _ => finishStop (s.close vault) t
  | .wipeDoc, .fails => (s, [])
  | .wipeDoc, _ => (s, [t.to .wipeSnapshots])
  | .wipeSnapshots, .fails => (s, [])
  | .wipeSnapshots, _ => start wasmBytes s {t with connect := false}

def onVaultEvent : VaultEvent → Controller
  | .connecting => {s with state := .connecting}
  | .connected => {s with state := .connected}
  | .disconnected => if s.state ≠ .idle then {s with state := .reconnecting} else s
  | .error => {s with state := .error}

/-! ### Runs -/

inductive Act where
  /-- `start({ connect })`; `prepare` is `start({ connect: false })`. -/
  | start (connect : Bool)
  | stop
  | resetLocalState
  /-- The promise task `i` awaits settles. -/
  | advance (i : Nat) (a : Answer)
  /-- A vault with a listener emits. -/
  | event (e : VaultEvent)
  /-- Supervisor `i`, told to stop, returns. -/
  | returned (i : Nat)
  /-- The user edits the settings. -/
  | configure (settings : Settings)
  deriving DecidableEq, Repr

/-- A call that begins; its phase is the first it awaits in, if it awaits at all. -/
def call (r : Controller × List Task) : Controller := {r.1 with tasks := s.tasks ++ r.2}

def step (s : Controller) : Act → Option Controller
  | .start connect => some (s.call (s.start wasmBytes
      ⟨false, connect && s.settings.rendezvousUrl, .initAgentsync⟩))
  | .stop => some (s.call (s.stop ⟨false, false, .wipeDoc⟩))
  | .resetLocalState => some (s.call (s.stop ⟨true, false, .wipeDoc⟩))
  | .advance i a => (s.tasks[i]?).map fun t =>
    let r := s.advance wasmBytes t a
    {r.1 with tasks := splice s.tasks i r.2}
  | .event e => if s.subscriptions.isEmpty then none else some (s.onVaultEvent e)
  | .returned i => (s.supervisors[i]?).bind fun r =>
    if r.aborted then some {s with supervisors := s.supervisors.eraseIdx i} else none
  | .configure settings => some {s with settings}

/-! ### The law and its condition -/

/-- The vault has been opened and is not closed. -/
def Live (vault : Nat) : Prop := ∃ w, s.vaults[vault]? = some w ∧ w.closed = false

/-- At most one vault and one supervisor are alive, and none after `stop`. -/
structure Single : Prop where
  vault : ∀ v w, s.Live v → s.Live w → v = w
  supervisor : s.supervisors.length ≤ 1
  stopped : s.stopped → (∀ v, ¬ s.Live v) ∧ s.supervisors = []

/-- `start` is called with nothing alive, or returns at once. It, `stop` and `resetLocalState`
are called when what is left of every other call is to reconcile without connecting. The
supervisor that `stop` has told to stop returns before `stop` does. -/
def Serial : Act → Prop
  | .start _ => s.Passes → (∀ v, ¬ s.Live v) ∧ ∀ t ∈ s.tasks, t.inert
  | .stop | .resetLocalState => ∀ t ∈ s.tasks, t.inert
  | .advance i _ => ∀ t ∈ s.tasks[i]?, t.phase.closes → s.supervisors = []
  | _ => True

instance : Decidable (∀ v, ¬ s.Live v) :=
  decidable_of_iff (∀ w ∈ s.vaults, w.closed = true) (by
    simp only [Live, not_exists, not_and, Bool.not_eq_false, List.mem_iff_getElem?]
    exact ⟨fun h v w hw => h w ⟨v, hw⟩, fun h w ⟨v, hw⟩ => h v w hw⟩)

instance (a : Act) : Decidable (s.Serial a) := by
  cases a <;> unfold Serial <;> infer_instance

/-! ### What a call keeps -/

variable {wasmBytes s t} {s' : Controller} {vault : Nat}

/-- What holds while no call is at work, or while `t` is. -/
def Facts (s : Controller) : Option Task → Prop
  | none => (s.sdk = none → (∀ v, ¬ s.Live v) ∧ s.supervisors = []) ∧
      (∀ v, s.sdk = some v → s.Live v ∧ (∀ w, s.Live w → w = v) ∧ s.supervisors.length ≤ 1) ∧
      (s.stopped → s.sdk = none)
  | some t =>
    match t.phase with
    | .opened _ v | .closingStale _ v | .obtained v => s.sdk = none ∧ s.Live v ∧
        (∀ w, s.Live w → w = v) ∧ s.supervisors = [] ∧ s.stopped = false
    | .saveSettings v | .reconcile v => s.sdk = some v ∧ s.Live v ∧
        (∀ w, s.Live w → w = v) ∧ s.supervisors = [] ∧ s.stopped = false
    | .disconnecting v | .closing v => s.sdk = none ∧ (∀ w, s.Live w → w = v) ∧
        s.supervisors.length ≤ 1 ∧ s.stopped = false
    | .wipeDoc | .wipeSnapshots => s.sdk = none ∧ (∀ v, ¬ s.Live v) ∧ s.supervisors = []
    | _ => s.sdk = none ∧ (∀ v, ¬ s.Live v) ∧ s.supervisors = [] ∧ s.stopped = false

/-- What a call leaves: at most itself at work. -/
def Leaves (r : Controller × List Task) : Prop :=
  ∃ b : Option Task, r.2.filter (!·.inert) = b.toList ∧ r.1.Facts b

theorem Leaves.ends (h : s.Facts none) : Leaves (s, []) := ⟨none, rfl, h⟩

theorem Leaves.goesOn (ht : t.inert = false) (h : s.Facts (some t)) : Leaves (s, [t]) :=
  ⟨some t, by simp [ht], h⟩

/-- Nothing is alive and no vault is at hand. -/
def Blank (s : Controller) : Prop :=
  s.sdk = none ∧ (∀ v, ¬ s.Live v) ∧ s.supervisors = [] ∧ s.stopped = false

theorem Blank.facts (h : s.Blank) : s.Facts none :=
  ⟨fun _ => ⟨h.2.1, h.2.2.1⟩, fun v hv => by simp [h.1] at hv, fun _ => h.1⟩

theorem Blank.fail (h : s.Blank) : Leaves s.fail := .ends (Blank.facts h)

theorem Blank.adopt (h : s.Blank) (o : Opening) : Leaves (s.adopt t o) := by
  unfold Controller.adopt
  split
  next => exact h.fail
  next =>
    split
    next => exact .goesOn rfl h
    next => exact .goesOn rfl h

theorem Blank.openOrCreateVault (h : s.Blank) : Leaves (s.openOrCreateVault t) := by
  unfold Controller.openOrCreateVault
  dsimp only
  split
  next => exact h.fail
  next =>
    split
    next => exact .goesOn rfl h
    next => exact h.adopt _

theorem Blank.begin (h : s.Blank) : Leaves (s.begin t) := by
  unfold Controller.begin
  split
  next => exact Blank.openOrCreateVault (s := {s with state := .connecting}) h
  next => exact h.openOrCreateVault

/-- A call of `start` that finds nothing alive. -/
theorem start_leaves (h : s.Facts none) (hno : ∀ v, ¬ s.Live v) :
    Leaves (s.start wasmBytes t) := by
  have hblank : {s with stopped := false}.Blank := by
    cases hsdk : s.sdk with
    | none => exact ⟨rfl, hno, (h.1 hsdk).2, rfl⟩
    | some v => exact absurd (h.2.1 v hsdk).1 (hno v)
  unfold start
  split
  next =>
    split
    next => exact .goesOn rfl hblank
    next => exact hblank.begin
  next => exact .ends h

theorem finishStop_leaves (hsdk : s.sdk = none) (hno : ∀ v, ¬ s.Live v)
    (hsup : s.supervisors = []) : Leaves (s.finishStop t) := by
  unfold finishStop
  split
  next => exact .goesOn rfl ⟨hsdk, hno, hsup⟩
  next =>
    exact .ends ⟨fun _ => ⟨hno, hsup⟩, fun v hv => by simp [hsdk] at hv, fun _ => hsdk⟩

theorem stop_leaves (h : s.Facts none) : Leaves (s.stop t) := by
  unfold stop
  split
  next v hsdk =>
    obtain ⟨-, honly, hsup⟩ := h.2.1 v hsdk
    exact .goesOn rfl ⟨rfl, honly, by simpa [abort] using hsup, rfl⟩
  next hsdk => exact finishStop_leaves rfl (h.1 hsdk).1 (h.1 hsdk).2

theorem live_close (v : Nat) : (s.close vault).Live v ↔ v ≠ vault ∧ s.Live v := by
  unfold Live close
  simp only [List.getElem?_modify]
  by_cases hv : vault = v
  · subst hv
    cases hw : s.vaults[vault]? with
    | none => simp
    | some w => simp
  · simp [hv, Ne.symm hv]

theorem live_openVault (vaultId : Str) (v : Nat) :
    (s.openVault vaultId).Live v ↔ v = s.vaults.length ∨ s.Live v := by
  unfold Live openVault
  rcases lt_trichotomy v s.vaults.length with hv | rfl | hv
  · rw [List.getElem?_append_left hv]
    constructor
    · exact .inr
    · exact fun h => h.resolve_left (by omega)
  · simp
  · rw [List.getElem?_eq_none (by simp; omega), List.getElem?_eq_none (by omega)]
    simp
    omega

theorem close_none (honly : ∀ w, s.Live w → w = vault) (v : Nat) : ¬ (s.close vault).Live v :=
  fun h => ((live_close v).mp h).1 (honly v ((live_close v).mp h).2)

theorem openVault_only (hno : ∀ v, ¬ s.Live v) (vaultId : Str) :
    (s.openVault vaultId).Live s.vaults.length ∧
      ∀ w, (s.openVault vaultId).Live w → w = s.vaults.length :=
  ⟨(live_openVault vaultId _).mpr (.inl rfl),
    fun w hw => ((live_openVault vaultId w).mp hw).resolve_right (hno w)⟩

theorem facts_of_empty (hsdk : s.sdk = none) (hno : ∀ v, ¬ s.Live v) (hsup : s.supervisors = []) :
    s.Facts none :=
  ⟨fun _ => ⟨hno, hsup⟩, fun v hv => by simp [hsdk] at hv, fun _ => hsdk⟩

theorem facts_of_sdk (hsdk : s.sdk = some vault) (hlive : s.Live vault)
    (honly : ∀ w, s.Live w → w = vault) (hsup : s.supervisors.length ≤ 1)
    (hstopped : s.stopped = false) : s.Facts none := by
  refine ⟨fun hnone => ?_, fun w hw => ?_, fun h => by simp [hstopped] at h⟩
  · cases hsdk.symm.trans hnone
  · obtain rfl := Option.some.inj (hsdk.symm.trans hw)
    exact ⟨hlive, honly, hsup⟩

/-- A call that is at work leaves at most itself at work. -/
theorem advance_leaves (ht : t.inert = false) (h : s.Facts (some t))
    (hend : t.phase.closes → s.supervisors = []) (a : Answer) :
    Leaves (s.advance wasmBytes t a) := by
  obtain ⟨reset, connect, phase⟩ := t
  cases phase with
  | initAgentsync =>
    cases a with
    | fails => exact .ends (Blank.facts h)
    | _ => exact Blank.begin h
  | probeHub o => cases a <;> exact Blank.adopt h _
  | saveHubId o =>
    cases a with
    | fails => exact Blank.fail h
    | _ => exact .goesOn rfl h
  | loadDoc o =>
    cases a with
    | fails => exact Blank.fail h
    | found vaultId => exact .goesOn rfl h
    | ok =>
      simp only [advance]
      split
      next => exact Blank.fail h
      next => exact .goesOn rfl h
  | opening o =>
    obtain ⟨hsdk, hno, hsup, hstopped⟩ := h
    cases a with
    | found vaultId =>
      obtain ⟨hlive, honly⟩ := openVault_only hno vaultId
      exact .goesOn rfl ⟨hsdk, hlive, honly, hsup, hstopped⟩
    | _ => exact Blank.fail ⟨hsdk, hno, hsup, hstopped⟩
  | opened o v =>
    simp only [advance]
    split
    next => exact .goesOn rfl h
    next => exact .goesOn rfl h
  | closingStale o v =>
    obtain ⟨hsdk, -, honly, hsup, hstopped⟩ := h
    have hblank : (s.close v).Blank := ⟨hsdk, close_none honly, hsup, hstopped⟩
    simp only [advance]
    split
    next => exact hblank.fail
    next => exact .goesOn rfl hblank
  | clearDoc o =>
    cases a with
    | fails => exact Blank.fail h
    | _ => exact .goesOn rfl h
  | clearSnapshots o =>
    cases a with
    | fails => exact Blank.fail h
    | _ => exact .goesOn rfl h
  | creating o =>
    obtain ⟨hsdk, hno, hsup, hstopped⟩ := h
    cases a with
    | found vaultId =>
      obtain ⟨hlive, honly⟩ := openVault_only hno (if o.target = [] then vaultId else o.target)
      exact .goesOn rfl ⟨hsdk, hlive, honly, hsup, hstopped⟩
    | _ => exact Blank.fail ⟨hsdk, hno, hsup, hstopped⟩
  | obtained v =>
    obtain ⟨-, hlive, honly, hsup, hstopped⟩ := h
    have hfacts : ∀ settings, Facts {s with sdk := some v, settings} none :=
      fun settings => facts_of_sdk rfl hlive honly (by simp [hsup]) hstopped
    simp only [advance]
    cases connect with
    | true =>
      split
      next => exact .goesOn rfl ⟨rfl, hlive, honly, hsup, hstopped⟩
      next => exact .goesOn rfl ⟨rfl, hlive, honly, hsup, hstopped⟩
    | false =>
      split
      next => exact ⟨none, rfl, hfacts _⟩
      next => exact ⟨none, rfl, hfacts s.settings⟩
  | saveSettings v =>
    cases a with
    | fails =>
      obtain ⟨hsdk, hlive, honly, hsup, hstopped⟩ := h
      exact .ends (facts_of_sdk hsdk hlive honly (by simp [hsup]) hstopped)
    | _ => exact .goesOn ht h
  | reconcile v =>
    obtain ⟨hsdk, hlive, honly, hsup, hstopped⟩ := h
    have hone : ∀ sups : List Supervisor, sups.length ≤ 1 →
        Facts {s with supervisors := sups} none :=
      fun sups hsups => facts_of_sdk hsdk hlive honly hsups hstopped
    have hconnect : connect = true := by simpa [Task.inert] using ht
    subst hconnect
    cases a with
    | fails => exact .ends (hone _ (by simp [hsup]))
    | _ => exact .ends (hone _ (by simp [hsup]))
  | disconnecting v =>
    obtain ⟨hsdk, honly, hsup, hstopped⟩ := h
    exact .goesOn rfl ⟨hsdk, honly, by simpa [abort] using hsup, hstopped⟩
  | closing v =>
    obtain ⟨hsdk, honly, -, -⟩ := h
    exact finishStop_leaves (s := s.close v) hsdk (close_none honly) (hend rfl)
  | wipeDoc =>
    obtain ⟨hsdk, hno, hsup⟩ := h
    cases a with
    | fails => exact .ends (facts_of_empty hsdk hno hsup)
    | _ => exact .goesOn rfl ⟨hsdk, hno, hsup⟩
  | wipeSnapshots =>
    obtain ⟨hsdk, hno, hsup⟩ := h
    cases a with
    | fails => exact .ends (facts_of_empty hsdk hno hsup)
    | _ => exact start_leaves (facts_of_empty hsdk hno hsup) hno

/-- A call that only has to reconcile touches nothing that counts. -/
theorem advance_inert (ht : t.inert = true) (a : Answer) :
    (∀ b, s.Facts b → (s.advance wasmBytes t a).1.Facts b) ∧
      (s.advance wasmBytes t a).2.filter (!·.inert) = [] := by
  obtain ⟨reset, connect, phase⟩ := t
  cases phase with
  | saveSettings v =>
    have hconnect : connect = false := by simpa [Task.inert] using ht
    subst hconnect
    cases a <;> exact ⟨fun _ h => h, rfl⟩
  | reconcile v =>
    have hconnect : connect = false := by simpa [Task.inert] using ht
    subst hconnect
    cases a <;> exact ⟨fun _ h => h, rfl⟩
  | _ => cases ht

/-! ### Whole runs -/

/-- At most one call is at work, and what it knows holds. -/
def Inv (s : Controller) : Prop :=
  ∃ b : Option Task, s.tasks.filter (!·.inert) = b.toList ∧ s.Facts b

theorem Inv.single (h : s.Inv) : s.Single := by
  obtain ⟨b, -, hfacts⟩ := h
  cases b with
  | none =>
    obtain ⟨hnone, hsome, hstopped⟩ := hfacts
    cases hsdk : s.sdk with
    | none =>
      obtain ⟨hno, hsup⟩ := hnone hsdk
      exact ⟨fun v _ hv => absurd hv (hno v), by simp [hsup], fun _ => ⟨hno, hsup⟩⟩
    | some v =>
      obtain ⟨-, honly, hsup⟩ := hsome v hsdk
      refine ⟨fun w x hw hx => (honly w hw).trans (honly x hx).symm, hsup, fun h => ?_⟩
      cases hsdk.symm.trans (hstopped h)
  | some t =>
    have hempty : ((∀ v, ¬ s.Live v) ∧ s.supervisors = []) → s.Single := fun ⟨hno, hsup⟩ =>
      ⟨fun v _ hv => absurd hv (hno v), by simp [hsup], fun _ => ⟨hno, hsup⟩⟩
    have hone : ∀ v, (∀ w, s.Live w → w = v) → s.supervisors.length ≤ 1 → s.stopped = false →
        s.Single := fun v honly hsup hstopped =>
      ⟨fun w x hw hx => (honly w hw).trans (honly x hx).symm, hsup, fun h => by simp [hstopped] at h⟩
    obtain ⟨reset, connect, phase⟩ := t
    cases phase with
    | opened o v =>
      obtain ⟨-, -, honly, hsup, hstopped⟩ := hfacts
      exact hone v honly (by simp [hsup]) hstopped
    | closingStale o v =>
      obtain ⟨-, -, honly, hsup, hstopped⟩ := hfacts
      exact hone v honly (by simp [hsup]) hstopped
    | obtained v =>
      obtain ⟨-, -, honly, hsup, hstopped⟩ := hfacts
      exact hone v honly (by simp [hsup]) hstopped
    | saveSettings v =>
      obtain ⟨-, -, honly, hsup, hstopped⟩ := hfacts
      exact hone v honly (by simp [hsup]) hstopped
    | reconcile v =>
      obtain ⟨-, -, honly, hsup, hstopped⟩ := hfacts
      exact hone v honly (by simp [hsup]) hstopped
    | disconnecting v =>
      obtain ⟨-, honly, hsup, hstopped⟩ := hfacts
      exact hone v honly hsup hstopped
    | closing v =>
      obtain ⟨-, honly, hsup, hstopped⟩ := hfacts
      exact hone v honly hsup hstopped
    | wipeDoc => exact hempty hfacts.2
    | wipeSnapshots => exact hempty hfacts.2
    | _ => exact hempty ⟨hfacts.2.1, hfacts.2.2.1⟩

theorem Facts.returned {b : Option Task} (h : s.Facts b) (i : Nat) :
    Facts {s with supervisors := s.supervisors.eraseIdx i} b := by
  have hnil : s.supervisors = [] → s.supervisors.eraseIdx i = [] := fun h => by simp [h]
  have hlen : s.supervisors.length ≤ 1 → (s.supervisors.eraseIdx i).length ≤ 1 :=
    fun h => (List.length_eraseIdx_le _ _).trans h
  cases b with
  | none =>
    obtain ⟨hnone, hsome, hstopped⟩ := h
    exact ⟨fun hsdk => ⟨(hnone hsdk).1, hnil (hnone hsdk).2⟩,
      fun v hv => ⟨(hsome v hv).1, (hsome v hv).2.1, hlen (hsome v hv).2.2⟩, hstopped⟩
  | some t =>
    obtain ⟨reset, connect, phase⟩ := t
    cases phase <;> first
      | exact ⟨h.1, h.2.1, h.2.2.1, hnil h.2.2.2.1, h.2.2.2.2⟩
      | exact ⟨h.1, h.2.1, hlen h.2.2.1, h.2.2.2⟩
      | exact ⟨h.1, h.2.1, hnil h.2.2.1, h.2.2.2⟩
      | exact ⟨h.1, h.2.1, hnil h.2.2⟩

theorem Inv.call {r : Controller × List Task} (hinert : ∀ t ∈ s.tasks, t.inert = true)
    (h : Leaves r) : (s.call r).Inv := by
  obtain ⟨b, hb, hfacts⟩ := h
  have hidle : s.tasks.filter (!·.inert) = [] := by simpa using hinert
  exact ⟨b, by simp only [Controller.call, List.filter_append, hidle, List.nil_append, hb], hfacts⟩

theorem Inv.idle (h : s.Inv) (hinert : ∀ t ∈ s.tasks, t.inert = true) : s.Facts none := by
  obtain ⟨b, hb, hfacts⟩ := h
  have hidle : s.tasks.filter (!·.inert) = [] := by simpa using hinert
  cases b with
  | none => exact hfacts
  | some t => cases hidle.symm.trans hb

theorem Inv.advance (h : s.Inv) {i : Nat} {a : Answer} (hi : s.tasks[i]? = some t)
    (hend : t.phase.closes → s.supervisors = []) :
    Inv {(s.advance wasmBytes t a).1 with
      tasks := splice s.tasks i (s.advance wasmBytes t a).2} := by
  obtain ⟨b, hb, hfacts⟩ := h
  obtain ⟨pre, post, htasks, hsplice⟩ := exists_splice hi
  rw [htasks, List.filter_append] at hb
  rw [hsplice]
  cases ht : t.inert with
  | true =>
    obtain ⟨hkeep, hnone⟩ := @advance_inert wasmBytes s t ht a
    refine ⟨b, ?_, hkeep b hfacts⟩
    rw [List.filter_cons_of_neg (by simp [ht])] at hb
    simp only [List.filter_append, hnone, List.nil_append, hb]
  | false =>
    rw [List.filter_cons_of_pos (by simp [ht])] at hb
    obtain ⟨hpre, hpost, rfl⟩ : pre.filter (!·.inert) = [] ∧ post.filter (!·.inert) = [] ∧
        b = some t := by
      cases b with
      | none => simp at hb
      | some u =>
        rw [Option.toList_some, List.append_eq_singleton_iff] at hb
        rcases hb with ⟨hpre, hpost⟩ | ⟨-, hpost⟩
        · obtain ⟨rfl, hnil⟩ := List.cons.inj hpost
          exact ⟨hpre, hnil, rfl⟩
        · cases hpost
    obtain ⟨b', hb', hfacts'⟩ := @advance_leaves wasmBytes s t ht hfacts hend a
    refine ⟨b', ?_, hfacts'⟩
    simp only [List.filter_append, hpre, hpost, List.nil_append, List.append_nil, hb']

theorem Inv.step (h : s.Inv) {a : Act} (hg : s.Serial a) (hs : step wasmBytes s a = some s') :
    s'.Inv := by
  cases a with
  | start connect =>
    obtain rfl := Option.some.inj hs
    by_cases hpass : s.Passes
    · obtain ⟨hno, hinert⟩ := hg hpass
      exact Inv.call hinert (start_leaves (h.idle hinert) hno)
    · obtain ⟨b, hb, hfacts⟩ := h
      have hstart : ∀ t, s.start wasmBytes t = (s, []) := fun t => if_neg hpass
      refine ⟨b, by simp only [Controller.call, hstart, List.append_nil, hb], ?_⟩
      unfold Controller.call
      rw [hstart]
      exact hfacts
  | stop =>
    obtain rfl := Option.some.inj hs
    exact Inv.call hg (stop_leaves (h.idle hg))
  | resetLocalState =>
    obtain rfl := Option.some.inj hs
    exact Inv.call hg (stop_leaves (h.idle hg))
  | advance i a =>
    obtain ⟨t, hi, rfl⟩ := Option.map_eq_some_iff.mp hs
    exact h.advance hi (hg t hi)
  | event e =>
    obtain ⟨-, hs⟩ := Option.ite_none_left_eq_some.mp hs
    obtain rfl := Option.some.inj hs
    obtain ⟨b, hb, hfacts⟩ := h
    cases e with
    | disconnected =>
      unfold onVaultEvent
      dsimp only
      split
      next => exact ⟨b, hb, hfacts⟩
      next => exact ⟨b, hb, hfacts⟩
    | _ => exact ⟨b, hb, hfacts⟩
  | returned i =>
    obtain ⟨r, -, hs⟩ := Option.bind_eq_some_iff.mp hs
    obtain ⟨-, hs⟩ := Option.ite_none_right_eq_some.mp hs
    obtain rfl := Option.some.inj hs
    obtain ⟨b, hb, hfacts⟩ := h
    exact ⟨b, hb, hfacts.returned i⟩
  | configure settings =>
    obtain rfl := Option.some.inj hs
    obtain ⟨b, hb, hfacts⟩ := h
    exact ⟨b, hb, hfacts⟩

/-- **At most one live vault.** In every run of calls that do not overlap and start with
nothing alive, at most one vault and one supervisor are alive, and none after `stop`. -/
theorem single_of_serial {settings : Settings}
    (h : Machine.Reach (step wasmBytes) Serial (fresh settings) s) : s.Single := by
  have hno : ∀ v, ¬ (fresh settings).Live v := by simp [Live, fresh]
  have hfresh : (fresh settings).Inv := ⟨none, rfl, facts_of_empty rfl hno rfl⟩
  exact Inv.single (h.invariant hfresh fun x a x' hx hg hs => hx.step hg hs)

/-- Starts a supervisor, which reports a failed attempt, and starts again. -/
private def startedTwice : List Act :=
  [.start true, .advance 0 (.found (txt "v")), .advance 0 .ok, .advance 0 .ok,
    .advance 0 (.found []), .advance 0 .ok, .advance 0 .ok, .event .error,
    .start true, .advance 0 (.found (txt "v")), .advance 0 (.found (txt "v")),
    .advance 0 (.found (txt "v")), .advance 0 .ok, .advance 0 .ok, .advance 0 .ok]

theorem single_of_serial_error_event : ∃ s, Machine.Reach (step false) (fun _ _ => True)
    (fresh ⟨[], true, true⟩) s ∧ s.Live 0 ∧ s.Live 1 ∧ s.supervisors.length = 2 := by
  have hrun : (Machine.run (step false) (fresh ⟨[], true, true⟩) startedTwice).map
      (fun s => (s.vaults.map SdkVault.closed, s.supervisors.length)) =
      some ([false, false], 2) := by decide +kernel
  obtain ⟨s, hs, hread⟩ := Option.map_eq_some_iff.mp hrun
  simp only [Prod.mk.injEq] at hread
  have hlive : ∀ v < 2, s.Live v := by
    intro v hv
    have hget : (s.vaults.map SdkVault.closed)[v]? = some false := by
      rw [hread.1]
      rcases Nat.le_one_iff_eq_zero_or_eq_one.mp (Nat.le_of_lt_succ hv) with rfl | rfl <;> rfl
    rw [List.getElem?_map, Option.map_eq_some_iff] at hget
    exact hget
  exact ⟨s, .of_run (.of_forall (fun _ _ => trivial) _) hs, hlive 0 (by omega), hlive 1 (by omega),
    hread.2⟩

/-- A vault is prepared offline and stopped. -/
theorem single_of_serial_prepared : ∃ s : Controller, s.stopped = true ∧ s.vaults.length = 1 ∧
    s.Single := by
  let prepared : List Act := [.start true, .advance 0 .ok, .advance 0 (.found (txt "v")),
    .advance 0 .ok, .advance 0 .ok, .advance 0 .ok, .stop, .advance 0 .ok, .advance 0 .ok]
  have hrun : (Machine.run (step false) (fresh ⟨[], false, true⟩) prepared).map
      (fun s => (s.stopped, s.vaults.length)) = some (true, 1) := by decide +kernel
  have hserial : Machine.allowed (step false) (fun s a => decide (s.Serial a))
      (fresh ⟨[], false, true⟩) prepared = true := by decide +kernel
  obtain ⟨s, hs, hread⟩ := Option.map_eq_some_iff.mp hrun
  simp only [Prod.mk.injEq] at hread
  have hreach : Machine.Reach (step false) Serial (fresh ⟨[], false, true⟩) s :=
    .of_run (.of_allowed (fun _ _ => of_decide_eq_true) hserial) hs
  exact ⟨s, hread.1, hread.2, single_of_serial hreach⟩

end Controller

end AgentSync.Sdk
