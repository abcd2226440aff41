import AgentSync.Machine
import AgentSync.Obsidian.Opening

/-! Trust on first use.

The `connected` event pins the hub's key in the settings. A vault reads its options once, when
it is opened: the one that has made the first connection was opened without a pin and goes on
without it, through every reconnect. The pin is in force in vaults opened later, and in a later
session once `config.toml` has it (`trust_sticks`).

The steps are the awaits of the controller, of its vaults and of the settings file; who answers a
connection is whoever sends its frames. -/
namespace AgentSync.Obsidian.Trust

open Net Sdk

/-- An SDK vault. -/
structure RunningVault where
  opts : HandshakeOptions
  /-- The controller is subscribed to its events. -/
  listening : Bool
  /-- The hub's key, between the end of a handshake and its `connected` event. -/
  shaken : Option Bytes
  deriving DecidableEq, Repr

structure State where
  settings : AgentsyncSettings
  /-- What `config.toml` loads as. -/
  stored : AgentsyncSettings
  /-- The saves that have not begun, and what the one that has begun writes. -/
  saving : Nat
  writing : Option AgentsyncSettings
  /-- The key in the options of each `openOrCreateVault` that has not returned. -/
  openings : List (Option Bytes)
  vaults : List RunningVault
  /-- The key that the first `connected` event has pinned. -/
  pinned : Option Pubkey
  /-- The other keys that handshakes have completed with since. -/
  strangers : List Bytes
  deriving DecidableEq, Repr

/-- How a save leaves `config.toml`: it is removed before the new one gets its name. -/
inductive SaveOutcome where
  | written
  | kept
  | lost
  deriving DecidableEq, Repr

inductive Event where
  | openVault
  /-- The i-th opening returns a vault of this id. -/
  | opened (i : Nat) (vaultId : Str)
  | listen (v : Nat) (on : Bool)
  /-- The v-th vault connects, and is sent `frames`. -/
  | handshake (v : Nat) (channelBinding : Option Bytes) (peerNonce : Array32)
      (sign : Bytes → Except Error Bytes) (frames : List Frame)
  | connected (v : Nat)
  /-- Another field changes, and is saved. -/
  | setVaultId (vaultId : Str)
  | saveBegins
  | saveEnds (outcome : SaveOutcome)
  /-- The plugin is loaded anew. -/
  | reload

variable (C : Crypto) (T : TextFormat) (identity : Pubkey)

/-- The `hubPubkey` of the connection that `runHandshake` returns. -/
def handshakeKey (opts : HandshakeOptions) (channelBinding : Option Bytes) (peerNonce : Array32)
    (sign : Bytes → Except Error Bytes) (frames : List Frame) : Option Bytes :=
  match frames with
  | .helloHub _ hubIdentityPubkey _ _ _ :: _ =>
    if (Sdk.runHandshake C opts channelBinding peerNonce sign frames).isOk then some hubIdentityPubkey
    else none
  | _ => none

/-- `onVaultEvent` for `connected`; what it throws the SDK ignores. -/
def onConnected (s : State) (hubPubkey : Bytes) : State :=
  if s.settings.hubPubkey ≠ [] then s
  else
    match Pubkey.fromBytes hubPubkey with
    | .error _ => s
    | .ok pk => {s with
        settings := {s.settings with hubPubkey := pk.toSshString T}
        saving := s.saving + 1
        pinned := some (s.pinned.getD pk)}

def step (s : State) : Event → Option State
  | .openVault =>
    match pinnedKey T s.settings with
    | .error _ => none
    | .ok hubPubkey => some {s with openings := s.openings ++ [hubPubkey]}
  | .opened i vaultId => do
    let hubPubkey ← s.openings[i]?
    some {s with
      openings := s.openings.eraseIdx i
      vaults := s.vaults ++ [⟨⟨vaultId, hubPubkey, identity⟩, false, none⟩]}
  | .listen v on => do
    let vault ← s.vaults[v]?
    some {s with vaults := s.vaults.set v {vault with listening := on}}
  | .handshake v channelBinding peerNonce sign frames => do
    let vault ← s.vaults[v]?
    if vault.shaken.isSome then none
    else
      match handshakeKey C vault.opts channelBinding peerNonce sign frames with
      | none => some s
      | some hubPubkey => some {s with
          vaults := s.vaults.set v {vault with shaken := some hubPubkey}
          strangers := if s.pinned.any (·.val ≠ hubPubkey) then s.strangers ++ [hubPubkey]
            else s.strangers}
  | .connected v => do
    let vault ← s.vaults[v]?
    let hubPubkey ← vault.shaken
    let s := {s with vaults := s.vaults.set v {vault with shaken := none}}
    some (if vault.listening then onConnected T s hubPubkey else s)
  | .setVaultId vaultId =>
    some {s with settings := {s.settings with vaultId := vaultId}, saving := s.saving + 1}
  | .saveBegins =>
    if s.writing.isSome ∨ s.saving = 0 then none
    else some {s with saving := s.saving - 1, writing := some s.settings}
  | .saveEnds outcome => do
    let settings ← s.writing
    some {s with
      writing := none
      stored := match outcome with
        | .written => settings
        | .kept => s.stored
        | .lost => ⟨[], [], []⟩}
  | .reload =>
    some {s with
      settings := s.stored
      saving := 0
      writing := none
      openings := []
      vaults := []}

/-- A plugin that is loaded for the first time, or that has never connected. -/
def fresh (settings : AgentsyncSettings) : State := ⟨settings, settings, 0, none, [], [], none, []⟩

/-- No vault that was opened without a pin connects once the settings have one, and no session
begins before the pin is in `config.toml`. -/
def Pinned (s : State) : Event → Prop
  | .handshake v _ _ _ _ => s.settings.hubPubkey ≠ [] →
      ∀ vault ∈ s.vaults[v]?, vault.opts.hubPubkey ≠ none
  | .reload => s.settings.hubPubkey ≠ [] → s.stored.hubPubkey = s.settings.hubPubkey
  | _ => True

instance (s : State) (e : Event) : Decidable (Pinned s e) := by
  unfold Pinned
  cases e <;> infer_instance

/-! ### The pin -/

variable {C T identity}

/-- A handshake that completes under a pin is with its key. -/
theorem handshakeKey_pinned {opts : HandshakeOptions} {channelBinding : Option Bytes}
    {peerNonce : Array32} {sign : Bytes → Except Error Bytes} {frames : List Frame}
    {key hubPubkey : Bytes} (hpin : opts.hubPubkey = some key)
    (h : handshakeKey C opts channelBinding peerNonce sign frames = some hubPubkey) :
    hubPubkey = key := by
  unfold handshakeKey at h
  split at h
  next vaultId hubIdentityPubkey nonce fp name rest =>
    split at h
    next hok =>
      cases h
      cases hcheck : checkHelloHub opts channelBinding vaultId hubPubkey fp with
      | error e => simp [Sdk.runHandshake, hcheck, Except.isOk, Except.toBool] at hok
      | ok u =>
        have hsome := @checkHelloHub_toOption opts channelBinding vaultId hubPubkey fp
        rw [hcheck] at hsome
        by_contra hne
        rw [if_neg (by simp [hpin, Ne.symm hne])] at hsome
        cases hsome
    next => cases h
  next => cases h

theorem toSshString_ne_nil (key : Pubkey) : key.toSshString T ≠ [] :=
  List.append_ne_nil_of_left_ne_nil (List.append_ne_nil_of_left_ne_nil (by decide) _) _

/-- The settings' text of the pin. -/
def pinText (T : TextFormat) : Option Pubkey → Str
  | none => []
  | some key => key.toSshString T

theorem pinText_eq_nil {pinned : Option Pubkey} : pinText T pinned = [] ↔ pinned = none := by
  cases pinned with
  | none => simp [pinText]
  | some key => simp [pinText, toSshString_ne_nil]

/-- Opening reads the pin that the event has written. -/
theorem pinnedKey_pinText {settings : AgentsyncSettings} {pinned : Option Pubkey}
    (h : settings.hubPubkey = pinText T pinned) :
    pinnedKey T settings = .ok (pinned.map (·.val)) := by
  unfold pinnedKey
  cases pinned with
  | none =>
    have hempty : settings.hubPubkey = [] := h
    rw [if_pos hempty]
    rfl
  | some key =>
    rw [if_neg (fun hempty => toSshString_ne_nil key (h.symm.trans hempty)), h, pinText,
      sshPubkeyBytes, Pubkey.fromSshString_toSshString]
    rfl

/-- The settings have the pin, and whoever has been opened with one has that one. -/
structure Inv (T : TextFormat) (s : State) : Prop where
  settings : s.settings.hubPubkey = pinText T s.pinned
  stored : s.pinned = none → s.stored.hubPubkey = []
  writing : s.pinned = none → ∀ settings ∈ s.writing, settings.hubPubkey = []
  openings : ∀ key ∈ s.openings, key = none ∨ key = s.pinned.map (·.val)
  vaults : ∀ vault ∈ s.vaults,
    vault.opts.hubPubkey = none ∨ vault.opts.hubPubkey = s.pinned.map (·.val)
  strangers : s.strangers = []

theorem inv_fresh {settings : AgentsyncSettings} (h : settings.hubPubkey = []) :
    Inv T (fresh settings) where
  settings := h
  stored := fun _ => h
  writing := nofun
  openings := nofun
  vaults := nofun
  strangers := rfl

theorem Inv.set {s : State} (hs : Inv T s) {v : Nat} {vault vault' : RunningVault}
    (hv : s.vaults[v]? = some vault) (hopts : vault'.opts = vault.opts) :
    ∀ w ∈ s.vaults.set v vault', w.opts.hubPubkey = none ∨
      w.opts.hubPubkey = s.pinned.map (·.val) := by
  intro w hw
  rcases List.mem_or_eq_of_mem_set hw with hold | rfl
  · exact hs.vaults w hold
  · rw [hopts]
    exact hs.vaults vault (List.mem_of_getElem? hv)

theorem Inv.onConnected {s : State} (hs : Inv T s) (hubPubkey : Bytes) :
    Inv T (onConnected T s hubPubkey) := by
  unfold Trust.onConnected
  split
  · exact hs
  next hempty =>
    have hnone : s.pinned = none := by
      rw [← @pinText_eq_nil T, ← hs.settings]
      exact not_not.mp hempty
    have hopenings := hs.openings
    have hvaults := hs.vaults
    rw [hnone] at hopenings hvaults
    split
    · exact hs
    next pk hpk =>
      rw [hnone]
      exact {
        settings := rfl
        stored := nofun
        writing := nofun
        openings := fun key hkey => .inl ((hopenings key hkey).elim id id)
        vaults := fun vault hvault => .inl ((hvaults vault hvault).elim id id)
        strangers := hs.strangers }

theorem Inv.step {s s' : State} {e : Event} (hs : Inv T s) (hpinned : Pinned s e)
    (h : step C T identity s e = some s') : Inv T s' := by
  cases e with
  | openVault =>
    simp only [Trust.step, pinnedKey_pinText hs.settings, Option.some.injEq] at h
    subst h
    refine {hs with openings := fun key hkey => ?_}
    rcases List.mem_append.mp hkey with hold | hnew
    · exact hs.openings key hold
    · exact .inr (List.mem_singleton.mp hnew)
  | opened i vaultId =>
    simp only [Trust.step, Option.bind_eq_bind, Option.bind_eq_some_iff, Option.some.injEq] at h
    obtain ⟨key, hkey, rfl⟩ := h
    refine {hs with
      openings := fun key hkey => hs.openings key (List.mem_of_mem_eraseIdx hkey)
      vaults := fun vault hvault => ?_}
    rcases List.mem_append.mp hvault with hold | hnew
    · exact hs.vaults vault hold
    · rw [List.mem_singleton.mp hnew]
      exact hs.openings key (List.mem_of_getElem? hkey)
  | listen v on =>
    simp only [Trust.step, Option.bind_eq_bind, Option.bind_eq_some_iff, Option.some.injEq] at h
    obtain ⟨vault, hvault, rfl⟩ := h
    exact {hs with vaults := hs.set hvault rfl}
  | handshake v channelBinding peerNonce sign frames =>
    simp only [Trust.step, Option.bind_eq_bind, Option.bind_eq_some_iff] at h
    obtain ⟨vault, hvault, h⟩ := h
    split at h
    · cases h
    · split at h
      · cases h
        exact hs
      next hubPubkey hkey =>
        cases h
        have hsame : s.pinned.any (fun key => decide (key.val ≠ hubPubkey)) = false := by
          cases hpin : s.pinned with
          | none => rfl
          | some key =>
            have hset : s.settings.hubPubkey ≠ [] := by
              rw [hs.settings, hpin]
              exact toSshString_ne_nil key
            have hopts := (hs.vaults vault (List.mem_of_getElem? hvault)).resolve_left
              (hpinned hset vault hvault)
            rw [hpin] at hopts
            simp [handshakeKey_pinned hopts hkey]
        rw [hsame]
        exact {hs with vaults := hs.set hvault rfl}
  | connected v =>
    simp only [Trust.step, Option.bind_eq_bind, Option.bind_eq_some_iff, Option.some.injEq] at h
    obtain ⟨vault, hvault, hubPubkey, hkey, rfl⟩ := h
    have hquiet : Inv T {s with vaults := s.vaults.set v {vault with shaken := none}} :=
      {hs with vaults := hs.set hvault rfl}
    split
    · exact hquiet.onConnected hubPubkey
    · exact hquiet
  | setVaultId vaultId =>
    cases h
    exact {hs with}
  | saveBegins =>
    simp only [Trust.step] at h
    split at h
    · cases h
    · cases h
      refine {hs with writing := fun hnone settings hsettings => ?_}
      cases hsettings
      rw [hs.settings]
      exact pinText_eq_nil.mpr hnone
  | saveEnds outcome =>
    simp only [Trust.step, Option.bind_eq_bind, Option.bind_eq_some_iff, Option.some.injEq] at h
    obtain ⟨settings, hwriting, rfl⟩ := h
    refine {hs with writing := nofun, stored := fun hnone => ?_}
    cases outcome with
    | written => exact hs.writing hnone settings hwriting
    | kept => exact hs.stored hnone
    | lost => rfl
  | reload =>
    cases h
    refine {hs with writing := nofun, openings := nofun, vaults := nofun, settings := ?_}
    by_cases hnone : s.pinned = none
    · rw [hs.stored hnone, hnone]
      rfl
    · have hset : s.settings.hubPubkey ≠ [] := by
        rw [hs.settings]
        exact fun hempty => hnone (pinText_eq_nil.mp hempty)
      exact (hpinned hset).trans hs.settings

/-- **After the first pin every handshake that completes is with the pinned key, in a run where
a vault opened without the pin does not connect again and no session begins without it.** -/
theorem trust_sticks {settings : AgentsyncSettings} {s : State} (hempty : settings.hubPubkey = [])
    (hrun : Machine.Reach (step C T identity) Pinned (fresh settings) s) : s.strangers = [] :=
  (hrun.invariant (inv_fresh hempty) fun _ _ _ hs hpinned h => hs.step hpinned h).strangers

/-- What a hub with the key of all `byte`s sends to the device with the key of all fours. -/
private abbrev sent (byte : UInt8) : List Frame :=
  [.helloHub (txt "v") (List.replicate 32 byte) (List.replicate 32 2) [] none,
    .proofHub (List.replicate 64 0)]

/-- Two hubs sign: the user's with the key of all ones, and another. -/
private abbrev twoHubs : Crypto :=
  tableCrypto [(.fill 1, Net.buildTranscript (.fill 2) (.fill 3) [] (.fill 1) (.fill 4),
      List.replicate 64 0),
    (.fill 9, Net.buildTranscript (.fill 2) (.fill 3) [] (.fill 9) (.fill 4), List.replicate 64 0)]

private abbrev meets (byte : UInt8) : Event :=
  .handshake 0 none (.fill 3) (fun _ => .ok []) (sent byte)

private abbrev firstUse : List Event :=
  [.openVault, .opened 0 (txt "v"), .listen 0 true, meets 1, .connected 0]

private abbrev unpinned : AgentsyncSettings := ⟨txt "wss://hub", txt "v", []⟩

/-- The vault reconnects by itself, and the other hub answers. -/
theorem trust_sticks_reconnect :
    ¬ ∀ (C : Crypto) (T : TextFormat) (identity : Pubkey) (settings : AgentsyncSettings)
      (s : State), settings.hubPubkey = [] →
      Machine.Reach (step C T identity) (fun _ _ => True) (fresh settings) s →
      s.strangers = [] := by
  intro hsticks
  have hrun : (Machine.run (step twoHubs standardText (.fill 4)) (fresh unpinned)
      (firstUse ++ [meets 9])).map State.strangers = some [List.replicate 32 9] := by
    decide +kernel
  obtain ⟨s, hs, hread⟩ := Option.map_eq_some_iff.mp hrun
  have hnone := hsticks twoHubs standardText (.fill 4) unpinned s rfl
    (.of_run (.of_forall (fun _ _ => trivial) _) hs)
  rw [hread] at hnone
  cases hnone

/-- In the next session the other hub is turned away and the first one is not. -/
theorem trust_sticks_reload : ∃ s : State, s.strangers = [] ∧
    s.vaults.map RunningVault.shaken = [some (List.replicate 32 1)] := by
  let nextSession : List Event := firstUse ++ [.saveBegins, .saveEnds .written, .reload,
    .openVault, .opened 0 (txt "v"), .listen 0 true, meets 9, meets 1]
  have hrun : (Machine.run (step twoHubs standardText (.fill 4)) (fresh unpinned)
      nextSession).map (fun s => s.vaults.map RunningVault.shaken) =
      some [some (List.replicate 32 1)] := by decide +kernel
  have hpinned : Machine.allowed (step twoHubs standardText (.fill 4))
      (fun s e => decide (Pinned s e)) (fresh unpinned) nextSession = true := by decide +kernel
  obtain ⟨s, hs, hread⟩ := Option.map_eq_some_iff.mp hrun
  exact ⟨s, trust_sticks rfl (.of_run (.of_allowed (fun _ _ => of_decide_eq_true) hpinned) hs),
    hread⟩

end AgentSync.Obsidian.Trust
