import AgentSync.Program
import AgentSync.Net.Ssh
import AgentSync.Sdk.Handshake

/-! How the Obsidian plugin opens its vault.

`openOrCreateVault` asks the hub first which vault it serves. `probeHub` takes the word of
whoever answers: it reads one frame, sends none, and the key in the frame is not looked at, so
the pin in the settings does not come in. `clone` of the CLI learns the id from a whole
handshake. On that word the settings get the hub's id, and a local document of another vault is
replaced with an empty one.

What the settings pin still decides is which ids can do it (`harmless_iff`): a vault id in the
settings keeps out a hub that announces another, and with the id left empty nothing does. -/
namespace AgentSync.Obsidian

open Net Sdk Program

/-! ### The plugin and what is outside -/

/-- What connecting reads of `config.toml`; a text is empty when its key is absent. -/
structure AgentsyncSettings where
  rendezvousUrl : Str
  vaultId : Str
  hubPubkey : Str
  deriving DecidableEq, Repr

/-- What the plugin writes while it opens its vault. -/
inductive Write where
  | saveSettings (settings : AgentsyncSettings)
  | saveDoc (bytes : Bytes)
  | saveSnapshots (bytes : Bytes)
  deriving DecidableEq, Repr

/-- What answers the plugin. -/
structure Outside where
  /-- The messages that the probe's connection brings, up to its end. -/
  received : Except Str (List Bytes)
  decodeFrame : Bytes → Except Str Frame
  /-- `loadDoc`. -/
  stored : Option Bytes
  /-- `Doc.load(bytes).vaultId()`. -/
  loadedVaultId : Bytes → Except Str Str
  /-- `new Doc(vaultId).save()`. -/
  freshDoc : Str → Bytes
  /-- The same after `authorized_keys` is written with the creator's key. -/
  seededDoc : Str → Bytes
  generatedVaultId : Str
  /-- How a write settles. -/
  settles : Write → Except Str Unit
  identity : Pubkey

/-- The settings in memory, and the writes asked for so far. -/
structure Plugin where
  settings : AgentsyncSettings
  writes : List Write
  deriving DecidableEq, Repr

abbrev Call := EStateM Str Plugin

variable (T : TextFormat) (out : Outside)

def throws {α : Type} : Except Str α → Call α
  | .error e => throw e
  | .ok a => pure a

def write (w : Write) : Call Unit := do
  modify fun p => {p with writes := p.writes ++ [w]}
  throws (out.settles w)

/-! ### The probe -/

structure HubInfo where
  vaultId : Str
  hubPubkey : Bytes
  vaultName : Option Str
  deriving DecidableEq, Repr

/-- `Vault.probeHub`, once the transport is there. -/
def probeHub : Except Str HubInfo :=
  match out.received with
  | .error e => .error e
  | .ok [] => .error (txt "connection closed before hello_hub")
  | .ok (bytes :: _) =>
    match out.decodeFrame bytes with
    | .error e => .error e
    | .ok (.error message) => .error (txt "hub rejected probe: " ++ message)
    | .ok (.helloHub vaultId hubIdentityPubkey _ _ vaultName) =>
      .ok ⟨vaultId, hubIdentityPubkey, vaultName⟩
    | .ok frame => .error (txt "expected hello_hub, got " ++ frameTag frame)

/-- The `hubVaultId` of `openOrCreateVault`, empty where it is `null`: without a url there is no
probe, and a probe that fails is logged. -/
def hubVaultId (rendezvousUrl : Str) : Str :=
  if rendezvousUrl = [] then []
  else match probeHub out with
    | .ok info => info.vaultId
    | .error _ => []

/-! ### Opening -/

/-- `sshPubkeyBytes`. -/
def sshPubkeyBytes (ssh : Str) : Except Str Bytes :=
  match Pubkey.fromSshString T ssh with
  | .error e => .error (txt "invalid [vault] hub_pubkey in config.toml: " ++ e.text)
  | .ok pk => .ok pk.val

/-- The `hubPubkey` of the options. -/
def pinnedKey (settings : AgentsyncSettings) : Except Str (Option Bytes) :=
  if settings.hubPubkey = [] then .ok none
  else (sshPubkeyBytes T settings.hubPubkey).map some

/-- Up to `loadDoc`: the pinned id against the hub's, and the hub's into the settings. -/
def adoptHubId (hubId : Str) : Call Unit := do
  let settings := (← get).settings
  if settings.vaultId ≠ [] ∧ hubId ≠ [] ∧ settings.vaultId ≠ hubId then
    throw (txt "pinned vault id " ++ settings.vaultId ++ txt " does not match the vault this hub " ++
      txt "serves (" ++ hubId ++ txt "). Clear the Vault ID field to join the hub's vault " ++
      txt "automatically, or correct the pinned id.")
  else if hubId ≠ [] ∧ settings.vaultId ≠ hubId then
    modify fun p => {p with settings := {p.settings with vaultId := hubId}}
    write out (.saveSettings {settings with vaultId := hubId})

/-- `Vault.create`: the id of the new vault. -/
def createVault (vaultId : Str) : Call Str := do
  if vaultId ≠ [] then
    write out (.saveDoc (out.freshDoc vaultId))
    return vaultId
  else
    write out (.saveDoc (out.seededDoc out.generatedVaultId))
    return out.generatedVaultId

/-- From `loadDoc` on: the id of the vault. `target` is the hub's id or else the pinned one. -/
def openLocal (rendezvousUrl hubId target : Str) : Call Str := do
  match out.stored with
  | some (byte :: bytes) =>
    let loaded ← throws (out.loadedVaultId (byte :: bytes))
    if target = [] ∨ loaded = target then return loaded
    else if hubId ≠ [] then
      write out (.saveDoc [])
      write out (.saveSnapshots [])
      createVault out target
    else
      throw (txt "configured vault id " ++ target ++ txt " does not match the local vault on " ++
        txt "disk (" ++ loaded ++ txt "). Run \"Reset local state\" in plugin settings to join " ++
        target ++ txt " from scratch.")
  | _ =>
    if target = [] ∧ rendezvousUrl ≠ [] then
      throw (txt "could not reach the hub to discover its vault id — check the Hub URL and " ++
        txt "your connection, then try again.")
    else createVault out target

/-- `openOrCreateVault`: what the vault's handshakes will read. -/
def openOrCreateVault : Call HandshakeOptions := do
  let settings := (← get).settings
  let hubPubkey ← throws (pinnedKey T settings)
  let hubId := hubVaultId out settings.rendezvousUrl
  adoptHubId out hubId
  let target := if hubId ≠ [] then hubId else settings.vaultId
  let vaultId ← openLocal out settings.rendezvousUrl hubId target
  return ⟨vaultId, hubPubkey, out.identity⟩

/-! ### Writes stay asked for -/

/-- The plugin has asked for the write. -/
def Asked (w : Write) (p : Plugin) : Prop := w ∈ p.writes

variable {w : Write}

theorem keeps_throws {α : Type} (x : Except Str α) : Keeps (Asked w) (throws x) := by
  cases x with
  | error e => exact .throw e
  | ok a => exact .pure a

theorem keeps_write (w' : Write) : Keeps (Asked w) (write out w') :=
  .bind (fun _ h => List.mem_append_left _ h) fun _ => keeps_throws _

theorem keeps_createVault (vaultId : Str) : Keeps (Asked w) (createVault out vaultId) := by
  unfold createVault
  split
  · exact .bind (keeps_write out _) fun _ => .pure _
  · exact .bind (keeps_write out _) fun _ => .pure _

theorem keeps_openLocal (rendezvousUrl hubId target : Str) :
    Keeps (Asked w) (openLocal out rendezvousUrl hubId target) := by
  unfold openLocal
  split
  · apply Keeps.bind (keeps_throws _)
    intro loaded
    split
    · exact .pure _
    · split
      · exact .bind (keeps_write out _) fun _ =>
          .bind (keeps_write out _) fun _ => keeps_createVault out target
      · exact .throw _
  · split
    · exact .throw _
    · exact keeps_createVault out target

theorem mem_finish_write (p : Plugin) (w : Write) : w ∈ (finish (write out w p)).writes := by
  have hlogged : w ∈ (finish ((modify fun p => {p with writes := p.writes ++ [w]} : Call Unit)
      p)).writes := List.mem_append_right _ (List.mem_singleton_self w)
  exact Keeps.finish_bind (P := Asked w) (fun _ => keeps_throws (out.settles w)) hlogged

/-! ### On whose word -/

/-- The write takes the local document away or moves the plugin to another vault. -/
def Destructive (vaultId : Str) : Write → Prop
  | .saveSettings settings => settings.vaultId ≠ vaultId
  | .saveDoc _ => True
  | .saveSnapshots _ => False

/-- The probe brings an id that the settings do not contradict, and it is not the one they and
the local document already have. -/
def Swayed (settings : AgentsyncSettings) (bytes : Bytes) : Prop :=
  hubVaultId out settings.rendezvousUrl ≠ [] ∧
    (settings.vaultId = [] ∨
      settings.vaultId = hubVaultId out settings.rendezvousUrl ∧
        ∃ loaded, out.loadedVaultId bytes = .ok loaded ∧ loaded ≠ settings.vaultId)

variable {T out} {settings : AgentsyncSettings}

theorem adoptHubId_same {hubId : Str} {p : Plugin} (h : hubId = [] ∨ p.settings.vaultId = hubId) :
    adoptHubId out hubId p = .ok () p := by
  have hpin : ¬ (p.settings.vaultId ≠ [] ∧ hubId ≠ [] ∧ p.settings.vaultId ≠ hubId) := by grind
  have hsame : ¬ (hubId ≠ [] ∧ p.settings.vaultId ≠ hubId) := by grind
  simp only [adoptHubId, get_bind, if_neg hpin, if_neg hsame]
  rfl

theorem adoptHubId_other {hubId : Str} {p : Plugin} (hset : p.settings.vaultId ≠ [])
    (hne : hubId ≠ []) (h : p.settings.vaultId ≠ hubId) :
    ∃ e, adoptHubId out hubId p = .error e p := by
  simp only [adoptHubId, get_bind, if_pos (And.intro hset (And.intro hne h))]
  exact ⟨_, rfl⟩

theorem adoptHubId_empty {hubId : Str} {p : Plugin} (hset : p.settings.vaultId = [])
    (hne : hubId ≠ []) : .saveSettings {p.settings with vaultId := hubId} ∈
      (finish (adoptHubId out hubId p)).writes := by
  have hpin : ¬ (p.settings.vaultId ≠ [] ∧ hubId ≠ [] ∧ p.settings.vaultId ≠ hubId) := by grind
  have hnew : hubId ≠ [] ∧ p.settings.vaultId ≠ hubId := ⟨hne, fun e => hne (e ▸ hset)⟩
  simp only [adoptHubId, get_bind, if_neg hpin, if_pos hnew]
  exact mem_finish_write out _ _

section Local
variable {bytes : Bytes} (hstored : out.stored = some bytes) (hbytes : bytes ≠ [])
include hstored hbytes

/-- A local document that does not load, or that is of the right vault, is left alone; without a
hub's id every local document is. -/
theorem openLocal_stays {rendezvousUrl hubId target : Str} {p : Plugin}
    (h : hubId = [] ∨ ∀ loaded, out.loadedVaultId bytes = .ok loaded → loaded = target) :
    finish (openLocal out rendezvousUrl hubId target p) = p := by
  obtain ⟨byte, rest, rfl⟩ := List.exists_cons_of_ne_nil hbytes
  simp only [openLocal, hstored, Bind.bind, EStateM.bind]
  cases hloaded : out.loadedVaultId (byte :: rest) with
  | error e => rfl
  | ok loaded =>
    show finish ((if target = [] ∨ loaded = target then _ else _ : Call Str) p) = p
    by_cases hsame : target = [] ∨ loaded = target
    · rw [if_pos hsame]
      rfl
    · have hempty : hubId = [] := h.resolve_right fun hall => hsame (.inr (hall loaded hloaded))
      rw [if_neg hsame, if_neg (not_not.mpr hempty)]
      rfl

theorem openLocal_discards {rendezvousUrl hubId target loaded : Str} {p : Plugin}
    (hhub : hubId ≠ []) (htarget : target ≠ []) (hloaded : out.loadedVaultId bytes = .ok loaded)
    (hne : loaded ≠ target) :
    .saveDoc [] ∈ (finish (openLocal out rendezvousUrl hubId target p)).writes := by
  obtain ⟨byte, rest, rfl⟩ := List.exists_cons_of_ne_nil hbytes
  have hother : ¬ (target = [] ∨ loaded = target) := by grind
  simp only [openLocal, hstored, hloaded, throws, pure_bind, if_neg hother, if_pos hhub]
  exact Keeps.finish_bind (P := Asked (.saveDoc []))
    (fun _ => .bind (keeps_write out _) fun _ => keeps_createVault out _) (mem_finish_write out _ _)

end Local

theorem openOrCreateVault_pinned {key : Option Bytes} {p : Plugin}
    (hkey : pinnedKey T p.settings = .ok key) :
    openOrCreateVault T out p = (do
      adoptHubId out (hubVaultId out p.settings.rendezvousUrl)
      let vaultId ← openLocal out p.settings.rendezvousUrl
        (hubVaultId out p.settings.rendezvousUrl)
        (if hubVaultId out p.settings.rendezvousUrl ≠ [] then
          hubVaultId out p.settings.rendezvousUrl else p.settings.vaultId)
      return ⟨vaultId, key, out.identity⟩ : Call HandshakeOptions) p := by
  simp only [openOrCreateVault, get_bind, hkey]
  rfl

/-- **With a key pinned and a local document, opening the vault discards nothing and keeps the
vault id exactly when the pin does not read, or the probe's answer does not sway the settings
and the document.** -/
theorem harmless_iff {bytes : Bytes} (hpin : settings.hubPubkey ≠ [])
    (hstored : out.stored = some bytes) (hbytes : bytes ≠ []) :
    (∀ w ∈ (finish (openOrCreateVault T out ⟨settings, []⟩)).writes,
        ¬ Destructive settings.vaultId w) ↔
      (∃ e, sshPubkeyBytes T settings.hubPubkey = .error e) ∨ ¬ Swayed out settings bytes := by
  cases hkey : sshPubkeyBytes T settings.hubPubkey with
  | error e =>
    have hthrows : pinnedKey T settings = .error e := by
      rw [pinnedKey, if_neg hpin, hkey]
      rfl
    have hrun : openOrCreateVault T out ⟨settings, []⟩ = .error e ⟨settings, []⟩ := by
      simp only [openOrCreateVault, get_bind, hthrows]
      rfl
    simp [hrun, finish]
  | ok key =>
    have hreads : pinnedKey T settings = .ok (some key) := by
      rw [pinnedKey, if_neg hpin, hkey]
      rfl
    rw [@openOrCreateVault_pinned T out (some key) ⟨settings, []⟩ hreads]
    simp only [reduceCtorEq, exists_false, false_or]
    generalize hhub : hubVaultId out settings.rendezvousUrl = hubId
    constructor
    · intro hsafe hsway
      rw [Swayed, hhub] at hsway
      obtain ⟨hne, hempty | ⟨hsame, loaded, hloaded, hother⟩⟩ := hsway
      · -- An empty id: the announced one is saved before the document is even read.
        refine hsafe (.saveSettings {settings with vaultId := hubId}) (Keeps.finish_bind
          (P := Asked (.saveSettings {settings with vaultId := hubId})) (fun _ => ?_)
          (@adoptHubId_empty out hubId ⟨settings, []⟩ hempty hne)) ?_
        · exact .bind (keeps_openLocal out _ _ _) fun _ => .pure _
        · simpa [Destructive, hempty] using hne
      · -- The settings agree with the hub and the document does not.
        refine hsafe (.saveDoc []) ?_ trivial
        rw [bind_ok (@adoptHubId_same out hubId ⟨settings, []⟩ (.inr hsame)),
          finish_bind_pure, if_pos hne]
        exact openLocal_discards hstored hbytes hne hne hloaded (hsame ▸ hother)
    · intro hfirm w hw
      rw [Swayed, hhub] at hfirm
      by_cases hadopt : hubId = [] ∨ settings.vaultId = hubId
      · rw [bind_ok (@adoptHubId_same out hubId ⟨settings, []⟩ hadopt),
          finish_bind_pure, openLocal_stays hstored hbytes] at hw
        · cases hw
        · by_cases hne : hubId = []
          · exact .inl hne
          · have hsame := hadopt.resolve_left hne
            refine .inr fun loaded hloaded => ?_
            rw [if_pos hne, ← hsame]
            by_contra hother
            exact hfirm ⟨hne, .inr ⟨hsame, loaded, hloaded, hother⟩⟩
      · obtain ⟨hne, hother⟩ := not_or.mp hadopt
        have hset : settings.vaultId ≠ [] := fun hempty => hfirm ⟨hne, .inl hempty⟩
        obtain ⟨e, hrun⟩ := @adoptHubId_other out hubId ⟨settings, []⟩ hset hne hother
        rw [bind_error hrun] at hw
        cases hw

/-- A device with a document of the vault `notes`, its settings pinned to the key of all ones,
and an attacker who answers the probe with `received`. -/
private abbrev answered (received : List Bytes) : Outside where
  received := .ok received
  decodeFrame := fun bytes => .ok (.helloHub (bytes.map fun b => Char.ofNat b.toNat)
    (List.replicate 32 9) (List.replicate 32 2) [] none)
  stored := some [1]
  loadedVaultId := fun _ => .ok (txt "notes")
  freshDoc := fun _ => [2]
  seededDoc := fun _ => [3]
  generatedVaultId := txt "new"
  settles := fun _ => .ok ()
  identity := .fill 4

private abbrev pinnedSettings (vaultId : Str) : AgentsyncSettings :=
  ⟨txt "wss://hub", vaultId, Pubkey.toSshString standardText (.fill 1)⟩

/-- A hub of another key announces `evil` to a plugin whose vault id field is empty: the id is
saved and the document of `notes` is overwritten with nothing. -/
theorem harmless_iff_announced :
    ¬ ∀ (T : TextFormat) (out : Outside) (settings : AgentsyncSettings) (bytes : Bytes),
      settings.hubPubkey ≠ [] → out.stored = some bytes → bytes ≠ [] →
      ∀ w ∈ (finish (openOrCreateVault T out ⟨settings, []⟩)).writes,
        w ≠ .saveDoc [] ∧ ∀ saved, w = .saveSettings saved → saved.vaultId = settings.vaultId := by
  intro hsafe
  have hwrites : (finish (openOrCreateVault standardText
      (answered [asciiBytes (txt "evil")]) ⟨pinnedSettings [], []⟩)).writes =
      [.saveSettings (pinnedSettings (txt "evil")), .saveDoc [], .saveSnapshots [],
        .saveDoc [2]] := by
    decide +kernel
  refine (hsafe standardText (answered [asciiBytes (txt "evil")]) (pinnedSettings []) [1]
    (by decide +kernel) rfl (by decide) (.saveDoc []) ?_).1 rfl
  rw [hwrites]
  simp

/-- The same hub meets a plugin that has the id of its vault: the document stays. -/
theorem harmless_iff_kept : .saveDoc [] ∉ (finish (openOrCreateVault standardText
    (answered [asciiBytes (txt "evil")]) ⟨pinnedSettings (txt "notes"), []⟩)).writes := by
  have hfirm : ¬ Swayed (answered [asciiBytes (txt "evil")]) (pinnedSettings (txt "notes")) [1] := by
    intro hsway
    obtain ⟨-, hempty | ⟨hsame, -⟩⟩ := hsway
    · cases hempty
    · revert hsame
      decide +kernel
  intro hw
  exact (@harmless_iff standardText (answered [asciiBytes (txt "evil")])
    (pinnedSettings (txt "notes")) [1] (by decide +kernel) rfl (by decide)).mpr (.inr hfirm) _ hw
    trivial

end AgentSync.Obsidian
