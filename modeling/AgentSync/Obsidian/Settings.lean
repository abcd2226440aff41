import AgentSync.Sdk.Schema

/-! The plugin's settings, which are a view of `config.toml`.

The settings that other programs know too lie under the keys of the schema, the plugin's own ones in
a table `[obsidian]`. A save goes through the typed view of the whole file, so the keys of the
schema that are not the plugin's are written as well, with the values they have, or the defaults. -/
namespace AgentSync.Obsidian.Settings

open Js Sdk

structure AgentsyncSettings where
  rendezvousUrl : JsStr
  vaultId : JsStr
  vaultName : JsStr
  hubPubkey : JsStr
  syncEnabled : Bool
  autoConnectOnStart : Bool
  onboarded : Bool
  ignoreGlobs : List JsStr
  identityPath : JsStr
  deriving DecidableEq

/-- `OBSIDIAN_TABLE`. -/
def obsidianTable : JsStr := js "obsidian"

def settingsFromTomlDoc (doc : TomlDoc) : AgentsyncSettings :=
  let cfg := configFromDoc doc
  let ob := doc.get? obsidianTable
  { rendezvousUrl := cfg.vault.rendezvousUrl.getD []
    vaultId := cfg.vault.id.getD []
    vaultName := cfg.vault.name.getD []
    hubPubkey := cfg.vault.hubPubkey.getD []
    syncEnabled := valueOf ob (js "sync_enabled") = some (.boolean true)
    autoConnectOnStart := valueOf ob (js "auto_connect") = some (.boolean true)
    onboarded := valueOf ob (js "onboarded") = some (.boolean true)
    ignoreGlobs := strArr (valueOf ob (js "ignore_globs")) []
    identityPath := cfg.identity.path.getD [] }

/-- `s || undefined`. -/
def orUndefined (s : JsStr) : Option JsStr := if s = [] then none else some s

/-- The configuration with the fields that the plugin owns. -/
def AgentsyncSettings.overwrite (s : AgentsyncSettings) (prev : AgentsyncConfig) : AgentsyncConfig :=
  { prev with
    vault := {
      id := orUndefined s.vaultId
      name := orUndefined s.vaultName
      rendezvousUrl := orUndefined s.rendezvousUrl
      hubPubkey := orUndefined s.hubPubkey }
    identity := {prev.identity with path := orUndefined s.identityPath} }

/-- The table of the plugin's own settings. -/
def AgentsyncSettings.ownTable (s : AgentsyncSettings) : TomlTable :=
  let ob : TomlTable := ∅
  let ob := if s.syncEnabled then ob.set (js "sync_enabled") (.boolean true) else ob
  let ob := if s.autoConnectOnStart then ob.set (js "auto_connect") (.boolean true) else ob
  let ob := if s.onboarded then ob.set (js "onboarded") (.boolean true) else ob
  if s.ignoreGlobs.length > 0 then ob.set (js "ignore_globs") (.array s.ignoreGlobs) else ob

/-- Without a base it is the empty one. -/
def writeSettingsToTomlDoc (s : AgentsyncSettings) (base : TomlDoc) : TomlDoc :=
  let prev := s.overwrite (configFromDoc base)
  let doc := applyConfigToDoc prev base
  let ob := s.ownTable
  doc.put obsidianTable (if ob.entries.length > 0 then some ob else none)

variable {s : AgentsyncSettings} {base doc : TomlDoc} {name key : JsStr}

/-! ### The plugin's own table -/

/-- The keys of the table, in the order they are written in. -/
def ownKeys : List JsStr :=
  [js "sync_enabled", js "auto_connect", js "onboarded", js "ignore_globs"]

/-- The value of a knob that is on. -/
def knob (on : Bool) : Option TomlValue := if on then some (.boolean true) else none

def globsValue (globs : List JsStr) : Option TomlValue :=
  if globs.length > 0 then some (.array globs) else none

def AgentsyncSettings.ownEdits (s : AgentsyncSettings) : List (JsStr × Option TomlValue) :=
  [(js "sync_enabled", knob s.syncEnabled), (js "auto_connect", knob s.autoConnectOnStart),
    (js "onboarded", knob s.onboarded), (js "ignore_globs", globsValue s.ignoreGlobs)]

theorem ownTable_eq (s : AgentsyncSettings) : s.ownTable = (∅ : TomlTable).putAll s.ownEdits := by
  unfold AgentsyncSettings.ownTable AgentsyncSettings.ownEdits knob globsValue
  by_cases hglobs : s.ignoreGlobs.length > 0
  · simp only [if_pos hglobs]
    cases s.syncEnabled <;> cases s.autoConnectOnStart <;> cases s.onboarded <;> rfl
  · simp only [if_neg hglobs]
    cases s.syncEnabled <;> cases s.autoConnectOnStart <;> cases s.onboarded <;> rfl

theorem get?_ownTable {v : Option TomlValue} (h : (key, v) ∈ s.ownEdits) :
    s.ownTable.get? key = v := by
  rw [ownTable_eq]
  exact JsMap.get?_putAll (by show ownKeys.Nodup; decide +kernel) h

/-- The keys of the table stand in the order they are written in. -/
theorem keys_ownTable (s : AgentsyncSettings) : s.ownTable.keys.Sublist ownKeys := by
  rw [ownTable_eq]
  exact JsMap.keys_putAll ∅ s.ownEdits

/-! ### Writing and reading -/

theorem overwrite_filled {cfg : AgentsyncConfig} (h : cfg.Filled) (s : AgentsyncSettings) :
    (s.overwrite cfg).Filled := by
  have hne : ∀ t, orUndefined t ≠ some [] := by
    intro t
    unfold orUndefined
    split
    next => exact fun h => by cases h
    next hne => exact fun h => hne (Option.some.inj h)
  exact ⟨hne _, hne _, hne _, hne _, hne _, h.agentSocket, h.agentPubkey⟩

theorem getD_orUndefined (t : JsStr) : (orUndefined t).getD [] = t := by
  unfold orUndefined
  split
  next h => exact h.symm
  next => rfl

/-- The tables apart from the plugin's are those of the typed view. -/
theorem get?_write_of_ne (hname : name ≠ obsidianTable) :
    (writeSettingsToTomlDoc s base).get? name =
      (applyConfigToDoc (s.overwrite (configFromDoc base)) base).get? name :=
  (JsMap.get?_put _ _ _ _).trans (if_neg hname)

theorem tableOf_write_of_ne (hname : name ≠ obsidianTable) :
    tableOf (writeSettingsToTomlDoc s base) name =
      tableOf (applyConfigToDoc (s.overwrite (configFromDoc base)) base) name :=
  congrArg (·.getD ∅) (get?_write_of_ne hname)

theorem tableOf_write (s : AgentsyncSettings) (base : TomlDoc) :
    tableOf (writeSettingsToTomlDoc s base) obsidianTable = s.ownTable := by
  rw [writeSettingsToTomlDoc, tableOf, JsMap.get?_put, if_pos rfl]
  split
  next => rfl
  next h => exact (JsMap.ext (List.eq_nil_of_length_eq_zero (Nat.eq_zero_of_not_pos h))).symm

theorem configFromDoc_congr {doc doc' : TomlDoc}
    (h : ∀ t ∈ schemaTables, doc.get? t = doc'.get? t) : configFromDoc doc = configFromDoc doc' := by
  unfold configFromDoc
  rw [h (js "vault") (.head _), h (js "identity") (.tail _ (.head _)),
    h (js "sync") (.tail _ (.tail _ (.head _)))]

theorem ne_of_mem_schemaTables (h : name ∈ schemaTables) : name ≠ obsidianTable := by
  have hall : ∀ t ∈ schemaTables, t ≠ obsidianTable := by decide +kernel
  exact hall name h

/-- What is written has the typed view it was written through. -/
theorem configFromDoc_write (hbase : (configFromDoc base).Filled) (s : AgentsyncSettings) :
    configFromDoc (writeSettingsToTomlDoc s base) = s.overwrite (configFromDoc base) := by
  rw [configFromDoc_congr fun t ht => get?_write_of_ne (ne_of_mem_schemaTables ht)]
  exact configFromDoc_applyConfigToDoc (overwrite_filled hbase s) base

/-- Written, the settings are read back. -/
theorem settingsFromTomlDoc_write (hbase : (configFromDoc base).Filled) (s : AgentsyncSettings) :
    settingsFromTomlDoc (writeSettingsToTomlDoc s base) = s := by
  have hown : ∀ (i : Nat) key v, s.ownEdits[i]? = some (key, v) →
      valueOf ((writeSettingsToTomlDoc s base).get? obsidianTable) key = v := by
    intro i key v hi
    rw [valueOf_get?, tableOf_write]
    have hmem : (key, v) ∈ s.ownEdits := List.mem_of_getElem? hi
    exact get?_ownTable hmem
  have hknob : ∀ on, decide (knob on = some (.boolean true)) = on := by decide
  have hglobs : strArr (globsValue s.ignoreGlobs) [] = s.ignoreGlobs := by
    unfold globsValue
    split
    next => rfl
    next h => exact (List.eq_nil_of_length_eq_zero (Nat.eq_zero_of_not_pos h)).symm
  simp only [settingsFromTomlDoc, configFromDoc_write hbase, hown 0 _ _ rfl, hown 1 _ _ rfl,
    hown 2 _ _ rfl, hown 3 _ _ rfl, hknob, hglobs, AgentsyncSettings.overwrite, getD_orUndefined]

theorem mem_keys_write (hname : name ≠ obsidianTable) (h : name ∈ base.keys) :
    name ∈ (writeSettingsToTomlDoc s base).keys := by
  rw [← JsMap.has_iff, JsMap.has, get?_write_of_ne hname, ← JsMap.has, JsMap.has_iff,
    keys_applyConfigToDoc]
  exact mem_keys_withTables.mpr (.inr h)

/-- The tables keep their order, the plugin's own one as well. -/
theorem sameOrder_write (s : AgentsyncSettings) (base : TomlDoc) :
    JsMap.SameOrder base (writeSettingsToTomlDoc s base) := by
  refine (sameOrder_applyConfigToDoc _ base).put (fun h => ?_) _
  rw [keys_applyConfigToDoc]
  exact mem_keys_withTables.mpr (.inr h)

/-- A second write of the same settings. -/
theorem write_write (hbase : (configFromDoc base).Filled) (s : AgentsyncSettings) :
    writeSettingsToTomlDoc s (writeSettingsToTomlDoc s base) = writeSettingsToTomlDoc s base := by
  have hcfg : s.overwrite (configFromDoc (writeSettingsToTomlDoc s base)) =
      s.overwrite (configFromDoc base) := by
    rw [configFromDoc_write hbase]
    rfl
  have happly : applyConfigToDoc (s.overwrite (configFromDoc base)) (writeSettingsToTomlDoc s base) =
      writeSettingsToTomlDoc s base := by
    refine applyConfigToDoc_self (fun t ht => ?_) fun e he => ?_
    · rw [← JsMap.has_iff, JsMap.has, get?_write_of_ne (ne_of_mem_schemaTables ht), ← JsMap.has,
        JsMap.has_iff, keys_applyConfigToDoc]
      exact mem_keys_withTables.mpr (.inl ht)
    · rw [tableOf_write_of_ne (ne_of_mem_schemaTables (mem_schemaTables he))]
      exact get?_applyConfigToDoc he
  rw [writeSettingsToTomlDoc, hcfg, happly]
  refine JsMap.put_self ?_
  rw [writeSettingsToTomlDoc, JsMap.get?_put, if_pos rfl]

/-- **The settings are a view of the document.** What is written is read back. The other tables keep
the keys that the schema does not know, and what the schema knows and the plugin does not own has
the value it had. The tables stay where they are and so do the keys in them; only those of
`[obsidian]` are put in the order of `ownKeys`. A second write changes nothing. -/
theorem writeSettingsToTomlDoc_view (s : AgentsyncSettings) (base : TomlDoc)
    (hbase : (configFromDoc base).Filled) :
    settingsFromTomlDoc (writeSettingsToTomlDoc s base) = s ∧
    (∀ name, name ≠ obsidianTable →
      (name ∈ base.keys → name ∈ (writeSettingsToTomlDoc s base).keys) ∧
      ∀ key, (name, key) ∉ schemaKeys →
        (tableOf (writeSettingsToTomlDoc s base) name).get? key = (tableOf base name).get? key) ∧
    (configFromDoc (writeSettingsToTomlDoc s base)).identity.agentSocket =
      (configFromDoc base).identity.agentSocket ∧
    (configFromDoc (writeSettingsToTomlDoc s base)).identity.agentPubkey =
      (configFromDoc base).identity.agentPubkey ∧
    (configFromDoc (writeSettingsToTomlDoc s base)).sync = (configFromDoc base).sync ∧
    JsMap.SameOrder base (writeSettingsToTomlDoc s base) ∧
    (∀ name, name ≠ obsidianTable →
      JsMap.SameOrder (tableOf base name) (tableOf (writeSettingsToTomlDoc s base) name)) ∧
    (tableOf (writeSettingsToTomlDoc s base) obsidianTable).keys.Sublist ownKeys ∧
    writeSettingsToTomlDoc s (writeSettingsToTomlDoc s base) = writeSettingsToTomlDoc s base ∧
    stringifyTomlDoc (writeSettingsToTomlDoc s (writeSettingsToTomlDoc s base)) =
      stringifyTomlDoc (writeSettingsToTomlDoc s base) := by
  have hcfg := configFromDoc_write hbase s
  refine ⟨settingsFromTomlDoc_write hbase s, fun name hname => ⟨mem_keys_write hname, ?_⟩,
    by rw [hcfg]; rfl, by rw [hcfg]; rfl, by rw [hcfg]; rfl, sameOrder_write s base,
    fun name hname => ?_, ?_, write_write hbase s, congrArg _ (write_write hbase s)⟩
  · intro key hkey
    rw [tableOf_write_of_ne hname]
    exact get?_applyConfigToDoc_of_notMem hkey
  · rw [tableOf_write_of_ne hname]
    exact sameOrder_tableOf_applyConfigToDoc _ base name
  · rw [tableOf_write]
    exact keys_ownTable s

/-- A file in which the plugin's own keys stand the other way round. -/
private def turnedDoc : TomlDoc :=
  (∅ : TomlDoc).set obsidianTable
    (((∅ : TomlTable).set (js "auto_connect") (.boolean true)).set (js "sync_enabled")
      (.boolean true))

private theorem turnedDoc_filled : (configFromDoc turnedDoc).Filled := by
  constructor <;> decide +kernel

/-- Both keys of `[obsidian]` remain, and they change places. -/
theorem obsidianTable_turned : (configFromDoc turnedDoc).Filled ∧
    (tableOf turnedDoc obsidianTable).keys = [js "auto_connect", js "sync_enabled"] ∧
    (tableOf (writeSettingsToTomlDoc (settingsFromTomlDoc turnedDoc) turnedDoc)
      obsidianTable).keys = [js "sync_enabled", js "auto_connect"] ∧
    ¬ JsMap.SameOrder (tableOf turnedDoc obsidianTable)
      (tableOf (writeSettingsToTomlDoc (settingsFromTomlDoc turnedDoc) turnedDoc) obsidianTable) := by
  refine ⟨turnedDoc_filled, ?_, ?_, ?_⟩ <;> decide +kernel

/-- A file with a key that the plugin owns, one that it does not own, and one that nobody knows. -/
private def mixedDoc : TomlDoc :=
  ((turnedDoc.set (js "vault") ((∅ : TomlTable).set (js "name") (.string (js "Old")))).set
    (js "identity") ((∅ : TomlTable).set (js "agent_pubkey") (.string (js "k")))).set
      (js "theme") ((∅ : TomlTable).set (js "color") (.string (js "red")))

private theorem mixedDoc_filled : (configFromDoc mixedDoc).Filled := by
  constructor <;> decide +kernel

theorem writeSettingsToTomlDoc_view_mixed :
    let s := {settingsFromTomlDoc mixedDoc with vaultName := js "Notes"}
    (settingsFromTomlDoc mixedDoc).vaultName = js "Old" ∧
    settingsFromTomlDoc (writeSettingsToTomlDoc s mixedDoc) = s ∧
    (configFromDoc (writeSettingsToTomlDoc s mixedDoc)).identity.agentPubkey = some (js "k") ∧
    (tableOf (writeSettingsToTomlDoc s mixedDoc) (js "theme")).get? (js "color") =
      some (.string (js "red")) := by
  intro s
  obtain ⟨hread, hothers, -, hkey, -⟩ := writeSettingsToTomlDoc_view s mixedDoc mixedDoc_filled
  have htheme := (hothers (js "theme") (by decide +kernel)).2 (js "color") (by decide +kernel)
  refine ⟨by decide +kernel, hread, hkey.trans ?_, htheme.trans ?_⟩ <;> decide +kernel

end AgentSync.Obsidian.Settings
