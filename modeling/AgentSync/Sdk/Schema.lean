import AgentSync.Sdk.Config

/-! The typed view of `config.toml`.

`configFromDoc` reads the schema's keys out of a document and fills in the defaults;
`applyConfigToDoc` writes them back, one key after the other, on a document that may have other
tables and keys. What it does to the document is a list of writes (`applyConfigToDoc_eq`), each of
them to a key of its own: so it reads back (`configFromDoc_applyConfigToDoc`), it leaves the other
keys and the order of all of them, and made again it changes nothing. -/
namespace AgentSync.Sdk

open Js

/-! ### The schema -/

structure VaultSection where
  id : Option JsStr
  name : Option JsStr
  rendezvousUrl : Option JsStr
  hubPubkey : Option JsStr
  deriving DecidableEq

structure IdentitySection where
  path : Option JsStr
  agentSocket : Option JsStr
  agentPubkey : Option JsStr
  deriving DecidableEq

structure SyncSection where
  extensions : List JsStr
  /-- `include`. -/
  includes : List JsStr
  attachmentMaxBytes : SafeInt
  textFileMaxBytes : SafeInt
  logRetentionDays : SafeInt
  deriving DecidableEq

structure AgentsyncConfig where
  vault : VaultSection
  identity : IdentitySection
  sync : SyncSection
  deriving DecidableEq

def defaultSyncSection : SyncSection where
  extensions := [js "md", js "markdown"]
  includes := []
  attachmentMaxBytes := ⟨10 * 1024 * 1024, by decide⟩
  textFileMaxBytes := ⟨1 * 1024 * 1024, by decide⟩
  logRetentionDays := ⟨30, by decide⟩

/-! ### Reading -/

/-- `t?.get(k)`. -/
def valueOf (t : Option TomlTable) (k : JsStr) : Option TomlValue := t.bind (·.get? k)

def strOf (t : Option TomlTable) (k : JsStr) : Option JsStr :=
  match valueOf t k with
  | some (.string s) => some s
  | _ => none

def strArr (v : Option TomlValue) (fallback : List JsStr) : List JsStr :=
  match v with
  | some (.array l) => l
  | _ => fallback

def intOf (v : Option TomlValue) (fallback : SafeInt) : SafeInt :=
  match v with
  | some (.number n) => n
  | _ => fallback

def configFromDoc (doc : TomlDoc) : AgentsyncConfig :=
  let vault := doc.get? (js "vault")
  let identity := doc.get? (js "identity")
  let sync := doc.get? (js "sync")
  let d := defaultSyncSection
  { vault := {
      id := strOf vault (js "id")
      name := strOf vault (js "name")
      rendezvousUrl := strOf vault (js "rendezvous_url")
      hubPubkey := strOf vault (js "hub_pubkey") }
    identity := {
      path := strOf identity (js "path")
      agentSocket := strOf identity (js "agent_socket")
      agentPubkey := strOf identity (js "agent_pubkey") }
    sync := {
      extensions := strArr (valueOf sync (js "extensions")) d.extensions
      includes := strArr (valueOf sync (js "include")) d.includes
      attachmentMaxBytes := intOf (valueOf sync (js "attachment_max_bytes")) d.attachmentMaxBytes
      textFileMaxBytes := intOf (valueOf sync (js "text_file_max_bytes")) d.textFileMaxBytes
      logRetentionDays := intOf (valueOf sync (js "log_retention_days")) d.logRetentionDays } }

/-! ### Writing -/

/-- The table of that name. -/
def tableOf (doc : TomlDoc) (name : JsStr) : TomlTable := (doc.get? name).getD ∅

/-- `table.delete` on the table of that name in the document. -/
def deleteIn (doc : TomlDoc) (table key : JsStr) : TomlDoc :=
  doc.set table ((tableOf doc table).restrict (· ≠ key))

/-- `put` of `applyConfigToDoc`. -/
def put (doc : TomlDoc) (table key : JsStr) (val : Option JsStr) : TomlDoc :=
  let doc := ensureTable doc table
  match val with
  | none | some [] => deleteIn doc table key
  | some (c :: rest) => setIn doc table key (.string (c :: rest))

def applyConfigToDoc (cfg : AgentsyncConfig) (base : TomlDoc) : TomlDoc :=
  let doc := base
  let doc := ensureTable doc (js "vault")
  let doc := ensureTable doc (js "identity")
  let doc := ensureTable doc (js "sync")
  let doc := put doc (js "vault") (js "id") cfg.vault.id
  let doc := put doc (js "vault") (js "name") cfg.vault.name
  let doc := put doc (js "vault") (js "rendezvous_url") cfg.vault.rendezvousUrl
  let doc := put doc (js "vault") (js "hub_pubkey") cfg.vault.hubPubkey
  let doc := put doc (js "identity") (js "path") cfg.identity.path
  let doc := put doc (js "identity") (js "agent_socket") cfg.identity.agentSocket
  let doc := put doc (js "identity") (js "agent_pubkey") cfg.identity.agentPubkey
  let doc := ensureTable doc (js "sync")
  let doc := setIn doc (js "sync") (js "extensions") (.array cfg.sync.extensions)
  let doc := setIn doc (js "sync") (js "include") (.array cfg.sync.includes)
  let doc := setIn doc (js "sync") (js "attachment_max_bytes") (.number cfg.sync.attachmentMaxBytes)
  let doc := setIn doc (js "sync") (js "text_file_max_bytes") (.number cfg.sync.textFileMaxBytes)
  setIn doc (js "sync") (js "log_retention_days") (.number cfg.sync.logRetentionDays)

/-- The keys that the schema knows, with their tables. -/
def schemaKeys : List (JsStr × JsStr) :=
  [js "id", js "name", js "rendezvous_url", js "hub_pubkey"].map (js "vault", ·) ++
    [js "path", js "agent_socket", js "agent_pubkey"].map (js "identity", ·) ++
    [js "extensions", js "include", js "attachment_max_bytes", js "text_file_max_bytes",
      js "log_retention_days"].map (js "sync", ·)

/-! ### Tables of a document -/

variable {doc base : TomlDoc} {cfg : AgentsyncConfig} {name table key : JsStr}

@[simp]
theorem valueOf_get? (doc : TomlDoc) (name key : JsStr) :
    valueOf (doc.get? name) key = (tableOf doc name).get? key := by
  unfold valueOf tableOf
  cases doc.get? name with
  | none => rfl
  | some t => rfl

theorem tableOf_set (doc : TomlDoc) (table : JsStr) (t : TomlTable) (name : JsStr) :
    tableOf (doc.set table t) name = if name = table then t else tableOf doc name := by
  by_cases h : name = table
  · rw [tableOf, h, JsMap.get?_set_self, if_pos rfl]
    rfl
  · rw [tableOf, JsMap.get?_set_of_ne h, if_neg h]
    rfl

theorem tableOf_ensureTable (doc : TomlDoc) (table name : JsStr) :
    tableOf (ensureTable doc table) name = tableOf doc name := by
  unfold ensureTable
  split
  next => rfl
  next h =>
    rw [tableOf_set]
    split
    next heq =>
      rw [Bool.not_eq_true, Option.isSome_eq_false_iff, Option.isNone_iff_eq_none] at h
      rw [heq, tableOf, h]
      rfl
    next => rfl

theorem mem_keys_ensureTable :
    name ∈ (ensureTable doc table).keys ↔ name = table ∨ name ∈ doc.keys := by
  unfold ensureTable
  split
  next h =>
    refine ⟨.inr, fun hmem => hmem.elim (fun heq => ?_) id⟩
    rw [heq]
    exact JsMap.has_iff.mp h
  next => exact JsMap.mem_keys_set

theorem ensureTable_of_mem (h : table ∈ doc.keys) : ensureTable doc table = doc :=
  if_pos (JsMap.has_iff.mpr h)

theorem ensureTable_set (doc : TomlDoc) (table : JsStr) (t : TomlTable) :
    (ensureTable doc table).set table t = doc.set table t := by
  unfold ensureTable
  split
  next => rfl
  next => exact JsMap.set_set doc table ∅ t

theorem sameOrder_ensureTable (h : JsMap.SameOrder base doc) (hold : ∀ n ∈ base.keys, n ∈ doc.keys) :
    JsMap.SameOrder base (ensureTable doc table) := by
  unfold ensureTable
  split
  next => exact h
  next => exact h.put (hold table) (some ∅)

/-! ### The writes -/

/-- What `put` leaves of a value. -/
def presented : Option JsStr → Option TomlValue
  | none | some [] => none
  | some (c :: rest) => some (.string (c :: rest))

/-- One write: its table, its key, and the value or none. -/
abbrev Edit := JsStr × JsStr × Option TomlValue

def putIn (doc : TomlDoc) (e : Edit) : TomlDoc := doc.set e.1 ((tableOf doc e.1).put e.2.1 e.2.2)

theorem put_eq (doc : TomlDoc) (table key : JsStr) (val : Option JsStr) :
    put doc table key val = putIn doc (table, key, presented val) := by
  have hwrite : ∀ t, (ensureTable doc table).set table (JsMap.put (tableOf (ensureTable doc table) table)
      key t) = putIn doc (table, key, t) := by
    intro t
    rw [tableOf_ensureTable, ensureTable_set]
    rfl
  match val with
  | none | some [] => exact hwrite none
  | some (c :: rest) => exact hwrite (some (.string (c :: rest)))

theorem setIn_eq (doc : TomlDoc) (table key : JsStr) (v : TomlValue) :
    setIn doc table key v = putIn doc (table, key, some v) := rfl

theorem putIn_ensureTable (doc : TomlDoc) (e : Edit) : putIn (ensureTable doc e.1) e = putIn doc e := by
  rw [putIn, tableOf_ensureTable, ensureTable_set]
  rfl

def VaultSection.edits (v : VaultSection) : List (JsStr × Option TomlValue) :=
  [(js "id", presented v.id), (js "name", presented v.name),
    (js "rendezvous_url", presented v.rendezvousUrl), (js "hub_pubkey", presented v.hubPubkey)]

def IdentitySection.edits (i : IdentitySection) : List (JsStr × Option TomlValue) :=
  [(js "path", presented i.path), (js "agent_socket", presented i.agentSocket),
    (js "agent_pubkey", presented i.agentPubkey)]

def SyncSection.edits (s : SyncSection) : List (JsStr × Option TomlValue) :=
  [(js "extensions", some (.array s.extensions)), (js "include", some (.array s.includes)),
    (js "attachment_max_bytes", some (.number s.attachmentMaxBytes)),
    (js "text_file_max_bytes", some (.number s.textFileMaxBytes)),
    (js "log_retention_days", some (.number s.logRetentionDays))]

def AgentsyncConfig.edits (cfg : AgentsyncConfig) : List Edit :=
  cfg.vault.edits.map (js "vault", ·) ++ cfg.identity.edits.map (js "identity", ·) ++
    cfg.sync.edits.map (js "sync", ·)

/-- The document with the schema's tables. -/
def withTables (doc : TomlDoc) : TomlDoc :=
  ensureTable (ensureTable (ensureTable doc (js "vault")) (js "identity")) (js "sync")

theorem applyConfigToDoc_eq (cfg : AgentsyncConfig) (base : TomlDoc) :
    applyConfigToDoc cfg base = cfg.edits.foldl putIn (withTables base) := by
  unfold applyConfigToDoc
  simp only [put_eq, setIn_eq]
  rw [putIn_ensureTable _ (js "sync", js "extensions", _)]
  rfl

/-- What writes leave in a table: those to it, one after the other. -/
theorem tableOf_foldl_putIn (edits : List Edit) (doc : TomlDoc) (name : JsStr) :
    tableOf (edits.foldl putIn doc) name =
      (tableOf doc name).putAll ((edits.filter (·.1 = name)).map Prod.snd) := by
  induction edits generalizing doc with
  | nil => rfl
  | cons e rest ih =>
    rw [List.foldl_cons, ih, putIn, tableOf_set]
    by_cases h : name = e.1
    · subst h
      rw [if_pos rfl, List.filter_cons_of_pos (by simp)]
      rfl
    · rw [if_neg h, List.filter_cons_of_neg (by simpa using Ne.symm h)]

theorem keys_foldl_putIn {edits : List Edit} (htables : ∀ e ∈ edits, e.1 ∈ doc.keys) :
    (edits.foldl putIn doc).keys = doc.keys := by
  induction edits generalizing doc with
  | nil => rfl
  | cons e rest ih =>
    have hkeys : (putIn doc e).keys = doc.keys :=
      (JsMap.keys_set doc _ _).trans (if_pos (htables e (.head _)))
    exact (ih fun e' he' => hkeys ▸ htables e' (.tail _ he')).trans hkeys

/-- Writes of what is there. -/
theorem foldl_putIn_self {edits : List Edit}
    (h : ∀ e ∈ edits, e.1 ∈ doc.keys ∧ (tableOf doc e.1).get? e.2.1 = e.2.2) :
    edits.foldl putIn doc = doc := by
  induction edits with
  | nil => rfl
  | cons e rest ih =>
    have he : putIn doc e = doc := by
      obtain ⟨hmem, hvalue⟩ := h e (.head _)
      obtain ⟨t, ht⟩ := Option.isSome_iff_exists.mp (JsMap.has_iff.mpr hmem)
      rw [putIn, JsMap.put_self hvalue]
      refine JsMap.set_self ?_
      rw [tableOf, ht]
      rfl
    rw [List.foldl_cons, he]
    exact ih fun e' he' => h e' (.tail _ he')

/-! ### What it does -/

/-- The writes to a table. -/
def AgentsyncConfig.editsOf (cfg : AgentsyncConfig) (name : JsStr) :
    List (JsStr × Option TomlValue) := (cfg.edits.filter (·.1 = name)).map Prod.snd

theorem mem_editsOf {e : JsStr × Option TomlValue} :
    e ∈ cfg.editsOf name ↔ (name, e) ∈ cfg.edits := by
  simp [AgentsyncConfig.editsOf]

theorem edits_keys (cfg : AgentsyncConfig) : cfg.edits.map (fun e => (e.1, e.2.1)) = schemaKeys := rfl

theorem nodup_schemaKeys : schemaKeys.Nodup := by decide +kernel

/-- A table has one write at most for each of its keys. -/
theorem nodup_editsOf (cfg : AgentsyncConfig) (name : JsStr) :
    ((cfg.editsOf name).map Prod.fst).Nodup := by
  have hnodup : (cfg.edits.map fun e => (e.1, e.2.1)).Nodup := edits_keys cfg ▸ nodup_schemaKeys
  have hsub : ((cfg.edits.filter (·.1 = name)).map fun e => (e.1, e.2.1)).Nodup :=
    hnodup.sublist (List.filter_sublist.map _)
  rw [AgentsyncConfig.editsOf, List.map_map]
  refine List.Nodup.of_map (name, ·) ?_
  rw [List.map_map]
  refine (List.map_congr_left fun e he => ?_) ▸ hsub
  exact Prod.ext (of_decide_eq_true (List.mem_filter.mp he).2) rfl

theorem tableOf_withTables (base : TomlDoc) (name : JsStr) :
    tableOf (withTables base) name = tableOf base name := by
  simp only [withTables, tableOf_ensureTable]

def schemaTables : List JsStr := [js "vault", js "identity", js "sync"]

theorem mem_keys_withTables :
    name ∈ (withTables base).keys ↔ name ∈ schemaTables ∨ name ∈ base.keys := by
  simp only [withTables, mem_keys_ensureTable, schemaTables, List.mem_cons, List.not_mem_nil, or_false]
  grind

theorem mem_schemaTables {e : Edit} (he : e ∈ cfg.edits) : e.1 ∈ schemaTables := by
  have hall : ∀ k ∈ schemaKeys, k.1 ∈ schemaTables := by decide +kernel
  exact hall (e.1, e.2.1) (edits_keys cfg ▸ List.mem_map.mpr ⟨e, he, rfl⟩)

/-- A table is written over with the values of its own keys. -/
theorem tableOf_applyConfigToDoc (cfg : AgentsyncConfig) (base : TomlDoc) (name : JsStr) :
    tableOf (applyConfigToDoc cfg base) name = (tableOf base name).putAll (cfg.editsOf name) := by
  rw [applyConfigToDoc_eq, tableOf_foldl_putIn, tableOf_withTables]
  rfl

theorem get?_applyConfigToDoc {v : Option TomlValue} (h : (table, key, v) ∈ cfg.edits) :
    (tableOf (applyConfigToDoc cfg base) table).get? key = v := by
  rw [tableOf_applyConfigToDoc]
  exact JsMap.get?_putAll (nodup_editsOf cfg table) (mem_editsOf.mpr h)

/-- Keys outside the schema keep their values. -/
theorem get?_applyConfigToDoc_of_notMem (h : (name, key) ∉ schemaKeys) :
    (tableOf (applyConfigToDoc cfg base) name).get? key = (tableOf base name).get? key := by
  rw [tableOf_applyConfigToDoc]
  refine JsMap.get?_putAll_of_notMem fun hmem => h ?_
  obtain ⟨e, he, rfl⟩ := List.mem_map.mp hmem
  rw [← edits_keys cfg]
  exact List.mem_map.mpr ⟨(name, e), mem_editsOf.mp he, rfl⟩

theorem keys_applyConfigToDoc (cfg : AgentsyncConfig) (base : TomlDoc) :
    (applyConfigToDoc cfg base).keys = (withTables base).keys := by
  rw [applyConfigToDoc_eq]
  exact keys_foldl_putIn fun e he => mem_keys_withTables.mpr (.inl (mem_schemaTables he))

/-- The tables keep their order, -/
theorem sameOrder_applyConfigToDoc (cfg : AgentsyncConfig) (base : TomlDoc) :
    JsMap.SameOrder base (applyConfigToDoc cfg base) := by
  have htables : JsMap.SameOrder base (withTables base) := by
    refine sameOrder_ensureTable (sameOrder_ensureTable (sameOrder_ensureTable (.refl base) ?_) ?_) ?_
    · exact fun _ h => h
    · exact fun _ h => mem_keys_ensureTable.mpr (.inr h)
    · exact fun _ h => mem_keys_ensureTable.mpr (.inr (mem_keys_ensureTable.mpr (.inr h)))
  rw [JsMap.SameOrder, keys_applyConfigToDoc]
  exact htables

/-- and the keys in each. -/
theorem sameOrder_tableOf_applyConfigToDoc (cfg : AgentsyncConfig) (base : TomlDoc) (name : JsStr) :
    JsMap.SameOrder (tableOf base name) (tableOf (applyConfigToDoc cfg base) name) := by
  rw [tableOf_applyConfigToDoc]
  exact (JsMap.SameOrder.refl _).putAll (nodup_editsOf cfg name) fun _ _ h => h

/-- Made again it changes nothing. -/
theorem applyConfigToDoc_self (htables : ∀ t ∈ schemaTables, t ∈ doc.keys)
    (h : ∀ e ∈ cfg.edits, (tableOf doc e.1).get? e.2.1 = e.2.2) : applyConfigToDoc cfg doc = doc := by
  have hwith : withTables doc = doc := by
    rw [withTables, ensureTable_of_mem (htables (js "vault") (.head _)),
      ensureTable_of_mem (htables (js "identity") (.tail _ (.head _))),
      ensureTable_of_mem (htables (js "sync") (.tail _ (.tail _ (.head _))))]
  rw [applyConfigToDoc_eq, hwith]
  exact foldl_putIn_self fun e he => ⟨htables e.1 (mem_schemaTables he), h e he⟩

/-- No text of the configuration is empty. -/
structure AgentsyncConfig.Filled (cfg : AgentsyncConfig) : Prop where
  id : cfg.vault.id ≠ some []
  name : cfg.vault.name ≠ some []
  rendezvousUrl : cfg.vault.rendezvousUrl ≠ some []
  hubPubkey : cfg.vault.hubPubkey ≠ some []
  path : cfg.identity.path ≠ some []
  agentSocket : cfg.identity.agentSocket ≠ some []
  agentPubkey : cfg.identity.agentPubkey ≠ some []

/-- What was put there is read back. -/
theorem strOf_of_presented {val : Option JsStr} (hval : val ≠ some [])
    (h : (tableOf doc name).get? key = presented val) : strOf (doc.get? name) key = val := by
  rw [strOf, valueOf_get?, h]
  match val with
  | none => rfl
  | some [] => exact absurd rfl hval
  | some (c :: rest) => rfl

/-- **A configuration reads back** when none of its texts is empty. -/
theorem configFromDoc_applyConfigToDoc (h : cfg.Filled) (base : TomlDoc) :
    configFromDoc (applyConfigToDoc cfg base) = cfg := by
  have hstr : ∀ table key val, val ≠ some [] → (table, key, presented val) ∈ cfg.edits →
      strOf ((applyConfigToDoc cfg base).get? table) key = val :=
    fun _ _ _ hval hmem => strOf_of_presented hval (get?_applyConfigToDoc hmem)
  have hvalue : ∀ key v, (js "sync", key, some v) ∈ cfg.edits →
      valueOf ((applyConfigToDoc cfg base).get? (js "sync")) key = some v :=
    fun _ _ hmem => (valueOf_get? _ _ _).trans (get?_applyConfigToDoc hmem)
  have hmem : ∀ i e, cfg.edits[i]? = some e → e ∈ cfg.edits := fun _ _ => List.mem_of_getElem?
  simp only [configFromDoc, hstr _ _ _ h.id (hmem 0 _ rfl), hstr _ _ _ h.name (hmem 1 _ rfl),
    hstr _ _ _ h.rendezvousUrl (hmem 2 _ rfl), hstr _ _ _ h.hubPubkey (hmem 3 _ rfl),
    hstr _ _ _ h.path (hmem 4 _ rfl), hstr _ _ _ h.agentSocket (hmem 5 _ rfl),
    hstr _ _ _ h.agentPubkey (hmem 6 _ rfl), hvalue _ _ (hmem 7 _ rfl), hvalue _ _ (hmem 8 _ rfl),
    hvalue _ _ (hmem 9 _ rfl), hvalue _ _ (hmem 10 _ rfl), hvalue _ _ (hmem 11 _ rfl)]
  rfl

end AgentSync.Sdk
