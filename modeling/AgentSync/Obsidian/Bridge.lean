import AgentSync.Program
import AgentSync.Js
import AgentSync.Doc.Write

/-! The bridge between Obsidian's vault and the SDK's document.

`applyRemoteState` brings what the document lists into the vault, and deletes from it what was
listed when the last pass ended and is no longer. A pass is a program here: an await settles or
fails as the outside has it, and nothing else runs meanwhile. -/
namespace AgentSync.Obsidian

open Js Program

/-! ### Obsidian's vault -/

inductive AbstractFile where
  | file
  | folder
  deriving DecidableEq, Repr

/-- `App.vault`: the files with their texts, the folders, and the paths that the metadata cache
does not have yet. -/
structure VaultState where
  files : JsMap Str Str
  folders : List Str
  cold : List Str
  deriving DecidableEq

namespace VaultState

variable (v : VaultState)

def getAbstractFileByPath (path : Str) : Option AbstractFile :=
  if v.cold.contains path then none
  else if v.files.has path then some .file
  else if v.folders.contains path then some .folder
  else none

def read (path : Str) : Except Str Str :=
  match v.files.get? path with
  | some data => .ok data
  | none => .error (txt "ENOENT: no such file or directory, open '" ++ path ++ txt "'")

def create (path data : Str) : Except Str VaultState :=
  if v.files.has path || v.folders.contains path then .error (txt "File already exists.")
  else if Path.parent path ≠ [] ∧ !v.folders.contains (Path.parent path) then
    .error (txt "ENOENT: no such file or directory, open '" ++ path ++ txt "'")
  else .ok {v with files := v.files.set path data}

def modify (path data : Str) : Except Str VaultState :=
  if v.files.has path then .ok {v with files := v.files.set path data}
  else .error (txt "ENOENT: no such file or directory, open '" ++ path ++ txt "'")

/-- A folder goes with everything in it. -/
def delete (path : Str) : Except Str VaultState :=
  if v.files.has path then .ok {v with files := v.files.restrict (· ≠ path)}
  else if v.folders.contains path then
    .ok {v with
      files := v.files.restrict fun p => !Path.under path p
      folders := v.folders.filter fun p => !Path.under path p}
  else .error (txt "ENOENT: no such file or directory, unlink '" ++ path ++ txt "'")

def createFolder (path : Str) : Except Str VaultState :=
  if v.files.has path || v.folders.contains path then .error (txt "Folder already exists.")
  else .ok {v with folders := v.folders ++ [path]}

end VaultState

/-! ### The bridge -/

/-- The vault, the document and the bridge's own fields; `awaits` counts what was awaited. -/
structure App where
  vault : VaultState
  doc : Doc
  /-- A path once for each of its tokens. -/
  suppressed : List Str
  knownSdkPaths : List Str
  awaits : Nat

/-- The crates of the document, the path filter, and the awaited calls that are rejected. -/
structure Host where
  crates : Crates
  filter : Str → Bool
  rejects : Nat → Option Str

abbrev Bridge := EStateM Str App

variable (host : Host)

/-- An awaited call to Obsidian. -/
def awaitVault {α : Type} (call : VaultState → Except Str (α × VaultState)) : Bridge α := fun a =>
  match host.rejects a.awaits with
  | some e => .error e {a with awaits := a.awaits + 1}
  | none =>
    match call a.vault with
    | .error e => .error e {a with awaits := a.awaits + 1}
    | .ok (r, v) => .ok r {a with vault := v, awaits := a.awaits + 1}

def vaultRead (path : Str) : Bridge Str := awaitVault host fun v => (v.read path).map (·, v)

def vaultWrite (call : VaultState → Except Str VaultState) : Bridge Unit :=
  awaitVault host fun v => (call v).map ((), ·)

/-- A read of the document. -/
def sdkRead {α : Type} (f : Root → Except Error α) : Bridge α := fun a =>
  match f a.doc.root with
  | .ok r => .ok r a
  | .error e => .error e.text a

/-- `suppress`. -/
def suppress (path : Str) : Bridge Unit := modify fun a => {a with suppressed := path :: a.suppressed}

def getAbstractFileByPath (path : Str) : Bridge (Option AbstractFile) := do
  return (← get).vault.getAbstractFileByPath path

/-- `/already exists/i.test`. -/
def alreadyExists : Str → Bool
  | [] => false
  | c :: rest =>
    (txt "already exists").isPrefixOf ((c :: rest).map Char.toLower) || alreadyExists rest

/-- A call that may find what it makes already there. -/
def unlessExists (call : Bridge Unit) (recover : Bridge Unit) : Bridge Unit := fun a =>
  match call a with
  | .ok u a' => .ok u a'
  | .error e a' => if alreadyExists e then recover a' else .error e a'

/-- The loop of `ensureFolderFor` from the folder `cur` on. -/
def ensureFolders (cur : Str) : List Str → Bridge Unit
  | [] => pure ()
  | seg :: rest => do
    let cur := if cur = [] then seg else cur ++ txt "/" ++ seg
    match ← getAbstractFileByPath cur with
    | some _ => pure ()
    | none => unlessExists (vaultWrite host (·.createFolder cur)) (pure ())
    ensureFolders cur rest

def ensureFolderFor (filePath : Str) : Bridge Unit := do
  let folder := Path.parent filePath
  if folder = [] then pure ()
  else
    match ← getAbstractFileByPath folder with
    | some _ => pure ()
    | none => ensureFolders host [] ((folder.splitOn '/').filter fun seg => !seg.isEmpty)

/-- The create branch of `applyOneRemoteFile`. -/
def createRemote (path content : Str) : Bridge Unit := do
  ensureFolderFor host path
  suppress path
  unlessExists (vaultWrite host (·.create path content)) do
    match ← getAbstractFileByPath path with
    | some .file => vaultWrite host (·.modify path content)
    | _ => pure ()

/-- The branch for a file that both sides have. -/
def modifyRemote (path content : Str) : Bridge Unit := do
  let cur ← vaultRead host path
  if cur = content then pure ()
  else do
    suppress path
    vaultWrite host (·.modify path content)

def deleteLocal (path : Str) : Bridge Unit := do
  suppress path
  vaultWrite host (·.delete path)

/-- Whether a number that may be `null` is true. -/
def truthy (n : Option Int) : Bool := n.any (· ≠ 0)

def applyOneRemoteFile (file : FileMeta) : Bridge Unit :=
  if file.kind ≠ .text then pure ()
  else if !host.filter file.path then pure ()
  else do
    let existing ← getAbstractFileByPath file.path
    if truthy file.deletedAt then
      match existing with
      | some _ => deleteLocal host file.path
      | none => pure ()
    else do
      let content ← sdkRead (Root.readFile host.crates · file.path)
      match existing with
      | some .file => modifyRemote host file.path content
      | _ => createRemote host file.path content

/-- One turn of the second loop of `applyRemoteState`. -/
def applyTombstone (currentPaths : List Str) (path : Str) : Bridge Unit :=
  if currentPaths.contains path then pure ()
  else if !host.filter path then pure ()
  else do
    match ← getAbstractFileByPath path with
    | none => pure ()
    | some _ => deleteLocal host path

/-- The `currentPaths` of `applyRemoteState`. -/
def textPaths (files : List FileMeta) : List Str :=
  (files.filter fun m => m.kind = .text && host.filter m.path).map FileMeta.path

def applyRemoteState : Bridge Unit := do
  let sdkFiles ← sdkRead (Root.listFiles host.crates)
  sdkFiles.forM (applyOneRemoteFile host)
  (← get).knownSdkPaths.forM (applyTombstone host (textPaths host sdkFiles))
  modify fun a => {a with knownSdkPaths := textPaths host sdkFiles}

/-! ### What applying a live file keeps -/

/-- The later vault has every file of the earlier one, and the cache is no warmer. -/
structure VaultState.Extends (v v' : VaultState) : Prop where
  files : ∀ p ∈ v.files.keys, p ∈ v'.files.keys
  cold : v'.cold = v.cold

/-- The law does not look at tokens or awaits, and survives a vault that only gets files. -/
structure Steady (P : App → Prop) : Prop where
  counts : ∀ a l n, P a → P {a with suppressed := l, awaits := n}
  extends_ : ∀ a v, a.vault.Extends v → P a → P {a with vault := v}

variable {host} {P : App → Prop}

theorem keeps_sdkRead {α : Type} (f : Root → Except Error α) : Keeps P (sdkRead f) := by
  intro a ha
  cases hread : f a.doc.root with
  | error e =>
    simp only [Leads, sdkRead, hread]
    exact ha
  | ok r =>
    simp only [Leads, sdkRead, hread]
    exact ha

theorem keeps_getAbstractFileByPath (path : Str) : Keeps P (getAbstractFileByPath path) :=
  .bind .get fun _ => .pure _

theorem keeps_unlessExists {call recover : Bridge Unit} (hcall : Keeps P call)
    (hrecover : Keeps P recover) : Keeps P (unlessExists call recover) := by
  intro a ha
  have hlead := hcall a ha
  cases hrun : call a with
  | ok u a' =>
    simp only [Leads, unlessExists, hrun]
    exact hlead.ok hrun
  | error e a' =>
    have ha' : P a' := hlead.error hrun
    by_cases he : alreadyExists e = true
    · simpa only [Leads, unlessExists, hrun, he, if_true] using hrecover a' ha'
    · simpa only [Leads, unlessExists, hrun, he, Bool.false_eq_true, if_false] using ha'

section Steady

variable (hP : Steady P)
include hP

theorem keeps_suppress (path : Str) : Keeps P (suppress path) :=
  fun a ha => hP.counts a (path :: a.suppressed) a.awaits ha

theorem keeps_awaitVault {α : Type} {call : VaultState → Except Str (α × VaultState)}
    (h : ∀ a r v, call a.vault = .ok (r, v) → P a → P {a with vault := v}) :
    Keeps P (awaitVault host call) := by
  intro a ha
  have hcount := hP.counts a a.suppressed (a.awaits + 1) ha
  cases hrejects : host.rejects a.awaits with
  | some e =>
    simp only [Leads, awaitVault, hrejects]
    exact hcount
  | none =>
    cases hcall : call a.vault with
    | error e =>
      simp only [Leads, awaitVault, hrejects, hcall]
      exact hcount
    | ok r =>
      simp only [Leads, awaitVault, hrejects, hcall]
      exact h {a with awaits := a.awaits + 1} r.1 r.2 hcall hcount

theorem keeps_vaultRead (path : Str) : Keeps P (vaultRead host path) := by
  apply keeps_awaitVault hP
  intro a r v h ha
  cases hread : a.vault.read path with
  | error e =>
    rw [hread] at h
    cases h
  | ok data =>
    rw [hread] at h
    cases h
    exact ha

theorem keeps_vaultWrite {call : VaultState → Except Str VaultState}
    (h : ∀ a v, call a.vault = .ok v → P a → P {a with vault := v}) :
    Keeps P (vaultWrite host call) := by
  apply keeps_awaitVault hP
  intro a r v hcall ha
  cases hwrite : call a.vault with
  | error e =>
    rw [hwrite] at hcall
    cases hcall
  | ok v' =>
    rw [hwrite] at hcall
    cases hcall
    exact h a v hwrite ha

theorem keeps_modify (path data : Str) :
    Keeps P (vaultWrite host (VaultState.modify · path data)) := by
  apply keeps_vaultWrite hP
  intro a v h ha
  unfold VaultState.modify at h
  split at h
  · cases h
    exact hP.extends_ a _ ⟨fun p hp => JsMap.mem_keys_set.mpr (.inr hp), rfl⟩ ha
  · cases h

theorem keeps_create (path data : Str) :
    Keeps P (vaultWrite host (VaultState.create · path data)) := by
  apply keeps_vaultWrite hP
  intro a v h ha
  unfold VaultState.create at h
  split at h
  · cases h
  · split at h
    · cases h
    · cases h
      exact hP.extends_ a _ ⟨fun p hp => JsMap.mem_keys_set.mpr (.inr hp), rfl⟩ ha

theorem keeps_createFolder (path : Str) :
    Keeps P (vaultWrite host (VaultState.createFolder · path)) := by
  apply keeps_vaultWrite hP
  intro a v h ha
  unfold VaultState.createFolder at h
  split at h
  · cases h
  · cases h
    exact hP.extends_ a _ ⟨fun _ hp => hp, rfl⟩ ha

theorem keeps_ensureFolders (cur : Str) (parts : List Str) :
    Keeps P (ensureFolders host cur parts) := by
  induction parts generalizing cur with
  | nil => exact .pure _
  | cons seg rest ih =>
    apply Keeps.bind (keeps_getAbstractFileByPath _)
    intro found
    cases found with
    | some _ => exact ih _
    | none => exact .bind (keeps_unlessExists (keeps_createFolder hP _) (.pure _)) fun _ => ih _

theorem keeps_ensureFolderFor (path : Str) : Keeps P (ensureFolderFor host path) := by
  simp only [ensureFolderFor]
  split
  · exact .pure _
  · apply Keeps.bind (keeps_getAbstractFileByPath _)
    intro found
    cases found with
    | some _ => exact .pure _
    | none => exact keeps_ensureFolders hP _ _

theorem keeps_createRemote (path content : Str) : Keeps P (createRemote host path content) := by
  apply Keeps.bind (keeps_ensureFolderFor hP path)
  intro _
  apply Keeps.bind (keeps_suppress hP path)
  intro _
  apply keeps_unlessExists (keeps_create hP path content)
  apply Keeps.bind (keeps_getAbstractFileByPath path)
  intro found
  match found with
  | some .file => exact keeps_modify hP path content
  | some .folder | none => exact .pure _

theorem keeps_modifyRemote (path content : Str) : Keeps P (modifyRemote host path content) := by
  apply Keeps.bind (keeps_vaultRead hP path)
  intro cur
  split
  · exact .pure _
  · exact .bind (keeps_suppress hP path) fun _ => keeps_modify hP path content

theorem keeps_applyOneRemoteFile {file : FileMeta} (hlive : file.deletedAt = none) :
    Keeps P (applyOneRemoteFile host file) := by
  unfold applyOneRemoteFile
  split
  · exact .pure _
  · split
    · exact .pure _
    · apply Keeps.bind (keeps_getAbstractFileByPath _)
      intro existing
      rw [hlive]
      apply Keeps.bind (keeps_sdkRead _)
      intro content
      match existing with
      | some .file => exact keeps_modifyRemote hP _ _
      | some .folder | none => exact keeps_createRemote hP _ _

end Steady

end AgentSync.Obsidian
