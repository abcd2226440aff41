import AgentSync.Program
import AgentSync.Fs.Ingest
import AgentSync.Fs.Paths

/-! The watcher's events.

An event says which path of the disk something happened to, and not what the disk is like by the
time it is handled. So the handler looks again at every turn, and the disk may be another each time
(`Watch.ahead`): nothing is asked of it. What an event does to the document it does by the
operations on files and directories, one file at a time. -/
namespace AgentSync

open Program

inductive FsEvent where
  /-- A file was created or modified. -/
  | touched (path : PathBuf)
  | removed (path : PathBuf)
  | renamed (src dst : PathBuf)
  deriving DecidableEq, Repr

/-- `is_syncignore`. -/
def isSyncignore (path : PathBuf) : Bool := path.fileName = some syncIgnoreFilename

def FsEvent.touchesSyncignore : FsEvent → Bool
  | .touched path | .removed path => isSyncignore path
  | .renamed src dst => isSyncignore src || isSyncignore dst

/-- A vault whose directory is watched. -/
structure Watch (σ : Type) where
  bound : Bound σ
  ignores : SyncIgnoreSet
  /-- What the disk and the clock are at the awaits to come. -/
  ahead : Nat → σ × Nat

/-- What the disk and the clock have become by the next await. -/
def Watch.awaited {σ : Type} (w : Watch σ) : Watch σ where
  bound := {w.bound with fs := (w.ahead 0).1, now := (w.ahead 0).2}
  ignores := w.ignores
  ahead := fun n => w.ahead (n + 1)

/-- The task that handles events. -/
abbrev Handler (σ α : Type) := EStateM Error (Watch σ) α

namespace Handler

variable {σ α : Type}

/-- An await. -/
def await : Handler σ (Bound σ) := fun w => .ok w.awaited.bound w.awaited

/-- With the document locked. -/
def onDoc (x : DocM α) : Handler σ α := fun w =>
  match x w.bound.doc with
  | .ok a d => .ok a {w with bound := {w.bound with doc := d}}
  | .error e d => .error e {w with bound := {w.bound with doc := d}}

def onMaterializedDirs (f : List Str → List Str) : Handler σ Unit :=
  modify fun w => {w with
    bound := {w.bound with materializedDirs := f w.bound.materializedDirs}}

end Handler

open Handler

/-! ### Files -/

/-- The steps that a call of `ingest_file` may still take. -/
def Ingest.stepsLeft : Ingest → Nat
  | .reading => 8
  | .peeking => 7
  | .settling => 6
  | .loaded _ => 5
  | .comparing _ _ | .storing _ => 4
  | .writing _ _ | .attaching _ _ => 3
  | .recording _ => 2
  | .recorded _ => 1
  | .done _ => 0

namespace Watching

variable {σ : Type} (V : Watching σ)

/-- A call of `ingest_file`, from await to await. -/
def ingest (path : Str) : Nat → Ingest → Handler σ Unit
  | 0, _ => pure ()
  | n + 1, i => do
    match Ingest.step V.toSetting path (← await) i with
    | some (b, i') => do
      modify fun w => {w with bound := b}
      ingest path n i'
    | none =>
      match i with
      | .done (.error e) => throw e
      | _ => pure ()

def ingestFile (path : Str) : Handler σ Unit :=
  ingest V path (Ingest.reading.stepsLeft + 1) .reading

/-! ### Trees -/

/-- One turn of the walk of `ingest_directory`. -/
def ingestEntry (e : WalkEntry) : Handler σ Unit := do
  match e.kind with
  | .dir =>
    match V.fsPathToVaultDirPath (← get).ignores e.path with
    | none => pure ()
    | some path => do
      match ← onDoc (Doc.read (Root.findDirectoryByPath V.crates · path)) with
      | some _ => pure ()
      | none => do
        let _ ← onDoc (Doc.createDirectory V.crates path)
      onMaterializedDirs fun dirs => dirs.insert path
  | .file =>
    match V.fsPathToVaultPath (← get).ignores e.path with
    | none => pure ()
    | some path => ingestFile V path
  | .other => pure ()

def ingestDirectory (path : Str) : Handler σ Unit := do
  (V.walk (← await).fs (V.vaultPathToFsPath path)).forM (ingestEntry V)

/-- One turn of the walk of `initial_scan`. -/
def scanEntry (e : WalkEntry) : Handler σ Unit := do
  match e.kind with
  | .dir =>
    if e.path = V.root then pure ()
    else
      match V.fsPathToVaultDirPath (← get).ignores e.path with
      | none => pure ()
      | some path => ingestDirectory V path
  | .file =>
    match V.fsPathToVaultPath (← get).ignores e.path with
    | none => pure ()
    | some path => ingestFile V path
  | .other => pure ()

def initialScan : Handler σ Unit := do
  (V.walk (← await).fs V.root).forM (scanEntry V)

/-! ### Events -/

/-- What has gone may have been a directory. -/
def removeDirectory (abs : PathBuf) : Handler σ Unit := do
  match V.fsPathToVaultDirPath (← get).ignores abs with
  | none => pure ()
  | some path => do
    match ← onDoc (Doc.read (Root.findDirectoryByPath V.crates · path)) with
    | none => pure ()
    | some _ => do
      onDoc (Doc.deleteDirectory V.crates path true)
      onMaterializedDirs fun dirs => dirs.erase path

/-- A path has gone from the disk. -/
def remove (abs : PathBuf) : Handler σ Unit := do
  match V.fsPathToVaultPath (← get).ignores abs with
  | none => removeDirectory V abs
  | some path =>
    -- Without the file nobody is let in any more.
    if path = authorizedKeysFile then pure ()
    else do
      if ← onDoc (Doc.ask (Root.fileExists V.crates · path)) then
        onDoc (Doc.deleteFile V.crates path)
      else removeDirectory V abs

/-- A file was renamed: from and to a path of the document, or out of or into the vault. -/
def renamePaths : Option Str → Option Str → Handler σ Unit
  | some f, some t => do
    let moves ← onDoc (Doc.ask fun r => r.fileExists V.crates f && !r.fileExists V.crates t)
    if moves then onDoc (Doc.renameFile V.crates f t) else pure ()
  | some f, none =>
    if f = authorizedKeysFile then pure ()
    else do
      if ← onDoc (Doc.ask (Root.fileExists V.crates · f)) then onDoc (Doc.deleteFile V.crates f)
      else pure ()
  | none, some t => ingestFile V t
  | none, none => pure ()

def dispatchFsEvent : FsEvent → Handler σ Unit
  | .touched abs => do
    match V.isDir (← await).fs abs with
    | none => pure ()
    | some true =>
      match V.fsPathToVaultDirPath (← get).ignores abs with
      | none => pure ()
      | some path => ingestDirectory V path
    | some false =>
      match V.fsPathToVaultPath (← get).ignores abs with
      | none => pure ()
      | some path => ingestFile V path
  | .removed abs => do
    if V.present (← await).fs abs then pure () else remove V abs
  | .renamed src dst => do
    let w ← get
    renamePaths V (V.fsPathToVaultPath w.ignores src) (V.fsPathToVaultPath w.ignores dst)

def rebuildSyncIgnore : Handler σ Unit := do
  let b ← await
  modify fun w => {w with ignores := V.syncIgnoreSet b.fs}

/-- An event that may have changed what is ignored has the tree scanned after it, whatever became
of it. -/
def handleFsEvent (event : FsEvent) : Handler σ Unit := do
  if event.touchesSyncignore then do
    rebuildSyncIgnore V
    let dispatch ← attempt (dispatchFsEvent V event)
    initialScan V
    match dispatch with
    | .ok _ => pure ()
    | .error e => throw e
  else dispatchFsEvent V event

/-- One event is handled, with the disk and the clock as they will be. -/
def handleStep (w : Watch σ) (x : FsEvent × (Nat → σ × Nat)) : Option (Watch σ) :=
  some (finish (handleFsEvent V x.1 {w with ahead := x.2}))

end Watching

/-! ### A directory to watch -/

/-- What is in a directory, itself first. -/
def Disk.tree (d : Disk) (path : PathBuf) : List WalkEntry :=
  ((d.nodes.keys.filter path.isPrefixOf).insertionSort (· ≤ ·)).map fun l =>
    ⟨l, if d.node l = some .dir then .dir else .file⟩

/-- A vault on a local disk, of which Markdown files are taken in and nothing is ignored. -/
def Watching.localDisk : Watching Disk where
  toSetting := .localDisk
  includePatterns := [txt "**/*.md"]
  present := fun d path => (d.metadata path).isOk
  isDir := fun d path =>
    match d.metadata path with
    | .ok n => some (n = .dir)
    | .error _ => none
  walk := Disk.tree
  gitignore := fun _ _ => some fun _ _ => .none

/-- A watch as `Binding::new` makes it. -/
def Watch.fresh {σ : Type} (V : Watching σ) (doc : Doc) (fs : σ) : Watch σ where
  bound := .fresh doc fs
  ignores := V.syncIgnoreSet fs
  ahead := fun _ => (fs, 0)

end AgentSync
