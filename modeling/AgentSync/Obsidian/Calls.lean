import AgentSync.Async
import AgentSync.Obsidian.Reconcile

/-! The bridge, await by await.

Obsidian delivers its events while a pass of the bridge waits for a host call, so the programs of
`Bridge` are told here as the trees of their calls: what is answered at once (`Sync`), and what
is awaited (`Wait`). With nothing else running they are the same programs
(`play_applyRemoteState`). -/
namespace AgentSync.Obsidian

open Js Async Program

/-! ### Calls -/

/-- What happens between two awaits: the fields of the bridge, and questions to the vault and the
document. -/
inductive Sync where
  | suppress (path : Str)
  | consumeSuppression (path : Str)
  | knownSdkPaths
  | setKnownSdkPaths (paths : List Str)
  | getAbstractFileByPath (path : Str)
  | listFiles
  | fileExists (path : Str)
  deriving DecidableEq, Repr

abbrev Sync.Answer : Sync → Type
  | .suppress _ => Unit
  | .consumeSuppression _ => Bool
  | .knownSdkPaths => List Str
  | .setKnownSdkPaths _ => Unit
  | .getAbstractFileByPath _ => Option AbstractFile
  | .listFiles => List FileMeta
  | .fileExists _ => Bool

/-- What is awaited. `planReconcile` only reads. -/
inductive Wait where
  | read (path : Str)
  | create (path content : Str)
  | modify (path content : Str)
  | delete (path : Str)
  | createFolder (path : Str)
  | readTextFile (path : Str)
  | writeTextFile (path content : Str)
  | deleteFile (path : Str)
  | renameFile (oldPath path : Str)
  | planReconcile
  | yieldToEventLoop
  deriving DecidableEq, Repr

abbrev Wait.Answer : Wait → Type
  | .read _ => Str
  | .readTextFile _ => Str
  | .planReconcile => ReconcilePlan
  | _ => Unit

inductive HostCall where
  | sync (s : Sync)
  | wait (w : Wait)

abbrev HostCall.Answer : HostCall → Type
  | .sync s => s.Answer
  | .wait w => w.Answer

abbrev Code := Prog HostCall HostCall.Answer Str

namespace Code

def suppress (path : Str) : Code Unit := Prog.await (HostCall.sync (.suppress path))

def consumeSuppression (path : Str) : Code Bool :=
  Prog.await (HostCall.sync (.consumeSuppression path))

def knownSdkPaths : Code (List Str) := Prog.await (HostCall.sync .knownSdkPaths)

def setKnownSdkPaths (paths : List Str) : Code Unit :=
  Prog.await (HostCall.sync (.setKnownSdkPaths paths))

def getAbstractFileByPath (path : Str) : Code (Option AbstractFile) :=
  Prog.await (HostCall.sync (.getAbstractFileByPath path))

def listFiles : Code (List FileMeta) := Prog.await (HostCall.sync .listFiles)

def fileExists (path : Str) : Code Bool := Prog.await (HostCall.sync (.fileExists path))

def vaultRead (path : Str) : Code Str := Prog.await (HostCall.wait (.read path))

def vaultCreate (path content : Str) : Code Unit :=
  Prog.await (HostCall.wait (.create path content))

def vaultModify (path content : Str) : Code Unit :=
  Prog.await (HostCall.wait (.modify path content))

def vaultDelete (path : Str) : Code Unit := Prog.await (HostCall.wait (.delete path))

def createFolder (path : Str) : Code Unit := Prog.await (HostCall.wait (.createFolder path))

def readTextFile (path : Str) : Code Str := Prog.await (HostCall.wait (.readTextFile path))

def writeTextFile (path content : Str) : Code Unit :=
  Prog.await (HostCall.wait (.writeTextFile path content))

def deleteFile (path : Str) : Code Unit := Prog.await (HostCall.wait (.deleteFile path))

def renameFile (oldPath path : Str) : Code Unit :=
  Prog.await (HostCall.wait (.renameFile oldPath path))

def planReconcile : Code ReconcilePlan := Prog.await (HostCall.wait .planReconcile)

def yieldToEventLoop : Code Unit := Prog.await (HostCall.wait .yieldToEventLoop)

/-! ### From the document to the vault -/

variable (filter : Str → Bool)

/-- A call that may find what it makes already there. -/
def unlessExists (call recover : Code Unit) : Code Unit :=
  tryCatch call fun e => if alreadyExists e then recover else throw e

/-- The loop of `ensureFolderFor` from the folder `cur` on. -/
def ensureFolders (cur : Str) : List Str → Code Unit
  | [] => pure ()
  | seg :: rest => do
    let cur := if cur = [] then seg else cur ++ txt "/" ++ seg
    match ← getAbstractFileByPath cur with
    | some _ => pure ()
    | none => unlessExists (createFolder cur) (pure ())
    ensureFolders cur rest

def ensureFolderFor (filePath : Str) : Code Unit := do
  let folder := Path.parent filePath
  if folder = [] then pure ()
  else
    match ← getAbstractFileByPath folder with
    | some _ => pure ()
    | none => ensureFolders [] ((folder.splitOn '/').filter fun seg => !seg.isEmpty)

/-- What a create that finds the file there goes on to. -/
def orModify (path content : Str) : Code Unit := do
  match ← getAbstractFileByPath path with
  | some .file => vaultModify path content
  | _ => pure ()

/-- The create branch of `applyOneRemoteFile`. -/
def createRemote (path content : Str) : Code Unit := do
  ensureFolderFor path
  suppress path
  unlessExists (vaultCreate path content) (orModify path content)

/-- The branch for a file that both sides have. -/
def modifyRemote (path content : Str) : Code Unit := do
  let cur ← vaultRead path
  if cur = content then pure ()
  else do
    suppress path
    vaultModify path content

def deleteLocal (path : Str) : Code Unit := do
  suppress path
  vaultDelete path

def applyOneRemoteFile (file : FileMeta) : Code Unit :=
  if file.kind ≠ .text then pure ()
  else if !filter file.path then pure ()
  else do
    let existing ← getAbstractFileByPath file.path
    if truthy file.deletedAt then
      match existing with
      | some _ => deleteLocal file.path
      | none => pure ()
    else do
      let content ← readTextFile file.path
      match existing with
      | some .file => modifyRemote file.path content
      | _ => createRemote file.path content

/-- Every `YIELD_EVERY` turns. -/
def yieldAfter (i : Nat) : Code Unit := if i % 25 = 0 then yieldToEventLoop else pure ()

/-- The first loop of `applyRemoteState` from its `i`-th turn on. -/
def applyFiles : Nat → List FileMeta → Code Unit
  | _, [] => pure ()
  | i, file :: rest => do
    applyOneRemoteFile filter file
    yieldAfter (i + 1)
    applyFiles (i + 1) rest

/-- The second loop, where `j` files are deleted already. -/
def applyTombstones (currentPaths : List Str) : Nat → List Str → Code Unit
  | _, [] => pure ()
  | j, path :: rest =>
    if currentPaths.contains path then applyTombstones currentPaths j rest
    else if !filter path then applyTombstones currentPaths j rest
    else do
      match ← getAbstractFileByPath path with
      | none => applyTombstones currentPaths j rest
      | some _ => do
        deleteLocal path
        yieldAfter (j + 1)
        applyTombstones currentPaths (j + 1) rest

def applyRemoteState : Code Unit := do
  let sdkFiles ← listFiles
  let currentPaths := (sdkFiles.filter fun m => m.kind = .text && filter m.path).map FileMeta.path
  applyFiles filter 0 sdkFiles
  applyTombstones filter currentPaths 0 (← knownSdkPaths)
  setKnownSdkPaths currentPaths

/-! ### The reconcile -/

def pushAll : Nat → List PlannedWrite → Code Unit
  | _, [] => pure ()
  | i, op :: rest => do
    writeTextFile op.path op.content
    yieldAfter (i + 1)
    pushAll (i + 1) rest

def deleteAll : Nat → List Str → Code Unit
  | _, [] => pure ()
  | k, path :: rest => do
    match ← getAbstractFileByPath path with
    | some _ => deleteLocal path
    | none => pure ()
    yieldAfter (k + 1)
    deleteAll (k + 1) rest

def runReconcile : Code Unit := do
  let plan ← planReconcile
  pushAll 0 plan.pushToSdk
  applyFiles filter 0 (plan.applyToObsidian.map fun op =>
    ⟨[], op.path, .text, jsLength op.content, 0, 0, none, none⟩)
  deleteAll 0 plan.deleteInObsidian

/-! ### From the vault to the document -/

/-- A create or modify event. -/
def handleObsidianWrite (path : Str) (isFile : Bool) : Code Unit :=
  if !isFile then pure ()
  else do
    if ← consumeSuppression path then pure ()
    else if !filter path then pure ()
    else do
      let content ← vaultRead path
      if ← fileExists path then
        let remote ← readTextFile path
        if remote = content then pure () else writeTextFile path content
      else writeTextFile path content

def handleObsidianDelete (path : Str) : Code Unit := do
  if ← consumeSuppression path then pure ()
  else if !(← fileExists path) then pure ()
  else deleteFile path

/-- Reading a file of the vault and writing it to the document. -/
def pushFile (path : Str) : Code Unit := do
  let content ← vaultRead path
  writeTextFile path content

def handleObsidianRename (path oldPath : Str) (isFile : Bool) : Code Unit := do
  if ← consumeSuppression path then pure ()
  else if filter oldPath && filter path then
    if ← fileExists oldPath then renameFile oldPath path
    else if isFile then pushFile path
    else pure ()
  else if filter oldPath && !filter path then
    if ← fileExists oldPath then deleteFile oldPath else pure ()
  else if !filter oldPath && filter path && isFile then pushFile path
  else pure ()

end Code

/-! ### With nothing else running -/

section Play

variable (host : Host)

/-- `consumeSuppression`. -/
def consumeSuppression (path : Str) : Bridge Bool := fun a =>
  .ok (a.suppressed.contains path) {a with suppressed := a.suppressed.erase path}

/-- Another write to the document. -/
def sdkWrite {α : Type} (op : EStateM Error Doc α) : Bridge Unit := fun a =>
  match op a.doc with
  | .error e doc => .error e.text {a with doc := doc}
  | .ok _ doc =>
    match host.rejects a.awaits with
    | some e => .error e {a with doc := doc, awaits := a.awaits + 1}
    | none => .ok () {a with doc := doc, awaits := a.awaits + 1}

def answer : (o : HostCall) → Bridge o.Answer
  | .sync (.suppress path) => suppress path
  | .sync (.consumeSuppression path) => consumeSuppression path
  | .sync .knownSdkPaths => do return (← get).knownSdkPaths
  | .sync (.setKnownSdkPaths paths) => modify fun a => {a with knownSdkPaths := paths}
  | .sync (.getAbstractFileByPath path) => getAbstractFileByPath path
  | .sync .listFiles => sdkRead (Root.listFiles host.crates)
  | .sync (.fileExists path) => sdkRead fun r => .ok (r.fileExists host.crates path)
  | .wait (.read path) => vaultRead host path
  | .wait (.create path content) => vaultWrite host (·.create path content)
  | .wait (.modify path content) => vaultWrite host (·.modify path content)
  | .wait (.delete path) => vaultWrite host (·.delete path)
  | .wait (.createFolder path) => vaultWrite host (·.createFolder path)
  | .wait (.readTextFile path) => sdkRead (Root.readFile host.crates · path)
  | .wait (.writeTextFile path content) => sdkWriteTextFile host path content
  | .wait (.deleteFile path) => sdkWrite host (Doc.deleteFile host.crates path)
  | .wait (.renameFile src dst) => sdkWrite host (Doc.renameFile host.crates src dst)
  | .wait .planReconcile => plannedReconcile host
  | .wait .yieldToEventLoop => pure ()

/-- The program with every call answered in turn. -/
def play {α : Type} : Code α → Bridge α
  | .pure r => pure r
  | .throw e => throw e
  | .call o k => attempt (answer host o) >>= fun r => play (k r)

variable {host} {α β : Type}

@[simp] theorem play_pure (r : α) : play host (pure r : Code α) = pure r := rfl

@[simp] theorem play_throw (e : Str) : play host (throw e : Code α) = throw e := rfl

@[simp] theorem play_bind (p : Code α) (f : α → Code β) :
    play host (p >>= f) = play host p >>= fun r => play host (f r) := by
  induction p with
  | pure r => rfl
  | throw e => rfl
  | call o k ih =>
    have hcall : (Prog.call o k >>= f : Code β) = .call o fun r => k r >>= f := rfl
    simp only [hcall, play, ih, bind_assoc]

theorem play_await (o : HostCall) : play host (Prog.await o) = answer host o := by
  funext a
  cases hanswer : answer host o a with
  | ok r a' =>
    have hattempt : attempt (answer host o) a = .ok (.ok r) a' := by simp only [attempt, hanswer]
    exact bind_ok hattempt
  | error e a' =>
    have hattempt : attempt (answer host o) a = .ok (.error e) a' := by simp only [attempt, hanswer]
    exact bind_ok hattempt

@[simp] theorem play_suppress (path : Str) : play host (Code.suppress path) = suppress path :=
  play_await _

@[simp] theorem play_knownSdkPaths :
    play host Code.knownSdkPaths = (do return (← get).knownSdkPaths) := play_await _

@[simp] theorem play_setKnownSdkPaths (paths : List Str) :
    play host (Code.setKnownSdkPaths paths) = modify fun a => {a with knownSdkPaths := paths} :=
  play_await _

@[simp] theorem play_getAbstractFileByPath (path : Str) :
    play host (Code.getAbstractFileByPath path) = getAbstractFileByPath path := play_await _

@[simp] theorem play_listFiles :
    play host Code.listFiles = sdkRead (Root.listFiles host.crates) := play_await _

@[simp] theorem play_vaultRead (path : Str) :
    play host (Code.vaultRead path) = vaultRead host path := play_await _

@[simp] theorem play_vaultCreate (path content : Str) :
    play host (Code.vaultCreate path content) = vaultWrite host (·.create path content) :=
  play_await _

@[simp] theorem play_vaultModify (path content : Str) :
    play host (Code.vaultModify path content) = vaultWrite host (·.modify path content) :=
  play_await _

@[simp] theorem play_vaultDelete (path : Str) :
    play host (Code.vaultDelete path) = vaultWrite host (·.delete path) := play_await _

@[simp] theorem play_createFolder (path : Str) :
    play host (Code.createFolder path) = vaultWrite host (·.createFolder path) := play_await _

@[simp] theorem play_readTextFile (path : Str) :
    play host (Code.readTextFile path) = sdkRead (Root.readFile host.crates · path) :=
  play_await _

@[simp] theorem play_writeTextFile (path content : Str) :
    play host (Code.writeTextFile path content) = sdkWriteTextFile host path content :=
  play_await _

@[simp] theorem play_planReconcile :
    play host Code.planReconcile = plannedReconcile host := play_await _

@[simp] theorem play_yieldToEventLoop : play host Code.yieldToEventLoop = pure () := play_await _

theorem play_unlessExists (call recover : Code Unit) :
    play host (Code.unlessExists call recover) =
      unlessExists (play host call) (play host recover) := by
  induction call with
  | pure r => rfl
  | throw e =>
    funext a
    by_cases he : alreadyExists e = true
    · have hrecover : Code.unlessExists (.throw e) recover = recover := if_pos he
      rw [hrecover]
      exact (if_pos he).symm
    · have hthrow : Code.unlessExists (.throw e) recover = .throw e := if_neg he
      rw [hthrow]
      exact (if_neg he).symm
  | call o k ih =>
    funext a
    have hattempt : ∃ r a', attempt (answer host o) a = .ok r a' := by
      cases hanswer : answer host o a with
      | ok r a' => exact ⟨.ok r, a', by simp only [attempt, hanswer]⟩
      | error e a' => exact ⟨.error e, a', by simp only [attempt, hanswer]⟩
    obtain ⟨r, a', hr⟩ := hattempt
    have hleft : play host (Code.unlessExists (.call o k) recover) a =
        play host (Code.unlessExists (k r) recover) a' := bind_ok hr
    have hcall : play host (.call o k) a = play host (k r) a' := bind_ok hr
    rw [hleft, ih r]
    simp only [unlessExists, hcall]

theorem play_ensureFolders (cur : Str) (parts : List Str) :
    play host (Code.ensureFolders cur parts) = ensureFolders host cur parts := by
  induction parts generalizing cur with
  | nil => rfl
  | cons seg rest ih =>
    simp only [Code.ensureFolders, ensureFolders, play_bind, play_getAbstractFileByPath]
    congr 1
    funext found
    cases found with
    | some _ => simp only [ih]
    | none => simp only [play_bind, play_unlessExists, play_createFolder, play_pure, ih]

theorem play_ensureFolderFor (path : Str) :
    play host (Code.ensureFolderFor path) = ensureFolderFor host path := by
  simp only [Code.ensureFolderFor, ensureFolderFor]
  split
  · rfl
  · simp only [play_bind, play_getAbstractFileByPath]
    congr 1
    funext found
    cases found with
    | some _ => rfl
    | none => exact play_ensureFolders _ _

theorem play_createRemote (path content : Str) :
    play host (Code.createRemote path content) = createRemote host path content := by
  simp only [Code.createRemote, Code.orModify, createRemote, play_bind, play_unlessExists, play_suppress,
    play_vaultCreate, play_ensureFolderFor, play_getAbstractFileByPath]
  congr 1
  funext _
  congr 1
  funext _
  congr 2
  funext found
  cases found with
  | none => rfl
  | some kind =>
    cases kind with
    | file => exact play_vaultModify _ _
    | folder => rfl

theorem play_modifyRemote (path content : Str) :
    play host (Code.modifyRemote path content) = modifyRemote host path content := by
  simp only [Code.modifyRemote, modifyRemote, play_bind, play_vaultRead]
  congr 1
  funext cur
  split
  · rfl
  · simp only [play_bind, play_suppress, play_vaultModify]

theorem play_deleteLocal (path : Str) :
    play host (Code.deleteLocal path) = deleteLocal host path := by
  simp only [Code.deleteLocal, deleteLocal, play_bind, play_suppress, play_vaultDelete]

theorem play_applyOneRemoteFile (file : FileMeta) :
    play host (Code.applyOneRemoteFile host.filter file) = applyOneRemoteFile host file := by
  simp only [Code.applyOneRemoteFile, applyOneRemoteFile]
  split
  · rfl
  · split
    · rfl
    · simp only [play_bind, play_getAbstractFileByPath]
      congr 1
      funext existing
      split
      · cases existing with
        | some _ => exact play_deleteLocal _
        | none => rfl
      · simp only [play_bind, play_readTextFile]
        congr 1
        funext content
        cases existing with
        | none => exact play_createRemote _ _
        | some kind =>
          cases kind with
          | file => exact play_modifyRemote _ _
          | folder => exact play_createRemote _ _

theorem play_yieldAfter (i : Nat) : play host (Code.yieldAfter i) = pure () := by
  unfold Code.yieldAfter
  split
  · exact play_yieldToEventLoop
  · rfl

theorem play_applyFiles (i : Nat) (files : List FileMeta) :
    play host (Code.applyFiles host.filter i files) = files.forM (applyOneRemoteFile host) := by
  induction files generalizing i with
  | nil => rfl
  | cons file rest ih =>
    simp only [Code.applyFiles, List.forM_eq_forM, List.forM_cons, play_bind,
      play_applyOneRemoteFile, play_yieldAfter, ih, pure_bind]

theorem play_applyTombstones (currentPaths : List Str) (j : Nat) (paths : List Str) :
    play host (Code.applyTombstones host.filter currentPaths j paths) =
      paths.forM (applyTombstone host currentPaths) := by
  induction paths generalizing j with
  | nil => rfl
  | cons path rest ih =>
    simp only [Code.applyTombstones, List.forM_eq_forM, List.forM_cons, applyTombstone] at ih ⊢
    split
    · rw [ih, pure_bind]
    · split
      · rw [ih, pure_bind]
      · rw [play_bind, bind_assoc, play_getAbstractFileByPath]
        congr 1
        funext found
        cases found with
        | none => exact (ih j).trans (pure_bind _ _).symm
        | some _ => simp only [play_bind, play_deleteLocal, play_yieldAfter, ih, pure_bind]

/-- **With nothing else running, a pass is that of the bridge.** -/
theorem play_applyRemoteState :
    play host (Code.applyRemoteState host.filter) = applyRemoteState host := by
  simp only [Code.applyRemoteState, applyRemoteState, play_bind, play_applyFiles,
    play_applyTombstones, play_listFiles, play_knownSdkPaths, play_setKnownSdkPaths, textPaths,
    bind_assoc, pure_bind]

theorem play_pushAll (i : Nat) (ops : List PlannedWrite) :
    play host (Code.pushAll i ops) =
      ops.forM fun op => sdkWriteTextFile host op.path op.content := by
  induction ops generalizing i with
  | nil => rfl
  | cons op rest ih =>
    simp only [Code.pushAll, List.forM_eq_forM, List.forM_cons, play_bind, play_writeTextFile,
      play_yieldAfter, pure_bind] at ih ⊢
    rw [ih]

theorem play_deleteAll (k : Nat) (paths : List Str) :
    play host (Code.deleteAll k paths) = (paths.forM fun path => do
      match ← getAbstractFileByPath path with
      | some _ => deleteLocal host path
      | none => pure ()) := by
  induction paths generalizing k with
  | nil => rfl
  | cons path rest ih =>
    simp only [Code.deleteAll, List.forM_eq_forM, List.forM_cons, play_bind, bind_assoc,
      play_getAbstractFileByPath] at ih ⊢
    congr 1
    funext found
    cases found with
    | none => simp only [play_bind, play_yieldAfter, ih, pure_bind]
    | some _ => simp only [play_bind, play_deleteLocal, play_yieldAfter, ih, pure_bind]

/-- The same for a reconcile. -/
theorem play_runReconcile :
    play host (Code.runReconcile host.filter) = runReconcile host := by
  rw [Code.runReconcile, runReconcile, play_bind, play_planReconcile]
  congr 1
  funext plan
  rw [play_bind, play_pushAll]
  congr 1
  funext _
  rw [play_bind, play_applyFiles, List.forM_eq_forM, List.forM_map]
  congr 1
  funext _
  exact play_deleteAll 0 _

end Play

end AgentSync.Obsidian
