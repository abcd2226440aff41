import AgentSync.Doc.Read

/-! The operations on files and directories.

Every operation normalizes its paths, looks entries up by scanning, records its writes
and commits. What an entry holds stays when it is deleted: deletion only sets
`deleted_at`. -/
namespace AgentSync

namespace Doc

variable (L : Crates)

/-- A read that cannot fail. -/
def ask {α : Type} (f : Root → α) : DocM α := read fun r => .ok (f r)

/-! ### Directories -/

/-- One turn of `ensure_ancestor_directories`. -/
def ensureDirectory (now : Int) (ancestor : Str) : DocM Unit := do
  match ← read (Root.findDirectoryByPathNormalized L · ancestor) with
  | some _ => pure ()
  | none => do
    read (Root.mapObj · .directories)
    let did ← newId
    read (Root.writable L · (.rootMap .directories))
    emit [.putMap (.dir did), .put (.dirField did .path) (.str ancestor),
      .put (.dirField did .createdAt) (.int now)]

def ensureAncestorDirectories (path : Str) : DocM Unit := do
  let now ← nowMs
  (Path.ancestors path).forM (ensureDirectory L now)

def createDirectory (path : Str) : DocM Str := do
  let path ← lift (Path.normalize L.nfc path)
  match ← read (Root.findDirectoryByPathNormalized L · path) with
  | some did => return did
  | none => do
    read (Root.mapObj · .directories)
    let did ← newId
    read (Root.writable L · (.rootMap .directories))
    let now ← nowMs
    emit [.putMap (.dir did), .put (.dirField did .path) (.str path),
      .put (.dirField did .createdAt) (.int now)]
    ensureAncestorDirectories L path
    commitNow
    return did

/-! ### Files -/

/-- The body of a new text file. -/
def textOps (fid content : Str) : List Op :=
  .putText fid :: if content = [] then [] else [.spliceText fid 0 0 content]

/-- Bringing the body of a file to `content`, given what it is now. -/
def setTextOps (fid content : Str) : Option Str → List Op
  | some current => if current = content then [] else [.spliceText fid 0 current.length content]
  | none => textOps fid content

/-- An entry that `find_file_by_path_normalized` returned has its maps, so the unwraps of
`get_object` in the source succeed. -/
def writeTextFile (path content : Str) : DocM Str := do
  let path ← lift (Path.normalize L.nfc path)
  let now ← nowMs
  let size : Int := (utf8 content).length
  match ← read (Root.findFileByPathNormalized L · path) with
  | some fid => do
    let current ← ask (Root.getText · fid)
    emit (setTextOps fid content current ++
      [.put (.fileField fid .size) (.int size), .put (.fileField fid .updatedAt) (.int now),
        .put (.fileField fid .kind) (.str FileKind.text.asStr),
        .delete (.fileField fid .deletedAt)])
    commitNow
    return fid
  | none => do
    read (Root.mapObj · .files)
    let fid ← newId
    read (Root.writable L · (.rootMap .files))
    emit ([.putMap (.file fid), .putMap (.fileMeta fid),
      .put (.fileField fid .path) (.str path),
      .put (.fileField fid .kind) (.str FileKind.text.asStr),
      .put (.fileField fid .size) (.int size), .put (.fileField fid .createdAt) (.int now),
      .put (.fileField fid .updatedAt) (.int now)] ++ textOps fid content)
    ensureAncestorDirectories L path
    commitNow
    return fid

def writeAttachment (path hash : Str) (size : Int) : DocM Str := do
  let path ← lift (Path.normalize L.nfc path)
  let now ← nowMs
  match ← read (Root.findFileByPathNormalized L · path) with
  | some fid => do
    emit [.put (.binaryHash fid) (.str hash),
      .put (.fileField fid .kind) (.str FileKind.attachment.asStr),
      .put (.fileField fid .size) (.int size), .put (.fileField fid .updatedAt) (.int now),
      .delete (.fileField fid .deletedAt)]
    commitNow
    return fid
  | none => do
    read (Root.mapObj · .files)
    let fid ← newId
    read (Root.writable L · (.rootMap .files))
    emit [.putMap (.file fid), .putMap (.fileMeta fid),
      .put (.fileField fid .path) (.str path),
      .put (.fileField fid .kind) (.str FileKind.attachment.asStr),
      .put (.fileField fid .size) (.int size), .put (.fileField fid .createdAt) (.int now),
      .put (.fileField fid .updatedAt) (.int now), .put (.binaryHash fid) (.str hash)]
    ensureAncestorDirectories L path
    commitNow
    return fid

def deleteFile (path : Str) : DocM Unit := do
  let path ← lift (Path.normalize L.nfc path)
  match ← read (Root.findFileByPathNormalized L · path) with
  | none => throw (.notFound path)
  | some fid => do
    let now ← nowMs
    emit [.put (.fileField fid .deletedAt) (.int now)]
    commitNow

def renameFile (src dst : Str) : DocM Unit := do
  let src ← lift (Path.normalize L.nfc src)
  let dst ← lift (Path.normalize L.nfc dst)
  if src = dst then pure ()
  else
    match ← read (Root.findFileByPathNormalized L · src) with
    | none => throw (.notFound src)
    | some fid =>
      match ← read (Root.findFileByPathNormalized L · dst) with
      | some _ => throw (.alreadyExists dst)
      | none => do
        let now ← nowMs
        emit [.put (.fileField fid .path) (.str dst), .put (.fileField fid .updatedAt) (.int now)]
        ensureAncestorDirectories L dst
        commitNow

/-! ### Whole directories -/

/-- The live directories strictly below `path`, in key order. -/
def childDirsIn (r : Root) (path : Str) : List Str → Except Error (List Str)
  | [] => .ok []
  | did :: rest =>
    if !r.hasObject (.dir did) then childDirsIn r path rest
    else do
      if (← r.getInt L (.dirField did .deletedAt)).isSome then childDirsIn r path rest
      else
        match ← r.getStr L (.dirField did .path) with
        | none => childDirsIn r path rest
        | some p => do
          let children ← childDirsIn r path rest
          return if Path.under path p && p != path then did :: children else children

def childDirs (path : Str) (r : Root) : Except Error (List Str) := do
  r.mapObj .directories
  childDirsIn L r path r.dirKeys

def childFiles (path : Str) (r : Root) : Except Error (List Str) := do
  let metas ← r.listFiles L
  return (metas.filter fun m => Path.under path m.path && m.path != path).map FileMeta.path

/-- Setting `deleted_at` of a directory that is there. -/
def markDirectory (now : Int) (did : Str) : DocM Unit := do
  if ← ask (Root.hasObject · (.dir did)) then
    read (Root.writable L · (.dir did))
    emit [.put (.dirField did .deletedAt) (.int now)]
  else pure ()

/-- The cascade of `delete_directory`. -/
def deleteChildren (now : Int) (files dirs : List Str) (recursive : Bool) : DocM Unit :=
  if recursive then do
    files.forM (deleteFile L)
    read (Root.mapObj · .directories)
    dirs.forM (markDirectory L now)
  else pure ()

def deleteDirectory (path : Str) (recursive : Bool) : DocM Unit := do
  let path ← lift (Path.normalize L.nfc path)
  let now ← nowMs
  let files ← read (childFiles L path)
  let dirs ← read (childDirs L path)
  if files ≠ [] ∧ recursive = false then
    throw (.other (txt "directory not empty: " ++ path ++ txt " (" ++
      (toString files.length).toList ++ txt " child files)"))
  else do
    deleteChildren L now files dirs recursive
    match ← read (Root.findDirectoryByPathNormalized L · path) with
    | some did => markDirectory L now did
    | none => pure ()
    commitNow

/-- Moving a directory below `src`, as one turn of the loop in `rename_directory`. -/
def moveDirectory (src dst did : Str) : DocM Unit := do
  if !(← ask (Root.hasObject · (.dir did))) then pure ()
  else if (← read (Root.getInt L · (.dirField did .deletedAt))).isSome then pure ()
  else
    match ← read (Root.getStr L · (.dirField did .path)) with
    | none => pure ()
    | some p =>
      if Path.under src p && p != src then
        emit [.put (.dirField did .path) (.str (dst ++ p.drop src.length))]
      else pure ()

/-- Moving a file at or below `src`. -/
def moveFile (src dst : Str) (now : Int) (fid : Str) : DocM Unit := do
  if !(← ask (Root.hasObject · (.file fid))) then pure ()
  else if !(← ask (Root.hasObject · (.fileMeta fid))) then pure ()
  else if (← read (Root.getInt L · (.fileField fid .deletedAt))).isSome then pure ()
  else
    match ← read (Root.getStr L · (.fileField fid .path)) with
    | none => pure ()
    | some p =>
      if Path.under src p then
        emit [.put (.fileField fid .path) (.str (if p = src then dst else dst ++ p.drop src.length)),
          .put (.fileField fid .updatedAt) (.int now)]
      else pure ()

def renameDirectory (src dst : Str) : DocM Unit := do
  let src ← lift (Path.normalize L.nfc src)
  let dst ← lift (Path.normalize L.nfc dst)
  if src = dst then pure ()
  else do
    let now ← nowMs
    match ← read (Root.findDirectoryByPathNormalized L · src) with
    | some did =>
      if ← ask (Root.hasObject · (.dir did)) then
        emit [.put (.dirField did .path) (.str dst)]
      else pure ()
    | none => pure ()
    read (Root.mapObj · .directories)
    (← ask Root.dirKeys).forM (moveDirectory L src dst)
    read (Root.mapObj · .files)
    (← ask Root.fileKeys).forM (moveFile L src dst now)
    ensureAncestorDirectories L dst
    commitNow

end Doc

end AgentSync
