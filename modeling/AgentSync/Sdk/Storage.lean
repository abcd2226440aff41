import AgentSync.Machine
import AgentSync.Async
import AgentSync.Basic
import Mathlib.Logic.Function.Basic

/-! Where the TypeScript SDK keeps its document.

Two storage adapters write `doc.bin` through a temporary file: Obsidian's, over the host's
`DataAdapter`, and Node's, over `fs/promises`. A `Vault` calls `saveDoc` from every
mutation and every inbound frame without waiting for the call before, so several of these
programs run at once over one directory. -/
namespace AgentSync.Sdk
open Async

/-! ### The host's file system -/

inductive FsError where
  | notFound
  | alreadyExists
  deriving DecidableEq, Repr

/-- A call to `DataAdapter` or to `fs/promises`; `now` is `Date.now()`. -/
inductive FsCall where
  | pathExists (path : Str)
  | readBinary (path : Str)
  | writeBinary (path : Str) (bytes : Bytes)
  | mkdir (path : Str)
  /-- `mkdir` with `recursive`. -/
  | mkdirAll (path : Str)
  | remove (path : Str)
  /-- `rm` with `force`. -/
  | rm (path : Str)
  | rename (oldPath newPath : Str)
  | now
  deriving DecidableEq, Repr

abbrev FsCall.Reply : FsCall → Type
  | .pathExists _ => Bool
  | .readBinary _ => Bytes
  | .now => Nat
  | _ => Unit

/-- The temporary file a call writes or takes away. -/
def FsCall.temporary : FsCall → Option Str
  | .writeBinary path _ => some path
  | .rename oldPath _ => some oldPath
  | _ => none

abbrev Code (α : Type) := Prog FsCall FsCall.Reply FsError α

/-- Files and directories by path. -/
structure HostFs where
  files : Str → Option Bytes
  dirs : List Str

namespace HostFs

def empty : HostFs := ⟨fun _ => none, []⟩

/-- A path and the directories above it. -/
def ancestors (path : Str) : List Str :=
  (path.splitOn '/').inits.map (List.intercalate ['/'])

/-- A file that moves, over what is at its new path. -/
def move (d : HostFs) (oldPath newPath : Str) (bytes : Bytes) : HostFs :=
  {d with files := Function.update (Function.update d.files oldPath none) newPath (some bytes)}

/-- `replaces` is whether this host's `rename` takes the place of a file that is there. -/
def answer (replaces : Bool) (now : Nat) (d : HostFs) :
    (o : FsCall) → Except FsError o.Reply × HostFs
  | .pathExists path => (.ok ((d.files path).isSome || d.dirs.contains path), d)
  | .readBinary path => (match d.files path with
    | some bytes => .ok bytes
    | none => .error .notFound, d)
  | .writeBinary path bytes => (.ok (), {d with files := Function.update d.files path (some bytes)})
  | .mkdir path => (.ok (), {d with dirs := path :: d.dirs})
  | .mkdirAll path => (.ok (), {d with dirs := ancestors path ++ d.dirs})
  | .remove path =>
    match d.files path with
    | some _ => (.ok (), {d with files := Function.update d.files path none})
    | none => (.error .notFound, d)
  | .rm path => (.ok (), {d with files := Function.update d.files path none})
  | .rename oldPath newPath =>
    match d.files oldPath with
    | some bytes =>
      if (d.files newPath).isSome && !replaces then (.error .alreadyExists, d)
      else (.ok (), d.move oldPath newPath bytes)
    | none => (.error .notFound, d)
  | .now => (.ok now, d)

end HostFs

namespace Host

def pathExists (path : Str) : Code Bool := Prog.await (FsCall.pathExists path)
def readBinary (path : Str) : Code Bytes := Prog.await (FsCall.readBinary path)
def writeBinary (path : Str) (bytes : Bytes) : Code Unit :=
  Prog.await (FsCall.writeBinary path bytes)
def mkdir (path : Str) : Code Unit := Prog.await (FsCall.mkdir path)
def mkdirAll (path : Str) : Code Unit := Prog.await (FsCall.mkdirAll path)
def remove (path : Str) : Code Unit := Prog.await (FsCall.remove path)
def rm (path : Str) : Code Unit := Prog.await (FsCall.rm path)
def rename (oldPath newPath : Str) : Code Unit := Prog.await (FsCall.rename oldPath newPath)
def now : Code Nat := Prog.await FsCall.now

end Host

/-! ### The adapters -/

/-- `join(root, name)`. -/
def join (root name : Str) : Str := root ++ '/' :: name

/-- The file of the document; its directory is `root`. -/
abbrev docPath (root : Str) : Str := join root (txt "doc.bin")

def dirname (path : Str) : Str := List.intercalate ['/'] (path.splitOn '/').dropLast

namespace Obsidian

/-- A zero-length file counts as missing. -/
def readBinaryOrNull (path : Str) : Code (Option Bytes) := do
  if !(← Host.pathExists path) then return none
  let bytes ← Host.readBinary path
  return if bytes.length = 0 then none else some bytes

/-- `ensureDir`, from the directory reached so far. -/
def ensureDirs : Str → List Str → Code Unit
  | _, [] => return
  | cur, seg :: rest => do
    let cur := if cur = [] then seg else join cur seg
    if !(← Host.pathExists cur) then Host.mkdir cur
    ensureDirs cur rest

def ensureDir (path : Str) : Code Unit :=
  ensureDirs [] ((path.splitOn '/').filter (· ≠ []))

/-- The end of `atomicWriteBinary`. -/
def replace (tmp path : Str) : Code Unit := do
  if ← Host.pathExists path then Host.remove path
  Host.rename tmp path

def atomicWriteBinary (path : Str) (bytes : Bytes) : Code Unit := do
  let tmp := path ++ txt ".tmp"
  Host.writeBinary tmp bytes
  replace tmp path

def saveDoc (root : Str) (bytes : Bytes) : Code Unit := do
  ensureDir root
  atomicWriteBinary (docPath root) bytes

end Obsidian

namespace NodeFs

def readBytes (path : Str) : Code (Option Bytes) :=
  try some <$> Host.readBinary path
  catch
    | .notFound => return none
    | e => throw e

def tmpPath (pid now : Nat) (path : Str) : Str :=
  path ++ txt ".tmp-" ++ (toString pid).toList ++ txt "-" ++ (toString now).toList

/-- The end of `writeAtomic`. -/
def land (tmp path : Str) : Code Unit :=
  try Host.rename tmp path
  catch e =>
    try Host.rm tmp
    catch _ => pure ()
    throw e

def writeAtomic (pid : Nat) (path : Str) (bytes : Bytes) : Code Unit := do
  Host.mkdirAll (dirname path)
  let now ← Host.now
  let tmp := tmpPath pid now path
  Host.writeBinary tmp bytes
  land tmp path

end NodeFs

inductive Adapter where
  /-- Over a host whose `rename` replaces what is there, or refuses to. -/
  | obsidian (replaces : Bool)
  /-- In the process `pid`. -/
  | node (pid : Nat)
  deriving DecidableEq, Repr

namespace Adapter

def replaces : Adapter → Bool
  | .obsidian replaces => replaces
  | .node _ => true

def saveDoc (root : Str) (bytes : Bytes) : Adapter → Code Unit
  | .obsidian _ => Obsidian.saveDoc root bytes
  | .node pid => NodeFs.writeAtomic pid (docPath root) bytes

def loadDoc (root : Str) : Adapter → Code (Option Bytes)
  | .obsidian _ => Obsidian.readBinaryOrNull (docPath root)
  | .node _ => NodeFs.readBytes (docPath root)

end Adapter

end AgentSync.Sdk
