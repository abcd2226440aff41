import AgentSync.Machine
import AgentSync.Obsidian.Calls

/-! The bridge at work.

Passes over the vault and handlers of its events run side by side, each from one await to the
next (`slice`). A write of the plugin is under way until the vault makes it or refuses it, and
once it is made its event is on the way to the bridge. The events of everybody else come at any
moment. -/
namespace AgentSync.Obsidian

open Js Async

/-! ### Fields -/

/-- The fields of the bridge that its programs share. -/
structure Fields where
  suppressed : JsMap Str Nat
  knownSdkPaths : List Str
  deriving DecidableEq

namespace Fields

variable (f : Fields) (path : Str)

def tokens : Nat := (f.suppressed.get? path).getD 0

def suppress : Fields := {f with suppressed := f.suppressed.set path (f.tokens path + 1)}

def consumeSuppression : Bool × Fields :=
  match f.tokens path with
  | 0 => (false, f)
  | 1 => (true, {f with suppressed := f.suppressed.restrict (· ≠ path)})
  | n + 2 => (true, {f with suppressed := f.suppressed.set path (n + 1)})

end Fields

/-- What the vault and the document show between two awaits. -/
structure View where
  getAbstractFileByPath : Str → Option AbstractFile
  listFiles : Except Str (List FileMeta)
  fileExists : Str → Bool

def Sync.run (v : View) (f : Fields) : (s : Sync) → Except Str s.Answer × Fields
  | .suppress path => (.ok (), f.suppress path)
  | .consumeSuppression path => (.ok (f.consumeSuppression path).1, (f.consumeSuppression path).2)
  | .knownSdkPaths => (.ok f.knownSdkPaths, f)
  | .setKnownSdkPaths paths => (.ok (), {f with knownSdkPaths := paths})
  | .getAbstractFileByPath path => (.ok (v.getAbstractFileByPath path), f)
  | .listFiles => (v.listFiles, f)
  | .fileExists path => (.ok (v.fileExists path), f)

/-! ### Events -/

inductive VaultEvent where
  /-- A create or modify event. -/
  | write (path : Str) (isFile : Bool)
  | delete (path : Str)
  | rename (path oldPath : Str) (isFile : Bool)
  deriving DecidableEq, Repr

namespace VaultEvent

def code (filter : Str → Bool) : VaultEvent → Code Unit
  | .write path isFile => Code.handleObsidianWrite filter path isFile
  | .delete path => Code.handleObsidianDelete path
  | .rename path oldPath isFile => Code.handleObsidianRename filter path oldPath isFile

/-- The path whose tokens the handler looks at. -/
def path? : VaultEvent → Option Str
  | .write path isFile => if isFile then some path else none
  | .delete path => some path
  | .rename path _ _ => some path

end VaultEvent

/-- The event that a write of the plugin brings about. -/
def Wait.event : Wait → Option VaultEvent
  | .create path _ => some (.write path true)
  | .modify path _ => some (.write path true)
  | .delete path => some (.delete path)
  | _ => none

/-- The path of a write to the vault. -/
def Wait.target (w : Wait) : Option Str := w.event.bind VaultEvent.path?

/-! ### Tasks -/

/-- A program that waits for a call; `performed` says of a write that the vault has it. -/
structure Waiting where
  wait : Wait
  k : Except Str wait.Answer → Code Unit
  performed : Bool

/-- The path of a write that is under way. -/
def Waiting.due (t : Waiting) : Option Str := if t.performed then none else t.wait.target

/-- A program to its next await. -/
def slice (v : View) : Fields → Code Unit → Fields × Option Waiting
  | f, .pure _ => (f, none)
  | f, .throw _ => (f, none)
  | f, .call (.sync s) k => slice v (s.run v f).2 (k (s.run v f).1)
  | f, .call (.wait w) k => (f, some ⟨w, k, false⟩)

/-- What starts a pass over the vault. -/
inductive Pass where
  | applyRemoteState
  | applyOneRemoteFile (file : FileMeta)
  | runReconcile

def Pass.code (filter : Str → Bool) : Pass → Code Unit
  | .applyRemoteState => Code.applyRemoteState filter
  | .applyOneRemoteFile file => Code.applyOneRemoteFile filter file
  | .runReconcile => Code.runReconcile filter

/-- The bridge, the events of its writes that are still to be delivered, and what it has
running. -/
structure Running where
  fields : Fields
  events : List VaultEvent
  tasks : List Waiting

namespace Running

def new : Running := ⟨⟨∅, []⟩, [], []⟩

inductive Act where
  | start (pass : Pass) (view : View)
  /-- The vault makes the write that task `i` waits for. -/
  | perform (i : Nat)
  /-- The call of task `i` resolves or is rejected. -/
  | settle (i : Nat) (result : (w : Wait) → Except Str w.Answer) (view : View)
  /-- The event of a write of the plugin. -/
  | deliver (i : Nat) (view : View)
  /-- The event of what somebody else does. -/
  | user (event : VaultEvent) (view : View)

variable (filter : Str → Bool)

/-- A program starts. -/
def begin (r : Running) (view : View) (p : Code Unit) : Running :=
  {r with fields := (slice view r.fields p).1
          tasks := r.tasks ++ (slice view r.fields p).2.toList}

def step (r : Running) : Act → Option Running
  | .start pass view => some (r.begin view (pass.code filter))
  | .perform i => do
    let t ← r.tasks[i]?
    let event ← t.wait.event
    if t.performed then none
    else some {r with events := r.events ++ [event]
                      tasks := splice r.tasks i [{t with performed := true}]}
  | .settle i result view => do
    let t ← r.tasks[i]?
    if t.wait.event.isSome ∧ (result t.wait).isOk ≠ t.performed then none
    else
      let next := slice view r.fields (t.k (result t.wait))
      some {r with fields := next.1, tasks := splice r.tasks i next.2.toList}
  | .deliver i view => do
    let event ← r.events[i]?
    some ({r with events := r.events.eraseIdx i}.begin view (event.code filter))
  | .user event view => some (r.begin view (event.code filter))

end Running

end AgentSync.Obsidian
