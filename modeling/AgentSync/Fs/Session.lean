import AgentSync.Machine
import AgentSync.Fs.Ingest
import AgentSync.Fs.Materialize

/-! A bound directory and the tasks that keep it.

One task passes over the directory again and again, and whoever restores a label or heads makes
a pass of their own meanwhile. Another task handles the events of the watcher one after the
other, and calls `ingest_file` for the paths they are about. Beside them the user works in the
directory, peers change the document, and time goes by. Each pass and the call take a step from
await to await (`Session.step`); when an event is handled, and how many saves it stands for, is
up to the run. -/
namespace AgentSync

variable {σ : Type}

/-- A vault with its directory, the passes that have begun and the call of `ingest_file`. -/
structure Session (σ : Type) where
  bound : Bound σ
  passes : List Pass
  call : Option (Str × Ingest)

def Pass.isDone : Pass → Bool
  | .done _ => true
  | _ => false

def Ingest.isDone : Ingest → Bool
  | .done _ => true
  | _ => false

namespace Session

inductive Act (σ : Type) where
  /-- A pass begins: the materializer's next one, or one of `restore_label`. -/
  | begin
  | pass (i pick : Nat)
  /-- An event is handled. -/
  | touched (path : Str)
  | ingest
  /-- The user changes the directory, and has written the paths that are named, if only with
  what they had. -/
  | user (fs : σ) (saved : List Str)
  /-- Peers or callers of the vault change the document. -/
  | remote (doc : Doc)
  | fetched (storage : Disk)
  | elapsed (ms : Nat)

variable (V : Setting σ) (s : Session σ)

def step : Act σ → Option (Session σ)
  | .begin => some {s with passes := s.passes ++ [.listing]}
  | .pass i pick => do
    let p ← s.passes[i]?
    let (b, p') ← Pass.step V s.bound pick p
    return {s with bound := b, passes := s.passes.set i p'}
  | .touched path =>
    if s.call.all fun c => c.2.isDone then some {s with call := some (path, .reading)} else none
  | .ingest => do
    let (path, i) ← s.call
    let (b, i') ← Ingest.step V path s.bound i
    return {s with bound := b, call := some (path, i')}
  | .user fs _ => some {s with bound := {s.bound with fs := fs}}
  | .remote doc => some {s with bound := {s.bound with doc := doc}}
  | .fetched storage => some {s with bound := {s.bound with storage := storage}}
  | .elapsed ms => some {s with bound := {s.bound with now := s.bound.now + ms}}

/-- A binding whose tasks have not begun. -/
def start (b : Bound σ) : Session σ := ⟨b, [], none⟩

/-- What the file at a path reads. -/
def disk (path : Str) : Except Error Bytes :=
  V.adapter.read s.bound.fs (V.vaultPathToFsPath path)

def diskHash (path : Str) : Option Str :=
  match s.disk V path with
  | .ok bytes => some (V.crates.sha.hash bytes)
  | .error _ => none

/-- The document lists a file at the path. -/
def live (path : Str) : Bool :=
  match s.bound.doc.root.listFiles V.crates with
  | .ok files => files.any fun m => m.path = path
  | .error _ => false

variable {V s} {s' : Session σ}

/-! ### What a step does -/

theorem step_pass {i pick : Nat} (h : s.step V (.pass i pick) = some s') :
    ∃ p b p', s.passes[i]? = some p ∧ Pass.step V s.bound pick p = some (b, p') ∧
      s' = {s with bound := b, passes := s.passes.set i p'} := by
  obtain ⟨p, hp, h⟩ := Option.bind_eq_some_iff.mp h
  obtain ⟨⟨b, p'⟩, hstep, h⟩ := Option.bind_eq_some_iff.mp h
  exact ⟨p, b, p', hp, hstep, (Option.some.inj h).symm⟩

theorem step_ingest (h : s.step V .ingest = some s') :
    ∃ path i b i', s.call = some (path, i) ∧ Ingest.step V path s.bound i = some (b, i') ∧
      s' = {s with bound := b, call := some (path, i')} := by
  obtain ⟨⟨path, i⟩, hi, h⟩ := Option.bind_eq_some_iff.mp h
  obtain ⟨⟨b, i'⟩, hstep, h⟩ := Option.bind_eq_some_iff.mp h
  exact ⟨path, i, b, i', hi, hstep, (Option.some.inj h).symm⟩

end Session

end AgentSync
