import AgentSync.Fs.Binding
import AgentSync.Fs.Selection

/-! Bringing the directory up to the document.

A pass of `materialize_inner` lists what is live, copies the two maps of the binding, and then
goes through its four loops: directories to make, files to delete, files to write, directories
to remove. It is a machine that takes one step from each await to the next (`Pass.step`). The
hash maps it iterates over come in no order, so `pick` says which entry is next. What each step
does is one constructor of `Pass.Moves`. -/
namespace AgentSync

/-- A map from paths of the document to content hashes. -/
abbrev Hashes := AList fun _ : Str => Str

namespace Hashes

/-- `HashMap::retain`. -/
def retain (m : Hashes) (keep : Str → Bool) : Hashes :=
  ⟨m.entries.filter fun e => keep e.1, m.nodupKeys.sublist List.filter_sublist⟩

theorem lookup_retain (m : Hashes) (keep : Str → Bool) (path : Str) :
    (m.retain keep).lookup path = if keep path then m.lookup path else none := by
  refine Option.ext fun h => ?_
  simp only [← Option.mem_def]
  by_cases hkeep : keep path = true
  · rw [if_pos hkeep, AList.mem_lookup_iff, AList.mem_lookup_iff]
    simp [retain, hkeep]
  · rw [if_neg hkeep, AList.mem_lookup_iff]
    simp [retain, hkeep]

end Hashes

/-- `p.matches('/').count()`. -/
def depth (path : Str) : Nat := path.count '/'

/-- The disk has what was written or taken in last. -/
def isSafeToOverwrite (disk : Str) (lastMaterialized lastIngested : Option Str) : Bool :=
  lastMaterialized = some disk || lastIngested = some disk

/-- What is live when a pass begins. -/
structure Listing where
  live : AList fun _ : Str => FileMeta
  liveDirs : List Str

/-- What a pass decides by, besides what it finds on the disk. -/
structure Snapshot extends Listing where
  existing : Hashes
  lastIngested : Hashes

/-- Where a pass of `materialize_inner` is. The list is what its loop has left. -/
inductive Pass where
  | listing
  | ordering (s : Listing)
  | creating (s : Listing) (dirs : List Str)
  | cloning (s : Listing)
  | cloned (s : Listing) (existing : Hashes)
  | deletes (s : Snapshot) (todo : List Str)
  | deleting (s : Snapshot) (todo : List Str) (path : Str)
  /-- The file is deleted and the mark is still to be set. -/
  | deleted (s : Snapshot) (todo : List Str) (path : Str)
  | writes (s : Snapshot) (todo : List Str)
  | reading (s : Snapshot) (todo : List Str) (path : Str) (bytes : Bytes) (hash : Str)
  /-- The disk has the content already, which is still to be recorded. -/
  | matched (s : Snapshot) (todo : List Str) (path hash : Str)
  | marking (s : Snapshot) (todo : List Str) (path : Str) (bytes : Bytes) (hash : Str)
  | writing (s : Snapshot) (todo : List Str) (path : Str) (bytes : Bytes) (hash : Str)
  /-- The content is written, and that is still to be recorded. -/
  | written (s : Snapshot) (todo : List Str) (path : Str) (bytes : Bytes) (hash : Str)
  | pruning (s : Snapshot)
  | pruned (s : Snapshot)
  | sweeping (s : Snapshot)
  | removing (s : Snapshot) (dirs : List Str)
  | done (result : Except Error Unit)

namespace Pass

variable {σ : Type} (V : Setting σ) (b : Bound σ)

/-- The directories to make, each after those it is in. -/
def creationOrder (dirs : List Str) : List Str :=
  dirs.insertionSort fun p q => depth p < depth q ∨ depth p = depth q ∧ p ≤ q

/-- Every live path, with the entry the listing has at it last. -/
def list : Except Error Listing := do
  let files ← b.doc.root.listFiles V.crates
  let dirs ← b.doc.root.listDirectories V.crates
  return ⟨liveByPath files, (dirs.map DirectoryMeta.path).dedup⟩

def createDir (path : Str) : Bound σ :=
  match V.adapter.createDirAll b.fs (V.vaultPathToFsPath path) with
  | (fs, .ok _) => {b with fs := fs, materializedDirs := b.materializedDirs.insert path}
  | (fs, .error _) => {b with fs := fs}

/-- `remove_dir`; a directory that is gone is forgotten too. -/
def removeDir (path : Str) : Bound σ :=
  match V.adapter.removeDir b.fs (V.vaultPathToFsPath path) with
  | (fs, .ok _) | (fs, .error .notFound) =>
    {b with fs := fs, materializedDirs := b.materializedDirs.erase path}
  | (fs, .error _) => {b with fs := fs}

/-- The content of a live entry and its hash; none when it has none to write. -/
def target (m : FileMeta) : Except Error (Option (Bytes × Str)) :=
  match m.kind with
  | .text => do
    let text ← b.doc.root.readFileId m.id
    let bytes := utf8 (text.getD [])
    return some (bytes, V.crates.sha.hash bytes)
  | .attachment =>
    match m.binaryHash with
    | none => .ok none
    | some h =>
      match V.blobStore.get b.storage h with
      | .ok bytes => .ok (some (bytes, h))
      | .error _ => .ok none

/-- The loop over what is materialized, for a path that is not live. -/
def delete (s : Snapshot) (todo : List Str) (path : Str) : Pass :=
  match V.adapter.read b.fs (V.vaultPathToFsPath path) with
  | .ok bytes =>
    if isSafeToOverwrite (V.crates.sha.hash bytes) (s.existing.lookup path)
        (s.lastIngested.lookup path) then .deleting s todo path
    else .deletes s todo
  | .error _ => .deleting s todo path

/-- The loop over what is live. -/
def write (s : Snapshot) (todo : List Str) (path : Str) (m : FileMeta) : Pass :=
  match target V b m with
  | .error e => .done (.error e)
  | .ok none => .writes s todo
  | .ok (some (bytes, hash)) =>
    if s.existing.lookup path = some hash then .writes s todo else .reading s todo path bytes hash

/-- What becomes of a write, now that the disk is read. -/
def compare (s : Snapshot) (todo : List Str) (path : Str) (bytes : Bytes) (hash : Str) : Pass :=
  match V.adapter.read b.fs (V.vaultPathToFsPath path) with
  | .ok disk =>
    if V.crates.sha.hash disk = hash then .matched s todo path hash
    else if isSafeToOverwrite (V.crates.sha.hash disk) (s.existing.lookup path)
        (s.lastIngested.lookup path) then .marking s todo path bytes hash
    else .writes s todo
  | .error _ => .marking s todo path bytes hash

/-- One step of `materialize_inner`; none when it has returned, or `pick` picks nothing. -/
def step (pick : Nat) : Pass → Option (Bound σ × Pass)
  | .listing =>
    match list V b with
    | .ok s => some (b, .ordering s)
    | .error e => some (b, .done (.error e))
  | .ordering s =>
    some (b, .creating s (creationOrder (s.liveDirs.filter fun p => p ∉ b.materializedDirs)))
  | .creating s [] => some (b, .cloning s)
  | .creating s (path :: rest) => some (createDir V b path, .creating s rest)
  | .cloning s => some (b, .cloned s b.materialized)
  | .cloned s existing => some (b, .deletes ⟨s, existing, b.lastIngested⟩ existing.keys)
  | .deletes s [] => some (b, .writes s s.live.keys)
  | .deletes s todo =>
    todo[pick]?.map fun path =>
      if path ∈ s.live then (b, .deletes s (todo.eraseIdx pick))
      else (b, delete V b s (todo.eraseIdx pick) path)
  | .deleting s todo path =>
    match V.adapter.delete b.fs (V.vaultPathToFsPath path) with
    | (fs, .ok _) => some ({b with fs := fs}, .deleted s todo path)
    | (fs, .error _) => some ({b with fs := fs}, .deletes s todo)
  | .deleted s todo path =>
    some ({b with dirty := b.dirty.mark b.now path (txt "<deleted>")}, .deletes s todo)
  | .writes s [] => some (b, .pruning s)
  | .writes s todo => do
    let path ← todo[pick]?
    let m ← s.live.lookup path
    return (b, write V b s (todo.eraseIdx pick) path m)
  | .reading s todo path bytes hash => some (b, compare V b s todo path bytes hash)
  | .matched s todo path hash =>
    some ({b with materialized := b.materialized.insert path hash}, .writes s todo)
  | .marking s todo path bytes hash =>
    some ({b with dirty := b.dirty.mark b.now path hash}, .writing s todo path bytes hash)
  | .writing s todo path bytes hash =>
    match V.adapter.write b.fs (V.vaultPathToFsPath path) bytes with
    | (fs, .ok _) => some ({b with fs := fs}, .written s todo path bytes hash)
    | (fs, .error _) => some ({b with fs := fs}, .writes s todo)
  | .written s todo path _ hash =>
    some ({b with materialized := b.materialized.insert path hash}, .writes s todo)
  | .pruning s =>
    some ({b with materialized := Hashes.retain b.materialized fun p => p ∈ s.live}, .pruned s)
  | .pruned s =>
    some ({b with lastIngested := Hashes.retain b.lastIngested fun p => p ∈ s.live}, .sweeping s)
  | .sweeping s => some (b, .removing s (b.materializedDirs.filter fun p => p ∉ s.liveDirs))
  | .removing _ [] => some (b, .done (.ok ()))
  | .removing s dirs => do
    let path ← dirs[pick]?
    -- Deepest first, and those of one depth in any order.
    if dirs.all fun p => depth p ≤ depth path then
      return (removeDir V b path, .removing s (dirs.eraseIdx pick))
    else none
  | .done _ => none

/-! ### The steps one by one -/

/-- The file at a path holds edits that were neither written by a pass nor taken in. -/
def uncommitted (b : Bound σ) (s : Snapshot) (path : Str) : Bool :=
  match V.adapter.read b.fs (V.vaultPathToFsPath path) with
  | .ok disk => !isSafeToOverwrite (V.crates.sha.hash disk) (s.existing.lookup path)
      (s.lastIngested.lookup path)
  | .error _ => false

/-- The file at a path has the content of a hash. -/
def onDisk (b : Bound σ) (path hash : Str) : Bool :=
  match V.adapter.read b.fs (V.vaultPathToFsPath path) with
  | .ok disk => V.crates.sha.hash disk = hash
  | .error _ => false

def canDelete (b : Bound σ) (path : Str) : Bool :=
  match V.adapter.delete b.fs (V.vaultPathToFsPath path) with
  | (_, .ok _) => true
  | (_, .error _) => false

def canWrite (b : Bound σ) (path : Str) (bytes : Bytes) : Bool :=
  match V.adapter.write b.fs (V.vaultPathToFsPath path) bytes with
  | (_, .ok _) => true
  | (_, .error _) => false

/-- What a step does, with what it has found. -/
inductive Moves (V : Setting σ) (b : Bound σ) (pick : Nat) : Pass → Bound σ → Pass → Prop
  | listed {l : Listing} (hlist : list V b = .ok l) : Moves V b pick .listing b (.ordering l)
  | unlisted {e : Error} (hlist : list V b = .error e) :
      Moves V b pick .listing b (.done (.error e))
  | ordered (l : Listing) : Moves V b pick (.ordering l) b
      (.creating l (creationOrder (l.liveDirs.filter fun p => p ∉ b.materializedDirs)))
  | creating (l : Listing) (path : Str) (rest : List Str) :
      Moves V b pick (.creating l (path :: rest)) (createDir V b path) (.creating l rest)
  | created (l : Listing) : Moves V b pick (.creating l []) b (.cloning l)
  | cloning (l : Listing) : Moves V b pick (.cloning l) b (.cloned l b.materialized)
  | cloned (l : Listing) (existing : Hashes) :
      Moves V b pick (.cloned l existing) b (.deletes ⟨l, existing, b.lastIngested⟩ existing.keys)
  | deletesEnd (s : Snapshot) : Moves V b pick (.deletes s []) b (.writes s s.live.keys)
  | live {s : Snapshot} {todo : List Str} {path : Str} (hpath : todo[pick]? = some path)
      (hlive : path ∈ s.live) :
      Moves V b pick (.deletes s todo) b (.deletes s (todo.eraseIdx pick))
  | kept {s : Snapshot} {todo : List Str} {path : Str} (hpath : todo[pick]? = some path)
      (hlive : path ∉ s.live) (hkept : uncommitted V b s path = true) :
      Moves V b pick (.deletes s todo) b (.deletes s (todo.eraseIdx pick))
  | deleting {s : Snapshot} {todo : List Str} {path : Str} (hpath : todo[pick]? = some path)
      (hlive : path ∉ s.live) (hkept : uncommitted V b s path = false) :
      Moves V b pick (.deletes s todo) b (.deleting s (todo.eraseIdx pick) path)
  | deleted {s : Snapshot} {todo : List Str} {path : Str} (hdeletes : canDelete V b path = true) :
      Moves V b pick (.deleting s todo path)
        {b with fs := (V.adapter.delete b.fs (V.vaultPathToFsPath path)).1} (.deleted s todo path)
  | undeleted {s : Snapshot} {todo : List Str} {path : Str}
      (hdeletes : canDelete V b path = false) : Moves V b pick (.deleting s todo path)
        {b with fs := (V.adapter.delete b.fs (V.vaultPathToFsPath path)).1} (.deletes s todo)
  | unmarked (s : Snapshot) (todo : List Str) (path : Str) :
      Moves V b pick (.deleted s todo path)
        {b with dirty := b.dirty.mark b.now path (txt "<deleted>")} (.deletes s todo)
  | writesEnd (s : Snapshot) : Moves V b pick (.writes s []) b (.pruning s)
  | failed {s : Snapshot} {todo : List Str} {path : Str} {m : FileMeta} {e : Error}
      (hpath : todo[pick]? = some path) (hm : s.live.lookup path = some m)
      (htarget : target V b m = .error e) : Moves V b pick (.writes s todo) b (.done (.error e))
  | nothing {s : Snapshot} {todo : List Str} {path : Str} {m : FileMeta}
      (hpath : todo[pick]? = some path) (hm : s.live.lookup path = some m)
      (htarget : target V b m = .ok none) :
      Moves V b pick (.writes s todo) b (.writes s (todo.eraseIdx pick))
  | same {s : Snapshot} {todo : List Str} {path hash : Str} {m : FileMeta} {bytes : Bytes}
      (hpath : todo[pick]? = some path) (hm : s.live.lookup path = some m)
      (htarget : target V b m = .ok (some (bytes, hash)))
      (hsame : s.existing.lookup path = some hash) :
      Moves V b pick (.writes s todo) b (.writes s (todo.eraseIdx pick))
  | reading {s : Snapshot} {todo : List Str} {path hash : Str} {m : FileMeta} {bytes : Bytes}
      (hpath : todo[pick]? = some path) (hm : s.live.lookup path = some m)
      (htarget : target V b m = .ok (some (bytes, hash)))
      (hsame : s.existing.lookup path ≠ some hash) :
      Moves V b pick (.writes s todo) b (.reading s (todo.eraseIdx pick) path bytes hash)
  | matched {s : Snapshot} {todo : List Str} {path hash : Str} {bytes : Bytes}
      (hdisk : onDisk V b path hash = true) :
      Moves V b pick (.reading s todo path bytes hash) b (.matched s todo path hash)
  | left {s : Snapshot} {todo : List Str} {path hash : Str} {bytes : Bytes}
      (hdisk : onDisk V b path hash = false) (hkept : uncommitted V b s path = true) :
      Moves V b pick (.reading s todo path bytes hash) b (.writes s todo)
  | marking {s : Snapshot} {todo : List Str} {path hash : Str} {bytes : Bytes}
      (hdisk : onDisk V b path hash = false) (hkept : uncommitted V b s path = false) :
      Moves V b pick (.reading s todo path bytes hash) b (.marking s todo path bytes hash)
  | recorded (s : Snapshot) (todo : List Str) (path hash : Str) :
      Moves V b pick (.matched s todo path hash)
        {b with materialized := b.materialized.insert path hash} (.writes s todo)
  | writing (s : Snapshot) (todo : List Str) (path : Str) (bytes : Bytes) (hash : Str) :
      Moves V b pick (.marking s todo path bytes hash)
        {b with dirty := b.dirty.mark b.now path hash} (.writing s todo path bytes hash)
  | written {s : Snapshot} {todo : List Str} {path hash : Str} {bytes : Bytes}
      (hwrites : canWrite V b path bytes = true) :
      Moves V b pick (.writing s todo path bytes hash)
        {b with fs := (V.adapter.write b.fs (V.vaultPathToFsPath path) bytes).1}
        (.written s todo path bytes hash)
  | unwritten {s : Snapshot} {todo : List Str} {path hash : Str} {bytes : Bytes}
      (hwrites : canWrite V b path bytes = false) :
      Moves V b pick (.writing s todo path bytes hash)
        {b with fs := (V.adapter.write b.fs (V.vaultPathToFsPath path) bytes).1} (.writes s todo)
  | rewritten (s : Snapshot) (todo : List Str) (path : Str) (bytes : Bytes) (hash : Str) :
      Moves V b pick (.written s todo path bytes hash)
        {b with materialized := b.materialized.insert path hash} (.writes s todo)
  | pruned (s : Snapshot) : Moves V b pick (.pruning s)
      {b with materialized := Hashes.retain b.materialized fun p => p ∈ s.live} (.pruned s)
  | sweeping (s : Snapshot) : Moves V b pick (.pruned s)
      {b with lastIngested := Hashes.retain b.lastIngested fun p => p ∈ s.live} (.sweeping s)
  | removing (s : Snapshot) : Moves V b pick (.sweeping s) b
      (.removing s (b.materializedDirs.filter fun p => p ∉ s.liveDirs))
  | removed {s : Snapshot} {dirs : List Str} {path : Str} (hpath : dirs[pick]? = some path)
      (hdeepest : (dirs.all fun p => depth p ≤ depth path) = true) :
      Moves V b pick (.removing s dirs) (removeDir V b path) (.removing s (dirs.eraseIdx pick))
  | done (s : Snapshot) : Moves V b pick (.removing s []) b (.done (.ok ()))

variable {V b} {pick : Nat} {b' : Bound σ} {q q' : Pass} {s : Snapshot} {todo : List Str}
  {path hash : Str} {bytes disk : Bytes}

theorem uncommitted_of_read (h : V.adapter.read b.fs (V.vaultPathToFsPath path) = .ok disk) :
    uncommitted V b s path = !isSafeToOverwrite (V.crates.sha.hash disk) (s.existing.lookup path)
      (s.lastIngested.lookup path) := by
  simp only [uncommitted, h]

theorem onDisk_of_read (h : V.adapter.read b.fs (V.vaultPathToFsPath path) = .ok disk) :
    onDisk V b path hash = decide (V.crates.sha.hash disk = hash) := by
  simp only [onDisk, h]

theorem delete_of_canDelete (h : canDelete V b path = true) :
    V.adapter.delete b.fs (V.vaultPathToFsPath path) =
      ((V.adapter.delete b.fs (V.vaultPathToFsPath path)).1, .ok ()) := by
  unfold canDelete at h
  split at h
  next hdelete => rw [hdelete]
  next => cases h

theorem write_of_canWrite (h : canWrite V b path bytes = true) :
    V.adapter.write b.fs (V.vaultPathToFsPath path) bytes =
      ((V.adapter.write b.fs (V.vaultPathToFsPath path) bytes).1, .ok ()) := by
  unfold canWrite at h
  split at h
  next hwrite => rw [hwrite]
  next => cases h

theorem canWrite_eq_true {fs : σ} {u : Unit}
    (h : V.adapter.write b.fs (V.vaultPathToFsPath path) bytes = (fs, .ok u)) :
    canWrite V b path bytes = true := by
  rw [canWrite, h]

theorem canWrite_eq_false {fs : σ} {e : Error}
    (h : V.adapter.write b.fs (V.vaultPathToFsPath path) bytes = (fs, .error e)) :
    canWrite V b path bytes = false := by
  rw [canWrite, h]

theorem delete_eq (V : Setting σ) (b : Bound σ) (s : Snapshot) (todo : List Str) (path : Str) :
    delete V b s todo path =
      if uncommitted V b s path then .deletes s todo else .deleting s todo path := by
  cases hread : V.adapter.read b.fs (V.vaultPathToFsPath path) with
  | ok disk =>
    simp only [delete, uncommitted_of_read hread, hread]
    cases isSafeToOverwrite (V.crates.sha.hash disk) (s.existing.lookup path)
      (s.lastIngested.lookup path) <;> rfl
  | error => simp [delete, uncommitted, hread]

theorem compare_eq (V : Setting σ) (b : Bound σ) (s : Snapshot) (todo : List Str) (path : Str)
    (bytes : Bytes) (hash : Str) : compare V b s todo path bytes hash =
      if onDisk V b path hash then .matched s todo path hash
      else if uncommitted V b s path then .writes s todo
      else .marking s todo path bytes hash := by
  cases hread : V.adapter.read b.fs (V.vaultPathToFsPath path) with
  | ok disk =>
    simp only [compare, uncommitted_of_read hread, onDisk_of_read hread, hread, decide_eq_true_eq]
    cases isSafeToOverwrite (V.crates.sha.hash disk) (s.existing.lookup path)
      (s.lastIngested.lookup path) <;> rfl
  | error => simp [compare, uncommitted, onDisk, hread]

/-- **Every step is one of these.** -/
theorem moves_of_step (h : step V b pick q = some (b', q')) : Moves V b pick q b' q' := by
  cases q with
  | listing =>
    simp only [step] at h
    split at h <;> obtain ⟨rfl, rfl⟩ := Prod.mk.inj (Option.some.inj h)
    next hlist => exact .listed hlist
    next hlist => exact .unlisted hlist
  | creating l dirs =>
    cases dirs with
    | nil =>
      obtain ⟨rfl, rfl⟩ := Prod.mk.inj (Option.some.inj h)
      exact .created l
    | cons path rest =>
      obtain ⟨rfl, rfl⟩ := Prod.mk.inj (Option.some.inj h)
      exact .creating l path rest
  | deletes s todo =>
    cases todo with
    | nil =>
      obtain ⟨rfl, rfl⟩ := Prod.mk.inj (Option.some.inj h)
      exact .deletesEnd s
    | cons first rest =>
      obtain ⟨path, hpath, h⟩ := Option.map_eq_some_iff.mp h
      split at h
      next hlive =>
        obtain ⟨rfl, rfl⟩ := Prod.mk.inj h
        exact .live hpath hlive
      next hlive =>
        obtain ⟨rfl, rfl⟩ := Prod.mk.inj h
        rw [delete_eq]
        split
        next hkept => exact .kept hpath hlive hkept
        next hkept => exact .deleting hpath hlive (Bool.eq_false_of_not_eq_true hkept)
  | deleting s todo path =>
    simp only [step] at h
    split at h <;> obtain ⟨rfl, rfl⟩ := Prod.mk.inj (Option.some.inj h)
    next hdelete =>
      have hmove : Moves V b pick (.deleting s todo path) _ (.deleted s todo path) :=
        .deleted (by rw [canDelete, hdelete])
      rwa [hdelete] at hmove
    next hdelete =>
      have hmove : Moves V b pick (.deleting s todo path) _ (.deletes s todo) :=
        .undeleted (by rw [canDelete, hdelete])
      rwa [hdelete] at hmove
  | writes s todo =>
    cases todo with
    | nil =>
      obtain ⟨rfl, rfl⟩ := Prod.mk.inj (Option.some.inj h)
      exact .writesEnd s
    | cons first rest =>
      obtain ⟨path, hpath, h⟩ := Option.bind_eq_some_iff.mp h
      obtain ⟨m, hm, h⟩ := Option.bind_eq_some_iff.mp h
      obtain ⟨rfl, rfl⟩ := Prod.mk.inj (Option.some.inj h)
      unfold write
      split
      next htarget => exact .failed hpath hm htarget
      next htarget => exact .nothing hpath hm htarget
      next htarget =>
        split
        next hsame => exact .same hpath hm htarget hsame
        next hsame => exact .reading hpath hm htarget hsame
  | reading s todo path bytes hash =>
    obtain ⟨rfl, rfl⟩ := Prod.mk.inj (Option.some.inj h)
    rw [compare_eq]
    split
    next hdisk => exact .matched hdisk
    next hdisk =>
      have hdisk := Bool.eq_false_of_not_eq_true hdisk
      split
      next hkept => exact .left hdisk hkept
      next hkept => exact .marking hdisk (Bool.eq_false_of_not_eq_true hkept)
  | writing s todo path bytes hash =>
    simp only [step] at h
    split at h <;> obtain ⟨rfl, rfl⟩ := Prod.mk.inj (Option.some.inj h)
    next hwrite =>
      have hmove : Moves V b pick (.writing s todo path bytes hash) _
          (.written s todo path bytes hash) := .written (canWrite_eq_true hwrite)
      rwa [hwrite] at hmove
    next hwrite =>
      have hmove : Moves V b pick (.writing s todo path bytes hash) _ (.writes s todo) :=
        .unwritten (canWrite_eq_false hwrite)
      rwa [hwrite] at hmove
  | removing s dirs =>
    cases dirs with
    | nil =>
      obtain ⟨rfl, rfl⟩ := Prod.mk.inj (Option.some.inj h)
      exact .done s
    | cons first rest =>
      obtain ⟨path, hpath, h⟩ := Option.bind_eq_some_iff.mp h
      split at h
      next hdeepest =>
        obtain ⟨rfl, rfl⟩ := Prod.mk.inj (Option.some.inj h)
        exact .removed hpath hdeepest
      next => cases h
  | done result => cases h
  | _ =>
    obtain ⟨rfl, rfl⟩ := Prod.mk.inj (Option.some.inj h)
    constructor

end Pass

end AgentSync
