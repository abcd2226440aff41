import AgentSync.Fs.Adapter
import AgentSync.Fs.Materialize

/-! What a step of a pass does to a local disk.

A step makes one call to the file system or none (`Pass.fsCall`), and leaves the document and the
blobs as they are. So what a pass makes of the disk is told by its calls alone. -/
namespace AgentSync

/-- A call of a pass to the file system. -/
inductive FsCall where
  | createDirAll (path : PathBuf)
  | delete (path : PathBuf)
  | write (path : PathBuf) (bytes : Bytes)
  | removeDir (path : PathBuf)

/-- What the call makes of the disk, whether it fails or not. -/
def FsCall.run (d : Disk) : FsCall → Disk
  | .createDirAll path => (d.createDirAll path).1
  | .delete path => (NodeFsAdapter.delete d path).1
  | .write path bytes => (NodeFsAdapter.write d path bytes).1
  | .removeDir path => (NodeFsAdapter.removeDir d path).1

/-- What the call writes, creates or removes, whether or not it comes to that. -/
inductive FsCall.Touches (d : Disk) : FsCall → Location → Prop where
  | created {path : PathBuf} {l : Location} (h : (d.createDirAll path).1.node l ≠ d.node l) :
      Touches d (.createDirAll path) l
  | deleted (path : PathBuf) : Touches d (.delete path) path.resolve
  | parent {path : PathBuf} {l : Location} (bytes : Bytes)
      (h : (d.createDirAll path.parent).1.node l ≠ d.node l) : Touches d (.write path bytes) l
  | temporary {path : PathBuf} {name : Str} (bytes : Bytes) (h : path.fileName = some name) :
      Touches d (.write path bytes) (PathBuf.resolve (path.parent ++ [temporaryName name]))
  | written (path : PathBuf) (bytes : Bytes) : Touches d (.write path bytes) path.resolve
  | removed (path : PathBuf) : Touches d (.removeDir path) path.resolve

namespace FsCall

variable {d : Disk} {path : PathBuf} {bytes : Bytes} {l : Location}

theorem node_write (h : ¬ (write path bytes).Touches d l) :
    (NodeFsAdapter.write d path bytes).1.node l = d.node l := by
  have hparent : (d.createDirAll path.parent).1.node l = d.node l :=
    not_not.mp fun hne => h (.parent bytes hne)
  have hpath : l ≠ path.resolve := fun heq => h (heq ▸ .written path bytes)
  unfold NodeFsAdapter.write
  split
  next hcreate =>
    rw [hcreate] at hparent
    exact hparent
  next d₁ _ hcreate =>
    rw [hcreate] at hparent
    split
    next => exact hparent
    next name hname =>
      have htemp : l ≠ PathBuf.resolve (path.parent ++ [temporaryName name]) :=
        fun heq => h (heq ▸ .temporary bytes hname)
      split
      next => exact hparent
      next d₂ hwrite =>
        have hbeside := (Disk.node_of_write hwrite htemp).trans hparent
        split
        next => exact hbeside
        next d₃ hrename => exact (Disk.node_of_rename hrename htemp hpath).trans hbeside

/-- **A call changes nothing but what it touches.** -/
theorem node_run {c : FsCall} (h : ¬ c.Touches d l) : (c.run d).node l = d.node l := by
  cases c with
  | createDirAll path => exact not_not.mp fun hne => h (.created hne)
  | write path bytes => exact node_write h
  | delete path =>
    have hpath : l ≠ path.resolve := fun heq => h (heq ▸ .deleted path)
    simp only [run, NodeFsAdapter.delete]
    split
    next hremove => exact Disk.node_of_removeFile hremove hpath
    next => rfl
    next => rfl
  | removeDir path =>
    have hpath : l ≠ path.resolve := fun heq => h (heq ▸ .removed path)
    simp only [run, NodeFsAdapter.removeDir]
    split
    next hremove => exact Disk.node_of_removeDir hremove hpath
    next => rfl

end FsCall

namespace Pass

/-- The call of the step at a place. -/
def fsCall (V : Setting Disk) (pick : Nat) : Pass → Option FsCall
  | .creating _ (path :: _) => some (.createDirAll (V.vaultPathToFsPath path))
  | .deleting _ _ path => some (.delete (V.vaultPathToFsPath path))
  | .writing _ _ path bytes _ => some (.write (V.vaultPathToFsPath path) bytes)
  | .removing _ dirs => dirs[pick]?.map fun path => .removeDir (V.vaultPathToFsPath path)
  | _ => none

/-- A step leaves the document and the blobs, and of the disk what its call leaves. -/
structure Frame (V : Setting Disk) (pick : Nat) (i : Pass) (b b' : Bound Disk) : Prop where
  doc : b'.doc = b.doc
  storage : b'.storage = b.storage
  fs : b'.fs = (i.fsCall V pick).elim b.fs (FsCall.run b.fs)

variable {V : Setting Disk} {b b' : Bound Disk} {i i' : Pass} {pick : Nat} {path : Str}

theorem createDir_fs (hV : V.adapter = nodeFsAdapter) : (createDir V b path).doc = b.doc ∧
    (createDir V b path).storage = b.storage ∧
    (createDir V b path).fs = FsCall.run b.fs (.createDirAll (V.vaultPathToFsPath path)) := by
  simp only [createDir, hV, nodeFsAdapter, FsCall.run]
  split <;> next heq => exact ⟨rfl, rfl, (congrArg Prod.fst heq).symm⟩

theorem removeDir_fs (hV : V.adapter = nodeFsAdapter) : (removeDir V b path).doc = b.doc ∧
    (removeDir V b path).storage = b.storage ∧
    (removeDir V b path).fs = FsCall.run b.fs (.removeDir (V.vaultPathToFsPath path)) := by
  simp only [removeDir, hV, nodeFsAdapter, FsCall.run]
  split <;> next heq => exact ⟨rfl, rfl, (congrArg Prod.fst heq).symm⟩

/-- **The frame of every step.** -/
theorem frame_of_step (hV : V.adapter = nodeFsAdapter) (h : step V b pick i = some (b', i')) :
    Frame V pick i b b' := by
  cases moves_of_step h with
  | creating l path rest =>
    obtain ⟨hdoc, hstorage, hfs⟩ := createDir_fs hV
    exact ⟨hdoc, hstorage, hfs⟩
  | deleted hdeletes | undeleted hdeletes | written hwrites | unwritten hwrites =>
    exact ⟨rfl, rfl, by rw [hV]; rfl⟩
  | removed hpath hdeepest =>
    obtain ⟨hdoc, hstorage, hfs⟩ := removeDir_fs hV
    refine ⟨hdoc, hstorage, ?_⟩
    rw [fsCall, hpath]
    exact hfs
  | _ => exact ⟨rfl, rfl, rfl⟩

end Pass

end AgentSync
