import AgentSync.Doc.Replay
import AgentSync.Fs.Binding

/-! The adapter for a local disk.

`NodeFsAdapter` writes a file through a temporary one beside it, and takes a file that is not
there for deleted. -/
namespace AgentSync

/-- `Path::display`. -/
def PathBuf.display (p : PathBuf) : Str := if p = [] then ['/'] else p.flatMap fun c => '/' :: c

def temporaryName (name : Str) : Str := '.' :: name ++ txt ".agentsync-tmp"

theorem length_temporaryName (name : Str) : (temporaryName name).length = name.length + 15 := by
  have htext : (txt ".agentsync-tmp").length = 14 := by decide
  simp only [temporaryName, List.length_cons, List.length_append, htext]

theorem temporaryName_ne {name seg : Str} (h : seg.length ≤ 10) : temporaryName name ≠ seg := by
  rintro rfl
  rw [length_temporaryName] at h
  omega

theorem isName_temporaryName (name : Str) : IsName (temporaryName name) :=
  ⟨temporaryName_ne (by decide), temporaryName_ne (by decide), temporaryName_ne (by decide)⟩

namespace NodeFsAdapter

def read (d : Disk) (path : PathBuf) : Except Error Bytes :=
  match d.read path with
  | .ok bytes => .ok bytes
  | .error e => .error (.io e.text)

def write (d : Disk) (path : PathBuf) (content : Bytes) : Disk × Except Error Unit :=
  match d.createDirAll path.parent with
  | (d, .error e) => (d, .error (.io e.text))
  | (d, .ok _) =>
    match path.fileName with
    | none => (d, .error (.invalidPath path.display))
    | some name =>
      match d.write (path.parent ++ [temporaryName name]) content with
      | .error e => (d, .error (.io e.text))
      | .ok d =>
        match d.rename (path.parent ++ [temporaryName name]) path with
        | .error e => (d, .error (.io e.text))
        | .ok d => (d, .ok ())

def delete (d : Disk) (path : PathBuf) : Disk × Except Error Unit :=
  match d.removeFile path with
  | .ok d => (d, .ok ())
  | .error .notFound => (d, .ok ())
  | .error e => (d, .error (.io e.text))

def removeDir (d : Disk) (path : PathBuf) : Disk × Except IoError Unit :=
  match d.removeDir path with
  | .ok d => (d, .ok ())
  | .error e => (d, .error e)

/-! ### What a call makes of a file -/

variable {d : Disk} {path : PathBuf} {content : Bytes} {l : Location}

theorem bytesAt_of_read (h : read d path = .ok content) :
    d.bytesAt path.resolve = some content := by
  unfold read at h
  split at h
  next bytes hread =>
    obtain rfl := Except.ok.inj h
    exact Disk.bytesAt_of_read hread
  next => cases h

theorem bytesAt_delete (h : d.bytesAt l = none) : (delete d path).1.bytesAt l = none := by
  unfold delete
  split
  next d' hremove =>
    rw [Disk.bytesAt_removeFile hremove, h]
    exact ite_self none
  next => exact h
  next => exact h

theorem bytesAt_removeDir : (removeDir d path).1.bytesAt l = d.bytesAt l := by
  unfold removeDir
  split
  next d' hremove => exact Disk.bytesAt_removeDir hremove l
  next => rfl

/-- A write is of the file and of the temporary one beside it. -/
theorem bytesAt_write_of_ne (hne : path.resolve ≠ l)
    (htemp : ∀ name, PathBuf.resolve (path.parent ++ [temporaryName name]) ≠ l) :
    (write d path content).1.bytesAt l = d.bytesAt l := by
  have hmade := Disk.bytesAt_createDirAll (d := d) path.parent l
  unfold write
  split
  next hcreate =>
    rw [hcreate] at hmade
    exact hmade
  next d₁ _ hcreate =>
    rw [hcreate] at hmade
    split
    next => exact hmade
    next name _ =>
      split
      next => exact hmade
      next d₂ hwrite =>
        have hbeside : d₂.bytesAt l = d.bytesAt l := by
          rw [Disk.bytesAt_write hwrite, if_neg (Ne.symm (htemp name))]
          exact hmade
        split
        next => exact hbeside
        next d₃ hrename =>
          show d₃.bytesAt l = d.bytesAt l
          rw [Disk.bytesAt_rename hrename, if_neg (Ne.symm hne), if_neg (Ne.symm (htemp name))]
          exact hbeside

theorem bytesAt_write {d' : Disk} (h : write d path content = (d', .ok ())) :
    d'.bytesAt path.resolve = some content := by
  unfold write at h
  split at h
  next => cases h
  next =>
    split at h
    next => cases h
    next =>
      split at h
      next => cases h
      next hwrite =>
        split at h
        next => cases h
        next d₃ hrename =>
          obtain ⟨rfl, -⟩ := Prod.mk.inj h
          rw [Disk.bytesAt_rename hrename, if_pos rfl, Disk.bytesAt_write hwrite, if_pos rfl]

end NodeFsAdapter

/-- `NodeFsAdapter`, with the two calls that go past it. -/
def nodeFsAdapter : Filesystem Disk where
  read := NodeFsAdapter.read
  write := NodeFsAdapter.write
  delete := NodeFsAdapter.delete
  createDirAll := Disk.createDirAll
  removeDir := NodeFsAdapter.removeDir

/-! ### A vault to run -/

/-- The digests of `a`, of `b` and, for anything else, of the empty string. -/
def letterDigest : ContentHash where
  hash := fun b =>
    if b = utf8 ['a'] then
      txt "ca978112ca1bbdca" ++ txt "fac231b39a23dc4d" ++ txt "a786eff8147c4e72" ++
        txt "b9807785afee48bb"
    else if b = utf8 ['b'] then
      txt "3e23e8160039594a" ++ txt "33894f6564e1b134" ++ txt "8bbd7a0088d42c4a" ++
        txt "cb73eeaed59c009d"
    else emptyDigest.hash b
  length := fun b => by
    split
    next => rfl
    next =>
      split
      next => rfl
      next => exact emptyDigest.length b
  hex := fun b => by
    split
    next =>
      simp only [List.forall_mem_append]
      exact ⟨⟨⟨hex_of_all rfl, hex_of_all rfl⟩, hex_of_all rfl⟩, hex_of_all rfl⟩
    next =>
      split
      next =>
        simp only [List.forall_mem_append]
        exact ⟨⟨⟨hex_of_all rfl, hex_of_all rfl⟩, hex_of_all rfl⟩, hex_of_all rfl⟩
      next => exact emptyDigest.hex b

/-- `Crates.plain` with digests that tell the letters apart. -/
def Crates.letters : Crates := {Crates.plain with sha := letterDigest}

/-- A vault on a local disk. -/
def Setting.localDisk : Setting Disk where
  crates := .letters
  automerge := .plain
  blobStore := ⟨[txt "storage", txt "blobs"]⟩
  root := [txt "vault"]
  opts := ⟨[txt "md"], 10 * 1024 * 1024, 1024 * 1024⟩
  adapter := nodeFsAdapter

/-- The disk with the vault's directory on it, and nothing else. -/
def Disk.vaultDir : Disk := ⟨(∅ : AList fun _ : Location => Node).insert [txt "vault"] .dir⟩

/-- A binding as `Binding::new` makes it. -/
def Bound.fresh {σ : Type} (doc : Doc) (fs : σ) : Bound σ where
  doc := doc
  storage := ⟨∅⟩
  fs := fs
  now := 0
  dirty := []
  materialized := ∅
  lastIngested := ∅
  materializedDirs := []

end AgentSync
