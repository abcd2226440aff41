import AgentSync.Doc.Entries

/-! What each file operation makes of the tables.

In a document whose entries can be read an operation either refuses its arguments and
leaves the document as it is, or sets one entry of the table of files, adds the
directories above a path that are missing and closes its transaction (`Becomes`). -/
namespace AgentSync

variable {L : Crates} {A : Automerge} {fid did p : Str}

namespace Doc

variable {d d' d'' : Doc}

/-! ### Ids to be drawn -/

/-- The ids that are still to be drawn name nothing yet, and each is drawn once. -/
structure Fresh (d : Doc) : Prop where
  file : ∀ n, d.draws ≤ n → d.root.get (.file (d.supply.id n)) = none
  dir : ∀ n, d.draws ≤ n → d.root.get (.dir (d.supply.id n)) = none
  once : ∀ m n, d.draws ≤ m → d.draws ≤ n → d.supply.id m = d.supply.id n → m = n

namespace Fresh

theorem draw (h : d.Fresh) {n : Nat} (hn : d.draws ≤ n) : {d with draws := n}.Fresh where
  file := fun m hm => h.file m (hn.trans hm)
  dir := fun m hm => h.dir m (hn.trans hm)
  once := fun l m hl hm => h.once l m (hn.trans hl) (hn.trans hm)

theorem committed (h : d.Fresh) (time : Int) : (d.committed time).Fresh := by
  unfold Doc.committed
  split
  next => exact h
  next => exact ⟨fun n hn => h.file n (Nat.le_of_succ_le hn), fun n hn => h.dir n (Nat.le_of_succ_le hn),
    fun m n hm hn => h.once m n (Nat.le_of_succ_le hm) (Nat.le_of_succ_le hn)⟩

/-- An id that is drawn is not drawn again. -/
theorem ne_drawn (h : d.Fresh) {n : Nat} (hn : d.draws + 1 ≤ n) :
    d.supply.id n ≠ d.supply.id d.draws := by
  intro heq
  have := h.once n d.draws (by omega) (Nat.le_refl _) heq
  omega

theorem ne_file (h : d.Fresh) (hfid : d.root.get (.file fid) ≠ none) {n : Nat} (hn : d.draws ≤ n) :
    d.supply.id n ≠ fid := by
  rintro rfl
  exact hfid (h.file n hn)

theorem ne_dir (h : d.Fresh) (hdid : d.root.get (.dir did) ≠ none) {n : Nat} (hn : d.draws ≤ n) :
    d.supply.id n ≠ did := by
  rintro rfl
  exact hdid (h.dir n hn)

theorem file_written (h : d.Fresh) {ops : List Op} (hops : ∀ op ∈ ops, op.target.fileId = some fid)
    (hfid : ∀ n, d.draws ≤ n → d.supply.id n ≠ fid) : (d.emitted ops).Fresh where
  file := fun n hn => by
    have hsame : Root.SameFile (d.supply.id n) (applyAll d.root ops) d.root :=
      Root.sameFile_applyAll fun op hop =>
        ⟨by rw [hops op hop]; exact fun h => hfid n hn (Option.some.inj h).symm,
          Root.ne_rootMap_of_fileId (hops op hop) _⟩
    exact (hsame _ rfl).trans (h.file n hn)
  dir := fun n hn => by
    have hsame : Root.SameDirectory (d.supply.id n) (applyAll d.root ops) d.root :=
      Root.sameDirectory_applyAll fun op hop =>
        ⟨by rw [Root.dirId_of_fileId (hops op hop)]; simp,
          Root.ne_rootMap_of_fileId (hops op hop) _⟩
    exact (hsame _ rfl).trans (h.dir n hn)
  once := h.once

theorem directory_written (h : d.Fresh) {ops : List Op}
    (hops : ∀ op ∈ ops, op.target.dirId = some did)
    (hdid : ∀ n, d.draws ≤ n → d.supply.id n ≠ did) : (d.emitted ops).Fresh where
  file := fun n hn => by
    have hsame : Root.SameFile (d.supply.id n) (applyAll d.root ops) d.root :=
      Root.sameFile_applyAll fun op hop =>
        ⟨by rw [Root.fileId_of_dirId (hops op hop)]; simp,
          Root.ne_rootMap_of_dirId (hops op hop) _⟩
    exact (hsame _ rfl).trans (h.file n hn)
  dir := fun n hn => by
    have hsame : Root.SameDirectory (d.supply.id n) (applyAll d.root ops) d.root :=
      Root.sameDirectory_applyAll fun op hop =>
        ⟨by rw [hops op hop]; exact fun h => hdid n hn (Option.some.inj h).symm,
          Root.ne_rootMap_of_dirId (hops op hop) _⟩
    exact (hsame _ rfl).trans (h.dir n hn)
  once := h.once

end Fresh

theorem get_new_file (vaultId : Str) (supply : Supply) (fid : Str) :
    (Doc.new A vaultId supply).root.get (.file fid) = none := by
  simp [Doc.new, genesisOps, footprint, Op.apply, Addr.ancestors]

theorem get_new_dir (vaultId : Str) (supply : Supply) (did : Str) :
    (Doc.new A vaultId supply).root.get (.dir did) = none := by
  simp [Doc.new, genesisOps, footprint, Op.apply, Addr.ancestors]

theorem Fresh.new (vaultId : Str) {supply : Supply} (hids : Function.Injective supply.id) :
    (Doc.new A vaultId supply).Fresh :=
  ⟨fun _ _ => get_new_file .., fun _ _ => get_new_dir .., fun _ _ _ _ h => hids h⟩

/-! ### Drafts -/

/-- The open transaction has set the files to `files` and added directories at `paths`. -/
structure Draft (L : Crates) (d d' : Doc) (files : Str → Option LiveFile)
    (dirs : Str → Option LiveDirectory) (paths : List Str) : Prop where
  readable : d'.root.Readable L
  fresh : d'.Fresh
  files : d'.root.fileAt L = files
  dirs : Index.Extends LiveDirectory.path dirs (d'.root.dirAt L) paths
  changes : d'.changes = d.changes
  supply : d'.supply = d.supply
  draws : d.draws ≤ d'.draws

/-- The operation has done so and closed its transaction. -/
structure Becomes (L : Crates) (d d' : Doc) (files : Str → Option LiveFile)
    (dirs : Str → Option LiveDirectory) (paths : List Str) : Prop where
  readable : d'.root.Readable L
  fresh : d'.Fresh
  files : d'.root.fileAt L = files
  dirs : Index.Extends LiveDirectory.path dirs (d'.root.dirAt L) paths
  changes : d'.changes = d.changes ∨
    ∃ c, c.deps = headsOf d.changes ∧ d'.changes = d.changes ++ [c]
  supply : d'.supply = d.supply
  draws : d.draws ≤ d'.draws
  closed : d'.pending = []

theorem Draft.trans {files : Str → Option LiveFile} {dirs : Str → Option LiveDirectory}
    {paths paths' : List Str} (h : Draft L d d' files dirs paths)
    (h' : Draft L d' d'' (d'.root.fileAt L) (d'.root.dirAt L) paths') :
    Draft L d d'' files dirs (paths ++ paths') :=
  ⟨h'.readable, h'.fresh, h'.files.trans h.files, h.dirs.trans h'.dirs, h'.changes.trans h.changes,
    h'.supply.trans h.supply, h.draws.trans h'.draws⟩

/-- A draw before it is no part of a draft. -/
theorem Draft.undraw {files : Str → Option LiveFile} {dirs : Str → Option LiveDirectory}
    {paths : List Str} {n : Nat} (hn : d.draws ≤ n)
    (h : Draft L {d with draws := n} d' files dirs paths) : Draft L d d' files dirs paths :=
  ⟨h.readable, h.fresh, h.files, h.dirs, h.changes, h.supply, hn.trans h.draws⟩

/-- Closing the transaction. -/
theorem Draft.commit {files : Str → Option LiveFile} {dirs : Str → Option LiveDirectory}
    {paths : List Str} (h : Draft L d d' files dirs paths) :
    Ends commitNow d' fun _ d'' => Becomes L d d'' files dirs paths := by
  refine .commitNow ⟨?_, (h.fresh.draw (Nat.le_succ _)).committed _, ?_, ?_, ?_, ?_, ?_, ?_⟩
  · rw [committed_root]
    exact h.readable
  · rw [committed_root]
    exact h.files
  · rw [committed_root]
    exact h.dirs
  · rw [← h.changes]
    unfold committed
    split
    · exact .inl rfl
    · exact .inr ⟨_, rfl, rfl⟩
  · rw [← h.supply]
    unfold committed
    split <;> rfl
  · refine h.draws.trans ?_
    unfold committed
    split
    · exact Nat.le_succ _
    · exact Nat.le_add_right _ 2
  · exact committed_pending _ _

theorem Draft.start (h : d.root.Readable L) (hf : d.Fresh) {n : Nat} (hn : d.draws ≤ n) :
    Draft L d {d with draws := n} (d.root.fileAt L) (d.root.dirAt L) [] :=
  ⟨h, hf.draw hn, rfl, .refl (by simp), rfl, rfl, hn⟩

/-- Writes to one file, which can be read afterwards. -/
theorem Draft.file (h : d.root.Readable L) (hf : d.Fresh) {ops : List Op}
    (hops : ∀ op ∈ ops, op.target.fileId = some fid)
    (hentry : ∃ entry, (applyAll d.root ops).readFileMeta L fid = .ok entry)
    (hfid : ∀ n, d.draws ≤ n → d.supply.id n ≠ fid) :
    Draft L d (d.emitted ops)
      (Function.update (d.root.fileAt L) fid ((applyAll d.root ops).fileAt L fid))
      (d.root.dirAt L) [] where
  readable := h.file_written hops hentry
  fresh := hf.file_written hops hfid
  files := Root.fileAt_applyAll hops
  dirs := by
    rw [emitted_root, Root.dirAt_applyAll_file hops]
    exact .refl (by simp)
  changes := rfl
  supply := rfl
  draws := Nat.le_refl _

/-! ### Directories -/

/-- A new directory, with the next id, at a path that has none. -/
theorem Draft.newDirectory (h : d.root.Readable L) (hf : d.Fresh) (hp : p ∉ d.root.dirPaths L)
    (now : Int) {n : Nat} (hn : d.draws + 1 ≤ n) :
    Draft L d ({d with draws := n}.emitted (newDirectoryOps (d.supply.id d.draws) p now))
      (d.root.fileAt L) (d.root.dirAt L) [p] := by
  have hnone : d.root.get (.dir (d.supply.id d.draws)) = none := hf.dir _ (Nat.le_refl _)
  have hentry := dirAt_newDirectory (L := L) d.root (d.supply.id d.draws) p now
  have hops (op : Op) (hop : op ∈ newDirectoryOps (d.supply.id d.draws) p now) :=
    dirId_newDirectoryOps hop
  refine ⟨?_, ?_, Root.fileAt_applyAll_directory hops, ?_, rfl, rfl, Nat.le_of_succ_le hn⟩
  · refine h.directory_written hops ?_
    obtain ⟨m, hm, -⟩ := Root.dirAt_eq_some.mp hentry
    obtain ⟨-, hpath, ⟨c, hc, -⟩, hdeleted, -⟩ := Root.readDirectoryMeta_eq_some.mp hm
    exact ⟨⟨_, hpath⟩, ⟨_, hc⟩, ⟨_, hdeleted⟩⟩
  · exact (hf.draw (Nat.le_of_succ_le hn)).directory_written hops
      fun m hm => hf.ne_drawn (hn.trans hm)
  · rw [emitted_root, Root.dirAt_applyAll hops, hentry]
    exact .add (Root.dirAt_of_none hnone) hp

theorem ensureDirectory_ends (h : d.root.Readable L) (hf : d.Fresh) (now : Int) (p : Str) :
    Ends (ensureDirectory L now p) d fun _ d' =>
      Draft L d d' (d.root.fileAt L) (d.root.dirAt L) [p] := by
  unfold ensureDirectory
  rcases h.findDirectory p with ⟨did, f, hfind, hdid, rfl⟩ | ⟨hfind, hp⟩
  · refine .bind (.read hfind (.pure ⟨h, hf, rfl, .refl ?_, rfl, rfl, Nat.le_refl _⟩))
    rw [List.forall_mem_singleton]
    exact Index.mem_keys_of hdid
  · refine .bind (.read hfind (.bind (.read h.directories (.bind (.newId ?_)))))
    exact .bind (.read (h.writable _) (.emit (.newDirectory h hf hp now (Nat.le_refl _))))

theorem ensureDirectories_ends (now : Int) (paths : List Str) (h : d.root.Readable L)
    (hf : d.Fresh) : Ends (paths.forM (ensureDirectory L now)) d fun _ d' =>
      Draft L d d' (d.root.fileAt L) (d.root.dirAt L) paths := by
  induction paths generalizing d with
  | nil => exact .pure (.start h hf (Nat.le_refl _))
  | cons p rest ih =>
    refine .bind ((ensureDirectory_ends h hf now p).weaken fun _ d' hd' => ?_)
    exact (ih hd'.readable hd'.fresh).weaken fun _ d'' hd'' => hd'.trans hd''

/-- The ancestors that are missing become directories. -/
theorem ensureAncestorDirectories_ends (h : d.root.Readable L) (hf : d.Fresh) (p : Str) :
    Ends (ensureAncestorDirectories L p) d fun _ d' =>
      Draft L d d' (d.root.fileAt L) (d.root.dirAt L) (Path.ancestors p) := by
  refine .bind (.nowMs ?_)
  refine (ensureDirectories_ends _ (Path.ancestors p) (d := {d with draws := d.draws + 1}) h
    (hf.draw (Nat.le_succ _))).weaken fun _ d' hd' => ?_
  exact (Draft.start h hf (Nat.le_succ _)).trans hd'

/-! ### The operations -/

section Operations

variable (h : d.root.Readable L) (hf : d.Fresh)
include h hf

/-- A path that is a directory stays as it is, any other becomes one with its ancestors. -/
theorem createDirectory_outcome {path : Str} (hp : Path.normalize L.nfc path = .ok p) :
    (∃ did, createDirectory L path d = .ok did d ∧ p ∈ d.root.dirPaths L) ∨
      (p ∉ d.root.dirPaths L ∧ Ends (createDirectory L path) d fun _ d' =>
        Becomes L d d' (d.root.fileAt L) (d.root.dirAt L) (p :: Path.ancestors p)) := by
  rcases h.findDirectory p with ⟨did, f, hfind, hdid, rfl⟩ | ⟨hfind, hnone⟩
  · refine .inl ⟨did, ?_, Index.mem_keys_of hdid⟩
    obtain ⟨_, _, hrun, rfl, rfl⟩ : Ends (createDirectory L path) d fun a d' => a = did ∧ d' = d :=
      .bind (.lift hp (.bind (.read hfind (.pure ⟨rfl, rfl⟩))))
    exact hrun
  · refine .inr ⟨hnone, .bind (.lift hp (.bind (.read hfind (.bind (.read h.directories ?_)))))⟩
    refine .bind (.newId (.bind (.read (h.writable _) (.bind (.nowMs (.bind (.emit ?_)))))))
    have hnew := Draft.newDirectory (L := L) h hf hnone (d.supply.now (d.draws + 1))
      (n := d.draws + 2) (by omega)
    refine .bind ((ensureAncestorDirectories_ends hnew.readable hnew.fresh p).weaken
      fun _ d' hd' => ?_)
    exact .bind ((hnew.trans hd').commit.weaken fun _ d'' hd'' => .pure hd'')

/-- What `write_text_file` and `write_attachment` do: set the kind, the size and the body of
the file at the path, or make one there. -/
def Wrote (L : Crates) (x : DocM Str) (d : Doc) (p : Str) (kind : FileKind) (size : Int)
    (body : Body) : Prop :=
  (∃ fid f, d.root.fileAt L fid = some f ∧ f.path = p ∧ Ends x d fun _ d' =>
    Becomes L d d' (Function.update (d.root.fileAt L) fid (some { f with kind, size, body }))
      (d.root.dirAt L) []) ∨
  (p ∉ d.root.filePaths L ∧ Ends x d fun fid d' => d.root.fileAt L fid = none ∧ ∃ now,
    Becomes L d d' (Function.update (d.root.fileAt L) fid (some ⟨fid, p, kind, size, now, body⟩))
      (d.root.dirAt L) (Path.ancestors p))

/-- An entry that was found is written. -/
theorem Draft.found {f : LiveFile} (hfid : d.root.fileAt L fid = some f) {ops : List Op}
    {f' : LiveFile} (hops : ∀ op ∈ ops, op.target.fileId = some fid)
    (hf' : (applyAll d.root ops).fileAt L fid = some f') {n : Nat} (hn : d.draws ≤ n) :
    Draft L d ({d with draws := n}.emitted ops)
      (Function.update (d.root.fileAt L) fid (some f')) (d.root.dirAt L) [] := by
  obtain ⟨m, hm, -⟩ := Root.fileAt_eq_some.mp hf'
  have hdraft := Draft.file (d := {d with draws := n}) h (hf.draw hn) hops ⟨_, hm⟩ fun k hk =>
    hf.ne_file (Root.get_of_hasObject (Root.fileAt_hasObject hfid)) (hn.trans hk)
  rw [← hf']
  exact hdraft.undraw hn

/-- A new entry is written, with the next id. -/
theorem Draft.newFile {ops : List Op} {f' : LiveFile}
    (hops : ∀ op ∈ ops, op.target.fileId = some (d.supply.id d.draws))
    (hf' : (applyAll d.root ops).fileAt L (d.supply.id d.draws) = some f') {n : Nat}
    (hn : d.draws + 1 ≤ n) :
    Draft L d ({d with draws := n}.emitted ops)
      (Function.update (d.root.fileAt L) (d.supply.id d.draws) (some f')) (d.root.dirAt L) [] := by
  obtain ⟨m, hm, -⟩ := Root.fileAt_eq_some.mp hf'
  have hdraft := Draft.file (d := {d with draws := n}) h (hf.draw (Nat.le_of_succ_le hn)) hops
    ⟨_, hm⟩ fun k hk => hf.ne_drawn (hn.trans hk)
  rw [← hf']
  exact hdraft.undraw (Nat.le_of_succ_le hn)

theorem writeTextFile_outcome {path : Str} (hp : Path.normalize L.nfc path = .ok p)
    (content : Str) :
    Wrote L (writeTextFile L path content) d p .text (utf8 content).length (.text content) := by
  rcases h.findFile p with ⟨fid, f, hfind, hfid, rfl⟩ | ⟨hfind, hnone⟩
  · refine .inl ⟨fid, f, hfid, rfl, .bind (.lift hp (.bind (.nowMs (.bind (.read hfind ?_)))))⟩
    refine .bind (.ask (.bind (.emit ?_)))
    have hdraft := Draft.found h hf hfid
      (fun op (hop : op ∈ setTextOps fid content (d.root.getText fid) ++
        textFields fid (utf8 content).length (d.supply.now d.draws)) => fileId_of_mem_textWritten hop)
      (by rw [applyAll_append]; exact fileAt_textWritten hfid content (d.supply.now d.draws))
      (Nat.le_succ _)
    exact .bind (hdraft.commit.weaken fun _ d' hd' => .pure hd')
  · refine .inr ⟨hnone, .bind (.lift hp (.bind (.nowMs (.bind (.read hfind ?_)))))⟩
    refine .bind (.read h.files (.bind (.newId (.bind (.read (h.writable _) (.bind (.emit ?_)))))))
    have hf₁ := hf.draw (Nat.le_succ _)
    have hdraft := Draft.newFile (d := {d with draws := d.draws + 1}) h hf₁
      (fun op hop => (List.mem_append.mp hop).elim fileId_newFileOps fileId_textOps)
      (fileAt_newText (p := p) h.files content (utf8 content).length (d.supply.now d.draws))
      (Nat.le_refl _)
    refine .bind ((ensureAncestorDirectories_ends hdraft.readable hdraft.fresh p).weaken
      fun _ d' hd' => ?_)
    have hall := (hdraft.trans hd').undraw (Nat.le_succ _)
    refine .bind (hall.commit.weaken fun _ d'' hd'' => ?_)
    exact .pure ⟨Root.fileAt_of_none (hf₁.file _ (Nat.le_refl _)), _, hd''⟩

theorem writeAttachment_outcome {path : Str} (hp : Path.normalize L.nfc path = .ok p)
    (hash : Str) (size : Int) :
    Wrote L (writeAttachment L path hash size) d p .attachment size (.attachment (some hash)) := by
  rcases h.findFile p with ⟨fid, f, hfind, hfid, rfl⟩ | ⟨hfind, hnone⟩
  · refine .inl ⟨fid, f, hfid, rfl, .bind (.lift hp (.bind (.nowMs (.bind (.read hfind ?_)))))⟩
    refine .bind (.emit ?_)
    have hdraft := Draft.found h hf hfid
      (by simp [attachmentFields, Op.target, Addr.fileId])
      (fileAt_attachmentWritten hfid hash size (d.supply.now d.draws)) (Nat.le_succ _)
    exact .bind (hdraft.commit.weaken fun _ d' hd' => .pure hd')
  · refine .inr ⟨hnone, .bind (.lift hp (.bind (.nowMs (.bind (.read hfind ?_)))))⟩
    refine .bind (.read h.files (.bind (.newId (.bind (.read (h.writable _) (.bind (.emit ?_)))))))
    have hf₁ := hf.draw (Nat.le_succ _)
    have hops (op : Op) (hop : op ∈ newFileOps (d.supply.id (d.draws + 1)) p .attachment size
        (d.supply.now d.draws) ++ [.put (.binaryHash (d.supply.id (d.draws + 1))) (.str hash)]) :
        op.target.fileId = some (d.supply.id (d.draws + 1)) := by
      rcases List.mem_append.mp hop with hop | hop
      · exact fileId_newFileOps hop
      · obtain rfl := List.mem_singleton.mp hop
        rfl
    have hdraft := Draft.newFile (d := {d with draws := d.draws + 1}) h hf₁ hops
      (fileAt_newAttachment (p := p) h.files hash size (d.supply.now d.draws)) (Nat.le_refl _)
    refine .bind ((ensureAncestorDirectories_ends hdraft.readable hdraft.fresh p).weaken
      fun _ d' hd' => ?_)
    have hall := (hdraft.trans hd').undraw (Nat.le_succ _)
    refine .bind (hall.commit.weaken fun _ d'' hd'' => ?_)
    exact .pure ⟨Root.fileAt_of_none (hf₁.file _ (Nat.le_refl _)), _, hd''⟩

theorem deleteFile_outcome {path : Str} (hp : Path.normalize L.nfc path = .ok p) :
    (∃ fid f, d.root.fileAt L fid = some f ∧ f.path = p ∧ Ends (deleteFile L path) d fun _ d' =>
      Becomes L d d' (Function.update (d.root.fileAt L) fid none) (d.root.dirAt L) []) ∨
    (p ∉ d.root.filePaths L ∧ deleteFile L path d = .error (.notFound p) d) := by
  rcases h.findFile p with ⟨fid, f, hfind, hfid, rfl⟩ | ⟨hfind, hnone⟩
  · refine .inl ⟨fid, f, hfid, rfl, .bind (.lift hp (.bind (.read hfind (.bind (.nowMs ?_)))))⟩
    refine .bind (.emit ?_)
    obtain ⟨m, hm, -⟩ := Root.fileAt_eq_some.mp hfid
    obtain ⟨hread, hdead⟩ := fileAt_deleted hm (d.supply.now d.draws)
    have hops : ∀ op ∈ [Op.put (.fileField fid .deletedAt) (.int (d.supply.now d.draws))],
        op.target.fileId = some fid := by simp [Op.target, Addr.fileId]
    have hdraft := Draft.file (d := {d with draws := d.draws + 1}) h (hf.draw (Nat.le_succ _))
      hops ⟨_, hread⟩ fun n hn =>
        hf.ne_file (Root.get_of_hasObject (Root.fileAt_hasObject hfid)) (Nat.le_of_succ_le hn)
    rw [hdead] at hdraft
    exact (hdraft.undraw (Nat.le_succ _)).commit
  · refine .inr ⟨hnone, ?_⟩
    have hread : Doc.read (Root.findFileByPathNormalized L · p) d = .ok none d := by
      rw [Doc.read, hfind]
    have hlift : Doc.lift (Path.normalize L.nfc path) d = .ok p d := by
      rw [Doc.lift, Doc.read, hp]
    simp only [deleteFile, bind, EStateM.bind, hlift, hread]
    rfl

/-- A rename to the same path does nothing; any other needs a file and a free path. -/
theorem renameFile_outcome {src dst p q : Str} (hp : Path.normalize L.nfc src = .ok p)
    (hq : Path.normalize L.nfc dst = .ok q) :
    (p = q ∧ renameFile L src dst d = .ok () d) ∨
    (p ≠ q ∧ (p ∉ d.root.filePaths L ∨ q ∈ d.root.filePaths L) ∧
      ∃ e, renameFile L src dst d = .error e d) ∨
    (p ≠ q ∧ q ∉ d.root.filePaths L ∧ ∃ fid f, d.root.fileAt L fid = some f ∧ f.path = p ∧
      Ends (renameFile L src dst) d fun _ d' =>
        Becomes L d d' (Function.update (d.root.fileAt L) fid (some { f with path := q }))
          (d.root.dirAt L) (Path.ancestors q)) := by
  have hlift : Doc.lift (Path.normalize L.nfc src) d = .ok p d := by
    rw [Doc.lift, Doc.read, hp]
  have hlift' : Doc.lift (Path.normalize L.nfc dst) d = .ok q d := by
    rw [Doc.lift, Doc.read, hq]
  by_cases hpq : p = q
  · refine .inl ⟨hpq, ?_⟩
    simp only [renameFile, bind, EStateM.bind, hlift, hlift', hpq, if_true]
    rfl
  · refine .inr ?_
    rcases h.findFile p with ⟨fid, f, hfind, hfid, hpath⟩ | ⟨hfind, hnone⟩
    · have hread : Doc.read (Root.findFileByPathNormalized L · p) d = .ok (some fid) d := by
        rw [Doc.read, hfind]
      rcases h.findFile q with ⟨fid', f', hfind', hfid', rfl⟩ | ⟨hfind', hfree⟩
      · have hread' : Doc.read (Root.findFileByPathNormalized L · f'.path) d = .ok (some fid') d := by
          rw [Doc.read, hfind']
        refine .inl ⟨hpq, .inr (Index.mem_keys_of hfid'), .alreadyExists f'.path, ?_⟩
        simp only [renameFile, bind, EStateM.bind, hlift, hlift', hpq, if_false, hread, hread']
        rfl
      · refine .inr ⟨hpq, hfree, fid, f, hfid, hpath, .bind (.lift hp (.bind (.lift hq ?_)))⟩
        rw [if_neg hpq]
        refine .bind (.read hfind (.bind (.read hfind' (.bind (.nowMs (.bind (.emit ?_)))))))
        have hdraft := Draft.found h hf hfid (by simp [movedFields, Op.target, Addr.fileId])
          (fileAt_moved hfid q (d.supply.now d.draws)) (Nat.le_succ _)
        exact .bind ((ensureAncestorDirectories_ends hdraft.readable hdraft.fresh q).weaken
          fun _ d' hd' => (hdraft.trans hd').commit)
    · have hread : Doc.read (Root.findFileByPathNormalized L · p) d = .ok none d := by
        rw [Doc.read, hfind]
      refine .inl ⟨hpq, .inl hnone, .notFound p, ?_⟩
      simp only [renameFile, bind, EStateM.bind, hlift, hlift', hpq, if_false, hread]
      rfl

end Operations

end Doc

end AgentSync
