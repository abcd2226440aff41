import AgentSync.Index
import AgentSync.Doc.Restore

/-! Live entries as tables.

What a document shows is two tables of live entries by id, `fileAt` and `dirAt`. In a
document whose entries can be read, lookups find what is in the tables, and each write of an
operation sets one entry of one table. -/
namespace AgentSync

variable {L : Crates} {A : Automerge} {r r' : Root}

namespace Root

/-- A live file, by its id. -/
def fileAt (L : Crates) (r : Root) (fid : Str) : Option LiveFile :=
  match r.readFileMeta L fid with
  | .ok (some m) => if m.deletedAt = none then some (r.liveFile m) else none
  | _ => none

/-- A live directory, by its id. -/
def dirAt (L : Crates) (r : Root) (did : Str) : Option LiveDirectory :=
  match r.readDirectoryMeta L did with
  | .ok (some m) => some ⟨m.id, m.path, m.createdAt⟩
  | _ => none

/-- The paths of live files. -/
abbrev filePaths (L : Crates) (r : Root) : Set Str := Index.keys LiveFile.path (r.fileAt L)

abbrev dirPaths (L : Crates) (r : Root) : Set Str := Index.keys LiveDirectory.path (r.dirAt L)

/-- Every entry can be read, and new ones can be put next to them. -/
structure Readable (L : Crates) (r : Root) : Prop where
  files : r.mapObj .files = .ok ()
  directories : r.mapObj .directories = .ok ()
  writable : ∀ m, r.writable L (.rootMap m) = .ok ()
  file : ∀ fid, ∃ entry, r.readFileMeta L fid = .ok entry
  directory : ∀ did, r.hasObject (.dir did) = true →
    (∃ p, r.getStr L (.dirField did .path) = .ok p) ∧
    (∃ n, r.getInt L (.dirField did .createdAt) = .ok n) ∧
    ∃ n, r.getInt L (.dirField did .deletedAt) = .ok n

theorem Ready.readable (h : r.Ready L) : r.Readable L where
  files := h.files
  directories := h.directories
  writable := fun _ => h.typed.writable rfl fun _ h => h
  file := fun fid => h.typed.readFileMeta h.complete h.files fid
  directory := fun did _ => by
    refine ⟨?_, h.typed.getInt rfl fun _ h => h, h.typed.getInt rfl fun _ h => h⟩
    have hpath := h.typed.getStr (L := L) (a := .dirField did .path) rfl fun v ⟨p, hp, _⟩ => ⟨p, hp⟩
    rcases hpath with ⟨-, hp⟩ | ⟨p, hp⟩
    · exact ⟨none, hp⟩
    · exact ⟨some p, hp⟩

/-! ### Entries -/

theorem fileAt_eq_some {fid : Str} {f : LiveFile} : r.fileAt L fid = some f ↔
    ∃ m, r.readFileMeta L fid = .ok (some m) ∧ m.deletedAt = none ∧ r.liveFile m = f := by
  unfold fileAt
  split
  next m hm =>
    split
    next hd => simp [hm, hd]
    next hd => simp [hm, hd]
  next hno =>
    constructor
    · intro h
      cases h
    · intro ⟨m, hm, _⟩
      exact absurd hm (hno m)

theorem fileAt_of_read {fid : Str} {m : FileMeta} (h : r.readFileMeta L fid = .ok (some m))
    (hlive : m.deletedAt = none) : r.fileAt L fid = some (r.liveFile m) :=
  fileAt_eq_some.mpr ⟨m, h, hlive, rfl⟩

theorem fileAt_id {fid : Str} {f : LiveFile} (h : r.fileAt L fid = some f) : f.id = fid := by
  obtain ⟨m, hm, -, rfl⟩ := fileAt_eq_some.mp h
  exact (readFileMeta_eq_some.mp hm).2.2.2.2.2.2.2.2.2.2

theorem fileAt_hasObject {fid : Str} {f : LiveFile} (h : r.fileAt L fid = some f) :
    r.hasObject (.file fid) = true := by
  obtain ⟨m, hm, -⟩ := fileAt_eq_some.mp h
  exact (readFileMeta_eq_some.mp hm).2.1

theorem fileAt_of_none {fid : Str} (h : r.get (.file fid) = none) : r.fileAt L fid = none := by
  by_contra hne
  obtain ⟨f, hf⟩ := Option.ne_none_iff_exists'.mp hne
  exact get_of_hasObject (fileAt_hasObject hf) h

theorem dirAt_eq_some {did : Str} {f : LiveDirectory} : r.dirAt L did = some f ↔
    ∃ m, r.readDirectoryMeta L did = .ok (some m) ∧ f = ⟨m.id, m.path, m.createdAt⟩ := by
  unfold dirAt
  split
  next m hm => simp [hm, eq_comm]
  next hno =>
    constructor
    · intro h
      cases h
    · intro ⟨m, hm, _⟩
      exact absurd hm (hno m)

theorem dirAt_id {did : Str} {f : LiveDirectory} (h : r.dirAt L did = some f) : f.id = did := by
  obtain ⟨m, hm, rfl⟩ := dirAt_eq_some.mp h
  exact (readDirectoryMeta_eq_some.mp hm).2.2.2.2.2

theorem dirAt_hasObject {did : Str} {f : LiveDirectory} (h : r.dirAt L did = some f) :
    r.hasObject (.dir did) = true := by
  obtain ⟨m, hm, -⟩ := dirAt_eq_some.mp h
  exact (readDirectoryMeta_eq_some.mp hm).1

theorem dirAt_of_none {did : Str} (h : r.get (.dir did) = none) : r.dirAt L did = none := by
  by_contra hne
  obtain ⟨f, hf⟩ := Option.ne_none_iff_exists'.mp hne
  exact get_of_hasObject (dirAt_hasObject hf) h

/-! ### Lookups -/

/-- The scan finds the first id in the table whose entry has the path. -/
theorem findFileIn_eq (h : r.Readable L) (p : Str) (fids : List Str) :
    r.findFileIn L p fids =
      .ok (fids.find? fun fid => (r.fileAt L fid).map LiveFile.path = some p) := by
  induction fids with
  | nil => rfl
  | cons fid rest ih =>
    obtain ⟨entry, hentry⟩ := h.file fid
    rw [findFileIn, List.find?_cons]
    cases entry with
    | none =>
      have hnone : r.fileAt L fid = none := by
        rw [fileAt, hentry]
      rcases readFileMeta_eq_none hentry with hfile | hmeta
      · simp [hfile, ih, hnone]
      · simp [hmeta, ih, hnone]
    | some m =>
      obtain ⟨_, hfile, hmeta, hpath, -, -, -, -, hdeleted, -⟩ := readFileMeta_eq_some.mp hentry
      simp only [hfile, hmeta, hdeleted, hpath, bind, Except.bind, Bool.not_true,
        Bool.false_eq_true, if_false, ih]
      cases hd : m.deletedAt with
      | some t =>
        have hnone : r.fileAt L fid = none := by
          rw [fileAt, hentry]
          exact if_neg (by simp [hd])
        simp [hnone]
      | none =>
        have hlive : (r.fileAt L fid).map LiveFile.path = some m.path := by
          rw [fileAt_of_read hentry hd]
          rfl
        by_cases hp : m.path = p
        · simp [hlive, hp, pure, Except.pure]
        · simp [hlive, hp]

/-- The entry of a directory, from its three fields. -/
theorem dirAt_of_fields {did : Str} {q : Option Str} {c n : Option Int}
    (hdir : r.hasObject (.dir did) = true) (hq : r.getStr L (.dirField did .path) = .ok q)
    (hc : r.getInt L (.dirField did .createdAt) = .ok c)
    (hn : r.getInt L (.dirField did .deletedAt) = .ok n) :
    r.dirAt L did = if n.isSome then none else q.map fun q => ⟨did, q, c.getD 0⟩ := by
  cases q <;> cases n <;>
    simp [dirAt, readDirectoryMeta, hdir, hq, hc, hn, bind, Except.bind, pure, Except.pure]

theorem findDirectoryIn_eq (h : r.Readable L) (p : Str) (dids : List Str) :
    r.findDirectoryIn L p dids =
      .ok (dids.find? fun did => (r.dirAt L did).map LiveDirectory.path = some p) := by
  induction dids with
  | nil => rfl
  | cons did rest ih =>
    rw [findDirectoryIn, List.find?_cons]
    by_cases hdir : r.hasObject (.dir did) = true
    · obtain ⟨⟨q, hq⟩, ⟨c, hc⟩, ⟨n, hn⟩⟩ := h.directory did hdir
      simp only [hdir, hn, hq, bind, Except.bind, Bool.not_true, Bool.false_eq_true, if_false, ih]
      have hentry := dirAt_of_fields hdir hq hc hn
      cases n with
      | some n => simp [hentry]
      | none =>
        have hpath : (r.dirAt L did).map LiveDirectory.path = q := by
          rw [hentry]
          cases q <;> rfl
        by_cases hp : q = some p
        · simp [hpath, hp, pure, Except.pure]
        · simp [hpath, hp]
    · have hnone : r.dirAt L did = none := by
        simp [dirAt, readDirectoryMeta, hdir, pure, Except.pure]
      simp [hdir, hnone, ih]

/-- A file lookup finds a live file at the path, or there is none. -/
theorem Readable.findFile (h : r.Readable L) (p : Str) :
    (∃ fid f, r.findFileByPathNormalized L p = .ok (some fid) ∧ r.fileAt L fid = some f ∧
      f.path = p) ∨ (r.findFileByPathNormalized L p = .ok none ∧ p ∉ r.filePaths L) := by
  have hfind : r.findFileByPathNormalized L p =
      .ok (r.fileKeys.find? fun fid => (r.fileAt L fid).map LiveFile.path = some p) := by
    simp [findFileByPathNormalized, h.files, findFileIn_eq h, bind, Except.bind]
  rw [hfind]
  cases hfirst : r.fileKeys.find? fun fid => (r.fileAt L fid).map LiveFile.path = some p with
  | some fid =>
    have hpath : (r.fileAt L fid).map LiveFile.path = some p := by
      simpa using List.find?_some hfirst
    obtain ⟨f, hf, hpath⟩ := Option.map_eq_some_iff.mp hpath
    exact .inl ⟨fid, f, rfl, hf, hpath⟩
  | none =>
    refine .inr ⟨rfl, ?_⟩
    rintro ⟨fid, f, hf, hpath⟩
    have hkey : fid ∈ r.fileKeys := by
      rw [mem_fileKeys, Option.isSome_iff_ne_none]
      exact get_of_hasObject (fileAt_hasObject hf)
    exact absurd (by simp [hf, hpath]) (List.find?_eq_none.mp hfirst fid hkey)

theorem Readable.findDirectory (h : r.Readable L) (p : Str) :
    (∃ did f, r.findDirectoryByPathNormalized L p = .ok (some did) ∧ r.dirAt L did = some f ∧
      f.path = p) ∨ (r.findDirectoryByPathNormalized L p = .ok none ∧ p ∉ r.dirPaths L) := by
  have hfind : r.findDirectoryByPathNormalized L p =
      .ok (r.dirKeys.find? fun did => (r.dirAt L did).map LiveDirectory.path = some p) := by
    simp [findDirectoryByPathNormalized, h.directories, findDirectoryIn_eq h, bind, Except.bind]
  rw [hfind]
  cases hfirst : r.dirKeys.find? fun did => (r.dirAt L did).map LiveDirectory.path = some p with
  | some did =>
    have hpath : (r.dirAt L did).map LiveDirectory.path = some p := by
      simpa using List.find?_some hfirst
    obtain ⟨f, hf, hpath⟩ := Option.map_eq_some_iff.mp hpath
    exact .inl ⟨did, f, rfl, hf, hpath⟩
  | none =>
    refine .inr ⟨rfl, ?_⟩
    rintro ⟨did, f, hf, hpath⟩
    have hkey : did ∈ r.dirKeys := by
      rw [mem_dirKeys, Option.isSome_iff_ne_none]
      exact get_of_hasObject (dirAt_hasObject hf)
    exact absurd (by simp [hf, hpath]) (List.find?_eq_none.mp hfirst did hkey)

/-! ### Writes to one entry -/

theorem fileAt_congr {fid : Str} (hmap : r.mapObj .files = r'.mapObj .files)
    (h : SameFile fid r r') : r.fileAt L fid = r'.fileAt L fid := by
  have hbody : Doc.pastText r fid = Doc.pastText r' fid := by
    simp only [Doc.pastText, readFileId, hmap, hasObject_congr (h (.file fid) rfl),
      getText_congr h]
  refine Option.ext fun f => ?_
  rw [fileAt_eq_some, fileAt_eq_some, readFileMeta_congr hmap h]
  refine exists_congr fun m => and_congr_right fun hm => ?_
  have hid := (readFileMeta_eq_some.mp hm).2.2.2.2.2.2.2.2.2.2
  rw [liveFile, liveFile, hid, hbody]

theorem dirAt_congr {did : Str} (h : SameDirectory did r r') : r.dirAt L did = r'.dirAt L did := by
  rw [dirAt, dirAt, readDirectoryMeta_congr h]

section Writes

variable {ops : List Op} {fid did : Str}

theorem get_rootMap_applyAll (hops : ∀ op ∈ ops, ∀ m, op.target ≠ .rootMap m) (m : RootMap) :
    (applyAll r ops).get (.rootMap m) = r.get (.rootMap m) :=
  get_applyAll_of_ne fun op hop => ⟨hops op hop m, by simp [Addr.ancestors]⟩

theorem ne_rootMap_of_fileId {a : Addr} (h : a.fileId = some fid) (m : RootMap) :
    a ≠ .rootMap m := by
  rintro rfl
  cases h

theorem ne_rootMap_of_dirId {a : Addr} (h : a.dirId = some did) (m : RootMap) :
    a ≠ .rootMap m := by
  rintro rfl
  cases h

/-- Writes to a file set its entry of the table. -/
theorem fileAt_applyAll (hops : ∀ op ∈ ops, op.target.fileId = some fid) :
    (applyAll r ops).fileAt L =
      Function.update (r.fileAt L) fid ((applyAll r ops).fileAt L fid) := by
  funext fid'
  by_cases hfid : fid' = fid
  · subst hfid
    rw [Function.update_self]
  · rw [Function.update_of_ne hfid]
    refine fileAt_congr (mapObj_congr ?_) (sameFile_applyAll fun op hop => ⟨?_, ?_⟩)
    · exact get_rootMap_applyAll (fun op hop => ne_rootMap_of_fileId (hops op hop)) _
    · rw [hops op hop]
      exact fun h => hfid (Option.some.inj h).symm
    · exact ne_rootMap_of_fileId (hops op hop) _

theorem dirId_of_fileId {a : Addr} (h : a.fileId = some fid) : a.dirId = none := by
  cases a <;> simp [Addr.fileId] at h <;> rfl

theorem fileId_of_dirId {a : Addr} (h : a.dirId = some did) : a.fileId = none := by
  cases a <;> simp [Addr.dirId] at h <;> rfl

theorem dirAt_applyAll_file (hops : ∀ op ∈ ops, op.target.fileId = some fid) :
    (applyAll r ops).dirAt L = r.dirAt L := by
  funext did
  refine dirAt_congr (sameDirectory_applyAll fun op hop => ⟨?_, ?_⟩)
  · rw [dirId_of_fileId (hops op hop)]
    simp
  · exact ne_rootMap_of_fileId (hops op hop) _

theorem dirAt_applyAll (hops : ∀ op ∈ ops, op.target.dirId = some did) :
    (applyAll r ops).dirAt L =
      Function.update (r.dirAt L) did ((applyAll r ops).dirAt L did) := by
  funext did'
  by_cases hdid : did' = did
  · subst hdid
    rw [Function.update_self]
  · rw [Function.update_of_ne hdid]
    refine dirAt_congr (sameDirectory_applyAll fun op hop => ⟨?_, ?_⟩)
    · rw [hops op hop]
      exact fun h => hdid (Option.some.inj h).symm
    · exact ne_rootMap_of_dirId (hops op hop) _

theorem fileAt_applyAll_directory (hops : ∀ op ∈ ops, op.target.dirId = some did) :
    (applyAll r ops).fileAt L = r.fileAt L := by
  funext fid
  refine fileAt_congr (mapObj_congr ?_) (sameFile_applyAll fun op hop => ⟨?_, ?_⟩)
  · exact get_rootMap_applyAll (fun op hop => ne_rootMap_of_dirId (hops op hop)) _
  · rw [fileId_of_dirId (hops op hop)]
    simp
  · exact ne_rootMap_of_dirId (hops op hop) _

theorem writable_congr {a : Addr} (h : r.get a = r'.get a) : r.writable L a = r'.writable L a := by
  rw [writable, writable, h]

/-- Writes to a file that can still be read leave every entry readable. -/
theorem Readable.file_written (h : r.Readable L) (hops : ∀ op ∈ ops, op.target.fileId = some fid)
    (hentry : ∃ entry, (applyAll r ops).readFileMeta L fid = .ok entry) :
    (applyAll r ops).Readable L := by
  have hmap := get_rootMap_applyAll (r := r) fun op hop => ne_rootMap_of_fileId (hops op hop)
  have hdir (did : Str) : SameDirectory did (applyAll r ops) r :=
    sameDirectory_applyAll fun op hop =>
      ⟨by rw [dirId_of_fileId (hops op hop)]; simp, ne_rootMap_of_fileId (hops op hop) _⟩
  refine ⟨?_, ?_, fun m => ?_, fun fid' => ?_, fun did hdid => ?_⟩
  · rw [mapObj_congr (hmap _), h.files]
  · rw [mapObj_congr (hmap _), h.directories]
  · rw [writable_congr (hmap m), h.writable]
  · by_cases hfid : fid' = fid
    · exact hfid ▸ hentry
    · have hsame : SameFile fid' (applyAll r ops) r := sameFile_applyAll fun op hop =>
        ⟨by rw [hops op hop]; exact fun h => hfid (Option.some.inj h).symm,
          ne_rootMap_of_fileId (hops op hop) _⟩
      rw [readFileMeta_congr (mapObj_congr (hmap _)) hsame]
      exact h.file fid'
  · rw [hasObject_congr (hdir did (.dir did) rfl)] at hdid
    simp only [getStr_congr (hdir did (.dirField did _) rfl),
      getInt_congr (hdir did (.dirField did _) rfl)]
    exact h.directory did hdid

theorem Readable.directory_written (h : r.Readable L)
    (hops : ∀ op ∈ ops, op.target.dirId = some did)
    (hentry : (∃ p, (applyAll r ops).getStr L (.dirField did .path) = .ok p) ∧
      (∃ n, (applyAll r ops).getInt L (.dirField did .createdAt) = .ok n) ∧
      ∃ n, (applyAll r ops).getInt L (.dirField did .deletedAt) = .ok n) :
    (applyAll r ops).Readable L := by
  have hmap := get_rootMap_applyAll (r := r) fun op hop => ne_rootMap_of_dirId (hops op hop)
  refine ⟨?_, ?_, fun m => ?_, fun fid => ?_, fun did' hdid' => ?_⟩
  · rw [mapObj_congr (hmap _), h.files]
  · rw [mapObj_congr (hmap _), h.directories]
  · rw [writable_congr (hmap m), h.writable]
  · have hsame : SameFile fid (applyAll r ops) r := sameFile_applyAll fun op hop =>
      ⟨by rw [fileId_of_dirId (hops op hop)]; simp, ne_rootMap_of_dirId (hops op hop) _⟩
    rw [readFileMeta_congr (mapObj_congr (hmap _)) hsame]
    exact h.file fid
  · by_cases hdid : did' = did
    · exact hdid ▸ hentry
    · have hsame : SameDirectory did' (applyAll r ops) r := sameDirectory_applyAll fun op hop =>
        ⟨by rw [hops op hop]; exact fun h => hdid (Option.some.inj h).symm,
          ne_rootMap_of_dirId (hops op hop) _⟩
      rw [hasObject_congr (hsame (.dir did') rfl)] at hdid'
      simp only [getStr_congr (hsame (.dirField did' _) rfl),
        getInt_congr (hsame (.dirField did' _) rfl)]
      exact h.directory did' hdid'

end Writes

end Root

end AgentSync
