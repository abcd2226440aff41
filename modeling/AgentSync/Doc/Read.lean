import AgentSync.Doc.Schema

/-! Looking entries up.

A file or directory is live when its `deleted_at` is unset, and its path is a field of
it, so finding one by path is a scan of the map in key order. What the scan finds is the
first live entry at the path (`findFileIn_eq_ok`). -/
namespace AgentSync

/-! ### Metadata -/

inductive FileKind where
  | text
  | attachment
  deriving DecidableEq, Repr

namespace FileKind

def asStr : FileKind → Str
  | text => txt "text"
  | attachment => txt "attachment"

def parse (s : Str) : Except Error FileKind :=
  if s = txt "text" then .ok text
  else if s = txt "attachment" then .ok attachment
  else .error (.other (txt "unknown file kind: " ++ s))

@[simp] theorem parse_asStr (k : FileKind) : parse k.asStr = .ok k := by
  cases k <;> decide

@[simp] theorem asStr_inj {k k' : FileKind} : k.asStr = k'.asStr ↔ k = k' := by
  cases k <;> cases k' <;> decide

theorem parse_eq_ok {s : Str} {k : FileKind} : parse s = .ok k ↔ s = k.asStr := by
  refine ⟨fun h => ?_, fun h => h ▸ parse_asStr k⟩
  unfold parse at h
  split at h
  next hs =>
    obtain rfl := Except.ok.inj h
    exact hs
  next =>
    split at h
    next hs =>
      obtain rfl := Except.ok.inj h
      exact hs
    next => cases h

end FileKind

structure FileMeta where
  id : Str
  path : Str
  kind : FileKind
  size : Int
  createdAt : Int
  updatedAt : Int
  deletedAt : Option Int
  binaryHash : Option Str
  deriving DecidableEq, Repr

structure DirectoryMeta where
  id : Str
  path : Str
  createdAt : Int
  deletedAt : Option Int
  deriving DecidableEq, Repr

/-- The UTF-8 encoding of a string. -/
def utf8 (s : Str) : Bytes := s.flatMap String.utf8EncodeChar

namespace Root

variable (L : Crates) (r : Root)

/-! ### Files -/

/-- The scan of `find_file_by_path_normalized` over the keys that are left. -/
def findFileIn (path : Str) : List Str → Except Error (Option Str)
  | [] => .ok none
  | fid :: rest =>
    if !r.hasObject (.file fid) then findFileIn path rest
    else if !r.hasObject (.fileMeta fid) then findFileIn path rest
    else do
      if (← r.getInt L (.fileField fid .deletedAt)).isSome then findFileIn path rest
      else if (← r.getStr L (.fileField fid .path)) = some path then return some fid
      else findFileIn path rest

def findFileByPathNormalized (path : Str) : Except Error (Option Str) := do
  r.mapObj .files
  r.findFileIn L path r.fileKeys

def findFileByPath (path : Str) : Except Error (Option Str) := do
  let path ← Path.normalize L.nfc path
  r.findFileByPathNormalized L path

def fileExists (path : Str) : Bool :=
  match r.findFileByPath L path with
  | .ok (some _) => true
  | _ => false

def readFile (path : Str) : Except Error Str := do
  let path ← Path.normalize L.nfc path
  match ← r.findFileByPathNormalized L path with
  | none => .error (.notFound path)
  | some fid =>
    if !r.hasObject (.file fid) then .error (.other (txt "file entry vanished: " ++ fid))
    else
      match r.getText fid with
      | some text => return text
      | none => .error (.other (txt "file is not a text file: " ++ path))

def fileHash (path : Str) : Except Error Str := do
  let path ← Path.normalize L.nfc path
  match ← r.findFileByPathNormalized L path with
  | none => .error (.notFound path)
  | some fid =>
    if !r.hasObject (.file fid) then .error (.other (txt "file entry vanished: " ++ fid))
    else if !r.hasObject (.fileMeta fid) then .error (.other (txt "file meta missing"))
    else do
      let bodyHash ← match ← r.getStr L (.fileField fid .kind) with
        | some kind => do
          if (← FileKind.parse kind) = .attachment then r.getStr L (.binaryHash fid) else pure none
        | none => pure none
      match bodyHash, r.getText fid with
      | some h, _ => return h
      | none, some text => return L.sha.hash (utf8 text)
      | none, none => .error (.other (txt "cannot hash file: " ++ path))

def readFileMeta (fid : Str) : Except Error (Option FileMeta) := do
  r.mapObj .files
  if !r.hasObject (.file fid) then return none
  else if !r.hasObject (.fileMeta fid) then return none
  else
    match ← r.getStr L (.fileField fid .path) with
    | none => .error (.other (txt "file " ++ fid ++ txt " missing path"))
    | some path =>
      match ← r.getStr L (.fileField fid .kind) with
      | none => .error (.other (txt "file " ++ fid ++ txt " missing kind"))
      | some kind => do
        let kind ← FileKind.parse kind
        let size := (← r.getInt L (.fileField fid .size)).getD 0
        let createdAt := (← r.getInt L (.fileField fid .createdAt)).getD 0
        let updatedAt := (← r.getInt L (.fileField fid .updatedAt)).getD createdAt
        let deletedAt ← r.getInt L (.fileField fid .deletedAt)
        let binaryHash ← r.getStr L (.binaryHash fid)
        return some {id := fid, path, kind, size, createdAt, updatedAt, deletedAt, binaryHash}

/-- The live entries of `list_files` in key order. -/
def liveFilesIn : List Str → Except Error (List FileMeta)
  | [] => .ok []
  | fid :: rest => do
    let entry ← r.readFileMeta L fid
    let metas ← liveFilesIn rest
    match entry with
    | some m => return if m.deletedAt.isNone then m :: metas else metas
    | none => return metas

def listFiles : Except Error (List FileMeta) := do
  r.mapObj .files
  let metas ← r.liveFilesIn L r.fileKeys
  return metas.insertionSort fun a b => a.path ≤ b.path

def listFilePaths : Except Error (List Str) := do
  let metas ← r.listFiles L
  return metas.map FileMeta.path

/-- `read_file_id`. -/
def readFileId (fid : Str) : Except Error (Option Str) := do
  r.mapObj .files
  if !r.hasObject (.file fid) then return none
  else return r.getText fid

/-! ### Directories -/

/-- The scan of `find_directory_by_path_normalized` over the keys that are left. -/
def findDirectoryIn (path : Str) : List Str → Except Error (Option Str)
  | [] => .ok none
  | did :: rest =>
    if !r.hasObject (.dir did) then findDirectoryIn path rest
    else do
      if (← r.getInt L (.dirField did .deletedAt)).isSome then findDirectoryIn path rest
      else if (← r.getStr L (.dirField did .path)) = some path then return some did
      else findDirectoryIn path rest

def findDirectoryByPathNormalized (path : Str) : Except Error (Option Str) := do
  r.mapObj .directories
  r.findDirectoryIn L path r.dirKeys

def findDirectoryByPath (path : Str) : Except Error (Option Str) := do
  let path ← Path.normalize L.nfc path
  r.findDirectoryByPathNormalized L path

/-- One entry of `list_directories`, if it has a path and is live. -/
def readDirectoryMeta (did : Str) : Except Error (Option DirectoryMeta) := do
  if !r.hasObject (.dir did) then return none
  else
    match ← r.getStr L (.dirField did .path) with
    | none => return none
    | some path => do
      let createdAt := (← r.getInt L (.dirField did .createdAt)).getD 0
      let deletedAt ← r.getInt L (.dirField did .deletedAt)
      return if deletedAt.isSome then none else some {id := did, path, createdAt, deletedAt}

/-- The live entries of `list_directories` in key order. -/
def liveDirectoriesIn : List Str → Except Error (List DirectoryMeta)
  | [] => .ok []
  | did :: rest => do
    let entry ← r.readDirectoryMeta L did
    let metas ← liveDirectoriesIn rest
    return entry.toList ++ metas

def listDirectories : Except Error (List DirectoryMeta) := do
  r.mapObj .directories
  let metas ← r.liveDirectoriesIn L r.dirKeys
  return metas.insertionSort fun a b => a.path ≤ b.path

/-! ### What the scans find -/

variable {L r}

theorem hasObject_of_get {a : Addr} {v : Val} (h : r.get a = some v) (hv : v.isObject = true) :
    r.hasObject a = true := by
  rw [hasObject, h]
  exact hv

theorem get_of_hasObject {a : Addr} (h : r.hasObject a = true) : r.get a ≠ none := by
  intro hnone
  rw [hasObject, hnone] at h
  cases h

theorem getStr_of_get {a : Addr} {s : Str} (h : r.get a = some (.scalar (.str s))) :
    r.getStr L a = .ok (some s) := by
  rw [getStr, h]

theorem getStr_eq_some {a : Addr} {s : Str} :
    r.getStr L a = .ok (some s) ↔ r.get a = some (.scalar (.str s)) := by
  refine ⟨fun h => ?_, getStr_of_get⟩
  unfold getStr at h
  split at h
  next s' hs => rw [hs, Option.some.inj (Except.ok.inj h)]
  next => cases h
  next => cases h
  next => cases h

theorem getInt_of_get {a : Addr} {n : Int} (h : r.get a = some (.scalar (.int n))) :
    r.getInt L a = .ok (some n) := by
  rw [getInt, h]

theorem getInt_of_none {a : Addr} (h : r.get a = none) : r.getInt L a = .ok none := by
  rw [getInt, h]

/-- The entry that is read, register by register. -/
theorem readFileMeta_eq_some {fid : Str} {m : FileMeta} :
    r.readFileMeta L fid = .ok (some m) ↔
      r.mapObj .files = .ok () ∧ r.hasObject (.file fid) = true ∧
      r.hasObject (.fileMeta fid) = true ∧
      r.getStr L (.fileField fid .path) = .ok (some m.path) ∧
      (∃ k, r.getStr L (.fileField fid .kind) = .ok (some k) ∧ FileKind.parse k = .ok m.kind) ∧
      (∃ size, r.getInt L (.fileField fid .size) = .ok size ∧ m.size = size.getD 0) ∧
      (∃ at_, r.getInt L (.fileField fid .createdAt) = .ok at_ ∧ m.createdAt = at_.getD 0) ∧
      (∃ at_, r.getInt L (.fileField fid .updatedAt) = .ok at_ ∧
        m.updatedAt = at_.getD m.createdAt) ∧
      r.getInt L (.fileField fid .deletedAt) = .ok m.deletedAt ∧
      r.getStr L (.binaryHash fid) = .ok m.binaryHash ∧ m.id = fid := by
  unfold readFileMeta
  rw [bind_eq_ok]
  constructor
  · intro ⟨_, hmap, h⟩
    refine ⟨hmap, ?_⟩
    split at h
    next => simp [pure, Except.pure] at h
    next hfile =>
      split at h
      next => simp [pure, Except.pure] at h
      next hmeta =>
        obtain ⟨path, hpath, h⟩ := bind_eq_ok.mp h
        cases path with
        | none => cases h
        | some path =>
          obtain ⟨kind, hkind, h⟩ := bind_eq_ok.mp h
          cases kind with
          | none => cases h
          | some kind =>
            simp only [bind_eq_ok, pure, Except.pure, Except.ok.injEq, Option.some.injEq] at h
            obtain ⟨k, hk, size, hsize, c, hc, u, hu, d, hd, b, hb, rfl⟩ := h
            exact ⟨by simpa using hfile, by simpa using hmeta, hpath, ⟨kind, hkind, hk⟩,
              ⟨size, hsize, rfl⟩, ⟨c, hc, rfl⟩, ⟨u, hu, rfl⟩, hd, hb, rfl⟩
  · intro ⟨hmap, hfile, hmeta, hpath, ⟨kind, hkind, hk⟩, ⟨size, hsize, hs⟩, ⟨c, hc, hcreated⟩,
      ⟨u, hu, hupdated⟩, hd, hb, hid⟩
    refine ⟨(), hmap, ?_⟩
    simp only [hfile, hmeta, hpath, hkind, hk, hsize, hc, hu, hd, hb, bind, Except.bind, pure,
      Except.pure]
    cases m
    simp_all

/-- An entry that is skipped lacks one of its maps. -/
theorem readFileMeta_eq_none {fid : Str} (h : r.readFileMeta L fid = .ok none) :
    r.hasObject (.file fid) = false ∨ r.hasObject (.fileMeta fid) = false := by
  obtain ⟨_, -, h⟩ := bind_eq_ok.mp h
  split at h
  next hfile => exact .inl (by simpa using hfile)
  next =>
    split at h
    next hmeta => exact .inr (by simpa using hmeta)
    next =>
      obtain ⟨path, -, h⟩ := bind_eq_ok.mp h
      cases path with
      | none => cases h
      | some path =>
        obtain ⟨kind, -, h⟩ := bind_eq_ok.mp h
        cases kind with
        | none => cases h
        | some kind => simp [bind_eq_ok, pure, Except.pure] at h

/-- **The scan finds the first live entry at the path.** -/
theorem findFileIn_eq_ok {fids : List Str} {metas : List FileMeta} (path : Str)
    (h : r.liveFilesIn L fids = .ok metas) :
    r.findFileIn L path fids =
      .ok ((metas.find? fun m => m.path = path).map FileMeta.id) := by
  induction fids generalizing metas with
  | nil =>
    obtain rfl := Except.ok.inj h
    rfl
  | cons fid rest ih =>
    obtain ⟨entry, hentry, h⟩ := bind_eq_ok.mp h
    obtain ⟨metas', hmetas', h⟩ := bind_eq_ok.mp h
    have hrest := ih hmetas'
    unfold findFileIn
    cases entry with
    | none =>
      obtain rfl := Except.ok.inj h
      obtain hfile | hmeta := readFileMeta_eq_none hentry
      · simp [hfile, hrest]
      · simp [hmeta, hrest]
    | some m =>
      obtain ⟨_, hfile, hmeta, hpath, -, -, -, -, hdeleted, -, hid⟩ :=
        readFileMeta_eq_some.mp hentry
      obtain rfl := Except.ok.inj h
      simp only [hfile, hmeta, hdeleted, hpath, bind, Except.bind, Bool.not_true,
        Bool.false_eq_true, if_false, hrest]
      cases hd : m.deletedAt with
      | some t => simp
      | none =>
        by_cases hp : m.path = path
        · simp [hp, hid, pure, Except.pure]
        · simp [hp]

theorem mem_liveFilesIn {fids : List Str} {metas : List FileMeta}
    (h : r.liveFilesIn L fids = .ok metas) {m : FileMeta} :
    m ∈ metas ↔ m.id ∈ fids ∧ r.readFileMeta L m.id = .ok (some m) ∧ m.deletedAt = none := by
  induction fids generalizing metas with
  | nil =>
    obtain rfl := Except.ok.inj h
    simp
  | cons fid rest ih =>
    obtain ⟨entry, hentry, h⟩ := bind_eq_ok.mp h
    obtain ⟨metas', hmetas', h⟩ := bind_eq_ok.mp h
    have hrest := ih hmetas'
    cases entry with
    | none =>
      obtain rfl := Except.ok.inj h
      rw [hrest, List.mem_cons]
      refine ⟨fun h => ⟨.inr h.1, h.2⟩, fun h => ⟨h.1.resolve_left fun hid => ?_, h.2⟩⟩
      rw [hid, hentry] at h
      cases h.2.1
    | some m' =>
      have hid : m'.id = fid := (readFileMeta_eq_some.mp hentry).2.2.2.2.2.2.2.2.2.2
      have hmem : m ∈ metas ↔ (m = m' ∧ m'.deletedAt = none) ∨ m ∈ metas' := by
        obtain rfl := Except.ok.inj h
        cases m'.deletedAt <;> simp
      rw [hmem, hrest, List.mem_cons]
      constructor
      · rintro (⟨rfl, hd⟩ | h)
        · exact ⟨.inl hid, hid ▸ hentry, hd⟩
        · exact ⟨.inr h.1, h.2⟩
      · rintro ⟨rfl | hin, hread, hd⟩
        · rw [hentry] at hread
          obtain rfl := Option.some.inj (Except.ok.inj hread)
          exact .inl ⟨rfl, hd⟩
        · exact .inr ⟨hin, hread, hd⟩

/-- Listed entries come in the order of their ids. -/
theorem ids_liveFilesIn {fids : List Str} {metas : List FileMeta}
    (h : r.liveFilesIn L fids = .ok metas) : (metas.map FileMeta.id).Sublist fids := by
  induction fids generalizing metas with
  | nil =>
    obtain rfl := Except.ok.inj h
    exact .slnil
  | cons fid rest ih =>
    obtain ⟨entry, hentry, h⟩ := bind_eq_ok.mp h
    obtain ⟨metas', hmetas', h⟩ := bind_eq_ok.mp h
    cases entry with
    | none =>
      obtain rfl := Except.ok.inj h
      exact (ih hmetas').cons fid
    | some m =>
      have hid : m.id = fid := (readFileMeta_eq_some.mp hentry).2.2.2.2.2.2.2.2.2.2
      obtain rfl := Except.ok.inj h
      split
      · rw [List.map_cons, hid]
        exact (ih hmetas').cons_cons fid
      · exact (ih hmetas').cons fid

theorem liveFilesIn_sorted {metas : List FileMeta} (h : r.liveFilesIn L r.fileKeys = .ok metas) :
    metas.Pairwise fun a b => a.id < b.id := by
  have hkeys : r.fileKeys.Pairwise (· < ·) := by
    have hle : r.fileKeys.Pairwise (· ≤ ·) := List.pairwise_insertionSort _ _
    exact (hle.and nodup_fileKeys).imp fun h => (le_iff_lt_or_eq.mp h.1).resolve_right h.2
  exact List.pairwise_map.mp (hkeys.sublist (ids_liveFilesIn h))

theorem listFiles_eq_ok {files : List FileMeta} : r.listFiles L = .ok files ↔
    r.mapObj .files = .ok () ∧ ∃ metas, r.liveFilesIn L r.fileKeys = .ok metas ∧
      files = metas.insertionSort fun a b => a.path ≤ b.path := by
  simp only [listFiles, bind_eq_ok, pure, Except.pure, Except.ok.injEq, eq_comm (b := files)]
  exact ⟨fun ⟨_, h⟩ => h, fun h => ⟨(), h⟩⟩

/-- A listed file is one whose entry reads as live. -/
theorem mem_listFiles {files : List FileMeta} (h : r.listFiles L = .ok files) {m : FileMeta} :
    m ∈ files ↔ r.readFileMeta L m.id = .ok (some m) ∧ m.deletedAt = none := by
  obtain ⟨-, metas, hmetas, rfl⟩ := listFiles_eq_ok.mp h
  rw [List.mem_insertionSort, mem_liveFilesIn hmetas]
  refine ⟨fun h => h.2, fun h => ⟨?_, h⟩⟩
  rw [mem_fileKeys, Option.isSome_iff_ne_none]
  exact get_of_hasObject (readFileMeta_eq_some.mp h.1).2.1

theorem findFileByPathNormalized_eq {metas : List FileMeta} (hmap : r.mapObj .files = .ok ())
    (h : r.liveFilesIn L r.fileKeys = .ok metas) (path : Str) :
    r.findFileByPathNormalized L path =
      .ok ((metas.find? fun m => m.path = path).map FileMeta.id) := by
  simp [findFileByPathNormalized, hmap, findFileIn_eq_ok path h, bind, Except.bind]

/-- The first of the live entries at a path is the one with the least id. -/
theorem findFile_eq_some {files : List FileMeta} (hfiles : r.listFiles L = .ok files)
    {path fid : Str} : r.findFileByPathNormalized L path = .ok (some fid) ↔
      ∃ m ∈ files, m.path = path ∧ m.id = fid ∧ ∀ m' ∈ files, m'.path = path → fid ≤ m'.id := by
  obtain ⟨hmap, metas, hmetas, rfl⟩ := listFiles_eq_ok.mp hfiles
  have hfind := findFileByPathNormalized_eq hmap hmetas path
  simp only [List.mem_insertionSort]
  rw [hfind, Except.ok.injEq, Option.map_eq_some_iff]
  constructor
  · rintro ⟨m, hm, rfl⟩
    obtain ⟨hpath, before, after, heq, hbefore⟩ := List.find?_eq_some_iff_append.mp hm
    refine ⟨m, by simp [heq], by simpa using hpath, rfl, fun m' hm' hpath' => ?_⟩
    have hsorted := liveFilesIn_sorted hmetas
    rw [heq] at hm' hsorted
    obtain hm' | hm' := List.mem_append.mp hm'
    · exact absurd hpath' (by simpa using hbefore m' hm')
    · obtain rfl | hm' := List.mem_cons.mp hm'
      · exact le_refl _
      · exact le_of_lt
          ((List.pairwise_cons.mp (List.pairwise_append.mp hsorted).2.1).1 m' hm')
  · rintro ⟨m, hm, hpath, rfl, hleast⟩
    cases hfirst : metas.find? fun m => m.path = path with
    | none => exact absurd hpath (by simpa using List.find?_eq_none.mp hfirst m hm)
    | some m' =>
      have hm' := List.mem_of_find?_eq_some hfirst
      have hpath' : m'.path = path := by simpa using List.find?_some hfirst
      refine ⟨m', rfl, ?_⟩
      by_contra hne
      have hlt : m.id < m'.id :=
        (le_iff_lt_or_eq.mp (hleast m' hm' hpath')).resolve_right (Ne.symm hne)
      obtain ⟨-, before, after, heq, hbefore⟩ := List.find?_eq_some_iff_append.mp hfirst
      have hsorted := liveFilesIn_sorted hmetas
      rw [heq] at hm hsorted
      obtain hm | hm := List.mem_append.mp hm
      · exact absurd hpath (by simpa using hbefore m hm)
      · obtain rfl | hm := List.mem_cons.mp hm
        · exact hne rfl
        · exact not_lt.mpr (le_of_lt hlt)
            ((List.pairwise_cons.mp (List.pairwise_append.mp hsorted).2.1).1 m hm)

theorem nodup_listFiles {files : List FileMeta} (h : r.listFiles L = .ok files) :
    (files.map FileMeta.id).Nodup := by
  obtain ⟨-, metas, hmetas, rfl⟩ := listFiles_eq_ok.mp h
  exact (((List.perm_insertionSort _ metas).map _).nodup_iff).mpr
    (nodup_fileKeys.sublist (ids_liveFilesIn hmetas))

/-- Files are listed when every entry can be read. -/
theorem exists_liveFilesIn (fids : List Str)
    (h : ∀ fid ∈ fids, ∃ entry, r.readFileMeta L fid = .ok entry) :
    ∃ metas, r.liveFilesIn L fids = .ok metas := by
  induction fids with
  | nil => exact ⟨[], rfl⟩
  | cons fid rest ih =>
    obtain ⟨entry, hentry⟩ := h fid List.mem_cons_self
    obtain ⟨metas, hmetas⟩ := ih fun fid' hfid' => h fid' (List.mem_cons_of_mem _ hfid')
    cases entry with
    | none => exact ⟨metas, by simp [liveFilesIn, hentry, hmetas, bind, Except.bind, pure, Except.pure]⟩
    | some m => exact ⟨_, by simp [liveFilesIn, hentry, hmetas, bind, Except.bind, pure, Except.pure]; rfl⟩

/-- The directory that is read, register by register. -/
theorem readDirectoryMeta_eq_some {did : Str} {m : DirectoryMeta} :
    r.readDirectoryMeta L did = .ok (some m) ↔
      r.hasObject (.dir did) = true ∧ r.getStr L (.dirField did .path) = .ok (some m.path) ∧
      (∃ at_, r.getInt L (.dirField did .createdAt) = .ok at_ ∧ m.createdAt = at_.getD 0) ∧
      r.getInt L (.dirField did .deletedAt) = .ok none ∧ m.deletedAt = none ∧ m.id = did := by
  unfold readDirectoryMeta
  constructor
  · intro h
    split at h
    next => simp [pure, Except.pure] at h
    next hdir =>
      obtain ⟨path, hpath, h⟩ := bind_eq_ok.mp h
      cases path with
      | none => simp [pure, Except.pure] at h
      | some path =>
        obtain ⟨c, hc, h⟩ := bind_eq_ok.mp h
        obtain ⟨d, hd, h⟩ := bind_eq_ok.mp h
        cases d with
        | some _ => simp [pure, Except.pure] at h
        | none =>
          obtain rfl := Option.some.inj (Except.ok.inj h)
          exact ⟨by simpa using hdir, hpath, ⟨c, hc, rfl⟩, hd, rfl, rfl⟩
  · intro ⟨hdir, hpath, ⟨c, hc, hcreated⟩, hd, hdeleted, hid⟩
    simp only [hdir, hpath, hc, hd, bind, Except.bind, pure, Except.pure]
    cases m
    simp_all

theorem mem_liveDirectoriesIn {dids : List Str} {metas : List DirectoryMeta}
    (h : r.liveDirectoriesIn L dids = .ok metas) {m : DirectoryMeta} :
    m ∈ metas ↔ m.id ∈ dids ∧ r.readDirectoryMeta L m.id = .ok (some m) := by
  induction dids generalizing metas with
  | nil =>
    obtain rfl := Except.ok.inj h
    simp
  | cons did rest ih =>
    obtain ⟨entry, hentry, h⟩ := bind_eq_ok.mp h
    obtain ⟨metas', hmetas', h⟩ := bind_eq_ok.mp h
    obtain rfl := Except.ok.inj h
    rw [List.mem_append, Option.mem_toList, ih hmetas', List.mem_cons]
    constructor
    · rintro (hm | h)
      · obtain rfl := Option.mem_def.mp hm
        have hid := (readDirectoryMeta_eq_some.mp hentry).2.2.2.2.2
        exact ⟨.inl hid, hid ▸ hentry⟩
      · exact ⟨.inr h.1, h.2⟩
    · rintro ⟨rfl | hin, hread⟩
      · exact .inl (Except.ok.inj (hentry.symm.trans hread))
      · exact .inr ⟨hin, hread⟩

theorem listDirectories_eq_ok {dirs : List DirectoryMeta} : r.listDirectories L = .ok dirs ↔
    r.mapObj .directories = .ok () ∧ ∃ metas, r.liveDirectoriesIn L r.dirKeys = .ok metas ∧
      dirs = metas.insertionSort fun a b => a.path ≤ b.path := by
  simp only [listDirectories, bind_eq_ok, pure, Except.pure, Except.ok.injEq, eq_comm (b := dirs)]
  exact ⟨fun ⟨_, h⟩ => h, fun h => ⟨(), h⟩⟩

/-- A listed directory is one whose entry reads as live. -/
theorem mem_listDirectories {dirs : List DirectoryMeta} (h : r.listDirectories L = .ok dirs)
    {m : DirectoryMeta} : m ∈ dirs ↔ r.readDirectoryMeta L m.id = .ok (some m) := by
  obtain ⟨-, metas, hmetas, rfl⟩ := listDirectories_eq_ok.mp h
  rw [List.mem_insertionSort, mem_liveDirectoriesIn hmetas]
  refine ⟨fun h => h.2, fun h => ⟨?_, h⟩⟩
  rw [mem_dirKeys, Option.isSome_iff_ne_none]
  exact get_of_hasObject (readDirectoryMeta_eq_some.mp h).1

theorem ids_liveDirectoriesIn {dids : List Str} {metas : List DirectoryMeta}
    (h : r.liveDirectoriesIn L dids = .ok metas) : (metas.map DirectoryMeta.id).Sublist dids := by
  induction dids generalizing metas with
  | nil =>
    obtain rfl := Except.ok.inj h
    exact .slnil
  | cons did rest ih =>
    obtain ⟨entry, hentry, h⟩ := bind_eq_ok.mp h
    obtain ⟨metas', hmetas', h⟩ := bind_eq_ok.mp h
    obtain rfl := Except.ok.inj h
    cases entry with
    | none => exact (ih hmetas').cons did
    | some m =>
      have hid : m.id = did := (readDirectoryMeta_eq_some.mp hentry).2.2.2.2.2
      rw [Option.toList_some, List.singleton_append, List.map_cons, hid]
      exact (ih hmetas').cons_cons did

theorem nodup_listDirectories {dirs : List DirectoryMeta} (h : r.listDirectories L = .ok dirs) :
    (dirs.map DirectoryMeta.id).Nodup := by
  obtain ⟨-, metas, hmetas, rfl⟩ := listDirectories_eq_ok.mp h
  exact (((List.perm_insertionSort _ metas).map _).nodup_iff).mpr
    (nodup_dirKeys.sublist (ids_liveDirectoriesIn hmetas))

theorem exists_liveDirectoriesIn (dids : List Str)
    (h : ∀ did ∈ dids, ∃ entry, r.readDirectoryMeta L did = .ok entry) :
    ∃ metas, r.liveDirectoriesIn L dids = .ok metas := by
  induction dids with
  | nil => exact ⟨[], rfl⟩
  | cons did rest ih =>
    obtain ⟨entry, hentry⟩ := h did List.mem_cons_self
    obtain ⟨metas, hmetas⟩ := ih fun did' hdid' => h did' (List.mem_cons_of_mem _ hdid')
    exact ⟨entry.toList ++ metas,
      by simp [liveDirectoriesIn, hentry, hmetas, bind, Except.bind, pure, Except.pure]⟩

end Root

end AgentSync
