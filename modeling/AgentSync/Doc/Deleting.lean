import AgentSync.Doc.Failure

/-! What is left after a delete.

A lookup ends at the first live entry at a path, and a merge may bring another. `delete_file`
takes one entry. `delete_directory` makes one call for each file below the path and marks each
directory below it, and takes one at the path itself. Nothing is asked of the document but
that keys are in maps. -/
namespace AgentSync

variable {L : Crates} {r r' : Root} {p : Str}

namespace Root

/-! ### What a listing sees -/

theorem lookFile_of_meta {m : FileMeta} (h : r.readFileMeta L m.id = .ok (some m))
    (hlive : m.deletedAt = none) : r.lookFile L m.id = .ok (some m.path) := by
  obtain ⟨-, hfile, hmeta, hpath, -, -, -, -, hdeleted, -⟩ := readFileMeta_eq_some.mp h
  rw [lookFile, hfile, hmeta, hdeleted, hlive, hpath]
  rfl

theorem meta_of_lookFile {fid q : Str} (h : r.lookFile L fid = .ok (some q))
    (hread : ∃ entry, r.readFileMeta L fid = .ok entry) :
    ∃ m, r.readFileMeta L m.id = .ok (some m) ∧ m.deletedAt = none ∧ m.path = q ∧ m.id = fid := by
  obtain ⟨hfile, hmeta, hdeleted, hpath⟩ := lookFile_eq_some h
  obtain ⟨entry, hentry⟩ := hread
  cases entry with
  | none =>
    rcases readFileMeta_eq_none hentry with hno | hno
    · rw [hfile] at hno
      cases hno
    · rw [hmeta] at hno
      cases hno
  | some m =>
    obtain ⟨-, -, -, hq, -, -, -, -, hd, -, hid⟩ := readFileMeta_eq_some.mp hentry
    subst hid
    exact ⟨m, hentry, Except.ok.inj (hd.symm.trans hdeleted),
      Option.some.inj (Except.ok.inj (hq.symm.trans hpath)), rfl⟩

theorem mem_fileKeys_of_look {fid q : Str} (h : r.lookFile L fid = .ok (some q)) :
    fid ∈ r.fileKeys :=
  mem_fileKeys.mpr (Option.isSome_iff_ne_none.mpr (get_of_hasObject (lookFile_eq_some h).1))

theorem mem_dirKeys_of_look {did q : Str} (h : r.lookDirectory L did = .ok (some q)) :
    did ∈ r.dirKeys :=
  mem_dirKeys.mpr (Option.isSome_iff_ne_none.mpr (get_of_hasObject (lookDirectory_eq_some h).1))

end Root

namespace Doc

variable {d d' : Doc} {dead : List Owner}

/-- The files below a path, each by its id. -/
theorem childFiles_looks {files : List Str} (h : childFiles L p r = .ok files) :
    ∃ ids : List Str, ids.Nodup ∧ ids.length = files.length ∧
      (∀ fid, fid ∈ ids ↔ ∃ q, r.lookFile L fid = .ok (some q) ∧ Root.child p q = true) ∧
      ∀ q ∈ files, ∃ fid ∈ ids, r.lookFile L fid = .ok (some q) := by
  obtain ⟨metas, hmetas, hfiles⟩ := AgentSync.bind_eq_ok.mp h
  obtain rfl := Except.ok.inj hfiles
  have hread := readFileMeta_of_listFiles hmetas
  refine ⟨(metas.filter fun m => Root.child p m.path).map FileMeta.id,
    (Root.nodup_listFiles hmetas).sublist (List.filter_sublist.map _), ?_, fun fid => ?_, ?_⟩
  · rw [List.length_map, List.length_map]
    rfl
  · rw [List.mem_map]
    constructor
    · rintro ⟨m, hm, rfl⟩
      obtain ⟨hm, hchild⟩ := List.mem_filter.mp hm
      obtain ⟨hentry, hlive⟩ := (Root.mem_listFiles hmetas).mp hm
      exact ⟨m.path, Root.lookFile_of_meta hentry hlive, hchild⟩
    · rintro ⟨q, hlook, hchild⟩
      obtain ⟨m, hentry, hlive, rfl, rfl⟩ :=
        Root.meta_of_lookFile hlook (hread fid (Root.mem_fileKeys_of_look hlook))
      exact ⟨m, List.mem_filter.mpr ⟨(Root.mem_listFiles hmetas).mpr ⟨hentry, hlive⟩, hchild⟩, rfl⟩
  · intro q hq
    obtain ⟨m, hm, rfl⟩ := List.mem_map.mp hq
    obtain ⟨hentry, hlive⟩ := (Root.mem_listFiles hmetas).mp (List.mem_filter.mp hm).1
    exact ⟨m.id, List.mem_map.mpr ⟨m, hm, rfl⟩, Root.lookFile_of_meta hentry hlive⟩

/-- The directories below a path. -/
theorem childDirsIn_looks {dids children : List Str} (h : childDirsIn L r p dids = .ok children)
    {did : Str} : did ∈ children ↔
      did ∈ dids ∧ ∃ q, r.lookDirectory L did = .ok (some q) ∧ Root.child p q = true := by
  induction dids generalizing children with
  | nil =>
    obtain rfl := Except.ok.inj h
    simp
  | cons did' rest ih =>
    have hskip (hnone : r.lookDirectory L did' = .ok none)
        (hrest : childDirsIn L r p rest = .ok children) : did ∈ children ↔ did ∈ did' :: rest ∧
          ∃ q, r.lookDirectory L did = .ok (some q) ∧ Root.child p q = true := by
      rw [ih hrest, List.mem_cons]
      refine and_congr_left fun hlook => ⟨.inr, fun hdid => hdid.resolve_left ?_⟩
      rintro rfl
      obtain ⟨q, hq, -⟩ := hlook
      rw [hnone] at hq
      cases hq
    unfold childDirsIn at h
    split at h
    next hdir => exact hskip (by rw [Root.lookDirectory, if_pos hdir]) h
    next hdir =>
      obtain ⟨deleted, hdeleted, h⟩ := AgentSync.bind_eq_ok.mp h
      cases deleted with
      | some t => exact hskip (by rw [Root.lookDirectory, if_neg hdir, hdeleted]; rfl) h
      | none =>
        obtain ⟨path, hpath, h⟩ := AgentSync.bind_eq_ok.mp h
        have hlook : r.lookDirectory L did' = .ok path := by
          rw [Root.lookDirectory, if_neg hdir, hdeleted]
          exact hpath
        cases path with
        | none => exact hskip hlook h
        | some q =>
          obtain ⟨children', hchildren, h⟩ := AgentSync.bind_eq_ok.mp h
          obtain rfl := Except.ok.inj h
          have hrest := ih hchildren
          by_cases hchild : (Path.under p q && q != p) = true
          · rw [if_pos hchild, List.mem_cons, List.mem_cons, hrest]
            constructor
            · rintro (rfl | hin)
              · exact ⟨.inl rfl, q, hlook, hchild⟩
              · exact ⟨.inr hin.1, hin.2⟩
            · rintro ⟨rfl | hin, hq⟩
              · exact .inl rfl
              · exact .inr ⟨hin, hq⟩
          · rw [if_neg hchild, hrest, List.mem_cons]
            refine and_congr_left fun hq => ⟨.inr, fun hdid => hdid.resolve_left ?_⟩
            rintro rfl
            obtain ⟨q', hq', hchild'⟩ := hq
            obtain rfl := Option.some.inj (Except.ok.inj (hlook.symm.trans hq'))
            exact hchild hchild'

/-! ### Files -/

/-- No file is found at the path, and nothing else has changed. -/
structure FileGone (L : Crates) (p : Str) (r r' : Root) : Prop where
  gone : r'.findFileByPathNormalized L p = .ok none
  files : ∀ fid, r.lookFile L fid ≠ .ok (some p) → Root.SameFile fid r' r
  directories : ∀ did, Root.SameDirectory did r' r

/-- One live file has the path, and every other entry is seen to have another or none. -/
def SoleFile (L : Crates) (r : Root) (p : Str) : Prop :=
  ∃ fid, r.lookFile L fid = .ok (some p) ∧
    ∀ fid' ∈ r.fileKeys, fid' ≠ fid → ∃ o, r.lookFile L fid' = .ok o ∧ o ≠ some p

theorem marked_sameFile (h : Root.Marked L dead r r') {fid : Str} (hfid : .file fid ∉ dead) :
    Root.SameFile fid r' r := by
  refine fun b hb => h.elsewhere b ?_
  rintro i hi rfl
  cases i with
  | file fid' =>
    obtain rfl : fid' = fid := Option.some.inj hb
    exact hfid hi
  | directory did => cases hb

theorem marked_sameDirectory (h : Root.Marked L dead r r') {did : Str}
    (hdid : .directory did ∉ dead) : Root.SameDirectory did r' r := by
  refine fun b hb => h.elsewhere b ?_
  rintro i hi rfl
  cases i with
  | file fid => cases hb
  | directory did' =>
    obtain rfl : did' = did := Option.some.inj hb
    exact hdid hi

theorem mapObj_of_find {o : Option Str} (h : r.findFileByPathNormalized L p = .ok o) :
    r.mapObj .files = .ok () :=
  (AgentSync.bind_eq_ok.mp h).choose_spec.1

/-- A delete that succeeds marks the file that the scan finds. -/
theorem deleteFile_marked {path : Str} (hmap : r.mapObj .files = .ok ())
    (h : Root.Marked L dead r d.root) (hp : Path.normalize L.nfc path = .ok p)
    (hrun : deleteFile L path d = .ok () d') : ∃ fid, .file fid ∉ dead ∧
      r.lookFile L fid = .ok (some p) ∧ Root.Marked L (.file fid :: dead) r d'.root := by
  have hone := deleteFile_cut hmap h path
  split at hone
  next fid heq =>
    obtain ⟨_, d₁, hd₁, -, hmarked⟩ := hone
    obtain ⟨p', hp', hscan⟩ := AgentSync.bind_eq_ok.mp heq
    obtain rfl := Except.ok.inj (hp.symm.trans hp')
    obtain ⟨-, rfl⟩ := EStateM.Result.ok.inj (hrun.symm.trans hd₁)
    obtain ⟨hkey, hlook⟩ := Root.scan_eq_some hscan
    exact ⟨fid, by simpa using (List.mem_filter.mp hkey).2, hlook, hmarked⟩
  next =>
    obtain ⟨e, he⟩ := hone
    rw [hrun] at he
    cases he

theorem deleteFile_gone_iff {path : Str} (hp : Path.normalize L.nfc path = .ok p)
    (hrun : deleteFile L path d = .ok () d') : FileGone L p d.root d'.root ↔ SoleFile L d.root p := by
  have hmap : d.root.mapObj .files = .ok () := by
    obtain ⟨p', d₁, hlift, hrest⟩ := bind_eq_ok.mp hrun
    obtain ⟨o, d₂, hread, -⟩ := bind_eq_ok.mp hrest
    obtain ⟨rfl, -⟩ := read_eq_ok.mp hlift
    exact mapObj_of_find (read_eq_ok.mp hread).2
  obtain ⟨fid, -, hlook, hmarked⟩ := deleteFile_marked hmap (.refl L d.root) hp hrun
  have hgone : d'.root.findFileByPathNormalized L p = .ok none ↔
      ∀ fid' ∈ d.root.fileKeys, fid' ≠ fid → ∃ o, d.root.lookFile L fid' = .ok o ∧ o ≠ some p := by
    rw [hmarked.findFile hmap, Root.scan_eq_none]
    simp only [List.mem_filter, List.mem_singleton, Owner.file.injEq, decide_not,
      Bool.not_eq_true', decide_eq_false_iff_not, and_imp]
  constructor
  · intro h
    exact ⟨fid, hlook, hgone.mp h.gone⟩
  · rintro ⟨fid₀, hlook₀, hothers⟩
    have hsame : fid = fid₀ := by
      by_contra hne
      obtain ⟨o, ho, hno⟩ := hothers fid (Root.mem_fileKeys_of_look hlook) hne
      exact hno (Except.ok.inj (ho.symm.trans hlook))
    subst hsame
    refine ⟨hgone.mpr hothers, fun fid' hfid' => marked_sameFile hmarked ?_,
      fun did => marked_sameDirectory hmarked (by simp)⟩
    rintro hin
    obtain rfl := Owner.file.inj (List.mem_singleton.mp hin)
    exact hfid' hlook

/-- Calls that all succeed have each marked another file at the path they normalize to. -/
theorem deleteFiles_marked (hmap : r.mapObj .files = .ok ()) {files : List Str}
    (h : Root.Marked L dead r d.root) (hrun : files.forM (deleteFile L) d = .ok () d') :
    ∃ more : List Str, more.Nodup ∧ more.length = files.length ∧
      (∀ fid ∈ more, .file fid ∉ dead ∧ ∃ f ∈ files, ∃ p, Path.normalize L.nfc f = .ok p ∧
        r.lookFile L fid = .ok (some p)) ∧
      Root.Marked L (more.map Owner.file ++ dead) r d'.root := by
  induction files generalizing d dead with
  | nil =>
    obtain ⟨-, rfl⟩ := EStateM.Result.ok.inj hrun
    exact ⟨[], List.nodup_nil, rfl, by simp, h⟩
  | cons f rest ih =>
    obtain ⟨_, d₁, hone, hrest⟩ := bind_eq_ok.mp hrun
    have hnorm : ∃ p, Path.normalize L.nfc f = .ok p := by
      obtain ⟨p, _, hlift, -⟩ := bind_eq_ok.mp hone
      exact ⟨p, (read_eq_ok.mp hlift).2⟩
    obtain ⟨p, hp⟩ := hnorm
    obtain ⟨fid, hnew, hlook, hmarked⟩ := deleteFile_marked hmap h hp hone
    obtain ⟨more, hnodup, hlength, hmore, hall⟩ := ih hmarked hrest
    refine ⟨more ++ [fid], ?_, by simp [hlength], fun fid' hfid' => ?_, by simpa using hall⟩
    · refine List.nodup_append.mpr ⟨hnodup, List.nodup_singleton _, fun a ha b hb heq => ?_⟩
      obtain rfl := List.mem_singleton.mp hb
      exact (hmore a ha).1 (by simp [heq])
    · rcases List.mem_append.mp hfid' with hin | hin
      · obtain ⟨hdead, f', hf', hlook'⟩ := hmore fid' hin
        exact ⟨fun hin' => hdead (List.mem_cons_of_mem _ hin'), f', List.mem_cons_of_mem _ hf', hlook'⟩
      · obtain rfl := List.mem_singleton.mp hin
        exact ⟨hnew, f, List.mem_cons_self, p, hp, hlook⟩

/-! ### Directories -/

/-- No directory is at or below the path and no file below it, and nothing else that was live
has changed. -/
structure TreeGone (L : Crates) (p : Str) (r r' : Root) : Prop where
  directories : ∀ did q, r'.lookDirectory L did = .ok (some q) → q ≠ p ∧ ¬ Path.Below p q
  files : ∀ fid q, r'.lookFile L fid = .ok (some q) → ¬ Path.Below p q
  otherDirectories : ∀ did q, r.lookDirectory L did = .ok (some q) → q ≠ p → ¬ Path.Below p q →
    Root.SameDirectory did r' r
  otherFiles : ∀ fid q, r.lookFile L fid = .ok (some q) → ¬ Path.Below p q → Root.SameFile fid r' r

/-- One live directory at most has the path, and the files below it have normalized paths, as
every path has that an operation writes. -/
structure SoleDirectory (L : Crates) (r : Root) (p : Str) : Prop where
  directory : ∀ did did', r.lookDirectory L did = .ok (some p) →
    r.lookDirectory L did' = .ok (some p) → did = did'
  files : ∀ fid q, r.lookFile L fid = .ok (some q) → Path.Below p q → Path.Normalized L.nfc q

/-- What a recursive delete that succeeds has marked. -/
theorem deleteDirectory_marked {path : Str} (hr : d.root.Nested)
    (hp : Path.normalize L.nfc path = .ok p) (hrun : deleteDirectory L path true d = .ok () d') :
    ∃ (files dids more : List Str) (found : Option Str), childFiles L p d.root = .ok files ∧
      childDirs L p d.root = .ok dids ∧ more.Nodup ∧ more.length = files.length ∧
      (∀ fid ∈ more, ∃ f ∈ files, ∃ q, Path.normalize L.nfc f = .ok q ∧
        d.root.lookFile L fid = .ok (some q)) ∧
      d.root.findDirectoryByPathNormalized L p = .ok found ∧
      Root.Marked L (found.toList.map Owner.directory ++ ((dids.map Owner.directory).reverse ++
        more.map Owner.file)) d.root d'.root := by
  obtain ⟨p', d₀, hlift, hrun₀⟩ := bind_eq_ok.mp hrun
  obtain ⟨rfl, hp'⟩ := read_eq_ok.mp hlift
  obtain rfl := Except.ok.inj (hp.symm.trans hp')
  obtain ⟨now, d₁, hnow, hrun₁⟩ := bind_eq_ok.mp hrun₀
  have hroot : d₁.root = d₀.root := by
    obtain ⟨-, rfl⟩ := EStateM.Result.ok.inj hnow
    rfl
  obtain ⟨files, d₂, hread₁, hrun₂⟩ := bind_eq_ok.mp hrun₁
  obtain ⟨rfl, hfiles⟩ := read_eq_ok.mp hread₁
  obtain ⟨dids, d₃, hread₂, hrun₃⟩ := bind_eq_ok.mp hrun₂
  obtain ⟨rfl, hdids⟩ := read_eq_ok.mp hread₂
  rw [hroot] at hfiles hdids
  rw [if_neg fun h => Bool.noConfusion h.2] at hrun₃
  obtain ⟨_, d₄, hchildren, hrun₄⟩ := bind_eq_ok.mp hrun₃
  rw [deleteChildren, if_pos rfl] at hchildren
  obtain ⟨_, d₅, hdelete, hmarks⟩ := bind_eq_ok.mp hchildren
  obtain ⟨_, d₆, hread₃, hmark⟩ := bind_eq_ok.mp hmarks
  obtain ⟨rfl, -⟩ := read_eq_ok.mp hread₃
  have hmap : d₀.root.mapObj .files = .ok () := by
    obtain ⟨metas, hmetas, -⟩ := AgentSync.bind_eq_ok.mp hfiles
    exact (Root.listFiles_eq_ok.mp hmetas).1
  obtain ⟨_, hmapDirs, hlisted⟩ := AgentSync.bind_eq_ok.mp hdids
  have hstart : Root.Marked L [] d₀.root d₃.root := by
    rw [hroot]
    exact .refl L d₀.root
  obtain ⟨more, hnodup, hlength, hmore, hmarked⟩ := deleteFiles_marked hmap hstart hdelete
  rw [List.append_nil] at hmarked
  obtain ⟨_, d₇, hmark', -, hmarked'⟩ := markDirectories_ends hr now
    (fun did (hdid : did ∈ dids) => (mem_childDirsIn hlisted hdid).imp fun _ h => h.1) hmarked
  obtain ⟨-, rfl⟩ := EStateM.Result.ok.inj (hmark.symm.trans hmark')
  -- What is marked so far lies below the path, so the path itself is found as before.
  have hfind : d₄.root.findDirectoryByPathNormalized L p =
      d₀.root.findDirectoryByPathNormalized L p := by
    rw [hmarked'.findDirectory hmapDirs, Root.findDirectoryByPathNormalized, hmapDirs]
    show _ = d₀.root.findDirectoryIn L p d₀.root.dirKeys
    rw [Root.findDirectoryIn_eq_scan]
    refine (Root.scan_filter _ fun did _ hdid => ?_).symm
    have hin : did ∈ dids := by simpa using hdid
    obtain ⟨q, hq, hne⟩ := mem_childDirsIn hlisted hin
    exact ⟨some q, hq, by simpa using hne⟩
  obtain ⟨found, d₈, hread₄, hrun₅⟩ := bind_eq_ok.mp hrun₄
  obtain ⟨rfl, hfound⟩ := read_eq_ok.mp hread₄
  rw [hfind] at hfound
  refine ⟨files, dids, more, found, hfiles, hdids, hnodup, hlength,
    fun fid hfid => (hmore fid hfid).2, hfound, ?_⟩
  cases found with
  | none =>
    obtain ⟨-, rfl⟩ := EStateM.Result.ok.inj hrun₅
    rw [committed_root]
    exact hmarked'
  | some did =>
    obtain ⟨_, hmap', hscan⟩ := AgentSync.bind_eq_ok.mp hfound
    rw [Root.findDirectoryIn_eq_scan] at hscan
    obtain ⟨_, d₉, hlast, -, hmarked''⟩ :=
      markDirectory_ends_of_look hr now (Root.scan_eq_some hscan).2 hmarked'
    obtain ⟨_, d₁₀, hlast', hcommit⟩ := bind_eq_ok.mp hrun₅
    obtain ⟨-, rfl⟩ := EStateM.Result.ok.inj (hlast.symm.trans hlast')
    obtain ⟨-, rfl⟩ := EStateM.Result.ok.inj hcommit
    rw [committed_root]
    exact hmarked''

/-- **A recursive delete clears a path** just when one live directory at most is there and the
files below have paths that the calls of `delete_file` come to. -/
theorem deleteDirectory_gone_iff {path : Str} (hr : d.root.Nested)
    (hp : Path.normalize L.nfc path = .ok p) (hrun : deleteDirectory L path true d = .ok () d') :
    TreeGone L p d.root d'.root ↔ SoleDirectory L d.root p := by
  obtain ⟨files, dids, more, found, hfiles, hdids, hnodup, hlength, hmore, hfound, hmarked⟩ :=
    deleteDirectory_marked hr hp hrun
  have hnorm := Path.normalized_of_normalize hp
  have hbelow (q : Str) : Root.child p q = true ↔ Path.Below p q :=
    Path.strictlyUnder_iff hnorm.ne_nil
  obtain ⟨ids, hids, hlength', hmem, hnamed⟩ := childFiles_looks hfiles
  obtain ⟨_, hmapDirs, hlisted⟩ := AgentSync.bind_eq_ok.mp hdids
  have hdir (did : Str) : did ∈ dids ↔
      ∃ q, d.root.lookDirectory L did = .ok (some q) ∧ Path.Below p q := by
    simp only [← hbelow]
    rw [childDirsIn_looks hlisted]
    exact ⟨fun h => h.2, fun h => ⟨Root.mem_dirKeys_of_look h.choose_spec.1, h⟩⟩
  have hfoundLook (did : Str) (h : did ∈ found) : d.root.lookDirectory L did = .ok (some p) := by
    obtain ⟨_, -, hscan⟩ := AgentSync.bind_eq_ok.mp hfound
    rw [Root.findDirectoryIn_eq_scan, Option.mem_def.mp h] at hscan
    exact (Root.scan_eq_some hscan).2
  generalize hdead : found.toList.map Owner.directory ++ ((dids.map Owner.directory).reverse ++
    more.map Owner.file) = dead at hmarked
  have hdeadFile (fid : Str) : .file fid ∈ dead ↔ fid ∈ more := by
    subst hdead
    simp
  have hdeadDir (did : Str) : .directory did ∈ dead ↔ did ∈ found ∨ did ∈ dids := by
    subst hdead
    simp
  have hleftFile (fid : Str) : fid ∉ more → d'.root.lookFile L fid = d.root.lookFile L fid :=
    fun h => hmarked.lookFile (mt (hdeadFile fid).mp h)
  have hleftDir (did : Str) (h : ¬ (did ∈ found ∨ did ∈ dids)) :
      d'.root.lookDirectory L did = d.root.lookDirectory L did :=
    hmarked.lookDirectory (mt (hdeadDir did).mp h)
  constructor
  · intro h
    refine ⟨fun did did' hlook hlook' => ?_, fun fid q hlook hq => ?_⟩
    · -- A directory at the path that the lookup does not find is live as before.
      have hfoundAll (did : Str) (hlook : d.root.lookDirectory L did = .ok (some p)) :
          did ∈ found := by
        by_contra hno
        have hout : ¬ (did ∈ found ∨ did ∈ dids) := by
          rintro (hin | hin)
          · exact hno hin
          · obtain ⟨q, hq, hlow⟩ := (hdir did).mp hin
            obtain rfl := Option.some.inj (Except.ok.inj (hlook.symm.trans hq))
            exact hlow.ne rfl
        exact (h.directories did p ((hleftDir did hout).trans hlook)).1 rfl
      exact Option.some.inj ((Option.mem_def.mp (hfoundAll did hlook)).symm.trans
        (Option.mem_def.mp (hfoundAll did' hlook')))
    · by_cases hin : fid ∈ more
      · obtain ⟨f, -, q', hnormal, hlook'⟩ := hmore fid hin
        obtain rfl := Option.some.inj (Except.ok.inj (hlook.symm.trans hlook'))
        exact Path.normalized_of_normalize hnormal
      · exact absurd hq (h.files fid q ((hleftFile fid hin).trans hlook))
  · intro h
    -- Each call has marked another of the files below, so all of them are marked.
    have hsub : more ⊆ ids := by
      intro fid hfid
      obtain ⟨f, hf, q, hq, hlook⟩ := hmore fid hfid
      obtain ⟨fid', hfid', hlook'⟩ := hnamed f hf
      obtain ⟨f', hf', hchild⟩ := (hmem fid').mp hfid'
      obtain rfl := Option.some.inj (Except.ok.inj (hlook'.symm.trans hf'))
      obtain rfl : f = q :=
        Except.ok.inj ((h.files fid' f hlook' ((hbelow f).mp hchild)).symm.trans hq)
      exact (hmem fid).mpr ⟨f, hlook, hchild⟩
    have hall : more.Perm ids :=
      (List.subperm_of_subset hnodup hsub).perm_of_length_le (by rw [hlength, hlength'])
    have hmoreIff (fid : Str) : fid ∈ more ↔
        ∃ q, d.root.lookFile L fid = .ok (some q) ∧ Path.Below p q := by
      simp only [← hbelow]
      rw [hall.mem_iff, hmem]
    refine ⟨fun did q hlook => ?_, fun fid q hlook hq => ?_, fun did q hlook hne hq => ?_,
      fun fid q hlook hq => ?_⟩
    · by_cases hin : did ∈ found ∨ did ∈ dids
      · rw [hmarked.directories did ((hdeadDir did).mpr hin)] at hlook
        cases hlook
      · rw [hleftDir did hin] at hlook
        refine ⟨?_, fun hq => hin (.inr ((hdir did).mpr ⟨q, hlook, hq⟩))⟩
        rintro rfl
        -- The lookup has found a directory at the path, and there is only this one.
        obtain ⟨_, -, hscan⟩ := AgentSync.bind_eq_ok.mp hfound
        rw [Root.findDirectoryIn_eq_scan] at hscan
        cases found with
        | none =>
          obtain ⟨o, ho, hno⟩ := Root.scan_eq_none.mp hscan did (Root.mem_dirKeys_of_look hlook)
          exact hno (Except.ok.inj (ho.symm.trans hlook))
        | some did' =>
          obtain rfl := h.directory did did' hlook (hfoundLook did' rfl)
          exact hin (.inl rfl)
    · by_cases hin : fid ∈ more
      · rw [hmarked.files fid ((hdeadFile fid).mpr hin)] at hlook
        cases hlook
      · exact hin ((hmoreIff fid).mpr ⟨q, (hleftFile fid hin).symm.trans hlook, hq⟩)
    · refine marked_sameDirectory hmarked fun hin => ?_
      rcases (hdeadDir did).mp hin with hin | hin
      · exact hne (Option.some.inj (Except.ok.inj (hlook.symm.trans (hfoundLook did hin))))
      · obtain ⟨q', hq', hlow⟩ := (hdir did).mp hin
        obtain rfl := Option.some.inj (Except.ok.inj (hlook.symm.trans hq'))
        exact hq hlow
    · refine marked_sameFile hmarked fun hin => ?_
      obtain ⟨q', hq', hlow⟩ := (hmoreIff fid).mp ((hdeadFile fid).mp hin)
      obtain rfl := Option.some.inj (Except.ok.inj (hlook.symm.trans hq'))
      exact hq hlow

/-- In a document that replicas have made paths are normalized, so that it is a question of the
directory alone. -/
theorem soleDirectory_iff {A : Automerge} (hd : d.Sound L.nfc A) : SoleDirectory L d.root p ↔
    ∀ did did', d.root.lookDirectory L did = .ok (some p) →
      d.root.lookDirectory L did' = .ok (some p) → did = did' := by
  refine ⟨fun h => h.directory, fun h => ⟨h, fun fid q hlook _ => ?_⟩⟩
  have hpath := Root.getStr_eq_some.mp (Root.lookFile_eq_some hlook).2.2.2
  obtain ⟨q', hq', hnorm⟩ := hd.rootTyped _ _ rfl hpath
  obtain rfl : q = q' := by simpa using hq'
  exact hnorm

/-- **Deletes are effective** just when the lookup comes to all there is at the path. -/
theorem deletes_effective {path : Str} (hr : d.root.Nested)
    (hp : Path.normalize L.nfc path = .ok p) :
    (∀ d', deleteDirectory L path true d = .ok () d' →
      (TreeGone L p d.root d'.root ↔ SoleDirectory L d.root p)) ∧
    ∀ d', deleteFile L path d = .ok () d' → (FileGone L p d.root d'.root ↔ SoleFile L d.root p) :=
  ⟨fun _ hrun => deleteDirectory_gone_iff hr hp hrun, fun _ hrun => deleteFile_gone_iff hp hrun⟩

/-- What a replica makes that has one directory with a file in it. -/
private def oneFolder (mark : Char) (byte : UInt8) : Doc :=
  .replica (.numbered mark byte) [.writeTextFile (txt "a/x.md") []]

private theorem reachable_oneFolder : Reachable .plain .plain (oneFolder '1' 16) ∧
    Reachable .plain .plain (oneFolder '2' 64) :=
  ⟨reachable_replica (by decide +kernel), reachable_replica (by decide +kernel)⟩

/-- Whether an operation returns `Ok`. -/
def succeeds (x : DocM Unit) (d : Doc) : Bool :=
  match x d with
  | .ok _ _ => true
  | .error _ _ => false

theorem run_of_succeeds {x : DocM Unit} (h : succeeds x d = true) : x d = .ok () (d.after x) := by
  unfold succeeds at h
  unfold after
  split at h
  next hrun => rw [hrun]
  next => cases h

theorem deletes_effective_folder : ∃ d d', deleteDirectory .plain (txt "a") true d = .ok () d' ∧
    TreeGone .plain (txt "a") d.root d'.root := by
  have hrun : deleteDirectory .plain (txt "a") true (oneFolder '1' 16) =
      .ok () ((oneFolder '1' 16).after (deleteDirectory .plain (txt "a") true)) :=
    run_of_succeeds (by decide +kernel)
  refine ⟨_, _, hrun, ((deletes_effective (by decide +kernel) (by rfl)).1 _ hrun).mpr ?_⟩
  refine (soleDirectory_iff reachable_oneFolder.1.sound).mpr fun did did' h h' => ?_
  have hkeys : (oneFolder '1' 16).root.dirKeys = [['1', 'i', 'i', 'i']] := by decide +kernel
  have hdid := Root.mem_dirKeys_of_look h
  have hdid' := Root.mem_dirKeys_of_look h'
  rw [hkeys, List.mem_singleton] at hdid hdid'
  rw [hdid, hdid']

/-- The vault of two replicas that have both made the directory and the file. -/
private def bothFolders : Doc := (oneFolder '1' 16).merge .plain (oneFolder '2' 64)

/-- **A delete that leaves the other replica's entry**, of a directory and of a file. -/
theorem deletes_effective_merged : ∃ d, Reachable .plain .plain d ∧
    (∃ d', deleteDirectory .plain (txt "a") true d = .ok () d' ∧
      ∃ did, d'.root.lookDirectory .plain did = .ok (some (txt "a"))) ∧
    ∃ d', deleteFile .plain (txt "a/x.md") d = .ok () d' ∧
      ∃ fid, d'.root.findFileByPathNormalized .plain (txt "a/x.md") = .ok (some fid) := by
  refine ⟨bothFolders, .merge reachable_oneFolder.1 reachable_oneFolder.2 (by decide +kernel)
    (by decide +kernel), ⟨_, run_of_succeeds (by decide +kernel), ['2', 'i', 'i', 'i'], by decide +kernel⟩,
    _, run_of_succeeds (by decide +kernel), ['2', 'i'], by decide +kernel⟩

end Doc

end AgentSync
