import AgentSync.Doc.Scan
import AgentSync.Doc.Directories

/-! The changes a recursive delete makes.

`delete_directory` deletes the files below the path with `delete_file`, which commits each of
them, and then the directories, which it commits together. So a history that stops between two
of these changes has a part of the tombstones (`Doc.cascade_atomic`). Nothing is asked of the
document here but what Automerge keeps by itself (`Doc.Intact`). -/
namespace AgentSync

open Turns (Turn)

variable {L : Crates} {r r' : Root}

/-! ### Tombstones -/

/-- Where an entry, file or directory, says that it is deleted. -/
def tomb : Owner → Addr
  | .file fid => .fileField fid .deletedAt
  | .directory did => .dirField did .deletedAt

/-- The operation puts a tombstone. -/
def Op.isTombstone : Op → Bool
  | .put (.fileField _ .deletedAt) _ | .put (.dirField _ .deletedAt) _ => true
  | _ => false

namespace Root

/-- Keys are in maps, as they are in any Automerge document. -/
def Nested (r : Root) : Prop := ∀ a, r.get a ≠ none → ∀ b ∈ a.ancestors, r.get b = some .map

theorem nested_iff : r.Nested ↔ ∀ a ∈ r.keys, ∀ b ∈ a.ancestors, r.get b = some .map := by
  refine forall_congr' fun a => imp_congr_left ?_
  rw [get, Option.ne_none_iff_isSome, AList.lookup_isSome]
  exact AList.mem_keys

instance : Decidable r.Nested := decidable_of_iff _ nested_iff.symm

/-- A directory that is seen at a path is a map. -/
theorem Nested.dir_of_look (hr : r.Nested) {did q : Str}
    (h : r.lookDirectory L did = .ok (some q)) : r.get (.dir did) = some .map := by
  obtain ⟨-, -, hpath⟩ := lookDirectory_eq_some h
  refine hr (.dirField did .path) ?_ (.dir did) (by simp [Addr.ancestors])
  rw [getStr_eq_some.mp hpath]
  simp

/-- `r'` is `r` with tombstones on the entries `dead`. -/
structure Marked (L : Crates) (dead : List Owner) (r r' : Root) : Prop where
  elsewhere : ∀ b, (∀ i ∈ dead, b ≠ tomb i) → r'.get b = r.get b
  files : ∀ fid, .file fid ∈ dead → r'.lookFile L fid = .ok none
  directories : ∀ did, .directory did ∈ dead → r'.lookDirectory L did = .ok none

theorem Marked.refl (L : Crates) (r : Root) : Marked L [] r r where
  elsewhere _ _ := rfl
  files _ h := by cases h
  directories _ h := by cases h

theorem lookFile_of_deleted {fid : Str} {now : Int}
    (h : r.get (.fileField fid .deletedAt) = some (.scalar (.int now))) :
    r.lookFile L fid = .ok none := by
  unfold lookFile
  split
  next => rfl
  next =>
    split
    next => rfl
    next => rw [getInt_of_get h]; rfl

theorem lookDirectory_of_deleted {did : Str} {now : Int}
    (h : r.get (.dirField did .deletedAt) = some (.scalar (.int now))) :
    r.lookDirectory L did = .ok none := by
  unfold lookDirectory
  split
  next => rfl
  next => rw [getInt_of_get h]; rfl

namespace Marked

variable {dead : List Owner}

theorem fileKeys (h : Marked L dead r r') : r'.fileKeys = r.fileKeys :=
  fileKeys_congr fun fid => by rw [h.elsewhere _ fun i _ => by cases i <;> simp [tomb]]

theorem dirKeys (h : Marked L dead r r') : r'.dirKeys = r.dirKeys :=
  dirKeys_congr fun did => by rw [h.elsewhere _ fun i _ => by cases i <;> simp [tomb]]

theorem mapObj (h : Marked L dead r r') (m : RootMap) : r'.mapObj m = r.mapObj m :=
  mapObj_congr (h.elsewhere _ fun i _ => by cases i <;> simp [tomb])

theorem lookFile (h : Marked L dead r r') {fid : Str} (hfid : .file fid ∉ dead) :
    r'.lookFile L fid = r.lookFile L fid := by
  refine lookFile_congr fun b hb => h.elsewhere b ?_
  rintro i hi rfl
  cases i with
  | file fid' =>
    obtain rfl : fid' = fid := Option.some.inj hb
    exact hfid hi
  | directory did => cases hb

theorem lookDirectory (h : Marked L dead r r') {did : Str} (hdid : .directory did ∉ dead) :
    r'.lookDirectory L did = r.lookDirectory L did := by
  refine lookDirectory_congr fun b hb => h.elsewhere b ?_
  rintro i hi rfl
  cases i with
  | file fid => cases hb
  | directory did' =>
    obtain rfl : did' = did := Option.some.inj hb
    exact hdid hi

/-- A lookup passes over the files that are marked. -/
theorem findFile (h : Marked L dead r r') (hmap : r.mapObj .files = .ok ()) (p : Str) :
    r'.findFileByPathNormalized L p =
      scan (r.lookFile L) p (r.fileKeys.filter fun fid => .file fid ∉ dead) := by
  rw [findFileByPathNormalized, h.mapObj, hmap]
  show r'.findFileIn L p r'.fileKeys = _
  rw [findFileIn_eq_scan, h.fileKeys]
  refine (scan_filter _ fun fid _ hdead => ?_).trans (scan_congr fun fid hfid => h.lookFile ?_)
  · exact ⟨none, h.files fid (by simpa using hdead), by simp⟩
  · simpa using (List.mem_filter.mp hfid).2

theorem findDirectory (h : Marked L dead r r') (hmap : r.mapObj .directories = .ok ()) (p : Str) :
    r'.findDirectoryByPathNormalized L p =
      scan (r.lookDirectory L) p (r.dirKeys.filter fun did => .directory did ∉ dead) := by
  rw [findDirectoryByPathNormalized, h.mapObj, hmap]
  show r'.findDirectoryIn L p r'.dirKeys = _
  rw [findDirectoryIn_eq_scan, h.dirKeys]
  refine (scan_filter _ fun did _ hdead => ?_).trans
    (scan_congr fun did hdid => h.lookDirectory ?_)
  · exact ⟨none, h.directories did (by simpa using hdead), by simp⟩
  · simpa using (List.mem_filter.mp hdid).2

/-- One tombstone more. -/
theorem mark (h : Marked L dead r r') (i : Owner) (now : Int) :
    Marked L (i :: dead) r (applyAll r' [.put (tomb i) (.int now)]) := by
  have hget (b : Addr) : (applyAll r' [.put (tomb i) (.int now)]).get b =
      if b = tomb i then some (.scalar (.int now)) else r'.get b := by
    have hanc : tomb i ∉ b.ancestors := by
      cases i <;> cases b <;> simp [tomb, Addr.ancestors]
    simp [Op.apply, hanc]
  refine ⟨fun b hb => ?_, fun fid hfid => ?_, fun did hdid => ?_⟩
  · rw [hget, if_neg (hb i List.mem_cons_self),
      h.elsewhere b fun j hj => hb j (List.mem_cons_of_mem _ hj)]
  · by_cases heq : i = .file fid
    · subst heq
      exact lookFile_of_deleted ((hget _).trans (if_pos rfl))
    · have hin := (List.mem_cons.mp hfid).resolve_left (Ne.symm heq)
      rw [← h.files fid hin]
      refine lookFile_congr fun b hb => ?_
      rw [hget, if_neg]
      rintro rfl
      cases i with
      | file fid' => exact heq (congrArg Owner.file (Option.some.inj hb))
      | directory did => cases hb
  · by_cases heq : i = .directory did
    · subst heq
      exact lookDirectory_of_deleted ((hget _).trans (if_pos rfl))
    · have hin := (List.mem_cons.mp hdid).resolve_left (Ne.symm heq)
      rw [← h.directories did hin]
      refine lookDirectory_congr fun b hb => ?_
      rw [hget, if_neg]
      rintro rfl
      cases i with
      | file fid => cases hb
      | directory did' => exact heq (congrArg Owner.directory (Option.some.inj hb))

end Marked

end Root

/-! ### Deleting files one by one -/

/-- How `delete_file` fares with each of the paths: it deletes the first live file at the path
that the ones before have left, or finds none. -/
def deletions (L : Crates) (r : Root) : List Owner → List Str → List Turn
  | _, [] => []
  | dead, f :: rest =>
    match Path.normalize L.nfc f >>= fun p =>
        Root.scan (r.lookFile L) p (r.fileKeys.filter fun fid => .file fid ∉ dead) with
    | .ok (some fid) => .write :: deletions L r (.file fid :: dead) rest
    | _ => .fail :: deletions L r dead rest

namespace Doc

variable {d d' : Doc} {dead : List Owner}

/-- The history has grown by as many changes, each with a tombstone. -/
structure Cut (d d' : Doc) (n : Nat) : Prop where
  grown : ∃ cs, d'.changes = d.changes ++ cs ∧ cs.length = n ∧
    ∀ c ∈ cs, c.ops.any Op.isTombstone = true
  ordered : Ordered d.changes → Ordered d'.changes

theorem Cut.refl (d : Doc) : Cut d d 0 := ⟨⟨[], by simp⟩, id⟩

theorem Cut.trans {d'' : Doc} {m n : Nat} (h : Cut d d' m) (h' : Cut d' d'' n) :
    Cut d d'' (m + n) := by
  obtain ⟨cs, hcs, hlen, htomb⟩ := h.grown
  obtain ⟨cs', hcs', hlen', htomb'⟩ := h'.grown
  refine ⟨⟨cs ++ cs', by rw [hcs', hcs, List.append_assoc], by rw [List.length_append, hlen, hlen'],
    fun c hc => ?_⟩, fun ho => h'.ordered (h.ordered ho)⟩
  obtain hc | hc := List.mem_append.mp hc
  · exact htomb c hc
  · exact htomb' c hc

/-- A commit of operations one of which is a tombstone. -/
theorem cut_committed (hchanges : d'.changes = d.changes)
    (htomb : d'.pending.any Op.isTombstone = true) (time : Int) : Cut d (d'.committed time) 1 := by
  have hpending : d'.pending ≠ [] := by
    rintro hnil
    rw [hnil] at htomb
    cases htomb
  unfold committed
  rw [if_neg hpending, hchanges]
  refine ⟨⟨_, rfl, rfl, fun c hc => ?_⟩, fun ho => ho.concat (headsOf_subset _)⟩
  obtain rfl := List.mem_singleton.mp hc
  exact htomb

/-- **One call of `delete_file`** takes the file that the scan finds or changes nothing. -/
theorem deleteFile_cut (hmap : r.mapObj .files = .ok ()) (h : Root.Marked L dead r d.root)
    (f : Str) :
    match Path.normalize L.nfc f >>= fun p =>
        Root.scan (r.lookFile L) p (r.fileKeys.filter fun fid => .file fid ∉ dead) with
    | .ok (some fid) => Ends (deleteFile L f) d fun _ d' => Cut d d' 1 ∧
        Root.Marked L (.file fid :: dead) r d'.root
    | _ => ∃ e, deleteFile L f d = .error e d := by
  cases hp : Path.normalize L.nfc f with
  | error e => exact ⟨e, lift_error hp _⟩
  | ok p =>
    simp only [bind, Except.bind]
    rw [← h.findFile hmap]
    cases hfind : d.root.findFileByPathNormalized L p with
    | error e =>
      refine ⟨e, ?_⟩
      simp only [deleteFile, bind, EStateM.bind, lift, read, hp, hfind]
    | ok found =>
      cases found with
      | none =>
        refine ⟨.notFound p, ?_⟩
        simp only [deleteFile, bind, EStateM.bind, lift, read, hp, hfind]
        rfl
      | some fid =>
        refine .bind (.lift hp (.bind (.read hfind (.bind (.nowMs (.bind (.emit ?_)))))))
        refine .commitNow ⟨cut_committed (by rfl) ?_ _, ?_⟩
        · simp [emitted, Op.isTombstone]
        · rw [committed_root]
          exact h.mark (.file fid) _

theorem deleteFiles_cut (hmap : r.mapObj .files = .ok ()) (h : Root.Marked L dead r d.root)
    (files : List Str) :
    match files.forM (deleteFile L) d with
    | .ok _ d' => .fail ∉ deletions L r dead files ∧
        Cut d d' (Turns.count (deletions L r dead files)) ∧
        ∃ dead', Root.Marked L dead' r d'.root ∧
          ∀ did, .directory did ∈ dead' → .directory did ∈ dead
    | .error _ d' => .fail ∈ deletions L r dead files ∧
        Cut d d' (Turns.count (deletions L r dead files)) := by
  induction files generalizing dead d with
  | nil => exact ⟨List.not_mem_nil, .refl d, dead, h, fun _ hdid => hdid⟩
  | cons f rest ih =>
    have hone := deleteFile_cut hmap h f
    rw [deletions]
    show match EStateM.bind (deleteFile L f) (fun _ => rest.forM (deleteFile L)) d with
      | .ok _ d' => _
      | .error _ d' => _
    split at hone
    next fid heq =>
      obtain ⟨_, d₁, hrun, hcut, hmarked⟩ := hone
      have hrest := ih hmarked
      simp only [EStateM.bind, hrun, Turns.count, List.mem_cons, reduceCtorEq, false_or]
      cases hall : rest.forM (deleteFile L) d₁ with
      | ok _ d' =>
        rw [hall] at hrest
        obtain ⟨hfail, hcut', dead', hmarked', hdirs⟩ := hrest
        refine ⟨hfail, Nat.add_comm 1 _ ▸ hcut.trans hcut', dead', hmarked', fun did hdid => ?_⟩
        simpa using hdirs did hdid
      | error e d' =>
        rw [hall] at hrest
        exact ⟨hrest.1, Nat.add_comm 1 _ ▸ hcut.trans hrest.2⟩
    next hno =>
      obtain ⟨e, hrun⟩ := hone
      simp only [EStateM.bind, hrun, Turns.count]
      exact ⟨List.mem_cons_self, .refl d⟩

/-! ### Marking directories -/

/-- The directories that are listed are live and strictly below the path. -/
theorem mem_childDirsIn {p : Str} {dids children : List Str}
    (h : childDirsIn L r p dids = .ok children) {did : Str} (hdid : did ∈ children) :
    ∃ q, r.lookDirectory L did = .ok (some q) ∧ q ≠ p := by
  induction dids generalizing children with
  | nil =>
    obtain rfl := Except.ok.inj h
    cases hdid
  | cons did' rest ih =>
    unfold childDirsIn at h
    split at h
    next => exact ih h hdid
    next hdir =>
      obtain ⟨deleted, hdeleted, h⟩ := AgentSync.bind_eq_ok.mp h
      cases deleted with
      | some _ => exact ih h hdid
      | none =>
        obtain ⟨path, hpath, h⟩ := AgentSync.bind_eq_ok.mp h
        cases path with
        | none => exact ih h hdid
        | some q =>
          obtain ⟨children', hchildren, h⟩ := AgentSync.bind_eq_ok.mp h
          obtain rfl := Except.ok.inj h
          split at hdid
          next hunder =>
            obtain rfl | hdid := List.mem_cons.mp hdid
            · refine ⟨q, ?_, by simpa using (Bool.and_eq_true_iff.mp hunder).2⟩
              rw [Root.lookDirectory, if_neg hdir, hdeleted]
              exact hpath
            · exact ih hchildren hdid
          next => exact ih hchildren hdid

/-- Marking a directory that is there, in the open transaction. -/
theorem markDirectory_ends_of_look (hr : r.Nested) (now : Int) {did q : Str}
    (hlook : r.lookDirectory L did = .ok (some q)) (h : Root.Marked L dead r d.root) :
    Ends (markDirectory L now did) d fun _ d' =>
      d' = d.emitted [.put (.dirField did .deletedAt) (.int now)] ∧
      Root.Marked L (.directory did :: dead) r d'.root := by
  have hmap : d.root.get (.dir did) = some .map := by
    rw [h.elsewhere _ fun i _ => by cases i <;> simp [tomb]]
    exact hr.dir_of_look hlook
  refine .bind (.ask ?_)
  rw [if_pos (Root.hasObject_of_get hmap rfl)]
  refine .bind (.read (by rw [Root.writable, hmap]) (.emit ⟨rfl, ?_⟩))
  exact h.mark (.directory did) now

theorem markDirectories_ends (hr : r.Nested) (now : Int) {dids : List Str}
    (hdids : ∀ did ∈ dids, ∃ q, r.lookDirectory L did = .ok (some q))
    (h : Root.Marked L dead r d.root) : Ends (dids.forM (markDirectory L now)) d fun _ d' =>
      d'.changes = d.changes ∧
      Root.Marked L ((dids.map Owner.directory).reverse ++ dead) r d'.root := by
  induction dids generalizing dead d with
  | nil => exact .pure ⟨rfl, by simpa using h⟩
  | cons did rest ih =>
    obtain ⟨q, hlook⟩ := hdids did List.mem_cons_self
    refine .bind ((markDirectory_ends_of_look hr now hlook h).weaken ?_)
    rintro _ d₁ ⟨rfl, hmarked⟩
    refine (ih (fun did' hdid' => hdids did' (List.mem_cons_of_mem _ hdid')) hmarked).weaken ?_
    exact fun _ d' hd' => ⟨hd'.1, by simpa using hd'.2⟩

/-! ### The history after a cascade -/

/-- What Automerge keeps of any document: keys are in maps, and a change depends on earlier
ones. -/
structure Intact (d : Doc) : Prop where
  nested : d.root.Nested
  ordered : Ordered d.changes

/-- No more than one change can come of it: no file below the path is deleted, or just one,
and the delete fails at the next. -/
def Spares (L : Crates) (r : Root) (p : Str) : Prop :=
  ∀ files dirs, childFiles L p r = .ok files → childDirs L p r = .ok dirs →
    Turns.count (deletions L r [] files) ≤ 1 ∧
      (.fail ∉ deletions L r [] files → Turns.count (deletions L r [] files) = 0)

/-- The directories of a cascade are one change. -/
theorem deleteDirectories_cut {p did : Str} {dirs : List Str} (hr : r.Nested)
    (hlive : r.findDirectoryByPathNormalized L p = .ok (some did))
    (hdirs : ∀ did' ∈ dirs, ∃ q, r.lookDirectory L did' = .ok (some q) ∧ q ≠ p) (now : Int)
    (h : Root.Marked L dead r d.root) (hdead : ∀ did', .directory did' ∉ dead) :
    Ends (do
      dirs.forM (markDirectory L now)
      match ← read (Root.findDirectoryByPathNormalized L · p) with
      | some did => markDirectory L now did
      | none => pure ()
      commitNow) d fun _ d' => Cut d d' 1 := by
  obtain ⟨_, hmap, hfind⟩ := AgentSync.bind_eq_ok.mp hlive
  rw [Root.findDirectoryIn_eq_scan] at hfind
  obtain ⟨-, hlook⟩ := Root.scan_eq_some hfind
  refine .bind ((markDirectories_ends hr now
    (fun did' hdid' => (hdirs did' hdid').imp fun _ hq => hq.1) h).weaken ?_)
  rintro _ d₁ ⟨hchanges, hmarked⟩
  have hfound : d₁.root.findDirectoryByPathNormalized L p = .ok (some did) := by
    rw [hmarked.findDirectory hmap, ← Root.scan_filter _ fun did' _ hdid' => ?_, hfind]
    -- Of the entries that are passed over none was at the path.
    have hin : did' ∈ dirs := by simpa [hdead did'] using hdid'
    obtain ⟨q, hq, hne⟩ := hdirs did' hin
    exact ⟨some q, hq, by simpa using hne⟩
  refine .bind (.read hfound (.bind ((markDirectory_ends_of_look hr now hlook hmarked).weaken ?_)))
  rintro _ d₂ ⟨rfl, -⟩
  exact .commitNow (cut_committed (by exact hchanges) (by simp [emitted, Op.isTombstone]) _)

/-- **How many changes a recursive delete makes.** -/
theorem deleteDirectory_cut {path p did : Str} (hd : d.Intact)
    (hp : Path.normalize L.nfc path = .ok p)
    (hlive : d.root.findDirectoryByPathNormalized L p = .ok (some did)) :
    ∃ n, Cut d (d.after (deleteDirectory L path true)) n ∧ (Spares L d.root p ↔ n ≤ 1) := by
  cases hfiles : childFiles L p d.root with
  | error e =>
    have hrun : deleteDirectory L path true d = .error e {d with draws := d.draws + 1} := by
      simp only [deleteDirectory, bind, EStateM.bind, lift, read, hp, nowMs, hfiles]
    rw [after_error hrun]
    refine ⟨0, ⟨⟨[], by simp⟩, id⟩, iff_of_true (fun files dirs h => ?_) (Nat.zero_le 1)⟩
    rw [hfiles] at h
    cases h
  | ok files =>
    cases hdirs : childDirs L p d.root with
    | error e =>
      have hrun : deleteDirectory L path true d = .error e {d with draws := d.draws + 1} := by
        simp only [deleteDirectory, bind, EStateM.bind, lift, read, hp, nowMs, hfiles, hdirs]
      rw [after_error hrun]
      refine ⟨0, ⟨⟨[], by simp⟩, id⟩, iff_of_true (fun files dirs _ h => ?_) (Nat.zero_le 1)⟩
      rw [hdirs] at h
      cases h
    | ok dirs =>
      have hspares : Spares L d.root p ↔ Turns.count (deletions L d.root [] files) ≤ 1 ∧
          (.fail ∉ deletions L d.root [] files →
            Turns.count (deletions L d.root [] files) = 0) := by
        refine ⟨fun h => h files dirs hfiles hdirs, fun h files' dirs' hfiles' hdirs' => ?_⟩
        obtain rfl := Except.ok.inj (hfiles.symm.trans hfiles')
        exact h
      have hmap : d.root.mapObj .files = .ok () := by
        obtain ⟨metas, hmetas, -⟩ := AgentSync.bind_eq_ok.mp hfiles
        exact (AgentSync.bind_eq_ok.mp hmetas).choose_spec.1
      obtain ⟨_, hmapDirs, hchildren⟩ := AgentSync.bind_eq_ok.mp hdirs
      have hdeleted := deleteFiles_cut (d := {d with draws := d.draws + 1}) hmap
        (.refl L d.root) files
      generalize hts : deletions L d.root [] files = ts at hspares hdeleted
      cases hrun : files.forM (deleteFile L) {d with draws := d.draws + 1} with
      | error e d' =>
        rw [hrun] at hdeleted
        obtain ⟨hfail, hcut⟩ := hdeleted
        have hall : deleteDirectory L path true d = .error e d' := by
          simp only [deleteDirectory, bind, EStateM.bind, lift, read, hp, nowMs, hfiles, hdirs,
            Bool.true_eq_false, and_false, if_false, deleteChildren, if_true, hrun]
        rw [after_error hall]
        exact ⟨_, ⟨hcut.grown, hcut.ordered⟩, by simp [hspares, hfail]⟩
      | ok _ d₁ =>
        rw [hrun] at hdeleted
        obtain ⟨hfail, hcut, dead', hmarked, hdead⟩ := hdeleted
        obtain ⟨_, d', hmark, hcut'⟩ := deleteDirectories_cut hd.nested hlive
          (fun did' hdid' => mem_childDirsIn hchildren hdid') (d.supply.now d.draws) hmarked
          fun did' hdid' => List.not_mem_nil (hdead did' hdid')
        have hmap₁ : d₁.root.mapObj .directories = .ok () := by rw [hmarked.mapObj, hmapDirs]
        have hall : deleteDirectory L path true d = .ok () d' := by
          simp only [deleteDirectory, bind, EStateM.bind, lift, read, hp, nowMs, hfiles, hdirs,
            Bool.true_eq_false, and_false, if_false, deleteChildren, if_true, hrun, hmap₁]
          simp only [bind, EStateM.bind] at hmark
          cases hdirsRun : dirs.forM (markDirectory L (d.supply.now d.draws)) d₁ with
          | ok _ d₂ =>
            rw [hdirsRun] at hmark
            exact hmark
          | error e d₂ =>
            rw [hdirsRun] at hmark
            cases hmark
        rw [after_ok hall]
        have hboth := hcut.trans hcut'
        refine ⟨_, ⟨hboth.grown, hboth.ordered⟩, ?_⟩
        rw [hspares]
        constructor
        · intro h
          have hzero := h.2 hfail
          omega
        · intro h
          exact ⟨by omega, fun _ => by omega⟩

/-! ### Atomicity -/

/-- Every state of the history has all the tombstones of the changes that came after `d`, or
none of them. -/
def AllOrNone (d d' : Doc) : Prop :=
  ∀ heads, (∀ c ∈ d'.changes.drop d.changes.length, c.ops.any Op.isTombstone = true →
      c ∈ upTo d'.changes.reverse heads) ∨
    ∀ c ∈ d'.changes.drop d.changes.length, c.ops.any Op.isTombstone = true →
      c ∉ upTo d'.changes.reverse heads

/-- A history that has grown by two changes has a state between them. -/
theorem Cut.allOrNone_iff {n : Nat} (h : Cut d d' n) (ho : Ordered d.changes)
    (hdistinct : d'.Distinct) : AllOrNone d d' ↔ n ≤ 1 := by
  obtain ⟨cs, hcs, rfl, htomb⟩ := h.grown
  have hnew : d'.changes.drop d.changes.length = cs := by rw [hcs, List.drop_left]
  unfold AllOrNone
  rw [hnew]
  constructor
  · intro hatomic
    by_contra hlen
    obtain ⟨c, c', rest, rfl⟩ : ∃ c c' rest, cs = c :: c' :: rest := by
      match cs, hlen with
      | c :: c' :: rest, _ => exact ⟨c, c', rest, rfl⟩
      | [], h => exact absurd (Nat.zero_le 1) h
      | [_], h => exact absurd (Nat.le_refl 1) h
    have hsplit : d'.changes = (d.changes ++ [c]) ++ (c' :: rest) := by
      rw [hcs, List.append_assoc, List.singleton_append]
    have hordered : Ordered (d.changes ++ [c]) := fun before c'' after heq =>
      h.ordered ho before c'' (after ++ c' :: rest) (by rw [hsplit, heq, List.append_assoc,
        List.cons_append])
    unfold Distinct at hdistinct
    rw [hsplit] at hatomic hdistinct
    have hstate := upTo_before hordered hdistinct
    rcases hatomic (headsOf (d.changes ++ [c])) with hall | hnone
    · have hin := hall c' (by simp) (htomb c' (by simp))
      rw [hstate, List.mem_reverse] at hin
      rw [List.map_append] at hdistinct
      exact (List.nodup_append.mp hdistinct).2.2 _ (List.mem_map_of_mem hin) _
        (List.mem_map_of_mem List.mem_cons_self) rfl
    · refine hnone c (by simp) (htomb c (by simp)) ?_
      rw [hstate]
      simp
  · intro hlen heads
    match cs, hlen with
    | [], _ => exact .inl fun c hc => by cases hc
    | [c], _ =>
      by_cases hin : c ∈ upTo d'.changes.reverse heads
      · refine .inl fun c' hc' _ => ?_
        obtain rfl := List.mem_singleton.mp hc'
        exact hin
      · refine .inr fun c' hc' _ => ?_
        obtain rfl := List.mem_singleton.mp hc'
        exact hin

/-- **The tombstones of a recursive delete are in every state of the history together** just
when no file below the path is deleted, or one is and the delete fails at the next. -/
theorem cascade_atomic {path p did : Str} (hd : d.Intact)
    (hp : Path.normalize L.nfc path = .ok p)
    (hlive : d.root.findDirectoryByPathNormalized L p = .ok (some did))
    (hdistinct : (d.after (deleteDirectory L path true)).Distinct) :
    AllOrNone d (d.after (deleteDirectory L path true)) ↔ Spares L d.root p := by
  obtain ⟨n, hcut, hspares⟩ := deleteDirectory_cut hd hp hlive
  rw [hcut.allOrNone_iff hd.ordered hdistinct, hspares]

private def emptyFolders : Doc := .replica (.numbered '1' 16) [.createDirectory (txt "a/b")]

private theorem find_emptyFolders :
    emptyFolders.root.findDirectoryByPathNormalized .plain (txt "a") =
      .ok (some ['1', 'i', 'i', 'i']) := rfl

theorem cascade_atomic_folders : ∃ d, Reachable .plain .plain d ∧
    AllOrNone d (d.after (deleteDirectory .plain (txt "a") true)) := by
  have hreach : Reachable .plain .plain emptyFolders := reachable_replica (by decide +kernel)
  refine ⟨emptyFolders, hreach, (cascade_atomic ⟨by decide +kernel, hreach.sound.ordered⟩
    (by rfl) find_emptyFolders (by decide +kernel)).mpr ?_⟩
  intro files dirs hfiles _
  obtain rfl : files = [] := by
    have hnone : childFiles .plain (txt "a") emptyFolders.root = .ok [] := rfl
    exact (Except.ok.inj (hnone.symm.trans hfiles)).symm
  exact ⟨Nat.zero_le 1, fun _ => rfl⟩

private def fullFolder : Doc :=
  .replica (.numbered '1' 16) [.writeTextFile (txt "a/x.md") (txt "one")]

private theorem find_fullFolder :
    fullFolder.root.findDirectoryByPathNormalized .plain (txt "a") =
      .ok (some ['1', 'i', 'i', 'i']) := by decide +kernel

/-- **Half a delete**: the file is gone and its directory is not. -/
theorem cascade_atomic_split : ∃ d did, Reachable .plain .plain d ∧ d.Intact ∧
    d.root.findDirectoryByPathNormalized .plain (txt "a") = .ok (some did) ∧
    (d.after (deleteDirectory .plain (txt "a") true)).Distinct ∧
    ¬ AllOrNone d (d.after (deleteDirectory .plain (txt "a") true)) := by
  have hreach : Reachable .plain .plain fullFolder := reachable_replica (by decide +kernel)
  refine ⟨fullFolder, _, hreach, ⟨by decide +kernel, hreach.sound.ordered⟩, find_fullFolder,
    by decide +kernel, fun h => ?_⟩
  have hsplit := h [.fill 25]
  revert hsplit
  decide +kernel

/-- In a document that the operations themselves have made, that is when no live file is below
the path. -/
theorem spares_iff {A : Automerge} (hd : d.Settled L A) (p : Str) : Spares L d.root p ↔
    ∀ fid f, d.root.fileAt L fid = some f → Root.child p f.path = false := by
  obtain ⟨fids, hnodup, hfids, hfiles⟩ := Root.childFiles_eq hd.readable p
  have hnone : fids = [] ↔ ∀ fid f, d.root.fileAt L fid = some f → Root.child p f.path = false := by
    rw [List.eq_nil_iff_forall_not_mem]
    refine forall_congr' fun fid => ?_
    rw [hfids fid]
    simp
  rw [← hnone]
  constructor
  · intro h
    have hcount := h _ _ hfiles (Root.childDirs_eq hd.readable p)
    -- Every one of the files is found, so the first of them is deleted.
    obtain ⟨_, d', hrun, -⟩ := deleteFiles_ends (J := fun _ => True)
      (fun _ _ _ _ _ _ _ _ => trivial) hd trivial (P := fun q => Root.child p q = true) hnodup hfids
    have hdeleted := deleteFiles_cut hd.readable.files (.refl L d.root)
      (fids.map fun fid => ((d.root.fileAt L fid).map LiveFile.path).getD [])
    rw [hrun] at hdeleted
    have hzero := hcount.2 hdeleted.1
    by_contra hne
    obtain ⟨fid, rest, rfl⟩ := List.exists_cons_of_ne_nil hne
    have hno := hdeleted.1
    rw [List.map_cons, deletions] at hzero hno
    split at hzero
    next => exact absurd hzero (Nat.succ_ne_zero _)
    next hfound =>
      split at hno
      next => exact hfound _ ‹_›
      next => exact hno List.mem_cons_self
  · rintro rfl files dirs hfiles' -
    obtain rfl := Except.ok.inj (hfiles.symm.trans hfiles')
    exact ⟨Nat.zero_le 1, fun _ => rfl⟩

end Doc

end AgentSync
