import AgentSync.Machine
import AgentSync.Doc.Directories
import AgentSync.Doc.Tree

/-! The directories above what is live.

Writing, renaming and creating add the directories above a path, and deleting takes away
everything below one, so what is live stays hung on live directories. Two calls tear it off:
deleting a directory that has directories but no files in it without the flag, and renaming
a directory to a path below itself (`Doc.Orphans`). -/
namespace AgentSync

variable {L : Crates} {A : Automerge} {r : Root} {fid did p q : Str}

/-! ### Sets of paths -/

/-- Everything is below directories only. -/
def Hung (files dirs : Set Str) : Prop :=
  ∀ p ∈ files ∪ dirs, ∀ q, Path.Below q p → q ∈ dirs

namespace Hung

variable {files files' dirs dirs' : Set Str}

theorem mono (h : Hung files dirs) (hsub : files' ⊆ files) : Hung files' dirs :=
  fun p hp q hq => h p (hp.imp_left fun hp => hsub hp) q hq

/-- A path is added with the directories above it. -/
theorem add {N : Nfc} (h : Hung files dirs) (hp : Path.Normalized N p)
    (hfiles : files' ⊆ insert p files)
    (hdirs : dirs' ⊆ insert p (dirs ∪ {q | q ∈ Path.ancestors p}))
    (hkeep : dirs ∪ {q | q ∈ Path.ancestors p} ⊆ dirs') : Hung files' dirs' := by
  have hnew {x y : Str} (hx : x = p ∨ Path.Below x p) (hy : Path.Below y x) : y ∈ dirs' := by
    refine hkeep (.inr (hp.mem_ancestors.mpr ?_))
    rcases hx with rfl | hx
    · exact hy
    · exact hy.trans hx
  rintro x (hx | hx) y hy
  · rcases hfiles hx with rfl | hx
    · exact hnew (.inl rfl) hy
    · exact hkeep (.inl (h x (.inl hx) y hy))
  · rcases hdirs hx with rfl | hx | hx
    · exact hnew (.inl rfl) hy
    · exact hkeep (.inl (h x (.inr hx) y hy))
    · exact hnew (.inr (hp.mem_ancestors.mp hx)) hy

/-- Everything below a path goes, and perhaps the path itself. -/
theorem delete (h : Hung files dirs) (hfiles : files' ⊆ {x ∈ files | ¬ Path.Below p x})
    (hdirs : dirs' ⊆ {x ∈ dirs | ¬ Path.Below p x})
    (hkeep : {x ∈ dirs | ¬ Path.Below p x ∧ x ≠ p} ⊆ dirs') : Hung files' dirs' := by
  intro x hx y hy
  have hold : x ∈ files ∪ dirs ∧ ¬ Path.Below p x := by
    rcases hx with hx | hx
    · exact ⟨.inl (hfiles hx).1, (hfiles hx).2⟩
    · exact ⟨.inr (hdirs hx).1, (hdirs hx).2⟩
  refine hkeep ⟨h x hold.1 y hy, fun hbelow => hold.2 (hbelow.trans hy), ?_⟩
  rintro rfl
  exact hold.2 hy

/-- What is at or below `p` goes to `q`, and the directories above `q` are added. -/
theorem move {N : Nfc} (h : Hung files dirs) (hq : Path.Normalized N q)
    (hfiles : ∀ x ∈ files', (x ∈ files ∧ ¬ Path.Below p x) ∨ x = q ∨
      ∃ y ∈ files, Path.Below p y ∧ x = Path.moved p q y)
    (hdirs : ∀ x ∈ dirs', (x ∈ dirs ∧ ¬ Path.Below p x) ∨ x = q ∨ x ∈ Path.ancestors q ∨
      ∃ y ∈ dirs, Path.Below p y ∧ x = Path.moved p q y)
    (hself : q ∈ dirs') (habove : ∀ x ∈ Path.ancestors q, x ∈ dirs')
    (hkeep : ∀ x ∈ dirs, x ≠ p → ¬ Path.Below p x → x ∈ dirs')
    (hmoved : ∀ y ∈ dirs, Path.Below p y → Path.moved p q y ∈ dirs') :
    Hung files' dirs' := by
  have hstay {x z : Str} (hx : x ∈ files ∪ dirs) (hbelow : ¬ Path.Below p x)
      (hz : Path.Below z x) : z ∈ dirs' := by
    refine hkeep z (h x hx z hz) ?_ fun hp => hbelow (hp.trans hz)
    rintro rfl
    exact hbelow hz
  have hqAbove {z : Str} (hz : Path.Below z q) : z ∈ dirs' :=
    habove z (hq.mem_ancestors.mpr hz)
  have hgo {y z : Str} (hy : y ∈ files ∪ dirs) (hbelow : Path.Below p y)
      (hz : Path.Below z (Path.moved p q y)) : z ∈ dirs' := by
    rcases hz.comparable hbelow.moved with rfl | hz' | ⟨s, rfl⟩
    · exact hself
    · exact hqAbove hz'
    · obtain ⟨t, rfl⟩ := hbelow
      obtain ⟨u, hu⟩ := hz
      rw [Path.moved_below, List.append_assoc, List.cons_append] at hu
      obtain rfl := (List.cons.inj (List.append_cancel_left hu)).2
      have hdir : p ++ '/' :: s ∈ dirs := h _ hy _ ⟨u, by simp⟩
      rw [← Path.moved_below p q s]
      exact hmoved _ hdir ⟨s, rfl⟩
  rintro x (hx | hx) z hz
  · rcases hfiles x hx with ⟨hold, hbelow⟩ | rfl | ⟨y, hy, hbelow, rfl⟩
    · exact hstay (.inl hold) hbelow hz
    · exact hqAbove hz
    · exact hgo (.inl hy) hbelow hz
  · rcases hdirs x hx with ⟨hold, hbelow⟩ | rfl | hx | ⟨y, hy, hbelow, rfl⟩
    · exact hstay (.inr hold) hbelow hz
    · exact hqAbove hz
    · exact hqAbove (hz.trans (hq.mem_ancestors.mp hx))
    · exact hgo (.inr hy) hbelow hz

end Hung

namespace Root

/-- **Every proper ancestor of a live file or directory is a live directory.** -/
def Closed (L : Crates) (r : Root) : Prop :=
  ∀ p ∈ r.filePaths L ∪ r.dirPaths L, ∀ q ∈ Path.ancestors p, q ∈ r.dirPaths L

end Root

/-! ### The operations -/

inductive TreeOp where
  | file (op : FileOp)
  | deleteDirectory (path : Str) (recursive : Bool)
  | renameDirectory (src dst : Str)

def TreeOp.run (L : Crates) : TreeOp → DocM Unit
  | .file op => op.run L
  | .deleteDirectory path recursive => Doc.deleteDirectory L path recursive
  | .renameDirectory src dst => Doc.renameDirectory L src dst

theorem FileOp.run_keeps (op : FileOp) : Doc.Keeps L.nfc A (op.run L) fun _ => True := by
  cases op with
  | writeTextFile path content => exact (Doc.writeTextFile_keeps path content).unit
  | writeAttachment path hash size => exact (Doc.writeAttachment_keeps path hash size).unit
  | deleteFile path => exact Doc.deleteFile_keeps path
  | renameFile src dst => exact Doc.renameFile_keeps src dst
  | createDirectory path => exact (Doc.createDirectory_keeps path).unit

theorem TreeOp.run_keeps (op : TreeOp) : Doc.Keeps L.nfc A (op.run L) fun _ => True := by
  cases op with
  | file op => exact op.run_keeps
  | deleteDirectory path recursive => exact Doc.deleteDirectory_keeps path recursive
  | renameDirectory src dst => exact Doc.renameDirectory_keeps src dst

namespace Doc

variable {d d' : Doc}

theorem Settled.closed_iff (hd : d.Settled L A) :
    d.root.Closed L ↔ Hung (d.root.filePaths L) (d.root.dirPaths L) := by
  have hnorm {p : Str} (hp : p ∈ d.root.filePaths L ∪ d.root.dirPaths L) :
      Path.Normalized L.nfc p := by
    rcases hp with ⟨fid, f, hf, rfl⟩ | ⟨did, f, hf, rfl⟩
    · exact normalized_of_fileAt hd hf
    · exact normalized_of_dirAt hd hf
  constructor
  · intro h p hp q hq
    exact h p hp q ((hnorm hp).mem_ancestors.mpr hq)
  · intro h p hp q hq
    exact h p hp q ((hnorm hp).mem_ancestors.mp hq)

/-- The calls that leave something without a directory above it. -/
def Orphans (L : Crates) (d : Doc) : TreeOp → Prop
  | .file _ => False
  | .deleteDirectory path recursive => ∃ p, Path.normalize L.nfc path = .ok p ∧ recursive = false ∧
      (∀ x ∈ d.root.filePaths L, ¬ Path.Below p x) ∧ (∃ x ∈ d.root.dirPaths L, Path.Below p x) ∧
      ∃ did f, d.root.dirAt L did = some f ∧ f.path = p ∧
        ∀ did' f', d.root.dirAt L did' = some f' → f'.path = p → did' = did
  | .renameDirectory src dst => ∃ p q, Path.normalize L.nfc src = .ok p ∧
      Path.normalize L.nfc dst = .ok q ∧ Path.Below p q ∧ p ∈ d.root.dirPaths L

theorem not_orphans_file {op : FileOp} : ¬ Orphans L d (.file op) := id

theorem not_orphans_recursive {path : Str} : ¬ Orphans L d (.deleteDirectory path true) := by
  rintro ⟨p, -, hflag, -⟩
  cases hflag

/-- What the calls leave in order: nothing is torn off. -/
structure Rooted (L : Crates) (A : Automerge) (d : Doc) : Prop where
  settled : d.Settled L A
  hung : Hung (d.root.filePaths L) (d.root.dirPaths L)

/-- The paths of the table of files after one entry was set. -/
theorem filePaths_update {t : Str → Option LiveFile} {f : LiveFile} :
    Index.keys LiveFile.path (Function.update t fid (some f)) ⊆
      insert f.path (Index.keys LiveFile.path t) := by
  rintro x ⟨i, g, hg, rfl⟩
  rw [Index.update_eq_some] at hg
  rcases hg with ⟨-, hg⟩ | ⟨-, hg⟩
  · obtain rfl := Option.some.inj hg
    exact .inl rfl
  · exact .inr (Index.mem_keys_of hg)

/-- A file is written, or moved to where there was none. -/
theorem Rooted.fileWritten (hd : d.Rooted L A) {f : LiveFile} (hd' : d'.Settled L A)
    (hp : Path.Normalized L.nfc f.path) {paths : List Str}
    (hb : Becomes L d d' (Function.update (d.root.fileAt L) fid (some f)) (d.root.dirAt L) paths)
    (hpaths : paths = Path.ancestors f.path ∨ (paths = [] ∧ f.path ∈ d.root.filePaths L)) :
    d'.Rooted L A := by
  refine ⟨hd', ?_⟩
  have hfiles : d'.root.filePaths L ⊆ insert f.path (d.root.filePaths L) := by
    rw [Root.filePaths, hb.files]
    exact filePaths_update
  have hdirs : d'.root.dirPaths L = d.root.dirPaths L ∪ {q | q ∈ paths} := hb.dirs.keys
  rcases hpaths with rfl | ⟨rfl, hthere⟩
  · exact hd.hung.add hp hfiles (hdirs ▸ Set.subset_insert _ _) hdirs.ge
  · have hsame : d'.root.dirPaths L = d.root.dirPaths L := by simp [hdirs]
    rw [hsame]
    refine hd.hung.mono (hfiles.trans ?_)
    rintro x (rfl | hx)
    · exact hthere
    · exact hx

theorem Rooted.fileDeleted (hd : d.Rooted L A) (hd' : d'.Settled L A)
    (hb : Becomes L d d' (Function.update (d.root.fileAt L) fid none) (d.root.dirAt L) []) :
    d'.Rooted L A := by
  refine ⟨hd', ?_⟩
  have hdirs : d'.root.dirPaths L = d.root.dirPaths L := by
    rw [Root.dirPaths, hb.dirs.eq_of_nil]
  rw [hdirs]
  refine hd.hung.mono ?_
  rw [Root.filePaths, hb.files]
  rintro x ⟨i, g, hg, rfl⟩
  rw [Index.update_eq_some] at hg
  rcases hg with ⟨-, hg⟩ | ⟨-, hg⟩
  · cases hg
  · exact Index.mem_keys_of hg

theorem Rooted.created (hd : d.Rooted L A) (hd' : d'.Settled L A) (hp : Path.Normalized L.nfc p)
    (hb : Becomes L d d' (d.root.fileAt L) (d.root.dirAt L) (p :: Path.ancestors p)) :
    d'.Rooted L A := by
  refine ⟨hd', ?_⟩
  have hfiles : d'.root.filePaths L = d.root.filePaths L := by
    rw [Root.filePaths, hb.files, Root.filePaths]
  have hdirs : d'.root.dirPaths L = insert p (d.root.dirPaths L ∪ {q | q ∈ Path.ancestors p}) := by
    refine hb.dirs.keys.trans (Set.ext fun x => ?_)
    simp [Root.dirPaths, or_left_comm]
  refine hd.hung.add hp ?_ hdirs.subset ?_
  · rw [hfiles]
    exact Set.subset_insert _ _
  · rw [hdirs]
    exact Set.subset_insert _ _

theorem child_iff (hp : Path.Normalized L.nfc p) : Root.child p q = true ↔ Path.Below p q :=
  Path.strictlyUnder_iff hp.ne_nil

/-- A directory goes with everything below it. Where directories below it stay, it stays too,
as another entry of its path. -/
theorem Rooted.directoryDeleted (hd : d.Rooted L A) (hd' : d'.Settled L A) {path : Str}
    {recursive : Bool} (hp : Path.normalize L.nfc path = .ok p)
    (hok : ¬ Orphans L d (.deleteDirectory path recursive))
    (hempty : recursive = false → ∀ fid f, d.root.fileAt L fid = some f →
      Root.child p f.path = false)
    (hfiles : d'.root.fileAt L =
      fun fid => (d.root.fileAt L fid).filter fun f => !Root.child p f.path)
    (hdirs : Without p (withoutChildren p recursive (d.root.dirAt L)) (d'.root.dirAt L)) :
    d'.Rooted L A := by
  have hnorm := Path.normalized_of_normalize hp
  have hchild (x : Str) : Root.child p x = false ↔ ¬ Path.Below p x := by
    rw [← child_iff hnorm, Bool.not_eq_true]
  have hkept {x : Str} (hx : x ∈ d'.root.filePaths L) :
      x ∈ d.root.filePaths L ∧ ¬ Path.Below p x := by
    obtain ⟨fid, f, hf, rfl⟩ := hx
    rw [hfiles] at hf
    obtain ⟨hf, hbelow⟩ := Option.filter_eq_some_iff.mp hf
    rw [Bool.not_eq_true'] at hbelow
    exact ⟨Index.mem_keys_of hf, (hchild _).mp hbelow⟩
  -- What is left of the directories, but for the entry at `p` itself.
  have hold {did : Str} {f : LiveDirectory} (hf : d'.root.dirAt L did = some f) :
      withoutChildren p recursive (d.root.dirAt L) did = some f := by
    rcases hdirs with ⟨did', f', -, -, hdirs⟩ | ⟨-, hdirs⟩
    · rw [hdirs, Index.update_eq_some] at hf
      rcases hf with ⟨-, hf⟩ | ⟨-, hf⟩
      · cases hf
      · exact hf
    · rwa [hdirs] at hf
  have hstays {did : Str} {f : LiveDirectory} (hne : f.path ≠ p)
      (hf : withoutChildren p recursive (d.root.dirAt L) did = some f) :
      f.path ∈ d'.root.dirPaths L := by
    rcases hdirs with ⟨did', f', hf', hpath, hdirs⟩ | ⟨-, hdirs⟩
    · refine Index.mem_keys_of (i := did) ?_
      rw [hdirs, Index.update_eq_some]
      refine .inr ⟨?_, hf⟩
      rintro rfl
      rw [hf'] at hf
      obtain rfl := Option.some.inj hf
      exact hne hpath
    · refine Index.mem_keys_of (i := did) ?_
      rw [hdirs]
      exact hf
  refine ⟨hd', ?_⟩
  cases recursive with
  | true =>
    simp only [withoutChildren, if_true, Option.filter_eq_some_iff, Bool.not_eq_true', hchild]
      at hold hstays
    refine hd.hung.delete (p := p) (fun x hx => hkept hx) ?_ ?_
    · rintro x ⟨did, f, hf, rfl⟩
      exact ⟨Index.mem_keys_of (hold hf).1, (hold hf).2⟩
    · rintro x ⟨⟨did, f, hf, rfl⟩, hbelow, hne⟩
      exact hstays hne ⟨hf, hbelow⟩
  | false =>
    have hnoFiles : ∀ x ∈ d.root.filePaths L, ¬ Path.Below p x := by
      rintro x ⟨fid, f, hf, rfl⟩
      exact (hchild _).mp (hempty rfl fid f hf)
    simp only [withoutChildren, Bool.false_eq_true, if_false] at hold hstays hdirs
    have hsub : d'.root.dirPaths L ⊆ d.root.dirPaths L := by
      rintro x ⟨did, f, hf, rfl⟩
      exact Index.mem_keys_of (hold hf)
    by_cases hbelow : ∃ x ∈ d.root.dirPaths L, Path.Below p x
    · have hthere : p ∈ d'.root.dirPaths L := by
        rcases hdirs with ⟨did, f, hf, hpath, hdirs⟩ | ⟨hnone, -⟩
        · by_contra hgone
          refine hok ⟨p, hp, rfl, hnoFiles, hbelow, did, f, hf, hpath, fun did' f' hf' hpath' => ?_⟩
          by_contra hne
          refine hgone ⟨did', f', ?_, hpath'⟩
          rw [hdirs, Function.update_of_ne hne]
          exact hf'
        · obtain ⟨x, hx, hpx⟩ := hbelow
          exact absurd (hd.hung x (.inr hx) p hpx) hnone
      have hsame : d.root.dirPaths L ⊆ d'.root.dirPaths L := by
        rintro x ⟨did, f, hf, rfl⟩
        by_cases hne : f.path = p
        · rwa [hne]
        · exact hstays hne hf
      intro x hx y hy
      refine hsame (hd.hung x (hx.imp (fun hx => (hkept hx).1) fun hx => hsub hx) y hy)
    · simp only [not_exists, not_and] at hbelow
      refine hd.hung.delete (p := p) (fun x hx => hkept hx)
        (fun x hx => ⟨hsub hx, hbelow x (hsub hx)⟩) ?_
      rintro x ⟨⟨did, f, hf, rfl⟩, -, hne⟩
      exact hstays hne hf

/-! ### Renaming a directory -/

theorem path_movedFile (hp : Path.Normalized L.nfc p) (f : LiveFile) : (movedFile p q f).path =
    if f.path = p ∨ Path.Below p f.path then Path.moved p q f.path else f.path := by
  unfold movedFile
  rw [ite_cond_congr (propext (Path.under_iff hp.ne_nil))]
  split <;> rfl

theorem path_movedDirectory (hp : Path.Normalized L.nfc p) (f : LiveDirectory) :
    (movedDirectory p q f).path =
      if Path.Below p f.path then Path.moved p q f.path else f.path := by
  unfold movedDirectory
  rw [ite_cond_congr (propext (child_iff hp))]
  split <;> rfl

/-- The keys of a table whose entries have changed one by one. -/
theorem mem_keys_map {α : Type} {key : α → Str} {t : Str → Option α} {g : α → α}
    {m : Str → Str} (hg : ∀ a, key (g a) = m (key a)) {x : Str} :
    x ∈ Index.keys key (fun i => (t i).map g) ↔ ∃ y ∈ Index.keys key t, x = m y := by
  simp only [Index.keys, Set.mem_ofPred_eq, Option.map_eq_some_iff]
  constructor
  · rintro ⟨i, -, ⟨a, ha, rfl⟩, rfl⟩
    exact ⟨key a, ⟨i, a, ha, rfl⟩, hg a⟩
  · rintro ⟨-, ⟨i, a, ha, rfl⟩, rfl⟩
    exact ⟨i, _, ⟨a, ha, rfl⟩, hg a⟩

/-- The paths of the directories once `src` has its new path. -/
theorem Redirected.keys {src dst : Str} {dirs dirs' : Str → Option LiveDirectory}
    (h : Redirected src dst dirs dirs') {x : Str} (hx : x ≠ src) :
    x ∈ Index.keys LiveDirectory.path dirs' ↔ x ∈ Index.keys LiveDirectory.path dirs ∨
      (x = dst ∧ src ∈ Index.keys LiveDirectory.path dirs) := by
  rcases h with ⟨did, f, hf, rfl, rfl⟩ | ⟨hnone, rfl⟩
  · constructor
    · rintro ⟨did', f', hf', rfl⟩
      rw [Index.update_eq_some] at hf'
      rcases hf' with ⟨-, hf'⟩ | ⟨-, hf'⟩
      · obtain rfl := Option.some.inj hf'
        exact .inr ⟨rfl, Index.mem_keys_of hf⟩
      · exact .inl (Index.mem_keys_of hf')
    · rintro (⟨did', f', hf', rfl⟩ | ⟨rfl, -⟩)
      · refine Index.mem_keys_of (i := did') ?_
        rw [Function.update_of_ne ?_, hf']
        rintro rfl
        rw [hf] at hf'
        exact hx (congrArg LiveDirectory.path (Option.some.inj hf')).symm
      · exact ⟨did, _, Function.update_self .., rfl⟩
  · simp [hnone]

theorem mem_dirPaths_renamed {files : Str → Option LiveFile} {dirs : Str → Option LiveDirectory}
    (hp : Path.Normalized L.nfc p) (hb : Becomes L d d' files
      (fun did => (dirs did).map (movedDirectory p q)) (Path.ancestors q)) {x : Str} :
    x ∈ d'.root.dirPaths L ↔ (∃ y ∈ Index.keys LiveDirectory.path dirs,
      x = if Path.Below p y then Path.moved p q y else y) ∨ x ∈ Path.ancestors q := by
  rw [← mem_keys_map (m := fun y => if Path.Below p y then Path.moved p q y else y)
    (path_movedDirectory hp), Root.dirPaths, hb.dirs.keys]
  rfl

theorem Rooted.directoryRenamed (hd : d.Rooted L A) (hd' : d'.Settled L A) {src dst : Str}
    (hp : Path.normalize L.nfc src = .ok p) (hq : Path.normalize L.nfc dst = .ok q)
    (hok : ¬ Orphans L d (.renameDirectory src dst)) (hne : p ≠ q)
    {dirs : Str → Option LiveDirectory} (hdirs : Redirected p q (d.root.dirAt L) dirs)
    (hb : Becomes L d d' (fun fid => (d.root.fileAt L fid).map (movedFile p q))
      (fun did => (dirs did).map (movedDirectory p q)) (Path.ancestors q)) : d'.Rooted L A := by
  have hnormp := Path.normalized_of_normalize hp
  have hnormq := Path.normalized_of_normalize hq
  have hfiles {x : Str} : x ∈ d'.root.filePaths L ↔ ∃ y ∈ d.root.filePaths L,
      x = if y = p ∨ Path.Below p y then Path.moved p q y else y := by
    rw [Root.filePaths, hb.files]
    exact mem_keys_map (m := fun y => if y = p ∨ Path.Below p y then Path.moved p q y else y)
      (path_movedFile hnormp)
  have hall {x : Str} := mem_dirPaths_renamed hnormp hb (x := x)
  refine ⟨hd', ?_⟩
  by_cases hthere : p ∈ d.root.dirPaths L
  · have hpq : ¬ Path.Below p q := fun hbelow => hok ⟨p, q, hp, hq, hbelow, hthere⟩
    have hkeys {x : Str} (hx : x ≠ p) : x ∈ Index.keys LiveDirectory.path dirs ↔
        x ∈ d.root.dirPaths L ∨ x = q := by
      rw [hdirs.keys hx, Root.dirPaths]
      exact or_congr_right (and_iff_left hthere)
    refine Hung.move (p := p) hd.hung hnormq (fun x hx => ?_) (fun x hx => ?_) ?_
      (fun x hx => hall.mpr (.inr hx)) (fun x hx hxp hbelow => ?_) fun y hy hbelow => ?_
    · obtain ⟨y, hy, rfl⟩ := hfiles.mp hx
      split
      next h =>
        rcases h with rfl | hbelow
        · exact .inr (.inl (Path.moved_self ..))
        · exact .inr (.inr ⟨y, hy, hbelow, rfl⟩)
      next h => exact .inl ⟨hy, fun hbelow => h (.inr hbelow)⟩
    · rcases hall.mp hx with ⟨y, hy, rfl⟩ | hx
      · by_cases hyp : y = p
        · subst hyp
          rw [if_neg fun h => h.ne rfl]
          exact .inl ⟨hthere, fun h => h.ne rfl⟩
        · rcases (hkeys hyp).mp hy with hy | rfl
          · split
            next hbelow => exact .inr (.inr (.inr ⟨y, hy, hbelow, rfl⟩))
            next hbelow => exact .inl ⟨hy, hbelow⟩
          · rw [if_neg hpq]
            exact .inr (.inl rfl)
      · exact .inr (.inr (.inl hx))
    · refine hall.mpr (.inl ⟨q, (hkeys (Ne.symm hne)).mpr (.inr rfl), ?_⟩)
      rw [if_neg hpq]
    · refine hall.mpr (.inl ⟨x, (hkeys hxp).mpr (.inl hx), ?_⟩)
      rw [if_neg hbelow]
    · refine hall.mpr (.inl ⟨y, (hkeys hbelow.ne.symm).mpr (.inl hy), ?_⟩)
      rw [if_pos hbelow]
  · -- Without a directory at `p` nothing is below it, and only a file at `p` itself moves.
    have hnone {x : Str} (hx : x ∈ d.root.filePaths L ∪ d.root.dirPaths L) : ¬ Path.Below p x :=
      fun hbelow => hthere (hd.hung x hx p hbelow)
    obtain rfl : dirs = d.root.dirAt L := by
      rcases hdirs with ⟨did, f, hf, hpath, -⟩ | ⟨-, hdirs⟩
      · exact absurd ⟨did, f, hf, hpath⟩ hthere
      · exact hdirs
    have hsame {x : Str} : x ∈ d'.root.dirPaths L ↔
        x ∈ d.root.dirPaths L ∨ x ∈ Path.ancestors q := by
      refine hall.trans (or_congr_left ⟨fun ⟨y, hy, hx⟩ => ?_, fun hx => ⟨x, hx, ?_⟩⟩)
      · rw [if_neg (hnone (.inr hy))] at hx
        exact hx ▸ hy
      · rw [if_neg (hnone (.inr hx))]
    refine hd.hung.add hnormq (fun x hx => ?_) (fun x hx => .inr (hsame.mp hx))
      fun x hx => hsame.mpr hx
    obtain ⟨y, hy, rfl⟩ := hfiles.mp hx
    split
    next h =>
      obtain rfl := h.resolve_right (hnone (.inl hy))
      exact .inl (Path.moved_self ..)
    next => exact .inr hy

/-! ### Runs -/

/-- What a call on a file leaves. -/
inductive Effect (L : Crates) (d : Doc) : Doc → Prop where
  | none : Effect L d d
  | rewritten {d' : Doc} {fid : Str} {f f' : LiveFile} (hf : d.root.fileAt L fid = some f)
      (hpath : f'.path = f.path)
      (hb : Becomes L d d' (Function.update (d.root.fileAt L) fid (some f')) (d.root.dirAt L) []) :
      Effect L d d'
  | placed {d' : Doc} {fid : Str} {f : LiveFile} (hnorm : Path.Normalized L.nfc f.path)
      (hfree : f.path ∉ d.root.filePaths L)
      (hb : Becomes L d d' (Function.update (d.root.fileAt L) fid (some f)) (d.root.dirAt L)
        (Path.ancestors f.path)) : Effect L d d'
  | deleted {d' : Doc} {fid : Str}
      (hb : Becomes L d d' (Function.update (d.root.fileAt L) fid Option.none) (d.root.dirAt L) []) :
      Effect L d d'
  | created {d' : Doc} {p : Str} (hnorm : Path.Normalized L.nfc p)
      (hb : Becomes L d d' (d.root.fileAt L) (d.root.dirAt L) (p :: Path.ancestors p)) :
      Effect L d d'

theorem Wrote.effect {x : DocM Str} {kind : FileKind} {size : Int} {body : Body}
    (h : Wrote L x d p kind size body) (hp : Path.Normalized L.nfc p) :
    Effect L d (d.after (x >>= fun _ => pure ())) := by
  rcases h with ⟨fid, f, hf, rfl, _, d', hrun, hb⟩ | ⟨hnone, fid, d', hrun, -, now, hb⟩
  · rw [after_ok (unit_ok hrun)]
    exact .rewritten hf (rfl : ({ f with kind, size, body } : LiveFile).path = f.path) hb
  · rw [after_ok (unit_ok hrun)]
    exact .placed hp hnone hb

theorem Settled.effect (hd : d.Settled L A) (op : FileOp) :
    Effect L d (d.after (op.run L)) := by
  have hdone {d' : Doc} {a : Unit} (hrun : op.run L d = .ok a d') (h : Effect L d d') :
      Effect L d (d.after (op.run L)) := by
    rwa [after_ok hrun]
  have hfail {e : Error} (hrun : op.run L d = .error e d) : Effect L d (d.after (op.run L)) := by
    rw [after_error hrun]
    exact .none
  cases op with
  | writeTextFile path content =>
    cases hp : Path.normalize L.nfc path with
    | error e => exact hfail (unit_error (lift_error hp _))
    | ok p =>
      exact (writeTextFile_outcome hd.readable hd.fresh hp content).effect
        (Path.normalized_of_normalize hp)
  | writeAttachment path hash size =>
    cases hp : Path.normalize L.nfc path with
    | error e => exact hfail (unit_error (lift_error hp _))
    | ok p =>
      exact (writeAttachment_outcome hd.readable hd.fresh hp hash size).effect
        (Path.normalized_of_normalize hp)
  | deleteFile path =>
    cases hp : Path.normalize L.nfc path with
    | error e => exact hfail (lift_error hp _)
    | ok p =>
      rcases deleteFile_outcome hd.readable hd.fresh hp with
        ⟨fid, f, -, -, _, d', hrun, hb⟩ | ⟨-, hrun⟩
      · exact hdone hrun (.deleted hb)
      · exact hfail hrun
  | renameFile src dst =>
    cases hp : Path.normalize L.nfc src with
    | error e => exact hfail (lift_error hp _)
    | ok p =>
      cases hq : Path.normalize L.nfc dst with
      | error e => exact hfail (lift_lift_error hp hq _)
      | ok q =>
        rcases renameFile_outcome hd.readable hd.fresh hp hq with
          ⟨-, hrun⟩ | ⟨-, -, e, hrun⟩ | ⟨-, hfree, fid, f, hf, -, _, d', hrun, hb⟩
        · exact hdone hrun .none
        · exact hfail hrun
        · exact hdone hrun (.placed (f := { f with path := q })
            (Path.normalized_of_normalize hq) hfree hb)
  | createDirectory path =>
    cases hp : Path.normalize L.nfc path with
    | error e => exact hfail (unit_error (lift_error hp _))
    | ok p =>
      rcases createDirectory_outcome hd.readable hd.fresh hp with
        ⟨did, hrun, -⟩ | ⟨-, did, d', hrun, hb⟩
      · exact hdone (unit_ok hrun) .none
      · exact hdone (unit_ok hrun) (.created (Path.normalized_of_normalize hp) hb)

theorem Rooted.file (hd : d.Rooted L A) (op : FileOp) : (d.after (op.run L)).Rooted L A := by
  have hsound : (d.after (op.run L)).Sound L.nfc A := op.run_keeps.after hd.settled.sound
  have heffect := hd.settled.effect op
  generalize d.after (op.run L) = d' at hsound heffect ⊢
  cases heffect with
  | none => exact hd
  | rewritten hf hpath hb =>
    refine hd.fileWritten (.becomes hsound hb) ?_ hb (.inr ⟨rfl, ?_⟩)
    · rw [hpath]
      exact normalized_of_fileAt hd.settled hf
    · rw [hpath]
      exact Index.mem_keys_of hf
  | placed hnorm hfree hb => exact hd.fileWritten (.becomes hsound hb) hnorm hb (.inl rfl)
  | deleted hb => exact hd.fileDeleted (.becomes hsound hb) hb
  | created hnorm hb => exact hd.created (.becomes hsound hb) hnorm hb

theorem Settled.deleteDirectory_outcome (hd : d.Settled L A) {path : Str} (recursive : Bool)
    (hp : Path.normalize L.nfc path = .ok p) :
    ((∃ fid f, d.root.fileAt L fid = some f ∧ Root.child p f.path = true) ∧ recursive = false ∧
      ∃ e, deleteDirectory L path recursive d = .error e {d with draws := d.draws + 1}) ∨
    (recursive = false → ∀ fid f, d.root.fileAt L fid = some f → Root.child p f.path = false) ∧
    Ends (deleteDirectory L path recursive) d fun _ d' => ∃ mid,
      mid.root.fileAt L = (fun fid => (d.root.fileAt L fid).filter fun f => !Root.child p f.path) ∧
      ∃ dirs, Without p (withoutChildren p recursive (d.root.dirAt L)) dirs ∧
        Becomes L mid d' (mid.root.fileAt L) dirs [] := by
  have hoc := @Doc.deleteDirectory_outcome L A p d (fun _ => True) path recursive
    (fun _ _ _ _ _ _ _ _ => trivial) hd trivial hp
  refine hoc.imp_right (And.imp_right fun h => h.weaken fun _ d' hd' => ?_)
  obtain ⟨mid, -, -, -, -, hmid⟩ := hd'
  exact ⟨mid, hmid⟩

/-- **One call** that tears nothing off leaves everything on live directories. -/
theorem Rooted.after (hd : d.Rooted L A) (op : TreeOp) (hok : ¬ Orphans L d op) :
    (d.after (op.run L)).Rooted L A := by
  have hfail {e : Error} (hrun : op.run L d = .error e d) : (d.after (op.run L)).Rooted L A := by
    rw [after_error hrun]
    exact hd
  cases op with
  | file op => exact hd.file op
  | deleteDirectory path recursive =>
    cases hp : Path.normalize L.nfc path with
    | error e => exact hfail (lift_error hp _)
    | ok p =>
      rcases hd.settled.deleteDirectory_outcome recursive hp with
        ⟨-, -, e, hrun⟩ | ⟨hempty, _, d', hrun, mid, hfiles, dirs, hwithout, hb⟩
      · rw [TreeOp.run, after_error hrun]
        exact ⟨hd.settled.draw (Nat.le_succ _), hd.hung⟩
      · rw [TreeOp.run, after_ok hrun]
        have hsound := (deleteDirectory_keeps path recursive).of_ok hd.settled.sound hrun
        exact hd.directoryDeleted (.becomes hsound hb) hp hok hempty (hb.files.trans hfiles)
          (hb.dirs.eq_of_nil ▸ hwithout)
  | renameDirectory src dst =>
    cases hp : Path.normalize L.nfc src with
    | error e => exact hfail (lift_error hp _)
    | ok p =>
      cases hq : Path.normalize L.nfc dst with
      | error e => exact hfail (lift_lift_error hp hq _)
      | ok q =>
        rcases renameDirectory_outcome hd.settled hp hq with
          ⟨-, hrun⟩ | ⟨hne, _, d', hrun, dirs, hredirected, hb⟩
        · rw [TreeOp.run, after_ok hrun]
          exact hd
        · rw [TreeOp.run, after_ok hrun]
          have hsound := (renameDirectory_keeps src dst).of_ok hd.settled.sound hrun
          exact hd.directoryRenamed (.becomes hsound hb) hp hq hok hne hredirected hb

/-- **Every other call tears something off.** -/
theorem Rooted.orphaned (hd : d.Rooted L A) {op : TreeOp} (hbad : Orphans L d op) :
    ¬ (d.after (op.run L)).root.Closed L := by
  intro hclosed
  cases op with
  | file op => exact hbad
  | deleteDirectory path recursive =>
    obtain ⟨p, hp, rfl, hnoFiles, ⟨x, hx, hpx⟩, did, f, hf, hpath, honly⟩ := hbad
    have hnorm := Path.normalized_of_normalize hp
    rcases hd.settled.deleteDirectory_outcome false hp with
      ⟨⟨fid, f', hf', hchild⟩, -⟩ | ⟨-, _, d', hrun, mid, -, dirs, hwithout, hb⟩
    · exact hnoFiles _ (Index.mem_keys_of hf') ((child_iff hnorm).mp hchild)
    · rw [TreeOp.run, after_ok hrun] at hclosed
      have hd' : d'.Settled L A :=
        .becomes ((deleteDirectory_keeps path false).of_ok hd.settled.sound hrun) hb
      have hdirs : d'.root.dirAt L = Function.update (d.root.dirAt L) did none := by
        rw [hb.dirs.eq_of_nil]
        rcases hwithout with ⟨did', f', hf', hpath', rfl⟩ | ⟨hnone, -⟩
        · rw [honly did' f' hf' hpath']
          rfl
        · exact absurd ⟨did, f, hf, hpath⟩ hnone
      have hthere : x ∈ d'.root.dirPaths L := by
        obtain ⟨did', f', hf', rfl⟩ := hx
        refine Index.mem_keys_of (i := did') ?_
        rw [hdirs, Function.update_of_ne ?_, hf']
        rintro rfl
        rw [hf] at hf'
        exact hpx.ne (hpath.symm.trans (congrArg LiveDirectory.path (Option.some.inj hf')))
      obtain ⟨did', f', hf', hpath'⟩ := hd'.closed_iff.mp hclosed x (.inr hthere) p hpx
      rw [hdirs, Index.update_eq_some] at hf'
      rcases hf' with ⟨-, hf'⟩ | ⟨hne, hf'⟩
      · cases hf'
      · exact hne (honly did' f' hf' hpath')
  | renameDirectory src dst =>
    obtain ⟨p, q, hp, hq, hpq, hthere⟩ := hbad
    have hnorm := Path.normalized_of_normalize hp
    rcases renameDirectory_outcome hd.settled hp hq with
      ⟨heq, -⟩ | ⟨hne, _, d', hrun, dirs, hredirected, hb⟩
    · exact hpq.ne heq
    · rw [TreeOp.run, after_ok hrun] at hclosed
      have hd' : d'.Settled L A :=
        .becomes ((renameDirectory_keeps src dst).of_ok hd.settled.sound hrun) hb
      -- The directory itself is moved twice, and nothing is left where it was to go.
      have htwice : Path.moved p q q ∈ d'.root.dirPaths L := by
        refine (mem_dirPaths_renamed hnorm hb).mpr (.inl ⟨q, ?_, ?_⟩)
        · exact (hredirected.keys (Ne.symm hne)).mpr (.inr ⟨rfl, hthere⟩)
        · rw [if_pos hpq]
      have hgone : q ∉ d'.root.dirPaths L := by
        rw [mem_dirPaths_renamed hnorm hb]
        rintro (⟨y, -, hy⟩ | habove)
        · split at hy
          next hbelow => exact hbelow.moved.ne hy
          next hbelow => exact hbelow (hy ▸ hpq)
        · exact ((Path.normalized_of_normalize hq).mem_ancestors.mp habove).ne rfl
      exact hgone (hd'.closed_iff.mp hclosed _ (.inr htwice) q hpq.moved)

theorem Rooted.new (vaultId : Str) {supply : Supply} (hids : Function.Injective supply.id) :
    (Doc.new A vaultId supply).Rooted L A where
  settled := ⟨new_sound vaultId supply, (wellFormed_new vaultId supply).readable, .new vaultId hids⟩
  hung := by
    rintro p (⟨fid, f, hf, -⟩ | ⟨did, f, hf, -⟩)
    · rw [Root.fileAt_of_none (get_new_file ..)] at hf
      cases hf
    · rw [Root.dirAt_of_none (get_new_dir ..)] at hf
      cases hf

/-- A call and the document it leaves, failed or not. -/
def treeStep (L : Crates) (d : Doc) (op : TreeOp) : Option Doc := some (d.after (op.run L))

/-- **Ancestor closure.** After every sequence of calls none of which deletes a directory that
holds directories only, without the flag, or renames a directory to a path below itself,
everything live lies on live directories. -/
theorem ancestor_closure {vaultId : Str} {supply : Supply} (hids : Function.Injective supply.id)
    (h : Machine.Reach (treeStep L) (fun d op => ¬ Orphans L d op) (Doc.new A vaultId supply) d) :
    d.root.Closed L := by
  have hd : d.Rooted L A := by
    refine Machine.Reach.invariant (Rooted.new vaultId hids) ?_ h
    intro d op d' hd hok hstep
    obtain rfl := Option.some.inj hstep
    exact hd.after op hok
  exact hd.settled.closed_iff.mpr hd.hung

private def emptied : Doc := .new .plain (txt "vault") (.numbered '1' 16)

private def nested : TreeOp := .file (.createDirectory (txt "a/b"))

private def leftBy (ops : List TreeOp) : Doc :=
  ops.foldl (fun d op => d.after (op.run .plain)) emptied

private theorem reach_leftBy : Machine.Reach (treeStep .plain) (fun d op => ¬ Orphans .plain d op)
    emptied (leftBy [nested, .deleteDirectory (txt "a/b") true]) :=
  .step (.deleteDirectory (txt "a/b") true) (.step nested .start not_orphans_file rfl)
    not_orphans_recursive rfl

theorem ancestor_closure_recursive :
    (leftBy [nested, .deleteDirectory (txt "a/b") true]).root.Closed .plain :=
  ancestor_closure (A := .plain) (Supply.numbered_injective '1' 16) reach_leftBy

/-- Deleting `a`, which holds only the directory `b`, leaves `a/b` live. -/
theorem ancestor_closure_hollow :
    ¬ ∀ d, Machine.Reach (treeStep .plain) (fun _ _ => True) emptied d → d.root.Closed .plain := by
  intro h
  have hclosed := h (leftBy [nested, .deleteDirectory (txt "a") false])
    (.step (.deleteDirectory (txt "a") false) (.step nested .start trivial rfl) trivial rfl)
  generalize hd : leftBy [nested, .deleteDirectory (txt "a") false] = d at hclosed
  have hchild : d.root.dirAt .plain (d.supply.id 0) = some ⟨d.supply.id 0, txt "a/b", 1⟩ := by
    subst hd
    decide +kernel
  have hkeys : (d.root.dirKeys.all fun did => (d.root.dirAt .plain did).all
      fun f => f.path != txt "a") = true := by
    subst hd
    decide +kernel
  obtain ⟨did, f, hf, hpath⟩ := hclosed (txt "a/b") (.inr (Index.mem_keys_of hchild)) (txt "a")
    (by decide)
  have hkey : did ∈ d.root.dirKeys := by
    rw [Root.mem_dirKeys, Option.isSome_iff_ne_none]
    exact Root.get_of_hasObject (Root.dirAt_hasObject hf)
  have hne := List.all_eq_true.mp hkeys did hkey
  rw [hf, Option.all_some, hpath] at hne
  exact absurd hne (by decide)

end Doc

end AgentSync
