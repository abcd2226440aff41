import AgentSync.Doc.Outcome

/-! What deleting and renaming a directory make of the tables.

Both work through everything below a path, entry by entry. Deleting takes the files away one
commit at a time; whatever every such commit keeps (`J` below) still holds before the
directories themselves go. -/
namespace AgentSync

variable {L : Crates} {A : Automerge} {r : Root} {fid did p : Str}

namespace Root

/-! ### Children -/

/-- Strictly below, as the code tests it. -/
def child (dir p : Str) : Bool := Path.under dir p && p != dir

/-- The directories below a path, from the table. -/
theorem childDirsIn_eq (h : r.Readable L) (p : Str) (dids : List Str) :
    Doc.childDirsIn L r p dids =
      .ok (dids.filter fun did => (r.dirAt L did).any fun f => child p f.path) := by
  induction dids with
  | nil => rfl
  | cons did rest ih =>
    rw [Doc.childDirsIn, List.filter_cons]
    by_cases hdir : r.hasObject (.dir did) = true
    · obtain ⟨⟨q, hq⟩, ⟨c, hc⟩, ⟨n, hn⟩⟩ := h.directory did hdir
      simp only [hdir, hn, hq, bind, Except.bind, Bool.not_true, Bool.false_eq_true, if_false, ih]
      have hentry := dirAt_of_fields hdir hq hc hn
      cases n with
      | some n => simp [hentry]
      | none =>
        cases q with
        | none => simp [hentry]
        | some q =>
          simp only [hentry, child, Option.isSome_none, Bool.false_eq_true, if_false,
            Option.map_some, Option.any_some, pure, Except.pure]
    · have hnone : r.dirAt L did = none := by
        simp [dirAt, readDirectoryMeta, hdir, pure, Except.pure]
      simp [hdir, hnone, ih]

theorem childDirs_eq (h : r.Readable L) (p : Str) : Doc.childDirs L p r =
    .ok (r.dirKeys.filter fun did => (r.dirAt L did).any fun f => child p f.path) := by
  simp [Doc.childDirs, h.directories, childDirsIn_eq h, bind, Except.bind]

theorem mem_childDirs {did : Str} :
    did ∈ r.dirKeys.filter (fun did => (r.dirAt L did).any fun f => child p f.path) ↔
      ∃ f, r.dirAt L did = some f ∧ child p f.path = true := by
  rw [List.mem_filter, Option.any_eq_true]
  refine ⟨fun h => h.2, fun h => ⟨?_, h⟩⟩
  obtain ⟨f, hf, -⟩ := h
  rw [mem_dirKeys, Option.isSome_iff_ne_none]
  exact get_of_hasObject (dirAt_hasObject hf)

/-- The paths of the files below a path are those of the live entries, one for each. -/
theorem childFiles_eq (h : r.Readable L) (p : Str) : ∃ fids : List Str, fids.Nodup ∧
    (∀ fid, fid ∈ fids ↔ ∃ f, r.fileAt L fid = some f ∧ child p f.path = true) ∧
    Doc.childFiles L p r =
      .ok (fids.map fun fid => ((r.fileAt L fid).map LiveFile.path).getD []) := by
  obtain ⟨metas, hmetas⟩ := exists_liveFilesIn (L := L) r.fileKeys fun fid _ => h.file fid
  obtain ⟨files, hfiles⟩ : ∃ files, r.listFiles L = .ok files :=
    ⟨_, listFiles_eq_ok.mpr ⟨h.files, metas, hmetas, rfl⟩⟩
  have hentry (m : FileMeta) (hm : m ∈ files) : r.fileAt L m.id = some (r.liveFile m) := by
    obtain ⟨hread, hlive⟩ := (mem_listFiles hfiles).mp hm
    exact fileAt_of_read hread hlive
  refine ⟨(files.filter fun m => child p m.path).map FileMeta.id, ?_, fun fid => ?_, ?_⟩
  · exact (nodup_listFiles hfiles).sublist (List.filter_sublist.map _)
  · rw [List.mem_map]
    constructor
    · rintro ⟨m, hm, rfl⟩
      obtain ⟨hm, hchild⟩ := List.mem_filter.mp hm
      exact ⟨_, hentry m hm, hchild⟩
    · intro ⟨f, hf, hchild⟩
      obtain ⟨m, hm, hlive, rfl⟩ := fileAt_eq_some.mp hf
      have hid := (readFileMeta_eq_some.mp hm).2.2.2.2.2.2.2.2.2.2
      subst hid
      exact ⟨m, List.mem_filter.mpr ⟨(mem_listFiles hfiles).mpr ⟨hm, hlive⟩, hchild⟩, rfl⟩
  · simp only [Doc.childFiles, hfiles, bind, Except.bind, pure, Except.pure, List.map_map]
    refine congrArg Except.ok (List.map_congr_left fun m hm => ?_)
    simp [hentry m (List.mem_filter.mp hm).1, liveFile]

end Root

namespace Doc

variable {d d' : Doc}

/-- A document whose entries can be read, and whose ids are still to be drawn. -/
structure Settled (L : Crates) (A : Automerge) (d : Doc) : Prop where
  sound : d.Sound L.nfc A
  readable : d.root.Readable L
  fresh : d.Fresh

theorem Settled.ready (h : d.Settled L A) : d.root.Ready L :=
  ⟨h.sound.rootTyped, h.sound.rootComplete, h.readable.files, h.readable.directories⟩

theorem Settled.draw (h : d.Settled L A) {n : Nat} (hn : d.draws ≤ n) :
    {d with draws := n}.Settled L A :=
  ⟨h.sound.draw n, h.readable, h.fresh.draw hn⟩

theorem Settled.becomes {files : Str → Option LiveFile} {dirs : Str → Option LiveDirectory}
    {paths : List Str} (hsound : d'.Sound L.nfc A) (h : Becomes L d d' files dirs paths) :
    d'.Settled L A :=
  ⟨hsound, h.readable, h.fresh⟩

theorem Keeps.of_ok {α : Type} {x : DocM α} {Q : α → Prop} {N : Nfc} (h : Keeps N A x Q)
    (hd : d.Sound N A) {a : α} (hrun : x d = .ok a d') : d'.Sound N A := by
  have hkept := h d hd
  rw [hrun] at hkept
  exact hkept.1

/-- A loop whose turns each bring an invariant on what is left to do one turn further. -/
theorem Ends.forM {γ : Type} {f : γ → DocM PUnit} {I : List γ → Doc → Prop} (xs : List γ)
    (hstep : ∀ x rest d, I (x :: rest) d → Ends (f x) d fun _ d' => I rest d') (h : I xs d) :
    Ends (xs.forM f) d fun _ d' => I [] d' := by
  induction xs generalizing d with
  | nil => exact .pure h
  | cons x rest ih => exact .bind ((hstep x rest d h).weaken fun _ _ h' => ih h')

/-! ### Deleting -/

/-- Any of the live files at a path may be the one that is deleted, so as many deletions as
there are files at each path delete them all. -/
theorem deleteFiles_ends {J : Doc → Prop}
    (hJ : ∀ d d' fid f, J d → d.root.fileAt L fid = some f → d'.Settled L A →
      Becomes L d d' (Function.update (d.root.fileAt L) fid none) (d.root.dirAt L) [] → J d')
    (hd : d.Settled L A) (hj : J d) {P : Str → Prop} {fids : List Str} (hnodup : fids.Nodup)
    (hfids : ∀ fid, fid ∈ fids ↔ ∃ f, d.root.fileAt L fid = some f ∧ P f.path) :
    Ends ((fids.map fun fid => ((d.root.fileAt L fid).map LiveFile.path).getD []).forM
        (deleteFile L)) d fun _ d' =>
      d'.Settled L A ∧ J d' ∧ d'.root.dirAt L = d.root.dirAt L ∧
      (d'.root.fileAt L = fun fid => if fid ∈ fids then none else d.root.fileAt L fid) ∧
      d'.supply = d.supply ∧ d.draws ≤ d'.draws := by
  let pathOf (fid : Str) : Str := ((d.root.fileAt L fid).map LiveFile.path).getD []
  -- What is left to delete are the paths of `ids`; the others are gone.
  refine (Ends.forM (fids.map pathOf) (I := fun rest d' =>
    (d'.Settled L A ∧ J d' ∧ d'.root.dirAt L = d.root.dirAt L ∧
      d'.supply = d.supply ∧ d.draws ≤ d'.draws) ∧
    ∃ ids : List Str, ids.Nodup ∧ ids ⊆ fids ∧ rest.Perm (ids.map pathOf) ∧
      d'.root.fileAt L = fun fid => if fid ∈ fids ∧ fid ∉ ids then none else d.root.fileAt L fid)
    (fun q rest d' ⟨⟨hd', hj', hdirs, hsupply, hdraws⟩, ids, hids, hsub, hperm, hfiles⟩ => ?_)
    ?_).weaken ?_
  · obtain ⟨fid₀, hfid₀, hq⟩ := List.mem_map.mp (hperm.subset List.mem_cons_self)
    obtain ⟨f₀, hf₀, hP⟩ := (hfids fid₀).mp (hsub hfid₀)
    have hpath : f₀.path = q := by simpa [pathOf, hf₀] using hq
    have hlive : d'.root.fileAt L fid₀ = some f₀ := by
      rw [hfiles]
      simp [hfid₀, hf₀]
    have hnorm : Path.normalize L.nfc q = .ok q := by
      obtain ⟨m, hm, -, rfl⟩ := Root.fileAt_eq_some.mp hlive
      rw [← hpath]
      exact hd'.sound.rootTyped.normalized hm
    rcases deleteFile_outcome hd'.readable hd'.fresh hnorm with
      ⟨fid, f, hf, hfq, _, d'', hrun, hb⟩ | ⟨hnone, -⟩
    · have hsettled := Settled.becomes ((deleteFile_keeps q).of_ok hd'.sound hrun) hb
      have hold : ¬ (fid ∈ fids ∧ fid ∉ ids) ∧ d.root.fileAt L fid = some f := by
        rw [hfiles] at hf
        by_cases hgone : fid ∈ fids ∧ fid ∉ ids
        · simp [hgone] at hf
        · exact ⟨hgone, by simpa [hgone] using hf⟩
      have hin : fid ∈ ids := by
        have hfid : fid ∈ fids := (hfids fid).mpr ⟨f, hold.2, by rwa [hfq, ← hpath]⟩
        by_contra hno
        exact hold.1 ⟨hfid, hno⟩
      refine ⟨_, d'', hrun, ⟨hsettled, hJ d' d'' fid f hj' hf hsettled hb,
        hb.dirs.eq_of_nil.trans hdirs, hb.supply.trans hsupply, hdraws.trans hb.draws⟩,
        ids.erase fid, hids.erase fid, List.Subset.trans List.erase_subset hsub, ?_, ?_⟩
      · have hpathOf : pathOf fid = q := by simp [pathOf, hold.2, hfq]
        have hperm' := hperm.trans ((List.perm_cons_erase hin).map pathOf)
        rw [List.map_cons, hpathOf] at hperm'
        exact hperm'.cons_inv
      · rw [hb.files, hfiles]
        funext fid'
        by_cases hfid' : fid' = fid
        · subst hfid'
          simp [hsub hin, hids.not_mem_erase]
        · rw [Function.update_of_ne hfid']
          simp [List.mem_erase_of_ne hfid']
    · exact absurd (hpath ▸ Index.mem_keys_of hlive) hnone
  · exact ⟨⟨hd, hj, rfl, rfl, Nat.le_refl _⟩, fids, hnodup, List.Subset.refl _, .refl _, by simp⟩
  · rintro - d' ⟨⟨hd', hj', hdirs, hsupply, hdraws⟩, ids, -, -, hperm, hfiles⟩
    have hnil : ids = [] := List.map_eq_nil_iff.mp (List.nil_perm.mp hperm)
    refine ⟨hd', hj', hdirs, ?_, hsupply, hdraws⟩
    rw [hfiles, hnil]
    simp

/-! ### Turns over entries -/

theorem Settled.file_written (hd : d.Settled L A) {ops : List Op} (hblock : Block L.nfc ops)
    (hops : ∀ op ∈ ops, op.target.fileId = some fid) (hfid : d.root.get (.file fid) ≠ none) :
    (d.emitted ops).Settled L A ∧ Draft L d (d.emitted ops)
      (Function.update (d.root.fileAt L) fid ((applyAll d.root ops).fileAt L fid))
      (d.root.dirAt L) [] := by
  have hready := hd.ready.applyAll hblock fun op hop => Root.ne_rootMap_of_fileId (hops op hop)
  have hdraft := Draft.file hd.readable hd.fresh hops (hready.readable.file fid)
    fun n hn => hd.fresh.ne_file hfid hn
  exact ⟨⟨hd.sound.emitted hblock, hready.readable, hdraft.fresh⟩, hdraft⟩

theorem Settled.directory_written (hd : d.Settled L A) {ops : List Op} (hblock : Block L.nfc ops)
    (hops : ∀ op ∈ ops, op.target.dirId = some did) (hdid : d.root.get (.dir did) ≠ none) :
    (d.emitted ops).Settled L A ∧ Draft L d (d.emitted ops) (d.root.fileAt L)
      (Function.update (d.root.dirAt L) did ((applyAll d.root ops).dirAt L did)) [] := by
  have hready := hd.ready.applyAll hblock fun op hop => Root.ne_rootMap_of_dirId (hops op hop)
  have hfresh := hd.fresh.directory_written hops fun n hn => hd.fresh.ne_dir hdid hn
  refine ⟨⟨hd.sound.emitted hblock, hready.readable, hfresh⟩, hready.readable, hfresh,
    Root.fileAt_applyAll_directory hops, ?_, rfl, rfl, Nat.le_refl _⟩
  rw [emitted_root, ← Root.dirAt_applyAll hops]
  exact .refl (by simp)

/-- A loop with one turn for each key changes the table at these keys, if a turn does at its
own and `R` says what turns that follow each other do. -/
theorem turns_ends {β : Type} {T : Doc → Str → Option β}
    {R : Doc → Doc → (Str → Option β) → Prop} {body : Str → DocM PUnit}
    {g : Option β → Option β} {xs : List Str} (hd : d.Settled L A) (hnodup : xs.Nodup)
    (hstart : R d d (T d)) (hT : ∀ d' t, R d d' t → T d' = t)
    (htrans : ∀ d' d'' t t', R d d' t → R d' d'' t' → R d d'' t')
    (hbody : ∀ k d', d'.Settled L A → Ends (body k) d' fun _ d'' => d''.Settled L A ∧
      R d' d'' (Function.update (T d') k (g (T d' k)))) :
    Ends (xs.forM body) d fun _ d' => d'.Settled L A ∧
      R d d' fun k => if k ∈ xs then g (T d k) else T d k := by
  refine (Ends.forM xs (I := fun rest d' => d'.Settled L A ∧ ∃ front, xs = front ++ rest ∧
    R d d' fun k => if k ∈ front then g (T d k) else T d k)
    (fun k rest d' ⟨hd', front, hxs, hfront⟩ => ?_) ?_).weaken ?_
  · refine (hbody k d' hd').weaken fun _ d'' ⟨hd'', hturn⟩ =>
      ⟨hd'', front ++ [k], by simp [hxs], ?_⟩
    have hnew : k ∉ front := by
      rw [hxs] at hnodup
      exact fun hin => (List.nodup_append.mp hnodup).2.2 _ hin _ List.mem_cons_self rfl
    have hupdate : Function.update (T d') k (g (T d' k)) = fun k' =>
        if k' ∈ front ++ [k] then g (T d k') else T d k' := by
      rw [hT d' _ hfront]
      funext k'
      by_cases hk : k' = k
      · subst hk
        simp [hnew]
      · simp [hk]
    exact hupdate ▸ htrans d' d'' _ _ hfront hturn
  · exact ⟨hd, [], rfl, by simpa using hstart⟩
  · rintro - d' ⟨hd', front, hxs, hfront⟩
    rw [List.append_nil] at hxs
    exact ⟨hd', hxs ▸ hfront⟩

/-- A loop over files whose turns each set the entry they come to. -/
theorem fileTurns_ends {body : Str → DocM PUnit} {g : Option LiveFile → Option LiveFile}
    {xs : List Str} (hd : d.Settled L A) (hnodup : xs.Nodup)
    (hbody : ∀ fid d', d'.Settled L A → Ends (body fid) d' fun _ d'' => d''.Settled L A ∧
      Draft L d' d'' (Function.update (d'.root.fileAt L) fid (g (d'.root.fileAt L fid)))
        (d'.root.dirAt L) []) :
    Ends (xs.forM body) d fun _ d' => d'.Settled L A ∧
      Draft L d d' (fun fid => if fid ∈ xs then g (d.root.fileAt L fid) else d.root.fileAt L fid)
        (d.root.dirAt L) [] := by
  refine turns_ends (T := fun d => d.root.fileAt L)
    (R := fun d d' files => Draft L d d' files (d.root.dirAt L) []) hd hnodup
    (Draft.start hd.readable hd.fresh (Nat.le_refl _)) (fun _ _ hdraft => hdraft.files)
    (fun d' d'' _ _ hdraft hturn => ?_) hbody
  exact ⟨hturn.readable, hturn.fresh, hturn.files, hdraft.dirs.eq_of_nil ▸ hturn.dirs,
    hturn.changes.trans hdraft.changes, hturn.supply.trans hdraft.supply,
    hdraft.draws.trans hturn.draws⟩

theorem directoryTurns_ends {body : Str → DocM PUnit}
    {g : Option LiveDirectory → Option LiveDirectory} {xs : List Str} (hd : d.Settled L A)
    (hnodup : xs.Nodup)
    (hbody : ∀ did d', d'.Settled L A → Ends (body did) d' fun _ d'' => d''.Settled L A ∧
      Draft L d' d'' (d'.root.fileAt L)
        (Function.update (d'.root.dirAt L) did (g (d'.root.dirAt L did))) []) :
    Ends (xs.forM body) d fun _ d' => d'.Settled L A ∧ Draft L d d' (d.root.fileAt L)
      (fun did => if did ∈ xs then g (d.root.dirAt L did) else d.root.dirAt L did) [] := by
  refine turns_ends (T := fun d => d.root.dirAt L)
    (R := fun d d' dirs => Draft L d d' (d.root.fileAt L) dirs []) hd hnodup
    (Draft.start hd.readable hd.fresh (Nat.le_refl _)) (fun _ _ hdraft => hdraft.dirs.eq_of_nil)
    (fun d' d'' _ _ hdraft hturn => ?_) hbody
  exact ⟨hturn.readable, hturn.fresh, hturn.files.trans hdraft.files, hturn.dirs,
    hturn.changes.trans hdraft.changes, hturn.supply.trans hdraft.supply,
    hdraft.draws.trans hturn.draws⟩

/-- Marking a directory takes it from the table. -/
theorem markDirectory_ends (hd : d.Settled L A) (now : Int) (did : Str) :
    Ends (markDirectory L now did) d fun _ d' => d'.Settled L A ∧
      Draft L d d' (d.root.fileAt L) (Function.update (d.root.dirAt L) did none) [] := by
  refine .bind (.ask ?_)
  split
  next hdir =>
    refine .bind (.read (hd.ready.typed.writable rfl fun _ h => h) (.emit ?_))
    have hwritten := hd.directory_written (block_markedDirectory did now)
      (by simp [Op.target, Addr.dirId]) (Root.get_of_hasObject hdir)
    rwa [dirAt_marked] at hwritten
  next hno =>
    have hnone : Function.update (d.root.dirAt L) did none = d.root.dirAt L := by
      refine Function.update_eq_self_iff.mpr (Eq.symm ?_)
      by_contra hne
      obtain ⟨f, hf⟩ := Option.ne_none_iff_exists'.mp hne
      exact hno (Root.dirAt_hasObject hf)
    rw [hnone]
    exact .pure ⟨hd, .start hd.readable hd.fresh (Nat.le_refl _)⟩

/-- The directories that are left when those below a path are gone. -/
def withoutChildren (p : Str) (recursive : Bool) (dirs : Str → Option LiveDirectory) :
    Str → Option LiveDirectory := fun did =>
  if recursive then (dirs did).filter fun f => !Root.child p f.path else dirs did

/-- `dirs` without an entry at `p`, if it has one. -/
def Without (p : Str) (dirs dirs' : Str → Option LiveDirectory) : Prop :=
  (∃ did f, dirs did = some f ∧ f.path = p ∧ dirs' = Function.update dirs did none) ∨
    (p ∉ Index.keys LiveDirectory.path dirs ∧ dirs' = dirs)

/-- Without the flag a directory with files in it is refused. Otherwise everything below the
path is deleted, the files with a commit each, and directories only with the flag; then the
directory itself, in one transaction with those below it. -/
theorem deleteDirectory_outcome {J : Doc → Prop} {path : Str} {recursive : Bool}
    (hJ : ∀ d d' fid f, J d → d.root.fileAt L fid = some f → d'.Settled L A →
      Becomes L d d' (Function.update (d.root.fileAt L) fid none) (d.root.dirAt L) [] → J d')
    (hd : d.Settled L A) (hj : J {d with draws := d.draws + 1})
    (hp : Path.normalize L.nfc path = .ok p) :
    ((∃ fid f, d.root.fileAt L fid = some f ∧ Root.child p f.path = true) ∧ recursive = false ∧
      ∃ e, deleteDirectory L path recursive d = .error e {d with draws := d.draws + 1}) ∨
    (recursive = false → ∀ fid f, d.root.fileAt L fid = some f → Root.child p f.path = false) ∧
    Ends (deleteDirectory L path recursive) d fun _ d' => ∃ mid, J mid ∧ mid.Settled L A ∧
      mid.supply = d.supply ∧ d.draws ≤ mid.draws ∧
      mid.root.fileAt L = (fun fid => (d.root.fileAt L fid).filter fun f => !Root.child p f.path) ∧
      ∃ dirs, Without p (withoutChildren p recursive (d.root.dirAt L)) dirs ∧
        Becomes L mid d' (mid.root.fileAt L) dirs [] := by
  obtain ⟨fids, hnodup, hfids, hfiles⟩ := Root.childFiles_eq hd.readable p
  have hdirs := Root.childDirs_eq hd.readable p
  by_cases hrefused : fids ≠ [] ∧ recursive = false
  · refine .inl ⟨?_, hrefused.2, ?_⟩
    · obtain ⟨fid, rest, rfl⟩ := List.exists_cons_of_ne_nil hrefused.1
      obtain ⟨f, hf⟩ := (hfids fid).mp List.mem_cons_self
      exact ⟨fid, f, hf⟩
    · have hlift : Doc.lift (Path.normalize L.nfc path) d = .ok p d := by
        rw [Doc.lift, Doc.read, hp]
      simp only [deleteDirectory, bind, EStateM.bind, hlift, nowMs, Doc.read, hfiles, hdirs, ne_eq,
        List.map_eq_nil_iff, hrefused.1, hrefused.2, not_false_eq_true, and_self, if_true]
      exact ⟨_, rfl⟩
  · refine .inr ⟨fun hflag fid f hf => ?_, .bind (.lift hp (.bind (.nowMs ?_)))⟩
    · by_contra hchild
      refine hrefused ⟨List.ne_nil_of_mem ((hfids fid).mpr ⟨f, hf, ?_⟩), hflag⟩
      simpa using hchild
    refine .bind (.read hfiles (.bind (.read hdirs ?_)))
    rw [if_neg (by simpa using hrefused)]
    have hd₁ : {d with draws := d.draws + 1}.Settled L A := hd.draw (Nat.le_succ _)
    -- The files go first, then what is left of the directories is one transaction.
    have hchildren : Ends (deleteChildren L (d.supply.now d.draws)
        (fids.map fun fid => ((d.root.fileAt L fid).map LiveFile.path).getD [])
        (d.root.dirKeys.filter fun did => (d.root.dirAt L did).any fun f => Root.child p f.path)
        recursive) {d with draws := d.draws + 1} fun _ d₂ => ∃ mid, J mid ∧ mid.Settled L A ∧
          mid.supply = d.supply ∧ d.draws ≤ mid.draws ∧
          (mid.root.fileAt L = fun fid => if fid ∈ fids then none else d.root.fileAt L fid) ∧
          d₂.Settled L A ∧ Draft L mid d₂ (mid.root.fileAt L)
            (withoutChildren p recursive (d.root.dirAt L)) [] := by
      cases recursive with
      | false =>
        have hnil : fids = [] := by simpa using hrefused
        exact .pure ⟨_, hj, hd₁, rfl, Nat.le_succ _, by simp [hnil], hd₁,
          .start hd₁.readable hd₁.fresh (Nat.le_refl _)⟩
      | true =>
        have hdeleted :=
          deleteFiles_ends (P := fun q => Root.child p q = true) hJ hd₁ hj hnodup hfids
        refine .bind (hdeleted.weaken fun _ mid hall => ?_)
        rcases hall with ⟨hmid, hjmid, hsame, hgone, hsupply, hdraws⟩
        refine .bind (.read hmid.readable.directories ?_)
        refine (directoryTurns_ends (g := fun _ => none) hmid
          (Root.nodup_dirKeys.sublist List.filter_sublist)
          fun did d' hd' => markDirectory_ends hd' _ did).weaken fun _ d₂ hturns => ?_
        rcases hturns with ⟨hd₂, hdraft⟩
        refine ⟨mid, hjmid, hmid, hsupply, (Nat.le_succ _).trans hdraws, hgone, hd₂, ?_⟩
        have hleft : withoutChildren p true (d.root.dirAt L) = fun did =>
            if did ∈ d.root.dirKeys.filter (fun did =>
              (d.root.dirAt L did).any fun f => Root.child p f.path) then none
            else mid.root.dirAt L did := by
          funext did
          rw [withoutChildren, if_pos rfl, hsame, ite_cond_congr (propext Root.mem_childDirs)]
          cases hdid : d.root.dirAt L did with
          | none => simp
          | some f =>
            by_cases hchild : Root.child p f.path = true <;> simp [Option.filter_some, hchild]
        rw [hleft]
        exact hdraft
    refine .bind (hchildren.weaken fun _ d₂ h => ?_)
    obtain ⟨mid, hjmid, hmid, hsupply, hdraws, hgone, hd₂, hdraft⟩ := h
    have hmidFiles : mid.root.fileAt L =
        fun fid => (d.root.fileAt L fid).filter fun f => !Root.child p f.path := by
      rw [hgone]
      funext fid
      rw [ite_cond_congr (propext (hfids fid))]
      cases hfid : d.root.fileAt L fid with
      | none => simp
      | some f => by_cases hchild : Root.child p f.path = true <;> simp [Option.filter_some, hchild]
    have hdirs₂ := hdraft.dirs.eq_of_nil
    rcases hd₂.readable.findDirectory p with ⟨did, f, hfind, hdid, hpath⟩ | ⟨hfind, hnone⟩
    · refine .bind (.read hfind ?_)
      refine .bind ((markDirectory_ends hd₂ _ did).weaken fun _ d₃ hturn => ?_)
      have hmarked := hturn.2
      rw [hdraft.files] at hmarked
      have hall : Draft L mid d₃ (mid.root.fileAt L)
          (Function.update (d₂.root.dirAt L) did none) [] :=
        ⟨hmarked.readable, hmarked.fresh, hmarked.files, hmarked.dirs,
          hmarked.changes.trans hdraft.changes, hmarked.supply.trans hdraft.supply,
          hdraft.draws.trans hmarked.draws⟩
      refine hall.commit.weaken fun _ d' hd' =>
        ⟨mid, hjmid, hmid, hsupply, hdraws, hmidFiles, _, .inl ⟨did, f, ?_, hpath, rfl⟩, ?_⟩
      · rw [← hdirs₂]
        exact hdid
      · rw [← hdirs₂]
        exact hd'
    · refine .bind (.read hfind ?_)
      refine hdraft.commit.weaken fun _ d' hd' =>
        ⟨mid, hjmid, hmid, hsupply, hdraws, hmidFiles, _, .inr ⟨?_, rfl⟩, hd'⟩
      rw [← hdirs₂]
      exact hnone

/-! ### Renaming -/

/-- What becomes of a directory when `src` is renamed. -/
def movedDirectory (src dst : Str) (f : LiveDirectory) : LiveDirectory :=
  if Root.child src f.path then { f with path := Path.moved src dst f.path } else f

/-- What becomes of a file. -/
def movedFile (src dst : Str) (f : LiveFile) : LiveFile :=
  if Path.under src f.path then { f with path := Path.moved src dst f.path } else f

theorem normalized_of_fileAt (hd : d.Settled L A) {f : LiveFile}
    (hf : d.root.fileAt L fid = some f) : Path.Normalized L.nfc f.path := by
  obtain ⟨m, hm, -, rfl⟩ := Root.fileAt_eq_some.mp hf
  exact hd.sound.rootTyped.normalized hm

theorem normalized_of_dirAt (hd : d.Settled L A) {f : LiveDirectory}
    (hf : d.root.dirAt L did = some f) : Path.Normalized L.nfc f.path := by
  obtain ⟨m, hm, rfl⟩ := Root.dirAt_eq_some.mp hf
  obtain ⟨q, hq, hnorm⟩ := hd.sound.rootTyped _ _ rfl
    (Root.getStr_eq_some.mp (Root.readDirectoryMeta_eq_some.mp hm).2.1)
  obtain rfl : m.path = q := by simpa using hq
  exact hnorm

theorem Draft.same (hd : d.Settled L A) {files : Str → Option LiveFile}
    {dirs : Str → Option LiveDirectory} (hfiles : files = d.root.fileAt L)
    (hdirs : dirs = d.root.dirAt L) : d.Settled L A ∧ Draft L d d files dirs [] := by
  subst hfiles hdirs
  exact ⟨hd, .start hd.readable hd.fresh (Nat.le_refl _)⟩

/-- A turn of the loop over directories. -/
theorem moveDirectory_ends {src dst : Str} (hsrc : Path.Normalized L.nfc src)
    (hdst : Path.Normalized L.nfc dst) (hd : d.Settled L A) (did : Str) :
    Ends (moveDirectory L src dst did) d fun _ d' => d'.Settled L A ∧
      Draft L d d' (d.root.fileAt L) (Function.update (d.root.dirAt L) did
        ((d.root.dirAt L did).map (movedDirectory src dst))) [] := by
  have hskip (hnone : (d.root.dirAt L did).map (movedDirectory src dst) = d.root.dirAt L did) :
      d.Settled L A ∧ Draft L d d (d.root.fileAt L) (Function.update (d.root.dirAt L) did
        ((d.root.dirAt L did).map (movedDirectory src dst))) [] :=
    Draft.same hd rfl (Function.update_eq_self_iff.mpr hnone)
  refine .bind (.ask ?_)
  by_cases hdir : d.root.hasObject (.dir did) = true
  · obtain ⟨⟨q, hq⟩, ⟨c, hc⟩, ⟨n, hn⟩⟩ := hd.readable.directory did hdir
    have hentry : d.root.dirAt L did =
        if n.isSome then none else q.map fun q => ⟨did, q, c.getD 0⟩ := by
      cases q <;> cases n <;> simp [Root.dirAt, Root.readDirectoryMeta, hdir, hq, hc, hn, bind,
        Except.bind, pure, Except.pure]
    rw [if_neg (by simp [hdir])]
    refine .bind (.read hn ?_)
    cases n with
    | some n => exact .pure (hskip (by simp [hentry]))
    | none =>
      refine .bind (.read hq ?_)
      cases q with
      | none => exact .pure (hskip (by simp [hentry]))
      | some q =>
        have hlive : d.root.dirAt L did = some ⟨did, q, c.getD 0⟩ := by simp [hentry]
        by_cases hchild : (Path.under src q && q != src) = true
        · simp only [hchild, if_true]
          have hunder := Bool.and_eq_true_iff.mp hchild
          have hblock : Block L.nfc [.put (.dirField did .path) (.str (Path.moved src dst q))] :=
            block_movedDirectory (hdst.move (normalized_of_dirAt hd hlive) hunder.1 hsrc
              (by simpa using hunder.2))
          have hwritten := hd.directory_written hblock (by simp [Op.target, Addr.dirId])
            (Root.get_of_hasObject hdir)
          rw [dirAt_moved hlive] at hwritten
          refine .emit ?_
          rw [hlive, Option.map_some, movedDirectory, Root.child, if_pos hchild]
          exact hwritten
        · simp only [hchild, Bool.false_eq_true, if_false]
          refine .pure (hskip ?_)
          rw [hlive, Option.map_some, movedDirectory, Root.child, if_neg hchild]
  · rw [if_pos (by simp [hdir])]
    refine .pure (hskip ?_)
    simp [Root.dirAt, Root.readDirectoryMeta, hdir, pure, Except.pure]

/-- A turn of the loop over files. -/
theorem moveFile_ends {src dst : Str} (hsrc : Path.Normalized L.nfc src)
    (hdst : Path.Normalized L.nfc dst) (hd : d.Settled L A) (now : Int) (fid : Str) :
    Ends (moveFile L src dst now fid) d fun _ d' => d'.Settled L A ∧
      Draft L d d' (Function.update (d.root.fileAt L) fid
        ((d.root.fileAt L fid).map (movedFile src dst))) (d.root.dirAt L) [] := by
  have hskip (hnone : (d.root.fileAt L fid).map (movedFile src dst) = d.root.fileAt L fid) :
      d.Settled L A ∧ Draft L d d (Function.update (d.root.fileAt L) fid
        ((d.root.fileAt L fid).map (movedFile src dst))) (d.root.dirAt L) [] :=
    Draft.same hd (Function.update_eq_self_iff.mpr hnone) rfl
  refine .bind (.ask ?_)
  obtain ⟨entry, hentry⟩ := hd.readable.file fid
  by_cases hfile : d.root.hasObject (.file fid) = true
  · rw [if_neg (by simp [hfile])]
    refine .bind (.ask ?_)
    by_cases hmeta : d.root.hasObject (.fileMeta fid) = true
    · rw [if_neg (by simp [hmeta])]
      cases entry with
      | none =>
        rcases Root.readFileMeta_eq_none hentry with h | h
        · exact absurd hfile (by simp [h])
        · exact absurd hmeta (by simp [h])
      | some m =>
        obtain ⟨-, -, -, hpath, -, -, -, -, hdeleted, -⟩ := Root.readFileMeta_eq_some.mp hentry
        refine .bind (.read hdeleted ?_)
        cases hm : m.deletedAt with
        | some t =>
          refine .pure (hskip ?_)
          rw [Root.fileAt, hentry]
          simp [hm]
        | none =>
          refine .bind (.read hpath ?_)
          have hlive := Root.fileAt_of_read hentry hm
          have hlivePath : (d.root.liveFile m).path = m.path := rfl
          by_cases hunder : Path.under src m.path = true
          · simp only [hunder, if_true]
            have htarget : (if m.path = src then dst else dst ++ m.path.drop src.length) =
                Path.moved src dst m.path := by
              split
              next h => rw [h, Path.moved_self]
              next => rfl
            have hnorm : Path.Normalized L.nfc (Path.moved src dst m.path) := by
              rw [← htarget]
              split
              next => exact hdst
              next hne => exact hdst.move (normalized_of_fileAt hd hlive) hunder hsrc hne
            have hblock : Block L.nfc (movedFields fid (Path.moved src dst m.path) now) :=
              block_moved now hnorm
            have hwritten := hd.file_written hblock (by simp [movedFields, Op.target, Addr.fileId])
              (Root.get_of_hasObject hfile)
            rw [fileAt_moved hlive] at hwritten
            refine .emit ?_
            rw [htarget, hlive, Option.map_some, movedFile, hlivePath, if_pos hunder]
            exact hwritten
          · simp only [hunder, Bool.false_eq_true, if_false]
            refine .pure (hskip ?_)
            rw [hlive, Option.map_some, movedFile, hlivePath, if_neg hunder]
    · rw [if_pos (by simp [hmeta])]
      refine .pure (hskip ?_)
      simp [Root.fileAt, Root.readFileMeta, hd.readable.files, hfile, hmeta, bind, Except.bind,
        pure, Except.pure]
  · rw [if_pos (by simp [hfile])]
    refine .pure (hskip ?_)
    simp [Root.fileAt, Root.readFileMeta, hd.readable.files, hfile, bind, Except.bind, pure,
      Except.pure]

/-- The directory at `src`, if there is one, is given the path `dst`. -/
def Redirected (src dst : Str) (dirs dirs' : Str → Option LiveDirectory) : Prop :=
  (∃ did f, dirs did = some f ∧ f.path = src ∧
    dirs' = Function.update dirs did (some { f with path := dst })) ∨
  (src ∉ Index.keys LiveDirectory.path dirs ∧ dirs' = dirs)

/-- The three steps of a rename: the directory itself, what is below it, the directories above
the new path. -/
theorem renameDirectory_outcome {src dst p q : Str} (hd : d.Settled L A)
    (hp : Path.normalize L.nfc src = .ok p) (hq : Path.normalize L.nfc dst = .ok q) :
    (p = q ∧ renameDirectory L src dst d = .ok () d) ∨
    (p ≠ q ∧ Ends (renameDirectory L src dst) d fun _ d' =>
      ∃ dirs, Redirected p q (d.root.dirAt L) dirs ∧
        Becomes L d d' (fun fid => (d.root.fileAt L fid).map (movedFile p q))
          (fun did => (dirs did).map (movedDirectory p q)) (Path.ancestors q)) := by
  have hnormp := Path.normalized_of_normalize hp
  have hnormq := Path.normalized_of_normalize hq
  by_cases hpq : p = q
  · refine .inl ⟨hpq, ?_⟩
    have hlift : Doc.lift (Path.normalize L.nfc src) d = .ok p d := by
      rw [Doc.lift, Doc.read, hp]
    have hlift' : Doc.lift (Path.normalize L.nfc dst) d = .ok q d := by
      rw [Doc.lift, Doc.read, hq]
    simp only [renameDirectory, bind, EStateM.bind, hlift, hlift', hpq, if_true]
    rfl
  · refine .inr ⟨hpq, .bind (.lift hp (.bind (.lift hq ?_)))⟩
    rw [if_neg hpq]
    refine .bind (.nowMs ?_)
    have hd₁ : {d with draws := d.draws + 1}.Settled L A := hd.draw (Nat.le_succ _)
    -- What is below moves once the directory itself has its new path.
    have hrest (d₂ : Doc) (dirs : Str → Option LiveDirectory) (hd₂ : d₂.Settled L A)
        (hdraft : Draft L d d₂ (d.root.fileAt L) dirs []) : Ends (do
          read (Root.mapObj · .directories)
          (← ask Root.dirKeys).forM (moveDirectory L p q)
          read (Root.mapObj · .files)
          (← ask Root.fileKeys).forM (moveFile L p q (d.supply.now d.draws))
          ensureAncestorDirectories L q
          commitNow) d₂ fun _ d' => Becomes L d d'
            (fun fid => (d.root.fileAt L fid).map (movedFile p q))
            (fun did => (dirs did).map (movedDirectory p q)) (Path.ancestors q) := by
      refine .bind (.read hd₂.readable.directories (.bind (.ask ?_)))
      refine .bind ((directoryTurns_ends hd₂ Root.nodup_dirKeys
        fun did d' hd' => moveDirectory_ends hnormp hnormq hd' did).weaken
        fun _ d₃ hturns => ?_)
      rcases hturns with ⟨hd₃, hdirs₃⟩
      refine .bind (.read hd₃.readable.files (.bind (.ask ?_)))
      refine .bind ((fileTurns_ends hd₃ Root.nodup_fileKeys
        fun fid d' hd' => moveFile_ends hnormp hnormq hd' _ fid).weaken
        fun _ d₄ hturns => ?_)
      rcases hturns with ⟨hd₄, hfiles₄⟩
      refine .bind ((ensureAncestorDirectories_ends hd₄.readable hd₄.fresh q).weaken
        fun _ d₅ hd₅ => ?_)
      have hdirs : d₄.root.dirAt L = fun did => (dirs did).map (movedDirectory p q) := by
        rw [hfiles₄.dirs.eq_of_nil, hdirs₃.dirs.eq_of_nil, hdraft.dirs.eq_of_nil]
        funext did
        split
        next => rfl
        next hkey =>
          have hnone : dirs did = none := by
            rw [← hdraft.dirs.eq_of_nil]
            refine Root.dirAt_of_none ?_
            by_contra hne
            exact hkey (Root.mem_dirKeys.mpr (Option.isSome_iff_ne_none.mpr hne))
          rw [hnone]
          rfl
      have hfiles : d₄.root.fileAt L = fun fid => (d.root.fileAt L fid).map (movedFile p q) := by
        rw [hfiles₄.files, hdirs₃.files, hdraft.files]
        funext fid
        split
        next => rfl
        next hkey =>
          have hnone : d.root.fileAt L fid = none := by
            rw [← hdraft.files, ← hdirs₃.files]
            refine Root.fileAt_of_none ?_
            by_contra hne
            exact hkey (Root.mem_fileKeys.mpr (Option.isSome_iff_ne_none.mpr hne))
          rw [hnone]
          rfl
      have hall : Draft L d d₅ (fun fid => (d.root.fileAt L fid).map (movedFile p q))
          (fun did => (dirs did).map (movedDirectory p q)) (Path.ancestors q) :=
        ⟨hd₅.readable, hd₅.fresh, hd₅.files.trans hfiles, hdirs ▸ hd₅.dirs,
          hd₅.changes.trans (hfiles₄.changes.trans (hdirs₃.changes.trans hdraft.changes)),
          hd₅.supply.trans (hfiles₄.supply.trans (hdirs₃.supply.trans hdraft.supply)),
          hdraft.draws.trans (hdirs₃.draws.trans (hfiles₄.draws.trans hd₅.draws))⟩
      exact hall.commit
    rcases hd.readable.findDirectory p with ⟨did, f, hfind, hdid, hpath⟩ | ⟨hfind, hnone⟩
    · refine .bind (.read hfind ?_)
      have hdir := Root.dirAt_hasObject hdid
      refine .bind (.ask ?_)
      rw [if_pos hdir]
      refine .bind (.emit ?_)
      have hblock : Block L.nfc [.put (.dirField did .path) (.str q)] := block_movedDirectory hnormq
      obtain ⟨hd₂, hdraft⟩ := hd₁.directory_written hblock (by simp [Op.target, Addr.dirId])
        (Root.get_of_hasObject hdir)
      rw [dirAt_moved hdid] at hdraft
      exact (hrest _ _ hd₂ (hdraft.undraw (Nat.le_succ _))).weaken
        fun _ d' hd' => ⟨_, .inl ⟨did, f, hdid, hpath, rfl⟩, hd'⟩
    · refine .bind (.read hfind ?_)
      exact (hrest _ _ hd₁ (.start hd.readable hd.fresh (Nat.le_succ _))).weaken
        fun _ d' hd' => ⟨_, .inr ⟨hnone, rfl⟩, hd'⟩

end Doc

end AgentSync
