import AgentSync.Doc.Effects
import AgentSync.Doc.Replay

/-! `restore_to_heads` lands on the past view.

Each of its four loops writes entry by entry, and what it writes to an entry depends on
that entry alone, so the outcome is read off one turn (`writeEach_own`). A file that was
live then reads as it did, one that was not is deleted or stays so, and directories
likewise; nothing else is touched. -/
namespace AgentSync

variable {L : Crates} {A : Automerge}

/-! ### What a loop turn writes -/

/-- Content whose entries can all be read. -/
structure Root.Ready (L : Crates) (r : Root) : Prop where
  typed : r.Typed L.nfc
  complete : r.Complete
  files : r.mapObj .files = .ok ()
  directories : r.mapObj .directories = .ok ()

theorem Root.Ready.applyAll {r : Root} {ops : List Op} (h : r.Ready L) (hops : Block L.nfc ops)
    (hmaps : ∀ op ∈ ops, ∀ m, op.target ≠ .rootMap m) : (applyAll r ops).Ready L := by
  have hsame (m : RootMap) : (AgentSync.applyAll r ops).get (.rootMap m) = r.get (.rootMap m) :=
    get_applyAll_of_ne fun op hop => ⟨hmaps op hop m, by simp [Addr.ancestors]⟩
  refine ⟨h.typed.applyAll hops.sound, hops.complete _ h.complete, ?_, ?_⟩
  · rw [Root.mapObj_congr (hsame .files), h.files]
  · rw [Root.mapObj_congr (hsame .directories), h.directories]

namespace Doc

def aliveFile (L : Crates) (r : Root) (fid : Str) : Bool :=
  r.hasObject (.file fid) && r.hasObject (.fileMeta fid) &&
    match r.getInt L (.fileField fid .deletedAt) with
    | .ok none => true
    | _ => false

def aliveDirectory (L : Crates) (r : Root) (did : Str) : Bool :=
  r.hasObject (.dir did) &&
    match r.getInt L (.dirField did .deletedAt) with
    | .ok none => true
    | _ => false

def killFileOps (L : Crates) (now : Int) (past : List FileMeta) (r : Root) (fid : Str) : List Op :=
  if aliveFile L r fid && !past.any fun m => m.id = fid && m.deletedAt.isNone then
    [.put (.fileField fid .deletedAt) (.int now)]
  else []

def killDirectoryOps (L : Crates) (now : Int) (past : List DirectoryMeta) (r : Root) (did : Str) :
    List Op :=
  if aliveDirectory L r did && !past.any fun m => m.id = did && m.deletedAt.isNone then
    [.put (.dirField did .deletedAt) (.int now)]
  else []

def restoreDirectoryOps (r : Root) (m : DirectoryMeta) : List Op :=
  (if r.hasObject (.dir m.id) then [] else [.putMap (.dir m.id)]) ++
    [.put (.dirField m.id .path) (.str m.path),
      .put (.dirField m.id .createdAt) (.int m.createdAt),
      .delete (.dirField m.id .deletedAt)]

theorem aliveFile_eq {r : Root} {fid : Str} {entry : Option FileMeta}
    (h : r.readFileMeta L fid = .ok entry) :
    (entry.map fun m => m.deletedAt.isNone).getD false = aliveFile L r fid := by
  cases entry with
  | none =>
    obtain hfile | hmeta := Root.readFileMeta_eq_none h
    · simp [aliveFile, hfile]
    · simp [aliveFile, hmeta]
  | some m =>
    obtain ⟨-, hfile, hmeta, -, -, -, -, -, hdeleted, -⟩ := Root.readFileMeta_eq_some.mp h
    cases hm : m.deletedAt <;> simp [aliveFile, hfile, hmeta, hdeleted, hm]

variable {d : Doc}

@[simp] theorem emitted_nil : d.emitted [] = d := by
  simp [emitted]

theorem killFile_ends (now : Int) (past : List FileMeta) {fid : Str} (hd : d.root.Ready L) :
    Ends (killFile L now past fid) d fun _ d' =>
      d' = d.emitted (killFileOps L now past d.root fid) := by
  obtain ⟨entry, hentry⟩ := hd.typed.readFileMeta hd.complete hd.files (L := L) fid
  refine .bind (.read hentry ?_)
  simp only [aliveFile_eq hentry]
  unfold killFileOps
  split
  next h =>
    have halive : aliveFile L d.root fid = true := by
      rw [Bool.and_eq_true] at h
      exact h.1
    simp only [aliveFile, Bool.and_eq_true] at halive
    refine .bind (.read hd.files (.bind (.ask ?_)))
    rw [if_pos halive.1.1]
    refine .bind (.ask ?_)
    rw [if_pos halive.1.2]
    exact .emit rfl
  next => exact .pure emitted_nil.symm

theorem restoreFile_ends (now : Int) (text : Str → Str) {m : FileMeta} (hd : d.root.Ready L)
    (hlive : m.deletedAt = none) :
    Ends (restoreFile L now text m) d fun _ d' =>
      d' = d.emitted (restoreOps d.root now m (text m.id)) := by
  unfold restoreFile
  rw [if_neg (by simp [hlive])]
  have hwritable : d.root.writable L (restoreTarget d.root m.id) = .ok () := by
    unfold restoreTarget
    split
    · split <;> exact hd.typed.writable rfl fun _ h => h
    · exact hd.typed.writable rfl fun _ h => h
  exact .bind (.read hd.files (.bind (.read hwritable (.bind (.ask (.emit rfl))))))

theorem killDirectory_ends (now : Int) (past : List DirectoryMeta) {did : Str}
    (hd : d.root.Ready L) :
    Ends (killDirectory L now past did) d fun _ d' =>
      d' = d.emitted (killDirectoryOps L now past d.root did) := by
  refine .bind (.read hd.directories (.bind (.ask ?_)))
  by_cases hdir : d.root.hasObject (.dir did) = true
  · rw [if_pos hdir]
    obtain ⟨n, hn⟩ := hd.typed.getInt (L := L) (a := .dirField did .deletedAt) rfl fun _ h => h
    refine .bind (.read hn (.bind (.pure ?_)))
    have halive : aliveDirectory L d.root did = n.isNone := by
      cases n <;> simp [aliveDirectory, hdir, hn]
    unfold killDirectoryOps
    rw [halive]
    beta_reduce
    split
    next =>
      refine .bind (.ask ?_)
      rw [if_pos hdir]
      exact .bind (.read (hd.typed.writable rfl fun _ h => h) (.emit rfl))
    next => exact .pure emitted_nil.symm
  · rw [if_neg hdir]
    refine .bind (.pure ?_)
    simp only [killDirectoryOps, aliveDirectory, hdir, Bool.false_and, Bool.false_eq_true, if_false]
    exact .pure emitted_nil.symm

theorem restoreDirectory_ends {m : DirectoryMeta} (hd : d.root.Ready L)
    (hlive : m.deletedAt = none) :
    Ends (restoreDirectory L m) d fun _ d' => d' = d.emitted (restoreDirectoryOps d.root m) := by
  unfold restoreDirectory
  rw [if_neg (by simp [hlive])]
  have hwritable : d.root.writable L
      (if d.root.hasObject (.dir m.id) then .dir m.id else .rootMap .directories) = .ok () := by
    split <;> exact hd.typed.writable rfl fun _ h => h
  exact .bind (.read hd.directories (.bind (.read hwritable (.bind (.ask (.emit rfl))))))

theorem emitted_emitted (ops ops' : List Op) :
    (d.emitted ops).emitted ops' = d.emitted (ops ++ ops') := by
  simp [emitted, applyAll_append]

/-- A loop of turns that each record what the content at hand tells them to. -/
theorem forM_ends {γ : Type} {f : Root → γ → List Op} {body : γ → DocM PUnit} (xs : List γ)
    (hd : d.root.Ready L)
    (hbody : ∀ x ∈ xs, ∀ d : Doc, d.root.Ready L →
      Ends (body x) d fun _ d' => d' = d.emitted (f d.root x))
    (hready : ∀ x ∈ xs, ∀ r : Root, r.Ready L → (applyAll r (f r x)).Ready L) :
    Ends (xs.forM body) d fun _ d' => ∃ ops, d' = d.emitted ops ∧
      d'.root = writeEach f xs d.root ∧ d'.root.Ready L := by
  induction xs generalizing d with
  | nil => exact .pure ⟨[], emitted_nil.symm, rfl, hd⟩
  | cons x rest ih =>
    refine .bind ((hbody x List.mem_cons_self d hd).weaken fun _ d' hd' => ?_)
    subst hd'
    refine (ih (hready x List.mem_cons_self _ hd) (fun y hy => hbody y (List.mem_cons_of_mem _ hy))
      (fun y hy => hready y (List.mem_cons_of_mem _ hy))).weaken fun _ d' ⟨ops, hd', hrest⟩ => ?_
    exact ⟨f d.root x ++ ops, by rw [hd', emitted_emitted], hrest⟩

/-! ### One turn per entry -/

section Turns

variable {γ : Type} {f : Root → γ → List Op} {xs : List γ} {r : Root} (key : γ → Str)

theorem writeEach_file (hown : ∀ x r, ∀ op ∈ f r x, op.target.fileId = some (key x))
    (hcongr : ∀ x r r', Root.SameFile (key x) r r' → f r x = f r' x)
    (hnodup : (xs.map key).Nodup) {x : γ} (hx : x ∈ xs) :
    Root.SameFile (key x) (writeEach f xs r) (applyAll r (f r x)) := by
  refine writeEach_own (P := fun x b => b.fileId = some (key x)) (fun x _ r => hown x r)
    (fun x _ => hcongr x) ?_ hx
  refine (List.pairwise_map.mp hnodup).imp fun hne a b => ⟨fun ha hb => ?_, fun ha hb => ?_⟩
  · exact ⟨fun h => hne (Option.some.inj (ha.symm.trans (h ▸ hb))), fun h =>
      hne (Option.some.inj ((Addr.fileId_of_mem_ancestors h ha).symm.trans hb))⟩
  · exact ⟨fun h => hne (Option.some.inj (hb.symm.trans (h ▸ ha))), fun h =>
      hne (Option.some.inj (hb.symm.trans (Addr.fileId_of_mem_ancestors h ha)))⟩

theorem writeEach_directory (hown : ∀ x r, ∀ op ∈ f r x, op.target.dirId = some (key x))
    (hcongr : ∀ x r r', Root.SameDirectory (key x) r r' → f r x = f r' x)
    (hnodup : (xs.map key).Nodup) {x : γ} (hx : x ∈ xs) :
    Root.SameDirectory (key x) (writeEach f xs r) (applyAll r (f r x)) := by
  refine writeEach_own (P := fun x b => b.dirId = some (key x)) (fun x _ r => hown x r)
    (fun x _ => hcongr x) ?_ hx
  refine (List.pairwise_map.mp hnodup).imp fun hne a b => ⟨fun ha hb => ?_, fun ha hb => ?_⟩
  · exact ⟨fun h => hne (Option.some.inj (ha.symm.trans (h ▸ hb))), fun h =>
      hne (Option.some.inj ((Addr.dirId_of_mem_ancestors h ha).symm.trans hb))⟩
  · exact ⟨fun h => hne (Option.some.inj (hb.symm.trans (h ▸ ha))), fun h =>
      hne (Option.some.inj (hb.symm.trans (Addr.dirId_of_mem_ancestors h ha)))⟩

/-- A loop over files leaves every register that is in none of them. -/
theorem writeEach_otherFile (hown : ∀ x r, ∀ op ∈ f r x, op.target.fileId = some (key x))
    {b : Addr} (hb : ∀ x ∈ xs, b.fileId ≠ some (key x)) :
    (writeEach f xs r).get b = r.get b :=
  writeEach_frame (Q := fun b => ∀ x ∈ xs, b.fileId ≠ some (key x))
    (fun x hx r op hop _ hb => ⟨fun h => hb x hx (h ▸ hown x r op hop), fun h =>
      hb x hx (Addr.fileId_of_mem_ancestors h (hown x r op hop))⟩) b hb

theorem writeEach_otherDirectory (hown : ∀ x r, ∀ op ∈ f r x, op.target.dirId = some (key x))
    {b : Addr} (hb : ∀ x ∈ xs, b.dirId ≠ some (key x)) :
    (writeEach f xs r).get b = r.get b :=
  writeEach_frame (Q := fun b => ∀ x ∈ xs, b.dirId ≠ some (key x))
    (fun x hx r op hop _ hb => ⟨fun h => hb x hx (h ▸ hown x r op hop), fun h =>
      hb x hx (Addr.dirId_of_mem_ancestors h (hown x r op hop))⟩) b hb

end Turns

theorem aliveFile_congr {fid : Str} {r r' : Root} (h : Root.SameFile fid r r') :
    aliveFile L r fid = aliveFile L r' fid := by
  rw [aliveFile, aliveFile, Root.hasObject_congr (h (.file fid) rfl),
    Root.hasObject_congr (h (.fileMeta fid) rfl),
    Root.getInt_congr (h (.fileField fid .deletedAt) rfl)]

theorem aliveDirectory_congr {did : Str} {r r' : Root} (h : Root.SameDirectory did r r') :
    aliveDirectory L r did = aliveDirectory L r' did := by
  rw [aliveDirectory, aliveDirectory, Root.hasObject_congr (h (.dir did) rfl),
    Root.getInt_congr (h (.dirField did .deletedAt) rfl)]

theorem fileId_killFileOps {now : Int} {past : List FileMeta} (fid : Str) (r : Root) :
    ∀ op ∈ killFileOps L now past r fid, op.target.fileId = some fid := by
  unfold killFileOps
  split <;> simp [Op.target, Addr.fileId]

theorem fileId_restoreOps {now : Int} {target : Str} (m : FileMeta) (r : Root) :
    ∀ op ∈ restoreOps r now m target, op.target.fileId = some m.id := by
  rw [restoreOps_eq, List.forall_mem_append, List.forall_mem_append]
  refine ⟨⟨fun op hop => (mem_missingMaps hop).1, ?_⟩, fun op hop => ?_⟩
  · simp [restoreFields, Op.target, Addr.fileId]
  · obtain h | h := (mem_restoreBody hop).1 <;> rw [h] <;> rfl

theorem dirId_killDirectoryOps {now : Int} {past : List DirectoryMeta} (did : Str) (r : Root) :
    ∀ op ∈ killDirectoryOps L now past r did, op.target.dirId = some did := by
  unfold killDirectoryOps
  split <;> simp [Op.target, Addr.dirId]

theorem dirId_restoreDirectoryOps (m : DirectoryMeta) (r : Root) :
    ∀ op ∈ restoreDirectoryOps r m, op.target.dirId = some m.id := by
  unfold restoreDirectoryOps
  split <;> simp [Op.target, Addr.dirId]

theorem killFileOps_congr {now : Int} {past : List FileMeta} (fid : Str) (r r' : Root)
    (h : Root.SameFile fid r r') :
    killFileOps L now past r fid = killFileOps L now past r' fid := by
  rw [killFileOps, killFileOps, aliveFile_congr h]

theorem restoreOps_congr {now : Int} {target : Str} (m : FileMeta) (r r' : Root)
    (h : Root.SameFile m.id r r') : restoreOps r now m target = restoreOps r' now m target := by
  simp only [restoreOps, missingMaps, Root.hasObject_congr (h (.file m.id) rfl),
    Root.hasObject_congr (h (.fileMeta m.id) rfl), Root.getText_congr h]

theorem killDirectoryOps_congr {now : Int} {past : List DirectoryMeta} (did : Str) (r r' : Root)
    (h : Root.SameDirectory did r r') :
    killDirectoryOps L now past r did = killDirectoryOps L now past r' did := by
  rw [killDirectoryOps, killDirectoryOps, aliveDirectory_congr h]

theorem restoreDirectoryOps_congr (m : DirectoryMeta) (r r' : Root)
    (h : Root.SameDirectory m.id r r') : restoreDirectoryOps r m = restoreDirectoryOps r' m := by
  rw [restoreDirectoryOps, restoreDirectoryOps, Root.hasObject_congr (h (.dir m.id) rfl)]

/-! ### How a restored entry reads -/

theorem hasObject_missingMaps (r : Root) (fid : Str) :
    (applyAll r (missingMaps r fid)).hasObject (.file fid) = true ∧
      (applyAll r (missingMaps r fid)).hasObject (.fileMeta fid) = true := by
  unfold missingMaps
  split
  next hfile =>
    split
    next hmeta => exact ⟨hfile, hmeta⟩
    next =>
      refine ⟨?_, by simp [Root.hasObject, Op.apply, Val.isObject]⟩
      rw [← hfile]
      exact Root.hasObject_congr (get_applyAll_of_ne (by simp [Op.target, Addr.ancestors]))
  next =>
    constructor <;> simp [Root.hasObject, Op.apply, Addr.ancestors, Val.isObject]

theorem getText_missingMaps (r : Root) (fid : Str) :
    (applyAll r (missingMaps r fid)).getText fid =
      if r.hasObject (.file fid) then r.getText fid else none := by
  unfold missingMaps
  split
  next =>
    split
    next => rfl
    next =>
      rw [Root.getText, Root.getText,
        get_applyAll_of_ne (by simp [Op.target, Addr.ancestors])]
  next => simp [Root.getText, Op.apply, Addr.ancestors]

/-- The fields leave the maps of the entry and its body. -/
theorem get_restoreFields {r : Root} {m : FileMeta} {now : Int} {b : Addr}
    (hb : ∀ f, b ≠ .fileField m.id f) : (applyAll r (restoreFields m now)).get b = r.get b := by
  refine get_applyAll_of_ne fun op hop => ?_
  have htarget : ∃ f, op.target = .fileField m.id f := by
    simp only [restoreFields, List.mem_cons, List.not_mem_nil, or_false] at hop
    obtain rfl | rfl | rfl | rfl | rfl | rfl := hop <;> exact ⟨_, rfl⟩
  obtain ⟨f, hf⟩ := htarget
  rw [hf]
  exact ⟨Ne.symm (hb f), by cases b <;> simp [Addr.ancestors]⟩

/-- **A restored file reads as it did then**, with the body of its kind. -/
theorem readFileMeta_restored {r : Root} {m : FileMeta} {now : Int} {target : Str}
    (hready : (applyAll r (restoreOps r now m target)).Ready L)
    (hhash : m.kind = .attachment → m.binaryHash ≠ none) :
    ∃ hash, (applyAll r (restoreOps r now m target)).readFileMeta L m.id =
        .ok (some { m with updatedAt := now, deletedAt := none, binaryHash := hash }) ∧
      (m.kind = .attachment → hash = m.binaryHash) ∧
      (m.kind = .text → (applyAll r (restoreOps r now m target)).getText m.id = some target) := by
  generalize hS : applyAll r (restoreOps r now m target) = S at hready ⊢
  rw [restoreOps_eq, applyAll_append, applyAll_append] at hS
  have hmap {b : Addr} (hfield : ∀ f, b ≠ .fileField m.id f) (hcontent : b ≠ .content m.id)
      (hbinary : b ≠ .binaryHash m.id) : S.get b = (applyAll r (missingMaps r m.id)).get b := by
    rw [← hS, get_restoreBody hcontent hbinary, get_restoreFields hfield]
  have hfield (f : FileField) : S.get (.fileField m.id f) =
      (applyAll (applyAll r (missingMaps r m.id)) (restoreFields m now)).get (.fileField m.id f) := by
    rw [← hS, get_restoreBody (by simp) (by simp)]
  obtain ⟨hfile, hmeta⟩ := hasObject_missingMaps r m.id
  obtain ⟨hash, hread, hash_eq⟩ : ∃ hash, S.getStr L (.binaryHash m.id) = .ok hash ∧
      (m.kind = .attachment → hash = m.binaryHash) := by
    cases hkind : m.kind with
    | text =>
      obtain ⟨-, h⟩ | ⟨s, h⟩ := hready.typed.getStr (L := L) (a := .binaryHash m.id) rfl
        fun _ h => h
      · exact ⟨none, h, by simp⟩
      · exact ⟨some s, h, by simp⟩
    | attachment =>
      obtain ⟨h, hh⟩ := Option.ne_none_iff_exists'.mp (hhash hkind)
      refine ⟨some h, Root.getStr_of_get ?_, fun _ => hh.symm⟩
      rw [← hS]
      simp [restoreBody, hkind, hh, Op.apply]
  refine ⟨hash, Root.readFileMeta_eq_some.mpr ⟨hready.files, ?_, ?_, ?_, ⟨m.kind.asStr, ?_, ?_⟩,
    ⟨some m.size, ?_, rfl⟩, ⟨some m.createdAt, ?_, rfl⟩, ⟨some now, ?_, rfl⟩, ?_, hread, rfl⟩,
    hash_eq, fun hkind => ?_⟩
  · rwa [Root.hasObject_congr (hmap (by simp) (by simp) (by simp))]
  · rwa [Root.hasObject_congr (hmap (by simp) (by simp) (by simp))]
  · refine Root.getStr_of_get ((hfield _).trans ?_)
    simp [restoreFields, Op.apply, Addr.ancestors]
  · refine Root.getStr_of_get ((hfield _).trans ?_)
    simp [restoreFields, Op.apply, Addr.ancestors]
  · simp
  · refine Root.getInt_of_get ((hfield _).trans ?_)
    simp [restoreFields, Op.apply, Addr.ancestors]
  · refine Root.getInt_of_get ((hfield _).trans ?_)
    simp [restoreFields, Op.apply, Addr.ancestors]
  · refine Root.getInt_of_get ((hfield _).trans ?_)
    simp [restoreFields, Op.apply, Addr.ancestors]
  · refine Root.getInt_of_none ((hfield _).trans ?_)
    simp [restoreFields, Op.apply]
  · have htext : (applyAll (applyAll r (missingMaps r m.id)) (restoreFields m now)).getText m.id =
        if r.hasObject (.file m.id) then r.getText m.id else none := by
      rw [← getText_missingMaps, Root.getText, Root.getText, get_restoreFields (by simp)]
    rw [← hS, restoreBody, hkind, ← htext]
    exact getText_setTextOps

/-- A restored directory reads as it did then. -/
theorem readDirectoryMeta_restored {r : Root} {m : DirectoryMeta} (hlive : m.deletedAt = none) :
    (applyAll r (restoreDirectoryOps r m)).readDirectoryMeta L m.id = .ok (some m) := by
  have hdir : (applyAll r (restoreDirectoryOps r m)).hasObject (.dir m.id) = true := by
    unfold restoreDirectoryOps
    split
    next hdir =>
      rw [← hdir]
      exact Root.hasObject_congr (get_applyAll_of_ne (by simp [Op.target, Addr.ancestors]))
    next => simp [Root.hasObject, Op.apply, Addr.ancestors, Val.isObject]
  refine Root.readDirectoryMeta_eq_some.mpr ⟨hdir, Root.getStr_of_get ?_,
    ⟨some m.createdAt, Root.getInt_of_get ?_, rfl⟩, Root.getInt_of_none ?_, hlive, rfl⟩
  all_goals
    rw [restoreDirectoryOps, applyAll_append]
    simp [Op.apply, Addr.ancestors]

/-! ### The four loops -/

/-- What `restore_to_heads` makes of the content `r`, given the past listings. -/
def restoredRoot (L : Crates) (now : Int) (files : List FileMeta) (dirs : List DirectoryMeta)
    (text : Str → Str) (r : Root) : Root :=
  writeEach restoreDirectoryOps dirs <|
    writeEach (killDirectoryOps L now dirs) r.dirKeys <|
      writeEach (fun r m => restoreOps r now m (text m.id)) files <|
        writeEach (killFileOps L now files) r.fileKeys r

theorem ready_killFileOps {r : Root} (h : r.Ready L) (now : Int) (past : List FileMeta) (fid : Str) :
    (applyAll r (killFileOps L now past r fid)).Ready L := by
  unfold Doc.killFileOps
  split
  · exact h.applyAll (block_deleted fid now) (by simp [Op.target])
  · exact h

theorem ready_killDirectoryOps {r : Root} (h : r.Ready L) (now : Int) (past : List DirectoryMeta)
    (did : Str) : (applyAll r (killDirectoryOps L now past r did)).Ready L := by
  unfold Doc.killDirectoryOps
  split
  · exact h.applyAll (block_markedDirectory did now) (by simp [Op.target])
  · exact h

theorem ready_restoreOps {r : Root} (h : r.Ready L) {m : FileMeta} (now : Int) (target : Str)
    (hp : Path.Normalized L.nfc m.path) (hhash : m.kind = .attachment → m.binaryHash ≠ none) :
    (applyAll r (restoreOps r now m target)).Ready L := by
  refine h.applyAll (block_restoreOps now target hp hhash) fun op hop map heq => ?_
  have hfile := fileId_restoreOps m r op hop
  rw [heq] at hfile
  cases hfile

theorem ready_restoreDirectoryOps {r : Root} (h : r.Ready L) {m : DirectoryMeta}
    (hp : Path.Normalized L.nfc m.path) : (applyAll r (restoreDirectoryOps r m)).Ready L := by
  refine h.applyAll (block_restoredDirectory r hp) fun op hop map heq => ?_
  have hdir := dirId_restoreDirectoryOps m r op hop
  rw [heq] at hdir
  cases hdir

/-- What the past listings have to satisfy. -/
structure Restorable (L : Crates) (files : List FileMeta) (dirs : List DirectoryMeta) : Prop where
  file : ∀ m ∈ files, m.deletedAt = none ∧ Path.Normalized L.nfc m.path ∧
    (m.kind = .attachment → m.binaryHash ≠ none)
  directory : ∀ m ∈ dirs, m.deletedAt = none ∧ Path.Normalized L.nfc m.path
  fileIds : (files.map FileMeta.id).Nodup
  directoryIds : (dirs.map DirectoryMeta.id).Nodup

/-- **The loops succeed**, and what they write is one change. -/
theorem restoreEntries_ends {now : Int} {files : List FileMeta} {dirs : List DirectoryMeta}
    {text : Str → Str} (hd : d.root.Ready L) (hpast : Restorable L files dirs) :
    Ends (restoreEntries L now files dirs text) d fun _ d' => ∃ ops t,
      d' = ({d with draws := d.draws + 1}.emitted ops).committed t ∧
      d'.root = restoredRoot L now files dirs text d.root ∧ d'.root.Ready L := by
  refine .bind (.read hd.files (.bind (.read hd.directories (.bind (.ask (.bind (.ask ?_)))))))
  have hkill := forM_ends d.root.fileKeys hd (fun _ _ _ hd => killFile_ends now files hd)
    fun fid _ r hr => ready_killFileOps hr now files fid
  refine .bind (hkill.weaken fun _ d₁ ⟨ops₁, hd₁, hroot₁, hready₁⟩ => ?_)
  have hrestore := forM_ends files hready₁
    (fun m hm _ hd => restoreFile_ends now text hd (hpast.file m hm).1)
    fun m hm r hr => ready_restoreOps hr now _ (hpast.file m hm).2.1 (hpast.file m hm).2.2
  refine .bind (hrestore.weaken fun _ d₂ ⟨ops₂, hd₂, hroot₂, hready₂⟩ => ?_)
  have hkill := forM_ends d.root.dirKeys hready₂
    (fun _ _ _ hd => killDirectory_ends now dirs hd)
    fun did _ r hr => ready_killDirectoryOps hr now dirs did
  refine .bind (hkill.weaken fun _ d₃ ⟨ops₃, hd₃, hroot₃, hready₃⟩ => ?_)
  have hrestore := forM_ends dirs hready₃
    (fun m hm _ hd => restoreDirectory_ends hd (hpast.directory m hm).1)
    fun m hm r hr => ready_restoreDirectoryOps hr (hpast.directory m hm).2
  refine .bind (hrestore.weaken fun _ d₄ ⟨ops₄, hd₄, hroot₄, hready₄⟩ => ?_)
  refine .commitNow ⟨ops₁ ++ (ops₂ ++ (ops₃ ++ ops₄)), d₄.supply.now d₄.draws, ?_, ?_, ?_⟩
  · rw [hd₄, hd₃, hd₂, hd₁, emitted_emitted, emitted_emitted, emitted_emitted]
    rfl
  · rw [committed_root, hroot₄, hroot₃, hroot₂, hroot₁]
    rfl
  · rwa [committed_root]

/-- A restore writes one change, after whatever was pending. -/
theorem restoreToHeads_emits {past : Doc} {heads : List ChangeHash} {files : List FileMeta}
    {dirs : List DirectoryMeta} (hd : d.root.Ready L)
    (hfork : forkAt A (d.committed 0) heads = .ok past)
    (hfiles : past.root.listFiles L = .ok files)
    (hdirs : past.root.listDirectories L = .ok dirs) (hpast : Restorable L files dirs) :
    Ends (restoreToHeads L A heads) d fun _ d' => ∃ now ops t,
      d' = ({d.committed 0 with draws := (d.committed 0).draws + 2}.emitted ops).committed t ∧
      d'.root = restoredRoot L now files dirs (pastText past.root) d.root ∧ d'.root.Ready L := by
  refine .bind ⟨_, _, rfl, .bind ⟨past, d.committed 0, by rw [fork, hfork], ?_⟩⟩
  refine .bind (.lift hfiles (.bind (.lift hdirs (.bind (.nowMs ?_)))))
  refine (restoreEntries_ends ?_ hpast).weaken fun _ d' ⟨ops, t, hd', hroot, hready⟩ =>
    ⟨(d.committed 0).supply.now (d.committed 0).draws, ops, t, hd', ?_, hready⟩
  · simpa using hd
  · rw [hroot]
    simp only [committed_root]

theorem restoreToHeads_ends {past : Doc} {heads : List ChangeHash} {files : List FileMeta}
    {dirs : List DirectoryMeta} (hd : d.root.Ready L)
    (hfork : forkAt A (d.committed 0) heads = .ok past)
    (hfiles : past.root.listFiles L = .ok files)
    (hdirs : past.root.listDirectories L = .ok dirs) (hpast : Restorable L files dirs) :
    Ends (restoreToHeads L A heads) d fun _ d' => ∃ now,
      d'.root = restoredRoot L now files dirs (pastText past.root) d.root ∧ d'.root.Ready L ∧
      d'.pending = [] ∧ (d.committed 0).changes <+: d'.changes := by
  refine (restoreToHeads_emits hd hfork hfiles hdirs hpast).weaken
    fun _ d' ⟨now, ops, t, hd', hroot, hready⟩ => ⟨now, hroot, hready, ?_, ?_⟩
  · rw [hd']
    exact committed_pending _ _
  · rw [hd']
    exact changes_before_committed
      ({d.committed 0 with draws := (d.committed 0).draws + 2}.emitted ops) t

/-- What a restore that succeeded has found. -/
theorem restoreToHeads_eq_ok {heads : List ChangeHash} {d' : Doc}
    (h : restoreToHeads L A heads d = .ok () d') : ∃ past files dirs,
      forkAt A (d.committed 0) heads = .ok past ∧ past.root.listFiles L = .ok files ∧
      past.root.listDirectories L = .ok dirs ∧ d.root.mapObj .files = .ok () ∧
      d.root.mapObj .directories = .ok () := by
  obtain ⟨_, d₁, hheads, h⟩ := bind_eq_ok.mp h
  obtain ⟨-, rfl⟩ := EStateM.Result.ok.inj hheads
  obtain ⟨past, d₂, hrun, h⟩ := bind_eq_ok.mp h
  obtain ⟨rfl, hfork⟩ := fork_eq_ok.mp hrun
  obtain ⟨files, d₃, hrun, h⟩ := bind_eq_ok.mp h
  obtain ⟨rfl, hfiles⟩ := read_eq_ok.mp hrun
  obtain ⟨dirs, d₄, hrun, h⟩ := bind_eq_ok.mp h
  obtain ⟨rfl, hdirs⟩ := read_eq_ok.mp hrun
  obtain ⟨now, d₅, hrun, h⟩ := bind_eq_ok.mp h
  obtain ⟨-, rfl⟩ := EStateM.Result.ok.inj hrun
  obtain ⟨_, d₆, hrun, h⟩ := bind_eq_ok.mp h
  obtain ⟨rfl, hmap⟩ := read_eq_ok.mp hrun
  obtain ⟨_, d₇, hrun, -⟩ := bind_eq_ok.mp h
  obtain ⟨rfl, hmap'⟩ := read_eq_ok.mp hrun
  refine ⟨past, files, dirs, hfork, hfiles, hdirs, ?_, ?_⟩
  · simpa using hmap
  · simpa using hmap'

/-! ### The view -/

section View

variable {now : Int} {files : List FileMeta} {dirs : List DirectoryMeta} {text : Str → Str}
  {r : Root}

/-- The loops over directories leave files alone. -/
theorem restoredRoot_file {fid : Str} : Root.SameFile fid (restoredRoot L now files dirs text r)
    (writeEach (fun r m => restoreOps r now m (text m.id)) files
      (writeEach (killFileOps L now files) r.fileKeys r)) := by
  intro b hb
  have hdir : b.dirId = none := by
    cases b <;> simp [Addr.fileId] at hb <;> rfl
  rw [restoredRoot, writeEach_otherDirectory DirectoryMeta.id
      (fun m r => dirId_restoreDirectoryOps m r) (by simp [hdir]),
    writeEach_otherDirectory id (fun did r => dirId_killDirectoryOps did r)
      (by simp [hdir])]

/-- A register of neither a file nor a directory is not touched. -/
theorem restoredRoot_other {b : Addr} (hfile : b.fileId = none) (hdir : b.dirId = none) :
    (restoredRoot L now files dirs text r).get b = r.get b := by
  rw [restoredRoot, writeEach_otherDirectory DirectoryMeta.id
      (fun m r => dirId_restoreDirectoryOps m r) (by simp [hdir]),
    writeEach_otherDirectory id (fun did r => dirId_killDirectoryOps did r)
      (by simp [hdir]),
    writeEach_otherFile FileMeta.id (fun m r => fileId_restoreOps m r) (by simp [hfile]),
    writeEach_otherFile id (fun fid r => fileId_killFileOps fid r) (by simp [hfile])]

theorem ready_writeEach {γ : Type} {f : Root → γ → List Op} {xs : List γ} (hr : r.Ready L)
    (h : ∀ x ∈ xs, ∀ r : Root, r.Ready L → (applyAll r (f r x)).Ready L) :
    (writeEach f xs r).Ready L := by
  induction xs generalizing r with
  | nil => exact hr
  | cons x rest ih =>
    exact ih (h x List.mem_cons_self r hr) fun y hy => h y (List.mem_cons_of_mem _ hy)

theorem ready_killFiles (now : Int) (files : List FileMeta) (hr : r.Ready L) :
    (writeEach (killFileOps L now files) r.fileKeys r).Ready L :=
  ready_writeEach hr fun fid _ _ hr => ready_killFileOps hr now files fid

theorem ready_restoreFiles (hpast : Restorable L files dirs) (hr : r.Ready L) :
    (writeEach (fun r m => restoreOps r now m (text m.id)) files r).Ready L :=
  ready_writeEach hr fun m hm _ hr =>
    ready_restoreOps hr now _ (hpast.file m hm).2.1 (hpast.file m hm).2.2

theorem ready_restoredRoot (now : Int) (text : Str → Str) (hpast : Restorable L files dirs) (hr : r.Ready L) :
    (restoredRoot L now files dirs text r).Ready L :=
  ready_writeEach (ready_writeEach (ready_restoreFiles hpast (ready_killFiles now files hr))
    fun did _ _ hr => ready_killDirectoryOps hr now dirs did)
    fun m hm _ hr => ready_restoreDirectoryOps hr (hpast.directory m hm).2

/-- A file of the past listing reads as it did then. -/
theorem restoredRoot_past (now : Int) (text : Str → Str) (hpast : Restorable L files dirs) (hr : r.Ready L) {m : FileMeta}
    (hm : m ∈ files) :
    ∃ hash, (restoredRoot L now files dirs text r).readFileMeta L m.id =
        .ok (some { m with updatedAt := now, deletedAt := none, binaryHash := hash }) ∧
      (m.kind = .attachment → hash = m.binaryHash) ∧
      (m.kind = .text →
        (restoredRoot L now files dirs text r).getText m.id = some (text m.id)) := by
  have hfinal := ready_restoredRoot now text hpast hr
  have hturn := ready_restoreOps (ready_killFiles now files hr) now (text m.id)
    (hpast.file m hm).2.1 (hpast.file m hm).2.2
  have hsame : Root.SameFile m.id (restoredRoot L now files dirs text r)
      (applyAll (writeEach (killFileOps L now files) r.fileKeys r)
        (restoreOps (writeEach (killFileOps L now files) r.fileKeys r) now m (text m.id))) :=
    fun b hb => (restoredRoot_file b hb).trans
      (writeEach_file (f := fun r m => restoreOps r now m (text m.id)) FileMeta.id
        (fun m r => fileId_restoreOps m r) (fun m r r' h => restoreOps_congr m r r' h)
        hpast.fileIds hm b hb)
  rw [Root.readFileMeta_congr (hfinal.files.trans hturn.files.symm) hsame,
    Root.getText_congr hsame]
  exact readFileMeta_restored hturn (hpast.file m hm).2.2

/-- A file that is not in the past listing is not live. -/
theorem restoredRoot_notPast (hpast : Restorable L files dirs) (hr : r.Ready L) {m : FileMeta}
    (hm : ∀ m' ∈ files, m'.id ≠ m.id)
    (hread : (restoredRoot L now files dirs text r).readFileMeta L m.id = .ok (some m)) :
    m.deletedAt ≠ none := by
  have hfinal := ready_restoredRoot now text hpast hr
  have hkill : Root.SameFile m.id (restoredRoot L now files dirs text r)
      (writeEach (killFileOps L now files) r.fileKeys r) := fun b hb =>
    (restoredRoot_file b hb).trans (writeEach_otherFile FileMeta.id
      (fun m r => fileId_restoreOps m r)
      fun m' hm' heq => hm m' hm' (Option.some.inj (heq.symm.trans hb)))
  rw [Root.readFileMeta_congr (hfinal.files.trans (ready_killFiles now files hr).files.symm) hkill] at hread
  have hany : (files.any fun m' => m'.id = m.id && m'.deletedAt.isNone) = false := by
    simpa using fun m' hm' heq => absurd heq (hm m' hm')
  by_cases hkey : m.id ∈ r.fileKeys
  · have hsame : Root.SameFile m.id (writeEach (killFileOps L now files) r.fileKeys r)
        (applyAll r (killFileOps L now files r m.id)) :=
      writeEach_file id (fun fid r => fileId_killFileOps fid r)
        (fun fid r r' h => killFileOps_congr fid r r' h) (by simpa using Root.nodup_fileKeys) hkey
    rw [Root.readFileMeta_congr ((ready_killFiles now files hr).files.trans
      (ready_killFileOps hr now files m.id).files.symm) hsame, killFileOps, hany] at hread
    by_cases halive : aliveFile L r m.id = true
    · rw [halive] at hread
      have hdeleted := (Root.readFileMeta_eq_some.mp hread).2.2.2.2.2.2.2.2.1
      rw [Root.getInt_of_get (n := now) (by simp [Op.apply])] at hdeleted
      rw [← Except.ok.inj hdeleted]
      simp
    · rw [Bool.eq_false_of_not_eq_true halive] at hread
      have hentry := aliveFile_eq hread
      intro hlive
      exact halive (by simpa [hlive] using hentry.symm)
  · -- Without a key there is no entry to read.
    have hsame : Root.SameFile m.id (writeEach (killFileOps L now files) r.fileKeys r) r :=
      fun b hb => writeEach_otherFile id (fun fid r => fileId_killFileOps fid r)
        fun fid hfid heq => hkey (by rwa [Option.some.inj (hb.symm.trans heq)])
    have hfile := (Root.readFileMeta_eq_some.mp hread).2.1
    rw [Root.hasObject_congr (hsame (.file m.id) rfl)] at hfile
    refine absurd (Root.mem_fileKeys.mpr ?_) hkey
    exact Option.isSome_iff_ne_none.mpr (Root.get_of_hasObject hfile)

/-- The listed directories are the past ones. -/
theorem restoredRoot_directories (hpast : Restorable L files dirs) {m : DirectoryMeta} :
    (restoredRoot L now files dirs text r).readDirectoryMeta L m.id = .ok (some m) ↔ m ∈ dirs := by
  generalize hmid : writeEach (fun r m => restoreOps r now m (text m.id)) files
    (writeEach (killFileOps L now files) r.fileKeys r) = mid
  have hroot : restoredRoot L now files dirs text r = writeEach restoreDirectoryOps dirs
      (writeEach (killDirectoryOps L now dirs) r.dirKeys mid) := by
    rw [← hmid]
    rfl
  have hrestored {m : DirectoryMeta} (hm : m ∈ dirs) :
      (restoredRoot L now files dirs text r).readDirectoryMeta L m.id = .ok (some m) := by
    rw [hroot, Root.readDirectoryMeta_congr (writeEach_directory DirectoryMeta.id
      (fun m r => dirId_restoreDirectoryOps m r)
      (fun m r r' h => restoreDirectoryOps_congr m r r' h) hpast.directoryIds hm)]
    exact readDirectoryMeta_restored (hpast.directory m hm).1
  refine ⟨fun hread => ?_, hrestored⟩
  by_contra hnotMem
  have hm : ∀ m' ∈ dirs, m'.id ≠ m.id := by
    intro m' hm' heq
    have hread' := hrestored hm'
    rw [heq, hread] at hread'
    rw [Option.some.inj (Except.ok.inj hread')] at hnotMem
    exact hnotMem hm'
  have hkill : Root.SameDirectory m.id (restoredRoot L now files dirs text r)
      (writeEach (killDirectoryOps L now dirs) r.dirKeys mid) := fun b hb =>
    hroot ▸ writeEach_otherDirectory DirectoryMeta.id
      (fun m r => dirId_restoreDirectoryOps m r)
      fun m' hm' heq => hm m' hm' (Option.some.inj (heq.symm.trans hb))
  rw [Root.readDirectoryMeta_congr hkill] at hread
  have hany : (dirs.any fun m' => m'.id = m.id && m'.deletedAt.isNone) = false := by
    simpa using fun m' hm' heq => absurd heq (hm m' hm')
  by_cases hkey : m.id ∈ r.dirKeys
  · have hsame : Root.SameDirectory m.id (writeEach (killDirectoryOps L now dirs) r.dirKeys mid)
        (applyAll mid (killDirectoryOps L now dirs mid m.id)) :=
      writeEach_directory id (fun did r => dirId_killDirectoryOps did r)
        (fun did r r' h => killDirectoryOps_congr did r r' h)
        (by simpa using Root.nodup_dirKeys) hkey
    rw [Root.readDirectoryMeta_congr hsame, killDirectoryOps, hany] at hread
    by_cases halive : aliveDirectory L mid m.id = true
    · rw [halive] at hread
      have hdeleted := (Root.readDirectoryMeta_eq_some.mp hread).2.2.2.1
      rw [Root.getInt_of_get (n := now) (by simp [Op.apply])] at hdeleted
      cases hdeleted
    · rw [Bool.eq_false_of_not_eq_true halive] at hread
      obtain ⟨hdir, -, -, hdeleted, -⟩ := Root.readDirectoryMeta_eq_some.mp hread
      exact halive (by simp_all [aliveDirectory])
  · have hsame : Root.SameDirectory m.id (writeEach (killDirectoryOps L now dirs) r.dirKeys mid) r :=
      fun b hb => by
        have hfile : b.fileId = none := by
          cases b <;> simp [Addr.dirId] at hb <;> rfl
        rw [writeEach_otherDirectory id (fun did r => dirId_killDirectoryOps did r)
            fun did hdid heq => hkey (by rwa [Option.some.inj (hb.symm.trans heq)]),
          ← hmid, writeEach_otherFile FileMeta.id (fun m r => fileId_restoreOps m r)
            (by simp [hfile]),
          writeEach_otherFile id (fun fid r => fileId_killFileOps fid r) (by simp [hfile])]
    have hdir := (Root.readDirectoryMeta_eq_some.mp hread).1
    rw [Root.hasObject_congr (hsame (.dir m.id) rfl)] at hdir
    refine absurd (Root.mem_dirKeys.mpr ?_) hkey
    exact Option.isSome_iff_ne_none.mpr (Root.get_of_hasObject hdir)

end View

end Doc

/-! ### Views -/

/-- The body of a file, by its kind. -/
inductive Body where
  | text (s : Str)
  | attachment (hash : Option Str)
  deriving DecidableEq, Repr

structure LiveFile where
  id : Str
  path : Str
  kind : FileKind
  size : Int
  createdAt : Int
  body : Body
  deriving DecidableEq, Repr

structure LiveDirectory where
  id : Str
  path : Str
  createdAt : Int
  deriving DecidableEq, Repr

namespace Root

def liveFile (r : Root) (m : FileMeta) : LiveFile :=
  ⟨m.id, m.path, m.kind, m.size, m.createdAt,
    match m.kind with
    | .text => .text (Doc.pastText r m.id)
    | .attachment => .attachment m.binaryHash⟩

def liveFiles (L : Crates) (r : Root) : Except Error (List LiveFile) := do
  return (← r.listFiles L).map r.liveFile

def liveDirectories (L : Crates) (r : Root) : Except Error (List LiveDirectory) := do
  return (← r.listDirectories L).map fun m => ⟨m.id, m.path, m.createdAt⟩

end Root

/-- The same live files and directories. -/
structure SameView (L : Crates) (r r' : Root) : Prop where
  files : ∃ files files', r.liveFiles L = .ok files ∧ r'.liveFiles L = .ok files' ∧
    ∀ f, f ∈ files ↔ f ∈ files'
  directories : ∃ dirs dirs', r.liveDirectories L = .ok dirs ∧ r'.liveDirectories L = .ok dirs' ∧
    ∀ f, f ∈ dirs ↔ f ∈ dirs'

namespace Doc

theorem pastText_eq {r : Root} {fid : Str} {m : FileMeta}
    (h : r.readFileMeta L fid = .ok (some m)) : pastText r fid = (r.getText fid).getD [] := by
  obtain ⟨hmap, hfile, -⟩ := Root.readFileMeta_eq_some.mp h
  simp only [pastText, Root.readFileId, hmap, hfile, bind, Except.bind]
  cases r.getText fid <;> rfl

theorem restorable_listed {past : Doc} {files : List FileMeta} {dirs : List DirectoryMeta}
    (hpast : past.Sound L.nfc A) (hfiles : past.root.listFiles L = .ok files)
    (hdirs : past.root.listDirectories L = .ok dirs) : Restorable L files dirs where
  file := fun m hm => by
    obtain ⟨hread, hlive⟩ := (Root.mem_listFiles hfiles).mp hm
    exact ⟨hlive, restorable hpast.rootTyped hpast.rootComplete hread⟩
  directory := fun m hm => by
    obtain ⟨-, hpath, -, -, hlive, -⟩ :=
      Root.readDirectoryMeta_eq_some.mp ((Root.mem_listDirectories hdirs).mp hm)
    obtain ⟨p, hp, hnorm⟩ := hpast.rootTyped _ _ rfl (Root.getStr_eq_some.mp hpath)
    obtain rfl : m.path = p := by simpa using hp
    exact ⟨hlive, hnorm⟩
  fileIds := Root.nodup_listFiles hfiles
  directoryIds := Root.nodup_listDirectories hdirs

/-- **The loops give the live entries of the past listings, and no others.** -/
theorem sameView_restoredRoot {past r : Root} {now : Int} {files : List FileMeta}
    {dirs : List DirectoryMeta} (hr : r.Ready L) (hpast : Restorable L files dirs)
    (hfiles : past.listFiles L = .ok files) (hdirs : past.listDirectories L = .ok dirs) :
    SameView L (restoredRoot L now files dirs (pastText past) r) past := by
  have hready := ready_restoredRoot now (pastText past) hpast hr
  constructor
  · obtain ⟨files', hfiles'⟩ := hready.typed.listFiles (L := L) hready.complete hready.files
    refine ⟨_, _, by rw [Root.liveFiles, hfiles']; rfl, by rw [Root.liveFiles, hfiles]; rfl,
      fun f => ?_⟩
    have hview {m : FileMeta} (hm : m ∈ files) : ∃ m' ∈ files', m'.id = m.id ∧
        (restoredRoot L now files dirs (pastText past) r).liveFile m' = past.liveFile m := by
      obtain ⟨hash, hread, hhash, htext⟩ := restoredRoot_past now (pastText past)
        hpast hr hm
      refine ⟨{ m with updatedAt := now, deletedAt := none, binaryHash := hash },
        (Root.mem_listFiles hfiles').mpr ⟨hread, rfl⟩, rfl, ?_⟩
      cases hkind : m.kind with
      | text => simp [Root.liveFile, hkind, pastText_eq hread, htext hkind]
      | attachment => simp [Root.liveFile, hkind, hhash hkind]
    simp only [List.mem_map]
    constructor
    · intro ⟨m', hm', hf⟩
      obtain ⟨hread, hlive⟩ := (Root.mem_listFiles hfiles').mp hm'
      obtain ⟨m, hm, hid⟩ : ∃ m ∈ files, m.id = m'.id := by
        by_contra hno
        exact restoredRoot_notPast hpast hr (fun m hm heq => hno ⟨m, hm, heq⟩) hread hlive
      obtain ⟨m'', hm'', hid', hsame⟩ := hview hm
      have hread' := ((Root.mem_listFiles hfiles').mp hm'').1
      rw [hid', hid, hread] at hread'
      obtain rfl := Option.some.inj (Except.ok.inj hread')
      exact ⟨m, hm, hsame.symm.trans hf⟩
    · intro ⟨m, hm, hf⟩
      obtain ⟨m', hm', -, hsame⟩ := hview hm
      exact ⟨m', hm', hsame.trans hf⟩
  · obtain ⟨dirs', hdirs'⟩ := hready.typed.listDirectories (L := L) hready.directories
    refine ⟨_, _, by rw [Root.liveDirectories, hdirs']; rfl,
      by rw [Root.liveDirectories, hdirs]; rfl, fun f => ?_⟩
    simp only [List.mem_map, Root.mem_listDirectories hdirs', restoredRoot_directories hpast]

/-- Labels are read from registers that no file or directory has. -/
theorem listLabels_congr {r r' : Root}
    (h : ∀ b : Addr, b.fileId = none → b.dirId = none → r.get b = r'.get b) :
    listLabels L r = listLabels L r' := by
  have hkeys : r.labelKeys = r'.labelKeys := by
    refine ((List.perm_ext_iff_of_nodup Root.nodup_labelKeys Root.nodup_labelKeys).mpr
      fun name => ?_).eq_of_pairwise (fun _ _ _ _ => le_antisymm)
      (List.pairwise_insertionSort _ _) (List.pairwise_insertionSort _ _)
    rw [Root.mem_labelKeys, Root.mem_labelKeys, h (.label name) rfl rfl]
  have hread (name : Str) : readLabel L r name = readLabel L r' name := by
    rw [readLabel, readLabel, h (.label name) rfl rfl, h (.labelField name .heads) rfl rfl,
      Root.getInt_congr (h (.labelField name .createdAt) rfl rfl)]
  have hlabels (names : List Str) : labelsIn L r names = labelsIn L r' names := by
    induction names with
    | nil => rfl
    | cons name rest ih => rw [labelsIn, labelsIn, hread, ih]
  rw [listLabels, listLabels, Root.mapObj_congr (h (.rootMap .labels) rfl rfl), hkeys, hlabels]

/-- The heads of a history fork just that history, when more changes follow it. -/
theorem upTo_before {changes more : List Change} (h : Ordered changes)
    (hnodup : ((changes ++ more).map Change.hash).Nodup) :
    upTo (changes ++ more).reverse (headsOf changes) = changes.reverse := by
  induction more using List.reverseRecOn with
  | nil =>
    rw [List.append_nil] at hnodup ⊢
    exact upTo_headsOf h hnodup (List.Subset.refl _)
  | append_singleton more c ih =>
    rw [← List.append_assoc, List.map_append, List.map_singleton] at hnodup
    have hnew : c.hash ∉ headsOf changes := fun hc =>
      (List.nodup_append.mp hnodup).2.2 _
        (by rw [List.map_append]; exact List.mem_append_left _ (headsOf_subset _ hc)) _
        (List.mem_singleton.mpr rfl) rfl
    rw [← List.append_assoc, List.reverse_append, List.reverse_singleton, List.singleton_append,
      upTo, if_neg (by simpa using hnew)]
    exact ih (List.nodup_append.mp hnodup).1

theorem forkAt_before {d d' : Doc} (hd : d.Sound L.nfc A) (hpending : d.pending = [])
    (hgrown : d.changes <+: d'.changes) (hdistinct : d'.Distinct) :
    ∃ past, forkAt A d' (headsOf d.changes) = .ok past ∧ past.root = d.root := by
  obtain ⟨more, hmore⟩ := hgrown
  have hall : (headsOf d.changes).all (fun h => d'.changes.any fun c => c.hash = h) = true := by
    rw [List.all_eq_true]
    intro h hh
    obtain ⟨c, hc, rfl⟩ := List.mem_map.mp (headsOf_subset _ hh)
    exact List.any_eq_true.mpr ⟨c, hmore ▸ List.mem_append_left _ hc, by simp⟩
  refine ⟨_, by rw [forkAt, if_pos hall], ?_⟩
  unfold Distinct at hdistinct
  rw [← hmore] at hdistinct ⊢
  rw [upTo_before hd.ordered hdistinct, List.reverse_reverse, hd.root, hpending]
  rfl

/-- **Restoring is exact.** After `restore_to_heads` has succeeded the live files and
directories are those of the document forked at the heads, the labels are what they were,
and the history has only grown: restoring the heads from just before gives the live files
and directories of then. -/
theorem restore_exact {d d' : Doc} {heads : List ChangeHash} (hd : Reachable L A d)
    (h : restoreToHeads L A heads d = .ok () d') (hdistinct : d'.Distinct) :
    ∃ past, forkAt A (d.committed 0) heads = .ok past ∧ SameView L d'.root past.root ∧
      listLabels L d'.root = listLabels L d.root ∧
      (d.committed 0).changes <+: d'.changes ∧
      ∃ d'', restoreToHeads L A (headsOf (d.committed 0).changes) d' = .ok () d'' ∧
        SameView L d''.root d.root := by
  obtain ⟨past, files, dirs, hfork, hfiles, hdirs, hmap, hmap'⟩ := restoreToHeads_eq_ok h
  have hsound := hd.sound
  have hready : d.root.Ready L := ⟨hsound.rootTyped, hsound.rootComplete, hmap, hmap'⟩
  have hpast := restorable_listed (forkAt_sound (hsound.committed 0) hfork) hfiles hdirs
  obtain ⟨_, _, hrun, now, hroot, hready', hpending', hgrown⟩ :=
    restoreToHeads_ends hready hfork hfiles hdirs hpast
  obtain ⟨-, rfl⟩ := EStateM.Result.ok.inj (h.symm.trans hrun)
  refine ⟨past, hfork, ?_, ?_, hgrown, ?_⟩
  · rw [hroot]
    exact sameView_restoredRoot hready hpast hfiles hdirs
  · rw [hroot]
    exact listLabels_congr fun b hfile hdir => restoredRoot_other hfile hdir
  · -- The content of just before is the fork at its own heads.
    obtain ⟨before, hbefore, hbeforeRoot⟩ := forkAt_before (hsound.committed 0)
      (committed_pending d 0) hgrown hdistinct
    rw [committed_root] at hbeforeRoot
    obtain ⟨files₀, hfiles₀⟩ := hsound.rootTyped.listFiles (L := L) hsound.rootComplete hmap
    obtain ⟨dirs₀, hdirs₀⟩ := hsound.rootTyped.listDirectories (L := L) hmap'
    have hrestorable := restorable_listed hsound hfiles₀ hdirs₀
    rw [← hbeforeRoot] at hfiles₀ hdirs₀
    rw [← committed_of_closed hpending' 0] at hbefore
    obtain ⟨_, d'', hrun', now', hroot', -⟩ :=
      restoreToHeads_ends hready' hbefore hfiles₀ hdirs₀ hrestorable
    refine ⟨d'', hrun', ?_⟩
    rw [hroot', ← hbeforeRoot]
    exact sameView_restoredRoot hready' hrestorable hfiles₀ hdirs₀

/-- A file that was deleted after its heads were recorded. -/
private def deleted : Doc :=
  .replica (.numbered '1' 16) [.writeTextFile (txt "x.md") (txt "one"), .deleteFile (txt "x.md")]

private theorem reachable_deleted : Reachable .plain .plain deleted :=
  reachable_replica (by decide +kernel)

theorem restore_exact_deleted :
    ∃ d d' past : Doc, Reachable .plain .plain d ∧
      restoreToHeads .plain .plain [.fill 20] d = .ok () d' ∧
      d.root.listFilePaths .plain = .ok [] ∧ d'.root.listFilePaths .plain = .ok [txt "x.md"] ∧
      SameView .plain d'.root past.root := by
  have hrun : restoreToHeads .plain .plain [.fill 20] deleted =
      .ok () (deleted.after (restoreToHeads .plain .plain [.fill 20])) := rfl
  obtain ⟨past, -, hview, -⟩ := restore_exact reachable_deleted hrun
    (by unfold Distinct; decide +kernel)
  exact ⟨_, _, past, reachable_deleted, hrun, rfl, rfl, hview⟩

end Doc

end AgentSync
