import AgentSync.Doc.Replay

/-! What operations record.

An operation adds changes to the history and leaves some of its writes in the open transaction,
failed or not. An operation on files or directories writes to their entries only and takes none
out (`LocalOp.records_filed`); whatever any operation records is below one of the maps of the
root, so none replaces one of these maps, or takes an entry out of it (`LocalOp.records`). -/
namespace AgentSync

variable {L : Crates} {A : Automerge}

/-- The write is below a map of the root, and takes out no entry. -/
structure Op.Below (op : Op) : Prop where
  target : op.target.ancestors ≠ []
  delete : ∀ a, op = .delete a → a.erasable = true

/-- The register is in the entry of a file or a directory. -/
def Addr.inEntry : Addr → Bool
  | schemaVersion | vaultId | rootMap _ | label _ | labelField .. => false
  | _ => true

theorem Addr.inEntry_of_fileId {a : Addr} {fid : Str} (h : a.fileId = some fid) :
    a.inEntry = true := by
  cases a <;> first | rfl | cases h

theorem Addr.ancestors_of_inEntry {a : Addr} (h : a.inEntry = true) : a.ancestors ≠ [] := by
  cases a <;> simp [inEntry] at h <;> simp [ancestors]

/-- The write is to the entry of a file or a directory, and takes out no entry. -/
structure Op.Filed (op : Op) : Prop where
  entry : op.target.inEntry = true
  delete : ∀ a, op = .delete a → a.erasable = true

namespace Op

variable {a : Addr} {fid : Str}

@[simp] theorem filed_put {s : Scalar} : (Op.put a s).Filed ↔ a.inEntry = true :=
  ⟨fun h => h.entry, fun h => ⟨h, by simp⟩⟩

@[simp] theorem filed_putMap : (Op.putMap a).Filed ↔ a.inEntry = true :=
  ⟨fun h => h.entry, fun h => ⟨h, by simp⟩⟩

@[simp] theorem filed_delete : (Op.delete a).Filed ↔ a.inEntry = true ∧ a.erasable = true :=
  ⟨fun h => ⟨h.entry, h.delete a rfl⟩, fun h => ⟨h.1, by simp [h.2]⟩⟩

theorem Filed.below {op : Op} (h : op.Filed) : op.Below where
  target := Addr.ancestors_of_inEntry h.entry
  delete := h.delete

@[simp] theorem below_put {s : Scalar} : (Op.put a s).Below ↔ a.ancestors ≠ [] :=
  ⟨fun h => h.target, fun h => ⟨h, by simp⟩⟩

@[simp] theorem below_putMap : (Op.putMap a).Below ↔ a.ancestors ≠ [] :=
  ⟨fun h => h.target, fun h => ⟨h, by simp⟩⟩

@[simp] theorem below_putText : (Op.putText fid).Below :=
  ⟨by simp [target, Addr.ancestors], by simp⟩

@[simp] theorem below_spliceText {pos del : Nat} {insert : Str} :
    (Op.spliceText fid pos del insert).Below := ⟨by simp [target, Addr.ancestors], by simp⟩

@[simp] theorem below_delete : (Op.delete a).Below ↔ a.ancestors ≠ [] ∧ a.erasable = true :=
  ⟨fun h => ⟨h.target, h.delete a rfl⟩, fun h => ⟨h.1, by simp [h.2]⟩⟩

/-- A sound write to the entry of a file takes out no entry. -/
theorem Sound.filed {N : Nfc} {op : Op} (h : op.Sound N)
    (hfid : op.target.fileId = some fid) : op.Filed where
  entry := Addr.inEntry_of_fileId hfid
  delete := fun a ha => by
    subst ha
    exact h

end Op

namespace Doc

/-- From `d` to `d'` changes were added, and every write in them or left open is one that was
open before or is new and satisfies `P`. -/
def Recorded (P : Op → Prop) (d d' : Doc) : Prop :=
  ∃ new, d'.changes = d.changes ++ new ∧
    ∀ op, (op ∈ d'.pending ∨ ∃ c ∈ new, op ∈ c.ops) → op ∈ d.pending ∨ P op

/-- Whatever an operation records satisfies `P`. -/
def Records {α : Type} (P : Op → Prop) (x : DocM α) : Prop := ∀ d, Recorded P d (d.after x)

namespace Recorded

variable {P : Op → Prop} {d d' d'' : Doc}

theorem mono {P' : Op → Prop} (hP : ∀ op, P op → P' op) (h : Recorded P d d') :
    Recorded P' d d' := by
  obtain ⟨new, hchanges, hnew⟩ := h
  exact ⟨new, hchanges, fun op hop => (hnew op hop).imp id (hP op)⟩

theorem refl (d : Doc) : Recorded P d d :=
  ⟨[], by simp, fun op h => h.elim .inl fun ⟨c, hc, _⟩ => by cases hc⟩

theorem trans (h : Recorded P d d') (h' : Recorded P d' d'') : Recorded P d d'' := by
  obtain ⟨new, hchanges, hnew⟩ := h
  obtain ⟨new', hchanges', hnew'⟩ := h'
  refine ⟨new ++ new', by rw [hchanges', hchanges, List.append_assoc], fun op hop => ?_⟩
  have hlater : op ∈ d'.pending ∨ P op → op ∈ d.pending ∨ P op :=
    fun h => h.elim (fun hpending => hnew op (.inl hpending)) .inr
  rcases hop with hpending | ⟨c, hc, hop⟩
  · exact hlater (hnew' op (.inl hpending))
  · rcases List.mem_append.mp hc with hc | hc
    · exact hnew op (.inr ⟨c, hc, hop⟩)
    · exact hlater (hnew' op (.inr ⟨c, hc, hop⟩))

theorem draw (h : Recorded P d d') (draws : Nat) : Recorded P d {d' with draws := draws} := h

theorem committed (d : Doc) (time : Int) : Recorded P d (d.committed time) := by
  unfold Doc.committed
  split
  next => exact refl d
  next =>
    refine ⟨_, rfl, fun op hop => .inl ?_⟩
    rcases hop with hop | ⟨c, hc, hop⟩
    · cases hop
    · rw [List.mem_singleton.mp hc] at hop
      exact hop

end Recorded

namespace Records

variable {α β : Type} {P : Op → Prop} {x : DocM α}

theorem mono {P' : Op → Prop} (hP : ∀ op, P op → P' op) (h : Records P x) : Records P' x :=
  fun d => (h d).mono hP

protected theorem pure (a : α) : Records P (pure a : DocM α) := .refl

protected theorem throw (e : Error) : Records P (throw e : DocM α) := .refl

protected theorem bind {f : α → DocM β} (hx : Records P x) (hf : ∀ a, Records P (f a)) :
    Records P (x >>= f) := by
  intro d
  have h := hx d
  cases hrun : x d with
  | ok a d' =>
    have hx' : d.after x = d' := by rw [after, hrun]
    have hbind : d.after (x >>= f) = d'.after (f a) := by
      show after (EStateM.bind x f) d = _
      simp only [after, EStateM.bind, hrun]
    rw [hbind]
    exact (hx' ▸ h).trans (hf a d')
  | error e d' =>
    have hx' : d.after x = d' := by rw [after, hrun]
    have hbind : d.after (x >>= f) = d' := by
      show after (EStateM.bind x f) d = _
      simp only [after, EStateM.bind, hrun]
    rw [hbind]
    exact hx' ▸ h

theorem read {f : Root → Except Error α} : Records P (read f) := by
  intro d
  unfold after Doc.read
  cases f d.root <;> exact .refl d

theorem ask {f : Root → α} : Records P (ask f) := read

theorem lift {r : Except Error α} : Records P (lift r) := read

theorem emit {ops : List Op} (h : ∀ op ∈ ops, P op) : Records P (emit ops) := by
  refine fun d => ⟨[], by simp [after, Doc.emit, emitted], fun op hop => ?_⟩
  rcases hop with hop | ⟨c, hc, -⟩
  · exact (List.mem_append.mp hop).imp id (h op)
  · cases hc

theorem nowMs : Records P nowMs := fun d => (Recorded.refl d).draw _

theorem newId : Records P newId := fun d => (Recorded.refl d).draw _

theorem commitNow : Records P commitNow :=
  fun d => ((Recorded.refl d).draw (d.draws + 1)).trans (.committed _ _)

theorem heads : Records P heads := fun d => .committed d 0

theorem forM {γ : Type} {f : γ → DocM PUnit} (h : ∀ a, Records P (f a)) (xs : List γ) :
    Records P (xs.forM f) := by
  induction xs with
  | nil => exact .pure _
  | cons a rest ih => exact (h a).bind fun _ => ih

theorem ite {c : Prop} [Decidable c] {y : DocM α} (hx : Records P x) (hy : Records P y) :
    Records P (if c then x else y) := by
  split
  next => exact hx
  next => exact hy

/-- A lookup, and what is done when it finds something and when not. -/
theorem lookup {f : Root → Except Error (Option α)} {k : Option α → DocM β}
    (hsome : ∀ a, Records P (k (some a))) (hnone : Records P (k none)) :
    Records P (Doc.read f >>= k) := by
  refine read.bind fun found => ?_
  cases found with
  | none => exact hnone
  | some a => exact hsome a

end Records

/-! ### The operations -/

theorem ensureAncestorDirectories_records (p : Str) :
    Records Op.Filed (ensureAncestorDirectories L p) := by
  refine Records.nowMs.bind fun now => .forM (fun q => ?_) _
  refine .lookup (fun did => .pure ()) ?_
  refine Records.read.bind fun _ => Records.newId.bind fun did => Records.read.bind fun _ => ?_
  exact .emit (by simp [Addr.inEntry])

/-- The end of an operation that has made an entry. -/
theorem created_records {ops : List Op} {p : Str} {α : Type} (h : ∀ op ∈ ops, op.Filed) (a : α) :
    Records Op.Filed (do
      emit ops
      ensureAncestorDirectories L p
      commitNow
      return a) :=
  (Records.emit h).bind fun _ => (ensureAncestorDirectories_records p).bind fun _ =>
    Records.commitNow.bind fun _ => .pure a

theorem createDirectory_records (p : Str) : Records Op.Filed (createDirectory L p) := by
  refine Records.lift.bind fun p => .lookup (fun did => .pure did) ?_
  refine Records.read.bind fun _ => Records.newId.bind fun did => Records.read.bind fun _ => ?_
  exact Records.nowMs.bind fun now => created_records (by simp [Addr.inEntry]) did

theorem filed_setTextOps (fid content : Str) (current : Option Str) :
    ∀ op ∈ setTextOps fid content current, op.Filed := by
  intro op hop
  obtain ⟨htarget, hsound⟩ := mem_setTextOps hop
  exact (hsound Crates.plain.nfc).filed (by rw [htarget]; rfl)

theorem writeTextFile_records (p content : Str) : Records Op.Filed (writeTextFile L p content) := by
  refine Records.lift.bind fun p => Records.nowMs.bind fun now => .lookup (fun fid => ?_) ?_
  · refine Records.ask.bind fun current => (Records.emit ?_).bind fun _ =>
      Records.commitNow.bind fun _ => .pure fid
    rw [List.forall_mem_append]
    exact ⟨filed_setTextOps fid content current, by simp [Addr.inEntry, Addr.erasable]⟩
  · refine Records.read.bind fun _ => Records.newId.bind fun fid => Records.read.bind fun _ => ?_
    refine created_records ?_ fid
    rw [List.forall_mem_append]
    exact ⟨by simp [Addr.inEntry], filed_setTextOps fid content none⟩

theorem writeAttachment_records (p hash : Str) (size : Int) :
    Records Op.Filed (writeAttachment L p hash size) := by
  refine Records.lift.bind fun p => Records.nowMs.bind fun now => .lookup (fun fid => ?_) ?_
  · refine (Records.emit ?_).bind fun _ => Records.commitNow.bind fun _ => .pure fid
    simp [Addr.inEntry, Addr.erasable]
  · refine Records.read.bind fun _ => Records.newId.bind fun fid => Records.read.bind fun _ => ?_
    exact created_records (by simp [Addr.inEntry]) fid

theorem deleteFile_records (p : Str) : Records Op.Filed (deleteFile L p) := by
  refine Records.lift.bind fun p => .lookup (fun fid => ?_) (.throw _)
  refine Records.nowMs.bind fun now => (Records.emit ?_).bind fun _ => .commitNow
  simp [Addr.inEntry]

theorem renameFile_records (src dst : Str) : Records Op.Filed (renameFile L src dst) := by
  refine Records.lift.bind fun src => Records.lift.bind fun dst => .ite (.pure ()) ?_
  refine .lookup (fun fid => .lookup (fun _ => .throw _) ?_) (.throw _)
  refine Records.nowMs.bind fun now => (Records.emit ?_).bind fun _ => ?_
  · simp [Addr.inEntry]
  · exact (ensureAncestorDirectories_records dst).bind fun _ => .commitNow

theorem markDirectory_records (now : Int) (did : Str) :
    Records Op.Filed (markDirectory L now did) := by
  refine Records.ask.bind fun _ => .ite (Records.read.bind fun _ => .emit ?_) (.pure ())
  simp [Addr.inEntry]

theorem deleteDirectory_records (p : Str) (recursive : Bool) :
    Records Op.Filed (deleteDirectory L p recursive) := by
  have hchildren (now : Int) (files dirs : List Str) :
      Records Op.Filed (deleteChildren L now files dirs recursive) := by
    refine .ite ((Records.forM deleteFile_records files).bind fun _ => ?_) (.pure ())
    exact Records.read.bind fun _ => .forM (markDirectory_records now) dirs
  refine Records.lift.bind fun p => Records.nowMs.bind fun now => Records.read.bind fun files =>
    Records.read.bind fun dirs => .ite (.throw _) ((hchildren now files dirs).bind fun _ => ?_)
  exact .lookup (fun did => (markDirectory_records now did).bind fun _ => .commitNow) .commitNow

theorem moveDirectory_records (src dst did : Str) :
    Records Op.Filed (moveDirectory L src dst did) := by
  refine Records.ask.bind fun _ => .ite (.pure ()) ?_
  refine Records.read.bind fun _ => .ite (.pure ()) ?_
  refine .lookup (fun p => .ite (.emit ?_) (.pure ())) (.pure ())
  simp [Addr.inEntry]

theorem moveFile_records (src dst : Str) (now : Int) (fid : Str) :
    Records Op.Filed (moveFile L src dst now fid) := by
  refine Records.ask.bind fun _ => .ite (.pure ()) ?_
  refine Records.ask.bind fun _ => .ite (.pure ()) ?_
  refine Records.read.bind fun _ => .ite (.pure ()) ?_
  refine .lookup (fun p => .ite (.emit ?_) (.pure ())) (.pure ())
  simp [Addr.inEntry]

theorem renameDirectory_records (src dst : Str) : Records Op.Filed (renameDirectory L src dst) := by
  refine Records.lift.bind fun src => Records.lift.bind fun dst => .ite (.pure ()) ?_
  have htail (now : Int) : Records Op.Filed (do
      read (Root.mapObj · .directories)
      (← ask Root.dirKeys).forM (moveDirectory L src dst)
      read (Root.mapObj · .files)
      (← ask Root.fileKeys).forM (moveFile L src dst now)
      ensureAncestorDirectories L dst
      commitNow) :=
    Records.read.bind fun _ => Records.ask.bind fun dids =>
      (Records.forM (moveDirectory_records src dst) dids).bind fun _ =>
      Records.read.bind fun _ => Records.ask.bind fun fids =>
      (Records.forM (moveFile_records src dst now) fids).bind fun _ =>
      (ensureAncestorDirectories_records dst).bind fun _ => .commitNow
  refine Records.nowMs.bind fun now => .lookup (fun did => ?_) (htail now)
  refine Records.ask.bind fun _ => .ite ?_ (htail now)
  refine (Records.emit ?_).bind fun _ => htail now
  simp [Addr.inEntry]

theorem createLabel_records (label : Str) : Records Op.Below (createLabel L label) := by
  refine Records.read.bind fun _ => Records.heads.bind fun heads => Records.read.bind fun _ =>
    Records.nowMs.bind fun now => (Records.emit ?_).bind fun _ => .commitNow
  simp [Addr.ancestors]

theorem deleteLabel_records (label : Str) : Records Op.Below (deleteLabel L label) := by
  refine Records.read.bind fun _ => Records.read.bind fun _ => (Records.emit ?_).bind
    fun _ => .commitNow
  simp [Addr.ancestors, Addr.erasable]

/-! ### Restoring -/

theorem filed_restoreOps (r : Root) (now : Int) (m : FileMeta) (target : Str) :
    ∀ op ∈ restoreOps r now m target, op.Filed := by
  have hbody (current : Option Str) : ∀ op ∈ restoreBody m target current, op.Filed := by
    intro op hop
    unfold restoreBody at hop
    split at hop
    next => exact filed_setTextOps _ _ _ op hop
    next =>
      split at hop
      next =>
        rw [List.mem_singleton.mp hop]
        simp [Addr.inEntry]
      next => cases hop
  rw [restoreOps_eq, List.forall_mem_append, List.forall_mem_append]
  refine ⟨⟨fun op hop => ?_, ?_⟩, hbody _⟩
  · obtain ⟨htarget, hsound⟩ := mem_missingMaps hop
    exact (hsound Crates.plain.nfc).filed htarget
  · simp [restoreFields, Addr.inEntry, Addr.erasable]

theorem killFile_records (now : Int) (past : List FileMeta) (fid : Str) :
    Records Op.Filed (killFile L now past fid) := by
  refine Records.read.bind fun _ => .ite ?_ (.pure ())
  refine Records.read.bind fun _ => Records.ask.bind fun _ => .ite ?_ (.pure ())
  refine Records.ask.bind fun _ => .ite (.emit ?_) (.pure ())
  simp [Addr.inEntry]

theorem restoreFile_records (now : Int) (text : Str → Str) (m : FileMeta) :
    Records Op.Filed (restoreFile L now text m) :=
  .ite (.pure ()) <| Records.read.bind fun _ => Records.read.bind fun _ => Records.ask.bind
    fun r => .emit (filed_restoreOps r now m (text m.id))

theorem killDirectory_records (now : Int) (past : List DirectoryMeta) (did : Str) :
    Records Op.Filed (killDirectory L now past did) := by
  have htail (alive : Bool) : Records Op.Filed (if (alive && !past.any fun m => m.id = did &&
      m.deletedAt.isNone) = true then markDirectory L now did else pure ()) :=
    .ite (markDirectory_records now did) (.pure ())
  refine Records.read.bind fun _ => Records.ask.bind fun _ => .ite ?_ ?_
  · exact Records.read.bind fun _ => htail _
  · exact (Records.pure false).bind htail

theorem restoreDirectory_records (m : DirectoryMeta) :
    Records Op.Filed (restoreDirectory L m) := by
  refine .ite (.pure ()) (Records.read.bind fun _ => Records.read.bind fun _ => Records.ask.bind
    fun r => .emit ?_)
  rw [List.forall_mem_append]
  refine ⟨?_, by simp [Addr.inEntry, Addr.erasable]⟩
  split
  next => simp
  next => simp [Addr.inEntry]

theorem restoreToHeads_records (heads : List ChangeHash) :
    Records Op.Filed (restoreToHeads L A heads) := by
  have hfork : Records Op.Filed (fork A heads) := by
    intro d
    unfold after fork
    cases forkAt A d heads <;> exact .refl d
  refine Records.heads.bind fun _ => hfork.bind fun past => Records.lift.bind fun files =>
    Records.lift.bind fun dirs => Records.nowMs.bind fun now => ?_
  refine Records.read.bind fun _ => Records.read.bind fun _ => Records.ask.bind fun fids =>
    Records.ask.bind fun dids => ?_
  exact (Records.forM (killFile_records now files) fids).bind fun _ =>
    (Records.forM (restoreFile_records now _) files).bind fun _ =>
    (Records.forM (killDirectory_records now dirs) dids).bind fun _ =>
    (Records.forM restoreDirectory_records dirs).bind fun _ => .commitNow

theorem restoreToTime_records (target : Int) : Records Op.Filed (restoreToTime L A target) :=
  Records.bind (Records.heads.bind fun _ d => .refl d) restoreToHeads_records

end Doc

/-- The operations on files and directories, and those that restore them. -/
def LocalOp.onEntries : LocalOp → Bool
  | .createLabel _ | .deleteLabel _ => false
  | _ => true

/-- **Operations on entries record only what is in entries, and take none out.** -/
theorem LocalOp.records_filed {op : LocalOp} (h : op.onEntries = true) :
    Doc.Records Op.Filed (op.run L A) := by
  cases op with
  | writeTextFile p content => exact (Doc.writeTextFile_records p content).bind fun _ => .pure ()
  | writeAttachment p hash size =>
    exact (Doc.writeAttachment_records p hash size).bind fun _ => .pure ()
  | deleteFile p => exact Doc.deleteFile_records p
  | renameFile src dst => exact Doc.renameFile_records src dst
  | createDirectory p => exact (Doc.createDirectory_records p).bind fun _ => .pure ()
  | deleteDirectory p recursive => exact Doc.deleteDirectory_records p recursive
  | renameDirectory src dst => exact Doc.renameDirectory_records src dst
  | createLabel label => cases h
  | deleteLabel label => cases h
  | restoreToHeads heads => exact Doc.restoreToHeads_records heads
  | restoreToTime target => exact Doc.restoreToTime_records target
  | getHeads => exact Doc.Records.heads.bind fun _ => .pure ()

/-- **Operations record only what is below the maps of the root, and take out no entry.** -/
theorem LocalOp.records (op : LocalOp) : Doc.Records Op.Below (op.run L A) := by
  by_cases h : op.onEntries = true
  · exact (records_filed h).mono fun _ => Op.Filed.below
  · cases op with
    | createLabel label => exact Doc.createLabel_records label
    | deleteLabel label => exact Doc.deleteLabel_records label
    | _ => exact absurd rfl h

end AgentSync
