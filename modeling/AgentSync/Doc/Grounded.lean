import AgentSync.Doc.Effects
import AgentSync.Doc.Records

/-! Operations write where there is something to write to.

A write goes into the object its register is in, so that object has to be there when it is made.
Every operation looks before it writes, and one that fails has looked too: what it has recorded by
then is grounded all the same (`LocalOp.written`). -/
namespace AgentSync

variable {L : Crates} {A : Automerge}

/-- The object is there that the operation writes into. -/
def Op.Grounded (r : Root) : Op → Prop
  | .delete _ | .spliceText .. => True
  | op => ∀ a ∈ op.target.ancestors.head?, r.hasObject a = true

/-- Each operation finds its object in what those before it have left. -/
def GroundedAll : Root → List Op → Prop
  | _, [] => True
  | r, op :: rest => op.Grounded r ∧ GroundedAll (op.apply r) rest

theorem groundedAll_append {r : Root} {ops ops' : List Op} :
    GroundedAll r (ops ++ ops') ↔ GroundedAll r ops ∧ GroundedAll (applyAll r ops) ops' := by
  induction ops generalizing r with
  | nil => simp [GroundedAll]
  | cons op rest ih => simp only [List.cons_append, GroundedAll, ih, applyAll_cons, and_assoc]

/-! ### What is found is there -/

namespace Root

theorem hasObject_of_mapObj {r : Root} {m : RootMap} (h : r.mapObj m = .ok ()) :
    r.hasObject (.rootMap m) = true := by
  unfold Root.mapObj at h
  unfold Root.hasObject
  split at h
  next => cases h
  next => cases h
  next v hv hscalar =>
    rw [hscalar]
    cases v with
    | scalar s => exact absurd rfl (hv s)
    | _ => rfl

theorem hasObject_of_findFileIn {r : Root} {path fid : Str} {fids : List Str}
    (h : r.findFileIn L path fids = .ok (some fid)) :
    r.hasObject (.file fid) = true ∧ r.hasObject (.fileMeta fid) = true := by
  induction fids with
  | nil => cases h
  | cons first rest ih =>
    unfold Root.findFileIn at h
    split at h
    next => exact ih h
    next hfile =>
      split at h
      next => exact ih h
      next hmeta =>
        obtain ⟨deleted, -, h⟩ := bind_eq_ok.mp h
        split at h
        next => exact ih h
        next =>
          obtain ⟨found, -, h⟩ := bind_eq_ok.mp h
          split at h
          next =>
            obtain rfl := Option.some.inj (Except.ok.inj h)
            exact ⟨by simpa using hfile, by simpa using hmeta⟩
          next => exact ih h

theorem hasObject_of_findFile {r : Root} {path fid : Str}
    (h : r.findFileByPathNormalized L path = .ok (some fid)) :
    r.hasObject (.file fid) = true ∧ r.hasObject (.fileMeta fid) = true := by
  obtain ⟨-, -, h⟩ := bind_eq_ok.mp h
  exact hasObject_of_findFileIn h

end Root

namespace Doc

/-- From `d` to `d'` grounded operations were recorded, in changes that were added or the open
transaction, and the content is what they make of it. -/
def Written (d d' : Doc) : Prop :=
  ∃ new ops, d'.changes = d.changes ++ new ∧ new.flatMap Change.ops ++ d'.pending = d.pending ++ ops ∧
    d'.root = applyAll d.root ops ∧ GroundedAll d.root ops

namespace Written

variable {d d' d'' : Doc}

theorem refl (d : Doc) : Written d d := ⟨[], [], by simp, by simp, rfl, trivial⟩

theorem trans (h : Written d d') (h' : Written d' d'') : Written d d'' := by
  obtain ⟨new, ops, hchanges, hops, hroot, hground⟩ := h
  obtain ⟨new', ops', hchanges', hops', hroot', hground'⟩ := h'
  refine ⟨new ++ new', ops ++ ops', ?_, ?_, ?_, ?_⟩
  · rw [hchanges', hchanges, List.append_assoc]
  · rw [List.flatMap_append, List.append_assoc, hops', ← List.append_assoc, hops, List.append_assoc]
  · rw [hroot', hroot, applyAll_append]
  · exact groundedAll_append.mpr ⟨hground, hroot ▸ hground'⟩

theorem draw (h : Written d d') (draws : Nat) : Written d {d' with draws := draws} := h

theorem committed (d : Doc) (time : Int) : Written d (d.committed time) := by
  unfold Doc.committed
  split
  next => exact refl d
  next => exact ⟨[_], [], rfl, by simp, rfl, trivial⟩

theorem emitted (d : Doc) {ops : List Op} (h : GroundedAll d.root ops) : Written d (d.emitted ops) :=
  ⟨[], ops, by simp [Doc.emitted], by simp [Doc.emitted], rfl, h⟩

end Written

/-- From `d` on the operation records what is grounded, failed or not. -/
def Writes {α : Type} (x : DocM α) (d : Doc) : Prop := Written d (d.after x)

namespace Writes

variable {α β γ : Type} {x : DocM α} {d : Doc}

protected theorem pure (a : α) : Writes (pure a : DocM α) d := .refl d

protected theorem throw (e : Error) : Writes (throw e : DocM α) d := .refl d

protected theorem bind {f : α → DocM β} (hx : Writes x d)
    (hf : ∀ a d', x d = .ok a d' → Writes (f a) d') : Writes (x >>= f) d := by
  unfold Writes at hx ⊢
  have hbind : (x >>= f) d = EStateM.bind x f d := rfl
  cases hrun : x d with
  | ok a d' =>
    have hx' : d.after x = d' := by rw [after, hrun]
    have hafter : d.after (x >>= f) = d'.after (f a) := by
      simp only [after, hbind, EStateM.bind, hrun]
    rw [hafter]
    exact (hx' ▸ hx).trans (hf a d' hrun)
  | error e d' =>
    have hx' : d.after x = d' := by rw [after, hrun]
    have hafter : d.after (x >>= f) = d' := by
      simp only [after, hbind, EStateM.bind, hrun]
    rw [hafter]
    exact hx' ▸ hx

/-- What is read is known afterwards. -/
theorem read {f : Root → Except Error α} {k : α → DocM β}
    (hk : ∀ a, f d.root = .ok a → Writes (k a) d) : Writes (Doc.read f >>= k) d := by
  refine .bind ?_ fun a d' hrun => ?_
  · unfold Writes after Doc.read
    cases f d.root <;> exact .refl d
  · unfold Doc.read at hrun
    split at hrun
    next b hb =>
      obtain ⟨rfl, rfl⟩ := EStateM.Result.ok.inj hrun
      exact hk _ hb
    next => cases hrun

theorem ask {f : Root → α} {k : α → DocM β} (hk : Writes (k (f d.root)) d) :
    Writes (Doc.ask f >>= k) d :=
  read fun a ha => by
    obtain rfl := Except.ok.inj ha
    exact hk

theorem lift {r : Except Error α} {k : α → DocM β} (hk : ∀ a, Writes (k a) d) :
    Writes (Doc.lift r >>= k) d := read fun a _ => hk a

theorem nowMs {k : Int → DocM β} (hk : ∀ now draws, Writes (k now) {d with draws := draws}) :
    Writes (Doc.nowMs >>= k) d := by
  refine .bind ((Written.refl d).draw _) fun a d' hrun => ?_
  obtain ⟨rfl, rfl⟩ := EStateM.Result.ok.inj hrun
  exact hk _ _

theorem newId {k : Str → DocM β} (hk : ∀ id draws, Writes (k id) {d with draws := draws}) :
    Writes (Doc.newId >>= k) d := by
  refine .bind ((Written.refl d).draw _) fun a d' hrun => ?_
  obtain ⟨rfl, rfl⟩ := EStateM.Result.ok.inj hrun
  exact hk _ _

theorem emit {ops : List Op} (h : GroundedAll d.root ops) : Writes (Doc.emit ops) d := .emitted d h

theorem emitted {ops : List Op} {k : Unit → DocM β} (h : GroundedAll d.root ops)
    (hk : ∀ d', Writes (k ()) d') : Writes (Doc.emit ops >>= k) d :=
  (emit h).bind fun _ d' _ => hk d'

theorem commitNow : Writes Doc.commitNow d :=
  ((Written.refl d).draw (d.draws + 1)).trans (.committed _ _)

theorem heads : Writes Doc.heads d := .committed d 0

/-- A loop whose turns look for themselves. -/
theorem forM {f : γ → DocM PUnit} (h : ∀ a d, Writes (f a) d) (xs : List γ) :
    Writes (xs.forM f) d := by
  induction xs generalizing d with
  | nil => exact .pure _
  | cons a rest ih => exact (h a d).bind fun _ _ _ => ih

theorem ite {c : Prop} [Decidable c] {y : DocM α} (hx : c → Writes x d) (hy : ¬ c → Writes y d) :
    Writes (if c then x else y) d := by
  split
  next h => exact hx h
  next h => exact hy h

/-- The end of most operations. -/
theorem commitPure (a : α) : Writes (do Doc.commitNow; return a) d :=
  commitNow.bind fun _ _ _ => .pure a

end Writes

/-! ### The operations -/

/-- Writes into one object that is there, none of which takes it away. -/
theorem groundedAll_of_parent {r : Root} {a : Addr} {ops : List Op} (ha : r.hasObject a = true)
    (hops : ∀ op ∈ ops, (∀ b ∈ op.target.ancestors.head?, b = a) ∧ op.target ≠ a ∧
      op.target ∉ a.ancestors) : GroundedAll r ops := by
  induction ops generalizing r with
  | nil => trivial
  | cons op rest ih =>
    obtain ⟨hparent, hne, hanc⟩ := hops op List.mem_cons_self
    refine ⟨?_, ih ?_ fun op' hop' => hops op' (List.mem_cons_of_mem _ hop')⟩
    · cases op <;> first | trivial | exact fun b hb => hparent b hb ▸ ha
    · rw [Root.hasObject, get_apply_of_ne r op hne hanc]
      exact ha

theorem grounded_setTextOps {r : Root} {fid content : Str} {current : Option Str}
    (h : r.hasObject (.file fid) = true) : GroundedAll r (setTextOps fid content current) := by
  refine groundedAll_of_parent h fun op hop => ?_
  rw [(mem_setTextOps hop).1]
  simp [Addr.ancestors]

/-- The fields of an entry that is there. -/
theorem grounded_fields {r : Root} (fid : Str) {ops : List Op}
    (h : r.hasObject (.fileMeta fid) = true)
    (hops : ∀ op ∈ ops, ∃ f, op.target = .fileField fid f) : GroundedAll r ops := by
  refine groundedAll_of_parent h fun op hop => ?_
  obtain ⟨f, hf⟩ := hops op hop
  rw [hf]
  simp [Addr.ancestors]

theorem grounded_dirFields {r : Root} (did : Str) {ops : List Op}
    (h : r.hasObject (.dir did) = true)
    (hops : ∀ op ∈ ops, ∃ f, op.target = .dirField did f) : GroundedAll r ops := by
  refine groundedAll_of_parent h fun op hop => ?_
  obtain ⟨f, hf⟩ := hops op hop
  rw [hf]
  simp [Addr.ancestors]

theorem hasObject_putMap (r : Root) (a : Addr) : ((Op.putMap a).apply r).hasObject a = true := by
  rw [Root.hasObject, Op.apply, Root.get_set, if_pos rfl]
  rfl

theorem hasObject_apply_of_ne {r : Root} {op : Op} {a : Addr} (h : r.hasObject a = true)
    (hne : op.target ≠ a) (hanc : op.target ∉ a.ancestors) : (op.apply r).hasObject a = true := by
  rw [Root.hasObject, get_apply_of_ne r op hne hanc]
  exact h

/-- A new directory, in the map of the root. -/
theorem grounded_newDirectory {r : Root} {did : Str} {ops : List Op}
    (h : r.hasObject (.rootMap .directories) = true)
    (hops : ∀ op ∈ ops, ∃ f, op.target = .dirField did f) :
    GroundedAll r (.putMap (.dir did) :: ops) :=
  ⟨fun a ha => by
    obtain rfl := Option.some.inj ha
    exact h, grounded_dirFields did (hasObject_putMap r _) hops⟩

/-- A new file, with its maps. -/
theorem grounded_newFile {r : Root} {fid : Str} {ops : List Op}
    (h : r.hasObject (.rootMap .files) = true)
    (hops : ∀ r : Root, r.hasObject (.file fid) = true → r.hasObject (.fileMeta fid) = true →
      GroundedAll r ops) : GroundedAll r (.putMap (.file fid) :: .putMap (.fileMeta fid) :: ops) := by
  have hfile := hasObject_putMap r (.file fid)
  refine ⟨fun a ha => ?_, fun a ha => ?_, hops _ ?_ (hasObject_putMap _ _)⟩
  · obtain rfl := Option.some.inj ha
    exact h
  · obtain rfl := Option.some.inj ha
    exact hfile
  · exact hasObject_apply_of_ne hfile (by simp [Op.target]) (by simp [Op.target, Addr.ancestors])

variable {d : Doc}

theorem ensureAncestorDirectories_writes (p : Str) : Writes (ensureAncestorDirectories L p) d := by
  refine Writes.nowMs fun now draws => .forM (fun q d => ?_) _
  refine Writes.read fun found hfound => ?_
  cases found with
  | some did => exact .pure ()
  | none =>
    refine Writes.read fun _ hmap => Writes.newId fun did draws => Writes.read fun _ _ => .emit ?_
    exact grounded_newDirectory (Root.hasObject_of_mapObj hmap) (by simp [Op.target])

/-- The end of an operation that has made an entry. -/
theorem created_writes {ops : List Op} {p : Str} {α : Type} (h : GroundedAll d.root ops) (a : α) :
    Writes (do
      emit ops
      ensureAncestorDirectories L p
      commitNow
      return a) d :=
  Writes.emitted h fun _ => (ensureAncestorDirectories_writes p).bind fun _ _ _ => .commitPure a

theorem createDirectory_writes (p : Str) : Writes (createDirectory L p) d := by
  refine Writes.lift fun p => Writes.read fun found hfound => ?_
  cases found with
  | some did => exact .pure did
  | none =>
    refine Writes.read fun _ hmap => Writes.newId fun did draws => Writes.read fun _ _ =>
      Writes.nowMs fun now draws' => created_writes ?_ did
    exact grounded_newDirectory (Root.hasObject_of_mapObj hmap) (by simp [Op.target])

theorem writeTextFile_writes (p content : Str) : Writes (writeTextFile L p content) d := by
  refine Writes.lift fun p => Writes.nowMs fun now draws => Writes.read fun found hfound => ?_
  cases found with
  | some fid =>
    obtain ⟨hfile, hmeta⟩ := Root.hasObject_of_findFile hfound
    refine Writes.ask (Writes.emitted ?_ fun _ => .commitPure fid)
    refine groundedAll_append.mpr ⟨grounded_setTextOps hfile, grounded_fields fid ?_ (by simp [Op.target])⟩
    rw [Root.hasObject, get_setTextOps (by simp)]
    exact hmeta
  | none =>
    refine Writes.read fun _ hmap => Writes.newId fun fid draws' => Writes.read fun _ _ =>
      created_writes ?_ fid
    refine grounded_newFile (Root.hasObject_of_mapObj hmap) fun r hfile hmeta => ?_
    refine groundedAll_append.mpr ⟨grounded_fields fid hmeta (by simp [Op.target]), ?_⟩
    show GroundedAll _ (setTextOps fid content none)
    refine grounded_setTextOps ?_
    rw [Root.hasObject, get_applyAll_of_ne (by simp [Op.target, Addr.ancestors])]
    exact hfile

theorem writeAttachment_writes (p hash : Str) (size : Int) :
    Writes (writeAttachment L p hash size) d := by
  refine Writes.lift fun p => Writes.nowMs fun now draws => Writes.read fun found hfound => ?_
  cases found with
  | some fid =>
    obtain ⟨hfile, hmeta⟩ := Root.hasObject_of_findFile hfound
    refine Writes.emitted ⟨fun a ha => ?_, grounded_fields fid ?_ (by simp [Op.target])⟩
      fun _ => .commitPure fid
    · obtain rfl := Option.some.inj ha
      exact hfile
    · exact hasObject_apply_of_ne hmeta (by simp [Op.target]) (by simp [Op.target, Addr.ancestors])
  | none =>
    refine Writes.read fun _ hmap => Writes.newId fun fid draws' => Writes.read fun _ _ =>
      created_writes ?_ fid
    refine grounded_newFile (Root.hasObject_of_mapObj hmap) fun r hfile hmeta => ?_
    have hfields (path now : Scalar) (kind size : Scalar) : GroundedAll r
        ([.put (.fileField fid .path) path, .put (.fileField fid .kind) kind,
          .put (.fileField fid .size) size, .put (.fileField fid .createdAt) now,
          .put (.fileField fid .updatedAt) now] ++ [.put (.binaryHash fid) (.str hash)]) := by
      refine groundedAll_append.mpr ⟨grounded_fields fid hmeta (by simp [Op.target]), ?_, trivial⟩
      intro a ha
      obtain rfl := Option.some.inj ha
      rw [Root.hasObject, get_applyAll_of_ne (by simp [Op.target, Addr.ancestors])]
      exact hfile
    exact hfields _ _ _ _

theorem deleteFile_writes (p : Str) : Writes (deleteFile L p) d := by
  refine Writes.lift fun p => Writes.read fun found hfound => ?_
  cases found with
  | none => exact .throw _
  | some fid =>
    refine Writes.nowMs fun now draws => Writes.emitted ?_ fun _ => .commitNow
    exact grounded_fields fid (Root.hasObject_of_findFile hfound).2 (by simp [Op.target])

theorem renameFile_writes (src dst : Str) : Writes (renameFile L src dst) d := by
  refine Writes.lift fun src => Writes.lift fun dst => .ite (fun _ => .pure ()) fun _ =>
    Writes.read fun found hfound => ?_
  cases found with
  | none => exact .throw _
  | some fid =>
    refine Writes.read fun taken _ => ?_
    cases taken with
    | some _ => exact .throw _
    | none =>
      refine Writes.nowMs fun now draws => Writes.emitted ?_ fun _ =>
        (ensureAncestorDirectories_writes dst).bind fun _ _ _ => .commitNow
      exact grounded_fields fid (Root.hasObject_of_findFile hfound).2 (by simp [Op.target])

theorem markDirectory_writes (now : Int) (did : Str) : Writes (markDirectory L now did) d :=
  Writes.ask (.ite (fun hdir => Writes.read fun _ _ =>
    .emit (grounded_dirFields did hdir (by simp [Op.target]))) fun _ => .pure ())

theorem deleteDirectory_writes (p : Str) (recursive : Bool) :
    Writes (deleteDirectory L p recursive) d := by
  have hchildren (now : Int) (files dirs : List Str) (d : Doc) :
      Writes (deleteChildren L now files dirs recursive) d :=
    .ite (fun _ => (Writes.forM (fun q _ => deleteFile_writes q) files).bind fun _ _ _ =>
      Writes.read fun _ _ => .forM (fun did _ => markDirectory_writes now did) dirs)
      fun _ => .pure ()
  refine Writes.lift fun p => Writes.nowMs fun now draws => Writes.read fun files _ =>
    Writes.read fun dirs _ => .ite (fun _ => .throw _) fun _ =>
      (hchildren now files dirs _).bind fun _ d' _ => Writes.read fun found _ => ?_
  cases found with
  | some did => exact (markDirectory_writes now did).bind fun _ _ _ => .commitNow
  | none => exact .commitNow

theorem moveDirectory_writes (src dst did : Str) : Writes (moveDirectory L src dst did) d := by
  refine Writes.ask (.ite (fun _ => .pure ()) fun hdir => Writes.read fun deleted _ =>
    .ite (fun _ => .pure ()) fun _ => Writes.read fun found _ => ?_)
  cases found with
  | none => exact .pure ()
  | some p =>
    refine .ite (fun _ => .emit (grounded_dirFields did ?_ (by simp [Op.target]))) fun _ => .pure ()
    simpa using hdir

theorem moveFile_writes (src dst : Str) (now : Int) (fid : Str) :
    Writes (moveFile L src dst now fid) d := by
  refine Writes.ask (.ite (fun _ => .pure ()) fun _ => Writes.ask (.ite (fun _ => .pure ())
    fun hmeta => Writes.read fun deleted _ => .ite (fun _ => .pure ()) fun _ =>
      Writes.read fun found _ => ?_))
  cases found with
  | none => exact .pure ()
  | some p =>
    refine .ite (fun _ => .emit (grounded_fields fid ?_ (by simp [Op.target]))) fun _ => .pure ()
    simpa using hmeta

theorem renameDirectory_writes (src dst : Str) : Writes (renameDirectory L src dst) d := by
  have htail (src dst : Str) (now : Int) (d : Doc) : Writes (do
      read (Root.mapObj · .directories)
      (← ask Root.dirKeys).forM (moveDirectory L src dst)
      read (Root.mapObj · .files)
      (← ask Root.fileKeys).forM (moveFile L src dst now)
      ensureAncestorDirectories L dst
      commitNow) d :=
    Writes.read fun _ _ => Writes.ask
      ((Writes.forM (fun did _ => moveDirectory_writes src dst did) _).bind fun _ _ _ =>
        Writes.read fun _ _ => Writes.ask
          ((Writes.forM (fun fid _ => moveFile_writes src dst now fid) _).bind fun _ _ _ =>
            (ensureAncestorDirectories_writes dst).bind fun _ _ _ => .commitNow))
  refine Writes.lift fun src => Writes.lift fun dst => .ite (fun _ => .pure ()) fun _ =>
    Writes.nowMs fun now draws => Writes.read fun found _ => ?_
  cases found with
  | none => exact htail src dst now _
  | some did =>
    refine Writes.ask (.ite (fun hdir => Writes.emitted ?_ fun d' => htail src dst now d')
      fun _ => htail src dst now _)
    exact grounded_dirFields did hdir (by simp [Op.target])

theorem createLabel_writes (label : Str) : Writes (createLabel L label) d := by
  refine Writes.read fun _ hmap => Writes.bind Writes.heads fun heads d' hrun =>
    Writes.read fun _ _ => Writes.nowMs fun now draws => Writes.emitted ?_ fun _ => .commitNow
  have hroot : d'.root = d.root := by
    obtain ⟨-, rfl⟩ := EStateM.Result.ok.inj hrun
    exact committed_root 0
  refine ⟨fun a ha => ?_, groundedAll_of_parent (hasObject_putMap _ _) ?_⟩
  · obtain rfl := Option.some.inj ha
    show d'.root.hasObject _ = true
    rw [hroot]
    exact Root.hasObject_of_mapObj hmap
  · simp [Op.target, Addr.ancestors]

theorem deleteLabel_writes (label : Str) : Writes (deleteLabel L label) d :=
  Writes.read fun _ _ => Writes.read fun _ _ => Writes.emitted ⟨trivial, trivial⟩ fun _ => .commitNow

/-! ### Restoring -/

theorem killFile_writes (now : Int) (past : List FileMeta) (fid : Str) :
    Writes (killFile L now past fid) d := by
  refine Writes.read fun entry _ => .ite (fun _ => ?_) fun _ => .pure ()
  refine Writes.read fun _ _ => Writes.ask (.ite (fun _ => Writes.ask (.ite (fun hmeta => ?_)
    fun _ => .pure ())) fun _ => .pure ())
  exact .emit (grounded_fields fid hmeta (by simp [Op.target]))

theorem grounded_restoreOps {r : Root} (now : Int) (m : FileMeta) (text : Str)
    (hmap : r.mapObj .files = .ok ()) : GroundedAll r (restoreOps r now m text) := by
  have hrest (r' : Root) (current : Option Str) (hfile : r'.hasObject (.file m.id) = true)
      (hmeta : r'.hasObject (.fileMeta m.id) = true) : GroundedAll r'
        ([.put (.fileField m.id .path) (.str m.path),
          .put (.fileField m.id .kind) (.str m.kind.asStr),
          .put (.fileField m.id .size) (.int m.size),
          .put (.fileField m.id .createdAt) (.int m.createdAt),
          .put (.fileField m.id .updatedAt) (.int now),
          .delete (.fileField m.id .deletedAt)] ++ restoreBody m text current) := by
    refine groundedAll_append.mpr ⟨grounded_fields m.id hmeta (by simp [Op.target]), ?_⟩
    have hfile' : Root.hasObject (applyAll r' [.put (.fileField m.id .path) (.str m.path),
          .put (.fileField m.id .kind) (.str m.kind.asStr),
          .put (.fileField m.id .size) (.int m.size),
          .put (.fileField m.id .createdAt) (.int m.createdAt),
          .put (.fileField m.id .updatedAt) (.int now),
          .delete (.fileField m.id .deletedAt)]) (.file m.id) = true := by
      rw [Root.hasObject, get_applyAll_of_ne (by simp [Op.target, Addr.ancestors])]
      exact hfile
    unfold restoreBody
    split
    next => exact grounded_setTextOps hfile'
    next =>
      split
      next =>
        refine ⟨fun a ha => ?_, trivial⟩
        obtain rfl := Option.some.inj ha
        exact hfile'
      next => trivial
  rw [restoreOps, List.append_assoc]
  unfold missingMaps
  by_cases hfile : r.hasObject (.file m.id) = true
  · simp only [hfile, if_true]
    by_cases hmeta : r.hasObject (.fileMeta m.id) = true
    · simp only [hmeta, if_true]
      exact hrest r _ hfile hmeta
    · simp only [hmeta, Bool.false_eq_true, if_false]
      refine ⟨fun a ha => ?_, hrest _ _ ?_ (hasObject_putMap _ _)⟩
      · obtain rfl := Option.some.inj ha
        exact hfile
      · exact hasObject_apply_of_ne hfile (by simp [Op.target]) (by simp [Op.target, Addr.ancestors])
  · simp only [hfile, Bool.false_eq_true, if_false]
    exact grounded_newFile (Root.hasObject_of_mapObj hmap) fun r' hfile' hmeta' => hrest r' _ hfile' hmeta'

theorem restoreFile_writes (now : Int) (text : Str → Str) (m : FileMeta) :
    Writes (restoreFile L now text m) d :=
  .ite (fun _ => .pure ()) fun _ => Writes.read fun _ hmap => Writes.read fun _ _ =>
    Writes.ask (.emit (grounded_restoreOps now m (text m.id) hmap))

theorem killDirectory_writes (now : Int) (past : List DirectoryMeta) (did : Str) :
    Writes (killDirectory L now past did) d := by
  have htail (alive : Bool) (d : Doc) : Writes (if (alive && !past.any fun m => m.id = did &&
      m.deletedAt.isNone) = true then markDirectory L now did else pure ()) d :=
    .ite (fun _ => markDirectory_writes now did) fun _ => .pure ()
  refine Writes.read fun _ _ => Writes.ask (.ite (fun _ => ?_) fun _ => ?_)
  · exact Writes.read fun _ _ => htail _ _
  · exact (Writes.pure false).bind fun alive d' _ => htail alive d'

theorem restoreDirectory_writes (m : DirectoryMeta) : Writes (restoreDirectory L m) d := by
  refine .ite (fun _ => .pure ()) fun _ => Writes.read fun _ hmap => Writes.read fun _ _ =>
    Writes.ask (.emit ?_)
  have hfields (r : Root) (hdir : r.hasObject (.dir m.id) = true) : GroundedAll r
      [.put (.dirField m.id .path) (.str m.path),
        .put (.dirField m.id .createdAt) (.int m.createdAt),
        .delete (.dirField m.id .deletedAt)] := grounded_dirFields m.id hdir (by simp [Op.target])
  show GroundedAll d.root (_ ++ _)
  split
  next hdir => exact hfields _ hdir
  next => exact grounded_newDirectory (Root.hasObject_of_mapObj hmap) (by simp [Op.target])

theorem restoreToHeads_writes (heads : List ChangeHash) : Writes (restoreToHeads L A heads) d := by
  have hfork (d : Doc) : Writes (fork A heads) d := by
    unfold Writes after fork
    cases forkAt A d heads <;> exact .refl d
  refine Writes.bind Writes.heads fun _ d' _ => (hfork d').bind fun past d'' _ =>
    Writes.lift fun files => Writes.lift fun dirs => Writes.nowMs fun now draws => ?_
  refine Writes.read fun _ _ => Writes.read fun _ _ => Writes.ask (Writes.ask ?_)
  exact (Writes.forM (fun fid _ => killFile_writes now files fid) _).bind fun _ _ _ =>
    (Writes.forM (fun m _ => restoreFile_writes now _ m) files).bind fun _ _ _ =>
    (Writes.forM (fun did _ => killDirectory_writes now dirs did) _).bind fun _ _ _ =>
    (Writes.forM (fun m _ => restoreDirectory_writes m) dirs).bind fun _ _ _ => .commitNow

theorem restoreToTime_writes (target : Int) : Writes (restoreToTime L A target) d :=
  Writes.bind (Writes.bind Writes.heads fun _ d' _ => .refl d') fun heads _ _ =>
    restoreToHeads_writes heads

end Doc

/-- **Whatever an operation records, it looked first**: in every document, whether it succeeds or
fails. -/
theorem LocalOp.written (op : LocalOp) (d : Doc) : Doc.Written d (d.after (op.run L A)) := by
  have hrun : Doc.Writes (op.run L A) d := by
    cases op with
    | writeTextFile p content =>
      exact (Doc.writeTextFile_writes p content).bind fun _ _ _ => .pure ()
    | writeAttachment p hash size =>
      exact (Doc.writeAttachment_writes p hash size).bind fun _ _ _ => .pure ()
    | deleteFile p => exact Doc.deleteFile_writes p
    | renameFile src dst => exact Doc.renameFile_writes src dst
    | createDirectory p => exact (Doc.createDirectory_writes p).bind fun _ _ _ => .pure ()
    | deleteDirectory p recursive => exact Doc.deleteDirectory_writes p recursive
    | renameDirectory src dst => exact Doc.renameDirectory_writes src dst
    | createLabel label => exact Doc.createLabel_writes label
    | deleteLabel label => exact Doc.deleteLabel_writes label
    | restoreToHeads heads => exact Doc.restoreToHeads_writes heads
    | restoreToTime target => exact Doc.restoreToTime_writes target
    | getHeads => exact Doc.Writes.heads.bind fun _ _ _ => .pure ()
  exact hrun

end AgentSync
