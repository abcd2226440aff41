import AgentSync.Doc.Outcome
import AgentSync.Doc.Replay

/-! The file operations as operations on a map of paths.

To its users a vault is a map from paths to what is in the files, and a set of directories
(`Tree`). The document keeps entries by id, with tombstones and one slot for each kind of
body; `Doc.Simulates` says that a call does to the map what the map's own operation does, and
`Doc.file_operations_refine` that every call of every sequence does. -/
namespace AgentSync

variable {L : Crates} {A : Automerge} {r : Root} {p : Str}

/-! ### The map -/

/-- What is in a file. -/
structure Entry where
  kind : FileKind
  size : Int
  body : Body
  deriving DecidableEq, Repr

@[ext] structure Tree where
  files : Str → Option Entry
  dirs : Set Str

inductive FileOp where
  | writeTextFile (path content : Str)
  | writeAttachment (path hash : Str) (size : Int)
  | deleteFile (path : Str)
  | renameFile (src dst : Str)
  | createDirectory (path : Str)

def FileOp.run (L : Crates) : FileOp → DocM Unit
  | .writeTextFile path content => Doc.writeTextFile L path content >>= fun _ => pure ()
  | .writeAttachment path hash size => Doc.writeAttachment L path hash size >>= fun _ => pure ()
  | .deleteFile path => Doc.deleteFile L path
  | .renameFile src dst => Doc.renameFile L src dst
  | .createDirectory path => Doc.createDirectory L path >>= fun _ => pure ()

namespace Tree

/-- The directories above a path, which are added where they are missing. -/
def withAncestors (dirs : Set Str) (p : Str) : Set Str := dirs ∪ {q | q ∈ Path.ancestors p}

def write (t : Tree) (p : Str) (e : Entry) : Tree where
  files := Function.update t.files p (some e)
  dirs := if (t.files p).isSome then t.dirs else withAncestors t.dirs p

def delete (t : Tree) (p : Str) : Option Tree :=
  if (t.files p).isSome then some {t with files := Function.update t.files p none} else none

def rename (t : Tree) (p q : Str) : Option Tree :=
  if p = q then some t
  else
    match t.files p, t.files q with
    | some e, none => some ⟨Function.update (Function.update t.files p none) q (some e),
        withAncestors t.dirs q⟩
    | _, _ => none

open Classical in
noncomputable def create (t : Tree) (p : Str) : Tree :=
  if p ∈ t.dirs then t else {t with dirs := withAncestors (insert p t.dirs) p}

/-- The operation on the map; `none` where it fails. -/
noncomputable def run (N : Nfc) (t : Tree) : FileOp → Option Tree
  | .writeTextFile path content => do
    return t.write (← (Path.normalize N path).toOption)
      ⟨.text, (utf8 content).length, .text content⟩
  | .writeAttachment path hash size => do
    return t.write (← (Path.normalize N path).toOption) ⟨.attachment, size, .attachment (some hash)⟩
  | .deleteFile path => do t.delete (← (Path.normalize N path).toOption)
  | .renameFile src dst => do
    t.rename (← (Path.normalize N src).toOption) (← (Path.normalize N dst).toOption)
  | .createDirectory path => do return t.create (← (Path.normalize N path).toOption)

end Tree

/-- Where the entry of a path is after an operation that has succeeded. -/
def FileOp.movedTo (N : Nfc) : FileOp → Str → Str
  | .renameFile src dst, p =>
    match Path.normalize N src, Path.normalize N dst with
    | .ok s, .ok q => if p = s then q else p
    | _, _ => p
  | _, p => p

/-! ### The map of a document -/

namespace Root

/-- The live file at a path. -/
noncomputable def fileOf (L : Crates) (r : Root) : Str → Option LiveFile :=
  Index.lookup LiveFile.path (r.fileAt L)

noncomputable def tree (L : Crates) (r : Root) : Tree where
  files := fun p => (r.fileOf L p).map fun f => ⟨f.kind, f.size, f.body⟩
  dirs := r.dirPaths L

/-- Every entry has a path, a known kind and integer times. -/
structure WellFormed (L : Crates) (r : Root) : Prop where
  maps : ∀ m, r.get (.rootMap m) = some .map
  file : ∀ fid, r.get (.file fid) ≠ none →
    r.get (.file fid) = some .map ∧ r.get (.fileMeta fid) = some .map ∧
    (∃ p, r.get (.fileField fid .path) = some (.scalar (.str p))) ∧
    (∃ k : FileKind, r.get (.fileField fid .kind) = some (.scalar (.str k.asStr))) ∧
    (∀ f ∈ [FileField.size, .createdAt, .updatedAt, .deletedAt],
      ∃ n, r.getInt L (.fileField fid f) = .ok n) ∧
    ∃ hash, r.getStr L (.binaryHash fid) = .ok hash
  directory : ∀ did, r.get (.dir did) ≠ none →
    r.get (.dir did) = some .map ∧
    (∃ p, r.get (.dirField did .path) = some (.scalar (.str p))) ∧
    ∀ f ∈ [DirField.createdAt, .deletedAt], ∃ n, r.getInt L (.dirField did f) = .ok n

theorem WellFormed.readable (h : r.WellFormed L) : r.Readable L where
  files := by rw [mapObj, h.maps]
  directories := by rw [mapObj, h.maps]
  writable := fun m => by rw [writable, h.maps]
  file := fun fid => by
    by_cases hnone : r.get (.file fid) = none
    · refine ⟨none, ?_⟩
      simp [readFileMeta, mapObj, h.maps, hasObject, hnone, bind, Except.bind, pure, Except.pure]
    · obtain ⟨hfile, hmeta, ⟨p, hp⟩, ⟨k, hk⟩, hints, b, hb⟩ := h.file fid hnone
      obtain ⟨size, hsize⟩ := hints .size (by simp)
      obtain ⟨c, hc⟩ := hints .createdAt (by simp)
      obtain ⟨u, hu⟩ := hints .updatedAt (by simp)
      obtain ⟨t, ht⟩ := hints .deletedAt (by simp)
      exact ⟨some ⟨fid, p, k, size.getD 0, c.getD 0, u.getD (c.getD 0), t, b⟩,
        readFileMeta_eq_some.mpr ⟨by rw [mapObj, h.maps], hasObject_of_get hfile rfl,
          hasObject_of_get hmeta rfl, getStr_of_get hp,
          ⟨k.asStr, getStr_of_get hk, FileKind.parse_asStr k⟩, ⟨size, hsize, rfl⟩, ⟨c, hc, rfl⟩,
          ⟨u, hu, rfl⟩, ht, hb, rfl⟩⟩
  directory := fun did hdid => by
    obtain ⟨-, ⟨p, hp⟩, hints⟩ := h.directory did (get_of_hasObject hdid)
    exact ⟨⟨_, getStr_of_get hp⟩, hints .createdAt (by simp), hints .deletedAt (by simp)⟩

/-- No two live files have one path. -/
abbrev UniqueFiles (L : Crates) (r : Root) : Prop := Index.Unique LiveFile.path (r.fileAt L)

end Root

namespace Doc

variable {d d' : Doc}

/-- A call does what the map's operation does, and an entry that it does not delete keeps its
id and its time of creation. -/
def Simulates (L : Crates) (op : FileOp) (d : Doc) : Prop :=
  match op.run L d with
  | .ok _ d' => (d.root.tree L).run L.nfc op = some (d'.root.tree L) ∧
      ∀ p f f', d.root.fileOf L p = some f → d'.root.fileOf L (op.movedTo L.nfc p) = some f' →
        f'.id = f.id ∧ f'.createdAt = f.createdAt
  | .error _ d' => (d.root.tree L).run L.nfc op = none ∧ d' = d

/-- What the calls leave in order. -/
structure Orderly (L : Crates) (d : Doc) : Prop where
  readable : d.root.Readable L
  unique : d.root.UniqueFiles L
  fresh : d.Fresh

/-- An entry of a path is where `moved` says, with the id and the time of creation it had. -/
def KeepsIdentity (L : Crates) (moved : Str → Str) (d d' : Doc) : Prop :=
  ∀ p f f', d.root.fileOf L p = some f → d'.root.fileOf L (moved p) = some f' →
    f'.id = f.id ∧ f'.createdAt = f.createdAt

theorem fileOf_none : d.root.fileOf L p = none ↔ p ∉ d.root.filePaths L :=
  Index.lookup_eq_none

section Steps

variable (hd : d.Orderly L)
include hd

theorem Orderly.fileOf_of {fid : Str} {f : LiveFile} (hf : d.root.fileAt L fid = some f) :
    d.root.fileOf L f.path = some f := hd.unique.lookup_of hf

/-- Setting what is in a file, or making one, is `Tree.write`. -/
theorem Orderly.wrote {x : DocM Str} {kind : FileKind} {size : Int} {body : Body}
    (h : Wrote L x d p kind size body) : Ends x d fun _ d' => d'.Orderly L ∧
      d'.root.tree L = (d.root.tree L).write p ⟨kind, size, body⟩ ∧
      KeepsIdentity L id d d' := by
  rcases h with ⟨fid, f, hf, rfl, hrun⟩ | ⟨hnone, hrun⟩
  · refine hrun.weaken fun _ d' hb => ?_
    have hfree := hd.unique.free_of_same (b := { f with kind, size, body }) hf rfl
    have hfiles : d'.root.fileOf L =
        Function.update (d.root.fileOf L) f.path (some { f with kind, size, body }) := by
      rw [Root.fileOf, hb.files, hd.unique.lookup_move hf hfree]
      exact Function.update_idem ..
    refine ⟨⟨hb.readable, ?_, hb.fresh⟩, ?_, fun q g g' hg hg' => ?_⟩
    · rw [Root.UniqueFiles, hb.files]
      exact hd.unique.update hfree
    · have hthere : ((d.root.tree L).files f.path).isSome = true := by
        simp [Root.tree, hd.fileOf_of hf]
      refine Tree.ext (funext fun q => ?_) ?_
      · simp only [Root.tree, Tree.write, hfiles]
        by_cases hq : q = f.path
        · simp [hq]
        · simp [hq]
      · rw [Tree.write, if_pos hthere]
        simp [Root.tree, Root.dirPaths, hb.dirs.keys]
    · rw [hfiles] at hg'
      by_cases hq : q = f.path
      · subst hq
        rw [hd.fileOf_of hf] at hg
        rw [id, Function.update_self] at hg'
        obtain rfl := Option.some.inj hg
        obtain rfl := Option.some.inj hg'
        exact ⟨rfl, rfl⟩
      · rw [id, Function.update_of_ne hq, hg] at hg'
        obtain rfl := Option.some.inj hg'
        exact ⟨rfl, rfl⟩
  · refine hrun.weaken fun fid d' ⟨hfid, now, hb⟩ => ?_
    have hfiles : d'.root.fileOf L =
        Function.update (d.root.fileOf L) p (some ⟨fid, p, kind, size, now, body⟩) := by
      rw [Root.fileOf, hb.files, hd.unique.lookup_add hfid hnone]
      rfl
    refine ⟨⟨hb.readable, ?_, hb.fresh⟩, ?_, fun q g g' hg hg' => ?_⟩
    · rw [Root.UniqueFiles, hb.files]
      exact hd.unique.update (Index.free_of_notMem hnone)
    · have hgone : ¬ ((d.root.tree L).files p).isSome = true := by
        simp [Root.tree, fileOf_none.mpr hnone]
      refine Tree.ext (funext fun q => ?_) ?_
      · simp only [Root.tree, Tree.write, hfiles]
        by_cases hq : q = p
        · simp [hq]
        · simp [hq]
      · rw [Tree.write, if_neg hgone]
        exact hb.dirs.keys
    · rw [hfiles] at hg'
      have hq : q ≠ p := by
        rintro rfl
        rw [fileOf_none.mpr hnone] at hg
        cases hg
      rw [id, Function.update_of_ne hq, hg] at hg'
      obtain rfl := Option.some.inj hg'
      exact ⟨rfl, rfl⟩

theorem Orderly.deleted {fid : Str} {f : LiveFile} (hf : d.root.fileAt L fid = some f)
    (hb : Becomes L d d' (Function.update (d.root.fileAt L) fid none) (d.root.dirAt L) []) :
    d'.Orderly L ∧ (d.root.tree L).delete f.path = some (d'.root.tree L) ∧
      KeepsIdentity L id d d' := by
  have hfiles : d'.root.fileOf L = Function.update (d.root.fileOf L) f.path none := by
    rw [Root.fileOf, hb.files, hd.unique.lookup_erase hf]
    rfl
  refine ⟨⟨hb.readable, ?_, hb.fresh⟩, ?_, fun q g g' hg hg' => ?_⟩
  · rw [Root.UniqueFiles, hb.files]
    exact hd.unique.erase
  · have hthere : ((d.root.tree L).files f.path).isSome = true := by
      simp [Root.tree, hd.fileOf_of hf]
    rw [Tree.delete, if_pos hthere]
    refine congrArg some (Tree.ext (funext fun q => ?_) ?_)
    · simp only [Root.tree, hfiles]
      by_cases hq : q = f.path
      · simp [hq]
      · simp [hq]
    · simp [Root.tree, Root.dirPaths, hb.dirs.keys]
  · rw [hfiles] at hg'
    by_cases hq : q = f.path
    · rw [id, hq, Function.update_self] at hg'
      cases hg'
    · rw [id, Function.update_of_ne hq, hg] at hg'
      obtain rfl := Option.some.inj hg'
      exact ⟨rfl, rfl⟩

theorem Orderly.renamed {fid q : Str} {f : LiveFile} (hf : d.root.fileAt L fid = some f)
    (hne : f.path ≠ q) (hq : q ∉ d.root.filePaths L)
    (hb : Becomes L d d' (Function.update (d.root.fileAt L) fid (some { f with path := q }))
      (d.root.dirAt L) (Path.ancestors q)) :
    d'.Orderly L ∧ (d.root.tree L).rename f.path q = some (d'.root.tree L) ∧
      KeepsIdentity L (fun p => if p = f.path then q else p) d d' := by
  have hfree := Index.free_of_notMem (i := fid) (b := { f with path := q }) hq
  have hfiles : d'.root.fileOf L = Function.update (Function.update (d.root.fileOf L) f.path none)
      q (some { f with path := q }) := by
    rw [Root.fileOf, hb.files, hd.unique.lookup_move hf hfree]
    rfl
  refine ⟨⟨hb.readable, ?_, hb.fresh⟩, ?_, fun p g g' hg hg' => ?_⟩
  · rw [Root.UniqueFiles, hb.files]
    exact hd.unique.update hfree
  · have hsrc : (d.root.tree L).files f.path = some ⟨f.kind, f.size, f.body⟩ := by
      simp [Root.tree, hd.fileOf_of hf]
    have hdst : (d.root.tree L).files q = none := by
      simp [Root.tree, fileOf_none.mpr hq]
    rw [Tree.rename, if_neg hne, hsrc, hdst]
    refine congrArg some (Tree.ext (funext fun p => ?_) hb.dirs.keys.symm)
    simp only [Root.tree, hfiles]
    by_cases hp : p = q
    · simp [hp]
    · by_cases hp' : p = f.path
      · simp [hp', hne]
      · simp [hp, hp']
  · rw [hfiles] at hg'
    by_cases hp : p = f.path
    · subst hp
      rw [hd.fileOf_of hf] at hg
      simp only [if_true, Function.update_self] at hg'
      obtain rfl := Option.some.inj hg
      obtain rfl := Option.some.inj hg'
      exact ⟨rfl, rfl⟩
    · have hpq : p ≠ q := by
        rintro rfl
        rw [fileOf_none.mpr hq] at hg
        cases hg
      simp only [hp, if_false, Function.update_of_ne hpq, Function.update_of_ne hp, hg] at hg'
      obtain rfl := Option.some.inj hg'
      exact ⟨rfl, rfl⟩

theorem Orderly.created
    (hp : p ∉ d.root.dirPaths L)
    (hb : Becomes L d d' (d.root.fileAt L) (d.root.dirAt L) (p :: Path.ancestors p)) :
    d'.Orderly L ∧ d'.root.tree L = (d.root.tree L).create p ∧ KeepsIdentity L id d d' := by
  have hfiles : d'.root.fileOf L = d.root.fileOf L := by
    rw [Root.fileOf, hb.files]
    rfl
  refine ⟨⟨hb.readable, ?_, hb.fresh⟩, ?_, fun q g g' hg hg' => ?_⟩
  · rw [Root.UniqueFiles, hb.files]
    exact hd.unique
  · have hdirs : p ∉ (d.root.tree L).dirs := hp
    rw [Tree.create, if_neg hdirs]
    refine Tree.ext (by simp only [Root.tree, hfiles]) ?_
    simp only [Root.tree, Root.dirPaths, hb.dirs.keys, Tree.withAncestors, Set.insert_union]
    ext q
    simp [or_left_comm]
  · rw [hfiles, id, hg] at hg'
    obtain rfl := Option.some.inj hg'
    exact ⟨rfl, rfl⟩

end Steps

/-- **One call** does what the map's operation does, and leaves the document in order. -/
theorem Orderly.simulates (hd : d.Orderly L) (op : FileOp) :
    Simulates L op d ∧ (d.after (op.run L)).Orderly L := by
  have herror {e : Error} (hrun : op.run L d = .error e d)
      (htree : (d.root.tree L).run L.nfc op = none) :
      Simulates L op d ∧ (d.after (op.run L)).Orderly L := by
    simp only [Simulates, Doc.after, hrun]
    exact ⟨⟨htree, trivial⟩, hd⟩
  have hok {d' : Doc} (hrun : op.run L d = .ok () d')
      (htree : (d.root.tree L).run L.nfc op = some (d'.root.tree L))
      (hkept : KeepsIdentity L (op.movedTo L.nfc) d d') (hd' : d'.Orderly L) :
      Simulates L op d ∧ (d.after (op.run L)).Orderly L := by
    simp only [Simulates, Doc.after, hrun]
    exact ⟨⟨htree, hkept⟩, hd'⟩
  cases op with
  | writeTextFile path content =>
    cases hp : Path.normalize L.nfc path with
    | error e =>
      exact herror (unit_error (lift_error hp _)) (by simp [Tree.run, hp, Except.toOption])
    | ok p =>
      obtain ⟨fid, d', hrun, hd', htree, hkept⟩ :=
        hd.wrote (writeTextFile_outcome hd.readable hd.fresh hp content)
      exact hok (unit_ok hrun) (by simp [Tree.run, hp, Except.toOption, htree]) hkept hd'
  | writeAttachment path hash size =>
    cases hp : Path.normalize L.nfc path with
    | error e =>
      exact herror (unit_error (lift_error hp _)) (by simp [Tree.run, hp, Except.toOption])
    | ok p =>
      obtain ⟨fid, d', hrun, hd', htree, hkept⟩ :=
        hd.wrote (writeAttachment_outcome hd.readable hd.fresh hp hash size)
      exact hok (unit_ok hrun) (by simp [Tree.run, hp, Except.toOption, htree]) hkept hd'
  | deleteFile path =>
    cases hp : Path.normalize L.nfc path with
    | error e => exact herror (lift_error hp _) (by simp [Tree.run, hp, Except.toOption])
    | ok p =>
      rcases deleteFile_outcome hd.readable hd.fresh hp with
        ⟨fid, f, hf, rfl, _, d', hrun, hb⟩ | ⟨hnone, hrun⟩
      · obtain ⟨hd', htree, hkept⟩ := hd.deleted hf hb
        exact hok hrun (by simpa [Tree.run, hp, Except.toOption] using htree) hkept hd'
      · refine herror hrun ?_
        simp [Tree.run, hp, Except.toOption, Tree.delete, Root.tree, fileOf_none.mpr hnone]
  | renameFile src dst =>
    cases hp : Path.normalize L.nfc src with
    | error e => exact herror (lift_error hp _) (by simp [Tree.run, hp, Except.toOption])
    | ok p =>
      cases hq : Path.normalize L.nfc dst with
      | error e =>
        refine herror (e := e) ?_ (by simp [Tree.run, hp, hq, Except.toOption])
        show EStateM.bind (lift _) _ d = _
        simp only [EStateM.bind, lift, read, hp]
        exact lift_error hq _
      | ok q =>
        have htree : (d.root.tree L).run L.nfc (.renameFile src dst) =
            (d.root.tree L).rename p q := by simp [Tree.run, hp, hq, Except.toOption]
        have hmoved : (FileOp.renameFile src dst).movedTo L.nfc =
            fun p' => if p' = p then q else p' := by
          funext p'
          simp [FileOp.movedTo, hp, hq]
        rcases renameFile_outcome hd.readable hd.fresh hp hq with
          ⟨rfl, hrun⟩ | ⟨hne, hstuck, e, hrun⟩ | ⟨hne, hfree, fid, f, hf, rfl, _, d', hrun, hb⟩
        · refine hok hrun (by rw [htree, Tree.rename, if_pos rfl]) ?_ hd
          rw [hmoved]
          intro p' f f' hf hf'
          have hp' : (if p' = p then p else p') = p' := by
            split
            next h => exact h.symm
            next => rfl
          simp only [hp', hf] at hf'
          obtain rfl := Option.some.inj hf'
          exact ⟨rfl, rfl⟩
        · refine herror hrun ?_
          rw [htree, Tree.rename, if_neg hne]
          rcases hstuck with hsrc | hdst
          · simp [Root.tree, fileOf_none.mpr hsrc]
          · have hthere : d.root.fileOf L q ≠ none := fun h => fileOf_none.mp h hdst
            obtain ⟨g, hg⟩ := Option.ne_none_iff_exists'.mp hthere
            cases hf : d.root.fileOf L p <;> simp [Root.tree, hg, hf]
        · obtain ⟨hd', hrenamed, hkept⟩ := hd.renamed hf hne hfree hb
          exact hok hrun (htree.trans hrenamed) (hmoved ▸ hkept) hd'
  | createDirectory path =>
    cases hp : Path.normalize L.nfc path with
    | error e =>
      exact herror (unit_error (lift_error hp _)) (by simp [Tree.run, hp, Except.toOption])
    | ok p =>
      rcases createDirectory_outcome hd.readable hd.fresh hp with
        ⟨did, hrun, hthere⟩ | ⟨hnone, did, d', hrun, hb⟩
      · have hdirs : p ∈ (d.root.tree L).dirs := hthere
        refine hok (unit_ok hrun) ?_ (fun p' f f' hf hf' => ?_) hd
        · simp [Tree.run, hp, Except.toOption, Tree.create, hdirs]
        · simp only [FileOp.movedTo, hf] at hf'
          obtain rfl := Option.some.inj hf'
          exact ⟨rfl, rfl⟩
      · obtain ⟨hd', htree, hkept⟩ := hd.created hnone hb
        exact hok (unit_ok hrun) (by simp [Tree.run, hp, Except.toOption, htree]) hkept hd'

/-- The document after some calls. -/
def afterAll (L : Crates) (d : Doc) (ops : List FileOp) : Doc :=
  ops.foldl (fun d op => d.after (op.run L)) d

theorem Orderly.afterAll (hd : d.Orderly L) (ops : List FileOp) : (d.afterAll L ops).Orderly L := by
  induction ops generalizing d with
  | nil => exact hd
  | cons op rest ih => exact ih (hd.simulates op).2

theorem tree_after (h : Simulates L op d) :
    (d.after (op.run L)).root.tree L = ((d.root.tree L).run L.nfc op).getD (d.root.tree L) := by
  unfold Simulates at h
  unfold Doc.after
  cases hrun : op.run L d with
  | ok _ d' =>
    rw [hrun] at h
    rw [h.1]
    rfl
  | error e d' =>
    rw [hrun] at h
    rw [h.1, h.2]
    rfl

/-- **File operations refine a map of paths.** After every sequence of calls the document's
map is what the map's own operations make of it, and the next call, whatever it is, fails or
succeeds as the map's operation does, leaves the document as it was if it fails, and keeps
what each entry is. -/
theorem file_operations_refine (hwell : d.root.WellFormed L) (hunique : d.root.UniqueFiles L)
    (hfresh : d.Fresh) (ops : List FileOp) :
    (d.afterAll L ops).root.tree L =
        ops.foldl (fun t op => (t.run L.nfc op).getD t) (d.root.tree L) ∧
      ∀ op, Simulates L op (d.afterAll L ops) := by
  have hd : d.Orderly L := ⟨hwell.readable, hunique, hfresh⟩
  refine ⟨?_, fun op => ((hd.afterAll ops).simulates op).1⟩
  clear hwell hunique hfresh
  induction ops generalizing d with
  | nil => rfl
  | cons op rest ih =>
    obtain ⟨hsim, hd'⟩ := hd.simulates op
    rw [List.foldl_cons, ← tree_after hsim]
    exact ih hd'

theorem wellFormed_new (vaultId : Str) (supply : Supply) :
    (Doc.new A vaultId supply).root.WellFormed L where
  maps := fun m => by
    cases m <;> simp [Doc.new, genesisOps, footprint, Op.apply, Addr.ancestors]
  file := fun fid h => absurd (get_new_file vaultId supply fid) h
  directory := fun did h => absurd (get_new_dir vaultId supply did) h

private def emptyVault : Doc := .new .plain (txt "vault") (.numbered '1' 16)

private def calls : List FileOp :=
  [.writeTextFile (txt "a/x.md") (txt "one"), .renameFile (txt "a/x.md") (txt "b/y.md")]

private theorem unique_emptyVault : emptyVault.root.UniqueFiles .plain := by
  intro i j a b hi
  have hnone : emptyVault.root.fileAt .plain i = none := Root.fileAt_of_none (get_new_file ..)
  rw [hnone] at hi
  cases hi

theorem file_operations_refine_new :
    (emptyVault.afterAll .plain calls).root.tree .plain =
        calls.foldl (fun t op => (t.run Crates.plain.nfc op).getD t) (emptyVault.root.tree .plain) ∧
      ∀ op, Simulates .plain op (emptyVault.afterAll .plain calls) :=
  file_operations_refine (wellFormed_new ..) unique_emptyVault
    (Fresh.new _ (Supply.numbered_injective '1' 16)) calls

end Doc

end AgentSync
