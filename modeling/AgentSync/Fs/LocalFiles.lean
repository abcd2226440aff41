import AgentSync.Fs.Bringing
import AgentSync.Fs.Confining

/-! The directory of a vault on a local disk.

A disk is a tree: what is on it is in a directory. Whatever the adapter does leaves it one, and
as long as it is, the adapter keeps a map of files at the paths of a vault, but for those that
name a file it writes beside another one (`mapsFiles_local`). So a pass that is left alone brings
the directory to what the document has (`pass_brings`), and a second one changes nothing
(`pass_settles`). -/
namespace AgentSync

namespace Disk

variable {d d' : Disk} {l m : Location} {p q : PathBuf} {c : Str} {bytes : Bytes}

/-! ### Trees -/

/-- What is on the disk is in a directory. -/
structure Tree (d : Disk) : Prop where
  parent : ∀ l, d.node l ≠ none → d.node l.dropLast = some .dir

theorem Tree.above (h : d.Tree) {q : List Str} (hq : q ≠ []) (hn : d.node (l ++ q) ≠ none) :
    d.node l = some .dir := by
  induction q using List.reverseRecOn with
  | nil => exact absurd rfl hq
  | append_singleton q c ih =>
    have hparent := h.parent _ hn
    rw [← List.append_assoc, List.dropLast_concat] at hparent
    by_cases hnil : q = []
    · rwa [hnil, List.append_nil] at hparent
    · exact ih hnil (by rw [hparent]; exact Option.some_ne_none _)

/-- Without `..` a path leads down. -/
theorem foldl_child (hdots : ['.', '.'] ∉ p) (l : Location) :
    p.foldl Location.child l = l ++ p.filter fun c => !isBlank c := by
  induction p generalizing l with
  | nil => rw [List.foldl_nil, List.filter_nil, List.append_nil]
  | cons c rest ih =>
    obtain ⟨hc, hrest⟩ := not_or.mp (List.mem_cons.not.mp hdots)
    rw [List.foldl_cons, ih hrest]
    cases hblank : isBlank c with
    | true => rw [child_of_isBlank hblank, List.filter_cons_of_neg (by simp [hblank])]
    | false =>
      rw [(isName_of_not_isBlank hblank (Ne.symm hc)).child,
        List.filter_cons_of_pos (by simp [hblank]), ← List.append_cons]

/-- A walk to a name comes to what is there. -/
theorem Tree.walk (h : d.Tree) {p : List Str} (hdots : ['.', '.'] ∉ p) (hc : IsName c)
    (hn : d.node ((p ++ [c]).foldl Location.child l) ≠ none) :
    d.walk l (p ++ [c]) = .ok ((p ++ [c]).foldl Location.child l) := by
  have hdir : d.node l = some .dir := by
    have hdots' : ['.', '.'] ∉ p ++ [c] := fun hin =>
      (List.mem_append.mp hin).elim hdots fun hin => hc.ne_dotdot (List.mem_singleton.mp hin).symm
    rw [foldl_child hdots'] at hn
    refine h.above (fun hnil => ?_) hn
    exact absurd (List.filter_eq_nil_iff.mp hnil c (by simp)) (by simp [hc.isBlank])
  induction p generalizing l with
  | nil => simp [Disk.walk, hdir]
  | cons c' rest ih =>
    obtain ⟨-, hrest⟩ := not_or.mp (List.mem_cons.not.mp hdots)
    simp only [List.cons_append, Disk.walk, hdir, List.foldl_cons] at hn ⊢
    refine ih hrest hn ?_
    have hdots' : ['.', '.'] ∉ rest ++ [c] := fun hin =>
      (List.mem_append.mp hin).elim hrest fun hin => hc.ne_dotdot (List.mem_singleton.mp hin).symm
    rw [foldl_child hdots'] at hn
    refine h.above (fun hnil => ?_) hn
    exact absurd (List.filter_eq_nil_iff.mp hnil c (by simp)) (by simp [hc.isBlank])

theorem Tree.put (h : d.Tree) (hl : d.node l.dropLast = some .dir) (hne : d.node l ≠ some .dir)
    (n : Node) : (d.put l n).Tree := by
  refine ⟨fun m hm => keepsDirs_put hne _ ?_⟩
  rw [node_put d (ne_nil_of_node hne)] at hm
  split at hm
  next heq => exact heq ▸ hl
  next => exact h.parent m hm

/-- Nothing is in what is taken from the disk. -/
theorem Tree.drop (h : d.Tree) (hl : l ≠ []) (hempty : ∀ m, d.node m ≠ none → m.dropLast ≠ l) :
    (d.drop l).Tree := by
  refine ⟨fun m hm => ?_⟩
  rw [node_drop d hl] at hm
  split at hm
  next => exact absurd rfl hm
  next => rw [node_drop d hl, if_neg (hempty m hm), h.parent m hm]

theorem Tree.drop_file (h : d.Tree) (hl : d.node l = some (.file bytes)) : (d.drop l).Tree := by
  have hne : d.node l ≠ some .dir := by simp [hl]
  refine h.drop (ne_nil_of_node hne) fun m hm heq => ?_
  have hdir := h.parent m hm
  rw [heq, hl] at hdir
  cases hdir

/-- What a path leads to is in a directory. -/
theorem node_dropLast_of_locate (h : d.locate p = .ok l) (hl : l ≠ []) :
    d.node l.dropLast = some .dir := by
  unfold locate at h
  split at h
  next => cases h
  next =>
    have hwalked : d.Walked l := .of_walk ⟨fun m hm hne => absurd (List.prefix_nil.mp hm) hne⟩ h
    refine hwalked.above _ (List.dropLast_prefix l) fun heq => ?_
    have hlength := congrArg List.length heq
    rw [List.length_dropLast] at hlength
    have hpos := List.length_pos_iff.mpr hl
    omega

/-! ### What keeps a disk a tree -/

theorem Tree.write (h : d.Tree) (hwrite : d.write p bytes = .ok d') : d'.Tree := by
  obtain ⟨l, hl, hdir, rfl⟩ := write_eq_ok.mp hwrite
  exact h.put (node_dropLast_of_locate hl (ne_nil_of_node hdir)) hdir _

theorem Tree.rename (h : d.Tree) (hrename : d.rename p q = .ok d') : d'.Tree := by
  obtain ⟨l, m, bytes, hl, hm, hfile, hdst, rfl⟩ := rename_eq_ok.mp hrename
  have hsrc : d.node l ≠ some .dir := by simp [hfile]
  refine (h.drop_file hfile).put ?_ (fun hdir => hdst ?_) _
  · exact keepsDirs_drop hsrc _ (node_dropLast_of_locate hm (ne_nil_of_node hdst))
  · rw [node_drop d (ne_nil_of_node hsrc)] at hdir
    split at hdir
    next => cases hdir
    next => exact hdir

theorem Tree.removeFile (h : d.Tree) (hremove : d.removeFile p = .ok d') : d'.Tree := by
  obtain ⟨l, -, hremove⟩ := bind_eq_ok.mp hremove
  split at hremove
  next bytes hfile => exact Except.ok.inj hremove ▸ h.drop_file hfile
  next => cases hremove
  next => cases hremove

theorem Tree.removeDir (h : d.Tree) (hremove : d.removeDir p = .ok d') : d'.Tree := by
  obtain ⟨l, -, -, hl, hnone, rfl⟩ := removeDir_eq_ok hremove
  refine h.drop hl fun m hm heq => ?_
  have hm' : m ≠ [] := fun hnil => hl (by rw [← heq, hnil]; rfl)
  rw [node, if_neg hm'] at hm
  have hin := AList.lookup_isSome.mp (Option.isSome_iff_ne_none.mpr hm)
  have hchild := List.any_eq_false.mp hnone m (AList.mem_keys.mpr hin)
  exact hchild (by simp [heq])

theorem Tree.createDirs (h : d.Tree) (hl : d.node l = some .dir) :
    (createDirs d l p).1.Tree := by
  induction p generalizing d l with
  | nil => exact h
  | cons c rest ih =>
    simp only [Disk.createDirs]
    split
    next hdir => exact ih h hdir
    next => exact h
    next hnone =>
      have hne : d.node (l.child c) ≠ some .dir := by simp [hnone]
      have hparent : d.node (l.child c).dropLast = some .dir := by
        by_cases hdots : c = ['.', '.']
        · rw [hdots, show l.child ['.', '.'] = l.dropLast from if_pos rfl] at hne
          exact absurd (h.parent l (by simp [hl])) hne
        · cases hblank : isBlank c with
          | true =>
            rw [child_of_isBlank hblank] at hne
            exact absurd hl hne
          | false => rwa [(isName_of_not_isBlank hblank hdots).child, List.dropLast_concat]
      refine ih (h.put hparent hne _) ?_
      rw [node_put d (ne_nil_of_node hne), if_pos rfl]

theorem Tree.createDirAll (h : d.Tree) : (d.createDirAll p).1.Tree := by
  obtain heq | ⟨q, -, heq⟩ := createDirAll_fst (d := d) p
  · rwa [heq]
  · rw [heq]
    exact h.createDirs rfl

/-! ### What is read -/

/-- A file is read where it is, under a path that ends in a name. -/
theorem Tree.read_eq_ok (h : d.Tree) (hdots : ['.', '.'] ∉ p) (hc : IsName c) :
    d.read (p ++ [c]) = .ok bytes ↔ ((p ++ [c]).any fun c => c.contains '\x00') = false ∧
      d.bytesAt (PathBuf.resolve (p ++ [c])) = some bytes := by
  rw [Disk.read_eq_ok, bytesAt_eq_some]
  constructor
  · rintro ⟨l, hl, hfile⟩
    obtain rfl := resolve_of_locate hl
    exact ⟨(walk_of_locate hl).1, hfile⟩
  · rintro ⟨hnul, hfile⟩
    refine ⟨_, ?_, hfile⟩
    rw [locate, hnul, if_neg Bool.false_ne_true]
    exact h.walk hdots hc (by rw [show List.foldl _ _ _ = PathBuf.resolve (p ++ [c]) from rfl, hfile]; simp)

end Disk

namespace NodeFsAdapter

variable {d d' : Disk} {path q : PathBuf} {content : Bytes} {c : Str}

theorem read_toOption (h : d.Tree) (hdots : ['.', '.'] ∉ path) (hc : IsName c) :
    (read d (path ++ [c])).toOption =
      if (path ++ [c]).any fun c => c.contains '\x00' then none
      else d.bytesAt (PathBuf.resolve (path ++ [c])) := by
  have hread (bytes : Bytes) : d.read (path ++ [c]) = .ok bytes ↔
      ((path ++ [c]).any fun c => c.contains '\x00') = false ∧
        d.bytesAt (PathBuf.resolve (path ++ [c])) = some bytes := h.read_eq_ok hdots hc
  refine Option.ext fun bytes => ?_
  unfold read
  split
  next bytes' hok =>
    obtain ⟨hnul, hfile⟩ := (hread bytes').mp hok
    rw [hnul, if_neg Bool.false_ne_true, hfile]
    rfl
  next e herror =>
    constructor
    · intro hnone
      cases hnone
    · intro hsome
      split at hsome
      next => cases hsome
      next hnul =>
        rw [(hread bytes).mpr ⟨Bool.eq_false_iff.mpr hnul, hsome⟩] at herror
        cases herror

theorem tree_write (h : d.Tree) : (write d path content).1.Tree := by
  unfold write
  have hmade := h.createDirAll (p := path.parent)
  split
  next hcreate =>
    rw [hcreate] at hmade
    exact hmade
  next hcreate =>
    rw [hcreate] at hmade
    split
    next => exact hmade
    next =>
      split
      next => exact hmade
      next d₂ hwrite =>
        split
        next => exact hmade.write hwrite
        next d₃ hrename => exact (hmade.write hwrite).rename hrename

theorem tree_delete (h : d.Tree) : (delete d path).1.Tree := by
  unfold delete
  split
  next d' hremove => exact h.removeFile hremove
  next => exact h
  next => exact h

/-- What is written is read. -/
theorem read_of_write (h : write d path content = (d', .ok ())) : read d' path = .ok content := by
  unfold write at h
  split at h
  next => cases h
  next =>
    split at h
    next => cases h
    next =>
      split at h
      next => cases h
      next hwrite =>
        split at h
        next => cases h
        next hrename =>
          obtain ⟨rfl, -⟩ := Prod.mk.inj h
          rw [read, Disk.read_of_rename hrename (Disk.read_of_write hwrite)]

/-- A delete is of the file alone. -/
theorem bytesAt_delete_of_ne {l : Location} (hne : l ≠ path.resolve) :
    (delete d path).1.bytesAt l = d.bytesAt l := by
  unfold delete
  split
  next d' hremove => rw [Disk.bytesAt_removeFile hremove, if_neg hne]
  next => rfl
  next => rfl

/-- What is deleted is not there. -/
theorem read_of_delete (h : delete d path = (d', .ok ())) :
    (read d' path).toOption = none := by
  have hnone (d : Disk) (hread : ∀ bytes, d.read path ≠ .ok bytes) :
      (read d path).toOption = none := by
    unfold read
    split
    next bytes hbytes => exact absurd hbytes (hread bytes)
    next => rfl
  unfold delete at h
  split at h
  next d₁ hremove =>
    obtain ⟨rfl, -⟩ := Prod.mk.inj h
    refine hnone _ fun bytes hread => ?_
    have hfile := Disk.bytesAt_of_read hread
    rw [Disk.bytesAt_removeFile hremove, if_pos rfl] at hfile
    cases hfile
  next hremove =>
    obtain ⟨rfl, -⟩ := Prod.mk.inj h
    refine hnone _ fun bytes hread => ?_
    obtain ⟨l, hl, hfile⟩ := Disk.read_eq_ok.mp hread
    simp only [Disk.removeFile, hl, hfile, bind, Except.bind] at hremove
    cases hremove
  next => cases h

theorem tree_removeDir (h : d.Tree) : (removeDir d path).1.Tree := by
  unfold removeDir
  split
  next d' hremove => exact h.removeDir hremove
  next => exact h

end NodeFsAdapter

/-! ### A map of files -/

namespace Setting

variable {σ : Type} {V : Setting σ} {path p q : Str}

/-- A path of the vault that does not name a file which a write makes beside another one. -/
structure Filed (V : Setting σ) (path : Str) : Prop where
  normalized : Path.Normalized V.crates.nfc path
  last : ∀ name, (path.splitOn '/').getLast? ≠ some (temporaryName name)

theorem Filed.vaultPathToFsPath (h : V.Filed path) :
    V.vaultPathToFsPath path = V.root ++ path.splitOn '/' := by
  rw [Setting.vaultPathToFsPath, components_of_normalized h.normalized]

/-- A path of the vault ends in a name. -/
theorem Filed.split (hroot : ['.', '.'] ∉ V.root) (h : V.Filed path) :
    ∃ dir c, V.vaultPathToFsPath path = dir ++ [c] ∧ ['.', '.'] ∉ dir ∧ IsName c := by
  have hne := List.splitOn_ne_nil '/' path
  refine ⟨V.root ++ (path.splitOn '/').dropLast, (path.splitOn '/').getLast hne, ?_, fun hin => ?_,
    (h.normalized.segments _ (List.getLast_mem hne)).isName⟩
  · rw [h.vaultPathToFsPath, List.append_assoc, List.dropLast_append_getLast]
  · obtain hin | hin := List.mem_append.mp hin
    · exact hroot hin
    · exact (h.normalized.segments _ (List.mem_of_mem_dropLast hin)).ne_dotdot rfl

theorem Filed.inj (hp : V.Filed p) (hq : V.Filed q)
    (h : (V.vaultPathToFsPath p).resolve = (V.vaultPathToFsPath q).resolve) : p = q := by
  rw [resolve_vaultPathToFsPath hp.normalized, resolve_vaultPathToFsPath hq.normalized] at h
  rw [← Path.joinSlash_splitOn p, List.append_cancel_left h, Path.joinSlash_splitOn]

/-- The temporary file of another path is elsewhere. -/
theorem Filed.ne_temporary (hq : V.Filed q) (dir : PathBuf) (name : Str) :
    PathBuf.resolve (dir ++ [temporaryName name]) ≠ (V.vaultPathToFsPath q).resolve := by
  intro heq
  refine hq.last name ?_
  rw [resolve_append (List.forall_mem_singleton.mpr (isName_temporaryName name)),
    resolve_vaultPathToFsPath hq.normalized] at heq
  have hlast := congrArg List.getLast? heq
  rw [List.getLast?_concat, List.getLast?_append_of_ne_nil _ (List.splitOn_ne_nil _ _)] at hlast
  exact hlast.symm

end Setting

section

variable {V : Setting Disk} {d d' : Disk} {p q : Str} {bytes : Bytes}

theorem Setting.file_eq (hV : V.adapter = nodeFsAdapter) (hroot : ['.', '.'] ∉ V.root)
    (h : d.Tree) (hp : V.Filed p) :
    V.file d p = if (V.vaultPathToFsPath p).any fun c => c.contains '\x00' then none
      else d.bytesAt (V.vaultPathToFsPath p).resolve := by
  obtain ⟨dir, c, hpath, hdots, hc⟩ := hp.split hroot
  rw [Setting.file, hV, hpath]
  exact NodeFsAdapter.read_toOption h hdots hc

theorem Setting.file_congr (hV : V.adapter = nodeFsAdapter) (hroot : ['.', '.'] ∉ V.root)
    (h : d.Tree) (h' : d'.Tree) (hp : V.Filed p)
    (hbytes : d'.bytesAt (V.vaultPathToFsPath p).resolve =
      d.bytesAt (V.vaultPathToFsPath p).resolve) :
    V.file d' p = V.file d p := by
  rw [Setting.file_eq hV hroot h hp, Setting.file_eq hV hroot h' hp, hbytes]

/-- **The adapter for a local disk keeps a map of files.** -/
theorem Setting.mapsFiles_local (hV : V.adapter = nodeFsAdapter) (hroot : ['.', '.'] ∉ V.root) :
    V.MapsFiles Disk.Tree V.Filed where
  write := by
    intro d d' p bytes h hp hwrite
    rw [hV] at hwrite
    have hwrite : NodeFsAdapter.write d (V.vaultPathToFsPath p) bytes = (d', .ok ()) := hwrite
    have htree : (NodeFsAdapter.write d (V.vaultPathToFsPath p) bytes).1.Tree :=
      NodeFsAdapter.tree_write h
    rw [hwrite] at htree
    refine ⟨htree, fun q hq => ?_⟩
    by_cases heq : q = p
    · subst heq
      rw [if_pos rfl, Setting.file, hV]
      exact congrArg Except.toOption (NodeFsAdapter.read_of_write hwrite)
    · rw [if_neg heq]
      refine Setting.file_congr hV hroot h htree hq ?_
      have hother : (NodeFsAdapter.write d (V.vaultPathToFsPath p) bytes).1.bytesAt
          (V.vaultPathToFsPath q).resolve = d.bytesAt (V.vaultPathToFsPath q).resolve :=
        NodeFsAdapter.bytesAt_write_of_ne (fun hsame => heq (hp.inj hq hsame).symm)
          fun name => hq.ne_temporary _ name
      rwa [hwrite] at hother
  delete := by
    intro d d' p h hp hdelete
    rw [hV] at hdelete
    have hdelete : NodeFsAdapter.delete d (V.vaultPathToFsPath p) = (d', .ok ()) := hdelete
    have htree : (NodeFsAdapter.delete d (V.vaultPathToFsPath p)).1.Tree :=
      NodeFsAdapter.tree_delete h
    rw [hdelete] at htree
    refine ⟨htree, fun q hq => ?_⟩
    by_cases heq : q = p
    · subst heq
      rw [if_pos rfl, Setting.file, hV]
      exact NodeFsAdapter.read_of_delete hdelete
    · rw [if_neg heq]
      refine Setting.file_congr hV hroot h htree hq ?_
      have hother : (NodeFsAdapter.delete d (V.vaultPathToFsPath p)).1.bytesAt
          (V.vaultPathToFsPath q).resolve = d.bytesAt (V.vaultPathToFsPath q).resolve :=
        NodeFsAdapter.bytesAt_delete_of_ne fun hsame => heq (hq.inj hp hsame)
      rwa [hdelete] at hother
  createDirAll := by
    intro d d' p r h hcreate
    rw [hV] at hcreate
    have htree := h.createDirAll (p := V.vaultPathToFsPath p)
    have hbytes := Disk.bytesAt_createDirAll (d := d) (V.vaultPathToFsPath p)
    rw [show d.createDirAll (V.vaultPathToFsPath p) = (d', r) from hcreate] at htree hbytes
    exact ⟨htree, fun q hq => Setting.file_congr hV hroot h htree hq (hbytes _)⟩
  removeDir := by
    intro d d' p r h hremove
    rw [hV] at hremove
    have hremove : NodeFsAdapter.removeDir d (V.vaultPathToFsPath p) = (d', r) := hremove
    have htree : (NodeFsAdapter.removeDir d (V.vaultPathToFsPath p)).1.Tree :=
      NodeFsAdapter.tree_removeDir h
    have hbytes (l : Location) :
        (NodeFsAdapter.removeDir d (V.vaultPathToFsPath p)).1.bytesAt l = d.bytesAt l :=
      NodeFsAdapter.bytesAt_removeDir
    rw [hremove] at htree hbytes
    exact ⟨htree, fun q hq => Setting.file_congr hV hroot h htree hq (hbytes _)⟩

end

/-! ### A pass that is left alone -/

namespace Pass

open Watching (keysDoc keysPath)

variable {V : Setting Disk} {l : Listing} {b₀ b b' : Bound Disk} {path : Str}

/-- **A pass brings each file to what it should be**, whatever the order of its loops: where
nothing comes between and no call fails, the file is written exactly when the document has a
content for it that is neither recorded nor on the disk and what is on the disk may go, it is
deleted exactly when it is recorded, no longer live and may go, and it is left alone otherwise. -/
theorem pass_brings (hV : V.adapter = nodeFsAdapter) (hroot : ['.', '.'] ∉ V.root)
    (htree : b₀.fs.Tree) (hlist : list V b₀ = .ok l)
    (hpaths : ∀ q, q ∈ l.live ∨ q ∈ b₀.materialized → V.Filed q) (hpath : V.Filed path)
    (h : Clear V b₀ b) : Brings V l b₀ b path :=
  h.brings (Setting.mapsFiles_local hV hroot) htree hlist hpaths hpath

theorem tree_vaultDir : Disk.vaultDir.Tree := by
  have hempty : (⟨∅⟩ : Disk).Tree := by
    refine ⟨fun l hl => ?_⟩
    have hnil : l = [] := by
      by_contra hne
      rw [Disk.node, if_neg hne, AList.lookup_empty] at hl
      exact hl rfl
    subst hnil
    rfl
  exact hempty.put rfl (by decide) .dir

theorem filed_keys : Setting.localDisk.Filed authorizedKeysFile where
  normalized := rfl
  last name h := by
    have hsplit : authorizedKeysFile.splitOn '/' = [authorizedKeysFile] :=
      List.splitOn_eq_singleton (by decide)
    rw [hsplit] at h
    have hhead : some 'a' = some '.' := congrArg List.head? (Option.some.inj h)
    exact absurd hhead (by decide)

/-- Every path of the listing, and every one that is recorded, is that of the file of keys. -/
def keysOnly (b : Bound Disk) (l : Listing) : Bool :=
  l.live.keys.all (· == authorizedKeysFile) && b.materialized.keys.all (· == authorizedKeysFile)

theorem filed_of_keysOnly (h : keysOnly b l = true) {q : Str}
    (hq : q ∈ l.live ∨ q ∈ b.materialized) : Setting.localDisk.Filed q := by
  obtain ⟨hlive, hrecorded⟩ := Bool.and_eq_true_iff.mp h
  have heq : (q == authorizedKeysFile) = true := by
    obtain hq | hq := hq
    · exact List.all_eq_true.mp hlive q (AList.mem_keys.mp hq)
    · exact List.all_eq_true.mp hrecorded q (AList.mem_keys.mp hq)
  exact (beq_iff_eq.mp heq) ▸ filed_keys

/-- What a pass that takes each time what its loop has first makes of a vault. -/
def clearPass (b : Bound Disk) (steps : Nat) : Option (Bound Disk) :=
  if Machine.allowed (undisturbed Setting.localDisk) (fun y _ => succeeds .localDisk y)
      (b, .listing) (List.replicate steps 0) then
    (Machine.run (undisturbed Setting.localDisk) (b, .listing) (List.replicate steps 0)).bind
      fun y => if y.2.returns then some y.1 else none
  else none

theorem clear_of_clearPass {steps : Nat} (h : clearPass b steps = some b') :
    Clear .localDisk b b' := by
  unfold clearPass at h
  split at h
  next hallowed =>
    obtain ⟨y, hy, h⟩ := Option.bind_eq_some_iff.mp h
    split at h
    next hreturns =>
      obtain rfl := Option.some.inj h
      have hguarded : Machine.Guarded (undisturbed Setting.localDisk)
          (fun y _ => succeeds .localDisk y = true) (b, .listing) (List.replicate steps 0) :=
        .of_allowed (fun _ _ h => h) hallowed
      refine ⟨?_⟩
      rw [← eq_of_returns hreturns]
      exact .of_run hguarded hy
    next => cases h
  next => cases h

/-- The user has another file of keys there, which nothing has seen. -/
private def unseenKeys : Bound Disk :=
  .fresh keysDoc (Disk.vaultDir.put keysPath (.file (utf8 (txt "b"))))

private theorem tree_unseenKeys : unseenKeys.fs.Tree := by
  have htree : (Disk.vaultDir.put keysPath (.file (utf8 (txt "b")))).Tree :=
    tree_vaultDir.put rfl (by decide) _
  exact htree

theorem pass_brings_unseen : ∃ b l, Clear .localDisk unseenKeys b ∧
    Brings .localDisk l unseenKeys b authorizedKeysFile ∧
    Setting.localDisk.file b.fs authorizedKeysFile = some (utf8 (txt "b")) := by
  have hlisted : ((list Setting.localDisk unseenKeys).toOption.any fun l => keysOnly unseenKeys l &&
      decide ((snapshotAt l unseenKeys).brings .localDisk unseenKeys authorizedKeysFile
        (Setting.localDisk.file unseenKeys.fs authorizedKeysFile) = some (utf8 (txt "b"))))
      = true := by
    decide +kernel
  have hpass : (clearPass unseenKeys 13).isSome = true := by
    decide +kernel
  obtain ⟨l, hlist, hlisted⟩ := (Option.any_eq_true _ _).mp hlisted
  obtain ⟨hkeys, hedit⟩ := Bool.and_eq_true_iff.mp hlisted
  obtain ⟨b, hb⟩ := Option.isSome_iff_exists.mp hpass
  have hclear := clear_of_clearPass hb
  have hbrings := pass_brings rfl (by decide) tree_unseenKeys (eq_ok_of_toOption hlist)
    (fun q hq => filed_of_keysOnly hkeys hq) filed_keys hclear
  exact ⟨b, l, hclear, hbrings, hbrings.file.trans (of_decide_eq_true hedit)⟩

/-- **A second pass changes nothing**: neither a file nor what is recorded of one. -/
theorem pass_settles (hV : V.adapter = nodeFsAdapter) (hroot : ['.', '.'] ∉ V.root)
    (htree : b₀.fs.Tree) (hlist : list V b₀ = .ok l)
    (hpaths : ∀ q, q ∈ l.live ∨ q ∈ b₀.materialized → V.Filed q) (hpath : V.Filed path)
    (h : Clear V b₀ b) (h' : Clear V b b') : V.file b'.fs path = V.file b.fs path ∧
      b'.materialized.lookup path = b.materialized.lookup path ∧
      b'.lastIngested.lookup path = b.lastIngested.lookup path :=
  h.settles (Setting.mapsFiles_local hV hroot) htree hlist hpaths hpath h'

theorem pass_settles_written : ∃ b b', Clear .localDisk (.fresh keysDoc .vaultDir) b ∧
    Clear .localDisk b b' ∧
    Setting.localDisk.file b'.fs authorizedKeysFile = some (utf8 (txt "a")) := by
  have hlisted : ((list Setting.localDisk (.fresh keysDoc .vaultDir)).toOption.any
      (keysOnly (.fresh keysDoc .vaultDir))) = true := by
    decide +kernel
  have hpass : ((clearPass (.fresh keysDoc .vaultDir) 16).any fun b =>
      decide (Setting.localDisk.file b.fs authorizedKeysFile = some (utf8 (txt "a"))) &&
        (clearPass b 13).isSome) = true := by
    decide +kernel
  obtain ⟨l, hlist, hkeys⟩ := (Option.any_eq_true _ _).mp hlisted
  obtain ⟨b, hb, hpass⟩ := (Option.any_eq_true _ _).mp hpass
  obtain ⟨hfile, hpass⟩ := Bool.and_eq_true_iff.mp hpass
  obtain ⟨b', hb'⟩ := Option.isSome_iff_exists.mp hpass
  have hclear := clear_of_clearPass hb
  have hclear' := clear_of_clearPass hb'
  have hsettles := pass_settles rfl (by decide) tree_vaultDir (eq_ok_of_toOption hlist)
    (fun q hq => filed_of_keysOnly hkeys hq) filed_keys hclear hclear'
  exact ⟨b, b', hclear, hclear', hsettles.1.trans (of_decide_eq_true hfile)⟩

end Pass

end AgentSync
