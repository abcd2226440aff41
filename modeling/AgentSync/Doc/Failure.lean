import AgentSync.Doc.Cascade
import AgentSync.Doc.Closure

/-! What a failed operation leaves behind.

The document is one open transaction: nothing that an operation has written goes away when it
fails. So a failed operation is harmless just when it fails before it writes (`Turns.late`),
and which of its turns write and which fail can be read off the document beforehand
(`DocOp.turns`), however malformed the entries of a peer are. -/
namespace AgentSync

open Turns (Turn Follows)

variable {L : Crates} {A : Automerge} {r : Root}

namespace Doc

variable {d d' d₀ : Doc} {wrote : Bool} {i : Owner}

/-! ### Writing to entries -/

/-- Nothing has been committed since `d₀`; `wrote` says whether something has been written. -/
structure Since (d₀ : Doc) (wrote : Bool) (d : Doc) : Prop where
  changes : d.changes = d₀.changes
  written : ∃ ops, d.pending = d₀.pending ++ ops ∧ d.root = applyAll d₀.root ops ∧
    (wrote = true ↔ ops ≠ [])

namespace Since

theorem refl (d : Doc) : Since d false d := ⟨rfl, [], by simp⟩

theorem draw (h : Since d₀ wrote d) (n : Nat) : Since d₀ wrote {d with draws := n} :=
  ⟨h.changes, h.written⟩

theorem emitted (h : Since d₀ wrote d) {ops : List Op} (hne : ops ≠ []) :
    Since d₀ true (d.emitted ops) := by
  obtain ⟨before, hpending, hroot, -⟩ := h.written
  refine ⟨h.changes, before ++ ops, ?_, ?_, by simp [hne]⟩
  · rw [← List.append_assoc, ← hpending]
    rfl
  · rw [emitted_root, hroot, applyAll_append]

end Since

/-- A program over the open transaction that fails where its turns say. -/
abbrev Fares {α : Type} (d₀ : Doc) (wrote : Bool) (x : DocM α) (d : Doc) (ts : List Turn)
    (Q : α → Doc → Prop) : Prop :=
  Follows (Since d₀) wrote x d ts Q

namespace Fares

variable {α β : Type} {S : Bool → Doc → Prop} {f : Root → Except Error α} {k : α → DocM β}
  {ts : List Turn} {R : β → Doc → Prop}

theorem read {a : α} (h : f d.root = .ok a) (hk : Follows S wrote (k a) d ts R) :
    Follows S wrote (Doc.read f >>= k) d ts R := by
  refine .step ?_ hk
  simp only [Doc.read, h]

theorem fails {e : Error} (h : f d.root = .error e) (hS : S wrote d) :
    Follows S wrote (Doc.read f >>= k) d (.fail :: ts) R := by
  refine Follows.fails (e := e) ?_ hS
  simp only [Doc.read, h]

/-- Looking something up, which may fail. -/
theorem look {ts : α → List Turn} (hS : S wrote d)
    (h : ∀ a, f d.root = .ok a → Follows S wrote (k a) d (ts a) R) :
    Follows S wrote (Doc.read f >>= k) d (Turns.on (f d.root) ts) R := by
  cases hf : f d.root with
  | ok a => exact read hf (h a hf)
  | error e => exact fails hf hS

/-- The program ends without failing, whatever it writes. -/
theorem of_ends {x : DocM α} (h : Ends x d fun _ _ => True) (hts : .fail ∉ ts) :
    Follows S wrote x d ts fun _ _ => True := by
  obtain ⟨a, d', hrun, -⟩ := h
  exact .of_ok hrun hts trivial

theorem unit {x : DocM α} {Q : α → Doc → Prop} (h : Follows S wrote x d ts Q) :
    Follows S wrote (x >>= fun _ => pure ()) d ts fun _ _ => True :=
  List.append_nil ts ▸ .bind (h.weaken fun _ _ _ => .pure trivial)

end Fares

/-- What a turn does that has to do with one entry. -/
def Does (i : Owner) (x : DocM PUnit) (d : Doc) : Turn → Prop
  | .skip => x d = .ok () d
  | .write => ∃ ops, ops ≠ [] ∧ (∀ op ∈ ops, op.target.owner = some i) ∧
      x d = .ok () (d.emitted ops)
  | .fail => ∃ e, x d = .error e d

namespace Does

variable {α : Type} {f : Root → Except Error α} {k : α → DocM PUnit} {t : Turn}

protected theorem pure : Does i (pure ()) d .skip := rfl

theorem emit {ops : List Op} (hne : ops ≠ []) (hops : ∀ op ∈ ops, op.target.owner = some i) :
    Does i (emit ops) d .write := ⟨ops, hne, hops, rfl⟩

theorem read {a : α} (h : f d.root = .ok a) (hk : Does i (k a) d t) :
    Does i (read f >>= k) d t := by
  have hrun : (Doc.read f >>= k) d = k a d := by
    show EStateM.bind (Doc.read f) k d = k a d
    simp only [EStateM.bind, Doc.read, h]
  cases t with
  | skip => exact hrun.trans hk
  | write => exact hk.imp fun ops h => ⟨h.1, h.2.1, hrun.trans h.2.2⟩
  | fail => exact hk.imp fun e h => hrun.trans h

theorem fails {e : Error} (h : f d.root = .error e) : Does i (Doc.read f >>= k) d .fail := by
  refine ⟨e, ?_⟩
  show EStateM.bind (Doc.read f) k d = _
  simp only [EStateM.bind, Doc.read, h]

theorem ask {f : Root → α} (hk : Does i (k (f d.root)) d t) : Does i (ask f >>= k) d t :=
  read rfl hk

end Does

/-- **A loop over entries** takes the turns that are read off the entries beforehand. -/
theorem Fares.forM {γ : Type} {body : γ → DocM PUnit} (turn : Root → γ → Turn)
    (owner : γ → Owner) {xs : List γ} (hnodup : (xs.map owner).Nodup)
    (hcongr : ∀ x r r', Root.SameFor (owner x) r r' → turn r x = turn r' x)
    (hbody : ∀ x ∈ xs, ∀ d', (∀ m, d.root.get (.rootMap m) = d'.root.get (.rootMap m)) →
      Does (owner x) (body x) d' (turn d'.root x))
    (hr : ∀ x ∈ xs, turn d.root x = turn r x) (h : Since d₀ wrote d) :
    Fares d₀ wrote (xs.forM body) d (xs.map (turn r)) fun _ d' =>
      Since d₀ (wrote || Turns.writes (xs.map (turn r))) d' ∧
      Root.SameBut {i | ∃ x ∈ xs, turn r x = .write ∧ owner x = i} d.root d'.root := by
  refine (Follows.forM (turn r) (fun rest wrote d' => Since d₀ wrote d' ∧
    Root.SameBut {i | ∃ x ∈ xs, turn r x = .write ∧ owner x = i} d.root d'.root ∧
    (rest.map owner).Nodup ∧ ∀ x ∈ rest, x ∈ xs ∧ turn d'.root x = turn r x) xs ?_
    ⟨h, fun _ _ => rfl, hnodup, fun x hx => ⟨hx, hr x hx⟩⟩).weaken
      fun _ d' hd' => ⟨hd'.1, hd'.2.1⟩
  · intro x rest wrote d' ⟨hsince, hsame, hrest, hturns⟩
    obtain ⟨hx, hturn⟩ := hturns x List.mem_cons_self
    have hdoes := hbody x hx d' hsame.rootMap
    rw [hturn] at hdoes
    rw [List.map_cons, List.nodup_cons] at hrest
    have hlater (y : γ) (hy : y ∈ rest) := hturns y (List.mem_cons_of_mem _ hy)
    cases hcase : turn r x with
    | skip =>
      rw [hcase] at hdoes
      exact .of_ok hdoes (by simp)
        ⟨by simpa [Turns.writes] using hsince, hsame, hrest.2, hlater⟩
    | write =>
      rw [hcase] at hdoes
      obtain ⟨ops, hne, hops, hrun⟩ := hdoes
      have hwritten : Root.SameBut {owner x} d'.root (d'.emitted ops).root :=
        Root.sameBut_applyAll hops
      refine .of_ok hrun (by simp) ⟨?_, ?_, hrest.2, fun y hy => ⟨(hlater y hy).1, ?_⟩⟩
      · simpa [Turns.writes] using hsince.emitted hne
      · refine hsame.trans (hwritten.mono ?_)
        rw [Set.singleton_subset_iff]
        exact ⟨x, hx, hcase, rfl⟩
      · rw [← (hlater y hy).2]
        refine (hcongr y _ _ (hwritten.sameFor fun heq => ?_)).symm
        exact hrest.1 ((show owner y = owner x from heq) ▸ List.mem_map_of_mem hy)
    | fail =>
      rw [hcase] at hdoes
      obtain ⟨e, hrun⟩ := hdoes
      exact .of_error hrun (by simp) (by simpa [Turns.late] using hsince)

/-! ### Turns of one entry -/

variable (L r) in
/-- One turn of `rename_directory` for a directory. -/
def moveDirectoryTurn (src did : Str) : Turn :=
  match r.lookDirectory L did with
  | .ok (some p) => if Path.under src p && p != src then .write else .skip
  | .ok none => .skip
  | .error _ => .fail

variable (L r) in
def moveFileTurn (src fid : Str) : Turn :=
  match r.lookFile L fid with
  | .ok (some p) => if Path.under src p then .write else .skip
  | .ok none => .skip
  | .error _ => .fail

variable (L r) in
/-- One turn of `restore_to_heads`, in each of its loops. -/
def killFileTurn (past : List FileMeta) (fid : Str) : Turn :=
  match r.readFileMeta L fid with
  | .ok (some m) =>
    if m.deletedAt.isNone && !past.any fun m => m.id = fid && m.deletedAt.isNone then .write
    else .skip
  | .ok none => .skip
  | .error _ => .fail

variable (L r) in
def restoreFileTurn (m : FileMeta) : Turn :=
  match r.writable L (restoreTarget r m.id) with
  | .ok _ => .write
  | .error _ => .fail

variable (L r) in
def killDirectoryTurn (past : List DirectoryMeta) (did : Str) : Turn :=
  if !r.hasObject (.dir did) then .skip
  else
    match r.getInt L (.dirField did .deletedAt) with
    | .ok none =>
      if past.any fun m => m.id = did && m.deletedAt.isNone then .skip
      else
        match r.writable L (.dir did) with
        | .ok _ => .write
        | .error _ => .fail
    | .ok (some _) => .skip
    | .error _ => .fail

variable (L r) in
def restoreDirectoryTurn (m : DirectoryMeta) : Turn :=
  match r.writable L (if r.hasObject (.dir m.id) then .dir m.id else .rootMap .directories) with
  | .ok _ => .write
  | .error _ => .fail

/-- A turn of `rename_directory` acts on what a scan would see. -/
theorem moveDirectory_eq (src dst did : Str) (d : Doc) : moveDirectory L src dst did d =
    match d.root.lookDirectory L did with
    | .ok (some p) =>
      if Path.under src p && p != src then
        .ok () (d.emitted [.put (.dirField did .path) (.str (dst ++ p.drop src.length))])
      else .ok () d
    | .ok none => .ok () d
    | .error e => .error e d := by
  unfold Root.lookDirectory
  cases hdir : d.root.hasObject (.dir did) with
  | false =>
    simp only [moveDirectory, bind, EStateM.bind, ask, read, hdir]
    rfl
  | true =>
    simp only [moveDirectory, bind, EStateM.bind, ask, read, hdir, Bool.not_true,
      Bool.false_eq_true, if_false]
    cases hdeleted : d.root.getInt L (.dirField did .deletedAt) with
    | error e => rfl
    | ok deleted =>
      cases deleted with
      | some t => rfl
      | none =>
        simp only [Option.isSome_none, Bool.false_eq_true, if_false, Except.bind, EStateM.bind,
          read]
        cases hpath : d.root.getStr L (.dirField did .path) with
        | error e => rfl
        | ok path =>
          cases path with
          | none => rfl
          | some p =>
            by_cases hunder : (Path.under src p && p != src) = true
            · simp only [hunder]
              rfl
            · simp only [hunder]
              rfl

theorem moveDirectory_does (src dst did : Str) (d : Doc) :
    Does (.directory did) (moveDirectory L src dst did) d
      (moveDirectoryTurn L d.root src did) := by
  have hrun := moveDirectory_eq (L := L) src dst did d
  unfold moveDirectoryTurn
  cases hlook : d.root.lookDirectory L did with
  | error e =>
    rw [hlook] at hrun
    exact ⟨e, hrun⟩
  | ok found =>
    rw [hlook] at hrun
    cases found with
    | none => exact hrun
    | some p =>
      by_cases hunder : (Path.under src p && p != src) = true
      · simp only [hunder, if_true] at hrun ⊢
        exact ⟨_, by simp, by simp [Op.target, Addr.owner, Addr.fileId, Addr.dirId], hrun⟩
      · simp only [hunder] at hrun ⊢
        exact hrun

theorem moveFile_does (src dst : Str) (now : Int) (fid : Str) (d : Doc) :
    Does (.file fid) (moveFile L src dst now fid) d (moveFileTurn L d.root src fid) := by
  unfold moveFileTurn Root.lookFile
  refine .ask ?_
  cases d.root.hasObject (.file fid) with
  | false => exact .pure
  | true =>
    simp only [Bool.not_true, Bool.false_eq_true, if_false]
    refine .ask ?_
    cases d.root.hasObject (.fileMeta fid) with
    | false => exact .pure
    | true =>
      simp only [Bool.not_true, Bool.false_eq_true, if_false]
      cases hdeleted : d.root.getInt L (.fileField fid .deletedAt) with
      | error e => exact .fails hdeleted
      | ok deleted =>
        refine .read hdeleted ?_
        cases deleted with
        | some t => exact .pure
        | none =>
          simp only [bind, Except.bind, Option.isSome_none, Bool.false_eq_true, if_false]
          cases hpath : d.root.getStr L (.fileField fid .path) with
          | error e => exact .fails hpath
          | ok path =>
            refine .read hpath ?_
            cases path with
            | none => exact .pure
            | some p =>
              by_cases hunder : Path.under src p = true
              · simp only [hunder]
                exact .emit (by simp) (by simp [Op.target, Addr.owner, Addr.fileId])
              · simp only [hunder]
                exact .pure

theorem killFile_does (now : Int) (past : List FileMeta) (fid : Str) (d : Doc) :
    Does (.file fid) (killFile L now past fid) d (killFileTurn L d.root past fid) := by
  unfold killFileTurn
  cases hentry : d.root.readFileMeta L fid with
  | error e => exact .fails hentry
  | ok entry =>
    refine .read hentry ?_
    cases entry with
    | none => exact .pure
    | some m =>
      obtain ⟨hmap, hfile, hmeta, -⟩ := Root.readFileMeta_eq_some.mp hentry
      simp only [Option.map_some, Option.getD_some]
      split
      next =>
        refine .read hmap (.ask ?_)
        rw [if_pos hfile]
        refine .ask ?_
        rw [if_pos hmeta]
        exact .emit (by simp) (by simp [Op.target, Addr.owner, Addr.fileId])
      next => exact .pure

theorem restoreFile_does (now : Int) (text : Str → Str) {m : FileMeta} (hlive : m.deletedAt = none)
    (hmap : d.root.mapObj .files = .ok ()) :
    Does (.file m.id) (restoreFile L now text m) d (restoreFileTurn L d.root m) := by
  unfold restoreFileTurn restoreFile
  rw [if_neg (by simp [hlive])]
  refine .read hmap ?_
  cases hwritable : d.root.writable L (restoreTarget d.root m.id) with
  | error e => exact .fails hwritable
  | ok _ =>
    refine .read hwritable (.ask (.emit (by simp [restoreOps]) fun op hop => ?_))
    rw [Addr.owner, fileId_restoreOps m d.root op hop]

theorem killDirectory_does (now : Int) (past : List DirectoryMeta) (did : Str)
    (hmap : d.root.mapObj .directories = .ok ()) :
    Does (.directory did) (killDirectory L now past did) d
      (killDirectoryTurn L d.root past did) := by
  unfold killDirectoryTurn
  refine .read hmap (.ask ?_)
  cases hdir : d.root.hasObject (.dir did) with
  | false => exact .pure
  | true =>
    simp only [Bool.not_true, Bool.false_eq_true, if_false, if_true]
    cases hdeleted : d.root.getInt L (.dirField did .deletedAt) with
    | error e => exact .fails hdeleted
    | ok deleted =>
      refine .read hdeleted ?_
      cases deleted with
      | some t => exact .pure
      | none =>
        cases hpast : past.any fun m => m.id = did && m.deletedAt.isNone with
        | true => exact .pure
        | false =>
          show Does _ (markDirectory L now did) d _
          refine .ask ?_
          rw [if_pos hdir]
          cases hwritable : d.root.writable L (.dir did) with
          | error e => exact .fails hwritable
          | ok _ =>
            exact .read hwritable
              (.emit (by simp) (by simp [Op.target, Addr.owner, Addr.fileId, Addr.dirId]))

theorem restoreDirectory_does {m : DirectoryMeta} (hlive : m.deletedAt = none)
    (hmap : d.root.mapObj .directories = .ok ()) :
    Does (.directory m.id) (restoreDirectory L m) d (restoreDirectoryTurn L d.root m) := by
  unfold restoreDirectoryTurn restoreDirectory
  rw [if_neg (by simp [hlive])]
  refine .read hmap ?_
  cases hwritable : d.root.writable L
      (if d.root.hasObject (.dir m.id) then .dir m.id else .rootMap .directories) with
  | error e => exact .fails hwritable
  | ok _ =>
    refine .read hwritable (.ask (.emit (by simp) fun op hop => ?_))
    have hdir := dirId_restoreDirectoryOps m d.root op hop
    rw [Addr.owner, Root.fileId_of_dirId hdir, hdir]
    rfl

/-! ### Turns depend on the entry -/

section Congr

variable {r' : Root}

theorem writable_congr {a : Addr} (h : r.get a = r'.get a) : r.writable L a = r'.writable L a := by
  rw [Root.writable, Root.writable, h]

theorem moveDirectoryTurn_congr {src did : Str} (h : Root.SameFor (.directory did) r r') :
    moveDirectoryTurn L r src did = moveDirectoryTurn L r' src did := by
  rw [moveDirectoryTurn, moveDirectoryTurn, Root.lookDirectory_congr h.directory]

theorem moveFileTurn_congr {src fid : Str} (h : Root.SameFor (.file fid) r r') :
    moveFileTurn L r src fid = moveFileTurn L r' src fid := by
  rw [moveFileTurn, moveFileTurn, Root.lookFile_congr h.file]

theorem killFileTurn_congr {past : List FileMeta} {fid : Str} (h : Root.SameFor (.file fid) r r') :
    killFileTurn L r past fid = killFileTurn L r' past fid := by
  rw [killFileTurn, killFileTurn,
    Root.readFileMeta_congr (Root.mapObj_congr (h.rootMap .files)) h.file]

theorem restoreFileTurn_congr {m : FileMeta} (h : Root.SameFor (.file m.id) r r') :
    restoreFileTurn L r m = restoreFileTurn L r' m := by
  have htarget : restoreTarget r m.id = restoreTarget r' m.id := by
    rw [restoreTarget, restoreTarget, Root.hasObject_congr (h.file (.file m.id) rfl),
      Root.hasObject_congr (h.file (.fileMeta m.id) rfl)]
  have hsame : r.get (restoreTarget r' m.id) = r'.get (restoreTarget r' m.id) := by
    unfold restoreTarget
    split
    · split
      · exact h.file _ rfl
      · exact h.file _ rfl
    · exact h.rootMap .files
  rw [restoreFileTurn, restoreFileTurn, htarget, writable_congr hsame]

theorem killDirectoryTurn_congr {past : List DirectoryMeta} {did : Str}
    (h : Root.SameFor (.directory did) r r') :
    killDirectoryTurn L r past did = killDirectoryTurn L r' past did := by
  rw [killDirectoryTurn, killDirectoryTurn, Root.hasObject_congr (h.directory (.dir did) rfl),
    Root.getInt_congr (h.directory (.dirField did .deletedAt) rfl),
    writable_congr (h.directory (.dir did) rfl)]

theorem restoreDirectoryTurn_congr {m : DirectoryMeta} (h : Root.SameFor (.directory m.id) r r') :
    restoreDirectoryTurn L r m = restoreDirectoryTurn L r' m := by
  have hobject := Root.hasObject_congr (h.directory (.dir m.id) rfl)
  have hsame : r.get (if r'.hasObject (.dir m.id) then .dir m.id else .rootMap .directories) =
      r'.get (if r'.hasObject (.dir m.id) then .dir m.id else .rootMap .directories) := by
    split
    · exact h.directory _ rfl
    · exact h.rootMap .directories
  rw [restoreDirectoryTurn, restoreDirectoryTurn, hobject, writable_congr hsame]

/-- The directories are found as before. -/
theorem findDirectory_congr (h : ∀ did, Root.SameFor (.directory did) r r') (q : Str) :
    r.findDirectoryByPathNormalized L q = r'.findDirectoryByPathNormalized L q := by
  have hkeys : r.dirKeys = r'.dirKeys :=
    Root.dirKeys_congr fun did => by rw [(h did).directory (.dir did) rfl]
  rw [Root.findDirectoryByPathNormalized, Root.findDirectoryByPathNormalized,
    Root.mapObj_congr ((h []).rootMap .directories), hkeys, Root.findDirectoryIn_eq_scan,
    Root.findDirectoryIn_eq_scan]
  exact congrArg _ (funext fun _ =>
    Root.scan_congr fun did _ => Root.lookDirectory_congr (h did).directory)

end Congr

/-! ### The directories above a path -/

variable (L r) in
/-- One turn of `ensure_ancestor_directories`. -/
def ancestorTurn (ancestor : Str) : Turn :=
  match r.findDirectoryByPathNormalized L ancestor with
  | .ok (some _) => .skip
  | .ok none =>
    match r.writable L (.rootMap .directories) with
    | .ok _ => .write
    | .error _ => .fail
  | .error _ => .fail

theorem ancestorTurn_congr {r' : Root} (h : ∀ did, Root.SameFor (.directory did) r r') (q : Str) :
    ancestorTurn L r q = ancestorTurn L r' q := by
  rw [ancestorTurn, ancestorTurn, findDirectory_congr h, writable_congr ((h []).rootMap .directories)]

/-- A new directory at another path is passed over. -/
theorem ancestorTurn_newDirectory {did p q : Str} (hnone : r.get (.dir did) = none) (hne : p ≠ q)
    (now : Int) :
    ancestorTurn L (applyAll r (newDirectoryOps did p now)) q = ancestorTurn L r q := by
  have howned : ∀ op ∈ newDirectoryOps did p now, op.target.owner = some (.directory did) := by
    simp [newDirectoryOps, Op.target, Addr.owner, Addr.fileId, Addr.dirId]
  have hsame := Root.sameBut_applyAll (r := r) howned
  have hdir (did' : Str) (hdid' : did' ≠ did) := hsame.sameFor (i := .directory did')
    (by simpa using hdid')
  have hlook : (applyAll r (newDirectoryOps did p now)).lookDirectory L did = .ok (some p) := by
    simp [newDirectoryOps, Root.lookDirectory, Root.hasObject, Root.getInt, Root.getStr, Op.apply,
      Addr.ancestors, Val.isObject, bind, Except.bind]
  have hfind : (applyAll r (newDirectoryOps did p now)).findDirectoryByPathNormalized L q =
      r.findDirectoryByPathNormalized L q := by
    rw [Root.findDirectoryByPathNormalized, Root.findDirectoryByPathNormalized,
      ← Root.mapObj_congr (hsame.rootMap .directories)]
    refine congrArg _ (funext fun _ => ?_)
    rw [Root.findDirectoryIn_eq_scan, Root.findDirectoryIn_eq_scan,
      Root.scan_filter (· ≠ did) fun did' _ hdid' => ?_]
    · rw [Root.dirKeys_new hnone fun did' hdid' => by
        rw [(hdir did' hdid').directory (.dir did') rfl]]
      refine Root.scan_congr fun did' hdid' => (Root.lookDirectory_congr
        (hdir did' ?_).directory).symm
      rintro rfl
      rw [Root.mem_dirKeys, hnone] at hdid'
      cases hdid'
    · obtain rfl : did' = did := by simpa using hdid'
      exact ⟨some p, hlook, by simpa using hne⟩
  rw [ancestorTurn, ancestorTurn, hfind, ← writable_congr (hsame.rootMap .directories)]

theorem ensureDirectories_fares (now : Int) {paths : List Str} (hnodup : paths.Nodup)
    (hf : d.Fresh) (hr : ∀ q ∈ paths, ancestorTurn L d.root q = ancestorTurn L r q)
    (h : Since d₀ wrote d) : Fares d₀ wrote (paths.forM (ensureDirectory L now)) d
      (paths.map (ancestorTurn L r)) fun _ _ => True := by
  refine (Follows.forM (ancestorTurn L r) (fun rest wrote d' => Since d₀ wrote d' ∧ d'.Fresh ∧
    rest.Nodup ∧ ∀ q ∈ rest, ancestorTurn L d'.root q = ancestorTurn L r q) paths ?_
    ⟨h, hf, hnodup, hr⟩).weaken fun _ _ _ => trivial
  · intro q rest wrote d' ⟨hsince, hfresh, hrest, hturns⟩
    have hturn := hturns q List.mem_cons_self
    have hlater (q' : Str) (hq' : q' ∈ rest) := hturns q' (List.mem_cons_of_mem _ hq')
    rw [List.nodup_cons] at hrest
    rw [← hturn]
    cases hfind : d'.root.findDirectoryByPathNormalized L q with
    | error e =>
      have hcase : ancestorTurn L d'.root q = .fail := by rw [ancestorTurn, hfind]
      rw [hcase]
      exact Fares.fails hfind hsince
    | ok found =>
      cases found with
      | some did =>
        have hcase : ancestorTurn L d'.root q = .skip := by rw [ancestorTurn, hfind]
        rw [hcase]
        refine Fares.read hfind ?_
        exact .of_ok rfl (by simp) ⟨by simpa [Turns.writes] using hsince, hfresh, hrest.2, hlater⟩
      | none =>
        obtain ⟨_, hmap, -⟩ := AgentSync.bind_eq_ok.mp hfind
        cases hwritable : d'.root.writable L (.rootMap .directories) with
        | error e =>
          have hcase : ancestorTurn L d'.root q = .fail := by
            rw [ancestorTurn, hfind, hwritable]
          rw [hcase]
          refine Fares.read hfind (Fares.read hmap (.step (a := d'.supply.id d'.draws) rfl ?_))
          exact Fares.fails hwritable (hsince.draw _)
        | ok _ =>
          have hcase : ancestorTurn L d'.root q = .write := by
            rw [ancestorTurn, hfind, hwritable]
          rw [hcase]
          refine Fares.read hfind (Fares.read hmap (.step (a := d'.supply.id d'.draws) rfl ?_))
          refine Fares.read hwritable ?_
          refine .of_ok rfl (by simp) ⟨?_, ?_, hrest.2, fun q' hq' => ?_⟩
          · simpa [Turns.writes] using (hsince.draw _).emitted (by simp)
          · exact (hfresh.draw (Nat.le_succ _)).directory_written
              (fun op hop => dirId_newDirectoryOps hop) fun n hn => hfresh.ne_drawn hn
          · rw [← hlater q' hq']
            refine ancestorTurn_newDirectory (hfresh.dir _ (Nat.le_refl _)) ?_ _
            rintro rfl
            exact hrest.1 hq'

/-! ### Operations on files -/

section Turns

variable (L r)

def ancestorTurns (p : Str) : List Turn := (Path.ancestors p).map (ancestorTurn L r)

/-- `write_text_file` and `write_attachment`. -/
def writeFileTurns (path : Str) : List Turn :=
  Turns.on (Path.normalize L.nfc path) fun p =>
    Turns.on (r.findFileByPathNormalized L p) fun
      | some _ => [.write]
      | none => Turns.on (r.writable L (.rootMap .files)) fun _ => .write :: ancestorTurns L r p

def deleteFileTurns (path : Str) : List Turn :=
  Turns.on (Path.normalize L.nfc path) fun p =>
    Turns.on (r.findFileByPathNormalized L p) fun
      | some _ => [.write]
      | none => [.fail]

def renameFileTurns (src dst : Str) : List Turn :=
  Turns.on (Path.normalize L.nfc src) fun src =>
    Turns.on (Path.normalize L.nfc dst) fun dst =>
      if src = dst then []
      else
        Turns.on (r.findFileByPathNormalized L src) fun
          | none => [.fail]
          | some _ =>
            Turns.on (r.findFileByPathNormalized L dst) fun
              | some _ => [.fail]
              | none => .write :: ancestorTurns L r dst

def createDirectoryTurns (path : Str) : List Turn :=
  Turns.on (Path.normalize L.nfc path) fun p =>
    Turns.on (r.findDirectoryByPathNormalized L p) fun
      | some _ => []
      | none =>
        Turns.on (r.writable L (.rootMap .directories)) fun _ => .write :: ancestorTurns L r p

end Turns

section Operations

variable (hf : d.Fresh)
include hf

theorem ensureAncestorDirectories_fares {α : Type} {p : Str} {k : Unit → DocM α}
    (hp : Path.Normalized L.nfc p)
    (hr : ∀ q ∈ Path.ancestors p, ancestorTurn L d.root q = ancestorTurn L r q)
    (hk : ∀ d', Ends (k ()) d' fun _ _ => True) (h : Since d₀ wrote d) :
    Fares d₀ wrote (ensureAncestorDirectories L p >>= k) d (ancestorTurns L r p)
      fun _ _ => True := by
  have hall : Fares d₀ wrote (ensureAncestorDirectories L p) d (ancestorTurns L r p)
      fun _ _ => True :=
    .step rfl (ensureDirectories_fares _ hp.nodup_ancestors (hf.draw (Nat.le_succ _)) hr (h.draw _))
  rw [← List.append_nil (ancestorTurns L r p)]
  exact .bind (hall.weaken fun _ d' _ => Fares.of_ends (hk d') List.not_mem_nil)

/-- A new file and the directories above it. -/
theorem newFile_fares {p : Str} (hp : Path.Normalized L.nfc p) (h : Since d₀ false d)
    (hmap : d.root.mapObj .files = .ok ()) (ops : Str → List Op) (hne : ∀ fid, ops fid ≠ [])
    (hops : ∀ fid, ∀ op ∈ ops fid, op.target.fileId = some fid) :
    Fares d₀ false (do
      read (Root.mapObj · .files)
      let fid ← newId
      read (Root.writable L · (.rootMap .files))
      emit (ops fid)
      ensureAncestorDirectories L p
      commitNow
      return fid) d (Turns.on (d.root.writable L (.rootMap .files)) fun _ =>
        .write :: ancestorTurns L d.root p) fun _ _ => True := by
  refine .read hmap (.step (a := d.supply.id d.draws) rfl ?_)
  refine Fares.look (h.draw _) fun _ _ => .write (a := ()) rfl ?_
  refine ensureAncestorDirectories_fares ?_ hp (fun q _ => ?_) (fun _ => .bind (.commitNow
    (.pure trivial))) ((h.draw _).emitted (hne _))
  · exact (hf.draw (Nat.le_succ _)).file_written (hops _) fun n hn => hf.ne_drawn hn
  · refine (ancestorTurn_congr (fun did => ?_) q).symm
    refine (Root.sameBut_applyAll (i := .file (d.supply.id d.draws)) fun op hop => ?_).sameFor (by simp)
    rw [Addr.owner, hops _ op hop]

theorem writeTextFile_fares (path content : Str) :
    Fares d false (writeTextFile L path content) d (writeFileTurns L d.root path)
      fun _ _ => True := by
  refine Fares.look (.refl d) fun p hp => .step (a := d.supply.now d.draws) rfl ?_
  refine Fares.look ((Since.refl d).draw _) fun found hfound => ?_
  cases found with
  | some fid =>
    exact Fares.of_ends (.bind (.ask (.bind (.emit (.bind (.commitNow (.pure trivial))))))) (by simp)
  | none =>
    obtain ⟨_, hmap, -⟩ := AgentSync.bind_eq_ok.mp hfound
    refine newFile_fares (hf.draw (Nat.le_succ _)) (Path.normalized_of_normalize hp)
      ((Since.refl d).draw _) hmap (fun fid => newFileOps fid p .text (utf8 content).length
        (d.supply.now d.draws) ++ textOps fid content) (by simp [newFileOps]) fun fid op hop => ?_
    rcases List.mem_append.mp hop with hop | hop
    · exact fileId_newFileOps hop
    · exact fileId_textOps hop

theorem writeAttachment_fares (path hash : Str) (size : Int) :
    Fares d false (writeAttachment L path hash size) d (writeFileTurns L d.root path)
      fun _ _ => True := by
  refine Fares.look (.refl d) fun p hp => .step (a := d.supply.now d.draws) rfl ?_
  refine Fares.look ((Since.refl d).draw _) fun found hfound => ?_
  cases found with
  | some fid => exact Fares.of_ends (.bind (.emit (.bind (.commitNow (.pure trivial))))) (by simp)
  | none =>
    obtain ⟨_, hmap, -⟩ := AgentSync.bind_eq_ok.mp hfound
    exact newFile_fares (hf.draw (Nat.le_succ _)) (Path.normalized_of_normalize hp)
      ((Since.refl d).draw _) hmap (fun fid => [.putMap (.file fid), .putMap (.fileMeta fid),
        .put (.fileField fid .path) (.str p),
        .put (.fileField fid .kind) (.str FileKind.attachment.asStr),
        .put (.fileField fid .size) (.int size),
        .put (.fileField fid .createdAt) (.int (d.supply.now d.draws)),
        .put (.fileField fid .updatedAt) (.int (d.supply.now d.draws)),
        .put (.binaryHash fid) (.str hash)]) (by simp) (by simp [Op.target, Addr.fileId])

omit hf in
theorem deleteFile_fares (path : Str) :
    Fares d false (deleteFile L path) d (deleteFileTurns L d.root path) fun _ _ => True := by
  refine Fares.look (.refl d) fun p _ => Fares.look (.refl d) fun found _ => ?_
  cases found with
  | none => exact .of_error (e := .notFound p) rfl (by simp) (.refl d)
  | some fid => exact Fares.of_ends (.bind (.nowMs (.bind (.emit (.commitNow trivial))))) (by simp)

theorem renameFile_fares (src dst : Str) :
    Fares d false (renameFile L src dst) d (renameFileTurns L d.root src dst) fun _ _ => True := by
  refine Fares.look (.refl d) fun p _ => Fares.look (.refl d) fun q hq => ?_
  split
  next => exact .pure trivial
  next =>
    refine Fares.look (.refl d) fun found hfound => ?_
    cases found with
    | none => exact .of_error (e := .notFound p) rfl (by simp) (.refl d)
    | some fid =>
      have hlook : d.root.lookFile L fid = .ok (some p) := by
        obtain ⟨_, -, hscan⟩ := AgentSync.bind_eq_ok.mp hfound
        rw [Root.findFileIn_eq_scan] at hscan
        exact (Root.scan_eq_some hscan).2
      refine Fares.look (.refl d) fun found _ => ?_
      cases found with
      | some _ => exact .of_error (e := .alreadyExists q) rfl (by simp) (.refl d)
      | none =>
        refine .step (a := d.supply.now d.draws) rfl (.write (a := ()) rfl ?_)
        have hops : ∀ op ∈ movedFields fid q (d.supply.now d.draws),
            op.target.owner = some (.file fid) := by
          simp [movedFields, Op.target, Addr.owner, Addr.fileId]
        refine ensureAncestorDirectories_fares ?_ (Path.normalized_of_normalize hq) (fun p _ => ?_)
          (fun _ => .commitNow trivial) (((Since.refl d).draw _).emitted (by simp))
        · have hfile := Root.get_of_hasObject (Root.lookFile_eq_some hlook).1
          exact (hf.draw (Nat.le_succ _)).file_written (by simp [Op.target, Addr.fileId])
            fun n hn => hf.ne_file hfile (Nat.le_of_succ_le hn)
        · exact (ancestorTurn_congr (fun did =>
            (Root.sameBut_applyAll hops).sameFor (by simp)) p).symm

theorem createDirectory_fares (path : Str) :
    Fares d false (createDirectory L path) d (createDirectoryTurns L d.root path)
      fun _ _ => True := by
  refine Fares.look (.refl d) fun p hp => Fares.look (.refl d) fun found hfound => ?_
  cases found with
  | some did => exact .pure trivial
  | none =>
    obtain ⟨_, hmap, -⟩ := AgentSync.bind_eq_ok.mp hfound
    refine Fares.read hmap (.step (a := d.supply.id d.draws) rfl ?_)
    refine Fares.look ((Since.refl d).draw _) fun _ _ => ?_
    refine .step (a := d.supply.now (d.draws + 1)) rfl (.write (a := ()) rfl ?_)
    have hnormal := Path.normalized_of_normalize hp
    refine ensureAncestorDirectories_fares ?_ hnormal (fun q hq => ?_)
      (fun _ => .bind (.commitNow (.pure trivial))) (((Since.refl d).draw _).emitted (by simp))
    · exact (hf.draw (Nat.le_add_right _ 2)).directory_written
        (fun op hop => dirId_newDirectoryOps hop) fun n hn => hf.ne_drawn (Nat.le_of_succ_le hn)
    · exact ancestorTurn_newDirectory (hf.dir _ (Nat.le_refl _))
        (hnormal.mem_ancestors.mp hq).ne.symm _

end Operations

/-! ### Renaming a directory -/

variable (L r) in
/-- Whether the map takes new directories, which is all that can go wrong once its entries have
been read. -/
def roomTurn : Turn :=
  match r.writable L (.rootMap .directories) with
  | .ok _ => .skip
  | .error _ => .fail

variable (L r) in
/-- The turns of `rename_directory` once the directory itself is moved. -/
def renameChildrenTurns (src dst : Str) : List Turn :=
  r.dirKeys.map (moveDirectoryTurn L r src) ++
    Turns.on (r.mapObj .files) fun _ =>
      r.fileKeys.map (moveFileTurn L r src) ++ (Path.ancestors dst).map fun _ => roomTurn L r

variable (L r) in
def renameDirectoryTurns (src dst : Str) : List Turn :=
  Turns.on (Path.normalize L.nfc src) fun src =>
    Turns.on (Path.normalize L.nfc dst) fun dst =>
      if src = dst then []
      else
        Turns.on (r.findDirectoryByPathNormalized L src) fun
          | some did =>
            .write :: renameChildrenTurns L (applyAll r [.put (.dirField did .path) (.str dst)])
              src dst
          | none => renameChildrenTurns L r src dst

theorem lookDirectory_moved {did did' p : Str} (h : ∃ o, r.lookDirectory L did' = .ok o) :
    ∃ o, (applyAll r [.put (.dirField did .path) (.str p)]).lookDirectory L did' = .ok o := by
  have hget {b : Addr} (hb : b ≠ .dirField did .path) :
      (applyAll r [.put (.dirField did .path) (.str p)]).get b = r.get b := by
    refine get_applyAll_of_ne fun op hop => ?_
    rw [List.mem_singleton.mp hop]
    exact ⟨Ne.symm hb, by cases b <;> simp [Op.target, Addr.ancestors]⟩
  by_cases heq : did' = did
  · subst heq
    obtain ⟨o, ho⟩ := h
    unfold Root.lookDirectory at ho ⊢
    rw [Root.hasObject_congr (hget (by simp)), Root.getInt_congr (hget (by simp)),
      Root.getStr_of_get (s := p) (by simp [Op.apply])]
    split at ho
    next hdir => exact ⟨none, if_pos hdir⟩
    next hdir =>
      rw [if_neg hdir]
      cases hdeleted : r.getInt L (.dirField did' .deletedAt) with
      | error e =>
        rw [hdeleted] at ho
        cases ho
      | ok deleted =>
        cases deleted with
        | some t => exact ⟨none, rfl⟩
        | none => exact ⟨some p, rfl⟩
  · rwa [Root.lookDirectory_congr fun b hb => hget ?_]
    rintro rfl
    exact heq (Option.some.inj hb).symm

theorem lookDirectory_of_none {did : Str} (h : r.get (.dir did) = none) :
    r.lookDirectory L did = .ok none := by
  rw [Root.lookDirectory, Root.hasObject, h]
  rfl

/-- After the directories have been gone through each of them can be read. -/
theorem moveDirectories_look {src dst : Str} {dids : List Str}
    (h : dids.forM (moveDirectory L src dst) d = .ok () d') :
    (∀ did, d'.root.get (.dir did) = d.root.get (.dir did)) ∧
      ∀ did, (did ∈ dids ∨ ∃ o, d.root.lookDirectory L did = .ok o) →
        ∃ o, d'.root.lookDirectory L did = .ok o := by
  induction dids generalizing d with
  | nil =>
    obtain ⟨-, rfl⟩ := EStateM.Result.ok.inj h
    exact ⟨fun _ => rfl, fun did hdid => hdid.resolve_left List.not_mem_nil⟩
  | cons did₁ rest ih =>
    obtain ⟨_, d₁, hrun, hrest⟩ := bind_eq_ok.mp h
    obtain ⟨hdir, hlook⟩ := ih hrest
    rw [moveDirectory_eq] at hrun
    cases hlook₁ : d.root.lookDirectory L did₁ with
    | error e =>
      rw [hlook₁] at hrun
      cases hrun
    | ok found =>
      rw [hlook₁] at hrun
      have hkept (did : Str) (hdid : did ∈ did₁ :: rest ∨ ∃ o, d.root.lookDirectory L did = .ok o) :
          did ∈ rest ∨ ∃ o, d.root.lookDirectory L did = .ok o := by
        rcases hdid with hdid | hdid
        · rcases List.mem_cons.mp hdid with rfl | hdid
          · exact .inr ⟨found, hlook₁⟩
          · exact .inl hdid
        · exact .inr hdid
      have hmoved : d₁ = d ∨ ∃ p, d₁ = d.emitted [.put (.dirField did₁ .path) (.str p)] := by
        cases found with
        | none => exact .inl (EStateM.Result.ok.inj hrun).2.symm
        | some p =>
          by_cases hunder : (Path.under src p && p != src) = true
          · simp only [hunder, if_true] at hrun
            exact .inr ⟨_, (EStateM.Result.ok.inj hrun).2.symm⟩
          · simp only [hunder] at hrun
            exact .inl (EStateM.Result.ok.inj hrun).2.symm
      rcases hmoved with rfl | ⟨p, rfl⟩
      · exact ⟨hdir, fun did hdid => hlook did (hkept did hdid)⟩
      · refine ⟨fun did => (hdir did).trans (get_applyAll_of_ne (by simp [Op.target,
          Addr.ancestors])), fun did hdid => hlook did ?_⟩
        exact (hkept did hdid).imp_right fun h => lookDirectory_moved h

/-- Directories can be made where all that are there can be read. -/
theorem ensureDirectories_ends_of_looks (now : Int) (paths : List Str)
    (hmap : d.root.mapObj .directories = .ok ())
    (hroom : d.root.writable L (.rootMap .directories) = .ok ())
    (hlook : ∀ did, ∃ o, d.root.lookDirectory L did = .ok o) :
    Ends (paths.forM (ensureDirectory L now)) d fun _ _ => True := by
  induction paths generalizing d with
  | nil => exact .pure trivial
  | cons p rest ih =>
    obtain ⟨found, hfound⟩ : ∃ found, d.root.findDirectoryByPathNormalized L p = .ok found := by
      rw [Root.findDirectoryByPathNormalized, hmap]
      show ∃ found, d.root.findDirectoryIn L p d.root.dirKeys = .ok found
      rw [Root.findDirectoryIn_eq_scan]
      exact Root.scan_ok fun did _ => hlook did
    refine .bind (.bind (.read hfound ?_))
    cases found with
    | some did => exact .pure (ih hmap hroom hlook)
    | none =>
      refine .bind (.read hmap (.bind (.newId (.bind (.read hroom (.emit ?_))))))
      have howned : ∀ op ∈ newDirectoryOps (d.supply.id d.draws) p now,
          op.target.owner = some (.directory (d.supply.id d.draws)) := by
        simp [newDirectoryOps, Op.target, Addr.owner, Addr.fileId, Addr.dirId]
      have hsame := Root.sameBut_applyAll (r := d.root) howned
      refine ih ?_ ?_ fun did => ?_
      · rw [← hmap]
        exact (Root.mapObj_congr (hsame.rootMap .directories)).symm
      · rw [← hroom]
        exact (writable_congr (hsame.rootMap .directories)).symm
      · by_cases hdid : did = d.supply.id d.draws
        · refine ⟨some p, ?_⟩
          simp [hdid, Root.lookDirectory, Root.hasObject, Root.getInt, Root.getStr, Op.apply,
            Addr.ancestors, Val.isObject, bind, Except.bind]
        · have hother := hsame.sameFor (i := .directory did) (by simpa using hdid)
          exact (hlook did).imp fun o ho => (Root.lookDirectory_congr hother.directory).symm.trans ho

/-- Where the map takes no entries and has none, the first directory to be made fails. -/
theorem ensureDirectories_noRoom (now : Int) (paths : List Str) {e : Error}
    (hmap : d.root.mapObj .directories = .ok ()) (hnone : d.root.dirKeys = [])
    (hroom : d.root.writable L (.rootMap .directories) = .error e) (h : Since d₀ wrote d) :
    Fares d₀ wrote (paths.forM (ensureDirectory L now)) d (paths.map fun _ => .fail)
      fun _ _ => True := by
  cases paths with
  | nil => exact .pure trivial
  | cons p rest =>
    have hfind : d.root.findDirectoryByPathNormalized L p = .ok none := by
      rw [Root.findDirectoryByPathNormalized, hmap, hnone]
      rfl
    show Follows _ _ (ensureDirectory L now p >>= fun _ => rest.forM (ensureDirectory L now)) _
      ([.fail] ++ _) _
    refine .bind (Fares.read hfind (Fares.read hmap (.step (a := d.supply.id d.draws) rfl ?_)))
    exact Fares.fails hroom (h.draw _)

theorem renameChildren_fares {src dst : Str} (now : Int)
    (hmap : d.root.mapObj .directories = .ok ())
    (hroom : d.root.dirKeys ≠ [] → d.root.writable L (.rootMap .directories) = .ok ())
    (h : Since d₀ wrote d) : Fares d₀ wrote (do
      read (Root.mapObj · .directories)
      (← ask Root.dirKeys).forM (moveDirectory L src dst)
      read (Root.mapObj · .files)
      (← ask Root.fileKeys).forM (moveFile L src dst now)
      ensureAncestorDirectories L dst
      commitNow) d (renameChildrenTurns L d.root src dst) fun _ _ => True := by
  refine Fares.read hmap (Fares.read (a := d.root.dirKeys) rfl ?_)
  refine .bind ((Fares.forM (fun r => moveDirectoryTurn L r src) .directory
    (Root.nodup_dirKeys.map fun _ _ => Owner.directory.inj)
    (fun did r r' => moveDirectoryTurn_congr) (fun did _ d' _ => moveDirectory_does src dst did d')
    (fun _ _ => rfl) h).run.weaken ?_)
  rintro _ d₂ ⟨⟨hsince, hsame⟩, hrun⟩
  obtain ⟨hdir, hlook⟩ := moveDirectories_look hrun
  have hfile (fid : Str) := hsame.sameFor (i := .file fid) (by simp)
  have hkeys : d.root.fileKeys = d₂.root.fileKeys :=
    Root.fileKeys_congr fun fid => by rw [(hfile fid).file (.file fid) rfl]
  rw [Root.mapObj_congr (hsame.rootMap .files), hkeys]
  refine Fares.look hsince fun _ _ => Fares.read (a := d₂.root.fileKeys) rfl ?_
  refine .bind ((Fares.forM (fun r => moveFileTurn L r src) .file
    (Root.nodup_fileKeys.map fun _ _ => Owner.file.inj)
    (fun did r r' => moveFileTurn_congr) (fun fid _ d' _ => moveFile_does src dst now fid d')
    (fun fid _ => (moveFileTurn_congr (hfile fid)).symm) hsince).weaken ?_)
  rintro _ d₃ ⟨hsince₃, hsame₃⟩
  have hdir₃ (did : Str) := hsame₃.sameFor (i := .directory did) (by simp)
  have hmaps (m : RootMap) := (hsame.rootMap m).trans (hsame₃.rootMap m)
  have hmap₃ : d₃.root.mapObj .directories = .ok () := by rw [← hmap, Root.mapObj_congr (hmaps _)]
  have hget₃ (did : Str) : d₃.root.get (.dir did) = d.root.get (.dir did) :=
    ((hdir₃ did).directory (.dir did) rfl).symm.trans (hdir did)
  have hlook₃ (did : Str) : ∃ o, d₃.root.lookDirectory L did = .ok o := by
    rw [← Root.lookDirectory_congr (hdir₃ did).directory]
    refine hlook did ?_
    by_cases hkey : d.root.get (.dir did) = none
    · exact .inr ⟨none, lookDirectory_of_none hkey⟩
    · exact .inl (Root.mem_dirKeys.mpr (Option.isSome_iff_ne_none.mpr hkey))
  have hwritable₃ : d₃.root.writable L (.rootMap .directories) =
      d.root.writable L (.rootMap .directories) := (writable_congr (hmaps _)).symm
  cases hwritable : d.root.writable L (.rootMap .directories) with
  | ok _ =>
    have hturn : roomTurn L d.root = .skip := by rw [roomTurn, hwritable]
    refine Fares.of_ends (.bind (.bind (.nowMs ?_))) (by simp [hturn])
    exact (ensureDirectories_ends_of_looks (d := {d₃ with draws := d₃.draws + 1}) _ _ hmap₃
      (hwritable₃.trans hwritable) hlook₃).weaken fun _ _ _ => Ends.commitNow trivial
  | error e =>
    -- There are no directories, so none is found.
    have hturn : roomTurn L d.root = .fail := by rw [roomTurn, hwritable]
    have hnone : d₃.root.dirKeys = [] := by
      by_contra hne
      rw [hroom fun hnil => hne ?_] at hwritable
      · cases hwritable
      · rw [← hnil]
        exact Root.dirKeys_congr fun did => by rw [hget₃]
    have hall : Fares d₀ _ (ensureAncestorDirectories L dst) d₃ _ fun _ _ => True :=
      .step rfl (ensureDirectories_noRoom (d := {d₃ with draws := d₃.draws + 1})
        _ _ hmap₃ hnone (hwritable₃.trans hwritable) (hsince₃.draw _))
    rw [hturn, ← List.append_nil (List.map (fun _ => Turn.fail) (Path.ancestors dst))]
    exact .bind (hall.weaken fun _ d' _ => Fares.of_ends (.commitNow trivial) List.not_mem_nil)

/-- A map with entries takes more. -/
theorem writable_of_dirKeys (hr : r.Nested) (h : r.dirKeys ≠ []) :
    r.writable L (.rootMap .directories) = .ok () := by
  obtain ⟨did, hdid⟩ := List.exists_mem_of_ne_nil _ h
  have hmap := hr (.dir did) (Option.isSome_iff_ne_none.mp (Root.mem_dirKeys.mp hdid))
    (.rootMap .directories) (by simp [Addr.ancestors])
  rw [Root.writable, hmap]

theorem renameDirectory_fares (hr : d.root.Nested) (src dst : Str) :
    Fares d false (renameDirectory L src dst) d (renameDirectoryTurns L d.root src dst)
      fun _ _ => True := by
  refine Fares.look (.refl d) fun p _ => Fares.look (.refl d) fun q _ => ?_
  split
  next => exact .pure trivial
  next =>
    refine .step (a := d.supply.now d.draws) rfl (Fares.look ((Since.refl d).draw _)
      fun found hfound => ?_)
    obtain ⟨_, hmap, hfind⟩ := AgentSync.bind_eq_ok.mp hfound
    cases found with
    | none =>
      exact renameChildren_fares _ hmap (writable_of_dirKeys hr) ((Since.refl d).draw _)
    | some did =>
      rw [Root.findDirectoryIn_eq_scan] at hfind
      have hdir := (Root.lookDirectory_eq_some (Root.scan_eq_some hfind).2).1
      have hops : ∀ op ∈ [Op.put (.dirField did .path) (.str q)],
          op.target.owner = some (.directory did) := by
        simp [Op.target, Addr.owner, Addr.fileId, Addr.dirId]
      have hsame := Root.sameBut_applyAll (r := d.root) hops
      have hget (did' : Str) : (applyAll d.root [.put (.dirField did .path) (.str q)]).get
          (.dir did') = d.root.get (.dir did') :=
        get_applyAll_of_ne (by simp [Op.target, Addr.ancestors])
      refine Fares.read (a := true) (congrArg Except.ok hdir) (.write (a := ()) rfl ?_)
      refine renameChildren_fares _ ?_ (fun hkeys => ?_) (((Since.refl d).draw _).emitted (by simp))
      · rw [← hmap]
        exact (Root.mapObj_congr (hsame.rootMap _)).symm
      · rw [← writable_of_dirKeys hr fun hnil => hkeys ?_]
        · exact (writable_congr (hsame.rootMap _)).symm
        · rw [← hnil]
          exact Root.dirKeys_congr fun did' => by rw [emitted_root, hget]

/-! ### Deleting a directory -/

variable (L r) in
/-- The files below the path are deleted one by one, the directories together at the end. -/
def deleteDirectoryTurns (path : Str) (recursive : Bool) : List Turn :=
  Turns.on (Path.normalize L.nfc path) fun p =>
    Turns.on (childFiles L p r) fun files =>
      Turns.on (childDirs L p r) fun _ =>
        if recursive then deletions L r [] files else if files = [] then [] else [.fail]

/-- `delete_file` commits: a file that was live is not any more, or nothing has happened. -/
def Struck (L : Crates) (d₀ : Doc) (wrote : Bool) (d : Doc) : Prop :=
  if wrote then ∃ fid, d₀.root.fileAt L fid ≠ none ∧ d.root.fileAt L fid = none
  else d.changes = d₀.changes ∧ d.pending = d₀.pending ∧ d.root = d₀.root

theorem fileAt_of_look_none {fid : Str} (h : r.lookFile L fid = .ok none) :
    r.fileAt L fid = none := by
  by_contra hne
  obtain ⟨f, hf⟩ := Option.ne_none_iff_exists'.mp hne
  obtain ⟨m, hm, hdeleted, -⟩ := Root.fileAt_eq_some.mp hf
  obtain ⟨-, hfile, hmeta, hpath, -, -, -, -, hd, -⟩ := Root.readFileMeta_eq_some.mp hm
  rw [Root.lookFile, hfile, hmeta, hd, hdeleted, hpath] at h
  cases h

theorem fileAt_of_look {fid p : Str} (h : r.lookFile L fid = .ok (some p))
    (hread : ∃ entry, r.readFileMeta L fid = .ok entry) : r.fileAt L fid ≠ none := by
  obtain ⟨hfile, hmeta, hdeleted, -⟩ := Root.lookFile_eq_some h
  obtain ⟨entry, hentry⟩ := hread
  cases entry with
  | none =>
    rcases Root.readFileMeta_eq_none hentry with hno | hno
    · rw [hfile] at hno
      cases hno
    · rw [hmeta] at hno
      cases hno
  | some m =>
    have hlive : m.deletedAt = none := by
      obtain ⟨-, -, -, -, -, -, -, -, hd, -⟩ := Root.readFileMeta_eq_some.mp hentry
      exact Except.ok.inj (hd.symm.trans hdeleted)
    rw [Root.fileAt_of_read hentry hlive]
    exact Option.some_ne_none _

theorem deleteFiles_follows {dead : List Owner} (files : List Str)
    (hread : ∀ fid, fid ∈ d₀.root.fileKeys → ∃ entry, d₀.root.readFileMeta L fid = .ok entry)
    (hmap : d₀.root.mapObj .files = .ok ()) (h : Root.Marked L dead d₀.root d.root)
    (hnone : dead = [] → Struck L d₀ false d)
    (hdead : ∀ i ∈ dead, ∃ fid, i = .file fid ∧ d₀.root.fileAt L fid ≠ none) :
    Follows (Struck L d₀) (!dead.isEmpty) (files.forM (deleteFile L)) d
      (deletions L d₀.root dead files) fun _ d' => ∃ dead', Root.Marked L dead' d₀.root d'.root := by
  induction files generalizing dead d with
  | nil => exact .pure ⟨dead, h⟩
  | cons f rest ih =>
    have hone := deleteFile_cut hmap h f
    show Follows _ _ (deleteFile L f >>= fun _ => rest.forM (deleteFile L)) _ _ _
    rw [deletions]
    split at hone
    next fid heq =>
      obtain ⟨_, d₁, hrun, -, hmarked⟩ := hone
      obtain ⟨p, -, hscan⟩ := AgentSync.bind_eq_ok.mp heq
      obtain ⟨hkey, hlook⟩ := Root.scan_eq_some hscan
      refine .write hrun (ih hmarked (fun hnil => absurd hnil (List.cons_ne_nil _ _)) fun i hi => ?_)
      rcases List.mem_cons.mp hi with rfl | hi
      · exact ⟨fid, rfl, fileAt_of_look hlook (hread fid (List.mem_filter.mp hkey).1)⟩
      · exact hdead i hi
    next hno =>
      obtain ⟨e, hrun⟩ := hone
      refine .fails hrun ?_
      cases dead with
      | nil => exact hnone rfl
      | cons i others =>
        obtain ⟨fid, rfl, hlive⟩ := hdead i List.mem_cons_self
        exact ⟨fid, hlive, fileAt_of_look_none (h.files fid List.mem_cons_self)⟩

/-- A listing has read every entry. -/
theorem readFileMeta_of_listFiles {metas : List FileMeta} (h : r.listFiles L = .ok metas) :
    ∀ fid ∈ r.fileKeys, ∃ entry, r.readFileMeta L fid = .ok entry := by
  obtain ⟨-, metas', hmetas, -⟩ := Root.listFiles_eq_ok.mp h
  clear h
  generalize r.fileKeys = fids at hmetas
  induction fids generalizing metas' with
  | nil => exact fun _ h => absurd h List.not_mem_nil
  | cons fid rest ih =>
    obtain ⟨entry, hentry, hrest⟩ := AgentSync.bind_eq_ok.mp hmetas
    obtain ⟨metas'', hmetas'', -⟩ := AgentSync.bind_eq_ok.mp hrest
    exact List.forall_mem_cons.mpr ⟨⟨entry, hentry⟩, ih metas'' hmetas''⟩

theorem lookDirectory_of_childDirs {p : Str} {dids : List Str} (h : childDirs L p r = .ok dids) :
    ∀ did ∈ r.dirKeys, ∃ o, r.lookDirectory L did = .ok o := by
  obtain ⟨_, -, hchildren⟩ := AgentSync.bind_eq_ok.mp h
  clear h
  generalize r.dirKeys = keys at hchildren
  induction keys generalizing dids with
  | nil => exact fun _ h => absurd h List.not_mem_nil
  | cons did rest ih =>
    rw [List.forall_mem_cons]
    unfold childDirsIn at hchildren
    unfold Root.lookDirectory
    split at hchildren
    next hdir => exact ⟨⟨none, if_pos hdir⟩, ih hchildren⟩
    next hdir =>
      rw [if_neg hdir]
      obtain ⟨deleted, hdeleted, hchildren⟩ := AgentSync.bind_eq_ok.mp hchildren
      rw [hdeleted]
      cases deleted with
      | some t => exact ⟨⟨none, rfl⟩, ih hchildren⟩
      | none =>
        obtain ⟨path, hpath, hchildren⟩ := AgentSync.bind_eq_ok.mp hchildren
        refine ⟨⟨path, hpath⟩, ?_⟩
        cases path with
        | none => exact ih hchildren
        | some q =>
          obtain ⟨children, hrest, -⟩ := AgentSync.bind_eq_ok.mp hchildren
          exact ih hrest

/-- The directories can be marked where all of them can be read. -/
theorem markDirectories_ends_of_looks {p : Str} {dead : List Owner} {dids : List Str}
    (hr : r.Nested) (now : Int) (hmap : r.mapObj .directories = .ok ())
    (hlook : ∀ did ∈ r.dirKeys, ∃ o, r.lookDirectory L did = .ok o)
    (hdids : ∀ did ∈ dids, ∃ q, r.lookDirectory L did = .ok (some q))
    (h : Root.Marked L dead r d.root) : Ends (do
      dids.forM (markDirectory L now)
      match ← read (Root.findDirectoryByPathNormalized L · p) with
      | some did => markDirectory L now did
      | none => pure ()
      commitNow) d fun _ _ => True := by
  refine .bind ((markDirectories_ends hr now hdids h).weaken ?_)
  rintro _ d₁ ⟨-, hmarked⟩
  have hfind := hmarked.findDirectory hmap p
  obtain ⟨found, hfound⟩ : ∃ found, Root.scan (r.lookDirectory L) p (r.dirKeys.filter fun did =>
      .directory did ∉ (dids.map Owner.directory).reverse ++ dead) = .ok found :=
    Root.scan_ok fun did hdid => hlook did (List.mem_filter.mp hdid).1
  refine .bind (.read (hfind.trans hfound) ?_)
  cases found with
  | none => exact .commitNow trivial
  | some did =>
    refine .bind ((markDirectory_ends_of_look hr now (Root.scan_eq_some hfound).2 hmarked).weaken ?_)
    exact fun _ _ _ => .commitNow trivial

theorem deleteDirectory_follows (hr : d.root.Nested) (path : Str) (recursive : Bool) :
    Follows (Struck L d) false (deleteDirectory L path recursive) d
      (deleteDirectoryTurns L d.root path recursive) fun _ _ => True := by
  have hquiet (n : Nat) : Struck L d false {d with draws := n} := ⟨rfl, rfl, rfl⟩
  refine Fares.look (hquiet _) fun p _ => .step (a := d.supply.now d.draws) rfl ?_
  refine Fares.look (hquiet _) fun files hfiles => Fares.look (hquiet _) fun dids hdids => ?_
  have hlook := lookDirectory_of_childDirs hdids
  obtain ⟨_, hmapDirs, hchildren⟩ := AgentSync.bind_eq_ok.mp hdids
  cases recursive with
  | false =>
    by_cases hempty : files = []
    · rw [if_neg fun h => h.1 hempty, if_neg (by simp), if_pos hempty]
      exact Fares.of_ends (markDirectories_ends_of_looks hr _ hmapDirs hlook
        (fun did (hdid : did ∈ []) => absurd hdid List.not_mem_nil) (.refl L d.root)) List.not_mem_nil
    · rw [if_pos ⟨hempty, rfl⟩, if_neg (by simp), if_neg hempty]
      exact .of_error rfl (by simp) (hquiet _)
  | true =>
    rw [if_neg fun h => Bool.noConfusion h.2, if_pos rfl,
      ← List.append_nil (deletions L d.root [] files)]
    simp only [deleteChildren, if_true, bind_assoc]
    obtain ⟨metas, hmetas, -⟩ := AgentSync.bind_eq_ok.mp hfiles
    have hread : ∀ fid ∈ d.root.fileKeys, ∃ entry, d.root.readFileMeta L fid = .ok entry :=
      readFileMeta_of_listFiles hmetas
    have hmarked₀ : Root.Marked L [] d.root {d with draws := d.draws + 1}.root := .refl L d.root
    refine .bind ((deleteFiles_follows files hread (Root.listFiles_eq_ok.mp hmetas).1 hmarked₀
      (fun _ => hquiet _) fun i hi => absurd hi List.not_mem_nil).weaken ?_)
    rintro _ d₁ ⟨dead, hmarked⟩
    have hmap : d₁.root.mapObj .directories = .ok () := (hmarked.mapObj _).trans hmapDirs
    exact Fares.of_ends (.bind (.read hmap (markDirectories_ends_of_looks hr _ hmapDirs hlook
      (fun did hdid => (mem_childDirsIn hchildren hdid).imp fun _ h => h.1) hmarked)))
      List.not_mem_nil

/-! ### Restoring -/

/-- The order in which the hash maps of the past entries are gone through. -/
structure Visit where
  files : List FileMeta → List FileMeta
  directories : List DirectoryMeta → List DirectoryMeta
  perm_files : ∀ metas, (files metas).Perm metas
  perm_directories : ∀ metas, (directories metas).Perm metas

/-- In the order of the listings. -/
def Visit.listed : Visit := ⟨id, id, .refl, .refl⟩

variable (L A) in
/-- `restore_to_heads`, with the past entries in any order. -/
def restoreToHeadsIn (visit : Visit) (heads : List ChangeHash) : DocM Unit := do
  let _ ← Doc.heads
  let past ← fork A heads
  let pastFiles ← lift (past.root.listFiles L)
  let pastDirs ← lift (past.root.listDirectories L)
  let now ← nowMs
  restoreEntries L now (visit.files pastFiles) (visit.directories pastDirs) (pastText past.root)

variable (L A) in
def restoreToTimeIn (visit : Visit) (target : Int) : DocM Unit := do
  let heads ← headsAtTime target
  restoreToHeadsIn L A visit heads

theorem restoreToHeadsIn_listed (heads : List ChangeHash) :
    restoreToHeadsIn L A .listed heads = restoreToHeads L A heads := rfl

theorem restoreToTimeIn_listed (target : Int) :
    restoreToTimeIn L A .listed target = restoreToTime L A target := rfl

variable (L r) in
/-- The turns of the four loops. -/
def restoreEntriesTurns (files : List FileMeta) (dirs : List DirectoryMeta) : List Turn :=
  Turns.on (r.mapObj .files) fun _ =>
    Turns.on (r.mapObj .directories) fun _ =>
      r.fileKeys.map (killFileTurn L r files) ++ (files.map (restoreFileTurn L r) ++
        (r.dirKeys.map (killDirectoryTurn L r dirs) ++ dirs.map (restoreDirectoryTurn L r)))

variable (L A) in
def restoreTurns (d : Doc) (visit : Visit) (heads : List ChangeHash) : List Turn :=
  Turns.on (forkAt A d heads) fun past =>
    Turns.on (past.root.listFiles L) fun files =>
      Turns.on (past.root.listDirectories L) fun dirs =>
        restoreEntriesTurns L d.root (visit.files files) (visit.directories dirs)

theorem restoreEntries_fares (now : Int) {files : List FileMeta} {dirs : List DirectoryMeta}
    (text : Str → Str) (hfiles : ∀ m ∈ files, m.deletedAt = none)
    (hdirs : ∀ m ∈ dirs, m.deletedAt = none) (hfileIds : (files.map FileMeta.id).Nodup)
    (hdirIds : (dirs.map DirectoryMeta.id).Nodup) (h : Since d₀ wrote d) :
    Fares d₀ wrote (restoreEntries L now files dirs text) d
      (restoreEntriesTurns L d.root files dirs) fun _ _ => True := by
  refine Fares.look h fun _ hmap => Fares.look h fun _ hmapDirs => ?_
  refine Fares.read (a := d.root.fileKeys) rfl (Fares.read (a := d.root.dirKeys) rfl ?_)
  refine .bind ((Fares.forM (fun r => killFileTurn L r files) .file
    (Root.nodup_fileKeys.map fun _ _ => Owner.file.inj) (fun fid r r' => killFileTurn_congr)
    (fun fid _ d' _ => killFile_does now files fid d') (fun _ _ => rfl) h).weaken ?_)
  rintro _ d₁ ⟨hsince₁, hsame₁⟩
  -- What was live then is not deleted, so its turn is what it was.
  have hspared {m : FileMeta} (hm : m ∈ files) : Root.SameFor (.file m.id) d.root d₁.root := by
    refine hsame₁.sameFor ?_
    rintro ⟨fid, -, hturn, heq⟩
    obtain rfl := Owner.file.inj heq
    have hpast : (files.any fun m' => m'.id = m.id && m'.deletedAt.isNone) = true :=
      List.any_eq_true.mpr ⟨m, hm, by simp [hfiles m hm]⟩
    unfold killFileTurn at hturn
    simp only [hpast] at hturn
    split at hturn
    next =>
      rw [if_neg (by simp)] at hturn
      cases hturn
    next => cases hturn
    next => cases hturn
  have hmap₁ : d₁.root.mapObj .files = .ok () := by
    rw [← hmap, Root.mapObj_congr (hsame₁.rootMap _)]
  refine .bind ((Fares.forM (fun r => restoreFileTurn L r) (fun m => .file m.id)
    (by simpa [Function.comp_def] using hfileIds.map fun _ _ => Owner.file.inj)
    (fun m r r' => restoreFileTurn_congr) (fun m hm d' hmaps => restoreFile_does now text
      (hfiles m hm) (by rw [← hmap₁, Root.mapObj_congr (hmaps _)]))
    (fun m hm => (restoreFileTurn_congr (hspared hm)).symm) hsince₁).weaken ?_)
  rintro _ d₂ ⟨hsince₂, hsame₂⟩
  have hdir₂ (did : Str) : Root.SameFor (.directory did) d.root d₂.root :=
    (hsame₁.sameFor (by simp)).trans (hsame₂.sameFor (by simp))
  have hmap₂ : d₂.root.mapObj .directories = .ok () := by
    rw [← hmapDirs, Root.mapObj_congr ((hdir₂ []).rootMap _)]
  refine .bind ((Fares.forM (fun r => killDirectoryTurn L r dirs) .directory
    (Root.nodup_dirKeys.map fun _ _ => Owner.directory.inj)
    (fun did r r' => killDirectoryTurn_congr) (fun did _ d' hmaps => killDirectory_does now dirs did
      (by rw [← hmap₂, Root.mapObj_congr (hmaps _)]))
    (fun did _ => (killDirectoryTurn_congr (hdir₂ did)).symm) hsince₂).weaken ?_)
  rintro _ d₃ ⟨hsince₃, hsame₃⟩
  have hspared₃ {m : DirectoryMeta} (hm : m ∈ dirs) :
      Root.SameFor (.directory m.id) d.root d₃.root := by
    refine (hdir₂ m.id).trans (hsame₃.sameFor ?_)
    rintro ⟨did, -, hturn, heq⟩
    obtain rfl := Owner.directory.inj heq
    have hpast : (dirs.any fun m' => m'.id = m.id && m'.deletedAt.isNone) = true :=
      List.any_eq_true.mpr ⟨m, hm, by simp [hdirs m hm]⟩
    unfold killDirectoryTurn at hturn
    simp only [hpast] at hturn
    split at hturn
    next => cases hturn
    next => split at hturn <;> cases hturn
  have hmap₃ : d₃.root.mapObj .directories = .ok () := by
    rw [← hmap₂, Root.mapObj_congr (hsame₃.rootMap _)]
  rw [← List.append_nil (dirs.map (restoreDirectoryTurn L d.root))]
  refine .bind ((Fares.forM (fun r => restoreDirectoryTurn L r) (fun m => .directory m.id)
    (by simpa [Function.comp_def] using hdirIds.map fun _ _ => Owner.directory.inj)
    (fun m r r' => restoreDirectoryTurn_congr) (fun m hm d' hmaps => restoreDirectory_does
      (hdirs m hm) (by rw [← hmap₃, Root.mapObj_congr (hmaps _)]))
    (fun m hm => (restoreDirectoryTurn_congr (hspared₃ hm)).symm) hsince₃).weaken ?_)
  exact fun _ _ _ => Fares.of_ends (.commitNow trivial) List.not_mem_nil

theorem restoreToHeadsIn_fares (visit : Visit) (heads : List ChangeHash) :
    Fares (d.committed 0) false (restoreToHeadsIn L A visit heads) d
      (restoreTurns L A (d.committed 0) visit heads) fun _ _ => True := by
  have hstart := Since.refl (d.committed 0)
  refine .step (a := headsOf (d.committed 0).changes) rfl ?_
  unfold restoreTurns
  cases hfork : forkAt A (d.committed 0) heads with
  | error e => exact Follows.fails (e := e) (by simp [fork, hfork]) hstart
  | ok past =>
    refine .step (fork_eq_ok.mpr ⟨rfl, hfork⟩) ?_
    refine Fares.look hstart fun files hfiles => Fares.look hstart fun dirs hdirs => ?_
    refine .step (a := (d.committed 0).supply.now (d.committed 0).draws) rfl ?_
    refine restoreEntries_fares _ _ (fun m hm => ?_) (fun m hm => ?_) ?_ ?_ (hstart.draw _)
    · exact ((Root.mem_listFiles hfiles).mp ((visit.perm_files files).mem_iff.mp hm)).2
    · exact (Root.readDirectoryMeta_eq_some.mp ((Root.mem_listDirectories hdirs).mp
        ((visit.perm_directories dirs).mem_iff.mp hm))).2.2.2.2.1
    · exact ((visit.perm_files files).map _).nodup_iff.mpr (Root.nodup_listFiles hfiles)
    · exact ((visit.perm_directories dirs).map _).nodup_iff.mpr (Root.nodup_listDirectories hdirs)

/-- The heads that `heads_at_time` finds. -/
def headsUntil (changes : List Change) (target : Int) : List ChangeHash :=
  let included := changes.filter fun c => c.timestamp ≤ target
  (included.map Change.hash).filter fun h => !included.any fun c => c.deps.contains h

theorem headsAtTime_eq (target : Int) (d : Doc) : headsAtTime target d =
    .ok (headsUntil (d.committed 0).changes target) (d.committed 0) := rfl

theorem restoreToTimeIn_fares (visit : Visit) (target : Int) :
    Fares (d.committed 0) false (restoreToTimeIn L A visit target) d
      (restoreTurns L A (d.committed 0) visit (headsUntil (d.committed 0).changes target))
      fun _ _ => True := by
  have hrestore := restoreToHeadsIn_fares (L := L) (A := A) (d := d.committed 0) visit
    (headsUntil (d.committed 0).changes target)
  rw [committed_of_closed (committed_pending d 0)] at hrestore
  exact .step (headsAtTime_eq target d) hrestore

end Doc

/-! ### Failed operations -/

/-- An operation of the document that can fail. -/
inductive DocOp where
  | tree (op : TreeOp)
  | restoreToHeads (visit : Doc.Visit) (heads : List ChangeHash)
  | restoreToTime (visit : Doc.Visit) (target : Int)

namespace DocOp

variable (L A)

def run : DocOp → DocM Unit
  | tree op => op.run L
  | restoreToHeads visit heads => Doc.restoreToHeadsIn L A visit heads
  | restoreToTime visit target => Doc.restoreToTimeIn L A visit target

/-- What the operation comes to, one entry after the other: what it can read, it passes over or
writes. -/
def turns (d : Doc) : DocOp → List Turn
  | tree (.file (.writeTextFile path _)) => Doc.writeFileTurns L d.root path
  | tree (.file (.writeAttachment path _ _)) => Doc.writeFileTurns L d.root path
  | tree (.file (.deleteFile path)) => Doc.deleteFileTurns L d.root path
  | tree (.file (.renameFile src dst)) => Doc.renameFileTurns L d.root src dst
  | tree (.file (.createDirectory path)) => Doc.createDirectoryTurns L d.root path
  | tree (.deleteDirectory path recursive) => Doc.deleteDirectoryTurns L d.root path recursive
  | tree (.renameDirectory src dst) => Doc.renameDirectoryTurns L d.root src dst
  | restoreToHeads visit heads => Doc.restoreTurns L A (d.committed 0) visit heads
  | restoreToTime visit target =>
    Doc.restoreTurns L A (d.committed 0) visit (Doc.headsUntil (d.committed 0).changes target)

end DocOp

namespace Doc

variable {d d' : Doc}

/-- The live files and directories are as before, and nothing is left to be committed but what
was there before. -/
structure Unharmed (L : Crates) (d d' : Doc) : Prop where
  files : d'.root.fileAt L = d.root.fileAt L
  directories : d'.root.dirAt L = d.root.dirAt L
  pending : d'.pending = [] ∨ (d'.changes = d.changes ∧ d'.pending = d.pending)

theorem Since.unharmed (h : Since d false d') : Unharmed L d d' := by
  obtain ⟨ops, hpending, hroot, hwrote⟩ := h.written
  obtain rfl : ops = [] := by simpa using hwrote
  rw [applyAll_nil] at hroot
  rw [List.append_nil] at hpending
  exact ⟨by rw [hroot], by rw [hroot], .inr ⟨h.changes, hpending⟩⟩

theorem Since.harmed (h : Since d true d') : ¬ Unharmed L d d' := by
  obtain ⟨ops, hpending, -, hwrote⟩ := h.written
  have hne : ops ≠ [] := hwrote.mp rfl
  intro hsame
  rcases hsame.pending with hnil | ⟨-, heq⟩
  · rw [hnil] at hpending
    exact hne (List.append_eq_nil_iff.mp hpending.symm).2
  · rw [heq] at hpending
    exact hne (List.self_eq_append_right.mp hpending)

theorem Since.unharmed_committed (h : Since (d.committed 0) false d') : Unharmed L d d' := by
  obtain ⟨ops, hpending, hroot, hwrote⟩ := h.written
  obtain rfl : ops = [] := by simpa using hwrote
  rw [applyAll_nil, committed_root] at hroot
  rw [committed_pending, List.append_nil] at hpending
  exact ⟨by rw [hroot], by rw [hroot], .inl hpending⟩

theorem Since.harmed_committed (h : Since (d.committed 0) true d') : ¬ Unharmed L d d' := by
  obtain ⟨ops, hpending, -, hwrote⟩ := h.written
  have hne : ops ≠ [] := hwrote.mp rfl
  rw [committed_pending, List.nil_append] at hpending
  intro hsame
  rcases hsame.pending with hnil | ⟨hchanges, heq⟩
  · exact hne (hpending ▸ hnil)
  · have hopen : d.pending ≠ [] := by
      rw [← heq, hpending]
      exact hne
    rw [h.changes, committed, if_neg hopen] at hchanges
    exact List.cons_ne_nil _ _ (List.append_right_eq_self.mp hchanges)

/-- **A failed operation is harmless** just when the entries it writes do not come before one
that it cannot read or write. -/
theorem failed_operation_atomic (hr : d.root.Nested) (hf : d.Fresh) (op : DocOp) :
    (∀ e d', op.run L A d = .error e d' → Unharmed L d d') ↔
      Turns.late false (op.turns L A d) = false := by
  have hopen {x : DocM Unit} {ts : List Turn} (h : Fares d false x d ts fun _ _ => True) :=
    h.error_iff (fun _ h => h.unharmed (L := L)) fun _ h => h.harmed
  have hclosed {x : DocM Unit} {ts : List Turn}
      (h : Fares (d.committed 0) false x d ts fun _ _ => True) :=
    h.error_iff (fun _ h => h.unharmed_committed (L := L)) fun _ h => h.harmed_committed
  cases op with
  | restoreToHeads visit heads => exact hclosed (restoreToHeadsIn_fares visit heads)
  | restoreToTime visit target => exact hclosed (restoreToTimeIn_fares visit target)
  | tree op =>
    cases op with
    | deleteDirectory path recursive =>
      refine (deleteDirectory_follows hr path recursive).error_iff ?_ ?_
      · rintro d' ⟨hchanges, hpending, hroot⟩
        exact ⟨by rw [hroot], by rw [hroot], .inr ⟨hchanges, hpending⟩⟩
      · rintro d' ⟨fid, hlive, hdead⟩ hsame
        exact hlive ((congrFun hsame.files fid).symm.trans hdead)
    | renameDirectory src dst => exact hopen (renameDirectory_fares hr src dst)
    | file op =>
      cases op with
      | writeTextFile path content => exact hopen (Fares.unit (writeTextFile_fares hf path content))
      | writeAttachment path hash size =>
        exact hopen (Fares.unit (writeAttachment_fares hf path hash size))
      | deleteFile path => exact hopen (deleteFile_fares path)
      | renameFile src dst => exact hopen (renameFile_fares hf src dst)
      | createDirectory path => exact hopen (Fares.unit (createDirectory_fares hf path))

/-- The operations of a peer whose directory says in words when it was deleted. -/
private def oddOps : List Op :=
  [.putMap (.dir (txt "d")), .put (.dirField (txt "d") .path) (.str (txt "b")),
    .put (.dirField (txt "d") .deletedAt) (.str (txt "yesterday"))]

private def emptyReplica : Doc := .new .plain (txt "vault") (.numbered '1' 16)

private def oddReplica : Doc := emptyReplica.merge .plain
  (.ofChanges .plain (emptyReplica.changes ++ [⟨.fill 99, [.fill 0], 0, oddOps⟩])
    (.numbered '2' 64) 0)

private theorem fresh_oddReplica : oddReplica.Fresh := by
  have hfresh : (emptyReplica.emitted oddOps).Fresh :=
    (Fresh.new _ (Supply.numbered_injective '1' 16)).directory_written
      (show ∀ op ∈ oddOps, op.target.dirId = some (txt "d") by simp [oddOps, Op.target, Addr.dirId])
      fun n _ => by simp [new, Supply.numbered, txt]
  exact ⟨hfresh.file, hfresh.dir, hfresh.once⟩

private def deleteMissing : DocOp := .tree (.file (.deleteFile (txt "x.md")))

private theorem run_deleteMissing : deleteMissing.run .plain .plain oddReplica =
    .error (.notFound (txt "x.md")) oddReplica := by rfl

theorem failed_operation_atomic_missing : ∃ d : Doc, ∃ op : DocOp, ∃ e d',
    op.run .plain .plain d = .error e d' ∧ Unharmed .plain d d' :=
  ⟨oddReplica, deleteMissing, _, oddReplica, run_deleteMissing,
    (failed_operation_atomic (by decide +kernel) fresh_oddReplica deleteMissing).mpr
      (by decide +kernel) _ _ run_deleteMissing⟩

private def writeBeside : DocOp := .tree (.file (.writeTextFile (txt "a/x.md") (txt "one")))

private def halfWritten : Doc := oddReplica.after (writeBeside.run .plain .plain)

private theorem run_writeBeside : writeBeside.run .plain .plain oddReplica =
    .error (.other (txt "expected int at deleted_at, got ")) halfWritten := by rfl

/-- **A write that fails and stays**: the file is there, for the next change to take along. -/
theorem failed_operation_atomic_half : ∃ d : Doc, d.root.Nested ∧ d.Fresh ∧ ∃ op : DocOp, ∃ e d',
    op.run .plain .plain d = .error e d' ∧ d.pending = [] ∧ d'.pending ≠ [] ∧
    d.root.listFilePaths .plain = .ok [] ∧
    d'.root.listFilePaths .plain = .ok [txt "a/x.md"] ∧ ¬ Unharmed .plain d d' := by
  refine ⟨oddReplica, by decide +kernel, fresh_oddReplica, writeBeside, _, halfWritten,
    run_writeBeside, by rfl, by decide +kernel, by decide +kernel, by decide +kernel, fun h => ?_⟩
  have hpending := h.pending
  revert hpending
  decide +kernel

end Doc

end AgentSync
