import AgentSync.Doc.Lasting
import AgentSync.Doc.Deleting

/-! What leaves a file where it is.

A file is live at a path by four registers of its entry. Deletes and renames write two of them, in
the entry that a lookup has found at the path they are given; every other operation leaves them, or
takes a tombstone away. So a file stays at its path through every call that is not told to delete
or to move what is there (`Stays`), failed or not, whatever else the document holds. -/
namespace AgentSync

open Program

variable {L : Crates} {A : Automerge} {fid p : Str}

/-- A register that a file is found by, or an object on the way to one. -/
def Addr.places (fid : Str) : Addr → Bool
  | rootMap .files => true
  | file f | fileMeta f | fileField f .path | fileField f .deletedAt => f = fid
  | _ => false

theorem Addr.places_of_mem_ancestors {a b : Addr} (h : a ∈ b.ancestors)
    (hb : b.places fid = true) : a.places fid = true := by
  cases b with
  | fileField f k => cases k <;> simp [ancestors] at h <;> grind [places]
  | _ => simp [ancestors] at h <;> grind [places]

/-- A write that leaves a file where it is. -/
def Op.Spares (fid : Str) (op : Op) : Prop :=
  op.target.places fid = true → op = .delete (.fileField fid .deletedAt)

namespace Root

variable {r : Root} {op : Op}

/-- A file that is found at a path, in a document whose files can be looked for. -/
structure Standing (L : Crates) (fid p : Str) (r : Root) : Prop where
  files : r.mapObj .files = .ok ()
  look : r.lookFile L fid = .ok (some p)

theorem Standing.congr {r' : Root} (h : r.Standing L fid p)
    (hsame : ∀ b : Addr, b.places fid = true → r'.get b = r.get b) : r'.Standing L fid p := by
  obtain ⟨hfile, hmeta, hdeleted, hpath⟩ := lookFile_eq_some h.look
  refine ⟨?_, ?_⟩
  · rw [mapObj_congr (hsame (.rootMap .files) rfl), h.files]
  · rw [lookFile, hasObject_congr (hsame (.file fid) (by simp [Addr.places])),
      hasObject_congr (hsame (.fileMeta fid) (by simp [Addr.places])),
      getInt_congr (hsame (.fileField fid .deletedAt) (by simp [Addr.places])),
      getStr_congr (hsame (.fileField fid .path) (by simp [Addr.places])), hfile, hmeta, hdeleted,
      hpath]
    rfl

theorem Standing.apply (h : r.Standing L fid p) (hop : op.Spares fid) :
    (op.apply r).Standing L fid p := by
  by_cases hplaces : op.target.places fid = true
  · -- The tombstone goes, if there is one.
    obtain rfl := hop hplaces
    obtain ⟨hfile, hmeta, hdeleted, hpath⟩ := lookFile_eq_some h.look
    have hget (b : Addr) (hb : b ≠ .fileField fid .deletedAt)
        (hanc : Addr.fileField fid .deletedAt ∉ b.ancestors) :
        (Op.apply r (.delete (.fileField fid .deletedAt))).get b = r.get b :=
      get_apply_of_ne r _ (Ne.symm hb) hanc
    have hnone : (Op.apply r (.delete (.fileField fid .deletedAt))).get
        (.fileField fid .deletedAt) = none := by
      simp [Op.apply]
    refine ⟨?_, ?_⟩
    · rw [mapObj_congr (hget (.rootMap .files) (by simp) (by simp [Addr.ancestors])), h.files]
    · rw [lookFile, hasObject_congr (hget (.file fid) (by simp) (by simp [Addr.ancestors])),
        hasObject_congr (hget (.fileMeta fid) (by simp) (by simp [Addr.ancestors])),
        getInt_of_none hnone,
        getStr_congr (hget (.fileField fid .path) (by simp) (by simp [Addr.ancestors])), hfile,
        hmeta, hpath]
      rfl
  · refine h.congr fun b hb => get_apply_of_ne r op ?_ fun hanc => ?_
    · rintro rfl
      exact hplaces hb
    · exact hplaces (Addr.places_of_mem_ancestors hanc hb)

theorem Standing.applyAll {ops : List Op} (h : r.Standing L fid p)
    (hops : ∀ op ∈ ops, op.Spares fid) : (applyAll r ops).Standing L fid p := by
  induction ops generalizing r with
  | nil => exact h
  | cons op rest ih =>
    exact ih (h.apply (hops op List.mem_cons_self)) fun op' hop' =>
      hops op' (List.mem_cons_of_mem _ hop')

/-- A file is live at a path, and is found there. -/
def LiveAt (L : Crates) (p : Str) (r : Root) : Prop :=
  ∃ fid, r.findFileByPathNormalized L p = .ok (some fid)

/-- In a sound document a lookup finds it, or another file at the path. -/
theorem Standing.liveAt (h : r.Standing L fid p) (htyped : r.Typed L.nfc) :
    r.LiveAt L p := by
  have hlook (id : Str) : ∃ o, r.lookFile L id = .ok o := by
    obtain ⟨t, ht⟩ := htyped.getInt (L := L) (a := .fileField id .deletedAt) rfl fun _ h => h
    have hpath : ∃ o, r.getStr L (.fileField id .path) = .ok o := by
      obtain ⟨-, hp⟩ | ⟨q, hq⟩ := htyped.getStr (L := L) (a := .fileField id .path) rfl
        fun v ⟨q, hq, _⟩ => ⟨q, hq⟩
      · exact ⟨none, hp⟩
      · exact ⟨some q, hq⟩
    obtain ⟨o, ho⟩ := hpath
    unfold lookFile
    split
    next => exact ⟨none, rfl⟩
    next =>
      split
      next => exact ⟨none, rfl⟩
      next =>
        rw [ht]
        cases t with
        | some t => exact ⟨none, rfl⟩
        | none => exact ⟨o, ho⟩
  have hscan : r.findFileByPathNormalized L p = scan (r.lookFile L) p r.fileKeys := by
    rw [findFileByPathNormalized, h.files]
    exact findFileIn_eq_scan p r.fileKeys
  obtain ⟨o, ho⟩ := @scan_ok p (r.lookFile L) r.fileKeys fun id _ => hlook id
  rw [LiveAt, hscan, ho]
  cases o with
  | some fid' => exact ⟨fid', rfl⟩
  | none =>
    obtain ⟨o', ho', hne⟩ := scan_eq_none.mp ho fid (mem_fileKeys_of_look h.look)
    exact absurd (Except.ok.inj (ho'.symm.trans h.look)) hne

/-- What a lookup has found. -/
theorem standing_of_find (h : r.findFileByPathNormalized L p = .ok (some fid)) :
    r.Standing L fid p := by
  obtain ⟨_, hfiles, h⟩ := AgentSync.bind_eq_ok.mp h
  rw [findFileIn_eq_scan] at h
  exact ⟨hfiles, (scan_eq_some h).2⟩

end Root

namespace Doc

/-- A file that is live at a path, and whose id is not drawn again. -/
structure Stays (L : Crates) (fid p : Str) (d : Doc) : Prop where
  standing : d.root.Standing L fid p
  once : ∀ n, d.draws ≤ n → d.supply.id n ≠ fid

namespace Stays

variable {d : Doc}

theorem drawn (h : d.Stays L fid p) {n : Nat} (hn : d.draws ≤ n) :
    {d with draws := n}.Stays L fid p := ⟨h.standing, fun m hm => h.once m (hn.trans hm)⟩

theorem committed (h : d.Stays L fid p) (time : Int) : (d.committed time).Stays L fid p := by
  unfold Doc.committed
  split
  · exact h
  · exact ⟨h.standing, fun n hn => h.once n (Nat.le_of_succ_le hn)⟩

theorem emitted {ops : List Op} (h : d.Stays L fid p) (hops : ∀ op ∈ ops, op.Spares fid) :
    (d.emitted ops).Stays L fid p := ⟨h.standing.applyAll hops, h.once⟩

/-! ### The pieces -/

theorem nowMs : Program.Keeps (Stays L fid p) Doc.nowMs := fun _ hd => hd.drawn (Nat.le_succ _)

theorem commitNow : Program.Keeps (Stays L fid p) Doc.commitNow :=
  fun _ hd => (hd.drawn (Nat.le_succ _)).committed _

theorem emit {ops : List Op} (hops : ∀ op ∈ ops, op.Spares fid) :
    Program.Keeps (Stays L fid p) (Doc.emit ops) := fun _ hd => hd.emitted hops

theorem lift_bind {α β : Type} {x : Except Error α} {f : α → DocM β}
    (hf : ∀ a, x = .ok a → Program.Keeps (Stays L fid p) (f a)) :
    Program.Keeps (Stays L fid p) (Doc.lift x >>= f) :=
  fun _ hd => .bind (read_leads (fun a ha => hf a ha _ hd) hd)

/-- A new entry is another. -/
theorem newId_bind {α : Type} {f : Str → DocM α}
    (hf : ∀ id, id ≠ fid → Program.Keeps (Stays L fid p) (f id)) :
    Program.Keeps (Stays L fid p) (Doc.newId >>= f) := fun _ hd =>
  .bind (hf _ (hd.once _ (Nat.le_refl _)) _ (hd.drawn (Nat.le_succ _)))

/-- What a lookup finds at another path is another file. -/
theorem find_bind {α : Type} {q : Str} (hq : q ≠ p) {f : Option Str → DocM α}
    (hnone : Program.Keeps (Stays L fid p) (f none))
    (hsome : ∀ id, id ≠ fid → Program.Keeps (Stays L fid p) (f (some id))) :
    Program.Keeps (Stays L fid p) (Doc.read (Root.findFileByPathNormalized L · q) >>= f) := by
  refine fun d hd => .bind (read_leads (fun found hfind => ?_) hd)
  cases found with
  | none => exact hnone d hd
  | some id =>
    refine hsome id ?_ d hd
    rintro rfl
    have hlook := (Root.standing_of_find hfind).look
    rw [hd.standing.look] at hlook
    exact hq (Option.some.inj (Except.ok.inj hlook)).symm

/-! ### Directories -/

theorem ensureDirectory (now : Int) (q : Str) :
    Program.Keeps (Stays L fid p) (Doc.ensureDirectory L now q) := by
  refine .bind (read_lasts _) fun found => ?_
  cases found with
  | some _ => exact .pure _
  | none =>
    exact .bind (read_lasts _) fun _ => newId_bind fun id _ => .bind (read_lasts _) fun _ =>
      emit (by simp [Op.Spares, Op.target, Addr.places])

theorem ensureAncestorDirectories (q : Str) :
    Program.Keeps (Stays L fid p) (Doc.ensureAncestorDirectories L q) :=
  .bind nowMs fun now => .forM (fun a => ensureDirectory now a) _

theorem createDirectory (path : Str) : Program.Keeps (Stays L fid p) (Doc.createDirectory L path) := by
  refine .bind (lift_lasts _) fun path => .bind (read_lasts _) fun found => ?_
  cases found with
  | some did => exact .pure _
  | none =>
    exact .bind (read_lasts _) fun _ => newId_bind fun id _ => .bind (read_lasts _) fun _ =>
      .bind nowMs fun _ => .bind (emit (by simp [Op.Spares, Op.target, Addr.places])) fun _ =>
      .bind (ensureAncestorDirectories path) fun _ => .bind commitNow fun _ => .pure _

theorem markDirectory (now : Int) (did : Str) :
    Program.Keeps (Stays L fid p) (Doc.markDirectory L now did) :=
  .bind (ask_lasts _) fun _ => .ite (.bind (read_lasts _) fun _ =>
    emit (by simp [Op.Spares, Op.target, Addr.places])) (.pure _)

/-! ### Files -/

theorem setTextOps_spares (id content : Str) (current : Option Str) :
    ∀ op ∈ setTextOps id content current, op.Spares fid := by
  intro op hop
  unfold setTextOps textOps at hop
  split at hop <;> split at hop <;> simp at hop <;> grind [Op.Spares, Op.target, Addr.places]

/-- What an operation writes to a file that is there, but to its path and its tombstone. -/
theorem fields_spare (id : Str) (ops : List Op) (hops : ∀ op ∈ ops, op.Spares fid) :
    ∀ op ∈ ops ++ [Op.delete (.fileField id .deletedAt)], op.Spares fid := by
  intro op hop
  obtain hop | hop := List.mem_append.mp hop
  · exact hops op hop
  · obtain rfl := List.mem_singleton.mp hop
    intro hplaces
    simp only [Op.target, Addr.places, decide_eq_true_eq] at hplaces
    rw [hplaces]

theorem writeTextFile (path content : Str) :
    Program.Keeps (Stays L fid p) (Doc.writeTextFile L path content) := by
  refine .bind (lift_lasts _) fun path => .bind nowMs fun now => .bind (read_lasts _)
    fun found => ?_
  cases found with
  | some id =>
    refine .bind (ask_lasts _) fun current => .bind (emit ?_) fun _ => .bind commitNow
      fun _ => .pure _
    rw [List.forall_mem_append]
    exact ⟨setTextOps_spares id content current, fields_spare id
      [.put (.fileField id .size) _, .put (.fileField id .updatedAt) _,
        .put (.fileField id .kind) _] (by simp [Op.Spares, Op.target, Addr.places])⟩
  | none =>
    refine .bind (read_lasts _) fun _ => newId_bind fun id hid => .bind (read_lasts _) fun _ =>
      .bind (emit ?_) fun _ => .bind (ensureAncestorDirectories path) fun _ => .bind commitNow
      fun _ => .pure _
    rw [List.forall_mem_append]
    refine ⟨by simp [Op.Spares, Op.target, Addr.places, hid], ?_⟩
    exact setTextOps_spares id content none

theorem writeAttachment (path hash : Str) (size : Int) :
    Program.Keeps (Stays L fid p) (Doc.writeAttachment L path hash size) := by
  refine .bind (lift_lasts _) fun path => .bind nowMs fun now => .bind (read_lasts _)
    fun found => ?_
  cases found with
  | some id =>
    refine .bind (emit ?_) fun _ => .bind commitNow fun _ => .pure _
    exact fields_spare id [.put (.binaryHash id) _, .put (.fileField id .kind) _,
      .put (.fileField id .size) _, .put (.fileField id .updatedAt) _]
      (by simp [Op.Spares, Op.target, Addr.places])
  | none =>
    exact .bind (read_lasts _) fun _ => newId_bind fun id hid => .bind (read_lasts _) fun _ =>
      .bind (emit (by simp [Op.Spares, Op.target, Addr.places, hid])) fun _ =>
      .bind (ensureAncestorDirectories path) fun _ => .bind commitNow fun _ => .pure _

/-- Deleting what is at another path. -/
theorem deleteFile {path : Str} (hpath : Path.normalize L.nfc path ≠ .ok p) :
    Program.Keeps (Stays L fid p) (Doc.deleteFile L path) := by
  refine lift_bind fun q hq => find_bind (fun heq : q = p => hpath (heq ▸ hq)) (.throw _)
    fun id hid => ?_
  exact .bind nowMs fun _ => .bind (emit (by simp [Op.Spares, Op.target, Addr.places, hid]))
    fun _ => commitNow

theorem renameFile {src dst : Str} (hsrc : Path.normalize L.nfc src ≠ .ok p) :
    Program.Keeps (Stays L fid p) (Doc.renameFile L src dst) := by
  refine lift_bind fun q hq => .bind (lift_lasts _) fun dst => .ite (.pure _)
    (find_bind (fun heq : q = p => hsrc (heq ▸ hq)) (.throw _) fun id hid => ?_)
  refine .bind (read_lasts _) fun found => ?_
  cases found with
  | some _ => exact .throw _
  | none =>
    exact .bind nowMs fun _ => .bind (emit (by simp [Op.Spares, Op.target, Addr.places, hid]))
      fun _ => .bind (ensureAncestorDirectories dst) fun _ => commitNow

/-! ### Whole directories -/

theorem deleteChildren {now : Int} {files dirs : List Str} {recursive : Bool}
    (hfiles : ∀ path ∈ files, Path.normalize L.nfc path ≠ .ok p) :
    Program.Keeps (Stays L fid p) (Doc.deleteChildren L now files dirs recursive) :=
  .ite (.bind (.forM_of_mem fun path hpath => deleteFile (hfiles path hpath)) fun _ =>
    .bind (read_lasts _) fun _ => .forM (fun did => markDirectory now did) dirs) (.pure _)

/-- Paths that are listed are normalized, so the deletes of a cascade are of what lies below. -/
theorem childFiles_ne {r : Root} (hr : r.Typed L.nfc) {q : Str} (hq : Root.child q p = false)
    {files : List Str} (h : childFiles L q r = .ok files) :
    ∀ path ∈ files, Path.normalize L.nfc path ≠ .ok p := by
  intro path hpath heq
  obtain ⟨ids, -, -, hids, hlooks⟩ := childFiles_looks h
  obtain ⟨id, hid, hlook⟩ := hlooks path hpath
  obtain ⟨path', hlook', hchild⟩ := (hids id).mp hid
  obtain rfl := Option.some.inj (Except.ok.inj (hlook.symm.trans hlook'))
  obtain ⟨-, -, -, hstr⟩ := Root.lookFile_eq_some hlook
  obtain ⟨path', hval, hnorm⟩ := hr _ _ rfl (Root.getStr_eq_some.mp hstr)
  obtain rfl : path = path' := by simpa using hval
  obtain rfl : path = p := Except.ok.inj (hnorm.symm.trans heq)
  rw [hq] at hchild
  cases hchild

theorem deleteDirectory {d : Doc} (hd : d.Stays L fid p) (hsound : d.Sound L.nfc A) {path : Str}
    (hpath : ∀ q, Path.normalize L.nfc path = .ok q → Root.child q p = false) (recursive : Bool) :
    Leads (Doc.deleteDirectory L path recursive) d (fun _ => Stays L fid p) (Stays L fid p) := by
  -- What is below the path is listed before anything is written.
  have hd' : {d with draws := d.draws + 1}.Stays L fid p := hd.drawn (Nat.le_succ _)
  refine .bind (read_leads (fun q hq => .bind (Leads.of_ok rfl (.bind ?_))) hd)
  refine read_leads (fun files hfiles => ?_) hd'
  have hne := childFiles_ne hsound.rootTyped (hpath q hq) hfiles
  refine Program.Keeps.bind (read_lasts _) (fun dirs => .ite (.throw _) (.bind (deleteChildren hne)
    fun _ => .bind (read_lasts _) fun found => ?_)) _ hd'
  cases found with
  | some did => exact .bind (markDirectory _ did) fun _ => commitNow
  | none => exact commitNow

end Stays

end Doc

end AgentSync
