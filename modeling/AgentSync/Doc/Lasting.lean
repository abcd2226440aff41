import AgentSync.Program
import AgentSync.Doc.History

/-! What operations leave alone.

An entry's maps, its kind, its text and its hash are written by the two operations that write a
file and where a restore brings one back. All other writes go elsewhere, so whatever such writes
leave true (`Lasting`) is true after every other operation, failed or not. -/
namespace AgentSync

variable {L : Crates} {A : Automerge}

/-- A register that says what the body of a file is, or an object on the way to one. -/
def Addr.bodily : Addr → Bool
  | rootMap .files | file _ | fileMeta _ | fileField _ .kind | content _ | binaryHash _ => true
  | _ => false

theorem Addr.bodily_of_mem_ancestors {a b : Addr} (h : a ∈ b.ancestors) (hb : b.bodily = true) :
    a.bodily = true := by
  cases b <;> simp [ancestors] at h <;> grind [bodily]

/-- Writes elsewhere leave the bodies. -/
theorem get_bodily_applyAll {r : Root} {ops : List Op} (hops : ∀ op ∈ ops, op.target.bodily = false)
    {b : Addr} (hb : b.bodily = true) : (applyAll r ops).get b = r.get b := by
  refine get_applyAll_of_ne fun op hop => ⟨fun heq => ?_, fun hanc => ?_⟩
  · rw [← heq, hops op hop] at hb
    cases hb
  · have h := Addr.bodily_of_mem_ancestors hanc hb
    rw [hops op hop] at h
    cases h

namespace Doc

/-- What drawing, closing the transaction and writing elsewhere leave true. -/
structure Lasting (P : Doc → Prop) : Prop where
  draw : ∀ {d n}, P d → d.draws ≤ n → P {d with draws := n}
  commit : ∀ {d} time, P d → P (d.committed time)
  emit : ∀ {d ops}, P d → (∀ op ∈ ops, op.target.bodily = false) → P (d.emitted ops)

variable {P : Doc → Prop}

theorem read_leads {α : Type} {d : Doc} {f : Root → Except Error α} {Q : α → Doc → Prop}
    {E : Doc → Prop} (hok : ∀ a, f d.root = .ok a → Q a d) (hfail : E d) :
    Program.Leads (Doc.read f) d Q E := by
  unfold Program.Leads Doc.read
  cases h : f d.root with
  | ok a => exact hok a h
  | error e => exact hfail

theorem read_lasts {α : Type} (f : Root → Except Error α) : Program.Keeps P (Doc.read f) :=
  fun _ hd => read_leads (fun _ _ => hd) hd

theorem ask_lasts {α : Type} (f : Root → α) : Program.Keeps P (ask f) := read_lasts _

theorem lift_lasts {α : Type} (x : Except Error α) : Program.Keeps P (Doc.lift x) := read_lasts _

namespace Lasting

variable (hP : Lasting P)

include hP

theorem nowMs : Program.Keeps P Doc.nowMs := fun _ hd => hP.draw hd (Nat.le_succ _)

theorem newId : Program.Keeps P Doc.newId := fun _ hd => hP.draw hd (Nat.le_succ _)

theorem commitNow : Program.Keeps P Doc.commitNow := fun _ hd => hP.commit _ (hP.draw hd (Nat.le_succ _))

theorem heads : Program.Keeps P Doc.heads := fun _ hd => hP.commit 0 hd

theorem record {ops : List Op} (hops : ∀ op ∈ ops, op.target.bodily = false) :
    Program.Keeps P (Doc.emit ops) := fun _ hd => hP.emit hd hops

/-! ### Directories -/

theorem ensureDirectory (now : Int) (p : Str) : Program.Keeps P (Doc.ensureDirectory L now p) := by
  refine .bind (read_lasts _) fun found => ?_
  cases found with
  | some _ => exact .pure _
  | none =>
    exact .bind (read_lasts _) fun _ => .bind hP.newId fun _ => .bind (read_lasts _) fun _ =>
      hP.record (by simp [Op.target, Addr.bodily])

theorem ensureAncestorDirectories (p : Str) : Program.Keeps P (Doc.ensureAncestorDirectories L p) :=
  .bind hP.nowMs fun now => .forM (fun q => hP.ensureDirectory now q) _

theorem createDirectory (path : Str) : Program.Keeps P (Doc.createDirectory L path) := by
  refine .bind (lift_lasts _) fun path => .bind (read_lasts _) fun found => ?_
  cases found with
  | some did => exact .pure _
  | none =>
    exact .bind (read_lasts _) fun _ => .bind hP.newId fun _ => .bind (read_lasts _) fun _ =>
      .bind hP.nowMs fun _ => .bind (hP.record (by simp [Op.target, Addr.bodily])) fun _ =>
      .bind (hP.ensureAncestorDirectories path) fun _ => .bind hP.commitNow fun _ => .pure _

theorem markDirectory (now : Int) (did : Str) : Program.Keeps P (Doc.markDirectory L now did) :=
  .bind (ask_lasts _) fun _ => .ite (.bind (read_lasts _) fun _ =>
    hP.record (by simp [Op.target, Addr.bodily])) (.pure _)

/-! ### Files -/

theorem deleteFile (path : Str) : Program.Keeps P (Doc.deleteFile L path) := by
  refine .bind (lift_lasts _) fun path => .bind (read_lasts _) fun found => ?_
  cases found with
  | none => exact .throw _
  | some fid =>
    exact .bind hP.nowMs fun _ => .bind (hP.record (by simp [Op.target, Addr.bodily]))
      fun _ => hP.commitNow

theorem renameFile (src dst : Str) : Program.Keeps P (Doc.renameFile L src dst) := by
  refine .bind (lift_lasts _) fun src => .bind (lift_lasts _) fun dst => .ite (.pure _) ?_
  refine .bind (read_lasts _) fun found => ?_
  cases found with
  | none => exact .throw _
  | some fid =>
    refine .bind (read_lasts _) fun found => ?_
    cases found with
    | some _ => exact .throw _
    | none =>
      exact .bind hP.nowMs fun _ => .bind (hP.record (by simp [Op.target, Addr.bodily])) fun _ =>
        .bind (hP.ensureAncestorDirectories dst) fun _ => hP.commitNow

/-! ### Whole directories -/

theorem deleteChildren (now : Int) (files dirs : List Str) (recursive : Bool) :
    Program.Keeps P (Doc.deleteChildren L now files dirs recursive) :=
  .ite (.bind (.forM (fun path => hP.deleteFile path) files) fun _ => .bind (read_lasts _) fun _ =>
    .forM (fun did => hP.markDirectory now did) dirs) (.pure _)

theorem deleteDirectory (path : Str) (recursive : Bool) :
    Program.Keeps P (Doc.deleteDirectory L path recursive) := by
  refine .bind (lift_lasts _) fun path => .bind hP.nowMs fun now => .bind (read_lasts _)
    fun files => .bind (read_lasts _) fun dirs => .ite (.throw _) ?_
  refine .bind (hP.deleteChildren now files dirs recursive) fun _ => .bind (read_lasts _)
    fun found => ?_
  cases found with
  | some did => exact .bind (hP.markDirectory now did) fun _ => hP.commitNow
  | none => exact hP.commitNow

theorem moveDirectory (src dst did : Str) : Program.Keeps P (Doc.moveDirectory L src dst did) := by
  refine .bind (ask_lasts _) fun _ => .ite (.pure _) (.bind (read_lasts _) fun _ =>
    .ite (.pure _) (.bind (read_lasts _) fun found => ?_))
  cases found with
  | none => exact .pure _
  | some p => exact .ite (hP.record (by simp [Op.target, Addr.bodily])) (.pure _)

theorem moveFile (src dst : Str) (now : Int) (fid : Str) :
    Program.Keeps P (Doc.moveFile L src dst now fid) := by
  refine .bind (ask_lasts _) fun _ => .ite (.pure _) (.bind (ask_lasts _) fun _ =>
    .ite (.pure _) (.bind (read_lasts _) fun _ => .ite (.pure _) (.bind (read_lasts _)
    fun found => ?_)))
  cases found with
  | none => exact .pure _
  | some p => exact .ite (hP.record (by simp [Op.target, Addr.bodily])) (.pure _)

theorem renameDirectory (src dst : Str) : Program.Keeps P (Doc.renameDirectory L src dst) := by
  refine .bind (lift_lasts _) fun src => .bind (lift_lasts _) fun dst => .ite (.pure _)
    (.bind hP.nowMs fun now => .bind (read_lasts _) fun found => ?_)
  have htail : Program.Keeps P (do
      Doc.read (Root.mapObj · .directories)
      (← ask Root.dirKeys).forM (Doc.moveDirectory L src dst)
      Doc.read (Root.mapObj · .files)
      (← ask Root.fileKeys).forM (Doc.moveFile L src dst now)
      Doc.ensureAncestorDirectories L dst
      Doc.commitNow) :=
    .bind (read_lasts _) fun _ => .bind (ask_lasts _) fun _ =>
      .bind (.forM (fun did => hP.moveDirectory src dst did) _) fun _ =>
      .bind (read_lasts _) fun _ => .bind (ask_lasts _) fun _ =>
      .bind (.forM (fun fid => hP.moveFile src dst now fid) _) fun _ =>
      .bind (hP.ensureAncestorDirectories dst) fun _ => hP.commitNow
  cases found with
  | none => exact htail
  | some did =>
    exact .bind (ask_lasts _) fun _ => .ite
      (.bind (hP.record (by simp [Op.target, Addr.bodily])) fun _ => htail) htail

/-! ### Labels and restoring -/

theorem createLabel (label : Str) : Program.Keeps P (Doc.createLabel L label) :=
  .bind (read_lasts _) fun _ => .bind hP.heads fun _ => .bind (read_lasts _) fun _ =>
    .bind hP.nowMs fun _ => .bind (hP.record (by simp [Op.target, Addr.bodily]))
    fun _ => hP.commitNow

theorem deleteLabel (label : Str) : Program.Keeps P (Doc.deleteLabel L label) :=
  .bind (read_lasts _) fun _ => .bind (read_lasts _) fun _ =>
    .bind (hP.record (by simp [Op.target, Addr.bodily])) fun _ => hP.commitNow

theorem killFile (now : Int) (past : List FileMeta) (fid : Str) :
    Program.Keeps P (Doc.killFile L now past fid) :=
  .bind (read_lasts _) fun _ => .ite (.bind (read_lasts _) fun _ => .bind (ask_lasts _) fun _ =>
    .ite (.bind (ask_lasts _) fun _ => .ite (hP.record (by simp [Op.target, Addr.bodily]))
      (.pure _)) (.pure _)) (.pure _)

theorem killDirectory (now : Int) (past : List DirectoryMeta) (did : Str) :
    Program.Keeps P (Doc.killDirectory L now past did) := by
  refine .bind (read_lasts _) fun _ => .bind (ask_lasts _) fun isThere => ?_
  have htail (alive : Bool) : Program.Keeps P (if (alive && !past.any fun m => m.id = did &&
      m.deletedAt.isNone) = true then Doc.markDirectory L now did else pure ()) :=
    .ite (hP.markDirectory now did) (.pure _)
  exact .ite (.bind (read_lasts _) fun n => .bind (.pure _) fun alive => htail alive)
    (.bind (.pure false) fun alive => htail alive)

theorem restoreDirectory (m : DirectoryMeta) : Program.Keeps P (Doc.restoreDirectory L m) := by
  refine .ite (.pure _) (.bind (read_lasts _) fun _ => .bind (read_lasts _) fun _ =>
    .bind (ask_lasts _) fun r => hP.record ?_)
  rw [List.forall_mem_append]
  constructor
  · split <;> simp [Op.target, Addr.bodily]
  · simp [Op.target, Addr.bodily]

/-- The four loops, given the one that writes bodies. -/
theorem restoreEntries {now : Int} {files : List FileMeta} {text : Str → Str}
    (hfile : ∀ m ∈ files, Program.Keeps P (Doc.restoreFile L now text m)) (dirs : List DirectoryMeta) :
    Program.Keeps P (Doc.restoreEntries L now files dirs text) :=
  .bind (read_lasts _) fun _ => .bind (read_lasts _) fun _ => .bind (ask_lasts _) fun _ =>
    .bind (ask_lasts _) fun _ => .bind (.forM (fun fid => hP.killFile now files fid) _) fun _ =>
    .bind (.forM_of_mem hfile) fun _ =>
    .bind (.forM (fun did => hP.killDirectory now dirs did) _) fun _ =>
    .bind (.forM (fun m => hP.restoreDirectory m) _) fun _ => hP.commitNow

theorem headsAtTime (target : Int) : Program.Keeps P (Doc.headsAtTime target) :=
  .bind hP.heads fun _ _ hd => hd

end Lasting

/-! ### Changes -/

/-- The history has more than `n` changes, or will have when the transaction is closed. -/
def Noted (n : Nat) (d : Doc) : Prop :=
  n ≤ d.changes.length ∧ (d.pending ≠ [] ∨ n < d.changes.length)

theorem Noted.emitted {n : Nat} {d : Doc} {ops : List Op} (h : n ≤ d.changes.length)
    (hops : ops ≠ []) : Noted n (d.emitted ops) :=
  ⟨h, .inl fun hnil => hops (List.append_eq_nil_iff.mp hnil).2⟩

theorem Noted.committed {n : Nat} {d : Doc} (h : Noted n d) (time : Int) :
    n < (d.committed time).changes.length := by
  obtain ⟨hle, hmore⟩ := h
  unfold Doc.committed
  split
  next hnil => exact hmore.resolve_left fun hne => hne hnil
  next =>
    rw [List.length_append]
    exact Nat.lt_succ_of_le hle

theorem lasting_noted (n : Nat) : Lasting (Noted n) where
  draw h _ := h
  commit time h := ⟨(h.committed time).le, .inr (h.committed time)⟩
  emit h _ := ⟨h.1, h.2.imp_left fun hne hnil => hne (List.append_eq_nil_iff.mp hnil).1⟩

/-- Closing the transaction, which is not empty. -/
theorem Noted.closed {α : Type} {n : Nat} {d : Doc} (h : Noted n d) (a : α) :
    Program.Leads (do Doc.commitNow; return a : DocM α) d
      (fun _ d' => n < d'.changes.length) (fun _ => True) := by
  have hdrawn : Noted n {d with draws := d.draws + 1} := h
  exact .bind (.of_ok rfl (.pure (hdrawn.committed _)))

/-- The entry of a new file is a change, with the directories it is in. -/
theorem Noted.created {α : Type} {n : Nat} {d : Doc} (h : Noted n d) (path : Str) (a : α) :
    Program.Leads (do Doc.ensureAncestorDirectories L path; Doc.commitNow; return a : DocM α) d
      (fun _ d' => n < d'.changes.length) (fun _ => True) :=
  .bind (((lasting_noted n).ensureAncestorDirectories path d h).weaken
    (fun _ _ h' => h'.closed a) fun _ _ => trivial)

/-- **A file that is written is a change more**, even with what it had before. -/
theorem writeTextFile_grows (path content : Str) (d : Doc) :
    Program.Leads (Doc.writeTextFile L path content) d
      (fun _ d' => d.changes.length < d'.changes.length) (fun _ => True) := by
  refine .bind (read_leads (fun path _ => .bind (.of_ok rfl ?_)) trivial)
  refine .bind (read_leads (fun found _ => ?_) trivial)
  cases found with
  | some fid =>
    refine .bind (read_leads (fun current _ => .bind (.of_ok rfl ?_)) trivial)
    exact (Noted.emitted (Nat.le_refl _) (by simp)).closed fid
  | none =>
    refine .bind (read_leads (fun _ _ => .bind (.of_ok rfl ?_)) trivial)
    refine .bind (read_leads (fun _ _ => .bind (.of_ok rfl ?_)) trivial)
    exact (Noted.emitted (Nat.le_refl _) (by simp)).created _ _

theorem writeAttachment_grows (path hash : Str) (size : Int) (d : Doc) :
    Program.Leads (Doc.writeAttachment L path hash size) d
      (fun _ d' => d.changes.length < d'.changes.length) (fun _ => True) := by
  refine .bind (read_leads (fun path _ => .bind (.of_ok rfl ?_)) trivial)
  refine .bind (read_leads (fun found _ => ?_) trivial)
  cases found with
  | some fid =>
    refine .bind (.of_ok rfl ?_)
    exact (Noted.emitted (Nat.le_refl _) (by simp)).closed fid
  | none =>
    refine .bind (read_leads (fun _ _ => .bind (.of_ok rfl ?_)) trivial)
    refine .bind (read_leads (fun _ _ => .bind (.of_ok rfl ?_)) trivial)
    exact (Noted.emitted (Nat.le_refl _) (by simp)).created _ _

end Doc

end AgentSync
