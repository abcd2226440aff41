import AgentSync.Doc.Records
import AgentSync.Fs.Guarding

/-! Scanning a tree that is synced.

The whole tree is scanned when a directory is bound and when what is ignored changes. A file that
the document has as text, just as it is on the disk, is passed over. Any other is attached or
written once more whenever the scan comes to it, though the document has its bytes: so a scan
changes nothing exactly when every file of the tree is held as text (`scan_synced`). -/
namespace AgentSync

open Program

variable {σ : Type} {V : Watching σ} {fs : σ} {s : SyncIgnoreSet} {d : Doc}

/-- The document has the bytes at the path: as text, or by their hash as an attachment. -/
def Doc.Holds (L : Crates) (d : Doc) (path : Str) (bytes : Bytes) : Prop :=
  (∃ text, d.root.readFile L path = .ok text ∧ bytes = utf8 text) ∨
    ∃ fid m, d.root.findFileByPathNormalized L path = .ok (some fid) ∧
      d.root.readFileMeta L fid = .ok (some m) ∧ m.kind = .attachment ∧
      m.binaryHash = some (L.sha.hash bytes)

namespace Watching

/-- A walk comes to a file of the path, which is allowed. -/
def HasFile (V : Watching σ) (fs : σ) (s : SyncIgnoreSet) (top : PathBuf) (path : Str) : Prop :=
  ∃ e ∈ V.walk fs top, e.kind = .file ∧ V.fsPathToVaultPath s e.path = some path

def HasDirectory (V : Watching σ) (fs : σ) (s : SyncIgnoreSet) (top : PathBuf) (path : Str) :
    Prop :=
  ∃ e ∈ V.walk fs top, e.kind = .dir ∧ V.fsPathToVaultDirPath s e.path = some path

/-- The allowed files and directories of the tree are those that are live, with the bytes that
the document has. -/
structure Mirrors (V : Watching σ) (fs : σ) (s : SyncIgnoreSet) (d : Doc) : Prop where
  file : ∀ top path, V.HasFile fs s top path → ∃ bytes,
    V.adapter.read fs (V.vaultPathToFsPath path) = .ok bytes ∧
      V.opts.overSize path bytes.length = false ∧ d.Holds V.crates path bytes
  directory : ∀ top path, V.HasDirectory fs s top path →
    ∃ did, d.root.findDirectoryByPath V.crates path = .ok (some did)
  liveFile : ∀ path fid, d.root.findFileByPathNormalized V.crates path = .ok (some fid) →
    V.HasFile fs s V.root path
  liveDirectory : ∀ path did,
    d.root.findDirectoryByPathNormalized V.crates path = .ok (some did) →
      V.HasDirectory fs s V.root path

/-- A file of text, which the document has as it is. -/
def heldAsText (V : Watching σ) (d : Doc) (path : Str) (bytes : Bytes) : Bool :=
  V.opts.isTextExtension path &&
    (fromUtf8 bytes).any fun text => d.root.readFile V.crates path = .ok text

/-- Every file of the tree is held as text. -/
def Textual (V : Watching σ) (fs : σ) (s : SyncIgnoreSet) (d : Doc) : Prop :=
  ∀ path bytes, V.HasFile fs s V.root path →
    V.adapter.read fs (V.vaultPathToFsPath path) = .ok bytes → V.heldAsText d path bytes = true

/-! ### One file -/

/-- The disk stays as it is, and no other write than these is left to report. -/
structure Steady (fs : σ) (s : SyncIgnoreSet) (marks : DirtySet) (w : Watch σ) : Prop where
  ignores : w.ignores = s
  disk : ∀ n, (w.ahead n).1 = fs
  dirty : w.bound.dirty ⊆ marks

/-- One of the marks is of a write of these bytes. -/
def MarkedAs (V : Watching σ) (marks : DirtySet) (path : Str) (bytes : Bytes) : Prop :=
  ∃ m ∈ marks, m.path = path ∧ m.hash = V.crates.sha.hash bytes

/-- What a call has done so far for a file of these bytes, from the document `d` on. -/
def Sure (V : Watching σ) (path : Str) (bytes : Bytes) (d : Doc) (marks : DirtySet)
    (b : Bound σ) : Ingest → Prop
  | .reading | .settling => b.doc = d
  | .peeking => b.doc = d ∧ bytes = []
  | .loaded x => b.doc = d ∧ x = bytes
  | .comparing text _ =>
    b.doc = d ∧ V.opts.isTextExtension path = true ∧ fromUtf8 bytes = some text
  | .writing _ _ | .storing _ | .attaching _ _ => b.doc = d ∧ V.heldAsText d path bytes = false
  | .recording _ | .recorded _ =>
    V.heldAsText d path bytes = false ∧ d.changes.length < b.doc.changes.length
  | .done (.ok _) => (V.heldAsText d path bytes = true → b.doc = d) ∧
      (V.heldAsText d path bytes = false →
        V.MarkedAs marks path bytes ∧ b.doc = d ∨ d.changes.length < b.doc.changes.length)
  | .done (.error _) => V.heldAsText d path bytes = false

variable {path : Str} {bytes : Bytes} {marks : DirtySet} {b b' : Bound σ} {i i' : Ingest}
  {w : Watch σ}

theorem sure_check (hsize : V.opts.overSize path bytes.length = false)
    (hdirty : b.dirty ⊆ marks) (hdoc : b.doc = d)
    (h : Ingest.check V.toSetting path b bytes = (b', i')) : V.Sure path bytes d marks b' i' := by
  unfold Ingest.check at h
  rw [hsize] at h
  simp only [Bool.false_eq_true, if_false] at h
  by_cases hecho : (b.dirty.checkAndConsume b.now path (V.crates.sha.hash bytes)).1 = true
  · rw [if_pos hecho] at h
    obtain ⟨rfl, rfl⟩ := Prod.mk.inj h
    obtain ⟨m, hm, hmark⟩ := DirtySet.exists_mark hecho
    exact ⟨fun _ => hdoc, fun _ => .inl ⟨⟨m, hdirty hm, hmark⟩, hdoc⟩⟩
  · rw [if_neg hecho] at h
    by_cases htext : V.opts.isTextExtension path = true
    · rw [if_pos htext] at h
      cases hutf8 : fromUtf8 bytes with
      | some text =>
        rw [hutf8] at h
        obtain ⟨rfl, rfl⟩ := Prod.mk.inj h
        exact ⟨hdoc, htext, hutf8⟩
      | none =>
        rw [hutf8] at h
        obtain ⟨rfl, rfl⟩ := Prod.mk.inj h
        refine ⟨hdoc, ?_⟩
        rw [heldAsText, hutf8]
        exact Bool.and_false _
    · rw [if_neg htext] at h
      obtain ⟨rfl, rfl⟩ := Prod.mk.inj h
      refine ⟨hdoc, ?_⟩
      rw [heldAsText, Bool.eq_false_of_not_eq_true htext]
      rfl

/-- **One step of a call.** -/
theorem sure_step (hread : V.adapter.read b.fs (V.vaultPathToFsPath path) = .ok bytes)
    (hsize : V.opts.overSize path bytes.length = false) (hdirty : b.dirty ⊆ marks)
    (hi : V.Sure path bytes d marks b i)
    (h : Ingest.step V.toSetting path b i = some (b', i')) : V.Sure path bytes d marks b' i' := by
  cases i with
  | reading =>
    simp only [Ingest.step, hread, Option.some.injEq, Prod.mk.injEq] at h
    obtain ⟨rfl, rfl⟩ := h
    split
    next hnil => exact ⟨hi, hnil⟩
    next => exact ⟨hi, rfl⟩
  | peeking =>
    obtain ⟨hdoc, hnil⟩ := hi
    simp only [Ingest.step] at h
    split at h <;> obtain ⟨rfl, rfl⟩ := Prod.mk.inj (Option.some.inj h)
    · exact hdoc
    · exact ⟨hdoc, hnil.symm⟩
  | settling =>
    simp only [Ingest.step, hread, Option.some.injEq, Prod.mk.injEq] at h
    obtain ⟨rfl, rfl⟩ := h
    exact ⟨hi, rfl⟩
  | loaded x =>
    obtain ⟨hdoc, rfl⟩ := hi
    exact sure_check hsize hdirty hdoc (Option.some.inj h)
  | comparing text hash =>
    obtain ⟨hdoc, htext, hutf8⟩ := hi
    have hheld : V.heldAsText d path bytes
        = decide (b.doc.root.readFile V.crates path = .ok text) := by
      rw [heldAsText, htext, hutf8, hdoc]
      rfl
    simp only [Ingest.step] at h
    split at h <;> obtain ⟨rfl, rfl⟩ := Prod.mk.inj (Option.some.inj h)
    next hsame =>
      refine ⟨fun _ => hdoc, fun hno => ?_⟩
      rw [hheld, decide_eq_true hsame] at hno
      cases hno
    next hother =>
      exact ⟨hdoc, hheld.trans (decide_eq_false hother)⟩
  | writing text hash =>
    obtain ⟨hdoc, hheld⟩ := hi
    have hgrows := Doc.writeTextFile_grows (L := V.crates) path text b.doc
    simp only [Ingest.step] at h
    split at h <;> next hrun =>
      obtain ⟨rfl, rfl⟩ := Prod.mk.inj (Option.some.inj h)
      first
      | exact ⟨hheld, hdoc ▸ hgrows.ok hrun⟩
      | exact hheld
  | storing x =>
    obtain ⟨hdoc, hheld⟩ := hi
    simp only [Ingest.step] at h
    split at h <;> obtain ⟨rfl, rfl⟩ := Prod.mk.inj (Option.some.inj h)
    · exact ⟨hdoc, hheld⟩
    · exact hheld
  | attaching hash size =>
    obtain ⟨hdoc, hheld⟩ := hi
    have hgrows := Doc.writeAttachment_grows (L := V.crates) path hash size b.doc
    simp only [Ingest.step] at h
    split at h <;> next hrun =>
      obtain ⟨rfl, rfl⟩ := Prod.mk.inj (Option.some.inj h)
      first
      | exact ⟨hheld, hdoc ▸ hgrows.ok hrun⟩
      | exact hheld
  | recording hash =>
    obtain ⟨rfl, rfl⟩ := Prod.mk.inj (Option.some.inj h)
    exact hi
  | recorded hash =>
    obtain ⟨rfl, rfl⟩ := Prod.mk.inj (Option.some.inj h)
    refine ⟨fun hheld => ?_, fun _ => .inr hi.2⟩
    rw [hi.1] at hheld
    cases hheld
  | done r => cases h

theorem stepsLeft_step (h : Ingest.step V.toSetting path b i = some (b', i')) :
    i'.stepsLeft < i.stepsLeft := by
  cases i with
  | done r => cases h
  | loaded x =>
    obtain ⟨dirty, i'', hcheck, hi''⟩ := @Ingest.check_eq σ V.toSetting path b x
    rw [Ingest.step, hcheck] at h
    obtain ⟨-, rfl⟩ := Prod.mk.inj (Option.some.inj h)
    obtain rfl | rfl | ⟨text, hash, rfl, -⟩ := hi'' <;> simp [Ingest.stepsLeft]
  | reading =>
    simp only [Ingest.step] at h
    split at h <;> obtain ⟨-, rfl⟩ := Prod.mk.inj (Option.some.inj h)
    · decide
    · split <;> simp [Ingest.stepsLeft]
  | recording hash =>
    obtain ⟨-, rfl⟩ := Prod.mk.inj (Option.some.inj h)
    simp [Ingest.stepsLeft]
  | recorded hash =>
    obtain ⟨-, rfl⟩ := Prod.mk.inj (Option.some.inj h)
    simp [Ingest.stepsLeft]
  | _ =>
    simp only [Ingest.step] at h
    split at h <;> obtain ⟨-, rfl⟩ := Prod.mk.inj (Option.some.inj h) <;> simp [Ingest.stepsLeft]

/-- A call stops only where it returns. -/
theorem done_of_step (h : Ingest.step V.toSetting path b i = none) : ∃ r, i = .done r := by
  cases i with
  | done r => exact ⟨r, rfl⟩
  | loaded x => cases h
  | recording hash => cases h
  | recorded hash => cases h
  | _ =>
    simp only [Ingest.step] at h
    split at h <;> cases h

/-- Between two awaits of a call. -/
theorem Steady.awaited (h : Steady fs s marks w) :
    Steady fs s marks w.awaited ∧ w.awaited.bound.fs = fs :=
  ⟨⟨h.ignores, fun n => h.disk (n + 1), h.dirty⟩, h.disk 0⟩

/-- **A whole call.** -/
theorem ingest_sure (hread : V.adapter.read fs (V.vaultPathToFsPath path) = .ok bytes)
    (hsize : V.opts.overSize path bytes.length = false) {n : Nat} (hn : i.stepsLeft < n)
    (hw : Steady fs s marks w) (hi : V.Sure path bytes d marks w.bound i) :
    Leads (V.ingest path n i) w
      (fun _ w' => Steady fs s marks w' ∧ V.Sure path bytes d marks w'.bound (.done (.ok ())))
      (fun _ => V.heldAsText d path bytes = false) := by
  induction n generalizing i w with
  | zero => cases hn
  | succ n ih =>
    obtain ⟨hsteady, hfs⟩ := hw.awaited
    have hi' : V.Sure path bytes d marks w.awaited.bound i := by
      cases i with
      | done r => cases r <;> exact hi
      | _ => exact hi
    refine .bind (.of_ok rfl ?_)
    cases hstep : Ingest.step V.toSetting path w.awaited.bound i with
    | some x =>
      obtain ⟨b', i'⟩ := x
      have hsure := sure_step (hfs ▸ hread) hsize hsteady.dirty hi' hstep
      have hdirty := List.Subset.trans (Ingest.step_dirty hstep) hsteady.dirty
      have hless := stepsLeft_step hstep
      exact .bind (.modify (ih (by omega) ⟨hsteady.ignores, hsteady.disk, hdirty⟩ hsure))
    | none =>
      obtain ⟨r, rfl⟩ := done_of_step hstep
      cases r with
      | ok _ => exact ⟨hsteady, hi'⟩
      | error e => exact hi'

/-- The document is as it was, and so is the rest. -/
structure Still (fs : σ) (s : SyncIgnoreSet) (d : Doc) (marks : DirtySet) (w : Watch σ) : Prop
    extends Steady fs s marks w where
  doc : w.bound.doc = d

/-- The document has changed. -/
abbrev Grown (d : Doc) : Watch σ → Prop := Watch.Has fun d' => d.changes.length < d'.changes.length

theorem ingestFile_still (hmirrors : V.Mirrors fs s d) {top : PathBuf}
    (hfile : V.HasFile fs s top path) (hw : Still fs s d marks w) :
    Leads (V.ingestFile path) w
      (fun _ w' => ∃ bytes, V.adapter.read fs (V.vaultPathToFsPath path) = .ok bytes ∧
        Steady fs s marks w' ∧ V.Sure path bytes d marks w'.bound (.done (.ok ())))
      (fun _ => ∃ bytes, V.adapter.read fs (V.vaultPathToFsPath path) = .ok bytes ∧
        V.heldAsText d path bytes = false) := by
  obtain ⟨bytes, hread, hsize, -⟩ := hmirrors.file top path hfile
  exact (ingest_sure (i := .reading) hread hsize (Nat.lt_succ_self _) hw.toSteady hw.doc).weaken
    (fun _ w' h => ⟨bytes, hread, h⟩) fun _ h => ⟨bytes, hread, h⟩

/-! ### The tree -/

section Tree

variable {R E : Watch σ → Prop}

/-- What is only read stays. -/
theorem onDoc_read {α : Type} {f : Root → Except Error α} {a : α}
    (h : f w.bound.doc.root = .ok a) : Handler.onDoc (Doc.read f) w = .ok a w := by
  rw [Handler.onDoc, Doc.read, h]

/-- An entry of a walk, from files that leave the document as it is, or else lead to what is
true from then on. -/
theorem ingestEntry_still (hmirrors : V.Mirrors fs s d)
    (hfile : ∀ top path w, V.HasFile fs s top path → Still fs s d marks w →
      Leads (V.ingestFile path) w (fun _ w' => Still fs s d marks w' ∨ R w') E)
    {top : PathBuf} {e : WalkEntry} (he : e ∈ V.walk fs top) (hw : Still fs s d marks w) :
    Leads (V.ingestEntry e) w (fun _ w' => Still fs s d marks w' ∨ R w') E := by
  unfold ingestEntry
  cases hkind : e.kind with
  | dir =>
    refine .bind (.get ?_)
    cases hpath : V.fsPathToVaultDirPath w.ignores e.path with
    | none => exact .inl hw
    | some path =>
      obtain ⟨did, hfind⟩ := hmirrors.directory top path ⟨e, he, hkind, hw.ignores ▸ hpath⟩
      have hread := onDoc_read (w := w) (f := (Root.findDirectoryByPath V.crates · path))
        (hw.doc ▸ hfind)
      refine .bind (.of_ok hread ?_)
      exact .modify (.inl ⟨⟨hw.ignores, hw.disk, hw.dirty⟩, hw.doc⟩)
  | file =>
    refine .bind (.get ?_)
    cases hpath : V.fsPathToVaultPath w.ignores e.path with
    | none => exact .inl hw
    | some path => exact hfile top path w ⟨e, he, hkind, hw.ignores ▸ hpath⟩ hw
  | other => exact .inl hw

theorem ingestDirectory_still (hmirrors : V.Mirrors fs s d)
    (hfile : ∀ top path w, V.HasFile fs s top path → Still fs s d marks w →
      Leads (V.ingestFile path) w (fun _ w' => Still fs s d marks w' ∨ R w') E)
    (hentry : ∀ e w, R w → Leads (V.ingestEntry e) w (fun _ => R) E)
    (hw : Still fs s d marks w) :
    Leads (V.ingestDirectory path) w (fun _ w' => Still fs s d marks w' ∨ R w') E := by
  obtain ⟨hsteady, hfs⟩ := hw.toSteady.awaited
  refine .bind (.of_ok rfl ?_)
  rw [hfs]
  have hturn : ∀ e ∈ V.walk fs (V.vaultPathToFsPath path), ∀ w,
      Still fs s d marks w ∨ R w →
        Leads (V.ingestEntry e) w (fun _ w' => Still fs s d marks w' ∨ R w') E := by
    intro e he w hw
    rcases hw with hw | hw
    · exact ingestEntry_still hmirrors hfile he hw
    · exact (hentry e w hw).weaken (fun _ _ h => .inr h) fun _ h => h
  refine .forM_of_mem hturn (.inl ⟨hsteady, hw.doc⟩)

theorem scanEntry_still (hmirrors : V.Mirrors fs s d)
    (hfile : ∀ top path w, V.HasFile fs s top path → Still fs s d marks w →
      Leads (V.ingestFile path) w (fun _ w' => Still fs s d marks w' ∨ R w') E)
    (hentry : ∀ e w, R w → Leads (V.ingestEntry e) w (fun _ => R) E)
    {e : WalkEntry} (he : e ∈ V.walk fs V.root) (hw : Still fs s d marks w) :
    Leads (V.scanEntry e) w (fun _ w' => Still fs s d marks w' ∨ R w') E := by
  unfold scanEntry
  cases hkind : e.kind with
  | dir =>
    by_cases hroot : e.path = V.root
    · rw [if_pos hroot]
      exact .inl hw
    · rw [if_neg hroot]
      refine .bind (.get ?_)
      cases V.fsPathToVaultDirPath w.ignores e.path with
      | none => exact .inl hw
      | some path => exact ingestDirectory_still hmirrors hfile hentry hw
  | file =>
    refine .bind (.get ?_)
    cases hpath : V.fsPathToVaultPath w.ignores e.path with
    | none => exact .inl hw
    | some path => exact hfile V.root path w ⟨e, he, hkind, hw.ignores ▸ hpath⟩ hw
  | other => exact .inl hw

end Tree

/-! ### The whole tree -/

theorem takenIn_grown (L : Crates) (n : Nat) :
    Doc.TakenIn L fun d : Doc => n < d.changes.length := by
  have hkeeps {α : Type} {P : Op → Prop} {x : DocM α} (h : Doc.Records P x) :
      Program.Keeps (fun d : Doc => n < d.changes.length) x := by
    intro d hd
    obtain ⟨new, hchanges, -⟩ := h d
    have hmore : n < (d.after x).changes.length := by
      rw [hchanges, List.length_append]
      omega
    cases hrun : x d with
    | ok a d' => exact .of_ok hrun (Doc.after_ok hrun ▸ hmore)
    | error e d' => exact .of_error hrun (Doc.after_error hrun ▸ hmore)
  exact ⟨fun path content => hkeeps (Doc.writeTextFile_records path content),
    fun path hash size => hkeeps (Doc.writeAttachment_records path hash size),
    fun path => hkeeps (Doc.createDirectory_records path)⟩

/-- What a tree is synced with, every walk finds. -/
theorem Mirrors.hasFile (h : V.Mirrors fs s d) {top : PathBuf} (hfile : V.HasFile fs s top path) :
    V.HasFile fs s V.root path := by
  obtain ⟨bytes, -, -, hholds⟩ := h.file top path hfile
  rcases hholds with ⟨text, htext, -⟩ | ⟨fid, m, hfind, -⟩
  · obtain ⟨q, hq, htext⟩ := bind_eq_ok.mp htext
    obtain ⟨e, he, hkind, hpath⟩ := hfile
    obtain rfl := Except.ok.inj ((normalized_vaultPath hpath).symm.trans hq)
    obtain ⟨found, hfind, htext⟩ := bind_eq_ok.mp htext
    cases found with
    | none => cases htext
    | some fid => exact h.liveFile path fid hfind
  · exact h.liveFile path fid hfind

theorem initialScan_textual (hmirrors : V.Mirrors fs s d) (htextual : V.Textual fs s d)
    (hw : Still fs s d marks w) :
    Leads V.initialScan w (fun _ => Still fs s d marks) (fun _ => False) := by
  have hfile (top : PathBuf) (path : Str) (w : Watch σ) (hfile : V.HasFile fs s top path)
      (hw : Still fs s d marks w) : Leads (V.ingestFile path) w
        (fun _ w' => Still fs s d marks w' ∨ False) (fun _ => False) := by
    have hheld (bytes : Bytes) := htextual path bytes (hmirrors.hasFile hfile)
    refine (ingestFile_still hmirrors hfile hw).weaken ?_ ?_
    · intro _ w' ⟨bytes, hread, hsteady, hsure⟩
      exact .inl ⟨hsteady, hsure.1 (hheld bytes hread)⟩
    · intro w' ⟨bytes, hread, hno⟩
      rw [hheld bytes hread] at hno
      cases hno
  obtain ⟨hsteady, hfs⟩ := hw.toSteady.awaited
  refine .bind (.of_ok rfl ?_)
  rw [hfs]
  refine .forM_of_mem (fun e he w hw => ?_) ⟨hsteady, hw.doc⟩
  exact (scanEntry_still hmirrors hfile (fun _ _ h => h.elim) he hw).weaken
    (fun _ _ h => h.resolve_right id) fun _ h => h

/-- Every file that no mark is of is held as text. -/
def TextualButMarked (V : Watching σ) (fs : σ) (s : SyncIgnoreSet) (d : Doc) (marks : DirtySet) :
    Prop :=
  ∀ path bytes, V.HasFile fs s V.root path →
    V.adapter.read fs (V.vaultPathToFsPath path) = .ok bytes →
      V.heldAsText d path bytes = true ∨ V.MarkedAs marks path bytes

/-- A file that is not held as text, and that no mark is of, is taken in again. -/
theorem ingestFile_grown (hmirrors : V.Mirrors fs s d) {top : PathBuf}
    (hfile : V.HasFile fs s top path)
    (hread : V.adapter.read fs (V.vaultPathToFsPath path) = .ok bytes)
    (hheld : V.heldAsText d path bytes = false) (hmarked : ¬ V.MarkedAs marks path bytes)
    (hw : Still fs s d marks w) :
    Leads (V.ingestFile path) w (fun _ => Grown d) (fun _ => True) := by
  refine (ingestFile_still hmirrors hfile hw).weaken ?_ fun _ _ => trivial
  intro _ w' ⟨bytes', hread', _, hsure⟩
  obtain rfl := Except.ok.inj (hread.symm.trans hread')
  exact (hsure.2 hheld).resolve_left fun h => hmarked h.1

theorem initialScan_grown (hmirrors : V.Mirrors fs s d)
    (hnot : ¬ V.TextualButMarked fs s d marks) (hw : Still fs s d marks w) :
    Leads V.initialScan w (fun _ => Grown d) (fun _ => True) := by
  simp only [TextualButMarked, not_forall, not_or] at hnot
  obtain ⟨path, bytes, ⟨e₀, he₀, hkind, hpath⟩, hread, hheld, hmarked⟩ := hnot
  have hheld := Bool.eq_false_of_not_eq_true hheld
  have hgrown := takenIn_grown V.crates d.changes.length
  have hfile (top : PathBuf) (path : Str) (w : Watch σ) (hfile : V.HasFile fs s top path)
      (hw : Still fs s d marks w) : Leads (V.ingestFile path) w
        (fun _ w' => Still fs s d marks w' ∨ Grown d w') (fun _ => True) := by
    refine (ingestFile_still hmirrors hfile hw).weaken ?_ fun _ _ => trivial
    intro _ w' ⟨bytes, _, hsteady, hsure⟩
    cases hheld : V.heldAsText d path bytes with
    | true => exact .inl ⟨hsteady, hsure.1 hheld⟩
    | false => exact (hsure.2 hheld).imp_left fun h => ⟨hsteady, h.2⟩
  have hentry (e : WalkEntry) (w : Watch σ) (hw : Grown d w) :
      Leads (V.ingestEntry e) w (fun _ => Grown d) (fun _ => True) :=
    (ingestEntry_keeps hgrown e w hw).weaken (fun _ _ h => h) fun _ _ => trivial
  obtain ⟨hsteady, hfs⟩ := hw.toSteady.awaited
  refine .bind (.of_ok rfl ?_)
  rw [hfs]
  -- Until the scan has come to the file, nothing may have changed.
  refine (Leads.forM (t := V.scanEntry) (I := fun todo w => (∀ e ∈ todo, e ∈ V.walk fs V.root) ∧
    (Grown d w ∨ Still fs s d marks w ∧ e₀ ∈ todo)) ?_ ⟨fun _ he => he, .inr ⟨⟨hsteady, hw.doc⟩,
    he₀⟩⟩).weaken (fun _ _ h => h.2.resolve_right fun h => nomatch h.2) fun _ h => h
  · intro e todo w ⟨hsub, hw⟩
    have hsub' (e' : WalkEntry) (he' : e' ∈ todo) := hsub e' (List.mem_cons_of_mem _ he')
    rcases hw with hw | ⟨hw, hin⟩
    · exact (scanEntry_keeps hgrown e w hw).weaken (fun _ _ h => ⟨hsub', .inl h⟩) fun _ _ => trivial
    · rcases List.mem_cons.mp hin with rfl | hin
      · refine Leads.weaken (Q := fun _ => Grown d) ?_ (fun _ _ h => ⟨hsub', .inl h⟩) fun _ h => h
        unfold scanEntry
        rw [hkind]
        refine .bind (.get ?_)
        rw [hw.ignores, hpath]
        exact ingestFile_grown hmirrors ⟨e₀, he₀, hkind, hpath⟩ hread hheld hmarked hw
      · exact (scanEntry_still hmirrors hfile hentry (hsub e List.mem_cons_self) hw).weaken
          (fun _ _ h => ⟨hsub', h.symm.imp_right fun h => ⟨h, hin⟩⟩) fun _ h => h

/-- **Scanning a synced tree** changes nothing where every file is held as text. A scan that does
not fail changes nothing only if the files that are not are those of writes that the watcher has
left to report; so with none left, only there. -/
theorem scan_synced {w : Watch σ} (hdisk : ∀ n, (w.ahead n).1 = fs)
    (hmirrors : V.Mirrors fs w.ignores w.bound.doc) :
    (V.Textual fs w.ignores w.bound.doc →
      ∃ w', V.initialScan w = .ok () w' ∧ w'.bound.doc = w.bound.doc) ∧
    ∀ w', V.initialScan w = .ok () w' →
      (w'.bound.doc.changes = w.bound.doc.changes →
        V.TextualButMarked fs w.ignores w.bound.doc w.bound.dirty) ∧
      (w.bound.dirty = [] →
        (w'.bound.doc.changes = w.bound.doc.changes ↔ V.Textual fs w.ignores w.bound.doc)) := by
  have hw : Still fs w.ignores w.bound.doc w.bound.dirty w :=
    ⟨⟨rfl, hdisk, List.Subset.refl _⟩, rfl⟩
  have hscan (htextual : V.Textual fs w.ignores w.bound.doc) :=
    initialScan_textual hmirrors htextual hw
  have hmarked (w' : Watch σ) (hrun : V.initialScan w = .ok () w')
      (hsame : w'.bound.doc.changes = w.bound.doc.changes) :
      V.TextualButMarked fs w.ignores w.bound.doc w.bound.dirty := by
    by_contra hnot
    have hgrown := (initialScan_grown hmirrors hnot hw).ok hrun
    rw [Grown, Watch.Has, hsame] at hgrown
    exact lt_irrefl _ hgrown
  refine ⟨fun htextual => ?_, fun w' hrun =>
    ⟨hmarked w' hrun, fun hdirty => ⟨fun hsame => ?_, fun htextual => ?_⟩⟩⟩
  · cases hrun : V.initialScan w with
    | ok _ w' => exact ⟨w', rfl, ((hscan htextual).ok hrun).doc⟩
    | error e w' => exact ((hscan htextual).error hrun).elim
  · intro path bytes hfile hread
    refine (hmarked w' hrun hsame path bytes hfile hread).resolve_right fun ⟨m, hm, _⟩ => ?_
    rw [hdirty] at hm
    cases hm
  · rw [((hscan htextual).ok hrun).doc]

/-- A vault of which all files are taken in. -/
private def unfiltered : Watching Disk := {Watching.localDisk with includePatterns := []}

/-- A directory with one file in it. -/
private def oneLeaf (name : Str) : Disk :=
  Disk.vaultDir.put [txt "vault", name] (.file (utf8 (txt "a")))

private def holding (op : LocalOp) : Doc := .replica (.numbered '1' 16) [op]

private theorem node_oneLeaf (name : Str) :
    (oneLeaf name).node [txt "vault", name] = some (.file (utf8 (txt "a"))) := by
  rw [oneLeaf, Disk.node_put _ (List.cons_ne_nil _ _), if_pos rfl]

private theorem walk_oneLeaf (name : Str) :
    ⟨[txt "vault", name], .file⟩ ∈ unfiltered.walk (oneLeaf name) unfiltered.root ∧
      ∀ top, ∀ e ∈ unfiltered.walk (oneLeaf name) top,
        e = ⟨[txt "vault", name], .file⟩ ∨ e = ⟨[txt "vault"], .dir⟩ := by
  have hkind : (if (oneLeaf name).node [txt "vault", name] = some .dir then EntryKind.dir
      else .file) = .file := by
    rw [node_oneLeaf]
    exact if_neg nofun
  constructor
  · refine List.mem_map.mpr ⟨[txt "vault", name], ?_, congrArg _ hkind⟩
    refine (List.mem_insertionSort _).mpr (List.mem_filter.mpr ⟨List.mem_cons_self, ?_⟩)
    simp [unfiltered, Watching.localDisk, Setting.localDisk]
  · intro top e he
    obtain ⟨l, hl, rfl⟩ := List.mem_map.mp he
    have hl := AList.mem_keys.mpr (List.mem_filter.mp ((List.mem_insertionSort _).mp hl)).1
    rcases (AList.mem_insert _).mp hl with rfl | hl
    · exact .inl (congrArg _ hkind)
    · rcases (AList.mem_insert _).mp hl with rfl | hl
      · refine .inr (congrArg _ (if_pos ?_))
        rw [oneLeaf, Disk.node_put _ (List.cons_ne_nil _ _), if_neg (by simp)]
        rfl
      · cases AList.notMem_empty _ hl

private theorem mirrors_oneLeaf {name : Str} {d : Doc} {s : SyncIgnoreSet}
    (hroot : unfiltered.fsPathToVaultDirPath s [txt "vault"] = none)
    (hpath : unfiltered.fsPathToVaultPath s [txt "vault", name] = some name)
    (hread : NodeFsAdapter.read (oneLeaf name) (unfiltered.vaultPathToFsPath name)
      = .ok (utf8 (txt "a")))
    (hsize : unfiltered.opts.overSize name (utf8 (txt "a")).length = false)
    (hholds : d.Holds .letters name (utf8 (txt "a")))
    (hfiles : (d.root.listFiles .letters).toOption.any (fun files =>
      files.all fun m => m.path = name) = true)
    (hdirs : d.root.dirKeys = []) : unfiltered.Mirrors (oneLeaf name) s d where
  file top path := by
    intro ⟨e, he, hkind, hpath'⟩
    rcases (walk_oneLeaf name).2 top e he with rfl | rfl
    · obtain rfl := Option.some.inj (hpath.symm.trans hpath')
      exact ⟨_, hread, hsize, hholds⟩
    · cases hkind
  directory top path := by
    intro ⟨e, he, hkind, hpath'⟩
    rcases (walk_oneLeaf name).2 top e he with rfl | rfl
    · cases hkind
    · cases hroot.symm.trans hpath'
  liveFile path fid hfind := by
    obtain ⟨files, hlist, hall⟩ := (Option.any_eq_true _ _).mp hfiles
    obtain ⟨m, hm, rfl, -⟩ := (Root.findFile_eq_some (eq_ok_of_toOption hlist)).mp hfind
    obtain rfl := of_decide_eq_true (List.all_eq_true.mp hall m hm)
    exact ⟨_, (walk_oneLeaf _).1, rfl, hpath⟩
  liveDirectory path did hfind := by
    obtain ⟨-, -, hfind⟩ := bind_eq_ok.mp hfind
    rw [hdirs] at hfind
    cases hfind

/-- A vault in which one file was written, bound to a directory that has the file. -/
private def bindingOf (name : Str) (op : LocalOp) : Watch Disk :=
  .fresh unfiltered (holding op) (oneLeaf name)

private def noted : Watch Disk := bindingOf (txt "x.md") (.writeTextFile (txt "x.md") (txt "a"))

private theorem mirrors_noted :
    unfiltered.Mirrors (oneLeaf (txt "x.md")) noted.ignores noted.bound.doc := by
  have hread : (noted.bound.doc.root.readFile .letters (txt "x.md")).toOption = some (txt "a") := by
    decide +kernel
  refine mirrors_oneLeaf (by decide +kernel) (by decide +kernel) ?_ (by decide +kernel) ?_
    (by decide +kernel) (by decide +kernel)
  · exact eq_ok_of_toOption (by decide +kernel)
  · exact .inl ⟨_, eq_ok_of_toOption hread, rfl⟩

theorem scan_synced_noted : ∃ w', unfiltered.initialScan noted = .ok () w' ∧
    w'.bound.doc = noted.bound.doc := by
  have hheld : unfiltered.heldAsText noted.bound.doc (txt "x.md") (utf8 (txt "a")) = true := by
    decide +kernel
  have htextual : unfiltered.Textual (oneLeaf (txt "x.md")) noted.ignores noted.bound.doc := by
    intro path bytes ⟨e, he, hkind, hpath⟩ hread
    rcases (walk_oneLeaf _).2 _ e he with rfl | rfl
    · have hpath' : unfiltered.fsPathToVaultPath noted.ignores [txt "vault", txt "x.md"]
          = some (txt "x.md") := by
        decide +kernel
      have hread' : (unfiltered.adapter.read (oneLeaf (txt "x.md"))
          (unfiltered.vaultPathToFsPath (txt "x.md"))).toOption = some (utf8 (txt "a")) := by
        decide +kernel
      obtain rfl := Option.some.inj (hpath'.symm.trans hpath)
      obtain rfl := Except.ok.inj ((eq_ok_of_toOption hread').symm.trans hread)
      exact hheld
    · cases hkind
  exact (scan_synced (fun _ => rfl) mirrors_noted).1 htextual

private def attached : Watch Disk := bindingOf (txt "x.bin")
  (.writeAttachment (txt "x.bin") (letterDigest.hash (utf8 (txt "a"))) 1)

private theorem mirrors_attached :
    unfiltered.Mirrors (oneLeaf (txt "x.bin")) attached.ignores attached.bound.doc := by
  let r := attached.bound.doc.root
  have hholds : (((r.findFileByPathNormalized .letters (txt "x.bin")).toOption.bind id).any
      fun fid => ((r.readFileMeta .letters fid).toOption.bind id).any fun m =>
        decide (m.kind = .attachment ∧
          m.binaryHash = some (letterDigest.hash (utf8 (txt "a"))))) = true := by
    decide +kernel
  refine mirrors_oneLeaf (by decide +kernel) (by decide +kernel) ?_ (by decide +kernel) ?_
    (by decide +kernel) (by decide +kernel)
  · exact eq_ok_of_toOption (by decide +kernel)
  · obtain ⟨fid, hfind, hholds⟩ := (Option.any_eq_true _ _).mp hholds
    obtain ⟨m, hm, hholds⟩ := (Option.any_eq_true _ _).mp hholds
    obtain ⟨_, hfind, rfl⟩ := Option.bind_eq_some_iff.mp hfind
    obtain ⟨_, hm, rfl⟩ := Option.bind_eq_some_iff.mp hm
    exact .inr ⟨fid, m, eq_ok_of_toOption hfind, eq_ok_of_toOption hm, of_decide_eq_true hholds⟩

private def scanned (r : EStateM.Result Error (Watch Disk) Unit) : Bool :=
  match r with
  | .ok _ _ => true
  | .error _ _ => false

/-- **A synced attachment** is a change in every scan. -/
theorem scan_synced_attached : ¬ ∀ (fs : Disk) (w w' : Watch Disk), (∀ n, (w.ahead n).1 = fs) →
    unfiltered.Mirrors fs w.ignores w.bound.doc → unfiltered.initialScan w = .ok () w' →
      headsOf w'.bound.doc.changes = headsOf w.bound.doc.changes := by
  intro h
  have hok : scanned (unfiltered.initialScan attached) = true := by decide +kernel
  have hheads : headsOf (finish (unfiltered.initialScan attached)).bound.doc.changes ≠
      headsOf attached.bound.doc.changes := by
    decide +kernel
  cases hrun : unfiltered.initialScan attached with
  | ok _ w' =>
    rw [hrun] at hheads
    exact hheads (h _ attached w' (fun _ => rfl) mirrors_attached hrun)
  | error e w' =>
    rw [hrun] at hok
    cases hok

end Watching

end AgentSync
