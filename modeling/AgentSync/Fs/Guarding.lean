import AgentSync.Machine
import AgentSync.Doc.Staying
import AgentSync.Doc.Closure
import AgentSync.Fs.Events

/-! The file of authorized keys, while events are handled.

Whoever is not in `authorized_keys` is not let in, so the handler ignores that the file has gone
from the disk or was moved out of the vault. What it takes in is written over entries or beside
them (`TakenIn`), and what it deletes or moves is another file, unless the file is renamed within
the vault (`keys_stay_live`). -/
namespace AgentSync

open Program

variable {σ : Type} {V : Watching σ}

/-! ### Taking in -/

/-- What writing files and making directories leave true of the document. -/
structure Doc.TakenIn (L : Crates) (P : Doc → Prop) : Prop where
  writeTextFile : ∀ path content, Program.Keeps P (Doc.writeTextFile L path content)
  writeAttachment : ∀ path hash size, Program.Keeps P (Doc.writeAttachment L path hash size)
  createDirectory : ∀ path, Program.Keeps P (Doc.createDirectory L path)

/-- The same of the files whose paths meet a condition. -/
structure Doc.TakenInAt (L : Crates) (C : Str → Prop) (P : Doc → Prop) : Prop where
  writeTextFile : ∀ path content, C path → Program.Keeps P (Doc.writeTextFile L path content)
  writeAttachment : ∀ path hash size, C path →
    Program.Keeps P (Doc.writeAttachment L path hash size)
  createDirectory : ∀ path, Program.Keeps P (Doc.createDirectory L path)

theorem Doc.TakenIn.everywhere {L : Crates} {P : Doc → Prop} (h : Doc.TakenIn L P) :
    Doc.TakenInAt L (fun _ => True) P where
  writeTextFile path content _ := h.writeTextFile path content
  writeAttachment path hash size _ := h.writeAttachment path hash size
  createDirectory := h.createDirectory

theorem Doc.after_keeps {P : Doc → Prop} {α : Type} {x : DocM α} (h : Program.Keeps P x) {d : Doc}
    (hd : P d) : P (d.after x) := by
  cases hrun : x d with
  | ok a d' => exact Doc.after_ok hrun ▸ (h d hd).ok hrun
  | error e d' => exact Doc.after_error hrun ▸ (h d hd).error hrun

/-- Something that is true of the document. -/
abbrev Watch.Has (P : Doc → Prop) (w : Watch σ) : Prop := P w.bound.doc

/-- The same, where what is ignored is known. -/
abbrev Watch.HasUnder (s : SyncIgnoreSet) (P : Doc → Prop) (w : Watch σ) : Prop :=
  w.ignores = s ∧ w.Has P

namespace Handler

variable {α β : Type} {P : Doc → Prop} {w : Watch σ}

theorem await_keeps : Program.Keeps (Watch.Has P) (await (σ := σ)) := fun _ hw => hw

theorem modify_keeps {f : Watch σ → Watch σ} (hf : ∀ w, (f w).bound.doc = w.bound.doc) :
    Program.Keeps (Watch.Has P) (modify f : Handler σ Unit) := by
  intro w hw
  show P (f w).bound.doc
  rwa [hf]

theorem onDoc_leads {x : DocM α} {Q : α → Doc → Prop} {E : Doc → Prop}
    (h : Leads x w.bound.doc Q E) :
    Leads (onDoc x) w (fun a => Watch.Has (Q a)) (Watch.Has E) := by
  unfold Leads onDoc
  cases hrun : x w.bound.doc with
  | ok a d => exact h.ok hrun
  | error e d => exact h.error hrun

theorem onDoc_keeps {x : DocM α} (h : Program.Keeps P x) :
    Program.Keeps (Watch.Has P) (onDoc (σ := σ) x) := fun _ hw => onDoc_leads (h _ hw)

theorem onDoc_keepsUnder {x : DocM α} {s : SyncIgnoreSet} (h : Program.Keeps P x) :
    Program.Keeps (Watch.HasUnder s P) (onDoc (σ := σ) x) := by
  intro w hw
  have hdoc := h _ hw.2
  unfold Leads onDoc
  cases hrun : x w.bound.doc with
  | ok a d => exact ⟨hw.1, hdoc.ok hrun⟩
  | error e d => exact ⟨hw.1, hdoc.error hrun⟩

end Handler

open Handler

namespace Watching

section TakenInAt

variable {C : Str → Prop} {P : Doc → Prop} {s : SyncIgnoreSet} (hP : Doc.TakenInAt V.crates C P)

include hP

theorem ingest_keepsAt {path : Str} (hpath : C path) (n : Nat) (i : Ingest) :
    Program.Keeps (Watch.HasUnder s P) (V.ingest path n i) := by
  induction n generalizing i with
  | zero => exact .pure _
  | succ n ih =>
    refine fun w hw => .bind (.of_ok rfl ?_)
    cases hstep : Ingest.step V.toSetting path w.awaited.bound i with
    | none =>
      cases i with
      | done r => cases r <;> exact hw
      | _ => exact hw
    | some x =>
      obtain ⟨b', i'⟩ := x
      have hdoc : P b'.doc := by
        rcases (Ingest.step_frame hstep).2 with ⟨-, hdoc⟩ | ⟨s, hash, -, hdoc⟩ | ⟨hash, size, -, hdoc⟩
        · exact hdoc ▸ hw.2
        · exact hdoc ▸ Doc.after_keeps (hP.writeTextFile path s hpath) hw.2
        · exact hdoc ▸ Doc.after_keeps (hP.writeAttachment path hash size hpath) hw.2
      exact .bind (.modify (ih i' _ ⟨hw.1, hdoc⟩))

variable (hC : ∀ abs path, V.fsPathToVaultPath s abs = some path → C path)

include hC

/-- A file that a walk comes by. -/
theorem ingestAllowed_keepsAt (abs : PathBuf) : Program.Keeps (Watch.HasUnder s P) (do
    match V.fsPathToVaultPath (← get).ignores abs with
    | none => pure ()
    | some path => V.ingestFile path) := by
  refine fun w hw => .bind (.get ?_)
  cases hpath : V.fsPathToVaultPath w.ignores abs with
  | none => exact hw
  | some path => exact ingest_keepsAt hP (hC abs path (hw.1 ▸ hpath)) _ _ w hw

theorem ingestEntry_keepsAt (e : WalkEntry) :
    Program.Keeps (Watch.HasUnder s P) (V.ingestEntry e) := by
  unfold ingestEntry
  cases e.kind with
  | dir =>
    refine .bind .get fun w => ?_
    cases V.fsPathToVaultDirPath w.ignores e.path with
    | none => exact .pure _
    | some path =>
      refine .bind (onDoc_keepsUnder (Doc.read_lasts _)) fun found => ?_
      have hinsert : Program.Keeps (Watch.HasUnder s P)
          (onMaterializedDirs (σ := σ) fun dirs => dirs.insert path) := fun _ hw => hw
      cases found with
      | some _ => exact hinsert
      | none => exact .bind (onDoc_keepsUnder (hP.createDirectory path)) fun _ => hinsert
  | file =>
    exact ingestAllowed_keepsAt hP hC e.path
  | other => exact .pure _

theorem ingestDirectory_keepsAt (path : Str) :
    Program.Keeps (Watch.HasUnder s P) (V.ingestDirectory path) :=
  .bind (fun _ hw => hw) fun _ => .forM (fun e => ingestEntry_keepsAt hP hC e) _

theorem scanEntry_keepsAt (e : WalkEntry) :
    Program.Keeps (Watch.HasUnder s P) (V.scanEntry e) := by
  unfold scanEntry
  cases e.kind with
  | dir =>
    refine .ite (.pure _) (.bind .get fun w => ?_)
    cases V.fsPathToVaultDirPath w.ignores e.path with
    | none => exact .pure _
    | some path => exact ingestDirectory_keepsAt hP hC path
  | file =>
    exact ingestAllowed_keepsAt hP hC e.path
  | other => exact .pure _

/-- **A scan only takes in**, and only what is allowed. -/
theorem initialScan_keepsAt : Program.Keeps (Watch.HasUnder s P) V.initialScan :=
  .bind (fun _ hw => hw) fun _ => .forM (fun e => scanEntry_keepsAt hP hC e) _

end TakenInAt

section TakenIn

variable {P : Doc → Prop} (hP : Doc.TakenIn V.crates P)

/-- Whatever is ignored. -/
theorem keeps_of_under {x : Handler σ Unit}
    (h : ∀ s, Program.Keeps (Watch.HasUnder s P) x) : Program.Keeps (Watch.Has P) x :=
  fun w hw => (h w.ignores w ⟨rfl, hw⟩).weaken (fun _ _ h => h.2) fun _ h => h.2

include hP

theorem ingestFile_keeps (path : Str) : Program.Keeps (Watch.Has P) (V.ingestFile path) :=
  keeps_of_under fun _ => ingest_keepsAt hP.everywhere trivial _ _

theorem ingestEntry_keeps (e : WalkEntry) : Program.Keeps (Watch.Has P) (V.ingestEntry e) :=
  keeps_of_under fun _ => ingestEntry_keepsAt hP.everywhere (fun _ _ _ => trivial) e

theorem ingestDirectory_keeps (path : Str) :
    Program.Keeps (Watch.Has P) (V.ingestDirectory path) :=
  keeps_of_under fun _ => ingestDirectory_keepsAt hP.everywhere (fun _ _ _ => trivial) path

theorem scanEntry_keeps (e : WalkEntry) : Program.Keeps (Watch.Has P) (V.scanEntry e) :=
  keeps_of_under fun _ => scanEntry_keepsAt hP.everywhere (fun _ _ _ => trivial) e

theorem initialScan_keeps : Program.Keeps (Watch.Has P) V.initialScan :=
  keeps_of_under fun _ => initialScan_keepsAt hP.everywhere fun _ _ _ => trivial

end TakenIn

/-! ### The file of keys -/

/-- The file of keys is the one of an entry, in a document of which every path is normalized. -/
structure KeysAt (V : Watching σ) (fid : Str) (d : Doc) : Prop where
  sound : d.Sound V.crates.nfc V.automerge
  stays : d.Stays V.crates fid authorizedKeysFile

variable {fid : Str}

theorem keysAt_leads {α : Type} {Q : α → Prop} {x : DocM α} {d : Doc} (hd : V.KeysAt fid d)
    (hsound : Doc.Keeps V.crates.nfc V.automerge x Q)
    (hstays : Leads x d (fun _ => Doc.Stays V.crates fid authorizedKeysFile)
      (Doc.Stays V.crates fid authorizedKeysFile)) :
    Leads x d (fun _ => V.KeysAt fid) (V.KeysAt fid) := by
  have hrun := hsound d hd.sound
  have hsound' : Leads x d (fun _ d' => d'.Sound V.crates.nfc V.automerge)
      (Doc.Sound V.crates.nfc V.automerge) := by
    cases hx : x d with
    | ok a d' =>
      rw [hx] at hrun
      exact .of_ok hx hrun.1
    | error e d' =>
      rw [hx] at hrun
      exact .of_error hx hrun
  exact (hsound'.and hstays).weaken (fun _ _ h => ⟨h.1, h.2⟩) fun _ h => ⟨h.1, h.2⟩

theorem keysAt_keeps {α : Type} {Q : α → Prop} {x : DocM α}
    (hsound : Doc.Keeps V.crates.nfc V.automerge x Q)
    (hstays : Program.Keeps (Doc.Stays V.crates fid authorizedKeysFile) x) :
    Program.Keeps (V.KeysAt fid) x := fun d hd => keysAt_leads hd hsound (hstays d hd.stays)

theorem keysAt_takenIn : Doc.TakenIn V.crates (V.KeysAt fid) where
  writeTextFile path content :=
    keysAt_keeps (Doc.writeTextFile_keeps path content) (Doc.Stays.writeTextFile path content)
  writeAttachment path hash size :=
    keysAt_keeps (Doc.writeAttachment_keeps path hash size)
      (Doc.Stays.writeAttachment path hash size)
  createDirectory path :=
    keysAt_keeps (Doc.createDirectory_keeps path) (Doc.Stays.createDirectory path)

theorem deleteFile_keepsKeys {path : Str} (hnorm : Path.Normalized V.crates.nfc path)
    (hne : path ≠ authorizedKeysFile) :
    Program.Keeps (V.KeysAt fid) (Doc.deleteFile V.crates path) :=
  keysAt_keeps (Doc.deleteFile_keeps path)
    (Doc.Stays.deleteFile fun h => hne (Except.ok.inj (hnorm.symm.trans h)))

theorem renameFile_keepsKeys {src dst : Str} (hnorm : Path.Normalized V.crates.nfc src)
    (hne : src ≠ authorizedKeysFile) :
    Program.Keeps (V.KeysAt fid) (Doc.renameFile V.crates src dst) :=
  keysAt_keeps (Doc.renameFile_keeps src dst)
    (Doc.Stays.renameFile fun h => hne (Except.ok.inj (hnorm.symm.trans h)))

/-- The file is below no directory. -/
theorem deleteDirectory_keepsKeys {path : Str} (hnorm : Path.Normalized V.crates.nfc path)
    (recursive : Bool) :
    Program.Keeps (V.KeysAt fid) (Doc.deleteDirectory V.crates path recursive) := by
  refine fun d hd => keysAt_leads hd (Doc.deleteDirectory_keeps path recursive)
    (hd.stays.deleteDirectory hd.sound (fun q hq => ?_) recursive)
  obtain rfl := Except.ok.inj (hnorm.symm.trans hq)
  refine Bool.eq_false_of_not_eq_true fun hchild => ?_
  obtain ⟨t, ht⟩ := (Path.strictlyUnder_iff hnorm.ne_nil).mp hchild
  have hslash : '/' ∈ authorizedKeysFile := ht ▸ List.mem_append_right _ List.mem_cons_self
  revert hslash
  decide

/-! ### Events -/

abbrev GuardsKeys (V : Watching σ) (fid : Str) : Watch σ → Prop := Watch.Has (V.KeysAt fid)

theorem removeDirectory_keepsKeys (abs : PathBuf) :
    Program.Keeps (V.GuardsKeys fid) (V.removeDirectory abs) := by
  refine .bind .get fun w => ?_
  cases hpath : V.fsPathToVaultDirPath w.ignores abs with
  | none => exact .pure _
  | some path =>
    refine .bind (onDoc_keeps (Doc.read_lasts _)) fun found => ?_
    cases found with
    | none => exact .pure _
    | some _ =>
      exact .bind (onDoc_keeps (deleteDirectory_keepsKeys (normalized_vaultDirPath hpath) true))
        fun _ => modify_keeps fun _ => rfl

/-- What has gone is deleted, but for the file of keys. -/
theorem remove_keepsKeys (abs : PathBuf) :
    Program.Keeps (V.GuardsKeys fid) (V.remove abs) := by
  refine .bind .get fun w => ?_
  cases hpath : V.fsPathToVaultPath w.ignores abs with
  | none => exact removeDirectory_keepsKeys abs
  | some path =>
    exact .ite_of (fun _ => .pure _) fun hkeys => .bind (onDoc_keeps (Doc.ask_lasts _)) fun _ =>
      .ite (onDoc_keeps (deleteFile_keepsKeys (normalized_vaultPath hpath) hkeys))
        (removeDirectory_keepsKeys abs)

/-- The event renames the file of keys within the vault, to a path where no file is. -/
def renamesKeys (V : Watching σ) (s : SyncIgnoreSet) (d : Doc) : FsEvent → Bool
  | .renamed src dst => V.fsPathToVaultPath s src = some authorizedKeysFile &&
      (V.fsPathToVaultPath s dst).any fun path => !d.root.fileExists V.crates path
  | _ => false

theorem renamePaths_keepsKeys {src dst : Option Str} {w : Watch σ} (hw : V.GuardsKeys fid w)
    (hnorm : ∀ f, src = some f → Path.Normalized V.crates.nfc f)
    (hguard : src = some authorizedKeysFile → ∀ t, dst = some t →
      w.bound.doc.root.fileExists V.crates t = true) :
    Leads (V.renamePaths src dst) w (fun _ => V.GuardsKeys fid) (V.GuardsKeys fid) := by
  cases src with
  | none =>
    cases dst with
    | none => exact hw
    | some t => exact ingestFile_keeps keysAt_takenIn t w hw
  | some f =>
    cases dst with
    | none =>
      refine Keeps.ite_of (P := V.GuardsKeys fid) (fun _ => .pure _) (fun hkeys => ?_) w hw
      exact .bind (onDoc_keeps (Doc.ask_lasts _)) fun _ =>
        .ite (onDoc_keeps (deleteFile_keepsKeys (hnorm f rfl) hkeys)) (.pure _)
    | some t =>
      by_cases hkeys : f = authorizedKeysFile
      · -- The file is not moved, as the other path is taken.
        subst hkeys
        refine .bind (.of_ok rfl ?_)
        simp only [hguard rfl t rfl, Bool.not_true, Bool.and_false, Bool.false_eq_true, if_false]
        exact hw
      · exact Keeps.bind (P := V.GuardsKeys fid) (onDoc_keeps (Doc.ask_lasts _)) (fun _ =>
          .ite (onDoc_keeps (renameFile_keepsKeys (hnorm f rfl) hkeys)) (.pure _)) w hw

theorem dispatchFsEvent_keepsKeys {event : FsEvent} {w : Watch σ} (hw : V.GuardsKeys fid w)
    (hguard : V.renamesKeys w.ignores w.bound.doc event = false) :
    Leads (V.dispatchFsEvent event) w (fun _ => V.GuardsKeys fid) (V.GuardsKeys fid) := by
  cases event with
  | touched abs =>
    refine Keeps.bind (P := V.GuardsKeys fid) await_keeps (fun b => ?_) w hw
    cases V.isDir b.fs abs with
    | none => exact .pure _
    | some isDir =>
      cases isDir with
      | true =>
        refine .bind .get fun w => ?_
        cases V.fsPathToVaultDirPath w.ignores abs with
        | none => exact .pure _
        | some path => exact ingestDirectory_keeps keysAt_takenIn path
      | false =>
        refine .bind .get fun w => ?_
        cases V.fsPathToVaultPath w.ignores abs with
        | none => exact .pure _
        | some path => exact ingestFile_keeps keysAt_takenIn path
  | removed abs =>
    exact Keeps.bind (P := V.GuardsKeys fid) await_keeps
      (fun _ => .ite (.pure _) (remove_keepsKeys abs)) w hw
  | renamed src dst =>
    refine .bind (.get (renamePaths_keepsKeys hw (fun f hf => normalized_vaultPath hf) ?_))
    intro hsrc t hdst
    simpa [renamesKeys, hsrc, hdst] using hguard

/-- The matchers that an event is handled with. -/
def matchersOf (V : Watching σ) (w : Watch σ) (x : FsEvent × (Nat → σ × Nat)) : SyncIgnoreSet :=
  if x.1.touchesSyncignore then V.syncIgnoreSet (x.2 0).1 else w.ignores

theorem handleStep_keepsKeys {w w' : Watch σ} {x : FsEvent × (Nat → σ × Nat)}
    (hw : V.GuardsKeys fid w)
    (hguard : V.renamesKeys (V.matchersOf w x) w.bound.doc x.1 = false)
    (h : V.handleStep w x = some w') : V.GuardsKeys fid w' := by
  obtain ⟨event, ahead⟩ := x
  obtain rfl := Option.some.inj h
  have hlead : Leads (V.handleFsEvent event) {w with ahead} (fun _ => V.GuardsKeys fid)
      (V.GuardsKeys fid) := by
    unfold handleFsEvent
    by_cases htouches : event.touchesSyncignore = true
    · rw [matchersOf, if_pos htouches] at hguard
      rw [if_pos htouches]
      refine .bind (.bind (.of_ok rfl (.modify (.bind ?_))))
      have hdispatch := @dispatchFsEvent_keepsKeys σ V fid event
        {({w with ahead} : Watch σ).awaited with ignores := V.syncIgnoreSet (ahead 0).1} hw hguard
      refine hdispatch.attempt.weaken (fun dispatch w' hw' => ?_) fun _ h => h
      refine Keeps.bind (P := V.GuardsKeys fid) (initialScan_keeps keysAt_takenIn) (fun _ => ?_) w' hw'
      cases dispatch with
      | ok _ => exact .pure _
      | error e => exact .throw e
    · rw [matchersOf, if_neg htouches] at hguard
      rw [if_neg htouches]
      exact dispatchFsEvent_keepsKeys hw hguard
  cases hrun : V.handleFsEvent event {w with ahead} with
  | ok _ w' => exact hlead.ok hrun
  | error e w' => exact hlead.error hrun

/-- **As long as no event renames it within the vault, the file of keys stays live** where it is,
whatever the events are about and whatever is on the disk when they are handled. -/
theorem keys_stay_live {w₀ w : Watch σ}
    (hsound : w₀.bound.doc.Sound V.crates.nfc V.automerge) (hids : w₀.bound.doc.Fresh)
    (hlive : w₀.bound.doc.root.LiveAt V.crates authorizedKeysFile)
    (h : Machine.Reach V.handleStep
      (fun w x => V.renamesKeys (V.matchersOf w x) w.bound.doc x.1 = false) w₀ w) :
    w.bound.doc.root.LiveAt V.crates authorizedKeysFile := by
  obtain ⟨fid, hfind⟩ := hlive
  have hstanding := Root.standing_of_find hfind
  have hthere := Root.get_of_hasObject (Root.lookFile_eq_some hstanding.look).1
  have hw₀ : V.GuardsKeys fid w₀ := ⟨hsound, hstanding, fun n hn => hids.ne_file hthere hn⟩
  have hw : V.GuardsKeys fid w :=
    h.invariant hw₀ fun _ _ _ hw hguard hstep => handleStep_keepsKeys hw hguard hstep
  exact hw.stays.standing.liveAt hw.sound.rootTyped

/-- The document has the file of keys. -/
def keysDoc : Doc :=
  (Doc.new .plain (txt "v") (.numbered '1' 16)).after
    ((FileOp.writeTextFile authorizedKeysFile (txt "a")).run .letters)

theorem rooted_keysDoc : keysDoc.Rooted .letters .plain :=
  (Doc.Rooted.new (txt "v") (Supply.numbered_injective '1' 16)).file _

/-- A vault that has the file of keys, and nothing of it on the disk yet. -/
private def keyed : Watch Disk := .fresh .localDisk keysDoc .vaultDir

def keysPath : PathBuf := [txt "vault", authorizedKeysFile]

private theorem liveAt_keysDoc : keysDoc.root.LiveAt .letters authorizedKeysFile := by
  have hfind : ((keysDoc.root.findFileByPathNormalized .letters authorizedKeysFile).toOption
      = some (some ['1', 'i'])) := by
    decide +kernel
  cases h : keysDoc.root.findFileByPathNormalized .letters authorizedKeysFile with
  | error e =>
    rw [h] at hfind
    cases hfind
  | ok found =>
    rw [h] at hfind
    exact ⟨_, h.trans (congrArg _ (Option.some.inj hfind))⟩

theorem keys_stay_live_removed : ∃ w,
    Watching.localDisk.handleStep keyed (.removed keysPath, fun _ => (.vaultDir, 0)) = some w ∧
      w.bound.doc.root.LiveAt .letters authorizedKeysFile := by
  obtain ⟨w, hstep⟩ : ∃ w,
      Watching.localDisk.handleStep keyed (.removed keysPath, fun _ => (.vaultDir, 0)) = some w :=
    ⟨_, rfl⟩
  have hdoc : keyed.bound.doc = keysDoc := by simp only [keyed, Watch.fresh, Bound.fresh]
  have hrooted : keyed.bound.doc.Rooted Watching.localDisk.crates Watching.localDisk.automerge :=
    hdoc ▸ rooted_keysDoc
  have hlive : keyed.bound.doc.root.LiveAt Watching.localDisk.crates authorizedKeysFile :=
    hdoc ▸ liveAt_keysDoc
  have hguard (s : SyncIgnoreSet) (d : Doc) :
      Watching.localDisk.renamesKeys s d (.removed keysPath) = false := rfl
  have hreach : Machine.Reach Watching.localDisk.handleStep (fun w x =>
      Watching.localDisk.renamesKeys (Watching.localDisk.matchersOf w x) w.bound.doc x.1 = false)
      keyed w := .step _ .start (hguard _ _) hstep
  have hstays := keys_stay_live hrooted.settled.sound hrooted.settled.fresh hlive hreach
  exact ⟨w, hstep, hstays⟩

/-- **Renamed within the vault**, the file takes the keys of every peer with it. -/
theorem keys_stay_live_renamed :
    ¬ ∀ w, Machine.Reach Watching.localDisk.handleStep (fun _ _ => True) keyed w →
      w.bound.doc.root.LiveAt .letters authorizedKeysFile := by
  intro h
  have hgone : ((Watching.localDisk.handleStep keyed
      (.renamed keysPath [txt "vault", txt "keys.md"], fun _ => (.vaultDir, 0))).any fun w =>
        (w.bound.doc.root.findFileByPathNormalized .letters authorizedKeysFile).toOption =
          some none) = true := by
    decide +kernel
  obtain ⟨w, hw, hnone⟩ := (Option.any_eq_true _ _).mp hgone
  obtain ⟨fid, hfind⟩ := h w (.step _ .start trivial hw)
  rw [hfind] at hnone
  cases of_decide_eq_true hnone

end Watching

end AgentSync
