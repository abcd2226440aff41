import AgentSync.Doc.Replay
import AgentSync.Obsidian.Bridge

/-! The reconcile that starts a session.

`planReconcile` has a case for a path that the document has deleted and the vault still holds, and
`runReconcile` tells it which those are. It asks `listFiles`, which leaves deleted files out: the
planner sees a file of the vault that the document does not have, and pushes it
(`reconcile_resurrects`). -/
namespace AgentSync.Obsidian

open Js Program

structure ObsidianFileSummary where
  path : Str
  readText : Bridge Str

structure SdkFileSummary where
  path : Str
  deleted : Bool
  readText : Bridge Str

structure ReconcileInputs where
  obsidianFiles : List ObsidianFileSummary
  sdkFiles : List SdkFileSummary
  filter : Str → Bool

structure PlannedWrite where
  path : Str
  content : Str
  deriving DecidableEq, Repr

structure ReconcilePlan where
  pushToSdk : List PlannedWrite
  applyToObsidian : List PlannedWrite
  deleteInObsidian : List Str
  deriving DecidableEq, Repr

/-- The `Map` from paths to the summaries that pass the filter. -/
def byPath {α : Type} (path : α → Str) (filter : Str → Bool) (files : List α) : JsMap Str α :=
  files.foldl (fun m f => if filter (path f) then m.set (path f) f else m) ∅

/-- One turn of the loop over the paths of both sides. -/
def planPath (obs : JsMap Str ObsidianFileSummary) (sdk : JsMap Str SdkFileSummary)
    (plan : ReconcilePlan) (path : Str) : Bridge ReconcilePlan :=
  match obs.get? path, sdk.get? path with
  | some o, some s =>
    if s.deleted then return {plan with deleteInObsidian := plan.deleteInObsidian ++ [path]}
    else do
      let oContent ← o.readText
      let sContent ← s.readText
      if oContent = sContent then return plan
      else return {plan with pushToSdk := plan.pushToSdk ++ [⟨path, oContent⟩]}
  | some o, none => do
    let content ← o.readText
    return {plan with pushToSdk := plan.pushToSdk ++ [⟨path, content⟩]}
  | none, some s =>
    if s.deleted then return plan
    else do
      let content ← s.readText
      return {plan with applyToObsidian := plan.applyToObsidian ++ [⟨path, content⟩]}
  | none, none => return plan

def planReconcile (inputs : ReconcileInputs) : Bridge ReconcilePlan :=
  let obs := byPath ObsidianFileSummary.path inputs.filter inputs.obsidianFiles
  let sdk := byPath SdkFileSummary.path inputs.filter inputs.sdkFiles
  (obs.keys ++ sdk.keys.filter fun path => !obs.has path).foldlM (planPath obs sdk) ⟨[], [], []⟩

variable (host : Host)

/-- `sdk.writeTextFile`; what it awaits is the flush and the sync loop. -/
def sdkWriteTextFile (path content : Str) : Bridge Unit := fun a =>
  match Doc.writeTextFile host.crates path content a.doc with
  | .error e doc => .error e.text {a with doc := doc}
  | .ok _ doc =>
    match host.rejects a.awaits with
    | some e => .error e {a with doc := doc, awaits := a.awaits + 1}
    | none => .ok () {a with doc := doc, awaits := a.awaits + 1}

/-- What `runReconcile` hands to the planner. -/
def reconcileInputs : Bridge ReconcileInputs := do
  let obsidianFiles := (← get).vault.files.keys.map fun path =>
    (⟨path, vaultRead host path⟩ : ObsidianFileSummary)
  let sdkFiles ← sdkRead (Root.listFiles host.crates)
  return ⟨obsidianFiles,
    sdkFiles.map fun m =>
      ⟨m.path, truthy m.deletedAt, sdkRead (Root.readFile host.crates · m.path)⟩,
    host.filter⟩

def plannedReconcile : Bridge ReconcilePlan := do planReconcile (← reconcileInputs host)

/-- The `length` of a string: its UTF-16 units. -/
def jsLength (s : Str) : Nat := s.foldr (fun c n => n + if c.toNat < 0x10000 then 1 else 2) 0

def runReconcile : Bridge Unit := do
  let plan ← plannedReconcile host
  plan.pushToSdk.forM fun op => sdkWriteTextFile host op.path op.content
  plan.applyToObsidian.forM fun op =>
    applyOneRemoteFile host ⟨[], op.path, .text, jsLength op.content, 0, 0, none, none⟩
  plan.deleteInObsidian.forM fun path => do
    match ← getAbstractFileByPath path with
    | some _ => deleteLocal host path
    | none => pure ()

/-! ### The plan -/

section ByPath

variable {α : Type} {pathOf : α → Str} {filter : Str → Bool} {files : List α} {path : Str}

theorem mem_byPath {m : JsMap Str α} {f : α} (h : (path, f) ∈
    (files.foldl (fun m f => if filter (pathOf f) then m.set (pathOf f) f else m) m).entries) :
    (path, f) ∈ m.entries ∨ f ∈ files ∧ pathOf f = path := by
  induction files generalizing m with
  | nil => exact .inl h
  | cons x rest ih =>
    rw [List.foldl_cons] at h
    rcases ih h with hm | ⟨hf, heq⟩
    · split at hm
      · rcases JsMap.mem_set.mp hm with hnew | ⟨-, hold⟩
        · cases hnew
          exact .inr ⟨List.mem_cons_self, rfl⟩
        · exact .inl hold
      · exact .inl hm
    · exact .inr ⟨List.mem_cons_of_mem _ hf, heq⟩

theorem get?_byPath {f : α} (h : (byPath pathOf filter files).get? path = some f) :
    f ∈ files ∧ pathOf f = path :=
  (mem_byPath (JsMap.get?_eq_some.mp h)).resolve_left List.not_mem_nil

theorem mem_keys_foldl {m : JsMap Str α} : path ∈
    (files.foldl (fun m f => if filter (pathOf f) then m.set (pathOf f) f else m) m).keys ↔
      path ∈ m.keys ∨ filter path = true ∧ path ∈ files.map pathOf := by
  induction files generalizing m with
  | nil => simp
  | cons x rest ih =>
    rw [List.foldl_cons, ih, List.map_cons, List.mem_cons]
    by_cases hx : filter (pathOf x) = true
    · rw [if_pos hx, JsMap.mem_keys_set]
      by_cases heq : path = pathOf x
      · subst heq
        simp [hx]
      · simp [heq]
    · rw [if_neg hx]
      by_cases heq : path = pathOf x
      · subst heq
        simp [hx]
      · simp [heq]

theorem mem_keys_byPath :
    path ∈ (byPath pathOf filter files).keys ↔ filter path = true ∧ path ∈ files.map pathOf :=
  mem_keys_foldl.trans (or_iff_right List.not_mem_nil)

end ByPath

/-- What one turn of the planner does when nothing it sees is deleted. -/
theorem planPath_leads {P : App → Prop} {obs : JsMap Str ObsidianFileSummary}
    {sdk : JsMap Str SdkFileSummary} (plan : ReconcilePlan) (path : Str) {a : App} (ha : P a)
    (hobs : ∀ o, obs.get? path = some o → Keeps P o.readText)
    (hsdk : ∀ s, sdk.get? path = some s → s.deleted = false ∧ Keeps P s.readText) :
    Leads (planPath obs sdk plan path) a (fun plan' a' => P a' ∧
      plan'.deleteInObsidian = plan.deleteInObsidian ∧ plan.pushToSdk ⊆ plan'.pushToSdk ∧
      ((obs.get? path).isSome → sdk.get? path = none →
        path ∈ plan'.pushToSdk.map PlannedWrite.path)) P := by
  unfold planPath
  cases ho : obs.get? path with
  | none =>
    cases hs : sdk.get? path with
    | none => exact ⟨ha, rfl, fun _ h => h, nofun⟩
    | some s =>
      obtain ⟨hdeleted, hread⟩ := hsdk s hs
      simp only [hdeleted, Bool.false_eq_true, if_false]
      refine .bind ((hread a ha).weaken (fun content a' ha' => ?_) fun _ h => h)
      exact ⟨ha', rfl, fun _ h => h, nofun⟩
  | some o =>
    cases hs : sdk.get? path with
    | none =>
      refine .bind ((hobs o ho a ha).weaken (fun content a' ha' => ?_) fun _ h => h)
      exact ⟨ha', rfl, List.subset_append_left _ _, fun _ _ => by simp⟩
    | some s =>
      obtain ⟨hdeleted, hread⟩ := hsdk s hs
      simp only [hdeleted, Bool.false_eq_true, if_false]
      refine .bind ((hobs o ho a ha).weaken (fun oContent a' ha' => ?_) fun _ h => h)
      refine .bind ((hread a' ha').weaken (fun sContent a'' ha'' => ?_) fun _ h => h)
      split
      · exact ⟨ha'', rfl, fun _ h => h, nofun⟩
      · exact ⟨ha'', rfl, List.subset_append_left _ _, nofun⟩

/-- **Where nothing is listed as deleted, the plan deletes nothing, and pushes every path that
only the vault has.** -/
theorem planReconcile_leads {P : App → Prop} {inputs : ReconcileInputs} {a : App} (ha : P a)
    (hobs : ∀ o ∈ inputs.obsidianFiles, Keeps P o.readText)
    (hsdk : ∀ s ∈ inputs.sdkFiles, s.deleted = false ∧ Keeps P s.readText) :
    Leads (planReconcile inputs) a (fun plan a' => P a' ∧ plan.deleteInObsidian = [] ∧
      ∀ path, inputs.filter path = true → path ∈ inputs.obsidianFiles.map (·.path) →
        path ∉ inputs.sdkFiles.map (·.path) → path ∈ plan.pushToSdk.map PlannedWrite.path) P := by
  set obs := byPath ObsidianFileSummary.path inputs.filter inputs.obsidianFiles with hobsEq
  set sdk := byPath SdkFileSummary.path inputs.filter inputs.sdkFiles with hsdkEq
  -- A path is still to come, or it has had its turn.
  refine (Leads.foldlM (I := fun ys plan a => P a ∧ plan.deleteInObsidian = [] ∧
    ∀ path ∈ obs.keys, sdk.get? path = none →
      path ∈ ys ∨ path ∈ plan.pushToSdk.map PlannedWrite.path) ?_ ?_).weaken ?_ fun _ h => h
  · intro y ys plan s h
    obtain ⟨hs, hempty, hpaths⟩ := h
    refine (planPath_leads plan y hs (fun o ho => hobs o (get?_byPath ho).1)
      fun f hf => hsdk f (get?_byPath hf).1).weaken (fun plan' s' h' => ?_) fun _ h => h
    obtain ⟨hs', hdelete, hgrow, hpush⟩ := h'
    refine ⟨hs', hdelete.trans hempty, fun path hkey hnone => ?_⟩
    rcases hpaths path hkey hnone with hin | hpushed
    · rcases List.mem_cons.mp hin with rfl | hrest
      · exact .inr (hpush (JsMap.has_iff.mpr hkey) hnone)
      · exact .inl hrest
    · exact .inr (List.map_subset _ hgrow hpushed)
  · exact ⟨ha, rfl, fun path hkey _ => .inl (List.mem_append_left _ hkey)⟩
  · refine fun plan a' h => ⟨h.1, h.2.1, fun path hfilter hin hout => ?_⟩
    have hkey : path ∈ obs.keys := mem_keys_byPath.mpr ⟨hfilter, hin⟩
    have hnone : sdk.get? path = none := by
      by_contra hsome
      obtain ⟨s, hs⟩ := Option.ne_none_iff_exists'.mp hsome
      obtain ⟨hmem, rfl⟩ := get?_byPath hs
      exact hout (List.mem_map_of_mem hmem)
    exact (h.2.2 path hkey hnone).resolve_left List.not_mem_nil

/-! ### The reconcile -/

/-- The vault has a file at the path. -/
def Present (path : Str) (a : App) : Prop := path ∈ a.vault.files.keys

instance (path : Str) (a : App) : Decidable (Present path a) :=
  inferInstanceAs (Decidable (path ∈ a.vault.files.keys))

/-- The entries of a document that read, live and deleted. -/
def entryMetas (L : Crates) (r : Root) : List FileMeta :=
  r.fileKeys.filterMap fun fid => (r.readFileMeta L fid).toOption.join

/-- The document has deleted the file at the path and has none there. -/
def Tombstoned (L : Crates) (r : Root) (path : Str) : Prop :=
  (∃ m ∈ entryMetas L r, m.path = path) ∧
    ∀ m ∈ entryMetas L r, m.path = path → m.deletedAt.isSome

instance (L : Crates) (r : Root) (path : Str) : Decidable (Tombstoned L r path) :=
  inferInstanceAs (Decidable (_ ∧ _))

theorem not_listed {L : Crates} {r : Root} {path : Str} (h : Tombstoned L r path)
    {files : List FileMeta} (hfiles : r.listFiles L = .ok files) : path ∉ files.map (·.path) := by
  intro hmem
  obtain ⟨m, hm, rfl⟩ := List.mem_map.mp hmem
  obtain ⟨hread, hlive⟩ := (Root.mem_listFiles hfiles).mp hm
  have hkey : m.id ∈ r.fileKeys := by
    rw [Root.mem_fileKeys, Option.isSome_iff_ne_none]
    exact Root.get_of_hasObject (Root.readFileMeta_eq_some.mp hread).2.1
  have hentry : m ∈ entryMetas L r :=
    List.mem_filterMap.mpr ⟨m.id, hkey, by rw [hread]; rfl⟩
  have hdeleted := h.2 m hentry rfl
  rw [hlive] at hdeleted
  cases hdeleted

variable {host} {path : Str}

theorem steady_present : Steady (Present path) where
  counts := fun _ _ _ h => h
  extends_ := fun _ _ hv h => hv.files path h

theorem keeps_sdkWriteTextFile (p content : Str) :
    Keeps (Present path) (sdkWriteTextFile host p content) := by
  intro a ha
  cases hwrite : Doc.writeTextFile host.crates p content a.doc with
  | error e d =>
    simp only [Leads, sdkWriteTextFile, hwrite]
    exact ha
  | ok fid d =>
    cases hrejects : host.rejects a.awaits with
    | some e =>
      simp only [Leads, sdkWriteTextFile, hwrite, hrejects]
      exact ha
    | none =>
      simp only [Leads, sdkWriteTextFile, hwrite, hrejects]
      exact ha

/-- What the planner makes of a document: nothing to delete, ever, and every filtered path of the
vault that is not listed to push. -/
theorem plannedReconcile_leads {P : App → Prop} (hP : Steady P) {a : App} (ha : P a) :
    Leads (plannedReconcile host) a (fun plan a' => P a' ∧ plan.deleteInObsidian = [] ∧
      ∀ path, host.filter path = true → Present path a →
        (∀ files, a.doc.root.listFiles host.crates = .ok files → path ∉ files.map (·.path)) →
        path ∈ plan.pushToSdk.map PlannedWrite.path) P := by
  have hinputs : Leads (reconcileInputs host) a (fun inputs a' => P a' ∧
      ∃ files, a.doc.root.listFiles host.crates = .ok files ∧ inputs = ⟨a.vault.files.keys.map
        fun path => ⟨path, vaultRead host path⟩, files.map fun m =>
          ⟨m.path, truthy m.deletedAt, sdkRead (Root.readFile host.crates · m.path)⟩,
        host.filter⟩) P := by
    refine .bind (.get (.bind ?_))
    cases hlist : a.doc.root.listFiles host.crates with
    | error e => exact .of_error (by simp only [sdkRead, hlist]; rfl) ha
    | ok files => exact .of_ok (by simp only [sdkRead, hlist]) ⟨ha, files, rfl, rfl⟩
  refine .bind (hinputs.weaken (fun inputs a' h => ?_) fun _ h => h)
  obtain ⟨ha', files, hfiles, rfl⟩ := h
  refine (planReconcile_leads ha' (fun o ho => ?_) fun s hs => ?_).weaken
    (fun plan a'' h => ⟨h.1, h.2.1, fun path hfilter hin hout => ?_⟩) fun _ h => h
  · obtain ⟨p, -, rfl⟩ := List.mem_map.mp ho
    exact keeps_vaultRead hP p
  · obtain ⟨m, hm, rfl⟩ := List.mem_map.mp hs
    obtain ⟨-, hlive⟩ := (Root.mem_listFiles hfiles).mp hm
    exact ⟨by simp [truthy, hlive], keeps_sdkRead (Root.readFile host.crates · m.path)⟩
  · exact h.2.2 path hfilter (by simpa [Present] using hin) (by simpa using hout files hfiles)

theorem runReconcile_present {a : App} (ha : Present path a) :
    Present path (finish (runReconcile host a)) := by
  have hrun : Leads (runReconcile host) a (fun _ => Present path) (Present path) := by
    refine .bind ((plannedReconcile_leads steady_present ha).weaken (fun plan a' h => ?_)
      fun _ h => h)
    obtain ⟨ha', hempty, -⟩ := h
    have hpush := Keeps.forM (fun op : PlannedWrite =>
      @keeps_sdkWriteTextFile host path op.path op.content) plan.pushToSdk a' ha'
    refine .bind (hpush.weaken (fun _ a' ha' => ?_) fun _ h => h)
    have happly := Keeps.forM (fun op : PlannedWrite => @keeps_applyOneRemoteFile host _
      steady_present ⟨[], op.path, .text, jsLength op.content, 0, 0, none, none⟩ rfl)
      plan.applyToObsidian a' ha'
    refine .bind (happly.weaken (fun _ a' ha' => ?_) fun _ h => h)
    rw [hempty]
    exact ha'
  cases hstop : runReconcile host a with
  | ok u a' => exact hrun.ok hstop
  | error e a' => exact hrun.error hstop

/-- **A reconcile takes no file out of the vault, and plans to push back every one that the
document has deleted.** -/
theorem reconcile_resurrects {a : App} (hfilter : host.filter path = true)
    (hpresent : Present path a) (hdeleted : Tombstoned host.crates a.doc.root path) :
    Present path (finish (runReconcile host a)) ∧
      ∀ plan a', plannedReconcile host a = .ok plan a' →
        path ∉ plan.deleteInObsidian ∧ path ∈ plan.pushToSdk.map PlannedWrite.path := by
  constructor
  · exact runReconcile_present hpresent
  · intro plan a' hrun
    obtain ⟨-, hempty, hpush⟩ := (plannedReconcile_leads steady_present hpresent).ok hrun
    exact ⟨by simp [hempty], hpush path hfilter hpresent fun _ => not_listed hdeleted⟩

/-- A document that has deleted `a.md`, and a vault that still holds it. -/
private abbrev offline : App where
  vault := ⟨(∅ : JsMap Str Str).set (txt "a.md") (txt "old"), [], []⟩
  doc := .replica (.numbered '1' 16)
    [.writeTextFile (txt "a.md") (txt "old"), .deleteFile (txt "a.md")]
  suppressed := []
  knownSdkPaths := []
  awaits := 0

private abbrev allowing : Host := ⟨.plain, fun _ => true, fun _ => none⟩

/-- The note that another device has deleted stays, and is in the document again. -/
theorem reconcile_resurrects_offline :
    ¬ ∀ (host : Host) (path : Str) (a : App), host.filter path = true → Present path a →
      Tombstoned host.crates a.doc.root path →
      ¬ Present path (finish (runReconcile host a)) ∧
        (finish (runReconcile host a)).doc.root.fileExists host.crates path = false := by
  intro hdelete
  have hlive : (finish (runReconcile allowing offline)).doc.root.fileExists .plain (txt "a.md") =
      true := by decide +kernel
  have hgone := hdelete allowing (txt "a.md") offline rfl (by decide +kernel) (by decide +kernel)
  rw [hgone.2] at hlive
  cases hlive

theorem reconcile_resurrects_present : (txt "a.md") ∈
    (finish (runReconcile allowing offline)).vault.files.keys :=
  (@reconcile_resurrects allowing (txt "a.md") offline rfl (by decide +kernel)
    (by decide +kernel)).1

end AgentSync.Obsidian
