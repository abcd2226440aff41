import AgentSync.Obsidian.Deletions

/-! What a pass of the bridge comes to.

A pass writes file after file, and any of its calls may be refused. Whatever stops it, each file of
the vault is as it was or as the document has it (`Partly`). A pass that ends well has brought every
file that the document lists and taken out those that it lists no longer, with one token for each
file that it changed (`applyRemoteState_shows`), and leaves nothing to do for the next one
(`applyRemoteState_settles`). -/
namespace AgentSync.Obsidian

open Js Program

/-- The folders that are made for a path. -/
def prefixesFrom (cur : Str) : List Str → List Str
  | [] => []
  | seg :: rest =>
    let cur := if cur = [] then seg else cur ++ txt "/" ++ seg
    cur :: prefixesFrom cur rest

def foldersOf (path : Str) : List Str :=
  prefixesFrom [] (((Path.parent path).splitOn '/').filter fun seg => !seg.isEmpty)

variable (host : Host) (a₀ : App) (files : List FileMeta)

/-- The text that the document lists at a path, if the bridge syncs it. -/
def wanted (path : Str) : Option Str :=
  if (textPaths host files).contains path then (a₀.doc.root.readFile host.crates path).toOption
  else none

/-- The paths that a pass looks after: those of its listing and of the last one. -/
def Concerns (path : Str) : Prop :=
  path ∈ textPaths host files ∨ path ∈ a₀.knownSdkPaths ∧ host.filter path = true

/-- The pass does not get the folder of a path to be one: it is not among those that are made for
the path, or a file is there or is brought there. -/
def Stuck (path : Str) : Prop :=
  Path.parent path ≠ [] ∧ (Path.parent path ∉ foldersOf path ∨
    a₀.vault.files.has (Path.parent path) = true ∨ Path.parent path ∈ textPaths host files)

/-- Nothing is in the way of a pass: the cache of the vault is warm, what is refused is not refused
as existing, by the outside or for want of a folder, and no folder is where a file is looked after,
nor will be. -/
structure Clear : Prop where
  listed : a₀.doc.root.listFiles host.crates = .ok files
  warm : a₀.vault.cold = []
  rejects : ∀ n e, host.rejects n = some e → alreadyExists e = false
  quiet : ∀ path ∈ textPaths host files, Stuck host a₀ files path →
    alreadyExists (txt "ENOENT: no such file or directory, open '" ++ path ++ txt "'") = false
  folders : ∀ path, Concerns host a₀ files path → path ∉ a₀.vault.folders ∧
    ∀ q ∈ textPaths host files, path ∉ foldersOf q

/-- Wherever a pass is: each file is as it was or as the document has it. -/
structure Partly (a : App) : Prop extends Framed a₀ a where
  each : ∀ path, a.vault.files.get? path = a₀.vault.files.get? path ∨
    Concerns host a₀ files path ∧ a.vault.files.get? path = wanted host a₀ files path

/-- Where no call has been refused, some paths are done, and there is a token for each change. -/
structure Pulled (done : Set Str) (a : App) : Prop extends Partly host a₀ files a where
  folders : ∀ q ∈ a.vault.folders,
    q ∈ a₀.vault.folders ∨ ∃ path ∈ textPaths host files, q ∈ foldersOf path
  brought : ∀ path ∈ done, a.vault.files.get? path = wanted host a₀ files path
  readable : ∀ path ∈ done, path ∈ textPaths host files → wanted host a₀ files path ≠ none
  tokens : ∀ path, a.suppressed.count path = a₀.suppressed.count path +
    if a.vault.files.get? path = a₀.vault.files.get? path then 0 else 1

variable {host a₀ files} {a a' : App} {path : Str} {done done' : Set Str}

theorem wanted_of_mem (h : path ∈ textPaths host files) :
    wanted host a₀ files path = (a₀.doc.root.readFile host.crates path).toOption :=
  if_pos (List.contains_iff_mem.mpr h)

theorem wanted_of_notMem (h : path ∉ textPaths host files) : wanted host a₀ files path = none :=
  if_neg (List.contains_iff_mem.not.mpr h)

/-- Tokens and awaits are no matter of the files. -/
theorem Partly.counts (h : Partly host a₀ files a) (l : List Str) (n : Nat) :
    Partly host a₀ files {a with suppressed := l, awaits := n} :=
  ⟨⟨h.doc, h.known, h.cold⟩, h.each⟩

namespace Pulled

theorem awaited (h : Pulled host a₀ files done a) (n : Nat) :
    Pulled host a₀ files done {a with awaits := n} :=
  ⟨h.toPartly.counts a.suppressed n, h.folders, h.brought, h.readable, h.tokens⟩

theorem congr (h : Pulled host a₀ files done a) (hdone : ∀ path, path ∈ done ↔ path ∈ done') :
    Pulled host a₀ files done' a :=
  ⟨h.toPartly, h.folders, fun path hpath => h.brought path ((hdone path).mpr hpath),
    fun path hpath => h.readable path ((hdone path).mpr hpath), h.tokens⟩

/-- A path that needs nothing. -/
theorem found (h : Pulled host a₀ files done a)
    (hpath : a.vault.files.get? path = wanted host a₀ files path)
    (hreadable : path ∈ textPaths host files → wanted host a₀ files path ≠ none) :
    Pulled host a₀ files (done ∪ {path}) a := by
  refine ⟨h.toPartly, h.folders, fun p hp => ?_, fun p hp => ?_, h.tokens⟩
  · rcases hp with hp | rfl
    · exact h.brought p hp
    · exact hpath
  · rcases hp with hp | rfl
    · exact h.readable p hp
    · exact hreadable

/-- A file that is written or deleted, with the token that was taken for it. -/
theorem wrote (h : Pulled host a₀ files done a) (hconcerns : Concerns host a₀ files path)
    (hreadable : path ∈ textPaths host files → wanted host a₀ files path ≠ none)
    (hold : a.vault.files.get? path ≠ wanted host a₀ files path) {v : VaultState}
    (hcold : v.cold = a.vault.cold) (hfolders : v.folders = a.vault.folders)
    (hpath : v.files.get? path = wanted host a₀ files path)
    (hothers : ∀ p ≠ path, v.files.get? p = a.vault.files.get? p) (n : Nat) :
    Pulled host a₀ files (done ∪ {path})
      {a with vault := v, suppressed := path :: a.suppressed, awaits := n} where
  doc := h.doc
  known := h.known
  cold := hcold.trans h.cold
  each p := by
    by_cases hp : p = path
    · subst hp
      exact .inr ⟨hconcerns, hpath⟩
    · rw [show ({a with vault := v, suppressed := path :: a.suppressed, awaits := n} :
        App).vault.files.get? p = a.vault.files.get? p from hothers p hp]
      exact h.each p
  folders q hq := h.folders q (hfolders ▸ hq)
  brought p hp := by
    by_cases heq : p = path
    · subst heq
      exact hpath
    · exact (hothers p heq).trans (h.brought p (hp.resolve_right heq))
  readable p hp := by
    rcases hp with hp | rfl
    · exact h.readable p hp
    · exact hreadable
  tokens p := by
    have htokens := h.tokens p
    by_cases hp : p = path
    · subst hp
      have hbefore : a.vault.files.get? p = a₀.vault.files.get? p :=
        (h.each p).resolve_right fun hw => hold hw.2
      have hchanged : v.files.get? p ≠ a₀.vault.files.get? p := by
        rw [hpath, ← hbefore]
        exact hold.symm
      rw [if_pos hbefore] at htokens
      simp only [List.count_cons_self, if_neg hchanged, htokens]
    · simp only [List.count_cons_of_ne (Ne.symm hp), hothers p hp, htokens]

/-- The text that the document lists is written. -/
theorem set (h : Pulled host a₀ files done a) (hpath : path ∈ textPaths host files) {content : Str}
    (hcontent : wanted host a₀ files path = some content)
    (hold : a.vault.files.get? path ≠ some content) (n : Nat) :
    Pulled host a₀ files (done ∪ {path})
      {a with
        vault := {a.vault with files := a.vault.files.set path content}
        suppressed := path :: a.suppressed
        awaits := n} := by
  refine h.wrote (v := {a.vault with files := a.vault.files.set path content}) (.inl hpath)
    (fun _ => hcontent ▸ Option.some_ne_none content) ?_ rfl rfl ?_ (fun p hp => ?_) n
  · rwa [hcontent]
  · rw [hcontent]
    exact JsMap.get?_set_self _ _ _
  · exact JsMap.get?_set_of_ne hp _

end Pulled

/-! ### Calls of the vault -/

/-- A call that succeeds unless it is refused. -/
theorem vaultWrite_leads {call : VaultState → Except Str VaultState} {v : VaultState}
    {Q : Unit → App → Prop} {E : App → Prop} (hcall : call a.vault = .ok v)
    (hQ : Q () {a with vault := v, awaits := a.awaits + 1})
    (hE : E {a with awaits := a.awaits + 1}) : Leads (vaultWrite host call) a Q E := by
  cases hrejects : host.rejects a.awaits with
  | some e => simpa only [Leads, vaultWrite, awaitVault, hrejects] using hE
  | none => simpa only [Leads, vaultWrite, awaitVault, hrejects, hcall, Except.map] using hQ

/-- A call that may fail, but not as finding what it makes. -/
theorem unlessExists_leads {call : VaultState → Except Str VaultState} {recover : Bridge Unit}
    {Q : Unit → App → Prop} {E : App → Prop}
    (hrejects : ∀ n e, host.rejects n = some e → alreadyExists e = false)
    (hcall : ∀ e, call a.vault = .error e → alreadyExists e = false)
    (hQ : ∀ v, call a.vault = .ok v → Q () {a with vault := v, awaits := a.awaits + 1})
    (hE : E {a with awaits := a.awaits + 1}) :
    Leads (unlessExists (vaultWrite host call) recover) a Q E := by
  cases hrefused : host.rejects a.awaits with
  | some e =>
    simpa only [Leads, unlessExists, vaultWrite, awaitVault, hrefused, hrejects _ e hrefused,
      Bool.false_eq_true, if_false] using hE
  | none =>
    cases hrun : call a.vault with
    | error e =>
      simpa only [Leads, unlessExists, vaultWrite, awaitVault, hrefused, hrun, Except.map,
        hcall e hrun, Bool.false_eq_true, if_false] using hE
    | ok v =>
      simpa only [Leads, unlessExists, vaultWrite, awaitVault, hrefused, hrun, Except.map]
        using hQ v hrun

theorem find_eq_none {v : VaultState} (hwarm : v.cold = [])
    (h : v.getAbstractFileByPath path = none) :
    v.files.has path = false ∧ v.folders.contains path = false := by
  unfold VaultState.getAbstractFileByPath at h
  rw [hwarm, List.contains_nil, if_neg Bool.false_ne_true] at h
  split at h
  next => cases h
  next hfile =>
    split at h
    next => cases h
    next hfolder => exact ⟨Bool.eq_false_of_not_eq_true hfile, Bool.eq_false_of_not_eq_true hfolder⟩

theorem find_eq_file {v : VaultState} (h : v.getAbstractFileByPath path = some .file) :
    v.files.has path = true := by
  unfold VaultState.getAbstractFileByPath at h
  split at h
  next => cases h
  next =>
    split at h
    next hfile => exact hfile
    next =>
      split at h
      next => cases h
      next => cases h

theorem find_eq_folder {v : VaultState} (h : v.getAbstractFileByPath path = some .folder) :
    path ∈ v.folders := by
  unfold VaultState.getAbstractFileByPath at h
  split at h
  next => cases h
  next =>
    split at h
    next => cases h
    next =>
      split at h
      next hfolder => exact List.contains_iff_mem.mp hfolder
      next => cases h

/-- Where a file is looked after no folder is. -/
theorem Pulled.notMem_folders (h : Pulled host a₀ files done a) (hc : Clear host a₀ files)
    (hpath : Concerns host a₀ files path) : path ∉ a.vault.folders := by
  intro hin
  obtain ⟨hnow, hlater⟩ := hc.folders path hpath
  rcases h.folders path hin with hin | ⟨q, hq, hin⟩
  · exact hnow hin
  · exact hlater q hq hin

/-! ### One file -/

/-- The folders are there, where no file is, and the files are as they were. -/
structure Roomed (qs : List Str) (a a' : App) : Prop where
  files : a'.vault.files = a.vault.files
  kept : a.vault.folders ⊆ a'.vault.folders
  made : ∀ q ∈ qs, a'.vault.files.has q = true ∨ q ∈ a'.vault.folders

theorem Roomed.cons {q : Str} {qs : List Str} {a₁ : App} (h : Roomed qs a₁ a')
    (hfiles : a₁.vault.files = a.vault.files) (hkept : a.vault.folders ⊆ a₁.vault.folders)
    (hmade : a₁.vault.files.has q = true ∨ q ∈ a₁.vault.folders) : Roomed (q :: qs) a a' := by
  refine ⟨h.files.trans hfiles, List.Subset.trans hkept h.kept, fun p hp => ?_⟩
  obtain rfl | hp := List.mem_cons.mp hp
  · rw [h.files]
    exact hmade.imp_right fun hin => h.kept hin
  · exact h.made p hp

theorem found_of_find {v : VaultState} {f : AbstractFile}
    (h : v.getAbstractFileByPath path = some f) : v.files.has path = true ∨ path ∈ v.folders := by
  cases f with
  | file => exact .inl (find_eq_file h)
  | folder => exact .inr (find_eq_folder h)

theorem ensureFolders_leads (hc : Clear host a₀ files) (hpath : path ∈ textPaths host files)
    {cur : Str} {parts : List Str} (hparts : ∀ q ∈ prefixesFrom cur parts, q ∈ foldersOf path)
    (h : Pulled host a₀ files done a) : Leads (ensureFolders host cur parts) a
      (fun _ a' => Pulled host a₀ files done a' ∧ Roomed (prefixesFrom cur parts) a a')
      (Partly host a₀ files) := by
  induction parts generalizing cur a with
  | nil => exact ⟨h, rfl, List.Subset.refl _, fun q hq => absurd hq List.not_mem_nil⟩
  | cons seg rest ih =>
    simp only [prefixesFrom, List.forall_mem_cons] at hparts ⊢
    obtain ⟨hfirst, hrest⟩ := hparts
    unfold ensureFolders
    generalize (if cur = [] then seg else cur ++ txt "/" ++ seg) = folder at hfirst hrest ⊢
    refine .bind (.of_ok rfl ?_)
    cases hfind : a.vault.getAbstractFileByPath folder with
    | some _ =>
      exact (ih hrest h).weaken (fun _ _ h' => ⟨h'.1, h'.2.cons rfl (List.Subset.refl _)
        (found_of_find hfind)⟩) fun _ h' => h'
    | none =>
      have hwarm : a.vault.cold = [] := h.cold.trans hc.warm
      obtain ⟨hfile, hfolder⟩ := find_eq_none hwarm hfind
      have hcreate : a.vault.createFolder folder =
          .ok {a.vault with folders := a.vault.folders ++ [folder]} := by
        rw [VaultState.createFolder, hfile, hfolder]
        rfl
      refine .bind (unlessExists_leads hc.rejects (fun e he => ?_) (fun v hv => ?_) ?_)
      · rw [hcreate] at he
        cases he
      · rw [hcreate] at hv
        obtain rfl := Except.ok.inj hv
        refine (ih hrest ?_).weaken (fun _ _ h' => ⟨h'.1, h'.2.cons rfl
          (List.subset_append_left _ _) (.inr (List.mem_append_right _ (List.mem_singleton_self _)))⟩)
          fun _ h' => h'
        refine ⟨⟨⟨h.doc, h.known, h.cold⟩, h.each⟩, fun q hq => ?_, h.brought, h.readable,
          h.tokens⟩
        rcases List.mem_append.mp hq with hq | hq
        · exact h.folders q hq
        · exact .inr ⟨path, hpath, List.mem_singleton.mp hq ▸ hfirst⟩
      · exact h.toPartly.counts a.suppressed _

/-- What is in the vault where a folder is wanted was there or has been brought. -/
theorem Pulled.stuck_of_file (h : Pulled host a₀ files done a) (hroot : Path.parent path ≠ [])
    (hfile : a.vault.files.has (Path.parent path) = true) : Stuck host a₀ files path := by
  refine ⟨hroot, .inr ?_⟩
  rw [JsMap.has] at hfile ⊢
  obtain hsame | ⟨-, hwanted⟩ := h.each (Path.parent path)
  · exact .inl (hsame ▸ hfile)
  · refine .inr (by_contra fun hnot => ?_)
    rw [hwanted, wanted_of_notMem hnot] at hfile
    cases hfile

theorem ensureFolderFor_leads (hc : Clear host a₀ files) (hpath : path ∈ textPaths host files)
    (h : Pulled host a₀ files done a) : Leads (ensureFolderFor host path) a
      (fun _ a' => Pulled host a₀ files done a' ∧ a'.vault.files = a.vault.files ∧
        (Stuck host a₀ files path ∨ Path.parent path = [] ∨ Path.parent path ∈ a'.vault.folders))
      (Partly host a₀ files) := by
  unfold ensureFolderFor
  by_cases hroot : Path.parent path = []
  · rw [if_pos hroot]
    exact ⟨h, rfl, .inr (.inl hroot)⟩
  · rw [if_neg hroot]
    refine .bind (.of_ok rfl ?_)
    cases hfind : a.vault.getAbstractFileByPath (Path.parent path) with
    | some _ =>
      refine ⟨h, rfl, ?_⟩
      obtain hfile | hfolder := found_of_find hfind
      · exact .inl (h.stuck_of_file hroot hfile)
      · exact .inr (.inr hfolder)
    | none =>
      refine (ensureFolders_leads hc hpath (fun _ hq => hq) h).weaken (fun _ a' h' => ?_)
        fun _ h' => h'
      obtain ⟨h', hroomed⟩ := h'
      refine ⟨h', hroomed.files, ?_⟩
      by_cases hin : Path.parent path ∈ foldersOf path
      · obtain hfile | hfolder := hroomed.made _ hin
        · exact .inl (h'.stuck_of_file hroot hfile)
        · exact .inr (.inr hfolder)
      · exact .inl ⟨hroot, .inl hin⟩

/-- A file that the vault does not have. -/
theorem createRemote_leads (hc : Clear host a₀ files) (hpath : path ∈ textPaths host files)
    {content : Str} (hcontent : wanted host a₀ files path = some content)
    (hfile : a.vault.files.get? path = none) (h : Pulled host a₀ files done a) :
    Leads (createRemote host path content) a
      (fun _ a' => Pulled host a₀ files (done ∪ {path}) a') (Partly host a₀ files) := by
  refine .bind ((ensureFolderFor_leads hc hpath h).weaken (fun _ a₁ h₁ => ?_) fun _ h => h)
  obtain ⟨h₁, hfiles, hfolder⟩ := h₁
  refine .bind (.modify ?_)
  have hnofile : a₁.vault.files.get? path = none := hfiles ▸ hfile
  have hnofolder : path ∉ a₁.vault.folders := h₁.notMem_folders hc (.inl hpath)
  have habsent : (a₁.vault.files.has path || a₁.vault.folders.contains path) = false := by
    rw [JsMap.has, hnofile, List.contains_eq_mem, decide_eq_false hnofolder]
    rfl
  refine unlessExists_leads hc.rejects (fun e he => ?_) (fun v hv => ?_)
    (h₁.toPartly.counts _ _)
  · simp only [VaultState.create, habsent, Bool.false_eq_true, if_false] at he
    split at he
    next hmissing =>
      have hstuck : Stuck host a₀ files path := by
        refine hfolder.resolve_right fun hroom => ?_
        obtain hroot | hin := hroom
        · exact hmissing.1 hroot
        · rw [List.contains_iff_mem.mpr hin] at hmissing
          cases hmissing.2
      exact Except.error.inj he ▸ hc.quiet path hpath hstuck
    next => cases he
  · simp only [VaultState.create, habsent, Bool.false_eq_true, if_false] at hv
    split at hv
    next => cases hv
    next =>
      obtain rfl := Except.ok.inj hv
      refine h₁.set hpath hcontent ?_ _
      rw [hnofile]
      exact (Option.some_ne_none _).symm

/-- A file that the vault has. -/
theorem modifyRemote_leads (hpath : path ∈ textPaths host files)
    {content : Str} (hcontent : wanted host a₀ files path = some content)
    (hfile : a.vault.files.has path = true) (h : Pulled host a₀ files done a) :
    Leads (modifyRemote host path content) a
      (fun _ a' => Pulled host a₀ files (done ∪ {path}) a') (Partly host a₀ files) := by
  obtain ⟨cur, hcur⟩ := Option.isSome_iff_exists.mp hfile
  have hread : (a.vault.read path).map (·, a.vault) = .ok (cur, a.vault) := by
    rw [VaultState.read, hcur]
    rfl
  have hawaited := h.awaited (a.awaits + 1)
  unfold modifyRemote
  refine .bind ?_
  cases hrejects : host.rejects a.awaits with
  | some e => simpa only [Leads, vaultRead, awaitVault, hrejects] using hawaited.toPartly
  | none =>
    have hrun : vaultRead host path a = .ok cur {a with awaits := a.awaits + 1} := by
      simp only [vaultRead, awaitVault, hrejects, hread]
    refine .of_ok hrun ?_
    by_cases hsame : cur = content
    · rw [if_pos hsame]
      exact hawaited.found (hcur.trans (hsame ▸ hcontent.symm))
        fun _ => hcontent ▸ Option.some_ne_none content
    · rw [if_neg hsame]
      refine .bind (.modify ?_)
      have hmodify : a.vault.modify path content =
          .ok {a.vault with files := a.vault.files.set path content} := if_pos hfile
      refine vaultWrite_leads hmodify ?_ (h.toPartly.counts _ _)
      refine h.set hpath hcontent ?_ _
      rw [hcur]
      exact fun heq => hsame (Option.some.inj heq)

theorem mem_textPaths {m : FileMeta} (hm : m ∈ files) (hkind : m.kind = .text)
    (hfilter : host.filter m.path = true) : m.path ∈ textPaths host files := by
  refine List.mem_map.mpr ⟨m, List.mem_filter.mpr ⟨hm, ?_⟩, rfl⟩
  rw [decide_eq_true hkind, hfilter]
  rfl

/-- **A turn of the first loop** brings its file, if the bridge syncs it. -/
theorem applyOneRemoteFile_leads (hc : Clear host a₀ files) {m : FileMeta} (hm : m ∈ files)
    (h : Pulled host a₀ files done a) : Leads (applyOneRemoteFile host m) a
      (fun _ a' => Pulled host a₀ files (done ∪ {p | p ∈ textPaths host [m]}) a')
      (Partly host a₀ files) := by
  have hpasses (hnone : textPaths host [m] = []) :
      Pulled host a₀ files (done ∪ {p | p ∈ textPaths host [m]}) a :=
    h.congr fun p => by simp [hnone]
  unfold applyOneRemoteFile
  by_cases hkind : m.kind = .text
  · rw [if_neg (not_not.mpr hkind)]
    cases hfilter : host.filter m.path with
    | false => exact hpasses (by simp [textPaths, hfilter])
    | true =>
      have hone : textPaths host [m] = [m.path] := by simp [textPaths, hkind, hfilter]
      have hpath := mem_textPaths hm hkind hfilter
      have hlive : truthy m.deletedAt = false := by
        rw [((Root.mem_listFiles hc.listed).mp hm).2]
        rfl
      refine Leads.weaken (Q := fun _ a' => Pulled host a₀ files (done ∪ {m.path}) a') ?_
        (fun _ a' h' => h'.congr fun p => by simp [hone]) fun _ h' => h'
      refine .bind (.of_ok rfl ?_)
      rw [hlive, if_neg Bool.false_ne_true]
      refine .bind ?_
      cases hread : a.doc.root.readFile host.crates m.path with
      | error e =>
        have hrun : sdkRead (Root.readFile host.crates · m.path) a = .error e.text a := by
          simp only [sdkRead, hread]
        exact .of_error hrun h.toPartly
      | ok content =>
        have hcontent : wanted host a₀ files m.path = some content := by
          rw [wanted_of_mem hpath, ← h.doc, hread]
          rfl
        have hrun : sdkRead (Root.readFile host.crates · m.path) a = .ok content a := by
          simp only [sdkRead, hread]
        refine .of_ok hrun ?_
        cases hfind : a.vault.getAbstractFileByPath m.path with
        | none =>
          have hno := (find_eq_none (h.cold.trans hc.warm) hfind).1
          refine createRemote_leads hc hpath hcontent ?_ h
          rwa [JsMap.has, Option.isSome_eq_false_iff, Option.isNone_iff_eq_none] at hno
        | some f =>
          cases f with
          | file => exact modifyRemote_leads hpath hcontent (find_eq_file hfind) h
          | folder =>
            exact absurd (find_eq_folder hfind) (h.notMem_folders hc (.inl hpath))
  · rw [if_pos hkind]
    exact hpasses (by simp [textPaths, hkind])

theorem applyFiles_leads (hc : Clear host a₀ files) {ms : List FileMeta} (hms : ms ⊆ files)
    (h : Pulled host a₀ files done a) : Leads (ms.forM (applyOneRemoteFile host)) a
      (fun _ a' => Pulled host a₀ files (done ∪ {p | p ∈ textPaths host ms}) a')
      (Partly host a₀ files) := by
  induction ms generalizing done a with
  | nil => exact h.congr fun p => by simp [textPaths]
  | cons m ms ih =>
    obtain ⟨hm, hms⟩ := List.cons_subset.mp hms
    refine .bind ((applyOneRemoteFile_leads hc hm h).weaken (fun _ a₁ h₁ => ?_) fun _ h => h)
    refine (ih hms h₁).weaken (fun _ a₂ h₂ => h₂.congr fun p => ?_) fun _ h => h
    have hsplit : textPaths host (m :: ms) = textPaths host [m] ++ textPaths host ms := by
      rw [textPaths, textPaths, textPaths, ← List.map_append, ← List.filter_append,
        List.singleton_append]
    simp [hsplit, or_assoc]

/-! ### What is no longer listed -/

theorem deleteLocal_pulls (hc : Clear host a₀ files) (hconcerns : Concerns host a₀ files path)
    (hgone : path ∉ textPaths host files) {f : AbstractFile}
    (hfind : a.vault.getAbstractFileByPath path = some f) (h : Pulled host a₀ files done a) :
    Leads (deleteLocal host path) a
      (fun _ a' => Pulled host a₀ files (done ∪ {path}) a') (Partly host a₀ files) := by
  cases f with
  | folder => exact absurd (find_eq_folder hfind) (h.notMem_folders hc hconcerns)
  | file =>
    have hfile := find_eq_file hfind
    have hdelete : a.vault.delete path =
        .ok {a.vault with files := a.vault.files.restrict (· ≠ path)} := if_pos hfile
    have hnone : wanted host a₀ files path = none := wanted_of_notMem hgone
    refine .bind (.modify (vaultWrite_leads hdelete ?_ (h.toPartly.counts _ _)))
    refine h.wrote (v := {a.vault with files := a.vault.files.restrict (· ≠ path)}) hconcerns
      (fun hin => absurd hin hgone) ?_ rfl rfl ?_ (fun p hp => ?_) _
    · obtain ⟨cur, hcur⟩ := Option.isSome_iff_exists.mp hfile
      rw [hcur, hnone]
      exact Option.some_ne_none _
    · simp [JsMap.get?_restrict, hnone]
    · simp [JsMap.get?_restrict, hp]

/-- **A turn of the second loop** takes its path out, if it is one to take out. -/
theorem applyTombstone_pulls (hc : Clear host a₀ files) (hknown : path ∈ a₀.knownSdkPaths)
    (hlisted : ∀ p ∈ textPaths host files, p ∈ done) (h : Pulled host a₀ files done a) :
    Leads (applyTombstone host (textPaths host files) path) a
      (fun _ a' => Pulled host a₀ files (done ∪ {p | p = path ∧ host.filter p = true}) a')
      (Partly host a₀ files) := by
  unfold applyTombstone
  by_cases hin : path ∈ textPaths host files
  · rw [if_pos (List.contains_iff_mem.mpr hin)]
    refine h.congr fun p => ⟨Or.inl, fun hp => hp.elim id fun hp => ?_⟩
    exact hp.1 ▸ hlisted path hin
  · rw [if_neg (List.contains_iff_mem.not.mpr hin)]
    cases hfilter : host.filter path with
    | false =>
      refine h.congr fun p => ⟨Or.inl, fun hp => ?_⟩
      rcases hp with hp | ⟨rfl, hallowed⟩
      · exact hp
      · rw [hfilter] at hallowed
        cases hallowed
    | true =>
      have hone (p : Str) : p ∈ done ∪ {path} ↔ p ∈ done ∪ {p | p = path ∧ host.filter p = true} :=
        or_congr_right ⟨fun hp => ⟨hp, hp ▸ hfilter⟩, fun hp => hp.1⟩
      refine .bind (.of_ok rfl ?_)
      cases hfind : a.vault.getAbstractFileByPath path with
      | none =>
        have hno := (find_eq_none (h.cold.trans hc.warm) hfind).1
        rw [JsMap.has, Option.isSome_eq_false_iff, Option.isNone_iff_eq_none] at hno
        exact (h.found (hno.trans (wanted_of_notMem hin).symm) fun h => absurd h hin).congr hone
      | some f =>
        exact (deleteLocal_pulls hc (.inr ⟨hknown, hfilter⟩) hin hfind h).weaken
          (fun _ _ h' => h'.congr hone) fun _ h' => h'

theorem applyTombstones_pulls (hc : Clear host a₀ files) {ps : List Str}
    (hps : ps ⊆ a₀.knownSdkPaths) (hlisted : ∀ p ∈ textPaths host files, p ∈ done)
    (h : Pulled host a₀ files done a) :
    Leads (ps.forM (applyTombstone host (textPaths host files))) a
      (fun _ a' => Pulled host a₀ files (done ∪ {p | p ∈ ps ∧ host.filter p = true}) a')
      (Partly host a₀ files) := by
  induction ps generalizing done a with
  | nil => exact h.congr fun p => by simp
  | cons path ps ih =>
    obtain ⟨hknown, hps⟩ := List.cons_subset.mp hps
    refine .bind ((applyTombstone_pulls hc hknown hlisted h).weaken (fun _ a₁ h₁ => ?_)
      fun _ h => h)
    refine (ih hps (fun p hp => .inl (hlisted p hp)) h₁).weaken
      (fun _ a₂ h₂ => h₂.congr fun p => ?_) fun _ h => h
    simp [or_assoc, or_and_right]

/-! ### A whole pass -/

variable (host a₀ files) in
/-- The vault shows what the document lists, at the paths that the pass looks after. -/
structure Shows (a : App) : Prop where
  doc : a.doc = a₀.doc
  known : a.knownSdkPaths = textPaths host files
  cold : a.vault.cold = a₀.vault.cold
  folders : ∀ q ∈ a.vault.folders,
    q ∈ a₀.vault.folders ∨ ∃ path ∈ textPaths host files, q ∈ foldersOf path
  listed : ∀ path ∈ textPaths host files, ∃ content,
    a₀.doc.root.readFile host.crates path = .ok content ∧
      a.vault.files.get? path = some content
  gone : ∀ path ∈ a₀.knownSdkPaths, path ∉ textPaths host files → host.filter path = true →
    a.vault.files.get? path = none
  others : ∀ path, ¬ Concerns host a₀ files path →
    a.vault.files.get? path = a₀.vault.files.get? path
  tokens : ∀ path, a.suppressed.count path = a₀.suppressed.count path +
    if a.vault.files.get? path = a₀.vault.files.get? path then 0 else 1

/-- **A pass of the bridge.** Where nothing is in its way, a pass that is stopped leaves each file
as it was or as the document has it, and one that ends well leaves the vault with every text file
that the document lists and without those that it lists no longer; no other file has changed, and a
token was taken for each that has. -/
theorem applyRemoteState_shows (hc : Clear host a₀ files) :
    Leads (applyRemoteState host) a₀ (fun _ => Shows host a₀ files) (Partly host a₀ files) := by
  have hstart : Pulled host a₀ files ∅ a₀ :=
    ⟨⟨⟨rfl, rfl, rfl⟩, fun _ => .inl rfl⟩, fun q hq => .inl hq,
      fun p hp => absurd hp (Set.notMem_empty p), fun p hp => absurd hp (Set.notMem_empty p),
      fun p => by simp⟩
  have hlist : sdkRead (Root.listFiles host.crates) a₀ = .ok files a₀ := by
    simp only [sdkRead, hc.listed]
  refine .bind (.of_ok hlist ?_)
  refine .bind ((applyFiles_leads hc (List.Subset.refl _) hstart).weaken (fun _ a₁ h₁ => ?_)
    fun _ h => h)
  refine .bind (.get ?_)
  rw [h₁.known]
  refine .bind ((applyTombstones_pulls hc (List.Subset.refl _) (fun p hp => .inr hp) h₁).weaken
    (fun _ a₂ h₂ => ?_) fun _ h => h)
  refine .modify ⟨h₂.doc, rfl, h₂.cold, h₂.folders, fun p hp => ?_, fun p hin hgone hfilter => ?_,
    fun p hno => ?_, h₂.tokens⟩
  · have hbrought := h₂.brought p (.inl (.inr hp))
    have hreadable := h₂.readable p (.inl (.inr hp)) hp
    rw [wanted_of_mem hp] at hbrought hreadable
    cases hread : a₀.doc.root.readFile host.crates p with
    | error e =>
      rw [hread] at hreadable
      exact absurd rfl hreadable
    | ok content =>
      rw [hread] at hbrought
      exact ⟨content, rfl, hbrought⟩
  · exact (h₂.brought p (.inr ⟨hin, hfilter⟩)).trans (wanted_of_notMem hgone)
  · exact (h₂.each p).resolve_right fun hw => hno hw.1

private abbrev unhindered : Host := ⟨.plain, fun _ => true, fun _ => none⟩

/-- Of two files in the vault one has changed in the document, and one has gone from it. -/
private abbrev behind : App where
  vault := ⟨((∅ : JsMap Str Str).set (txt "a.md") (txt "B")).set (txt "b.md") (txt "C"), [], []⟩
  doc := .replica (.numbered '1' 16) [.writeTextFile (txt "a.md") (txt "A")]
  suppressed := []
  knownSdkPaths := [txt "b.md"]
  awaits := 0

private theorem clear_behind : ∃ files, Clear unhindered behind files ∧
    textPaths unhindered files = [txt "a.md"] := by
  have hlisted : ((behind.doc.root.listFiles .plain).toOption.any fun files =>
      decide (textPaths unhindered files = [txt "a.md"])) = true := by
    decide +kernel
  obtain ⟨files, hfiles, hpaths⟩ := (Option.any_eq_true _ _).mp hlisted
  have hpaths := of_decide_eq_true hpaths
  have hnone : foldersOf (txt "a.md") = [] := by decide +kernel
  have hone (path : Str) (hpath : path ∈ textPaths unhindered files) : path = txt "a.md" := by
    rwa [hpaths, List.mem_singleton] at hpath
  refine ⟨files, ?_, hpaths⟩
  constructor
  · exact eq_ok_of_toOption hfiles
  · rfl
  · intro n e h
    cases h
  · intro path hpath hstuck
    rw [hone path hpath] at hstuck
    exact absurd (show Path.parent (txt "a.md") = [] from by decide +kernel) hstuck.1
  · intro path _
    refine ⟨List.not_mem_nil, fun q hq => ?_⟩
    rw [hone q hq, hnone]
    exact List.not_mem_nil

private def endsTwice (host : Host) (a : App) : Bool :=
  match applyRemoteState host a with
  | .error _ _ => false
  | .ok _ a =>
    match applyRemoteState host a with
    | .error _ _ => false
    | .ok _ _ => true

private theorem endsTwice_behind : endsTwice unhindered behind = true := by
  decide +kernel

theorem applyRemoteState_shows_behind : ∃ a, applyRemoteState unhindered behind = .ok () a ∧
    a.vault.files.get? (txt "b.md") = none ∧ a.suppressed.count (txt "b.md") = 1 := by
  obtain ⟨files, hclear, hpaths⟩ := clear_behind
  have hends := endsTwice_behind
  unfold endsTwice at hends
  cases hrun : applyRemoteState unhindered behind with
  | error e a =>
    rw [hrun] at hends
    cases hends
  | ok _ a =>
    have h := (applyRemoteState_shows hclear).ok hrun
    have hgone : a.vault.files.get? (txt "b.md") = none :=
      h.gone (txt "b.md") (by decide) (by rw [hpaths]; decide) rfl
    refine ⟨a, rfl, hgone, ?_⟩
    rw [h.tokens, hgone]
    decide

theorem Shows.clear (hc : Clear host a₀ files) (h : Shows host a₀ files a) :
    Clear host a files where
  listed := h.doc ▸ hc.listed
  warm := h.cold.trans hc.warm
  rejects := hc.rejects
  quiet path hpath hstuck := by
    refine hc.quiet path hpath ⟨hstuck.1, hstuck.2.imp_right fun hfile => ?_⟩
    obtain hfile | hin := hfile
    · by_cases hconcerns : Concerns host a₀ files (Path.parent path)
      · by_cases hin : Path.parent path ∈ textPaths host files
        · exact .inr hin
        · have hgone := h.gone _ (hconcerns.resolve_left hin).1 hin (hconcerns.resolve_left hin).2
          rw [JsMap.has, hgone] at hfile
          cases hfile
      · rw [JsMap.has, h.others _ hconcerns] at hfile
        exact .inl hfile
    · exact .inr hin
  folders path hpath := by
    have hin : path ∈ textPaths host files := hpath.elim id fun hpath => h.known ▸ hpath.1
    obtain ⟨hnow, hlater⟩ := hc.folders path (.inl hin)
    refine ⟨fun hfolder => ?_, hlater⟩
    rcases h.folders path hfolder with hfolder | ⟨q, hq, hfolder⟩
    · exact hnow hfolder
    · exact hlater q hq hfolder

/-- What the next pass wants is there. -/
theorem Shows.wanted_eq (h : Shows host a₀ files a) (hpath : path ∈ textPaths host files) :
    wanted host a files path = a.vault.files.get? path := by
  obtain ⟨content, hread, hfile⟩ := h.listed path hpath
  rw [wanted_of_mem hpath, h.doc, hread, hfile]
  rfl

/-- **The next pass has nothing to do**: whatever becomes of it, each file stays as it is, and if
it ends well, so do the tokens. -/
theorem applyRemoteState_settles (hc : Clear host a₀ files)
    (hrun : applyRemoteState host a₀ = .ok () a) :
    Leads (applyRemoteState host) a
      (fun _ a' => (∀ path, a'.vault.files.get? path = a.vault.files.get? path) ∧
        ∀ path, a'.suppressed.count path = a.suppressed.count path)
      (fun a' => ∀ path, a'.vault.files.get? path = a.vault.files.get? path) := by
  have h := (applyRemoteState_shows hc).ok hrun
  have hlisted (path : Str) (hpath : Concerns host a files path) : path ∈ textPaths host files :=
    hpath.elim id fun hpath => h.known ▸ hpath.1
  refine (applyRemoteState_shows (h.clear hc)).weaken (fun _ a' h' => ?_) fun a' h' path => ?_
  · have hfiles (path : Str) : a'.vault.files.get? path = a.vault.files.get? path := by
      by_cases hpath : path ∈ textPaths host files
      · obtain ⟨content, hread, hfile⟩ := h'.listed path hpath
        rw [hfile, ← h.wanted_eq hpath, wanted_of_mem hpath, hread]
        rfl
      · exact h'.others path fun hconcerns => hpath (hlisted path hconcerns)
    exact ⟨hfiles, fun path => by rw [h'.tokens path, if_pos (hfiles path), Nat.add_zero]⟩
  · rcases h'.each path with hsame | ⟨hconcerns, hwanted⟩
    · exact hsame
    · exact hwanted.trans (h.wanted_eq (hlisted path hconcerns))

theorem applyRemoteState_settles_behind : ∃ a a', applyRemoteState unhindered behind = .ok () a ∧
    applyRemoteState unhindered a = .ok () a' ∧
    a'.vault.files.get? (txt "b.md") = a.vault.files.get? (txt "b.md") := by
  obtain ⟨files, hclear, hpaths⟩ := clear_behind
  have hends := endsTwice_behind
  unfold endsTwice at hends
  cases hrun : applyRemoteState unhindered behind with
  | error e a =>
    rw [hrun] at hends
    cases hends
  | ok _ a =>
    rw [hrun] at hends
    cases hrun' : applyRemoteState unhindered a with
    | error e a' =>
      simp only [hrun'] at hends
      cases hends
    | ok _ a' =>
      have h := (applyRemoteState_settles hclear hrun).ok hrun'
      exact ⟨a, a', rfl, hrun', h.1 (txt "b.md")⟩

end AgentSync.Obsidian
