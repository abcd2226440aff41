import AgentSync.Machine
import AgentSync.Fs.Effects
import AgentSync.Fs.Guarding
import AgentSync.Fs.Retrying

/-! Where on the disk a pass writes.

A path that was taken in from the disk is normalized and not of an excluded directory. The paths
of a document that comes from a peer are neither checked when they are received nor when a pass
writes to them, so it depends on them whether a pass stays inside the directory
(`pass_confined`). -/
namespace AgentSync

/-- Strictly below the root, and not in an excluded directory. -/
def Setting.Inside {σ : Type} (V : Setting σ) (l : Location) : Prop :=
  ∃ c rest, l = V.root.resolve ++ c :: rest ∧ c ∉ alwaysExcludedTopSegments

/-- The path leads inside, and on the way there to no place outside but the root and what the
root is in. -/
structure Setting.Leads {σ : Type} (V : Setting σ) (path : Str) : Prop where
  inside : V.Inside (V.vaultPathToFsPath path).resolve
  onTheWay : ∀ q, q <+: components path →
    V.Inside (PathBuf.resolve (V.root ++ q)) ∨ PathBuf.resolve (V.root ++ q) <+: V.root.resolve

namespace Setting

variable {σ : Type} {V : Setting σ} {l : Location} {path : Str}

theorem Inside.append (h : V.Inside l) (segs : List Str) : V.Inside (l ++ segs) := by
  obtain ⟨c, rest, rfl, hc⟩ := h
  exact ⟨c, rest ++ segs, by simp, hc⟩

theorem Inside.not_prefix (h : V.Inside l) : ¬ l <+: V.root.resolve := by
  obtain ⟨c, rest, rfl, -⟩ := h
  intro hpre
  have hlength := hpre.length_le
  rw [List.length_append, List.length_cons] at hlength
  omega

/-- **A path that the document leaves alone leads inside**, if it is not excluded. -/
theorem Leads.of_normalized (h : Path.Normalized V.crates.nfc path)
    (hexcluded : alwaysExcluded path = false) : V.Leads path := by
  have hseg (q : List Str) (hq : q <+: path.splitOn '/') :
      PathBuf.resolve (V.root ++ q) = V.root.resolve ++ q :=
    resolve_append fun seg hseg => (h.segments seg (hq.subset hseg)).isName
  have hinside (q : List Str) (hq : q <+: path.splitOn '/') (hne : q ≠ []) :
      V.Inside (V.root.resolve ++ q) := by
    obtain ⟨c, rest, rfl⟩ := List.exists_cons_of_ne_nil hne
    refine ⟨c, rest, rfl, fun hc => ?_⟩
    obtain ⟨rest', hsplit⟩ := hq
    rw [alwaysExcluded, ← hsplit] at hexcluded
    exact absurd (List.contains_iff_mem.mpr hc) (Bool.eq_false_iff.mp hexcluded)
  constructor
  · rw [resolve_vaultPathToFsPath h]
    exact hinside _ List.prefix_rfl (List.splitOn_ne_nil _ _)
  · intro q hq
    rw [components_of_normalized h] at hq
    rw [hseg q hq]
    cases q with
    | nil => exact .inr (by simp)
    | cons c rest => exact .inl (hinside _ hq nofun)

end Setting

namespace FsCall

variable {V : Setting Disk} {d : Disk} {path : Str} {l : Location}

/-- No directory is made outside. -/
theorem inside_of_created {q : List Str} (hroot : d.IsDir V.root) (hpath : V.Leads path)
    (hq : q <+: components path)
    (h : (d.createDirAll (V.root ++ q)).1.node l ≠ d.node l) : V.Inside l := by
  obtain heq | ⟨whole, hwhole, heq⟩ := Disk.createDirAll_fst (d := d) (V.root ++ q)
  · exact absurd (by rw [heq]) h
  · rw [heq] at h
    obtain ⟨hnone, p, hp, rfl⟩ := Disk.created_of_createDirs h
    have hnew : d.node (PathBuf.resolve p) ≠ some .dir := by
      rw [show d.node (PathBuf.resolve p) = none from hnone]
      nofun
    obtain ⟨t, ht⟩ := hp.trans hwhole
    obtain ⟨r, hr, -⟩ | ⟨r, rfl, hr⟩ := List.append_eq_append_iff.mp ht
    · exact absurd (hroot.through ⟨r, hr.symm⟩) hnew
    · have hway := hpath.onTheWay r ((hr ▸ List.prefix_append r t).trans hq)
      exact hway.resolve_right fun hup => hnew (hroot.above hup)

theorem temporaryName_notMem (name : Str) : temporaryName name ∉ alwaysExcludedTopSegments := by
  have hshort : ∀ seg ∈ alwaysExcludedTopSegments, seg.length ≤ 10 := by decide
  exact fun hmem => temporaryName_ne (hshort _ hmem) rfl

/-- A path that leads inside has a name. -/
theorem rdropWhile_vaultPathToFsPath (hpath : V.Leads path) : names path ≠ [] ∧
    (V.vaultPathToFsPath path).rdropWhile isBlank = V.root ++ names path := by
  have hne : names path ≠ [] := by
    intro hnil
    refine hpath.inside.not_prefix ?_
    rw [Setting.vaultPathToFsPath, components, hnil, List.nil_append, ← resolve_rdropWhile,
      rdropWhile_blanks fun c hc => isBlank_of_mem_ending hc, resolve_rdropWhile]
  exact ⟨hne, rdropWhile_append_components hne V.root⟩

theorem parent_vaultPathToFsPath (hpath : V.Leads path) :
    (V.vaultPathToFsPath path).parent = V.root ++ (names path).dropLast := by
  obtain ⟨hne, hdrop⟩ := rdropWhile_vaultPathToFsPath hpath
  rw [PathBuf.parent, hdrop, List.dropLast_append_of_ne_nil hne]

theorem dropLast_names_isPrefix (path : Str) : (names path).dropLast <+: components path :=
  (List.dropLast_prefix _).trans (List.prefix_append _ _)

/-- A name in a place that is not inside is in the root. -/
theorem eq_root_of_inside {c : Str} (h : V.Inside (l ++ [c])) (hup : l <+: V.root.resolve) :
    l = V.root.resolve := by
  refine hup.eq_of_length (Nat.le_antisymm hup.length_le ?_)
  obtain ⟨c', rest, heq, -⟩ := h
  have hlength := congrArg List.length heq
  simp only [List.length_append, List.length_cons, List.length_nil] at hlength
  omega

/-- The temporary file is beside a file that is inside. -/
theorem inside_temporary {name : Str} (hpath : V.Leads path)
    (hname : (V.vaultPathToFsPath path).fileName = some name) :
    V.Inside (PathBuf.resolve ((V.vaultPathToFsPath path).parent ++ [temporaryName name])) := by
  obtain ⟨hne, hdrop⟩ := rdropWhile_vaultPathToFsPath hpath
  obtain ⟨last, hlast, hname⟩ := Option.bind_eq_some_iff.mp hname
  split at hname
  next => cases hname
  next hdotdot =>
    have hbeside (p : PathBuf) {seg : Str} (hseg : IsName seg) :
        PathBuf.resolve (p ++ [seg]) = p.resolve ++ [seg] :=
      resolve_append fun seg' hin => List.mem_singleton.mp hin ▸ hseg
    have hmem : last ∈ names path := by
      rw [hdrop, List.getLast?_append_of_ne_nil _ hne] at hlast
      exact List.mem_of_getLast? hlast
    have hisname : IsName last := isName_of_not_isBlank (isBlank_of_mem_names hmem) hdotdot
    have hwhole := hpath.inside
    rw [← resolve_rdropWhile, ← List.dropLast_append_getLast? last hlast, hbeside _ hisname, hdrop,
      List.dropLast_append_of_ne_nil hne] at hwhole
    rw [hbeside _ (isName_temporaryName name), parent_vaultPathToFsPath hpath]
    obtain hin | hup := hpath.onTheWay _ (dropLast_names_isPrefix path)
    · exact hin.append _
    · rw [eq_root_of_inside hwhole hup]
      exact ⟨_, [], rfl, temporaryName_notMem name⟩

theorem inside_of_touches {bytes : Bytes} (hroot : d.IsDir V.root) (hpath : V.Leads path)
    (h : (write (V.vaultPathToFsPath path) bytes).Touches d l) : V.Inside l := by
  cases h with
  | parent bytes h =>
    rw [parent_vaultPathToFsPath hpath] at h
    exact inside_of_created hroot hpath (dropLast_names_isPrefix path) h
  | temporary bytes h => exact inside_temporary hpath h
  | written => exact hpath.inside

end FsCall

namespace Pass

/-- Every live path leads inside. -/
structure Heeds (V : Setting Disk) (s : Listing) : Prop where
  files : ∀ path ∈ s.live, V.Leads path
  dirs : ∀ path ∈ s.liveDirs, V.Leads path

/-- The paths that the document and the maps of the binding have when a pass comes to list or to
copy them lead inside, and the root is there when something is made in it. -/
def Fits (V : Setting Disk) (b : Bound Disk) : Pass → Prop
  | .listing => ∀ s, list V b = .ok s → Heeds V s
  | .cloning s => ∀ path ∈ b.materialized, path ∉ s.live →
      V.Inside (V.vaultPathToFsPath path).resolve
  | .sweeping s => ∀ path ∈ b.materializedDirs, path ∉ s.liveDirs →
      V.Inside (V.vaultPathToFsPath path).resolve
  | .creating _ (_ :: _) | .writing .. => b.fs.IsDir V.root
  | _ => True

/-- What a pass has in hand leads inside. -/
def Confined (V : Setting Disk) : Pass → Prop
  | .ordering s | .cloning s => Heeds V s
  | .creating s dirs => Heeds V s ∧ ∀ path ∈ dirs, V.Leads path
  | .cloned s existing => Heeds V s ∧
      ∀ path ∈ existing, path ∉ s.live → V.Inside (V.vaultPathToFsPath path).resolve
  | .deletes s todo => Heeds V s.toListing ∧
      ∀ path ∈ todo, path ∉ s.live → V.Inside (V.vaultPathToFsPath path).resolve
  | .deleting s todo path | .deleted s todo path => (Heeds V s.toListing ∧
      ∀ q ∈ todo, q ∉ s.live → V.Inside (V.vaultPathToFsPath q).resolve) ∧
        V.Inside (V.vaultPathToFsPath path).resolve
  | .writes _ todo | .matched _ todo _ _ | .written _ todo _ _ _ => ∀ q ∈ todo, V.Leads q
  | .reading _ todo path _ _ | .marking _ todo path _ _ | .writing _ todo path _ _ =>
    (∀ q ∈ todo, V.Leads q) ∧ V.Leads path
  | .removing _ dirs => ∀ path ∈ dirs, V.Inside (V.vaultPathToFsPath path).resolve
  | .listing | .pruning _ | .pruned _ | .sweeping _ | .done _ => True

variable {V : Setting Disk} {b b' : Bound Disk} {i i' : Pass} {pick : Nat}

/-- Every call is made at a path that leads inside. -/
theorem inside_of_fsCall {c : FsCall} {l : Location} (h : Confined V i) (hfits : Fits V b i)
    (hc : i.fsCall V pick = some c) (htouch : c.Touches b.fs l) : V.Inside l := by
  cases i with
  | creating s dirs =>
    cases dirs with
    | nil => cases hc
    | cons path rest =>
      obtain rfl := Option.some.inj hc
      cases htouch with
      | created hnew =>
        exact FsCall.inside_of_created hfits (h.2 path List.mem_cons_self) List.prefix_rfl hnew
  | deleting s todo path =>
    obtain rfl := Option.some.inj hc
    cases htouch with
    | deleted => exact h.2
  | writing s todo path bytes hash =>
    obtain rfl := Option.some.inj hc
    exact FsCall.inside_of_touches hfits h.2 htouch
  | removing s dirs =>
    obtain ⟨path, hpath, rfl⟩ := Option.map_eq_some_iff.mp hc
    cases htouch with
    | removed => exact h path (List.mem_of_getElem? hpath)
  | _ => cases hc

/-- **One step of the pass.** -/
theorem confined_step (h : Confined V i) (hfits : Fits V b i)
    (hstep : step V b pick i = some (b', i')) : Confined V i' := by
  have hrest {P : Str → Prop} {todo : List Str} (htodo : ∀ q ∈ todo, P q) :
      ∀ q ∈ todo.eraseIdx pick, P q := fun q hq => htodo q (List.mem_of_mem_eraseIdx hq)
  cases moves_of_step hstep with
  | listed hlist => exact hfits _ hlist
  | unlisted => trivial
  | ordered l =>
    refine ⟨h, fun path hpath => h.dirs path ?_⟩
    have hmem := (List.mem_insertionSort _).mp hpath
    exact (List.mem_filter.mp hmem).1
  | creating l path rest => exact ⟨h.1, fun q hq => h.2 q (List.mem_cons_of_mem _ hq)⟩
  | created l => exact h.1
  | cloning l => exact ⟨h, hfits⟩
  | cloned l existing =>
    exact ⟨h.1, fun path hpath => h.2 path (AList.mem_keys.mpr hpath)⟩
  | deletesEnd s => exact fun path hpath => h.1.files path (AList.mem_keys.mpr hpath)
  | live hpath hlive => exact ⟨h.1, hrest h.2⟩
  | kept hpath hlive hkept => exact ⟨h.1, hrest h.2⟩
  | deleting hpath hlive hkept =>
    exact ⟨⟨h.1, hrest h.2⟩, h.2 _ (List.mem_of_getElem? hpath) hlive⟩
  | deleted hdeletes => exact h
  | undeleted hdeletes => exact h.1
  | unmarked s todo path => exact h.1
  | writesEnd s => trivial
  | failed => trivial
  | nothing hpath hm htarget => exact hrest h
  | same hpath hm htarget hsame => exact hrest h
  | reading hpath hm htarget hsame => exact ⟨hrest h, h _ (List.mem_of_getElem? hpath)⟩
  | matched hdisk => exact h.1
  | left hdisk hkept => exact h.1
  | marking hdisk hkept => exact h
  | recorded s todo path hash => exact h
  | writing s todo path bytes hash => exact h
  | written hwrites => exact h.1
  | unwritten hwrites => exact h.1
  | rewritten s todo path bytes hash => exact h
  | pruned s => trivial
  | sweeping s => trivial
  | removing s =>
    intro path hpath
    obtain ⟨hin, hlive⟩ := List.mem_filter.mp hpath
    exact hfits path hin (of_decide_eq_true hlive)
  | removed hpath hdeepest => exact hrest h
  | done s => trivial

/-- A step of a pass, or of whatever else changes the vault and its directory meanwhile. -/
inductive Act (σ : Type) where
  | turn (pick : Nat)
  | between (b : Bound σ)

def disturbed {σ : Type} (V : Setting σ) (x : Bound σ × Pass) : Act σ → Option (Bound σ × Pass)
  | .turn pick => step V x.1 pick x.2
  | .between b => some (b, x.2)

/-- The paths at hand lead inside when the pass takes its step. -/
def fitting (V : Setting Disk) (x : Bound Disk × Pass) : Act Disk → Prop
  | .turn _ => Fits V x.1 x.2
  | .between _ => True

/-- **A pass stays inside the directory**, whatever comes between its steps, as long as the paths
of the document and of the binding lead there. -/
theorem pass_confined {b₀ : Bound Disk} (hV : V.adapter = nodeFsAdapter)
    (hreach : Machine.Reach (disturbed V) (fitting V) (b₀, .listing) (b, i)) (hfits : Fits V b i)
    (hstep : step V b pick i = some (b', i')) :
    (∀ c l, i.fsCall V pick = some c → c.Touches b.fs l → V.Inside l) ∧
      ∀ l, ¬ V.Inside l → b'.fs.node l = b.fs.node l := by
  have hconfined : Confined V i := by
    refine hreach.invariant (I := fun x : Bound Disk × Pass => Confined V x.2) ?_ ?_
    · exact trivial
    intro x a x' hx hguard hstep
    cases a with
    | turn pick => exact confined_step hx hguard hstep
    | between b =>
      obtain rfl := Option.some.inj hstep
      exact hx
  have hcalls (c : FsCall) (l : Location) (hc : i.fsCall V pick = some c)
      (htouch : c.Touches b.fs l) : V.Inside l := inside_of_fsCall hconfined hfits hc htouch
  refine ⟨hcalls, fun l hout => ?_⟩
  rw [(frame_of_step hV hstep).fs]
  cases hc : i.fsCall V pick with
  | none => rfl
  | some c => exact FsCall.node_run fun htouch => hout (hcalls c l hc htouch)

/-- The paths of a vault that has the file of keys only. -/
private def fitsKeys (x : Bound Disk × Pass) (_ : Act Disk) : Bool :=
  match x.2 with
  | .listing => (list .localDisk x.1).toOption.all fun s =>
      s.live.keys.all (· == authorizedKeysFile) && s.liveDirs.isEmpty
  | .cloning _ => x.1.materialized.keys.isEmpty
  | .sweeping _ => x.1.materializedDirs.isEmpty
  | .creating _ (_ :: _) | .writing .. =>
    decide ((x.1.fs.metadata Setting.localDisk.root).toOption = some .dir)
  | _ => true

private theorem leads_keys : Setting.localDisk.Leads authorizedKeysFile :=
  .of_normalized rfl (by decide)

private theorem fits_of_fitsKeys {x : Bound Disk × Pass} {a : Act Disk}
    (h : fitsKeys x a = true) : Fits .localDisk x.1 x.2 := by
  obtain ⟨b, i⟩ := x
  cases i with
  | listing =>
    intro s hs
    simp only [fitsKeys, hs, Except.toOption, Option.all_some, Bool.and_eq_true, List.all_eq_true,
      beq_iff_eq, List.isEmpty_iff] at h
    exact ⟨fun path hpath => h.1 path hpath ▸ leads_keys, fun path hpath => by
      rw [h.2] at hpath
      cases hpath⟩
  | cloning s =>
    intro path hpath
    have hnone : b.materialized.keys = [] := List.isEmpty_iff.mp h
    rw [AList.mem_keys, hnone] at hpath
    cases hpath
  | sweeping s =>
    intro path hpath
    have hnone : b.materializedDirs = [] := List.isEmpty_iff.mp h
    rw [hnone] at hpath
    cases hpath
  | creating s dirs =>
    cases dirs with
    | nil => trivial
    | cons path rest => exact eq_ok_of_toOption (of_decide_eq_true h)
  | writing s todo path bytes hash => exact eq_ok_of_toOption (of_decide_eq_true h)
  | _ => trivial

/-- A pass, step by step. -/
private def turnsOf (b : Bound Disk) (n : Nat) : Option (Bound Disk × Pass) :=
  Machine.run (disturbed Setting.localDisk) (b, .listing) (List.replicate n (.turn 0))

theorem pass_confined_keys : ∃ b i b' i',
    Machine.Reach (disturbed Setting.localDisk) (fitting .localDisk)
      (Bound.fresh Watching.keysDoc .vaultDir, .listing) (b, i) ∧
    step .localDisk b 0 i = some (b', i') ∧
    b'.fs.node Watching.keysPath = some (.file (utf8 (txt "a"))) ∧
    ∀ l, ¬ Setting.localDisk.Inside l → b'.fs.node l = b.fs.node l := by
  have hruns : (Machine.allowed (disturbed Setting.localDisk) fitsKeys
      (Bound.fresh Watching.keysDoc .vaultDir, .listing) (List.replicate 9 (.turn 0)) &&
      (turnsOf (.fresh Watching.keysDoc .vaultDir) 9).any fun x => fitsKeys x (.turn 0) &&
        (step .localDisk x.1 0 x.2).any fun y =>
          decide (y.1.fs.node Watching.keysPath = some (.file (utf8 (txt "a"))))) = true := by
    decide +kernel
  obtain ⟨hallowed, hruns⟩ := Bool.and_eq_true_iff.mp hruns
  obtain ⟨x, hx, hruns⟩ := (Option.any_eq_true _ _).mp hruns
  obtain ⟨hfits, hruns⟩ := Bool.and_eq_true_iff.mp hruns
  obtain ⟨y, hy, hfile⟩ := (Option.any_eq_true _ _).mp hruns
  have hguarded : Machine.Guarded (disturbed Setting.localDisk) (fitting .localDisk)
      (Bound.fresh Watching.keysDoc .vaultDir, .listing) (List.replicate 9 (.turn 0)) := by
    refine .of_allowed (fun x a h => ?_) hallowed
    cases a with
    | turn pick => exact fits_of_fitsKeys h
    | between b => trivial
  have hreach := Machine.Reach.of_run hguarded hx
  exact ⟨x.1, x.2, y.1, y.2, hreach, hy, of_decide_eq_true hfile,
    (pass_confined rfl hreach (fits_of_fitsKeys hfits) hy).2⟩

/-- What a peer may have put in its document: a file beside the directory. -/
private def escapingOps : List Op :=
  [.putMap (.file (txt "f")), .putMap (.fileMeta (txt "f")),
    .put (.fileField (txt "f") .path) (.str (txt "../evil.md")),
    .put (.fileField (txt "f") .kind) (.str (txt "text"))]

private def escaping : Doc :=
  (Doc.new .plain (txt "v") (.numbered '1' 16)).merge .plain
    (.ofChanges .plain ((Doc.new .plain (txt "v") (.numbered '1' 16)).changes ++
      [⟨.fill 99, [.fill 0], 0, escapingOps⟩]) (.numbered '2' 64) 0)

/-- **A document that names it has a file written outside the directory.** -/
theorem pass_confined_escaping : ¬ ∀ b b' i i' pick,
    Machine.Reach (disturbed Setting.localDisk) (fun _ _ => True)
      (Bound.fresh escaping .vaultDir, .listing) (b, i) →
    step .localDisk b pick i = some (b', i') →
    ∀ l, ¬ Setting.localDisk.Inside l → b'.fs.node l = b.fs.node l := by
  intro h
  have hruns : ((turnsOf (.fresh escaping .vaultDir) 9).any fun x =>
      (step .localDisk x.1 0 x.2).any fun y =>
        decide (y.1.fs.node [txt "evil.md"] ≠ x.1.fs.node [txt "evil.md"])) = true := by
    decide +kernel
  obtain ⟨x, hx, hruns⟩ := (Option.any_eq_true _ _).mp hruns
  obtain ⟨y, hy, hwritten⟩ := (Option.any_eq_true _ _).mp hruns
  have houtside : ¬ Setting.localDisk.Inside [txt "evil.md"] := by
    rintro ⟨c, rest, heq, -⟩
    have hhead : txt "evil.md" = txt "vault" := (List.cons.inj heq).1
    exact absurd hhead (by decide)
  exact of_decide_eq_true hwritten
    (h x.1 y.1 x.2 y.2 0 (.of_run (.of_forall (fun _ _ => trivial) _) hx) hy _ houtside)

end Pass

end AgentSync
