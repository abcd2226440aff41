import AgentSync.Fs.Disk
import AgentSync.Net.Ssh
import AgentSync.Path

/-! The directory of a clone.

Without a directory from the user, `clone` takes the name that the hub gives its vault, or else
the host of its URL. The name is taken as it is, so it is a path: an absolute one, or one that
leads up, or several directories down. What becomes of it depends on what is on the disk
(`clone_below`). -/
namespace AgentSync

open Net (trim)

/-- The host of a URL, which is the work of another crate: it is no path of several names. -/
structure UrlHost where
  hostStr : Str → Option Str
  slash : ∀ url host, hostStr url = some host → '/' ∉ host

/-- `host.replace('.', "-")`. -/
def dashed (host : Str) : Str := host.map fun c => if c = '.' then '-' else c

/-- Where no name is given. -/
def fromHost (U : UrlHost) (rendezvous : Str) : Except Error Str :=
  let nowhere : Except Error Str :=
    .error (.other (txt "remote vault has no name and URL host is unavailable; " ++
      txt "pass an explicit local directory: agentsync clone <url> <dir>"))
  match U.hostStr rendezvous with
  | some host => if host = [] then nowhere else .ok (dashed host)
  | none => nowhere

/-- `default_target_dir`. -/
def defaultTargetDir (U : UrlHost) (rendezvous : Str) (remoteName : Option Str) :
    Except Error Str :=
  match remoteName with
  | some n => if trim n = [] then fromHost U rendezvous else .ok (trim n)
  | none => fromHost U rendezvous

/-- Something in the directory is not the vault's own storage. -/
def Disk.hasOther (d : Disk) (l : Location) : Bool :=
  d.nodes.keys.any fun m => m != [] && m.dropLast == l && m.getLast? != some (txt ".agentsync")

/-- The directory is made, unless it is there, and then looked up. -/
def makeTarget (d : Disk) (target : PathBuf) : Disk × Except Error PathBuf :=
  match d.createDirAll target with
  | (d', .error e) => (d', .error (.other e.text))
  | (d', .ok ()) =>
    match d'.locate target with
    | .ok l => (d', .ok l)
    | .error e => (d', .error (.other e.text))

/-- What `run` does about a target. -/
def prepareTarget (d : Disk) (target : PathBuf) (shown : Str) : Disk × Except Error PathBuf :=
  match d.metadata target with
  | .ok .dir =>
    if d.hasOther target.resolve then
      (d, .error (.other (txt "clone target " ++ shown ++ txt " is not empty")))
    else makeTarget d target
  | .ok (.file _) => (d, .error (.other IoError.notADirectory.text))
  | .error _ => makeTarget d target

/-- What becomes of a name. -/
def cloneInto (d : Disk) (cwd : PathBuf) (name : Str) : Disk × Except Error (PathBuf × PathBuf) :=
  match prepareTarget d (cwd.join name) name with
  | (d', .ok l) => (d', .ok (cwd.join name, l))
  | (d', .error e) => (d', .error e)

/-- The target of `run` where the user gives no directory, and what becomes of it. -/
def cloneTarget (U : UrlHost) (d : Disk) (cwd : PathBuf) (rendezvous : Str)
    (remoteName : Option Str) : Disk × Except Error (PathBuf × PathBuf) :=
  match defaultTargetDir U rendezvous remoteName with
  | .error e => (d, .error e)
  | .ok name => cloneInto d cwd name

/-- The target cannot be made, or is not empty. -/
def Disk.refuses (d : Disk) (target : PathBuf) : Bool :=
  match d.metadata target with
  | .ok .dir => d.hasOther target.resolve
  | .ok (.file _) => true
  | .error _ => target.any (fun c => c.contains '\x00') || d.blocked [] target ||
    (target.endsInDot && d.metadata target.parent = .ok .dir)

/-- The name stands for one directory or file in the working directory. -/
def OneBelow (cwd : PathBuf) (name : Str) : Prop :=
  ∃ seg, seg ≠ ['.', '.'] ∧ names name = if name.head? = some '/' then cwd ++ [seg] else [seg]

/-- The clone is one level below the working directory, or nothing has been made. -/
def StaysBelow (d : Disk) (cwd : PathBuf) : Disk × Except Error (PathBuf × PathBuf) → Prop
  | (_, .ok (target, _)) => ∃ seg rest, Disk.PlainName seg ∧ (∀ c ∈ rest, isBlank c = true) ∧
    target = cwd ++ seg :: rest
  | (d', .error _) => d' = d

variable {U : UrlHost} {d d' : Disk} {cwd target : PathBuf} {name rendezvous : Str}

/-- A path to one level below has one name more. -/
theorem oneBelow_iff : OneBelow cwd name ↔ ∃ seg rest, IsName seg ∧
    (∀ c ∈ rest, isBlank c = true) ∧ cwd.join name = cwd ++ seg :: rest := by
  have hjoin : cwd.join name = (if name.head? = some '/' then [] else cwd) ++ names name ++
      ending name := by
    rw [PathBuf.join, components]
    split
    · rfl
    · rw [List.append_assoc]
  rw [hjoin]
  constructor
  · rintro ⟨seg, hdots, hnames⟩
    have hmem : seg ∈ names name := by
      rw [hnames]
      split <;> simp
    have hblank := isBlank_of_mem_names hmem
    refine ⟨seg, ending name, ⟨?_, ?_, hdots⟩, fun c hc => isBlank_of_mem_ending hc, ?_⟩
    · rintro rfl
      cases hblank
    · rintro rfl
      cases hblank
    · rw [hnames]
      split <;> simp
  · rintro ⟨seg, rest, hseg, hrest, heq⟩
    refine ⟨seg, hseg.ne_dotdot, ?_⟩
    have hnames := congrArg (List.rdropWhile isBlank) heq
    have hcut : (cwd ++ seg :: rest).rdropWhile isBlank = cwd ++ [seg] := by
      rw [List.append_cons, rdropWhile_blanks hrest,
        List.rdropWhile_concat_neg _ _ _ (by simp [hseg.isBlank])]
    split
    next habs =>
      rw [if_pos habs, List.nil_append, ← components, rdropWhile_components, hcut] at hnames
      exact hnames
    next habs =>
      rw [if_neg habs, List.append_assoc] at heq
      have hrel := congrArg (List.rdropWhile isBlank) (List.append_cancel_left heq)
      rw [← components, rdropWhile_components, ← List.nil_append (seg :: rest), List.append_cons,
        rdropWhile_blanks hrest, List.rdropWhile_concat_neg _ _ _ (by simp [hseg.isBlank])] at hrel
      exact hrel

/-- A refused target leaves the disk. -/
theorem prepareTarget_of_refuses (shown : Str) (h : d.refuses target = true) :
    ∃ e, prepareTarget d target shown = (d, .error e) := by
  unfold Disk.refuses at h
  unfold prepareTarget
  split at h
  next hdir => exact ⟨_, by rw [if_pos h]⟩
  next => exact ⟨_, rfl⟩
  next e hmeta =>
    rw [Bool.or_eq_true, Bool.or_eq_true] at h
    obtain ⟨e, hmake⟩ : ∃ e, d.createDirAll target = (d, .error e) := by
      obtain (hnul | hblocked) | hdot := h
      · exact ⟨_, if_pos hnul⟩
      · exact Disk.createDirAll_of_blocked hblocked
      · obtain ⟨hdot, hdir⟩ := Bool.and_eq_true_iff.mp hdot
        have hdir : d.metadata target.parent = .ok .dir := of_decide_eq_true hdir
        exact Disk.createDirAll_of_dot hdot hdir hmeta
    exact ⟨.other e.text, by rw [makeTarget, hmake]⟩

/-- What has been made is looked up. -/
theorem makeTarget_of_ok (h : (d.createDirAll target).2 = .ok ()) :
    ∃ d' l, makeTarget d target = (d', .ok l) := by
  obtain ⟨l, hl, -⟩ := Disk.isDir_iff.mp (Disk.isDir_of_createDirAll h)
  have hpair : d.createDirAll target = ((d.createDirAll target).1, .ok ()) := Prod.ext rfl h
  unfold makeTarget
  rw [hpair]
  exact ⟨(d.createDirAll target).1, l, by simp only [hl]⟩

/-- A target that is not refused is made, or something is before it fails. -/
theorem prepareTarget_of_not_refuses (shown : Str) (h : d.refuses target = false) :
    (∃ d' l, prepareTarget d target shown = (d', .ok l)) ∨
      ∃ d' e, prepareTarget d target shown = (d', .error e) ∧ d' ≠ d := by
  unfold Disk.refuses at h
  unfold prepareTarget
  split at h
  next hdir =>
    rw [if_neg (by simp [h])]
    exact .inl (makeTarget_of_ok (by rw [Disk.IsDir.createDirAll hdir]))
  next => cases h
  next =>
    simp only [Bool.or_eq_false_iff, Bool.and_eq_false_iff] at h
    obtain ⟨⟨hnul, hfree⟩, hdot⟩ := h
    have hmake := Disk.createDirAll_of_free hnul hfree fun hends hdir =>
      hdot.elim (fun hnot => by rw [hends] at hnot; cases hnot)
        fun hnot => of_decide_eq_false hnot hdir
    cases hcreate : d.createDirAll target with
    | mk d' r =>
      cases r with
      | ok _ => exact .inl (makeTarget_of_ok (by rw [hcreate]))
      | error e =>
        rw [hcreate] at hmake
        refine .inr ⟨d', .other e.text, ?_, hmake.resolve_left (by simp)⟩
        rw [makeTarget, hcreate]

/-- One level below a directory it is made. -/
theorem createDirAll_below {seg : Str} {rest : List Str} (hcwd : d.IsDir cwd)
    (hrest : ∀ c ∈ rest, isBlank c = true)
    (hnul : ((cwd ++ seg :: rest).any fun c => c.contains '\x00') = false)
    (hfree : d.blocked [] (cwd ++ seg :: rest) = false)
    (hdot : PathBuf.endsInDot (cwd ++ seg :: rest) = false) :
    (d.createDirAll (cwd ++ seg :: rest)).2 = .ok () := by
  obtain ⟨l, hl, hdir⟩ := Disk.isDir_iff.mp hcwd
  obtain ⟨-, hwalk⟩ := Disk.walk_of_locate hl
  have hparents : d.walk [] ((cwd ++ seg :: rest).rdropWhile (· == [])) ≠ .error .notADirectory := by
    intro herror
    have hblocked := Disk.blocked_of_walk rfl herror
    rw [Disk.blocked_rdropWhile, hfree] at hblocked
    cases hblocked
  rw [Disk.createDirAll, hnul, if_neg Bool.false_ne_true, if_neg hparents, Disk.makeDirs, hdot,
    if_neg Bool.false_ne_true, Disk.createDirs_append_of_walk hwalk hdir]
  rw [Disk.blocked_append_of_walk hwalk hdir] at hfree
  cases hchild : d.node (l.child seg) with
  | none =>
    have hne : d.node (l.child seg) ≠ some .dir := by simp [hchild]
    simp only [Disk.createDirs, hchild]
    refine congrArg Prod.snd (Disk.createDirs_blanks ?_ hrest)
    rw [Disk.node_put d (Disk.ne_nil_of_node hne), if_pos rfl]
  | some found =>
    cases found with
    | dir =>
      simp only [Disk.createDirs, hchild]
      rw [Disk.createDirs_blanks hchild hrest]
    | file _ =>
      simp only [Disk.blocked, hchild] at hfree
      cases hfree

theorem prepareTarget_below (shown : Str) {seg : Str} {rest : List Str} (hcwd : d.IsDir cwd)
    (hseg : IsName seg) (hrest : ∀ c ∈ rest, isBlank c = true)
    (h : d.refuses (cwd ++ seg :: rest) = false) :
    ∃ d' l, prepareTarget d (cwd ++ seg :: rest) shown = (d', .ok l) := by
  have hparent : PathBuf.parent (cwd ++ seg :: rest) = cwd := by
    rw [PathBuf.parent, List.append_cons, rdropWhile_blanks hrest,
      List.rdropWhile_concat_neg _ _ _ (by simp [hseg.isBlank]), List.dropLast_concat]
  unfold Disk.refuses at h
  unfold prepareTarget
  split at h
  next hdir =>
    rw [if_neg (by simp [h])]
    exact makeTarget_of_ok (by rw [Disk.IsDir.createDirAll hdir])
  next => cases h
  next =>
    simp only [Bool.or_eq_false_iff, Bool.and_eq_false_iff, hparent] at h
    obtain ⟨⟨hnul, hfree⟩, hdot⟩ := h
    refine makeTarget_of_ok (createDirAll_below hcwd hrest hnul hfree ?_)
    exact hdot.resolve_right fun hnot => of_decide_eq_false hnot hcwd

theorem not_nul_of_not_refuses (h : d.refuses target = false) :
    ∀ c ∈ target, '\x00' ∉ c := by
  intro c hc hnul
  have hany : (target.any fun c => c.contains '\x00') = true :=
    List.any_eq_true.mpr ⟨c, hc, by simpa using hnul⟩
  have hmeta : d.metadata target = .error .invalidInput := by
    rw [Disk.metadata, Disk.locate, if_pos hany]
    rfl
  rw [Disk.refuses, hmeta] at h
  simp only [hany, Bool.true_or, Bool.true_eq_false] at h

/-- A name in a path. -/
theorem plainName_of_join {seg : Str} {rest : List Str} (hseg : IsName seg)
    (hjoin : cwd.join name = cwd ++ seg :: rest) (hnul : '\x00' ∉ seg) : Disk.PlainName seg := by
  refine ⟨hseg.ne_nil, hseg.ne_dot, hseg.ne_dotdot, ?_, hnul⟩
  have hmem : seg ∈ components name := by
    rw [PathBuf.join] at hjoin
    split at hjoin
    · simp [hjoin]
    · simp [List.append_cancel_left hjoin]
  obtain hmem | hmem := List.mem_append.mp hmem
  · exact Path.notMem_of_mem_splitOn (List.mem_filter.mp hmem).1
  · have hblank := isBlank_of_mem_ending hmem
    rw [hseg.isBlank] at hblank
    cases hblank

theorem staysBelow_cloneInto (hcwd : d.IsDir cwd) :
    StaysBelow d cwd (cloneInto d cwd name) ↔
      OneBelow cwd name ∨ d.refuses (cwd.join name) = true := by
  unfold cloneInto
  by_cases hrefuses : d.refuses (cwd.join name) = true
  · obtain ⟨e, hrun⟩ := prepareTarget_of_refuses name hrefuses
    rw [hrun]
    exact iff_of_true rfl (.inr hrefuses)
  have hfree := eq_false_of_ne_true hrefuses
  rw [or_iff_left hrefuses]
  constructor
  · intro h
    obtain ⟨d', l, hrun⟩ | ⟨d', e, hrun, hne⟩ := prepareTarget_of_not_refuses name hfree
    · rw [hrun] at h
      obtain ⟨seg, rest, hseg, hrest, htarget⟩ := h
      exact oneBelow_iff.mpr ⟨seg, rest, hseg.isName, hrest, htarget⟩
    · rw [hrun] at h
      exact absurd h hne
  · intro h
    obtain ⟨seg, rest, hseg, hrest, hjoin⟩ := oneBelow_iff.mp h
    rw [hjoin] at hfree
    obtain ⟨d', l, hrun⟩ := prepareTarget_below name hcwd hseg hrest hfree
    have hnul := not_nul_of_not_refuses hfree seg (by simp)
    have hplain := plainName_of_join hseg hjoin hnul
    rw [hjoin, hrun]
    exact ⟨seg, rest, hplain, hrest, rfl⟩

/-- A host stands for one directory. -/
theorem oneBelow_dashed {host : Str} (hslash : '/' ∉ host) (hne : host ≠ []) :
    OneBelow cwd (dashed host) := by
  have hnodot : '.' ∉ dashed host := by
    intro h
    obtain ⟨c, -, hc⟩ := List.mem_map.mp h
    split at hc
    next => cases hc
    next hdot => exact hdot hc
  have hnoslash : '/' ∉ dashed host := by
    intro h
    obtain ⟨c, hmem, hc⟩ := List.mem_map.mp h
    split at hc
    next => cases hc
    next => exact hslash (hc ▸ hmem)
  have hnonempty : dashed host ≠ [] := by simpa [dashed] using hne
  have hhead : (dashed host).head? ≠ some '/' := fun h => hnoslash (List.mem_of_mem_head? h)
  refine ⟨dashed host, fun h => hnodot (by simp [h]), ?_⟩
  rw [if_neg hhead, names, List.splitOn_eq_singleton hnoslash]
  have hdot : dashed host ≠ ['.'] := fun h => hnodot (by simp [h])
  simp [isBlank, hnonempty, hdot]

/-- **When a clone stays in the working directory.** -/
theorem clone_below (U : UrlHost) (d : Disk) (cwd : PathBuf) (rendezvous : Str)
    (remoteName : Option Str) (hcwd : d.IsDir cwd) :
    StaysBelow d cwd (cloneTarget U d cwd rendezvous remoteName) ↔
      ∀ n, remoteName = some n → trim n ≠ [] →
        OneBelow cwd (trim n) ∨ d.refuses (cwd.join (trim n)) = true := by
  have hfromHost : (∀ n, remoteName = some n → trim n = []) →
      StaysBelow d cwd (cloneTarget U d cwd rendezvous remoteName) := by
    intro hnone
    have hdefault : defaultTargetDir U rendezvous remoteName = fromHost U rendezvous := by
      cases remoteName with
      | none => rfl
      | some n => exact if_pos (hnone n rfl)
    rw [cloneTarget, hdefault, fromHost]
    cases hhost : U.hostStr rendezvous with
    | none => rfl
    | some host =>
      by_cases hne : host = []
      · simp only [hne, if_true]
        rfl
      · simp only [hne, if_false]
        exact (staysBelow_cloneInto hcwd).mpr (.inl (oneBelow_dashed (U.slash _ _ hhost) hne))
  cases remoteName with
  | none => exact iff_of_true (hfromHost fun _ h => by cases h) fun _ h => by cases h
  | some n =>
    by_cases hn : trim n = []
    · refine iff_of_true (hfromHost fun m hm => ?_) fun m hm hne => ?_
      · exact Option.some.inj hm ▸ hn
      · exact absurd (Option.some.inj hm ▸ hn) hne
    · have hdefault : defaultTargetDir U rendezvous (some n) = .ok (trim n) := if_neg hn
      rw [cloneTarget, hdefault]
      refine (staysBelow_cloneInto hcwd).trans ⟨fun h m hm _ => ?_, fun h => h n rfl hn⟩
      exact Option.some.inj hm ▸ h

/-- A disk with a home, where the command is run, and nothing else. -/
private def homeDisk : Disk := (⟨∅⟩ : Disk).put [txt "home"] .dir

private def noHosts : UrlHost where
  hostStr := fun _ => none
  slash := fun _ _ h => by cases h

/-- A hub that calls its vault `../x` has the clone made beside the working directory. -/
theorem clone_beside : homeDisk.IsDir [txt "home"] ∧
    (cloneTarget noHosts homeDisk [txt "home"] (txt "wss://hub") (some (txt "../x"))).2 =
      .ok ([txt "home", txt "..", txt "x"], [txt "x"]) ∧
    ¬ StaysBelow homeDisk [txt "home"]
      (cloneTarget noHosts homeDisk [txt "home"] (txt "wss://hub") (some (txt "../x"))) := by
  have hrun : (cloneTarget noHosts homeDisk [txt "home"] (txt "wss://hub") (some (txt "../x"))).2 =
      .ok ([txt "home", txt "..", txt "x"], [txt "x"]) := by decide +kernel
  refine ⟨by rw [Disk.IsDir]; decide +kernel, hrun, fun h => ?_⟩
  have hpair : cloneTarget noHosts homeDisk [txt "home"] (txt "wss://hub") (some (txt "../x")) =
    (_, .ok ([txt "home", txt "..", txt "x"], [txt "x"])) := Prod.ext rfl hrun
  rw [hpair] at h
  obtain ⟨seg, rest, -, hrest, htarget⟩ := h
  obtain ⟨-, htarget⟩ := List.cons.inj htarget
  obtain ⟨-, rfl⟩ := List.cons.inj htarget
  exact absurd (hrest (txt "x") (List.mem_singleton_self _)) (by decide)

theorem clone_below_notes :
    StaysBelow homeDisk [txt "home"]
      (cloneTarget noHosts homeDisk [txt "home"] (txt "wss://hub") (some (txt " notes\n"))) := by
  have hhome : homeDisk.IsDir [txt "home"] := by
    rw [Disk.IsDir]
    decide +kernel
  refine (clone_below noHosts homeDisk [txt "home"] (txt "wss://hub") (some (txt " notes\n"))
    hhome).mpr fun n hn _ => .inl ?_
  obtain rfl := Option.some.inj hn
  exact ⟨txt "notes", by decide, by decide⟩

end AgentSync
