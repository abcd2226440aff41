import AgentSync.Machine
import AgentSync.Fs.Effects
import AgentSync.Fs.Guarding
import AgentSync.Fs.Retrying

/-! A file that the user removes, and the pass after it.

When the file of keys is removed, the handler of events leaves the document as it is, for the next
pass to write the file again. But a pass goes by what it has recorded: a content that it has
written before, or that was taken in, it takes for written, whatever the disk has now. So the file
comes back exactly when its content is not recorded (`keys_return`). -/
namespace AgentSync

open Program

namespace Pass

/-- A pass that nothing comes between. -/
def undisturbed {σ : Type} (V : Setting σ) (x : Bound σ × Pass) (pick : Nat) :
    Option (Bound σ × Pass) :=
  step V x.1 pick x.2

/-- The step is not a write that fails. -/
def writesThrough {σ : Type} (V : Setting σ) (x : Bound σ × Pass) : Bool :=
  match x.2 with
  | .writing _ _ path bytes _ => canWrite V x.1 path bytes
  | _ => true

variable {V : Setting Disk} {b b' : Bound Disk} {i i' : Pass} {pick : Nat} {path : Str}

/-! ### What a step changes -/

/-- What the step at a place makes of the files on the disk. -/
def Leaves (V : Setting Disk) (b : Bound Disk) (fs : Disk) : Pass → Prop
  | .deleting _ _ path => fs = (NodeFsAdapter.delete b.fs (V.vaultPathToFsPath path)).1
  | .writing _ _ path bytes _ =>
    fs = (NodeFsAdapter.write b.fs (V.vaultPathToFsPath path) bytes).1
  | _ => ∀ l, fs.bytesAt l = b.fs.bytesAt l

theorem leaves_of_frame (h : Frame V pick i b b') : Leaves V b b'.fs i := by
  have hfs := h.fs
  cases i with
  | creating s dirs =>
    cases dirs with
    | nil => exact fun l => congrArg (Disk.bytesAt · l) hfs
    | cons path rest =>
      intro l
      rw [hfs]
      exact Disk.bytesAt_createDirAll _ l
  | deleting s todo path => exact hfs
  | writing s todo path bytes hash => exact hfs
  | removing s dirs =>
    intro l
    rw [hfs, fsCall]
    cases dirs[pick]? with
    | none => rfl
    | some path => exact NodeFsAdapter.bytesAt_removeDir
  | _ => exact fun l => congrArg (Disk.bytesAt · l) hfs

/-- A write that does not fail is one of the file. -/
theorem bytesAt_written (hV : V.adapter = nodeFsAdapter) {s : Snapshot} {todo : List Str}
    {hash : Str} {bytes : Bytes} {fs : Disk}
    (hfiles : Leaves V b fs (.writing s todo path bytes hash))
    (hwrites : canWrite V b path bytes = true) :
    fs.bytesAt (V.vaultPathToFsPath path).resolve = some bytes := by
  have hfs : fs = (NodeFsAdapter.write b.fs (V.vaultPathToFsPath path) bytes).1 := hfiles
  rw [canWrite, hV] at hwrites
  cases hwrite : NodeFsAdapter.write b.fs (V.vaultPathToFsPath path) bytes with
  | mk fs' result =>
    cases result with
    | ok _ =>
      rw [hfs, hwrite]
      exact NodeFsAdapter.bytesAt_write hwrite
    | error e =>
      simp only [nodeFsAdapter, hwrite] at hwrites
      cases hwrites

/-! ### Until the file is back -/

/-- What no path of the listing but `p` is written at: where `p` is. -/
structure Apart (V : Setting Disk) (p : Str) (l : Listing) : Prop where
  path : ∀ q ∈ l.live, q ≠ p → (V.vaultPathToFsPath q).resolve ≠ (V.vaultPathToFsPath p).resolve
  temporary : ∀ q name,
    PathBuf.resolve ((V.vaultPathToFsPath q).parent ++ [temporaryName name]) ≠
      (V.vaultPathToFsPath p).resolve

/-- A live file that the disk does not have, its content, and what is recorded of it. -/
structure Loss where
  path : Str
  live : Listing
  bytes : Bytes
  hash : Str
  recorded : Option Str

namespace Loss

variable (V : Setting Disk) (x : Loss)

def place : Location := (V.vaultPathToFsPath x.path).resolve

/-- What the disk has of the file in the end. -/
def outcome : Option Bytes := if x.recorded = some x.hash then none else some x.bytes

/-- In the loop over what is live the file comes back at its turn. -/
def Turns (fs : Disk) (todo : List Str) : Prop :=
  (x.path ∈ todo → fs.bytesAt (x.place V) = none) ∧
    (x.path ∉ todo → fs.bytesAt (x.place V) = x.outcome)

/-- The file that is written is the lost one, or another. -/
def Takes (fs : Disk) (todo : List Str) (q : Str) (bytes : Bytes) (hash : Str) : Prop :=
  if q = x.path then
    fs.bytesAt (x.place V) = none ∧ bytes = x.bytes ∧ hash = x.hash ∧ x.recorded ≠ some x.hash
  else x.Turns V fs todo

/-- What the disk has of the file while the pass is at work. -/
def Held (b : Bound Disk) : Pass → Prop
  | .listing => list V b = .ok x.live ∧ b.fs.bytesAt (x.place V) = none
  | .ordering l | .creating l _ | .cloning l | .cloned l _ =>
    l = x.live ∧ b.fs.bytesAt (x.place V) = none
  | .deletes s _ | .deleting s _ _ | .deleted s _ _ =>
    s.toListing = x.live ∧ b.fs.bytesAt (x.place V) = none
  | .writes s todo => s.toListing = x.live ∧ x.Turns V b.fs todo
  | .reading s todo q bytes hash | .marking s todo q bytes hash | .writing s todo q bytes hash =>
    s.toListing = x.live ∧ x.Takes V b.fs todo q bytes hash
  | .matched s todo _ _ | .written s todo _ _ _ => s.toListing = x.live ∧ x.Turns V b.fs todo
  | .pruning _ | .pruned _ | .sweeping _ | .removing _ _ | .done (.ok _) =>
    b.fs.bytesAt (x.place V) = x.outcome
  | .done (.error _) => True

variable {V x} {s : Snapshot} {todo : List Str} {q hash : Str} {bytes : Bytes} {m m' : FileMeta}

theorem Turns.congr {fs fs' : Disk} (h : x.Turns V fs todo)
    (hfs : ∀ l, fs'.bytesAt l = fs.bytesAt l) : x.Turns V fs' todo :=
  ⟨fun hin => (hfs _).trans (h.1 hin), fun hout => (hfs _).trans (h.2 hout)⟩

theorem Takes.congr {fs fs' : Disk} (h : x.Takes V fs todo q bytes hash)
    (hfs : ∀ l, fs'.bytesAt l = fs.bytesAt l) : x.Takes V fs' todo q bytes hash := by
  unfold Takes at h ⊢
  split
  next hq =>
    rw [if_pos hq] at h
    exact ⟨(hfs _).trans h.1, h.2⟩
  next hq =>
    rw [if_neg hq] at h
    exact h.congr hfs

/-- The turn of another path. -/
theorem Turns.other {fs : Disk} (h : x.Turns V fs todo) (hpath : todo[pick]? = some q)
    (hq : q ≠ x.path) : x.Turns V fs (todo.eraseIdx pick) := by
  have hiff : x.path ∈ todo.eraseIdx pick ↔ x.path ∈ todo :=
    ⟨List.mem_of_mem_eraseIdx, fun hin =>
      (eq_or_mem_eraseIdx hin hpath).resolve_left (Ne.symm hq)⟩
  exact ⟨fun hin => h.1 (hiff.mp hin), fun hout => h.2 fun hin => hout (hiff.mpr hin)⟩

theorem Takes.other {fs : Disk} (h : x.Takes V fs todo q bytes hash) (hq : q ≠ x.path) :
    x.Turns V fs todo := by
  rwa [Takes, if_neg hq] at h

theorem Takes.self {fs : Disk} (h : x.Takes V fs todo x.path bytes hash) :
    fs.bytesAt (x.place V) = none ∧ bytes = x.bytes ∧ hash = x.hash ∧
      x.recorded ≠ some x.hash := by
  rwa [Takes, if_pos rfl] at h

/-- After its turn. -/
theorem turns_of_notMem {fs : Disk} (hout : x.path ∉ todo)
    (h : fs.bytesAt (x.place V) = x.outcome) : x.Turns V fs todo :=
  ⟨fun hin => absurd hin hout, fun _ => h⟩

/-- The file is not there to be read. -/
theorem read_lost (hV : V.adapter = nodeFsAdapter) (h : b.fs.bytesAt (x.place V) = none) :
    ∃ e, V.adapter.read b.fs (V.vaultPathToFsPath x.path) = .error e := by
  rw [hV]
  cases hread : NodeFsAdapter.read b.fs (V.vaultPathToFsPath x.path) with
  | error e => exact ⟨e, hread⟩
  | ok disk =>
    have hsome := NodeFsAdapter.bytesAt_of_read hread
    rw [place] at h
    rw [h] at hsome
    cases hsome

theorem onDisk_lost (hV : V.adapter = nodeFsAdapter) (h : b.fs.bytesAt (x.place V) = none) :
    onDisk V b x.path hash = false := by
  obtain ⟨e, he⟩ := read_lost hV h
  rw [onDisk, he]

theorem uncommitted_lost (hV : V.adapter = nodeFsAdapter)
    (h : b.fs.bytesAt (x.place V) = none) : uncommitted V b s x.path = false := by
  obtain ⟨e, he⟩ := read_lost hV h
  rw [uncommitted, he]

/-- What the document has at the path is what was lost. -/
theorem eq_of_target (hm : x.live.live.lookup x.path = some m)
    (htarget : target V b m = .ok (some (x.bytes, x.hash))) (hs : s.toListing = x.live)
    (hm' : s.live.lookup x.path = some m') {found : Option (Bytes × Str)}
    (hfound : target V b m' = .ok found) : found = some (x.bytes, x.hash) := by
  obtain rfl := Option.some.inj (hm.symm.trans (hs ▸ hm'))
  exact Except.ok.inj (hfound.symm.trans htarget)

/-- A path that is passed over, since its content is recorded. -/
theorem turns_same (hm : x.live.live.lookup x.path = some m)
    (htarget : target V b m = .ok (some (x.bytes, x.hash)))
    (hk : Knows x.path x.recorded b (.writes s todo)) (hs : s.toListing = x.live)
    (hturns : x.Turns V b.fs todo) (hpath : todo[pick]? = some q)
    (hm' : s.live.lookup q = some m') (htarget' : target V b m' = .ok (some (bytes, hash)))
    (hsame : s.existing.lookup q = some hash) : x.Turns V b.fs (todo.eraseIdx pick) := by
  by_cases hq : q = x.path
  · subst hq
    obtain ⟨-, rfl⟩ := Prod.mk.inj (Option.some.inj (eq_of_target hm htarget hs hm' htarget'))
    -- What is recorded is taken for written.
    have hrecorded : x.recorded = some x.hash := hk.existing.symm.trans hsame
    refine turns_of_notMem (not_mem_eraseIdx hk.nodup hpath) ?_
    rw [outcome, if_pos hrecorded]
    exact hturns.1 (List.mem_of_getElem? hpath)
  · exact hturns.other hpath hq

/-- A path that is to be written, since its content is not recorded. -/
theorem takes_reading (hm : x.live.live.lookup x.path = some m)
    (htarget : target V b m = .ok (some (x.bytes, x.hash)))
    (hk : Knows x.path x.recorded b (.writes s todo)) (hs : s.toListing = x.live)
    (hturns : x.Turns V b.fs todo) (hpath : todo[pick]? = some q)
    (hm' : s.live.lookup q = some m') (htarget' : target V b m' = .ok (some (bytes, hash)))
    (hsame : s.existing.lookup q ≠ some hash) :
    x.Takes V b.fs (todo.eraseIdx pick) q bytes hash := by
  by_cases hq : q = x.path
  · subst hq
    obtain ⟨rfl, rfl⟩ := Prod.mk.inj (Option.some.inj (eq_of_target hm htarget hs hm' htarget'))
    rw [Takes, if_pos rfl]
    exact ⟨hturns.1 (List.mem_of_getElem? hpath), rfl, rfl, hk.existing ▸ hsame⟩
  · rw [Takes, if_neg hq]
    exact hturns.other hpath hq

/-- **The write** brings the file back, or is of another. -/
theorem turns_written (hV : V.adapter = nodeFsAdapter) (hapart : Apart V x.path x.live)
    (hk : Knows x.path x.recorded b (.writing s todo q bytes hash)) (hs : s.toListing = x.live)
    (htakes : x.Takes V b.fs todo q bytes hash) {fs : Disk}
    (hfiles : Leaves V b fs (.writing s todo q bytes hash))
    (hwrites : canWrite V b q bytes = true) : x.Turns V fs todo := by
  by_cases hq : q = x.path
  · subst hq
    obtain ⟨-, rfl, rfl, hrecorded⟩ := htakes.self
    refine turns_of_notMem hk.2.1.1 ?_
    rw [outcome, if_neg hrecorded]
    exact bytesAt_written hV hfiles hwrites
  · have hlive : q ∈ x.live.live := hs ▸ hk.2.1.2
    have hother : (NodeFsAdapter.write b.fs (V.vaultPathToFsPath q) bytes).1.bytesAt
        (x.place V) = b.fs.bytesAt (x.place V) :=
      NodeFsAdapter.bytesAt_write_of_ne (hapart.path q hlive hq) (hapart.temporary q)
    have hfs : fs = (NodeFsAdapter.write b.fs (V.vaultPathToFsPath q) bytes).1 := hfiles
    have hsame := (congrArg (Disk.bytesAt · (x.place V)) hfs).trans hother
    have hturns := htakes.other hq
    exact ⟨fun hin => hsame.trans (hturns.1 hin), fun hout => hsame.trans (hturns.2 hout)⟩

/-- **One step of the pass.** -/
theorem held_step (hV : V.adapter = nodeFsAdapter) (hapart : Apart V x.path x.live)
    (hm : x.live.live.lookup x.path = some m)
    (htarget : target V b m = .ok (some (x.bytes, x.hash)))
    (hk : Knows x.path x.recorded b i) (h : x.Held V b i)
    (hstep : step V b pick i = some (b', i')) (hguard : writesThrough V (b, i) = true) :
    x.Held V b' i' := by
  have hfiles := leaves_of_frame (frame_of_step hV hstep)
  cases moves_of_step hstep with
  | listed hlist => exact ⟨Except.ok.inj (hlist.symm.trans h.1), h.2⟩
  | unlisted hlist => cases hlist.symm.trans h.1
  | ordered l => exact h
  | creating l path rest => exact ⟨h.1, (hfiles _).trans h.2⟩
  | created l => exact h
  | cloning l => exact h
  | cloned l existing => exact h
  | deletesEnd s =>
    obtain ⟨hs, hgone⟩ := h
    have hin : x.path ∈ s.live.keys :=
      AList.mem_keys.mpr (AList.lookup_isSome.mp (by rw [hs, hm]; rfl))
    exact ⟨hs, fun _ => hgone, fun hout => absurd hin hout⟩
  | live hpath hlive => exact h
  | kept hpath hlive hkept => exact h
  | deleting hpath hlive hkept => exact h
  | deleted hdeletes =>
    refine ⟨h.1, ?_⟩
    rw [hfiles]
    exact NodeFsAdapter.bytesAt_delete h.2
  | undeleted hdeletes =>
    refine ⟨h.1, ?_⟩
    rw [hfiles]
    exact NodeFsAdapter.bytesAt_delete h.2
  | unmarked s todo path => exact ⟨h.1, (hfiles _).trans h.2⟩
  | writesEnd s => exact h.2.2 List.not_mem_nil
  | failed => trivial
  | @nothing s todo q m' hpath hm' htarget' =>
    obtain ⟨hs, hturns⟩ := h
    refine ⟨hs, hturns.other hpath ?_⟩
    rintro rfl
    cases eq_of_target hm htarget hs hm' htarget'
  | same hpath hm' htarget' hsame =>
    exact ⟨h.1, turns_same hm htarget hk h.1 h.2 hpath hm' htarget' hsame⟩
  | reading hpath hm' htarget' hsame =>
    exact ⟨h.1, takes_reading hm htarget hk h.1 h.2 hpath hm' htarget' hsame⟩
  | @matched s todo q hash bytes hdisk =>
    refine ⟨h.1, h.2.other ?_⟩
    rintro rfl
    rw [onDisk_lost hV h.2.self.1] at hdisk
    cases hdisk
  | @left s todo q hash bytes hdisk hkept =>
    refine ⟨h.1, h.2.other ?_⟩
    rintro rfl
    rw [uncommitted_lost hV h.2.self.1] at hkept
    cases hkept
  | marking hdisk hkept => exact h
  | recorded s todo path hash => exact ⟨h.1, h.2.congr hfiles⟩
  | writing s todo path bytes hash => exact ⟨h.1, h.2.congr hfiles⟩
  | written hwrites => exact ⟨h.1, turns_written hV hapart hk h.1 h.2 hfiles hwrites⟩
  | unwritten hwrites =>
    have hwrites' : canWrite V b _ _ = true := hguard
    rw [hwrites] at hwrites'
    cases hwrites'
  | rewritten s todo path bytes hash => exact ⟨h.1, h.2.congr hfiles⟩
  | pruned s => exact (hfiles _).trans h
  | sweeping s => exact (hfiles _).trans h
  | removing s => exact h
  | removed hpath hdeepest => exact (hfiles _).trans h
  | done s => exact h

end Loss

theorem target_congr {m : FileMeta} (hdoc : b'.doc = b.doc) (hstorage : b'.storage = b.storage) :
    target V b' m = target V b m := by
  rw [target, target, hdoc, hstorage]

/-- **A pass writes a file that is lost**, unless its content is recorded. -/
theorem Loss.held_of_reach {x : Loss} {b₀ : Bound Disk} {m : FileMeta} {y : Bound Disk × Pass}
    (hV : V.adapter = nodeFsAdapter) (hapart : Apart V x.path x.live)
    (hm : x.live.live.lookup x.path = some m)
    (htarget : target V b₀ m = .ok (some (x.bytes, x.hash)))
    (hrecorded : b₀.materialized.lookup x.path = x.recorded) (hheld : x.Held V b₀ .listing)
    (h : Machine.Reach (undisturbed V) (fun y _ => writesThrough V y = true) (b₀, .listing) y) :
    x.Held V y.1 y.2 := by
  have hinv : target V y.1 m = .ok (some (x.bytes, x.hash)) ∧ Knows x.path x.recorded y.1 y.2 ∧
      x.Held V y.1 y.2 := by
    refine h.invariant (I := fun y => target V y.1 m = .ok (some (x.bytes, x.hash)) ∧
      Knows x.path x.recorded y.1 y.2 ∧ x.Held V y.1 y.2) ⟨htarget, ?_, hheld⟩ ?_
    · exact hrecorded
    intro y pick y' ⟨htarget, hknows, hheld⟩ hguard hstep
    have hframe := frame_of_step hV hstep
    exact ⟨(target_congr hframe.doc hframe.storage).trans htarget,
      knows_step hknows (moves_of_step hstep),
      held_step hV hapart hm htarget hknows hheld hstep hguard⟩
  exact hinv.2.2

end Pass

/-! ### The file of keys -/

/-- Every path of the listing is normalized. -/
theorem Pass.normalized_of_list {σ : Type} {V : Setting σ} {b : Bound σ} {l : Listing}
    (hsound : b.doc.Sound V.crates.nfc V.automerge) (h : list V b = .ok l) {q : Str}
    (hq : q ∈ l.live) : Path.Normalized V.crates.nfc q := by
  obtain ⟨files, hfiles, h⟩ := bind_eq_ok.mp h
  obtain ⟨dirs, -, h⟩ := bind_eq_ok.mp h
  obtain rfl := Except.ok.inj h
  obtain ⟨m, hm⟩ := Option.isSome_iff_exists.mp (AList.lookup_isSome.mpr hq)
  rw [lookup_liveByPath] at hm
  obtain ⟨hmem, rfl⟩ := mem_entriesAt.mp (List.mem_of_getLast? hm)
  exact hsound.rootTyped.normalized ((Root.mem_listFiles hfiles).mp hmem).1

/-- Nothing else is written where the file of keys is. -/
theorem Pass.apart_authorizedKeys {V : Setting Disk} {l : Listing}
    (hlive : ∀ q ∈ l.live, Path.Normalized V.crates.nfc q) (hin : authorizedKeysFile ∈ l.live) :
    Apart V authorizedKeysFile l where
  path q hq hne := by
    rw [resolve_vaultPathToFsPath (hlive q hq), resolve_vaultPathToFsPath (hlive _ hin)]
    intro heq
    refine hne ?_
    rw [← Path.joinSlash_splitOn q, List.append_cancel_left heq, Path.joinSlash_splitOn]
  temporary q name := by
    have hsplit : authorizedKeysFile.splitOn '/' = [authorizedKeysFile] :=
      List.splitOn_eq_singleton (by decide)
    rw [resolve_vaultPathToFsPath (hlive _ hin), hsplit, resolve_append]
    · intro heq
      have hlast := List.singleton_inj.mp (List.append_inj' heq rfl).2
      have hhead : some '.' = some 'a' := congrArg List.head? hlast
      exact absurd hhead (by decide)
    · intro seg hseg
      exact List.mem_singleton.mp hseg ▸ isName_temporaryName name

namespace Watching

variable {V : Watching Disk} {w w' : Watch Disk}

/-- Nothing comes of it that the file of keys is removed. -/
theorem handleStep_removedKeys {σ : Type} {V : Watching σ} {w w' : Watch σ} {ahead : Nat → σ × Nat}
    (hkeys : Path.Normalized V.crates.nfc authorizedKeysFile)
    (h : V.handleStep w (.removed (V.vaultPathToFsPath authorizedKeysFile), ahead) = some w') :
    w'.bound = {w.bound with fs := (ahead 0).1, now := (ahead 0).2} := by
  have hpath (s : SyncIgnoreSet) :
      V.fsPathToVaultPath s (V.vaultPathToFsPath authorizedKeysFile) = some authorizedKeysFile := by
    have hallowed : V.pathAllowed s authorizedKeysFile = true := by
      rw [pathAllowed, if_neg (by decide), if_pos (by decide)]
    simp only [fsPathToVaultPath, vaultRelative_vaultPathToFsPath hkeys, Option.bind_eq_bind,
      Option.bind_some, hallowed, if_true]
  have htouches : (FsEvent.removed (V.vaultPathToFsPath authorizedKeysFile)).touchesSyncignore
      = false := by
    have hname : PathBuf.fileName (V.vaultPathToFsPath authorizedKeysFile)
        = some authorizedKeysFile := by
      have hcomponents : components authorizedKeysFile = [authorizedKeysFile] := by decide
      rw [Setting.vaultPathToFsPath, hcomponents]
      exact PathBuf.fileName_concat ⟨by decide, by decide, by decide⟩ _
    rw [FsEvent.touchesSyncignore, isSyncignore, hname]
    decide
  have hrun : V.handleFsEvent (.removed (V.vaultPathToFsPath authorizedKeysFile)) {w with ahead}
      = .ok () ({w with ahead} : Watch σ).awaited := by
    rw [handleFsEvent, htouches, if_neg Bool.false_ne_true, dispatchFsEvent]
    refine (bind_ok rfl).trans ?_
    split
    · rfl
    · rw [remove, get_bind, hpath]
      rfl
  have h : finish (V.handleFsEvent (.removed (V.vaultPathToFsPath authorizedKeysFile))
      {w with ahead}) = w' := Option.some.inj h
  rw [hrun] at h
  exact h ▸ rfl

/-- **The file of keys comes back** with the next pass that does not fail to write, exactly when
the content that the document has for it is not recorded as written. -/
theorem keys_return {b : Bound Disk} {l : Listing} {m : FileMeta} {bytes : Bytes} {hash : Str}
    {fs : Disk} {times : Nat → Nat} (hV : V.adapter = nodeFsAdapter)
    (hsound : w.bound.doc.Sound V.crates.nfc V.automerge)
    (hlist : Pass.list V.toSetting w.bound = .ok l)
    (hm : l.live.lookup authorizedKeysFile = some m)
    (htarget : Pass.target V.toSetting w.bound m = .ok (some (bytes, hash)))
    (hremove : w.bound.fs.removeFile (V.vaultPathToFsPath authorizedKeysFile) = .ok fs)
    (hevent : V.handleStep w (.removed (V.vaultPathToFsPath authorizedKeysFile),
      fun n => (fs, times n)) = some w')
    (hpass : Machine.Reach (Pass.undisturbed V.toSetting)
      (fun y _ => Pass.writesThrough V.toSetting y = true) (w'.bound, .listing)
      (b, .done (.ok ()))) :
    b.fs.bytesAt (V.vaultPathToFsPath authorizedKeysFile).resolve = some bytes ↔
      w.bound.materialized.lookup authorizedKeysFile ≠ some hash := by
  have hin : authorizedKeysFile ∈ l.live := AList.lookup_isSome.mp (by rw [hm]; rfl)
  have hnormalized (q : Str) (hq : q ∈ l.live) := Pass.normalized_of_list hsound hlist hq
  have hbound := handleStep_removedKeys (hnormalized _ hin) hevent
  let x : Pass.Loss := ⟨authorizedKeysFile, l, bytes, hash,
    w.bound.materialized.lookup authorizedKeysFile⟩
  have hgone : fs.bytesAt (x.place V.toSetting) = none := by
    rw [Disk.bytesAt_removeFile hremove]
    exact if_pos rfl
  have hheld : x.Held V.toSetting b (.done (.ok ())) := by
    refine Pass.Loss.held_of_reach (x := x) (m := m) (y := (b, .done (.ok ()))) hV
      (Pass.apart_authorizedKeys hnormalized hin) hm ?_ ?_ ?_ hpass
    · rw [hbound]
      exact htarget
    · rw [hbound]
    · rw [hbound]
      exact ⟨hlist, hgone⟩
  have hfile : b.fs.bytesAt (V.vaultPathToFsPath authorizedKeysFile).resolve = x.outcome := hheld
  rw [hfile, Pass.Loss.outcome]
  by_cases hrecorded : x.recorded = some x.hash
  · rw [if_pos hrecorded]
    exact ⟨nofun, fun hne => absurd hrecorded hne⟩
  · rw [if_neg hrecorded]
    exact ⟨fun _ => hrecorded, fun _ => rfl⟩

private theorem keysPath_eq :
    Watching.localDisk.vaultPathToFsPath authorizedKeysFile = keysPath := by
  decide

/-- The user had another file there, which no pass has seen. -/
private def unseen : Watch Disk :=
  .fresh .localDisk keysDoc (Disk.vaultDir.put keysPath (.file (utf8 (txt "b"))))

/-- A pass, by what is taken from its loops. -/
private def passFrom (b : Bound Disk) (steps : Nat) : Option (Bound Disk × Pass) :=
  if Machine.allowed (Pass.undisturbed Setting.localDisk)
      (fun y _ => Pass.writesThrough .localDisk y) (b, .listing) (List.replicate steps 0) then
    Machine.run (Pass.undisturbed Setting.localDisk) (b, .listing) (List.replicate steps 0)
  else none

private theorem reach_of_passFrom {b : Bound Disk} {steps : Nat} {y : Bound Disk × Pass}
    (h : passFrom b steps = some y) (hreturns : y.2.returns = true) :
    Machine.Reach (Pass.undisturbed Setting.localDisk)
      (fun y _ => Pass.writesThrough .localDisk y = true) (b, .listing) (y.1, .done (.ok ())) := by
  unfold passFrom at h
  split at h
  next hallowed =>
    have hguarded : Machine.Guarded (Pass.undisturbed Setting.localDisk)
        (fun y _ => Pass.writesThrough .localDisk y = true) (b, .listing)
        (List.replicate steps 0) := .of_allowed (fun _ _ h => h) hallowed
    rw [← Pass.eq_of_returns hreturns]
    exact .of_run hguarded h
  next => cases h

theorem keys_return_unseen : ∃ w' b fs,
    Watching.localDisk.handleStep unseen (.removed keysPath, fun _ => (fs, 0)) = some w' ∧
      Machine.Reach (Pass.undisturbed Setting.localDisk)
        (fun y _ => Pass.writesThrough .localDisk y = true) (w'.bound, .listing)
        (b, .done (.ok ())) ∧
      b.fs.bytesAt keysPath.resolve = some (utf8 (txt "a")) := by
  have hruns : ((unseen.bound.fs.removeFile keysPath).toOption.any fun fs =>
      (Watching.localDisk.handleStep unseen (.removed keysPath, fun _ => (fs, 0))).any fun w' =>
        (passFrom w'.bound 16).any fun y => y.2.returns) = true := by
    decide +kernel
  have hcontent : ((Pass.list Setting.localDisk unseen.bound).toOption.any fun l =>
      (l.live.lookup authorizedKeysFile).any fun m =>
        decide ((Pass.target Setting.localDisk unseen.bound m).toOption =
          some (some (utf8 (txt "a"), letterDigest.hash (utf8 (txt "a")))))) = true := by
    decide +kernel
  obtain ⟨fs, hremove, hruns⟩ := (Option.any_eq_true _ _).mp hruns
  obtain ⟨w', hevent, hruns⟩ := (Option.any_eq_true _ _).mp hruns
  obtain ⟨y, hy, hreturns⟩ := (Option.any_eq_true _ _).mp hruns
  obtain ⟨l, hlist, hcontent⟩ := (Option.any_eq_true _ _).mp hcontent
  obtain ⟨m, hm, hcontent⟩ := (Option.any_eq_true _ _).mp hcontent
  have hpass := reach_of_passFrom hy hreturns
  have hunrecorded : unseen.bound.materialized.lookup authorizedKeysFile ≠
      some (letterDigest.hash (utf8 (txt "a"))) := by
    rw [show unseen.bound.materialized.lookup authorizedKeysFile = none from rfl]
    nofun
  have hdoc : unseen.bound.doc = keysDoc := by simp only [unseen, Watch.fresh, Bound.fresh]
  have hsound : unseen.bound.doc.Sound Watching.localDisk.crates.nfc Watching.localDisk.automerge :=
    hdoc ▸ rooted_keysDoc.settled.sound
  rw [← keysPath_eq] at hremove hevent ⊢
  have hback := (@keys_return .localDisk unseen w' y.1 l m _ _ fs (fun _ => 0) rfl hsound
    (eq_ok_of_toOption hlist) hm (eq_ok_of_toOption (of_decide_eq_true hcontent))
    (eq_ok_of_toOption hremove) hevent hpass).mpr hunrecorded
  exact ⟨w', y.1, fs, hevent, hpass, hback⟩

/-- **After a pass has written the file** the next one does not write it again. -/
theorem keys_return_recorded : ¬ ∀ w w' b fs content,
    Machine.Reach (Pass.undisturbed Setting.localDisk)
      (fun y _ => Pass.writesThrough .localDisk y = true)
      ((Watch.fresh .localDisk keysDoc .vaultDir).bound, .listing) (w.bound, .done (.ok ())) →
    w.bound.doc.root.readFile .letters authorizedKeysFile = .ok content →
    w.bound.fs.removeFile keysPath = .ok fs →
    Watching.localDisk.handleStep w (.removed keysPath, fun _ => (fs, 0)) = some w' →
    Machine.Reach (Pass.undisturbed Setting.localDisk)
      (fun y _ => Pass.writesThrough .localDisk y = true) (w'.bound, .listing)
      (b, .done (.ok ())) →
    b.fs.bytesAt keysPath.resolve = some (utf8 content) := by
  intro h
  have hruns : ((passFrom (Watch.fresh .localDisk keysDoc .vaultDir).bound 16).any fun x =>
      x.2.returns && decide ((x.1.doc.root.readFile .letters authorizedKeysFile).toOption =
        some (txt "a")) &&
      (x.1.fs.removeFile keysPath).toOption.any fun fs =>
        (Watching.localDisk.handleStep {Watch.fresh .localDisk keysDoc .vaultDir with bound := x.1}
          (.removed keysPath, fun _ => (fs, 0))).any fun w' =>
            (passFrom w'.bound 13).any fun y =>
              y.2.returns && decide (y.1.fs.bytesAt keysPath.resolve = none)) = true := by
    decide +kernel
  obtain ⟨x, hx, hruns⟩ := (Option.any_eq_true _ _).mp hruns
  simp only [Bool.and_eq_true, decide_eq_true_eq] at hruns
  obtain ⟨⟨hwritten, hread⟩, hruns⟩ := hruns
  obtain ⟨fs, hremove, hruns⟩ := (Option.any_eq_true _ _).mp hruns
  obtain ⟨w', hevent, hruns⟩ := (Option.any_eq_true _ _).mp hruns
  obtain ⟨y, hy, hruns⟩ := (Option.any_eq_true _ _).mp hruns
  simp only [Bool.and_eq_true, decide_eq_true_eq] at hruns
  have hback := h {Watch.fresh .localDisk keysDoc .vaultDir with bound := x.1} w' y.1 fs _
    (reach_of_passFrom hx hwritten) (eq_ok_of_toOption hread) (eq_ok_of_toOption hremove) hevent
    (reach_of_passFrom hy hruns.1)
  rw [hruns.2] at hback
  cases hback

end Watching

end AgentSync
