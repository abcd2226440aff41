import AgentSync.Doc.Live
import AgentSync.Doc.Outcome

/-! What a replica that never merges can restore.

Its changes follow one another (`Sequential`), so what any heads name is a beginning of its
history, and a restore sets the tables to those of a state it was in. -/
namespace AgentSync

variable {L : Crates} {A : Automerge} {r r' : Root}

/-! ### Histories that never fork -/

/-- Every change depends on all that came before it. -/
def Sequential (changes : List Change) : Prop :=
  ∀ front c, front ++ [c] <+: changes → c.deps = headsOf front

namespace Sequential

variable {changes : List Change}

theorem concat {c : Change} (h : Sequential changes) (hc : c.deps = headsOf changes) :
    Sequential (changes ++ [c]) := by
  intro front c' hfront
  rcases List.prefix_concat_iff.mp hfront with heq | hfront
  · obtain ⟨rfl, hlast⟩ := List.append_inj' heq rfl
    obtain rfl := List.singleton_inj.mp hlast
    exact hc
  · exact h front c' hfront

theorem of_concat {c : Change} (h : Sequential (changes ++ [c])) :
    Sequential changes ∧ c.deps = headsOf changes :=
  ⟨fun front c' hfront => h front c' (hfront.trans (List.prefix_append _ _)),
    h changes c (List.prefix_refl _)⟩

/-- **Heads name a beginning of the history.** -/
theorem upTo (h : Sequential changes) (ho : Ordered changes)
    (hnodup : (changes.map Change.hash).Nodup) (wanted : List ChangeHash) :
    ∃ front, front <+: changes ∧ upTo changes.reverse wanted = front.reverse := by
  induction changes using List.reverseRecOn generalizing wanted with
  | nil => exact ⟨[], List.prefix_refl _, rfl⟩
  | append_singleton changes c ih =>
    obtain ⟨h, hc⟩ := h.of_concat
    have ho' := (ordered_concat_iff.mp ho).1
    have hnodup' : (changes.map Change.hash).Nodup := by
      rw [List.map_append] at hnodup
      exact (List.nodup_append.mp hnodup).1
    rw [List.reverse_append, List.reverse_singleton, List.singleton_append, AgentSync.upTo]
    split
    next =>
      refine ⟨changes ++ [c], List.prefix_refl _, ?_⟩
      rw [upTo_headsOf ho' hnodup' (hc ▸ List.subset_append_left _ _)]
      simp
    next =>
      obtain ⟨front, hfront, heq⟩ := ih h ho' hnodup' wanted
      exact ⟨front, hfront.trans (List.prefix_append _ _), heq⟩

end Sequential

/-! ### The tables of a view -/

namespace Root

theorem mem_liveFiles {files : List LiveFile} (h : r.liveFiles L = .ok files) {f : LiveFile} :
    f ∈ files ↔ r.fileAt L f.id = some f := by
  cases hlist : r.listFiles L with
  | error e =>
    rw [liveFiles, hlist] at h
    cases h
  | ok metas =>
    rw [liveFiles, hlist] at h
    obtain rfl := Except.ok.inj h
    rw [List.mem_map, fileAt_eq_some]
    constructor
    · rintro ⟨m, hm, hf⟩
      obtain ⟨hread, hlive⟩ := (mem_listFiles hlist).mp hm
      subst hf
      exact ⟨m, hread, hlive, rfl⟩
    · rintro ⟨m, hread, hlive, hf⟩
      refine ⟨m, (mem_listFiles hlist).mpr ⟨?_, hlive⟩, hf⟩
      subst hf
      exact hread

theorem mem_liveDirectories {dirs : List LiveDirectory} (h : r.liveDirectories L = .ok dirs)
    {f : LiveDirectory} : f ∈ dirs ↔ r.dirAt L f.id = some f := by
  cases hlist : r.listDirectories L with
  | error e =>
    rw [liveDirectories, hlist] at h
    cases h
  | ok metas =>
    rw [liveDirectories, hlist] at h
    obtain rfl := Except.ok.inj h
    rw [List.mem_map, dirAt_eq_some]
    constructor
    · rintro ⟨m, hm, hf⟩
      subst hf
      exact ⟨m, (mem_listDirectories hlist).mp hm, rfl⟩
    · rintro ⟨m, hread, hf⟩
      refine ⟨m, (mem_listDirectories hlist).mpr ?_, hf.symm⟩
      subst hf
      exact hread

theorem fileAt_of_sameView (h : SameView L r r') : r.fileAt L = r'.fileAt L := by
  obtain ⟨files, files', hfiles, hfiles', hsame⟩ := h.files
  funext fid
  refine Option.ext fun f => ⟨fun hf => ?_, fun hf => ?_⟩
  · obtain rfl := fileAt_id hf
    exact (mem_liveFiles hfiles').mp ((hsame f).mp ((mem_liveFiles hfiles).mpr hf))
  · obtain rfl := fileAt_id hf
    exact (mem_liveFiles hfiles).mp ((hsame f).mpr ((mem_liveFiles hfiles').mpr hf))

theorem dirAt_of_sameView (h : SameView L r r') : r.dirAt L = r'.dirAt L := by
  obtain ⟨dirs, dirs', hdirs, hdirs', hsame⟩ := h.directories
  funext did
  refine Option.ext fun f => ⟨fun hf => ?_, fun hf => ?_⟩
  · obtain rfl := dirAt_id hf
    exact (mem_liveDirectories hdirs').mp ((hsame f).mp ((mem_liveDirectories hdirs).mpr hf))
  · obtain rfl := dirAt_id hf
    exact (mem_liveDirectories hdirs).mp ((hsame f).mpr ((mem_liveDirectories hdirs').mpr hf))

end Root

namespace Doc

variable {d d' : Doc}

/-! ### What a restore leaves alone -/

section Untouched

variable {now : Int} {files : List FileMeta} {dirs : List DirectoryMeta} {text : Str → Str}

/-- An id that neither the past nor the present has an entry for gets none. -/
theorem restoredRoot_newFile {fid : Str} (hpast : ∀ m ∈ files, m.id ≠ fid)
    (hnone : r.get (.file fid) = none) :
    (restoredRoot L now files dirs text r).get (.file fid) = none := by
  have hnotPast : ∀ m ∈ files, (Addr.file fid).fileId ≠ some m.id :=
    fun m hm heq => hpast m hm (Option.some.inj heq).symm
  have hnotKey : ∀ fid' ∈ r.fileKeys, (Addr.file fid).fileId ≠ some fid' := by
    intro fid' hkey heq
    rw [Root.mem_fileKeys, ← Option.some.inj heq, hnone] at hkey
    cases hkey
  rw [restoredRoot_file _ rfl,
    writeEach_otherFile FileMeta.id (fun m r => fileId_restoreOps m r) hnotPast,
    writeEach_otherFile id (fun fid r => fileId_killFileOps fid r) hnotKey, hnone]

theorem restoredRoot_newDirectory {did : Str} (hpast : ∀ m ∈ dirs, m.id ≠ did)
    (hnone : r.get (.dir did) = none) :
    (restoredRoot L now files dirs text r).get (.dir did) = none := by
  have hnotPast : ∀ m ∈ dirs, (Addr.dir did).dirId ≠ some m.id :=
    fun m hm heq => hpast m hm (Option.some.inj heq).symm
  have hnotKey : ∀ did' ∈ r.dirKeys, (Addr.dir did).dirId ≠ some did' := by
    intro did' hkey heq
    rw [Root.mem_dirKeys, ← Option.some.inj heq, hnone] at hkey
    cases hkey
  rw [restoredRoot,
    writeEach_otherDirectory DirectoryMeta.id (fun m r => dirId_restoreDirectoryOps m r) hnotPast,
    writeEach_otherDirectory id (fun did r => dirId_killDirectoryOps did r) hnotKey,
    writeEach_otherFile FileMeta.id (fun m r => fileId_restoreOps m r) (by simp [Addr.fileId]),
    writeEach_otherFile id (fun fid r => fileId_killFileOps fid r) (by simp [Addr.fileId]), hnone]

end Untouched

/-! ### What a restore makes of the tables -/

/-- A restore of heads that are not in the history, or of content that cannot be listed,
fails before it writes anything. -/
theorem restoreToHeads_fails {heads : List ChangeHash}
    (h : ∀ past, forkAt A (d.committed 0) heads = .ok past →
      ∃ e, past.root.listFiles L = .error e) :
    ∃ e, restoreToHeads L A heads d = .error e (d.committed 0) := by
  cases hfork : forkAt A (d.committed 0) heads with
  | error e =>
    simp only [restoreToHeads, bind, EStateM.bind, Doc.heads, fork, hfork]
    exact ⟨e, rfl⟩
  | ok past =>
    obtain ⟨e, he⟩ := h past hfork
    simp only [restoreToHeads, bind, EStateM.bind, Doc.heads, fork, hfork, lift, read, he]
    exact ⟨e, rfl⟩

/-- **A restore sets the tables to the past ones.** -/
theorem restoreToHeads_outcome {past : Doc} {heads : List ChangeHash} (hd : d.root.Ready L)
    (hfork : forkAt A (d.committed 0) heads = .ok past) (hsound : past.Sound L.nfc A)
    (hpast : past.root.Readable L) :
    Ends (restoreToHeads L A heads) d fun _ d' => ∃ ops t n, (d.committed 0).draws ≤ n ∧
      d' = ({d.committed 0 with draws := n}.emitted ops).committed t ∧ d'.root.Readable L ∧
      d'.root.fileAt L = past.root.fileAt L ∧ d'.root.dirAt L = past.root.dirAt L ∧
      (∀ fid, d.root.get (.file fid) = none → past.root.get (.file fid) = none →
        d'.root.get (.file fid) = none) ∧
      ∀ did, d.root.get (.dir did) = none → past.root.get (.dir did) = none →
        d'.root.get (.dir did) = none := by
  obtain ⟨files, hfiles⟩ := hsound.rootTyped.listFiles (L := L) hsound.rootComplete hpast.files
  obtain ⟨dirs, hdirs⟩ := hsound.rootTyped.listDirectories (L := L) hpast.directories
  have hrestorable := restorable_listed hsound hfiles hdirs
  refine (restoreToHeads_emits hd hfork hfiles hdirs hrestorable).weaken
    fun _ d' ⟨now, ops, t, hd', hroot, hready⟩ => ?_
  have hview : SameView L (restoredRoot L now files dirs (pastText past.root) d.root) past.root :=
    sameView_restoredRoot hd hrestorable hfiles hdirs
  rw [← hroot] at hview
  refine ⟨ops, t, _, Nat.le_add_right _ 2, hd', hready.readable, Root.fileAt_of_sameView hview,
    Root.dirAt_of_sameView hview, fun fid hnone hpastNone => ?_, fun did hnone hpastNone => ?_⟩
  · rw [hroot]
    refine restoredRoot_newFile (fun m hm heq => ?_) hnone
    subst heq
    have hread := ((Root.mem_listFiles hfiles).mp hm).1
    exact Root.get_of_hasObject (Root.readFileMeta_eq_some.mp hread).2.1 hpastNone
  · rw [hroot]
    refine restoredRoot_newDirectory (fun m hm heq => ?_) hnone
    subst heq
    have hread := (Root.mem_listDirectories hdirs).mp hm
    exact Root.get_of_hasObject (Root.readDirectoryMeta_eq_some.mp hread).1 hpastNone

end Doc

end AgentSync
