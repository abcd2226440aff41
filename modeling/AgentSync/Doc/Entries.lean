import AgentSync.Doc.Live

/-! What the operations' writes make of an entry.

A write of `write_text_file`, `rename_file` and the like sets one entry of the tables of
live files and directories; each lemma says what it is set to. Ids that are still to be
drawn have no entry (`Doc.Fresh`), so a new file or directory is a new entry. -/
namespace AgentSync

variable {L : Crates} {A : Automerge} {r : Root} {fid did p : Str}

namespace Root

/-- The body that the kind of a file selects. -/
def body (r : Root) (fid : Str) (hash : Option Str) : FileKind → Body
  | .text => .text ((r.getText fid).getD [])
  | .attachment => .attachment hash

theorem liveFile_of_read {m : FileMeta} (h : r.readFileMeta L fid = .ok (some m)) :
    r.liveFile m = ⟨fid, m.path, m.kind, m.size, m.createdAt, r.body fid m.binaryHash m.kind⟩ := by
  obtain rfl := (readFileMeta_eq_some.mp h).2.2.2.2.2.2.2.2.2.2
  rw [liveFile, Doc.pastText_eq h]
  cases m.kind <;> rfl

/-- A file is read field by field. -/
theorem fileAt_of_fields (p : Str) (kind : FileKind) (size created updated : Option Int)
    (hash : Option Str) (hmap : r.mapObj .files = .ok ()) (hfile : r.hasObject (.file fid) = true)
    (hmeta : r.hasObject (.fileMeta fid) = true)
    (hpath : r.getStr L (.fileField fid .path) = .ok (some p))
    (hkind : r.getStr L (.fileField fid .kind) = .ok (some kind.asStr))
    (hsize : r.getInt L (.fileField fid .size) = .ok size)
    (hcreated : r.getInt L (.fileField fid .createdAt) = .ok created)
    (hupdated : r.getInt L (.fileField fid .updatedAt) = .ok updated)
    (hdeleted : r.getInt L (.fileField fid .deletedAt) = .ok none)
    (hhash : r.getStr L (.binaryHash fid) = .ok hash) :
    r.fileAt L fid =
      some ⟨fid, p, kind, size.getD 0, created.getD 0, r.body fid hash kind⟩ := by
  have hread : r.readFileMeta L fid = .ok (some ⟨fid, p, kind, size.getD 0, created.getD 0,
      updated.getD (created.getD 0), none, hash⟩) :=
    readFileMeta_eq_some.mpr ⟨hmap, hfile, hmeta, hpath, ⟨_, hkind, FileKind.parse_asStr kind⟩,
      ⟨size, hsize, rfl⟩, ⟨created, hcreated, rfl⟩, ⟨updated, hupdated, rfl⟩, hdeleted, hhash, rfl⟩
  rw [fileAt_of_read hread rfl, liveFile_of_read hread]

/-- The fields of a live file. -/
theorem fields_of_fileAt {f : LiveFile} (h : r.fileAt L fid = some f) :
    r.mapObj .files = .ok () ∧ r.hasObject (.file fid) = true ∧
    r.hasObject (.fileMeta fid) = true ∧
    r.getStr L (.fileField fid .path) = .ok (some f.path) ∧
    r.getStr L (.fileField fid .kind) = .ok (some f.kind.asStr) ∧
    (∃ size, r.getInt L (.fileField fid .size) = .ok size ∧ f.size = size.getD 0) ∧
    (∃ created, r.getInt L (.fileField fid .createdAt) = .ok created ∧
      f.createdAt = created.getD 0) ∧
    (∃ updated, r.getInt L (.fileField fid .updatedAt) = .ok updated) ∧
    r.getInt L (.fileField fid .deletedAt) = .ok none ∧
    ∃ hash, r.getStr L (.binaryHash fid) = .ok hash ∧ f.body = r.body fid hash f.kind := by
  obtain ⟨m, hm, hlive, rfl⟩ := fileAt_eq_some.mp h
  obtain ⟨hmap, hfile, hmeta, hpath, ⟨k, hk, hparse⟩, hsize, hcreated, ⟨u, hu, -⟩, hdeleted, hhash,
    -⟩ := readFileMeta_eq_some.mp hm
  obtain rfl := FileKind.parse_eq_ok.mp hparse
  rw [liveFile_of_read hm]
  exact ⟨hmap, hfile, hmeta, hpath, hk, hsize, hcreated, ⟨u, hu⟩, hlive ▸ hdeleted, _, hhash, rfl⟩

end Root

namespace Doc

/-! ### New files -/

/-- The maps and fields of a new file. -/
def newFileOps (fid p : Str) (kind : FileKind) (size now : Int) : List Op :=
  [.putMap (.file fid), .putMap (.fileMeta fid), .put (.fileField fid .path) (.str p),
    .put (.fileField fid .kind) (.str kind.asStr), .put (.fileField fid .size) (.int size),
    .put (.fileField fid .createdAt) (.int now), .put (.fileField fid .updatedAt) (.int now)]

theorem fileId_textOps {content : Str} {op : Op} (h : op ∈ textOps fid content) :
    op.target.fileId = some fid := by
  rw [(mem_setTextOps (show op ∈ setTextOps fid content none from h)).1]
  rfl

theorem fileId_newFileOps {kind : FileKind} {size now : Int} {op : Op}
    (h : op ∈ newFileOps fid p kind size now) : op.target.fileId = some fid := by
  simp only [newFileOps, List.mem_cons, List.not_mem_nil, or_false] at h
  obtain rfl | rfl | rfl | rfl | rfl | rfl | rfl := h <;> rfl

/-- Writes that leave the root maps leave `map_obj`. -/
theorem mapObj_applyAll {ops : List Op} {m : RootMap}
    (hops : ∀ op ∈ ops, op.target.fileId = some fid) :
    (applyAll r ops).mapObj m = r.mapObj m :=
  Root.mapObj_congr (Root.get_rootMap_applyAll
    (fun op hop => Root.ne_rootMap_of_fileId (hops op hop)) m)

theorem fileAt_newText (hmap : r.mapObj .files = .ok ()) (content : Str) (size now : Int) :
    (applyAll r (newFileOps fid p .text size now ++ textOps fid content)).fileAt L fid =
      some ⟨fid, p, .text, size, now, .text content⟩ := by
  have hops (op : Op) (hop : op ∈ newFileOps fid p .text size now ++ textOps fid content) :
      op.target.fileId = some fid :=
    (List.mem_append.mp hop).elim fileId_newFileOps fileId_textOps
  have hmap' := (mapObj_applyAll (r := r) (m := .files) hops).trans hmap
  have htext : (applyAll r (newFileOps fid p .text size now ++ textOps fid content)).getText fid =
      some content := by
    rw [applyAll_append]
    have hnone : (applyAll r (newFileOps fid p .text size now)).getText fid = none := by
      simp [newFileOps, Root.getText, Op.apply, Addr.ancestors]
    have hset := @getText_setTextOps (applyAll r (newFileOps fid p .text size now)) fid content
    rwa [hnone] at hset
  have hget {b : Addr} (hb : b ≠ .content fid) :
      (applyAll r (newFileOps fid p .text size now ++ textOps fid content)).get b =
        (applyAll r (newFileOps fid p .text size now)).get b := by
    rw [applyAll_append]
    exact @get_setTextOps _ fid content none b hb
  generalize applyAll r (newFileOps fid p .text size now ++ textOps fid content) = S
    at hmap' htext hget ⊢
  have hread : S.fileAt L fid = some _ :=
    Root.fileAt_of_fields p .text (some size) (some now) (some now) none hmap' ?_ ?_ ?_ ?_ ?_ ?_ ?_ ?_ ?_
  · simpa [Root.body, htext] using hread
  all_goals
    first
    | refine Root.hasObject_of_get (v := .map) ((hget (by simp)).trans ?_) rfl
    | refine Root.getStr_of_get ((hget (by simp)).trans ?_)
    | refine Root.getInt_of_get ((hget (by simp)).trans ?_)
    | refine Root.getInt_of_none ((hget (by simp)).trans ?_)
    | rw [Root.getStr, hget (by simp)]
    simp [newFileOps, Op.apply, Addr.ancestors]

theorem fileAt_newAttachment (hmap : r.mapObj .files = .ok ()) (hash : Str) (size now : Int) :
    (applyAll r (newFileOps fid p .attachment size now ++
      [.put (.binaryHash fid) (.str hash)])).fileAt L fid =
      some ⟨fid, p, .attachment, size, now, .attachment (some hash)⟩ := by
  have hops (op : Op) (hop : op ∈ newFileOps fid p .attachment size now ++
      [.put (.binaryHash fid) (.str hash)]) : op.target.fileId = some fid := by
    rcases List.mem_append.mp hop with hop | hop
    · exact fileId_newFileOps hop
    · obtain rfl := List.mem_singleton.mp hop
      rfl
  have hmap' := (mapObj_applyAll (r := r) (m := .files) hops).trans hmap
  refine Root.fileAt_of_fields p .attachment (some size) (some now) (some now) (some hash) hmap'
    ?_ ?_ ?_ ?_ ?_ ?_ ?_ ?_ ?_
  all_goals
    first
    | refine Root.hasObject_of_get (v := .map) ?_ rfl
    | refine Root.getStr_of_get ?_
    | refine Root.getInt_of_get ?_
    | refine Root.getInt_of_none ?_
    simp [newFileOps, Op.apply, Addr.ancestors]

/-! ### Files that are there -/

theorem fileAt_textWritten {f : LiveFile} (h : r.fileAt L fid = some f) (content : Str)
    (now : Int) : (textWritten r fid content now).fileAt L fid =
      some { f with kind := .text, size := (utf8 content).length, body := .text content } := by
  obtain ⟨m, hm, -, rfl⟩ := Root.fileAt_eq_some.mp h
  have hread := @readFileMeta_textWritten L r fid content m now hm
  rw [Root.fileAt_of_read hread rfl, Root.liveFile_of_read hread, Root.liveFile_of_read hm,
    Root.body, getText_textWritten]
  rfl

/-- The fields that `write_attachment` sets on an entry it found. -/
def attachmentFields (fid hash : Str) (size now : Int) : List Op :=
  [.put (.binaryHash fid) (.str hash),
    .put (.fileField fid .kind) (.str FileKind.attachment.asStr),
    .put (.fileField fid .size) (.int size), .put (.fileField fid .updatedAt) (.int now),
    .delete (.fileField fid .deletedAt)]

/-- Fields leave the maps of an entry. -/
theorem hasObject_fields {f : LiveFile} (h : r.fileAt L fid = some f) (ops : List Op)
    (hops : ∀ op ∈ ops, (∃ field, op.target = .fileField fid field) ∨ op.target = .binaryHash fid) :
    (applyAll r ops).mapObj .files = .ok () ∧
      (applyAll r ops).hasObject (.file fid) = true ∧
      (applyAll r ops).hasObject (.fileMeta fid) = true ∧
      (applyAll r ops).getText fid = r.getText fid := by
  obtain ⟨hmap, hfile, hmeta, -⟩ := Root.fields_of_fileAt h
  have hget {b : Addr} (hb : ∀ field, b ≠ .fileField fid field) (hhash : b ≠ .binaryHash fid) :
      (applyAll r ops).get b = r.get b := by
    refine get_applyAll_of_ne fun op hop => ?_
    rcases hops op hop with ⟨field, hfield⟩ | hbinary
    · rw [hfield]
      exact ⟨(hb field).symm, by cases b <;> simp [Addr.ancestors]⟩
    · rw [hbinary]
      exact ⟨hhash.symm, by cases b <;> simp [Addr.ancestors]⟩
  refine ⟨?_, ?_, ?_, ?_⟩
  · rw [Root.mapObj_congr (hget (by simp) (by simp)), hmap]
  · rw [Root.hasObject_congr (hget (by simp) (by simp)), hfile]
  · rw [Root.hasObject_congr (hget (by simp) (by simp)), hmeta]
  · rw [Root.getText, Root.getText, hget (by simp) (by simp)]

theorem fileAt_attachmentWritten {f : LiveFile} (h : r.fileAt L fid = some f) (hash : Str)
    (size now : Int) : (applyAll r (attachmentFields fid hash size now)).fileAt L fid =
      some { f with kind := .attachment, size, body := .attachment (some hash) } := by
  obtain ⟨-, -, -, hpath, -, -, ⟨c, hc, hcreated⟩, -⟩ := Root.fields_of_fileAt h
  obtain ⟨hmap, hfile, hmeta, -⟩ := hasObject_fields h
    (attachmentFields fid hash size now) (by simp [attachmentFields, Op.target])
  rw [← Root.fileAt_id h] at *
  have hread : (applyAll r (attachmentFields f.id hash size now)).fileAt L f.id = some _ :=
    Root.fileAt_of_fields f.path .attachment (some size) c (some now) (some hash) hmap hfile hmeta
      ?_ ?_ ?_ ?_ ?_ ?_ ?_
  · rw [hread, hcreated]
    rfl
  · rw [← hpath]
    refine Root.getStr_congr (get_applyAll_of_ne ?_)
    simp [attachmentFields, Op.target, Addr.ancestors]
  · refine Root.getStr_of_get ?_
    simp [attachmentFields, Op.apply, Addr.ancestors]
  · refine Root.getInt_of_get ?_
    simp [attachmentFields, Op.apply, Addr.ancestors]
  · rw [← hc]
    refine Root.getInt_congr (get_applyAll_of_ne ?_)
    simp [attachmentFields, Op.target, Addr.ancestors]
  · refine Root.getInt_of_get ?_
    simp [attachmentFields, Op.apply, Addr.ancestors]
  · refine Root.getInt_of_none ?_
    simp [attachmentFields, Op.apply]
  · refine Root.getStr_of_get ?_
    simp [attachmentFields, Op.apply, Addr.ancestors]

/-- The fields that moving a file sets. -/
def movedFields (fid p : Str) (now : Int) : List Op :=
  [.put (.fileField fid .path) (.str p), .put (.fileField fid .updatedAt) (.int now)]

theorem fileAt_moved {f : LiveFile} (h : r.fileAt L fid = some f) (p : Str) (now : Int) :
    (applyAll r (movedFields fid p now)).fileAt L fid = some { f with path := p } := by
  obtain ⟨-, -, -, -, hkind, ⟨size, hsize, hs⟩, ⟨c, hc, hcreated⟩, -, hdeleted, hash, hhash, hbody⟩ :=
    Root.fields_of_fileAt h
  obtain ⟨hmap, hfile, hmeta, htext⟩ := hasObject_fields h
    (movedFields fid p now) (by simp [movedFields, Op.target])
  have hsame {b : Addr} (hb : ∀ op ∈ movedFields fid p now, op.target ≠ b ∧ op.target ∉ b.ancestors) :
      (applyAll r (movedFields fid p now)).get b = r.get b := get_applyAll_of_ne hb
  have hread : (applyAll r (movedFields fid p now)).fileAt L fid = some _ :=
    Root.fileAt_of_fields p f.kind size c (some now) hash hmap hfile hmeta ?_ ?_ ?_ ?_ ?_ ?_ ?_
  · have hbody' : (applyAll r (movedFields fid p now)).body fid hash f.kind = f.body := by
      rw [hbody]
      cases f.kind
      · simp only [Root.body, htext]
      · rfl
    rw [hread, hbody', ← hs, ← hcreated, ← Root.fileAt_id h]
  · refine Root.getStr_of_get ?_
    simp [movedFields, Op.apply, Addr.ancestors]
  · rwa [Root.getStr_congr (hsame (by simp [movedFields, Op.target, Addr.ancestors]))]
  · rwa [Root.getInt_congr (hsame (by simp [movedFields, Op.target, Addr.ancestors]))]
  · rwa [Root.getInt_congr (hsame (by simp [movedFields, Op.target, Addr.ancestors]))]
  · refine Root.getInt_of_get ?_
    simp [movedFields, Op.apply]
  · rwa [Root.getInt_congr (hsame (by simp [movedFields, Op.target, Addr.ancestors]))]
  · rwa [Root.getStr_congr (hsame (by simp [movedFields, Op.target, Addr.ancestors]))]

/-- A deleted file can still be read, and is not live. -/
theorem fileAt_deleted {m : FileMeta} (h : r.readFileMeta L fid = .ok (some m)) (now : Int) :
    (applyAll r [.put (.fileField fid .deletedAt) (.int now)]).readFileMeta L fid =
        .ok (some { m with deletedAt := some now }) ∧
      (applyAll r [.put (.fileField fid .deletedAt) (.int now)]).fileAt L fid = none := by
  obtain ⟨hmap, hfile, hmeta, hpath, ⟨k, hk, hparse⟩, ⟨size, hsize, hs⟩, ⟨c, hc, hcreated⟩,
    ⟨u, hu, hupdated⟩, -, hhash, hid⟩ := Root.readFileMeta_eq_some.mp h
  have hsame {b : Addr} (hb : b ≠ .fileField fid .deletedAt) :
      (applyAll r [.put (.fileField fid .deletedAt) (.int now)]).get b = r.get b :=
    get_applyAll_of_ne (by
      rw [List.forall_mem_singleton]
      exact ⟨Ne.symm hb, by cases b <;> simp [Op.target, Addr.ancestors]⟩)
  have hread : (applyAll r [.put (.fileField fid .deletedAt) (.int now)]).readFileMeta L fid =
      .ok (some { m with deletedAt := some now }) := by
    refine Root.readFileMeta_eq_some.mpr ⟨?_, ?_, ?_, ?_, ⟨k, ?_, hparse⟩, ⟨size, ?_, hs⟩,
      ⟨c, ?_, hcreated⟩, ⟨u, ?_, hupdated⟩, ?_, ?_, hid⟩
    · rwa [Root.mapObj_congr (hsame (by simp))]
    · rwa [Root.hasObject_congr (hsame (by simp))]
    · rwa [Root.hasObject_congr (hsame (by simp))]
    · rwa [Root.getStr_congr (hsame (by simp))]
    · rwa [Root.getStr_congr (hsame (by simp))]
    · rwa [Root.getInt_congr (hsame (by simp))]
    · rwa [Root.getInt_congr (hsame (by simp))]
    · rwa [Root.getInt_congr (hsame (by simp))]
    · refine Root.getInt_of_get ?_
      simp [Op.apply]
    · rwa [Root.getStr_congr (hsame (by simp))]
  refine ⟨hread, ?_⟩
  rw [Root.fileAt, hread]
  exact if_neg (by simp)

/-! ### Directories -/

def newDirectoryOps (did p : Str) (now : Int) : List Op :=
  [.putMap (.dir did), .put (.dirField did .path) (.str p), .put (.dirField did .createdAt) (.int now)]

theorem dirId_newDirectoryOps {now : Int} {op : Op} (h : op ∈ newDirectoryOps did p now) :
    op.target.dirId = some did := by
  simp only [newDirectoryOps, List.mem_cons, List.not_mem_nil, or_false] at h
  obtain rfl | rfl | rfl := h <;> rfl

theorem dirAt_newDirectory (r : Root) (did p : Str) (now : Int) :
    (applyAll r (newDirectoryOps did p now)).dirAt L did = some ⟨did, p, now⟩ := by
  refine Root.dirAt_eq_some.mpr ⟨⟨did, p, now, none⟩, Root.readDirectoryMeta_eq_some.mpr
    ⟨Root.hasObject_of_get (v := .map) ?_ rfl, Root.getStr_of_get ?_,
      ⟨some now, Root.getInt_of_get ?_, rfl⟩, Root.getInt_of_none ?_, rfl, rfl⟩, rfl⟩
  all_goals simp [newDirectoryOps, Op.apply, Addr.ancestors]

theorem dirAt_marked (r : Root) (did : Str) (now : Int) :
    (applyAll r [.put (.dirField did .deletedAt) (.int now)]).dirAt L did = none := by
  by_contra hne
  obtain ⟨f, hf⟩ := Option.ne_none_iff_exists'.mp hne
  obtain ⟨m, hm, -⟩ := Root.dirAt_eq_some.mp hf
  have hdeleted := (Root.readDirectoryMeta_eq_some.mp hm).2.2.2.1
  rw [Root.getInt_of_get (n := now) (by simp [Op.apply])] at hdeleted
  cases hdeleted

theorem dirAt_moved {f : LiveDirectory} (h : r.dirAt L did = some f) (p : Str) :
    (applyAll r [.put (.dirField did .path) (.str p)]).dirAt L did = some { f with path := p } := by
  obtain ⟨m, hm, rfl⟩ := Root.dirAt_eq_some.mp h
  obtain ⟨hdir, -, ⟨c, hc, hcreated⟩, hdeleted, hlive, hid⟩ := Root.readDirectoryMeta_eq_some.mp hm
  have hsame {b : Addr} (hb : b ≠ .dirField did .path) :
      (applyAll r [.put (.dirField did .path) (.str p)]).get b = r.get b :=
    get_applyAll_of_ne (by
      rw [List.forall_mem_singleton]
      exact ⟨Ne.symm hb, by cases b <;> simp [Op.target, Addr.ancestors]⟩)
  refine Root.dirAt_eq_some.mpr ⟨{ m with path := p }, Root.readDirectoryMeta_eq_some.mpr
    ⟨?_, Root.getStr_of_get ?_, ⟨c, ?_, hcreated⟩, ?_, hlive, hid⟩, rfl⟩
  · rwa [Root.hasObject_congr (hsame (by simp))]
  · simp [Op.apply]
  · rwa [Root.getInt_congr (hsame (by simp))]
  · rwa [Root.getInt_congr (hsame (by simp))]

end Doc

end AgentSync
