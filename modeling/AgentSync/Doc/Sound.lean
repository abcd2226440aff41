import AgentSync.Doc.History

/-! What the operations write.

Every write has the type its register is read at, and paths are normalized
(`Op.Sound`); the writes that one operation records together leave no file without a
path and a kind, and no attachment without a hash (`Block`). A document is sound when
that holds of all its history, and every operation keeps it sound, failed ones too. -/
namespace AgentSync

/-! ### Well-formed content -/

/-- The values the code puts at a register. -/
def Addr.Fits (N : Nfc) : Addr → Val → Prop
  | .vaultId, v | .binaryHash _, v => ∃ s, v = .scalar (.str s)
  | .rootMap _, v | .file _, v | .fileMeta _, v | .dir _, v | .label _, v => v = .map
  | .fileField _ .path, v | .dirField _ .path, v =>
    ∃ p, v = .scalar (.str p) ∧ Path.Normalized N p
  | .fileField _ .kind, v => ∃ k : FileKind, v = .scalar (.str k.asStr)
  | .content _, v => ∃ s, v = .text s
  | .labelField _ .heads, v => ∃ b, v = .scalar (.bytes b)
  | .schemaVersion, v | .fileField _ _, v | .dirField _ _, v | .labelField _ _, v =>
    ∃ n, v = .scalar (.int n)

/-- The registers the code deletes. -/
def Addr.erasable : Addr → Bool
  | .fileField _ .deletedAt | .dirField _ .deletedAt | .label _ => true
  | _ => false

def Op.Sound (N : Nfc) (op : Op) : Prop :=
  match op.writes with
  | some (a, some v) => a.Fits N v
  | some (a, none) => a.erasable = true
  | none => True

namespace Root

def Typed (N : Nfc) (r : Root) : Prop :=
  ∀ a v, a.isContent = false → r.get a = some v → a.Fits N v

/-- A file has what it is read with. -/
structure CompleteAt (r : Root) (fid : Str) : Prop where
  path : r.get (.fileMeta fid) ≠ none → r.get (.fileField fid .path) ≠ none
  kind : r.get (.fileMeta fid) ≠ none → r.get (.fileField fid .kind) ≠ none
  hash : r.get (.fileField fid .kind) = some (.scalar (.str FileKind.attachment.asStr)) →
    r.get (.binaryHash fid) ≠ none

def Complete (r : Root) : Prop := ∀ fid, r.CompleteAt fid

theorem Complete.empty : Complete ∅ := fun fid =>
  ⟨fun h => absurd (get_empty _) h, fun h => absurd (get_empty _) h,
    fun h => by rw [get_empty] at h; cases h⟩

theorem CompleteAt.congr {r r' : Root} {fid : Str} (hr : r.CompleteAt fid)
    (h : ∀ b : Addr, b.fileId = some fid → r'.get b = r.get b) : r'.CompleteAt fid := by
  have hmeta := h (.fileMeta fid) rfl
  have hpath := h (.fileField fid .path) rfl
  have hkind := h (.fileField fid .kind) rfl
  have hhash := h (.binaryHash fid) rfl
  refine ⟨?_, ?_, ?_⟩
  · rw [hmeta, hpath]
    exact hr.path
  · rw [hmeta, hkind]
    exact hr.kind
  · rw [hkind, hhash]
    exact hr.hash

end Root

variable {N : Nfc}

/-- What an operation leaves at a register was there or is what it wrote. -/
theorem Op.writes_of_get {r : Root} {op : Op} {a : Addr} {v : Val} (ha : a.isContent = false)
    (h : (op.apply r).get a = some v) : r.get a = some v ∨ op.writes = some (a, some v) := by
  cases op with
  | spliceText fid pos del insert =>
    have hne : (Op.spliceText fid pos del insert).target ≠ a := by
      rintro rfl
      cases ha
    have hanc : (Op.spliceText fid pos del insert).target ∉ a.ancestors := by
      cases a <;> simp [target, Addr.ancestors]
    rw [get_apply_of_ne r _ hne hanc] at h
    exact .inl h
  | _ =>
    simp only [apply, Root.get_set] at h
    split at h
    next heq =>
      subst heq
      exact .inr (congrArg (fun v => some (_, v)) h)
    next =>
      split at h
      next => cases h
      next => exact .inl h

theorem Root.Typed.apply {r : Root} {op : Op} (hr : r.Typed N) (hop : op.Sound N) :
    (op.apply r).Typed N := by
  intro a v ha h
  obtain h | h := Op.writes_of_get ha h
  · exact hr a v ha h
  · simpa [Op.Sound, h] using hop

theorem Root.Typed.applyAll {r : Root} {ops : List Op} (hr : r.Typed N)
    (hops : ∀ op ∈ ops, op.Sound N) : (applyAll r ops).Typed N := by
  induction ops generalizing r with
  | nil => exact hr
  | cons op rest ih =>
    exact ih (hr.apply (hops op List.mem_cons_self))
      fun op' hop' => hops op' (List.mem_cons_of_mem _ hop')

theorem Root.Typed.empty : Root.Typed N ∅ := fun a v _ h => by
  rw [Root.get_empty] at h
  cases h

/-! ### Blocks -/

/-- Writes that are recorded together. -/
structure Block (N : Nfc) (ops : List Op) : Prop where
  sound : ∀ op ∈ ops, op.Sound N
  complete : ∀ r : Root, r.Complete → (applyAll r ops).Complete

namespace Block

theorem nil : Block N [] := ⟨by simp, fun _ h => h⟩

theorem append {ops ops' : List Op} (h : Block N ops) (h' : Block N ops') :
    Block N (ops ++ ops') where
  sound := fun op hop => (List.mem_append.mp hop).elim (h.sound op) (h'.sound op)
  complete := fun r hr => applyAll_append r ops ops' ▸ h'.complete _ (h.complete r hr)

/-- Writes to one file, which is whole after them. -/
theorem of_file {ops : List Op} (fid : Str) (hsound : ∀ op ∈ ops, op.Sound N)
    (hfile : ∀ op ∈ ops, op.target.fileId = some fid)
    (hcomplete : ∀ r : Root, r.CompleteAt fid → (applyAll r ops).CompleteAt fid) :
    Block N ops := by
  refine ⟨hsound, fun r hr fid' => ?_⟩
  by_cases hfid : fid' = fid
  · subst hfid
    exact hcomplete r (hr fid')
  · refine (hr fid').congr fun b hb => get_applyAll_of_ne fun op hop => ⟨?_, fun hanc => ?_⟩
    · rintro rfl
      exact hfid (Option.some.inj (hb.symm.trans (hfile op hop)))
    · exact hfid (Option.some.inj
        (hb.symm.trans (Addr.fileId_of_mem_ancestors hanc (hfile op hop))))

/-- Writes that are to no file at all. -/
theorem of_noFile {ops : List Op} (hsound : ∀ op ∈ ops, op.Sound N)
    (hfile : ∀ op ∈ ops, op.target.fileId = none ∧ op.target ≠ .rootMap .files) :
    Block N ops := by
  refine ⟨hsound, fun r hr fid =>
    (hr fid).congr fun b hb => get_applyAll_of_ne fun op hop => ⟨?_, fun hanc => ?_⟩⟩
  · rintro rfl
    rw [(hfile op hop).1] at hb
    cases hb
  · obtain ⟨hnone, hroot⟩ := hfile op hop
    cases b <;> simp [Addr.ancestors] at hanc <;> grind [Addr.fileId]

end Block

/-! ### The blocks of the operations -/

namespace Doc

/-- Writes to the content of a file change no other register. -/
theorem get_setTextOps {r : Root} {fid content : Str} {current : Option Str} {b : Addr}
    (hb : b ≠ .content fid) : (applyAll r (setTextOps fid content current)).get b = r.get b := by
  refine get_applyAll_of_ne fun op hop => ?_
  have htarget : op.target = .content fid := by
    cases current <;> grind [setTextOps, textOps, Op.target]
  rw [htarget]
  exact ⟨Ne.symm hb, by cases b <;> simp [Addr.ancestors]⟩

theorem mem_setTextOps {fid content : Str} {current : Option Str} {op : Op}
    (h : op ∈ setTextOps fid content current) :
    op.target = .content fid ∧ ∀ N : Nfc, op.Sound N := by
  have hops : op = .putText fid ∨ ∃ pos del insert, op = .spliceText fid pos del insert := by
    cases current <;> grind [setTextOps, textOps]
  obtain rfl | ⟨pos, del, insert, rfl⟩ := hops
  · exact ⟨rfl, fun _ => ⟨_, rfl⟩⟩
  · exact ⟨rfl, fun _ => trivial⟩

/-- The body becomes `content`, whatever it was. -/
theorem getText_setTextOps {r : Root} {fid content : Str} :
    (applyAll r (setTextOps fid content (r.getText fid))).getText fid = some content := by
  cases h : r.getText fid with
  | none =>
    simp only [setTextOps, textOps]
    split
    next hnil => simp [Op.apply, Root.getText, hnil]
    next => simp [Op.apply, Root.getText]
  | some current =>
    simp only [setTextOps]
    split
    next heq => simp [h, heq]
    next =>
      have hs : r.get (.content fid) = some (.text current) := by
        unfold Root.getText at h
        split at h
        next s hs => rw [hs, Option.some.inj h]
        next => cases h
      simp [Op.apply, Root.getText, hs]

theorem block_newDirectory {did p : Str} (now : Int) (hp : Path.Normalized N p) :
    Block N [.putMap (.dir did), .put (.dirField did .path) (.str p),
      .put (.dirField did .createdAt) (.int now)] := by
  refine .of_noFile ?_ (by simp [Op.target, Addr.fileId])
  rw [List.forall_mem_cons, List.forall_mem_cons, List.forall_mem_singleton]
  exact ⟨rfl, ⟨_, rfl, hp⟩, ⟨_, rfl⟩⟩

theorem block_text {fid : Str} (content : Str) (current : Option Str) (size now : Int) :
    Block N (setTextOps fid content current ++
      [.put (.fileField fid .size) (.int size), .put (.fileField fid .updatedAt) (.int now),
        .put (.fileField fid .kind) (.str FileKind.text.asStr),
        .delete (.fileField fid .deletedAt)]) := by
  refine .of_file fid ?_ ?_ fun r hr => ?_
  · rw [List.forall_mem_append]
    exact ⟨fun op hop => (mem_setTextOps hop).2 N, by simp [Op.Sound, Op.writes, Addr.Fits, Addr.erasable]⟩
  · rw [List.forall_mem_append]
    exact ⟨fun op hop => by rw [(mem_setTextOps hop).1]; rfl,
      by simp [Op.target, Addr.fileId]⟩
  · rw [applyAll_append]
    refine ⟨?_, ?_, ?_⟩
    · simpa [Op.apply, Addr.ancestors, get_setTextOps] using hr.path
    · simp [Op.apply, Addr.ancestors]
    · simp [Op.apply, Addr.ancestors]

theorem block_newText {fid p : Str} (content : Str) (size now : Int)
    (hp : Path.Normalized N p) :
    Block N ([.putMap (.file fid), .putMap (.fileMeta fid),
      .put (.fileField fid .path) (.str p),
      .put (.fileField fid .kind) (.str FileKind.text.asStr),
      .put (.fileField fid .size) (.int size), .put (.fileField fid .createdAt) (.int now),
      .put (.fileField fid .updatedAt) (.int now)] ++ textOps fid content) := by
  have htail (op : Op) (hop : op ∈ textOps fid content) :
      op.target = .content fid ∧ ∀ N : Nfc, op.Sound N :=
      mem_setTextOps (show op ∈ setTextOps fid content none from hop)
  have hget (r : Root) {b : Addr} (hb : b ≠ .content fid) :
      (applyAll r (textOps fid content)).get b = r.get b :=
      @get_setTextOps r fid content none b hb
  refine .of_file fid ?_ ?_ fun r hr => ?_
  · rw [List.forall_mem_append]
    exact ⟨by simp [Op.Sound, Op.writes, Addr.Fits, hp], fun op hop => (htail op hop).2 N⟩
  · rw [List.forall_mem_append]
    exact ⟨by simp [Op.target, Addr.fileId], fun op hop => by rw [(htail op hop).1]; rfl⟩
  · rw [applyAll_append]
    refine ⟨?_, ?_, ?_⟩
    · simp [Op.apply, Addr.ancestors, hget]
    · simp [Op.apply, Addr.ancestors, hget]
    · simp [Op.apply, Addr.ancestors, hget]

theorem block_attachment {fid : Str} (hash : Str) (size now : Int) :
    Block N [.put (.binaryHash fid) (.str hash),
      .put (.fileField fid .kind) (.str FileKind.attachment.asStr),
      .put (.fileField fid .size) (.int size), .put (.fileField fid .updatedAt) (.int now),
      .delete (.fileField fid .deletedAt)] := by
  refine .of_file fid (by simp [Op.Sound, Op.writes, Addr.Fits, Addr.erasable])
    (by simp [Op.target, Addr.fileId]) fun r hr => ⟨?_, ?_, ?_⟩
  · simpa [Op.apply, Addr.ancestors] using hr.path
  · simp [Op.apply, Addr.ancestors]
  · simp [Op.apply, Addr.ancestors]

theorem block_newAttachment {fid p : Str} (hash : Str) (size now : Int)
    (hp : Path.Normalized N p) :
    Block N [.putMap (.file fid), .putMap (.fileMeta fid),
      .put (.fileField fid .path) (.str p),
      .put (.fileField fid .kind) (.str FileKind.attachment.asStr),
      .put (.fileField fid .size) (.int size), .put (.fileField fid .createdAt) (.int now),
      .put (.fileField fid .updatedAt) (.int now), .put (.binaryHash fid) (.str hash)] := by
  refine .of_file fid (by simp [Op.Sound, Op.writes, Addr.Fits, hp])
    (by simp [Op.target, Addr.fileId]) fun r hr => ⟨?_, ?_, ?_⟩
  · simp [Op.apply, Addr.ancestors]
  · simp [Op.apply, Addr.ancestors]
  · simp [Op.apply, Addr.ancestors]

theorem block_deleted (fid : Str) (now : Int) :
    Block N [.put (.fileField fid .deletedAt) (.int now)] := by
  refine .of_file fid (by simp [Op.Sound, Op.writes, Addr.Fits])
    (by simp [Op.target, Addr.fileId]) fun r hr => ⟨?_, ?_, ?_⟩
  · simpa [Op.apply, Addr.ancestors] using hr.path
  · simpa [Op.apply, Addr.ancestors] using hr.kind
  · simpa [Op.apply, Addr.ancestors] using hr.hash

theorem block_markedDirectory (did : Str) (now : Int) :
    Block N [.put (.dirField did .deletedAt) (.int now)] :=
  .of_noFile (by simp [Op.Sound, Op.writes, Addr.Fits]) (by simp [Op.target, Addr.fileId])

theorem block_movedDirectory {did p : Str} (hp : Path.Normalized N p) :
    Block N [.put (.dirField did .path) (.str p)] :=
  .of_noFile (by simp [Op.Sound, Op.writes, Addr.Fits, hp]) (by simp [Op.target, Addr.fileId])

theorem block_moved {fid p : Str} (now : Int) (hp : Path.Normalized N p) :
    Block N [.put (.fileField fid .path) (.str p),
      .put (.fileField fid .updatedAt) (.int now)] := by
  refine .of_file fid (by simp [Op.Sound, Op.writes, Addr.Fits, hp])
    (by simp [Op.target, Addr.fileId]) fun r hr => ⟨?_, ?_, ?_⟩
  · simp [Op.apply, Addr.ancestors]
  · simpa [Op.apply, Addr.ancestors] using hr.kind
  · simpa [Op.apply, Addr.ancestors] using hr.hash

theorem block_newLabel (label : Str) (heads : Bytes) (now : Int) :
    Block N [.putMap (.label label), .put (.labelField label .heads) (.bytes heads),
      .put (.labelField label .createdAt) (.int now)] :=
  .of_noFile (by simp [Op.Sound, Op.writes, Addr.Fits]) (by simp [Op.target, Addr.fileId])

theorem block_deletedLabel (label : Str) : Block N [.delete (.label label)] :=
  .of_noFile (by simp [Op.Sound, Op.writes, Addr.erasable]) (by simp [Op.target, Addr.fileId])

theorem block_restoredDirectory (r : Root) {m : DirectoryMeta} (hp : Path.Normalized N m.path) :
    Block N ((if r.hasObject (.dir m.id) then [] else [.putMap (.dir m.id)]) ++
      [.put (.dirField m.id .path) (.str m.path),
        .put (.dirField m.id .createdAt) (.int m.createdAt),
        .delete (.dirField m.id .deletedAt)]) := by
  refine .append ?_ (.of_noFile (by simp [Op.Sound, Op.writes, Addr.Fits, Addr.erasable, hp])
    (by simp [Op.target, Addr.fileId]))
  split
  · exact .nil
  · exact .of_noFile (by simp [Op.Sound, Op.writes, Addr.Fits]) (by simp [Op.target, Addr.fileId])

theorem mem_restoreBody {m : FileMeta} {target : Str} {current : Option Str} {op : Op}
    (h : op ∈ restoreBody m target current) :
    (op.target = .content m.id ∨ op.target = .binaryHash m.id) ∧ ∀ N : Nfc, op.Sound N := by
  unfold restoreBody at h
  split at h
  next => exact ⟨.inl (mem_setTextOps h).1, (mem_setTextOps h).2⟩
  next =>
    split at h
    next hash _ =>
      obtain rfl := List.mem_singleton.mp h
      exact ⟨.inr rfl, fun _ => ⟨hash, rfl⟩⟩
    next => cases h

theorem mem_missingMaps {r : Root} {fid : Str} {op : Op} (h : op ∈ missingMaps r fid) :
    op.target.fileId = some fid ∧ ∀ N : Nfc, op.Sound N := by
  have hop : op = .putMap (.file fid) ∨ op = .putMap (.fileMeta fid) := by
    unfold missingMaps at h
    grind
  obtain rfl | rfl := hop <;> exact ⟨rfl, fun _ => rfl⟩

/-- The fields of a restored entry, once its maps are there. -/
def restoreFields (m : FileMeta) (now : Int) : List Op :=
  [.put (.fileField m.id .path) (.str m.path),
    .put (.fileField m.id .kind) (.str m.kind.asStr),
    .put (.fileField m.id .size) (.int m.size),
    .put (.fileField m.id .createdAt) (.int m.createdAt),
    .put (.fileField m.id .updatedAt) (.int now),
    .delete (.fileField m.id .deletedAt)]

theorem restoreOps_eq (r : Root) (now : Int) (m : FileMeta) (target : Str) :
    restoreOps r now m target = missingMaps r m.id ++ restoreFields m now ++
      restoreBody m target (if r.hasObject (.file m.id) then r.getText m.id else none) := rfl

/-- Restoring the body leaves the other registers. -/
theorem get_restoreBody {r : Root} {m : FileMeta} {target : Str} {current : Option Str} {b : Addr}
    (hcontent : b ≠ .content m.id) (hhash : b ≠ .binaryHash m.id) :
    (applyAll r (restoreBody m target current)).get b = r.get b := by
  refine get_applyAll_of_ne fun op hop => ?_
  obtain h | h := (mem_restoreBody hop).1
  · rw [h]
    exact ⟨Ne.symm hcontent, by cases b <;> simp [Addr.ancestors]⟩
  · rw [h]
    exact ⟨Ne.symm hhash, by cases b <;> simp [Addr.ancestors]⟩

theorem block_restoreOps {r : Root} {m : FileMeta} (now : Int) (target : Str)
    (hp : Path.Normalized N m.path) (hhash : m.kind = .attachment → m.binaryHash ≠ none) :
    Block N (restoreOps r now m target) := by
  rw [restoreOps_eq]
  refine .of_file m.id ?_ ?_ fun r' hr => ?_
  · rw [List.forall_mem_append, List.forall_mem_append]
    refine ⟨⟨fun op hop => (mem_missingMaps hop).2 N, ?_⟩,
      fun op hop => (mem_restoreBody hop).2 N⟩
    simp [restoreFields, Op.Sound, Op.writes, Addr.Fits, Addr.erasable, hp]
  · rw [List.forall_mem_append, List.forall_mem_append]
    refine ⟨⟨fun op hop => (mem_missingMaps hop).1, ?_⟩, fun op hop => ?_⟩
    · simp [restoreFields, Op.target, Addr.fileId]
    · obtain h | h := (mem_restoreBody hop).1 <;> rw [h] <;> rfl
  · rw [applyAll_append, applyAll_append]
    refine ⟨?_, ?_, ?_⟩
    · rw [get_restoreBody (by simp) (by simp), get_restoreBody (by simp) (by simp)]
      simp [restoreFields, Op.apply, Addr.ancestors]
    · rw [get_restoreBody (by simp) (by simp), get_restoreBody (by simp) (by simp)]
      simp [restoreFields, Op.apply, Addr.ancestors]
    · rw [get_restoreBody (by simp) (by simp)]
      intro hkind
      have hkind : m.kind = .attachment := by
        simpa [restoreFields, Op.apply, Addr.ancestors] using hkind
      obtain ⟨h, hh⟩ := Option.ne_none_iff_exists'.mp (hhash hkind)
      simp [restoreBody, hkind, hh, Op.apply]

end Doc

end AgentSync
