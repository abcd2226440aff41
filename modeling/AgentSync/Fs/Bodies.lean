import AgentSync.Machine
import AgentSync.Doc.Lasting
import AgentSync.Doc.Outcome
import AgentSync.Doc.Scan
import AgentSync.Fs.Ingest

/-! Kinds and bodies.

The kind of a file, its text and its hash are three fields. The operation that writes a body sets
the kind and leaves the other body where it is, so the fields agree as long as no file is written
as what it is not: over every run of such operations a file has the one body its kind says
(`body_coherent`), however often it is deleted, moved and restored. -/
namespace AgentSync

variable {L : Crates} {A : Automerge} {r r' : Root} {fid fid' : Str} {k : FileKind}

/-- The text and the hash that a file of a kind has. -/
inductive FileKind.Fits : FileKind → Option Val → Option Val → Prop where
  | text (s : Str) : Fits .text (some (.text s)) none
  | attachment (h : Str) : Fits .attachment none (some (.scalar (.str h)))

namespace Root

/-- An entry with its maps, a kind and the body of that kind. -/
structure Embodied (r : Root) (fid : Str) (k : FileKind) : Prop where
  file : r.get (.file fid) = some .map
  fields : r.get (.fileMeta fid) = some .map
  kind : r.get (.fileField fid .kind) = some (.scalar (.str k.asStr))
  body : k.Fits (r.get (.content fid)) (r.get (.binaryHash fid))

/-- An id with nothing that makes an entry. -/
def Blank (r : Root) (fid : Str) : Prop :=
  ∀ b : Addr, b.bodily = true → b.fileId = some fid → r.get b = none

/-- What makes the entry is the same in both. -/
abbrev SameBody (fid : Str) : Root → Root → Prop :=
  SameAt fun b => b.bodily = true ∧ b.fileId = some fid

theorem Embodied.congr (h : r.Embodied fid k) (hsame : SameBody fid r' r) :
    r'.Embodied fid k where
  file := (hsame _ ⟨rfl, rfl⟩).trans h.file
  fields := (hsame _ ⟨rfl, rfl⟩).trans h.fields
  kind := (hsame _ ⟨rfl, rfl⟩).trans h.kind
  body := by
    have hbody := h.body
    rwa [← hsame (.content fid) ⟨rfl, rfl⟩, ← hsame (.binaryHash fid) ⟨rfl, rfl⟩] at hbody

theorem Blank.congr (h : r.Blank fid) (hsame : SameBody fid r' r) : r'.Blank fid :=
  fun b hb hfid => (hsame b ⟨hb, hfid⟩).trans (h b hb hfid)

namespace Embodied

theorem getText_text (h : r.Embodied fid .text) : ∃ s, r.getText fid = some s := by
  have hbody := h.body
  generalize hcontent : r.get (.content fid) = content at hbody
  generalize r.get (.binaryHash fid) = hash at hbody
  cases hbody with
  | text s => exact ⟨s, by rw [getText, hcontent]⟩

theorem getText_attachment (h : r.Embodied fid .attachment) : r.getText fid = none := by
  have hbody := h.body
  generalize hcontent : r.get (.content fid) = content at hbody
  generalize r.get (.binaryHash fid) = hash at hbody
  cases hbody with
  | attachment _ => rw [getText, hcontent]

theorem get_content (h : r.Embodied fid k) : r.get (.content fid) ≠ none ↔ k = .text := by
  have hbody := h.body
  generalize r.get (.content fid) = content at hbody ⊢
  generalize r.get (.binaryHash fid) = hash at hbody
  cases hbody <;> simp

theorem get_binaryHash (h : r.Embodied fid k) :
    r.get (.binaryHash fid) ≠ none ↔ k = .attachment := by
  have hbody := h.body
  generalize r.get (.content fid) = content at hbody
  generalize r.get (.binaryHash fid) = hash at hbody ⊢
  cases hbody <;> simp

theorem getText_isSome (h : r.Embodied fid k) : (∃ s, r.getText fid = some s) ↔ k = .text := by
  cases k with
  | text => exact iff_of_true h.getText_text rfl
  | attachment => simp [h.getText_attachment]

end Embodied

theorem hasObject_of_find {p : Str} (h : r.findFileByPathNormalized L p = .ok (some fid)) :
    r.hasObject (.file fid) = true ∧ r.hasObject (.fileMeta fid) = true := by
  obtain ⟨_, -, hscan⟩ := bind_eq_ok.mp h
  rw [findFileIn_eq_scan] at hscan
  obtain ⟨hfile, hmeta, -⟩ := lookFile_eq_some (scan_eq_some hscan).2
  exact ⟨hfile, hmeta⟩

end Root

theorem Op.target_of_writes {op : Op} {a : Addr} {v : Option Val} (h : op.writes = some (a, v)) :
    op.target = a := by
  cases op <;> cases h <;> rfl

namespace Doc

variable {d d' : Doc}

/-- All that was ever written, the open transaction last. -/
def history (d : Doc) : List Op := d.changes.flatMap Change.ops ++ d.pending

/-- Every entry has the body of its kind, and no kind was ever another. -/
structure Coherent (d : Doc) : Prop where
  once : Function.Injective d.supply.id
  unused : ∀ n, d.draws ≤ n → d.root.Blank (d.supply.id n)
  files : ∀ fid, d.root.Blank fid ∨ ∃ k, d.root.Embodied fid k
  kinds : ∀ op ∈ d.history, ∀ fid v, op.writes = some (.fileField fid .kind, some v) →
    d.root.get (.fileField fid .kind) = some v

theorem history_committed (d : Doc) (time : Int) : (d.committed time).history = d.history := by
  unfold committed
  split
  next => rfl
  next => simp [history]

theorem history_emitted (d : Doc) (ops : List Op) :
    (d.emitted ops).history = d.history ++ ops := by
  simp [history, emitted]

namespace Coherent

theorem entry (h : d.Coherent) (hfid : d.root.get (.file fid) ≠ none) :
    ∃ k, d.root.Embodied fid k :=
  (h.files fid).resolve_left fun hblank => hfid (hblank _ rfl rfl)

theorem found (h : d.Coherent) {p : Str}
    (hfind : d.root.findFileByPathNormalized L p = .ok (some fid)) :
    ∃ k, d.root.Embodied fid k :=
  h.entry (Root.get_of_hasObject (Root.hasObject_of_find hfind).1)

/-- An entry's id is none of those to come. -/
theorem ne_unused (h : d.Coherent) (hk : d.root.Embodied fid k) {n : Nat} (hn : d.draws ≤ n) :
    d.supply.id n ≠ fid := by
  rintro rfl
  have hnone := h.unused n hn (.file _) rfl rfl
  rw [hk.file] at hnone
  cases hnone

theorem lasting : Lasting Coherent where
  draw := fun h hn => ⟨h.once, fun m hm => h.unused m (hn.trans hm), h.files, h.kinds⟩
  commit := fun {d} time h => by
    by_cases hp : d.pending = []
    · rwa [committed_of_closed hp]
    · have hhistory := history_committed d time
      rw [committed, if_neg hp] at hhistory ⊢
      refine ⟨h.once, fun n hn => h.unused n (Nat.le_of_succ_le hn), h.files, fun op hop => ?_⟩
      rw [hhistory] at hop
      exact h.kinds op hop
  emit := fun {d ops} h hops => by
    have hsame (fid : Str) : Root.SameBody fid (applyAll d.root ops) d.root :=
      fun b hb => get_bodily_applyAll hops hb.1
    refine ⟨h.once, fun n hn => (h.unused n hn).congr (hsame _), fun fid => ?_,
      fun op hop fid v hv => ?_⟩
    · exact (h.files fid).imp (·.congr (hsame fid)) (.imp fun _ hk => hk.congr (hsame fid))
    · rw [history_emitted] at hop
      obtain hop | hop := List.mem_append.mp hop
      · exact (hsame fid _ ⟨rfl, rfl⟩).trans (h.kinds op hop fid v hv)
      · have htarget := hops op hop
        rw [Op.target_of_writes hv] at htarget
        cases htarget

/-- **Writing one entry**, whose kind was not another. -/
theorem written {ops : List Op} (h : d.Coherent)
    (hown : ∀ op ∈ ops, op.target.fileId = some fid)
    (hfid : ∀ n, d.draws ≤ n → d.supply.id n ≠ fid)
    (hkind : ∀ op ∈ ops, ∀ v, op.writes = some (.fileField fid .kind, some v) →
      v = .scalar (.str k.asStr))
    (hold : d.root.Blank fid ∨ d.root.Embodied fid k)
    (hnew : (applyAll d.root ops).Embodied fid k) : (d.emitted ops).Coherent := by
  have hsame {fid' : Str} (hne : fid' ≠ fid) : Root.SameBody fid' (applyAll d.root ops) d.root :=
    fun b hb => Root.sameFile_applyAll (fun op hop =>
      ⟨by rw [hown op hop]; exact fun heq => hne (Option.some.inj heq).symm,
        Root.ne_rootMap_of_fileId (hown op hop) _⟩) b hb.2
  refine ⟨h.once, fun n hn => (h.unused n hn).congr (hsame (hfid n hn)), fun fid' => ?_,
    fun op hop fid' v hv => ?_⟩
  · by_cases hne : fid' = fid
    · subst hne
      exact .inr ⟨k, hnew⟩
    · exact (h.files fid').imp (·.congr (hsame hne)) fun ⟨k', hk'⟩ => ⟨k', hk'.congr (hsame hne)⟩
  · rw [history_emitted] at hop
    by_cases hne : fid' = fid
    · subst hne
      have hv' : v = .scalar (.str k.asStr) := by
        obtain hop | hop := List.mem_append.mp hop
        · have hget := h.kinds op hop fid' v hv
          rcases hold with hblank | hk
          · rw [hblank _ rfl rfl] at hget
            cases hget
          · rw [hk.kind] at hget
            exact (Option.some.inj hget).symm
        · exact hkind op hop v hv
      rw [hv']
      exact hnew.kind
    · obtain hop | hop := List.mem_append.mp hop
      · exact (hsame hne _ ⟨rfl, rfl⟩).trans (h.kinds op hop fid' v hv)
      · have htarget := hown op hop
        rw [Op.target_of_writes hv] at htarget
        exact absurd (Option.some.inj htarget) hne

end Coherent

end Doc

/-! ### The three that write a body -/

namespace Root

theorem get_of_getText {s : Str} (h : r.getText fid = some s) :
    r.get (.content fid) = some (.text s) := by
  unfold getText at h
  split at h
  next s' hs => rw [hs, Option.some.inj h]
  next => cases h

theorem Embodied.textWritten (h : r.Embodied fid .text) (content : Str) (now : Int) :
    (Doc.textWritten r fid content now).Embodied fid .text := by
  have hget {b : Addr} (hb : b ≠ .content fid) := Doc.get_textWritten r content now hb
  refine ⟨?_, ?_, ?_, ?_⟩
  · rw [hget (by simp), ← h.file]
    exact get_applyAll_of_ne (by simp [Doc.textFields, Op.target, Addr.ancestors])
  · rw [hget (by simp), ← h.fields]
    exact get_applyAll_of_ne (by simp [Doc.textFields, Op.target, Addr.ancestors])
  · rw [hget (by simp)]
    simp [Doc.textFields, Op.apply, Addr.ancestors]
  · have hhash : (Doc.textWritten r fid content now).get (.binaryHash fid) = none := by
      rw [hget (by simp), get_applyAll_of_ne (by simp [Doc.textFields, Op.target, Addr.ancestors])]
      by_contra hsome
      cases h.get_binaryHash.mp hsome
    rw [get_of_getText (Doc.getText_textWritten r fid content now), hhash]
    exact .text content

theorem embodied_newText (r : Root) (fid p content : Str) (size now : Int) :
    (applyAll r (Doc.newFileOps fid p .text size now ++ Doc.textOps fid content)).Embodied fid
      .text := by
  rw [applyAll_append]
  have hnone : (applyAll r (Doc.newFileOps fid p .text size now)).getText fid = none := by
    simp [Doc.newFileOps, getText, Op.apply, Addr.ancestors]
  have htext : (applyAll (applyAll r (Doc.newFileOps fid p .text size now))
      (Doc.textOps fid content)).getText fid = some content := by
    have hset :=
      @Doc.getText_setTextOps (applyAll r (Doc.newFileOps fid p .text size now)) fid content
    rwa [hnone] at hset
  have hget {b : Addr} (hb : b ≠ .content fid) :=
    @Doc.get_setTextOps (applyAll r (Doc.newFileOps fid p .text size now)) fid content none b hb
  have hhash : (applyAll (applyAll r (Doc.newFileOps fid p .text size now))
      (Doc.textOps fid content)).get (.binaryHash fid) = none := by
    refine (hget (by simp)).trans ?_
    simp [Doc.newFileOps, Op.apply, Addr.ancestors]
  refine ⟨(hget (by simp)).trans ?_, (hget (by simp)).trans ?_, (hget (by simp)).trans ?_, ?_⟩
  · simp [Doc.newFileOps, Op.apply, Addr.ancestors]
  · simp [Doc.newFileOps, Op.apply, Addr.ancestors]
  · simp [Doc.newFileOps, Op.apply, Addr.ancestors]
  · rw [get_of_getText htext, hhash]
    exact .text content

theorem embodied_newAttachment (r : Root) (fid p hash : Str) (size now : Int) :
    (applyAll r (Doc.newFileOps fid p .attachment size now ++
      [.put (.binaryHash fid) (.str hash)])).Embodied fid .attachment := by
  refine ⟨?_, ?_, ?_, ?_⟩
  · simp [Doc.newFileOps, Op.apply, Addr.ancestors]
  · simp [Doc.newFileOps, Op.apply, Addr.ancestors]
  · simp [Doc.newFileOps, Op.apply, Addr.ancestors]
  · simp [Doc.newFileOps, Op.apply, Addr.ancestors]
    exact .attachment hash

/-- What `write_attachment` sets on an entry it found. -/
def attachmentOps (fid hash : Str) (size now : Int) : List Op :=
  [.put (.binaryHash fid) (.str hash),
    .put (.fileField fid .kind) (.str FileKind.attachment.asStr),
    .put (.fileField fid .size) (.int size), .put (.fileField fid .updatedAt) (.int now),
    .delete (.fileField fid .deletedAt)]

theorem Embodied.attached (h : r.Embodied fid .attachment) (hash : Str) (size now : Int) :
    (applyAll r (attachmentOps fid hash size now)).Embodied fid .attachment := by
  refine ⟨?_, ?_, ?_, ?_⟩
  · rw [← h.file]
    exact get_applyAll_of_ne (by simp [attachmentOps, Op.target, Addr.ancestors])
  · rw [← h.fields]
    exact get_applyAll_of_ne (by simp [attachmentOps, Op.target, Addr.ancestors])
  · simp [attachmentOps, Op.apply, Addr.ancestors]
  · have hcontent : (applyAll r (attachmentOps fid hash size now)).get (.content fid) = none := by
      rw [get_applyAll_of_ne (by simp [attachmentOps, Op.target, Addr.ancestors])]
      by_contra hsome
      cases h.get_content.mp hsome
    have hhash : (applyAll r (attachmentOps fid hash size now)).get (.binaryHash fid) =
        some (.scalar (.str hash)) := by
      simp [attachmentOps, Op.apply, Addr.ancestors]
    rw [hcontent, hhash]
    exact .attachment hash

theorem Embodied.restored {m : FileMeta} (h : r.Embodied m.id m.kind) (now : Int) (target : Str) :
    (applyAll r (Doc.restoreOps r now m target)).Embodied m.id m.kind := by
  have hfile : r.hasObject (.file m.id) = true := hasObject_of_get h.file rfl
  have hmaps : Doc.missingMaps r m.id = [] := by
    rw [Doc.missingMaps, if_pos hfile, if_pos (hasObject_of_get h.fields rfl)]
  rw [Doc.restoreOps_eq, hmaps, List.nil_append, if_pos hfile, applyAll_append]
  have hget {b : Addr} (hcontent : b ≠ .content m.id) (hhash : b ≠ .binaryHash m.id) :=
    @Doc.get_restoreBody (applyAll r (Doc.restoreFields m now)) m target (r.getText m.id) b
      hcontent hhash
  have hkeep {b : Addr} (hb : ∀ f, b ≠ .fileField m.id f) :
      (applyAll r (Doc.restoreFields m now)).get b = r.get b := Doc.get_restoreFields hb
  refine ⟨(hget (by simp) (by simp)).trans ((hkeep (by simp)).trans h.file),
    (hget (by simp) (by simp)).trans ((hkeep (by simp)).trans h.fields),
    (hget (by simp) (by simp)).trans ?_, ?_⟩
  · simp [Doc.restoreFields, Op.apply, Addr.ancestors]
  · have hbody := h.body
    generalize hfields : applyAll r (Doc.restoreFields m now) = r' at hkeep
    rw [← hkeep (b := .content m.id) (by simp), ← hkeep (b := .binaryHash m.id) (by simp)] at hbody
    have htext : r.getText m.id = r'.getText m.id := by
      rw [getText, getText, hkeep (by simp)]
    rw [htext]
    cases hkind : m.kind with
    | text =>
      rw [hkind] at h
      have hhash : (applyAll r' (Doc.setTextOps m.id target (r'.getText m.id))).get
          (.binaryHash m.id) = none := by
        rw [Doc.get_setTextOps (by simp), hkeep (by simp)]
        by_contra hsome
        cases h.get_binaryHash.mp hsome
      simp only [Doc.restoreBody, hkind]
      rw [get_of_getText Doc.getText_setTextOps, hhash]
      exact .text target
    | attachment =>
      rw [hkind] at hbody
      simp only [Doc.restoreBody, hkind]
      cases m.binaryHash with
      | none => exact hbody
      | some hash =>
        have hcontent : (applyAll r' [.put (.binaryHash m.id) (.str hash)]).get (.content m.id) =
            r'.get (.content m.id) :=
          get_applyAll_of_ne (by simp [Op.target, Addr.ancestors])
        have hhash : (applyAll r' [.put (.binaryHash m.id) (.str hash)]).get (.binaryHash m.id) =
            some (.scalar (.str hash)) := by
          simp [Op.apply]
        rw [hcontent, hhash]
        generalize r'.get (.content m.id) = content at hbody ⊢
        generalize r'.get (.binaryHash m.id) = old at hbody
        cases hbody with
        | attachment _ => exact .attachment hash

end Root

namespace Root

/-- The kind of the live file that is found at a path. -/
def kindAt (L : Crates) (r : Root) (path : Str) : Except Error (Option Str) := do
  match ← r.findFileByPath L path with
  | some fid => r.getStr L (.fileField fid .kind)
  | none => return none

theorem kindAt_eq_some {path s : Str} : r.kindAt L path = .ok (some s) ↔
    ∃ fid, r.findFileByPath L path = .ok (some fid) ∧
      r.getStr L (.fileField fid .kind) = .ok (some s) := by
  unfold kindAt
  cases r.findFileByPath L path with
  | error e => simp [bind, Except.bind]
  | ok found => cases found <;> simp [bind, Except.bind, pure, Except.pure]

end Root

namespace Doc

variable {d d' : Doc} {path p : Str}

open Program (Leads)

/-- The operation writes a file as what it is not. -/
def Switches (L : Crates) (d : Doc) : LocalOp → Prop
  | .writeTextFile path _ => d.root.kindAt L path = .ok (some FileKind.attachment.asStr)
  | .writeAttachment path _ _ => d.root.kindAt L path = .ok (some FileKind.text.asStr)
  | _ => False

theorem findFileByPath_of_normalize (hp : Path.normalize L.nfc path = .ok p) :
    d.root.findFileByPath L path = d.root.findFileByPathNormalized L p := by
  rw [Root.findFileByPath, hp]
  rfl

/-- The file that is found is of the kind that the path has. -/
theorem kindAt_of_find (hp : Path.normalize L.nfc path = .ok p)
    (hfind : d.root.findFileByPathNormalized L p = .ok (some fid)) (hk : d.root.Embodied fid k) :
    d.root.kindAt L path = .ok (some k.asStr) :=
  Root.kindAt_eq_some.mpr ⟨fid, (findFileByPath_of_normalize hp).trans hfind,
    Root.getStr_of_get hk.kind⟩

theorem fileId_textFields {size now : Int} {op : Op} (h : op ∈ textFields fid size now) :
    op.target.fileId = some fid := by
  simp only [textFields, List.mem_cons, List.not_mem_nil, or_false] at h
  obtain rfl | rfl | rfl | rfl := h <;> rfl

theorem fileId_attachmentOps {hash : Str} {size now : Int} {op : Op}
    (h : op ∈ Root.attachmentOps fid hash size now) : op.target.fileId = some fid := by
  simp only [Root.attachmentOps, List.mem_cons, List.not_mem_nil, or_false] at h
  obtain rfl | rfl | rfl | rfl | rfl := h <;> rfl

section Kinds

variable {op : Op} {v : Val} (hv : op.writes = some (.fileField fid .kind, some v))

include hv

theorem kind_of_textFields {size now : Int} (h : op ∈ textFields fid size now) :
    v = .scalar (.str FileKind.text.asStr) := by
  simp only [textFields, List.mem_cons, List.not_mem_nil, or_false] at h
  obtain rfl | rfl | rfl | rfl := h <;> simp_all [Op.writes]

theorem kind_of_attachmentOps {hash : Str} {size now : Int}
    (h : op ∈ Root.attachmentOps fid hash size now) :
    v = .scalar (.str FileKind.attachment.asStr) := by
  simp only [Root.attachmentOps, List.mem_cons, List.not_mem_nil, or_false] at h
  obtain rfl | rfl | rfl | rfl | rfl := h <;> simp_all [Op.writes]

theorem kind_of_newFileOps {size now : Int} (h : op ∈ newFileOps fid p k size now) :
    v = .scalar (.str k.asStr) := by
  simp only [newFileOps, List.mem_cons, List.not_mem_nil, or_false] at h
  obtain rfl | rfl | rfl | rfl | rfl | rfl | rfl := h <;> simp_all [Op.writes]

end Kinds

namespace Coherent

theorem drawn (h : d.Coherent) : {d with draws := d.draws + 1}.Coherent :=
  lasting.draw h (Nat.le_succ _)

/-- The new entry of a file that was not there. -/
theorem created (h : d.Coherent) (ops : List Op)
    (hown : ∀ op ∈ ops, op.target.fileId = some (d.supply.id d.draws))
    (hkind : ∀ op ∈ ops, ∀ v, op.writes = some (.fileField (d.supply.id d.draws) .kind, some v) →
      v = .scalar (.str k.asStr))
    (hnew : (applyAll d.root ops).Embodied (d.supply.id d.draws) k) :
    ({d with draws := d.draws + 1}.emitted ops).Coherent := by
  refine h.drawn.written hown (fun n hn heq => ?_) hkind (.inl (h.unused _ (le_refl _))) hnew
  have hn : d.draws + 1 ≤ n := hn
  have := h.once heq
  omega

theorem writeTextFile (h : d.Coherent) (path content : Str)
    (hkind : ¬ d.Switches L (.writeTextFile path content)) :
    Leads (Doc.writeTextFile L path content) d (fun _ => Coherent) Coherent := by
  refine .bind (read_leads (fun p hp => ?_) h)
  refine .bind (.of_ok rfl (.bind (read_leads (fun found hfind => ?_) h.drawn)))
  cases found with
  | some fid =>
    obtain ⟨k, hk⟩ := h.found hfind
    obtain rfl : k = .text := by
      cases k with
      | text => rfl
      | attachment => exact absurd (kindAt_of_find hp hfind hk) hkind
    refine .bind (.of_ok rfl (.bind (.of_ok rfl ?_)))
    refine (Program.Keeps.bind lasting.commitNow fun _ => .pure _) _ (h.drawn.written
      (fun op hop => ?_) (fun n hn => h.drawn.ne_unused hk hn) (fun op hop v hv => ?_) (.inr hk) ?_)
    · obtain hop | hop := List.mem_append.mp hop
      · rw [(mem_setTextOps hop).1]
        rfl
      · exact fileId_textFields hop
    · obtain hop | hop := List.mem_append.mp hop
      · cases (Op.target_of_writes hv).symm.trans (mem_setTextOps hop).1
      · exact kind_of_textFields hv hop
    · rw [applyAll_append]
      exact hk.textWritten content _
  | none =>
    refine .bind (read_leads (fun _ _ => ?_) h.drawn)
    refine .bind (.of_ok rfl (.bind (read_leads (fun _ _ => ?_) h.drawn.drawn)))
    refine .bind (.of_ok rfl ?_)
    refine (Program.Keeps.bind (lasting.ensureAncestorDirectories p) fun _ =>
      .bind lasting.commitNow fun _ => .pure _) _ (h.drawn.created _
      (fun op hop => (List.mem_append.mp hop).elim fileId_newFileOps fileId_textOps)
      (fun op hop v hv => ?_) (Root.embodied_newText ..))
    obtain hop | hop := List.mem_append.mp hop
    · exact kind_of_newFileOps hv hop
    · have hset : op ∈ setTextOps _ content none := hop
      cases (Op.target_of_writes hv).symm.trans (mem_setTextOps hset).1

theorem writeAttachment (h : d.Coherent) (path hash : Str) (size : Int)
    (hkind : ¬ d.Switches L (.writeAttachment path hash size)) :
    Leads (Doc.writeAttachment L path hash size) d (fun _ => Coherent) Coherent := by
  refine .bind (read_leads (fun p hp => ?_) h)
  refine .bind (.of_ok rfl (.bind (read_leads (fun found hfind => ?_) h.drawn)))
  cases found with
  | some fid =>
    obtain ⟨k, hk⟩ := h.found hfind
    obtain rfl : k = .attachment := by
      cases k with
      | text => exact absurd (kindAt_of_find hp hfind hk) hkind
      | attachment => rfl
    refine .bind (.of_ok rfl ?_)
    exact (Program.Keeps.bind lasting.commitNow fun _ => .pure _) _ (h.drawn.written
      (fun op hop => fileId_attachmentOps hop) (fun n hn => h.drawn.ne_unused hk hn)
      (fun op hop v hv => kind_of_attachmentOps hv hop) (.inr hk) (hk.attached ..))
  | none =>
    refine .bind (read_leads (fun _ _ => ?_) h.drawn)
    refine .bind (.of_ok rfl (.bind (read_leads (fun _ _ => ?_) h.drawn.drawn)))
    refine .bind (.of_ok rfl ?_)
    refine (Program.Keeps.bind (lasting.ensureAncestorDirectories p) fun _ =>
      .bind lasting.commitNow fun _ => .pure _) _ (h.drawn.created
      (newFileOps _ p .attachment size _ ++ [.put (.binaryHash _) (.str hash)])
      (fun op hop => ?_) (fun op hop v hv => ?_) (Root.embodied_newAttachment ..))
    · obtain hop | hop := List.mem_append.mp hop
      · exact fileId_newFileOps hop
      · rw [List.mem_singleton.mp hop]
        rfl
    · obtain hop | hop := List.mem_append.mp hop
      · exact kind_of_newFileOps hv hop
      · rw [List.mem_singleton.mp hop] at hv
        cases hv

end Coherent

/-! ### Restoring -/

/-- An entry with the kind of this one was written once. -/
def KindWritten (d : Doc) (m : FileMeta) : Prop :=
  ∃ op ∈ d.history, op.writes = some (.fileField m.id .kind, some (.scalar (.str m.kind.asStr)))

theorem exists_write_of_footprint {ops : List Op} {a : Addr} {v : Val} (ha : a.isContent = false)
    (h : (footprint ops).get a = some v) : ∃ op ∈ ops, op.writes = some (a, some v) := by
  induction ops using List.reverseRecOn with
  | nil =>
    rw [footprint, applyAll_nil, Root.get_empty] at h
    cases h
  | append_singleton ops op ih =>
    rw [footprint, applyAll_append] at h
    obtain hold | hnew := Op.writes_of_get ha h
    · obtain ⟨op', hop', hwrites⟩ := ih hold
      exact ⟨op', List.mem_append_left _ hop', hwrites⟩
    · exact ⟨op, by simp, hnew⟩

/-- What is read at some heads was written before them. -/
theorem kindWritten_of_fork {past : Doc} {heads : List ChangeHash} {files : List FileMeta}
    (hfork : forkAt A d heads = .ok past) (hfiles : past.root.listFiles L = .ok files) :
    ∀ m ∈ files, d.KindWritten m := by
  intro m hm
  obtain ⟨-, -, -, -, ⟨kind, hkind, hparse⟩, -⟩ :=
    Root.readFileMeta_eq_some.mp ((Root.mem_listFiles hfiles).mp hm).1
  have hget := Root.getStr_eq_some.mp hkind
  rw [FileKind.parse_eq_ok.mp hparse] at hget
  have hsub := (forkAt_sublist hfork).subset
  unfold forkAt at hfork
  split at hfork
  next =>
    obtain rfl := Except.ok.inj hfork
    obtain ⟨c, hc, hfoot, -⟩ := A.origin _ _ _ rfl hget
    obtain ⟨op, hop, hwrites⟩ := exists_write_of_footprint rfl hfoot
    exact ⟨op, List.mem_append_left _ (List.mem_flatMap.mpr ⟨c, hsub hc, hop⟩), hwrites⟩
  next => cases hfork

variable {files : List FileMeta}

/-- Coherent, with the files to be restored written once. -/
def Restoring (files : List FileMeta) (d : Doc) : Prop := d.Coherent ∧ ∀ m ∈ files, d.KindWritten m

theorem KindWritten.emitted {m : FileMeta} (h : d.KindWritten m) (ops : List Op) :
    (d.emitted ops).KindWritten m := by
  obtain ⟨op, hop, hwrites⟩ := h
  refine ⟨op, ?_, hwrites⟩
  rw [history_emitted]
  exact List.mem_append_left _ hop

theorem lasting_restoring : Lasting (Restoring files) where
  draw := fun h hn => ⟨Coherent.lasting.draw h.1 hn, h.2⟩
  commit := fun {d} time h => ⟨Coherent.lasting.commit time h.1, fun m hm => by
    rw [KindWritten, history_committed]
    exact h.2 m hm⟩
  emit := fun h hops => ⟨Coherent.lasting.emit h.1 hops, fun m hm => (h.2 m hm).emitted _⟩

theorem Coherent.embodied_of_written {m : FileMeta} (h : d.Coherent) (hm : d.KindWritten m) :
    d.root.Embodied m.id m.kind := by
  obtain ⟨op, hop, hwrites⟩ := hm
  have hget := h.kinds op hop _ _ hwrites
  rcases h.files m.id with hblank | ⟨k, hk⟩
  · rw [hblank _ rfl rfl] at hget
    cases hget
  · have heq : k.asStr = m.kind.asStr := by simpa [hk.kind] using hget
    rwa [FileKind.asStr_inj.mp heq] at hk

theorem restoreFile_restoring {now : Int} {text : Str → Str} {m : FileMeta} (hm : m ∈ files) :
    Program.Keeps (Restoring files) (restoreFile L now text m) := by
  refine .ite (.pure _) (.bind (read_lasts _) fun _ => .bind (read_lasts _) fun _ d h => ?_)
  have hk := h.1.embodied_of_written (h.2 m hm)
  refine .bind (.of_ok rfl ⟨?_, fun m' hm' => (h.2 m' hm').emitted _⟩)
  refine h.1.written (fun op hop => fileId_restoreOps m d.root op hop)
    (fun n hn => h.1.ne_unused hk hn) (fun op hop v hv => ?_) (.inr hk) (hk.restored now _)
  rw [restoreOps_eq] at hop
  obtain hop | hop := List.mem_append.mp hop
  · obtain hop | hop := List.mem_append.mp hop
    · unfold missingMaps at hop
      grind [Op.writes]
    · simp only [restoreFields, List.mem_cons, List.not_mem_nil, or_false] at hop
      obtain rfl | rfl | rfl | rfl | rfl | rfl := hop <;> simp_all [Op.writes]
  · obtain htarget | htarget := (mem_restoreBody hop).1 <;>
      cases (Op.target_of_writes hv).symm.trans htarget

theorem Coherent.restoreToHeads (h : d.Coherent) (heads : List ChangeHash) :
    Leads (Doc.restoreToHeads L A heads) d (fun _ => Coherent) Coherent := by
  refine .bind ((Coherent.lasting.heads d h).weaken (fun _ d h => ?_) fun _ h => h)
  cases hfork : forkAt A d heads with
  | error e =>
    have hrun : fork A heads d = .error e d := by rw [fork, hfork]
    exact .bind (.of_error hrun h)
  | ok past =>
    have hrun : fork A heads d = .ok past d := by rw [fork, hfork]
    refine .bind (.of_ok hrun (.bind (read_leads (fun files hfiles => ?_) h)))
    refine .bind (read_leads (fun dirs _ => .bind (.of_ok rfl ?_)) h)
    have hstart : Restoring files {d with draws := d.draws + 1} :=
      lasting_restoring.draw ⟨h, kindWritten_of_fork hfork hfiles⟩ (Nat.le_succ _)
    exact (lasting_restoring.restoreEntries (fun m hm => restoreFile_restoring hm) dirs _
      hstart).weaken (fun _ _ h => h.1) fun _ h => h.1

theorem Coherent.run (h : d.Coherent) (op : LocalOp) (hop : ¬ d.Switches L op) :
    Leads (op.run L A) d (fun _ => Coherent) Coherent := by
  cases op with
  | writeTextFile path content =>
    exact .bind ((h.writeTextFile path content hop).weaken (fun _ _ h => h) fun _ h => h)
  | writeAttachment path hash size =>
    exact .bind ((h.writeAttachment path hash size hop).weaken (fun _ _ h => h) fun _ h => h)
  | deleteFile path => exact Coherent.lasting.deleteFile path d h
  | renameFile src dst => exact Coherent.lasting.renameFile src dst d h
  | createDirectory path =>
    exact Program.Keeps.bind (Coherent.lasting.createDirectory path) (fun _ => .pure _) d h
  | deleteDirectory path recursive => exact Coherent.lasting.deleteDirectory path recursive d h
  | renameDirectory src dst => exact Coherent.lasting.renameDirectory src dst d h
  | createLabel label => exact Coherent.lasting.createLabel label d h
  | deleteLabel label => exact Coherent.lasting.deleteLabel label d h
  | restoreToHeads heads => exact h.restoreToHeads heads
  | restoreToTime target =>
    exact .bind ((Coherent.lasting.headsAtTime target d h).weaken
      (fun heads _ h => h.restoreToHeads heads) fun _ h => h)
  | getHeads => exact Program.Keeps.bind Coherent.lasting.heads (fun _ => .pure _) d h

theorem after_of_leads {α : Type} {x : DocM α} {P : Doc → Prop} (h : Leads x d (fun _ => P) P) :
    P (d.after x) := by
  cases hrun : x d with
  | ok a d' =>
    rw [after_ok hrun]
    exact h.ok hrun
  | error e d' =>
    rw [after_error hrun]
    exact h.error hrun

/-! ### What coherent documents read -/

/-- Kind and body agree: in every entry, for the readers, and for what takes files in. -/
structure BodyCoherent (L : Crates) (d : Doc) : Prop where
  entry : ∀ fid, d.root.get (.file fid) ≠ none →
    ∃ k : FileKind, d.root.getStr L (.fileField fid .kind) = .ok (some k.asStr) ∧
      (d.root.get (.content fid) ≠ none ↔ k = .text) ∧
      (d.root.get (.binaryHash fid) ≠ none ↔ k = .attachment)
  read : ∀ path, (∃ s, d.root.readFile L path = .ok s) ↔
    d.root.kindAt L path = .ok (some FileKind.text.asStr)
  hash : ∀ path s, d.root.readFile L path = .ok s →
    d.root.fileHash L path = .ok (L.sha.hash (utf8 s))
  taken : ∀ {σ : Type} (V : Setting σ) (b b' : Bound σ) path s hash, V.crates = L → b.doc = d →
    Ingest.step V path b (.comparing s hash) = some (b', .done (.ok ())) →
      d.root.kindAt L path = .ok (some FileKind.text.asStr)

theorem readFile_eq_ok {s : Str} : r.readFile L path = .ok s ↔
    ∃ p fid, Path.normalize L.nfc path = .ok p ∧
      r.findFileByPathNormalized L p = .ok (some fid) ∧ r.getText fid = some s := by
  constructor
  · intro h
    obtain ⟨p, hp, h⟩ := AgentSync.bind_eq_ok.mp h
    obtain ⟨found, hfind, h⟩ := AgentSync.bind_eq_ok.mp h
    cases found with
    | none => cases h
    | some fid =>
      refine ⟨p, fid, hp, hfind, ?_⟩
      simp only [(Root.hasObject_of_find hfind).1, Bool.not_true, Bool.false_eq_true, if_false] at h
      split at h
      next text htext => rw [htext, Except.ok.inj h]
      next => cases h
  · intro ⟨p, fid, hp, hfind, htext⟩
    simp only [Root.readFile, hp, hfind, (Root.hasObject_of_find hfind).1, htext, bind, Except.bind]
    rfl

/-- What has a kind at a path is found there with the body of the kind. -/
theorem Coherent.embodied_of_kindAt (h : d.Coherent)
    (hkind : d.root.kindAt L path = .ok (some k.asStr)) :
    ∃ p fid, Path.normalize L.nfc path = .ok p ∧
      d.root.findFileByPathNormalized L p = .ok (some fid) ∧ d.root.Embodied fid k := by
  obtain ⟨fid, hfind, hkind⟩ := Root.kindAt_eq_some.mp hkind
  obtain ⟨p, hp, hfind⟩ := AgentSync.bind_eq_ok.mp hfind
  obtain ⟨k', hk⟩ := h.found hfind
  have heq : k'.asStr = k.asStr := by simpa [Root.getStr_of_get hk.kind] using hkind
  exact ⟨p, fid, hp, hfind, FileKind.asStr_inj.mp heq ▸ hk⟩

theorem Coherent.readable_iff (h : d.Coherent) (path : Str) :
    (∃ s, d.root.readFile L path = .ok s) ↔
      d.root.kindAt L path = .ok (some FileKind.text.asStr) := by
  constructor
  · intro ⟨s, hs⟩
    obtain ⟨p, fid, hp, hfind, htext⟩ := readFile_eq_ok.mp hs
    obtain ⟨k, hk⟩ := h.found hfind
    rw [kindAt_of_find hp hfind hk, hk.getText_isSome.mp ⟨s, htext⟩]
  · intro hkind
    obtain ⟨p, fid, hp, hfind, hk⟩ := h.embodied_of_kindAt hkind
    obtain ⟨s, hs⟩ := hk.getText_text
    exact ⟨s, readFile_eq_ok.mpr ⟨p, fid, hp, hfind, hs⟩⟩

theorem Coherent.fileHash_eq (h : d.Coherent) {s : Str} (hs : d.root.readFile L path = .ok s) :
    d.root.fileHash L path = .ok (L.sha.hash (utf8 s)) := by
  obtain ⟨p, fid, hp, hfind, htext⟩ := readFile_eq_ok.mp hs
  obtain ⟨k, hk⟩ := h.found hfind
  obtain rfl := hk.getText_isSome.mp ⟨s, htext⟩
  obtain ⟨hfile, hmeta⟩ := Root.hasObject_of_find hfind
  simp only [Root.fileHash, hp, hfind, hfile, hmeta, Root.getStr_of_get hk.kind, htext, bind,
    Except.bind, FileKind.parse_asStr, Bool.not_true, Bool.false_eq_true, if_false, reduceCtorEq]
  rfl

theorem Coherent.bodyCoherent (h : d.Coherent) : d.BodyCoherent L where
  entry := fun fid hfid => by
    obtain ⟨k, hk⟩ := h.entry hfid
    exact ⟨k, Root.getStr_of_get hk.kind, hk.get_content, hk.get_binaryHash⟩
  read := h.readable_iff
  hash := fun _ _ hs => h.fileHash_eq hs
  taken := by
    rintro σ V b b' path s hash rfl rfl hstep
    simp only [Ingest.step] at hstep
    split at hstep
    next hs => exact (h.readable_iff path).mp ⟨s, hs⟩
    next => cases hstep

/-- An entry with both bodies is not coherent. -/
theorem not_bodyCoherent (fid : Str) (hfile : d.root.get (.file fid) ≠ none)
    (hcontent : d.root.get (.content fid) ≠ none) (hhash : d.root.get (.binaryHash fid) ≠ none) :
    ¬ d.BodyCoherent L := by
  intro h
  obtain ⟨k, -, htext, hattachment⟩ := h.entry fid hfile
  cases (htext.mp hcontent).symm.trans (hattachment.mp hhash)

/-- An attachment that is written as a text has both bodies. -/
theorem writeTextFile_switched {p : Str} (hp : Path.normalize L.nfc path = .ok p)
    (hfind : d.root.findFileByPathNormalized L p = .ok (some fid))
    (hk : d.root.Embodied fid .attachment) (content : Str) :
    Ends (Doc.writeTextFile L path content) d fun _ d' => ¬ d'.BodyCoherent L := by
  refine (writeTextFile_ops hp hfind content).weaken fun _ d' ⟨_, now, hops, hroot⟩ => ?_
  rw [hops, applyAll_append] at hroot
  have hroot : d'.root = textWritten d.root fid content now := hroot
  have hkeep {b : Addr} (hcontent : b ≠ .content fid)
      (hb : ∀ op ∈ textFields fid (utf8 content).length now, op.target ≠ b ∧
        op.target ∉ b.ancestors) : d'.root.get b = d.root.get b := by
    rw [hroot, get_textWritten _ _ _ hcontent]
    exact get_applyAll_of_ne hb
  refine not_bodyCoherent fid ?_ ?_ ?_
  · rw [hkeep (by simp) (by simp [textFields, Op.target, Addr.ancestors]), hk.file]
    simp
  · rw [hroot, Root.get_of_getText (getText_textWritten ..)]
    simp
  · rw [hkeep (by simp) (by simp [textFields, Op.target, Addr.ancestors])]
    exact hk.get_binaryHash.mpr rfl

/-- A text that is written as an attachment has both bodies. -/
theorem writeAttachment_switched {p : Str} (hp : Path.normalize L.nfc path = .ok p)
    (hfind : d.root.findFileByPathNormalized L p = .ok (some fid))
    (hk : d.root.Embodied fid .text) (hash : Str) (size : Int) :
    Ends (Doc.writeAttachment L path hash size) d fun _ d' => ¬ d'.BodyCoherent L := by
  refine .bind (.lift hp (.bind (.nowMs (.bind (.read hfind ?_)))))
  refine .bind (.emit (.bind (.commitNow (.pure ?_))))
  refine not_bodyCoherent fid ?_ ?_ ?_
  all_goals rw [committed_root, emitted_root]
  · rw [get_applyAll_of_ne (by simp [Op.target, Addr.ancestors]), hk.file]
    simp
  · rw [get_applyAll_of_ne (by simp [Op.target, Addr.ancestors])]
    exact hk.get_content.mpr rfl
  · simp [Op.apply, Addr.ancestors]

/-- **Writing a file as what it is not breaks the agreement.** -/
theorem Coherent.switched (h : d.Coherent) {op : LocalOp} (hop : d.Switches L op) :
    ¬ (d.after (op.run L A)).BodyCoherent L := by
  cases op with
  | writeTextFile path content =>
    obtain ⟨p, fid, hp, hfind, hk⟩ := h.embodied_of_kindAt hop
    obtain ⟨_, d', hrun, hbad⟩ := writeTextFile_switched hp hfind hk content
    rwa [LocalOp.run, after_ok (unit_ok hrun)]
  | writeAttachment path hash size =>
    obtain ⟨p, fid, hp, hfind, hk⟩ := h.embodied_of_kindAt hop
    obtain ⟨_, d', hrun, hbad⟩ := writeAttachment_switched hp hfind hk hash size
    rwa [LocalOp.run, after_ok (unit_ok hrun)]
  | _ => exact hop.elim

/-! ### Runs -/

theorem Coherent.new (vaultId : Str) {supply : Supply} (hids : Function.Injective supply.id) :
    (Doc.new A vaultId supply).Coherent := by
  have hblank (fid : Str) : (Doc.new A vaultId supply).root.Blank fid := by
    intro b hb hfid
    cases b <;> simp_all [Addr.fileId, Addr.bodily, Doc.new, genesisOps, footprint, Op.apply,
      Addr.ancestors]
  refine ⟨hids, fun n _ => hblank _, fun fid => .inl (hblank fid), fun op hop fid v hv => ?_⟩
  have hops : op ∈ genesisOps vaultId := by simpa [history, Doc.new] using hop
  simp only [genesisOps, List.mem_cons, List.not_mem_nil, or_false] at hops
  obtain rfl | rfl | rfl | rfl | rfl := hops <;> cases hv

/-- An operation on the document, failing or not. -/
def localStep (L : Crates) (A : Automerge) (d : Doc) (op : LocalOp) : Option Doc :=
  some (d.after (op.run L A))

/-- **Kind and body stay coherent** over every run of operations none of which writes a live file
as what it is not; from each document of such a run, the operations that do are the ones that
break it. -/
theorem body_coherent {vaultId : Str} {supply : Supply} (hids : Function.Injective supply.id)
    (h : Machine.Reach (localStep L A) (fun d op => ¬ d.Switches L op)
      (Doc.new A vaultId supply) d) :
    d.BodyCoherent L ∧
      ∀ op : LocalOp, (d.after (op.run L A)).BodyCoherent L ↔ ¬ d.Switches L op := by
  have hd : d.Coherent := by
    refine Machine.Reach.invariant (Coherent.new vaultId hids) (fun d op d' h hop hstep => ?_) h
    obtain rfl := Option.some.inj hstep
    exact after_of_leads (h.run op hop)
  refine ⟨hd.bodyCoherent, fun op => ⟨fun hafter hop => hd.switched hop hafter, fun hop => ?_⟩⟩
  exact (after_of_leads (hd.run op hop) : (d.after (op.run L A)).Coherent).bodyCoherent

private def wroteNote : LocalOp := .writeTextFile (txt "x.md") (txt "hi")

private def bothKinds (ops : List LocalOp) : Doc := .replica (.numbered '1' 16) ops

private theorem reach_bothKinds : Machine.Reach (localStep .plain .plain)
    (fun d op => ¬ d.Switches .plain op) (bothKinds [])
    (bothKinds [wroteNote, .writeAttachment (txt "y.png") (txt "h") 1, .deleteFile (txt "x.md"),
      .restoreToTime 3]) := by
  have hnote : (bothKinds []).root.kindAt .plain (txt "x.md") = .ok none := rfl
  have hpicture : (bothKinds [wroteNote]).root.kindAt .plain (txt "y.png") = .ok none := rfl
  refine .step (.restoreToTime 3) (.step (.deleteFile (txt "x.md")) (.step
    (.writeAttachment (txt "y.png") (txt "h") 1) (.step wroteNote .start ?_ rfl) ?_ rfl) id rfl) id rfl
  · intro hop
    cases hnote.symm.trans hop
  · intro hop
    cases hpicture.symm.trans hop

theorem body_coherent_restored :
    (bothKinds [wroteNote, .writeAttachment (txt "y.png") (txt "h") 1, .deleteFile (txt "x.md"),
      .restoreToTime 3]).BodyCoherent .plain :=
  (body_coherent (A := .plain) (Supply.numbered_injective '1' 16) reach_bothKinds).1

/-- The note that is written as an attachment keeps its text beside the hash. -/
theorem body_coherent_switched :
    ¬ ∀ d, Machine.Reach (localStep .plain .plain) (fun _ _ => True) (bothKinds []) d →
      d.BodyCoherent .plain := by
  intro h
  refine not_bodyCoherent ['1', 'i'] ?_ ?_ ?_ (h (bothKinds [wroteNote,
    .writeAttachment (txt "x.md") (txt "h") 1]) (.step (.writeAttachment (txt "x.md") (txt "h") 1)
    (.step wroteNote .start trivial rfl) trivial rfl)) <;> decide +kernel

end Doc

end AgentSync
