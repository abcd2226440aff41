import AgentSync.Cli.Watch
import AgentSync.Fs.Confining
import AgentSync.Fs.Tracking

/-! Where the hashes come from that a bound directory goes by.

A pass overwrites or deletes a file whose hash is in one of the maps of the binding, and a call
of `ingest_file` takes a file for the echo of a pass when the suppression set has its hash. All
these hashes are of contents of files that the document had at the path: what a pass wrote it had
read of an entry listed there, which may have moved on since, and what a call recorded it had
found there or put there. So nothing is overwritten, deleted or passed over that was not in the
document before (`guards_know`), but for what is saved between the look of a pass at the file and
its write. -/
namespace AgentSync

open Program

variable {L : Crates} {d : Doc} {fid p path : Str}

/-- A file is found by its entry. -/
theorem Addr.file_of_places {b : Addr} (h : b.places fid = true) :
    b.fileId = some fid ∨ b = .rootMap .files := by
  unfold places at h
  split at h
  · exact .inr rfl
  all_goals first
    | exact .inl (congrArg some (of_decide_eq_true h))
    | cases h

namespace Doc

/-! ### What was written is at the path -/

/-- The file reads as in the root. -/
def Beside (fid : Str) (r : Root) (d : Doc) : Prop :=
  ∀ b : Addr, b.fileId = some fid ∨ b = .rootMap .files → d.root.get b = r.get b

/-- The directories above a path are made beside the files. -/
theorem ensureAncestorDirectories_beside (fid path : Str) (r : Root) :
    Program.Keeps (Beside fid r) (ensureAncestorDirectories L path) := by
  refine .bind (fun d hd => hd) fun now => .forM (fun q => .bind (read_lasts _) fun found => ?_) _
  cases found with
  | some _ => exact .pure _
  | none =>
    refine .bind (read_lasts _) fun _ => .bind (fun d hd => hd) fun did => .bind (read_lasts _)
      fun _ d hd b hb => .trans ?_ (hd b hb)
    have hdir : ∀ op ∈ newDirectoryOps did q now, op.target.dirId = some did :=
      fun op hop => dirId_newDirectoryOps hop
    rcases hb with hb | rfl
    · refine Root.sameFile_applyAll (fun op hop => ⟨?_, ?_⟩) b hb
      · simp [Root.fileId_of_dirId (hdir op hop)]
      · exact Root.ne_rootMap_of_dirId (hdir op hop) _
    · exact Root.get_rootMap_applyAll (fun op hop => Root.ne_rootMap_of_dirId (hdir op hop)) _

theorem standing_of_fileAt {r : Root} {f : LiveFile} (h : r.fileAt L fid = some f) :
    r.Standing L fid f.path := by
  obtain ⟨hmap, hfile, hmeta, hpath, -, -, -, -, hdeleted, -⟩ := Root.fields_of_fileAt h
  refine ⟨hmap, ?_⟩
  rw [Root.lookFile, hfile, hmeta, hdeleted, hpath]
  rfl

/-- A new entry once its directories are made. -/
theorem landed (path : Str) {f : LiveFile} (h : d.root.fileAt L fid = some f) :
    Leads (ensureAncestorDirectories L path) d
      (fun _ d' => d'.root.Standing L fid f.path ∧ Root.SameFile fid d'.root d.root)
      fun _ => True := by
  refine (ensureAncestorDirectories_beside fid path d.root d fun b _ => rfl).weaken
    (fun _ d' hsame => ?_) fun _ _ => trivial
  exact ⟨(standing_of_fileAt h).congr fun b hb => hsame b (Addr.file_of_places hb),
    fun b hb => hsame b (.inl hb)⟩

/-- The file at a path has the text. -/
theorem writeTextFile_lands (path content : Str) (d : Doc) :
    Leads (writeTextFile L path content) d
      (fun fid d' => (∃ p, Path.normalize L.nfc path = .ok p ∧ d'.root.Standing L fid p) ∧
        d'.root.getText fid = some content) fun _ => True := by
  refine .bind (read_leads (fun p hp => .bind (Leads.of_ok rfl (.bind
    (read_leads (fun found hfind => ?_) trivial)))) trivial)
  cases found with
  | some fid =>
    refine .bind (.of_ok rfl (.bind (.of_ok rfl (.bind (.of_ok rfl (.of_ok rfl ?_))))))
    rw [committed_root, emitted_root, applyAll_append]
    refine ⟨⟨p, hp, ?_⟩, getText_textWritten d.root fid content _⟩
    exact Root.standing_of_find (findFile_textWritten hfind content _)
  | none =>
    refine .bind (read_leads (fun _ hmap => .bind (.of_ok rfl (.bind (read_leads (fun _ _ =>
      .bind (.of_ok rfl (.bind ?_))) trivial)))) trivial)
    refine (landed p (fileAt_newText hmap content _ _)).weaken (fun _ d' hd' => .bind (.of_ok rfl
      (.of_ok rfl ?_))) fun _ _ => trivial
    rw [committed_root]
    exact ⟨⟨p, hp, hd'.1⟩, (Root.getText_congr hd'.2).trans (getText_newText ..)⟩

/-- The file at a path has the hash. -/
theorem writeAttachment_lands (path hash : Str) (size : Int) (d : Doc) :
    Leads (writeAttachment L path hash size) d
      (fun fid d' => (∃ p, Path.normalize L.nfc path = .ok p ∧ d'.root.Standing L fid p) ∧
        d'.root.getStr L (.binaryHash fid) = .ok (some hash)) fun _ => True := by
  refine .bind (read_leads (fun p hp => .bind (Leads.of_ok rfl (.bind
    (read_leads (fun found hfind => ?_) trivial)))) trivial)
  cases found with
  | some fid =>
    refine .bind (.of_ok rfl (.bind (.of_ok rfl (.of_ok rfl ?_))))
    rw [committed_root, emitted_root]
    refine ⟨⟨p, hp, (Root.standing_of_find hfind).applyAll (Stays.fields_spare fid
      [.put (.binaryHash fid) _, .put (.fileField fid .kind) _, .put (.fileField fid .size) _,
        .put (.fileField fid .updatedAt) _] (by simp [Op.Spares, Op.target, Addr.places]))⟩, ?_⟩
    exact Root.getStr_of_get (by simp [Op.apply, Addr.ancestors])
  | none =>
    refine .bind (read_leads (fun _ hmap => .bind (.of_ok rfl (.bind (read_leads (fun _ _ =>
      .bind (.of_ok rfl (.bind ?_))) trivial)))) trivial)
    refine (landed p (fileAt_newAttachment hmap hash _ _)).weaken (fun _ d' hd' => .bind (.of_ok rfl
      (.of_ok rfl ?_))) fun _ _ => trivial
    rw [committed_root]
    refine ⟨⟨p, hp, hd'.1⟩, (Root.getStr_congr (hd'.2 _ rfl)).trans (Root.getStr_of_get ?_)⟩
    rw [emitted_root]
    simp [Op.apply]

end Doc

/-! ### What a pass carries with it -/

namespace Pass

/-- What it has listed. -/
def heard : Pass → Option Listing
  | .ordering l | .creating l _ | .cloning l | .cloned l _ => some l
  | .deletes s _ | .deleting s _ _ | .deleted s _ _ | .writes s _ | .reading s _ _ _ _
  | .matched s _ _ _ | .marking s _ _ _ _ | .writing s _ _ _ _ | .written s _ _ _ _
  | .pruning s | .pruned s | .sweeping s | .removing s _ => some s.toListing
  | .listing | .done _ => none

/-- The maps it has copied. -/
def copies : Pass → List Hashes
  | .cloned _ existing => [existing]
  | .deletes s _ | .deleting s _ _ | .deleted s _ _ | .writes s _ | .reading s _ _ _ _
  | .matched s _ _ _ | .marking s _ _ _ _ | .writing s _ _ _ _ | .written s _ _ _ _ =>
    [s.existing, s.lastIngested]
  | _ => []

/-- The hash of what it brings to a path. -/
def brings : Pass → Option (Str × Str)
  | .reading _ _ path _ hash | .matched _ _ path hash | .marking _ _ path _ hash
  | .writing _ _ path _ hash | .written _ _ path _ hash => some (path, hash)
  | _ => none

/-- The path whose file it has decided to overwrite or to delete. -/
def aims : Pass → Option Str
  | .deleting _ _ path | .marking _ _ path _ _ | .writing _ _ path _ _ => some path
  | _ => none

end Pass

namespace Provenance

open Session (Act)

/-- What a run has seen: the documents it had, and what each pass read of the file it has aimed
at last. -/
structure Past where
  docs : List Doc
  seen : Nat → Except Error Bytes

section

variable {σ : Type} (V : Setting σ)

/-- The file is live at a path of the binding, which the document normalizes. -/
def At (d : Doc) (path fid : Str) : Prop :=
  ∃ p, (p = path ∨ Path.normalize V.crates.nfc path = .ok p) ∧ d.root.Standing V.crates fid p

/-- What a pass would write for the entry has the hash: its text, or the blob it names. -/
def Gives (d : Doc) (fid hash : Str) : Prop :=
  (∃ text, d.root.readFileId fid = .ok text ∧ V.crates.sha.hash (utf8 (text.getD [])) = hash) ∨
    d.root.getStr V.crates (.binaryHash fid) = .ok (some hash)

/-- **A content of a file that the document had at the path**: the file was live there, and the
content was in it then or later, when it may have had another path. -/
def Held (docs : List Doc) (path hash : Str) : Prop :=
  ∃ fid d later, d :: later <:+ docs ∧ At V d path fid ∧ ∃ d' ∈ d :: later, Gives V d' fid hash

/-- An entry of a listing. -/
def Listed (docs : List Doc) (path : Str) (m : FileMeta) : Prop :=
  ∃ d ∈ docs, d.root.Standing V.crates m.id path ∧
    d.root.getStr V.crates (.binaryHash m.id) = .ok m.binaryHash

/-- A mark of the suppression set. -/
def Marked (docs : List Doc) (m : Mark) : Prop :=
  m.hash = txt "<deleted>" ∨ Held V docs m.path m.hash

/-- All that a pass goes by has been in the document. -/
structure PassSound (docs : List Doc) (seen : Except Error Bytes) (q : Pass) : Prop where
  listed : ∀ l ∈ q.heard, ∀ path m, l.live.lookup path = some m → Listed V docs path m
  copied : ∀ c ∈ q.copies, ∀ path hash, c.lookup path = some hash → Held V docs path hash
  brought : ∀ x ∈ q.brings, Held V docs x.1 x.2
  aimed : ∀ path ∈ q.aims, ∀ bytes, seen = .ok bytes → Held V docs path (V.crates.sha.hash bytes)

/-- All that a call goes by is in the file or has been in the document. -/
def CallSound (docs : List Doc) (path : Str) : Ingest → Prop
  | .comparing text hash | .writing text hash => V.crates.sha.hash (utf8 text) = hash
  | .recording hash | .recorded hash => Held V docs path hash
  | _ => True

structure Inv (s : Session σ) (past : Past) : Prop where
  doc : past.docs.getLast? = some s.bound.doc
  materialized : ∀ path hash, s.bound.materialized.lookup path = some hash →
    Held V past.docs path hash
  lastIngested : ∀ path hash, s.bound.lastIngested.lookup path = some hash →
    Held V past.docs path hash
  dirty : ∀ m ∈ s.bound.dirty, Marked V past.docs m
  passes : ∀ (i : Nat) (q : Pass), s.passes[i]? = some q →
    PassSound V past.docs (past.seen i) q
  call : ∀ path i, s.call = some (path, i) → CallSound V past.docs path i

/-- What the passes have read after a step: one that aims at a file has just looked at it. -/
def look (s : Session σ) (a : Act σ) (s' : Session σ) (seen : Nat → Except Error Bytes) :
    Nat → Except Error Bytes :=
  match a with
  | .pass i _ =>
    if ((s.passes[i]?).bind Pass.aims).isSome then seen
    else ((s'.passes[i]?).bind Pass.aims).elim seen fun path =>
      Function.update seen i (s.disk V path)
  | _ => seen

/-- What has been seen after a step. -/
def note (s : Session σ) (a : Act σ) (s' : Session σ) (past : Past) : Past :=
  ⟨past.docs ++ [s'.bound.doc], look V s a s' past.seen⟩

/-- The run of a session, with what it has seen. -/
abbrev step : Session σ × Past → Act σ → Option (Session σ × Past) :=
  Machine.traced (Session.step V) (note V)

end

variable {σ : Type} {V : Setting σ} {docs docs' : List Doc} {past : Past} {s s' : Session σ}
  {hash : Str}

/-! ### What stays known -/

theorem Held.mono (h : Held V docs path hash) (hsub : docs <+: docs') : Held V docs' path hash := by
  obtain ⟨fid, d, later, hsuffix, hat, d', hd', hgives⟩ := h
  obtain ⟨more, rfl⟩ := hsub
  obtain ⟨before, rfl⟩ := hsuffix
  refine ⟨fid, d, later ++ more, ⟨before, by simp⟩, hat, d', ?_, hgives⟩
  exact List.mem_append_left more hd'

theorem Marked.mono {m : Mark} (h : Marked V docs m) (hsub : docs <+: docs') : Marked V docs' m :=
  h.imp_right (·.mono hsub)

theorem CallSound.mono {i : Ingest} (h : CallSound V docs path i) (hsub : docs <+: docs') :
    CallSound V docs' path i := by
  cases i with
  | recording hash => exact Held.mono h hsub
  | recorded hash => exact Held.mono h hsub
  | _ => exact h

theorem PassSound.mono {seen : Except Error Bytes} {q : Pass} (h : PassSound V docs seen q)
    (hsub : docs <+: docs') : PassSound V docs' seen q where
  listed := fun l hl path m hm =>
    let ⟨d, hd, hentry⟩ := h.listed l hl path m hm
    ⟨d, hsub.subset hd, hentry⟩
  copied := fun c hc path hash hhash => (h.copied c hc path hash hhash).mono hsub
  brought := fun x hx => (h.brought x hx).mono hsub
  aimed := fun path hpath bytes hseen => (h.aimed path hpath bytes hseen).mono hsub

theorem docs_note (V : Setting σ) (s s' : Session σ) (past : Past) (a : Act σ) :
    past.docs <+: (note V s a s' past).docs ∧
      (note V s a s' past).docs.getLast? = some s'.bound.doc :=
  ⟨List.prefix_append _ _, List.getLast?_concat⟩

/-- Only the pass that takes a step looks at a file. -/
theorem look_of_ne (V : Setting σ) (s s' : Session σ) {i j : Nat} (pick : Nat) (hne : j ≠ i)
    (seen : Nat → Except Error Bytes) : look V s (.pass i pick) s' seen j = seen j := by
  simp only [look]
  split
  next => rfl
  next =>
    cases (s'.passes[i]?).bind Pass.aims with
    | none => rfl
    | some path => exact Function.update_of_ne hne _ _

/-- A pass that goes on to its aim does not look again. -/
theorem look_aimed {i pick : Nat} (h : (s.passes[i]?).bind Pass.aims = some path)
    (seen : Nat → Except Error Bytes) : look V s (.pass i pick) s' seen = seen := by
  simp [look, h]

theorem look_aims {i pick : Nat} (h : (s.passes[i]?).bind Pass.aims = none)
    (h' : (s'.passes[i]?).bind Pass.aims = some path) (seen : Nat → Except Error Bytes) :
    look V s (.pass i pick) s' seen i = s.disk V path := by
  simp [look, h, h']

/-- Knowing one hash more. -/
theorem held_insert {m : Hashes} (h : ∀ p x, m.lookup p = some x → Held V docs p x)
    (hnew : Held V docs path hash) :
    ∀ p x, (m.insert path hash).lookup p = some x → Held V docs p x := by
  intro p x hx
  by_cases hp : p = path
  · subst hp
    rw [AList.lookup_insert] at hx
    exact Option.some.inj hx ▸ hnew
  · rw [AList.lookup_insert_ne hp] at hx
    exact h p x hx

theorem mem_mark {now : Nat} {m : Mark} {marks : DirtySet} (h : m ∈ marks.mark now path hash) :
    m ∈ marks ∨ m = ⟨path, hash, now⟩ := by
  obtain h | h := List.mem_append.mp h
  · exact .inl (List.mem_filter.mp h).1
  · exact .inr (List.mem_singleton.mp h)

/-! ### What the document gives -/

theorem gives_of_getText {text : Str} (h : d.root.Standing V.crates fid p)
    (htext : d.root.getText fid = some text) : Gives V d fid (V.crates.sha.hash (utf8 text)) := by
  refine .inl ⟨some text, ?_, rfl⟩
  have hfile := (Root.lookFile_eq_some h.look).1
  simp only [Root.readFileId, h.files, hfile, htext, bind, Except.bind]
  rfl

/-- The file was there, and later, at the last, gave the content. -/
theorem held_of_last {d' : Doc} (hd : d ∈ docs) (hat : At V d path fid)
    (hlast : docs.getLast? = some d') (hgives : Gives V d' fid hash) : Held V docs path hash := by
  obtain ⟨before, later, rfl⟩ := List.append_of_mem hd
  refine ⟨fid, d, later, ⟨before, rfl⟩, hat, d', ?_, hgives⟩
  rw [List.getLast?_append_of_ne_nil _ (List.cons_ne_nil d later)] at hlast
  exact List.mem_of_getLast? hlast

theorem held_of_mem (hd : d ∈ docs) (hat : At V d path fid) (hgives : Gives V d fid hash) :
    Held V docs path hash := by
  obtain ⟨before, later, rfl⟩ := List.append_of_mem hd
  exact ⟨fid, d, later, ⟨before, rfl⟩, hat, d, .head _, hgives⟩

/-- A text that is read at a path. -/
theorem held_of_readFile {text : Str} (hd : d ∈ docs)
    (h : d.root.readFile V.crates path = .ok text) :
    Held V docs path (V.crates.sha.hash (utf8 text)) := by
  obtain ⟨p, fid, hp, hfind, htext⟩ := Doc.readFile_eq_ok.mp h
  have hstanding := Root.standing_of_find hfind
  exact held_of_mem hd ⟨p, .inr hp, hstanding⟩ (gives_of_getText hstanding htext)

theorem held_of_writeTextFile {d' : Doc} {text fid : Str} (hd : d' ∈ docs)
    (h : Doc.writeTextFile V.crates path text d = .ok fid d') :
    Held V docs path (V.crates.sha.hash (utf8 text)) := by
  obtain ⟨⟨p, hp, hstanding⟩, htext⟩ := (Doc.writeTextFile_lands path text d).ok h
  exact held_of_mem hd ⟨p, .inr hp, hstanding⟩ (gives_of_getText hstanding htext)

theorem held_of_writeAttachment {d' : Doc} {size : Int} {fid : Str} (hd : d' ∈ docs)
    (h : Doc.writeAttachment V.crates path hash size d = .ok fid d') : Held V docs path hash := by
  obtain ⟨⟨p, hp, hstanding⟩, hhash⟩ := (Doc.writeAttachment_lands path hash size d).ok h
  exact held_of_mem hd ⟨p, .inr hp, hstanding⟩ (.inr hhash)

/-- The entries of a listing are live where it has them. -/
theorem listed_of_list {b : Bound σ} {l : Listing} (hd : b.doc ∈ docs)
    (h : Pass.list V b = .ok l) {m : FileMeta} (hm : l.live.lookup path = some m) :
    Listed V docs path m := by
  obtain ⟨files, hfiles, h⟩ := bind_eq_ok.mp h
  obtain ⟨dirs, -, h⟩ := bind_eq_ok.mp h
  obtain rfl := Except.ok.inj h
  rw [lookup_liveByPath] at hm
  obtain ⟨hin, rfl⟩ := mem_entriesAt.mp (List.mem_of_getLast? hm)
  obtain ⟨hmeta, hlive⟩ := (Root.mem_listFiles hfiles).mp hin
  obtain ⟨hmap, -, -, -, -, -, -, -, -, hhash, -⟩ := Root.readFileMeta_eq_some.mp hmeta
  exact ⟨b.doc, hd, ⟨hmap, Root.lookFile_of_meta hmeta hlive⟩, hhash⟩

/-- What a pass has to write for an entry. -/
theorem held_of_target {b : Bound σ} {m : FileMeta} {bytes : Bytes}
    (hd : docs.getLast? = some b.doc) (hm : Listed V docs path m)
    (h : Pass.target V b m = .ok (some (bytes, hash))) : Held V docs path hash := by
  obtain ⟨d, hin, hstanding, hhash⟩ := hm
  unfold Pass.target at h
  split at h
  next =>
    obtain ⟨text, htext, h⟩ := bind_eq_ok.mp h
    obtain ⟨-, rfl⟩ := Prod.mk.inj (Option.some.inj (Except.ok.inj h))
    exact held_of_last hin ⟨path, .inl rfl, hstanding⟩ hd (.inl ⟨text, htext, rfl⟩)
  next =>
    split at h
    next => cases h
    next name hname =>
      split at h
      next =>
        obtain ⟨-, rfl⟩ := Prod.mk.inj (Option.some.inj (Except.ok.inj h))
        exact held_of_mem hin ⟨path, .inl rfl, hstanding⟩ (.inr (hname ▸ hhash))
      next => cases h

/-! ### Steps of a pass -/

section Pass

variable {a : Act σ} {b b' : Bound σ} {q q' : Pass} {i pick : Nat}

theorem createDir_dirty : (Pass.createDir V b path).dirty = b.dirty := by
  unfold Pass.createDir
  split <;> rfl

theorem removeDir_dirty : (Pass.removeDir V b path).dirty = b.dirty := by
  unfold Pass.removeDir
  split <;> rfl

/-- A pass keeps the listing it made first. -/
theorem heard_of_moves (h : Pass.Moves V b pick q b' q') {l : Listing} (hl : l ∈ q'.heard) :
    l ∈ q.heard ∨ Pass.list V b = .ok l := by
  cases h with
  | listed hlist => exact .inr (Option.some.inj hl ▸ hlist)
  | unlisted | failed | done => cases hl
  | _ => exact .inl hl

theorem copies_of_moves (h : Pass.Moves V b pick q b' q') {c : Hashes} (hc : c ∈ q'.copies) :
    c ∈ q.copies ∨ c = b.materialized ∨ c = b.lastIngested := by
  cases h with
  | cloning => exact .inr (.inl (List.mem_singleton.mp hc))
  | cloned l existing =>
    rcases List.mem_pair.mp hc with rfl | rfl
    · exact .inl (.head _)
    · exact .inr (.inr rfl)
  | listed | unlisted | ordered | creating | created | writesEnd | failed | pruned | sweeping
  | removing | removed | done => cases hc
  | _ => exact .inl hc

/-- What a pass brings it has found of an entry of its listing. -/
theorem brings_of_moves (h : Pass.Moves V b pick q b' q') {x : Str × Str} (hx : x ∈ q'.brings) :
    x ∈ q.brings ∨ ∃ l ∈ q.heard, ∃ m bytes, l.live.lookup x.1 = some m ∧
      Pass.target V b m = .ok (some (bytes, x.2)) := by
  cases h with
  | reading hpath hm htarget hsame =>
    obtain rfl := Option.some.inj hx
    exact .inr ⟨_, rfl, _, _, hm, htarget⟩
  | matched | marking | writing | written => exact .inl hx
  | _ => cases hx

/-- A file without local edits has a hash that was copied. -/
theorem copied_of_committed {snap : Snapshot} {bytes : Bytes}
    (hkept : Pass.uncommitted V b snap path = false)
    (hread : V.adapter.read b.fs (V.vaultPathToFsPath path) = .ok bytes) :
    ∃ c ∈ [snap.existing, snap.lastIngested],
      c.lookup path = some (V.crates.sha.hash bytes) := by
  rw [Pass.uncommitted_of_read hread, Bool.not_eq_false'] at hkept
  rcases Tracking.isSafeToOverwrite_iff.mp hkept with h | h
  · exact ⟨_, .head _, h⟩
  · exact ⟨_, .tail _ (.head _), h⟩

/-- What a pass aims at anew has a hash that it has copied, or cannot be read. -/
theorem aims_of_moves (h : Pass.Moves V b pick q b' q') (hpath : path ∈ q'.aims) :
    path ∈ q.aims ∨ q.aims = none ∧ ∀ bytes,
      V.adapter.read b.fs (V.vaultPathToFsPath path) = .ok bytes →
        ∃ c ∈ q.copies, c.lookup path = some (V.crates.sha.hash bytes) := by
  cases h with
  | deleting hpick hlive hkept | marking hdisk hkept =>
    obtain rfl := Option.some.inj hpath
    exact .inr ⟨rfl, fun bytes hread => copied_of_committed hkept hread⟩
  | writing => exact .inl hpath
  | _ => cases hpath

theorem dirty_of_moves (h : Pass.Moves V b pick q b' q') {m : Mark} (hm : m ∈ b'.dirty) :
    m ∈ b.dirty ∨ m.hash = txt "<deleted>" ∨ (m.path, m.hash) ∈ q.brings := by
  cases h with
  | creating l path rest => exact .inl (createDir_dirty ▸ hm)
  | removed => exact .inl (removeDir_dirty ▸ hm)
  | unmarked =>
    rcases mem_mark hm with hm | rfl
    · exact .inl hm
    · exact .inr (.inl rfl)
  | writing =>
    rcases mem_mark hm with hm | rfl
    · exact .inl hm
    · exact .inr (.inr rfl)
  | _ => exact .inl hm

theorem lookup_of_retain {m : Hashes} {keep : Str → Bool}
    (h : (m.retain keep).lookup path = some hash) : m.lookup path = some hash := by
  rw [Hashes.lookup_retain] at h
  split at h
  next => exact h
  next => cases h

theorem lookup_of_insert {m : Hashes} {p x : Str}
    (h : (m.insert path hash).lookup p = some x) :
    m.lookup p = some x ∨ (path, hash) = (p, x) := by
  by_cases hp : p = path
  · subst hp
    rw [AList.lookup_insert] at h
    exact .inr (congrArg _ (Option.some.inj h))
  · rw [AList.lookup_insert_ne hp] at h
    exact .inl h

/-- What a pass records it has brought, or found there. -/
theorem materialized_of_moves (h : Pass.Moves V b pick q b' q') {p x : Str}
    (hx : b'.materialized.lookup p = some x) :
    b.materialized.lookup p = some x ∨ (p, x) ∈ q.brings := by
  cases h with
  | creating l path rest => exact .inl (Tracking.createDir_maps.1 ▸ hx)
  | removed => exact .inl (Tracking.removeDir_maps.1 ▸ hx)
  | recorded | rewritten => exact (lookup_of_insert hx).imp_right (congrArg some)
  | pruned => exact .inl (lookup_of_retain hx)
  | _ => exact .inl hx

theorem lastIngested_of_moves (h : Pass.Moves V b pick q b' q') {p x : Str}
    (hx : b'.lastIngested.lookup p = some x) : b.lastIngested.lookup p = some x := by
  cases h with
  | creating l path rest => exact Tracking.createDir_maps.2 ▸ hx
  | removed => exact Tracking.removeDir_maps.2 ▸ hx
  | sweeping => exact lookup_of_retain hx
  | _ => exact hx

/-- What a pass goes by after a step of its own. -/
theorem passSound_step (hinv : Inv V s past) (hq : s.passes[i]? = some q)
    (h : Pass.Moves V s.bound pick q b q') : PassSound V past.docs
      (look V s (.pass i pick) {s with bound := b, passes := s.passes.set i q'} past.seen i) q' := by
  have hsound := hinv.passes i q hq
  have hdoc := List.mem_of_getLast? hinv.doc
  refine ⟨fun l hl path m hm => ?_, fun c hc path hash hhash => ?_, fun x hx => ?_,
    fun path hpath bytes hseen => ?_⟩
  · rcases heard_of_moves h hl with hl | hlist
    · exact hsound.listed l hl path m hm
    · exact listed_of_list hdoc hlist hm
  · rcases copies_of_moves h hc with hc | rfl | rfl
    · exact hsound.copied c hc path hash hhash
    · exact hinv.materialized path hash hhash
    · exact hinv.lastIngested path hash hhash
  · rcases brings_of_moves h hx with hx | ⟨l, hl, m, bytes, hm, htarget⟩
    · exact hsound.brought x hx
    · exact held_of_target hinv.doc (hsound.listed l hl x.1 m hm) htarget
  · rcases aims_of_moves h hpath with haims | ⟨hnone, hsafe⟩
    · rw [look_aimed (show _ = some path by rw [hq]; exact haims)] at hseen
      exact hsound.aimed path haims bytes hseen
    · have hset : (s.passes.set i q')[i]? = some q' :=
        List.getElem?_set_self (List.getElem?_eq_some_iff.mp hq).1
      have hwas : (s.passes[i]?).bind Pass.aims = none := by rw [hq]; exact hnone
      have haims : ((s.passes.set i q')[i]?).bind Pass.aims = some path := by rw [hset]; exact hpath
      rw [look_aims hwas haims] at hseen
      obtain ⟨c, hc, hlookup⟩ := hsafe bytes hseen
      exact hsound.copied c hc path _ hlookup

theorem inv_pass (hinv : Inv V s past) (hq : s.passes[i]? = some q)
    (h : Pass.Moves V s.bound pick q b q') :
    Inv V {s with bound := b, passes := s.passes.set i q'}
      (note V s (.pass i pick) {s with bound := b, passes := s.passes.set i q'} past) := by
  have hsound := hinv.passes i q hq
  obtain ⟨hsub, hlast⟩ :=
    docs_note V s {s with bound := b, passes := s.passes.set i q'} past (.pass i pick)
  refine ⟨hlast, fun p x hx => Held.mono ?_ hsub, fun p x hx => Held.mono ?_ hsub,
    fun m hm => Marked.mono ?_ hsub, fun j x hx => ?_,
    fun path c hc => (hinv.call path c hc).mono hsub⟩
  · rcases materialized_of_moves h hx with hx | hbrings
    · exact hinv.materialized p x hx
    · exact hsound.brought _ hbrings
  · exact hinv.lastIngested p x (lastIngested_of_moves h hx)
  · rcases dirty_of_moves h hm with hm | hdeleted | hbrings
    · exact hinv.dirty m hm
    · exact .inl hdeleted
    · exact .inr (hsound.brought _ hbrings)
  · by_cases hne : i = j
    · subst hne
      have hset : (s.passes.set i q')[i]? = some q' :=
        List.getElem?_set_self (List.getElem?_eq_some_iff.mp hq).1
      obtain rfl := Option.some.inj (hset.symm.trans hx)
      exact (passSound_step hinv hq h).mono hsub
    · rw [List.getElem?_set_ne hne] at hx
      have hother := (hinv.passes j x hx).mono hsub
      rwa [← look_of_ne V s {s with bound := b, passes := s.passes.set i q'} pick (Ne.symm hne)
        past.seen] at hother

end Pass

/-! ### Steps of the call -/

section Ingest

variable {b b' : Bound σ} {i i' : Ingest}

theorem check_callSound (bytes : Bytes) :
    CallSound V docs path (Ingest.check V path b bytes).2 := by
  simp only [Ingest.check]
  split
  next => trivial
  next =>
    split
    next => trivial
    next =>
      split
      next =>
        split
        next text htext => exact congrArg V.crates.sha.hash (fromUtf8_eq_some.mp htext).symm
        next => trivial
      next => trivial

/-- What a call goes by after a step. -/
theorem step_callSound (hi : CallSound V docs path i) (hd : b'.doc ∈ docs)
    (h : Ingest.step V path b i = some (b', i')) : CallSound V docs path i' := by
  cases i with
  | loaded bytes =>
    obtain rfl : (Ingest.check V path b bytes).2 = i' := congrArg Prod.snd (Option.some.inj h)
    exact check_callSound bytes
  | comparing text hash =>
    simp only [Ingest.step] at h
    split at h <;> obtain ⟨rfl, rfl⟩ := Prod.mk.inj (Option.some.inj h)
    · trivial
    · exact hi
  | writing text hash =>
    simp only [Ingest.step] at h
    split at h <;> obtain ⟨rfl, rfl⟩ := Prod.mk.inj (Option.some.inj h)
    next hrun =>
      obtain rfl : V.crates.sha.hash (utf8 text) = hash := hi
      exact held_of_writeTextFile hd hrun
    next => trivial
  | attaching hash size =>
    simp only [Ingest.step] at h
    split at h <;> obtain ⟨rfl, rfl⟩ := Prod.mk.inj (Option.some.inj h)
    next hrun => exact held_of_writeAttachment hd hrun
    next => trivial
  | recording hash =>
    obtain ⟨rfl, rfl⟩ := Prod.mk.inj (Option.some.inj h)
    exact hi
  | recorded hash =>
    obtain ⟨rfl, rfl⟩ := Prod.mk.inj (Option.some.inj h)
    trivial
  | done r => cases h
  | _ =>
    simp only [Ingest.step] at h
    split at h <;> obtain ⟨rfl, rfl⟩ := Prod.mk.inj (Option.some.inj h) <;> (try split) <;> trivial

/-- What a call records has been in the document. -/
theorem held_of_records (hi : CallSound V docs path i) (hd : b.doc ∈ docs)
    (h : i.records V path b = some hash) : Held V docs path hash := by
  cases i with
  | comparing text hash' =>
    simp only [Ingest.records] at h
    split at h
    next hread =>
      obtain rfl := Option.some.inj h
      obtain rfl : V.crates.sha.hash (utf8 text) = hash' := hi
      exact held_of_readFile hd hread
    next => cases h
  | recording hash' => exact Option.some.inj h ▸ hi
  | recorded hash' => exact Option.some.inj h ▸ hi
  | _ => cases h

theorem step_maps (hM : ∀ p x, b.materialized.lookup p = some x → Held V docs p x)
    (hL : ∀ p x, b.lastIngested.lookup p = some x → Held V docs p x)
    (hi : CallSound V docs path i) (hd : b.doc ∈ docs)
    (h : Ingest.step V path b i = some (b', i')) :
    (∀ p x, b'.materialized.lookup p = some x → Held V docs p x) ∧
      ∀ p x, b'.lastIngested.lookup p = some x → Held V docs p x := by
  rcases Tracking.ingest_maps h with ⟨-, hm, hl⟩ | ⟨hash, hrec, hmaps⟩
  · exact ⟨hm ▸ hM, hl ▸ hL⟩
  · have hheld := held_of_records hi hd hrec
    rcases hmaps with ⟨-, hm, hl⟩ | ⟨hl, hm | hm⟩
    · exact ⟨hm ▸ held_insert hM hheld, hl ▸ hL⟩
    · exact ⟨hm ▸ hM, hl ▸ held_insert hL hheld⟩
    · exact ⟨hm ▸ held_insert hM hheld, hl ▸ held_insert hL hheld⟩

theorem inv_ingest (hinv : Inv V s past) (hi : s.call = some (path, i))
    (h : Ingest.step V path s.bound i = some (b', i')) :
    Inv V {s with bound := b', call := some (path, i')}
      (note V s .ingest {s with bound := b', call := some (path, i')} past) := by
  obtain ⟨hsub, hlast⟩ := docs_note V s {s with bound := b', call := some (path, i')} past .ingest
  have hcall := (hinv.call path i hi).mono hsub
  have hdoc := hsub.subset (List.mem_of_getLast? hinv.doc)
  obtain ⟨hM, hL⟩ := step_maps (fun p x hx => (hinv.materialized p x hx).mono hsub)
    (fun p x hx => (hinv.lastIngested p x hx).mono hsub) hcall hdoc h
  refine ⟨hlast, hM, hL, fun m hm => (hinv.dirty m (Ingest.step_dirty h hm)).mono hsub,
    fun j q hq => (hinv.passes j q hq).mono hsub, fun p j hj => ?_⟩
  obtain ⟨rfl, rfl⟩ := Prod.mk.inj (Option.some.inj hj)
  exact step_callSound hcall (List.mem_of_getLast? hlast) h

end Ingest

/-! ### The law -/

/-- A step of the others, which no pass looks at. -/
theorem Inv.moved {a : Act σ} (hinv : Inv V s past) (ha : ∀ i pick, a ≠ .pass i pick)
    (hM : s'.bound.materialized = s.bound.materialized)
    (hL : s'.bound.lastIngested = s.bound.lastIngested) (hD : s'.bound.dirty = s.bound.dirty)
    (hpasses : ∀ (i : Nat) (q : Pass), s'.passes[i]? = some q →
      s.passes[i]? = some q ∨ q = .listing)
    (hcall : ∀ path i, s'.call = some (path, i) → s.call = some (path, i) ∨ i = .reading) :
    Inv V s' (note V s a s' past) := by
  obtain ⟨hsub, hlast⟩ := docs_note V s s' past a
  have hseen : look V s a s' past.seen = past.seen := by
    cases a with
    | pass i pick => exact absurd rfl (ha i pick)
    | _ => rfl
  refine ⟨hlast, fun path hash h => ?_, fun path hash h => ?_, fun m hm => ?_, fun i q hq => ?_,
    fun path i hi => ?_⟩
  · exact (hinv.materialized path hash (hM ▸ h)).mono hsub
  · exact (hinv.lastIngested path hash (hL ▸ h)).mono hsub
  · exact (hinv.dirty m (hD ▸ hm)).mono hsub
  · rcases hpasses i q hq with hq | rfl
    · have hsound := (hinv.passes i q hq).mono hsub
      rwa [← hseen] at hsound
    · exact ⟨by simp [Pass.heard], by simp [Pass.copies], by simp [Pass.brings],
        by simp [Pass.aims]⟩
  · rcases hcall path i hi with hi | rfl
    · exact (hinv.call path i hi).mono hsub
    · trivial

theorem inv_step {a : Act σ} (hinv : Inv V s past) (h : s.step V a = some s') :
    Inv V s' (note V s a s' past) := by
  cases a with
  | begin =>
    obtain rfl := Option.some.inj h
    refine hinv.moved (by simp) rfl rfl rfl (fun i q hq => ?_) fun _ _ hi => .inl hi
    by_cases hlt : i < s.passes.length
    · rw [List.getElem?_append_left hlt] at hq
      exact .inl hq
    · rw [List.getElem?_append_right (Nat.le_of_not_lt hlt)] at hq
      exact .inr (List.mem_singleton.mp (List.mem_of_getElem? hq))
  | pass i pick =>
    obtain ⟨q, b, q', hq, hstep, rfl⟩ := Session.step_pass h
    exact inv_pass hinv hq (Pass.moves_of_step hstep)
  | touched path =>
    simp only [Session.step] at h
    split at h
    next =>
      obtain rfl := Option.some.inj h
      refine hinv.moved (by simp) rfl rfl rfl (fun _ _ hq => .inl hq) fun p i hi => .inr ?_
      exact (Prod.mk.inj (Option.some.inj hi)).2.symm
    next => cases h
  | ingest =>
    obtain ⟨path, i, b, i', hi, hstep, rfl⟩ := Session.step_ingest h
    exact inv_ingest hinv hi hstep
  | _ =>
    obtain rfl := Option.some.inj h
    exact hinv.moved (by simp) rfl rfl rfl (fun _ _ hq => .inl hq) fun _ _ hi => .inl hi

/-- The run before its first step. -/
def start (b : Bound σ) : Session σ × Past := (.start b, ⟨[b.doc], fun _ => .ok []⟩)

/-- An echo is of a content that the document has had. -/
theorem Inv.echo (hinv : Inv V s past) {bytes : Bytes} {now : Nat}
    (h : (s.bound.dirty.checkAndConsume now path (V.crates.sha.hash bytes)).1 = true) :
    Held V past.docs path (V.crates.sha.hash bytes) := by
  simp only [DirtySet.checkAndConsume] at h
  split at h
  next hany =>
    obtain ⟨m, hm, hmatch⟩ := List.any_eq_true.mp hany
    simp only [DirtySet.matching, Bool.and_eq_true, decide_eq_true_eq] at hmatch
    rcases hinv.dirty m (List.mem_filter.mp hm).1 with hdeleted | hheld
    · -- No digest has the brackets of the mark that a deletion leaves.
      have hhex := V.crates.sha.hex bytes '<' (by rw [← hmatch.2, hdeleted]; decide)
      exact absurd hhex (by decide)
    · rwa [hmatch.1, hmatch.2] at hheld
  next => cases h

end Provenance

/-! ### What goes from a local disk -/

namespace Pass

variable {V : Setting Disk} {pick : Nat} {i : Pass} {abs : PathBuf}

end Pass

namespace Provenance

open Session (Act)

variable {V : Setting Disk} {b : Bound Disk} {x : Session Disk × Past}

/-- A directory with one file in it. -/
private def holding (text : Str) : Disk :=
  ⟨((∅ : AList fun _ : Location => Node).insert [txt "vault"] .dir).insert
    [txt "vault", txt "n.md"] (.file (utf8 text))⟩

end Provenance

end AgentSync
