import AgentSync.Doc.Tree
import AgentSync.Fs.Rescan

/-! Taking a directory in.

A scan goes through the tree and takes in every file it is allowed to, some more than once. To the
map of paths that a document is, it does no more than lay the directory over it (`Overlaid`): when
it has not failed, the map has every file that was come by, as it is on the disk, the vault has
recorded each, and every other path has what it had (`scan_overlays`). -/
namespace AgentSync

open Program

variable {L : Crates}

/-- What is read as a text is the text of the entry. -/
theorem Doc.Orderly.body_of_readFile {d : Doc} {p text : Str} (hd : d.Orderly L)
    (hp : Path.Normalized L.nfc p) (h : d.root.readFile L p = .ok text) :
    ∃ f, d.root.fileOf L p = some f ∧ (f.kind = .text → f.body = .text text) := by
  obtain ⟨q, hq, h⟩ := AgentSync.bind_eq_ok.mp h
  obtain rfl := Except.ok.inj (hp.symm.trans hq)
  obtain ⟨found, hfound, h⟩ := AgentSync.bind_eq_ok.mp h
  rcases hd.readable.findFile p with ⟨fid, f, hfind, hfile, rfl⟩ | ⟨hfind, -⟩
  · obtain rfl := Except.ok.inj (hfind.symm.trans hfound)
    refine ⟨f, hd.fileOf_of hfile, fun hkind => ?_⟩
    obtain ⟨m, hm, -, rfl⟩ := Root.fileAt_eq_some.mp hfile
    rw [Root.liveFile_of_read hm] at hkind ⊢
    have htext : d.root.getText fid = some text := by
      simp only at h
      split at h
      next => cases h
      next =>
        split at h
        next hget => exact hget.trans (congrArg some (Except.ok.inj h))
        next => cases h
    simp only at hkind
    simp only [Root.body, hkind, htext, Option.getD_some]
  · obtain rfl := Except.ok.inj (hfind.symm.trans hfound)
    cases h

namespace Watching

variable {σ : Type} (V : Watching σ) (fs : σ)

/-! ### What becomes of a path -/

/-- What is taken in of a file. -/
def content (path : Str) : Option Bytes :=
  match V.adapter.read fs (V.vaultPathToFsPath path) with
  | .ok bytes => if V.opts.overSize path bytes.length then none else some bytes
  | .error _ => none

def attachmentOf (bytes : Bytes) : Entry :=
  ⟨.attachment, bytes.length, .attachment (some (V.crates.sha.hash bytes))⟩

/-- The entry that is made of a file. -/
def entryOf (path : Str) (bytes : Bytes) : Entry :=
  if V.opts.isTextExtension path then
    match fromUtf8 bytes with
    | some text => ⟨.text, bytes.length, .text text⟩
    | none => V.attachmentOf bytes
  else V.attachmentOf bytes

/-- What taking a file in makes of the entry of its path: that of the file, unless it has been
read as the text of the file already. -/
inductive Took (path : Str) (bytes : Bytes) (old : Option Entry) : Option Entry → Prop
  | made : Took path bytes old (some (V.entryOf path bytes))
  | same {e : Entry} {text : Str} (hold : old = some e) (htext : V.opts.isTextExtension path = true)
      (hbytes : bytes = utf8 text) (hbody : e.kind = .text → e.body = .text text) :
      Took path bytes old old

/-- The entry of a path. -/
noncomputable abbrev entryAt (d : Doc) (path : Str) : Option Entry :=
  (d.root.tree V.crates).files path

/-- The vault knows that the file is as it has been taken in. -/
def Knows (b : Bound σ) (path : Str) (hash : Str) : Prop :=
  b.materialized.lookup path = some hash ∧ b.lastIngested.lookup path = some hash

/-- Files and directories of the disk are laid over what a vault has. -/
structure Overlaid (files dirs : Set Str) (b b' : Bound σ) : Prop where
  taken : ∀ p ∈ files, ∀ bytes, V.content fs p = some bytes →
    V.Took p bytes (V.entryAt b.doc p) (V.entryAt b'.doc p) ∧ Knows b' p (V.crates.sha.hash bytes)
  kept : ∀ p, (p ∈ files → V.content fs p = none) → V.entryAt b'.doc p = V.entryAt b.doc p ∧
    b'.materialized.lookup p = b.materialized.lookup p ∧
    b'.lastIngested.lookup p = b.lastIngested.lookup p
  made : (b.doc.root.tree V.crates).dirs ∪ dirs ⊆ (b'.doc.root.tree V.crates).dirs
  origin : ∀ p ∈ (b'.doc.root.tree V.crates).dirs, p ∈ (b.doc.root.tree V.crates).dirs ∪ dirs ∨
    ∃ q, (q ∈ files ∧ V.content fs q ≠ none ∨ q ∈ dirs) ∧ p ∈ Path.ancestors q

variable {V fs} {path : Str} {F F' D D' : Set Str} {b b₀ b' b'' : Bound σ}

theorem Took.trans {bytes : Bytes} {old mid new : Option Entry} (h : V.Took path bytes old mid)
    (h' : V.Took path bytes mid new) : V.Took path bytes old new := by
  cases h' with
  | made => exact .made
  | same => exact h

/-- A new file is as it is on the disk. -/
theorem Took.of_none {bytes : Bytes} {new : Option Entry} (h : V.Took path bytes none new) :
    new = some (V.entryOf path bytes) := by
  cases h with
  | made => rfl
  | same hold => cases hold

namespace Overlaid

protected theorem refl : V.Overlaid fs ∅ ∅ b b where
  taken p hp := absurd hp (Set.notMem_empty p)
  kept _ _ := ⟨rfl, rfl, rfl⟩
  made := (Set.union_empty _).subset
  origin _ hp := .inl (.inl hp)

/-- First the ones, then the others. -/
protected theorem trans (h : V.Overlaid fs F D b b') (h' : V.Overlaid fs F' D' b' b'') :
    V.Overlaid fs (F ∪ F') (D ∪ D') b b'' where
  taken p hp bytes hbytes := by
    by_cases hp' : p ∈ F'
    · obtain ⟨htook', hknows'⟩ := h'.taken p hp' bytes hbytes
      refine ⟨?_, hknows'⟩
      by_cases hF : p ∈ F
      · exact (h.taken p hF bytes hbytes).1.trans htook'
      · rwa [← (h.kept p fun hin => absurd hin hF).1]
    · obtain ⟨hentry, hmaterialized, hingested⟩ := h'.kept p fun hin => absurd hin hp'
      obtain ⟨htook, hknows⟩ := h.taken p (hp.resolve_right hp') bytes hbytes
      rw [Knows, hmaterialized, hingested, hentry]
      exact ⟨htook, hknows⟩
  kept p hp := by
    obtain ⟨hentry, hmaterialized, hingested⟩ := h.kept p fun hin => hp (.inl hin)
    obtain ⟨hentry', hmaterialized', hingested'⟩ := h'.kept p fun hin => hp (.inr hin)
    exact ⟨hentry'.trans hentry, hmaterialized'.trans hmaterialized, hingested'.trans hingested⟩
  made := by
    intro p hp
    rcases hp with hp | hp | hp
    · exact h'.made (.inl (h.made (.inl hp)))
    · exact h'.made (.inl (h.made (.inr hp)))
    · exact h'.made (.inr hp)
  origin p hp := by
    rcases h'.origin p hp with (hp | hp) | ⟨q, hq, hp⟩
    · rcases h.origin p hp with (hp | hp) | ⟨q, hq, hp⟩
      · exact .inl (.inl hp)
      · exact .inl (.inr (.inl hp))
      · exact .inr ⟨q, hq.imp (And.imp_left Or.inl) Or.inl, hp⟩
    · exact .inl (.inr (.inr hp))
    · exact .inr ⟨q, hq.imp (And.imp_left Or.inr) Or.inr, hp⟩

/-- A path of which nothing is taken in. -/
theorem nothing (hnone : V.content fs path = none) (hdoc : b'.doc = b.doc)
    (hmaterialized : b'.materialized = b.materialized)
    (hingested : b'.lastIngested = b.lastIngested) : V.Overlaid fs {path} ∅ b b' where
  taken p hp bytes hbytes := by
    rw [Set.mem_singleton_iff.mp hp, hnone] at hbytes
    cases hbytes
  kept p _ := by
    rw [hdoc, hmaterialized, hingested]
    exact ⟨rfl, rfl, rfl⟩
  made := by rw [hdoc, Set.union_empty]
  origin p hp := .inl (.inl (hdoc ▸ hp))

end Overlaid

/-! ### One file -/

variable (V fs path) in
/-- What a document makes of the file. -/
structure Laid (d₀ d : Doc) (bytes : Bytes) : Prop where
  content : V.content fs path = some bytes
  took : V.Took path bytes (V.entryAt d₀ path) (V.entryAt d path)
  others : ∀ p ≠ path, V.entryAt d p = V.entryAt d₀ p
  grows : (d₀.root.tree V.crates).dirs ⊆ (d.root.tree V.crates).dirs
  origin : ∀ p ∈ (d.root.tree V.crates).dirs, p ∈ (d₀.root.tree V.crates).dirs ∨
    p ∈ Path.ancestors path

theorem Laid.overlaid {bytes : Bytes} (h : V.Laid fs path b₀.doc b.doc bytes)
    (hmaterialized : b.materialized = b₀.materialized.insert path (V.crates.sha.hash bytes))
    (hingested : b.lastIngested = b₀.lastIngested.insert path (V.crates.sha.hash bytes)) :
    V.Overlaid fs {path} ∅ b₀ b where
  taken p hp bytes' hbytes := by
    obtain rfl := Set.mem_singleton_iff.mp hp
    obtain rfl := Option.some.inj (h.content.symm.trans hbytes)
    refine ⟨h.took, ?_, ?_⟩
    · rw [hmaterialized, AList.lookup_insert]
    · rw [hingested, AList.lookup_insert]
  kept p hp := by
    have hne : p ≠ path := by
      intro heq
      subst heq
      rw [h.content] at hp
      exact Option.some_ne_none _ (hp rfl)
    refine ⟨h.others p hne, ?_, ?_⟩
    · rw [hmaterialized, AList.lookup_insert_ne hne]
    · rw [hingested, AList.lookup_insert_ne hne]
  made := by rw [Set.union_empty]; exact h.grows
  origin p hp := by
    rcases h.origin p hp with hp | hp
    · exact .inl (.inl hp)
    · exact .inr ⟨path, .inl ⟨rfl, h.content ▸ Option.some_ne_none bytes⟩, hp⟩

/-- A write of the map that makes the entry of the file. -/
theorem Laid.of_write {d₀ d : Doc} {bytes : Bytes} (hcontent : V.content fs path = some bytes)
    (h : d.root.tree V.crates = (d₀.root.tree V.crates).write path (V.entryOf path bytes)) :
    V.Laid fs path d₀ d bytes := by
  have hfiles : (d.root.tree V.crates).files =
      Function.update (d₀.root.tree V.crates).files path (some (V.entryOf path bytes)) := by
    rw [h, Tree.write]
  have hdirs (p : Str) (hp : p ∈ (d.root.tree V.crates).dirs) :
      p ∈ (d₀.root.tree V.crates).dirs ∨ p ∈ Path.ancestors path := by
    rw [h, Tree.write] at hp
    split at hp
    next => exact .inl hp
    next => exact hp
  refine ⟨hcontent, ?_, fun p hne => ?_, ?_, hdirs⟩
  · rw [entryAt, entryAt, hfiles, Function.update_self]
    exact .made
  · rw [entryAt, entryAt, hfiles, Function.update_of_ne hne]
  · rw [h, Tree.write]
    split
    next => exact subset_rfl
    next => exact Set.subset_union_left

/-- A text that the document has already. -/
theorem Laid.of_read {d : Doc} {text : Str} (hd : d.Orderly V.crates)
    (hpath : Path.Normalized V.crates.nfc path) (htext : V.opts.isTextExtension path = true)
    (hcontent : V.content fs path = some (utf8 text))
    (hread : d.root.readFile V.crates path = .ok text) : V.Laid fs path d d (utf8 text) := by
  obtain ⟨f, hf, hbody⟩ := hd.body_of_readFile hpath hread
  have hentry : V.entryAt d path = some ⟨f.kind, f.size, f.body⟩ :=
    congrArg (Option.map fun f : LiveFile => (⟨f.kind, f.size, f.body⟩ : Entry)) hf
  exact ⟨hcontent, .same hentry htext rfl hbody, fun _ _ => rfl, subset_rfl, fun _ hp => .inl hp⟩

/-- Nothing has been taken in yet. -/
structure Same (b₀ b : Bound σ) : Prop where
  doc : b.doc = b₀.doc
  materialized : b.materialized = b₀.materialized
  lastIngested : b.lastIngested = b₀.lastIngested

variable (V fs path) in
/-- What a call has come to. -/
def Taking (b₀ b : Bound σ) : Ingest → Prop
  | .reading | .settling => Same b₀ b
  | .peeking => Same b₀ b ∧ V.adapter.read fs (V.vaultPathToFsPath path) = .ok []
  | .loaded bytes => Same b₀ b ∧ V.adapter.read fs (V.vaultPathToFsPath path) = .ok bytes
  | .comparing text hash | .writing text hash => Same b₀ b ∧ V.opts.isTextExtension path = true ∧
      V.content fs path = some (utf8 text) ∧ hash = V.crates.sha.hash (utf8 text)
  | .storing bytes => Same b₀ b ∧ V.content fs path = some bytes ∧
      V.entryOf path bytes = V.attachmentOf bytes
  | .attaching hash size => Same b₀ b ∧ ∃ bytes, V.content fs path = some bytes ∧
      V.entryOf path bytes = V.attachmentOf bytes ∧ hash = V.crates.sha.hash bytes ∧
      size = bytes.length
  | .recording hash => ∃ bytes, V.Laid fs path b₀.doc b.doc bytes ∧ hash = V.crates.sha.hash bytes ∧
      b.materialized = b₀.materialized ∧ b.lastIngested = b₀.lastIngested
  | .recorded hash => ∃ bytes, V.Laid fs path b₀.doc b.doc bytes ∧ hash = V.crates.sha.hash bytes ∧
      b.materialized = b₀.materialized.insert path hash ∧ b.lastIngested = b₀.lastIngested
  | .done (.ok _) => V.Overlaid fs {path} ∅ b₀ b
  | .done (.error _) => True

variable {i i' : Ingest}

/-- With nothing to report no write is taken for an echo. -/
theorem checkAndConsume_nil (now : Nat) (path hash : Str) :
    DirtySet.checkAndConsume now path hash [] = (false, []) := rfl

theorem taking_check {bytes : Bytes} (hdirty : b.dirty = []) (hsame : Same b₀ b)
    (hread : V.adapter.read fs (V.vaultPathToFsPath path) = .ok bytes)
    (h : Ingest.check V.toSetting path b bytes = (b', i')) :
    b'.doc = b.doc ∧ V.Taking fs path b₀ b' i' := by
  unfold Ingest.check at h
  by_cases hsize : V.opts.overSize path bytes.length = true
  · rw [if_pos hsize] at h
    obtain ⟨rfl, rfl⟩ := Prod.mk.inj h
    have hnone : V.content fs path = none := by
      rw [content, hread]
      exact if_pos hsize
    exact ⟨rfl, .nothing hnone hsame.doc hsame.materialized hsame.lastIngested⟩
  · have hcontent : V.content fs path = some bytes := by
      rw [content, hread]
      exact if_neg hsize
    simp only [if_neg hsize, hdirty, checkAndConsume_nil, Bool.false_eq_true, if_false] at h
    have hsame' : Same b₀ {b with dirty := []} :=
      ⟨hsame.doc, hsame.materialized, hsame.lastIngested⟩
    by_cases htext : V.opts.isTextExtension path = true
    · rw [if_pos htext] at h
      cases hutf8 : fromUtf8 bytes with
      | some text =>
        rw [hutf8] at h
        obtain ⟨rfl, rfl⟩ := Prod.mk.inj h
        obtain rfl := fromUtf8_eq_some.mp hutf8
        exact ⟨rfl, hsame', htext, hcontent, rfl⟩
      | none =>
        rw [hutf8] at h
        obtain ⟨rfl, rfl⟩ := Prod.mk.inj h
        refine ⟨rfl, hsame', hcontent, ?_⟩
        rw [entryOf, if_pos htext, hutf8]
    · rw [if_neg htext] at h
      obtain ⟨rfl, rfl⟩ := Prod.mk.inj h
      exact ⟨rfl, hsame', hcontent, if_neg htext⟩

/-- What an operation leaves, and what it makes of the map if it succeeds. -/
theorem run_orderly (op : FileOp) {d : Doc} (hd : d.Orderly V.crates) :
    Leads (op.run V.crates) d
      (fun _ d' => d'.Orderly V.crates ∧
        (d.root.tree V.crates).run V.crates.nfc op = some (d'.root.tree V.crates))
      (Doc.Orderly V.crates) := by
  obtain ⟨hsim, hafter⟩ := hd.simulates op
  unfold Doc.Simulates at hsim
  cases hrun : op.run V.crates d with
  | ok _ d' =>
    rw [hrun] at hsim
    exact .of_ok hrun ⟨Doc.after_ok hrun ▸ hafter, hsim.1⟩
  | error e d' => exact .of_error hrun (Doc.after_error hrun ▸ hafter)

/-- **One step of a call.** -/
theorem taking_step (hpath : Path.Normalized V.crates.nfc path) (hfs : b.fs = fs)
    (hd : b.doc.Orderly V.crates) (hdirty : b.dirty = []) (hi : V.Taking fs path b₀ b i)
    (h : Ingest.step V.toSetting path b i = some (b', i')) :
    b'.doc.Orderly V.crates ∧ V.Taking fs path b₀ b' i' := by
  subst hfs
  cases i with
  | reading =>
    simp only [Ingest.step] at h
    cases hread : V.adapter.read b.fs (V.vaultPathToFsPath path) with
    | error e =>
      rw [hread] at h
      obtain ⟨rfl, rfl⟩ := Prod.mk.inj (Option.some.inj h)
      have hnone : V.content b.fs path = none := by rw [content, hread]
      exact ⟨hd, .nothing hnone hi.doc hi.materialized hi.lastIngested⟩
    | ok bytes =>
      rw [hread] at h
      obtain ⟨rfl, rfl⟩ := Prod.mk.inj (Option.some.inj h)
      refine ⟨hd, ?_⟩
      split
      next hnil => exact ⟨hi, hnil ▸ hread⟩
      next => exact ⟨hi, hread⟩
  | peeking =>
    obtain ⟨hsame, hread⟩ := hi
    simp only [Ingest.step] at h
    split at h <;> obtain ⟨rfl, rfl⟩ := Prod.mk.inj (Option.some.inj h)
    · exact ⟨hd, hsame⟩
    · exact ⟨hd, hsame, hread⟩
  | settling =>
    simp only [Ingest.step] at h
    cases hread : V.adapter.read b.fs (V.vaultPathToFsPath path) with
    | error e =>
      rw [hread] at h
      obtain ⟨rfl, rfl⟩ := Prod.mk.inj (Option.some.inj h)
      have hnone : V.content b.fs path = none := by rw [content, hread]
      exact ⟨hd, .nothing hnone hi.doc hi.materialized hi.lastIngested⟩
    | ok bytes =>
      rw [hread] at h
      obtain ⟨rfl, rfl⟩ := Prod.mk.inj (Option.some.inj h)
      exact ⟨hd, hi, hread⟩
  | loaded bytes =>
    obtain ⟨hdoc, htaking⟩ := taking_check hdirty hi.1 hi.2 (Option.some.inj h)
    exact ⟨hdoc ▸ hd, htaking⟩
  | comparing text hash =>
    obtain ⟨hsame, htext, hcontent, rfl⟩ := hi
    simp only [Ingest.step] at h
    split at h <;> obtain ⟨rfl, rfl⟩ := Prod.mk.inj (Option.some.inj h)
    next hread =>
      have hlaid : V.Laid b.fs path b₀.doc b.doc (utf8 text) := by
        rw [← hsame.doc]
        exact .of_read hd hpath htext hcontent hread
      exact ⟨hd, Laid.overlaid hlaid (by rw [← hsame.materialized])
        (by rw [← hsame.lastIngested])⟩
    next => exact ⟨hd, hsame, htext, hcontent, rfl⟩
  | writing text hash =>
    obtain ⟨hsame, htext, hcontent, rfl⟩ := hi
    have hleads := run_orderly (.writeTextFile path text) hd
    simp only [Ingest.step] at h
    split at h
    next fid d' hrun =>
      obtain ⟨rfl, rfl⟩ := Prod.mk.inj (Option.some.inj h)
      obtain ⟨hd', htree⟩ := hleads.ok (Doc.unit_ok hrun)
      rw [Tree.run, hpath, hsame.doc] at htree
      refine ⟨hd', utf8 text, .of_write hcontent ?_, rfl, hsame.materialized,
        hsame.lastIngested⟩
      rw [← Option.some.inj htree, entryOf, if_pos htext, fromUtf8_utf8]
    next e d' hrun =>
      obtain ⟨rfl, rfl⟩ := Prod.mk.inj (Option.some.inj h)
      exact ⟨hleads.error (Doc.unit_error hrun), trivial⟩
  | storing bytes =>
    obtain ⟨hsame, hcontent, hentry⟩ := hi
    simp only [Ingest.step] at h
    split at h <;> obtain ⟨rfl, rfl⟩ := Prod.mk.inj (Option.some.inj h)
    next storage hash hput =>
      exact ⟨hd, ⟨hsame.doc, hsame.materialized, hsame.lastIngested⟩, bytes, hcontent,
        hentry, BlobStore.hash_of_put hput, rfl⟩
    next e _ => exact ⟨hd, trivial⟩
  | attaching hash size =>
    obtain ⟨hsame, bytes, hcontent, hentry, rfl, rfl⟩ := hi
    have hleads := run_orderly
      (.writeAttachment path (V.crates.sha.hash bytes) bytes.length) hd
    simp only [Ingest.step] at h
    split at h
    next fid d' hrun =>
      obtain ⟨rfl, rfl⟩ := Prod.mk.inj (Option.some.inj h)
      obtain ⟨hd', htree⟩ := hleads.ok (Doc.unit_ok hrun)
      rw [Tree.run, hpath, hsame.doc] at htree
      refine ⟨hd', bytes, .of_write hcontent ?_, rfl, hsame.materialized,
        hsame.lastIngested⟩
      rw [← Option.some.inj htree, hentry, attachmentOf]
    next e d' hrun =>
      obtain ⟨rfl, rfl⟩ := Prod.mk.inj (Option.some.inj h)
      exact ⟨hleads.error (Doc.unit_error hrun), trivial⟩
  | recording hash =>
    obtain ⟨rfl, rfl⟩ := Prod.mk.inj (Option.some.inj h)
    obtain ⟨bytes, hlaid, hhash, hmaterialized, hingested⟩ := hi
    exact ⟨hd, bytes, hlaid, hhash, by rw [← hmaterialized], hingested⟩
  | recorded hash =>
    obtain ⟨rfl, rfl⟩ := Prod.mk.inj (Option.some.inj h)
    obtain ⟨bytes, hlaid, rfl, hmaterialized, hingested⟩ := hi
    exact ⟨hd, Laid.overlaid hlaid hmaterialized (by rw [← hingested])⟩
  | done r => cases h

/-- The disk stays as it is, the watcher has nothing to report, and the calls have left the
document in order. -/
structure Ordered (V : Watching σ) (fs : σ) (s : SyncIgnoreSet) (w : Watch σ) : Prop
    extends Steady fs s [] w where
  orderly : w.bound.doc.Orderly V.crates

variable {s : SyncIgnoreSet} {w w' : Watch σ}

/-- **A whole call.** -/
theorem ingest_taking (hpath : Path.Normalized V.crates.nfc path) {n : Nat}
    (hn : i.stepsLeft < n) (hw : V.Ordered fs s w) (hi : V.Taking fs path b₀ w.bound i) :
    Leads (V.ingest path n i) w
      (fun _ w' => V.Ordered fs s w' ∧ V.Overlaid fs {path} ∅ b₀ w'.bound) (fun _ => True) := by
  induction n generalizing i w with
  | zero => cases hn
  | succ n ih =>
    obtain ⟨hsteady, hfs⟩ := hw.toSteady.awaited
    have hi' : V.Taking fs path b₀ w.awaited.bound i := by
      cases i with
      | reading => exact ⟨hi.doc, hi.materialized, hi.lastIngested⟩
      | settling => exact ⟨hi.doc, hi.materialized, hi.lastIngested⟩
      | recording hash => exact hi
      | recorded hash => exact hi
      | done r =>
        cases r with
        | ok _ => exact ⟨hi.taken, hi.kept, hi.made, hi.origin⟩
        | error e => trivial
      | _ => exact ⟨⟨hi.1.doc, hi.1.materialized, hi.1.lastIngested⟩, hi.2⟩
    refine .bind (.of_ok rfl ?_)
    cases hstep : Ingest.step V.toSetting path w.awaited.bound i with
    | some x =>
      obtain ⟨b', i'⟩ := x
      obtain ⟨hd', hi''⟩ :=
        taking_step hpath hfs hw.orderly (List.subset_nil.mp hsteady.dirty) hi' hstep
      have hdirty := List.Subset.trans (Ingest.step_dirty hstep) hsteady.dirty
      have hless := stepsLeft_step hstep
      exact .bind (.modify (ih (by omega)
        ⟨⟨hsteady.ignores, hsteady.disk, hdirty⟩, hd'⟩ hi''))
    | none =>
      obtain ⟨r, rfl⟩ := done_of_step hstep
      cases r with
      | ok _ => exact ⟨⟨hsteady, hw.orderly⟩, hi'⟩
      | error e => trivial

/-! ### The tree -/

/-- A part of a scan lays files and directories over what the vault has, if it does not fail. -/
def Lays (V : Watching σ) (fs : σ) (s : SyncIgnoreSet) (files dirs : Set Str)
    (x : Handler σ Unit) : Prop :=
  ∀ w, V.Ordered fs s w → Leads x w
    (fun _ w' => V.Ordered fs s w' ∧ V.Overlaid fs files dirs w.bound w'.bound) (fun _ => True)

namespace Lays

variable {x : Handler σ Unit}

protected theorem pure : V.Lays fs s ∅ ∅ (pure ()) := fun _ hw => ⟨hw, .refl⟩

protected theorem forM {α : Type} {t : α → Handler σ Unit} {F D : α → Set Str} {xs : List α}
    (h : ∀ y ∈ xs, V.Lays fs s (F y) (D y) (t y)) :
    V.Lays fs s {p | ∃ y ∈ xs, p ∈ F y} {p | ∃ y ∈ xs, p ∈ D y} (xs.forM t) := by
  induction xs with
  | nil =>
    have hnone (F : α → Set Str) : {p | ∃ y ∈ ([] : List α), p ∈ F y} = ∅ := by
      ext p
      simp
    rw [hnone F, hnone D]
    exact .pure
  | cons y ys ih =>
    have hsplit (F : α → Set Str) :
        {p | ∃ z ∈ y :: ys, p ∈ F z} = F y ∪ {p | ∃ z ∈ ys, p ∈ F z} := by
      ext p
      simp
    rw [hsplit F, hsplit D]
    intro w hw
    refine .bind ((h y List.mem_cons_self w hw).weaken (fun _ w₁ ⟨hw₁, hfirst⟩ => ?_) fun _ h => h)
    refine (ih (fun z hz => h z (List.mem_cons_of_mem _ hz)) w₁ hw₁).weaken ?_ fun _ h => h
    intro _ w₂ ⟨hw₂, hrest⟩
    exact ⟨hw₂, hfirst.trans hrest⟩

end Lays

/-- What is done with each entry of a walk. -/
theorem Lays.walk {t : WalkEntry → Handler σ Unit} {F D : WalkEntry → Set Str}
    (h : ∀ e, V.Lays fs s (F e) (D e) (t e)) (top : PathBuf) :
    V.Lays fs s {p | ∃ e ∈ V.walk fs top, p ∈ F e} {p | ∃ e ∈ V.walk fs top, p ∈ D e} (do
      (V.walk (← Handler.await).fs top).forM t) := by
  intro w hw
  obtain ⟨hsteady, hfs⟩ := hw.toSteady.awaited
  refine .bind (.of_ok rfl ?_)
  rw [hfs]
  refine (Lays.forM (fun e _ => h e) w.awaited ⟨hsteady, hw.orderly⟩).weaken ?_ fun _ h => h
  intro _ w' ⟨hw', hlaid⟩
  exact ⟨hw', hlaid.taken, hlaid.kept, hlaid.made, hlaid.origin⟩

theorem ingestFile_lays (hpath : Path.Normalized V.crates.nfc path) :
    V.Lays fs s {path} ∅ (V.ingestFile path) :=
  fun _ hw => ingest_taking (i := .reading) hpath (Nat.lt_succ_self _) hw ⟨rfl, rfl, rfl⟩

variable (V) in
/-- The file, or the directory, that an entry of a walk is. -/
def fileOf (s : SyncIgnoreSet) (e : WalkEntry) : Set Str :=
  {p | e.kind = .file ∧ V.fsPathToVaultPath s e.path = some p}

variable (V) in
def directoryOf (s : SyncIgnoreSet) (e : WalkEntry) : Set Str :=
  {p | e.kind = .dir ∧ V.fsPathToVaultDirPath s e.path = some p}

/-- A file that a walk comes by. -/
theorem ingestAllowed_lays {e : WalkEntry} (hkind : e.kind = .file) :
    V.Lays fs s (V.fileOf s e) ∅ (do
      match V.fsPathToVaultPath (← get).ignores e.path with
      | none => pure ()
      | some path => V.ingestFile path) := by
  intro w hw
  refine .bind (.get ?_)
  rw [hw.ignores]
  cases hfile : V.fsPathToVaultPath s e.path with
  | none =>
    have hnone : V.fileOf s e = ∅ := by simp [fileOf, hfile]
    rw [hnone]
    exact Lays.pure w hw
  | some path =>
    have hone : V.fileOf s e = {path} := by
      ext p
      simp [fileOf, hkind, hfile, eq_comm]
    rw [hone]
    exact ingestFile_lays (normalized_vaultPath hfile) w hw

theorem onDoc_ok {α : Type} {x : DocM α} {a : α} {d' : Doc} (h : x w.bound.doc = .ok a d') :
    Handler.onDoc x w = .ok a {w with bound := {w.bound with doc := d'}} := by
  rw [Handler.onDoc, h]

theorem onDoc_error {α : Type} {x : DocM α} {e : Error} {d' : Doc}
    (h : x w.bound.doc = .error e d') :
    Handler.onDoc x w = .error e {w with bound := {w.bound with doc := d'}} := by
  rw [Handler.onDoc, h]

/-- A directory that the document has or is given. -/
theorem Overlaid.directory (hfind : path ∈ (b'.doc.root.tree V.crates).dirs)
    (hfiles : (b'.doc.root.tree V.crates).files = (b.doc.root.tree V.crates).files)
    (hdirs : (b.doc.root.tree V.crates).dirs ⊆ (b'.doc.root.tree V.crates).dirs)
    (horigin : ∀ p ∈ (b'.doc.root.tree V.crates).dirs,
      p ∈ (b.doc.root.tree V.crates).dirs ∨ p = path ∨ p ∈ Path.ancestors path)
    (hmaterialized : b'.materialized = b.materialized)
    (hingested : b'.lastIngested = b.lastIngested) : V.Overlaid fs ∅ {path} b b' where
  taken p hp := absurd hp (Set.notMem_empty p)
  kept p _ := by
    rw [entryAt, entryAt, hfiles, hmaterialized, hingested]
    exact ⟨rfl, rfl, rfl⟩
  made := Set.union_subset hdirs (Set.singleton_subset_iff.mpr hfind)
  origin p hp := by
    rcases horigin p hp with hp | rfl | hp
    · exact .inl (.inl hp)
    · exact .inl (.inr rfl)
    · exact .inr ⟨path, .inr rfl, hp⟩

theorem Overlaid.created (hnone : path ∉ b.doc.root.dirPaths V.crates)
    (h : b'.doc.root.tree V.crates = (b.doc.root.tree V.crates).create path)
    (hmaterialized : b'.materialized = b.materialized)
    (hingested : b'.lastIngested = b.lastIngested) : V.Overlaid fs ∅ {path} b b' := by
  have hnew : path ∉ (b.doc.root.tree V.crates).dirs := hnone
  rw [Tree.create, if_neg hnew] at h
  refine .directory ?_ (by rw [h]) ?_ (fun p hp => ?_) hmaterialized hingested
  · rw [h]
    exact .inl (Set.mem_insert path _)
  · rw [h]
    exact (Set.subset_insert path _).trans Set.subset_union_left
  · rw [h] at hp
    rcases hp with (rfl | hp) | hp
    · exact .inr (.inl rfl)
    · exact .inl hp
    · exact .inr (.inr hp)

/-- **An entry of a walk.** -/
theorem ingestEntry_lays (e : WalkEntry) :
    V.Lays fs s (V.fileOf s e) (V.directoryOf s e) (V.ingestEntry e) := by
  unfold ingestEntry
  cases hkind : e.kind with
  | file =>
    have hnone : V.directoryOf s e = ∅ := by simp [directoryOf, hkind]
    rw [hnone]
    exact ingestAllowed_lays hkind
  | other =>
    have hfile : V.fileOf s e = ∅ := by simp [fileOf, hkind]
    have hdirectory : V.directoryOf s e = ∅ := by simp [directoryOf, hkind]
    rw [hfile, hdirectory]
    exact .pure
  | dir =>
    have hfile : V.fileOf s e = ∅ := by simp [fileOf, hkind]
    rw [hfile]
    intro w hw
    refine .bind (.get ?_)
    rw [hw.ignores]
    cases hpath : V.fsPathToVaultDirPath s e.path with
    | none =>
      have hnone : V.directoryOf s e = ∅ := by simp [directoryOf, hpath]
      rw [hnone]
      exact Lays.pure w hw
    | some path =>
      have hone : V.directoryOf s e = {path} := by
        ext p
        simp [directoryOf, hkind, hpath, eq_comm]
      rw [hone]
      have hnorm : Path.Normalized V.crates.nfc path := normalized_vaultDirPath hpath
      have hread (found : Option Str)
          (h : w.bound.doc.root.findDirectoryByPathNormalized V.crates path = .ok found) :
          Handler.onDoc (Doc.read (Root.findDirectoryByPath V.crates · path)) w = .ok found w :=
        onDoc_read (bind_eq_ok.mpr ⟨path, hnorm, h⟩)
      rcases hw.orderly.readable.findDirectory path with
        ⟨did, f, hfind, hdir, rfl⟩ | ⟨hfind, hnone⟩
      · refine .bind (.of_ok (hread _ hfind) (.modify ⟨⟨⟨hw.ignores, hw.disk, hw.dirty⟩,
          hw.orderly⟩, .directory ?_ rfl subset_rfl (fun p hp => .inl hp) rfl rfl⟩))
        exact ⟨did, f, hdir, rfl⟩
      · refine .bind (.of_ok (hread _ hfind) ?_)
        have hleads := run_orderly (.createDirectory path) hw.orderly
        cases hrun : Doc.createDirectory V.crates path w.bound.doc with
        | error e d' => exact .bind (.of_error (onDoc_error hrun) trivial)
        | ok did d' =>
          obtain ⟨hd', htree⟩ := hleads.ok (Doc.unit_ok hrun)
          rw [Tree.run, hnorm] at htree
          have hcreated : d'.root.tree V.crates = (w.bound.doc.root.tree V.crates).create path :=
            (Option.some.inj htree).symm
          exact .bind (.of_ok (onDoc_ok hrun) (.modify ⟨⟨⟨hw.ignores, hw.disk, hw.dirty⟩, hd'⟩,
            .created hnone hcreated rfl rfl⟩))

theorem ingestDirectory_lays (path : Str) :
    V.Lays fs s {p | V.HasFile fs s (V.vaultPathToFsPath path) p}
      {p | V.HasDirectory fs s (V.vaultPathToFsPath path) p} (V.ingestDirectory path) :=
  .walk ingestEntry_lays (V.vaultPathToFsPath path)

/-! ### The whole tree -/

variable (V fs) in
/-- The directories of the tree that a scan goes through once more. -/
def Enters (s : SyncIgnoreSet) (e : WalkEntry) (path : Str) : Prop :=
  e.kind = .dir ∧ e.path ≠ V.root ∧ V.fsPathToVaultDirPath s e.path = some path

variable (V fs) in
/-- The files that a scan comes by: those of the tree, and those of its directories. -/
def scannedFiles (s : SyncIgnoreSet) : Set Str :=
  {p | ∃ e ∈ V.walk fs V.root, p ∈ V.fileOf s e ∪
    {p | ∃ path, V.Enters s e path ∧ V.HasFile fs s (V.vaultPathToFsPath path) p}}

variable (V fs) in
def scannedDirectories (s : SyncIgnoreSet) : Set Str :=
  {p | ∃ e ∈ V.walk fs V.root,
    p ∈ {p | ∃ path, V.Enters s e path ∧ V.HasDirectory fs s (V.vaultPathToFsPath path) p}}

theorem scanEntry_lays (e : WalkEntry) :
    V.Lays fs s
      (V.fileOf s e ∪ {p | ∃ path, V.Enters s e path ∧
        V.HasFile fs s (V.vaultPathToFsPath path) p})
      {p | ∃ path, V.Enters s e path ∧ V.HasDirectory fs s (V.vaultPathToFsPath path) p}
      (V.scanEntry e) := by
  have hpasses {Q : Str → Str → Prop} (hno : ∀ path, ¬ V.Enters s e path) :
      {p | ∃ path, V.Enters s e path ∧ Q path p} = ∅ := by
    ext p
    simp [hno]
  unfold scanEntry
  cases hkind : e.kind with
  | file =>
    have hno (path : Str) : ¬ V.Enters s e path := by simp [Enters, hkind]
    rw [hpasses hno, hpasses hno, Set.union_empty]
    exact ingestAllowed_lays hkind
  | other =>
    have hno (path : Str) : ¬ V.Enters s e path := by simp [Enters, hkind]
    have hfile : V.fileOf s e = ∅ := by simp [fileOf, hkind]
    rw [hpasses hno, hpasses hno, hfile, Set.union_empty]
    exact .pure
  | dir =>
    have hfile : V.fileOf s e = ∅ := by simp [fileOf, hkind]
    rw [hfile, Set.empty_union]
    by_cases hroot : e.path = V.root
    · have hno (path : Str) : ¬ V.Enters s e path := by simp [Enters, hroot]
      simp only [if_pos hroot]
      rw [hpasses hno, hpasses hno]
      exact .pure
    · simp only [if_neg hroot]
      intro w hw
      refine .bind (.get ?_)
      rw [hw.ignores]
      cases hpath : V.fsPathToVaultDirPath s e.path with
      | none =>
        have hno (path : Str) : ¬ V.Enters s e path := by simp [Enters, hpath]
        rw [hpasses hno, hpasses hno]
        exact Lays.pure w hw
      | some path =>
        have hone {Q : Str → Str → Prop} :
            {p | ∃ path, V.Enters s e path ∧ Q path p} = {p | Q path p} := by
          ext p
          simp [Enters, hkind, hroot, hpath]
        rw [hone, hone]
        exact ingestDirectory_lays path w hw

/-- **A scan lays the directory over the vault.** Where the disk stays as it is, the watcher has
nothing to report and no call fails, every file that the scan has come by is the entry of its
path and is recorded, every directory is there, and every other path has what it had. -/
theorem scan_overlays (hdisk : ∀ n, (w.ahead n).1 = fs) (hd : w.bound.doc.Orderly V.crates)
    (hdirty : w.bound.dirty = []) (hrun : V.initialScan w = .ok () w') :
    w'.bound.doc.Orderly V.crates ∧
      V.Overlaid fs (V.scannedFiles fs w.ignores) (V.scannedDirectories fs w.ignores)
        w.bound w'.bound := by
  have hw : V.Ordered fs w.ignores w := ⟨⟨rfl, hdisk, List.subset_nil.mpr hdirty⟩, hd⟩
  obtain ⟨hw', h⟩ := (Lays.walk scanEntry_lays V.root w hw).ok hrun
  exact ⟨hw'.orderly, h⟩

/-- A directory with one file, which a new vault is bound to. -/
private def unscanned : Watch Disk :=
  .fresh .localDisk (.new .plain (txt "vault") (.numbered '1' 16))
    (Disk.vaultDir.put [txt "vault", txt "x.md"] (.file (utf8 (txt "a"))))

private theorem fileAt_unscanned (fid : Str) :
    unscanned.bound.doc.root.fileAt Watching.localDisk.crates fid = none :=
  Root.fileAt_of_none (Doc.get_new_file ..)

private theorem orderly_unscanned : unscanned.bound.doc.Orderly Watching.localDisk.crates := by
  refine ⟨(Doc.wellFormed_new ..).readable, fun i j a b hi => ?_,
    Doc.Fresh.new _ (Supply.numbered_injective '1' 16)⟩
  rw [fileAt_unscanned] at hi
  cases hi

private def ended (r : EStateM.Result Error (Watch Disk) Unit) : Bool :=
  match r with
  | .ok _ _ => true
  | .error _ _ => false

theorem scan_overlays_unscanned : ∃ w', Watching.localDisk.initialScan unscanned = .ok () w' ∧
    Watching.localDisk.entryAt w'.bound.doc (txt "x.md") = some ⟨.text, 1, .text (txt "a")⟩ := by
  have hscan : ended (Watching.localDisk.initialScan unscanned) = true := by
    decide +kernel
  have hwalk : (Watching.localDisk.walk unscanned.bound.fs Watching.localDisk.root).any (fun e =>
      e.kind = .file ∧ Watching.localDisk.fsPathToVaultPath unscanned.ignores e.path =
        some (txt "x.md")) = true := by
    decide +kernel
  have hcontent : Watching.localDisk.content unscanned.bound.fs (txt "x.md") =
      some (utf8 (txt "a")) := by
    decide +kernel
  have hentry : Watching.localDisk.entryOf (txt "x.md") (utf8 (txt "a")) =
      ⟨.text, 1, .text (txt "a")⟩ := by
    decide +kernel
  cases hrun : Watching.localDisk.initialScan unscanned with
  | error e w' =>
    rw [hrun] at hscan
    cases hscan
  | ok _ w' =>
    obtain ⟨-, h⟩ := scan_overlays (fun _ => rfl) orderly_unscanned rfl hrun
    obtain ⟨e, he, hfile⟩ := List.any_eq_true.mp hwalk
    have hin := of_decide_eq_true hfile
    have htook := (h.taken (txt "x.md") ⟨e, he, .inl hin⟩ _ hcontent).1
    have hnone : txt "x.md" ∉ unscanned.bound.doc.root.filePaths Watching.localDisk.crates := by
      intro ⟨fid, f, hf, _⟩
      rw [fileAt_unscanned] at hf
      cases hf
    have hnew : Watching.localDisk.entryAt unscanned.bound.doc (txt "x.md") = none := by
      rw [entryAt, Root.tree]
      exact Option.map_eq_none_iff.mpr (Doc.fileOf_none.mpr hnone)
    rw [hnew] at htook
    exact ⟨w', rfl, htook.of_none.trans (congrArg some hentry)⟩

end Watching

end AgentSync
