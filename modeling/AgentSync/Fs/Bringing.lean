import Mathlib.Data.List.Perm.Basic
import AgentSync.Fs.Returning

/-! What a pass makes of a directory when it is left alone.

The loops of `materialize_inner` go through hash maps in no order and await at every file. Where
nothing comes between and no call fails, what they make of a file is a function of what it was, of
the content that the document has for its path, and of what is recorded of it
(`Snapshot.brings`), whatever the order. Of the file system this takes no more than that it is a
map of files, as far as the paths of a vault go (`Setting.MapsFiles`). -/
namespace AgentSync

variable {σ : Type}

/-- What the file at a path has. -/
def Setting.file (V : Setting σ) (fs : σ) (path : Str) : Option Bytes :=
  (V.adapter.read fs (V.vaultPathToFsPath path)).toOption

/-- The adapter keeps a map of files at the paths, in the states that are good. -/
structure Setting.MapsFiles (V : Setting σ) (Good : σ → Prop) (P : Str → Prop) : Prop where
  write : ∀ {fs fs' p bytes}, Good fs → P p →
    V.adapter.write fs (V.vaultPathToFsPath p) bytes = (fs', .ok ()) →
    Good fs' ∧ ∀ q, P q → V.file fs' q = if q = p then some bytes else V.file fs q
  delete : ∀ {fs fs' p}, Good fs → P p →
    V.adapter.delete fs (V.vaultPathToFsPath p) = (fs', .ok ()) →
    Good fs' ∧ ∀ q, P q → V.file fs' q = if q = p then none else V.file fs q
  createDirAll : ∀ {fs fs' p r}, Good fs →
    V.adapter.createDirAll fs (V.vaultPathToFsPath p) = (fs', r) →
    Good fs' ∧ ∀ q, P q → V.file fs' q = V.file fs q
  removeDir : ∀ {fs fs' p r}, Good fs →
    V.adapter.removeDir fs (V.vaultPathToFsPath p) = (fs', r) →
    Good fs' ∧ ∀ q, P q → V.file fs' q = V.file fs q

/-! ### What a pass is for -/

namespace Snapshot

variable (V : Setting σ) (b : Bound σ) (s : Snapshot) (path : Str)

/-- What the disk has may go. -/
def safe (disk : Bytes) : Bool :=
  isSafeToOverwrite (V.crates.sha.hash disk) (s.existing.lookup path) (s.lastIngested.lookup path)

/-- The content that is to be at a path, with its hash; none where it is recorded already. -/
def due : Option (Bytes × Str) :=
  match s.live.lookup path with
  | none => none
  | some m =>
    match Pass.target V b m with
    | .ok (some (bytes, hash)) =>
      if s.existing.lookup path = some hash then none else some (bytes, hash)
    | _ => none

/-- **What becomes of the file at a path**, if it is left alone. -/
def brings (old : Option Bytes) : Option Bytes :=
  if path ∈ s.live then
    match s.due V b path with
    | some (bytes, hash) =>
      if old.all fun disk => V.crates.sha.hash disk ≠ hash && s.safe V path disk then some bytes
      else old
    | none => old
  else if path ∈ s.existing ∧ old.all (s.safe V path) then none
  else old

/-- What is recorded of it in the end. -/
def records (old : Option Bytes) : Option Str :=
  if path ∈ s.live then
    match s.due V b path with
    | some (_, hash) =>
      if old.all fun disk => V.crates.sha.hash disk = hash || s.safe V path disk then some hash
      else s.existing.lookup path
    | none => s.existing.lookup path
  else none

variable {V b s path} {old : Option Bytes} {hash : Str} {bytes : Bytes}

/-- What is to be written at a path. -/
theorem due_eq {m : FileMeta} (hm : s.live.lookup path = some m)
    (htarget : Pass.target V b m = .ok (some (bytes, hash)))
    (hsame : s.existing.lookup path ≠ some hash) : s.due V b path = some (bytes, hash) := by
  simp only [due, hm, htarget, if_neg hsame]

theorem brings_of_undue (hlive : path ∈ s.live) (hdue : s.due V b path = none) :
    s.brings V b path old = old ∧ s.records V b path old = s.existing.lookup path := by
  simp only [brings, records, if_pos hlive, hdue, and_self]

/-- What is there is neither the content that is due nor safe. -/
theorem brings_of_kept (hlive : path ∈ s.live) (hdue : s.due V b path = some (bytes, hash))
    (hkept : (old.all fun disk => V.crates.sha.hash disk = hash || s.safe V path disk) = false) :
    s.brings V b path old = old ∧ s.records V b path old = s.existing.lookup path := by
  simp only [brings, records, if_pos hlive, hdue, hkept, Bool.false_eq_true, if_false, and_true]
  refine if_neg fun hall => ?_
  cases old with
  | none => cases hkept
  | some disk =>
    simp only [Option.all_some, Bool.or_eq_false_iff] at hkept
    simp only [Option.all_some, hkept.2, Bool.and_false] at hall
    cases hall

end Snapshot

namespace Pass

/-- The step is not a call that fails. -/
def succeeds (V : Setting σ) (x : Bound σ × Pass) : Bool :=
  match x.2 with
  | .deleting _ _ path => canDelete V x.1 path
  | .writing _ _ path bytes _ => canWrite V x.1 path bytes
  | _ => true

/-- The path whose file the step deletes or writes. -/
def Calls : Pass → Str → Prop
  | .deleting _ _ q, p | .writing _ _ q _ _, p => p = q
  | _, _ => False

/-- What a step that succeeds leaves of the file at a path. -/
def leaves : Pass → Str → Option Bytes → Option Bytes
  | .deleting _ _ q, p, old => if p = q then none else old
  | .writing _ _ q bytes _, p, old => if p = q then some bytes else old
  | _, _, old => old

/-- What it leaves of `last_ingested`. -/
def retains : Pass → Hashes → Hashes
  | .pruned s, m => m.retain fun p => p ∈ s.live
  | _, m => m

/-- What a step makes of all but the place and `materialized`. -/
structure Left (V : Setting σ) (Good : σ → Prop) (P : Str → Prop) (i : Pass) (b b' : Bound σ) :
    Prop where
  doc : b'.doc = b.doc
  storage : b'.storage = b.storage
  lastIngested : b'.lastIngested = i.retains b.lastIngested
  good : Good b'.fs
  file : ∀ p, P p → V.file b'.fs p = i.leaves p (V.file b.fs p)

section

variable {V : Setting σ} {Good : σ → Prop} {P : Str → Prop} {i i' : Pass} {b b' : Bound σ}
  {pick : Nat} {path : Str}

theorem Left.same (hgood : Good b.fs) (hdoc : b'.doc = b.doc) (hstorage : b'.storage = b.storage)
    (hfs : b'.fs = b.fs) (hL : b'.lastIngested = i.retains b.lastIngested)
    (hleaves : ∀ p old, i.leaves p old = old) : Left V Good P i b b' :=
  ⟨hdoc, hstorage, hL, hfs ▸ hgood, fun p _ => by rw [hleaves, hfs]⟩

theorem left_createDir (hV : V.MapsFiles Good P) (hgood : Good b.fs) {l : Listing}
    {dirs : List Str} : Left V Good P (.creating l dirs) b (createDir V b path) := by
  unfold createDir
  split <;> next hcreate =>
    obtain ⟨hgood', hfile⟩ := hV.createDirAll hgood hcreate
    exact ⟨rfl, rfl, rfl, hgood', hfile⟩

theorem left_removeDir (hV : V.MapsFiles Good P) (hgood : Good b.fs) {s : Snapshot}
    {dirs : List Str} : Left V Good P (.removing s dirs) b (removeDir V b path) := by
  unfold removeDir
  split <;> next hremove =>
    obtain ⟨hgood', hfile⟩ := hV.removeDir hgood hremove
    exact ⟨rfl, rfl, rfl, hgood', hfile⟩

/-- **What every step leaves.** -/
theorem left_of_step (hV : V.MapsFiles Good P) (hgood : Good b.fs) (hP : ∀ q, i.Calls q → P q)
    (hsucceeds : succeeds V (b, i) = true) (h : step V b pick i = some (b', i')) :
    Left V Good P i b b' := by
  cases moves_of_step h with
  | creating l path rest => exact left_createDir hV hgood
  | removed => exact left_removeDir hV hgood
  | deleted hdeletes =>
    obtain ⟨hgood', hfile⟩ := hV.delete hgood (hP _ rfl) (delete_of_canDelete hdeletes)
    exact ⟨rfl, rfl, rfl, hgood', hfile⟩
  | written hwrites =>
    obtain ⟨hgood', hfile⟩ := hV.write hgood (hP _ rfl) (write_of_canWrite hwrites)
    exact ⟨rfl, rfl, rfl, hgood', hfile⟩
  | undeleted hdeletes =>
    simp only [succeeds, hdeletes] at hsucceeds
    cases hsucceeds
  | unwritten hwrites =>
    simp only [succeeds, hwrites] at hsucceeds
    cases hsucceeds
  | _ => exact .same hgood rfl rfl rfl rfl fun _ _ => rfl

end

/-! ### A path while the pass is at work -/

/-- A path, what the pass goes by, and the state it began in. -/
structure Fate (σ : Type) where
  start : Bound σ
  snap : Snapshot
  path : Str

namespace Fate

variable (V : Setting σ) (x : Fate σ)

/-- What the file had when the pass began. -/
def old : Option Bytes := V.file x.start.fs x.path

def outcome : Option Bytes := x.snap.brings V x.start x.path (x.old V)

def record : Option Str := x.snap.records V x.start x.path (x.old V)

/-- Nothing has been done yet. -/
def Early (b : Bound σ) : Prop :=
  V.file b.fs x.path = x.old V ∧ b.materialized = x.snap.existing ∧
    b.lastIngested = x.snap.lastIngested

/-- The turn of the path is to come. -/
def Coming (b : Bound σ) : Prop :=
  V.file b.fs x.path = x.old V ∧ (x.path ∈ x.snap.live →
    b.materialized.lookup x.path = x.snap.existing.lookup x.path ∧
      b.lastIngested.lookup x.path = x.snap.lastIngested.lookup x.path)

/-- Its turn has been. -/
def Come (b : Bound σ) : Prop :=
  V.file b.fs x.path = x.outcome V ∧ (x.path ∈ x.snap.live →
    b.materialized.lookup x.path = x.record V ∧
      b.lastIngested.lookup x.path = x.snap.lastIngested.lookup x.path)

def Turns (b : Bound σ) (ahead : Prop) : Prop :=
  (ahead → x.Coming V b) ∧ (¬ ahead → x.Come V b)

/-- What the loops and the records have made of the path so far. -/
def Stands (b : Bound σ) : Pass → Prop
  | .listing => list V b = .ok x.snap.toListing ∧ x.Early V b
  | .ordering l | .creating l _ | .cloning l => l = x.snap.toListing ∧ x.Early V b
  | .cloned l existing => l = x.snap.toListing ∧ existing = x.snap.existing ∧ x.Early V b
  | .deletes s todo | .deleted s todo _ => s = x.snap ∧ (todo.Nodup ∧ ∀ q ∈ todo, q ∈ s.existing) ∧
      x.Turns V b (x.path ∈ todo ∨ x.path ∈ s.live)
  | .deleting s todo q => s = x.snap ∧
      ((q :: todo).Nodup ∧ ∀ r ∈ q :: todo, r ∈ s.existing) ∧ q ∉ s.live ∧
      x.Turns V b (x.path ∈ q :: todo ∨ x.path ∈ s.live) ∧ (x.path = q → x.outcome V = none)
  | .writes s todo => s = x.snap ∧ (todo.Nodup ∧ ∀ q ∈ todo, q ∈ s.live) ∧
      x.Turns V b (x.path ∈ todo)
  | .reading s todo q bytes hash => s = x.snap ∧
      ((q :: todo).Nodup ∧ ∀ r ∈ q :: todo, r ∈ s.live) ∧ x.Turns V b (x.path ∈ q :: todo) ∧
      s.due V x.start q = some (bytes, hash)
  | .matched s todo q hash => s = x.snap ∧
      ((q :: todo).Nodup ∧ ∀ r ∈ q :: todo, r ∈ s.live) ∧ x.Turns V b (x.path ∈ q :: todo) ∧
      (x.path = q → x.outcome V = x.old V ∧ x.record V = some hash)
  | .marking s todo q bytes hash | .writing s todo q bytes hash => s = x.snap ∧
      ((q :: todo).Nodup ∧ ∀ r ∈ q :: todo, r ∈ s.live) ∧ x.Turns V b (x.path ∈ q :: todo) ∧
      (x.path = q → x.outcome V = some bytes ∧ x.record V = some hash)
  | .written s todo q _ hash => s = x.snap ∧
      ((q :: todo).Nodup ∧ ∀ r ∈ q :: todo, r ∈ s.live) ∧
      (x.path ≠ q → x.Turns V b (x.path ∈ todo)) ∧
      (x.path = q → V.file b.fs x.path = x.outcome V ∧ x.record V = some hash ∧
        b.lastIngested.lookup x.path = x.snap.lastIngested.lookup x.path)
  | .pruning s => s = x.snap ∧ x.Come V b
  | .pruned s => s = x.snap ∧ V.file b.fs x.path = x.outcome V ∧
      b.materialized.lookup x.path = x.record V ∧
      (x.path ∈ s.live → b.lastIngested.lookup x.path = s.lastIngested.lookup x.path)
  | .sweeping _ | .removing _ _ | .done (.ok _) => V.file b.fs x.path = x.outcome V ∧
      b.materialized.lookup x.path = x.record V ∧
      b.lastIngested.lookup x.path =
        if x.path ∈ x.snap.live then x.snap.lastIngested.lookup x.path else none
  | .done (.error _) => True

variable {V x} {b b' : Bound σ} {i i' : Pass} {todo : List Str} {q hash : Str} {bytes : Bytes}

/-! ### Its turn -/

theorem uncommitted_eq (hpath : x.path = q) (hfile : V.file b.fs x.path = x.old V) :
    uncommitted V b x.snap q = !(x.old V).all (x.snap.safe V x.path) := by
  subst hpath
  rw [← hfile, Setting.file, uncommitted]
  cases V.adapter.read b.fs (V.vaultPathToFsPath x.path) <;> simp [Except.toOption, Snapshot.safe]

theorem onDisk_eq (hpath : x.path = q) (hfile : V.file b.fs x.path = x.old V) :
    onDisk V b q hash = (x.old V).any fun disk => V.crates.sha.hash disk = hash := by
  subst hpath
  rw [← hfile, Setting.file, onDisk]
  cases V.adapter.read b.fs (V.vaultPathToFsPath x.path) <;> simp [Except.toOption]

theorem taken {pick : Nat} (h : todo[pick]? = some q) : (q :: todo.eraseIdx pick).Perm todo := by
  obtain ⟨hlt, rfl⟩ := List.getElem?_eq_some_iff.mp h
  exact List.getElem_cons_eraseIdx_perm hlt

/-- Another path's turn. -/
theorem Turns.congr {ahead ahead' : Prop} (h : x.Turns V b ahead) (hiff : ahead ↔ ahead')
    (hfile : V.file b'.fs x.path = V.file b.fs x.path)
    (hM : b'.materialized.lookup x.path = b.materialized.lookup x.path)
    (hL : b'.lastIngested = b.lastIngested) : x.Turns V b' ahead' := by
  unfold Turns Coming Come at h ⊢
  rwa [← hiff, hfile, hM, hL]

/-- A turn that leaves the file as it is. -/
theorem Turns.kept {ahead ahead' : Prop} (q : Str) (h : x.Turns V b ahead)
    (hself : x.path = q → ahead ∧ ¬ ahead' ∧ x.outcome V = x.old V ∧
      (x.path ∈ x.snap.live → x.record V = x.snap.existing.lookup x.path))
    (hother : x.path ≠ q → (ahead ↔ ahead')) : x.Turns V b ahead' := by
  by_cases heq : x.path = q
  · obtain ⟨hahead, hnot, houtcome, hrecord⟩ := hself heq
    obtain ⟨hfile, hrecords⟩ := h.1 hahead
    refine ⟨fun hahead' => absurd hahead' hnot, fun _ => ⟨houtcome ▸ hfile, fun hlive => ?_⟩⟩
    rw [hrecord hlive]
    exact hrecords hlive
  · exact h.congr (hother heq) rfl rfl rfl

theorem outcome_undue (hdue : x.snap.due V x.start x.path = none) (hlive : x.path ∈ x.snap.live) :
    x.outcome V = x.old V ∧ x.record V = x.snap.existing.lookup x.path :=
  Snapshot.brings_of_undue hlive hdue

section

variable (hpath : x.path = q) (hlive : q ∈ x.snap.live)
  (hdue : x.snap.due V x.start q = some (bytes, hash))
include hpath hlive hdue

/-- The disk has the content already. -/
theorem outcome_matched
    (h : ((x.old V).any fun disk => V.crates.sha.hash disk = hash) = true) :
    x.outcome V = x.old V ∧ x.record V = some hash := by
  subst hpath
  obtain ⟨disk, hold, heq⟩ := (Option.any_eq_true _ _).mp h
  simp only [outcome, record, Snapshot.brings, Snapshot.records, if_pos hlive, hdue, hold,
    Option.all_some, of_decide_eq_true heq]
  simp

/-- The disk has something that may not go. -/
theorem outcome_kept
    (h : ((x.old V).any fun disk => V.crates.sha.hash disk = hash) = false)
    (hkept : (x.old V).all (x.snap.safe V x.path) = false) :
    x.outcome V = x.old V ∧ x.record V = x.snap.existing.lookup x.path := by
  subst hpath
  refine Snapshot.brings_of_kept hlive hdue ?_
  cases hold : x.old V with
  | none => simp [hold] at hkept
  | some disk =>
    simp only [hold, Option.any_some, Option.all_some] at h hkept
    simp only [Option.all_some, h, hkept, Bool.or_self]

/-- The content is written. -/
theorem outcome_written
    (h : ((x.old V).any fun disk => V.crates.sha.hash disk = hash) = false)
    (hkept : (x.old V).all (x.snap.safe V x.path) = true) :
    x.outcome V = some bytes ∧ x.record V = some hash := by
  subst hpath
  simp only [outcome, record, Snapshot.brings, Snapshot.records, if_pos hlive, hdue]
  cases hold : x.old V with
  | none => simp
  | some disk =>
    simp only [hold, Option.any_some, decide_eq_false_iff_not, Option.all_some] at h hkept
    simp [h, hkept]

end

/-! ### The steps -/

variable {Good : σ → Prop} {P : Str → Prop} {pick : Nat}

theorem Early.congr (h : x.Early V b) (hfile : V.file b'.fs x.path = V.file b.fs x.path)
    (hM : b'.materialized = b.materialized) (hL : b'.lastIngested = b.lastIngested) :
    x.Early V b' := ⟨hfile.trans h.1, hM.trans h.2.1, hL.trans h.2.2⟩

/-- The loop over what is live comes by a path where nothing is due. -/
theorem stands_skip {s : Snapshot} (hx : x.Stands V b (.writes s todo))
    (hpath : todo[pick]? = some q) (hlive : q ∈ s.live) (hdue : s.due V x.start q = none) :
    x.Stands V b (.writes s (todo.eraseIdx pick)) := by
  obtain ⟨rfl, ⟨hnodup, hin⟩, hturns⟩ := hx
  have hperm := taken hpath
  refine ⟨rfl, ⟨hnodup.eraseIdx _, fun r hr => hin r (List.mem_of_mem_eraseIdx hr)⟩,
    hturns.kept q (fun heq => ?_) fun hne => by
      rw [← hperm.mem_iff, List.mem_cons, or_iff_right hne]⟩
  obtain ⟨houtcome, hrecord⟩ := outcome_undue (heq ▸ hdue) (heq ▸ hlive)
  exact ⟨heq ▸ List.mem_of_getElem? hpath, heq ▸ not_mem_eraseIdx hnodup hpath, houtcome,
    fun _ => hrecord⟩

/-- A path is recorded, with the content that is at it. -/
theorem stands_record (hloop : (q :: todo).Nodup ∧ ∀ r ∈ q :: todo, r ∈ x.snap.live)
    (hturns : x.path ≠ q → x.Turns V b' (x.path ∈ todo))
    (hself : x.path = q → V.file b'.fs x.path = x.outcome V ∧ x.record V = some hash ∧
      b'.lastIngested.lookup x.path = x.snap.lastIngested.lookup x.path)
    (hM : b'.materialized = b.materialized.insert q hash) :
    x.Stands V b' (.writes x.snap todo) := by
  obtain ⟨hq, hnodup⟩ := List.nodup_cons.mp hloop.1
  refine ⟨rfl, ⟨hnodup, fun r hr => hloop.2 r (.tail _ hr)⟩, ?_⟩
  by_cases heq : x.path = q
  · obtain ⟨houtcome, hrecord, hrest⟩ := hself heq
    refine ⟨fun hahead => absurd (heq ▸ hahead) hq, fun _ => ⟨houtcome, fun _ => ⟨?_, hrest⟩⟩⟩
    rw [hM, heq, AList.lookup_insert, hrecord]
  · exact hturns heq

/-- The copies are made, and the turns begin. -/
theorem stands_cloned {l : Listing} {existing : Hashes} (hx : x.Stands V b (.cloned l existing)) :
    x.Stands V b (.deletes ⟨l, existing, b.lastIngested⟩ existing.keys) := by
  obtain ⟨rfl, rfl, hearly⟩ := hx
  refine ⟨by rw [hearly.2.2], ⟨AList.keys_nodup _, fun q hq => AList.mem_keys.mp hq⟩, fun _ => ?_,
    fun hnot => ?_⟩
  · exact ⟨hearly.1, fun _ => by rw [hearly.2.1, hearly.2.2]; exact ⟨rfl, rfl⟩⟩
  · obtain ⟨hexisting, hlive⟩ := not_or.mp hnot
    refine ⟨hearly.1.trans ?_, fun hin => absurd hin hlive⟩
    rw [outcome, Snapshot.brings, if_neg hlive,
      if_neg fun hin => hexisting (AList.mem_keys.mpr hin.1)]

section Deletes

variable {s : Snapshot}

/-- The loop over what is materialized comes by a path that is live. -/
theorem stands_live (hx : x.Stands V b (.deletes s todo)) (hpath : todo[pick]? = some q)
    (hlive : q ∈ s.live) : x.Stands V b (.deletes s (todo.eraseIdx pick)) := by
  obtain ⟨rfl, ⟨hnodup, hin⟩, hturns⟩ := hx
  have hperm := taken hpath
  refine ⟨rfl, ⟨hnodup.eraseIdx _, fun q hq => hin q (List.mem_of_mem_eraseIdx hq)⟩, ?_⟩
  refine hturns.congr ?_ rfl rfl rfl
  rw [← hperm.mem_iff, List.mem_cons]
  grind

/-- It leaves a file with local edits. -/
theorem stands_kept (hx : x.Stands V b (.deletes s todo)) (hpath : todo[pick]? = some q)
    (hlive : q ∉ s.live) (hkept : uncommitted V b s q = true) :
    x.Stands V b (.deletes s (todo.eraseIdx pick)) := by
  obtain ⟨rfl, ⟨hnodup, hin⟩, hturns⟩ := hx
  have hperm := taken hpath
  refine ⟨rfl, ⟨hnodup.eraseIdx _, fun r hr => hin r (List.mem_of_mem_eraseIdx hr)⟩,
    hturns.kept q (fun heq => ?_) fun hne => ?_⟩
  · have hahead : x.path ∈ todo ∨ x.path ∈ x.snap.live := .inl (heq ▸ List.mem_of_getElem? hpath)
    rw [uncommitted_eq heq (hturns.1 hahead).1, Bool.not_eq_true'] at hkept
    refine ⟨hahead, ?_, ?_, fun hin => absurd (heq ▸ hin) hlive⟩
    · exact heq ▸ not_or.mpr ⟨not_mem_eraseIdx hnodup hpath, hlive⟩
    · rw [outcome, Snapshot.brings, if_neg (heq ▸ hlive), if_neg fun hall => ?_]
      rw [hall.2] at hkept
      cases hkept
  · rw [← hperm.mem_iff, List.mem_cons, or_iff_right hne]

/-- It is about to delete a file. -/
theorem stands_deleting (hx : x.Stands V b (.deletes s todo)) (hpath : todo[pick]? = some q)
    (hlive : q ∉ s.live) (hkept : uncommitted V b s q = false) :
    x.Stands V b (.deleting s (todo.eraseIdx pick) q) := by
  obtain ⟨rfl, ⟨hnodup, hin⟩, hturns⟩ := hx
  have hperm := taken hpath
  refine ⟨rfl, ⟨hperm.nodup_iff.mpr hnodup, fun r hr => hin r (hperm.mem_iff.mp hr)⟩, hlive,
    hturns.congr (by rw [hperm.mem_iff]) rfl rfl rfl, fun heq => ?_⟩
  have hmem := List.mem_of_getElem? hpath
  rw [uncommitted_eq heq (hturns.1 (.inl (heq ▸ hmem))).1, Bool.not_eq_false'] at hkept
  rw [outcome, Snapshot.brings, if_neg (heq ▸ hlive), if_pos ⟨heq ▸ hin _ hmem, hkept⟩]

/-- It has deleted one. -/
theorem stands_deleted (hx : x.Stands V b (.deleting s todo q))
    (hfile : V.file b'.fs x.path = (deleting s todo q).leaves x.path (V.file b.fs x.path))
    (hM : b'.materialized = b.materialized) (hL : b'.lastIngested = b.lastIngested) :
    x.Stands V b' (.deleted s todo q) := by
  obtain ⟨rfl, ⟨hnodup, hin⟩, hlive, hturns, houtcome⟩ := hx
  obtain ⟨hq, hnodup'⟩ := List.nodup_cons.mp hnodup
  refine ⟨rfl, ⟨hnodup', fun r hr => hin r (.tail _ hr)⟩, ?_⟩
  by_cases heq : x.path = q
  · refine ⟨fun hahead => ?_, fun _ => ⟨?_, fun hin => absurd (heq ▸ hin) hlive⟩⟩
    · exact absurd (heq ▸ hahead) (not_or.mpr ⟨hq, hlive⟩)
    · rw [hfile, leaves, if_pos heq, houtcome heq]
  · refine hturns.congr ?_ (hfile.trans (if_neg heq)) (by rw [hM]) hL
    rw [List.mem_cons, or_iff_right heq]

end Deletes

section Writes

variable {s : Snapshot}

/-- The write of a path is left, as the file has local edits. -/
theorem stands_left (hx : x.Stands V b (.reading s todo q bytes hash))
    (hdisk : onDisk V b q hash = false) (hkept : uncommitted V b s q = true) :
    x.Stands V b (.writes s todo) := by
  obtain ⟨rfl, hloop, hturns, hdue⟩ := hx
  obtain ⟨hq, hnodup⟩ := List.nodup_cons.mp hloop.1
  refine ⟨rfl, ⟨hnodup, fun r hr => hloop.2 r (.tail _ hr)⟩, hturns.kept q (fun heq => ?_)
    fun hne => by rw [List.mem_cons, or_iff_right hne]⟩
  have hahead : x.path ∈ q :: todo := by rw [heq]; exact .head _
  have hfile := (hturns.1 hahead).1
  rw [onDisk_eq heq hfile] at hdisk
  rw [uncommitted_eq heq hfile, Bool.not_eq_true'] at hkept
  obtain ⟨houtcome, hrecord⟩ := outcome_kept heq (hloop.2 _ (.head _)) hdue hdisk hkept
  exact ⟨hahead, heq ▸ hq, houtcome, fun _ => hrecord⟩

theorem stands_matched (hx : x.Stands V b (.reading s todo q bytes hash))
    (hdisk : onDisk V b q hash = true) : x.Stands V b (.matched s todo q hash) := by
  obtain ⟨rfl, hloop, hturns, hdue⟩ := hx
  refine ⟨rfl, hloop, hturns, fun heq => ?_⟩
  rw [onDisk_eq heq (hturns.1 (heq ▸ .head _)).1] at hdisk
  exact outcome_matched heq (hloop.2 _ (.head _)) hdue hdisk

theorem stands_marking (hx : x.Stands V b (.reading s todo q bytes hash))
    (hdisk : onDisk V b q hash = false) (hkept : uncommitted V b s q = false) :
    x.Stands V b (.marking s todo q bytes hash) := by
  obtain ⟨rfl, hloop, hturns, hdue⟩ := hx
  refine ⟨rfl, hloop, hturns, fun heq => ?_⟩
  have hfile := (hturns.1 (heq ▸ .head _)).1
  rw [onDisk_eq heq hfile] at hdisk
  rw [uncommitted_eq heq hfile, Bool.not_eq_false'] at hkept
  exact outcome_written heq (hloop.2 _ (.head _)) hdue hdisk hkept

/-- The content that was found is recorded. -/
theorem stands_recorded (hx : x.Stands V b (.matched s todo q hash))
    (hfile : V.file b'.fs x.path = V.file b.fs x.path)
    (hM : b'.materialized = b.materialized.insert q hash)
    (hL : b'.lastIngested = b.lastIngested) : x.Stands V b' (.writes s todo) := by
  obtain ⟨rfl, hloop, hturns, hself⟩ := hx
  refine stands_record hloop (fun hne => ?_) (fun heq => ?_) hM
  · exact hturns.congr (by rw [List.mem_cons, or_iff_right hne]) hfile
      (by rw [hM, AList.lookup_insert_ne hne]) hL
  · obtain ⟨houtcome, hrecord⟩ := hself heq
    obtain ⟨hold, hrest⟩ := hturns.1 (heq ▸ List.mem_cons_self)
    refine ⟨(hfile.trans hold).trans houtcome.symm, hrecord, ?_⟩
    rw [hL]
    exact (hrest (heq ▸ hloop.2 q (.head _))).2

theorem stands_written (hx : x.Stands V b (.writing s todo q bytes hash))
    (hfile : V.file b'.fs x.path =
      (writing s todo q bytes hash).leaves x.path (V.file b.fs x.path))
    (hM : b'.materialized = b.materialized) (hL : b'.lastIngested = b.lastIngested) :
    x.Stands V b' (.written s todo q bytes hash) := by
  obtain ⟨rfl, hloop, hturns, hself⟩ := hx
  refine ⟨rfl, hloop, fun hne => ?_, fun heq => ?_⟩
  · exact hturns.congr (by rw [List.mem_cons, or_iff_right hne]) (hfile.trans (if_neg hne))
      (by rw [hM]) hL
  · obtain ⟨houtcome, hrecord⟩ := hself heq
    obtain ⟨-, hrest⟩ := hturns.1 (heq ▸ List.mem_cons_self)
    refine ⟨(hfile.trans (if_pos heq)).trans houtcome.symm, hrecord, ?_⟩
    rw [hL]
    exact (hrest (heq ▸ hloop.2 q (.head _))).2

theorem stands_rewritten (hx : x.Stands V b (.written s todo q bytes hash))
    (hfile : V.file b'.fs x.path = V.file b.fs x.path)
    (hM : b'.materialized = b.materialized.insert q hash)
    (hL : b'.lastIngested = b.lastIngested) : x.Stands V b' (.writes s todo) := by
  obtain ⟨rfl, hloop, hturns, hself⟩ := hx
  refine stands_record hloop (fun hne => ?_) (fun heq => ?_) hM
  · exact (hturns hne).congr Iff.rfl hfile (by rw [hM, AList.lookup_insert_ne hne]) hL
  · obtain ⟨houtcome, hrecord, hrest⟩ := hself heq
    exact ⟨hfile.trans houtcome, hrecord, by rw [hL]; exact hrest⟩

end Writes

section Prunes

variable {s : Snapshot}

theorem stands_pruned (hx : x.Stands V b (.pruning s))
    (hfile : V.file b'.fs x.path = V.file b.fs x.path)
    (hM : b'.materialized = Hashes.retain b.materialized fun p => p ∈ s.live)
    (hL : b'.lastIngested = b.lastIngested) : x.Stands V b' (.pruned s) := by
  obtain ⟨rfl, hout, hrest⟩ := hx
  refine ⟨rfl, hfile.trans hout, ?_, fun hlive => by rw [hL]; exact (hrest hlive).2⟩
  rw [hM, Hashes.lookup_retain]
  by_cases hlive : x.path ∈ x.snap.live
  · rw [if_pos (decide_eq_true hlive), (hrest hlive).1]
  · rw [if_neg (by simpa using hlive), record, Snapshot.records, if_neg hlive]

theorem stands_sweeping (hx : x.Stands V b (.pruned s))
    (hfile : V.file b'.fs x.path = V.file b.fs x.path)
    (hM : b'.materialized = b.materialized)
    (hL : b'.lastIngested = Hashes.retain b.lastIngested fun p => p ∈ s.live) :
    x.Stands V b' (.sweeping s) := by
  obtain ⟨rfl, hout, hrecord, hrest⟩ := hx
  refine ⟨hfile.trans hout, by rw [hM]; exact hrecord, ?_⟩
  rw [hL, Hashes.lookup_retain]
  by_cases hlive : x.path ∈ x.snap.live
  · rw [if_pos (decide_eq_true hlive), if_pos hlive, hrest hlive]
  · rw [if_neg (by simpa using hlive), if_neg hlive]

end Prunes

theorem stands_step (hP : P x.path) (hleft : Left V Good P i b b')
    (hdoc : b.doc = x.start.doc) (hstorage : b.storage = x.start.storage)
    (hsucceeds : succeeds V (b, i) = true) (hx : x.Stands V b i)
    (h : Moves V b pick i b' i') : x.Stands V b' i' := by
  have hfile := hleft.file x.path hP
  have htarget (m : FileMeta) : target V b m = target V x.start m := by
    rw [target, target, hdoc, hstorage]
  cases h with
  | listed hlist => exact ⟨Except.ok.inj (hlist.symm.trans hx.1), hx.2⟩
  | unlisted | failed => trivial
  | ordered | created | removing | done => exact hx
  | creating l path rest =>
    exact ⟨hx.1, hx.2.congr hfile createDir_materialized hleft.lastIngested⟩
  | cloning l => exact ⟨hx.1, hx.2.2.1, hx.2⟩
  | cloned l existing => exact stands_cloned hx
  | deletesEnd s =>
    obtain ⟨rfl, -, hturns⟩ := hx
    refine ⟨rfl, ⟨AList.keys_nodup _, fun q hq => AList.mem_keys.mp hq⟩, ?_⟩
    exact hturns.congr (by simp [AList.mem_keys]) rfl rfl rfl
  | live hpath hlive => exact stands_live hx hpath hlive
  | kept hpath hlive hkept => exact stands_kept hx hpath hlive hkept
  | deleting hpath hlive hkept => exact stands_deleting hx hpath hlive hkept
  | deleted hdeletes => exact stands_deleted hx hfile rfl rfl
  | undeleted hdeletes =>
    simp only [succeeds, hdeletes] at hsucceeds
    cases hsucceeds
  | unmarked s todo path => exact ⟨hx.1, hx.2.1, hx.2.2.congr Iff.rfl hfile rfl rfl⟩
  | writesEnd s =>
    obtain ⟨rfl, -, hturns⟩ := hx
    exact ⟨rfl, hturns.2 (List.not_mem_nil)⟩
  | nothing hpath hm hnone =>
    refine stands_skip hx hpath (AList.lookup_isSome.mp (by rw [hm]; rfl)) ?_
    obtain ⟨rfl, -⟩ := hx
    simp only [Snapshot.due, hm, (htarget _).symm.trans hnone]
  | same hpath hm hdue hsame =>
    refine stands_skip hx hpath (AList.lookup_isSome.mp (by rw [hm]; rfl)) ?_
    obtain ⟨rfl, -⟩ := hx
    simp only [Snapshot.due, hm, (htarget _).symm.trans hdue, if_pos hsame]
  | reading hpath hm hdue hsame =>
    obtain ⟨rfl, ⟨hnodup, hin⟩, hturns⟩ := hx
    have hperm := taken hpath
    refine ⟨rfl, ⟨hperm.nodup_iff.mpr hnodup, fun r hr => hin r (hperm.mem_iff.mp hr)⟩,
      hturns.congr (by rw [hperm.mem_iff]) rfl rfl rfl, ?_⟩
    exact Snapshot.due_eq hm ((htarget _).symm.trans hdue) hsame
  | matched hdisk => exact stands_matched hx hdisk
  | left hdisk hkept => exact stands_left hx hdisk hkept
  | marking hdisk hkept => exact stands_marking hx hdisk hkept
  | recorded s todo path hash => exact stands_recorded hx hfile rfl rfl
  | writing s todo path bytes hash =>
    exact ⟨hx.1, hx.2.1, hx.2.2.1.congr Iff.rfl hfile rfl rfl, hx.2.2.2⟩
  | written hwrites => exact stands_written hx hfile rfl rfl
  | unwritten hwrites =>
    simp only [succeeds, hwrites] at hsucceeds
    cases hsucceeds
  | rewritten s todo path bytes hash => exact stands_rewritten hx hfile rfl rfl
  | pruned s => exact stands_pruned hx hfile rfl rfl
  | sweeping s => exact stands_sweeping hx hfile rfl rfl
  | removed hpath hdeepest =>
    obtain ⟨hf, hm, hl⟩ := hx
    refine ⟨hfile.trans hf, by rw [removeDir_materialized]; exact hm, ?_⟩
    rw [show (removeDir V b _).lastIngested = b.lastIngested from hleft.lastIngested]
    exact hl

/-- Files are deleted and written at the paths of the listing and of the records. -/
theorem Stands.of_calls (hx : x.Stands V b i) (hcalls : i.Calls q) :
    q ∈ x.snap.live ∨ q ∈ x.snap.existing := by
  cases i with
  | deleting s todo path =>
    obtain rfl : q = path := hcalls
    obtain ⟨rfl, ⟨-, hin⟩, -⟩ := hx
    exact .inr (hin q (.head _))
  | writing s todo path bytes hash =>
    obtain rfl : q = path := hcalls
    obtain ⟨rfl, ⟨-, hin⟩, -⟩ := hx
    exact .inl (hin q (.head _))
  | _ => exact hcalls.elim

/-- Once the records are pruned, what is recorded is live. -/
def Pruned (x : Fate σ) (b : Bound σ) : Pass → Prop
  | .pruned _ | .sweeping _ | .removing _ _ | .done (.ok _) => ∀ q ∈ b.materialized, q ∈ x.snap.live
  | _ => True

theorem pruned_step (hx : x.Stands V b i) (hpruned : x.Pruned b i)
    (h : Moves V b pick i b' i') : x.Pruned b' i' := by
  cases h with
  | pruned s =>
    obtain ⟨rfl, -⟩ := hx
    intro q hq
    rw [← AList.lookup_isSome, Hashes.lookup_retain] at hq
    split at hq
    next hlive => exact of_decide_eq_true hlive
    next => cases hq
  | sweeping s => exact hpruned
  | removing s => exact hpruned
  | removed => exact fun q hq => hpruned q (removeDir_materialized (V := V) (b := b) ▸ hq)
  | done s => exact hpruned
  | _ => trivial

/-- What a pass has in common with where it began, wherever it is. -/
structure Under (V : Setting σ) (Good : σ → Prop) (x : Fate σ) (y : Bound σ × Pass) : Prop where
  doc : y.1.doc = x.start.doc
  storage : y.1.storage = x.start.storage
  good : Good y.1.fs
  stands : x.Stands V y.1 y.2
  pruned : x.Pruned y.1 y.2

/-- **A path through a pass.** -/
theorem under_of_reach {y : Bound σ × Pass} (hV : V.MapsFiles Good P)
    (hpaths : ∀ q, q ∈ x.snap.live ∨ q ∈ x.snap.existing → P q) (hP : P x.path)
    (hstart : x.Under V Good (x.start, .listing))
    (h : Machine.Reach (undisturbed V) (fun y _ => succeeds V y = true) (x.start, .listing) y) :
    x.Under V Good y := by
  refine h.invariant hstart ?_
  intro y pick y' hy hsucceeds hstep
  have hleft := left_of_step hV hy.good (fun q hq => hpaths q (hy.stands.of_calls hq)) hsucceeds
    hstep
  exact ⟨hleft.doc.trans hy.doc, hleft.storage.trans hy.storage, hleft.good,
    stands_step hP hleft hy.doc hy.storage hsucceeds hy.stands (moves_of_step hstep),
    pruned_step hy.stands hy.pruned (moves_of_step hstep)⟩

end Fate

/-! ### A whole pass -/

/-- What a pass that begins with `b₀` has to decide by. -/
def snapshotAt (l : Listing) (b₀ : Bound σ) : Snapshot := ⟨l, b₀.materialized, b₀.lastIngested⟩

/-- What a pass has made of a path in the end. -/
structure Brings (V : Setting σ) (l : Listing) (b₀ b : Bound σ) (path : Str) : Prop where
  file : V.file b.fs path = (snapshotAt l b₀).brings V b₀ path (V.file b₀.fs path)
  materialized : b.materialized.lookup path = (snapshotAt l b₀).records V b₀ path
    (V.file b₀.fs path)
  lastIngested : b.lastIngested.lookup path =
    if path ∈ l.live then b₀.lastIngested.lookup path else none

/-- A pass from one state to another that nothing comes between and where no call fails. -/
structure Clear (V : Setting σ) (b₀ b : Bound σ) : Prop where
  reach : Machine.Reach (undisturbed V) (fun y _ => succeeds V y = true) (b₀, .listing)
    (b, .done (.ok ()))

section

variable {V : Setting σ} {Good : σ → Prop} {P : Str → Prop} {l : Listing} {b₀ b b' : Bound σ}
  {path : Str}

theorem Clear.under (hV : V.MapsFiles Good P) (hgood : Good b₀.fs) (hlist : list V b₀ = .ok l)
    (hpaths : ∀ q, q ∈ l.live ∨ q ∈ b₀.materialized → P q) (hP : P path) (h : Clear V b₀ b) :
    Fate.Under V Good ⟨b₀, snapshotAt l b₀, path⟩ (b, .done (.ok ())) :=
  Fate.under_of_reach hV hpaths hP ⟨rfl, rfl, hgood, ⟨hlist, rfl, rfl, rfl⟩, trivial⟩ h.reach

/-- **Whatever the order** of its loops, a pass makes the same of a file. -/
theorem Clear.brings (hV : V.MapsFiles Good P) (hgood : Good b₀.fs) (hlist : list V b₀ = .ok l)
    (hpaths : ∀ q, q ∈ l.live ∨ q ∈ b₀.materialized → P q) (hP : P path) (h : Clear V b₀ b) :
    Brings V l b₀ b path := by
  obtain ⟨hfile, hM, hL⟩ := (h.under hV hgood hlist hpaths hP).stands
  exact ⟨hfile, hM, hL⟩

end

end Pass

/-! ### The pass after it -/

namespace Snapshot

variable {V : Setting σ} {b b' : Bound σ} {s s' : Snapshot} {path hash : Str} {bytes : Bytes}
  {old : Option Bytes}

/-- They say the same of a path. -/
structure Alike (s s' : Snapshot) (path : Str) : Prop where
  live : s'.live = s.live
  existing : s'.existing.lookup path = s.existing.lookup path
  lastIngested : s'.lastIngested.lookup path = s.lastIngested.lookup path

theorem due_doc (hdoc : b'.doc = b.doc) (hstorage : b'.storage = b.storage) :
    s.due V b' path = s.due V b path := by
  have htarget (m : FileMeta) : Pass.target V b' m = Pass.target V b m := by
    rw [Pass.target, Pass.target, hdoc, hstorage]
  simp only [due, htarget]

theorem Alike.due (h : Alike s s' path) : s'.due V b path = s.due V b path := by
  simp only [Snapshot.due, h.live, h.existing]

theorem Alike.safe (h : Alike s s' path) : s'.safe V path = s.safe V path := by
  funext disk
  simp only [Snapshot.safe, h.existing, h.lastIngested]

/-- There is nothing to do where the content is recorded. -/
theorem due_of_recorded (hlive : s'.live = s.live) (hdue : s.due V b path = some (bytes, hash))
    (hrecorded : s'.existing.lookup path = some hash) : s'.due V b path = none := by
  cases hm : s.live.lookup path with
  | none => simp only [due, hlive, hm]
  | some m =>
    simp only [due, hm] at hdue
    simp only [due, hlive, hm]
    split at hdue
    next bytes' hash' htarget =>
      split at hdue
      next => cases hdue
      next =>
        obtain ⟨rfl, rfl⟩ := Prod.mk.inj (Option.some.inj hdue)
        exact if_pos hrecorded
    next => cases hdue

end Snapshot

namespace Pass

variable {V : Setting σ} {l : Listing} {b₀ b : Bound σ} {path : Str}

/-- What a pass has made of a path, the next one leaves. -/
theorem Brings.again (hdoc : b.doc = b₀.doc) (hstorage : b.storage = b₀.storage)
    (h : Brings V l b₀ b path) :
    (snapshotAt l b).brings V b path (V.file b.fs path) = V.file b.fs path ∧
      (snapshotAt l b).records V b path (V.file b.fs path) = b.materialized.lookup path := by
  obtain ⟨hfile, hM, hL⟩ := h
  by_cases hlive : path ∈ l.live
  · have hundue (hdue : (snapshotAt l b).due V b₀ path = none) :
        (snapshotAt l b).brings V b path (V.file b.fs path) = V.file b.fs path ∧
          (snapshotAt l b).records V b path (V.file b.fs path) =
            (snapshotAt l b).existing.lookup path :=
      Snapshot.brings_of_undue hlive ((Snapshot.due_doc hdoc hstorage).trans hdue)
    have halike (hrecords : (snapshotAt l b₀).records V b₀ path (V.file b₀.fs path) =
        b₀.materialized.lookup path) : (snapshotAt l b₀).Alike (snapshotAt l b) path :=
      ⟨rfl, hM.trans hrecords, hL.trans (if_pos hlive)⟩
    cases hdue : (snapshotAt l b₀).due V b₀ path with
    | none =>
      have hsame := halike (Snapshot.brings_of_undue hlive hdue).2
      exact hundue (hsame.due.trans hdue)
    | some content =>
      obtain ⟨bytes, hash⟩ := content
      cases hall : (V.file b₀.fs path).all fun disk =>
          V.crates.sha.hash disk = hash || (snapshotAt l b₀).safe V path disk with
      | false =>
        have hkept := Snapshot.brings_of_kept hlive hdue hall
        have hsame := halike hkept.2
        rw [hfile, hkept.1]
        rw [← hsame.safe] at hall
        exact Snapshot.brings_of_kept hlive
          ((Snapshot.due_doc hdoc hstorage).trans (hsame.due.trans hdue)) hall
      | true =>
        refine hundue (Snapshot.due_of_recorded (s := snapshotAt l b₀) rfl hdue (hM.trans ?_))
        simp only [Snapshot.records, hdue, hall, if_true]
        exact if_pos hlive
  · have hnone : b.materialized.lookup path = none := hM.trans (if_neg hlive)
    have hout : path ∉ b.materialized := fun hin => by
      rw [← AList.lookup_isSome, hnone] at hin
      cases hin
    constructor
    · exact (if_neg hlive).trans (if_neg fun hin => hout hin.1)
    · exact (if_neg hlive).trans hnone.symm

/-- **A second pass changes nothing.** -/
theorem Clear.settles {Good : σ → Prop} {P : Str → Prop} {b' : Bound σ} (hV : V.MapsFiles Good P)
    (hgood : Good b₀.fs) (hlist : list V b₀ = .ok l)
    (hpaths : ∀ q, q ∈ l.live ∨ q ∈ b₀.materialized → P q) (hP : P path) (h : Clear V b₀ b)
    (h' : Clear V b b') : V.file b'.fs path = V.file b.fs path ∧
      b'.materialized.lookup path = b.materialized.lookup path ∧
      b'.lastIngested.lookup path = b.lastIngested.lookup path := by
  have hunder := h.under hV hgood hlist hpaths hP
  have hdoc : b.doc = b₀.doc := hunder.doc
  have hlist' : list V b = .ok l := by
    rw [list, hdoc]
    exact hlist
  have hpaths' (q : Str) (hq : q ∈ l.live ∨ q ∈ b.materialized) : P q :=
    hpaths q (.inl (hq.elim id (hunder.pruned q)))
  have hbrings := h.brings hV hgood hlist hpaths hP
  obtain ⟨hfile, hM, hL⟩ := h'.brings hV hunder.good hlist' hpaths' hP
  obtain ⟨hagain, hrecords⟩ := hbrings.again hdoc hunder.storage
  refine ⟨hfile.trans hagain, hM.trans hrecords, hL.trans ?_⟩
  rw [hbrings.lastIngested]
  split <;> rfl

end Pass

end AgentSync
