import AgentSync.Inodes
import AgentSync.Machine
import AgentSync.Doc.Effects
import AgentSync.Doc.Replay

/-! Vaults that are opened and closed one after another.

Every `Vault` starts a task that saves its document once a second, and nothing ever stops
that task: `close` flushes and drops the handle, while the task keeps the document. All
instances on one storage path write `doc.bin.tmp` and rename it to `doc.bin`.

The law is that `doc.bin` belongs to the instances that are still to be closed. It holds
as long as what a closed instance's tasks do is nothing new (`Quiet`): its save goes on while
no other save is under way, and what it renames is in `doc.bin` already. `Kept` is the
invariant: what is in `doc.bin` can be loaded, it contains the document of every closed
instance, and the instance that is open has loaded it. -/
namespace AgentSync.Vault

/-- `Doc::save` and `Doc::load`: what is saved is a document's changes. -/
structure Codec (β : Type) where
  save : List Change → β
  load : β → Except Error (List Change)
  load_save : ∀ cs, ∃ cs', load (save cs) = .ok cs' ∧ ∀ c, c ∈ cs' ↔ c ∈ cs

def docName : Str := txt "doc.bin"
def tmpName : Str := txt "doc.bin.tmp"

theorem docName_ne_tmpName : docName ≠ tmpName := by decide

/-! ### One save -/

/-- Where a `DocStore::save` is; `β` is what files are made of. -/
inductive Place (β : Type) where
  /-- The document's lock is still to be had. -/
  | waiting
  | opening
  | writing (file : Nat) (rest : List β)
  | renaming
  | returned (ok : Bool)
  deriving Repr

/-- The save has reported success. -/
def Place.succeeded {β : Type} : Place β → Bool
  | .returned ok => ok
  | _ => false

/-- A save; `bytes` is what `Doc::save` has given it. -/
structure Save (β : Type) where
  bytes : List β
  place : Place β
  deriving Repr

namespace Save

variable {β : Type} {f f' : Folder Str β} {p p' : Save β} {n : Nat}

/-- `fs::write` and `fs::rename`, one call at a time; a write takes `n` bytes. -/
def goOn [Inhabited β] (f : Folder Str β) (n : Nat) (p : Save β) :
    Option (Folder Str β × Save β) :=
  match p.place with
  | .opening =>
    let (f', file) := f.create tmpName
    some (f', {p with place := .writing file p.bytes})
  | .writing _ [] => some (f, {p with place := .renaming})
  | .writing file (b :: rest) =>
    let left := b :: rest
    if 0 < n ∧ n ≤ left.length then
      some (f.writeAt default file (p.bytes.length - left.length) (left.take n),
        {p with place := .writing file (left.drop n)})
    else none
  | .renaming =>
    match f.rename tmpName docName with
    | some f' => some (f', {p with place := .returned true})
    | none => some (f, {p with place := .returned false})
  | .waiting | .returned _ => none

/-- What a save that is under way relies on in the directory. -/
structure Progress (f : Folder Str β) (p : Save β) : Prop where
  writing : ∀ file rest, p.place = .writing file rest →
    f.entries tmpName = some file ∧ f.data file ++ rest = p.bytes
  ready : p.place = .renaming → f.read tmpName = some p.bytes

variable [Inhabited β]

/-- What one call makes of `doc.bin`. -/
theorem Progress.goOn (h : p.Progress f) (hs : p.goOn f n = some (f', p')) :
    p'.Progress f' ∧ p'.bytes = p.bytes ∧
      (p'.place.succeeded = false ∧ f'.read docName = f.read docName ∨
        p'.place = .returned true ∧ f'.read docName = some p.bytes) := by
  unfold Save.goOn at hs
  split at hs
  next hplace =>
    cases hs
    refine ⟨⟨fun file rest hw => ?_, nofun⟩, rfl, .inl ⟨rfl, ?_⟩⟩
    · obtain ⟨rfl, rfl⟩ := Place.writing.inj hw
      have hempty : (f.create tmpName).1.data (f.create tmpName).2 = [] :=
        Folder.data_create.trans (if_pos rfl)
      exact ⟨Folder.entries_create_self, congrArg (· ++ p.bytes) hempty⟩
    · exact Folder.read_create_of_ne docName_ne_tmpName
  next file hplace =>
    cases hs
    obtain ⟨hentry, hdata⟩ := h.writing file [] hplace
    refine ⟨⟨nofun, fun _ => ?_⟩, rfl, .inl ⟨rfl, rfl⟩⟩
    exact Folder.read_eq_some.mpr ⟨file, hentry, (List.append_nil _).symm.trans hdata⟩
  next file b rest hplace =>
    obtain ⟨-, hs⟩ := Option.ite_none_right_eq_some.mp hs
    cases hs
    obtain ⟨hentry, hdata⟩ := h.writing file (b :: rest) hplace
    refine ⟨⟨fun file' rest' hw => ?_, nofun⟩, rfl, .inl ⟨rfl, ?_⟩⟩
    · obtain ⟨rfl, rfl⟩ := Place.writing.inj hw
      exact ⟨hentry, Folder.data_writeAt_next default hdata n⟩
    · exact Folder.read_writeAt_of_ne default _ _ hentry docName_ne_tmpName
  next hplace =>
    split at hs
    next f₁ hrename =>
      cases hs
      refine ⟨⟨nofun, nofun⟩, rfl, .inr ⟨rfl, ?_⟩⟩
      rw [Folder.read_rename hrename, if_pos rfl, h.ready hplace]
    next =>
      cases hs
      exact ⟨⟨nofun, nofun⟩, rfl, .inl ⟨rfl, rfl⟩⟩
  next => cases hs
  next => cases hs

/-- What a call of a save touches that relies on nothing. -/
theorem goOn_frame (hs : p.goOn f n = some (f', p')) :
    f' = f ∨ p.place = .opening ∧ f'.read docName = f.read docName ∨
    (∃ file b rest, p.place = .writing file (b :: rest) ∧
      (f.entries docName ≠ some file → f'.read docName = f.read docName)) ∨
    p.place = .renaming ∧ f.read tmpName ≠ none ∧ f'.read docName = f.read tmpName := by
  unfold Save.goOn at hs
  split at hs
  next hplace =>
    cases hs
    exact .inr (.inl ⟨hplace, Folder.read_create_of_ne docName_ne_tmpName⟩)
  next file hplace =>
    cases hs
    exact .inl rfl
  next file b rest hplace =>
    obtain ⟨-, hs⟩ := Option.ite_none_right_eq_some.mp hs
    cases hs
    exact .inr (.inr (.inl ⟨file, b, rest, hplace, fun hfile => Folder.read_writeAt _ _ _ hfile⟩))
  next hplace =>
    split at hs
    next f₁ hrename =>
      cases hs
      obtain ⟨file, hfile, -⟩ := Folder.rename_eq_some hrename
      have hread := Folder.read_rename hrename docName
      rw [if_pos rfl] at hread
      exact .inr (.inr (.inr ⟨hplace, by simp [Folder.read, hfile], hread⟩))
    next =>
      cases hs
      exact .inl rfl
  next => cases hs
  next => cases hs

end Save

/-! ### The instances -/

/-- Who calls `DocStore::save`: the save loop, or a `flush` of the caller, and `close`. -/
inductive Saver where
  | loop
  | close
  deriving DecidableEq, Repr

inductive Phase where
  | running
  | closed
  /-- `close` has returned an error. -/
  | failed
  deriving DecidableEq, Repr

/-- What a save that has ended makes of its caller. -/
def Phase.after (phase : Phase) (who : Saver) (ok : Bool) : Phase :=
  match who with
  | .loop => phase
  | .close => if ok then .closed else .failed

/-- One `Vault`. A save holds the lock of the document from its beginning to its end. -/
structure Instance (β : Type) where
  doc : Doc
  phase : Phase
  saving : Option (Saver × Save β)

/-- The save of the instance has come to `p`. -/
def Instance.after {β : Type} (inst : Instance β) (who : Saver) (p : Save β) : Instance β :=
  match p.place with
  | .returned ok => {inst with phase := inst.phase.after who ok, saving := none}
  | _ => {inst with saving := some (who, p)}

/-- A storage directory, and all the vaults there were on it. -/
structure Host (β : Type) where
  folder : Folder Str β
  instances : List (Instance β)

inductive Act where
  /-- `Vault::open`. -/
  | open (vaultId : Str) (supply : Supply)
  /-- An operation, a sync message or an ingest changes the document. -/
  | mutate (i : Nat) (doc : Doc)
  /-- `DocStore::save` takes the lock and serialises the document. -/
  | save (i : Nat) (who : Saver)
  /-- The save of the `i`-th instance goes on; a write takes `n` bytes. -/
  | next (i n : Nat)
  /-- Its next call fails. -/
  | fails (i : Nat)

/-- The instance whose task acts. -/
def Act.task : Act → Option Nat
  | .open .. => none
  | .mutate i _ | .save i _ | .next i _ | .fails i => some i

/-- `vault_id`, read as `Doc::vault_id` reads it. -/
def storedId (doc : Doc) : Option Str :=
  match doc.root.get .vaultId with
  | some (.scalar (.str s)) => some s
  | _ => none

namespace Instance

variable {β : Type} {inst : Instance β} {who who' : Saver} {p p' : Save β}

@[simp] theorem after_doc : (inst.after who p).doc = inst.doc := by
  unfold Instance.after
  split <;> rfl

theorem after_saving (h : (inst.after who p).saving = some (who', p')) : who' = who ∧ p' = p := by
  unfold Instance.after at h
  split at h
  next => cases h
  next => exact (Prod.mk.inj (Option.some.inj h)).imp Eq.symm Eq.symm

/-- The save loop makes nothing of the phase. -/
theorem after_loop : (inst.after .loop p).phase = inst.phase := by
  unfold Instance.after
  split <;> rfl

/-- Only a save that has succeeded closes an instance. -/
theorem closed_of_after (hp : p.place.succeeded = false)
    (h : (inst.after who p).phase = .closed) : inst.phase = .closed := by
  unfold Instance.after at h
  split at h
  next ok hplace =>
    rw [hplace] at hp
    obtain rfl : ok = false := hp
    cases who with
    | loop => exact h
    | close => cases h
  next => exact h

end Instance

namespace Host

variable {β : Type} (C : Codec (List β)) (A : Automerge)

/-- The document that `Vault::open` finds. -/
def load (h : Host β) (vaultId : Str) (supply : Supply) : Except Error Doc :=
  match h.folder.read docName with
  | none => .ok (.new A vaultId supply)
  | some b => do
    let changes ← C.load b
    return .ofChanges A changes supply 0

def set (h : Host β) (i : Nat) (inst : Instance β) : Host β :=
  {h with instances := h.instances.set i inst}

/-- Only a running instance can be closed; its save loop outlives it. -/
def maySave (inst : Instance β) : Saver → Bool
  | .loop => true
  | .close => inst.phase = .running

def step [Inhabited β] (h : Host β) : Act → Option (Host β)
  | .open vaultId supply =>
    if h.instances.all fun inst => inst.phase = .closed then
      match load C A h vaultId supply with
      | .ok doc =>
        if (storedId doc).getD vaultId = vaultId then
          some {h with instances := h.instances ++ [⟨doc, .running, none⟩]}
        else none
      | .error _ => none
    else none
  | .mutate i doc => (h.instances[i]?).bind fun inst =>
    if inst.saving.isNone ∧ inst.doc.changes ⊆ doc.changes then some (h.set i {inst with doc})
    else none
  | .save i who => (h.instances[i]?).bind fun inst =>
    if inst.saving.isNone ∧ maySave inst who then
      let doc := inst.doc.committed 0
      some (h.set i {inst with doc, saving := some (who, ⟨C.save doc.changes, .opening⟩)})
    else none
  | .next i n => (h.instances[i]?).bind fun inst => inst.saving.bind fun (who, p) =>
    (p.goOn h.folder n).map fun (folder, p') => {h.set i (inst.after who p') with folder}
  | .fails i => (h.instances[i]?).bind fun inst => inst.saving.map fun (who, _) =>
    h.set i {inst with phase := inst.phase.after who false, saving := none}

/-! ### The condition -/

/-- The changes that the next `Vault::open` would load. -/
def Holds (h : Host β) (changes : List Change) : Prop :=
  ∃ b cs, h.folder.read docName = some b ∧ C.load b = .ok cs ∧ changes ⊆ cs

/-- No other save is under way. -/
def Idle (h : Host β) (i : Nat) : Prop :=
  ∀ (j : Nat) (inst : Instance β), j ≠ i → h.instances[j]? = some inst → inst.saving = none

/-- The next call of the save touches the temporary file only while no other save is under way,
does not write into what is `doc.bin` by now, and renames only what `doc.bin` has. -/
def Calm (h : Host β) (i : Nat) (p : Save β) : Prop :=
  match p.place with
  | .opening => h.Idle i
  | .writing file (_ :: _) => h.Idle i ∧ h.folder.entries docName ≠ some file
  | .renaming => h.folder.read tmpName ≠ none →
    h.Idle i ∧ h.folder.read tmpName = h.folder.read docName
  | _ => True

/-- What the tasks of a closed instance may do: add no change that `doc.bin` lacks, and save
calmly. -/
def Quiet (h : Host β) (a : Act) : Prop :=
  ∀ i inst, a.task = some i → h.instances[i]? = some inst → inst.phase = .closed →
    match a with
    | .mutate _ doc => Holds C h doc.changes
    | .save .. => Holds C h (inst.doc.committed 0).changes
    | .next .. => ∀ who p, inst.saving = some (who, p) → h.Calm i p
    | _ => True

/-! ### The invariant -/

/-- What `doc.bin` owes to the instances that are closed, and the open one to it. -/
structure Kept (h : Host β) : Prop where
  closed : ∀ inst ∈ h.instances, inst.phase = .closed → Holds C h inst.doc.changes
  loaded : ∀ inst ∈ h.instances, inst.phase ≠ .closed → ∀ b, h.folder.read docName = some b →
    ∃ cs, C.load b = .ok cs ∧ cs ⊆ inst.doc.changes
  last : ∀ (i : Nat) (inst : Instance β), h.instances[i]? = some inst → inst.phase ≠ .closed →
    i + 1 = h.instances.length
  saving : ∀ inst ∈ h.instances, inst.phase ≠ .closed → ∀ who p, inst.saving = some (who, p) →
    p.bytes = C.save inst.doc.changes ∧ p.Progress h.folder
  closing : ∀ inst ∈ h.instances, inst.phase = .closed → ∀ who p,
    inst.saving = some (who, p) → who = .loop

variable {C A} {h h' : Host β}

theorem Holds.congr {changes : List Change} (hh : Holds C h changes)
    (hread : h'.folder.read docName = h.folder.read docName) : Holds C h' changes := by
  obtain ⟨b, cs, hb, hcs⟩ := hh
  exact ⟨b, cs, hread.trans hb, hcs⟩

theorem Holds.mono {changes changes' : List Change} (hh : Holds C h changes)
    (hsub : changes' ⊆ changes) : Holds C h changes' := by
  obtain ⟨b, cs, hb, hload, hcs⟩ := hh
  exact ⟨b, cs, hb, hload, List.Subset.trans hsub hcs⟩

/-- What is saved is what is held. -/
theorem holds_of_saved {changes : List Change}
    (hread : h.folder.read docName = some (C.save changes)) : Holds C h changes := by
  obtain ⟨cs, hload, hcs⟩ := C.load_save changes
  exact ⟨_, cs, hread, hload, fun c hc => (hcs c).mpr hc⟩

theorem changes_subset_committed (d : Doc) : d.changes ⊆ (d.committed 0).changes :=
  (Doc.changes_before_committed d 0).subset

namespace Kept

variable {i n : Nat} {inst : Instance β} {folder : Folder Str β} {who : Saver} {p p' : Save β}

/-- One instance acts: what it owes, and what it must leave to the others. -/
theorem update (hk : Kept C h) (hi : h.instances[i]? = some inst) (inst' : Instance β)
    (folder : Folder Str β)
    (hphase : inst.phase = .closed → inst'.phase = .closed)
    (hdoc : inst.phase = .closed → folder.read docName = h.folder.read docName)
    (htmp : inst.phase = .closed → h.Idle i ∨ folder = h.folder)
    (hholds : ∀ changes, Holds C h changes → Holds C {h.set i inst' with folder} changes)
    (hclosed : inst'.phase = .closed → Holds C {h.set i inst' with folder} inst'.doc.changes)
    (hloaded : inst'.phase ≠ .closed → ∀ b, folder.read docName = some b →
      ∃ cs, C.load b = .ok cs ∧ cs ⊆ inst'.doc.changes)
    (hsaving : inst'.phase ≠ .closed → ∀ who p, inst'.saving = some (who, p) →
      p.bytes = C.save inst'.doc.changes ∧ p.Progress folder)
    (hclosing : inst'.phase = .closed → ∀ who p, inst'.saving = some (who, p) → who = .loop) :
    Kept C {h.set i inst' with folder} := by
  -- Next to an open instance there are only closed ones.
  have hzombie (other : Instance β) (hother : other ∈ h.instances.set i inst') :
      other = inst' ∨ ∃ j, j ≠ i ∧ h.instances[j]? = some other ∧
        (other.phase ≠ .closed → inst.phase = .closed) := by
    obtain ⟨j, hj⟩ := List.mem_iff_getElem?.mp hother
    by_cases hij : j = i
    · subst hij
      rw [List.getElem?_set_self (List.getElem?_eq_some_iff.mp hi).1] at hj
      exact .inl (Option.some.inj hj).symm
    · rw [List.getElem?_set_ne (Ne.symm hij)] at hj
      refine .inr ⟨j, hij, hj, fun hopen => ?_⟩
      by_contra hne
      have hlast := hk.last i inst hi hne
      have hlast' := hk.last j other hj hopen
      omega
  refine ⟨fun other hother hc => ?_, fun other hother hc b hb => ?_, fun j other hj hopen => ?_,
    fun other hother hc who p hs => ?_, fun other hother hc who p hs => ?_⟩
  · obtain rfl | ⟨j, -, hj, -⟩ := hzombie other hother
    · exact hclosed hc
    · exact hholds _ (hk.closed other (List.mem_of_getElem? hj) hc)
  · obtain rfl | ⟨j, -, hj, hopen⟩ := hzombie other hother
    · exact hloaded hc b hb
    · exact hk.loaded other (List.mem_of_getElem? hj) hc b ((hdoc (hopen hc)).symm.trans hb)
  · show j + 1 = (h.instances.set i inst').length
    rw [List.length_set]
    have hj : (h.instances.set i inst')[j]? = some other := hj
    by_cases hij : j = i
    · subst hij
      rw [List.getElem?_set_self (List.getElem?_eq_some_iff.mp hi).1] at hj
      obtain rfl := Option.some.inj hj
      exact hk.last j inst hi fun hclosed => hopen (hphase hclosed)
    · rw [List.getElem?_set_ne (Ne.symm hij)] at hj
      exact hk.last j other hj hopen
  · obtain rfl | ⟨j, hij, hj, hopen⟩ := hzombie other hother
    · exact hsaving hc who p hs
    · obtain hidle | hsame := htmp (hopen hc)
      · cases (hidle j other hij hj).symm.trans hs
      · exact hsame.symm ▸ hk.saving other (List.mem_of_getElem? hj) hc who p hs
  · obtain rfl | ⟨j, -, hj, -⟩ := hzombie other hother
    · exact hclosing hc who p hs
    · exact hk.closing other (List.mem_of_getElem? hj) hc who p hs

/-- What a save publishes, the open instance had loaded and more. -/
theorem holds_published (hk : Kept C h) (hi : h.instances[i]? = some inst)
    (hopen : inst.phase ≠ .closed)
    (hread : h'.folder.read docName = some (C.save inst.doc.changes))
    {changes : List Change} (hh : Holds C h changes) : Holds C h' changes := by
  obtain ⟨b, cs, hb, hload, hsub⟩ := hh
  obtain ⟨cs', hload', hsub'⟩ := hk.loaded inst (List.mem_of_getElem? hi) hopen b hb
  obtain rfl := Except.ok.inj (hload.symm.trans hload')
  exact (holds_of_saved hread).mono (List.Subset.trans hsub hsub')

theorem mutate (hk : Kept C h) (hi : h.instances[i]? = some inst) {doc : Doc}
    (hgrows : inst.doc.changes ⊆ doc.changes) (hsaving : inst.saving = none)
    (hquiet : inst.phase = .closed → Holds C h doc.changes) :
    Kept C (h.set i {inst with doc}) := by
  have hin := List.mem_of_getElem? hi
  refine hk.update hi {inst with doc} h.folder id (fun _ => rfl) (fun _ => .inr rfl)
    (fun _ hh => hh.congr rfl) (fun hc => (hquiet hc).congr rfl) (fun hc b hb => ?_)
    (fun _ who p hs => ?_) (hk.closing inst hin)
  · obtain ⟨cs, hload, hsub⟩ := hk.loaded inst hin hc b hb
    exact ⟨cs, hload, List.Subset.trans hsub hgrows⟩
  · cases hsaving.symm.trans hs

/-- A save begins: it has what the document has, and has touched nothing. -/
theorem save (hk : Kept C h) (hi : h.instances[i]? = some inst)
    (hwho : maySave inst who = true)
    (hquiet : inst.phase = .closed → Holds C h (inst.doc.committed 0).changes) :
    Kept C (h.set i ⟨inst.doc.committed 0, inst.phase,
      some (who, ⟨C.save (inst.doc.committed 0).changes, .opening⟩)⟩) := by
  have hin := List.mem_of_getElem? hi
  refine hk.update hi _ h.folder id (fun _ => rfl) (fun _ => .inr rfl) (fun _ hh => hh.congr rfl)
    (fun hc => (hquiet hc).congr rfl) (fun hc b hb => ?_) (fun _ who' p hs => ?_)
    (fun hc who' p hs => ?_)
  · obtain ⟨cs, hload, hsub⟩ := hk.loaded inst hin hc b hb
    exact ⟨cs, hload, List.Subset.trans hsub (changes_subset_committed inst.doc)⟩
  · cases hs
    exact ⟨rfl, nofun, nofun⟩
  · cases hs
    cases who with
    | loop => rfl
    | close =>
      have hrunning : inst.phase = .running := of_decide_eq_true hwho
      cases hc.symm.trans hrunning

/-- A calm call leaves `doc.bin`, and what another save relies on. -/
theorem frame_of_calm [Inhabited β] (hs : p.goOn h.folder n = some (folder, p'))
    (hcalm : h.Calm i p) :
    folder.read docName = h.folder.read docName ∧ (h.Idle i ∨ folder = h.folder) := by
  unfold Calm at hcalm
  obtain rfl | ⟨hplace, hread⟩ | ⟨file, b, rest, hplace, hread⟩ | ⟨hplace, hsome, hread⟩ :=
    Save.goOn_frame hs
  · exact ⟨rfl, .inr rfl⟩
  · rw [hplace] at hcalm
    exact ⟨hread, .inl hcalm⟩
  · rw [hplace] at hcalm
    exact ⟨hread hcalm.2, .inl hcalm.1⟩
  · rw [hplace] at hcalm
    obtain ⟨hidle, hsame⟩ := hcalm hsome
    exact ⟨hread.trans hsame, .inl hidle⟩

/-- A save goes on. -/
theorem next [Inhabited β] (hk : Kept C h) (hi : h.instances[i]? = some inst)
    (hsaving : inst.saving = some (who, p)) (hs : p.goOn h.folder n = some (folder, p'))
    (hquiet : inst.phase = .closed → h.Calm i p) :
    Kept C {h.set i (inst.after who p') with folder} := by
  have hin := List.mem_of_getElem? hi
  by_cases hclosed : inst.phase = .closed
  · obtain rfl := hk.closing inst hin hclosed who p hsaving
    obtain ⟨hread, hside⟩ := frame_of_calm hs (hquiet hclosed)
    have hphase : (inst.after .loop p').phase = .closed := Instance.after_loop.trans hclosed
    refine hk.update hi _ _ (fun _ => hphase) (fun _ => hread) (fun _ => hside)
      (fun _ hh => hh.congr hread) (fun _ => ?_) (fun hc => absurd hphase hc)
      (fun hc => absurd hphase hc) (fun _ who p hs => (Instance.after_saving hs).1)
    rw [Instance.after_doc]
    exact (hk.closed inst hin hclosed).congr hread
  · obtain ⟨hbytes, hprogress⟩ := hk.saving inst hin hclosed who p hsaving
    obtain ⟨hprogress', hbytes', ⟨hplace, hread⟩ | ⟨hplace, hread⟩⟩ := hprogress.goOn hs
    · have hstays (hc : (inst.after who p').phase = .closed) : False :=
        hclosed (Instance.closed_of_after hplace hc)
      refine hk.update hi _ _ (fun hc => absurd hc hclosed) (fun hc => absurd hc hclosed)
        (fun hc => absurd hc hclosed) (fun _ hh => hh.congr hread) (fun hc => (hstays hc).elim)
        (fun _ b hb => ?_) (fun _ who' q hq => ?_) (fun hc => (hstays hc).elim)
      · rw [Instance.after_doc]
        exact hk.loaded inst hin hclosed b (hread.symm.trans hb)
      · obtain ⟨-, rfl⟩ := Instance.after_saving hq
        rw [Instance.after_doc]
        exact ⟨hbytes'.trans hbytes, hprogress'⟩
    · rw [hbytes] at hread
      have hafter : inst.after who p' = ⟨inst.doc, inst.phase.after who true, none⟩ := by
        simp only [Instance.after, hplace]
      rw [hafter]
      refine hk.update hi _ _ (fun hc => absurd hc hclosed) (fun hc => absurd hc hclosed)
        (fun hc => absurd hc hclosed) (fun _ hh => hk.holds_published hi hclosed hread hh)
        (fun _ => holds_of_saved hread) (fun _ b hb => ?_) (fun _ _ _ h => by cases h)
        (fun _ _ _ h => by cases h)
      obtain rfl := Option.some.inj (hread.symm.trans hb)
      obtain ⟨cs, hload, hcs⟩ := C.load_save inst.doc.changes
      exact ⟨cs, hload, fun c hc => (hcs c).mp hc⟩

/-- A save that ends in an error publishes nothing. -/
theorem fails (hk : Kept C h) (hi : h.instances[i]? = some inst)
    (hsaving : inst.saving = some (who, p)) :
    Kept C (h.set i ⟨inst.doc, inst.phase.after who false, none⟩) := by
  have hin := List.mem_of_getElem? hi
  have hafter (hc : inst.phase.after who false = .closed) : inst.phase = .closed := by
    cases who with
    | loop => exact hc
    | close => cases hc
  refine hk.update hi _ h.folder (fun hc => ?_) (fun _ => rfl) (fun _ => .inr rfl)
    (fun _ hh => hh.congr rfl) (fun hc => (hk.closed inst hin (hafter hc)).congr rfl)
    (fun hc => hk.loaded inst hin fun hclosed => ?_) (fun _ _ _ h => by cases h)
    (fun _ _ _ h => by cases h)
  · obtain rfl := hk.closing inst hin hc who p hsaving
    exact hc
  · obtain rfl := hk.closing inst hin hclosed who p hsaving
    exact hc hclosed

theorem opened (hk : Kept C h) (hall : ∀ inst ∈ h.instances, inst.phase = .closed) {doc : Doc}
    {vaultId : Str} {supply : Supply} (hload : load C A h vaultId supply = .ok doc) :
    Kept C {h with instances := h.instances ++ [⟨doc, .running, none⟩]} := by
  have hloaded (b : List β) (hb : h.folder.read docName = some b) :
      ∃ cs, C.load b = .ok cs ∧ cs ⊆ doc.changes := by
    rw [load, hb] at hload
    obtain ⟨cs, hcs, h⟩ := AgentSync.bind_eq_ok.mp hload
    obtain rfl := Except.ok.inj h
    exact ⟨cs, hcs, List.Subset.refl _⟩
  have hnew (inst : Instance β) (hin : inst ∈ h.instances ++ [⟨doc, .running, none⟩])
      (hopen : inst.phase ≠ .closed) : inst = ⟨doc, .running, none⟩ := by
    obtain hin | hin := List.mem_append.mp hin
    · exact absurd (hall inst hin) hopen
    · exact List.mem_singleton.mp hin
  refine ⟨fun inst hin hc => ?_, fun inst hin hopen b hb => ?_, fun j inst hj hopen => ?_,
    fun inst hin hopen who p hs => ?_, fun inst hin hc => ?_⟩
  · obtain hin | hin := List.mem_append.mp hin
    · exact (hk.closed inst hin hc).congr rfl
    · obtain rfl := List.mem_singleton.mp hin
      cases hc
  · obtain rfl := hnew inst hin hopen
    exact hloaded b hb
  · have hlen := (List.getElem?_eq_some_iff.mp hj).1
    simp only [List.length_append, List.length_singleton] at hlen ⊢
    by_cases hlt : j < h.instances.length
    · rw [List.getElem?_append_left hlt] at hj
      exact absurd (hall inst (List.mem_of_getElem? hj)) hopen
    · omega
  · obtain rfl := hnew inst hin hopen
    cases hs
  · obtain hin | hin := List.mem_append.mp hin
    · exact hk.closing inst hin hc
    · obtain rfl := List.mem_singleton.mp hin
      cases hc

/-- **A quiet step keeps `doc.bin` in order.** -/
theorem step [Inhabited β] (hk : Kept C h) {a : Act} (hquiet : Quiet C h a)
    (hs : Host.step C A h a = some h') : Kept C h' := by
  cases a with
  | «open» vaultId supply =>
    simp only [Host.step] at hs
    split at hs
    next hall =>
      split at hs
      next doc hload =>
        obtain ⟨-, hs⟩ := Option.ite_none_right_eq_some.mp hs
        obtain rfl := Option.some.inj hs
        exact hk.opened (by simpa using hall) hload
      next => cases hs
    next => cases hs
  | mutate i doc =>
    obtain ⟨inst, hi, hs⟩ := Option.bind_eq_some_iff.mp hs
    obtain ⟨⟨hsaving, hgrows⟩, hs⟩ := Option.ite_none_right_eq_some.mp hs
    obtain rfl := Option.some.inj hs
    exact hk.mutate hi hgrows (Option.isNone_iff_eq_none.mp hsaving)
      fun hc => hquiet i inst rfl hi hc
  | save i who =>
    obtain ⟨inst, hi, hs⟩ := Option.bind_eq_some_iff.mp hs
    obtain ⟨⟨-, hwho⟩, hs⟩ := Option.ite_none_right_eq_some.mp hs
    obtain rfl := Option.some.inj hs
    exact hk.save hi hwho fun hc => hquiet i inst rfl hi hc
  | next i n =>
    obtain ⟨inst, hi, hs⟩ := Option.bind_eq_some_iff.mp hs
    obtain ⟨⟨who, p⟩, hsaving, hs⟩ := Option.bind_eq_some_iff.mp hs
    obtain ⟨⟨folder, p'⟩, hgo, rfl⟩ := Option.map_eq_some_iff.mp hs
    exact hk.next hi hsaving hgo fun hc => hquiet i inst rfl hi hc who p hsaving
  | fails i =>
    obtain ⟨inst, hi, hs⟩ := Option.bind_eq_some_iff.mp hs
    obtain ⟨⟨who, p⟩, hsaving, rfl⟩ := Option.map_eq_some_iff.mp hs
    exact hk.fails hi hsaving

end Kept

/-- No instance yet, on whatever there is in the storage directory. -/
def start (folder : Folder Str β) : Host β := ⟨folder, []⟩

theorem kept_start (folder : Folder Str β) : Kept C (start folder) := by
  refine ⟨?_, ?_, ?_, ?_, ?_⟩ <;> simp [start]

/-- The tasks of a closed instance leave `doc.bin` alone. -/
theorem doc_of_quiet [Inhabited β] {a : Act} {i : Nat} {inst : Instance β} (hquiet : Quiet C h a)
    (hs : step C A h a = some h') (ha : a.task = some i) (hi : h.instances[i]? = some inst)
    (hclosed : inst.phase = .closed) : h'.folder.read docName = h.folder.read docName := by
  have hq := hquiet i inst ha hi hclosed
  cases a with
  | «open» vaultId supply => cases ha
  | next j n =>
    obtain rfl : j = i := Option.some.inj ha
    obtain ⟨inst', hj, hs⟩ := Option.bind_eq_some_iff.mp hs
    obtain rfl := Option.some.inj (hi.symm.trans hj)
    obtain ⟨⟨who, p⟩, hsaving, hs⟩ := Option.bind_eq_some_iff.mp hs
    obtain ⟨⟨folder, p'⟩, hgo, rfl⟩ := Option.map_eq_some_iff.mp hs
    exact (Kept.frame_of_calm hgo (hq who p hsaving)).1
  | fails j =>
    obtain ⟨inst', -, hs⟩ := Option.bind_eq_some_iff.mp hs
    obtain ⟨-, -, rfl⟩ := Option.map_eq_some_iff.mp hs
    rfl
  | _ =>
    obtain ⟨inst', -, hs⟩ := Option.bind_eq_some_iff.mp hs
    obtain ⟨-, hs⟩ := Option.ite_none_right_eq_some.mp hs
    obtain rfl := Option.some.inj hs
    rfl

theorem doc_of_open [Inhabited β] {vaultId : Str} {supply : Supply}
    (hs : step C A h (.open vaultId supply) = some h') :
    h'.folder = h.folder ∧ (∀ inst ∈ h.instances, inst.phase = .closed) ∧
      ∃ doc, load C A h vaultId supply = .ok doc ∧
        h'.instances = h.instances ++ [⟨doc, .running, none⟩] := by
  simp only [step] at hs
  split at hs
  next hall =>
    split at hs
    next doc hload =>
      obtain ⟨-, hs⟩ := Option.ite_none_right_eq_some.mp hs
      obtain rfl := Option.some.inj hs
      exact ⟨rfl, by simpa using hall, doc, hload, rfl⟩
    next => cases hs
  next => cases hs

/-- **Closing and reopening.** In a run in which closed instances are quiet: whatever changes
`doc.bin` is the work of an instance that was opened after every closed one, and an instance
that is opened loads every change of every instance closed before it. -/
theorem close_reopen [Inhabited β] {folder : Folder Str β}
    (hr : Machine.Reach (step C A) (Quiet C) (start folder) h) :
    (∀ a h', Quiet C h a → step C A h a = some h' →
      h'.folder.read docName ≠ h.folder.read docName →
      ∃ j, a.task = some j ∧ ∀ (i : Nat) (inst : Instance β), h.instances[i]? = some inst →
        inst.phase = .closed → i < j) ∧
    ∀ vaultId supply h', step C A h (.open vaultId supply) = some h' →
      ∃ doc, h'.instances = h.instances ++ [⟨doc, .running, none⟩] ∧
        ∀ inst ∈ h.instances, inst.phase = .closed ∧ inst.doc.changes ⊆ doc.changes := by
  have hk : Kept C h := hr.invariant (I := Kept C) (kept_start folder)
    fun _ _ _ hk hquiet hs => hk.step hquiet hs
  refine ⟨fun a h' hquiet hs hdoc => ?_, fun vaultId supply h' hs => ?_⟩
  · cases htask : a.task with
    | none =>
      cases a with
      | «open» vaultId supply =>
        exact absurd (congrArg (Folder.read · docName) (doc_of_open hs).1) hdoc
      | _ => cases htask
    | some j =>
      refine ⟨j, rfl, fun i inst hi hclosed => ?_⟩
      obtain ⟨inst', hj⟩ : ∃ inst', h.instances[j]? = some inst' := by
        cases hj : h.instances[j]? with
        | some inst' => exact ⟨inst', rfl⟩
        | none => cases a <;> cases htask <;> simp [step, hj] at hs
      have hopen : inst'.phase ≠ .closed := fun hc => hdoc (doc_of_quiet hquiet hs htask hj hc)
      have hlast := hk.last j inst' hj hopen
      have hlt := (List.getElem?_eq_some_iff.mp hi).1
      have hne : i ≠ j := by
        rintro rfl
        rw [hi] at hj
        exact hopen (Option.some.inj hj ▸ hclosed)
      omega
  · obtain ⟨-, hall, doc, hload, hinstances⟩ := doc_of_open hs
    refine ⟨doc, hinstances, fun inst hin => ⟨hall inst hin, ?_⟩⟩
    obtain ⟨b, cs, hb, hcs, hsub⟩ := hk.closed inst hin (hall inst hin)
    rw [load, hb] at hload
    obtain ⟨cs', hcs', hdoc⟩ := AgentSync.bind_eq_ok.mp hload
    obtain rfl := Except.ok.inj (hcs.symm.trans hcs')
    obtain rfl := Except.ok.inj hdoc
    exact hsub

/-! ### The save loop of a closed vault -/

/-- Changes saved as they are. -/
def plainCodec : Codec (List Change) where
  save := id
  load := .ok
  load_save := fun cs => ⟨cs, rfl, fun _ => Iff.rfl⟩

instance : Inhabited Change := ⟨⟨.fill 0, [], 0, []⟩⟩

private def first : Doc := .new .plain (txt "vault") (.numbered '1' 16)

/-- What the second instance makes of it. -/
private def second : Doc :=
  (Doc.ofChanges .plain first.changes (.numbered '2' 32) 0).after
    ((LocalOp.writeTextFile (txt "x.md") []).run .plain .plain)

/-- A save up to its rename; it has `n` changes to write. -/
private def upToRename (i n : Nat) (who : Saver) : List Act :=
  [.save i who, .next i 0, .next i n, .next i 0]

/-- Two instances, one after the other. -/
private def twoInstances : List Act :=
  [.open (txt "vault") first.supply] ++ upToRename 0 first.changes.length .close ++ [.next 0 0,
    .open (txt "vault") (.numbered '2' 32), .mutate 1 second] ++
    upToRename 1 second.changes.length .close ++ [.next 1 0]

/-- The save loop of the first has ticked, and the old document is back. -/
private def ticked : Host Change → Bool := fun h =>
  h.instances.all (fun inst => inst.phase = .closed) &&
    (step plainCodec .plain h (.next 0 0)).any fun h' =>
      decide (h'.folder.read docName ≠ h.folder.read docName) &&
        (step plainCodec .plain h' (.open (txt "vault") (.numbered '3' 48))).any fun h'' =>
          (h''.instances[2]?).any fun new =>
            h'.instances.any fun old => decide (¬ old.doc.changes ⊆ new.doc.changes)

/-- The tick puts the old document back, and the next vault opens without the second's file. -/
theorem close_reopen_reverted :
    ∃ h h' h'' new,
      Machine.run (step plainCodec .plain) (start .empty)
        (twoInstances ++ upToRename 0 first.changes.length .loop) = some h ∧
      (∀ inst ∈ h.instances, inst.phase = .closed) ∧
      step plainCodec .plain h (.next 0 0) = some h' ∧
      h'.folder.read docName ≠ h.folder.read docName ∧
      step plainCodec .plain h' (.open (txt "vault") (.numbered '3' 48)) = some h'' ∧
      h''.instances[2]? = some new ∧
      ∃ closed ∈ h'.instances, ¬ closed.doc.changes ⊆ new.doc.changes := by
  have hrun : ((Machine.run (step plainCodec .plain) (start .empty)
      (twoInstances ++ upToRename 0 first.changes.length .loop)).any ticked) = true := by
    decide +kernel
  obtain ⟨h, hs, hticked⟩ := (Option.any_eq_true _ _).mp hrun
  obtain ⟨hall, hticked⟩ := (Bool.and_eq_true _ _).mp hticked
  obtain ⟨h', hs', hticked⟩ := (Option.any_eq_true _ _).mp hticked
  obtain ⟨hread, hticked⟩ := (Bool.and_eq_true _ _).mp hticked
  obtain ⟨h'', hs'', hticked⟩ := (Option.any_eq_true _ _).mp hticked
  obtain ⟨new, hnew, hlost⟩ := (Option.any_eq_true _ _).mp hticked
  exact ⟨h, h', h'', new, hs, by simpa using hall, hs', of_decide_eq_true hread, hs'', hnew,
    by simpa using hlost⟩

private def idly (h : Host Change) (i : Nat) : Bool :=
  (List.range h.instances.length).all fun j =>
    decide (j = i) || (h.instances[j]?).all fun inst => inst.saving.isNone

private theorem idle_of_idly {h : Host Change} {i : Nat} (hidly : idly h i = true) : h.Idle i := by
  intro j inst hj hinst
  have hall := List.all_eq_true.mp hidly j
    (List.mem_range.mpr (List.getElem?_eq_some_iff.mp hinst).1)
  simpa [hj, hinst] using hall

private def holding (h : Host Change) (changes : List Change) : Bool :=
  (h.folder.read docName).any fun cs => decide (changes ⊆ cs)

private theorem holds_of_holding {h : Host Change} {changes : List Change}
    (hh : holding h changes = true) : Holds plainCodec h changes := by
  obtain ⟨cs, hread, hsub⟩ := (Option.any_eq_true _ _).mp hh
  exact ⟨cs, cs, hread, rfl, of_decide_eq_true hsub⟩

private def calmly (h : Host Change) (i : Nat) (p : Save Change) : Bool :=
  match p.place with
  | .opening => idly h i
  | .writing file (_ :: _) => idly h i && decide (h.folder.entries docName ≠ some file)
  | .renaming => idly h i && decide (h.folder.read tmpName = h.folder.read docName)
  | _ => true

private theorem calm_of_calmly {h : Host Change} {i : Nat} {p : Save Change}
    (hp : calmly h i p = true) : h.Calm i p := by
  unfold calmly at hp
  unfold Calm
  split at hp
  next hplace =>
    rw [hplace]
    exact idle_of_idly hp
  next file b rest hplace =>
    rw [hplace]
    obtain ⟨hidle, hfile⟩ := (Bool.and_eq_true _ _).mp hp
    exact ⟨idle_of_idly hidle, of_decide_eq_true hfile⟩
  next hplace =>
    rw [hplace]
    obtain ⟨hidle, hread⟩ := (Bool.and_eq_true _ _).mp hp
    exact fun _ => ⟨idle_of_idly hidle, of_decide_eq_true hread⟩
  next =>
    split <;> simp_all

/-- The condition, where changes are saved as they are. -/
private def quietly (h : Host Change) (a : Act) : Bool :=
  a.task.all fun i => (h.instances[i]?).all fun inst => decide (inst.phase ≠ .closed) ||
    match a with
    | .mutate _ doc => holding h doc.changes
    | .save .. => holding h (inst.doc.committed 0).changes
    | .next .. => inst.saving.all fun (_, p) => calmly h i p
    | _ => true

private theorem quiet_of_quietly {h : Host Change} (a : Act) (hq : quietly h a = true) :
    Quiet plainCodec h a := by
  intro i inst ha hi hclosed
  simp only [quietly, ha, hi, hclosed, Option.all_some] at hq
  cases a with
  | mutate j doc => exact holds_of_holding (by simpa using hq)
  | save j who => exact holds_of_holding (by simpa using hq)
  | next j n =>
    intro who p hsaving
    rw [hsaving] at hq
    exact calm_of_calmly (by simpa using hq)
  | _ => trivial

/-- The save loop of the second ticks before anybody opens the vault again. -/
private def ticking : List Act :=
  twoInstances ++ upToRename 1 second.changes.length .loop ++ [.next 1 0]

/-- A tick that finds its own document saved is harmless. -/
theorem close_reopen_kept :
    ∃ h h' doc, Machine.run (step plainCodec .plain) (start .empty) ticking = some h ∧
      step plainCodec .plain h (.open (txt "vault") (.numbered '3' 48)) = some h' ∧
      h'.instances = h.instances ++ [⟨doc, .running, none⟩] ∧ h.instances.length = 2 ∧
        ∀ inst ∈ h.instances, inst.phase = .closed ∧ inst.doc.changes ⊆ doc.changes := by
  have hguard : Machine.Guarded (step plainCodec .plain) (Quiet plainCodec) (start .empty)
      ticking :=
    .of_allowed (fun _ => quiet_of_quietly) (by decide +kernel)
  have hrun : ((Machine.run (step plainCodec .plain) (start .empty) ticking).any fun h =>
      decide (h.instances.length = 2) &&
        (step plainCodec .plain h (.open (txt "vault") (.numbered '3' 48))).isSome) = true := by
    decide +kernel
  obtain ⟨h, hs, hopens⟩ := (Option.any_eq_true _ _).mp hrun
  obtain ⟨hlen, hopens⟩ := (Bool.and_eq_true _ _).mp hopens
  obtain ⟨h', hs'⟩ := Option.isSome_iff_exists.mp hopens
  obtain ⟨doc, hdoc, hall⟩ := (close_reopen (.of_run hguard hs)).2 _ _ h' hs'
  exact ⟨h, h', doc, hs, hs', hdoc, of_decide_eq_true hlen, hall⟩

end Host

end AgentSync.Vault
