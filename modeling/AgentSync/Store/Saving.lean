import AgentSync.Inodes
import AgentSync.Doc.Lasting
import AgentSync.Doc.Replica
import AgentSync.Store.Lifecycle

/-! A vault that saves while it runs, and may stop at any moment.

A save serialises the document, writes `doc.bin.tmp` and renames it to `doc.bin`; flushes and the
save loop do so from several tasks, under one temporary name. They hold the document's lock from
the first step to the last, so nobody else writes the file that is renamed and the document does
not change meanwhile: `doc.bin` goes from one whole save to a later one, and what a save has
reported is in it. -/
namespace AgentSync.Vault

/-- A vault in memory; `lock` is the save that holds the document. -/
structure Session (β : Type) where
  doc : Doc
  lock : Option Nat
  saves : List (Save β)

/-- A storage directory, and the vault that is open on it. -/
structure World (β : Type) where
  folder : Folder Str β
  vault : Option (Session β)

/-- What has been: the documents' changes, state after state, and what was in the document when a
save last reported success. -/
structure Past where
  had : List (List Change)
  saved : List Change

/-- The `i`-th save has come to `p`; one that returns gives the lock back. -/
def Session.after {β : Type} (v : Session β) (i : Nat) (p : Save β) : Session β :=
  match p.place with
  | .returned _ => ⟨v.doc, none, v.saves.set i p⟩
  | _ => {v with saves := v.saves.set i p}

namespace World

inductive Act where
  /-- `Vault::open`. -/
  | open (vaultId : Str) (supply : Supply)
  | operate (op : LocalOp)
  /-- A sync message is applied; `other` is a document with the changes it brings. -/
  | receive (other : Doc)
  /-- A flush is called, or the save loop ticks. -/
  | save
  /-- The `i`-th save goes on; a write takes `n` bytes. -/
  | next (i n : Nat)
  /-- The next call of the `i`-th save fails. -/
  | fails (i : Nat)
  | crash

/-- A step of a save. -/
def Act.saves : Act → Bool
  | .next _ _ => true
  | _ => false

variable {β : Type} [Inhabited β] (C : Codec (List β)) (L : Crates) (A : Automerge)

/-- The document that `Vault::open` finds. -/
def load {β : Type} (C : Codec (List β)) (A : Automerge) (s : World β) (vaultId : Str)
    (supply : Supply) : Except Error Doc :=
  match s.folder.read docName with
  | none => .ok (.new A vaultId supply)
  | some b => do
    let changes ← C.load b
    return .ofChanges A changes supply 0

/-- `doc.save()` and then `fs::write` and `fs::rename`, one call at a time. -/
def goOn (f : Folder Str β) (v : Session β) (i n : Nat) (p : Save β) :
    Option (Folder Str β × Session β) :=
  match p.place with
  | .waiting =>
    if v.lock = none then
      let doc := v.doc.committed 0
      some (f, ⟨doc, some i, v.saves.set i ⟨C.save doc.changes, .opening⟩⟩)
    else none
  | _ => (p.goOn f n).map fun (f', p') => (f', v.after i p')

def step (s : World β) : Act → Option (World β)
  | .open vaultId supply =>
    match s.vault, s.load C A vaultId supply with
    | none, .ok doc =>
      if (storedId doc).getD vaultId = vaultId then some {s with vault := some ⟨doc, none, []⟩}
      else none
    | _, _ => none
  | .operate op => s.vault.bind fun v =>
    if v.lock = none then some {s with vault := some {v with doc := v.doc.after (op.run L A)}}
    else none
  | .receive other => s.vault.bind fun v =>
    if v.lock = none then some {s with vault := some {v with doc := v.doc.merge A other}}
    else none
  | .save => s.vault.map fun v =>
    {s with vault := some {v with saves := v.saves ++ [⟨[], .waiting⟩]}}
  | .next i n => s.vault.bind fun v => (v.saves[i]?).bind fun p =>
    (goOn C s.folder v i n p).map fun (folder, v') => ⟨folder, some v'⟩
  | .fails i => s.vault.bind fun v => (v.saves[i]?).bind fun p =>
    match p.place with
    | .opening | .writing _ _ | .renaming =>
      some {s with
        vault := some ⟨v.doc, none, v.saves.set i {p with place := .returned false}⟩}
    | _ => none
  | .crash => some {s with vault := none}

/-- A save has just reported success. -/
def reports {β : Type} (s : World β) : Act → Bool
  | .next i _ => s.vault.any fun v => (v.saves[i]?).any fun p => p.place.succeeded
  | _ => false

/-- What a step adds to what has been. -/
def remember {β : Type} (_ : World β) (a : Act) (s : World β) (past : Past) : Past where
  had := past.had ++ (s.vault.map fun v => v.doc.changes).toList
  saved := match s.vault with
    | some v => if s.reports a then v.doc.changes else past.saved
    | none => past.saved

abbrev move : World β × Past → Act → Option (World β × Past) :=
  Machine.traced (step C L A) remember

/-! ### The law -/

/-- `doc.bin` is a whole save, only grows, and has what a save has reported. -/
structure Durable (x : World β × Past) : Prop where
  whole : ∀ b, x.1.folder.read docName = some b → ∃ cs ∈ x.2.had, b = C.save cs
  grows : ∀ a y b cs, move C L A x a = some y → x.1.folder.read docName = some b →
    C.load b = .ok cs →
    ∃ b' cs', y.1.folder.read docName = some b' ∧ C.load b' = .ok cs' ∧ cs ⊆ cs'
  kept : ∀ vaultId supply, ∃ doc, x.1.load C A vaultId supply = .ok doc ∧
    x.2.saved ⊆ doc.changes ∧ (x.1.vault = none → (storedId doc).getD vaultId = vaultId →
      step C L A x.1 (.open vaultId supply) = some ⟨x.1.folder, some ⟨doc, none, []⟩⟩)

end World

/-! ### Documents only grow -/

variable {β : Type} {C : Codec (List β)} {L : Crates} {A : Automerge} {cs : List Change}

theorem lasting_subset (cs : List Change) : Doc.Lasting fun d => cs ⊆ d.changes where
  draw := fun h _ => h
  commit := fun {d} time h => List.Subset.trans h (Doc.changes_before_committed d time).subset
  emit := fun h _ => h

theorem emit_subset (ops : List Op) :
    Program.Keeps (fun d : Doc => cs ⊆ d.changes) (Doc.emit ops) := fun _ h => h

theorem fork_subset (heads : List ChangeHash) :
    Program.Keeps (fun d : Doc => cs ⊆ d.changes) (Doc.fork A heads) := by
  intro d h
  unfold Program.Leads Doc.fork
  cases Doc.forkAt A d heads <;> exact h

theorem writeTextFile_subset (path content : Str) :
    Program.Keeps (fun d : Doc => cs ⊆ d.changes) (Doc.writeTextFile L path content) := by
  have hP := lasting_subset cs
  refine .bind (Doc.lift_lasts _) fun _ => .bind hP.nowMs fun _ =>
    .bind (Doc.read_lasts _) fun found => ?_
  cases found with
  | some fid =>
    exact .bind (Doc.ask_lasts _) fun _ => .bind (emit_subset _) fun _ =>
      .bind hP.commitNow fun _ => .pure _
  | none =>
    exact .bind (Doc.read_lasts _) fun _ => .bind hP.newId fun _ =>
      .bind (Doc.read_lasts _) fun _ => .bind (emit_subset _) fun _ =>
      .bind (hP.ensureAncestorDirectories _) fun _ => .bind hP.commitNow fun _ => .pure _

theorem writeAttachment_subset (path hash : Str) (size : Int) :
    Program.Keeps (fun d : Doc => cs ⊆ d.changes) (Doc.writeAttachment L path hash size) := by
  have hP := lasting_subset cs
  refine .bind (Doc.lift_lasts _) fun _ => .bind hP.nowMs fun _ =>
    .bind (Doc.read_lasts _) fun found => ?_
  cases found with
  | some fid => exact .bind (emit_subset _) fun _ => .bind hP.commitNow fun _ => .pure _
  | none =>
    exact .bind (Doc.read_lasts _) fun _ => .bind hP.newId fun _ =>
      .bind (Doc.read_lasts _) fun _ => .bind (emit_subset _) fun _ =>
      .bind (hP.ensureAncestorDirectories _) fun _ => .bind hP.commitNow fun _ => .pure _

theorem restoreToHeads_subset (heads : List ChangeHash) :
    Program.Keeps (fun d : Doc => cs ⊆ d.changes) (Doc.restoreToHeads L A heads) := by
  have hP := lasting_subset cs
  have hfile (now : Int) (text : Str → Str) (m : FileMeta) :
      Program.Keeps (fun d : Doc => cs ⊆ d.changes) (Doc.restoreFile L now text m) :=
    .ite (.pure _) (.bind (Doc.read_lasts _) fun _ => .bind (Doc.read_lasts _) fun _ =>
      .bind (Doc.ask_lasts _) fun _ => emit_subset _)
  exact .bind hP.heads fun _ => .bind (fork_subset heads) fun _ =>
    .bind (Doc.lift_lasts _) fun _ => .bind (Doc.lift_lasts _) fun _ =>
    .bind hP.nowMs fun now => hP.restoreEntries (fun m _ => hfile now _ m) _

theorem run_subset (op : LocalOp) :
    Program.Keeps (fun d : Doc => cs ⊆ d.changes) (op.run L A) := by
  have hP := lasting_subset cs
  cases op with
  | writeTextFile path content => exact .bind (writeTextFile_subset path content) fun _ => .pure _
  | writeAttachment path hash size =>
    exact .bind (writeAttachment_subset path hash size) fun _ => .pure _
  | deleteFile path => exact hP.deleteFile path
  | renameFile src dst => exact hP.renameFile src dst
  | createDirectory path => exact .bind (hP.createDirectory path) fun _ => .pure _
  | deleteDirectory path recursive => exact hP.deleteDirectory path recursive
  | renameDirectory src dst => exact hP.renameDirectory src dst
  | createLabel label => exact hP.createLabel label
  | deleteLabel label => exact hP.deleteLabel label
  | restoreToHeads heads => exact restoreToHeads_subset heads
  | restoreToTime target => exact .bind (hP.headsAtTime target) fun _ => restoreToHeads_subset _
  | getHeads => exact .bind hP.heads fun _ => .pure _

/-- **No operation loses a change.** -/
theorem changes_subset_after (op : LocalOp) (d : Doc) :
    d.changes ⊆ (d.after (op.run L A)).changes := by
  have h := run_subset (L := L) (A := A) op d (List.Subset.refl d.changes)
  unfold Doc.after
  cases hrun : op.run L A d with
  | ok _ d' => exact h.ok hrun
  | error _ d' => exact h.error hrun

theorem changes_subset_merge (d other : Doc) : d.changes ⊆ (d.merge A other).changes := fun _ hc =>
  List.mem_append_left _ ((Doc.changes_before_committed d 0).subset hc)

/-! ### What a save relies on -/

/-- It does not hold the lock. -/
def Save.Idle (p : Save β) : Prop := p.place = .waiting ∨ ∃ ok, p.place = .returned ok

/-- What a save that holds it writes, and its temporary file. -/
structure Save.Holding (C : Codec (List β)) (f : Folder Str β) (doc : Doc) (p : Save β) :
    Prop where
  bytes : p.bytes = C.save doc.changes
  progress : p.Progress f

/-- What is on disk is in the document, and one save at most is under way. -/
structure Session.Sound (C : Codec (List β)) (f : Folder Str β) (past : Past) (v : Session β) :
    Prop where
  loaded : ∀ b cs, f.read docName = some b → C.load b = .ok cs → cs ⊆ v.doc.changes
  had : v.doc.changes ∈ past.had
  saves : ∀ i p, v.saves[i]? = some p → p.Idle ∨ (v.lock = some i ∧ p.Holding C f v.doc)

/-- The changes are in `doc.bin`. -/
def Stored (C : Codec (List β)) (f : Folder Str β) (changes : List Change) : Prop :=
  ∃ b cs, f.read docName = some b ∧ C.load b = .ok cs ∧ changes ⊆ cs

namespace World

structure Sound (C : Codec (List β)) (x : World β × Past) : Prop where
  whole : ∀ b, x.1.folder.read docName = some b → ∃ cs ∈ x.2.had, b = C.save cs
  stored : x.2.saved = [] ∨ Stored C x.1.folder x.2.saved
  session : ∀ v, x.1.vault = some v → v.Sound C x.1.folder x.2

end World

variable {f f' : Folder Str β} {v v' : Session β} {past : Past} {i n : Nat} {p p' : Save β}

theorem Stored.congr {changes : List Change} (h : Stored C f changes)
    (hread : f'.read docName = f.read docName) : Stored C f' changes := by
  obtain ⟨b, cs, hb, hcs⟩ := h
  exact ⟨b, cs, hread.trans hb, hcs⟩

/-- One save changes, the others wait or have returned. -/
theorem Session.Sound.set (h : v.Sound C f past) (hlock : v.lock = none ∨ v.lock = some i)
    {lock : Option Nat} {doc : Doc} (hp : p'.Idle ∨ (lock = some i ∧ p'.Holding C f' doc)) :
    ∀ j p, (v.saves.set i p')[j]? = some p →
      p.Idle ∨ (lock = some j ∧ p.Holding C f' doc) := by
  intro j p hj
  rw [List.getElem?_set] at hj
  split at hj
  next hij =>
    split at hj
    next => exact Option.some.inj hj ▸ hij ▸ hp
    next => cases hj
  next hij =>
    refine .inl ((h.saves j p hj).resolve_right fun ⟨hj, _⟩ => ?_)
    obtain hnone | hsome := hlock
    · cases hnone.symm.trans hj
    · exact hij (Option.some.inj (hsome.symm.trans hj))

theorem Save.not_idle_of_goOn [Inhabited β] (hs : p.goOn f n = some (f', p')) : ¬ p.Idle := by
  rintro (hplace | ⟨ok, hplace⟩) <;> simp [Save.goOn, hplace] at hs

@[simp] theorem Session.after_doc : (v.after i p').doc = v.doc := by
  unfold Session.after
  split <;> rfl

@[simp] theorem Session.after_saves : (v.after i p').saves = v.saves.set i p' := by
  unfold Session.after
  split <;> rfl

/-- The save that has the lock keeps it until it returns. -/
theorem Session.Sound.after (h : v.Sound C f past) (hlock : v.lock = some i)
    (hp : p'.Holding C f' v.doc) : ∀ j p, (v.after i p').saves[j]? = some p →
      p.Idle ∨ ((v.after i p').lock = some j ∧ p.Holding C f' (v.after i p').doc) := by
  have hkeeps : p'.Idle ∨ ((v.after i p').lock = some i ∧ p'.Holding C f' v.doc) := by
    unfold Session.after
    split
    next ok hplace => exact .inl (.inr ⟨ok, hplace⟩)
    next => exact .inr ⟨hlock, hp⟩
  simpa using h.set (.inr hlock) hkeeps

namespace World

variable {s s' : World β} {a : Act}

/-- A step that leaves `doc.bin` and lets the document grow. -/
theorem Sound.keep (h : Sound C (⟨f, some v⟩, past)) (hread : f'.read docName = f.read docName)
    (hgrows : v.doc.changes ⊆ v'.doc.changes)
    (hquiet : (⟨f', some v'⟩ : World β).reports a = false)
    (hsaves : ∀ j p, v'.saves[j]? = some p →
      p.Idle ∨ (v'.lock = some j ∧ p.Holding C f' v'.doc)) :
    Sound C (⟨f', some v'⟩, remember s a ⟨f', some v'⟩ past) := by
  have hsaved : (remember s a ⟨f', some v'⟩ past).saved = past.saved := by
    simp only [remember, hquiet, Bool.false_eq_true, if_false]
  refine ⟨fun b hb => ?_, ?_, fun v₁ hv₁ => ?_⟩
  · obtain ⟨cs, hcs, hb⟩ := h.whole b (hread.symm.trans hb)
    exact ⟨cs, List.mem_append_left _ hcs, hb⟩
  · rw [hsaved]
    exact h.stored.imp_right (·.congr hread)
  · obtain rfl := Option.some.inj hv₁
    refine ⟨fun b cs hb hload => ?_, List.mem_append_right _ (List.mem_singleton_self _), hsaves⟩
    exact List.Subset.trans ((h.session v rfl).loaded b cs (hread.symm.trans hb) hload) hgrows

/-- A whole save takes the place of `doc.bin`, and says so. -/
theorem Sound.publish (h : Sound C (⟨f, some v⟩, past))
    (hread : f'.read docName = some (C.save v.doc.changes)) (hdoc : v'.doc = v.doc)
    (hreports : (⟨f', some v'⟩ : World β).reports a = true)
    (hsaves : ∀ j p, v'.saves[j]? = some p →
      p.Idle ∨ (v'.lock = some j ∧ p.Holding C f' v'.doc)) :
    Sound C (⟨f', some v'⟩, remember s a ⟨f', some v'⟩ past) := by
  have hsaved : (remember s a ⟨f', some v'⟩ past).saved = v'.doc.changes := by
    simp only [remember, hreports, if_true]
  obtain ⟨cs', hload, hcs'⟩ := C.load_save v.doc.changes
  refine ⟨fun b hb => ?_, .inr ?_, fun v₁ hv₁ => ?_⟩
  · obtain rfl := Option.some.inj (hread.symm.trans hb)
    exact ⟨v.doc.changes, List.mem_append_left _ (h.session v rfl).had, rfl⟩
  · rw [hsaved, hdoc]
    exact ⟨_, cs', hread, hload, fun c hc => (hcs' c).mpr hc⟩
  · obtain rfl := Option.some.inj hv₁
    refine ⟨fun b cs hb hload' => ?_, List.mem_append_right _ (List.mem_singleton_self _), hsaves⟩
    obtain rfl := Option.some.inj (hread.symm.trans hb)
    obtain rfl := Except.ok.inj (hload.symm.trans hload')
    rw [hdoc]
    exact fun c hc => (hcs' c).mp hc

theorem reports_next (hp : v.saves[i]? = some p) (p' : Save β)
    (hsaves : v'.saves = v.saves.set i p') :
    (⟨f', some v'⟩ : World β).reports (.next i n) = p'.place.succeeded := by
  have hset : v'.saves[i]? = some p' := by
    rw [hsaves, List.getElem?_set_self (List.getElem?_eq_some_iff.mp hp).1]
  simp [reports, hset]

/-- A save that has not returned success reports none. -/
theorem not_reports (hp : v.saves[i]? = some p) (hsaves : v'.saves = v.saves.set i p')
    (hplace : p'.place.succeeded = false) :
    (⟨f', some v'⟩ : World β).reports (.next i n) = false :=
  (reports_next hp p' hsaves).trans hplace

theorem Sound.fails (h : Sound C (⟨f, some v⟩, past)) (hp : v.saves[i]? = some p)
    (hidle : ¬ p.Idle) :
    Sound C (⟨f, some ⟨v.doc, none, v.saves.set i {p with place := .returned false}⟩⟩,
      remember s (.fails i)
        ⟨f, some ⟨v.doc, none, v.saves.set i {p with place := .returned false}⟩⟩ past) := by
  have hv := h.session v rfl
  exact h.keep rfl (List.Subset.refl _) rfl
    (hv.set (.inr ((hv.saves i p hp).resolve_left hidle).1) (.inl (.inr ⟨false, rfl⟩)))

/-- Another document, while no save holds the lock. -/
theorem Sound.change (h : Sound C (⟨f, some v⟩, past)) (hlock : v.lock = none) {doc : Doc}
    (hgrows : v.doc.changes ⊆ doc.changes)
    (hquiet : (⟨f, some {v with doc}⟩ : World β).reports a = false) :
    Sound C (⟨f, some {v with doc}⟩, remember s a ⟨f, some {v with doc}⟩ past) := by
  refine h.keep rfl hgrows hquiet fun j p hj => .inl ?_
  refine ((h.session v rfl).saves j p hj).resolve_right fun ⟨hj, _⟩ => ?_
  cases hlock.symm.trans hj

theorem load_of_read {vaultId : Str} {supply : Supply} {b : List β}
    (hread : s.folder.read docName = some b) (hload : C.load b = .ok cs) :
    s.load C A vaultId supply = .ok (.ofChanges A cs supply 0) := by
  simp only [load, hread, hload]
  rfl

theorem Sound.kept (h : Sound C (s, past)) (vaultId : Str) (supply : Supply) :
    ∃ doc, s.load C A vaultId supply = .ok doc ∧ past.saved ⊆ doc.changes := by
  cases hread : s.folder.read docName with
  | none =>
    refine ⟨.new A vaultId supply, by simp only [load, hread], ?_⟩
    obtain hnone | ⟨b, cs, hb, -⟩ := h.stored
    · rw [hnone]
      exact List.nil_subset _
    · cases hread.symm.trans hb
  | some b =>
    obtain ⟨cs, -, rfl⟩ := h.whole b hread
    obtain ⟨cs', hload, -⟩ := C.load_save cs
    refine ⟨_, load_of_read hread hload, ?_⟩
    obtain hnone | ⟨b, cs'', hb, hload', hsub⟩ := h.stored
    · rw [hnone]
      exact List.nil_subset _
    · obtain rfl := Option.some.inj (hread.symm.trans hb)
      obtain rfl := Except.ok.inj (hload.symm.trans hload')
      exact hsub

variable [Inhabited β]

/-- **One call of a save**, and what becomes of `doc.bin`. -/
theorem Sound.goOn (h : Sound C (⟨f, some v⟩, past)) (hp : v.saves[i]? = some p)
    (hs : World.goOn C f v i n p = some (f', v')) :
    Sound C (⟨f', some v'⟩, remember s (.next i n) ⟨f', some v'⟩ past) ∧
      (f'.read docName = f.read docName ∨ f'.read docName = some (C.save v.doc.changes)) := by
  have hv := h.session v rfl
  unfold World.goOn at hs
  split at hs
  next hplace =>
    obtain ⟨hlock, hs⟩ := Option.ite_none_right_eq_some.mp hs
    obtain ⟨rfl, rfl⟩ := Prod.mk.inj (Option.some.inj hs)
    exact ⟨h.keep rfl (Doc.changes_before_committed v.doc 0).subset (not_reports hp rfl rfl)
      (hv.set (.inl hlock) (.inr ⟨rfl, rfl, nofun, nofun⟩)), .inl rfl⟩
  next =>
    obtain ⟨⟨f₁, p'⟩, hgo, heq⟩ := Option.map_eq_some_iff.mp hs
    obtain ⟨rfl, rfl⟩ := Prod.mk.inj heq
    obtain ⟨hlock, hbytes, hprogress⟩ := (hv.saves i p hp).resolve_left (Save.not_idle_of_goOn hgo)
    obtain ⟨hprogress', hbytes', hdone⟩ := hprogress.goOn hgo
    have hholding : p'.Holding C f₁ v.doc := ⟨hbytes'.trans hbytes, hprogress'⟩
    have hsaves := hv.after hlock hholding
    obtain ⟨hplace, hread⟩ | ⟨hplace, hread⟩ := hdone
    · exact ⟨h.keep hread (by simp) (not_reports hp (by simp) hplace) hsaves, .inl hread⟩
    · rw [hbytes] at hread
      exact ⟨h.publish hread (by simp) ((reports_next hp p' (by simp)).trans (by rw [hplace]; rfl))
        hsaves, .inr hread⟩

/-- Only saves write to the directory. -/
theorem folder_step {s' : World β} (hs : World.step C L A s a = some s') (ha : a.saves = false) :
    s'.folder = s.folder := by
  cases a with
  | next i n => cases ha
  | «open» vaultId supply =>
    simp only [World.step] at hs
    split at hs
    next =>
      split at hs
      next => exact Option.some.inj hs ▸ rfl
      next => cases hs
    next => cases hs
  | crash => exact Option.some.inj hs ▸ rfl
  | save =>
    obtain ⟨v, -, rfl⟩ := Option.map_eq_some_iff.mp hs
    rfl
  | operate op =>
    obtain ⟨v, -, hs⟩ := Option.bind_eq_some_iff.mp hs
    split at hs
    next => exact Option.some.inj hs ▸ rfl
    next => cases hs
  | receive other =>
    obtain ⟨v, -, hs⟩ := Option.bind_eq_some_iff.mp hs
    split at hs
    next => exact Option.some.inj hs ▸ rfl
    next => cases hs
  | fails i =>
    obtain ⟨v, -, hs⟩ := Option.bind_eq_some_iff.mp hs
    obtain ⟨p, -, hs⟩ := Option.bind_eq_some_iff.mp hs
    split at hs
    next => exact Option.some.inj hs ▸ rfl
    next => exact Option.some.inj hs ▸ rfl
    next => exact Option.some.inj hs ▸ rfl
    next => cases hs

/-- **One step.** -/
theorem Sound.step {s' : World β} (h : Sound C (s, past)) (hs : World.step C L A s a = some s') :
    Sound C (s', remember s a s' past) := by
  obtain ⟨f, vault⟩ := s
  cases a with
  | «open» vaultId supply =>
    simp only [World.step] at hs
    split at hs
    next found doc hload =>
      split at hs
      next =>
        obtain rfl := Option.some.inj hs
        refine ⟨fun b hb => ?_, h.stored, fun v hv => ?_⟩
        · obtain ⟨cs, hcs, hb⟩ := h.whole b hb
          exact ⟨cs, List.mem_append_left _ hcs, hb⟩
        · obtain rfl := Option.some.inj hv
          refine ⟨fun b cs hb hcs => ?_, List.mem_append_right _ (List.mem_singleton_self _), ?_⟩
          · have hfound : load C A ⟨f, none⟩ vaultId supply = _ := load_of_read hb hcs
            obtain rfl := Except.ok.inj (hload.symm.trans hfound)
            exact List.Subset.refl _
          · exact fun j p hj => by cases hj
      next => cases hs
    next => cases hs
  | operate op =>
    obtain ⟨v, rfl, hs⟩ := Option.bind_eq_some_iff.mp hs
    split at hs
    next hlock => exact Option.some.inj hs ▸ h.change hlock (changes_subset_after op v.doc) rfl
    next => cases hs
  | receive other =>
    obtain ⟨v, rfl, hs⟩ := Option.bind_eq_some_iff.mp hs
    split at hs
    next hlock => exact Option.some.inj hs ▸ h.change hlock (changes_subset_merge v.doc other) rfl
    next => cases hs
  | save =>
    obtain ⟨v, rfl, rfl⟩ := Option.map_eq_some_iff.mp hs
    refine h.keep rfl (List.Subset.refl _) rfl fun j p hj => ?_
    rw [List.getElem?_append] at hj
    split at hj
    next => exact (h.session v rfl).saves j p hj
    next =>
      have hp : p = ⟨[], .waiting⟩ := by simpa using List.mem_of_getElem? hj
      exact .inl (.inl (by rw [hp]))
  | next i n =>
    obtain ⟨v, rfl, hs⟩ := Option.bind_eq_some_iff.mp hs
    obtain ⟨p, hp, hs⟩ := Option.bind_eq_some_iff.mp hs
    obtain ⟨⟨f', v'⟩, hgo, rfl⟩ := Option.map_eq_some_iff.mp hs
    exact (h.goOn hp hgo).1
  | fails i =>
    obtain ⟨v, rfl, hs⟩ := Option.bind_eq_some_iff.mp hs
    obtain ⟨p, hp, hs⟩ := Option.bind_eq_some_iff.mp hs
    split at hs
    next hplace => exact Option.some.inj hs ▸ h.fails hp (by simp [Save.Idle, hplace])
    next hplace => exact Option.some.inj hs ▸ h.fails hp (by simp [Save.Idle, hplace])
    next hplace => exact Option.some.inj hs ▸ h.fails hp (by simp [Save.Idle, hplace])
    next => cases hs
  | crash =>
    obtain rfl := Option.some.inj hs
    refine ⟨fun b hb => ?_, h.stored, nofun⟩
    obtain ⟨cs, hcs, hb⟩ := h.whole b hb
    exact ⟨cs, List.mem_append_left _ hcs, hb⟩

theorem Sound.read_step (h : Sound C (s, past)) (hs : World.step C L A s a = some s') :
    s'.folder.read docName = s.folder.read docName ∨
      ∃ v, s.vault = some v ∧ s'.folder.read docName = some (C.save v.doc.changes) := by
  obtain ⟨f, vault⟩ := s
  cases a with
  | next i n =>
    obtain ⟨v, rfl, hs⟩ := Option.bind_eq_some_iff.mp hs
    obtain ⟨p, hp, hs⟩ := Option.bind_eq_some_iff.mp hs
    obtain ⟨⟨f', v'⟩, hgo, rfl⟩ := Option.map_eq_some_iff.mp hs
    have hread := (h.goOn (s := ⟨f, some v⟩) hp hgo).2
    exact hread.imp_right fun hread => ⟨v, rfl, hread⟩
  | _ => exact .inl (congrArg (Folder.read · docName) (folder_step hs rfl))

/-- The next content of `doc.bin` has what this one has. -/
theorem Sound.grows (h : Sound C (s, past)) (hs : World.step C L A s a = some s') {b : List β}
    (hread : s.folder.read docName = some b) (hload : C.load b = .ok cs) :
    ∃ b' cs', s'.folder.read docName = some b' ∧ C.load b' = .ok cs' ∧ cs ⊆ cs' := by
  obtain hsame | ⟨v, hv, hsaved⟩ := h.read_step hs
  · exact ⟨b, cs, hsame.trans hread, hload, List.Subset.refl _⟩
  · obtain ⟨cs', hload', hcs'⟩ := C.load_save v.doc.changes
    exact ⟨_, cs', hsaved, hload', fun c hc =>
      (hcs' c).mpr ((h.session v hv).loaded b cs hread hload hc)⟩

theorem Sound.law {x : World β × Past} (h : Sound C x) : Durable C L A x where
  whole := h.whole
  grows := by
    intro a y b cs hs hread hload
    exact Sound.grows h (Machine.traced_eq_some.mp hs).1 hread hload
  kept := by
    intro vaultId supply
    obtain ⟨doc, hload, hsaved⟩ := h.kept (A := A) vaultId supply
    refine ⟨doc, hload, hsaved, fun hvault hid => ?_⟩
    simp only [World.step, hvault, hload, hid, if_true]

/-- **A vault may stop at any moment.** From a directory whose `doc.bin`, if there is one, is a
save of a document there was, whatever is opened, changed, received, saved and stopped: `doc.bin`
is a whole save of what a document had, only ever replaced by one with no change less, and the
next `Vault::open` finds every change there was when a save last reported success. -/
theorem durable {f : Folder Str β} {had : List (List Change)}
    (hf : ∀ b, f.read docName = some b → ∃ cs ∈ had, b = C.save cs) {x : World β × Past}
    (h : Machine.Reach (move C L A) (fun _ _ => True) (⟨f, none⟩, ⟨had, []⟩) x) :
    Durable C L A x := by
  refine Sound.law (h.invariant (I := Sound C) ⟨hf, .inl rfl, fun _ hv => by cases hv⟩ ?_)
  rintro x a ⟨s', past'⟩ hx - hs
  obtain ⟨hstep, hpast⟩ := Machine.traced_eq_some.mp hs
  dsimp only at hstep hpast
  subst hpast
  exact Sound.step hx hstep

/-! ### A vault that stops while it saves -/

/-- A save that goes through, an operation, and a save that does not. -/
private def stopping : List Act :=
  [.open (txt "vault") (.numbered '1' 16), .operate (.writeTextFile (txt "x.md") []), .save,
    .next 0 0, .next 0 0, .next 0 1, .next 0 1, .next 0 0, .next 0 0,
    .operate (.deleteFile (txt "x.md")), .save, .next 1 0, .next 1 0, .next 1 2, .crash]

/-- What it had saved is there, next to the beginning of what it had not. -/
theorem durable_stopping : ∃ x : World Change × Past, x.1.vault = none ∧ x.2.saved.length = 2 ∧
    (x.1.folder.read tmpName).map List.length = some 2 ∧
    Durable Host.plainCodec .plain .plain x := by
  have hrun : ((Machine.run (move Host.plainCodec .plain .plain) (⟨.empty, none⟩, ⟨[], []⟩)
      stopping).any fun x => x.1.vault.isNone && decide (x.2.saved.length = 2) &&
        decide ((x.1.folder.read tmpName).map List.length = some 2)) = true := by
    decide +kernel
  obtain ⟨x, hs, hread⟩ := (Option.any_eq_true _ _).mp hrun
  simp only [Bool.and_eq_true, decide_eq_true_eq, Option.isNone_iff_eq_none] at hread
  exact ⟨x, hread.1.1, hread.1.2, hread.2,
    durable (fun _ h => by cases h) (.of_run (.of_forall (fun _ _ => trivial) _) hs)⟩

end World

end AgentSync.Vault
