import AgentSync.Doc.Replica

/-! What operations do to what is read.

An entry reads as before when none of its registers was written, so an operation is
described by the entry it is about. In a sound document every entry can be read. -/
namespace AgentSync

variable {L : Crates} {A : Automerge} {N : Nfc} {r r' : Root}

namespace Root

/-! ### Reading what was not written -/

/-- The registers of one file are the same in both. -/
abbrev SameFile (fid : Str) : Root → Root → Prop := SameAt fun b => b.fileId = some fid

abbrev SameDirectory (did : Str) : Root → Root → Prop := SameAt fun b => b.dirId = some did

theorem mapObj_congr {m : RootMap} (h : r.get (.rootMap m) = r'.get (.rootMap m)) :
    r.mapObj m = r'.mapObj m := by
  rw [mapObj, mapObj, h]

theorem hasObject_congr {a : Addr} (h : r.get a = r'.get a) : r.hasObject a = r'.hasObject a := by
  rw [hasObject, hasObject, h]

theorem getStr_congr {a : Addr} (h : r.get a = r'.get a) : r.getStr L a = r'.getStr L a := by
  rw [getStr, getStr, h]

theorem getInt_congr {a : Addr} (h : r.get a = r'.get a) : r.getInt L a = r'.getInt L a := by
  rw [getInt, getInt, h]

theorem getText_congr {fid : Str} (h : SameFile fid r r') : r.getText fid = r'.getText fid := by
  rw [getText, getText, h _ rfl]

theorem readFileMeta_congr {fid : Str} (hmap : r.mapObj .files = r'.mapObj .files)
    (h : SameFile fid r r') : r.readFileMeta L fid = r'.readFileMeta L fid := by
  have hfield (f : FileField) : r.get (.fileField fid f) = r'.get (.fileField fid f) := h _ rfl
  simp only [readFileMeta, hmap, hasObject_congr (h (.file fid) rfl),
    hasObject_congr (h (.fileMeta fid) rfl), getStr_congr (hfield _), getInt_congr (hfield _),
    getStr_congr (h (.binaryHash fid) rfl)]

theorem readDirectoryMeta_congr {did : Str} (h : SameDirectory did r r') :
    r.readDirectoryMeta L did = r'.readDirectoryMeta L did := by
  have hfield (f : DirField) : r.get (.dirField did f) = r'.get (.dirField did f) := h _ rfl
  simp only [readDirectoryMeta, hasObject_congr (h (.dir did) rfl), getStr_congr (hfield _),
    getInt_congr (hfield _)]

/-- Writes to other entries leave a file alone. -/
theorem sameFile_applyAll {ops : List Op} {fid : Str}
    (h : ∀ op ∈ ops, op.target.fileId ≠ some fid ∧ op.target ≠ .rootMap .files) :
    SameFile fid (applyAll r ops) r := by
  intro b hb
  refine get_applyAll_of_ne fun op hop => ⟨?_, fun hanc => ?_⟩
  · rintro rfl
    exact (h op hop).1 hb
  · obtain ⟨hne, hroot⟩ := h op hop
    cases b <;> simp [Addr.ancestors] at hanc <;> grind [Addr.fileId]

theorem sameDirectory_applyAll {ops : List Op} {did : Str}
    (h : ∀ op ∈ ops, op.target.dirId ≠ some did ∧ op.target ≠ .rootMap .directories) :
    SameDirectory did (applyAll r ops) r := by
  intro b hb
  refine get_applyAll_of_ne fun op hop => ⟨?_, fun hanc => ?_⟩
  · rintro rfl
    exact (h op hop).1 hb
  · obtain ⟨hne, hroot⟩ := h op hop
    cases b <;> simp [Addr.ancestors] at hanc <;> grind [Addr.dirId]

/-! ### Sound content can be read -/

theorem Typed.getInt (hr : r.Typed N) {a : Addr} (ha : a.isContent = false)
    (hfits : ∀ v, a.Fits N v → ∃ n, v = .scalar (.int n)) : ∃ n, r.getInt L a = .ok n := by
  cases h : r.get a with
  | none => exact ⟨none, getInt_of_none h⟩
  | some v =>
    obtain ⟨n, rfl⟩ := hfits v (hr a v ha h)
    exact ⟨some n, getInt_of_get h⟩

theorem Typed.getStr (hr : r.Typed N) {a : Addr} (ha : a.isContent = false)
    (hfits : ∀ v, a.Fits N v → ∃ s, v = .scalar (.str s)) :
    (r.get a = none ∧ r.getStr L a = .ok none) ∨ ∃ s, r.getStr L a = .ok (some s) := by
  cases h : r.get a with
  | none => exact .inl ⟨rfl, by rw [Root.getStr, h]⟩
  | some v =>
    obtain ⟨s, rfl⟩ := hfits v (hr a v ha h)
    exact .inr ⟨s, getStr_of_get h⟩

/-- The objects of a sound document are maps. -/
theorem Typed.writable (hr : r.Typed N) {a : Addr} (ha : a.isContent = false)
    (hfits : ∀ v, a.Fits N v → v = .map) : r.writable L a = .ok () := by
  cases h : r.get a with
  | none => rw [Root.writable, h]
  | some v =>
    obtain rfl := hfits v (hr a v ha h)
    rw [Root.writable, h]

/-- **Every file of a sound document can be read.** -/
theorem Typed.readFileMeta (hr : r.Typed N) (hc : r.Complete) (hmap : r.mapObj .files = .ok ())
    (fid : Str) : ∃ entry, r.readFileMeta L fid = .ok entry := by
  by_cases hfile : r.hasObject (.file fid) = true
  · by_cases hmeta : r.hasObject (.fileMeta fid) = true
    · have hsome := get_of_hasObject hmeta
      obtain ⟨v, hv⟩ := Option.ne_none_iff_exists'.mp ((hc fid).path hsome)
      obtain ⟨p, rfl, -⟩ := hr _ _ rfl hv
      obtain ⟨v, hk⟩ := Option.ne_none_iff_exists'.mp ((hc fid).kind hsome)
      obtain ⟨k, rfl⟩ := hr _ _ rfl hk
      obtain ⟨size, hsize⟩ := hr.getInt (L := L) (a := .fileField fid .size) rfl fun _ h => h
      obtain ⟨c, hcreated⟩ := hr.getInt (L := L) (a := .fileField fid .createdAt) rfl fun _ h => h
      obtain ⟨u, hupdated⟩ := hr.getInt (L := L) (a := .fileField fid .updatedAt) rfl fun _ h => h
      obtain ⟨d, hdeleted⟩ := hr.getInt (L := L) (a := .fileField fid .deletedAt) rfl fun _ h => h
      have hhash : ∃ h, r.getStr L (.binaryHash fid) = .ok h := by
        obtain ⟨-, h⟩ | ⟨s, h⟩ := hr.getStr (L := L) (a := .binaryHash fid) rfl fun _ h => h
        · exact ⟨none, h⟩
        · exact ⟨some s, h⟩
      obtain ⟨b, hb⟩ := hhash
      exact ⟨some ⟨fid, p, k, size.getD 0, c.getD 0, u.getD (c.getD 0), d, b⟩,
        readFileMeta_eq_some.mpr ⟨hmap, hfile, hmeta, getStr_of_get hv,
          ⟨k.asStr, getStr_of_get hk, FileKind.parse_asStr k⟩, ⟨size, hsize, rfl⟩,
          ⟨c, hcreated, rfl⟩, ⟨u, hupdated, rfl⟩, hdeleted, hb, rfl⟩⟩
    · exact ⟨none, by simp [Root.readFileMeta, hmap, hmeta, bind, Except.bind, pure, Except.pure]⟩
  · exact ⟨none, by simp [Root.readFileMeta, hmap, hfile, bind, Except.bind, pure, Except.pure]⟩

theorem Typed.readDirectoryMeta (hr : r.Typed N) (did : Str) :
    ∃ entry, r.readDirectoryMeta L did = .ok entry := by
  unfold Root.readDirectoryMeta
  obtain ⟨c, hc⟩ := hr.getInt (L := L) (a := .dirField did .createdAt) rfl fun _ h => h
  obtain ⟨d, hd⟩ := hr.getInt (L := L) (a := .dirField did .deletedAt) rfl fun _ h => h
  split
  next => exact ⟨none, rfl⟩
  next =>
    have hpath := hr.getStr (L := L) (a := .dirField did .path) rfl
      fun v ⟨p, hp, _⟩ => ⟨p, hp⟩
    obtain ⟨-, hp⟩ | ⟨p, hp⟩ := hpath
    · exact ⟨none, by simp [hp, bind, Except.bind, pure, Except.pure]⟩
    · exact ⟨_, by simp [hp, hc, hd, bind, Except.bind, pure, Except.pure]; rfl⟩

/-- A sound document lists its files. -/
theorem Typed.listFiles (hr : r.Typed N) (hc : r.Complete) (hmap : r.mapObj .files = .ok ()) :
    ∃ files, r.listFiles L = .ok files := by
  obtain ⟨metas, hmetas⟩ := exists_liveFilesIn (L := L) r.fileKeys
    fun fid _ => hr.readFileMeta hc hmap fid
  exact ⟨_, listFiles_eq_ok.mpr ⟨hmap, metas, hmetas, rfl⟩⟩

theorem Typed.listDirectories (hr : r.Typed N) (hmap : r.mapObj .directories = .ok ()) :
    ∃ dirs, r.listDirectories L = .ok dirs := by
  obtain ⟨metas, hmetas⟩ := exists_liveDirectoriesIn (L := L) r.dirKeys
    fun did _ => hr.readDirectoryMeta did
  exact ⟨_, listDirectories_eq_ok.mpr ⟨hmap, metas, hmetas, rfl⟩⟩

/-- The path of a listed file is normalized. -/
theorem Typed.normalized (hr : r.Typed N) {fid : Str} {m : FileMeta}
    (h : r.readFileMeta L fid = .ok (some m)) : Path.Normalized N m.path := by
  have hpath := (readFileMeta_eq_some.mp h).2.2.2.1
  obtain ⟨p, hp, hnorm⟩ := hr _ _ rfl (getStr_eq_some.mp hpath)
  obtain rfl : m.path = p := by simpa using hp
  exact hnorm

end Root

/-! ### Writing an entry that is there -/

namespace Doc

variable {d d' : Doc}

theorem bind_eq_ok {α β : Type} {x : DocM α} {f : α → DocM β} {b : β} {d'' : Doc} :
    (x >>= f) d = .ok b d'' ↔ ∃ a d', x d = .ok a d' ∧ f a d' = .ok b d'' := by
  show EStateM.bind x f d = _ ↔ _
  unfold EStateM.bind
  cases h : x d with
  | ok a d' => simp
  | error e d' => simp

theorem read_eq_ok {α : Type} {f : Root → Except Error α} {a : α} :
    read f d = .ok a d' ↔ d' = d ∧ f d.root = .ok a := by
  unfold read
  cases h : f d.root with
  | ok a' => simp [eq_comm (a := d), and_comm]
  | error e => simp

theorem fork_eq_ok {heads : List ChangeHash} {past : Doc} :
    fork A heads d = .ok past d' ↔ d' = d ∧ forkAt A d heads = .ok past := by
  unfold fork
  cases h : forkAt A d heads with
  | ok past' => simp [eq_comm (a := d), and_comm]
  | error e => simp

/-- A path that does not normalize fails the operation before anything else. -/
theorem lift_error {α β : Type} {x : Except Error α} {e : Error} (h : x = .error e)
    (f : α → DocM β) : (lift x >>= f) d = .error e d := by
  show EStateM.bind (lift x) f d = _
  simp only [EStateM.bind, lift, read, h]

theorem lift_lift_error {α β γ : Type} {x : Except Error α} {y : Except Error β} {a : α} {e : Error}
    (hx : x = .ok a) (hy : y = .error e) (f : α → β → DocM γ) :
    (lift x >>= fun a => lift y >>= f a) d = .error e d := by
  show EStateM.bind (lift x) _ d = _
  simp only [EStateM.bind, lift, read, hx]
  exact lift_error hy _

theorem unit_error {α : Type} {x : DocM α} {e : Error} (h : x d = .error e d') :
    (x >>= fun _ => pure ()) d = (.error e d' : EStateM.Result Error Doc Unit) := by
  show EStateM.bind x _ d = _
  simp only [EStateM.bind, h]

theorem unit_ok {α : Type} {x : DocM α} {a : α} (h : x d = .ok a d') :
    (x >>= fun _ => pure ()) d = (.ok () d' : EStateM.Result Error Doc Unit) := by
  show EStateM.bind x _ d = _
  simp only [EStateM.bind, h]
  rfl

theorem after_ok {α : Type} {x : DocM α} {a : α} (h : x d = .ok a d') : d.after x = d' := by
  rw [Doc.after, h]

theorem after_error {α : Type} {x : DocM α} {e : Error} (h : x d = .error e d') :
    d.after x = d' := by
  rw [Doc.after, h]

/-- The operation succeeds with a result and a document that `Q` holds of. -/
def Ends {α : Type} (x : DocM α) (d : Doc) (Q : α → Doc → Prop) : Prop :=
  ∃ a d', x d = .ok a d' ∧ Q a d'

namespace Ends

variable {α β : Type} {x : DocM α} {Q : α → Doc → Prop} {R : β → Doc → Prop}

protected theorem pure {a : α} (h : Q a d) : Ends (pure a) d Q := ⟨a, d, rfl, h⟩

protected theorem bind {f : α → DocM β} (h : Ends x d fun a d' => Ends (f a) d' R) :
    Ends (x >>= f) d R := by
  obtain ⟨a, d', hx, b, d'', hf, hR⟩ := h
  refine ⟨b, d'', ?_, hR⟩
  show EStateM.bind x f d = _
  rw [EStateM.bind, hx]
  exact hf

theorem read {f : Root → Except Error α} {a : α} (h : f d.root = .ok a) (hQ : Q a d) :
    Ends (read f) d Q := ⟨a, d, by rw [Doc.read, h], hQ⟩

theorem lift {r : Except Error α} {a : α} (h : r = .ok a) (hQ : Q a d) : Ends (lift r) d Q :=
  read h hQ

theorem ask {f : Root → α} (hQ : Q (f d.root) d) : Ends (ask f) d Q := read rfl hQ

theorem emit {ops : List Op} {Q : Unit → Doc → Prop} (hQ : Q () (d.emitted ops)) :
    Ends (emit ops) d Q := ⟨(), _, rfl, hQ⟩

theorem nowMs {Q : Int → Doc → Prop}
    (hQ : Q (d.supply.now d.draws) {d with draws := d.draws + 1}) : Ends nowMs d Q :=
  ⟨_, _, rfl, hQ⟩

theorem newId {Q : Str → Doc → Prop}
    (hQ : Q (d.supply.id d.draws) {d with draws := d.draws + 1}) : Ends newId d Q :=
  ⟨_, _, rfl, hQ⟩

theorem commitNow {Q : Unit → Doc → Prop}
    (hQ : Q () ({d with draws := d.draws + 1}.committed (d.supply.now d.draws))) :
    Ends commitNow d Q := ⟨(), _, rfl, hQ⟩

theorem weaken {Q' : α → Doc → Prop} (h : Ends x d Q) (hQ : ∀ a d', Q a d' → Q' a d') :
    Ends x d Q' := by
  obtain ⟨a, d', hx, h⟩ := h
  exact ⟨a, d', hx, hQ a d' h⟩

end Ends

@[simp] theorem emitted_root (ops : List Op) : (d.emitted ops).root = applyAll d.root ops := rfl

@[simp] theorem committed_root (time : Int) : (d.committed time).root = d.root := by
  unfold committed
  split <;> rfl

@[simp] theorem committed_pending (d : Doc) (time : Int) : (d.committed time).pending = [] := by
  unfold committed
  split
  next h => exact h
  next => rfl

theorem changes_before_committed (d : Doc) (time : Int) :
    d.changes <+: (d.committed time).changes := by
  unfold committed
  split
  next => exact List.prefix_refl _
  next => exact List.prefix_append _ _

/-- The fields that `write_text_file` sets on an entry it found. -/
def textFields (fid : Str) (size now : Int) : List Op :=
  [.put (.fileField fid .size) (.int size), .put (.fileField fid .updatedAt) (.int now),
    .put (.fileField fid .kind) (.str FileKind.text.asStr),
    .delete (.fileField fid .deletedAt)]

/-- The content of a document after `write_text_file` found an entry. -/
def textWritten (r : Root) (fid content : Str) (now : Int) : Root :=
  applyAll (applyAll r (setTextOps fid content (r.getText fid)))
    (textFields fid (utf8 content).length now)

theorem writeTextFile_found {p fid : Str} (hp : Path.Normalized L.nfc p)
    (hfind : d.root.findFileByPathNormalized L p = .ok (some fid)) (content : Str) :
    Ends (writeTextFile L p content) d fun fid' d' => fid' = fid ∧ ∃ now,
      d'.root = textWritten d.root fid content now := by
  refine .bind (.lift hp (.bind (.nowMs (.bind (.read hfind ?_)))))
  refine .bind (.ask (.bind (.emit (.bind (.commitNow (.pure ⟨rfl, d.supply.now d.draws, ?_⟩))))))
  rw [committed_root, textWritten, ← applyAll_append]
  rfl

theorem getText_textWritten (r : Root) (fid content : Str) (now : Int) :
    (textWritten r fid content now).getText fid = some content := by
  have hframe : (textWritten r fid content now).get (.content fid) =
      (applyAll r (setTextOps fid content (r.getText fid))).get (.content fid) :=
    get_applyAll_of_ne (by simp [textFields, Op.target, Addr.ancestors])
  rw [← getText_setTextOps (r := r), Root.getText, Root.getText, hframe]

theorem get_textWritten (r : Root) {fid : Str} (content : Str) (now : Int) {b : Addr}
    (hb : b ≠ .content fid) : (textWritten r fid content now).get b =
      (applyAll r (textFields fid (utf8 content).length now)).get b :=
  get_applyAll_congr (P := fun b => b ≠ .content fid)
    (by simp [textFields, Op.target]) (fun b hb => get_setTextOps hb) b hb

/-- **The entry that was found reads as the text that was written.** -/
theorem readFileMeta_textWritten {r : Root} {fid content : Str} {m : FileMeta} (now : Int)
    (h : r.readFileMeta L fid = .ok (some m)) :
    (textWritten r fid content now).readFileMeta L fid =
      .ok (some { m with
        kind := .text, size := (utf8 content).length, updatedAt := now, deletedAt := none }) := by
  obtain ⟨hmap, hfile, hmeta, hpath, -, -, hcreated, -, -, hhash, hid⟩ :=
    Root.readFileMeta_eq_some.mp h
  have hget {b : Addr} (hb : b ≠ .content fid) :=
    get_textWritten r content now hb
  have hsame {b : Addr} (hb : b ≠ .content fid)
      (hfields : ∀ op ∈ textFields fid (utf8 content).length now, op.target ≠ b ∧
        op.target ∉ b.ancestors) : (textWritten r fid content now).get b = r.get b :=
    (hget hb).trans (get_applyAll_of_ne hfields)
  refine Root.readFileMeta_eq_some.mpr ⟨?_, ?_, ?_, ?_, ⟨FileKind.text.asStr, ?_, by simp⟩,
    ⟨some _, ?_, rfl⟩, ?_, ⟨some _, ?_, rfl⟩, ?_, ?_, hid⟩
  · rwa [Root.mapObj_congr (hsame (by simp) (by simp [textFields, Op.target, Addr.ancestors]))]
  · rwa [Root.hasObject_congr (hsame (by simp) (by simp [textFields, Op.target, Addr.ancestors]))]
  · rwa [Root.hasObject_congr (hsame (by simp) (by simp [textFields, Op.target, Addr.ancestors]))]
  · rwa [Root.getStr_congr (hsame (by simp) (by simp [textFields, Op.target, Addr.ancestors]))]
  · refine Root.getStr_of_get ?_
    rw [hget (by simp)]
    simp [textFields, Op.apply, Addr.ancestors]
  · refine Root.getInt_of_get ?_
    rw [hget (by simp)]
    simp [textFields, Op.apply, Addr.ancestors]
  · rwa [Root.getInt_congr (hsame (by simp) (by simp [textFields, Op.target, Addr.ancestors]))]
  · refine Root.getInt_of_get ?_
    rw [hget (by simp)]
    simp [textFields, Op.apply, Addr.ancestors]
  · refine Root.getInt_of_none ?_
    rw [hget (by simp)]
    simp [textFields, Op.apply]
  · rwa [Root.getStr_congr (hsame (by simp) (by simp [textFields, Op.target, Addr.ancestors]))]

theorem fileId_of_mem_textWritten {fid content : Str} {current : Option Str} {size now : Int}
    {op : Op} (h : op ∈ setTextOps fid content current ++ textFields fid size now) :
    op.target.fileId = some fid := by
  obtain h | h := List.mem_append.mp h
  · rw [(mem_setTextOps h).1]
    rfl
  · simp only [textFields, List.mem_cons, List.not_mem_nil, or_false] at h
    obtain rfl | rfl | rfl | rfl := h <;> rfl

/-- Nothing else is written. -/
theorem get_textWritten_of_ne {r : Root} {fid content : Str} {now : Int} {b : Addr}
    (hb : b.fileId ≠ some fid) : (textWritten r fid content now).get b = r.get b := by
  rw [textWritten, ← applyAll_append]
  refine get_applyAll_of_ne fun op hop => ?_
  have hop := fileId_of_mem_textWritten hop
  exact ⟨fun h => hb (h ▸ hop), fun hanc => hb (Addr.fileId_of_mem_ancestors hanc hop)⟩

end Doc

end AgentSync
