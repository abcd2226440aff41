import AgentSync.Doc.Committing
import AgentSync.Doc.Lasting

/-! Peers that meet.

A merge is made register by register: what only one side has written reads as on that side
(`Replicas.meets_by_register`), so a file that one device renames and the other edits is renamed
and edited, and one that is deleted while it is edited stays deleted, with the edited text. Peers
that have merged both ways hold the same registers. -/
namespace AgentSync

open Registers (Distinct Forward writesAt)

variable {L : Crates} {A : Automerge} {E : Engine} {vaultId : Str}

namespace Replicas

variable {s s' : Replicas} {i j : Nat} {p q m : Replica} {a : Addr}

/-- What a merge of two peers with closed transactions leaves. -/
structure Met (L : Crates) (E : Engine) (vaultId : Str) (made : List Authored) (p q m : Replica) :
    Prop where
  left : Kept L E vaultId made p.log
  right : Kept L E vaultId made q.log
  both : Kept L E vaultId made m.log
  mem : ∀ c, c ∈ m.log ↔ c ∈ p.log ∨ c ∈ q.log
  closed : p.pending = [] ∧ q.pending = [] ∧ m.pending = []

theorem Inv.met (h : s.Inv L E vaultId) (hfair : Fair L A E vaultId s (.merge i j))
    (hs : Replicas.step L A E vaultId s (.merge i j) = some s') : ∃ p q m,
      s.peers[i]? = some p ∧ s.peers[j]? = some q ∧ s'.peers[i]? = some m ∧
      s'.peers[j]? = some (q.closed E) ∧
      Met L E vaultId s'.made (p.closed E) (q.closed E) m := by
  have hinv' := h.step hfair hs
  have hhash := hfair.2 s' hs
  simp only [Replicas.step] at hs
  split at hs
  next p q hp hq =>
    split at hs
    next => cases hs
    next hne =>
      obtain rfl := Option.some.inj hs
      obtain ⟨hclosed, hi, hj⟩ := h.closed hp hq hne
      have hm := List.getElem?_set_self (a := (p.closed E).take E (q.closed E).log)
        (List.getElem?_eq_some_iff.mp hi).1
      have hkept := (hclosed.peers _ (List.mem_of_getElem? hi)).kept
      have hkept' := (hclosed.peers _ (List.mem_of_getElem? hj)).kept
      exact ⟨p, q, _, hp, hq, hm, (List.getElem?_set_ne hne).trans hj, hkept, hkept',
        (hinv'.peers _ (List.mem_of_getElem? hm)).kept,
        fun c => mem_take hhash hkept.sub hkept'.sub, rfl, rfl, rfl⟩
  next => cases hs

namespace Met

variable {made : List Authored}

theorem symm (h : Met L E vaultId made p q m) : Met L E vaultId made q p m where
  left := h.right
  right := h.left
  both := h.both
  mem := fun c => (h.mem c).trans or_comm
  closed := ⟨h.closed.2.1, h.closed.1, h.closed.2.2⟩

theorem sub (h : Met L E vaultId made p q m) : p.log ⊆ m.log := fun c hc => (h.mem c).mpr (.inl hc)

/-- **What one side has left alone reads as the other side has it.** -/
theorem get_left (h : Met L E vaultId s.made p q m) (hinv : s.Inv L E vaultId)
    (hclean : ∀ c ∈ q.log, c ∉ p.log → ∀ op ∈ c.ops, op.target ∉ a :: a.ancestors) :
    (m.root E).get a = (p.root E).get a := by
  rw [get_root h.closed.2.2, get_root h.closed.1]
  refine hinv.untouched h.left h.both h.sub fun c hc hno op hop k hk _ htarget => ?_
  exact hclean c (((h.mem c).mp hc).resolve_left hno) hno op hop (htarget ▸ hk)

/-- Neither side has made the objects anew that a register is in. -/
def Quiet (p q : Replica) (a : Addr) : Prop :=
  ∀ c ∈ q.log, c ∉ p.log → ∀ op ∈ c.ops, op.target ∉ a.ancestors

/-- Where the writes to a register are found, when one side has not touched the way to it. -/
theorem mem_writes (h : Met L E vaultId s.made p q m) (hinv : s.Inv L E vaultId) {k : Addr}
    (hclean : ∀ c ∈ q.log, c ∉ p.log → ∀ op ∈ c.ops, op.target ≠ k) {w : Write}
    (hw : w ∈ writesOf m.log) (hkey : w.key = k) : w ∈ writesOf p.log := by
  obtain ⟨c, hc, hw⟩ := mem_writesOf.mp hw
  by_cases hin : c ∈ p.log
  · exact mem_writesOf.mpr ⟨c, hin, hw⟩
  · rcases hinv.known c (h.both.sub hc) with rfl | ⟨-, hplaced⟩
    · exact absurd h.left.genesis hin
    · have hp := hplaced w hw
      exact absurd (hp.key.symm.trans hkey)
        (hclean c (((h.mem c).mp hc).resolve_left hin) hin _ hp.act)

theorem locate_left (h : Met L E vaultId s.made p q m) (hinv : s.Inv L E vaultId)
    (hquiet : Quiet p q a) : locate (writesOf m.log) a.ancestors = locate (writesOf p.log) a.ancestors := by
  refine Registers.locate_congr (hinv.distinct h.both) (hinv.distinct h.left) fun k hk o w => ?_
  rw [Registers.mem_writesAt, Registers.mem_writesAt]
  refine ⟨fun hw => ⟨h.mem_writes hinv (fun c hc hno op hop htarget => ?_) hw.1 hw.2.2, hw.2⟩,
    fun hw => ⟨writesOf_subset h.sub hw.1, hw.2⟩⟩
  exact hquiet c hc hno op hop (htarget ▸ hk)

/-- The value of a register that holds no text, by the write that is read. -/
theorem valueAt_of_winner (hinv : s.Inv L E vaultId) {log log' : List Authored}
    (hlog : Kept L E vaultId s.made log) (ha : a.isContent = false)
    (hvalue : Registers.value Op.erases Op.makes (writesOf log) a a.ancestors =
      Registers.value Op.erases Op.makes (writesOf log') a a.ancestors) :
    valueAt E (writesOf log) a = valueAt E (writesOf log') a := by
  rw [valueAt, valueAt, ← hvalue]
  cases hv : Registers.value Op.erases Op.makes (writesOf log) a a.ancestors with
  | none => rfl
  | some w =>
    obtain ⟨hin, hkey⟩ := Registers.mem_of_value hv
    have htarget := (hinv.write_spec hlog hin).2.1
    cases hact : w.act with
    | putText fid =>
      rw [hkey, hact] at htarget
      rw [htarget] at ha
      cases ha
    | _ => simp only [hact]

/-- **Of two concurrent values one is read**, in a register that is never erased. -/
theorem get_either (h : Met L E vaultId s.made p q m) (hinv : s.Inv L E vaultId)
    (ha : a.isContent = false) (herase : a.erasable = false) (hquiet : Quiet p q a)
    (hquiet' : Quiet q p a) :
    (m.root E).get a = (p.root E).get a ∨ (m.root E).get a = (q.root E).get a := by
  rw [get_root h.closed.2.2, get_root h.closed.1, get_root h.closed.2.1]
  have hleft := h.locate_left hinv hquiet
  have hright := h.symm.locate_left hinv hquiet'
  have hspec (w : Write) (hw : w ∈ writesOf m.log) := hinv.write_spec h.both hw
  cases hobj : locate (writesOf m.log) a.ancestors with
  | none =>
    refine .inl (valueAt_of_winner hinv h.both ha ?_)
    rw [Registers.value, Registers.value, show Registers.locate _ _ _ _ = none from hobj,
      show Registers.locate _ _ _ _ = none from hleft.symm.trans hobj]
  | some obj =>
    have hvalue (r : Replica) (hr : locate (writesOf r.log) a.ancestors = some obj) :
        Registers.value Op.erases Op.makes (writesOf r.log) a a.ancestors =
          Registers.winner Op.erases (writesOf r.log) obj a := by
      rw [Registers.value, show Registers.locate _ _ _ _ = some obj from hr]
    rw [hobj] at hleft hright
    have hforward : ∀ w ∈ writesAt (writesOf m.log) obj a, Forward w := fun w hw =>
      (hspec w (Registers.mem_writesAt.mp hw).1).1
    have hkeep : ∀ w ∈ writesAt (writesOf m.log) obj a, Op.erases w.act = false := fun w hw => by
      obtain ⟨hin, -, hkey⟩ := Registers.mem_writesAt.mp hw
      exact (hspec w hin).2.2 (hkey ▸ herase)
    have hsub : ∀ w ∈ writesAt (writesOf p.log) obj a, w ∈ writesOf m.log := fun w hw =>
      writesOf_subset h.sub (Registers.mem_writesAt.mp hw).1
    have hsub' : ∀ w ∈ writesAt (writesOf q.log) obj a, w ∈ writesOf m.log := fun w hw =>
      writesOf_subset h.symm.sub (Registers.mem_writesAt.mp hw).1
    cases hw : Registers.winner Op.erases (writesOf m.log) obj a with
    | none =>
      refine .inl (valueAt_of_winner hinv h.both ha ?_)
      rw [hvalue m hobj, hvalue p hleft.symm, hw]
      cases hp : Registers.winner Op.erases (writesOf p.log) obj a with
      | none => rfl
      | some v =>
        have hin := (Registers.mem_values.mp (Registers.mem_of_winner hp)).1
        obtain ⟨w', hw'⟩ := Registers.exists_winner hforward hkeep
          (Registers.mem_writesAt.mpr ⟨hsub v hin, (Registers.mem_writesAt.mp hin).2⟩)
        rw [hw] at hw'
        cases hw'
    | some w =>
      have hboth := Registers.winner_union (hinv.distinct h.both) hsub hsub'
        (fun v hv => by
          obtain ⟨c, hc, hv⟩ := mem_writesOf.mp (Registers.mem_writesAt.mp hv).1
          exact ((h.mem c).mp hc).imp (fun hc => mem_writesOf.mpr ⟨c, hc, hv⟩)
            fun hc => mem_writesOf.mpr ⟨c, hc, hv⟩)
        (hinv.distinct h.left) (hinv.distinct h.right) hforward hkeep hw
      refine hboth.imp (fun hl => valueAt_of_winner hinv h.both ha ?_)
        fun hr => valueAt_of_winner hinv h.both ha ?_
      · rw [hvalue m hobj, hvalue p hleft.symm, hw, hl]
      · rw [hvalue m hobj, hvalue q hright.symm, hw, hr]

/-- **An erasure does not take away what it has not seen**: where the other side has only erased a
register, and none of what this side holds there, it reads as on this side. -/
theorem get_erased (h : Met L E vaultId s.made p q m) (hinv : s.Inv L E vaultId)
    (ha : a.isContent = false) (hquiet : Quiet p q a)
    (hidle : ∀ obj, locate (writesOf p.log) a.ancestors = some obj →
      ∀ w ∈ writesOf m.log, w.key = a → w ∈ writesOf p.log ∨ Op.erases w.act = true ∧
        ∀ v ∈ Registers.values Op.erases (writesOf p.log) obj a, v.id ∉ w.pred) : (m.root E).get a = (p.root E).get a := by
  rw [get_root h.closed.2.2, get_root h.closed.1]
  have hleft : Registers.locate Op.erases Op.makes (writesOf m.log) a.ancestors =
      Registers.locate Op.erases Op.makes (writesOf p.log) a.ancestors := h.locate_left hinv hquiet
  refine valueAt_of_winner hinv h.both ha ?_
  rw [Registers.value, Registers.value, hleft]
  split
  next => rfl
  next obj hobj =>
    refine Registers.winner_idle (hinv.distinct h.left) (hinv.distinct h.both) (fun w hw => ?_)
      fun w hw => ?_
    · exact writesOf_subset h.sub (Registers.mem_writesAt.mp hw).1
    · obtain ⟨hin, -, hkey⟩ := Registers.mem_writesAt.mp hw
      exact hidle obj hobj w hin hkey

end Met

/-- **Peers meet register by register**: in every run of the peers of a vault, what a merge leaves
at an address that only one side has written is what that side reads there, and where neither has
written it is what both read. -/
theorem meets_by_register
    (h : Machine.Reach (step L A E vaultId) (Fair L A E vaultId) (start L E vaultId) s)
    (hfair : Fair L A E vaultId s (.merge i j))
    (hs : step L A E vaultId s (.merge i j) = some s') : ∃ p q m, s.peers[i]? = some p ∧
      s.peers[j]? = some q ∧ s'.peers[i]? = some m ∧ ∀ a, E.Fixes a →
        ((∀ c ∈ (q.closed E).log, c ∉ (p.closed E).log →
            ∀ op ∈ c.ops, op.target ∉ a :: a.ancestors) →
          (m.root E).get a = (p.root E).get a) ∧
        ((∀ c ∈ (p.closed E).log, c ∉ (q.closed E).log →
            ∀ op ∈ c.ops, op.target ∉ a :: a.ancestors) →
          (m.root E).get a = (q.root E).get a) := by
  obtain ⟨hinv, hlegible⟩ := Legible.of_reach h
  have hinv' := hinv.step hfair hs
  obtain ⟨p, q, m, hp, hq, hm, -, hmet⟩ := hinv.met hfair hs
  refine ⟨p, q, m, hp, hq, hm, fun a ha => ⟨fun hclean => ?_, fun hclean => ?_⟩⟩
  · rw [hmet.get_left hinv' hclean, hlegible.get_closed hinv (List.mem_of_getElem? hp) ha]
  · rw [hmet.symm.get_left hinv' hclean, hlegible.get_closed hinv (List.mem_of_getElem? hq) ha]

/-- **Peers that merge both ways agree**, whatever they did before: they have the same changes and
read the same at every address, and so the same files and directories. -/
theorem exchange_agrees
    (h : Machine.Reach (step L A E vaultId) (Fair L A E vaultId) (start L E vaultId) s)
    (hfair : Fair L A E vaultId s (.merge i j))
    (hs : step L A E vaultId s (.merge i j) = some s')
    {s'' : Replicas} (hfair' : Fair L A E vaultId s' (.merge j i))
    (hs' : step L A E vaultId s' (.merge j i) = some s'') : ∃ m n, s''.peers[i]? = some m ∧
      s''.peers[j]? = some n ∧ (∀ c, c ∈ m.log ↔ c ∈ n.log) ∧
      (∀ a, (m.root E).get a = (n.root E).get a) ∧
      (m.root E).liveFiles L = (n.root E).liveFiles L ∧
      (m.root E).liveDirectories L = (n.root E).liveDirectories L := by
  have hinv := Inv.of_reach h
  have hinv' := hinv.step hfair hs
  have hinv'' := hinv'.step hfair' hs'
  obtain ⟨p, q, m, -, -, hm, hq, hmet⟩ := hinv.met hfair hs
  obtain ⟨q', m', n, hq', hm', hn, hleft, hback⟩ := hinv'.met hfair' hs'
  obtain rfl := Option.some.inj (hq.symm.trans hq')
  obtain rfl := Option.some.inj (hm.symm.trans hm')
  have hclosed (r : Replica) (hr : r.pending = []) : (r.closed E).log = r.log := by
    rw [Replica.closed, Replica.closing, if_pos hr, List.append_nil]
  have hsame (c : Authored) : c ∈ (m.closed E).log ↔ c ∈ n.log := by
    rw [hback.mem, hclosed _ hmet.closed.2.1, hclosed m hmet.closed.2.2, hmet.mem]
    exact ⟨.inr, fun hc => hc.elim .inr id⟩
  have hget (a : Addr) : ((m.closed E).root E).get a = (n.root E).get a := by
    rw [get_root rfl, get_root hback.closed.2.2]
    refine (hinv''.valueAt_eq hback.right hback.both (fun c hc => (hsame c).mp hc)
      fun k _ w hw _ => writesOf_subset (fun c hc => (hsame c).mpr hc) hw).symm
  exact ⟨m.closed E, n, hleft, hn, hsame, hget, Root.liveFiles_congr hget,
    Root.liveDirectories_congr hget⟩

end Replicas

namespace Root

variable {r r' : Root}

theorem findFileIn_congr (h : ∀ a, r.get a = r'.get a) (path : Str) (fids : List Str) :
    r.findFileIn L path fids = r'.findFileIn L path fids := by
  induction fids with
  | nil => rfl
  | cons fid rest ih =>
    rw [findFileIn, findFileIn, hasObject_congr (h _), hasObject_congr (h (.fileMeta fid)),
      getInt_congr (h _), getStr_congr (h _), ih]

theorem findFile_congr (h : ∀ a, r.get a = r'.get a) (path : Str) :
    r.findFileByPathNormalized L path = r'.findFileByPathNormalized L path := by
  have hkeys : r.fileKeys = r'.fileKeys := sort_keys_congr h _
  rw [findFileByPathNormalized, findFileByPathNormalized, mapObj_congr (h _), hkeys]
  exact bind_congr fun _ => findFileIn_congr h path _

end Root

/-! ### What operations on one file record -/

/-- An operation on where a file is, or on directories. -/
def Op.Moves (fid : Str) (op : Op) : Prop :=
  op.target = .fileField fid .path ∨ op.target = .fileField fid .updatedAt ∨ op.target.dirId ≠ none

/-- An operation of `write_text_file` on a file that is there. -/
def Op.Rewrites (fid : Str) (op : Op) : Prop :=
  op.target = .content fid ∨ op.target = .fileField fid .size ∨
    op.target = .fileField fid .updatedAt ∨ op.target = .fileField fid .kind ∨
    op = .delete (.fileField fid .deletedAt)

section Spares

variable {op : Op} {fid : Str} {b : Addr}

/-- A rename leaves the other registers of a file, and all objects. -/
theorem Op.Moves.spares (h : op.Moves fid) (hb : b.fileId = some fid ∨ b = .rootMap .files)
    (hpath : b ≠ .fileField fid .path) (hupdated : b ≠ .fileField fid .updatedAt) :
    op.target ∉ b :: b.ancestors := by
  intro hin
  rcases h with htarget | htarget | hdir
  · cases b <;> simp_all [Addr.ancestors]
  · cases b <;> simp_all [Addr.ancestors]
  · rcases hb with hb | rfl
    · cases b <;> simp [Addr.fileId] at hb <;> simp [Addr.ancestors] at hin <;>
        grind [Addr.dirId]
    · simp [Addr.ancestors] at hin
      simp [hin, Addr.dirId] at hdir

/-- A new text leaves where the file is, and its objects. -/
theorem Op.Rewrites.spares (h : op.Rewrites fid) (hcontent : b ≠ .content fid)
    (hfield : ∀ k, k ≠ .path → b ≠ .fileField fid k) : op.target ∉ b :: b.ancestors := by
  intro hin
  have hself : op.target ≠ b := by
    rcases h with htarget | htarget | htarget | htarget | rfl
    · exact fun heq => hcontent (heq ▸ htarget)
    all_goals
      first
      | exact fun heq => hfield _ (by decide) (heq ▸ htarget)
      | exact fun heq => hfield _ (by decide) heq.symm
  have hanc : op.target ∈ b.ancestors := by simpa [hself] using hin
  have hleaf : ∀ c : Addr, op.target ∉ c.ancestors := fun c => by
    rcases h with htarget | htarget | htarget | htarget | rfl <;> cases c <;>
      simp_all [Addr.ancestors, Op.target]
  exact hleaf b hanc

end Spares

namespace Doc

variable {d : Doc} {src dst path x y fid content : Str}

theorem rewrites_of_mem {current : Option Str} {size now : Int} {op : Op}
    (h : op ∈ setTextOps fid content current ++ textFields fid size now) : op.Rewrites fid := by
  rcases List.mem_append.mp h with h | h
  · exact .inl (mem_setTextOps h).1
  · simp only [textFields, List.mem_cons, List.not_mem_nil, or_false] at h
    rcases h with rfl | rfl | rfl | rfl <;> simp [Op.Rewrites, Op.target]

theorem after_eq_finish {α : Type} (z : DocM α) (d : Doc) : d.after z = Program.finish (z d) := by
  unfold after Program.finish
  cases z d <;> rfl

/-- A file keeps its registers while directories are made. -/
theorem ensureAncestorDirectories_spares {b : Addr} {v : Option Val} (hb : b.fileId = some fid)
    (p : Str) : Program.Keeps (fun d => d.root.get b = v) (ensureAncestorDirectories L p) := by
  refine .bind (fun d hd => hd) fun now => .forM (fun q => .bind (read_lasts _) fun found => ?_) _
  cases found with
  | some did => exact .pure _
  | none =>
    refine .bind (read_lasts _) fun _ => .bind (fun d hd => hd) fun did =>
      .bind (read_lasts _) fun _ d hd => ?_
    show (applyAll d.root _).get b = v
    rw [get_applyAll_of_ne, hd]
    cases b <;> simp [Addr.fileId] at hb <;> simp [Op.target, Addr.ancestors]

theorem ensureAncestorDirectories_moves (p : Str) :
    Records (Op.Moves fid) (ensureAncestorDirectories L p) := by
  refine Records.nowMs.bind fun now => .forM (fun q => .lookup (fun did => .pure ()) ?_) _
  refine Records.read.bind fun _ => Records.newId.bind fun did => Records.read.bind fun _ => ?_
  exact .emit (by simp [Op.Moves, Op.target, Addr.dirId])

/-- The end of `rename_file`, once it has found the file. -/
def relocate (L : Crates) (fid y : Str) (now : Int) : DocM Unit := do
  emit [.put (.fileField fid .path) (.str y), .put (.fileField fid .updatedAt) (.int now)]
  ensureAncestorDirectories L y
  commitNow

theorem renameFile_eq (hsrc : Path.normalize L.nfc src = .ok x)
    (hdst : Path.normalize L.nfc dst = .ok y) (hne : x ≠ y)
    (hfind : d.root.findFileByPathNormalized L x = .ok (some fid))
    (hfree : d.root.findFileByPathNormalized L y = .ok none) :
    renameFile L src dst d =
      relocate L fid y (d.supply.now d.draws) {d with draws := d.draws + 1} := by
  simp only [renameFile, bind, EStateM.bind, lift, read, hsrc, hdst, if_neg hne, hfind, hfree]
  rfl

/-- **A rename records the new path**, whether its directories can be made or not. -/
theorem renameFile_after (hsrc : Path.normalize L.nfc src = .ok x)
    (hdst : Path.normalize L.nfc dst = .ok y) (hne : x ≠ y)
    (hfind : d.root.findFileByPathNormalized L x = .ok (some fid))
    (hfree : d.root.findFileByPathNormalized L y = .ok none) :
    Recorded (Op.Moves fid) d (d.after (renameFile L src dst)) ∧
      (d.after (renameFile L src dst)).root.get (.fileField fid .path) = some (.scalar (.str y)) ∧
      (d.after (renameFile L src dst)).root.get (.fileField fid .updatedAt) =
        some (.scalar (.int (d.supply.now d.draws))) := by
  have hafter : d.after (renameFile L src dst) = Doc.after
      (relocate L fid y (d.supply.now d.draws)) {d with draws := d.draws + 1} := by
    rw [after, renameFile_eq hsrc hdst hne hfind hfree, ← after]
  rw [hafter]
  constructor
  · have hrecords : Records (Op.Moves fid) (relocate L fid y (d.supply.now d.draws)) :=
      (Records.emit (by simp [Op.Moves, Op.target])).bind fun _ =>
        (ensureAncestorDirectories_moves y).bind fun _ => .commitNow
    exact hrecords {d with draws := d.draws + 1}
  · have hkeeps (f : FileField) (v : Option Val) : Program.Keeps
        (fun d => d.root.get (.fileField fid f) = v)
        (do ensureAncestorDirectories L y; commitNow) :=
      .bind (ensureAncestorDirectories_spares rfl y) fun _ d hd => by
        show (Doc.committed _ _).root.get _ = _
        rw [committed_root]
        exact hd
    rw [after_eq_finish]
    refine ⟨(hkeeps .path _).finish (s := Doc.emitted {d with draws := d.draws + 1} _) ?_,
      (hkeeps .updatedAt _).finish (s := Doc.emitted {d with draws := d.draws + 1} _) ?_⟩
    · simp [Op.apply, Addr.ancestors]
    · simp [Op.apply]

theorem recorded_of_changes {d' : Doc} {c : Change} {P : Op → Prop}
    (hchanges : d'.changes = d.changes ++ [c]) (hpending : d'.pending = [])
    (hops : ∀ op ∈ c.ops, P op) : Recorded P d d' := by
  refine ⟨[c], hchanges, fun op hop => .inr ?_⟩
  rcases hop with hop | ⟨c', hc', hop⟩
  · rw [hpending] at hop
    cases hop
  · rw [List.mem_singleton.mp hc'] at hop
    exact hops op hop

/-- What one transaction makes of a document. -/
theorem committed_emitted (hclosed : d.pending = []) (ops : List Op) (hops : ops ≠ []) (n : Nat)
    (time : Int) : ∃ c, ({d.emitted ops with draws := n}.committed time).changes = d.changes ++ [c] ∧
      c.ops = ops ∧ ({d.emitted ops with draws := n}.committed time).pending = [] ∧
      ({d.emitted ops with draws := n}.committed time).root = applyAll d.root ops := by
  unfold committed
  split
  next h => exact absurd h (by simp [emitted, hops])
  next => exact ⟨_, rfl, by simp [emitted, hclosed], rfl, rfl⟩

theorem writeTextFile_after (hpath : Path.normalize L.nfc path = .ok x)
    (hfind : d.root.findFileByPathNormalized L x = .ok (some fid)) (hclosed : d.pending = [])
    (content : Str) : ∃ now c,
      (d.after (LocalOp.run L A (.writeTextFile path content))).changes = d.changes ++ [c] ∧
      c.ops = setTextOps fid content (d.root.getText fid) ++
        textFields fid (utf8 content).length now ∧
      (d.after (LocalOp.run L A (.writeTextFile path content))).pending = [] ∧
      (d.after (LocalOp.run L A (.writeTextFile path content))).root =
        textWritten d.root fid content now := by
  have hends : Ends (writeTextFile L path content) d fun _ d' => ∃ now c,
      d'.changes = d.changes ++ [c] ∧ c.ops = setTextOps fid content (d.root.getText fid) ++
        textFields fid (utf8 content).length now ∧ d'.pending = [] ∧
        d'.root = textWritten d.root fid content now := by
    refine .bind (.lift hpath (.bind (.nowMs (.bind (.read hfind ?_)))))
    refine .bind (.ask (.bind (.emit (.bind (.commitNow (.pure ?_))))))
    obtain ⟨c, hchanges, hops, hpending, hroot⟩ := committed_emitted (d := {d with draws := d.draws + 1})
      hclosed (setTextOps fid content (d.root.getText fid) ++ textFields fid (utf8 content).length (d.supply.now d.draws)) (by simp [textFields])
      (d.draws + 1 + 1) (d.supply.now (d.draws + 1))
    refine ⟨d.supply.now d.draws, c, hchanges, hops, hpending, ?_⟩
    rw [textWritten, ← applyAll_append]
    exact hroot
  obtain ⟨fid', d', hrun, h⟩ := hends
  rwa [LocalOp.run, after_ok (unit_ok hrun)]

theorem deleteFile_after (hpath : Path.normalize L.nfc path = .ok x)
    (hfind : d.root.findFileByPathNormalized L x = .ok (some fid)) (hclosed : d.pending = []) :
    ∃ now c, (d.after (LocalOp.run L A (.deleteFile path))).changes = d.changes ++ [c] ∧
      c.ops = [.put (.fileField fid .deletedAt) (.int now)] ∧
      (d.after (LocalOp.run L A (.deleteFile path))).pending = [] ∧
      (d.after (LocalOp.run L A (.deleteFile path))).root =
        applyAll d.root [.put (.fileField fid .deletedAt) (.int now)] := by
  have hends : Ends (deleteFile L path) d fun _ d' => ∃ now c, d'.changes = d.changes ++ [c] ∧
      c.ops = [.put (.fileField fid .deletedAt) (.int now)] ∧ d'.pending = [] ∧
      d'.root = applyAll d.root [.put (.fileField fid .deletedAt) (.int now)] := by
    refine .bind (.lift hpath (.bind (.read hfind (.bind (.nowMs (.bind (.emit (.commitNow ?_))))))))
    obtain ⟨c, hchanges, hops, hpending, hroot⟩ := committed_emitted (d := {d with draws := d.draws + 1})
      hclosed [.put (.fileField fid .deletedAt) (.int (d.supply.now d.draws))] (by simp)
      (d.draws + 1 + 1) (d.supply.now (d.draws + 1))
    exact ⟨_, c, hchanges, hops, hpending, hroot⟩
  obtain ⟨u, d', hrun, h⟩ := hends
  rwa [LocalOp.run, after_ok hrun]

end Doc

/-! ### Two operations that meet -/

/-- A write replaces what was there before its transaction, or in it. -/
theorem recordAll_pred {ws : List Write} {actor : Actor} {clock : Nat} {ops : List Op} :
    ∀ w ∈ recordAll ws actor clock ops, ∀ i ∈ w.pred,
      ∃ v ∈ ws ++ recordAll ws actor clock ops, v.id = i := by
  induction ops generalizing ws clock with
  | nil => intro w hw; cases hw
  | cons op rest ih =>
    unfold recordAll
    split
    next v hv =>
      refine List.forall_mem_cons.mpr ⟨fun i hi => ?_, fun w hw i hi => ?_⟩
      · obtain ⟨u, hu, hid⟩ := (recordOp_spec hv).2.2.2.1 i hi
        exact ⟨u, List.mem_append_left _ hu, hid⟩
      · obtain ⟨u, hu, hid⟩ := ih w hw i hi
        exact ⟨u, by simpa using hu, hid⟩
    next => exact ih

/-- A register that was written anew holds nothing from before. -/
theorem notMem_of_overwritten {ws : List Write} {actor : Actor} {clock : Nat} {op : Op}
    {v : Option Val} {obj : Option OpId} (hwrites : op.writes = some (op.target, v))
    (hobj : locate (ws ++ recordAll ws actor clock [op]) op.target.ancestors = some obj) :
    ∀ u ∈ Registers.values Op.erases (ws ++ recordAll ws actor clock [op]) obj op.target,
      u ∈ recordAll ws actor clock [op] := by
  intro u hu
  obtain ⟨hat, hkeep, hnone⟩ := Registers.mem_values.mp hu
  obtain ⟨hin, huobj, hukey⟩ := Registers.mem_writesAt.mp hat
  refine (List.mem_append.mp hin).resolve_left fun hold => ?_
  have hself : op.target ∉ op.target.ancestors := by cases op.target <;> simp [Addr.ancestors]
  cases hbefore : locate ws op.target.ancestors with
  | none =>
    have hnothing : recordOp ws (toLex (clock, actor)) op = none := by
      cases op with
      | spliceText fid pos del new => cases hwrites
      | _ => simp only [recordOp, hbefore]
    rw [recordAll, hnothing, recordAll, List.append_nil, hbefore] at hobj
    cases hobj
  | some obj' =>
    obtain ⟨w, hw, hwobj, hwkey, hpred⟩ : ∃ w, recordOp ws (toLex (clock, actor)) op = some w ∧
        w.obj = obj' ∧ w.key = op.target ∧
        w.pred = (Registers.values Op.erases ws obj' op.target).map (·.id) :=
      ⟨_, recordOp_of_writes hwrites hbefore, rfl, rfl, rfl⟩
    rw [recordAll, hw, recordAll] at hobj hnone
    have hlocate : locate (ws ++ [w]) op.target.ancestors = locate ws op.target.ancestors :=
      Registers.locate_concat_other (hwkey ▸ hself)
    obtain rfl : obj' = obj := Option.some.inj (hbefore.symm.trans (hlocate.symm.trans hobj))
    have hvalue : u ∈ Registers.values Op.erases ws obj' op.target := by
      refine Registers.mem_values.mpr ⟨Registers.mem_writesAt.mpr ⟨hold, huobj, hukey⟩, hkeep,
        fun v hv => hnone v ?_⟩
      obtain ⟨hv, hvrest⟩ := Registers.mem_writesAt.mp hv
      exact Registers.mem_writesAt.mpr ⟨List.mem_append_left _ hv, hvrest⟩
    refine hnone w (Registers.mem_writesAt.mpr
      ⟨List.mem_append_right _ List.mem_cons_self, hwobj, hwkey⟩) ?_
    rw [hpred]
    exact List.mem_map_of_mem hvalue

section Ran

variable {p q : Replica} {op : LocalOp} {supply supply' : Supply} {P : Op → Prop}

/-- The peer after an operation, when its transaction is closed. -/
def Replica.ran (L : Crates) (A : Automerge) (E : Engine) (p : Replica) (op : LocalOp)
    (supply : Supply) : Replica :=
  let d := (p.doc E supply).after (op.run L A)
  (Replica.mk p.actor (p.log ++ authorAll E p.log p.actor (d.changes.drop p.log.length))
    d.pending).closed E

theorem ran_of_run {new : List Authored} {pending : List Op}
    (h : p.run E L A op supply = some (new, pending)) :
    ({p with log := p.log ++ new, pending := pending} : Replica).closed E =
      p.ran L A E op supply := by
  simp only [Replica.run] at h
  split at h
  next =>
    obtain ⟨rfl, rfl⟩ := Prod.mk.inj (Option.some.inj h)
    rfl
  next => cases h

theorem subset_ran : p.log ⊆ (p.ran L A E op supply).log := fun _ hc =>
  List.mem_append_left _ (List.mem_append_left _ hc)

theorem ops_of_authorAll {log : List Authored} {actor : Actor} {cs : List Change} {c : Authored}
    (h : c ∈ authorAll E log actor cs) : ∃ c' ∈ cs, c.ops = c'.ops := by
  induction cs generalizing log with
  | nil => cases h
  | cons c' rest ih =>
    rcases List.mem_cons.mp h with rfl | h
    · exact ⟨c', List.mem_cons_self, rfl⟩
    · obtain ⟨c'', hc'', hops⟩ := ih h
      exact ⟨c'', List.mem_cons_of_mem _ hc'', hops⟩

theorem drop_of_changes {d d' : Doc} {cs : List Change} {n : Nat}
    (h : d'.changes = d.changes ++ cs) (hn : d.changes.length = n) : d'.changes.drop n = cs := by
  rw [h, ← hn, List.drop_left]

/-- What an operation records is in the changes that the peer has more. -/
theorem ops_of_ran (hclosed : p.pending = [])
    (h : Doc.Recorded P (p.doc E supply) ((p.doc E supply).after (op.run L A))) :
    ∀ c ∈ (p.ran L A E op supply).log, c ∈ p.log ∨ ∀ o ∈ c.ops, P o := by
  obtain ⟨cs, hchanges, hops⟩ := h
  have hnew (o : Op) (ho : o ∈ ((p.doc E supply).after (op.run L A)).pending ∨
      ∃ c ∈ cs, o ∈ c.ops) : P o := (hops o ho).resolve_left fun hin => by
    rw [show (p.doc E supply).pending = [] from hclosed] at hin
    cases hin
  intro c hc
  simp only [Replica.ran, Replica.closed, drop_of_changes hchanges (List.length_map ..)] at hc
  rcases List.mem_append.mp hc with hc | hc
  · refine (List.mem_append.mp hc).imp id fun hc o ho => ?_
    obtain ⟨c', hc', hsame⟩ := ops_of_authorAll hc
    exact hnew o (.inr ⟨c', hc', hsame ▸ ho⟩)
  · unfold Replica.closing at hc
    split at hc
    next => cases hc
    next =>
      obtain rfl := List.mem_singleton.mp hc
      exact .inr fun o ho => hnew o (.inl ho)

/-- A single transaction that was committed. -/
theorem log_of_ran {c : Change}
    (hchanges : ((p.doc E supply).after (op.run L A)).changes = (p.doc E supply).changes ++ [c])
    (hpending : ((p.doc E supply).after (op.run L A)).pending = []) :
    (p.ran L A E op supply).log = p.log ++ [author E p.log p.actor c.timestamp c.ops] := by
  simp only [Replica.ran, Replica.closed, Replica.closing, hpending, if_true, List.append_nil,
    drop_of_changes hchanges (List.length_map ..)]
  rfl

/-- What the other peer does not have. -/
theorem ops_of_more (left right : LocalOp) (hclosed : p.pending = []) (hsub : p.log ⊆ q.log)
    (h : Doc.Recorded P (p.doc E supply) ((p.doc E supply).after (left.run L A))) :
    ∀ c ∈ (p.ran L A E left supply).log, c ∉ (q.ran L A E right supply').log →
      ∀ o ∈ c.ops, P o := fun c hc hno =>
  (ops_of_ran hclosed h c hc).resolve_left fun hin => hno (subset_ran (hsub hin))

end Ran

namespace Root

variable {r r' : Root} {f : FileMeta}

/-- An entry whose path, time and tombstone are written anew. -/
theorem readFileMeta_changed {fid y : Str} {now : Int} {deleted : Option Int}
    (hf : r.readFileMeta L fid = .ok (some f))
    (hsame : ∀ b : Addr, b.fileId = some fid ∨ b = .rootMap .files → b.isContent = false →
      b ≠ .fileField fid .path → b ≠ .fileField fid .updatedAt → b ≠ .fileField fid .deletedAt →
      r'.get b = r.get b)
    (hpath : r'.getStr L (.fileField fid .path) = .ok (some y))
    (hupdated : ∃ at_, r'.getInt L (.fileField fid .updatedAt) = .ok at_ ∧
      now = at_.getD f.createdAt)
    (hdeleted : r'.getInt L (.fileField fid .deletedAt) = .ok deleted) :
    r'.readFileMeta L fid =
      .ok (some {f with path := y, updatedAt := now, deletedAt := deleted}) := by
  obtain ⟨hmap, hfile, hmeta, -, hkind, hsize, hcreated, -, -, hhash, hid⟩ :=
    readFileMeta_eq_some.mp hf
  have hfield (k : FileField) (hk : k ≠ .path ∧ k ≠ .updatedAt ∧ k ≠ .deletedAt) :
      r'.get (.fileField fid k) = r.get (.fileField fid k) :=
    hsame _ (.inl rfl) rfl (by simpa using hk.1) (by simpa using hk.2.1) (by simpa using hk.2.2)
  refine readFileMeta_eq_some.mpr
    ⟨?_, ?_, ?_, hpath, ?_, ?_, ?_, hupdated, hdeleted, ?_, hid⟩
  · rwa [mapObj_congr (hsame _ (.inr rfl) rfl (by simp) (by simp) (by simp))]
  · rwa [hasObject_congr (hsame (.file fid) (.inl rfl) rfl (by simp) (by simp) (by simp))]
  · rwa [hasObject_congr (hsame (.fileMeta fid) (.inl rfl) rfl (by simp) (by simp) (by simp))]
  · rwa [getStr_congr (hfield .kind (by simp))]
  · rwa [getInt_congr (hfield .size (by simp))]
  · rwa [getInt_congr (hfield .createdAt (by simp))]
  · rwa [getStr_congr (hsame (.binaryHash fid) (.inl rfl) rfl (by simp) (by simp) (by simp))]

end Root

namespace Replicas

variable {s s' : Replicas} {i j : Nat} {p q : Replica} {left right : LocalOp}
  {supply supply' : Supply} {a : Addr}

/-- Two peers run an operation each, and then one takes in what the other has. -/
theorem Legible.parted (hlegible : s.Legible E) (hinv : s.Inv L E vaultId)
    (hp : s.peers[i]? = some p) (hq : s.peers[j]? = some q)
    (hguard : Machine.Guarded (Replicas.step L A E vaultId) (Fair L A E vaultId) s
      [.run i left supply, .run j right supply', .merge i j])
    (hrun : Machine.run (Replicas.step L A E vaultId) s
      [.run i left supply, .run j right supply', .merge i j] = some s') :
    ∃ m, s'.peers[i]? = some m ∧ s'.Inv L E vaultId ∧
      Met L E vaultId s'.made (p.ran L A E left supply) (q.ran L A E right supply') m ∧
      (∀ a, E.Fixes a → ((p.ran L A E left supply).root E).get a =
        ((p.doc E supply).after (left.run L A)).root.get a) ∧
      ∀ a, E.Fixes a → ((q.ran L A E right supply').root E).get a =
        ((q.doc E supply').after (right.run L A)).root.get a := by
  obtain ⟨s₁, hs₁, hrun⟩ := Option.bind_eq_some_iff.mp hrun
  obtain ⟨s₂, hs₂, hrun⟩ := Option.bind_eq_some_iff.mp hrun
  obtain ⟨s₃, hs₃, hrun⟩ := Option.bind_eq_some_iff.mp hrun
  obtain rfl := Option.some.inj hrun
  obtain ⟨hfair₁, hguard⟩ := hguard
  obtain ⟨hfair₂, hguard⟩ := hguard s₁ hs₁
  obtain ⟨hfair₃, -⟩ := hguard s₂ hs₂
  have hinv₁ := hinv.step hfair₁ hs₁
  have hinv₂ := hinv₁.step hfair₂ hs₂
  have hlegible₁ := hlegible.step hinv hs₁
  have hlegible₂ := hlegible₁.step hinv₁ hs₂
  have hne : i ≠ j := by
    rintro rfl
    simp only [Replicas.step, if_true] at hs₃
    split at hs₃ <;> cases hs₃
  obtain ⟨p', q', m, hp', hq', hm, -, hmet⟩ := hinv₂.met hfair₃ hs₃
  simp only [Replicas.step, hp] at hs₁
  split at hs₁
  next new pending hleft =>
    obtain rfl := Option.some.inj hs₁
    have hi : (s.recorded i p new pending).peers[i]? = some _ :=
      List.getElem?_set_self (List.getElem?_eq_some_iff.mp hp).1
    have hj : (s.recorded i p new pending).peers[j]? = some q :=
      (List.getElem?_set_ne hne).trans hq
    simp only [Replicas.step, hj] at hs₂
    split at hs₂
    next new' pending' hright =>
      obtain rfl := Option.some.inj hs₂
      have hi' : ((s.recorded i p new pending).recorded j q new' pending').peers[i]? = some _ :=
        (List.getElem?_set_ne (Ne.symm hne)).trans hi
      obtain rfl := Option.some.inj (hp'.symm.trans hi')
      have hj' : ((s.recorded i p new pending).recorded j q new' pending').peers[j]? = some _ :=
        List.getElem?_set_self (List.getElem?_eq_some_iff.mp hj).1
      obtain rfl := Option.some.inj (hq'.symm.trans hj')
      rw [ran_of_run hleft, ran_of_run hright] at hmet
      refine ⟨m, hm, hinv₂.step hfair₃ hs₃, hmet, fun a ha => ?_, fun a ha => ?_⟩
      · rw [← ran_of_run hleft, hlegible₁.get_closed hinv₁ (List.mem_of_getElem? hi) ha]
        exact (hlegible.run hinv hp hleft).2.2 a ha
      · rw [← ran_of_run hright, hlegible₂.get_closed hinv₂ (List.mem_of_getElem? hj') ha]
        exact (hlegible₁.run hinv₁ hj hright).2.2 a ha
    next => cases hs₂
  next => cases hs₁

/-- Peers with the same changes read the same. -/
theorem Inv.get_same (h : s.Inv L E vaultId) (hp : p ∈ s.peers) (hq : q ∈ s.peers)
    (hclosed : p.pending = [] ∧ q.pending = []) (hsame : ∀ c, c ∈ p.log ↔ c ∈ q.log) (a : Addr) :
    (p.root E).get a = (q.root E).get a := by
  rw [get_root hclosed.1, get_root hclosed.2]
  refine h.valueAt_eq (h.peers q hq).kept (h.peers p hp).kept (fun c hc => (hsame c).mpr hc)
    fun k _ w hw _ => writesOf_subset (fun c hc => (hsame c).mp hc) hw

/-- **A file that one device renames and the other edits is renamed and edited**: two peers with
the same history, one of which renames a file while the other writes a new text to it, and then
takes in what the other did, has the file at the new path with the new text. -/
theorem rename_meets_edit
    (h : Machine.Reach (step L A E vaultId) (Fair L A E vaultId) (start L E vaultId) s)
    (hp : s.peers[i]? = some p) (hq : s.peers[j]? = some q)
    (hclosed : p.pending = [] ∧ q.pending = []) (hsame : ∀ c, c ∈ p.log ↔ c ∈ q.log)
    {f : FileMeta} {src dst x y content : Str} (hsrc : Path.normalize L.nfc src = .ok x)
    (hdst : Path.normalize L.nfc dst = .ok y) (hne : x ≠ y)
    (hfind : (p.root E).findFileByPathNormalized L x = .ok (some f.id))
    (hfree : (p.root E).findFileByPathNormalized L y = .ok none)
    (hf : (p.root E).readFileMeta L f.id = .ok (some f))
    (hguard : Machine.Guarded (step L A E vaultId) (Fair L A E vaultId) s
      [.run i (.renameFile src dst) supply, .run j (.writeTextFile src content) supply', .merge i j])
    (hrun : Machine.run (step L A E vaultId) s
      [.run i (.renameFile src dst) supply, .run j (.writeTextFile src content) supply',
        .merge i j] = some s') :
    ∃ m now, s'.peers[i]? = some m ∧
      (m.root E).readFileMeta L f.id = .ok (some { f with
        path := y, kind := .text, size := (utf8 content).length, updatedAt := now,
        deletedAt := none }) ∧
      (E.Splices → (m.root E).getText f.id = some content) := by
  obtain ⟨hinv, hlegible⟩ := Legible.of_reach h
  have hget := hinv.get_same (List.mem_of_getElem? hp) (List.mem_of_getElem? hq) hclosed hsame
  obtain ⟨m, hm, hinv', hmet, hleft, hright⟩ := hlegible.parted hinv hp hq hguard hrun
  obtain ⟨hmoves, hpath, hupdated⟩ := Doc.renameFile_after (d := p.doc E supply) hsrc hdst hne
    hfind hfree
  obtain ⟨now, c, hchanges, hops, hpending, hroot⟩ := Doc.writeTextFile_after (A := A)
    (d := q.doc E supply') hsrc ((Root.findFile_congr hget x).symm.trans hfind) hclosed.2 content
  have hmore : ∀ c ∈ _, c ∉ (q.ran L A E (.writeTextFile src content) supply').log → _ :=
    ops_of_more (.renameFile src dst) _ hclosed.1 (fun c hc => (hsame c).mp hc) hmoves
  have hmore' : ∀ c ∈ _, c ∉ (p.ran L A E (.renameFile src dst) supply).log → _ :=
    ops_of_more (.writeTextFile src content) _ hclosed.2 (fun c hc => (hsame c).mpr hc)
      (Doc.recorded_of_changes hchanges hpending fun op hop => Doc.rewrites_of_mem (hops ▸ hop))
  have hrest (b : Addr) (hb : b.fileId = some f.id ∨ b = .rootMap .files)
      (hb' : b ≠ .fileField f.id .path) (hb'' : b ≠ .fileField f.id .updatedAt) :=
    hmet.symm.get_left hinv' fun c hc hno op hop => (hmore c hc hno op hop).spares hb hb' hb''
  have hmeta : ((q.doc E supply').after (LocalOp.run L A (.writeTextFile src content))).root.readFileMeta
      L f.id = .ok (some { f with
        kind := .text, size := (utf8 content).length, updatedAt := now, deletedAt := none }) := by
    rw [hroot]
    refine Doc.readFileMeta_textWritten now ?_
    rw [← hf]
    exact (Root.readFileMeta_congr (Root.mapObj_congr (hget _)) fun b _ => hget b).symm
  have hupdated' : ((q.doc E supply').after (LocalOp.run L A (.writeTextFile src content))).root.get
      (.fileField f.id .updatedAt) = some (.scalar (.int now)) := by
    rw [hroot, Doc.get_textWritten _ _ _ (by simp)]
    simp [Doc.textFields, Op.apply, Addr.ancestors]
  have hquiet : Met.Quiet (p.ran L A E (.renameFile src dst) supply)
      (q.ran L A E (.writeTextFile src content) supply') (.fileField f.id .updatedAt) :=
    fun c hc hno op hop hanc => (hmore' c hc hno op hop).spares (b := .fileMeta f.id) (by simp)
      (by simp) (by simpa [Addr.ancestors] using hanc)
  have hquiet' : Met.Quiet (q.ran L A E (.writeTextFile src content) supply')
      (p.ran L A E (.renameFile src dst) supply) (.fileField f.id .updatedAt) :=
    fun c hc hno op hop hanc => (hmore c hc hno op hop).spares (b := .fileMeta f.id) (.inl rfl)
      (by simp) (by simp) (by simpa [Addr.ancestors] using hanc)
  -- Both have set the time, and one of the two is read.
  obtain ⟨now', hnow'⟩ : ∃ now',
      (m.root E).get (.fileField f.id .updatedAt) = some (.scalar (.int now')) := by
    rcases hmet.get_either hinv' rfl rfl hquiet hquiet' with hl | hr
    · exact ⟨_, hl.trans ((hleft _ (.inl rfl)).trans hupdated)⟩
    · exact ⟨_, hr.trans ((hright _ (.inl rfl)).trans hupdated')⟩
  refine ⟨m, now', hm, ?_, fun hsplices => ?_⟩
  · have hpath' : (m.root E).get (.fileField f.id .path) = some (.scalar (.str y)) := by
      refine (hmet.get_left hinv' fun c hc hno op hop => ?_).trans ((hleft _ (.inl rfl)).trans hpath)
      exact (hmore' c hc hno op hop).spares (by simp) fun k hk => by simpa using Ne.symm hk
    refine Root.readFileMeta_changed hmeta (fun b hb hcontent hb' hb'' _ =>
      (hrest b hb hb' hb'').trans (hright b (.inl hcontent))) (Root.getStr_of_get hpath')
      ⟨some now', Root.getInt_of_get hnow', rfl⟩ ?_
    rw [Root.getInt_congr ((hrest (.fileField f.id .deletedAt) (.inl rfl) (by simp)
      (by simp)).trans (hright _ (.inl rfl)))]
    exact (Root.readFileMeta_eq_some.mp hmeta).2.2.2.2.2.2.2.2.1
  · have hcontent := (hrest (.content f.id) (.inl rfl) (by simp) (by simp)).trans
      (hright _ (hsplices.fixes _))
    rw [Root.getText, hcontent, ← Root.getText, hroot]
    exact Doc.getText_textWritten _ _ _ _

/-- **A file that one device deletes while the other edits it stays deleted, and has the new text**:
the edit takes away the tombstones that it has seen, and it has not seen this one. -/
theorem delete_meets_edit
    (h : Machine.Reach (step L A E vaultId) (Fair L A E vaultId) (start L E vaultId) s)
    (hp : s.peers[i]? = some p) (hq : s.peers[j]? = some q)
    (hclosed : p.pending = [] ∧ q.pending = []) (hsame : ∀ c, c ∈ p.log ↔ c ∈ q.log)
    {f : FileMeta} {path x content : Str} (hpath : Path.normalize L.nfc path = .ok x)
    (hfind : (p.root E).findFileByPathNormalized L x = .ok (some f.id))
    (hf : (p.root E).readFileMeta L f.id = .ok (some f))
    (hguard : Machine.Guarded (step L A E vaultId) (Fair L A E vaultId) s
      [.run i (.deleteFile path) supply, .run j (.writeTextFile path content) supply', .merge i j])
    (hrun : Machine.run (step L A E vaultId) s
      [.run i (.deleteFile path) supply, .run j (.writeTextFile path content) supply',
        .merge i j] = some s') :
    ∃ m now gone, s'.peers[i]? = some m ∧
      (m.root E).readFileMeta L f.id = .ok (some { f with
        kind := .text, size := (utf8 content).length, updatedAt := now, deletedAt := some gone }) ∧
      (E.Splices → (m.root E).getText f.id = some content) := by
  obtain ⟨hinv, hlegible⟩ := Legible.of_reach h
  have hget := hinv.get_same (List.mem_of_getElem? hp) (List.mem_of_getElem? hq) hclosed hsame
  obtain ⟨m, hm, hinv', hmet, hleft, hright⟩ := hlegible.parted hinv hp hq hguard hrun
  obtain ⟨gone, d, hdchanges, hdops, hdpending, hdroot⟩ := Doc.deleteFile_after (A := A)
    (d := p.doc E supply) hpath hfind hclosed.1
  obtain ⟨now, c, hchanges, hops, hpending, hroot⟩ := Doc.writeTextFile_after (A := A)
    (d := q.doc E supply') hpath ((Root.findFile_congr hget x).symm.trans hfind) hclosed.2 content
  have hdeletes : ∀ op ∈ d.ops, op = .put (.fileField f.id .deletedAt) (.int gone) := fun op hop => by
    simpa [hdops] using hop
  have hrewrites : ∀ op ∈ c.ops, op.Rewrites f.id := fun op hop => Doc.rewrites_of_mem (hops ▸ hop)
  have hmore : ∀ c ∈ _, c ∉ (q.ran L A E (.writeTextFile path content) supply').log → _ :=
    ops_of_more (.deleteFile path) _ hclosed.1 (fun c hc => (hsame c).mp hc)
      (Doc.recorded_of_changes hdchanges hdpending hdeletes)
  have hmore' : ∀ c ∈ _, c ∉ (p.ran L A E (.deleteFile path) supply).log → _ :=
    ops_of_more (.writeTextFile path content) _ hclosed.2 (fun c hc => (hsame c).mpr hc)
      (Doc.recorded_of_changes hchanges hpending hrewrites)
  have hrest (b : Addr) (hb : b.fileId = some f.id ∨ b = .rootMap .files)
      (hb' : b ≠ .fileField f.id .deletedAt) :=
    hmet.symm.get_left hinv' fun c hc hno op hop hin => by
      rw [hmore c hc hno op hop] at hin
      rcases List.mem_cons.mp hin with heq | hanc
      · exact hb' heq.symm
      · cases b <;> simp [Op.target, Addr.ancestors] at hanc
  have hmeta : ((q.doc E supply').after
      (LocalOp.run L A (.writeTextFile path content))).root.readFileMeta L f.id = .ok (some { f with
        kind := .text, size := (utf8 content).length, updatedAt := now, deletedAt := none }) := by
    rw [hroot]
    refine Doc.readFileMeta_textWritten now ?_
    rw [← hf]
    exact (Root.readFileMeta_congr (Root.mapObj_congr (hget _)) fun b _ => hget b).symm
  have hquiet : Met.Quiet (p.ran L A E (.deleteFile path) supply)
      (q.ran L A E (.writeTextFile path content) supply') (.fileField f.id .deletedAt) :=
    fun c hc hno op hop hanc => (hmore' c hc hno op hop).spares (b := .fileMeta f.id) (by simp)
      (by simp) (by simpa [Addr.ancestors] using hanc)
  have hgone : (m.root E).get (.fileField f.id .deletedAt) = some (.scalar (.int gone)) := by
    refine (hmet.get_erased hinv' rfl hquiet fun obj hobj w hw hkey => ?_).trans
      ((hleft _ (.inl rfl)).trans ?_)
    · obtain ⟨c', hc', hw'⟩ := mem_writesOf.mp hw
      by_cases hin : c' ∈ (p.ran L A E (.deleteFile path) supply).log
      · exact .inl (mem_writesOf.mpr ⟨c', hin, hw'⟩)
      · have hc'' := ((hmet.mem c').mp hc').resolve_left hin
        have hdelete (u : Write) (hu : u ∈ c'.writes)
            (hukey : u.key = .fileField f.id .deletedAt) : Op.erases u.act = true := by
          rcases hinv'.known c' (hmet.both.sub hc') with rfl | ⟨-, hplaced⟩
          · exact absurd hmet.left.genesis hin
          · have htarget := (hplaced u hu).key.symm.trans hukey
            rcases hmore' c' hc'' hin _ (hplaced u hu).act with h | h | h | h | h
            · rw [h] at htarget; cases htarget
            · rw [h] at htarget; cases htarget
            · rw [h] at htarget; cases htarget
            · rw [h] at htarget; cases htarget
            · rw [h]
              rfl
        refine .inr ⟨hdelete w hw' hkey, fun v hv hpred => ?_⟩
        -- The tombstone is the one value there is, and the edit was made by a peer without it.
        obtain ⟨hvat, hvkeep, -⟩ := Registers.mem_values.mp hv
        obtain ⟨hvin, -, hvkey⟩ := Registers.mem_writesAt.mp hvat
        rw [log_of_ran hdchanges hdpending, writesOf_author, hdops] at hv hobj
        have hnew := notMem_of_overwritten rfl hobj v hv
        rw [log_of_ran hchanges hpending] at hc''
        have hlast : c' = author E q.log q.actor c.timestamp c.ops := by
          refine List.mem_singleton.mp ((List.mem_append.mp hc'').resolve_left fun hold => ?_)
          exact hin (subset_ran ((hsame c').mpr hold))
        rw [hlast] at hw'
        obtain ⟨u, hu, hid⟩ := recordAll_pred w hw' v.id hpred
        have hum : u ∈ writesOf m.log := by
          refine writesOf_subset hmet.symm.sub ?_
          rwa [log_of_ran hchanges hpending, writesOf_author]
        obtain rfl : u = v := hinv'.distinct hmet.both hum (writesOf_subset hmet.sub hvin) hid
        rcases List.mem_append.mp hu with hold | hnew'
        · have hold' : u ∈ writesOf p.log := writesOf_subset (fun c hc => (hsame c).mpr hc) hold
          have hlt := clock_lt_maxOp u hold'
          have hle := recordAll_pairwise.2 u hnew
          omega
        · rw [hdelete u (hlast ▸ hnew') hvkey] at hvkeep
          cases hvkeep
    · rw [hdroot]
      simp [Op.apply]
  refine ⟨m, now, gone, hm, ?_, fun hsplices => ?_⟩
  · obtain ⟨-, -, -, hpath', -, -, -, hupdated', -, -, -⟩ := Root.readFileMeta_eq_some.mp hmeta
    have hsame' (b : Addr) (hb : b.fileId = some f.id ∨ b = .rootMap .files)
        (hcontent : b.isContent = false) (hb' : b ≠ .fileField f.id .deletedAt) :=
      (hrest b hb hb').trans (hright b (.inl hcontent))
    refine Root.readFileMeta_changed hmeta (fun b hb hcontent _ _ hb' => hsame' b hb hcontent hb')
      ?_ ?_ (Root.getInt_of_get hgone)
    · rwa [Root.getStr_congr (hsame' (.fileField f.id .path) (.inl rfl) rfl (by simp))]
    · rwa [Root.getInt_congr (hsame' (.fileField f.id .updatedAt) (.inl rfl) rfl (by simp))]
  · have hcontent := (hrest (.content f.id) (.inl rfl) (by simp)).trans
      (hright _ (hsplices.fixes _))
    rw [Root.getText, hcontent, ← Root.getText, hroot]
    exact Doc.getText_textWritten _ _ _ _

/-! Two peers with a file that reads `ab`, and what they do to it. -/

private def together : Option Replicas :=
  Machine.run (step .plain .plain inOrder (txt "vault")) (start .plain inOrder (txt "vault"))
    [.new (txt "a"), .new (txt "bb"),
      .run 0 (.writeTextFile (txt "x.md") (txt "ab")) (marked 'f' 17), .merge 1 0]

private def file : FileMeta := ⟨txt "fi", txt "x.md", .text, 2, 0, 0, none, none⟩

private def withEdit (op : LocalOp) : List Act :=
  [.run 0 op (marked 'g' 18), .run 1 (.writeTextFile (txt "x.md") (txt "axb")) (marked 'h' 33),
    .merge 0 1]

private theorem together_reached : ∃ s p q, together = some s ∧
    Machine.Reach (step .plain .plain inOrder (txt "vault")) (Fair .plain .plain inOrder (txt "vault"))
      (start .plain inOrder (txt "vault")) s ∧
    s.peers[0]? = some p ∧ s.peers[1]? = some q ∧ (p.pending = [] ∧ q.pending = []) ∧
    p.log = q.log ∧ (p.root inOrder).findFileByPathNormalized .plain (txt "x.md") = .ok (some file.id) ∧
    (p.root inOrder).findFileByPathNormalized .plain (txt "y.md") = .ok none ∧
    (p.root inOrder).readFileMeta .plain file.id = .ok (some file) := by
  obtain ⟨s, hs⟩ := Option.isSome_iff_exists.mp (show together.isSome = true by decide +kernel)
  have hreach := Machine.Reach.of_run (Machine.Guarded.of_allowed fair_of_allows
    (show Machine.allowed (step .plain .plain inOrder (txt "vault")) allows
      (start .plain inOrder (txt "vault")) [.new (txt "a"), .new (txt "bb"),
        .run 0 (.writeTextFile (txt "x.md") (txt "ab")) (marked 'f' 17), .merge 1 0] = true by
      decide +kernel)) hs
  have hpeers : (together.bind fun s => s.peers[0]?.bind fun p => s.peers[1]?.map fun q =>
      decide ((p.pending = [] ∧ q.pending = []) ∧ p.log = q.log ∧
        (p.root inOrder).findFileByPathNormalized .plain (txt "x.md") = .ok (some file.id) ∧
        (p.root inOrder).findFileByPathNormalized .plain (txt "y.md") = .ok none ∧
        (p.root inOrder).readFileMeta .plain file.id = .ok (some file))) = some true := by
    decide +kernel
  rw [hs, Option.bind_some, Option.bind_eq_some_iff] at hpeers
  obtain ⟨p, hp, hpeers⟩ := hpeers
  obtain ⟨q, hq, hall⟩ := Option.map_eq_some_iff.mp hpeers
  exact ⟨s, p, q, hs, hreach, hp, hq, of_decide_eq_true hall⟩

/-- What is computed of the run that follows is so. -/
private theorem follows {s : Replicas} (acts : List Act) (hs : together = some s)
    (hrun : (together.bind fun s =>
      Machine.run (step .plain .plain inOrder (txt "vault")) s acts).isSome = true)
    (hallowed : together.any (Machine.allowed (step .plain .plain inOrder (txt "vault")) allows ·
      acts) = true) :
    (∃ s', Machine.run (step .plain .plain inOrder (txt "vault")) s acts = some s') ∧
      Machine.Guarded (step .plain .plain inOrder (txt "vault"))
        (Fair .plain .plain inOrder (txt "vault")) s acts := by
  rw [hs] at hrun hallowed
  exact ⟨Option.isSome_iff_exists.mp hrun, Machine.Guarded.of_allowed fair_of_allows hallowed⟩

theorem rename_meets_edit_axb : ∃ s s' m now, together = some s ∧
    Machine.run (step .plain .plain inOrder (txt "vault")) s
      (withEdit (.renameFile (txt "x.md") (txt "y.md"))) = some s' ∧ s'.peers[0]? = some m ∧
    (m.root inOrder).readFileMeta .plain file.id =
      .ok (some { file with path := txt "y.md", size := 3, updatedAt := now }) ∧
    (m.root inOrder).getText file.id = some (txt "axb") := by
  obtain ⟨s, p, q, hs, hreach, hp, hq, hclosed, hlog, hfind, hfree, hf⟩ := together_reached
  obtain ⟨⟨s', hs'⟩, hguard⟩ := follows (withEdit (.renameFile (txt "x.md") (txt "y.md")))
    hs (by decide +kernel) (by decide +kernel)
  obtain ⟨m, now, hm, hmeta, htext⟩ := rename_meets_edit hreach hp hq hclosed
    (fun c => by rw [hlog]) (by decide) (by decide) (by decide) hfind hfree hf hguard hs'
  exact ⟨s, s', m, now, hs, hs', hm, hmeta, htext splices_inOrder⟩

theorem delete_meets_edit_axb : ∃ s s' m now gone, together = some s ∧
    Machine.run (step .plain .plain inOrder (txt "vault")) s
      (withEdit (.deleteFile (txt "x.md"))) = some s' ∧ s'.peers[0]? = some m ∧
    (m.root inOrder).readFileMeta .plain file.id =
      .ok (some { file with size := 3, updatedAt := now, deletedAt := some gone }) ∧
    (m.root inOrder).getText file.id = some (txt "axb") := by
  obtain ⟨s, p, q, hs, hreach, hp, hq, hclosed, hlog, hfind, -, hf⟩ := together_reached
  obtain ⟨⟨s', hs'⟩, hguard⟩ := follows (withEdit (.deleteFile (txt "x.md")))
    hs (by decide +kernel) (by decide +kernel)
  obtain ⟨m, now, gone, hm, hmeta, htext⟩ := delete_meets_edit hreach hp hq hclosed
    (fun c => by rw [hlog]) (by decide) hfind hf hguard hs'
  exact ⟨s, s', m, now, gone, hs, hs', hm, hmeta, htext splices_inOrder⟩

/-- The two peers when they are apart. -/
private theorem apart_reached : ∃ s p q, Machine.Reach (step .plain .plain inOrder (txt "vault"))
      (Fair .plain .plain inOrder (txt "vault")) (start .plain inOrder (txt "vault")) s ∧
    s.peers[0]? = some p ∧ s.peers[1]? = some q ∧
    (∀ c ∈ (q.closed inOrder).log, c ∉ (p.closed inOrder).log → ∀ op ∈ c.ops,
      op.target ∉ Addr.fileField file.id .path :: (Addr.fileField file.id .path).ancestors) ∧
    (p.root inOrder).get (.fileField file.id .path) = some (.scalar (.str (txt "y.md"))) ∧
    (∃ s', Machine.run (step .plain .plain inOrder (txt "vault")) s [.merge 0 1, .merge 1 0] =
      some s') ∧
    Machine.Guarded (step .plain .plain inOrder (txt "vault"))
      (Fair .plain .plain inOrder (txt "vault")) s [.merge 0 1, .merge 1 0] := by
  obtain ⟨s₀, p₀, q₀, hs₀, hreach, -⟩ := together_reached
  obtain ⟨⟨s, hs⟩, hguard⟩ := follows
    [.run 0 (.renameFile (txt "x.md") (txt "y.md")) (marked 'g' 18),
      .run 1 (.writeTextFile (txt "x.md") (txt "axb")) (marked 'h' 33)]
    hs₀ (by decide +kernel) (by decide +kernel)
  have hall : (together.bind fun s => (Machine.run (step .plain .plain inOrder (txt "vault")) s
      [.run 0 (.renameFile (txt "x.md") (txt "y.md")) (marked 'g' 18),
        .run 1 (.writeTextFile (txt "x.md") (txt "axb")) (marked 'h' 33)]).bind fun s =>
      s.peers[0]?.bind fun p => s.peers[1]?.map fun q =>
        decide ((∀ c ∈ (q.closed inOrder).log, c ∉ (p.closed inOrder).log → ∀ op ∈ c.ops,
            op.target ∉ Addr.fileField file.id .path :: (Addr.fileField file.id .path).ancestors) ∧
          (p.root inOrder).get (.fileField file.id .path) = some (.scalar (.str (txt "y.md"))) ∧
          (Machine.run (step .plain .plain inOrder (txt "vault")) s
            [.merge 0 1, .merge 1 0]).isSome = true ∧
          Machine.allowed (step .plain .plain inOrder (txt "vault")) allows s
            [.merge 0 1, .merge 1 0] = true)) = some true := by
    decide +kernel
  rw [hs₀, Option.bind_some, hs, Option.bind_some, Option.bind_eq_some_iff] at hall
  obtain ⟨p, hp, hall⟩ := hall
  obtain ⟨q, hq, hall⟩ := Option.map_eq_some_iff.mp hall
  obtain ⟨hclean, hpath, hrun, hallowed⟩ := of_decide_eq_true hall
  exact ⟨s, p, q, hreach.trans (Machine.Reach.of_run hguard hs), hp, hq, hclean, hpath,
    Option.isSome_iff_exists.mp hrun, Machine.Guarded.of_allowed fair_of_allows hallowed⟩

theorem meets_by_register_renamed : ∃ s s' m,
    step .plain .plain inOrder (txt "vault") s (.merge 0 1) = some s' ∧ s'.peers[0]? = some m ∧
    (m.root inOrder).get (.fileField file.id .path) = some (.scalar (.str (txt "y.md"))) := by
  obtain ⟨s, p, q, hreach, hp, hq, hclean, hpath, ⟨s'', hs''⟩, hguard⟩ := apart_reached
  obtain ⟨s', hs', -⟩ := Option.bind_eq_some_iff.mp hs''
  obtain ⟨p', q', m, hp', hq', hm, hget⟩ := meets_by_register hreach hguard.1 hs'
  obtain rfl := Option.some.inj (hp.symm.trans hp')
  obtain rfl := Option.some.inj (hq.symm.trans hq')
  exact ⟨s, s', m, hs', hm, ((hget _ (.inl rfl)).1 hclean).trans hpath⟩

theorem exchange_agrees_renamed : ∃ s s'' m n,
    Machine.run (step .plain .plain inOrder (txt "vault")) s [.merge 0 1, .merge 1 0] = some s'' ∧
    s''.peers[0]? = some m ∧ s''.peers[1]? = some n ∧
    (m.root inOrder).liveFiles .plain = (n.root inOrder).liveFiles .plain := by
  obtain ⟨s, p, q, hreach, hp, hq, hclean, hpath, ⟨s'', hs''⟩, hguard⟩ := apart_reached
  obtain ⟨s', hs', hlast⟩ := Option.bind_eq_some_iff.mp hs''
  obtain ⟨s₃, hs₃, hend⟩ := Option.bind_eq_some_iff.mp hlast
  obtain rfl := Option.some.inj hend
  obtain ⟨m, n, hm, hn, -, -, hfiles, -⟩ := exchange_agrees hreach hguard.1 hs' (hguard.2 s' hs').1 hs₃
  exact ⟨s, s₃, m, n, hs'', hm, hn, hfiles⟩

end Replicas

end AgentSync
