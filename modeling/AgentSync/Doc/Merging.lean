import AgentSync.Text
import AgentSync.Doc.Effects
import AgentSync.Doc.Entries
import AgentSync.Doc.Replay

/-! Concurrent edits of one text.

The document keeps a text as the string it reads. Under it Automerge has elements, which the
splices of a change take out and put in, and two forks merge element by element. The splices
of `write_text_file` replace the whole text, so where both forks have edited it, the characters
that both kept come twice (`Doc.concurrent_edits`). -/
namespace AgentSync

open Text (Element Edit)

variable {L : Crates}

/-- The splice an operation is on the text of a file. -/
def Op.spliceOf (fid : Str) : Op → Option (Text.Splice Char)
  | .spliceText fid' pos del insert => if fid' = fid then some ⟨pos, del, insert⟩ else none
  | _ => none

def splicesOf (fid : Str) (ops : List Op) : List (Text.Splice Char) :=
  ops.filterMap (Op.spliceOf fid)

theorem splicesOf_append (fid : Str) (ops ops' : List Op) :
    splicesOf fid (ops ++ ops') = splicesOf fid ops ++ splicesOf fid ops' :=
  List.filterMap_append

/-- The operation leaves the text of a file as it is or splices it. -/
def Op.Splices (fid : Str) (op : Op) : Prop :=
  (∃ pos del insert, op = .spliceText fid pos del insert) ∨
    op.target ≠ .content fid ∧ op.target ∉ (Addr.content fid).ancestors

/-- The blob that a file is, when it is an attachment. -/
def Root.attached (r : Root) (fid : Str) : Option Str :=
  if r.get (.fileField fid .kind) = some (.scalar (.str FileKind.attachment.asStr)) then
    match r.get (.binaryHash fid) with
    | some (.scalar (.str hash)) => some hash
    | _ => none
  else none

/-- **The text that the document reads is the one its elements make.** -/
theorem getText_applyAll {r : Root} {fid : Str} {ops : List Op} (h : ∀ op ∈ ops, op.Splices fid)
    (fork : Bool) (n : Nat) {t : List (Element Char)} (ht : r.getText fid = some (Text.chars t)) :
    (applyAll r ops).getText fid =
      some (Text.chars (Text.splices fork n t (splicesOf fid ops))) := by
  induction ops generalizing r n t with
  | nil => exact ht
  | cons op rest ih =>
    have hrest := fun op hop => h op (List.mem_cons_of_mem _ hop)
    rw [applyAll_cons]
    rcases h op List.mem_cons_self with ⟨pos, del, insert, rfl⟩ | ⟨hne, hanc⟩
    · have hcontent : r.get (.content fid) = some (.text (Text.chars t)) := by
        unfold Root.getText at ht
        split at ht
        next s hs =>
          rw [hs, Option.some.inj ht]
        next => cases ht
      have hsplices : splicesOf fid (.spliceText fid pos del insert :: rest) =
          ⟨pos, del, insert⟩ :: splicesOf fid rest := by
        simp [splicesOf, Op.spliceOf]
      rw [hsplices]
      refine ih hrest _ ?_
      rw [Text.chars_apply]
      simp [Op.apply, hcontent, Root.getText]
    · have hsplices : splicesOf fid (op :: rest) = splicesOf fid rest := by
        have hnone : op.spliceOf fid = none := by
          cases op with
          | spliceText fid' pos del insert =>
            rw [Op.spliceOf, if_neg]
            rintro rfl
            exact hne rfl
          | _ => rfl
        rw [splicesOf, List.filterMap_cons, hnone]
        rfl
      rw [hsplices]
      refine ih hrest n ?_
      rw [Root.getText, get_apply_of_ne r op hne hanc]
      exact ht

namespace Doc

/-- `fork`: another replica's copy of a document, whose transaction is closed first. -/
def forked (d : Doc) (supply : Supply) (draws : Nat) : Doc :=
  {d.committed 0 with supply := supply, draws := draws}

@[simp] theorem forked_root (d : Doc) (supply : Supply) (draws : Nat) :
    (d.forked supply draws).root = d.root := committed_root 0

/-- The operations that have been recorded since, whether they are committed or not. -/
def opsSince (d d' : Doc) : List Op :=
  ((d'.changes.drop d.changes.length).flatMap Change.ops ++ d'.pending).drop d.pending.length

theorem opsSince_committed {d d' : Doc} {ops : List Op} (h : d'.changes = d.changes)
    (hops : d'.pending = d.pending ++ ops) (time : Int) :
    opsSince d (d'.committed time) = ops := by
  unfold committed
  split
  next => simp [opsSince, h, hops]
  next => simp [opsSince, h, hops]

/-- The elements of a text that read `base` when the document was forked. -/
def elements (side : Bool) (fid base : Str) (d d' : Doc) : List (Element Char) :=
  Text.splices side 0 (Text.initial base) (splicesOf fid (opsSince d d'))

variable {d : Doc} {path p fid base : Str}

/-- What `write_text_file` records for a file that is there. -/
theorem writeTextFile_ops (hp : Path.normalize L.nfc path = .ok p)
    (hfind : d.root.findFileByPathNormalized L p = .ok (some fid)) (content : Str) :
    Ends (writeTextFile L path content) d fun fid' d' => fid' = fid ∧ ∃ now,
      opsSince d d' = setTextOps fid content (d.root.getText fid) ++
        textFields fid (utf8 content).length now ∧
      d'.root = applyAll d.root (opsSince d d') := by
  refine .bind (.lift hp (.bind (.nowMs (.bind (.read hfind ?_)))))
  refine .bind (.ask (.bind (.emit (.bind (.commitNow (.pure ?_))))))
  refine ⟨rfl, d.supply.now d.draws, opsSince_committed (by rfl) rfl _, ?_⟩
  rw [opsSince_committed (by rfl) rfl, committed_root]
  rfl

theorem splicesOf_setTextOps (content : Str) (size now : Int) :
    splicesOf fid (setTextOps fid content (some base) ++ textFields fid size now) =
      Text.wholly base content := by
  have hfields : splicesOf fid (textFields fid size now) = [] := rfl
  rw [splicesOf_append, hfields, List.append_nil, setTextOps, Text.wholly]
  split
  next => rfl
  next => simp [splicesOf, Op.spliceOf]

/-- A fork that writes a version has the elements of a whole write, which read as it does. -/
theorem writeTextFile_elements (hp : Path.normalize L.nfc path = .ok p)
    (hfind : d.root.findFileByPathNormalized L p = .ok (some fid))
    (hbase : d.root.getText fid = some base) (e : Edit base) (side : Bool) :
    Ends (writeTextFile L path e.text) d fun fid' d' => fid' = fid ∧
      elements side fid base d d' = Text.written e side ∧
      d'.root.getText fid = some (Text.chars (elements side fid base d d')) := by
  refine (writeTextFile_ops hp hfind e.text).weaken ?_
  rintro fid' d' ⟨rfl, now, hops, hroot⟩
  rw [hbase] at hops
  have helements : elements side fid' base d d' = Text.written e side := by
    rw [elements, hops, splicesOf_setTextOps, Text.written]
  refine ⟨rfl, helements, ?_⟩
  rw [hroot]
  refine getText_applyAll (fun op hop => ?_) side 0 (by rw [hbase, Text.chars_initial])
  rw [hops] at hop
  obtain hop | hop := List.mem_append.mp hop
  · by_cases hsame : base = e.text
    · simp [setTextOps, hsame] at hop
    · exact .inl ⟨0, base.length, e.text, by simpa [setTextOps, hsame] using hop⟩
  · refine .inr ?_
    simp only [textFields, List.mem_cons, List.not_mem_nil, or_false] at hop
    rcases hop with rfl | rfl | rfl | rfl <;> simp [Op.target, Addr.ancestors]

/-- **Two versions of a text that two forks write with `write_text_file` merge with every
character that both kept, and every one that either typed, just once** exactly when one fork
wrote what was there, or no character was kept by both. -/
theorem concurrent_edits (hp : Path.normalize L.nfc path = .ok p)
    (hfind : d.root.findFileByPathNormalized L p = .ok (some fid))
    (hbase : d.root.getText fid = some base) (e e' : Edit base) (supply supply' : Supply)
    (draws draws' : Nat) :
    Ends (writeTextFile L path e.text) (d.forked supply draws) fun _ left =>
      Ends (writeTextFile L path e'.text) (d.forked supply' draws') fun _ right =>
        ∀ m, Text.Merged (elements false fid base (d.forked supply draws) left)
            (elements true fid base (d.forked supply' draws') right) m →
          (Text.Once e e' (elements false fid base (d.forked supply draws) left)
              (elements true fid base (d.forked supply' draws') right) m ↔
            e.text = base ∨ e'.text = base ∨ ∀ i, ¬ (e.Keeps i ∧ e'.Keeps i)) := by
  refine (writeTextFile_elements hp (by rwa [forked_root]) (by rwa [forked_root]) e false).weaken ?_
  rintro _ left ⟨-, hleft, -⟩
  refine (writeTextFile_elements hp (by rwa [forked_root]) (by rwa [forked_root]) e' true).weaken ?_
  rintro _ right ⟨-, hright, -⟩ m hm
  rw [hleft, hright] at hm ⊢
  exact hm.once_iff (by decide)

/-- A file that reads `ab`. -/
private def shared : Doc := .replica (.numbered '1' 16) [.writeTextFile (txt "x.md") (txt "ab")]

/-- One user types at its end, another at its beginning. -/
private def atEnd : Edit (txt "ab") := .around _ [] ['X']

private def atStart : Edit (txt "ab") := .around _ ['Y'] []

private def same : Edit (txt "ab") := .around _ [] []

private theorem find_shared :
    shared.root.findFileByPathNormalized .plain (txt "x.md") = .ok (some ['1', 'i']) := rfl

theorem concurrent_edits_single :
    Ends (writeTextFile .plain (txt "x.md") same.text) (shared.forked (.numbered '2' 32) 0)
      fun _ left => Ends (writeTextFile .plain (txt "x.md") atEnd.text)
        (shared.forked (.numbered '3' 48) 0) fun _ right =>
          ∀ m, Text.Merged
              (elements false ['1', 'i'] (txt "ab") (shared.forked (.numbered '2' 32) 0) left)
              (elements true ['1', 'i'] (txt "ab") (shared.forked (.numbered '3' 48) 0) right) m →
            Text.Once same atEnd
              (elements false ['1', 'i'] (txt "ab") (shared.forked (.numbered '2' 32) 0) left)
              (elements true ['1', 'i'] (txt "ab") (shared.forked (.numbered '3' 48) 0) right) m := by
  refine (concurrent_edits (L := .plain) (p := txt "x.md") (by rfl) find_shared rfl same atEnd
    (.numbered '2' 32) (.numbered '3' 48) 0 0).weaken ?_
  exact fun _ left hleft => hleft.weaken fun _ right hright m hm => (hright m hm).mpr (.inl rfl)

/-- **Both users' characters twice**: `abX` and `Yab` merge to `abXYab`. -/
theorem concurrent_edits_doubled :
    ∃ (d : Doc) (fid : Str) (e e' : Edit (txt "ab")) (supply supply' : Supply),
      Reachable .plain .plain d ∧
      d.root.findFileByPathNormalized .plain (txt "x.md") = .ok (some fid) ∧
      d.root.getText fid = some (txt "ab") ∧ e.text = txt "abX" ∧ e'.text = txt "Yab" ∧
      Ends (writeTextFile .plain (txt "x.md") e.text) (d.forked supply 0) fun _ left =>
        Ends (writeTextFile .plain (txt "x.md") e'.text) (d.forked supply' 0) fun _ right =>
          ∃ m, Text.Merged (elements false fid (txt "ab") (d.forked supply 0) left)
              (elements true fid (txt "ab") (d.forked supply' 0) right) m ∧
            Text.chars m = txt "abXYab" ∧
            ¬ Text.Once e e' (elements false fid (txt "ab") (d.forked supply 0) left)
              (elements true fid (txt "ab") (d.forked supply' 0) right) m := by
  refine ⟨shared, ['1', 'i'], atEnd, atStart, .numbered '2' 32, .numbered '3' 48,
    reachable_replica (by decide +kernel), find_shared, rfl, rfl, rfl, ?_⟩
  refine (writeTextFile_elements (L := .plain) (p := txt "x.md") rfl
    (by rw [forked_root, find_shared]) rfl atEnd false).weaken ?_
  rintro _ left ⟨-, hleft, -⟩
  refine (writeTextFile_elements (L := .plain) (p := txt "x.md") rfl
    (by rw [forked_root, find_shared]) rfl atStart true).weaken ?_
  rintro _ right ⟨-, hright, -⟩
  rw [hleft, hright]
  have hmerged : Text.Merged (Text.written atEnd false) (Text.written atStart true)
      (Text.typed false 0 (txt "abX") ++ Text.typed true 0 (txt "Yab")) :=
    Text.merged_typed (by decide) (txt "abX") (txt "Yab")
  refine ⟨_, hmerged, rfl, fun h => ?_⟩
  rcases (hmerged.once_iff (by decide)).mp h with h | h | h
  · exact absurd h (by decide)
  · exact absurd h (by decide)
  · exact h ⟨0, by decide⟩ ⟨Edit.keeps_around .., Edit.keeps_around ..⟩

end Doc

end AgentSync
