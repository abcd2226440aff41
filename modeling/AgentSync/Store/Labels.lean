import AgentSync.Base64
import AgentSync.Inodes
import AgentSync.Machine
import AgentSync.Doc.Outcome

/-! The label index, and the calls that write it.

`create_label` and `delete_label` change the document, list its labels and write the list to
`index.json`, each part under its own guard, so the calls of one vault overlap. All of them write
the one temporary file, and each renames what it has listed, however long ago. The index follows
the document where the file is left to the last call that opened it and the last call to rename
has listed since the last change (`index_follows`); calls that wait for each other do that
(`orderly_of_alone`). -/
namespace AgentSync.SnapshotIndex

open Doc (Label)

/-! ### The file -/

structure SnapshotEntry where
  label : Str
  heads : Str
  createdAt : Int
  deriving DecidableEq, Repr

structure SnapshotIndexFile where
  schemaVersion : Int
  labels : List SnapshotEntry
  deriving DecidableEq, Repr

/-- The heads are in the base64 of `STANDARD_NO_PAD`. -/
def entryOf (l : Label) : SnapshotEntry :=
  ⟨l.name, Base64.encodeNoPad (Doc.encodeHeads l.heads), l.createdAt⟩

def indexName : Str := txt "index.json"
def tmpName : Str := txt ".index.json.tmp"

theorem indexName_ne_tmpName : indexName ≠ tmpName := by decide

/-! ### The calls -/

inductive Request where
  | createLabel (name : Str)
  | deleteLabel (name : Str)
  deriving DecidableEq, Repr

def Request.run (L : Crates) : Request → DocM Unit
  | .createLabel name => Doc.createLabel L name
  | .deleteLabel name => Doc.deleteLabel L name

/-- What a call has still to do. -/
inductive Place where
  /-- The document is to be changed, under its guard. -/
  | mutating
  /-- `flush_snapshots_index` takes the guard again. -/
  | listing
  | ensuring
  | opening
  /-- `fs::write` has the file open, with `rest` to go. -/
  | writing (file : Nat) (rest : Bytes)
  | publishing
  | returned (ok : Bool)
  deriving DecidableEq, Repr

/-- A call; `labels` is what it has listed. -/
structure Call where
  request : Request
  labels : Option (List Label)
  place : Place
  deriving DecidableEq

/-- The document, the directory of the index, and all the calls there were. -/
structure Labelling where
  doc : Doc
  folder : Folder Str UInt8
  calls : List Call

inductive Act where
  | call (request : Request)
  /-- The `i`-th call goes on; a write takes `n` bytes. -/
  | next (i n : Nat)
  /-- What the `i`-th call asks of the file system fails. -/
  | fails (i : Nat)
  deriving DecidableEq, Repr

variable (toJson : SnapshotIndexFile → Bytes) (L : Crates)

/-- The file of a list of labels; `toJson` is `serde_json::to_string_pretty`. -/
def render (labels : List Label) : Bytes := toJson ⟨1, labels.map entryOf⟩

namespace Call

/-- `create_label` or `delete_label` from one step to the next, with the document and the
directory. -/
def next (c : Call) (doc : Doc) (f : Folder Str UInt8) (n : Nat) :
    Option (Doc × Folder Str UInt8 × Call) :=
  match c.place with
  | .mutating =>
    match c.request.run L doc with
    | .ok _ doc' => some (doc', f, {c with place := .listing})
    | .error _ doc' => some (doc', f, {c with place := .returned false})
  | .listing =>
    match Doc.listLabels L doc.root with
    | .ok labels => some (doc, f, {c with labels := some labels, place := .ensuring})
    | .error _ => some (doc, f, {c with place := .returned false})
  | .ensuring => some (doc, f, {c with place := .opening})
  | .opening =>
    let (f', file) := f.create tmpName
    some (doc, f', {c with place := .writing file (render toJson (c.labels.getD []))})
  | .writing _ [] => some (doc, f, {c with place := .publishing})
  | .writing file (b :: rest) =>
    let left := b :: rest
    if 0 < n ∧ n ≤ left.length then
      let written := (render toJson (c.labels.getD [])).length - left.length
      some (doc, f.writeAt 0 file written (left.take n),
        {c with place := .writing file (left.drop n)})
    else none
  | .publishing =>
    match f.rename tmpName indexName with
    | some f' => some (doc, f', {c with place := .returned true})
    | none => some (doc, f, {c with place := .returned false})
  | .returned _ => none

def fails (c : Call) : Option Call :=
  match c.place with
  | .ensuring | .opening | .writing _ _ | .publishing => some {c with place := .returned false}
  | .mutating | .listing | .returned _ => none

end Call

namespace Labelling

def step (s : Labelling) : Act → Option Labelling
  | .call request => some {s with calls := s.calls ++ [⟨request, none, .mutating⟩]}
  | .next i n => do
    let c ← s.calls[i]?
    let (doc, folder, c') ← c.next toJson L s.doc s.folder n
    some ⟨doc, folder, s.calls.set i c'⟩
  | .fails i => do
    let c ← s.calls[i]?
    let c' ← c.fails
    some {s with calls := s.calls.set i c'}

/-! ### The law and its condition -/

/-- All of what a call has listed, and nothing else. -/
def Whole (s : Labelling) (content : Bytes) : Prop :=
  ∃ c ∈ s.calls, ∃ labels ∈ c.labels, content = render toJson labels

/-- The labels of the document. -/
def Current (s : Labelling) (content : Bytes) : Prop :=
  ∃ labels, Doc.listLabels L s.doc.root = .ok labels ∧ content = render toJson labels

/-- The index is a whole file, and once all calls have returned `Ok` that of the document's
labels; `f₀` is what was there before them. -/
structure Follows (f₀ : Folder Str UInt8) (s : Labelling) : Prop where
  whole : ∀ content, s.folder.read indexName = some content →
    f₀.read indexName = some content ∨ s.Whole toJson content
  current : s.calls ≠ [] → (∀ c ∈ s.calls, c.place = .returned true) →
    ∃ content, s.folder.read indexName = some content ∧ s.Current toJson L content

/-- A call other than the `i`-th has not returned `Ok` yet. -/
def Awaited (s : Labelling) (i : Nat) : Prop :=
  ∃ j c, j ≠ i ∧ s.calls[j]? = some c ∧ c.place ≠ .returned true

/-- What is behind a run: who has listed since the document last changed, and who was the last to
open the temporary file. -/
structure Record where
  listed : List Nat
  opener : Option Nat

def note (s : Labelling) (a : Act) (_ : Labelling) (r : Record) : Record :=
  match a with
  | .next i _ =>
    match (s.calls[i]?).map Call.place with
    | some .mutating => {r with listed := []}
    | some .listing => {r with listed := i :: r.listed}
    | some .opening => {r with opener := some i}
    | _ => r
  | _ => r

def recorded : Labelling × Record → Act → Option (Labelling × Record) :=
  Machine.traced (step toJson L) note

/-- Who writes to the temporary file was the last to open it. Who renames it, unless it is gone,
was so too, or the last to open it has written it all; and whose list it is has listed since the
last change, unless another call is still to return. -/
def Orderly (x : Labelling × Record) : Act → Prop
  | .next i _ => ∀ c, x.1.calls[i]? = some c →
    (∀ file b rest, c.place = .writing file (b :: rest) → x.2.opener = some i) ∧
    (c.place = .publishing → x.1.folder.read tmpName ≠ none →
      ∃ k q, x.2.opener = some k ∧ x.1.calls[k]? = some q ∧ q.place = .publishing ∧
        (k ∈ x.2.listed ∨ x.1.Awaited i))
  | _ => True

/-- No call writes on into a file that is the index by now. What a call renames is a whole list,
and, if it is the last to return, that of the document. -/
def Faithful (s : Labelling) : Act → Prop
  | .next i _ => ∀ c, s.calls[i]? = some c →
    (∀ file b rest, c.place = .writing file (b :: rest) →
      s.folder.entries indexName ≠ some file) ∧
    (c.place = .publishing → ∀ content, s.folder.read tmpName = some content →
      s.Whole toJson content ∧ (s.Current toJson L content ∨ s.Awaited i))
  | _ => True

end Labelling

/-! ### What a step does -/

variable {toJson : SnapshotIndexFile → Bytes} {L : Crates}

/-- A step of a call renames its file to the index, or leaves what is read there. -/
theorem Call.next_cases {c c' : Call} {doc doc' : Doc} {f f' : Folder Str UInt8} {n : Nat}
    (h : c.next toJson L doc f n = some (doc', f', c'))
    (hother : ∀ file b rest, c.place = .writing file (b :: rest) →
      f.entries indexName ≠ some file) :
    (f'.read indexName = f.read indexName ∧ c'.place ≠ .returned true ∧
      (c'.labels = c.labels ∨ c.place = .listing) ∧
        (c'.place = .mutating ∨ c'.place = .listing → c'.labels = c.labels ∧
          (c.place = .mutating ∨ c.place = .listing))) ∨
      (c.place = .publishing ∧ doc' = doc ∧ c' = {c with place := .returned true} ∧
        ∃ content, f.read tmpName = some content ∧ f'.read indexName = some content) := by
  obtain ⟨request, labels, place⟩ := c
  cases place with
  | mutating =>
    left
    simp only [next] at h
    split at h
    · cases h
      exact ⟨rfl, by simp, .inl rfl, fun _ => ⟨rfl, .inl rfl⟩⟩
    · cases h
      exact ⟨rfl, by simp, .inl rfl, fun h => by simp at h⟩
  | listing =>
    left
    simp only [next] at h
    split at h
    · cases h
      exact ⟨rfl, by simp, .inr rfl, fun h => by simp at h⟩
    · cases h
      exact ⟨rfl, by simp, .inl rfl, fun h => by simp at h⟩
  | ensuring =>
    cases h
    exact .inl ⟨rfl, by simp, .inl rfl, fun h => by simp at h⟩
  | opening =>
    cases h
    exact .inl ⟨Folder.read_create_of_ne indexName_ne_tmpName, by simp, .inl rfl,
      fun h => by simp at h⟩
  | writing file rest =>
    cases rest with
    | nil =>
      cases h
      exact .inl ⟨rfl, by simp, .inl rfl, fun h => by simp at h⟩
    | cons b rest =>
      obtain ⟨-, h⟩ := Option.ite_none_right_eq_some.mp h
      cases h
      exact .inl ⟨Folder.read_writeAt _ _ _ (hother file b rest rfl), by simp, .inl rfl,
        fun h => by simp at h⟩
  | publishing =>
    simp only [next] at h
    cases hrename : f.rename tmpName indexName with
    | none =>
      rw [hrename] at h
      cases h
      exact .inl ⟨rfl, by simp, .inl rfl, fun h => by simp at h⟩
    | some f'' =>
      rw [hrename] at h
      cases h
      have hread := Folder.read_rename hrename indexName
      rw [if_pos rfl] at hread
      obtain ⟨file, hfile, -⟩ := Folder.rename_eq_some hrename
      have hcontent : f.read tmpName = some (f.data file) :=
        Folder.read_eq_some.mpr ⟨file, hfile, rfl⟩
      exact .inr ⟨rfl, rfl, rfl, f.data file, hcontent, hread.trans hcontent⟩
  | returned ok => cases h

/-- A call that has returned, or has not begun. -/
def Call.Rests (c : Call) : Prop := c.place = .mutating ∨ ∃ ok, c.place = .returned ok

/-- A call that fails is one that is under way. -/
theorem Call.fails_cases {c c' : Call} (h : c.fails = some c') :
    ¬ c.Rests ∧ c' = {c with place := .returned false} := by
  obtain ⟨request, labels, place⟩ := c
  cases place with
  | mutating | listing | returned ok => cases h
  | ensuring | opening | writing file rest | publishing =>
    cases h
    exact ⟨by simp [Call.Rests], rfl⟩

/-- A call that has listed and has still to return. -/
def Call.Past (c : Call) : Prop := ¬ c.Rests ∧ c.place ≠ .listing

/-- What a call relies on: its list while it is fresh, the temporary file while that is its own. -/
structure Call.Ready (toJson : SnapshotIndexFile → Bytes) (L : Crates) (doc : Doc)
    (f : Folder Str UInt8) (fresh own : Prop) (c : Call) : Prop where
  listed : c.Past → ∃ labels, c.labels = some labels ∧
    (fresh → Doc.listLabels L doc.root = .ok labels)
  writing : ∀ file rest, c.place = .writing file rest → own → f.entries tmpName = some file ∧
    f.data file ++ rest = render toJson (c.labels.getD [])
  publishing : c.place = .publishing → own → ∀ content, f.read tmpName = some content →
    content = render toJson (c.labels.getD [])

theorem Call.past_of_place {c : Call} (hmutating : c.place ≠ .mutating)
    (hlisting : c.place ≠ .listing) (hreturned : ∀ ok, c.place ≠ .returned ok) : c.Past :=
  ⟨fun hrests => hrests.elim hmutating fun ⟨ok, h⟩ => hreturned ok h, hlisting⟩

/-- A call that is not past its listing relies on nothing. -/
theorem Call.Ready.of_not_past {c : Call} {doc : Doc} {f : Folder Str UInt8} {fresh own : Prop}
    (h : ¬ c.Past) : c.Ready toJson L doc f fresh own where
  listed := fun hpast => absurd hpast h
  writing := fun file rest hplace _ =>
    absurd (Call.past_of_place (by simp [hplace]) (by simp [hplace]) (by simp [hplace])) h
  publishing := fun hplace _ =>
    absurd (Call.past_of_place (by simp [hplace]) (by simp [hplace]) (by simp [hplace])) h

/-- What another call does leaves it, as long as it leaves the file or has renamed it. -/
theorem Call.Ready.mono {c : Call} {doc doc' : Doc} {f f' : Folder Str UInt8}
    {fresh fresh' own own' : Prop} (h : c.Ready toJson L doc f fresh own)
    (hfresh : fresh' → fresh ∧ doc' = doc)
    (hown : own' → own ∧ (f' = f ∨ c.place = .publishing ∧ f'.read tmpName = none)) :
    c.Ready toJson L doc' f' fresh' own' where
  listed := fun hpast => by
    obtain ⟨labels, hlabels, hlist⟩ := h.listed hpast
    refine ⟨labels, hlabels, fun hfresh' => ?_⟩
    obtain ⟨hold, rfl⟩ := hfresh hfresh'
    exact hlist hold
  writing := fun file rest hplace hown' => by
    obtain ⟨hold, rfl | ⟨hpublishing, -⟩⟩ := hown hown'
    · exact h.writing file rest hplace hold
    · rw [hplace] at hpublishing
      cases hpublishing
  publishing := fun hplace hown' content hread => by
    obtain ⟨hold, rfl | ⟨-, hgone⟩⟩ := hown hown'
    · exact h.publishing hplace hold content hread
    · rw [hgone] at hread
      cases hread

/-- The call itself goes on. -/
theorem Call.Ready.next {c c' : Call} {doc doc' : Doc} {f f' : Folder Str UInt8} {n : Nat}
    {fresh fresh' own own' : Prop} (h : c.Ready toJson L doc f fresh own)
    (hstep : c.next toJson L doc f n = some (doc', f', c'))
    (hfresh : fresh' → fresh ∨ c.place = .listing ∨ c.place = .mutating)
    (hown : own' → own ∨ c.place = .opening) :
    c'.Ready toJson L doc' f' fresh' own' := by
  obtain ⟨request, labels, place⟩ := c
  cases place with
  | mutating =>
    simp only [Call.next] at hstep
    split at hstep
    · cases hstep
      exact .of_not_past fun hpast => hpast.2 rfl
    · cases hstep
      exact .of_not_past fun hpast => hpast.1 (.inr ⟨false, rfl⟩)
  | listing =>
    simp only [Call.next] at hstep
    split at hstep
    next found hlist =>
      cases hstep
      exact ⟨fun _ => ⟨found, rfl, fun _ => hlist⟩, nofun, nofun⟩
    next =>
      cases hstep
      exact .of_not_past fun hpast => hpast.1 (.inr ⟨false, rfl⟩)
  | returned ok => cases hstep
  | ensuring =>
    obtain ⟨found, hfound, hlist⟩ := h.listed (Call.past_of_place nofun nofun nofun)
    cases hstep
    exact ⟨fun _ => ⟨found, hfound, fun hf => hlist ((hfresh hf).resolve_right (by simp))⟩,
      nofun, nofun⟩
  | opening =>
    obtain ⟨found, hfound, hlist⟩ := h.listed (Call.past_of_place nofun nofun nofun)
    cases hstep
    refine ⟨fun _ => ⟨found, hfound, fun hf => hlist ((hfresh hf).resolve_right (by simp))⟩,
      fun file rest hplace _ => ?_, nofun⟩
    obtain ⟨rfl, rfl⟩ := Place.writing.inj hplace
    have hempty : (f.create tmpName).1.data (f.create tmpName).2 = [] := by
      rw [Folder.data_create, if_pos rfl]
    exact ⟨Folder.entries_create_self, congrArg (· ++ render toJson (labels.getD [])) hempty⟩
  | writing file rest =>
    obtain ⟨found, hfound, hlist⟩ := h.listed (Call.past_of_place nofun nofun nofun)
    cases rest with
    | nil =>
      cases hstep
      refine ⟨fun _ => ⟨found, hfound, fun hf => hlist ((hfresh hf).resolve_right (by simp))⟩,
        nofun, fun _ hown' content hread => ?_⟩
      obtain ⟨hentry, hdata⟩ := h.writing file [] rfl ((hown hown').resolve_right (by simp))
      rw [List.append_nil] at hdata
      exact Option.some.inj (hread.symm.trans (Folder.read_eq_some.mpr ⟨file, hentry, hdata⟩))
    | cons b rest =>
      obtain ⟨-, hstep⟩ := Option.ite_none_right_eq_some.mp hstep
      cases hstep
      refine ⟨fun _ => ⟨found, hfound, fun hf => hlist ((hfresh hf).resolve_right (by simp))⟩,
        fun file' rest' hplace hown' => ?_, nofun⟩
      obtain ⟨hentry, hdata⟩ := h.writing file _ rfl ((hown hown').resolve_right (by simp))
      obtain ⟨rfl, rfl⟩ := Place.writing.inj hplace
      exact ⟨hentry, Folder.data_writeAt_next 0 hdata n⟩
  | publishing =>
    simp only [Call.next] at hstep
    split at hstep
    · cases hstep
      exact .of_not_past fun hpast => hpast.1 (.inr ⟨true, rfl⟩)
    · cases hstep
      exact .of_not_past fun hpast => hpast.1 (.inr ⟨false, rfl⟩)

namespace Labelling

variable {s s' : Labelling} {f₀ : Folder Str UInt8} {i : Nat} {c c' : Call} {content : Bytes}

/-- A call that has not listed the labels yet has none. -/
def Unlisted (s : Labelling) : Prop :=
  ∀ c ∈ s.calls, c.place = .mutating ∨ c.place = .listing → c.labels = none

/-- What a call has listed it keeps. -/
theorem Whole.set (h : s.Whole toJson content) (hc : s.calls[i]? = some c)
    (hkeeps : ∀ labels ∈ c.labels, labels ∈ c'.labels) {doc : Doc} {f : Folder Str UInt8} :
    (⟨doc, f, s.calls.set i c'⟩ : Labelling).Whole toJson content := by
  obtain ⟨q, hq, labels, hlabels, rfl⟩ := h
  obtain ⟨j, hj⟩ := List.mem_iff_getElem?.mp hq
  by_cases hij : i = j
  · subst hij
    obtain rfl := Option.some.inj (hc.symm.trans hj)
    have hi : i < s.calls.length := (List.getElem?_eq_some_iff.mp hc).1
    exact ⟨c', List.mem_set hi c', labels, hkeeps labels hlabels, rfl⟩
  · have hj' : (s.calls.set i c')[j]? = some q := by rw [List.getElem?_set_ne hij, hj]
    exact ⟨q, List.mem_of_getElem? hj', labels, hlabels, rfl⟩

/-- A step after which some call has still to return `Ok`. -/
theorem Follows.pending (h : s.Follows toJson L f₀) (hc : s.calls[i]? = some c)
    (hkeeps : ∀ labels ∈ c.labels, labels ∈ c'.labels) (hplace : c'.place ≠ .returned true)
    {doc : Doc} {f : Folder Str UInt8} (hread : f.read indexName = s.folder.read indexName) :
    (⟨doc, f, s.calls.set i c'⟩ : Labelling).Follows toJson L f₀ where
  whole := fun content hcontent =>
    (h.whole content (hread.symm.trans hcontent)).imp_right fun hw => hw.set hc hkeeps
  current := fun _ hall => by
    have hi : i < s.calls.length := (List.getElem?_eq_some_iff.mp hc).1
    exact absurd (hall c' (List.mem_set hi c')) hplace

/-- A call puts what it has in place of the index. -/
theorem Follows.of_publish (hc : s.calls[i]? = some c)
    (hwhole : s.Whole toJson content) (hcurrent : s.Current toJson L content ∨ s.Awaited i)
    {f : Folder Str UInt8} (hread : f.read indexName = some content) :
    (⟨s.doc, f, s.calls.set i {c with place := .returned true}⟩ : Labelling).Follows
      toJson L f₀ where
  whole := fun content' hcontent' => by
    obtain rfl := Option.some.inj (hread.symm.trans hcontent')
    right
    apply hwhole.set hc
    exact fun _ hlabels => hlabels
  current := fun _ hall => by
    refine ⟨content, hread, hcurrent.resolve_right fun hawaited => ?_⟩
    obtain ⟨j, q, hji, hq, hplace⟩ := hawaited
    have hq' : (s.calls.set i {c with place := .returned true})[j]? = some q := by
      rw [List.getElem?_set_ne (Ne.symm hji), hq]
    exact hplace (hall q (List.mem_of_getElem? hq'))

theorem Unlisted.set (h : s.Unlisted) {doc : Doc} {f : Folder Str UInt8}
    (hc' : c'.place = .mutating ∨ c'.place = .listing → c'.labels = none) :
    (⟨doc, f, s.calls.set i c'⟩ : Labelling).Unlisted := by
  intro q hq hplace
  rcases List.mem_or_eq_of_mem_set hq with hold | rfl
  · exact h q hold hplace
  · exact hc' hplace

theorem Follows.next {n : Nat} (h : s.Follows toJson L f₀) (hunlisted : s.Unlisted)
    (hfaithful : s.Faithful toJson L (.next i n)) (hstep : s.step toJson L (.next i n) = some s') :
    s'.Unlisted ∧ s'.Follows toJson L f₀ := by
  obtain ⟨c, hc, hrest⟩ := Option.bind_eq_some_iff.mp hstep
  obtain ⟨⟨doc, folder, c'⟩, hnext, hs'⟩ := Option.bind_eq_some_iff.mp hrest
  cases hs'
  obtain ⟨hother, hrename⟩ := hfaithful c hc
  have hnone := hunlisted c (List.mem_of_getElem? hc)
  rcases Call.next_cases hnext hother with
    ⟨hread, hplace, hlabels, hlisted⟩ | ⟨hplace, rfl, rfl, content, htmp, hread⟩
  · refine ⟨hunlisted.set fun hc' => ?_, h.pending hc ?_ hplace hread⟩
    · exact (hlisted hc').1.trans (hnone (hlisted hc').2)
    · intro labels hin
      rcases hlabels with hsame | hlisting
      · rwa [hsame]
      · rw [hnone (.inr hlisting)] at hin
        cases hin
  · obtain ⟨hwhole, hcurrent⟩ := hrename hplace content htmp
    exact ⟨hunlisted.set (fun hc' => by simp at hc'),
      Follows.of_publish hc hwhole hcurrent hread⟩

theorem Follows.step {a : Act} (h : s.Follows toJson L f₀) (hunlisted : s.Unlisted)
    (hfaithful : s.Faithful toJson L a) (hstep : s.step toJson L a = some s') :
    s'.Unlisted ∧ s'.Follows toJson L f₀ := by
  cases a with
  | call request =>
    cases hstep
    refine ⟨fun q hq hplace => ?_, fun content hcontent => ?_, fun _ hall => ?_⟩
    · rcases List.mem_append.mp hq with hold | hnew
      · exact hunlisted q hold hplace
      · rw [List.mem_singleton.mp hnew]
    · refine (h.whole content hcontent).imp_right fun hw => ?_
      obtain ⟨q, hq, hlabels⟩ := hw
      exact ⟨q, List.mem_append_left _ hq, hlabels⟩
    · have hnew := hall ⟨request, none, .mutating⟩ (List.mem_append_right _ (by simp))
      cases hnew
  | next i n => exact h.next hunlisted hfaithful hstep
  | fails i =>
    obtain ⟨c, hc, hrest⟩ := Option.bind_eq_some_iff.mp hstep
    obtain ⟨c', hfails, hs'⟩ := Option.bind_eq_some_iff.mp hrest
    cases hs'
    obtain ⟨-, rfl⟩ := Call.fails_cases hfails
    refine ⟨hunlisted.set fun hplace => by simp at hplace, h.pending hc ?_ (by simp) rfl⟩
    exact fun _ hlabels => hlabels

/-! ### Who has opened and listed -/

variable {x y : Labelling × Record}

/-- What the record says of a call is so. -/
def Kept (toJson : SnapshotIndexFile → Bytes) (L : Crates) (x : Labelling × Record) : Prop :=
  ∀ (i : Nat) (c : Call), x.1.calls[i]? = some c →
    c.Ready toJson L x.1.doc x.1.folder (i ∈ x.2.listed) (x.2.opener = some i)

theorem kept_set {doc : Doc} {f : Folder Str UInt8} {r : Record}
    (hself : c'.Ready toJson L doc f (i ∈ r.listed) (r.opener = some i))
    (hothers : ∀ j q, j ≠ i → s.calls[j]? = some q →
      q.Ready toJson L doc f (j ∈ r.listed) (r.opener = some j)) :
    Kept toJson L (⟨doc, f, s.calls.set i c'⟩, r) := by
  intro j q hq
  by_cases hji : j = i
  · subst hji
    rw [List.getElem?_set_self'] at hq
    obtain ⟨p, -, rfl⟩ := Option.map_eq_some_iff.mp hq
    exact hself
  · rw [List.getElem?_set_ne (Ne.symm hji)] at hq
    exact hothers j q hji hq

theorem note_next (hc : s.calls[i]? = some c) (n : Nat) (r : Record) :
    s.note (.next i n) s' r =
      ⟨if c.place = .mutating then [] else if c.place = .listing then i :: r.listed else r.listed,
        if c.place = .opening then some i else r.opener⟩ := by
  simp only [note, hc, Option.map_some]
  cases c.place <;> simp

/-- A call leaves the document as it is once it has changed it, and the directory but where it
opens, writes and renames. -/
theorem Call.next_frame {doc doc' : Doc} {f f' : Folder Str UInt8} {n : Nat}
    (h : c.next toJson L doc f n = some (doc', f', c')) :
    (c.place ≠ .mutating → doc' = doc) ∧
    (f' = f ∨ c.place = .opening ∨ (∃ file b rest, c.place = .writing file (b :: rest)) ∨
      c.place = .publishing ∧ f.read tmpName ≠ none ∧ f'.read tmpName = none) := by
  obtain ⟨request, labels, place⟩ := c
  cases place with
  | mutating =>
    simp only [Call.next] at h
    split at h <;> cases h <;> exact ⟨fun hne => absurd rfl hne, .inl rfl⟩
  | listing =>
    simp only [Call.next] at h
    split at h <;> cases h <;> exact ⟨fun _ => rfl, .inl rfl⟩
  | ensuring =>
    cases h
    exact ⟨fun _ => rfl, .inl rfl⟩
  | opening =>
    cases h
    exact ⟨fun _ => rfl, .inr (.inl rfl)⟩
  | writing file rest =>
    cases rest with
    | nil =>
      cases h
      exact ⟨fun _ => rfl, .inl rfl⟩
    | cons b rest =>
      obtain ⟨-, h⟩ := Option.ite_none_right_eq_some.mp h
      cases h
      exact ⟨fun _ => rfl, .inr (.inr (.inl ⟨file, b, rest, rfl⟩))⟩
  | publishing =>
    simp only [Call.next] at h
    split at h
    next f'' hrename =>
      cases h
      obtain ⟨file, hfile, -⟩ := Folder.rename_eq_some hrename
      have hgone := Folder.read_rename hrename tmpName
      rw [if_neg indexName_ne_tmpName.symm, if_pos rfl] at hgone
      exact ⟨fun _ => rfl, .inr (.inr (.inr ⟨rfl, by simp [Folder.read, hfile], hgone⟩))⟩
    next =>
      cases h
      exact ⟨fun _ => rfl, .inl rfl⟩
  | returned ok => cases h

theorem Kept.step {a : Act} (h : Kept toJson L x) (horderly : Orderly x a)
    (hstep : recorded toJson L x a = some y) : Kept toJson L y := by
  obtain ⟨s, r⟩ := x
  obtain ⟨s', r'⟩ := y
  obtain ⟨hstep, hnote⟩ := Machine.traced_eq_some.mp hstep
  cases a with
  | call request =>
    cases hstep
    obtain rfl : r' = r := hnote
    intro i c hc
    rw [List.getElem?_append] at hc
    split at hc
    · exact h i c hc
    · obtain rfl := List.mem_singleton.mp (List.mem_of_getElem? hc)
      exact .of_not_past fun hpast => hpast.1 (.inl rfl)
  | next i n =>
    obtain ⟨c, hc, hrest⟩ := Option.bind_eq_some_iff.mp hstep
    obtain ⟨⟨doc, folder, c'⟩, hnext, hs'⟩ := Option.bind_eq_some_iff.mp hrest
    cases hs'
    dsimp only at hnote
    subst hnote
    obtain ⟨hdoc, hfolder⟩ := Call.next_frame hnext
    rw [note_next hc]
    refine kept_set ((h i c hc).next hnext ?_ ?_) fun j q hji hq => ?_
    · grind
    · grind
    have hlisted : j ∈ (if c.place = .mutating then [] else
        if c.place = .listing then i :: r.listed else r.listed) →
          j ∈ r.listed ∧ c.place ≠ .mutating := by grind
    refine (h j q hq).mono (fun hj => ⟨(hlisted hj).1, hdoc (hlisted hj).2⟩) fun hj => ?_
    obtain ⟨hopener, hopening⟩ : r.opener = some j ∧ c.place ≠ .opening := by grind
    refine ⟨hopener, ?_⟩
    obtain hsame | hplace | ⟨file, b, rest, hplace⟩ | ⟨hplace, htmp, hgone⟩ := hfolder
    · exact .inl hsame
    · exact absurd hplace hopening
    · -- Only the last to have opened the file writes to it.
      have hi := (horderly c hc).1 file b rest hplace
      exact absurd (Option.some.inj (hopener.symm.trans hi)) hji
    · obtain ⟨k, p, hk, hp, hpublishing, -⟩ := (horderly c hc).2 hplace htmp
      obtain rfl := Option.some.inj (hopener.symm.trans hk)
      obtain rfl := Option.some.inj (hq.symm.trans hp)
      exact .inr ⟨hpublishing, hgone⟩
  | fails i =>
    obtain ⟨c, hc, hrest⟩ := Option.bind_eq_some_iff.mp hstep
    obtain ⟨c', hfails, hs'⟩ := Option.bind_eq_some_iff.mp hrest
    cases hs'
    obtain rfl : r' = r := hnote
    obtain ⟨-, rfl⟩ := Call.fails_cases hfails
    exact kept_set (.of_not_past fun hpast => hpast.1 (.inr ⟨false, rfl⟩))
      fun j q _ hq => h j q hq

/-- What an orderly call renames is the list of the last to open the file. -/
theorem Kept.faithful {a : Act} (h : Kept toJson L x) (horderly : Orderly x a) :
    x.1.Faithful toJson L a := by
  cases a with
  | next i n =>
    intro c hc
    obtain ⟨hwrites, hrenames⟩ := horderly c hc
    constructor
    · intro file b rest hplace hindex
      have htmp := ((h i c hc).writing file (b :: rest) hplace (hwrites file b rest hplace)).1
      exact indexName_ne_tmpName (x.1.folder.single _ _ file hindex htmp)
    · intro hplace content hcontent
      obtain ⟨k, q, hk, hq, hpublishing, hlast⟩ := hrenames hplace (by simp [hcontent])
      have hready := h k q hq
      obtain ⟨labels, hlabels, hlist⟩ := hready.listed
        (Call.past_of_place (by simp [hpublishing]) (by simp [hpublishing])
          (by simp [hpublishing]))
      have hbytes : content = render toJson labels := by
        have hread := hready.publishing hpublishing hk content hcontent
        rwa [hlabels] at hread
      exact ⟨⟨q, List.mem_of_getElem? hq, labels, hlabels, hbytes⟩,
        hlast.imp_left fun hfresh => ⟨labels, hlist hfresh, hbytes⟩⟩
  | _ => trivial

/-- **The index follows the document in every orderly run**: it is never torn or mixed, and once
all calls have returned `Ok` it has the labels of the document. -/
theorem index_follows {doc : Doc} (h : Machine.Reach (recorded toJson L) Orderly
    (⟨doc, f₀, []⟩, ⟨[], none⟩) x) : x.1.Follows toJson L f₀ := by
  refine (h.invariant (I := fun x => Kept toJson L x ∧ x.1.Unlisted ∧ x.1.Follows toJson L f₀)
    ⟨fun _ _ hc => by simp at hc, fun _ hc => by simp at hc, fun _ hread => .inl hread,
      fun hne => absurd rfl hne⟩ ?_).2.2
  intro x a y ⟨hkept, hunlisted, hfollows⟩ horderly hstep
  exact ⟨hkept.step horderly hstep, hfollows.step hunlisted (hkept.faithful horderly)
    (Machine.traced_eq_some.mp hstep).1⟩

/-! ### Calls that wait for each other -/

/-- A call goes on only while every other has returned or not begun. -/
def Alone (s : Labelling) : Act → Prop
  | .next i _ => ∀ j q, j ≠ i → s.calls[j]? = some q → q.Rests
  | _ => True

/-- The call under way was the last to list and to open. -/
def Tidy (x : Labelling × Record) : Prop :=
  ∀ (i : Nat) (c : Call), x.1.calls[i]? = some c → c.Rests ∨
    (c.place ≠ .listing → i ∈ x.2.listed) ∧
    ((∃ file rest, c.place = .writing file rest) ∨ c.place = .publishing → x.2.opener = some i)

/-- Past its listing a call is no further than where the record has it. -/
theorem Call.next_place {doc doc' : Doc} {f f' : Folder Str UInt8} {n : Nat}
    (h : c.next toJson L doc f n = some (doc', f', c')) (hrests : ¬ c'.Rests) :
    (c'.place ≠ .listing → ¬ c.Rests) ∧
    ((∃ file rest, c'.place = .writing file rest) ∨ c'.place = .publishing →
      c.place = .opening ∨ ∃ file rest, c.place = .writing file rest) := by
  obtain ⟨request, labels, place⟩ := c
  cases place with
  | mutating =>
    simp only [Call.next] at h
    split at h <;> cases h
    · exact ⟨fun hne => absurd rfl hne, by simp⟩
    · exact absurd (.inr ⟨false, rfl⟩) hrests
  | listing =>
    simp only [Call.next] at h
    split at h <;> cases h
    · exact ⟨fun _ => by simp [Call.Rests], by simp⟩
    · exact absurd (.inr ⟨false, rfl⟩) hrests
  | ensuring =>
    cases h
    exact ⟨fun _ => by simp [Call.Rests], by simp⟩
  | opening => exact ⟨fun _ => by simp [Call.Rests], fun _ => .inl rfl⟩
  | writing file rest => exact ⟨fun _ => by simp [Call.Rests], fun _ => .inr ⟨file, rest, rfl⟩⟩
  | publishing =>
    simp only [Call.next] at h
    split at h <;> cases h
    · exact absurd (.inr ⟨true, rfl⟩) hrests
    · exact absurd (.inr ⟨false, rfl⟩) hrests
  | returned ok => cases h

theorem Tidy.step {a : Act} (h : Tidy x) (halone : x.1.Alone a)
    (hstep : recorded toJson L x a = some y) : Tidy y := by
  obtain ⟨s, r⟩ := x
  obtain ⟨s', r'⟩ := y
  obtain ⟨hstep, hnote⟩ := Machine.traced_eq_some.mp hstep
  cases a with
  | call request =>
    cases hstep
    obtain rfl : r' = r := hnote
    intro i c hc
    rw [List.getElem?_append] at hc
    split at hc
    · exact h i c hc
    · obtain rfl := List.mem_singleton.mp (List.mem_of_getElem? hc)
      exact .inl (.inl rfl)
  | next i n =>
    obtain ⟨c, hc, hrest⟩ := Option.bind_eq_some_iff.mp hstep
    obtain ⟨⟨doc, folder, c'⟩, hnext, hs'⟩ := Option.bind_eq_some_iff.mp hrest
    cases hs'
    dsimp only at hnote
    subst hnote
    intro j q hq
    by_cases hji : j = i
    · subst hji
      rw [List.getElem?_set_self'] at hq
      obtain ⟨p, -, rfl⟩ := Option.map_eq_some_iff.mp hq
      by_cases hrests : c'.Rests
      · exact .inl hrests
      · obtain ⟨hlisted, hopened⟩ := Call.next_place hnext hrests
        rw [note_next hc]
        refine .inr ⟨fun hne => ?_, fun hplace => ?_⟩
        · have hold := h j c hc
          have hmutating : c.place ≠ .mutating := fun heq => hlisted hne (.inl heq)
          have hin := (hold.resolve_left (hlisted hne)).1
          simp only [if_neg hmutating]
          split
          next => exact List.mem_cons_self
          next hlisting => exact hin hlisting
        · obtain hopening | ⟨file, rest, hwriting⟩ := hopened hplace
          · exact if_pos hopening
          · have hold := (h j c hc).resolve_left (by simp [Call.Rests, hwriting])
            simp only [hwriting]
            exact hold.2 (.inl ⟨file, rest, hwriting⟩)
    · rw [List.getElem?_set_ne (Ne.symm hji)] at hq
      exact .inl (halone j q hji hq)
  | fails i =>
    obtain ⟨c, hc, hrest⟩ := Option.bind_eq_some_iff.mp hstep
    obtain ⟨c', hfails, hs'⟩ := Option.bind_eq_some_iff.mp hrest
    cases hs'
    obtain rfl : r' = r := hnote
    obtain ⟨-, rfl⟩ := Call.fails_cases hfails
    intro j q hq
    by_cases hji : j = i
    · subst hji
      rw [List.getElem?_set_self'] at hq
      obtain ⟨p, -, rfl⟩ := Option.map_eq_some_iff.mp hq
      exact .inl (.inr ⟨false, rfl⟩)
    · rw [List.getElem?_set_ne (Ne.symm hji)] at hq
      exact h j q hq

/-- What a call alone renames is its own. -/
theorem Tidy.orderly {a : Act} (h : Tidy x) : Orderly x a := by
  cases a with
  | next i n =>
    intro c hc
    constructor
    · intro file b rest hplace
      exact ((h i c hc).resolve_left (by simp [Call.Rests, hplace])).2 (.inl ⟨file, _, hplace⟩)
    · intro hplace _
      obtain ⟨hlisted, hopened⟩ := (h i c hc).resolve_left (by simp [Call.Rests, hplace])
      exact ⟨i, c, hopened (.inr hplace), hc, hplace, .inl (hlisted (by simp [hplace]))⟩
  | _ => trivial

/-- **Calls that wait for each other are orderly.** -/
theorem orderly_of_alone {doc : Doc} (h : Machine.Reach (step toJson L) Alone ⟨doc, f₀, []⟩ s) :
    ∃ r, Machine.Reach (recorded toJson L) Orderly (⟨doc, f₀, []⟩, ⟨[], none⟩) (s, r) := by
  have hboth : ∃ r, Tidy (s, r) ∧
      Machine.Reach (recorded toJson L) Orderly (⟨doc, f₀, []⟩, ⟨[], none⟩) (s, r) := by
    refine h.invariant (I := fun s => ∃ r, Tidy (s, r) ∧ Machine.Reach (recorded toJson L) Orderly
      (⟨doc, f₀, []⟩, ⟨[], none⟩) (s, r)) ⟨_, fun _ _ hc => by simp at hc, .start⟩ ?_
    intro s a s' ⟨r, htidy, hreach⟩ halone hstep
    have hrecorded : recorded toJson L (s, r) a = some (s', s.note a s' r) :=
      Machine.traced_eq_some.mpr ⟨hstep, rfl⟩
    exact ⟨_, htidy.step halone hrecorded, hreach.step a htidy.orderly hrecorded⟩
  exact hboth.imp fun r h => h.2

/-! ### Two labels -/

/-- What `to_string_pretty` makes of an entry with a plain name. -/
private def prettyEntry (e : SnapshotEntry) : Str :=
  txt "    \x7b\n      \"label\": \"" ++ e.label ++ txt "\",\n      \"heads\": \"" ++ e.heads ++
    txt "\",\n      \"created_at\": " ++ (toString e.createdAt).toList ++ txt "\n    \x7d"

private def pretty (f : SnapshotIndexFile) : Bytes :=
  utf8 (txt "\x7b\n  \"schema_version\": " ++ (toString f.schemaVersion).toList ++
    txt ",\n  \"labels\": [" ++ (if f.labels = [] then [] else
      txt "\n" ++ (txt ",\n").intercalate (f.labels.map prettyEntry) ++ txt "\n  ") ++ txt "]\n\x7d")

private abbrev unlabelled : Labelling := ⟨.replica (.numbered '1' 16) [], .empty, []⟩

/-- The first call renames a list that the second has made stale; the second is the last to list
and to rename, and opens the file once the first has renamed it. -/
private def inTurn : List Act :=
  [.call (.createLabel (txt "v1")), .call (.createLabel (txt "v2")), .next 0 0, .next 0 0,
    .next 1 0, .next 0 0, .next 0 0, .next 1 0, .next 1 0, .next 0 161, .next 0 0, .next 0 0,
    .next 1 0, .next 1 279, .next 1 0, .next 1 0]

/-- `Orderly`, computed, of a call that goes on with a file of its own. -/
private def ordered (x : Labelling × Record) : Act → Bool
  | .next i _ => (x.1.calls[i]?).all fun c =>
    match c.place with
    | .writing _ _ => x.2.opener == some i
    | .publishing => x.2.opener == some i && (x.2.listed.contains i ||
        (List.range x.1.calls.length).any fun j =>
          j != i && (x.1.calls[j]?).any fun q => q.place != .returned true)
    | _ => true
  | _ => true

private theorem orderly_of_ordered (x : Labelling × Record) (a : Act) (h : ordered x a = true) :
    Orderly x a := by
  cases a with
  | next i n =>
    intro c hc
    simp only [ordered, hc, Option.all_some] at h
    constructor
    · intro file b rest hplace
      simpa [hplace] using h
    · intro hplace _
      simp only [hplace, Bool.and_eq_true, beq_iff_eq, Bool.or_eq_true] at h
      refine ⟨i, c, h.1, hc, hplace, h.2.imp List.contains_iff_mem.mp fun hany => ?_⟩
      obtain ⟨j, -, hj⟩ := List.any_eq_true.mp hany
      obtain ⟨hne, hq⟩ := Bool.and_eq_true_iff.mp hj
      obtain ⟨q, hq, hplace⟩ := (Option.any_eq_true _ _).mp hq
      exact ⟨j, q, bne_iff_ne.mp hne, hq, bne_iff_ne.mp hplace⟩
  | _ => trivial

theorem index_follows_inTurn : ∃ x : Labelling × Record,
    x.1.calls.map Call.place = [.returned true, .returned true] ∧
      x.1.Follows pretty .plain .empty := by
  have hrun : ((Machine.run (recorded pretty .plain) (unlabelled, ⟨[], none⟩) inTurn).any fun x =>
      decide (x.1.calls.map Call.place = [.returned true, .returned true])) = true := by
    decide +kernel
  have hallowed : Machine.allowed (recorded pretty .plain) ordered (unlabelled, ⟨[], none⟩)
      inTurn = true := by
    decide +kernel
  obtain ⟨x, hx, hplaces⟩ := (Option.any_eq_true _ _).mp hrun
  exact ⟨x, of_decide_eq_true hplaces,
    index_follows (.of_run (.of_allowed orderly_of_ordered hallowed) hx)⟩

/-- The first call lists its label, and is overtaken by a second from there to its end. -/
private def overtaking : List Act :=
  [.call (.createLabel (txt "v1")), .call (.createLabel (txt "v2")), .next 0 0, .next 0 0,
    .next 1 0, .next 1 0, .next 1 0, .next 1 0, .next 1 279, .next 1 0, .next 1 0,
    .next 0 0, .next 0 0, .next 0 161, .next 0 0, .next 0 0]

/-- Both calls return `Ok`, and the index has the first label only. -/
theorem index_stale : ¬ ∀ (toJson : SnapshotIndexFile → Bytes) (L : Crates) (doc : Doc)
    (f₀ : Folder Str UInt8) (s : Labelling),
    Machine.Reach (step toJson L) (fun _ _ => True) ⟨doc, f₀, []⟩ s → s.Follows toJson L f₀ := by
  intro hfollows
  have hrun : ((Machine.run (step pretty .plain) unlabelled overtaking).any fun s =>
      decide (s.calls.map Call.place = [.returned true, .returned true]) &&
        decide (s.folder.read indexName ≠
          (Doc.listLabels .plain s.doc.root).toOption.map (render pretty))) = true := by
    decide +kernel
  obtain ⟨s, hs, hstale⟩ := (Option.any_eq_true _ _).mp hrun
  obtain ⟨hplaces, hread⟩ := Bool.and_eq_true_iff.mp hstale
  have hreach := Machine.Reach.of_run (.of_forall (fun _ _ => trivial) _) hs
  have hreturned := of_decide_eq_true hplaces
  obtain ⟨content, hcontent, labels, hlabels, rfl⟩ :=
    (hfollows pretty .plain _ _ s hreach).current (fun hnil => by simp [hnil] at hreturned)
      fun c hc => by
        have hplace : c.place ∈ s.calls.map Call.place := List.mem_map_of_mem hc
        rw [hreturned] at hplace
        simpa using hplace
  refine of_decide_eq_true hread ?_
  rw [hcontent, hlabels]
  rfl

end Labelling

end AgentSync.SnapshotIndex
