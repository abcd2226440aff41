import AgentSync.Doc.Effects
import AgentSync.Doc.Replay

/-! Which entry a path stands for.

After a merge several live entries may carry one path. A lookup takes the first of them
in the order of their ids; a pass of the materializer collects the listing into a map by
path, where the last one stays. So the two go to one entry exactly when a path has one
(`Doc.reader_selection`). -/
namespace AgentSync

variable {L : Crates} {A : Automerge}

/-- The map by path that a pass collects the listing into. -/
def liveByPath (files : List FileMeta) : AList fun _ : Str => FileMeta :=
  files.foldl (fun live m => live.insert m.path m) ∅

/-- The live entries at a path. -/
def entriesAt (files : List FileMeta) (path : Str) : List FileMeta :=
  files.filter fun m => m.path = path

theorem mem_entriesAt {files : List FileMeta} {path : Str} {m : FileMeta} :
    m ∈ entriesAt files path ↔ m ∈ files ∧ m.path = path := by
  simp [entriesAt]

/-- The last of the entries at a path stays in the map. -/
theorem lookup_liveByPath (files : List FileMeta) (path : Str) :
    (liveByPath files).lookup path = (entriesAt files path).getLast? := by
  induction files using List.reverseRecOn with
  | nil => rfl
  | append_singleton files m ih =>
    have hmap : liveByPath (files ++ [m]) = (liveByPath files).insert m.path m :=
      List.foldl_append
    rw [hmap, entriesAt, List.filter_append, List.filter_singleton]
    by_cases hpath : m.path = path
    · subst hpath
      simp
    · rw [AList.lookup_insert_ne (Ne.symm hpath), ih]
      simp [hpath, entriesAt]

/-- Sorting by path keeps the entries at one path in their order. -/
theorem entriesAt_insertionSort (metas : List FileMeta) (path : Str) :
    entriesAt (metas.insertionSort fun a b => a.path ≤ b.path) path = entriesAt metas path := by
  have htotal : Std.Total fun a b : FileMeta => a.path ≤ b.path :=
    ⟨fun a b => le_total a.path b.path⟩
  have htrans : IsTrans FileMeta fun a b => a.path ≤ b.path :=
    ⟨fun _ _ _ => le_trans⟩
  have hpairwise : (entriesAt metas path).Pairwise fun a b => a.path ≤ b.path := by
    refine List.pairwise_of_forall_mem_list fun a ha b hb => ?_
    rw [(mem_entriesAt.mp ha).2, (mem_entriesAt.mp hb).2]
  have hsub := List.sublist_insertionSort hpairwise List.filter_sublist
  have hfilter : (entriesAt metas path).Sublist
      (entriesAt (metas.insertionSort fun a b => a.path ≤ b.path) path) := by
    have h := hsub.filter fun m : FileMeta => decide (m.path = path)
    simpa only [entriesAt, List.filter_filter, Bool.and_self] using h
  refine (hfilter.eq_of_length ?_).symm
  exact ((List.perm_insertionSort _ metas).filter _).length_eq.symm

/-! ### The readers -/

/-- The entry that a pass takes the content of a path from. -/
def materializedEntry (L : Crates) (r : Root) (path : Str) : Except Error (Option FileMeta) := do
  let files ← r.listFiles L
  return (liveByPath files).lookup path

/-- What reads or writes the document by path goes to the entry `fid`. -/
structure Doc.ReadersAt (L : Crates) (d : Doc) (path fid : Str) : Prop where
  find : d.root.findFileByPath L path = .ok (some fid)
  read : d.root.readFile L path =
    match d.root.getText fid with
    | some text => .ok text
    | none => .error (.other (txt "file is not a text file: " ++ path))
  write : ∀ content, Doc.Ends (Doc.writeTextFile L path content) d fun fid' d' =>
    fid' = fid ∧ d'.root.getText fid = some content ∧
      ∀ b : Addr, b.fileId ≠ some fid → d'.root.get b = d.root.get b

/-- The entry that is materialized at a path is the one that is read and written by it, and
after a write of the path the same entry is materialized with what was written. -/
def Doc.ReadersAgree (L : Crates) (d : Doc) (path : Str) : Prop :=
  ∃ m, materializedEntry L d.root path = .ok (some m) ∧ d.ReadersAt L path m.id ∧
    ∀ content, Doc.Ends (Doc.writeTextFile L path content) d fun _ d' =>
      d'.root.getText m.id = some content ∧
      ∃ m', m'.id = m.id ∧ m'.kind = .text ∧ materializedEntry L d'.root path = .ok (some m')

theorem materializedEntry_eq {r : Root} {files : List FileMeta} {path : Str}
    (hfiles : r.listFiles L = .ok files) :
    materializedEntry L r path = .ok (entriesAt files path).getLast? := by
  rw [materializedEntry, hfiles, ← lookup_liveByPath]
  rfl

/-- An entry that is alone at its path is materialized. -/
theorem materializedEntry_of_unique {r : Root} {files : List FileMeta} {path : Str}
    {m : FileMeta} (hfiles : r.listFiles L = .ok files) (hm : m ∈ files) (hpath : m.path = path)
    (hunique : ∀ m' ∈ files, m'.path = path → m' = m) :
    materializedEntry L r path = .ok (some m) := by
  rw [materializedEntry_eq hfiles]
  have hmem : m ∈ entriesAt files path := mem_entriesAt.mpr ⟨hm, hpath⟩
  have hne : entriesAt files path ≠ [] := List.ne_nil_of_mem hmem
  obtain ⟨hin, hlastPath⟩ := mem_entriesAt.mp (List.getLast_mem hne)
  rw [List.getLast?_eq_some_getLast hne, hunique _ hin hlastPath]

namespace Doc

variable {d : Doc} {files : List FileMeta} {path : Str}

/-- Readers go to the entry with the least id. -/
theorem readersAt (hd : d.Sound L.nfc A) (hfiles : d.root.listFiles L = .ok files)
    {m : FileMeta} (hm : m ∈ entriesAt files path)
    (hleast : ∀ m' ∈ entriesAt files path, m.id ≤ m'.id) : d.ReadersAt L path m.id := by
  obtain ⟨hmem, hpath⟩ := mem_entriesAt.mp hm
  obtain ⟨hread, -⟩ := (Root.mem_listFiles hfiles).mp hmem
  have hnorm : Path.normalize L.nfc path = .ok path := hpath ▸ hd.rootTyped.normalized hread
  have hfind : d.root.findFileByPathNormalized L path = .ok (some m.id) :=
    (Root.findFile_eq_some hfiles).mpr ⟨m, hmem, hpath, rfl,
      fun m' hm' hpath' => hleast m' (mem_entriesAt.mpr ⟨hm', hpath'⟩)⟩
  refine ⟨?_, ?_, fun content => ?_⟩
  · rw [Root.findFileByPath, hnorm]
    exact hfind
  · have hfile := (Root.readFileMeta_eq_some.mp hread).2.1
    simp only [Root.readFile, hnorm, hfind, hfile, bind, Except.bind, Bool.not_true,
      Bool.false_eq_true, if_false]
    cases d.root.getText m.id <;> rfl
  · refine (writeTextFile_found hnorm hfind content).weaken ?_
    rintro fid' d' ⟨hfid, now, hroot⟩
    refine ⟨hfid, ?_, fun b hb => ?_⟩
    · rw [hroot, getText_textWritten]
    · rw [hroot, get_textWritten_of_ne hb]

/-- After a write to an entry that is alone at its path, it is still what is materialized. -/
theorem materialized_written (hd : d.Sound L.nfc A) (hfiles : d.root.listFiles L = .ok files)
    {m : FileMeta} (hm : entriesAt files path = [m]) (content : Str) :
    Ends (writeTextFile L path content) d fun _ d' =>
      d'.root.getText m.id = some content ∧
      ∃ m', m'.id = m.id ∧ m'.kind = .text ∧
        materializedEntry L d'.root path = .ok (some m') := by
  obtain ⟨hmem, hpath⟩ := mem_entriesAt.mp (hm ▸ List.mem_singleton.mpr rfl)
  obtain ⟨hread, -⟩ := (Root.mem_listFiles hfiles).mp hmem
  have hnorm : Path.normalize L.nfc path = .ok path := hpath ▸ hd.rootTyped.normalized hread
  have hfind : d.root.findFileByPathNormalized L path = .ok (some m.id) :=
    (Root.findFile_eq_some hfiles).mpr ⟨m, hmem, hpath, rfl, fun m' hm' hpath' => by
      have hin := mem_entriesAt.mpr ⟨hm', hpath'⟩
      rw [hm] at hin
      exact (congrArg FileMeta.id (List.mem_singleton.mp hin)).ge⟩
  have hkeeps := writeTextFile_keeps (L := L) (A := A) path content d hd
  obtain ⟨fid', d', hrun, -, now, hroot⟩ := writeTextFile_found hnorm hfind content
  rw [hrun] at hkeeps
  obtain ⟨m', hwritten, hid', hkind', hpath', hlive'⟩ : ∃ m',
      d'.root.readFileMeta L m.id = .ok (some m') ∧ m'.id = m.id ∧ m'.kind = .text ∧
        m'.path = path ∧ m'.deletedAt = none :=
    ⟨{ m with
        kind := .text, size := (utf8 content).length, updatedAt := now, deletedAt := none },
      hroot ▸ readFileMeta_textWritten now hread, rfl, rfl, hpath, rfl⟩
  obtain ⟨files', hfiles'⟩ := hkeeps.1.rootTyped.listFiles (L := L) hkeeps.1.rootComplete
    (Root.readFileMeta_eq_some.mp hwritten).1
  refine ⟨fid', d', hrun, by rw [hroot, getText_textWritten], m', hid', hkind',
    materializedEntry_of_unique hfiles'
      ((Root.mem_listFiles hfiles').mpr ⟨hid' ▸ hwritten, hlive'⟩) hpath' fun x hx hxpath => ?_⟩
  obtain ⟨hxread, hxlive⟩ := (Root.mem_listFiles hfiles').mp hx
  by_cases hid : x.id = m.id
  · rw [hid, hwritten] at hxread
    exact (Option.some.inj (Except.ok.inj hxread)).symm
  · -- Another live entry at the path would have been there before the write.
    have hsame : Root.SameFile x.id d'.root d.root := fun b hb => by
      rw [hroot, get_textWritten_of_ne (by rw [hb]; simpa using hid)]
    have hmap : d'.root.mapObj .files = d.root.mapObj .files := by
      rw [(Root.readFileMeta_eq_some.mp hxread).1, (Root.readFileMeta_eq_some.mp hread).1]
    rw [Root.readFileMeta_congr hmap hsame] at hxread
    have hin := mem_entriesAt.mpr ⟨(Root.mem_listFiles hfiles).mpr ⟨hxread, hxlive⟩, hxpath⟩
    rw [hm] at hin
    exact absurd (congrArg FileMeta.id (List.mem_singleton.mp hin)) hid

/-- **Lookups take the live entry at a path with the least id and the materializer the one
with the greatest.** They are the same entry, which an edit of the file on disk is then
written back to, exactly when no other live entry has the path. -/
theorem reader_selection (hd : Reachable L A d) (hfiles : d.root.listFiles L = .ok files)
    (hpath : path ∈ files.map FileMeta.path) :
    ∃ first ∈ entriesAt files path, ∃ last ∈ entriesAt files path,
      (∀ m ∈ entriesAt files path, first.id ≤ m.id ∧ m.id ≤ last.id) ∧
      d.ReadersAt L path first.id ∧ materializedEntry L d.root path = .ok (some last) ∧
      (d.ReadersAgree L path ↔ (entriesAt files path).length = 1) := by
  obtain ⟨m₀, hm₀, rfl⟩ := List.mem_map.mp hpath
  have hne : entriesAt files m₀.path ≠ [] := List.ne_nil_of_mem (mem_entriesAt.mpr ⟨hm₀, rfl⟩)
  have hsorted : (entriesAt files m₀.path).Pairwise fun a b => a.id < b.id := by
    obtain ⟨-, metas, hmetas, rfl⟩ := Root.listFiles_eq_ok.mp hfiles
    rw [entriesAt_insertionSort]
    exact (Root.liveFilesIn_sorted hmetas).sublist List.filter_sublist
  obtain ⟨first, rest, hfirst⟩ := List.exists_cons_of_ne_nil hne
  have hlastMem := List.getLast_mem hne
  have hbounds : ∀ m ∈ entriesAt files m₀.path,
      first.id ≤ m.id ∧ m.id ≤ ((entriesAt files m₀.path).getLast hne).id := by
    intro m hm
    constructor
    · rw [hfirst] at hm hsorted
      obtain rfl | hm := List.mem_cons.mp hm
      · exact le_refl _
      · exact le_of_lt ((List.pairwise_cons.mp hsorted).1 m hm)
    · have hsplit := List.dropLast_append_getLast hne
      rw [← hsplit] at hm hsorted
      obtain hm | hm := List.mem_append.mp hm
      · exact le_of_lt
          ((List.pairwise_append.mp hsorted).2.2 m hm _ (List.mem_singleton.mpr rfl))
      · exact (congrArg FileMeta.id (List.mem_singleton.mp hm)).le
  have hreaders := readersAt hd.sound hfiles (hfirst ▸ List.mem_cons_self)
    fun m hm => (hbounds m hm).1
  have hmat : materializedEntry L d.root m₀.path = .ok (some _) :=
    (materializedEntry_eq hfiles).trans
      (congrArg Except.ok (List.getLast?_eq_some_getLast hne))
  refine ⟨first, hfirst ▸ List.mem_cons_self, _, hlastMem, hbounds, hreaders, hmat, ?_⟩
  constructor
  · intro ⟨m, hm, hm', _⟩
    obtain rfl := Option.some.inj (Except.ok.inj (hmat.symm.trans hm))
    have hid := Option.some.inj (Except.ok.inj (hreaders.find.symm.trans hm'.find))
    cases rest with
    | nil => rw [hfirst, List.length_singleton]
    | cons second rest =>
      -- The last of several entries comes after the first.
      rw [hfirst] at hsorted
      have hlt := (List.pairwise_cons.mp hsorted).1 _ (List.getLast_mem (List.cons_ne_nil second rest))
      have hlast : (entriesAt files m₀.path).getLast hne =
          (second :: rest).getLast (List.cons_ne_nil second rest) := by
        simp only [hfirst, List.getLast_cons_cons]
      rw [hid, hlast] at hlt
      exact absurd hlt (lt_irrefl _)
  · intro hlength
    have hone : entriesAt files m₀.path = [first] := by
      rw [hfirst, List.length_cons, Nat.add_eq_right, List.length_eq_zero_iff] at hlength
      rw [hfirst, hlength]
    have hlast : (entriesAt files m₀.path).getLast hne = first := by
      simp only [hone, List.getLast_singleton]
    exact ⟨first, hlast ▸ hmat, hreaders, materialized_written hd.sound hfiles hone⟩

/-- One replica creates the file. -/
private def here : Doc :=
  .replica (.numbered '1' 16) [.writeTextFile (txt "x.md") (txt "one")]

private theorem reachable_here : Reachable .plain .plain here :=
  reachable_replica (by decide +kernel)

theorem reader_selection_alone :
    ∃ d, Reachable .plain .plain d ∧ d.ReadersAgree .plain (txt "x.md") := by
  have hfiles : here.root.listFiles .plain =
      .ok [⟨['1', 'i'], txt "x.md", .text, 3, 0, 0, none, none⟩] := rfl
  have hpath : txt "x.md" ∈
      [(⟨['1', 'i'], txt "x.md", .text, 3, 0, 0, none, none⟩ : FileMeta)].map FileMeta.path := by
    decide
  obtain ⟨first, -, last, -, -, -, -, hagree⟩ := reader_selection reachable_here hfiles hpath
  exact ⟨here, reachable_here, hagree.mpr (by decide)⟩

/-- Another creates a file of the same path before they merge. -/
private def there : Doc :=
  .replica (.numbered '2' 32) [.writeTextFile (txt "x.md") (txt "two")]

private theorem reachable_there : Reachable .plain .plain there :=
  reachable_replica (by decide +kernel)

/-- **Concurrent creates**: the file on disk is the second entry's, and an edit of it goes
to the first. -/
theorem reader_selection_concurrent :
    ∃ d files, Reachable .plain .plain d ∧ d.root.listFiles .plain = .ok files ∧
      txt "x.md" ∈ files.map FileMeta.path ∧ ¬ d.ReadersAgree .plain (txt "x.md") := by
  refine ⟨here.merge .plain there,
    [⟨['1', 'i'], txt "x.md", .text, 3, 0, 0, none, none⟩,
      ⟨['2', 'i'], txt "x.md", .text, 3, 0, 0, none, none⟩],
    .merge reachable_here reachable_there rfl rfl, rfl, by decide, fun h => ?_⟩
  obtain ⟨m, hmat, hreaders, -⟩ := h
  have hlast : materializedEntry .plain (here.merge .plain there).root (txt "x.md") =
      .ok (some ⟨['2', 'i'], txt "x.md", .text, 3, 0, 0, none, none⟩) := rfl
  have hfirst : (here.merge .plain there).root.findFileByPath .plain (txt "x.md") =
      .ok (some ['1', 'i']) := rfl
  obtain rfl := Option.some.inj (Except.ok.inj (hlast.symm.trans hmat))
  have hid := Option.some.inj (Except.ok.inj (hfirst.symm.trans hreaders.find))
  revert hid
  decide

end Doc

end AgentSync
