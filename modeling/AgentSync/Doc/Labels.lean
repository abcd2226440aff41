import AgentSync.Program
import AgentSync.Doc.Effects

/-! Labels.

A label is an entry of the map `labels` with the heads of the history it was made on, as bytes.
`list_labels` reads every entry, so one that does not decode would hide the others; entries are
only written by `create_label`, which closes the transaction and writes one in a change on top
of the history it names (`createLabel_ends`). -/
namespace AgentSync

variable {L : Crates}

/-! ### Reading a label -/

namespace Doc

/-- `get_label_heads`. -/
def getLabelHeads (L : Crates) (r : Root) (label : Str) : Except Error (List ChangeHash) := do
  match (← listLabels L r).find? fun l => l.name = label with
  | some l => return l.heads
  | none => throw (.notFound (txt "label: " ++ label))

variable {r : Root} {name : Str} {l : Label} {heads : List ChangeHash}

/-- A label is a map with the heads in it. -/
theorem readLabel_eq_some (hr : r.Typed L.nfc) : readLabel L r name = .ok (some l) ↔
    r.get (.label name) = some .map ∧ ∃ b createdAt,
      r.get (.labelField name .heads) = some (.scalar (.bytes b)) ∧
      decodeHeads b = .ok l.heads ∧ r.getInt L (.labelField name .createdAt) = .ok createdAt ∧
      l = ⟨name, l.heads, createdAt.getD 0⟩ := by
  unfold readLabel
  cases hlabel : r.get (.label name) with
  | none => simp
  | some v =>
    obtain rfl := hr _ v rfl hlabel
    cases hheads : r.get (.labelField name .heads) with
    | none => simp
    | some v =>
      obtain ⟨b, rfl⟩ := hr _ v rfl hheads
      obtain ⟨createdAt, hcreated⟩ :=
        hr.getInt (L := L) (a := .labelField name .createdAt) rfl fun _ h => h
      constructor
      · intro h
        obtain ⟨createdAt', hcreated', hrest⟩ := AgentSync.bind_eq_ok.mp h
        obtain ⟨heads, hdecode, hl⟩ := AgentSync.bind_eq_ok.mp hrest
        obtain rfl := Except.ok.inj (hcreated.symm.trans hcreated')
        obtain rfl := Option.some.inj (Except.ok.inj hl)
        exact ⟨rfl, b, createdAt, rfl, hdecode, hcreated, rfl⟩
      · rintro ⟨-, b', createdAt', hb, hdecode, hcreated', hl⟩
        have hsame : b = b' := by simpa using hb
        rw [← hsame] at hdecode
        simp only [hcreated', hdecode, bind, Except.bind]
        rw [hl]
        rfl

theorem labelsIn_ok {names : List Str} (h : ∀ name ∈ names, ∃ l, readLabel L r name = .ok l) :
    ∃ ls, labelsIn L r names = .ok ls := by
  induction names with
  | nil => exact ⟨[], rfl⟩
  | cons name rest ih =>
    obtain ⟨l, hl⟩ := h name List.mem_cons_self
    obtain ⟨ls, hls⟩ := ih fun name hname => h name (List.mem_cons_of_mem _ hname)
    exact ⟨l.toList ++ ls, by rw [labelsIn, hl, hls]; rfl⟩

theorem mem_labelsIn {names : List Str} {ls : List Label} (h : labelsIn L r names = .ok ls) :
    l ∈ ls ↔ ∃ name ∈ names, readLabel L r name = .ok (some l) := by
  induction names generalizing ls with
  | nil =>
    obtain rfl := Except.ok.inj h
    simp
  | cons name rest ih =>
    obtain ⟨found, hfound, h⟩ := AgentSync.bind_eq_ok.mp h
    obtain ⟨ls', hls', h⟩ := AgentSync.bind_eq_ok.mp h
    obtain rfl := Except.ok.inj h
    rw [List.mem_append, ih hls']
    simp [hfound, Option.mem_toList]

theorem listLabels_eq_ok {ls : List Label} : listLabels L r = .ok ls ↔
    r.mapObj .labels = .ok () ∧ ∃ ls', labelsIn L r r.labelKeys = .ok ls' ∧
      ls = ls'.insertionSort fun a b => a.name ≤ b.name := by
  simp only [listLabels, AgentSync.bind_eq_ok, pure, Except.pure, Except.ok.injEq,
    eq_comm (b := ls)]
  constructor
  · rintro ⟨_, h⟩
    exact h
  · exact fun h => ⟨(), h⟩

/-- A listed label is one whose entry reads as it. -/
theorem mem_listLabels (hr : r.Typed L.nfc) {ls : List Label} (h : listLabels L r = .ok ls) :
    l ∈ ls ↔ readLabel L r l.name = .ok (some l) := by
  obtain ⟨-, ls', hls', rfl⟩ := listLabels_eq_ok.mp h
  rw [List.mem_insertionSort, mem_labelsIn hls']
  constructor
  · rintro ⟨name, -, hread⟩
    obtain ⟨-, b, createdAt, -, -, -, hl⟩ := (readLabel_eq_some hr).mp hread
    rwa [congrArg Label.name hl]
  · intro hread
    refine ⟨l.name, Root.mem_labelKeys.mpr ?_, hread⟩
    rw [((readLabel_eq_some hr).mp hread).1]
    rfl

/-- **`get_label_heads` reads the entry of the label.** -/
theorem getLabelHeads_eq_ok (hr : r.Typed L.nfc) (h : getLabelHeads L r name = .ok heads) :
    ∃ l, readLabel L r name = .ok (some l) ∧ l.heads = heads := by
  obtain ⟨ls, hls, h⟩ := AgentSync.bind_eq_ok.mp h
  split at h
  next l hfind =>
    have hname : l.name = name := by simpa using List.find?_some hfind
    have hread := (mem_listLabels hr hls).mp (List.mem_of_find?_eq_some hfind)
    exact ⟨l, hname ▸ hread, Except.ok.inj h⟩
  next => cases h

theorem getLabelHeads_of_read (hr : r.Typed L.nfc) (hmap : r.mapObj .labels = .ok ())
    (hall : ∀ name ∈ r.labelKeys, ∃ l, readLabel L r name = .ok l)
    (h : readLabel L r name = .ok (some l)) : getLabelHeads L r name = .ok l.heads := by
  obtain ⟨ls', hls'⟩ := labelsIn_ok hall
  have hls : listLabels L r = .ok _ := listLabels_eq_ok.mpr ⟨hmap, ls', hls', rfl⟩
  have hname : l.name = name := by
    obtain ⟨-, b, createdAt, -, -, -, hl⟩ := (readLabel_eq_some hr).mp h
    exact congrArg Label.name hl
  have hmem := (mem_listLabels hr hls).mpr (hname ▸ h)
  rw [getLabelHeads, hls]
  simp only [bind, Except.bind]
  split
  next l' hfind =>
    have hname' : l'.name = name := by simpa using List.find?_some hfind
    have hread := (mem_listLabels hr hls).mp (List.mem_of_find?_eq_some hfind)
    rw [hname', h] at hread
    rw [Option.some.inj (Except.ok.inj hread)]
    rfl
  next hnone => exact absurd hname (by simpa using List.find?_eq_none.mp hnone l hmem)

/-! ### Making a label -/

/-- What `create_label` writes. -/
def labelOps (label : Str) (heads : List ChangeHash) (now : Int) : List Op :=
  [.putMap (.label label), .put (.labelField label .heads) (.bytes (encodeHeads heads)),
    .put (.labelField label .createdAt) (.int now)]

variable {d d' : Doc} {label : Str}

/-- **A label is a change of its own, on top of the history whose heads it holds.** -/
theorem createLabel_ends (label : Str) (hmap : d.root.mapObj .labels = .ok ())
    (hwritable : d.root.writable L (.rootMap .labels) = .ok ()) :
    Ends (createLabel L label) d fun _ d' => ∃ c now,
      d'.changes = (d.committed 0).changes ++ [c] ∧ d'.pending = [] ∧
      c.deps = headsOf (d.committed 0).changes ∧
      c.ops = labelOps label (headsOf (d.committed 0).changes) now := by
  rw [← committed_root 0] at hwritable
  refine .bind (.read hmap (.bind ⟨_, _, rfl, .bind (.read hwritable (.bind (.nowMs ?_)))⟩))
  refine .bind (.emit (.commitNow ?_))
  have hclosed := committed_pending d 0
  generalize d.committed 0 = d at hclosed ⊢
  refine ⟨⟨d.supply.hash (d.draws + 2), headsOf d.changes, d.supply.now (d.draws + 1),
    labelOps label (headsOf d.changes) (d.supply.now d.draws)⟩, d.supply.now d.draws, ?_,
    committed_pending _ _, rfl, rfl⟩
  rw [committed, if_neg (by simp [emitted])]
  simp [emitted, labelOps, hclosed]

/-- A label that could not be made has at most closed the transaction. -/
theorem createLabel_error {e : Error} (h : createLabel L label d = .error e d') :
    d' = d ∨ d' = d.committed 0 := by
  cases hmap : d.root.mapObj .labels with
  | error e' =>
    have hread : read (Root.mapObj · .labels) d = .error e' d := by rw [read, hmap]
    rw [createLabel, Program.bind_error hread] at h
    exact .inl (EStateM.Result.error.inj h).2.symm
  | ok _ =>
    cases hwritable : d.root.writable L (.rootMap .labels) with
    | error e' =>
      have hread : read (Root.mapObj · .labels) d = .ok () d := by rw [read, hmap]
      have hheads : heads d = .ok (headsOf (d.committed 0).changes) (d.committed 0) := rfl
      have hread' : read (Root.writable L · (.rootMap .labels)) (d.committed 0) =
          .error e' (d.committed 0) := by rw [read, committed_root, hwritable]
      rw [createLabel, Program.bind_ok hread, Program.bind_ok hheads,
        Program.bind_error hread'] at h
      exact .inr (EStateM.Result.error.inj h).2.symm
    | ok _ =>
      obtain ⟨_, d'', hrun, -⟩ := createLabel_ends label hmap hwritable
      cases h.symm.trans hrun

/-- What a label that was made has found. -/
theorem createLabel_ok (h : createLabel L label d = .ok () d') :
    d.root.mapObj .labels = .ok () ∧ d.root.writable L (.rootMap .labels) = .ok () := by
  obtain ⟨_, d₁, hrun, h₁⟩ := bind_eq_ok.mp h
  obtain ⟨rfl, hmap⟩ := read_eq_ok.mp hrun
  obtain ⟨_, d₂, hrun, h₂⟩ := bind_eq_ok.mp h₁
  obtain ⟨-, rfl⟩ := EStateM.Result.ok.inj hrun
  obtain ⟨_, d₃, hrun, -⟩ := bind_eq_ok.mp h₂
  obtain ⟨rfl, hwritable⟩ := read_eq_ok.mp hrun
  rw [committed_root] at hwritable
  exact ⟨hmap, hwritable⟩

/-- A label that could not be deleted has left the document as it was. -/
theorem after_deleteLabel (label : Str) (d : Doc) :
    d.after (deleteLabel L label) = d ∨ (d.after (deleteLabel L label)).pending = [] := by
  cases hmap : d.root.mapObj .labels with
  | error e =>
    have hread : read (Root.mapObj · .labels) d = .error e d := by rw [read, hmap]
    exact .inl (after_error (Program.bind_error hread))
  | ok _ =>
    cases hwritable : d.root.writable L (.rootMap .labels) with
    | error e =>
      have hread : read (Root.mapObj · .labels) d = .ok () d := by rw [read, hmap]
      have hread' : read (Root.writable L · (.rootMap .labels)) d = .error e d := by
        rw [read, hwritable]
      exact .inl (after_error ((Program.bind_ok hread).trans (Program.bind_error hread')))
    | ok _ =>
      have hends : Ends (deleteLabel L label) d fun _ d' => d'.pending = [] :=
        .bind (.read hmap (.bind (.read hwritable (.bind (.emit (.commitNow
          (committed_pending _ _)))))))
      obtain ⟨_, d', hrun, hpending⟩ := hends
      exact .inr (by rw [after_ok hrun, hpending])

end Doc

end AgentSync
