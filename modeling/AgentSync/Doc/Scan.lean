import AgentSync.Turns
import AgentSync.Doc.Restore

/-! Reading what a peer may have written.

A document from a peer holds whatever the peer put there, so a scan may come to an entry that
it cannot read. What a scan sees of an entry is one look (`lookFile`, `lookDirectory`) that
depends on the entry's own registers, and all scans are folds of looks. -/
namespace AgentSync

variable {L : Crates} {A : Automerge} {r r' : Root} {fid did p : Str}

/-! ### Owners -/

/-- An entry of the document. -/
inductive Owner where
  | file (fid : Str)
  | directory (did : Str)
  deriving DecidableEq, Repr

/-- The entry a register is in. -/
def Addr.owner (a : Addr) : Option Owner :=
  match a.fileId with
  | some fid => some (.file fid)
  | none => a.dirId.map .directory

theorem Addr.owner_of_mem_ancestors {a b : Addr} {i : Owner} (h : a ∈ b.ancestors)
    (ha : a.owner = some i) : b.owner = some i := by
  cases b <;> simp [Addr.ancestors] at h
  all_goals grind [Addr.owner, Addr.fileId, Addr.dirId]

namespace Root

/-- The registers of one entry are the same in both, and the maps that hold the entries. -/
abbrev SameFor (i : Owner) : Root → Root → Prop :=
  SameAt fun b => b.owner = some i ∨ ∃ m, b = .rootMap m

variable {i : Owner}

theorem SameFor.trans {r'' : Root} (h : SameFor i r r') (h' : SameFor i r' r'') : SameFor i r r'' :=
  fun b hb => (h b hb).trans (h' b hb)

theorem SameFor.file (h : SameFor (.file fid) r r') : SameFile fid r r' :=
  fun b hb => h b (.inl (by rw [Addr.owner, hb]))

theorem SameFor.directory (h : SameFor (.directory did) r r') : SameDirectory did r r' := by
  intro b hb
  refine h b (.inl ?_)
  cases b <;> simp [Addr.dirId] at hb <;> simp [Addr.owner, Addr.fileId, Addr.dirId, hb]

theorem SameFor.rootMap (h : SameFor i r r') (m : RootMap) : r.get (.rootMap m) = r'.get (.rootMap m) :=
  h _ (.inr ⟨m, rfl⟩)

/-- What is in none of the entries is the same in both. -/
abbrev SameBut (O : Set Owner) : Root → Root → Prop :=
  SameAt fun b => ∀ i ∈ O, b.owner ≠ some i

theorem SameBut.trans {O : Set Owner} {r'' : Root} (h : SameBut O r r') (h' : SameBut O r' r'') :
    SameBut O r r'' :=
  fun b hb => (h b hb).trans (h' b hb)

theorem SameBut.mono {O O' : Set Owner} (h : SameBut O r r') (hO : O ⊆ O') : SameBut O' r r' :=
  fun b hb => h b fun i hi => hb i (hO hi)

theorem SameBut.sameFor {O : Set Owner} (h : SameBut O r r') (hi : i ∉ O) : SameFor i r r' := by
  refine fun b hb => h b fun j hj => ?_
  rcases hb with hb | ⟨m, rfl⟩
  · rw [hb]
    exact fun heq => hi (Option.some.inj heq ▸ hj)
  · simp [Addr.owner, Addr.fileId, Addr.dirId]

theorem SameBut.rootMap {O : Set Owner} (h : SameBut O r r') (m : RootMap) :
    r.get (.rootMap m) = r'.get (.rootMap m) :=
  h _ fun _ _ => by simp [Addr.owner, Addr.fileId, Addr.dirId]

/-- Writes to one entry. -/
theorem sameBut_applyAll {ops : List Op} (hops : ∀ op ∈ ops, op.target.owner = some i) :
    SameBut {i} r (applyAll r ops) := by
  refine fun b hb => (get_applyAll_of_ne fun op hop => ⟨?_, fun hanc => ?_⟩).symm
  · rintro rfl
    exact hb i rfl (hops op hop)
  · exact hb i rfl (Addr.owner_of_mem_ancestors hanc (hops op hop))

/-! ### Looks -/

variable (L r) in
/-- What a scan sees of a file: the path it is live at. -/
def lookFile (fid : Str) : Except Error (Option Str) :=
  if !r.hasObject (.file fid) then .ok none
  else if !r.hasObject (.fileMeta fid) then .ok none
  else do
    if (← r.getInt L (.fileField fid .deletedAt)).isSome then return none
    else r.getStr L (.fileField fid .path)

variable (L r) in
def lookDirectory (did : Str) : Except Error (Option Str) :=
  if !r.hasObject (.dir did) then .ok none
  else do
    if (← r.getInt L (.dirField did .deletedAt)).isSome then return none
    else r.getStr L (.dirField did .path)

theorem lookFile_congr (h : SameFile fid r r') : r.lookFile L fid = r'.lookFile L fid := by
  simp only [lookFile, hasObject_congr (h (.file fid) rfl),
    hasObject_congr (h (.fileMeta fid) rfl), getInt_congr (h (.fileField fid .deletedAt) rfl),
    getStr_congr (h (.fileField fid .path) rfl)]

theorem lookDirectory_congr (h : SameDirectory did r r') :
    r.lookDirectory L did = r'.lookDirectory L did := by
  simp only [lookDirectory, hasObject_congr (h (.dir did) rfl),
    getInt_congr (h (.dirField did .deletedAt) rfl),
    getStr_congr (h (.dirField did .path) rfl)]

theorem lookFile_eq_some (h : r.lookFile L fid = .ok (some p)) :
    r.hasObject (.file fid) = true ∧ r.hasObject (.fileMeta fid) = true ∧
      r.getInt L (.fileField fid .deletedAt) = .ok none ∧
      r.getStr L (.fileField fid .path) = .ok (some p) := by
  unfold lookFile at h
  split at h
  next => cases h
  next hfile =>
    split at h
    next => cases h
    next hmeta =>
      cases hdeleted : r.getInt L (.fileField fid .deletedAt) with
      | error e =>
        rw [hdeleted] at h
        cases h
      | ok t =>
        cases t with
        | some t =>
          rw [hdeleted] at h
          cases h
        | none =>
          rw [hdeleted] at h
          exact ⟨by simpa using hfile, by simpa using hmeta, rfl, h⟩

theorem lookDirectory_eq_some (h : r.lookDirectory L did = .ok (some p)) :
    r.hasObject (.dir did) = true ∧ r.getInt L (.dirField did .deletedAt) = .ok none ∧
      r.getStr L (.dirField did .path) = .ok (some p) := by
  unfold lookDirectory at h
  split at h
  next => cases h
  next hdir =>
    cases hdeleted : r.getInt L (.dirField did .deletedAt) with
    | error e =>
      rw [hdeleted] at h
      cases h
    | ok t =>
      cases t with
      | some t =>
        rw [hdeleted] at h
        cases h
      | none =>
        rw [hdeleted] at h
        exact ⟨by simpa using hdir, rfl, h⟩

/-! ### Scans -/

/-- Looking for a path, one entry after the other. -/
def scan (look : Str → Except Error (Option Str)) (path : Str) : List Str → Except Error (Option Str)
  | [] => .ok none
  | id :: rest => do if (← look id) = some path then return some id else scan look path rest

/-- One round of the scan for a file. -/
theorem findFileIn_cons (path fid : Str) (rest : List Str) :
    r.findFileIn L path (fid :: rest) = (do
      if (← r.lookFile L fid) = some path then return some fid
      else r.findFileIn L path rest) := by
  rw [findFileIn, lookFile]
  split
  next => simp [bind, Except.bind]
  next =>
    split
    next => simp [bind, Except.bind]
    next =>
      cases r.getInt L (.fileField fid .deletedAt) with
      | error e => rfl
      | ok t => cases t <;> rfl

theorem findDirectoryIn_cons (path did : Str) (rest : List Str) :
    r.findDirectoryIn L path (did :: rest) = (do
      if (← r.lookDirectory L did) = some path then return some did
      else r.findDirectoryIn L path rest) := by
  rw [findDirectoryIn, lookDirectory]
  split
  next => simp [bind, Except.bind]
  next =>
    cases r.getInt L (.dirField did .deletedAt) with
    | error e => rfl
    | ok t => cases t <;> rfl

theorem findFileIn_eq_scan (path : Str) (fids : List Str) :
    r.findFileIn L path fids = scan (r.lookFile L) path fids := by
  induction fids with
  | nil => rfl
  | cons fid rest ih => rw [findFileIn_cons, scan, ih]

theorem findDirectoryIn_eq_scan (path : Str) (dids : List Str) :
    r.findDirectoryIn L path dids = scan (r.lookDirectory L) path dids := by
  induction dids with
  | nil => rfl
  | cons did rest ih => rw [findDirectoryIn_cons, scan, ih]

section Scan

variable {look look' : Str → Except Error (Option Str)} {ids : List Str}

/-- A scan that succeeds has found an entry of the path or none. -/
theorem scan_eq_some {id : Str} (h : scan look p ids = .ok (some id)) :
    id ∈ ids ∧ look id = .ok (some p) := by
  induction ids with
  | nil => cases h
  | cons id' rest ih =>
    unfold scan at h
    cases hlook : look id' with
    | error e =>
      rw [hlook] at h
      cases h
    | ok o =>
      rw [hlook] at h
      by_cases ho : o = some p
      · simp only [bind, Except.bind, ho, if_true, pure, Except.pure, Except.ok.injEq,
          Option.some.injEq] at h
        subst h ho
        exact ⟨List.mem_cons_self, hlook⟩
      · simp only [bind, Except.bind, ho, if_false] at h
        exact ⟨List.mem_cons_of_mem _ (ih h).1, (ih h).2⟩

/-- A scan that finds nothing has seen everything. -/
theorem scan_eq_none : scan look p ids = .ok none ↔
    ∀ id ∈ ids, ∃ o, look id = .ok o ∧ o ≠ some p := by
  induction ids with
  | nil => simp [scan]
  | cons id rest ih =>
    unfold scan
    rw [List.forall_mem_cons, ← ih]
    cases look id with
    | error e => simp [bind, Except.bind]
    | ok o =>
      by_cases ho : o = some p
      · simp [bind, Except.bind, pure, Except.pure, ho]
      · simp [bind, Except.bind, ho]

/-- Entries that can all be read are scanned without an error. -/
theorem scan_ok (h : ∀ id ∈ ids, ∃ o, look id = .ok o) : ∃ o, scan look p ids = .ok o := by
  induction ids with
  | nil => exact ⟨none, rfl⟩
  | cons id rest ih =>
    obtain ⟨o, ho⟩ := h id List.mem_cons_self
    unfold scan
    rw [ho]
    by_cases hp : o = some p
    · exact ⟨some id, by simp [bind, Except.bind, pure, Except.pure, hp]⟩
    · obtain ⟨o', ho'⟩ := ih fun id' hid' => h id' (List.mem_cons_of_mem _ hid')
      exact ⟨o', by simp [bind, Except.bind, hp, ho']⟩

theorem scan_congr (h : ∀ id ∈ ids, look id = look' id) : scan look p ids = scan look' p ids := by
  induction ids with
  | nil => rfl
  | cons id rest ih =>
    unfold scan
    rw [h id List.mem_cons_self, ih fun id' hid' => h id' (List.mem_cons_of_mem _ hid')]

/-- Entries that are seen to have another path, or none, may be left out. -/
theorem scan_filter (keep : Str → Bool)
    (h : ∀ id ∈ ids, keep id = false → ∃ o, look id = .ok o ∧ o ≠ some p) :
    scan look p ids = scan look p (ids.filter keep) := by
  induction ids with
  | nil => rfl
  | cons id rest ih =>
    have hrest := ih fun id' hid' => h id' (List.mem_cons_of_mem _ hid')
    rw [List.filter_cons]
    by_cases hkeep : keep id = true
    · rw [if_pos hkeep, scan, scan, hrest]
    · obtain ⟨o, ho, hne⟩ := h id List.mem_cons_self (by simpa using hkeep)
      rw [if_neg hkeep, ← hrest, scan, ho]
      simp [bind, Except.bind, hne]

end Scan

/-! ### Keys -/

theorem fileKeys_congr (h : ∀ fid, (r.get (.file fid)).isSome = (r'.get (.file fid)).isSome) :
    r.fileKeys = r'.fileKeys := by
  refine ((List.perm_ext_iff_of_nodup nodup_fileKeys nodup_fileKeys).mpr fun fid => ?_
    ).eq_of_pairwise (fun _ _ _ _ => le_antisymm) (List.pairwise_insertionSort _ _)
      (List.pairwise_insertionSort _ _)
  rw [mem_fileKeys, mem_fileKeys, h]

theorem dirKeys_congr (h : ∀ did, (r.get (.dir did)).isSome = (r'.get (.dir did)).isSome) :
    r.dirKeys = r'.dirKeys := by
  refine ((List.perm_ext_iff_of_nodup nodup_dirKeys nodup_dirKeys).mpr fun did => ?_
    ).eq_of_pairwise (fun _ _ _ _ => le_antisymm) (List.pairwise_insertionSort _ _)
      (List.pairwise_insertionSort _ _)
  rw [mem_dirKeys, mem_dirKeys, h]

/-- The keys but for one that is new. -/
theorem dirKeys_new (hnone : r.get (.dir did) = none)
    (h : ∀ did', did' ≠ did → (r'.get (.dir did')).isSome = (r.get (.dir did')).isSome) :
    r'.dirKeys.filter (· ≠ did) = r.dirKeys := by
  refine ((List.perm_ext_iff_of_nodup (nodup_dirKeys.sublist List.filter_sublist)
    nodup_dirKeys).mpr fun did' => ?_).eq_of_pairwise (fun _ _ _ _ => le_antisymm)
      ((List.pairwise_insertionSort _ _).sublist List.filter_sublist)
      (List.pairwise_insertionSort _ _)
  rw [List.mem_filter, mem_dirKeys, mem_dirKeys, decide_eq_true_eq]
  by_cases hdid : did' = did
  · subst hdid
    simp [hnone]
  · simp [hdid, h did' hdid]

end Root

end AgentSync
