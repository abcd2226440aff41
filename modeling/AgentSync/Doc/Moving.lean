import AgentSync.Doc.Deleting
import AgentSync.Doc.Unique

/-! Renaming a directory.

`rename_directory` gives the entry at `from` its new path first, and then goes through all
entries and moves those below `from`. The loops read the paths that the call has written by
then, so a directory that is renamed to a path below itself is moved a second time; and the
entry at `from` is the first one found, so another at the same path stays. -/
namespace AgentSync

open Turns (Turn)

variable {L : Crates} {r r' : Root} {p q : Str}

namespace Path

/-- The path with the prefix `src` replaced by `dst`, once. -/
def relocated (src dst x : Str) : Str := if AtOrBelow src x then moved src dst x else x

theorem relocated_self (src dst : Str) : relocated src dst src = dst := by
  rw [relocated, if_pos (.inl rfl), moved_self]

theorem relocated_of_not {src dst x : Str} (h : ¬ AtOrBelow src x) : relocated src dst x = x :=
  if_neg h

/-- What the loop over directories makes of a path. -/
def descended (src dst x : Str) : Str := if Below src x then moved src dst x else x

theorem descended_of_ne {src dst x : Str} (h : x ≠ src) : descended src dst x = relocated src dst x := by
  unfold descended relocated
  by_cases hbelow : Below src x
  · rw [if_pos hbelow, if_pos (.inr hbelow)]
  · rw [if_neg hbelow, if_neg (fun hat => hat.elim h hbelow)]

end Path

/-- Where a rename writes in the entries that are there. -/
def Addr.moves : Addr → Bool
  | .fileField _ .path | .fileField _ .updatedAt | .dirField _ .path => true
  | _ => false

theorem Addr.not_ancestor_of_moves {a b : Addr} (h : a.moves = true) : a ∉ b.ancestors := by
  cases b <;> simp [ancestors]
  all_goals grind [Addr.moves]

namespace Root

/-- Every entry at or below `src` has the prefix replaced, every other one has its path; the
directories that are missing above `dst` are there, and nothing else is new or different. -/
structure Relocated (L : Crates) (src dst : Str) (r r' : Root) : Prop where
  directories : ∀ did x, r.lookDirectory L did = .ok (some x) →
    r'.lookDirectory L did = .ok (some (Path.relocated src dst x))
  files : ∀ fid x, r.lookFile L fid = .ok (some x) →
    r'.lookFile L fid = .ok (some (Path.relocated src dst x))
  ancestors : ∀ x, Path.Below x dst → ∃ did, r'.lookDirectory L did = .ok (some x)
  added : ∀ did x, r'.lookDirectory L did = .ok (some x) → r.get (.dir did) = none →
    Path.Below x dst ∧
      ∀ did' y, r.lookDirectory L did' = .ok (some y) → Path.relocated src dst y ≠ x
  fileKeys : r'.fileKeys = r.fileKeys
  kept : ∀ a : Addr, a.moves = false → (∀ did, a.dirId = some did → r.get (.dir did) ≠ none) →
    r'.get a = r.get a

/-! ### One entry -/

theorem get_put_of_moves {a : Addr} (ha : a.moves = true) (s : Scalar) (b : Addr) :
    (applyAll r [.put a s]).get b = if b = a then some (.scalar s) else r.get b := by
  have hanc : a ∉ b.ancestors := Addr.not_ancestor_of_moves ha
  simp [Op.apply, hanc]

theorem lookDirectory_put {did x : Str} (h : r.lookDirectory L did = .ok (some x)) (y did' : Str) :
    (applyAll r [.put (.dirField did .path) (.str y)]).lookDirectory L did' =
      if did' = did then .ok (some y) else r.lookDirectory L did' := by
  have hget := get_put_of_moves (r := r) (a := .dirField did .path) rfl (.str y)
  split
  next heq =>
    subst heq
    obtain ⟨hdir, hdeleted, -⟩ := lookDirectory_eq_some h
    rw [lookDirectory, hasObject_congr ((hget _).trans (if_neg (by simp))), hdir,
      getInt_congr ((hget _).trans (if_neg (by simp))), hdeleted,
      getStr_of_get ((hget _).trans (if_pos rfl))]
    rfl
  next hne =>
    refine lookDirectory_congr fun b hb => (hget b).trans (if_neg ?_)
    rintro rfl
    exact hne (Option.some.inj hb).symm

theorem lookFile_put {fid x : Str} (h : r.lookFile L fid = .ok (some x)) (y : Str) (now : Int)
    (fid' : Str) : (applyAll r [.put (.fileField fid .path) (.str y),
        .put (.fileField fid .updatedAt) (.int now)]).lookFile L fid' =
      if fid' = fid then .ok (some y) else r.lookFile L fid' := by
  have hget (b : Addr) : (applyAll r [.put (.fileField fid .path) (.str y),
      .put (.fileField fid .updatedAt) (.int now)]).get b =
      if b = .fileField fid .updatedAt then some (.scalar (.int now))
      else if b = .fileField fid .path then some (.scalar (.str y)) else r.get b := by
    rw [← List.singleton_append, applyAll_append, get_put_of_moves rfl, get_put_of_moves rfl]
  have hkept {b : Addr} (hb : b.moves = false) : (applyAll r [.put (.fileField fid .path) (.str y),
      .put (.fileField fid .updatedAt) (.int now)]).get b = r.get b := by
    rw [hget, if_neg, if_neg]
    all_goals
      rintro rfl
      cases hb
  split
  next heq =>
    subst heq
    obtain ⟨hfile, hmeta, hdeleted, -⟩ := lookFile_eq_some h
    rw [lookFile, hasObject_congr (hkept rfl), hfile, hasObject_congr (hkept rfl), hmeta,
      getInt_congr (hkept rfl), hdeleted, getStr_of_get (s := y) ((hget _).trans (by simp))]
    rfl
  next hne =>
    refine lookFile_congr fun b hb => (hget b).trans ?_
    rw [if_neg, if_neg]
    all_goals
      rintro rfl
      exact hne (Option.some.inj hb).symm

end Root

namespace Doc

variable {d d' : Doc}

/-! ### The loops -/

/-- Each turn of a loop over distinct entries changes the path that its own entry is live at. -/
theorem turns_looks (look : Root → Str → Except Error (Option Str)) {body : Str → DocM PUnit}
    {f : Str → Str} {R : Doc → Doc → Prop} (hrefl : ∀ d, R d d)
    (htrans : ∀ {d₁ d₂ d₃}, R d₁ d₂ → R d₂ d₃ → R d₁ d₃)
    (hbody : ∀ id d d', body id d = .ok () d' → R d d' ∧ ∀ id', look d'.root id' =
      if id' = id then (look d.root id').map (Option.map f) else look d.root id')
    {ids : List Str} (hnodup : ids.Nodup) (hrun : ids.forM body d = .ok () d') :
    R d d' ∧ ∀ id, look d'.root id =
      if id ∈ ids then (look d.root id).map (Option.map f) else look d.root id := by
  induction ids generalizing d with
  | nil =>
    obtain ⟨-, rfl⟩ := EStateM.Result.ok.inj hrun
    exact ⟨hrefl _, fun id => by simp⟩
  | cons id₁ rest ih =>
    obtain ⟨_, d₁, hone, hrest⟩ := bind_eq_ok.mp hrun
    rw [List.nodup_cons] at hnodup
    obtain ⟨hR, hlook⟩ := ih hnodup.2 hrest
    obtain ⟨hR₁, hlook₁⟩ := hbody id₁ d d₁ hone
    refine ⟨htrans hR₁ hR, fun id => ?_⟩
    rw [hlook, hlook₁]
    by_cases heq : id = id₁
    · subst heq
      rw [if_neg hnodup.1, if_pos rfl, if_pos List.mem_cons_self]
    · simp only [List.mem_cons, heq, false_or, if_false]

/-- What a loop over the directories leaves as it is, or a loop over the files. -/
structure MovedOnly (still : Addr → Prop) (d d' : Doc) : Prop where
  kept : ∀ a : Addr, a.moves = false ∨ still a → d'.root.get a = d.root.get a
  supply : d'.supply = d.supply
  draws : d'.draws = d.draws

theorem MovedOnly.refl (still : Addr → Prop) (d : Doc) : MovedOnly still d d :=
  ⟨fun _ _ => rfl, rfl, rfl⟩

theorem MovedOnly.trans {still : Addr → Prop} {d'' : Doc} (h : MovedOnly still d d')
    (h' : MovedOnly still d' d'') : MovedOnly still d d'' :=
  ⟨fun a ha => (h'.kept a ha).trans (h.kept a ha), h'.supply.trans h.supply,
    h'.draws.trans h.draws⟩

theorem MovedOnly.fresh {still : Addr → Prop} (h : MovedOnly still d d') (hf : d.Fresh) :
    d'.Fresh where
  file := fun n hn => by
    rw [h.kept _ (.inl rfl), h.supply]
    exact hf.file n (h.draws ▸ hn)
  dir := fun n hn => by
    rw [h.kept _ (.inl rfl), h.supply]
    exact hf.dir n (h.draws ▸ hn)
  once := fun m n hm hn => by
    rw [h.supply]
    exact hf.once m n (h.draws ▸ hm) (h.draws ▸ hn)

/-- An entry whose path stays. -/
theorem look_still {look : Str → Except Error (Option Str)} {f : Str → Str} {id : Str}
    {o : Option Str} (ho : look id = .ok o) (hsame : o.map f = o) (id' : Str) :
    look id' = if id' = id then (look id').map (Option.map f) else look id' := by
  split
  next heq =>
    rw [heq, ho]
    exact congrArg Except.ok hsame.symm
  next => rfl

theorem moveDirectory_looks {src dst : Str} (hsrc : src ≠ []) (did : Str)
    (hrun : moveDirectory L src dst did d = .ok () d') :
    MovedOnly (fun a => a.fileId ≠ none) d d' ∧ ∀ did', d'.root.lookDirectory L did' = if did' = did then
      (d.root.lookDirectory L did').map (Option.map (Path.descended src dst))
      else d.root.lookDirectory L did' := by
  rw [moveDirectory_eq] at hrun
  cases hlook : d.root.lookDirectory L did with
  | error e =>
    rw [hlook] at hrun
    cases hrun
  | ok found =>
    rw [hlook] at hrun
    cases found with
    | none =>
      obtain ⟨-, rfl⟩ := EStateM.Result.ok.inj hrun
      exact ⟨.refl _ _, look_still hlook rfl⟩
    | some x =>
      by_cases hunder : (Path.under src x && x != src) = true
      · simp only [hunder, if_true] at hrun
        obtain ⟨-, rfl⟩ := EStateM.Result.ok.inj hrun
        have hbelow := (Path.strictlyUnder_iff hsrc).mp hunder
        refine ⟨⟨fun a ha => ?_, rfl, rfl⟩, fun did' => ?_⟩
        · rw [emitted_root, Root.get_put_of_moves rfl, if_neg]
          rintro rfl
          simp [Addr.moves, Addr.fileId] at ha
        · rw [emitted_root, Root.lookDirectory_put hlook]
          split
          next heq =>
            subst heq
            rw [hlook]
            show _ = Except.ok (some (Path.descended src dst x))
            rw [Path.descended, if_pos hbelow]
            rfl
          next => rfl
      · simp only [hunder] at hrun
        obtain ⟨-, rfl⟩ := EStateM.Result.ok.inj hrun
        refine ⟨.refl _ _, look_still hlook ?_⟩
        show some (Path.descended src dst x) = some x
        rw [Path.descended, if_neg (mt (Path.strictlyUnder_iff hsrc).mpr hunder)]

/-- A turn for a file acts on what a scan would see. -/
theorem moveFile_eq (src dst : Str) (now : Int) (fid : Str) (d : Doc) :
    moveFile L src dst now fid d = match d.root.lookFile L fid with
    | .ok (some p) =>
      if Path.under src p then
        .ok () (d.emitted [.put (.fileField fid .path)
          (.str (if p = src then dst else dst ++ p.drop src.length)),
          .put (.fileField fid .updatedAt) (.int now)])
      else .ok () d
    | .ok none => .ok () d
    | .error e => .error e d := by
  unfold Root.lookFile
  cases hfile : d.root.hasObject (.file fid) with
  | false =>
    simp only [moveFile, bind, EStateM.bind, ask, read, hfile]
    rfl
  | true =>
    cases hmeta : d.root.hasObject (.fileMeta fid) with
    | false =>
      simp only [moveFile, bind, EStateM.bind, ask, read, hfile, hmeta, Bool.not_true,
        Bool.false_eq_true, if_false]
      rfl
    | true =>
      simp only [moveFile, bind, EStateM.bind, ask, read, hfile, hmeta, Bool.not_true,
        Bool.false_eq_true, if_false]
      cases hdeleted : d.root.getInt L (.fileField fid .deletedAt) with
      | error e => rfl
      | ok deleted =>
        cases deleted with
        | some t => rfl
        | none =>
          simp only [Option.isSome_none, Bool.false_eq_true, if_false, Except.bind, EStateM.bind,
            read]
          cases hpath : d.root.getStr L (.fileField fid .path) with
          | error e => rfl
          | ok path =>
            cases path with
            | none => rfl
            | some p =>
              by_cases hunder : Path.under src p = true
              · simp only [hunder]
                rfl
              · simp only [hunder]
                rfl

theorem moveFile_looks {src dst : Str} (hsrc : src ≠ []) (now : Int) (fid : Str)
    (hrun : moveFile L src dst now fid d = .ok () d') :
    MovedOnly (fun a => a.dirId ≠ none) d d' ∧ ∀ fid', d'.root.lookFile L fid' = if fid' = fid then
      (d.root.lookFile L fid').map (Option.map (Path.relocated src dst))
      else d.root.lookFile L fid' := by
  rw [moveFile_eq] at hrun
  cases hlook : d.root.lookFile L fid with
  | error e =>
    rw [hlook] at hrun
    cases hrun
  | ok found =>
    rw [hlook] at hrun
    cases found with
    | none =>
      obtain ⟨-, rfl⟩ := EStateM.Result.ok.inj hrun
      exact ⟨.refl _ _, look_still hlook rfl⟩
    | some x =>
      by_cases hunder : Path.under src x = true
      · simp only [hunder, if_true] at hrun
        obtain ⟨-, rfl⟩ := EStateM.Result.ok.inj hrun
        have hat := (Path.under_iff hsrc).mp hunder
        have hnew : (if x = src then dst else dst ++ x.drop src.length) =
            Path.relocated src dst x := by
          rw [Path.relocated, if_pos hat]
          split
          next h => rw [h, Path.moved_self]
          next => rfl
        refine ⟨⟨fun a ha => ?_, rfl, rfl⟩, fun fid' => ?_⟩
        · rw [emitted_root, ← List.singleton_append, applyAll_append, Root.get_put_of_moves rfl,
            Root.get_put_of_moves rfl, if_neg, if_neg]
          all_goals
            rintro rfl
            simp [Addr.moves, Addr.dirId] at ha
        · rw [emitted_root, Root.lookFile_put hlook, hnew]
          split
          next heq =>
            subst heq
            rw [hlook]
            rfl
          next => rfl
      · simp only [hunder] at hrun
        obtain ⟨-, rfl⟩ := EStateM.Result.ok.inj hrun
        refine ⟨.refl _ _, look_still hlook ?_⟩
        show some (Path.relocated src dst x) = some x
        rw [Path.relocated_of_not (mt (Path.under_iff hsrc).mpr hunder)]

/-! ### The directories above -/

/-- Directories have been added at those of the paths that had none. -/
structure Added (L : Crates) (paths : List Str) (r r' : Root) : Prop where
  kept : ∀ a : Addr, (∀ did, a.dirId = some did → r.get (.dir did) ≠ none) → r'.get a = r.get a
  there : ∀ x ∈ paths, ∃ did, r'.lookDirectory L did = .ok (some x)
  fresh : ∀ did x, r.get (.dir did) = none → r'.lookDirectory L did = .ok (some x) →
    x ∈ paths ∧ ∀ did', r.lookDirectory L did' ≠ .ok (some x)

theorem Added.sameDirectory {paths : List Str} (h : Added L paths r r') {did : Str}
    (hdid : r.get (.dir did) ≠ none) : Root.SameDirectory did r' r := by
  refine fun b hb => h.kept b fun did' hdid' => ?_
  obtain rfl : did = did' := Option.some.inj (hb.symm.trans hdid')
  exact hdid

theorem Added.lookDirectory {paths : List Str} (h : Added L paths r r') {did x : Str}
    (hlook : r.lookDirectory L did = .ok (some x)) : r'.lookDirectory L did = .ok (some x) := by
  rw [Root.lookDirectory_congr (h.sameDirectory ?_), hlook]
  exact Root.get_of_hasObject (Root.lookDirectory_eq_some hlook).1

theorem Added.trans {paths : List Str} {r'' : Root} (h : Added L [p] r r')
    (h' : Added L paths r' r'') : Added L (p :: paths) r r'' where
  kept := fun a ha => by
    refine (h'.kept a fun did hdid => ?_).trans (h.kept a ha)
    rw [h.kept (.dir did) fun did' hdid' => Option.some.inj hdid' ▸ ha did hdid]
    exact ha did hdid
  there := fun x hx => by
    rcases List.mem_cons.mp hx with rfl | hx
    · exact (h.there x List.mem_cons_self).imp fun _ hdid => h'.lookDirectory hdid
    · exact h'.there x hx
  fresh := fun did x hnone hlook => by
    by_cases hdid : r'.get (.dir did) = none
    · obtain ⟨hx, hfresh⟩ := h'.fresh did x hdid hlook
      exact ⟨List.mem_cons_of_mem _ hx, fun did' hlook' => hfresh did' (h.lookDirectory hlook')⟩
    · rw [Root.lookDirectory_congr (h'.sameDirectory hdid)] at hlook
      obtain ⟨hx, hfresh⟩ := h.fresh did x hnone hlook
      exact ⟨List.mem_cons.mpr (.inl (List.mem_singleton.mp hx)), hfresh⟩

theorem ensureDirectory_added (hf : d.Fresh) (now : Int)
    (hrun : ensureDirectory L now p d = .ok () d') : d'.Fresh ∧ Added L [p] d.root d'.root := by
  unfold ensureDirectory at hrun
  obtain ⟨found, d₁, hread, hrest⟩ := bind_eq_ok.mp hrun
  obtain ⟨rfl, hfind⟩ := read_eq_ok.mp hread
  obtain ⟨_, hmap, hscan⟩ := AgentSync.bind_eq_ok.mp hfind
  rw [Root.findDirectoryIn_eq_scan] at hscan
  cases found with
  | some did =>
    obtain ⟨-, rfl⟩ := EStateM.Result.ok.inj hrest
    refine ⟨hf, fun _ _ => rfl, fun x hx => ?_, fun did' x hnone hlook => ?_⟩
    · obtain rfl := List.mem_singleton.mp hx
      exact ⟨did, (Root.scan_eq_some hscan).2⟩
    · exact absurd hnone (Root.get_of_hasObject (Root.lookDirectory_eq_some hlook).1)
  | none =>
    obtain ⟨_, d₂, hmap', hrest₁⟩ := bind_eq_ok.mp hrest
    obtain ⟨rfl, -⟩ := read_eq_ok.mp hmap'
    obtain ⟨did, d₃, hid, hrest₂⟩ := bind_eq_ok.mp hrest₁
    obtain ⟨rfl, rfl⟩ := EStateM.Result.ok.inj hid
    obtain ⟨_, d₄, hwritable, hemit⟩ := bind_eq_ok.mp hrest₂
    obtain ⟨rfl, -⟩ := read_eq_ok.mp hwritable
    obtain ⟨-, rfl⟩ := EStateM.Result.ok.inj hemit
    have hnone : d₂.root.get (.dir (d₂.supply.id d₂.draws)) = none := hf.dir _ (Nat.le_refl _)
    have hops (op : Op) (hop : op ∈ newDirectoryOps (d₂.supply.id d₂.draws) p now) :=
      dirId_newDirectoryOps hop
    have hkept (a : Addr) (ha : ∀ did, a.dirId = some did → d₂.root.get (.dir did) ≠ none) :
        (applyAll d₂.root (newDirectoryOps (d₂.supply.id d₂.draws) p now)).get a =
          d₂.root.get a := by
      refine get_applyAll_of_ne fun op hop => ⟨?_, fun hanc => ?_⟩
      · rintro rfl
        exact ha _ (hops op hop) hnone
      · refine ha _ ?_ hnone
        have howner : op.target.owner = some (.directory (d₂.supply.id d₂.draws)) := by
          rw [Addr.owner, Root.fileId_of_dirId (hops op hop), hops op hop]
          rfl
        have := Addr.owner_of_mem_ancestors hanc howner
        unfold Addr.owner at this
        cases hfile : a.fileId with
        | some fid => simp [hfile] at this
        | none => simpa [hfile] using this
    have hlookNew : (applyAll d₂.root (newDirectoryOps (d₂.supply.id d₂.draws) p now)).lookDirectory
        L (d₂.supply.id d₂.draws) = .ok (some p) := by
      simp [newDirectoryOps, Root.lookDirectory, Root.hasObject, Root.getInt, Root.getStr, Op.apply,
        Addr.ancestors, Val.isObject, bind, Except.bind]
    refine ⟨(hf.draw (Nat.le_succ _)).directory_written hops fun n hn => hf.ne_drawn hn,
      hkept, fun x hx => ?_, fun did x hgone hlook => ?_⟩
    · obtain rfl := List.mem_singleton.mp hx
      exact ⟨_, hlookNew⟩
    · by_cases hdid : did = d₂.supply.id d₂.draws
      · subst hdid
        obtain rfl := Option.some.inj (Except.ok.inj (hlookNew.symm.trans hlook))
        refine ⟨List.mem_singleton.mpr rfl, fun did' hlook' => ?_⟩
        obtain ⟨o, ho, hne⟩ :=
          Root.scan_eq_none.mp hscan did' (Root.mem_dirKeys_of_look hlook')
        exact hne (Except.ok.inj (ho.symm.trans hlook'))
      · have hsame := (Root.sameBut_applyAll (r := d₂.root)
          (i := .directory (d₂.supply.id d₂.draws)) fun op hop => by
            rw [Addr.owner, Root.fileId_of_dirId (hops op hop), hops op hop]
            rfl).sameFor (i := .directory did) (by simpa using hdid)
        have hold := Root.lookDirectory_congr (L := L) hsame.directory
        exact absurd hgone
          (Root.get_of_hasObject (Root.lookDirectory_eq_some (hold.trans hlook)).1)

theorem ensureDirectories_added (hf : d.Fresh) (now : Int) {paths : List Str}
    (hrun : paths.forM (ensureDirectory L now) d = .ok () d') : Added L paths d.root d'.root := by
  induction paths generalizing d with
  | nil =>
    obtain ⟨-, rfl⟩ := EStateM.Result.ok.inj hrun
    refine ⟨fun _ _ => rfl, by simp, fun did x hnone hlook => ?_⟩
    exact absurd hnone (Root.get_of_hasObject (Root.lookDirectory_eq_some hlook).1)
  | cons p rest ih =>
    obtain ⟨_, d₁, hone, hrest⟩ := bind_eq_ok.mp hrun
    obtain ⟨hf₁, hadded⟩ := ensureDirectory_added hf now hone
    exact hadded.trans (ih hf₁ hrest)

/-! ### The whole rename -/

theorem lookDirectory_notKey {did : Str} (h : did ∉ r.dirKeys) : r.lookDirectory L did = .ok none := by
  refine lookDirectory_of_none ?_
  by_contra hne
  exact h (Root.mem_dirKeys.mpr (Option.isSome_iff_ne_none.mpr hne))

theorem lookFile_notKey {fid : Str} (h : fid ∉ r.fileKeys) : r.lookFile L fid = .ok none := by
  have hnone : r.get (.file fid) = none := by
    by_contra hne
    exact h (Root.mem_fileKeys.mpr (Option.isSome_iff_ne_none.mpr hne))
  rw [Root.lookFile, Root.hasObject, hnone]
  rfl

/-- The root once the directory itself has its new path and the loops have been gone through,
and the directories that have been added to it. -/
structure Descended (L : Crates) (p q : Str) (r r₁ r' : Root) : Prop where
  directories : ∀ did, r₁.lookDirectory L did =
    (r.lookDirectory L did).map (Option.map (Path.descended p q))
  files : ∀ fid, r₁.lookFile L fid = (r.lookFile L fid).map (Option.map (Path.relocated p q))
  kept : ∀ a : Addr, a.moves = false → r₁.get a = r.get a
  added : Added L (Path.ancestors q) r₁ r'

theorem moveChildren_looks (hf : d.Fresh) (hp : p ≠ []) {now : Int} (hrun : (do
      read (Root.mapObj · .directories)
      (← ask Root.dirKeys).forM (moveDirectory L p q)
      read (Root.mapObj · .files)
      (← ask Root.fileKeys).forM (moveFile L p q now)
      ensureAncestorDirectories L q
      commitNow) d = .ok () d') : ∃ r₁, Descended L p q d.root r₁ d'.root := by
  obtain ⟨_, d₁, hmap, hrun₁⟩ := bind_eq_ok.mp hrun
  obtain ⟨rfl, -⟩ := read_eq_ok.mp hmap
  obtain ⟨dids, d₂, hask, hrun₂⟩ := bind_eq_ok.mp hrun₁
  obtain ⟨rfl, hdids⟩ := read_eq_ok.mp hask
  obtain rfl := Except.ok.inj hdids
  obtain ⟨_, d₃, hdirs, hrun₃⟩ := bind_eq_ok.mp hrun₂
  obtain ⟨_, d₄, hmap', hrun₄⟩ := bind_eq_ok.mp hrun₃
  obtain ⟨rfl, -⟩ := read_eq_ok.mp hmap'
  obtain ⟨fids, d₅, hask', hrun₅⟩ := bind_eq_ok.mp hrun₄
  obtain ⟨rfl, hfids⟩ := read_eq_ok.mp hask'
  obtain rfl := Except.ok.inj hfids
  obtain ⟨_, d₆, hfiles, hrun₆⟩ := bind_eq_ok.mp hrun₅
  obtain ⟨_, d₇, hensure, hcommit⟩ := bind_eq_ok.mp hrun₆
  obtain ⟨-, rfl⟩ := EStateM.Result.ok.inj hcommit
  obtain ⟨_, d₈, hnow, hensure'⟩ := bind_eq_ok.mp hensure
  obtain ⟨-, rfl⟩ := EStateM.Result.ok.inj hnow
  obtain ⟨honly, hlookDir⟩ := turns_looks (fun r => r.lookDirectory L)
    (MovedOnly.refl fun a => a.fileId ≠ none) MovedOnly.trans
    (fun did _ _ => moveDirectory_looks hp did) Root.nodup_dirKeys hdirs
  obtain ⟨honly', hlookFile⟩ := turns_looks (fun r => r.lookFile L)
    (MovedOnly.refl fun a => a.dirId ≠ none) MovedOnly.trans
    (fun fid _ _ => moveFile_looks hp now fid) Root.nodup_fileKeys hfiles
  have hadded := ensureDirectories_added
    ((honly'.fresh (honly.fresh hf)).draw (Nat.le_succ _)) _ hensure'
  refine ⟨d₆.root, fun did => ?_, fun fid => ?_, fun a ha => ?_, ?_⟩
  · have hsame : Root.SameDirectory did d₆.root d₅.root :=
      fun b hb => honly'.kept b (.inr (by simp [hb]))
    rw [Root.lookDirectory_congr hsame, hlookDir]
    split
    next => rfl
    next hno =>
      rw [lookDirectory_notKey hno]
      rfl
  · have hsame : Root.SameFile fid d₅.root d₂.root :=
      fun b hb => honly.kept b (.inr (by simp [hb]))
    rw [hlookFile, Root.lookFile_congr hsame]
    split
    next => rfl
    next hno =>
      rw [← Root.lookFile_congr hsame, lookFile_notKey hno]
      rfl
  · exact (honly'.kept a (.inl ha)).trans (honly.kept a (.inl ha))
  · rw [committed_root]
    exact hadded

/-- One live directory at most is at the path, and if there is one it is not to go below
itself. -/
structure Movable (L : Crates) (r : Root) (p q : Str) : Prop where
  sole : ∀ did did', r.lookDirectory L did = .ok (some p) →
    r.lookDirectory L did' = .ok (some p) → did = did'
  outside : ∀ did, r.lookDirectory L did = .ok (some p) → ¬ Path.Below p q

/-- What a rename that succeeds has made of the entries: the first directory at the path is at
the new one, or it has descended from there; the others descend from where they were. -/
theorem renameDirectory_descended {src dst : Str} (hf : d.Fresh)
    (hp : Path.normalize L.nfc src = .ok p) (hq : Path.normalize L.nfc dst = .ok q) (hne : p ≠ q)
    (hrun : renameDirectory L src dst d = .ok () d') :
    ∃ found r₀ r₁, d.root.findDirectoryByPathNormalized L p = .ok found ∧
      (∀ did, r₀.lookDirectory L did =
        if some did = found then .ok (some q) else d.root.lookDirectory L did) ∧
      (∀ fid, r₀.lookFile L fid = d.root.lookFile L fid) ∧
      (∀ a : Addr, a.moves = false → r₀.get a = d.root.get a) ∧
      Descended L p q r₀ r₁ d'.root := by
  have hnil := (Path.normalized_of_normalize hp).ne_nil
  obtain ⟨p', d₁, hlift, hrun₁⟩ := bind_eq_ok.mp hrun
  obtain ⟨rfl, hp'⟩ := read_eq_ok.mp hlift
  obtain rfl := Except.ok.inj (hp.symm.trans hp')
  obtain ⟨q', d₂, hlift', hrun₂⟩ := bind_eq_ok.mp hrun₁
  obtain ⟨rfl, hq'⟩ := read_eq_ok.mp hlift'
  obtain rfl := Except.ok.inj (hq.symm.trans hq')
  rw [if_neg hne] at hrun₂
  obtain ⟨now, d₃, hnow, hrun₃⟩ := bind_eq_ok.mp hrun₂
  obtain ⟨-, rfl⟩ := EStateM.Result.ok.inj hnow
  have hf₃ := hf.draw (Nat.le_succ _)
  obtain ⟨found, d₄, hread, hrun₄⟩ := bind_eq_ok.mp hrun₃
  obtain ⟨rfl, hfound⟩ := read_eq_ok.mp hread
  cases found with
  | none =>
    obtain ⟨r₁, hdown⟩ := moveChildren_looks hf₃ hnil hrun₄
    exact ⟨none, _, r₁, hfound, fun did => by simp, fun _ => rfl, fun _ _ => rfl, hdown⟩
  | some did =>
    obtain ⟨_, -, hscan⟩ := AgentSync.bind_eq_ok.mp hfound
    rw [Root.findDirectoryIn_eq_scan] at hscan
    have hlook := (Root.scan_eq_some hscan).2
    obtain ⟨there, d₅, hask, hrun₅⟩ := bind_eq_ok.mp hrun₄
    obtain ⟨rfl, hthere⟩ := read_eq_ok.mp hask
    obtain rfl : true = there := by
      rw [← Except.ok.inj hthere]
      exact (Root.lookDirectory_eq_some hlook).1.symm
    simp only [if_true] at hrun₅
    obtain ⟨_, d₆, hemit, hrun₆⟩ := bind_eq_ok.mp hrun₅
    obtain ⟨-, rfl⟩ := EStateM.Result.ok.inj hemit
    have hput := Root.get_put_of_moves (r := d₂.root) (a := .dirField did .path) rfl (.str q)
    have hkept (a : Addr) (ha : a.moves = false) :
        (applyAll d₂.root [.put (.dirField did .path) (.str q)]).get a = d₂.root.get a := by
      rw [hput, if_neg]
      rintro rfl
      cases ha
    have hf₆ : Fresh ({d₂ with draws := d₂.draws + 1}.emitted
        [.put (.dirField did .path) (.str q)]) :=
      ⟨fun n hn => (hkept _ rfl).trans (hf₃.file n hn), fun n hn => (hkept _ rfl).trans (hf₃.dir n hn),
        hf₃.once⟩
    obtain ⟨r₁, hdown⟩ := moveChildren_looks hf₆ hnil hrun₆
    refine ⟨some did, _, r₁, hfound, fun did' => ?_, fun fid => ?_, fun a ha => ?_, hdown⟩
    · rw [emitted_root]
      simpa only [Option.some.injEq] using Root.lookDirectory_put hlook q did'
    · rw [emitted_root]
      refine Root.lookFile_congr fun b hb => (hput b).trans (if_neg ?_)
      rintro rfl
      cases hb
    · exact hkept a ha

/-- **A rename that succeeds moves exactly the subtree** just when it comes to all that it is to
move, and to each entry once. -/
theorem renameDirectory_relocated_iff {src dst : Str} (hf : d.Fresh)
    (hp : Path.normalize L.nfc src = .ok p) (hq : Path.normalize L.nfc dst = .ok q) (hne : p ≠ q)
    (hrun : renameDirectory L src dst d = .ok () d') :
    Root.Relocated L p q d.root d'.root ↔ Movable L d.root p q := by
  obtain ⟨found, r₀, r₁, hfound, hdir₀, hfile₀, hkept₀, hdown⟩ :=
    renameDirectory_descended hf hp hq hne hrun
  have hfoundLook (did : Str) (h : some did = found) :
      d.root.lookDirectory L did = .ok (some p) := by
    obtain ⟨_, -, hscan⟩ := AgentSync.bind_eq_ok.mp hfound
    rw [Root.findDirectoryIn_eq_scan, ← h] at hscan
    exact (Root.scan_eq_some hscan).2
  have hmoved (did x : Str) (hlook : d.root.lookDirectory L did = .ok (some x)) :
      d'.root.lookDirectory L did =
        .ok (some (Path.descended p q (if some did = found then q else x))) := by
    refine hdown.added.lookDirectory ?_
    rw [hdown.directories, hdir₀]
    split
    · rfl
    · rw [hlook]
      rfl
  constructor
  · intro h
    have hsole (did : Str) (hlook : d.root.lookDirectory L did = .ok (some p)) :
        some did = found := by
      by_contra hno
      have hnew := h.directories did p hlook
      rw [hmoved did p hlook, if_neg hno, Path.relocated_self, Path.descended,
        if_neg fun hbelow => hbelow.ne rfl] at hnew
      exact hne (Option.some.inj (Except.ok.inj hnew))
    refine ⟨fun did did' hlook hlook' =>
      Option.some.inj ((hsole did hlook).trans (hsole did' hlook').symm), fun did hlook hbelow => ?_⟩
    -- The directory that has gone to `q` is moved from there again.
    have hnew := h.directories did p hlook
    rw [hmoved did p hlook, if_pos (hsole did hlook), Path.relocated_self, Path.descended,
      if_pos hbelow] at hnew
    exact hbelow.moved.ne (Option.some.inj (Except.ok.inj hnew)).symm
  · intro h
    have hfirst (did : Str) (hlook : d.root.lookDirectory L did = .ok (some p)) :
        some did = found := by
      obtain ⟨_, -, hscan⟩ := AgentSync.bind_eq_ok.mp hfound
      rw [Root.findDirectoryIn_eq_scan] at hscan
      cases found with
      | none =>
        obtain ⟨o, ho, hno⟩ := Root.scan_eq_none.mp hscan did (Root.mem_dirKeys_of_look hlook)
        exact absurd (Except.ok.inj (ho.symm.trans hlook)) hno
      | some did' => rw [h.sole did did' hlook (hfoundLook did' rfl)]
    have hdirs (did x : Str) (hlook : d.root.lookDirectory L did = .ok (some x)) :
        Path.descended p q (if some did = found then q else x) = Path.relocated p q x := by
      by_cases hx : x = p
      · subst hx
        rw [if_pos (hfirst did hlook), Path.relocated_self, Path.descended,
          if_neg (h.outside did hlook)]
      · rw [if_neg, Path.descended_of_ne hx]
        intro heq
        exact hx (Option.some.inj (Except.ok.inj (hlook.symm.trans (hfoundLook did heq))))
    have hdirKey (did : Str) : r₁.get (.dir did) = d.root.get (.dir did) :=
      (hdown.kept _ rfl).trans (hkept₀ _ rfl)
    have hfiles (fid : Str) : Root.SameFile fid d'.root r₁ := fun b hb =>
      hdown.added.kept b fun did hdid => by
        have hnone := Root.fileId_of_dirId hdid
        rw [show b.fileId = some fid from hb] at hnone
        cases hnone
    refine ⟨fun did x hlook => ?_, fun fid x hlook => ?_, fun x hx => ?_, fun did x hlook hnone => ?_,
      ?_, fun a ha hold => ?_⟩
    · rw [hmoved did x hlook, hdirs did x hlook]
    · rw [Root.lookFile_congr (hfiles fid), hdown.files, hfile₀, hlook]
      rfl
    · exact hdown.added.there x
        ((Path.normalized_of_normalize hq).mem_ancestors.mpr hx)
    · obtain ⟨hx, hfresh⟩ := hdown.added.fresh did x ((hdirKey did).trans hnone) hlook
      refine ⟨(Path.normalized_of_normalize hq).mem_ancestors.mp hx,
        fun did' y hy heq => hfresh did' ?_⟩
      rw [hdown.directories, hdir₀, ← heq, ← hdirs did' y hy]
      split
      · rfl
      · rw [hy]
        rfl
    · refine Root.fileKeys_congr fun fid => ?_
      rw [hfiles fid (.file fid) rfl, hdown.kept _ rfl, hkept₀ _ rfl]
    · refine (hdown.added.kept a fun did hdid => ?_).trans ((hdown.kept a ha).trans (hkept₀ a ha))
      rw [hdirKey]
      exact hold did hdid

/-- The call fails and nothing has happened, or it succeeds and has moved the subtree. -/
def MovesSubtree (L : Crates) (p q : Str) (d : Doc) (x : DocM Unit) : Prop :=
  (∃ e d', x d = .error e d' ∧ Unharmed L d d') ∨
    ∃ d', x d = .ok () d' ∧ Root.Relocated L p q d.root d'.root

/-- **`rename_directory` moves exactly the subtree or nothing** just when what it writes does not
come before an entry that it cannot read, and it fails at such an entry, or the directory is the
only one at its path and is not to go below itself. -/
theorem rename_moves_subtree {src dst : Str} (hr : d.root.Nested) (hf : d.Fresh)
    (hp : Path.normalize L.nfc src = .ok p) (hq : Path.normalize L.nfc dst = .ok q) (hne : p ≠ q) :
    MovesSubtree L p q d (renameDirectory L src dst) ↔
      Turns.late false (renameDirectoryTurns L d.root src dst) = false ∧
        (.fail ∈ renameDirectoryTurns L d.root src dst ∨ Movable L d.root p q) := by
  have hfares : Fares d false (renameDirectory L src dst) d _ _ := renameDirectory_fares hr src dst
  unfold Fares Turns.Follows at hfares
  unfold MovesSubtree
  cases hrun : renameDirectory L src dst d with
  | error e d' =>
    rw [hrun] at hfares
    obtain ⟨hfail, hsince⟩ := hfares
    constructor
    · rintro (⟨_, _, heq, hsafe⟩ | ⟨_, heq, -⟩)
      · obtain ⟨-, rfl⟩ := EStateM.Result.error.inj heq
        refine ⟨?_, .inl hfail⟩
        by_contra hlate
        rw [eq_true_of_ne_false hlate] at hsince
        exact hsince.harmed hsafe
      · cases heq
    · rintro ⟨hlate, -⟩
      rw [hlate] at hsince
      exact .inl ⟨e, d', rfl, hsince.unharmed⟩
  | ok _ d' =>
    rw [hrun] at hfares
    have hiff := renameDirectory_relocated_iff hf hp hq hne hrun
    constructor
    · rintro (⟨_, _, heq, -⟩ | ⟨_, heq, hmoved⟩)
      · cases heq
      · obtain ⟨-, rfl⟩ := EStateM.Result.ok.inj heq
        refine ⟨?_, .inr (hiff.mp hmoved)⟩
        by_contra hlate
        exact hfares.1 (Turns.fail_mem_of_late (eq_true_of_ne_false hlate))
    · rintro ⟨-, hfail | hmovable⟩
      · exact absurd hfail hfares.1
      · exact .inr ⟨d', rfl, hiff.mpr hmovable⟩

private def singleFolder : Doc :=
  .replica (.numbered '1' 16) [.writeTextFile (txt "a/x.md") []]

private theorem fresh_singleFolder : singleFolder.Fresh := by
  have hrooted := (@Rooted.new .plain .plain (txt "vault") _ (Supply.numbered_injective '1' 16)).after
    (.file (.writeTextFile (txt "a/x.md") [])) not_orphans_file
  rw [singleFolder, replica, List.foldl_cons, List.foldl_nil]
  exact hrooted.settled.fresh

private theorem sole_singleFolder {did : Str}
    (h : singleFolder.root.lookDirectory .plain did = .ok (some (txt "a"))) :
    did = ['1', 'i', 'i', 'i'] := by
  have hkeys : singleFolder.root.dirKeys = [['1', 'i', 'i', 'i']] := by decide +kernel
  have hdid := Root.mem_dirKeys_of_look h
  rwa [hkeys, List.mem_singleton] at hdid

theorem rename_moves_subtree_aside : ∃ d,
    MovesSubtree .plain (txt "a") (txt "c") d (renameDirectory .plain (txt "a") (txt "c")) :=
  ⟨singleFolder, (rename_moves_subtree (by decide +kernel) fresh_singleFolder (by rfl) (by rfl)
    (by decide)).mpr ⟨by decide +kernel, .inr ⟨fun did did' h h' =>
      (sole_singleFolder h).trans (sole_singleFolder h').symm, fun _ _ => by decide⟩⟩⟩

private theorem ok_moved : renameDirectory .plain (txt "a") (txt "a/b") singleFolder =
    .ok () (singleFolder.after (renameDirectory .plain (txt "a") (txt "a/b"))) :=
  run_of_succeeds (by decide +kernel)

/-- **A directory that is moved twice**: renaming `a` to `a/b` takes it to `a/b/b`. -/
theorem rename_moves_subtree_twice : ∃ d did, Reachable .plain .plain d ∧
    d.root.lookDirectory .plain did = .ok (some (txt "a")) ∧
    (∃ d', renameDirectory .plain (txt "a") (txt "a/b") d = .ok () d' ∧
      d'.root.lookDirectory .plain did = .ok (some (txt "a/b/b"))) ∧
    ¬ MovesSubtree .plain (txt "a") (txt "a/b") d
      (renameDirectory .plain (txt "a") (txt "a/b")) := by
  have hlook : singleFolder.root.lookDirectory .plain ['1', 'i', 'i', 'i'] =
      .ok (some (txt "a")) := by decide +kernel
  have hgone : (singleFolder.after (renameDirectory .plain (txt "a") (txt "a/b"))
      ).root.lookDirectory .plain ['1', 'i', 'i', 'i'] = .ok (some (txt "a/b/b")) := by
    decide +kernel
  refine ⟨singleFolder, ['1', 'i', 'i', 'i'], reachable_replica (by decide +kernel), hlook,
    ⟨_, ok_moved, hgone⟩, ?_⟩
  rintro (⟨e, d', herror, -⟩ | ⟨d', hok, hmoved⟩)
  · rw [ok_moved] at herror
    cases herror
  · rw [ok_moved] at hok
    obtain ⟨-, rfl⟩ := EStateM.Result.ok.inj hok
    have hthere := (hmoved.directories _ _ hlook).symm.trans hgone
    revert hthere
    decide

end Doc

end AgentSync
