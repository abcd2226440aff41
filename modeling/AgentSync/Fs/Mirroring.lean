import AgentSync.Doc.Alignment
import AgentSync.Fs.LocalFiles
import AgentSync.Fs.Tracking

/-! Directories of devices that have the same document.

A path is clean when what is recorded of it is what the disk has. At clean paths a pass that is
left alone makes the disk show the document, and leaves them clean (`Brings.mirrors`). What it
shows is a function of the registers, so the directories of two devices whose documents read the
same end up with the same files (`directories_agree`). -/
namespace AgentSync

namespace Pass

variable {σ : Type}

/-- What is recorded of a path is what the disk has. -/
def Clean (V : Setting σ) (b : Bound σ) (path : Str) : Prop :=
  b.materialized.lookup path = (V.file b.fs path).map V.crates.sha.hash

/-- The hash of what the document has for a path; of what was there, where it has no content. -/
def shows (V : Setting σ) (b : Bound σ) (l : Listing) (path : Str) (old : Option Str) :
    Option Str :=
  match l.live.lookup path with
  | none => none
  | some m =>
    match target V b m with
    | .ok (some (_, hash)) => some hash
    | _ => old

section

variable {V : Setting σ} {l : Listing} {b₀ b : Bound σ} {s : Snapshot} {path : Str}
  {old : Option Bytes}

/-- What is recorded may go. -/
theorem safe_of_clean (hclean : s.existing.lookup path = old.map V.crates.sha.hash) :
    old.all (s.safe V path) = true := by
  cases old with
  | none => rfl
  | some disk => simp [Snapshot.safe, isSafeToOverwrite, hclean]

/-- A file that is not live goes. -/
theorem mirrors_dead (hclean : s.existing.lookup path = old.map V.crates.sha.hash)
    (hlive : path ∉ s.live) :
    s.brings V b₀ path old = none ∧ s.records V b₀ path old = none := by
  refine ⟨?_, if_neg hlive⟩
  rw [Snapshot.brings, if_neg hlive]
  cases old with
  | none => exact ite_self none
  | some disk =>
    have hin : path ∈ s.existing := AList.lookup_isSome.mp (by rw [hclean]; rfl)
    exact if_pos ⟨hin, safe_of_clean hclean⟩

/-- A file that has another content gets the one that is due. -/
theorem mirrors_due {hash : Str} {bytes : Bytes}
    (hclean : s.existing.lookup path = old.map V.crates.sha.hash) (hlive : path ∈ s.live)
    (hdue : s.due V b₀ path = some (bytes, hash)) (hsame : s.existing.lookup path ≠ some hash) :
    s.brings V b₀ path old = some bytes ∧ s.records V b₀ path old = some hash := by
  have hsafe := safe_of_clean hclean
  simp only [Snapshot.brings, Snapshot.records, if_pos hlive, hdue]
  cases old with
  | none => exact ⟨rfl, rfl⟩
  | some disk =>
    have hother : V.crates.sha.hash disk ≠ hash := fun heq => hsame (by rw [hclean, ← heq]; rfl)
    simp only [Option.all_some] at hsafe ⊢
    simp [hsafe, hother]

/-- **Where nothing was edited** the disk comes to show the document, and to be recorded. -/
theorem mirrors_of_clean (hclean : s.existing.lookup path = old.map V.crates.sha.hash)
    (hhonest : ∀ m, s.live.lookup path = some m → Tracking.honest V b₀ m = true) :
    (s.brings V b₀ path old).map V.crates.sha.hash =
        shows V b₀ s.toListing path (old.map V.crates.sha.hash) ∧
      s.records V b₀ path old = (s.brings V b₀ path old).map V.crates.sha.hash := by
  cases hm : s.live.lookup path with
  | none =>
    have hlive : path ∉ s.live := fun hin => by
      rw [← AList.lookup_isSome, hm] at hin
      cases hin
    have hdead : s.brings V b₀ path old = none ∧ s.records V b₀ path old = none :=
      mirrors_dead hclean hlive
    rw [hdead.1, hdead.2, shows, hm]
    exact ⟨rfl, rfl⟩
  | some m =>
    have hlive : path ∈ s.live := AList.lookup_isSome.mp (by rw [hm]; rfl)
    have hundue (hdue : s.due V b₀ path = none) :
        s.brings V b₀ path old = old ∧ s.records V b₀ path old = old.map V.crates.sha.hash := by
      rw [← hclean]
      exact Snapshot.brings_of_undue hlive hdue
    simp only [shows, hm]
    cases htarget : target V b₀ m with
    | error e =>
      obtain ⟨hbrings, hrecords⟩ := hundue (by simp only [Snapshot.due, hm, htarget])
      rw [hbrings, hrecords]
      exact ⟨rfl, rfl⟩
    | ok content =>
      cases content with
      | none =>
        obtain ⟨hbrings, hrecords⟩ := hundue (by simp only [Snapshot.due, hm, htarget])
        rw [hbrings, hrecords]
        exact ⟨rfl, rfl⟩
      | some content =>
        obtain ⟨bytes, hash⟩ := content
        by_cases hsame : s.existing.lookup path = some hash
        · obtain ⟨hbrings, hrecords⟩ :=
            hundue (by simp only [Snapshot.due, hm, htarget, if_pos hsame])
          rw [hbrings, hrecords, ← hclean, hsame]
          exact ⟨rfl, rfl⟩
        · obtain ⟨hbrings, hrecords⟩ :=
            mirrors_due hclean hlive (Snapshot.due_eq hm htarget hsame) hsame
          have hhash := Tracking.target_hash (hhonest m hm) htarget
          rw [hbrings, hrecords, Option.map_some, hhash]
          exact ⟨rfl, rfl⟩

theorem Brings.mirrors (hclean : Clean V b₀ path)
    (hhonest : ∀ m, l.live.lookup path = some m → Tracking.honest V b₀ m = true)
    (h : Brings V l b₀ b path) : (V.file b.fs path).map V.crates.sha.hash =
        shows V b₀ l path ((V.file b₀.fs path).map V.crates.sha.hash) ∧ Clean V b path := by
  obtain ⟨hmirrors, hrecords⟩ := mirrors_of_clean (s := snapshotAt l b₀) hclean hhonest
  rw [Clean, h.file, h.materialized]
  exact ⟨hmirrors, hrecords⟩

/-- What is shown goes by the registers, where it is there. -/
theorem target_agrees {τ : Type} {V' : Setting τ} {b' : Bound τ} {m : FileMeta}
    {bytes bytes' : Bytes} {hash hash' : Str} (hcrates : V'.crates = V.crates)
    (hget : ∀ a, b'.doc.root.get a = b.doc.root.get a)
    (h : target V b m = .ok (some (bytes, hash)))
    (h' : target V' b' m = .ok (some (bytes', hash'))) : hash' = hash := by
  unfold target at h h'
  cases hkind : m.kind with
  | text =>
    simp only [hkind] at h h'
    obtain ⟨text, hread, h⟩ := bind_eq_ok.mp h
    obtain ⟨text', hread', h'⟩ := bind_eq_ok.mp h'
    rw [Root.readFileId_congr hget] at hread'
    obtain rfl := Except.ok.inj (hread.symm.trans hread')
    obtain ⟨rfl, rfl⟩ := Prod.mk.inj (Option.some.inj (Except.ok.inj h))
    obtain ⟨-, rfl⟩ := Prod.mk.inj (Option.some.inj (Except.ok.inj h'))
    rw [hcrates]
  | attachment =>
    simp only [hkind] at h h'
    cases hname : m.binaryHash with
    | none =>
      rw [hname] at h
      cases h
    | some name =>
      simp only [hname] at h h'
      split at h
      next =>
        split at h'
        next =>
          obtain ⟨-, rfl⟩ := Prod.mk.inj (Option.some.inj (Except.ok.inj h))
          obtain ⟨-, rfl⟩ := Prod.mk.inj (Option.some.inj (Except.ok.inj h'))
          rfl
        next => cases h'
      next => cases h

end

/-! ### Two devices -/

/-- A pass on a local disk that is left alone, and a path where nothing was edited before it and
of which, if it is live, the device has the content. -/
structure Mirroring (V : Setting Disk) (l : Listing) (b₀ b : Bound Disk) (path : Str) : Prop where
  adapter : V.adapter = nodeFsAdapter
  root : ['.', '.'] ∉ V.root
  tree : b₀.fs.Tree
  paths : ∀ q, q ∈ l.live ∨ q ∈ b₀.materialized → V.Filed q
  clear : Clear V b₀ b
  clean : Clean V b₀ path
  honest : ∀ m, l.live.lookup path = some m → Tracking.honest V b₀ m = true
  content : ∀ m, l.live.lookup path = some m → ∃ c, target V b₀ m = .ok (some c)

section

variable {V V' : Setting Disk} {l : Listing} {b₀ b b₀' b' : Bound Disk} {path : Str}

theorem Mirroring.mirrors (h : Mirroring V l b₀ b path) (hlist : list V b₀ = .ok l)
    (hpath : V.Filed path) : (V.file b.fs path).map V.crates.sha.hash =
        shows V b₀ l path ((V.file b₀.fs path).map V.crates.sha.hash) ∧ Clean V b path := by
  have hbrings := h.clear.brings (Setting.mapsFiles_local h.adapter h.root) h.tree hlist h.paths
    hpath
  exact hbrings.mirrors h.clean h.honest

/-- **Devices with the same document end up with the same files.** -/
theorem directories_agree (hcrates : V'.crates = V.crates)
    (hget : ∀ a, b₀'.doc.root.get a = b₀.doc.root.get a) (hlist : list V b₀ = .ok l)
    (h : Mirroring V l b₀ b path) (h' : Mirroring V' l b₀' b' path) (hpath : V.Filed path) :
    (V'.file b'.fs path).map V'.crates.sha.hash = (V.file b.fs path).map V.crates.sha.hash ∧
      ((V.file b.fs path).isSome = true ↔ path ∈ l.live) ∧ Clean V b path ∧ Clean V' b' path := by
  have hlist' : list V' b₀' = .ok l := by
    rw [list, hcrates, Root.listFiles_congr hget, Root.listDirectories_congr hget]
    exact hlist
  have hpath' : V'.Filed path := ⟨hcrates ▸ hpath.normalized, hpath.last⟩
  obtain ⟨hshows, hclean⟩ := h.mirrors hlist hpath
  obtain ⟨hshows', hclean'⟩ := h'.mirrors hlist' hpath'
  rw [hshows, hshows', ← Option.isSome_map, hshows]
  refine ⟨?_, ?_, hclean, hclean'⟩
  · unfold shows
    cases hm : l.live.lookup path with
    | none => rfl
    | some m =>
      obtain ⟨⟨bytes, hash⟩, htarget⟩ := h.content m hm
      obtain ⟨⟨bytes', hash'⟩, htarget'⟩ := h'.content m hm
      simp only [htarget, htarget', target_agrees hcrates hget htarget htarget']
  · rw [← AList.lookup_isSome]
    unfold shows
    cases hm : l.live.lookup path with
    | none => rfl
    | some m =>
      obtain ⟨⟨bytes, hash⟩, htarget⟩ := h.content m hm
      simp only [htarget]
      exact Iff.rfl

end

open Watching (keysDoc keysPath)

/-- A device that has the keys as they were before, as it wrote them. -/
private def stale : Bound Disk :=
  {Bound.fresh keysDoc (Disk.vaultDir.put keysPath (.file (utf8 (txt "b")))) with
    materialized := (∅ : Hashes).insert authorizedKeysFile (letterDigest.hash (utf8 (txt "b")))}

/-- What `Mirroring` asks of a vault that has the file of keys only. -/
private def mirrorsKeys (l : Listing) (b : Bound Disk) : Bool :=
  keysOnly b l && decide (b.materialized.lookup authorizedKeysFile =
      (Setting.localDisk.file b.fs authorizedKeysFile).map letterDigest.hash) &&
    (l.live.lookup authorizedKeysFile).all fun m =>
      Tracking.honest .localDisk b m && (target Setting.localDisk b m).toOption.any Option.isSome

private theorem mirroring_keys {l : Listing} {b b' : Bound Disk} {steps : Nat}
    (htree : b.fs.Tree) (h : mirrorsKeys l b = true) (hpass : clearPass b steps = some b') :
    Mirroring .localDisk l b b' authorizedKeysFile := by
  simp only [mirrorsKeys, Bool.and_eq_true] at h
  obtain ⟨⟨hkeys, hclean⟩, hcontent⟩ := h
  have hcontent (m : FileMeta) (hm : l.live.lookup authorizedKeysFile = some m) :
      Tracking.honest .localDisk b m = true ∧
        (target Setting.localDisk b m).toOption.any Option.isSome = true := by
    rw [hm] at hcontent
    exact Bool.and_eq_true_iff.mp hcontent
  have hclean : b.materialized.lookup authorizedKeysFile =
      (Setting.localDisk.file b.fs authorizedKeysFile).map letterDigest.hash :=
    of_decide_eq_true hclean
  refine ⟨rfl, by decide, htree, fun q hq => filed_of_keysOnly hkeys hq, clear_of_clearPass hpass,
    hclean, fun m hm => (hcontent m hm).1, fun m hm => ?_⟩
  obtain ⟨c, hc, hsome⟩ := (Option.any_eq_true _ _).mp (hcontent m hm).2
  obtain ⟨c, rfl⟩ := Option.isSome_iff_exists.mp hsome
  exact ⟨c, eq_ok_of_toOption hc⟩

theorem directories_agree_stale : ∃ b b', Clear .localDisk (.fresh keysDoc .vaultDir) b ∧
    Clear .localDisk stale b' ∧
    (Setting.localDisk.file b'.fs authorizedKeysFile).map letterDigest.hash =
      (Setting.localDisk.file b.fs authorizedKeysFile).map letterDigest.hash := by
  have hlisted : ((list Setting.localDisk (.fresh keysDoc .vaultDir)).toOption.any fun l =>
      mirrorsKeys l (.fresh keysDoc .vaultDir) && mirrorsKeys l stale) = true := by
    decide +kernel
  have hpass : (clearPass (.fresh keysDoc .vaultDir) 16).isSome = true := by
    decide +kernel
  have hpass' : (clearPass stale 17).isSome = true := by
    decide +kernel
  obtain ⟨l, hlist, hlisted⟩ := (Option.any_eq_true _ _).mp hlisted
  obtain ⟨hnew, hold⟩ := Bool.and_eq_true_iff.mp hlisted
  obtain ⟨b, hb⟩ := Option.isSome_iff_exists.mp hpass
  obtain ⟨b', hb'⟩ := Option.isSome_iff_exists.mp hpass'
  have htree : stale.fs.Tree := tree_vaultDir.put rfl (by decide) _
  have hdoc : stale.doc = (Bound.fresh keysDoc Disk.vaultDir).doc := by
    simp only [stale, Bound.fresh]
  have hagree := directories_agree rfl (fun a => by rw [hdoc]) (eq_ok_of_toOption hlist)
    (mirroring_keys tree_vaultDir hnew hb) (mirroring_keys htree hold hb') filed_keys
  exact ⟨b, b', clear_of_clearPass hb, clear_of_clearPass hb', hagree.1⟩

end Pass

end AgentSync
