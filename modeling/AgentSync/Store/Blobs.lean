import AgentSync.Fs.Disk

/-! The content-addressed blob store.

A blob lives in the file its hash names. The name is joined to the store's directory
as it comes; only `put_with_hash` compares it with the content. -/
namespace AgentSync

structure BlobStore where
  root : PathBuf
  deriving DecidableEq

namespace BlobStore

variable (H : ContentHash) (store : BlobStore) (d : Disk)

def blobPath (hash : Str) : PathBuf := store.root.join hash

/-- The temporary file a blob is written to first. -/
def tmpPath (hash : Str) : PathBuf := store.root.join (txt ".tmp." ++ hash)

def has (hash : Str) : Bool := (d.metadata (store.blobPath hash)).isOk

/-- What `get` makes of what `fs::read` gives. -/
def got (hash : Str) : Except IoError Bytes → Except Error Bytes
  | .ok bytes => .ok bytes
  | .error .notFound => .error (.notFound (txt "blob: " ++ hash))
  | .error e => .error (.io e.text)

def get (hash : Str) : Except Error Bytes := got hash (d.read (store.blobPath hash))

/-- Writing the blob under its name, through the temporary file. -/
def save (hash : Str) (bytes : Bytes) : Disk × Except Error Unit :=
  if store.has d hash then (d, .ok ())
  else
    match d.write (store.tmpPath hash) bytes with
    | .error e => (d, .error (.io e.text))
    | .ok d =>
      match d.rename (store.tmpPath hash) (store.blobPath hash) with
      | .error e => (d, .error (.io e.text))
      | .ok d => (d, .ok ())

def put (bytes : Bytes) : Disk × Except Error Str :=
  match d.createDirAll store.root with
  | (d, .error e) => (d, .error (.io e.text))
  | (d, .ok _) =>
    let hash := H.hash bytes
    match store.save d hash bytes with
    | (d, .error e) => (d, .error e)
    | (d, .ok _) => (d, .ok hash)

def putWithHash (hash : Str) (bytes : Bytes) : Disk × Except Error Unit :=
  match d.createDirAll store.root with
  | (d, .error e) => (d, .error (.io e.text))
  | (d, .ok _) =>
    let computed := H.hash bytes
    if computed != hash then
      (d, .error (.other (txt "blob hash mismatch: expected " ++ hash ++ txt ", computed " ++
        computed)))
    else store.save d hash bytes

/-! ### Names in the store's directory -/

open Disk (PlainName)

theorem plainName_hash (b : Bytes) : PlainName (H.hash b) :=
  .of_length (by rw [H.length]; decide) (fun h => absurd (H.hex b _ h) (by decide))
    (fun h => absurd (H.hex b _ h) (by decide))

theorem plainName_tmp (b : Bytes) : PlainName (txt ".tmp." ++ H.hash b) := by
  refine .of_length (by rw [List.length_append, H.length]; decide) (fun h => ?_) (fun h => ?_)
  · obtain h | h := List.mem_append.mp h
    · exact absurd h (by decide)
    · exact (plainName_hash H b).slash h
  · obtain h | h := List.mem_append.mp h
    · exact absurd h (by decide)
    · exact (plainName_hash H b).nul h

/-! ### What a push does to the disk -/

variable {H store d}

theorem keepsDirs_save (hash : Str) (bytes : Bytes) :
    Disk.KeepsDirs d (store.save d hash bytes).1 := by
  unfold save
  split
  next => exact fun _ h => h
  next =>
    split
    next => exact fun _ h => h
    next d₁ hwrite =>
      have h₁ := Disk.keepsDirs_write hwrite
      split
      next => exact h₁
      next d₂ hrename => exact h₁.trans (Disk.keepsDirs_rename hrename)

/-- The store's directory survives a push. -/
theorem isDir_putWithHash (hroot : d.IsDir store.root) (hash : Str) (bytes : Bytes) :
    (store.putWithHash H d hash bytes).1.IsDir store.root := by
  simp only [putWithHash, hroot.createDirAll]
  split
  next => exact hroot
  next => exact hroot.mono (keepsDirs_save hash bytes)

/-- A put answers with the name of the blob. -/
theorem hash_of_put {hash : Str} {bytes : Bytes} {d' : Disk}
    (h : store.put H d bytes = (d', .ok hash)) : hash = H.hash bytes := by
  unfold put at h
  split at h
  next => cases h
  next =>
    simp only at h
    split at h
    next => cases h
    next => exact (Except.ok.inj (Prod.mk.inj h).2).symm

/-- A blob that is not there yet, once its temporary file is written, is there. -/
theorem has_save (hroot : d.IsDir store.root) {bytes : Bytes} {d₁ : Disk}
    (hnew : store.has d (H.hash bytes) = false)
    (hwrite : d.write (store.tmpPath (H.hash bytes)) bytes = .ok d₁) :
    store.has (store.save d (H.hash bytes) bytes).1 (H.hash bytes) = true := by
  obtain ⟨l, hl, hdir⟩ := Disk.isDir_iff.mp hroot
  have hdst : d.locate (store.blobPath (H.hash bytes)) = .ok (l ++ [H.hash bytes]) :=
    (plainName_hash H bytes).locate hl hdir
  have htmp : d.locate (store.tmpPath (H.hash bytes)) = .ok (l ++ [txt ".tmp." ++ H.hash bytes]) :=
    (plainName_tmp H bytes).locate hl hdir
  have hne : l ++ [H.hash bytes] ≠ l ++ [txt ".tmp." ++ H.hash bytes] := by
    intro h
    have hlen := congrArg List.length (List.singleton_injective (List.append_cancel_left h))
    rw [List.length_append, H.length] at hlen
    exact absurd hlen (by decide)
  have hnone : d.node (l ++ [H.hash bytes]) = none := by
    simp only [has, Disk.metadata, hdst, bind, Except.bind] at hnew
    split at hnew
    next => cases hnew
    next h => exact h
  have hkeeps := Disk.keepsDirs_write hwrite
  obtain ⟨t, ht, hnotdir, rfl⟩ := Disk.write_eq_ok.mp hwrite
  obtain rfl := Except.ok.inj (htmp.symm.trans ht)
  obtain ⟨d₂, hrename⟩ : ∃ d₂, (d.put _ (.file bytes)).rename (store.tmpPath (H.hash bytes))
      (store.blobPath (H.hash bytes)) = .ok d₂ := by
    refine ⟨_, Disk.rename_eq_ok.mpr ⟨_, _, bytes, Disk.locate_mono hkeeps htmp,
      Disk.locate_mono hkeeps hdst, ?_, ?_, rfl⟩⟩
    · rw [Disk.node_put _ (by simp), if_pos rfl]
    · rw [Disk.node_put _ (by simp), if_neg hne, hnone]
      simp
  have hkeeps₂ := hkeeps.trans (Disk.keepsDirs_rename hrename)
  obtain ⟨_, m, bytes', -, hm, -, -, hd₂⟩ := Disk.rename_eq_ok.mp hrename
  obtain rfl := Except.ok.inj ((Disk.locate_mono hkeeps hdst).symm.trans hm)
  have hsave : store.save d (H.hash bytes) bytes = (d₂, .ok ()) := by
    simp only [save, hnew, hwrite, hrename, Bool.false_eq_true, if_false]
  rw [hsave]
  simp only [has, Disk.metadata, Disk.locate_mono hkeeps₂ hdst, bind, Except.bind]
  rw [hd₂, Disk.node_put _ (by simp), if_pos rfl]
  rfl

/-- **A push changes the disk exactly when** the bytes have the hash they are sent under, the
blob is not there and the temporary file can be written. -/
theorem putWithHash_eq_self_iff (hroot : d.IsDir store.root) (hash : Str) (bytes : Bytes) :
    (store.putWithHash H d hash bytes).1 = d ↔
      H.hash bytes ≠ hash ∨ store.has d hash = true ∨
        (d.write (store.tmpPath hash) bytes).isOk = false := by
  simp only [putWithHash, hroot.createDirAll]
  by_cases hhash : H.hash bytes = hash
  · subst hhash
    simp only [bne_self_eq_false, Bool.false_eq_true, if_false, ne_eq, not_true_eq_false,
      false_or]
    cases hnew : store.has d (H.hash bytes) with
    | true => simp [save, hnew]
    | false =>
      cases hwrite : d.write (store.tmpPath (H.hash bytes)) bytes with
      | error e => simp [save, hnew, hwrite, Except.isOk, Except.toBool]
      | ok d' =>
        have hhas := has_save hroot hnew hwrite
        simp only [Except.isOk, Except.toBool, Bool.false_eq_true, Bool.true_eq_false, or_self,
          iff_false]
        intro heq
        rw [heq, hnew] at hhas
        cases hhas
  · simp [hhash]

/-! ### Digests -/

/-- What a digest looks like. -/
def IsDigest (name : Str) : Prop :=
  name.length = 64 ∧ ∀ c ∈ name, c ∈ txt "0123456789abcdef"

instance (name : Str) : Decidable (IsDigest name) := inferInstanceAs (Decidable (_ ∧ _))

theorem IsDigest.plainName {name : Str} (h : IsDigest name) : PlainName name :=
  .of_length (by rw [h.1]; decide) (fun hc => absurd (h.2 _ hc) (by decide))
    (fun hc => absurd (h.2 _ hc) (by decide))

theorem isDigest_hash (b : Bytes) : IsDigest (H.hash b) := ⟨H.length b, H.hex b⟩

theorem not_isDigest_tmp (hash : Str) : ¬ IsDigest (txt ".tmp." ++ hash) := fun h =>
  absurd (h.2 '.' (List.mem_append_left _ (by decide))) (by decide)

end BlobStore

end AgentSync
