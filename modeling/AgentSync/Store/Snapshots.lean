import AgentSync.Base64
import AgentSync.Doc.History
import AgentSync.Fs.Disk

/-! The snapshot index of a native host.

`index.json` holds the labels with their heads as base64 without padding. `read` decodes the heads
of each label, and where they do not decode the label is read with none: a label of the empty
document. The file is read as it is written where all heads in it are encodings (`read_faithful`),
as they are in every file that `write` has made. -/
namespace AgentSync.NativeSnapshotStorage

open Base64 (encodeNoPad decodeNoPad)

/-- An entry, as the host's interface has it. -/
structure SnapshotEntry where
  label : Str
  heads : List ChangeHash
  createdAtMs : Int
  deriving DecidableEq

structure OnDiskEntry where
  label : Str
  heads : Str
  createdAt : Int
  deriving DecidableEq, Repr

structure OnDiskFile where
  schemaVersion : Int
  labels : List OnDiskEntry
  deriving DecidableEq, Repr

/-- `serde_json`, and what the error of a base64 decoder displays. -/
structure Formats where
  fromSlice : Bytes → Except Str OnDiskFile
  toStringPretty : OnDiskFile → Except Str Str
  decodeError : Str → Str

def encodeHeads (heads : List ChangeHash) : Str := encodeNoPad (Doc.encodeHeads heads)

section Storage
variable (F : Formats) (root : PathBuf)

def decodeB64Heads (s : Str) : Except Error (List ChangeHash) :=
  match decodeNoPad s with
  | none => .error (.other (txt "base64: " ++ F.decodeError s))
  | some bytes =>
    if bytes.length % 32 ≠ 0 then
      .error (.other (txt "encoded heads not a multiple of 32: " ++ (toString bytes.length).toList))
    else .ok (Doc.chunks (bytes.length / 32) bytes)

/-- `index_path`; `root` is the directory of the index. -/
def indexPath : PathBuf := root.join (txt "index.json")

def tmpPath : PathBuf := root.join (txt ".index.json.tmp")

/-- `unwrap_or_default`. -/
def unwrapOrDefault : Except Error (List ChangeHash) → List ChangeHash
  | .ok heads => heads
  | .error _ => []

def fromDisk (e : OnDiskEntry) : SnapshotEntry :=
  ⟨e.label, unwrapOrDefault (decodeB64Heads F e.heads), e.createdAt⟩

def toDisk (e : SnapshotEntry) : OnDiskEntry := ⟨e.label, encodeHeads e.heads, e.createdAtMs⟩

def onDisk (entries : List SnapshotEntry) : OnDiskFile := ⟨1, entries.map toDisk⟩

def read (d : Disk) : Except Error (List SnapshotEntry) :=
  match d.read (indexPath root) with
  | .ok bytes =>
    match F.fromSlice bytes with
    | .error e => .error (.serdeJson e)
    | .ok f => .ok (f.labels.map (fromDisk F))
  | .error .notFound => .ok []
  | .error e => .error (.io e.text)

def write (entries : List SnapshotEntry) (d : Disk) : Disk × Except Error Unit :=
  match d.createDirAll root with
  | (d, .error e) => (d, .error (.io e.text))
  | (d, .ok _) =>
    match F.toStringPretty (onDisk entries) with
    | .error e => (d, .error (.serdeJson e))
    | .ok json =>
      match d.write (tmpPath root) (utf8 json) with
      | .error e => (d, .error (.io e.text))
      | .ok d =>
        match d.rename (tmpPath root) (indexPath root) with
        | .error e => (d, .error (.io e.text))
        | .ok d => (d, .ok ())

end Storage

/-- The bytes of the heads are encoded as they should be. -/
def HeadsEncoded (e : OnDiskEntry) : Prop :=
  ∃ bytes : Bytes, 32 ∣ bytes.length ∧ e.heads = encodeNoPad bytes

/-- What is read is what the file has, label by label, or it is refused. -/
def ReadsFaithfully (F : Formats) (root : PathBuf) (d : Disk) (content : Bytes) : Prop :=
  ∀ entries, read F root d = .ok entries →
    ∃ f, F.fromSlice content = .ok f ∧ entries.map toDisk = f.labels

variable {F : Formats} {root : PathBuf} {d d' : Disk} {s : Str} {e : OnDiskEntry}
variable {heads : List ChangeHash} {entries : List SnapshotEntry}

/-! ### Heads -/

/-- Heads are read when they are encoded, and then they are the ones. -/
theorem decodeB64Heads_eq_ok : decodeB64Heads F s = .ok heads ↔ s = encodeHeads heads := by
  constructor
  · intro h
    unfold decodeB64Heads at h
    split at h
    next => cases h
    next bytes hdecode =>
      split at h
      next => cases h
      next hlen =>
        obtain rfl := Except.ok.inj h
        rw [encodeHeads, Doc.encodeHeads_chunks (by omega)]
        exact Base64.decodeNoPad_eq_some.mp hdecode
  · intro h
    have hlen := Doc.length_encodeHeads heads
    rw [decodeB64Heads, Base64.decodeNoPad_eq_some.mpr h]
    simp only
    rw [if_neg (by omega), hlen, Nat.mul_div_cancel_left _ (by decide), Doc.chunks_encodeHeads]

theorem headsEncoded_iff : HeadsEncoded e ↔ ∃ heads, e.heads = encodeHeads heads := by
  constructor
  · intro h
    obtain ⟨bytes, hlen, h⟩ := h
    refine ⟨Doc.chunks (bytes.length / 32) bytes, ?_⟩
    rw [encodeHeads, Doc.encodeHeads_chunks (Nat.mul_div_cancel' hlen).symm, h]
  · intro h
    obtain ⟨heads, h⟩ := h
    exact ⟨Doc.encodeHeads heads, ⟨heads.length, Doc.length_encodeHeads heads⟩, h⟩

/-- An entry is read as it is in the file where its heads are encoded, and otherwise without any. -/
theorem toDisk_fromDisk : toDisk (fromDisk F e) = e ↔ HeadsEncoded e := by
  rw [headsEncoded_iff]
  constructor
  · intro h
    exact ⟨_, (congrArg OnDiskEntry.heads h).symm⟩
  · intro h
    obtain ⟨heads, h⟩ := h
    rw [toDisk, fromDisk, decodeB64Heads_eq_ok.mpr h]
    exact congrArg (OnDiskEntry.mk e.label · e.createdAt) h.symm

theorem fromDisk_toDisk (e : SnapshotEntry) : fromDisk F (toDisk e) = e := by
  have hheads : decodeB64Heads F (toDisk e).heads = .ok e.heads := decodeB64Heads_eq_ok.mpr rfl
  rw [fromDisk, hheads]
  rfl

/-! ### The file -/

theorem read_of_content {content : Bytes} (h : d.read (indexPath root) = .ok content) :
    read F root d = match F.fromSlice content with
      | .error e => .error (.serdeJson e)
      | .ok f => .ok (f.labels.map (fromDisk F)) := by
  rw [read, h]

/-- What has been written is in the file. -/
theorem write_eq_ok (h : write F root entries d = (d', .ok ())) :
    ∃ json, F.toStringPretty (onDisk entries) = .ok json ∧
      d'.read (indexPath root) = .ok (utf8 json) := by
  unfold write at h
  split at h
  next => cases h
  next d₁ _ _ =>
    split at h
    next => cases h
    next json hjson =>
      split at h
      next => cases h
      next d₂ hwrite =>
        split at h
        next => cases h
        next d₃ hrename =>
          obtain rfl := congrArg Prod.fst h
          exact ⟨json, hjson, Disk.read_of_rename hrename (Disk.read_of_write hwrite)⟩

/-- **A file is read as it is, or refused, exactly when it is none or its heads are encoded**, and
what has been written is read back. -/
theorem read_faithful (F : Formats) (root : PathBuf) :
    (∀ d content, d.read (indexPath root) = .ok content →
      (ReadsFaithfully F root d content ↔
        ∀ f, F.fromSlice content = .ok f → ∀ e ∈ f.labels, HeadsEncoded e)) ∧
    ∀ entries d d', write F root entries d = (d', .ok ()) →
      (∀ json, F.toStringPretty (onDisk entries) = .ok json →
        F.fromSlice (utf8 json) = .ok (onDisk entries)) →
      read F root d' = .ok entries := by
  refine ⟨fun d content hcontent => ?_, fun entries d d' hwrite hjson => ?_⟩
  · rw [ReadsFaithfully, read_of_content hcontent]
    cases hparse : F.fromSlice content with
    | error e => simp
    | ok f =>
      have hsame : (f.labels.map (fromDisk F)).map toDisk = f.labels ↔
          ∀ e ∈ f.labels, HeadsEncoded e := by
        conv_lhs => rw [List.map_map, ← List.map_id f.labels, List.map_map, List.map_inj_left]
        exact forall₂_congr fun e _ => toDisk_fromDisk
      simp only [Except.ok.injEq, forall_eq', exists_eq_left']
      exact hsame
  · obtain ⟨json, hpretty, hread⟩ := write_eq_ok hwrite
    have hentries : entries.map (fromDisk F ∘ toDisk) = entries :=
      List.map_id'' (fun e => fromDisk_toDisk e) entries
    rw [read_of_content hread, hjson json hpretty]
    exact congrArg Except.ok ((List.map_map ..).trans hentries)

/-- What `to_string_pretty` makes of an entry with a plain label. -/
private def prettyEntry (e : OnDiskEntry) : Str :=
  txt "    \x7b\n      \"label\": \"" ++ e.label ++ txt "\",\n      \"heads\": \"" ++ e.heads ++
    txt "\",\n      \"created_at\": " ++ (toString e.createdAt).toList ++ txt "\n    \x7d"

private def prettyIndex (f : OnDiskFile) : Str :=
  txt "\x7b\n  \"schema_version\": " ++ (toString f.schemaVersion).toList ++
    txt ",\n  \"labels\": [\n" ++ (txt ",\n").intercalate (f.labels.map prettyEntry) ++
    txt "\n  ]\n\x7d"

private def corrupt : OnDiskFile := ⟨1, [⟨txt "v1", txt "not base64!", 0⟩]⟩

private def oneLabel : List SnapshotEntry := [⟨txt "v1", [Array32.fill 7], 0⟩]

/-- The formats, on the two files. -/
private def plainFormats : Formats where
  fromSlice := fun bytes =>
    if bytes = utf8 (prettyIndex corrupt) then .ok corrupt
    else if bytes = utf8 (prettyIndex (onDisk oneLabel)) then .ok (onDisk oneLabel)
    else .error (txt "expected value at line 1 column 1")
  toStringPretty := fun f => .ok (prettyIndex f)
  decodeError := fun _ => txt "Invalid symbol 32, offset 3."

private def snapshotsDir : PathBuf := [txt "snapshots"]

private def corruptDisk : Disk :=
  ((⟨∅⟩ : Disk).put snapshotsDir .dir).put (indexPath snapshotsDir)
    (.file (utf8 (prettyIndex corrupt)))

/-- Heads that are no base64 are read as none. -/
theorem read_corrupt :
    corruptDisk.read (indexPath snapshotsDir) = .ok (utf8 (prettyIndex corrupt)) ∧
    read plainFormats snapshotsDir corruptDisk = .ok [⟨txt "v1", [], 0⟩] ∧
    ¬ ReadsFaithfully plainFormats snapshotsDir corruptDisk (utf8 (prettyIndex corrupt)) := by
  have hread : read plainFormats snapshotsDir corruptDisk = .ok [⟨txt "v1", [], 0⟩] := by
    decide +kernel
  refine ⟨by decide +kernel, hread, fun h => ?_⟩
  obtain ⟨f, hf, hlabels⟩ := h _ hread
  have hparse : plainFormats.fromSlice (utf8 (prettyIndex corrupt)) = .ok corrupt := by
    decide +kernel
  obtain rfl := Except.ok.inj (hparse.symm.trans hf)
  exact absurd hlabels (by decide)

theorem read_faithful_v1 :
    read plainFormats snapshotsDir (write plainFormats snapshotsDir oneLabel ⟨∅⟩).1 =
      .ok oneLabel := by
  have hwrite : (write plainFormats snapshotsDir oneLabel ⟨∅⟩).2 = .ok () := by decide +kernel
  refine (read_faithful plainFormats snapshotsDir).2 oneLabel ⟨∅⟩ _ (Prod.ext rfl hwrite) ?_
  intro json hjson
  obtain rfl := Except.ok.inj hjson
  decide +kernel

end AgentSync.NativeSnapshotStorage
